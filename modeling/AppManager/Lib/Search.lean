import AppManager.Lib.Libc

/-! The search of a text in a text. -/

namespace AppManager.Lib.Libc

/-- The text from the first occurrence of a needle on. -/
def strstr (needle : Bytes) : Bytes → Option Bytes
  | [] => if needle = [] then some [] else none
  | byte :: rest => if needle <+: byte :: rest then some (byte :: rest) else strstr needle rest

/-- A found text starts with the needle, and no occurrence starts before it. -/
theorem strstr_some (needle text found : Bytes) (result : strstr needle text = some found) :
    needle <+: found ∧ ∃ before, text = before ++ found ∧
      ∀ first second, before = first ++ second → second ≠ [] → ¬needle <+: second ++ found := by
  induction text with
  | nil =>
    rw [strstr] at result
    split at result
    · next empty =>
      rw [← Option.some.inj result, empty]
      exact ⟨List.prefix_refl _, [], rfl, fun first second split other => absurd
        (List.append_eq_nil_iff.mp split.symm).2 other⟩
    · cases result
  | cons byte rest ih =>
    rw [strstr] at result
    split at result
    · next here =>
      rw [← Option.some.inj result]
      exact ⟨here, [], rfl, fun first second split other => absurd (List.append_eq_nil_iff.mp split.symm).2 other⟩
    · next away =>
      obtain ⟨starts, before, split, none⟩ := ih result
      refine ⟨starts, byte :: before, by rw [split]; rfl, fun first second whole other => ?_⟩
      cases first with
      | nil =>
        rw [List.nil_append] at whole
        rw [← whole, List.cons_append, ← split]
        exact away
      | cons head tail =>
        rw [List.cons_append, List.cons.injEq] at whole
        exact none tail second whole.2 other

theorem strstr_length (needle text found : Bytes) (result : strstr needle text = some found) :
    found.length ≤ text.length := by
  obtain ⟨-, before, split, -⟩ := strstr_some needle text found result
  rw [split, List.length_append]
  omega

theorem strstr_at (needle before after : Bytes) (proper : needle ≠ []) (occurs : needle <+: after) :
    ∃ first second, before = first ++ second ∧ strstr needle (before ++ after) = some (second ++ after) := by
  induction before with
  | nil =>
    refine ⟨[], [], rfl, ?_⟩
    cases after with
    | nil => exact absurd (List.prefix_nil.mp occurs) proper
    | cons byte rest => rw [List.nil_append, strstr, if_pos occurs]
  | cons byte rest ih =>
    rw [List.cons_append, strstr]
    by_cases here : needle <+: byte :: (rest ++ after)
    · exact ⟨[], byte :: rest, rfl, if_pos here⟩
    · obtain ⟨first, second, split, found⟩ := ih
      exact ⟨byte :: first, second, by rw [split]; rfl, by rw [if_neg here]; exact found⟩

theorem strstr_starts (needle text : Bytes) (proper : needle ≠ []) (starts : needle <+: text) :
    strstr needle text = some text := by
  cases text with
  | nil => exact absurd (List.prefix_nil.mp starts) proper
  | cons byte rest => rw [strstr, if_pos starts]

theorem prefix_append_stop (stop : Byte) (needle text rest : Bytes) (plain : stop ∉ needle) :
    needle <+: text ++ stop :: rest ↔ needle <+: text := by
  induction needle generalizing text with
  | nil => simp
  | cons byte needle ih =>
    rw [List.mem_cons, not_or] at plain
    cases text with
    | nil =>
      rw [List.nil_append, List.cons_prefix_cons, List.prefix_nil]
      exact iff_of_false (fun both => plain.1 both.1.symm) (by simp)
    | cons head text => rw [List.cons_append, List.cons_prefix_cons, List.cons_prefix_cons, ih text plain.2]

theorem strstr_line (stop : Byte) (needle line rest : Bytes) (proper : needle ≠ []) (plain : stop ∉ needle) :
    strstr needle (line ++ stop :: rest) =
      match strstr needle line with
      | some found => some (found ++ stop :: rest)
      | none => strstr needle rest := by
  induction line with
  | nil =>
    have away : ¬needle <+: stop :: rest := by
      have same := prefix_append_stop stop needle [] rest plain
      rw [List.nil_append, List.prefix_nil] at same
      exact fun starts => proper (same.mp starts)
    have none : strstr needle [] = none := by rw [strstr, if_neg proper]
    rw [List.nil_append, none, strstr, if_neg away]
  | cons byte line ih =>
    have same := prefix_append_stop stop needle (byte :: line) rest plain
    rw [List.cons_append] at same
    rw [List.cons_append, strstr, strstr]
    by_cases here : needle <+: byte :: line
    · rw [if_pos (same.mpr here), if_pos here]
      rfl
    · rw [if_neg (fun starts => here (same.mp starts)), if_neg here]
      exact ih

end AppManager.Lib.Libc
