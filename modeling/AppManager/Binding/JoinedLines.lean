import AppManager.Binding.UnitContent

/-! Values end with their lines, and the lines that the binding keeps are joined. -/

namespace AppManager.Binding
open AppManager.Lib AppManager.Lib.Libc AppManager.Units

def Joined (text : Bytes) : Prop := ¬[backslash, newline] <:+: text

section
variable (rest : Bytes)

theorem decodeValue_newline : decodeValue (newline :: rest) = ([], rest) := by
  cases rest <;> rfl

theorem decodeValue_plain (byte : Byte) (other : byte ≠ newline) (normal : byte ≠ backslash) :
    decodeValue (byte :: rest) = (byte :: (decodeValue rest).1, (decodeValue rest).2) := by
  cases rest with
  | nil => simp only [decodeValue, if_neg other]
  | cons next rest => rw [decodeValue, if_neg other, if_pos normal]

theorem decodeValue_letter : decodeValue (backslash :: 'n'.toUInt8 :: rest) =
    (newline :: (decodeValue rest).1, (decodeValue rest).2) := by
  rw [decodeValue, if_neg (by decide), if_neg (by decide), if_pos rfl]

theorem decodeValue_blank : decodeValue (backslash :: newline :: rest) =
    (32 :: (decodeValue rest).1, (decodeValue rest).2) := by
  rw [decodeValue, if_neg (by decide), if_neg (by decide), if_neg (by decide), if_pos rfl]

theorem decodeValue_pair (next : Byte) (letter : next ≠ 'n'.toUInt8) (other : next ≠ newline) :
    decodeValue (backslash :: next :: rest) =
      (backslash :: next :: (decodeValue rest).1, (decodeValue rest).2) := by
  rw [decodeValue, if_neg (by decide), if_neg (by decide), if_neg letter, if_neg other]

end

theorem decodeValue_line (part rest : Bytes) (plain : newline ∉ part) (ends : part.getLast? ≠ some backslash) :
    decodeValue (part ++ newline :: rest) = ((decodeValue part).1, rest) := by
  induction size : part.length using Nat.strong_induction_on generalizing part with
  | _ size' ih =>
    subst size
    cases part with
    | nil => exact decodeValue_newline rest
    | cons byte others =>
      rw [List.mem_cons, not_or] at plain
      by_cases escape : byte = backslash
      · subst escape
        cases others with
        | nil => exact absurd rfl ends
        | cons next others =>
          rw [List.mem_cons, not_or] at plain
          have known : decodeValue (others ++ newline :: rest) = ((decodeValue others).1, rest) := by
            apply ih others.length (by simp only [List.length_cons]; omega) others plain.2.2 _ rfl
            intro last
            apply ends
            rw [List.getLast?_cons_cons, List.getLast?_cons, last]
            rfl
          rw [List.cons_append, List.cons_append]
          by_cases letter : next = 'n'.toUInt8
          · rw [letter, decodeValue_letter, decodeValue_letter, known]
          · rw [decodeValue_pair _ _ letter (Ne.symm plain.2.1), decodeValue_pair _ _ letter (Ne.symm plain.2.1), known]
      · rw [List.cons_append, decodeValue_plain _ _ (Ne.symm plain.1) escape,
          decodeValue_plain _ _ (Ne.symm plain.1) escape, ih others.length (Nat.lt_succ_self _) others plain.2 _ rfl]
        intro last
        apply ends
        rw [List.getLast?_cons, last]
        rfl

theorem decodeValue_open (part : Bytes) (plain : newline ∉ part) : (decodeValue part).2 = [] := by
  fun_induction decodeValue part with
  | case1 => rfl
  | case2 => rfl
  | case3 => rfl
  | case4 => simp at plain
  | case5 byte next rest other normal ih => exact ih (fun inside => plain (List.mem_cons_of_mem _ inside))
  | case6 byte rest other escape ih =>
    exact ih (fun inside => plain (List.mem_cons_of_mem _ (List.mem_cons_of_mem _ inside)))
  | case7 => simp at plain
  | case8 byte next rest other escape letter unbroken ih =>
    exact ih (fun inside => plain (List.mem_cons_of_mem _ (List.mem_cons_of_mem _ inside)))

theorem joined_cons (byte : Byte) (rest : Bytes) :
    Joined (byte :: rest) ↔ ¬(byte = backslash ∧ rest.head? = some newline) ∧ Joined rest := by
  rw [Joined, Joined, List.infix_cons_iff, not_or]
  refine and_congr_left fun _ => not_congr ?_
  rw [List.cons_prefix_cons]
  cases rest with
  | nil => simp
  | cons next others =>
    rw [List.cons_prefix_cons, List.head?_cons, Option.some.injEq]
    exact ⟨fun both => ⟨both.1.symm, both.2.1.symm⟩, fun both => ⟨both.1.symm, both.2.symm, List.nil_prefix⟩⟩

theorem joined_append (before after : Bytes) (joined : Joined (before ++ after)) : Joined before ∧ Joined after :=
  ⟨fun inside => joined (inside.trans (List.prefix_append before after).isInfix),
    fun inside => joined (inside.trans (List.suffix_append before after).isInfix)⟩

theorem joined_line (line rest : Bytes) (joined : Joined (line ++ newline :: rest)) :
    line.getLast? ≠ some backslash ∧ Joined rest := by
  constructor
  · intro last
    obtain ⟨front, same⟩ := List.getLast?_eq_some_iff.mp last
    apply joined
    exact ⟨front, rest, by rw [same]; simp⟩
  · have tail := (joined_append line _ joined).2
    rw [joined_cons] at tail
    exact tail.2

theorem cropFrom_escaped (content : Bytes) : (cropFrom .escaped content).head? ≠ some newline := by
  induction content with
  | nil => simp [cropFrom]
  | cons byte rest ih =>
    rw [cropFrom]
    split
    · exact ih
    · rw [if_neg (by decide), if_neg (by simp), if_neg (by simp)]
      split
      · simp [newline]
      · simp [backslash, newline]

theorem cropFrom_joined (state : Cropping) (content : Bytes) : Joined (cropFrom state content) := by
  induction content generalizing state with
  | nil =>
    rw [cropFrom]
    split
    · exact (joined_cons _ _).mpr ⟨by simp, by simp [Joined]⟩
    · simp [Joined]
  | cons byte rest ih =>
    rw [cropFrom]
    split
    · exact ih state
    · split
      · exact ih _
      · split
        · exact ih .comment
        · split
          · exact ih .begin
          · split
            · exact (joined_cons _ _).mpr ⟨by simp [backslash], ih .line⟩
            · next unbroken =>
              have kept : Joined (if byte = backslash then cropFrom .escaped rest
                  else byte :: cropFrom (if byte = newline then .begin else .line) rest) := by
                split
                · exact ih .escaped
                · next normal => exact (joined_cons _ _).mpr ⟨fun both => normal both.1, ih _⟩
              split
              · next escaped =>
                refine (joined_cons _ _).mpr ⟨fun both => ?_, kept⟩
                split at both
                · exact cropFrom_escaped rest both.2
                · exact unbroken ⟨escaped, Option.some.inj both.2⟩
              · exact kept

end AppManager.Binding
