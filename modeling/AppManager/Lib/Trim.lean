import AppManager.Lib.Bytes
import Mathlib.Data.List.DropRight

/-! A text without the blanks at its ends, and texts that are equal without them. -/

namespace AppManager.Lib

variable {α : Type} {blank : α → Bool}

def Blanks (blank : α → Bool) (text : List α) : Prop := ∀ item ∈ text, blank item = true

/-- A text that neither starts nor ends with a blank. -/
structure Solid (blank : α → Bool) (text : List α) : Prop where
  starts : ∃ first rest, text = first :: rest ∧ ¬blank first = true
  ends : ∃ front last, text = front ++ [last] ∧ ¬blank last = true

def trim (blank : α → Bool) (text : List α) : List α := (text.dropWhile blank).rdropWhile blank

theorem Blanks.nil : Blanks blank [] := nofun

theorem Blanks.append {first second : List α} (start : Blanks blank first) (last : Blanks blank second) :
    Blanks blank (first ++ second) :=
  fun item member => (List.mem_append.mp member).elim (start item) (last item)

theorem Solid.single {item : α} (stops : ¬blank item = true) : Solid blank [item] :=
  ⟨⟨item, [], rfl, stops⟩, ⟨[], item, rfl, stops⟩⟩

/-- A solid text, and another after anything. -/
theorem Solid.append {first second : List α} (start : Solid blank first) (last : Solid blank second)
    (between : List α) : Solid blank (first ++ between ++ second) := by
  obtain ⟨item, rest, rfl, stops⟩ := start.starts
  obtain ⟨front, item', rfl, stops'⟩ := last.ends
  exact ⟨⟨item, rest ++ between ++ (front ++ [item']), by simp, stops⟩,
    ⟨item :: rest ++ between ++ front, item', by simp, stops'⟩⟩

theorem rdropWhile_blanks {text : List α} (blanks : Blanks blank text) : text.rdropWhile blank = [] :=
  List.rdropWhile_eq_nil_iff.mpr blanks

theorem rdropWhile_append {first : List α} {last : α} (stops : ¬blank last = true) (rest : List α) :
    (first ++ last :: rest).rdropWhile blank = first ++ last :: rest.rdropWhile blank := by
  induction rest using List.reverseRecOn with
  | nil => rw [List.rdropWhile_nil, List.rdropWhile_concat_neg _ _ _ stops]
  | append_singleton rest item ih =>
    have whole : first ++ last :: (rest ++ [item]) = first ++ last :: rest ++ [item] := by simp
    rw [whole]
    by_cases isBlank : blank item = true
    · rw [List.rdropWhile_concat_pos _ _ _ isBlank, List.rdropWhile_concat_pos _ _ _ isBlank, ih]
    · rw [List.rdropWhile_concat_neg _ _ _ isBlank, List.rdropWhile_concat_neg _ _ _ isBlank, whole]

theorem rdropWhile_solid {text : List α} (solid : Solid blank text) (rest : List α) :
    (text ++ rest).rdropWhile blank = text ++ rest.rdropWhile blank := by
  obtain ⟨front, last, rfl, stops⟩ := solid.ends
  rw [List.append_assoc, List.singleton_append, rdropWhile_append stops, List.append_assoc, List.singleton_append]

theorem trim_solid {lead text : List α} (blanks : Blanks blank lead) (solid : Solid blank text) (rest : List α) :
    trim blank (lead ++ text ++ rest) = text ++ rest.rdropWhile blank := by
  have starts : (lead ++ text ++ rest).dropWhile blank = text ++ rest := by
    obtain ⟨first, others, rfl, stops⟩ := solid.starts
    rw [List.append_assoc, List.dropWhile_append_of_pos blanks, List.cons_append, List.dropWhile_cons_of_neg stops]
  rw [trim, starts, rdropWhile_solid solid]

theorem trim_sublist (blank : α → Bool) (text : List α) : (trim blank text).Sublist text :=
  (List.rdropWhile_prefix _ _).sublist.trans (List.dropWhile_sublist _)

theorem trim_eq_nil {text : List α} : trim blank text = [] ↔ Blanks blank text := by
  rw [trim, List.rdropWhile_eq_nil_iff]
  constructor
  · intro blanks item member
    rw [← List.takeWhile_append_dropWhile (p := blank) (l := text)] at member
    rcases List.mem_append.mp member with inside | after
    · exact List.mem_takeWhile_imp inside
    · exact blanks item after
  · intro blanks item member
    exact blanks item ((List.dropWhile_suffix blank).subset member)

theorem solid_parts {text : List α} (proper : ¬Blanks blank text) :
    ∃ lead inner after, text = lead ++ inner ++ after ∧ Blanks blank lead ∧ Solid blank inner ∧ Blanks blank after := by
  have some : text.dropWhile blank ≠ [] := mt List.dropWhile_eq_nil_iff.mp proper
  have some' : (text.dropWhile blank).rdropWhile blank ≠ [] := mt trim_eq_nil.mp proper
  refine ⟨text.takeWhile blank, trim blank text, (text.dropWhile blank).rtakeWhile blank, ?_, ?_, ⟨?_, ?_⟩, ?_⟩
  · rw [List.append_assoc, trim, List.rdropWhile_append_rtakeWhile, List.takeWhile_append_dropWhile]
  · exact fun item member => List.mem_takeWhile_imp member
  · obtain ⟨first, rest, whole⟩ := List.exists_cons_of_ne_nil some'
    refine ⟨first, rest, whole, fun isBlank => ?_⟩
    obtain ⟨others, starts⟩ : trim blank text <+: text.dropWhile blank := List.rdropWhile_prefix blank _
    have stops := List.head?_dropWhile_not blank text
    rw [← starts, trim, whole, List.cons_append, List.head?_cons] at stops
    have stops : blank first = false := stops
    exact Bool.false_ne_true (stops.symm.trans isBlank)
  · refine ⟨(trim blank text).dropLast, (trim blank text).getLast some', ?_, ?_⟩
    · exact (List.dropLast_append_getLast some').symm
    · exact List.rdropWhile_last_not _ _ some'
  · exact fun item member => List.mem_rtakeWhile_imp member

theorem blanks_unique {lead lead' : List α} (blanks : Blanks blank lead) (blanks' : Blanks blank lead') {item item' : α}
    (stops : ¬blank item = true) (stops' : ¬blank item' = true) {rest rest' : List α}
    (same : lead ++ item :: rest = lead' ++ item' :: rest') : lead = lead' ∧ item = item' := by
  have starts := congrArg (List.takeWhile blank) same
  rw [List.takeWhile_append_of_pos blanks, List.takeWhile_append_of_pos blanks', List.takeWhile_cons_of_neg stops,
    List.takeWhile_cons_of_neg stops', List.append_nil, List.append_nil] at starts
  rw [starts, List.append_cancel_left_eq, List.cons.injEq] at same
  exact ⟨starts, same.1⟩

end AppManager.Lib
