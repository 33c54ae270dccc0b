import AppManager.Units.UnitProcess

/-! The values that are put in an instance of the template of units. -/

namespace AppManager.Units
open AppManager.Lib

def printByte (byte : Byte) : Bytes :=
  if byte = percent then [percent, percent]
  else if byte = newline then [backslash, 'n'.toUInt8]
  else [byte]

def print (string : Bytes) (escape : Bool) : Bytes :=
  if escape then (cstr string).flatMap printByte else cstr string

theorem printByte_plain (byte : Byte) (normal : byte ≠ percent) (other : byte ≠ newline) :
    printByte byte = [byte] := by
  rw [printByte, if_neg normal, if_neg other]

theorem printByte_newline : printByte newline = [backslash, 'n'.toUInt8] := by decide

theorem printByte_backslash : printByte backslash = [backslash] := by decide

theorem mem_print (byte : Byte) (text : Bytes) (inside : byte ∈ text.flatMap printByte) :
    byte ≠ newline ∧ (byte ∈ text ∨ byte = backslash ∨ byte = 'n'.toUInt8) := by
  obtain ⟨source, member, here⟩ := List.mem_flatMap.mp inside
  rw [printByte] at here
  split at here
  · next same =>
    have known : byte = percent := by simpa using here
    exact ⟨by rw [known]; decide, Or.inl (by rw [known, ← same]; exact member)⟩
  · split at here
    · rcases List.mem_pair.mp here with first | second
      · exact ⟨by rw [first]; decide, Or.inr (Or.inl first)⟩
      · exact ⟨by rw [second]; decide, Or.inr (Or.inr second)⟩
    · next other =>
      have known := List.mem_singleton.mp here
      exact ⟨by rw [known]; exact other, Or.inl (known ▸ member)⟩

theorem print_single (text : Bytes) : newline ∉ text.flatMap printByte :=
  fun inside => (mem_print _ text inside).1 rfl

theorem count_print (text : Bytes) : (text.flatMap printByte).count percent = 2 * text.count percent := by
  induction text with
  | nil => rfl
  | cons byte rest ih =>
    rw [List.flatMap_cons, List.count_append, ih, List.count_cons]
    by_cases same : byte = percent
    · subst same
      have twice : (printByte percent).count percent = 2 := by decide
      rw [twice, if_pos (by simp)]
      omega
    · have none : (printByte byte).count percent = 0 := by
        rw [List.count_eq_zero, printByte, if_neg same]
        split
        · decide
        · rw [List.mem_singleton]
          exact Ne.symm same
      rw [none, if_neg (by simpa using same)]
      omega

theorem print_ends (text : Bytes) :
    (text.flatMap printByte).getLast? = some backslash ↔ text.getLast? = some backslash := by
  rcases List.eq_nil_or_concat text with empty | ⟨front, last, same⟩
  · rw [empty]
    rfl
  · rw [same, List.concat_eq_append, List.flatMap_append, List.flatMap_singleton, List.getLast?_concat, printByte,
      Option.some.injEq]
    split
    · next isPercent =>
      rw [isPercent, List.getLast?_append]
      exact iff_of_false (by simp [percent, backslash]) (by decide)
    · split
      · next isNewline =>
        rw [isNewline, List.getLast?_append]
        refine iff_of_false (fun last => ?_) (by decide)
        exact absurd (Option.some.inj last) (by decide)
      · rw [List.getLast?_concat, Option.some.injEq]

theorem print_eq_nil (text : Bytes) : text.flatMap printByte = [] ↔ text = [] := by
  cases text with
  | nil => exact iff_of_true rfl rfl
  | cons byte rest =>
    refine iff_of_false (fun empty => ?_) (by simp)
    have none := (List.append_eq_nil_iff.mp empty).1
    rw [printByte] at none
    split_ifs at none

end AppManager.Units
