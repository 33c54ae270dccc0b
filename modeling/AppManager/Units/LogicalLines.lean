import AppManager.Lib.Lines
import AppManager.Units.ApplyMustach

/-! The logical lines of an instance of the template around a value that is put in it.
A line that ends with a backslash is continued by the next one. -/

namespace AppManager.Units
open AppManager.Lib

def Continued (line : Bytes) : Prop := line.getLast? = some backslash

instance (line : Bytes) : Decidable (Continued line) := inferInstanceAs (Decidable (_ = _))

/-- The lines of a text. An end of line at its end starts no other line. -/
def textLines (text : Bytes) : List Bytes :=
  if (text.splitOn newline).getLast? = some [] then (text.splitOn newline).dropLast else text.splitOn newline

def joinLines : List Bytes → List Bytes
  | [] => []
  | line :: rest =>
    if Continued line then
      match joinLines rest with
      | [] => [line]
      | next :: others => (line.dropLast ++ 32 :: next) :: others
    else line :: joinLines rest

def logicalLines (text : Bytes) : List Bytes := joinLines (textLines text)

def lineAt (before : Bytes) : Nat := (joinLines (before.splitOn newline)).length - 1

/-- The logical lines of an instance but the one that holds the value. -/
def otherLines (before value after : Bytes) : List Bytes :=
  (logicalLines (before ++ print value true ++ after)).eraseIdx (lineAt before)

/-- What follows the logical line that ends with a line, or goes on after it. -/
def following (line : Bytes) (rest : List Bytes) : List Bytes :=
  if Continued line then (joinLines rest).tail else joinLines rest

theorem textLines_open (text : Bytes) (plain : newline ∉ text) :
    textLines text = if text = [] then [] else [text] := by
  rw [textLines, List.splitOn_eq_singleton plain, List.getLast?_singleton, List.dropLast_singleton]
  simp only [Option.some.injEq]

theorem textLines_line (line rest : Bytes) (plain : newline ∉ line) :
    textLines (line ++ newline :: rest) = line :: textLines rest := by
  have proper := List.splitOn_ne_nil newline rest
  rw [textLines, textLines, List.splitOn_append_cons_self_of_not_mem plain, List.dropLast_cons_of_ne_nil proper]
  cases pieces : rest.splitOn newline with
  | nil => exact absurd pieces proper
  | cons piece others =>
    rw [List.getLast?_cons_cons]
    split <;> rfl

theorem textLines_eq_nil (text : Bytes) : textLines text = [] ↔ text = [] := by
  rcases first_line newline text with plain | ⟨line, rest, plain, same⟩
  · rw [textLines_open text plain]
    split
    · next empty => exact iff_of_true rfl empty
    · next proper => exact iff_of_false (by simp) proper
  · rw [same, textLines_line line rest plain]
    exact iff_of_false (by simp) (by simp)

theorem joinLines_eq_nil (lines : List Bytes) : joinLines lines = [] ↔ lines = [] := by
  cases lines with
  | nil => exact iff_of_true rfl rfl
  | cons line rest =>
    rw [joinLines]
    split
    · split <;> simp
    · simp

theorem joinLines_cons (line : Bytes) (rest : List Bytes) :
    ∃ holder, joinLines (line :: rest) = holder :: following line rest := by
  rw [joinLines, following]
  split
  · cases joinLines rest with
    | nil => exact ⟨_, rfl⟩
    | cons next others => exact ⟨_, rfl⟩
  · exact ⟨_, rfl⟩

theorem joinLines_around (lines : List Bytes) : ∃ closed : List Bytes,
    (joinLines lines).eraseIdx closed.length = closed ∧
      ∀ line rest, ∃ holder, joinLines (lines ++ line :: rest) = closed ++ holder :: following line rest := by
  induction lines with
  | nil => exact ⟨[], rfl, fun line rest => joinLines_cons line rest⟩
  | cons first lines ih =>
    obtain ⟨closed, erased, around⟩ := ih
    by_cases goesOn : Continued first
    · cases closed with
      | nil =>
        refine ⟨[], ?_, fun line rest => ?_⟩
        · rw [joinLines, if_pos goesOn]
          cases joined : joinLines lines with
          | nil => rfl
          | cons next others =>
            rw [joined] at erased
            exact erased
        · obtain ⟨holder, same⟩ := around line rest
          rw [List.cons_append, joinLines, if_pos goesOn, same]
          exact ⟨_, rfl⟩
      | cons head closed =>
        refine ⟨(first.dropLast ++ 32 :: head) :: closed, ?_, fun line rest => ?_⟩
        · rw [joinLines, if_pos goesOn]
          cases joined : joinLines lines with
          | nil =>
            rw [joined] at erased
            cases erased
          | cons next others =>
            rw [joined, List.length_cons, List.eraseIdx_cons_succ, List.cons.injEq] at erased
            simp only [List.length_cons, List.eraseIdx_cons_succ, erased.1, erased.2]
        · obtain ⟨holder, same⟩ := around line rest
          refine ⟨holder, ?_⟩
          rw [List.cons_append, joinLines, if_pos goesOn, same]
          rfl
    · refine ⟨first :: closed, ?_, fun line rest => ?_⟩
      · rw [joinLines, if_neg goesOn, List.length_cons, List.eraseIdx_cons_succ, erased]
      · obtain ⟨holder, same⟩ := around line rest
        exact ⟨holder, by rw [List.cons_append, joinLines, if_neg goesOn, same, List.cons_append]⟩

theorem last_line (text : Bytes) : ∃ lines first last, newline ∉ last ∧ text = first ++ last ∧ ¬Continued first ∧
    text.splitOn newline = lines ++ [last] ∧ ∀ rest, textLines (text ++ rest) = lines ++ textLines (last ++ rest) := by
  induction text using lines_induction newline with
  | unfinished text plain =>
    exact ⟨[], [], text, plain, rfl, by simp [Continued], List.splitOn_eq_singleton plain, fun rest => rfl⟩
  | line line rest plain ih =>
    obtain ⟨lines, first, last, single, same, ended, pieces, whole⟩ := ih
    refine ⟨line :: lines, line ++ newline :: first, last, single, ?_, ?_, ?_, fun more => ?_⟩
    · rw [same, List.append_assoc, List.cons_append]
    · rw [Continued, List.getLast?_append, List.getLast?_cons]
      cases last? : first.getLast? with
      | none => exact fun same => absurd (Option.some.inj same) (by decide)
      | some byte =>
        rw [Continued, last?] at ended
        exact ended
    · rw [List.splitOn_append_cons_self_of_not_mem plain, pieces, List.cons_append]
    · rw [List.append_assoc, List.cons_append, textLines_line line _ plain, whole, List.cons_append]

theorem continued_append (first last : Bytes) (ended : ¬Continued first) :
    Continued (first ++ last) ↔ Continued last := by
  rw [Continued, Continued, List.getLast?_append, Option.or_eq_some_iff]
  exact ⟨fun either => either.resolve_right fun both => ended both.2, Or.inl⟩

theorem continued_print (part text : Bytes) :
    Continued (part ++ text.flatMap printByte) ↔ Continued (part ++ text) := by
  rw [Continued, Continued, List.getLast?_append, List.getLast?_append, Option.or_eq_some_iff, Option.or_eq_some_iff,
    print_ends, List.getLast?_eq_none_iff, List.getLast?_eq_none_iff, print_eq_nil]

theorem otherLines_around (before : Bytes) : ∃ first part closed, newline ∉ part ∧ before = first ++ part ∧
    ¬Continued first ∧
      (∀ value after, newline ∉ after → otherLines before value after = closed) ∧
        ∀ value line rest, newline ∉ line → otherLines before value (line ++ newline :: rest) =
          closed ++ following (part ++ print value true ++ line) (textLines rest) := by
  obtain ⟨lines, first, part, single, same, ended, pieces, whole⟩ := last_line before
  obtain ⟨closed, erased, around⟩ := joinLines_around lines
  have index : lineAt before = closed.length := by
    obtain ⟨holder, joined⟩ := around part []
    have none : following part [] = [] := by
      rw [following]
      split <;> rfl
    rw [lineAt, pieces, joined, none, List.length_append, List.length_singleton, Nat.add_sub_cancel]
  have away (value line : Bytes) (plain : newline ∉ line) : newline ∉ part ++ print value true ++ line := by
    simp only [List.mem_append, not_or]
    exact ⟨⟨single, print_single (cstr value)⟩, plain⟩
  have cut (closed : List Bytes) (holder : Bytes) (others : List Bytes) :
      (closed ++ holder :: others).eraseIdx closed.length = closed ++ others := by
    rw [List.eraseIdx_append_of_length_le (Nat.le_refl _), Nat.sub_self, List.eraseIdx_cons_zero]
  refine ⟨first, part, closed, single, same, ended, fun value after plain => ?_, fun value line rest plain => ?_⟩
  · rw [otherLines, logicalLines, index, List.append_assoc, whole, ← List.append_assoc,
      textLines_open _ (away value after plain)]
    split
    · rw [List.append_nil, erased]
    · obtain ⟨holder, joined⟩ := around (part ++ print value true ++ after) []
      rw [joined, cut, following]
      split <;> exact List.append_nil closed
  · obtain ⟨holder, joined⟩ := around (part ++ print value true ++ line) (textLines rest)
    rw [otherLines, logicalLines, index, List.append_assoc, whole, ← List.append_assoc, ← List.append_assoc,
      textLines_line _ rest (away value line plain), joined, cut]

theorem following_iff (first second : Bytes) (rest : List Bytes) :
    following first rest = following second rest ↔ (rest ≠ [] → (Continued first ↔ Continued second)) := by
  have differ (proper : rest ≠ []) : (joinLines rest).tail ≠ joinLines rest := by
    intro same
    cases joined : joinLines rest with
    | nil => exact proper ((joinLines_eq_nil rest).mp joined)
    | cons line others =>
      rw [joined, List.tail_cons] at same
      exact absurd (congrArg List.length same) (by simp)
  have empty (none : rest = []) : (joinLines rest).tail = joinLines rest := by rw [none]; rfl
  rw [following, following]
  by_cases goesOn : Continued first
  · by_cases goesOn' : Continued second
    · rw [if_pos goesOn, if_pos goesOn']
      exact iff_of_true rfl fun proper => iff_of_true goesOn goesOn'
    · rw [if_pos goesOn, if_neg goesOn']
      exact ⟨fun same proper => absurd same (differ proper),
        fun agree => empty (not_not.mp fun proper => goesOn' ((agree proper).mp goesOn))⟩
  · by_cases goesOn' : Continued second
    · rw [if_neg goesOn, if_pos goesOn']
      exact ⟨fun same proper => absurd same.symm (differ proper),
        fun agree => (empty (not_not.mp fun proper => goesOn ((agree proper).mpr goesOn'))).symm⟩
    · rw [if_neg goesOn, if_neg goesOn']
      exact iff_of_true rfl fun proper => iff_of_false goesOn goesOn'

/-- Two values leave the same other lines exactly where both, or none, continue their line. -/
theorem otherLines_iff (before after first second : Bytes) :
    otherLines before first after = otherLines before second after ↔
      (after.head? = some newline → after.tail ≠ [] →
        (Continued (before ++ cstr first) ↔ Continued (before ++ cstr second))) := by
  obtain ⟨start, part, closed, -, same, ended, unfinished, finished⟩ := otherLines_around before
  have ends (value : Bytes) : Continued (part ++ print value true ++ []) ↔ Continued (before ++ cstr value) := by
    rw [List.append_nil, same, List.append_assoc, continued_append start _ ended]
    exact continued_print part (cstr value)
  rcases first_line newline after with plain | ⟨line, rest, plain, split⟩
  · rw [unfinished first after plain, unfinished second after plain]
    exact iff_of_true rfl fun here => absurd (List.mem_of_mem_head? here) plain
  · rw [split, finished first line rest plain, finished second line rest plain, List.append_cancel_left_eq,
      following_iff]
    cases line with
    | nil =>
      rw [ends, ends, Ne, textLines_eq_nil, List.nil_append, List.head?_cons, List.tail_cons]
      exact ⟨fun agree _ => agree, fun agree => agree rfl⟩
    | cons byte line =>
      rw [List.mem_cons, not_or] at plain
      have same (text : Bytes) : Continued (text ++ byte :: line) ↔ Continued (byte :: line) := by
        rw [Continued, Continued, List.getLast?_append, List.getLast?_cons, Option.some_or]
      refine iff_of_true (fun _ => by rw [same, same]) fun here => absurd (Option.some.inj here) (Ne.symm plain.1)

/-- A description that ends with a backslash takes the line of the name. -/
theorem otherLines_backslash :
    otherLines (ascii "X-AFM-description=") (ascii "a\\") (ascii "\nX-AFM-name=foo\n") ≠
      otherLines (ascii "X-AFM-description=") (ascii "a") (ascii "\nX-AFM-name=foo\n") := by
  decide +kernel

end AppManager.Units
