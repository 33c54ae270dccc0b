import AppManager.Binding.JoinedLines

/-! The fields that are read against the lines of a unit file. The search of the equal
sign does not stop at the end of a line, and a prefix is found anywhere in it. -/

namespace AppManager.Binding
open AppManager.Lib AppManager.Lib.Libc AppManager.Units

def IsField (line : Bytes) : Prop := keyAfmPrefix <+: line ∧ equalSign ∈ line

instance (line : Bytes) : Decidable (IsField line) := inferInstanceAs (Decidable (_ ∧ _))

/-- The name and the value that follow the prefix in a text. -/
def fieldAt (found : Bytes) : Field :=
  ⟨(found.drop keyAfmPrefix.length).takeWhile (· != equalSign),
    (decodeValue ((found.drop keyAfmPrefix.length).dropWhile (· != equalSign)).tail).1⟩

def lineField (line : Bytes) : Option Field := if IsField line then some (fieldAt line) else none

/-- The fields of the lines that start with the prefix and have an equal sign. -/
def lineFields (text : Bytes) : List Field := (text.splitOn newline).filterMap lineField

/-- A line holds the prefix only at its start, before an equal sign of its own, or
where no equal sign follows. -/
def CleanLines : List Bytes → Prop
  | [] => True
  | line :: rest =>
    (∀ found, strstr keyAfmPrefix line = some found →
      IsField line ∨ equalSign ∉ found ∧ ∀ later ∈ rest, equalSign ∉ later) ∧ CleanLines rest

theorem lineFields_open (text : Bytes) (plain : newline ∉ text) : lineFields text = (lineField text).toList := by
  rw [lineFields, List.splitOn_eq_singleton plain, List.filterMap_cons]
  cases lineField text <;> rfl

theorem lineFields_line (line rest : Bytes) (plain : newline ∉ line) :
    lineFields (line ++ newline :: rest) = (lineField line).toList ++ lineFields rest := by
  rw [lineFields, List.splitOn_append_cons_self_of_not_mem plain, List.filterMap_cons]
  cases lineField line <;> rfl

theorem fieldAt_name (found : Bytes) (plain : newline ∉ found) : newline ∉ (fieldAt found).name := by
  intro inside
  exact plain (List.mem_of_mem_drop ((List.takeWhile_sublist _).mem inside))

theorem lineField_name (line : Bytes) (plain : newline ∉ line) (field : Field)
    (member : field ∈ (lineField line).toList) : newline ∉ field.name := by
  rw [lineField] at member
  split at member
  · rw [Option.toList_some, List.mem_singleton] at member
    rw [member]
    exact fieldAt_name line plain
  · cases member

theorem lineFields_name (text : Bytes) : ∀ field ∈ lineFields text, newline ∉ field.name := by
  intro field member
  induction text using lines_induction newline with
  | unfinished text plain =>
    rw [lineFields_open text plain] at member
    exact lineField_name text plain field member
  | line line rest plain ih =>
    rw [lineFields_line line rest plain, List.mem_append] at member
    exact member.elim (lineField_name line plain field) ih

theorem equal_after (found : Bytes) (starts : keyAfmPrefix <+: found) :
    equalSign ∈ found.drop keyAfmPrefix.length ↔ equalSign ∈ found := by
  obtain ⟨name, same⟩ := starts
  rw [← same, List.drop_left, List.mem_append, or_iff_right (by decide)]

theorem fieldsOf_none (text : Bytes) (none : strstr keyAfmPrefix text = none) : fieldsOf text = [] := by
  rw [fieldsOf_eq, none]

theorem fieldsOf_plain (text : Bytes) (plain : equalSign ∉ text) : fieldsOf text = [] := by
  induction size : text.length using Nat.strong_induction_on generalizing text with
  | _ size' ih =>
    subst size
    rw [fieldsOf_eq]
    cases result : strstr keyAfmPrefix text with
    | none => rfl
    | some found =>
      obtain ⟨starts, before, split, -⟩ := strstr_some _ _ _ result
      have shorter := starts.length_le
      have away : equalSign ∉ found.drop keyAfmPrefix.length := by
        intro inside
        apply plain
        rw [split]
        exact List.mem_append_right before (List.mem_of_mem_drop inside)
      simp only [if_neg away]
      apply ih _ _ _ away rfl
      rw [split, List.length_append, List.length_drop]
      have size : keyAfmPrefix.length = 6 := rfl
      omega

theorem fieldsOf_without (text found : Bytes) (result : strstr keyAfmPrefix text = some found)
    (away : equalSign ∉ found) : fieldsOf text = [] := by
  have starts := (strstr_some _ _ _ result).1
  have none := away
  rw [← equal_after found starts] at none
  rw [fieldsOf_eq, result]
  simp only [if_neg none]
  exact fieldsOf_plain _ none

theorem fieldsOf_some (text found : Bytes) (result : strstr keyAfmPrefix text = some found)
    (equal : equalSign ∈ found) : fieldsOf text = fieldAt found ::
      fieldsOf (decodeValue ((found.drop keyAfmPrefix.length).dropWhile (· != equalSign)).tail).2 := by
  rw [fieldsOf_eq, result]
  simp only [if_pos ((equal_after found (strstr_some _ _ _ result).1).mpr equal)]
  rfl

theorem fieldsOf_line_none (line rest : Bytes) (none : strstr keyAfmPrefix line = none) :
    fieldsOf (line ++ newline :: rest) = fieldsOf rest := by
  have result := strstr_line newline keyAfmPrefix line rest (by decide) (by decide)
  rw [none] at result
  rw [fieldsOf_eq, result, ← fieldsOf_eq]

theorem cut_append (part more : Bytes) (equal : equalSign ∈ part) :
    (part ++ more).takeWhile (· != equalSign) = part.takeWhile (· != equalSign) ∧
      ((part ++ more).dropWhile (· != equalSign)).tail = (part.dropWhile (· != equalSign)).tail ++ more := by
  obtain ⟨name, value, same, plain⟩ := List.eq_append_cons_of_mem equal
  rw [same, List.append_assoc, List.cons_append, takeWhile_stop equalSign name _ plain,
    takeWhile_stop equalSign name _ plain, dropWhile_stop equalSign name _ plain,
    dropWhile_stop equalSign name _ plain]
  exact ⟨rfl, rfl⟩

theorem value_suffix (found : Bytes) :
    ((found.drop keyAfmPrefix.length).dropWhile (· != equalSign)).tail <:+ found :=
  ((List.tail_suffix _).trans (List.dropWhile_suffix _)).trans (List.drop_suffix _ _)

theorem suffix_ends (part line : Bytes) (suffix : part <:+ line) (ends : line.getLast? ≠ some backslash) :
    part.getLast? ≠ some backslash := by
  obtain ⟨before, same⟩ := suffix
  intro last
  apply ends
  rw [← same, List.getLast?_append, last]
  rfl

theorem fieldsOf_line_some (line found rest : Bytes) (plain : newline ∉ line)
    (ends : line.getLast? ≠ some backslash) (result : strstr keyAfmPrefix line = some found)
    (equal : equalSign ∈ found) :
    fieldsOf (line ++ newline :: rest) = fieldAt found :: fieldsOf rest := by
  obtain ⟨starts, before, split, -⟩ := strstr_some _ _ _ result
  have whole := strstr_line newline keyAfmPrefix line rest (by decide) (by decide)
  rw [result] at whole
  have suffix := (value_suffix found).trans ⟨before, split.symm⟩
  have after := decodeValue_line _ rest (fun inside => plain (suffix.mem inside)) (suffix_ends _ _ suffix ends)
  obtain ⟨name, value⟩ := cut_append (found.drop keyAfmPrefix.length) (newline :: rest)
    ((equal_after found starts).mpr equal)
  rw [← List.drop_append_of_le_length starts.length_le] at name value
  rw [fieldsOf_some _ _ whole (List.mem_append_left _ equal), fieldAt, name, value, after]
  rfl

theorem fieldsOf_line_open (line found rest : Bytes) (result : strstr keyAfmPrefix line = some found)
    (away : equalSign ∉ found) (equal : equalSign ∈ rest) :
    ∃ field, newline ∈ field.name ∧ fieldsOf (line ++ newline :: rest) =
      field :: fieldsOf (decodeValue (rest.dropWhile (· != equalSign)).tail).2 := by
  obtain ⟨starts, -⟩ := strstr_some _ _ _ result
  have whole := strstr_line newline keyAfmPrefix line rest (by decide) (by decide)
  rw [result] at whole
  obtain ⟨name, value, same, plain⟩ := List.eq_append_cons_of_mem equal
  have none := away
  rw [← equal_after found starts] at none
  have split : (found ++ newline :: rest).drop keyAfmPrefix.length =
      (found.drop keyAfmPrefix.length ++ newline :: name) ++ equalSign :: value := by
    rw [List.drop_append_of_le_length starts.length_le, same, List.append_assoc, List.cons_append]
  have clear : equalSign ∉ found.drop keyAfmPrefix.length ++ newline :: name := by
    rw [List.mem_append, List.mem_cons, not_or, not_or]
    exact ⟨none, by decide, plain⟩
  refine ⟨fieldAt (found ++ newline :: rest), ?_, ?_⟩
  · rw [fieldAt, split, takeWhile_stop _ _ _ clear]
    simp
  · rw [fieldsOf_some _ _ whole (by simp [equal]), split, dropWhile_stop _ _ _ clear, same,
      dropWhile_stop _ _ _ plain]

theorem lineField_plain (line : Bytes) (away : equalSign ∉ line) : lineField line = none :=
  if_neg fun field => away field.2

theorem lineFields_plain (text : Bytes) (away : equalSign ∉ text) : lineFields text = [] := by
  induction text using lines_induction newline with
  | unfinished text plain => rw [lineFields_open text plain, lineField_plain text away]; rfl
  | line line rest plain ih =>
    rw [List.mem_append, List.mem_cons, not_or, not_or] at away
    rw [lineFields_line line rest plain, lineField_plain line away.1, ih away.2.2]
    rfl

theorem lineField_count (line : Bytes) : (lineField line).toList.length ≤ 1 := by
  cases lineField line <;> simp

theorem lineFields_after (rest : Bytes) (joined : Joined rest) (equal : equalSign ∈ rest) :
    (lineFields rest).length ≤ 1 + (lineFields (decodeValue (rest.dropWhile (· != equalSign)).tail).2).length := by
  induction rest using lines_induction newline with
  | unfinished text plain =>
    have count := lineField_count text
    rw [lineFields_open text plain]
    omega
  | line line rest plain ih =>
    obtain ⟨ends, joined⟩ := joined_line line rest joined
    by_cases here : equalSign ∈ line
    · have count := lineField_count line
      have suffix := (List.tail_suffix _).trans (List.dropWhile_suffix (l := line) (· != equalSign))
      rw [(cut_append line (newline :: rest) here).2,
        decodeValue_line _ rest (fun inside => plain (suffix.mem inside)) (suffix_ends _ _ suffix ends),
        lineFields_line line rest plain, List.length_append]
      simp only
      omega
    · have later : equalSign ∈ rest := by
        rcases List.mem_append.mp equal with first | second
        · exact absurd first here
        · exact (List.mem_cons.mp second).resolve_left (by decide)
      have skip : (line ++ newline :: rest).dropWhile (· != equalSign) = rest.dropWhile (· != equalSign) := by
        rw [List.dropWhile_append_of_pos, List.dropWhile_cons_of_pos (by decide)]
        intro byte member
        rw [bne_iff_ne]
        exact fun same => here (same ▸ member)
      rw [skip, lineFields_line line rest plain, lineField_plain line here]
      exact ih joined later

theorem value_joined (rest : Bytes) (joined : Joined rest) :
    Joined (decodeValue (rest.dropWhile (· != equalSign)).tail).2 := by
  obtain ⟨before, same⟩ := ((decodeValue_suffix _).trans (List.tail_suffix _)).trans
    (List.dropWhile_suffix (l := rest) (· != equalSign))
  rw [← same] at joined
  exact (joined_append before _ joined).2

theorem isField_found (line : Bytes) (field : IsField line) : strstr keyAfmPrefix line = some line :=
  strstr_starts keyAfmPrefix line (by decide) field.1

theorem fieldsOf_open (text found : Bytes) (plain : newline ∉ text) (result : strstr keyAfmPrefix text = some found)
    (equal : equalSign ∈ found) : fieldsOf text = [fieldAt found] := by
  obtain ⟨-, before, split, -⟩ := strstr_some _ _ _ result
  have suffix := (value_suffix found).trans ⟨before, split.symm⟩
  rw [fieldsOf_some text found result equal, decodeValue_open _ (fun inside => plain (suffix.mem inside))]
  rfl

theorem lineFields_count (text : Bytes) (joined : Joined text) :
    (lineFields text).length ≤ (fieldsOf text).length := by
  induction size : text.length using Nat.strong_induction_on generalizing text with
  | _ size' ih =>
    subst size
    rcases first_line newline text with plain | ⟨line, rest, plain, same⟩
    · rw [lineFields_open text plain, lineField]
      split
      · next field =>
        rw [fieldsOf_open text text plain (isField_found text field) field.2]
        exact Nat.le_refl _
      · exact Nat.zero_le _
    · subst same
      obtain ⟨ends, joined⟩ := joined_line line rest joined
      have shorter : rest.length < (line ++ newline :: rest).length := by
        rw [List.length_append, List.length_cons]
        omega
      have count := lineField_count line
      have following := ih rest.length shorter rest joined rfl
      rw [lineFields_line line rest plain, List.length_append]
      cases result : strstr keyAfmPrefix line with
      | none =>
        have none : lineField line = none := by
          refine if_neg fun field => ?_
          rw [isField_found line field] at result
          cases result
        rw [none, fieldsOf_line_none line rest result]
        simpa using following
      | some found =>
        by_cases equal : equalSign ∈ found
        · rw [fieldsOf_line_some line found rest plain ends result equal, List.length_cons]
          omega
        · have none : lineField line = none := by
            refine if_neg fun field => equal ?_
            rw [isField_found line field, Option.some.injEq] at result
            exact result ▸ field.2
          rw [none]
          by_cases later : equalSign ∈ rest
          · obtain ⟨field, -, same⟩ := fieldsOf_line_open line found rest result equal later
            have after := ((decodeValue_suffix _).trans (List.tail_suffix _)).trans
              (List.dropWhile_suffix (l := rest) (· != equalSign))
            have passed := lineFields_after rest joined later
            have others := ih _ (lt_of_le_of_lt after.length_le shorter) _ (value_joined rest joined) rfl
            rw [same, List.length_cons]
            simp only [Option.toList_none, List.length_nil]
            omega
          · rw [lineFields_plain rest later]
            exact Nat.zero_le _

theorem equal_of_lines (text : Bytes) (lines : ∀ line ∈ text.splitOn newline, equalSign ∉ line) :
    equalSign ∉ text := by
  induction text using lines_induction newline with
  | unfinished text plain =>
    rw [List.splitOn_eq_singleton plain] at lines
    exact lines text List.mem_cons_self
  | line line rest plain ih =>
    rw [List.splitOn_append_cons_self_of_not_mem plain] at lines
    rw [List.mem_append, List.mem_cons, not_or, not_or]
    exact ⟨lines line List.mem_cons_self, by decide,
      ih fun other member => lines other (List.mem_cons_of_mem line member)⟩

theorem lines_of_equal (text : Bytes) (away : equalSign ∉ text) :
    ∀ line ∈ text.splitOn newline, equalSign ∉ line := by
  induction text using lines_induction newline with
  | unfinished text plain =>
    rw [List.splitOn_eq_singleton plain]
    exact fun line member => List.mem_singleton.mp member ▸ away
  | line line rest plain ih =>
    rw [List.mem_append, List.mem_cons, not_or, not_or] at away
    rw [List.splitOn_append_cons_self_of_not_mem plain]
    intro other member
    rcases List.mem_cons.mp member with isFirst | later
    · exact isFirst ▸ away.1
    · exact ih away.2.2 other later

theorem cleanLines_plain (lines : List Bytes) (away : ∀ line ∈ lines, equalSign ∉ line) : CleanLines lines := by
  induction lines with
  | nil => trivial
  | cons line rest ih =>
    refine ⟨fun found result => Or.inr ⟨?_, fun later member => away later (List.mem_cons_of_mem line member)⟩,
      ih fun later member => away later (List.mem_cons_of_mem line member)⟩
    obtain ⟨-, before, split, -⟩ := strstr_some _ _ _ result
    intro inside
    exact away line List.mem_cons_self (split ▸ List.mem_append_right before inside)

section
variable (line rest : Bytes)

theorem fieldsOf_line_iff (plain : newline ∉ line) (joined : Joined (line ++ newline :: rest))
    (known : fieldsOf rest = lineFields rest ↔ CleanLines (rest.splitOn newline)) :
    fieldsOf (line ++ newline :: rest) = lineFields (line ++ newline :: rest) ↔
      CleanLines (line :: rest.splitOn newline) := by
  obtain ⟨ends, joined⟩ := joined_line line rest joined
  rw [lineFields_line line rest plain, CleanLines]
  by_cases field : IsField line
  · have result := isField_found line field
    rw [fieldsOf_line_some line line rest plain ends result field.2, lineField, if_pos field, Option.toList_some,
      List.singleton_append, List.cons.injEq, and_iff_right rfl, known, and_iff_right]
    exact fun found result => Or.inl field
  · rw [lineField, if_neg field, Option.toList_none, List.nil_append]
    cases result : strstr keyAfmPrefix line with
    | none =>
      rw [fieldsOf_line_none line rest result, known, and_iff_right]
      intro found result
      cases result
    | some found =>
      by_cases equal : equalSign ∈ found
      · rw [fieldsOf_line_some line found rest plain ends result equal]
        apply iff_of_false
        · intro same
          have count := lineFields_count rest joined
          rw [← same, List.length_cons] at count
          omega
        · intro clean
          exact (clean.1 found rfl).elim field fun none => none.1 equal
      · by_cases later : equalSign ∈ rest
        · obtain ⟨first, inside, same⟩ := fieldsOf_line_open line found rest result equal later
          rw [same]
          apply iff_of_false
          · intro agree
            exact lineFields_name rest first (agree ▸ List.mem_cons_self) inside
          · intro clean
            rcases clean.1 found rfl with own | none
            · exact field own
            · exact equal_of_lines rest none.2 later
        · have whole := strstr_line newline keyAfmPrefix line rest (by decide) (by decide)
          rw [result] at whole
          have none := lines_of_equal rest later
          have away : equalSign ∉ found ++ newline :: rest := by
            rw [List.mem_append, List.mem_cons, not_or, not_or]
            exact ⟨equal, by decide, later⟩
          rw [fieldsOf_without _ _ whole away, lineFields_plain rest later]
          refine iff_of_true rfl ⟨fun other same => Or.inr ?_, cleanLines_plain _ none⟩
          rw [← Option.some.inj same]
          exact ⟨equal, none⟩

end

theorem fieldsOf_open_iff (text : Bytes) (plain : newline ∉ text) :
    fieldsOf text = lineFields text ↔ CleanLines [text] := by
  rw [lineFields_open text plain, CleanLines, CleanLines, and_iff_left trivial]
  by_cases field : IsField text
  · rw [fieldsOf_open text text plain (isField_found text field) field.2, lineField, if_pos field]
    exact iff_of_true rfl fun found result => Or.inl field
  · rw [lineField, if_neg field]
    cases result : strstr keyAfmPrefix text with
    | none =>
      rw [fieldsOf_none text result]
      exact iff_of_true rfl fun found result => (by cases result)
    | some found =>
      by_cases equal : equalSign ∈ found
      · rw [fieldsOf_open text found plain result equal]
        exact iff_of_false (by simp) fun clean => (clean found rfl).elim field fun none => none.1 equal
      · rw [fieldsOf_without text found result equal]
        refine iff_of_true rfl fun other same => Or.inr ?_
        rw [← Option.some.inj same]
        exact ⟨equal, fun later member => (by cases member)⟩

theorem fieldsOf_lines (text : Bytes) (joined : Joined text) :
    fieldsOf text = lineFields text ↔ CleanLines (text.splitOn newline) := by
  induction text using lines_induction newline with
  | unfinished text plain =>
    rw [List.splitOn_eq_singleton plain]
    exact fieldsOf_open_iff text plain
  | line line rest plain ih =>
    rw [List.splitOn_append_cons_self_of_not_mem plain]
    exact fieldsOf_line_iff line rest plain joined (ih (joined_line line rest joined).2)

/-- The fields that are read are those of the lines, with names of one line, exactly
where the lines are clean. -/
theorem fieldsOf_crop_iff (content : Bytes) :
    let text := cropAndTrimUnitContent content
    (fieldsOf text = lineFields text ∧ ∀ field ∈ fieldsOf text, newline ∉ field.name) ↔
      CleanLines (text.splitOn newline) := by
  intro text
  rw [← fieldsOf_lines text (cropFrom_joined .begin (cstr content))]
  constructor
  · exact And.left
  · intro same
    refine ⟨same, ?_⟩
    rw [same]
    exact lineFields_name text

/-- A description that holds a prefix gives a field. -/
theorem fieldsOf_description :
    let text := cropAndTrimUnitContent (ascii "Description=X-AFM-visibility=visible\n")
    ¬(fieldsOf text = lineFields text ∧ ∀ field ∈ fieldsOf text, newline ∉ field.name) := by
  decide +kernel

end AppManager.Binding
