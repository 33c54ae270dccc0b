import AppManager.Binding.LineFields
import AppManager.Binding.ValueRoundTrip

/-! A unit file line by line: what is kept of complete lines, and the fields they give. -/

namespace AppManager.Binding
open AppManager.Lib AppManager.Lib.Libc AppManager.Units

def unitText (lines : List Bytes) : Bytes := lines.flatMap (· ++ [newline])

def keptLine (line : Bytes) : Bool := !line.isEmpty && !line.head?.any startsComment

/-- A line of its own, without carriage returns. -/
structure Complete (line : Bytes) : Prop where
  single : newline ∉ line
  clean : carriage ∉ line
  ends : line.getLast? ≠ some backslash

theorem Complete.append {first second : Bytes} (start : Complete first) (last : Complete second) :
    Complete (first ++ second) := by
  refine ⟨fun inside => ?_, fun inside => ?_, fun ends => ?_⟩
  · exact (List.mem_append.mp inside).elim start.single last.single
  · exact (List.mem_append.mp inside).elim start.clean last.clean
  · rw [List.getLast?_append, Option.or_eq_some_iff] at ends
    exact ends.elim last.ends fun both => start.ends both.2

theorem unitText_cons (line : Bytes) (lines : List Bytes) :
    unitText (line :: lines) = line ++ newline :: unitText lines := by
  rw [unitText, unitText, List.flatMap_cons, List.append_assoc, List.singleton_append]

theorem cropFrom_carriage (state : Cropping) (content : Bytes) :
    cropFrom state content = cropFrom state (content.filter (· != carriage)) := by
  induction content generalizing state with
  | nil => rfl
  | cons byte rest ih =>
    by_cases same : byte = carriage
    · rw [cropFrom, if_pos same, List.filter_cons_of_neg (by simp [same]), ih]
    · rw [List.filter_cons_of_pos (by simpa using same), cropFrom, cropFrom]
      simp only [if_neg same, ← ih]

theorem cropFrom_line_cons (byte : Byte) (rest : Bytes) (clean : byte ≠ carriage) :
    cropFrom .line (byte :: rest) = if byte = backslash then cropFrom .escaped rest
      else byte :: cropFrom (if byte = newline then .begin else .line) rest := by
  rw [cropFrom, if_neg clean, if_neg (by decide), if_neg (by simp), if_neg (by simp), if_neg (by simp),
    if_neg (by decide), List.nil_append]

theorem cropFrom_escaped_cons (byte : Byte) (rest : Bytes) (clean : byte ≠ carriage) (other : byte ≠ newline) :
    cropFrom .escaped (byte :: rest) = backslash :: cropFrom .line (byte :: rest) := by
  rw [cropFrom_line_cons byte rest clean, cropFrom, if_neg clean, if_neg (by decide), if_neg (by simp),
    if_neg (by simp), if_neg (by simp [other]), if_pos rfl, List.singleton_append]

theorem cropFrom_escaped_newline (rest : Bytes) :
    cropFrom .escaped (newline :: rest) = 32 :: cropFrom .line rest := by
  rw [cropFrom, if_neg (by decide), if_neg (by decide), if_neg (by simp), if_neg (by simp), if_pos ⟨rfl, rfl⟩]

/-- A part of a line is kept as it is, but a backslash at its end waits for the next byte. -/
theorem cropFrom_line (part rest : Bytes) (single : newline ∉ part) (clean : carriage ∉ part) :
    cropFrom .line (part ++ rest) =
      if part.getLast? = some backslash then part.dropLast ++ cropFrom .escaped rest
      else part ++ cropFrom .line rest := by
  induction part using List.reverseRecOn generalizing rest with
  | nil => rfl
  | append_singleton front byte ih =>
    simp only [List.mem_append, List.mem_singleton, not_or] at single clean
    have other : byte ≠ newline := Ne.symm single.2
    have same : byte ≠ carriage := Ne.symm clean.2
    rw [List.append_assoc, List.singleton_append, ih _ single.1 clean.1, List.getLast?_concat, List.dropLast_concat]
    simp only [Option.some.injEq]
    have step : (if front.getLast? = some backslash then front.dropLast ++ cropFrom .escaped (byte :: rest)
        else front ++ cropFrom .line (byte :: rest)) = front ++ cropFrom .line (byte :: rest) := by
      split
      · next ends =>
        obtain ⟨before, split⟩ := List.getLast?_eq_some_iff.mp ends
        rw [cropFrom_escaped_cons byte rest same other, split, List.dropLast_concat, List.append_assoc,
          List.singleton_append]
      · rfl
    rw [step, cropFrom_line_cons byte rest same, if_neg other]
    split
    · rfl
    · rw [List.append_assoc, List.singleton_append]

theorem cropFrom_line_end (line rest : Bytes) (complete : Complete line) :
    cropFrom .line (line ++ newline :: rest) = line ++ newline :: cropFrom .begin rest := by
  rw [cropFrom_line line _ complete.single complete.clean, if_neg complete.ends, cropFrom_line_cons _ _ (by decide),
    if_neg (by decide), if_pos rfl]

theorem cropFrom_comment (part rest : Bytes) (single : newline ∉ part) :
    cropFrom .comment (part ++ newline :: rest) = cropFrom .begin rest := by
  induction part with
  | nil => rw [List.nil_append, cropFrom, if_neg (by decide), if_pos rfl, if_pos rfl]
  | cons byte part ih =>
    rw [List.mem_cons, not_or] at single
    rw [List.cons_append, cropFrom, if_pos rfl, if_neg (Ne.symm single.1), ih single.2, ite_self]

theorem cropFrom_begin_cons (byte : Byte) (rest : Bytes) (clean : byte ≠ carriage) (other : byte ≠ newline)
    (normal : startsComment byte = false) : cropFrom .begin (byte :: rest) = cropFrom .line (byte :: rest) := by
  rw [cropFrom_line_cons byte rest clean, cropFrom, if_neg clean, if_neg (by decide), if_neg (by simp [normal]),
    if_neg (by simp [other]), if_neg (by simp), if_neg (by decide), List.nil_append]

theorem cropFrom_begin (line rest : Bytes) (complete : Complete line) :
    cropFrom .begin (line ++ newline :: rest) =
      if keptLine line then line ++ newline :: cropFrom .begin rest else cropFrom .begin rest := by
  cases line with
  | nil =>
    rw [List.nil_append, cropFrom, if_neg (by decide), if_neg (by decide), if_neg (by decide), if_pos ⟨rfl, rfl⟩]
    rfl
  | cons byte part =>
    have single := complete.single
    have clean := complete.clean
    rw [List.mem_cons, not_or] at single clean
    cases comment : startsComment byte with
    | true =>
      rw [List.cons_append, cropFrom, if_neg (Ne.symm clean.1), if_neg (by decide), if_pos ⟨rfl, comment⟩,
        cropFrom_comment part rest single.2, if_neg (by simp [keptLine, comment])]
    | false =>
      rw [List.cons_append, cropFrom_begin_cons byte _ (Ne.symm clean.1) (Ne.symm single.1) comment,
        ← List.cons_append, cropFrom_line_end _ rest complete, if_pos (by simp [keptLine, comment])]

theorem cropFrom_lines (lines : List Bytes) (rest : Bytes) (complete : ∀ line ∈ lines, Complete line) :
    cropFrom .begin (unitText lines ++ rest) = unitText (lines.filter keptLine) ++ cropFrom .begin rest := by
  induction lines with
  | nil => rfl
  | cons line lines ih =>
    rw [unitText_cons, List.append_assoc, List.cons_append,
      cropFrom_begin line _ (complete line List.mem_cons_self),
      ih fun other member => complete other (List.mem_cons_of_mem line member), List.filter_cons]
    split
    · rw [unitText_cons, List.append_assoc, List.cons_append]
    · rfl

/-- A line without the prefix, or with it at its start before an equal sign. -/
def Plain (line : Bytes) : Prop := ∀ found, strstr keyAfmPrefix line = some found → IsField line

theorem fieldsOf_line (line rest : Bytes) (complete : Complete line) (plain : Plain line) :
    fieldsOf (line ++ newline :: rest) = (lineField line).toList ++ fieldsOf rest := by
  cases result : strstr keyAfmPrefix line with
  | none =>
    have none : ¬IsField line := by
      intro field
      rw [isField_found line field] at result
      cases result
    rw [fieldsOf_line_none line rest result, lineField, if_neg none]
    rfl
  | some found =>
    have field := plain found result
    rw [fieldsOf_line_some line line rest complete.single complete.ends (isField_found line field) field.2, lineField,
      if_pos field]
    rfl

theorem fieldsOf_lines_append (lines : List Bytes) (rest : Bytes)
    (proper : ∀ line ∈ lines, Complete line ∧ Plain line) :
    fieldsOf (unitText lines ++ rest) = lines.filterMap lineField ++ fieldsOf rest := by
  induction lines with
  | nil => rfl
  | cons line lines ih =>
    obtain ⟨complete, plain⟩ := proper line List.mem_cons_self
    rw [unitText_cons, List.append_assoc, List.cons_append, fieldsOf_line line _ complete plain,
      ih fun other member => proper other (List.mem_cons_of_mem line member), List.filterMap_cons]
    cases lineField line with
    | none => rfl
    | some field => rfl

end AppManager.Binding
