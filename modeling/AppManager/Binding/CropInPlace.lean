import AppManager.Binding.UnitLines
import AppManager.Lib.Tape
import AppManager.Units.LogicalLines

/-! `crop_and_trim_unit_content` on the memory of its content: the only files whose text is
written after the memory are those of which nothing is dropped. -/

namespace AppManager.Binding
open AppManager.Lib AppManager.Units

/-- `do { c = *read++; } while (c == '\r');` -/
def readByte {Result : Type} : Nat → Tape → (Byte → Tape → Option Result) → Option Result
  | 0, _, _ => none
  | fuel + 1, tape, go => tape.next fun c tape => if c = carriage then readByte fuel tape go else go c tape

section Step
variable (again : Cropping → Tape → Option (Nat × Bytes))

/-- The code from `enter_state_1`. -/
def enterState1 (c : Byte) (tape : Tape) : Option (Nat × Bytes) :=
  if c = backslash then again .escaped tape
  else (tape.put c).bind (again (if c = newline then .begin else .line))

/-- The body of the loop, and at the terminator what follows the loop. -/
def cropByte (st : Cropping) (c : Byte) (tape : Tape) : Option (Nat × Bytes) :=
  if c = 0 then
    if st = .line then (tape.put newline).bind fun tape => tape.close 0 else tape.close 0
  else match st with
    | .begin =>
      if startsComment c then again .comment tape
      else if c = newline then again .begin tape
      else enterState1 again c tape
    | .line => enterState1 again c tape
    | .escaped =>
      if c = newline then enterState1 again 32 tape
      else (tape.put backslash).bind (enterState1 again c)
    | .comment => again (if c = newline then .begin else .comment) tape

end Step

def cropLoop : Nat → Cropping → Tape → Option (Nat × Bytes)
  | 0, _, _ => none
  | fuel + 1, st, tape => readByte (fuel + 1) tape (cropByte (cropLoop fuel) st)

/-- The length that is returned and the memory, for a content that `rp_file_get` ended with a NUL. -/
def cropAndTrimInPlace (content : Bytes) : Option (Nat × Bytes) :=
  cropLoop (content.length + 2) .begin (Tape.start (content ++ [0]))

/-- Nothing is dropped of such a content, and its last line is not ended. -/
def Uncut (content : Bytes) : Prop :=
  (0 : Byte) ∉ content ∧ carriage ∉ content ∧
    ∀ line ∈ content.splitOn newline, keptLine line = true ∧ ¬Continued line

instance (content : Bytes) : Decidable (Uncut content) := inferInstanceAs (Decidable (_ ∧ _ ∧ _))

/-- The end of the run when the memory has some room for what is still to be written. -/
def Ends (out written : Bytes) (room : Nat) (result : Option (Nat × Bytes)) : Prop :=
  if written.length < room then
    ∃ after, result = some (out.length + written.length, out ++ written ++ 0 :: after)
  else result = none

theorem Ends.shift {out emitted written : Bytes} {room room' : Nat} {result : Option (Nat × Bytes)}
    (ends : Ends (out ++ emitted) written room' result) (same : room = room' + emitted.length) :
    Ends out (emitted ++ written) room result := by
  unfold Ends at ends ⊢
  by_cases fits : written.length < room'
  · rw [if_pos fits] at ends
    rw [if_pos (by rw [List.length_append]; omega)]
    obtain ⟨after, run⟩ := ends
    refine ⟨after, ?_⟩
    rw [run, List.length_append, List.length_append, Nat.add_assoc, List.append_assoc out]
  · rw [if_neg fits] at ends
    rw [if_neg (by rw [List.length_append]; omega)]
    exact ends

/-- The loop from each state, on what is left of the text, ends as the stream tells. -/
def Follows (again : Cropping → Tape → Option (Nat × Bytes)) (rest tail : Bytes) : Prop :=
  ∀ st out gap, (st = .escaped → gap ≠ []) →
    Ends out (cropFrom st rest) (gap.length + rest.length + 1 + tail.length)
      (again st (.parts out gap (rest ++ 0 :: tail)))

theorem enterState1_spec {again : Cropping → Tape → Option (Nat × Bytes)} {rest tail : Bytes}
    (follows : Follows again rest tail) (out gap : Bytes) (read c : Byte) (clean : c ≠ carriage) :
    Ends out (cropFrom .line (c :: rest)) (gap.length + 1 + rest.length + 1 + tail.length)
      (enterState1 again c (.parts out (gap ++ [read]) (rest ++ 0 :: tail))) := by
  rw [cropFrom_line_cons c rest clean, enterState1]
  by_cases escape : c = backslash
  · rw [if_pos escape, if_pos escape]
    have ends := follows .escaped out (gap ++ [read]) (fun _ => by simp)
    rw [List.length_append, List.length_singleton] at ends
    exact ends
  · obtain ⟨gap', size, wrote⟩ := Tape.put_read out gap read (rest ++ 0 :: tail) c
    rw [if_neg escape, if_neg escape, wrote, Option.bind_some]
    refine (follows _ (out ++ [c]) gap' ?_).shift ?_
    · intro escaped
      split at escaped <;> cases escaped
    · rw [List.length_singleton, size]
      omega

theorem cropByte_spec {again : Cropping → Tape → Option (Nat × Bytes)} {rest tail : Bytes}
    (follows : Follows again rest tail) (st : Cropping) (out gap : Bytes) (pending : st = .escaped → gap ≠ [])
    (c : Byte) (clean : c ≠ carriage) (real : c ≠ 0) :
    Ends out (cropFrom st (c :: rest)) (gap.length + 1 + rest.length + 1 + tail.length)
      (cropByte again st c (.parts out (gap ++ [c]) (rest ++ 0 :: tail))) := by
  have read : (gap ++ [c]).length = gap.length + 1 := by rw [List.length_append, List.length_singleton]
  rw [cropByte.eq_def, if_neg real]
  cases st with
  | begin =>
    simp only
    by_cases comment : startsComment c
    · have drops : cropFrom .begin (c :: rest) = cropFrom .comment rest := by
        rw [cropFrom, if_neg clean, if_neg (by decide), if_pos ⟨rfl, comment⟩]
      rw [if_pos comment, drops, ← read]
      exact follows .comment out _ (fun escaped => by cases escaped)
    · rw [if_neg comment]
      by_cases empty : c = newline
      · have drops : cropFrom .begin (c :: rest) = cropFrom .begin rest := by
          rw [cropFrom, if_neg clean, if_neg (by decide), if_neg fun both => comment both.2, if_pos ⟨rfl, empty⟩]
        rw [if_pos empty, drops, ← read]
        exact follows .begin out _ (fun escaped => by cases escaped)
      · rw [if_neg empty, cropFrom_begin_cons c rest clean empty (Bool.eq_false_of_not_eq_true comment)]
        exact enterState1_spec follows out gap c c clean
  | line => exact enterState1_spec follows out gap c c clean
  | escaped =>
    simp only
    by_cases joined : c = newline
    · have ends := enterState1_spec follows out gap c 32 (by decide)
      rw [cropFrom_line_cons 32 rest (by decide), if_neg (by decide), if_neg (by decide)] at ends
      rw [if_pos joined, joined, cropFrom_escaped_newline, ← joined]
      exact ends
    · cases gap with
      | nil => exact absurd rfl (pending rfl)
      | cons old gap =>
        rw [if_neg joined, cropFrom_escaped_cons c rest clean joined, List.cons_append, Tape.put_parts,
          Option.bind_some]
        refine (enterState1_spec follows (out ++ [backslash]) gap c c clean).shift ?_
        rw [List.length_singleton, List.length_cons]
        omega
  | comment =>
    have waits : cropFrom .comment (c :: rest) = cropFrom (if c = newline then .begin else .comment) rest := by
      rw [cropFrom, if_neg clean, if_pos rfl]
    rw [waits, ← read]
    refine follows _ out _ (fun escaped => ?_)
    split at escaped <;> cases escaped

theorem cropByte_end (again : Cropping → Tape → Option (Nat × Bytes)) (st : Cropping) (out gap tail : Bytes) :
    Ends out (cropFrom st []) (gap.length + 1 + tail.length)
      (cropByte again st 0 (.parts out (gap ++ [0]) tail)) := by
  rw [cropByte.eq_def, if_pos rfl, cropFrom, Ends]
  by_cases line : st = .line
  · obtain ⟨gap', size, wrote⟩ := Tape.put_read out gap 0 tail newline
    rw [if_pos line, if_pos line, wrote, Option.bind_some, List.length_singleton]
    cases left : gap' ++ tail with
    | nil =>
      obtain ⟨full, last⟩ := List.append_eq_nil_iff.mp left
      rw [full, List.length_nil] at size
      rw [if_neg (by rw [← size, last]; decide), full, last, Tape.close_full]
    | cons old after =>
      have sizes := congrArg List.length left
      rw [List.length_append, List.length_cons] at sizes
      rw [if_pos (by omega), Tape.close_parts left, List.length_append]
      exact ⟨after, rfl⟩
  · rw [if_neg line, if_neg line, List.length_nil, if_pos (by omega), List.append_nil]
    cases gap with
    | nil => exact ⟨tail, Tape.close_parts rfl 0⟩
    | cons old gap => exact ⟨_, Tape.close_parts (List.append_assoc _ _ _) 0⟩

theorem readByte_spec (text tail : Bytes) (clean : (0 : Byte) ∉ text) (st : Cropping) (out gap : Bytes)
    (pending : st = .escaped → gap ≠ []) (fuel more : Nat) (room : text.length < more) (room' : text.length ≤ fuel) :
    Ends out (cropFrom st text) (gap.length + text.length + 1 + tail.length)
      (readByte more (.parts out gap (text ++ 0 :: tail)) (cropByte (cropLoop fuel) st)) := by
  induction text generalizing st out gap fuel more with
  | nil =>
    obtain ⟨more, rfl⟩ : ∃ more', more = more' + 1 := ⟨more - 1, by omega⟩
    rw [List.nil_append, readByte, Tape.next_parts, if_neg (by decide)]
    exact cropByte_end (cropLoop fuel) st out gap tail
  | cons c rest ih =>
    have real : c ≠ 0 := fun zero => clean (zero ▸ List.mem_cons_self)
    have clean' : (0 : Byte) ∉ rest := fun zero => clean (List.mem_cons_of_mem _ zero)
    rw [List.length_cons] at room room'
    obtain ⟨more, rfl⟩ : ∃ more', more = more' + 1 := ⟨more - 1, by omega⟩
    rw [List.cons_append, readByte, Tape.next_parts, List.length_cons]
    by_cases skipped : c = carriage
    · have ends := ih clean' st out (gap ++ [c]) (fun _ => by simp) fuel more (by omega) (by omega)
      have drops : cropFrom st (c :: rest) = cropFrom st rest := by rw [cropFrom, if_pos skipped]
      rw [List.length_append, List.length_singleton] at ends
      rw [if_pos skipped, drops, ← Nat.add_assoc, Nat.add_right_comm gap.length]
      exact ends
    · obtain ⟨fuel, rfl⟩ : ∃ fuel', fuel = fuel' + 1 := ⟨fuel - 1, by omega⟩
      rw [if_neg skipped, ← Nat.add_assoc, Nat.add_right_comm gap.length]
      refine cropByte_spec (fun st out gap pending => ?_) st out gap pending c skipped real
      exact ih clean' st out gap pending fuel (fuel + 1) (by omega) (by omega)

theorem cropFrom_length (st : Cropping) (text : Bytes) :
    (cropFrom st text).length ≤ text.length + if st = .escaped then 2 else 1 := by
  induction text generalizing st with
  | nil => cases st <;> decide
  | cons c rest ih =>
    have plain : ∀ {st}, st ≠ .escaped → (cropFrom st rest).length ≤ rest.length + 1 := fun {st} other => by
      have bound := ih st
      rwa [if_neg other] at bound
    have escaped : (cropFrom .escaped rest).length ≤ rest.length + 2 := ih .escaped
    rw [List.length_cons]
    by_cases skipped : c = carriage
    · have bound := ih st
      rw [cropFrom, if_pos skipped]
      omega
    · have line : (cropFrom .line (c :: rest)).length ≤ rest.length + 2 := by
        rw [cropFrom_line_cons c rest skipped]
        split
        · exact escaped
        · rw [List.length_cons]
          refine Nat.succ_le_succ (plain ?_)
          split <;> decide
      cases st with
      | begin =>
        rw [if_neg (by decide)]
        by_cases comment : startsComment c
        · have bound := plain (by decide : Cropping.comment ≠ .escaped)
          rw [cropFrom, if_neg skipped, if_neg (by decide), if_pos ⟨rfl, comment⟩]
          omega
        · by_cases empty : c = newline
          · have bound := plain (by decide : Cropping.begin ≠ .escaped)
            rw [cropFrom, if_neg skipped, if_neg (by decide), if_neg fun both => comment both.2, if_pos ⟨rfl, empty⟩]
            omega
          · rw [cropFrom_begin_cons c rest skipped empty (Bool.eq_false_of_not_eq_true comment)]
            exact line
      | line => exact line
      | escaped =>
        rw [if_pos rfl]
        by_cases joined : c = newline
        · have bound := plain (by decide : Cropping.line ≠ .escaped)
          rw [joined, cropFrom_escaped_newline, List.length_cons]
          omega
        · rw [cropFrom_escaped_cons c rest skipped joined, List.length_cons]
          exact Nat.succ_le_succ line
      | comment =>
        rw [cropFrom, if_neg skipped, if_pos rfl, if_neg (by decide : Cropping.comment ≠ .escaped)]
        refine Nat.le_succ_of_le (plain ?_)
        split <;> decide

theorem cropFrom_length_plain {st : Cropping} (other : st ≠ .escaped) (text : Bytes) :
    (cropFrom st text).length ≤ text.length + 1 := by
  have bound := cropFrom_length st text
  rwa [if_neg other] at bound

theorem last_uncut {text : Bytes} (clean : carriage ∉ text) (plain : newline ∉ text) :
    (cropFrom .begin text).length = text.length + 1 ↔ keptLine text = true ∧ ¬Continued text := by
  cases text with
  | nil => exact iff_of_false (by decide) (by decide)
  | cons c part =>
    have skipped : c ≠ carriage := fun same => clean (same ▸ List.mem_cons_self)
    have visible : c ≠ newline := fun same => plain (same ▸ List.mem_cons_self)
    by_cases comment : startsComment c
    · have dropped : cropFrom .begin (c :: part) = cropFrom .comment part := by
        rw [cropFrom, if_neg skipped, if_neg (by decide), if_pos ⟨rfl, comment⟩]
      have bound := cropFrom_length_plain (by decide : Cropping.comment ≠ .escaped) part
      refine iff_of_false ?_ fun both => ?_
      · rw [dropped, List.length_cons]
        omega
      · have kept := both.1
        simp [keptLine, comment] at kept
    · have kept : keptLine (c :: part) = true := by simp [keptLine, comment]
      have whole := cropFrom_line (c :: part) [] plain clean
      rw [List.append_nil] at whole
      rw [cropFrom_begin_cons c part skipped visible (Bool.eq_false_of_not_eq_true comment), whole]
      by_cases continued : (c :: part).getLast? = some backslash
      · rw [if_pos continued]
        refine iff_of_false ?_ fun both => both.2 continued
        simp [cropFrom]
        omega
      · rw [if_neg continued]
        exact iff_of_true (by simp [cropFrom]) ⟨kept, continued⟩

theorem line_uncut {line : Bytes} (clean : carriage ∉ line) (plain : newline ∉ line) (rest : Bytes) :
    (cropFrom .begin (line ++ newline :: rest)).length = line.length + (rest.length + 1) + 1 ↔
      (keptLine line = true ∧ ¬Continued line) ∧ (cropFrom .begin rest).length = rest.length + 1 := by
  have bound := cropFrom_length_plain (by decide : Cropping.begin ≠ .escaped) rest
  have bound' := cropFrom_length_plain (by decide : Cropping.line ≠ .escaped) rest
  cases line with
  | nil =>
    have dropped : cropFrom .begin (newline :: rest) = cropFrom .begin rest := by
      rw [cropFrom, if_neg (by decide), if_neg (by decide), if_neg (by decide), if_pos ⟨rfl, rfl⟩]
    refine iff_of_false ?_ fun both => absurd both.1.1 (by decide)
    rw [List.nil_append, dropped, List.length_nil]
    omega
  | cons c part =>
    have skipped : c ≠ carriage := fun same => clean (same ▸ List.mem_cons_self)
    have visible : c ≠ newline := fun same => plain (same ▸ List.mem_cons_self)
    rw [List.length_cons]
    by_cases comment : startsComment c
    · have dropped : cropFrom .begin (c :: part ++ newline :: rest) = cropFrom .begin rest := by
        rw [List.cons_append, cropFrom, if_neg skipped, if_neg (by decide), if_pos ⟨rfl, comment⟩,
          cropFrom_comment part rest fun member => plain (List.mem_cons_of_mem _ member)]
      refine iff_of_false ?_ fun both => ?_
      · rw [dropped]
        omega
      · have kept := both.1.1
        simp [keptLine, comment] at kept
    · have kept : keptLine (c :: part) = true := by simp [keptLine, comment]
      rw [List.cons_append, cropFrom_begin_cons c _ skipped visible (Bool.eq_false_of_not_eq_true comment),
        ← List.cons_append, cropFrom_line (c :: part) _ plain clean]
      by_cases continued : (c :: part).getLast? = some backslash
      · rw [if_pos continued, cropFrom_escaped_newline, List.length_append, List.length_cons, List.length_dropLast,
          List.length_cons]
        refine iff_of_false (by omega) fun both => both.1.2 continued
      · rw [if_neg continued, cropFrom_line_cons newline rest (by decide), if_neg (by decide), if_pos rfl,
          List.length_append, List.length_cons, List.length_cons]
        constructor
        · exact fun same => ⟨⟨kept, continued⟩, by omega⟩
        · exact fun both => by omega

theorem cropFrom_uncut {text : Bytes} (clean : carriage ∉ text) :
    (cropFrom .begin text).length = text.length + 1 ↔
      ∀ line ∈ text.splitOn newline, keptLine line = true ∧ ¬Continued line := by
  induction text using lines_induction newline with
  | unfinished text plain =>
    rw [List.splitOn_eq_singleton plain]
    simp only [List.mem_singleton, forall_eq]
    exact last_uncut clean plain
  | line line rest plain ih =>
    have clean' : carriage ∉ line := fun member => clean (List.mem_append_left _ member)
    have clean'' : carriage ∉ rest := fun member => clean (List.mem_append_right _ (List.mem_cons_of_mem _ member))
    rw [List.splitOn_append_cons_self_of_not_mem plain, List.forall_mem_cons, ← ih clean'', List.length_append,
      List.length_cons]
    exact line_uncut clean' plain rest

theorem cropFrom_clean (st : Cropping) {text : Bytes} (clean : (0 : Byte) ∉ text) : (0 : Byte) ∉ cropFrom st text := by
  induction text generalizing st with
  | nil => cases st <;> decide
  | cons c rest ih =>
    have real : (0 : Byte) ≠ c := fun zero => clean (zero ▸ List.mem_cons_self)
    have clean' := fun st => ih st fun zero => clean (List.mem_cons_of_mem _ zero)
    have enter : ∀ st, (0 : Byte) ∉ (if c = backslash then cropFrom .escaped rest else c :: cropFrom st rest) := by
      intro st
      split
      · exact clean' _
      · exact List.not_mem_cons_of_ne_of_not_mem real (clean' _)
    have waited : ∀ st : Cropping, (0 : Byte) ∉ (if st = .escaped then [backslash] else []) := by
      intro st
      cases st <;> decide
    have space : (0 : Byte) ≠ 32 := by decide
    rw [cropFrom]
    split
    · exact clean' _
    · split
      · exact clean' _
      · split
        · exact clean' _
        · split
          · exact clean' _
          · split
            · exact List.not_mem_cons_of_ne_of_not_mem space (clean' _)
            · exact fun member => (List.mem_append.mp member).elim (waited st) (enter _)

theorem content_cstr (content : Bytes) : ∃ tail, content ++ [0] = cstr content ++ 0 :: tail ∧
    content.length = (cstr content).length + tail.length ∧ (tail = [] → (0 : Byte) ∉ content) := by
  have parts : cstr content ++ content.dropWhile (· != 0) = content := List.takeWhile_append_dropWhile
  cases rest : content.dropWhile (· != 0) with
  | nil =>
    rw [rest, List.append_nil] at parts
    refine ⟨[], ?_, ?_, fun _ => ?_⟩
    · rw [parts]
    · rw [parts]
      rfl
    · rw [← parts]
      exact cstr_clean content
  | cons byte rest' =>
    have stopped := List.head?_dropWhile_not (· != 0) content
    rw [rest] at stopped
    have zero : byte = 0 := by simpa using stopped
    rw [rest, zero] at parts
    refine ⟨rest' ++ [0], ?_, ?_, fun none => absurd none (by simp)⟩
    · conv_lhs => rw [← parts]
      rw [List.append_assoc, List.cons_append]
    · conv_lhs => rw [← parts]
      rw [List.length_append, List.length_append, List.length_cons, List.length_singleton]

theorem uncut_iff (content : Bytes) {tail : Bytes} (size : content.length = (cstr content).length + tail.length)
    (last : tail = [] → (0 : Byte) ∉ content) :
    Uncut content ↔ ¬(cropAndTrimUnitContent content).length < (cstr content).length + 1 + tail.length := by
  rw [cropAndTrimUnitContent]
  have bound := cropFrom_length_plain (by decide : Cropping.begin ≠ .escaped) (cstr content)
  constructor
  · rintro ⟨clean, smooth, lines⟩
    have whole := cstr_of_no_nul content clean
    rw [whole] at size ⊢
    rw [(cropFrom_uncut smooth).mpr lines]
    omega
  · intro full
    have none : tail = [] := List.length_eq_zero_iff.mp (by omega)
    have clean := last none
    have whole := cstr_of_no_nul content clean
    rw [whole] at bound full size
    have smooth : carriage ∉ content := by
      intro inside
      have fewer : (content.filter (· != carriage)).length < content.length :=
        List.length_filter_lt_length_iff_exists.mpr ⟨carriage, inside, by decide⟩
      have bound' := cropFrom_length_plain (by decide : Cropping.begin ≠ .escaped) (content.filter (· != carriage))
      rw [← cropFrom_carriage] at bound'
      omega
    exact ⟨clean, smooth, (cropFrom_uncut smooth).mp (by omega)⟩

/-- The run leaves in the memory what the stream writes, with its length, or writes after the memory. -/
theorem cropAndTrimInPlace_eq (content : Bytes) :
    if Uncut content then cropAndTrimInPlace content = none
    else ∃ after, cropAndTrimInPlace content =
      some ((cropAndTrimUnitContent content).length, cropAndTrimUnitContent content ++ 0 :: after) ∧
      (cropAndTrimUnitContent content).length ≤ content.length := by
  obtain ⟨tail, memory, size, last⟩ := content_cstr content
  have ends := readByte_spec (cstr content) tail (cstr_clean content) .begin [] [] (fun escaped => by cases escaped)
    (content.length + 1) (content.length + 2) (by omega) (by omega)
  rw [← memory, List.length_nil, Nat.zero_add] at ends
  change Ends [] (cropAndTrimUnitContent content) _ (cropAndTrimInPlace content) at ends
  have full := uncut_iff content size last
  rw [Ends] at ends
  by_cases uncut : Uncut content
  · rw [if_pos uncut]
    rwa [if_neg (full.mp uncut)] at ends
  · rw [if_neg uncut]
    have fits := not_not.mp (mt full.mpr uncut)
    rw [if_pos fits] at ends
    obtain ⟨after, run⟩ := ends
    refine ⟨after, ?_, by omega⟩
    rw [run, List.length_nil, Nat.zero_add, List.nil_append]

/-- The writes stay in the memory, and the length is the one of the string, exactly when something
is dropped of the content or its last line is ended. -/
theorem cropAndTrimInPlace_bounded (content : Bytes) :
    (∃ length buffer, cropAndTrimInPlace content = some (length, buffer) ∧ length = (cstr buffer).length ∧
      length ≤ content.length) ↔ ¬Uncut content := by
  have run := cropAndTrimInPlace_eq content
  by_cases uncut : Uncut content
  · rw [if_pos uncut] at run
    refine iff_of_false ?_ (fun cut => cut uncut)
    rintro ⟨length, buffer, some, -⟩
    rw [run] at some
    cases some
  · rw [if_neg uncut] at run
    obtain ⟨after, run, fits⟩ := run
    refine iff_of_true ⟨_, _, run, ?_, fits⟩ uncut
    have clean : (0 : Byte) ∉ cropAndTrimUnitContent content := cropFrom_clean .begin (cstr_clean content)
    rw [cstr_terminated clean]

/-- A file without final newline whose two lines are kept whole: the last NUL is written after the memory. -/
theorem cropAndTrimInPlace_uncut :
    cropAndTrimInPlace (ascii "[Unit]\nAfter=a") = none ∧
      ¬∀ content, ∃ length buffer, cropAndTrimInPlace content = some (length, buffer) ∧
        length = (cstr buffer).length ∧ length ≤ content.length := by
  have lost : cropAndTrimInPlace (ascii "[Unit]\nAfter=a") = none := by decide
  refine ⟨lost, fun bounded => ?_⟩
  obtain ⟨length, buffer, run, -⟩ := bounded (ascii "[Unit]\nAfter=a")
  rw [lost] at run
  cases run

end AppManager.Binding
