import AppManager.Lib.Tape
import AppManager.Units.UnitProcess
import Mathlib.Data.List.DropRight

/-! The removal of duplicate slashes and of empty lines from an instance of the template of
units: the loop on the memory of the text, and the pass over its bytes that it makes. -/

namespace AppManager.Units
open AppManager.Lib

def slash : Byte := '/'.toUInt8

def allowed (written : Bytes) : Nat :=
  if ascii "http:" <:+ written ∨ ascii "https:" <:+ written then 2
  else if ascii "file:" <:+ written then 3
  else 1

def precededBy (tape : Tape) (txt : Bytes) : Bool :=
  txt.length ≤ tape.write && (tape.cells.drop (tape.write - txt.length)).take txt.length == txt

/-- The value of `acnt`. -/
def allowedCount (tape : Tape) : Nat :=
  if precededBy tape (ascii "http:") || precededBy tape (ascii "https:") then 2
  else if precededBy tape (ascii "file:") then 3
  else 1

def nrnlMax : Nat := 1

section Loops
variable {Result : Type} (go : Byte → Tape → Option Result)

/-- `for (nrs = 0 ; c == '/' && nrs < acnt ; nrs++) { *write++ = '/'; c = *++read; }`, from what is
left of the allowed count. -/
def copySlashes : Nat → Byte → Tape → Option Result
  | 0, c, tape => go c tape
  | more + 1, c, tape =>
    if c = slash then (tape.put slash).bind fun tape => tape.next (copySlashes more) else go c tape

/-- `while (c == '/') c = *++read;` -/
def skipSlashes : Nat → Byte → Tape → Option Result
  | 0, _, _ => none
  | fuel + 1, c, tape => if c = slash then tape.next (skipSlashes fuel) else go c tape

end Loops

def dedupLoop : Nat → Nat → Byte → Tape → Option (Nat × Bytes)
  | 0, _, _, _ => none
  | fuel + 1, nrnl, c, tape =>
    if c = 0 then tape.close 0
    else if c = newline then
      if nrnl + 1 ≤ nrnlMax then (tape.put c).bind fun tape => tape.next (dedupLoop fuel (nrnl + 1))
      else tape.next (dedupLoop fuel (nrnl + 1))
    else if c ≠ slash then (tape.put c).bind fun tape => tape.next (dedupLoop fuel 0)
    else copySlashes (skipSlashes (dedupLoop fuel 0) (fuel + 1)) (allowedCount tape) c tape

/-- The size that is returned, and the memory of the text. -/
def dedupSlashesInPlace (text : Bytes) : Option (Nat × Bytes) :=
  (Tape.start (text ++ [0])).next (dedupLoop (text.length + 2) nrnlMax)

/-- The pass over the bytes: whether an end of line would make an empty line, and after a slash how
many slashes may still follow. -/
structure Dedup where
  written : Bytes
  blank : Bool
  left : Option Nat

namespace Dedup

def step (state : Dedup) (c : Byte) : Dedup :=
  if c = newline then ⟨if state.blank then state.written else state.written ++ [c], true, none⟩
  else if c ≠ slash then ⟨state.written ++ [c], false, none⟩
  else match state.left.getD (allowed state.written) with
    | 0 => ⟨state.written, false, some 0⟩
    | more + 1 => ⟨state.written ++ [c], false, some more⟩

def initial : Dedup := ⟨[], true, none⟩

end Dedup

def dedupSlashes (text : Bytes) : Bytes := (text.foldl Dedup.step .initial).written

theorem allowed_pos (written : Bytes) : 0 < allowed written := by
  unfold allowed
  split_ifs <;> decide

theorem precededBy_parts (out gap rest txt : Bytes) :
    precededBy (.parts out gap rest) txt = decide (txt <:+ out) := by
  rw [Bool.eq_iff_iff, decide_eq_true_iff, precededBy, Bool.and_eq_true, decide_eq_true_iff, beq_iff_eq]
  simp only [Tape.parts]
  constructor
  · rintro ⟨short, same⟩
    rw [List.append_assoc, List.drop_append_of_le_length (Nat.sub_le _ _), List.take_append_of_le_length] at same
    · rw [List.take_of_length_le] at same
      · exact same ▸ List.drop_suffix _ out
      · rw [List.length_drop]
        omega
    · rw [List.length_drop]
      omega
  · rintro ⟨before, rfl⟩
    refine ⟨by simp, ?_⟩
    rw [List.length_append, Nat.add_sub_cancel, List.append_assoc, List.append_assoc, List.drop_left, List.take_left]

theorem allowedCount_parts (out gap rest : Bytes) : allowedCount (.parts out gap rest) = allowed out := by
  rw [allowedCount, allowed]
  simp only [precededBy_parts, Bool.or_eq_true, decide_eq_true_iff]

theorem skipSlashes_spec {Result : Type} (go : Byte → Tape → Option Result) (fuel count : Nat) (out gap : Bytes)
    {next : Byte} (rest : Bytes) (other : next ≠ slash) (room : count < fuel) :
    ∃ gap', (Tape.parts out gap (List.replicate count slash ++ next :: rest)).next (skipSlashes go fuel) =
      (Tape.parts out gap' (next :: rest)).next go := by
  induction count generalizing gap fuel with
  | zero =>
    obtain ⟨fuel, rfl⟩ : ∃ fuel', fuel = fuel' + 1 := ⟨fuel - 1, by omega⟩
    refine ⟨gap, ?_⟩
    rw [List.replicate_zero, List.nil_append, Tape.next_parts, Tape.next_parts, skipSlashes, if_neg other]
  | succ count ih =>
    obtain ⟨fuel, rfl⟩ : ∃ fuel', fuel = fuel' + 1 := ⟨fuel - 1, by omega⟩
    obtain ⟨gap', run⟩ := ih fuel (gap ++ [slash]) (by omega)
    refine ⟨gap', ?_⟩
    rw [List.replicate_succ, List.cons_append, Tape.next_parts, skipSlashes, if_pos rfl, run]

theorem copySlashes_spec {Result : Type} (go : Byte → Tape → Option Result) (fuel count left : Nat) (out gap : Bytes)
    {next : Byte} (rest : Bytes) (other : next ≠ slash) (room : count < fuel) :
    ∃ gap', (Tape.parts out gap (List.replicate count slash ++ next :: rest)).next
          (copySlashes (skipSlashes go fuel) left) =
        (Tape.parts (out ++ List.replicate (min count left) slash) gap' (next :: rest)).next go := by
  induction count generalizing left out gap with
  | zero =>
    obtain ⟨fuel, rfl⟩ : ∃ fuel', fuel = fuel' + 1 := ⟨fuel - 1, by omega⟩
    refine ⟨gap, ?_⟩
    rw [Nat.zero_min, List.replicate_zero, List.nil_append, List.append_nil, Tape.next_parts, Tape.next_parts]
    cases left with
    | zero => rw [copySlashes, skipSlashes, if_neg other]
    | succ left => rw [copySlashes, if_neg other, skipSlashes, if_neg other]
  | succ count ih =>
    cases left with
    | zero =>
      obtain ⟨gap', run⟩ := skipSlashes_spec go fuel (count + 1) out gap rest other room
      refine ⟨gap', ?_⟩
      rw [Nat.min_zero, List.replicate_zero, List.append_nil, ← run]
      rfl
    | succ left =>
      obtain ⟨gap₁, -, wrote⟩ := Tape.put_read out gap slash (List.replicate count slash ++ next :: rest) slash
      obtain ⟨gap', run⟩ := ih left (out ++ [slash]) gap₁ (by omega)
      refine ⟨gap', ?_⟩
      rw [List.replicate_succ, List.cons_append, Tape.next_parts, copySlashes, if_pos rfl, wrote, Option.bind_some, run,
        Nat.add_min_add_right, List.replicate_succ, List.append_assoc, List.singleton_append]

theorem foldl_slashes (count left : Nat) (out : Bytes) (blank : Bool) :
    (List.replicate count slash).foldl Dedup.step ⟨out, blank, some left⟩ =
      ⟨out ++ List.replicate (min count left) slash, if count = 0 then blank else false, some (left - count)⟩ := by
  induction count generalizing left out blank with
  | zero => simp
  | succ count ih =>
    rw [List.replicate_succ, List.foldl_cons]
    cases left with
    | zero =>
      have stays : Dedup.step ⟨out, blank, some 0⟩ slash = ⟨out, false, some 0⟩ := rfl
      rw [stays, ih, Nat.min_zero, Nat.min_zero, if_neg (Nat.succ_ne_zero count)]
      simp
    | succ left =>
      have copies : Dedup.step ⟨out, blank, some (left + 1)⟩ slash = ⟨out ++ [slash], false, some left⟩ := rfl
      rw [copies, ih, Nat.add_min_add_right, if_neg (Nat.succ_ne_zero count), List.replicate_succ, List.append_assoc,
        List.singleton_append, Nat.add_sub_add_right, ite_self]

/-- The memory that a run leaves: a text at its begin, with its terminator. -/
def Leaves (text : Bytes) (result : Option (Nat × Bytes)) : Prop :=
  ∃ after, result = some (text.length, text ++ 0 :: after)

theorem Leaves.unique {text text' : Bytes} {result : Option (Nat × Bytes)} (left : Leaves text result)
    (left' : Leaves text' result) : text = text' := by
  obtain ⟨after, memory⟩ := left
  obtain ⟨after', memory'⟩ := left'
  rw [memory, Option.some.injEq, Prod.mk.injEq] at memory'
  exact (List.append_inj memory'.2 memory'.1).1

theorem slash_run (text : Bytes) : ∃ count rest, text = List.replicate count slash ++ rest ∧
    rest.head? ≠ some slash := by
  refine ⟨(text.takeWhile (· == slash)).length, text.dropWhile (· == slash), ?_, ?_⟩
  · rw [← List.eq_replicate_of_mem (a := slash) (fun byte member => by simpa using List.mem_takeWhile_imp member),
      List.takeWhile_append_dropWhile]
  · intro starts
    have stopped := List.head?_dropWhile_not (· == slash) text
    rw [starts] at stopped
    exact absurd stopped (by decide)

theorem foldl_other {text : Bytes} (other : text.head? ≠ some slash) (out : Bytes) (blank : Bool) (left : Option Nat) :
    (text.foldl Dedup.step ⟨out, blank, left⟩).written = (text.foldl Dedup.step ⟨out, blank, none⟩).written := by
  cases text with
  | nil => rfl
  | cons c rest =>
    have plain : c ≠ slash := fun same => other (congrArg some same)
    have same : Dedup.step ⟨out, blank, left⟩ c = Dedup.step ⟨out, blank, none⟩ c := by
      simp only [Dedup.step, if_pos plain]
    rw [List.foldl_cons, List.foldl_cons, same]

theorem foldl_run (count : Nat) (out : Bytes) (blank : Bool) :
    (List.replicate (count + 1) slash).foldl Dedup.step ⟨out, blank, none⟩ =
      ⟨out ++ List.replicate (min (count + 1) (allowed out)) slash, false, some (allowed out - (count + 1))⟩ := by
  have counts : Dedup.step ⟨out, blank, none⟩ slash = Dedup.step ⟨out, blank, some (allowed out)⟩ slash := rfl
  have run := foldl_slashes (count + 1) (allowed out) out blank
  rw [if_neg (Nat.succ_ne_zero count)] at run
  rw [← run, List.replicate_succ, List.foldl_cons, List.foldl_cons, counts]

theorem dedupLoop_spec (size : Nat) {text : Bytes} (short : text.length ≤ size) (clean : (0 : Byte) ∉ text) (nrnl : Nat)
    (out gap : Bytes) (fuel : Nat) (room : text.length < fuel) :
    Leaves (text.foldl Dedup.step ⟨out, decide (nrnlMax ≤ nrnl), none⟩).written
      ((Tape.parts out gap (text ++ [0])).next (dedupLoop fuel nrnl)) := by
  induction size generalizing text nrnl out gap fuel with
  | zero =>
    obtain ⟨fuel, rfl⟩ : ∃ fuel', fuel = fuel' + 1 := ⟨fuel - 1, by omega⟩
    rw [List.length_eq_zero_iff.mp (Nat.le_zero.mp short), List.nil_append, Tape.next_parts, dedupLoop, if_pos rfl]
    cases gap with
    | nil => exact ⟨[], Tape.close_parts rfl 0⟩
    | cons old gap => exact ⟨_, Tape.close_parts (List.append_nil _) 0⟩
  | succ size ih =>
    cases text with
    | nil =>
      have empty : ([] : Bytes).length ≤ size := Nat.zero_le size
      exact ih empty clean nrnl out gap fuel room
    | cons c rest =>
      have real : c ≠ 0 := fun zero => clean (zero ▸ List.mem_cons_self)
      have clean' : (0 : Byte) ∉ rest := fun zero => clean (List.mem_cons_of_mem _ zero)
      rw [List.length_cons] at short room
      obtain ⟨fuel, rfl⟩ : ∃ fuel', fuel = fuel' + 1 := ⟨fuel - 1, by omega⟩
      obtain ⟨gap₁, -, wrote⟩ := Tape.put_read out gap c (rest ++ [0]) c
      by_cases ends : c = newline
      · have step : Dedup.step ⟨out, decide (nrnlMax ≤ nrnl), none⟩ c =
            ⟨if nrnl + 1 ≤ nrnlMax then out ++ [c] else out, decide (nrnlMax ≤ nrnl + 1), none⟩ := by
          have first : nrnl + 1 ≤ nrnlMax ↔ ¬nrnlMax ≤ nrnl := by omega
          have last : nrnlMax ≤ nrnl + 1 := Nat.le_add_left 1 nrnl
          rw [Dedup.step, if_pos ends, decide_eq_true last]
          by_cases fresh : nrnl + 1 ≤ nrnlMax
          · rw [if_pos fresh, decide_eq_false (first.mp fresh)]
            rfl
          · rw [if_neg fresh, decide_eq_true (not_not.mp (mt first.mpr fresh))]
            rfl
        rw [List.cons_append, Tape.next_parts, dedupLoop, if_neg real, if_pos ends, List.foldl_cons, step]
        by_cases fresh : nrnl + 1 ≤ nrnlMax
        · rw [if_pos fresh, if_pos fresh, wrote, Option.bind_some]
          exact ih (by omega) clean' (nrnl + 1) (out ++ [c]) gap₁ fuel (by omega)
        · rw [if_neg fresh, if_neg fresh]
          exact ih (by omega) clean' (nrnl + 1) out (gap ++ [c]) fuel (by omega)
      · by_cases plain : c ≠ slash
        · have step : Dedup.step ⟨out, decide (nrnlMax ≤ nrnl), none⟩ c = ⟨out ++ [c], decide (nrnlMax ≤ 0), none⟩ := by
            rw [Dedup.step, if_neg ends, if_pos plain]
            rfl
          rw [List.cons_append, Tape.next_parts, dedupLoop, if_neg real, if_neg ends, if_pos plain, wrote,
            Option.bind_some, List.foldl_cons, step]
          exact ih (by omega) clean' 0 (out ++ [c]) gap₁ fuel (by omega)
        · have isSlash : c = slash := not_not.mp plain
          obtain ⟨count, rest', run, other⟩ := slash_run rest
          have whole : c :: rest = List.replicate (count + 1) slash ++ rest' := by
            rw [run, isSlash, List.replicate_succ, List.cons_append]
          have size' : rest.length = count + rest'.length := by rw [run, List.length_append, List.length_replicate]
          have clean'' : (0 : Byte) ∉ rest' := fun zero => clean' (run ▸ List.mem_append_right _ zero)
          obtain ⟨next, more, left, other'⟩ : ∃ next more, rest' ++ [0] = next :: more ∧ next ≠ slash := by
            cases rest' with
            | nil => exact ⟨0, [], rfl, by decide⟩
            | cons next more => exact ⟨next, more ++ [0], rfl, fun same => other (congrArg some same)⟩
          have loop : (Tape.parts out gap (c :: rest ++ [0])).next (dedupLoop (fuel + 1) nrnl) =
              (Tape.parts out gap (c :: rest ++ [0])).next
                (copySlashes (skipSlashes (dedupLoop fuel 0) (fuel + 1)) (allowed out)) := by
            rw [List.cons_append, Tape.next_parts, Tape.next_parts, dedupLoop, if_neg real, if_neg ends,
              if_neg plain, allowedCount_parts]
          obtain ⟨gap', copied⟩ := copySlashes_spec (dedupLoop fuel 0) (fuel + 1) (count + 1) (allowed out) out gap
            more other' (by omega)
          rw [loop, whole, List.append_assoc, left, copied, ← left, List.foldl_append, foldl_run, foldl_other other]
          exact ih (by omega) clean'' 0 _ gap' fuel (by omega)

theorem dedupSlashesInPlace_eq {text : Bytes} (clean : (0 : Byte) ∉ text) :
    Leaves (dedupSlashes text) (dedupSlashesInPlace text) :=
  dedupLoop_spec text.length (Nat.le_refl _) clean nrnlMax [] [] (text.length + 2) (by omega)

/-- No line is empty, but what follows the last end of line. -/
structure NoEmptyLine (text : Bytes) : Prop where
  first : text.head? ≠ some newline
  inner : ¬[newline, newline] <:+: text

/-- Each longest run of slashes is as long as what stands before it allows. -/
def ShortRuns (text : Bytes) : Prop :=
  ∀ before count after, text = before ++ List.replicate count slash ++ after →
    before.getLast? ≠ some slash → after.head? ≠ some slash → count ≤ allowed before

structure Neat (text : Bytes) : Prop where
  lines : NoEmptyLine text
  runs : ShortRuns text

/-- A byte that is neither a slash nor an end of line is listed with whether a slash stands between it
and the one listed before. -/
def separate (state : List (Bool × Byte) × Bool) (c : Byte) : List (Bool × Byte) × Bool :=
  if c = slash then (state.1, true) else if c = newline then state else (state.1 ++ [(state.2, c)], false)

def separations (text : Bytes) : List (Bool × Byte) × Bool := text.foldl separate ([], false)

/-- What the state tells about the bytes that are written. -/
structure Tracks (state : Dedup) : Prop where
  blank : state.blank = true ↔ ∀ c ∈ state.written.getLast?, c = newline
  outside : state.left = none → state.written.getLast? ≠ some slash
  inside : ∀ more, state.left = some more → ∃ before count, before.getLast? ≠ some slash ∧
    state.written = before ++ List.replicate (count + 1) slash ∧ count + 1 + more = allowed before

theorem separations_concat (text : Bytes) (c : Byte) : separations (text ++ [c]) = separate (separations text) c := by
  rw [separations, List.foldl_append]
  rfl

theorem rdropWhile_run {before : Bytes} (other : before.getLast? ≠ some slash) (count : Nat) :
    (before ++ List.replicate count slash).rdropWhile (· == slash) = before := by
  induction count with
  | zero =>
    rw [List.replicate_zero, List.append_nil, List.rdropWhile_eq_self_iff]
    intro some last
    rw [beq_iff_eq] at last
    exact other (by rw [List.getLast?_eq_some_getLast some, last])
  | succ count ih =>
    rw [List.replicate_succ', ← List.append_assoc, List.rdropWhile_concat_pos _ _ _ (by decide), ih]

theorem run_unique {before before' : Bytes} {count count' : Nat}
    (same : before ++ List.replicate count slash = before' ++ List.replicate count' slash)
    (other : before.getLast? ≠ some slash) (other' : before'.getLast? ≠ some slash) :
    before = before' ∧ count = count' := by
  have starts := congrArg (List.rdropWhile (· == slash)) same
  rw [rdropWhile_run other, rdropWhile_run other'] at starts
  rw [starts, List.append_cancel_left_eq] at same
  exact ⟨starts, by simpa using congrArg List.length same⟩

theorem shortRuns_concat {text : Bytes} {c : Byte} (short : ShortRuns text)
    (last : ∀ before count, text ++ [c] = before ++ List.replicate count slash → before.getLast? ≠ some slash →
      count ≤ allowed before) : ShortRuns (text ++ [c]) := by
  intro before count after split other other'
  rcases List.eq_nil_or_concat after with rfl | ⟨after', c', rfl⟩
  · rw [List.append_nil] at split
    exact last before count split other
  · rw [List.concat_eq_append, ← List.append_assoc] at split
    have parts := List.append_inj' split rfl
    refine short before count after' parts.1 other fun starts => other' ?_
    rw [List.concat_eq_append, List.head?_append, starts]
    rfl

theorem shortRuns_other {text : Bytes} {c : Byte} (short : ShortRuns text) (plain : c ≠ slash) :
    ShortRuns (text ++ [c]) := by
  refine shortRuns_concat short fun before count same other => ?_
  cases count with
  | zero => exact Nat.zero_le _
  | succ count =>
    rw [List.replicate_succ', ← List.append_assoc] at same
    exact absurd (List.singleton_inj.mp (List.append_inj' same rfl).2) plain

theorem shortRuns_slash {before : Bytes} {count : Nat} (short : ShortRuns (before ++ List.replicate count slash))
    (other : before.getLast? ≠ some slash) (fits : count + 1 ≤ allowed before) :
    ShortRuns (before ++ List.replicate (count + 1) slash) := by
  rw [List.replicate_succ', ← List.append_assoc]
  refine shortRuns_concat short fun before' count' same other' => ?_
  rw [List.append_assoc, ← List.replicate_succ'] at same
  obtain ⟨rfl, rfl⟩ := run_unique same other other'
  exact fits

theorem noEmptyLine_concat {text : Bytes} {c : Byte} (lines : NoEmptyLine text)
    (visible : c = newline → ¬∀ last ∈ text.getLast?, last = newline) : NoEmptyLine (text ++ [c]) := by
  refine ⟨fun starts => ?_, fun inside => ?_⟩
  · cases text with
    | nil => exact visible (Option.some.inj starts) (fun last member => by cases member)
    | cons first rest => exact lines.first starts
  · rcases List.infix_concat_iff.mp inside with ends | inner
    · rcases List.suffix_concat_iff.mp ends with none | ⟨front, same, ends'⟩
      · cases none
      · have whole : [newline] ++ [newline] = front ++ [c] := same
        have parts := List.append_inj' whole rfl
        rw [← parts.1] at ends'
        obtain ⟨before, rfl⟩ := ends'
        refine visible (List.singleton_inj.mp parts.2).symm fun last member => ?_
        rw [List.getLast?_concat] at member
        exact (Option.some.inj member).symm
    · exact lines.inner inner

namespace Tracks

variable {state : Dedup}

theorem initial : Tracks .initial :=
  ⟨iff_of_true rfl nofun, fun _ => nofun, nofun⟩

/-- A byte that is neither a slash nor an end of line. -/
theorem other {c : Byte} (visible : c ≠ newline) (plain : c ≠ slash) : Tracks ⟨state.written ++ [c], false, none⟩ := by
  refine ⟨iff_of_false Bool.false_ne_true fun blank => ?_, fun _ last => ?_, nofun⟩
  · exact visible (blank c (List.getLast?_concat))
  · rw [List.getLast?_concat] at last
    exact plain (Option.some.inj last)

theorem ended (tracks : Tracks state) :
    Tracks ⟨if state.blank then state.written else state.written ++ [newline], true, none⟩ := by
  have last : ∀ c ∈ (if state.blank then state.written else state.written ++ [newline]).getLast?, c = newline := by
    split
    · next blank => exact tracks.blank.mp blank
    · intro c member
      rw [List.getLast?_concat] at member
      exact (Option.some.inj member).symm
  refine ⟨iff_of_true rfl last, fun _ isSlash => ?_, nofun⟩
  exact absurd (last slash isSlash) (by decide)

/-- The run of slashes at the end, and how many may still be written. -/
theorem run (tracks : Tracks state) : ∃ before count, before.getLast? ≠ some slash ∧
    state.written = before ++ List.replicate count slash ∧
    count + state.left.getD (allowed state.written) = allowed before := by
  cases left : state.left with
  | none => exact ⟨state.written, 0, tracks.outside left, (List.append_nil _).symm, Nat.zero_add _⟩
  | some more =>
    obtain ⟨before, count, other, written, total⟩ := tracks.inside more left
    exact ⟨before, count + 1, other, written, total⟩

theorem slash_written {before : Bytes} {count more : Nat} (other : before.getLast? ≠ some slash)
    (written : state.written = before ++ List.replicate count slash) (total : count + (more + 1) = allowed before) :
    Tracks ⟨state.written ++ [slash], false, some more⟩ := by
  refine ⟨iff_of_false Bool.false_ne_true fun blank => ?_, nofun, fun more' same => ?_⟩
  · exact absurd (blank slash (List.getLast?_concat)) (by decide)
  · cases same
    refine ⟨before, count, other, ?_, by omega⟩
    rw [written, List.append_assoc, ← List.replicate_succ']

theorem slash_dropped (tracks : Tracks state) (none : state.left.getD (allowed state.written) = 0) :
    Tracks ⟨state.written, false, some 0⟩ ∧ state.left = some 0 := by
  cases left : state.left with
  | none =>
    rw [left, Option.getD_none] at none
    exact absurd none (Nat.pos_iff_ne_zero.mp (allowed_pos _))
  | some more =>
    rw [left, Option.getD_some] at none
    obtain ⟨before, count, other, written, total⟩ := tracks.inside more left
    have last : state.written.getLast? = some slash := by
      rw [written, List.replicate_succ', ← List.append_assoc, List.getLast?_concat]
    refine ⟨⟨iff_of_false Bool.false_ne_true fun blank => ?_, nofun, fun more' same => ?_⟩,
      by rw [none]⟩
    · exact absurd (blank slash last) (by decide)
    · cases same
      exact ⟨before, count, other, written, none ▸ total⟩

end Tracks

structure Stepped (state : Dedup) (c : Byte) (next : Dedup) : Prop where
  tracks : Tracks next
  neat : Neat state.written → Neat next.written
  marks : separations next.written = separate (separations state.written) c
  fixed : ∀ rest, Neat (state.written ++ c :: rest) → next.written = state.written ++ [c]

theorem neat_infix {text rest : Bytes} (neat : Neat (text ++ newline :: rest)) :
    ∀ last ∈ text.getLast?, last ≠ newline := by
  intro last member same
  obtain ⟨front, whole⟩ := List.getLast?_eq_some_iff.mp member
  refine neat.lines.inner ⟨front, rest, ?_⟩
  rw [whole, same, List.append_assoc, List.append_assoc]
  rfl

theorem stepped_newline {state : Dedup} (tracks : Tracks state) : Stepped state newline (state.step newline) := by
  have step : state.step newline =
      ⟨if state.blank then state.written else state.written ++ [newline], true, none⟩ := if_pos rfl
  have unmarked : ∀ marks, separate marks newline = marks := fun marks => by
    rw [separate, if_neg (by decide), if_pos rfl]
  rw [step]
  refine ⟨tracks.ended, ?_, ?_, ?_⟩
  · intro neat
    dsimp only
    split
    · exact neat
    · next fresh =>
      exact ⟨noEmptyLine_concat neat.lines fun _ blank => fresh (tracks.blank.mpr blank),
        shortRuns_other neat.runs (by decide)⟩
  · dsimp only
    rw [unmarked]
    split
    · rfl
    · rw [separations_concat, unmarked]
  · intro rest neat
    refine if_neg fun blank => ?_
    cases last : state.written.getLast? with
    | none =>
      rw [List.getLast?_eq_none_iff] at last
      rw [last] at neat
      exact neat.lines.first rfl
    | some c => exact neat_infix neat c last (tracks.blank.mp blank c last)

theorem stepped_other (state : Dedup) {c : Byte} (visible : c ≠ newline) (plain : c ≠ slash) :
    Stepped state c (state.step c) := by
  have step : state.step c = ⟨state.written ++ [c], false, none⟩ := by
    rw [Dedup.step, if_neg visible, if_pos plain]
  rw [step]
  exact ⟨Tracks.other visible plain,
    fun neat => ⟨noEmptyLine_concat neat.lines fun same => absurd same visible, shortRuns_other neat.runs plain⟩,
    separations_concat state.written c, fun _ _ => rfl⟩

theorem separations_run (before : Bytes) (count : Nat) :
    (separations (before ++ List.replicate (count + 1) slash)).2 = true := by
  rw [List.replicate_succ', ← List.append_assoc, separations_concat]
  rfl

theorem stepped_slash {state : Dedup} (tracks : Tracks state) : Stepped state slash (state.step slash) := by
  obtain ⟨before, count, other, written, total⟩ := tracks.run
  cases more : state.left.getD (allowed state.written) with
  | zero =>
    have step : state.step slash = ⟨state.written, false, some 0⟩ := by
      rw [Dedup.step, if_neg (by decide), if_neg (by decide), more]
    obtain ⟨tracks', full⟩ := tracks.slash_dropped more
    rw [step]
    refine ⟨tracks', id, ?_, fun rest neat => ?_⟩
    · obtain ⟨before', count', -, written', -⟩ := tracks.inside 0 full
      have seen := separations_run before' count'
      rw [← written'] at seen
      rw [separate, if_pos rfl, ← seen]
    · obtain ⟨count', rest', run, other'⟩ := slash_run (slash :: rest)
      cases count' with
      | zero => exact absurd (congrArg List.head? run) (Ne.symm other')
      | succ count' =>
        have whole : state.written ++ slash :: rest =
            before ++ List.replicate (count + (count' + 1)) slash ++ rest' := by
          rw [run, written, List.append_assoc, List.append_assoc, ← List.append_assoc (List.replicate count slash),
            List.replicate_append_replicate]
        have fits := neat.runs before _ rest' whole other other'
        omega
  | succ more' =>
    have step : state.step slash = ⟨state.written ++ [slash], false, some more'⟩ := by
      rw [Dedup.step, if_neg (by decide), if_neg (by decide), more]
    rw [more] at total
    rw [step]
    refine ⟨Tracks.slash_written other written total, fun neat => ⟨?_, ?_⟩, separations_concat state.written slash,
      fun _ _ => rfl⟩
    · exact noEmptyLine_concat neat.lines fun same => absurd same (by decide)
    · have runs := neat.runs
      rw [written] at runs
      have longer := shortRuns_slash runs other (by omega)
      rw [List.replicate_succ', ← List.append_assoc, ← written] at longer
      exact longer

theorem step_spec {state : Dedup} (tracks : Tracks state) (c : Byte) : Stepped state c (state.step c) := by
  by_cases ends : c = newline
  · exact ends ▸ stepped_newline tracks
  · by_cases isSlash : c = slash
    · exact isSlash ▸ stepped_slash tracks
    · exact stepped_other state ends isSlash

theorem foldl_spec {state : Dedup} (tracks : Tracks state) (neat : Neat state.written) (text : Bytes) :
    Neat (text.foldl Dedup.step state).written ∧
      separations (text.foldl Dedup.step state).written = text.foldl separate (separations state.written) := by
  induction text generalizing state with
  | nil => exact ⟨neat, rfl⟩
  | cons c rest ih =>
    have stepped := step_spec tracks c
    obtain ⟨neat', marks⟩ := ih stepped.tracks (stepped.neat neat)
    exact ⟨neat', by rw [List.foldl_cons, marks, stepped.marks, List.foldl_cons]⟩

theorem foldl_neat {state : Dedup} (tracks : Tracks state) (text : Bytes) (neat : Neat (state.written ++ text)) :
    (text.foldl Dedup.step state).written = state.written ++ text := by
  induction text generalizing state with
  | nil => exact (List.append_nil _).symm
  | cons c rest ih =>
    have stepped := step_spec tracks c
    have written := stepped.fixed rest neat
    have whole : state.written ++ c :: rest = (state.step c).written ++ rest := by
      rw [written, List.append_assoc, List.singleton_append]
    rw [List.foldl_cons, ih stepped.tracks (whole ▸ neat), ← whole]

theorem neat_nil : Neat [] := by
  refine ⟨⟨nofun, fun inside => ?_⟩, fun before count after split _ _ => ?_⟩
  · exact absurd (List.infix_nil.mp inside) (List.cons_ne_nil _ _)
  · have parts := congrArg List.length split
    rw [List.length_nil, List.length_append, List.length_append, List.length_replicate] at parts
    omega

theorem dedupSlashes_neat (text : Bytes) :
    Neat (dedupSlashes text) ∧ separations (dedupSlashes text) = separations text :=
  foldl_spec Tracks.initial neat_nil text

theorem dedupSlashes_fixed {text : Bytes} (neat : Neat text) : dedupSlashes text = text :=
  foldl_neat Tracks.initial text neat

theorem separations_kept (text : Bytes) :
    (separations text).1.map Prod.snd = text.filter fun c => c ≠ slash ∧ c ≠ newline := by
  induction text using List.reverseRecOn with
  | nil => rfl
  | append_singleton text c ih =>
    rw [separations_concat, separate, List.filter_append, ← ih]
    by_cases isSlash : c = slash
    · simp [isSlash]
    · rw [if_neg isSlash]
      by_cases ends : c = newline
      · simp [ends]
      · simp [isSlash, ends]

theorem dedupSlashes_clean {text : Bytes} (clean : (0 : Byte) ∉ text) : (0 : Byte) ∉ dedupSlashes text := by
  intro inside
  have kept := (separations_kept (dedupSlashes text)).symm
  rw [(dedupSlashes_neat text).2, separations_kept] at kept
  have there : (0 : Byte) ∈ (dedupSlashes text).filter fun c => c ≠ slash ∧ c ≠ newline :=
    List.mem_filter.mpr ⟨inside, by decide⟩
  rw [kept] at there
  exact clean (List.mem_filter.mp there).1

example : dedupSlashes (ascii "\n\nA=http:////x//\n\nB=file:///\n") = ascii "A=http://x/\nB=file:///\n" := by decide

end AppManager.Units
