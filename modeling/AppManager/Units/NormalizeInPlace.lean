import AppManager.Lib.Tape
import AppManager.Units.NormalizeUnit

/-! `normalize_unit_file_cmtchrs` on the memory of its content: what each line becomes, and
when the length that it returns is the one of the string that it leaves. -/

namespace AppManager.Units
open AppManager.Lib

/-- `do { c = *read++; } while(c && c != '\n');` -/
def skipComment : Nat → Tape → Option (Byte × Tape)
  | 0, _ => none
  | fuel + 1, tape => tape.next fun c tape =>
    if c ≠ 0 ∧ c ≠ newline then skipComment fuel tape else some (c, tape)

/-- `do { *write++ = c = *read++; } while(c && c != '\n');` -/
def copyLine : Nat → Tape → Option (Byte × Tape)
  | 0, _ => none
  | fuel + 1, tape => tape.next fun c tape => (tape.put c).bind fun tape =>
    if c ≠ 0 ∧ c ≠ newline then copyLine fuel tape else some (c, tape)

/-- The backslash before the byte that ended the line becomes a space, and that byte is lost. -/
def joinBack (tape : Tape) : Tape :=
  if 2 ≤ tape.write ∧ tape.cells[tape.write - 2]? = some backslash then
    { tape with cells := tape.cells.set (tape.write - 2) 32, write := tape.write - 1 }
  else tape

def normalizeLoop (cmtchrs : Bytes) : Nat → Byte → Tape → Option (Nat × Bytes)
  | 0, _, _ => none
  | fuel + 1, c, tape =>
    if c = 0 then tape.close c
    else if c = newline ∨ isblank c then
      tape.next fun c tape => normalizeLoop cmtchrs fuel c tape
    else if c ∈ cmtchrs then
      (skipComment fuel tape).bind fun (c, tape) => normalizeLoop cmtchrs fuel c tape
    else (tape.put c).bind fun tape => (copyLine fuel tape).bind fun (c, tape) =>
      normalizeLoop cmtchrs fuel c (joinBack tape)

/-- The length that is returned and the memory of the content, which ends with the terminator. -/
def normalizeUnitFileCmtchrs (content : Bytes) (cmtchrs : Option Bytes) : Option (Nat × Bytes) :=
  (Tape.start (content ++ [0])).next fun c tape =>
    normalizeLoop (cmtchrs.getD []) (content.length + 2) c tape

def endLine (stop line : Bytes) : Bytes :=
  if line.getLast? = some backslash then line.dropLast ++ [32] else line ++ stop

def normalizeLine (cmtchrs stop line : Bytes) : Bytes :=
  match line.dropWhile isblank with
  | [] => []
  | c :: rest => if c ∈ cmtchrs then [] else endLine stop (c :: rest)

def normalizeLines (cmtchrs stop text : Bytes) : Bytes :=
  (terminated newline text).flatMap (normalizeLine cmtchrs [newline]) ++
    normalizeLine cmtchrs stop (unended newline text)

/-- What follows the last end of line is blank, a comment, or ended by a backslash. -/
def ClosedEnd (cmtchrs content : Bytes) : Prop :=
  (unended newline content).dropWhile isblank = [] ∨
    (∃ c ∈ ((unended newline content).dropWhile isblank).head?, c ∈ cmtchrs) ∨
    ((unended newline content).dropWhile isblank).getLast? = some backslash

instance (cmtchrs content : Bytes) : Decidable (ClosedEnd cmtchrs content) :=
  inferInstanceAs (Decidable (_ ∨ _ ∨ _))

/-- A byte that ends the loops on the bytes of a line. -/
def Stops (byte : Byte) : Prop := byte = 0 ∨ byte = newline

theorem skipComment_spec {line : Bytes} (inside : ∀ byte ∈ line, ¬Stops byte) {stop : Byte} (stops : Stops stop)
    (out gap rest : Bytes) (fuel : Nat) (room : line.length < fuel) :
    skipComment fuel (.parts out gap (line ++ stop :: rest)) =
      some (stop, .parts out (gap ++ line ++ [stop]) rest) := by
  induction line generalizing gap fuel with
  | nil =>
    cases fuel with
    | zero => exact absurd room (Nat.not_lt_zero _)
    | succ fuel =>
      have ends : ¬(stop ≠ 0 ∧ stop ≠ newline) := fun both => stops.elim both.1 both.2
      rw [List.nil_append, skipComment, Tape.next_parts, if_neg ends, List.append_nil]
  | cons byte line ih =>
    cases fuel with
    | zero => exact absurd room (Nat.not_lt_zero _)
    | succ fuel =>
      have goesOn : byte ≠ 0 ∧ byte ≠ newline := not_or.mp (inside byte List.mem_cons_self)
      rw [List.cons_append, skipComment, Tape.next_parts, if_pos goesOn,
        ih (fun byte member => inside byte (List.mem_cons_of_mem _ member)) _ fuel (Nat.lt_of_succ_lt_succ room)]
      simp only [List.append_assoc, List.cons_append, List.nil_append]

theorem copyLine_spec {line : Bytes} (inside : ∀ byte ∈ line, ¬Stops byte) {stop : Byte} (stops : Stops stop)
    (out gap rest : Bytes) (fuel : Nat) (room : line.length < fuel) :
    ∃ gap', gap'.length = gap.length ∧ copyLine fuel (.parts out gap (line ++ stop :: rest)) =
      some (stop, .parts (out ++ line ++ [stop]) gap' rest) := by
  induction line generalizing out gap fuel with
  | nil =>
    cases fuel with
    | zero => exact absurd room (Nat.not_lt_zero _)
    | succ fuel =>
      have ends : ¬(stop ≠ 0 ∧ stop ≠ newline) := fun both => stops.elim both.1 both.2
      obtain ⟨gap', size, wrote⟩ := Tape.put_read out gap stop rest stop
      refine ⟨gap', size, ?_⟩
      rw [List.nil_append, copyLine, Tape.next_parts, wrote, Option.bind_some, if_neg ends,
        List.append_nil]
  | cons byte line ih =>
    cases fuel with
    | zero => exact absurd room (Nat.not_lt_zero _)
    | succ fuel =>
      have goesOn : byte ≠ 0 ∧ byte ≠ newline := not_or.mp (inside byte List.mem_cons_self)
      obtain ⟨gap', size, wrote⟩ := Tape.put_read out gap byte (line ++ stop :: rest) byte
      obtain ⟨gap'', size', copied⟩ := ih (fun byte member => inside byte (List.mem_cons_of_mem _ member))
        (out ++ [byte]) gap' fuel (Nat.lt_of_succ_lt_succ room)
      refine ⟨gap'', size'.trans size, ?_⟩
      rw [List.cons_append, copyLine, Tape.next_parts, wrote, Option.bind_some, if_pos goesOn, copied]
      simp only [List.append_assoc, List.cons_append, List.nil_append]

theorem joinBack_continued (out gap rest : Bytes) (stop : Byte) :
    joinBack (.parts (out ++ [backslash] ++ [stop]) gap rest) = .parts (out ++ [32]) (stop :: gap) rest := by
  have write : (out ++ [backslash] ++ [stop]).length = out.length + 2 := by simp
  have cells : out ++ [backslash] ++ [stop] ++ gap ++ rest = out ++ backslash :: (stop :: gap ++ rest) := by simp
  simp only [joinBack, Tape.parts, write, cells, Nat.add_sub_cancel]
  rw [if_pos ⟨by omega, by simp⟩, Tape.set_parts]
  simp only [Tape.mk.injEq, List.length_append, List.length_cons, List.length_nil]
  refine ⟨?_, ?_, ?_⟩
  · rw [List.append_assoc, List.append_assoc]
    rfl
  · omega
  · omega

theorem joinBack_other (out gap rest : Bytes) {last : Byte} (other : last ≠ backslash) (stop : Byte) :
    joinBack (.parts (out ++ [last] ++ [stop]) gap rest) = .parts (out ++ [last] ++ [stop]) gap rest := by
  have write : (out ++ [last] ++ [stop]).length = out.length + 2 := by simp
  have cells : out ++ [last] ++ [stop] ++ gap ++ rest = out ++ last :: (stop :: gap ++ rest) := by simp
  have there : (out ++ last :: (stop :: gap ++ rest))[out.length]? = some last := by simp
  rw [joinBack, if_neg]
  simp only [Tape.parts, write, cells, Nat.add_sub_cancel, there, Option.some.injEq]
  exact fun both => other both.2

/-- The end of a line that was copied: a continuation takes the place of the backslash. -/
theorem joinBack_line (out gap rest : Bytes) {line : Bytes} (some : line ≠ []) (stop : Byte) :
    ∃ gap', gap'.length + (endLine [stop] line).length = gap.length + line.length + 1 ∧
      joinBack (.parts (out ++ line ++ [stop]) gap rest) = .parts (out ++ endLine [stop] line) gap' rest := by
  obtain ⟨init, last, rfl⟩ : ∃ init last, line = init ++ [last] :=
    ⟨_, _, (List.dropLast_append_getLast some).symm⟩
  rw [← List.append_assoc out]
  by_cases continued : last = backslash
  · have text : endLine [stop] (init ++ [last]) = init ++ [32] := by
      rw [endLine, continued, List.getLast?_concat, if_pos rfl, List.dropLast_concat]
    refine ⟨stop :: gap, ?_, ?_⟩
    · simp only [text, List.length_append, List.length_cons, List.length_nil]
      omega
    · rw [continued, joinBack_continued, ← continued, text, List.append_assoc]
  · have text : endLine [stop] (init ++ [last]) = init ++ [last] ++ [stop] := by
      rw [endLine, List.getLast?_concat, if_neg fun same => continued (Option.some.inj same)]
    refine ⟨gap, ?_, ?_⟩
    · simp only [text, List.length_append, List.length_cons, List.length_nil]
      omega
    · rw [joinBack_other _ _ _ continued, text, List.append_assoc, List.append_assoc, List.append_assoc]

theorem normalizeLoop_end (cmtchrs : Bytes) (fuel : Nat) (tape : Tape) :
    normalizeLoop cmtchrs (fuel + 1) 0 tape = tape.close 0 := if_pos rfl

theorem normalizeLoop_blank (cmtchrs : Bytes) (fuel : Nat) {c : Byte} (blank : c = newline ∨ isblank c) (tape : Tape) :
    normalizeLoop cmtchrs (fuel + 1) c tape = tape.next (normalizeLoop cmtchrs fuel) := by
  have real : c ≠ 0 := fun zero => by
    rw [zero] at blank
    exact absurd blank (by decide)
  rw [normalizeLoop, if_neg real, if_pos blank]

theorem normalizeLoop_line (cmtchrs : Bytes) {line : Bytes} (inside : ∀ byte ∈ line, ¬Stops byte) {stop : Byte}
    (stops : Stops stop) (out gap rest : Bytes) (fuel : Nat) (room : line.length + 1 + rest.length < fuel) :
    ∃ fuel' gap', rest.length + 1 < fuel' ∧
      gap'.length + (normalizeLine cmtchrs [stop] line).length = gap.length + line.length + 1 ∧
      (Tape.parts out gap (line ++ stop :: rest)).next (normalizeLoop cmtchrs fuel) =
        normalizeLoop cmtchrs fuel' stop (.parts (out ++ normalizeLine cmtchrs [stop] line) gap' rest) := by
  induction line generalizing gap fuel with
  | nil =>
    refine ⟨fuel, gap ++ [stop], ?_, ?_, ?_⟩
    · rw [List.length_nil] at room
      omega
    · simp [normalizeLine]
    · rw [List.nil_append, Tape.next_parts, normalizeLine, List.dropWhile_nil, List.append_nil]
  | cons byte line ih =>
    have others : ∀ byte ∈ line, ¬Stops byte := fun byte member => inside byte (List.mem_cons_of_mem _ member)
    obtain ⟨real, visible⟩ := not_or.mp (inside byte List.mem_cons_self)
    rw [List.length_cons] at room
    obtain ⟨fuel, rfl⟩ : ∃ fuel', fuel = fuel' + 1 := ⟨fuel - 1, by omega⟩
    rw [List.cons_append, Tape.next_parts]
    by_cases blank : isblank byte
    · obtain ⟨fuel', gap', room', size, run⟩ := ih others (gap ++ [byte]) fuel (by omega)
      have skips : normalizeLine cmtchrs [stop] (byte :: line) = normalizeLine cmtchrs [stop] line := by
        rw [normalizeLine, List.dropWhile_cons_of_pos blank, ← normalizeLine]
      refine ⟨fuel', gap', room', ?_, ?_⟩
      · rw [skips, size, List.length_append, List.length_cons, List.length_nil, List.length_cons]
        omega
      · rw [skips, normalizeLoop_blank cmtchrs fuel (Or.inr blank), run]
    · have starts : (byte :: line).dropWhile isblank = byte :: line := List.dropWhile_cons_of_neg blank
      rw [normalizeLoop, if_neg real, if_neg (not_or.mpr ⟨visible, blank⟩)]
      by_cases comment : byte ∈ cmtchrs
      · have nothing : normalizeLine cmtchrs [stop] (byte :: line) = [] := by
          rw [normalizeLine, starts]
          exact if_pos comment
        refine ⟨fuel, gap ++ [byte] ++ line ++ [stop], by omega, ?_, ?_⟩
        · simp [nothing]
          omega
        · rw [if_pos comment, skipComment_spec others stops out _ rest fuel (by omega), nothing, List.append_nil]
          rfl
      · obtain ⟨gap₁, size₁, wrote⟩ := Tape.put_read out gap byte (line ++ stop :: rest) byte
        obtain ⟨gap₂, size₂, copied⟩ := copyLine_spec others stops (out ++ [byte]) gap₁ rest fuel (by omega)
        rw [if_neg comment, wrote, Option.bind_some, copied, Option.bind_some]
        obtain ⟨gap₃, size₃, joined⟩ := joinBack_line out gap₂ rest (List.cons_ne_nil byte line) stop
        have text : normalizeLine cmtchrs [stop] (byte :: line) = endLine [stop] (byte :: line) := by
          rw [normalizeLine, starts]
          exact if_neg comment
        rw [List.append_assoc out, List.singleton_append]
        rw [List.length_cons] at size₃
        refine ⟨fuel, gap₃, by omega, ?_, ?_⟩
        · rw [text, List.length_cons]
          omega
        · change normalizeLoop cmtchrs fuel stop (joinBack _) = _
          rw [joined, text]

theorem inside_line {line : Bytes} (clean : (0 : Byte) ∉ line) (plain : newline ∉ line) :
    ∀ byte ∈ line, ¬Stops byte := fun _ member stops =>
  stops.elim (fun zero => clean (zero ▸ member)) (fun end_ => plain (end_ ▸ member))

theorem normalizeLines_open (cmtchrs stop : Bytes) {text : Bytes} (plain : newline ∉ text) :
    normalizeLines cmtchrs stop text = normalizeLine cmtchrs stop text := by
  rw [normalizeLines, terminated_open newline text plain, unended_open newline text plain]
  rfl

theorem normalizeLines_line (cmtchrs stop : Bytes) {line : Bytes} (rest : Bytes) (plain : newline ∉ line) :
    normalizeLines cmtchrs stop (line ++ newline :: rest) =
      normalizeLine cmtchrs [newline] line ++ normalizeLines cmtchrs stop rest := by
  rw [normalizeLines, normalizeLines, terminated_line newline line rest plain, unended_line newline line rest plain,
    List.flatMap_cons, List.append_assoc]

theorem normalizeLoop_text (cmtchrs : Bytes) {text : Bytes} (clean : (0 : Byte) ∉ text) (out gap : Bytes) (fuel : Nat)
    (room : text.length + 1 < fuel) :
    ∃ gap', gap'.length + (normalizeLines cmtchrs [0] text).length = gap.length + text.length + 1 ∧
      (Tape.parts out gap (text ++ [0])).next (normalizeLoop cmtchrs fuel) =
        (Tape.parts (out ++ normalizeLines cmtchrs [0] text) gap' []).close 0 := by
  induction text using lines_induction newline generalizing out gap fuel with
  | unfinished text plain =>
    obtain ⟨fuel', gap', more, size, run⟩ :=
      normalizeLoop_line cmtchrs (inside_line clean plain) (Or.inl rfl : Stops 0) out gap [] fuel room
    obtain ⟨fuel', rfl⟩ : ∃ fuel'', fuel' = fuel'' + 1 := ⟨fuel' - 1, by omega⟩
    refine ⟨gap', ?_, ?_⟩
    · rw [normalizeLines_open cmtchrs [0] plain, size]
    · rw [normalizeLines_open cmtchrs [0] plain, run, normalizeLoop_end]
  | line line rest plain ih =>
    have clean' : (0 : Byte) ∉ line := fun zero => clean (List.mem_append_left _ zero)
    have clean'' : (0 : Byte) ∉ rest := fun zero => clean (List.mem_append_right _ (List.mem_cons_of_mem _ zero))
    rw [List.length_append, List.length_cons] at room
    obtain ⟨fuel', gap', more, size, run⟩ :=
      normalizeLoop_line cmtchrs (inside_line clean' plain) (Or.inr rfl : Stops newline) out gap (rest ++ [0]) fuel
        (by rw [List.length_append, List.length_singleton]; omega)
    rw [List.length_append, List.length_singleton] at more
    obtain ⟨fuel', rfl⟩ : ∃ fuel'', fuel' = fuel'' + 1 := ⟨fuel' - 1, by omega⟩
    obtain ⟨gap'', size', run'⟩ := ih clean'' (out ++ normalizeLine cmtchrs [newline] line) gap' fuel' (by omega)
    rw [normalizeLines_line cmtchrs [0] rest plain]
    refine ⟨gap'', ?_, ?_⟩
    · rw [List.length_append, List.length_append, List.length_cons]
      omega
    · rw [List.append_assoc, List.cons_append, run, normalizeLoop_blank cmtchrs fuel' (Or.inl rfl), run',
        List.append_assoc]

theorem normalizeLines_terminator (cmtchrs text : Bytes) :
    normalizeLines cmtchrs [0] text =
      normalizeLines cmtchrs [] text ++ if ClosedEnd cmtchrs text then [] else [0] := by
  rw [normalizeLines, normalizeLines, List.append_assoc, List.append_cancel_left_eq, normalizeLine, normalizeLine]
  by_cases closed : ClosedEnd cmtchrs text
  · rw [if_pos closed, List.append_nil]
    rcases closed with empty | ⟨c, starts, comment⟩ | continued
    · rw [empty]
    · obtain ⟨rest, line⟩ := List.head?_eq_some_iff.mp starts
      rw [line]
      simp only [if_pos comment]
    · cases line : (unended newline text).dropWhile isblank with
      | nil => rfl
      | cons c rest =>
        rw [line] at continued
        simp only [endLine, if_pos continued]
  · rw [if_neg closed]
    obtain ⟨proper, code, single⟩ := not_or.mp closed |>.imp_right not_or.mp
    cases line : (unended newline text).dropWhile isblank with
    | nil => exact absurd line proper
    | cons c rest =>
      rw [line] at code single
      have kept : c ∉ cmtchrs := fun comment => code ⟨c, rfl, comment⟩
      simp only [endLine, if_neg kept, if_neg single, List.append_nil]

theorem endLine_singleton (stop : Bytes) (byte : Byte) :
    endLine stop [byte] = if byte = backslash then [32] else byte :: stop := by
  rw [endLine, List.getLast?_singleton]
  simp only [Option.some.injEq]
  rfl

theorem endLine_cons (stop : Bytes) (byte next : Byte) (line : Bytes) :
    endLine stop (byte :: next :: line) = byte :: endLine stop (next :: line) := by
  rw [endLine, endLine, List.getLast?_cons_cons]
  split <;> rfl

theorem normalizeFrom_kept (cmtchrs : Bytes) {line : Bytes} (plain : newline ∉ line) :
    normalizeFrom cmtchrs .line line = endLine [] line ∧
      ∀ rest, normalizeFrom cmtchrs .line (line ++ newline :: rest) =
        endLine [newline] line ++ normalizeFrom cmtchrs .begin rest := by
  have step : ∀ byte rest, normalizeFrom cmtchrs .line (byte :: rest) =
      if byte = newline then newline :: normalizeFrom cmtchrs .begin rest
      else if byte = backslash ∧ (rest = [] ∨ rest.head? = some newline) then 32 :: normalizeFrom cmtchrs .begin rest
      else byte :: normalizeFrom cmtchrs .line rest := by
    intro byte rest
    rw [normalizeFrom, if_neg (by decide), if_neg (by simp), if_neg (by simp)]
  induction line with
  | nil =>
    refine ⟨rfl, fun rest => ?_⟩
    rw [List.nil_append, step, if_pos rfl]
    rfl
  | cons byte line ih =>
    have visible : byte ≠ newline := fun same => plain (same ▸ List.mem_cons_self)
    obtain ⟨unended, ended⟩ := ih fun member => plain (List.mem_cons_of_mem _ member)
    cases line with
    | nil =>
      refine ⟨?_, fun rest => ?_⟩
      · rw [step, if_neg visible, endLine_singleton]
        by_cases continued : byte = backslash
        · rw [if_pos ⟨continued, Or.inl rfl⟩, if_pos continued]
          rfl
        · rw [if_neg fun both => continued both.1, if_neg continued]
          rfl
      · rw [List.cons_append, List.nil_append, step, if_neg visible, endLine_singleton]
        by_cases continued : byte = backslash
        · rw [if_pos ⟨continued, Or.inr rfl⟩, if_pos continued, normalizeFrom, if_neg (by decide),
            if_pos ⟨rfl, Or.inl rfl⟩]
          rfl
        · have last := ended rest
          rw [List.nil_append] at last
          rw [if_neg fun both => continued both.1, if_neg continued, last]
          rfl
    | cons next line =>
      have inner : next ≠ newline := fun same => plain (same ▸ List.mem_cons_of_mem _ List.mem_cons_self)
      have middle : ∀ rest : Bytes, ¬(byte = backslash ∧
          (next :: rest = [] ∨ (next :: rest).head? = some newline)) := by
        rintro rest ⟨-, none | same⟩
        · cases none
        · exact inner (Option.some.inj same)
      refine ⟨?_, fun rest => ?_⟩
      · rw [step, if_neg visible, if_neg (middle line), unended, endLine_cons]
      · rw [List.cons_append, step, if_neg visible, List.cons_append, if_neg (middle _), ← List.cons_append, ended,
          endLine_cons]
        rfl

theorem normalizeFrom_comment (cmtchrs : Bytes) {line : Bytes} (plain : newline ∉ line) :
    normalizeFrom cmtchrs .comment line = [] ∧
      ∀ rest, normalizeFrom cmtchrs .comment (line ++ newline :: rest) = normalizeFrom cmtchrs .begin rest := by
  induction line with
  | nil =>
    refine ⟨rfl, fun rest => ?_⟩
    rw [List.nil_append, normalizeFrom, if_pos rfl, if_pos rfl]
  | cons byte line ih =>
    have visible : byte ≠ newline := fun same => plain (same ▸ List.mem_cons_self)
    obtain ⟨unended, ended⟩ := ih fun member => plain (List.mem_cons_of_mem _ member)
    refine ⟨?_, fun rest => ?_⟩
    · rw [normalizeFrom, if_pos rfl, if_neg visible, unended]
    · rw [List.cons_append, normalizeFrom, if_pos rfl, if_neg visible, ended]

theorem normalizeFrom_line (cmtchrs : Bytes) {line : Bytes} (plain : newline ∉ line) :
    normalizeFrom cmtchrs .begin line = normalizeLine cmtchrs [] line ∧
      ∀ rest, normalizeFrom cmtchrs .begin (line ++ newline :: rest) =
        normalizeLine cmtchrs [newline] line ++ normalizeFrom cmtchrs .begin rest := by
  induction line with
  | nil =>
    refine ⟨rfl, fun rest => ?_⟩
    rw [List.nil_append, normalizeFrom, if_neg (by decide), if_pos ⟨rfl, Or.inl rfl⟩]
    rfl
  | cons byte line ih =>
    have visible : byte ≠ newline := fun same => plain (same ▸ List.mem_cons_self)
    have plain' : newline ∉ line := fun member => plain (List.mem_cons_of_mem _ member)
    have step : ∀ rest, normalizeFrom cmtchrs .begin (byte :: rest) =
        if isblank byte then normalizeFrom cmtchrs .begin rest
        else if byte ∈ cmtchrs then normalizeFrom cmtchrs .comment rest
        else normalizeFrom cmtchrs .line (byte :: rest) := by
      intro rest
      rw [normalizeFrom]
      by_cases blank : isblank byte
      · simp only [blank, reduceCtorEq, if_false, or_true, and_self, if_true]
      · by_cases comment : byte ∈ cmtchrs
        · simp only [blank, visible, comment, reduceCtorEq, if_false, or_self, and_false, and_self, if_true]
        · rw [normalizeFrom]
          simp only [blank, visible, comment, reduceCtorEq, if_false, or_self, and_false]
    by_cases blank : isblank byte
    · obtain ⟨unended, ended⟩ := ih plain'
      refine ⟨?_, fun rest => ?_⟩
      · rw [step, if_pos blank, unended, normalizeLine, normalizeLine, List.dropWhile_cons_of_pos blank]
      · rw [List.cons_append, step, if_pos blank, ended, normalizeLine, normalizeLine,
          List.dropWhile_cons_of_pos blank]
    · have starts : ∀ stop, normalizeLine cmtchrs stop (byte :: line) =
          if byte ∈ cmtchrs then [] else endLine stop (byte :: line) := by
        intro stop
        rw [normalizeLine, List.dropWhile_cons_of_neg blank]
      by_cases comment : byte ∈ cmtchrs
      · obtain ⟨unended, ended⟩ := normalizeFrom_comment cmtchrs plain'
        refine ⟨?_, fun rest => ?_⟩
        · rw [step, if_neg blank, if_pos comment, unended, starts, if_pos comment]
        · rw [List.cons_append, step, if_neg blank, if_pos comment, ended, starts, if_pos comment, List.nil_append]
      · obtain ⟨unended, ended⟩ := normalizeFrom_kept cmtchrs plain
        refine ⟨?_, fun rest => ?_⟩
        · rw [step, if_neg blank, if_neg comment, unended, starts, if_neg comment]
        · rw [List.cons_append, step, if_neg blank, if_neg comment, ← List.cons_append, ended, starts,
            if_neg comment]

theorem normalizeFrom_lines (cmtchrs text : Bytes) :
    normalizeFrom cmtchrs .begin text = normalizeLines cmtchrs [] text := by
  induction text using lines_induction newline with
  | unfinished text plain => rw [normalizeLines_open cmtchrs [] plain, (normalizeFrom_line cmtchrs plain).1]
  | line line rest plain ih => rw [normalizeLines_line cmtchrs [] rest plain, (normalizeFrom_line cmtchrs plain).2, ih]

theorem normalizeFrom_clean (cmtchrs : Bytes) (mode : Reading) {text : Bytes} (clean : (0 : Byte) ∉ text) :
    (0 : Byte) ∉ normalizeFrom cmtchrs mode text := by
  induction text generalizing mode with
  | nil => exact List.not_mem_nil
  | cons byte rest ih =>
    have real : byte ≠ 0 := fun zero => clean (zero ▸ List.mem_cons_self)
    have clean' := fun mode => ih mode fun zero => clean (List.mem_cons_of_mem _ zero)
    rw [normalizeFrom]
    split_ifs
    · exact clean' _
    · exact clean' _
    · exact clean' _
    · exact clean' _
    · exact List.not_mem_cons_of_ne_of_not_mem (by decide) (clean' _)
    · exact List.not_mem_cons_of_ne_of_not_mem (by decide) (clean' _)
    · exact List.not_mem_cons_of_ne_of_not_mem (Ne.symm real) (clean' _)

theorem normalizeFrom_length (cmtchrs : Bytes) (mode : Reading) (text : Bytes) :
    (normalizeFrom cmtchrs mode text).length ≤ text.length := by
  induction text generalizing mode with
  | nil => exact Nat.le_refl _
  | cons byte rest ih =>
    rw [normalizeFrom, List.length_cons]
    split_ifs
    · exact Nat.le_succ_of_le (ih _)
    · exact Nat.le_succ_of_le (ih _)
    · exact Nat.le_succ_of_le (ih _)
    · exact Nat.le_succ_of_le (ih _)
    · exact Nat.succ_le_succ (ih _)
    · exact Nat.succ_le_succ (ih _)
    · exact Nat.succ_le_succ (ih _)

theorem normalizeUnitFileCmtchrs_run {content : Bytes} (clean : (0 : Byte) ∉ content) (cmtchrs : Option Bytes) :
    ∃ gap, gap.length + (normalizeLines (cmtchrs.getD []) [0] content).length = content.length + 1 ∧
      normalizeUnitFileCmtchrs content cmtchrs =
        (Tape.parts (normalizeLines (cmtchrs.getD []) [0] content) gap []).close 0 := by
  obtain ⟨gap, size, run⟩ :=
    normalizeLoop_text (cmtchrs.getD []) clean [] [] (content.length + 2) (Nat.lt_succ_self _)
  exact ⟨gap, by simpa using size, run⟩

theorem normalizeUnitFileCmtchrs_closed {content : Bytes} (clean : (0 : Byte) ∉ content) (cmtchrs : Option Bytes)
    (closed : ClosedEnd (cmtchrs.getD []) content) :
    ∃ after, normalizeUnitFileCmtchrs content cmtchrs =
      some ((normalizeFrom (cmtchrs.getD []) .begin content).length,
        normalizeFrom (cmtchrs.getD []) .begin content ++ 0 :: after) := by
  obtain ⟨gap, size, run⟩ := normalizeUnitFileCmtchrs_run clean cmtchrs
  rw [normalizeLines_terminator, if_pos closed, List.append_nil, ← normalizeFrom_lines] at size run
  have short := normalizeFrom_length (cmtchrs.getD []) .begin content
  cases gap with
  | nil =>
    rw [List.length_nil] at size
    omega
  | cons old gap => exact ⟨gap ++ [], run.trans (Tape.close_parts rfl 0)⟩

theorem normalizeUnitFileCmtchrs_open {content : Bytes} (clean : (0 : Byte) ∉ content) (cmtchrs : Option Bytes)
    (open_ : ¬ClosedEnd (cmtchrs.getD []) content) (length : Nat) (buffer : Bytes)
    (run : normalizeUnitFileCmtchrs content cmtchrs = some (length, buffer)) : length = (cstr buffer).length + 1 := by
  obtain ⟨gap, -, run'⟩ := normalizeUnitFileCmtchrs_run clean cmtchrs
  rw [normalizeLines_terminator, if_neg open_, ← normalizeFrom_lines] at run'
  have clean' := normalizeFrom_clean (cmtchrs.getD []) .begin clean
  cases gap with
  | nil =>
    rw [run', Tape.close_full] at run
    cases run
  | cons old gap =>
    rw [run', Tape.close_parts rfl] at run
    cases run
    rw [List.append_assoc, List.singleton_append, cstr_terminated clean', List.length_append]
    rfl

/-- The writes stay up to the terminator and the length is the one of the string exactly when the
content does not end within a line. -/
theorem normalizeUnitFileCmtchrs_bounded (content : Bytes) (cmtchrs : Option Bytes) (clean : (0 : Byte) ∉ content) :
    (∃ length buffer, normalizeUnitFileCmtchrs content cmtchrs = some (length, buffer) ∧
      length = (cstr buffer).length) ↔ ClosedEnd (cmtchrs.getD []) content := by
  constructor
  · rintro ⟨length, buffer, run, same⟩
    by_contra open_
    have longer := normalizeUnitFileCmtchrs_open clean cmtchrs open_ length buffer run
    omega
  · intro closed
    obtain ⟨after, run⟩ := normalizeUnitFileCmtchrs_closed clean cmtchrs closed
    refine ⟨_, _, run, ?_⟩
    rw [cstr_terminated (normalizeFrom_clean _ .begin clean)]

theorem normalizeUnitFileCmtchrs_bounded_continued :
    ∃ length buffer, normalizeUnitFileCmtchrs (ascii "[Unit]\nAfter=a \\") (some (ascii ";#")) = some (length, buffer) ∧
      length = (cstr buffer).length :=
  (normalizeUnitFileCmtchrs_bounded (ascii "[Unit]\nAfter=a \\") (some (ascii ";#")) (by decide)).mpr (by decide)

/-- A last line without end: the terminator is written after the memory, or counted. -/
theorem normalizeUnitFileCmtchrs_unended :
    normalizeUnitFileCmtchrs (ascii "a") none = none ∧
      normalizeUnitFileCmtchrs (ascii " a") none = some (2, ascii "a" ++ [0, 0]) ∧
      ¬∀ content cmtchrs, (0 : Byte) ∉ content → ∃ length buffer,
        normalizeUnitFileCmtchrs content cmtchrs = some (length, buffer) ∧ length = (cstr buffer).length := by
  have lost : normalizeUnitFileCmtchrs (ascii "a") none = none := by decide
  refine ⟨lost, by decide, fun bounded => ?_⟩
  obtain ⟨length, buffer, run, -⟩ := bounded (ascii "a") none (by decide)
  rw [lost] at run
  cases run

end AppManager.Units
