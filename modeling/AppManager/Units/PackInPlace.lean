import AppManager.Units.DedupSlashes

/-! The packing of a text on its memory: the scan of a line, then its copy behind the place
that is read, and the lines that are written so. -/

namespace AppManager.Units
open AppManager.Lib

structure LineScan where
  nextcont : Bool
  emit : Bool
  start : Option Nat
  deriving DecidableEq, Repr

namespace LineScan

def initial : LineScan := ⟨false, false, none⟩

/-- The byte `c`, that `read` points to, with the byte after it. -/
def see (scan : LineScan) (c : Byte) (after : Option Byte) (read : Nat) : LineScan :=
  if isblank c then scan
  else if c = backslash ∧ after = some newline then { scan with nextcont := true }
  else { scan with emit := true, start := scan.start <|> some read }

end LineScan

/-- `while (c && c != '\n')`, up to `c = *++read`. -/
def scanLine {Result : Type} (go : LineScan → Byte → Tape → Option Result) :
    Nat → LineScan → Byte → Tape → Option Result
  | 0, _, _, _ => none
  | fuel + 1, scan, c, tape =>
    if c ≠ 0 ∧ c ≠ newline then
      tape.next (scanLine go fuel (scan.see c tape.cells[tape.read]? (tape.read - 1)))
    else go scan c tape

/-- What is written of a line that is from `begin` to the last byte that was read. -/
def emitLine (purge : Byte) (cont : Bool) (scan : LineScan) (begin : Nat) (tape : Tape) : Option Tape :=
  if scan.emit || (cont && !scan.nextcont) then
    let begin := if cont then begin else scan.start.getD begin
    if purge ≠ 0 ∧ tape.cells[begin]? = some purge then
      if (cstr (tape.cells.drop (begin + 1))).take 3 = ascii "nl\n" then tape.put newline else some tape
    else tape.copyDown (tape.read - 1 - begin) begin
  else some tape

def packLoop (purge : Byte) : Nat → Bool → Byte → Tape → Option (Nat × Bytes)
  | 0, _, _, _ => none
  | fuel + 1, cont, c, tape =>
    if c = 0 then tape.close 0
    else
      let begin := tape.read - 1
      let emit := fun scan c tape =>
        (emitLine purge cont scan begin tape).bind fun tape => packLoop purge fuel scan.nextcont c tape
      scanLine (fun scan c tape => if c = 0 then emit scan c tape else tape.next (emit scan))
        (fuel + 1) .initial c tape

/-- The size that is returned, and the memory of the text. -/
def packInPlace (text : Bytes) (purge : Byte) : Option (Nat × Bytes) :=
  (Tape.start (text ++ [0])).next (packLoop purge (text.length + 1) false)

def visible (line : Bytes) : Bool := line.any fun byte => !isblank byte

/-- A line without the backslash that continues it. -/
def lineBody (ended : Bool) (line : Bytes) : Bytes :=
  if ended && line.getLast? == some backslash then line.dropLast else line

def wholeLine (ended : Bool) (line : Bytes) : Bytes := if ended then line ++ [newline] else line

def lineStop (ended : Bool) : Byte := if ended then newline else 0

namespace LineScan

/-- The scan of a line that is at `read`. -/
def after (ended : Bool) : LineScan → Nat → Bytes → LineScan
  | scan, _, [] => scan
  | scan, read, c :: rest => after ended (scan.see c (rest ++ [lineStop ended]).head? read) (read + 1) rest

end LineScan

theorem lineBody_cons (ended : Bool) (c : Byte) (rest : Bytes) :
    lineBody ended (c :: rest) =
      if rest = [] ∧ ended = true ∧ c = backslash then [] else c :: lineBody ended rest := by
  cases rest with
  | nil =>
    cases ended with
    | false => simp [lineBody]
    | true => by_cases same : c = backslash <;> simp [lineBody, same]
  | cons next rest =>
    rw [if_neg fun both => List.cons_ne_nil _ _ both.1, lineBody, lineBody, List.getLast?_cons_cons,
      List.dropLast_cons_of_ne_nil (List.cons_ne_nil _ _)]
    split <;> rfl

theorem last_other {ended : Bool} {c : Byte} {rest : Bytes} (other : ¬(rest = [] ∧ ended = true ∧ c = backslash)) :
    (ended && (c :: rest).getLast? == some backslash) = (ended && rest.getLast? == some backslash) := by
  cases rest with
  | nil =>
    cases ended with
    | false => rfl
    | true => simpa using other
  | cons next rest => rw [List.getLast?_cons_cons]

theorem after_eq (ended : Bool) {line : Bytes} (single : newline ∉ line) (scan : LineScan) (read : Nat) :
    scan.after ended read line =
      ⟨scan.nextcont || (ended && line.getLast? == some backslash), scan.emit || visible (lineBody ended line),
        scan.start <|> if visible (lineBody ended line) then
          some (read + ((lineBody ended line).takeWhile isblank).length) else none⟩ := by
  induction line generalizing scan read with
  | nil => cases ended <;> simp [LineScan.after, lineBody, visible]
  | cons c rest ih =>
    rw [LineScan.after, ih fun member => single (List.mem_cons_of_mem _ member), lineBody_cons]
    by_cases goesOn : rest = [] ∧ ended = true ∧ c = backslash
    · obtain ⟨rfl, rfl, rfl⟩ := goesOn
      have plain : ¬isblank backslash = true := by decide
      simp [LineScan.see, plain, visible, lineBody, lineStop]
    · rw [if_neg goesOn, last_other goesOn, LineScan.see]
      by_cases blank : isblank c = true
      · have text : visible (c :: lineBody ended rest) = visible (lineBody ended rest) := by simp [visible, blank]
        rw [if_pos blank, List.takeWhile_cons_of_pos blank, List.length_cons, text, Nat.add_right_comm, Nat.add_assoc]
      · have other : ¬(c = backslash ∧ (rest ++ [lineStop ended]).head? = some newline) := by
          rintro ⟨same, stops⟩
          cases rest with
          | nil =>
            cases ended with
            | false => exact absurd (Option.some.inj stops) (by decide)
            | true => exact goesOn ⟨rfl, rfl, same⟩
          | cons next rest => exact single (by rw [← Option.some.inj stops]; simp)
        have text : visible (c :: lineBody ended rest) = true := by simp [visible, blank]
        rw [if_neg blank, if_neg other, List.takeWhile_cons_of_neg blank, text, if_pos rfl]
        simp only [Bool.true_or, Bool.or_true, List.length_nil, Nat.add_zero]
        cases scan.start <;> rfl

theorem scanLine_spec {Result : Type} (go : LineScan → Byte → Tape → Option Result) (ended : Bool) {line : Bytes}
    (inside : ∀ c ∈ line, c ≠ 0 ∧ c ≠ newline) (scan : LineScan) (out gap rest : Bytes) (fuel : Nat)
    (room : line.length < fuel) :
    (Tape.parts out gap (line ++ lineStop ended :: rest)).next (scanLine go fuel scan) =
      go (scan.after ended (out.length + gap.length) line) (lineStop ended)
        (.parts out (gap ++ line ++ [lineStop ended]) rest) := by
  induction line generalizing scan gap fuel with
  | nil =>
    obtain ⟨fuel, rfl⟩ : ∃ fuel', fuel = fuel' + 1 := ⟨fuel - 1, by omega⟩
    have stops : ¬(lineStop ended ≠ 0 ∧ lineStop ended ≠ newline) := by cases ended <;> decide
    rw [List.nil_append, Tape.next_parts, scanLine, if_neg stops, List.append_nil, LineScan.after]
  | cons c line ih =>
    obtain ⟨fuel, rfl⟩ : ∃ fuel', fuel = fuel' + 1 := ⟨fuel - 1, by omega⟩
    rw [List.length_cons] at room
    have ahead : (Tape.parts out (gap ++ [c]) (line ++ lineStop ended :: rest)).cells[
        (Tape.parts out (gap ++ [c]) (line ++ lineStop ended :: rest)).read]? = (line ++ [lineStop ended]).head? := by
      simp only [Tape.parts]
      rw [← List.length_append, List.getElem?_append_right (Nat.le_refl _), Nat.sub_self]
      cases line <;> rfl
    have read : (Tape.parts out (gap ++ [c]) (line ++ lineStop ended :: rest)).read - 1 = out.length + gap.length := by
      simp [Tape.parts, ← Nat.add_assoc]
    have moved : out.length + (gap ++ [c]).length = out.length + gap.length + 1 := by
      rw [List.length_append, List.length_singleton, Nat.add_assoc]
    rw [List.cons_append, Tape.next_parts, scanLine, if_pos (inside c List.mem_cons_self), ahead, read,
      ih (fun c member => inside c (List.mem_cons_of_mem _ member)) _ _ fuel (by omega), moved, LineScan.after]
    simp only [List.append_assoc, List.cons_append, List.nil_append]

/-- What follows the backslash of a line, from it. -/
def lineEnd (ended : Bool) (line : Bytes) : Bytes :=
  (if ended && line.getLast? == some backslash then [backslash] else []) ++ if ended then [newline] else []

def lineCopy (cont ended : Bool) (line : Bytes) : Bytes :=
  if !cont && visible (lineBody ended line) then (wholeLine ended line).dropWhile isblank else wholeLine ended line

/-- Whether a line is copied when it is not purged. -/
def lineRead (cont ended : Bool) (line : Bytes) : Bool :=
  visible (lineBody ended line) || (cont && !(ended && line.getLast? == some backslash))

theorem packLine_eq (purge : Byte) (cont : Bool) (line : Bytes) (ended : Bool) (after : Bytes) :
    packLine purge cont line ended after =
      (if lineRead cont ended line then
        if purge ≠ 0 ∧ (lineCopy cont ended line).head? = some purge then
          if ((lineCopy cont ended line).tail ++ after).take 3 = ascii "nl\n" then [newline] else []
        else lineCopy cont ended line
      else [], ended && line.getLast? == some backslash) := rfl

theorem wholeLine_eq (ended : Bool) (line : Bytes) :
    wholeLine ended line = lineBody ended line ++ lineEnd ended line := by
  rw [wholeLine, lineBody, lineEnd]
  cases ended with
  | false => simp
  | true =>
    by_cases goesOn : line.getLast? = some backslash
    · obtain ⟨body, rfl⟩ := List.getLast?_eq_some_iff.mp goesOn
      simp
    · simp [goesOn]

theorem visible_iff {line : Bytes} : visible line = true ↔ ∃ byte ∈ line, ¬isblank byte = true := by
  simp [visible]

theorem takeWhile_visible {line : Bytes} (text : visible line = true) (more : Bytes) :
    (line ++ more).takeWhile isblank = line.takeWhile isblank := by
  induction line with
  | nil => cases text
  | cons c rest ih =>
    by_cases blank : isblank c = true
    · have text' : visible rest = true := by simpa [visible, blank] using text
      rw [List.cons_append, List.takeWhile_cons_of_pos blank, List.takeWhile_cons_of_pos blank, ih text']
    · rw [List.cons_append, List.takeWhile_cons_of_neg blank, List.takeWhile_cons_of_neg blank]

theorem dropWhile_visible {line : Bytes} (text : visible line = true) (more : Bytes) :
    (line ++ more).dropWhile isblank = line.dropWhile isblank ++ more := by
  have split := List.takeWhile_append_dropWhile (p := isblank) (l := line ++ more)
  rw [takeWhile_visible text] at split
  have split' := List.takeWhile_append_dropWhile (p := isblank) (l := line)
  rw [← List.append_cancel_left_eq (line.takeWhile isblank), split, ← List.append_assoc, split']

theorem lineCopy_start (cont ended : Bool) {line : Bytes} (single : newline ∉ line)
    (proper : wholeLine ended line ≠ []) (base : Nat) :
    ∃ blanks, wholeLine ended line = blanks ++ lineCopy cont ended line ∧ lineCopy cont ended line ≠ [] ∧
      (if cont then base else (LineScan.initial.after ended base line).start.getD base) = base + blanks.length := by
  rw [lineCopy, after_eq ended single]
  simp only [LineScan.initial]
  cases cont with
  | true => exact ⟨[], rfl, proper, rfl⟩
  | false =>
    by_cases text : visible (lineBody ended line) = true
    · refine ⟨(wholeLine ended line).takeWhile isblank, ?_⟩
      simp only [text, Bool.not_false, Bool.and_true, if_true, wholeLine_eq, takeWhile_visible text]
      refine ⟨?_, ?_, rfl⟩
      · rw [dropWhile_visible text, ← List.append_assoc, List.takeWhile_append_dropWhile]
      · rw [dropWhile_visible text]
        obtain ⟨byte, member, stops⟩ := visible_iff.mp text
        intro none
        exact stops (List.dropWhile_eq_nil_iff.mp (List.append_eq_nil_iff.mp none).1 byte member)
    · rw [Bool.not_eq_true] at text
      refine ⟨[], ?_⟩
      simp only [text]
      exact ⟨rfl, proper, rfl⟩

theorem drop_parts (out junk : Bytes) (c : Byte) (after rest : Bytes) :
    (Tape.parts out (junk ++ c :: after) rest).cells.drop (out.length + junk.length + 1) = after ++ rest := by
  have whole : out ++ (junk ++ c :: after) ++ rest = (out ++ junk ++ [c]) ++ (after ++ rest) := by simp
  have size : out.length + junk.length + 1 = (out ++ junk ++ [c]).length := by simp [Nat.add_assoc]
  simp only [Tape.parts, whole, size, List.drop_left]

/-- What is written of the line `blanks ++ c :: copied`, which is copied from `c` on. -/
def lineText (purge c : Byte) (copied after : Bytes) : Bytes :=
  if purge ≠ 0 ∧ c = purge then if (copied ++ after).take 3 = ascii "nl\n" then [newline] else []
  else c :: copied

theorem packLine_read (purge : Byte) {cont ended : Bool} {line : Bytes} (after : Bytes) {c : Byte} {copied : Bytes}
    (read : lineRead cont ended line = true) (copy : lineCopy cont ended line = c :: copied) :
    (packLine purge cont line ended after).1 = lineText purge c copied after := by
  rw [packLine_eq, lineText]
  simp [read, copy]

theorem packLine_unread (purge : Byte) {cont ended : Bool} {line : Bytes} (after : Bytes)
    (unread : lineRead cont ended line = false) : (packLine purge cont line ended after).1 = [] := by
  rw [packLine_eq]
  simp [unread]

theorem emitText_spec (purge c : Byte) (copied after : Bytes) (out junk : Bytes) (ahead : Byte) {rest : Bytes}
    (clean : (0 : Byte) ∉ copied ++ after) (next : ahead :: rest = after ++ [0]) :
    ∃ gap', gap'.length + (lineText purge c copied after).length = (junk ++ c :: copied).length ∧
      (if purge ≠ 0 ∧ (Tape.parts out (junk ++ c :: (copied ++ [ahead])) rest).cells[out.length + junk.length]? =
            some purge then
          if (cstr ((Tape.parts out (junk ++ c :: (copied ++ [ahead])) rest).cells.drop
              (out.length + junk.length + 1))).take 3 = ascii "nl\n" then
            (Tape.parts out (junk ++ c :: (copied ++ [ahead])) rest).put newline
          else some (.parts out (junk ++ c :: (copied ++ [ahead])) rest)
        else (Tape.parts out (junk ++ c :: (copied ++ [ahead])) rest).copyDown
          ((Tape.parts out (junk ++ c :: (copied ++ [ahead])) rest).read - 1 - (out.length + junk.length))
          (out.length + junk.length)) =
        some (.parts (out ++ lineText purge c copied after) (gap' ++ [ahead]) rest) := by
  have text : cstr ((Tape.parts out (junk ++ c :: (copied ++ [ahead])) rest).cells.drop
      (out.length + junk.length + 1)) = copied ++ after := by
    rw [drop_parts, List.append_assoc, List.singleton_append, next, ← List.append_assoc, cstr_terminated clean]
  have here := Tape.get_parts out junk c (copied ++ [ahead]) rest
  rw [lineText, text]
  by_cases purged : purge ≠ 0 ∧ c = purge
  · have found : purge ≠ 0 ∧ (Tape.parts out (junk ++ c :: (copied ++ [ahead])) rest).cells[
        out.length + junk.length]? = some purge := ⟨purged.1, here.trans (congrArg some purged.2)⟩
    rw [if_pos purged, if_pos found]
    by_cases replaced : (copied ++ after).take 3 = ascii "nl\n"
    · obtain ⟨old, left, same⟩ := List.exists_cons_of_ne_nil
        (List.append_ne_nil_of_right_ne_nil junk (List.cons_ne_nil c copied))
      have wrote := Tape.put_parts out old (left ++ [ahead]) rest newline
      have memory : junk ++ c :: (copied ++ [ahead]) = old :: (left ++ [ahead]) := by
        rw [← List.cons_append, ← List.append_assoc, same, List.cons_append]
      refine ⟨left, ?_, ?_⟩
      · rw [if_pos replaced, same]
        rfl
      · rw [if_pos replaced, if_pos replaced, memory, wrote]
    · refine ⟨junk ++ c :: copied, ?_, ?_⟩
      · rw [if_neg replaced]
        rfl
      · rw [if_neg replaced, if_neg replaced, List.append_nil, List.append_assoc, List.cons_append]
  · have other : ¬(purge ≠ 0 ∧ (Tape.parts out (junk ++ c :: (copied ++ [ahead])) rest).cells[
        out.length + junk.length]? = some purge) := by
      rw [here, Option.some.injEq]
      exact purged
    have count : (Tape.parts out (junk ++ c :: (copied ++ [ahead])) rest).read - 1 - (out.length + junk.length) =
        (c :: copied).length := by
      simp only [Tape.parts, List.length_append, List.length_cons, List.length_nil]
      omega
    obtain ⟨gap', size, run⟩ := Tape.copyDown_parts out junk (c :: copied) [ahead] rest
    refine ⟨gap', ?_, ?_⟩
    · rw [if_neg purged, List.length_append, size]
    · rw [if_neg purged, if_neg other, count, ← run, List.append_assoc, List.cons_append]

theorem emitLine_spec (purge : Byte) (cont ended : Bool) {line : Bytes} (single : newline ∉ line)
    (proper : wholeLine ended line ≠ []) (out gap : Bytes) (ahead : Byte) {after rest : Bytes}
    (clean : (0 : Byte) ∉ wholeLine ended line ++ after) (next : ahead :: rest = after ++ [0]) :
    ∃ gap', gap'.length + (packLine purge cont line ended after).1.length = gap.length + (wholeLine ended line).length ∧
      emitLine purge cont (LineScan.initial.after ended (out.length + gap.length) line) (out.length + gap.length)
          (.parts out (gap ++ wholeLine ended line ++ [ahead]) rest) =
        some (.parts (out ++ (packLine purge cont line ended after).1) (gap' ++ [ahead]) rest) := by
  obtain ⟨blanks, whole, some, start⟩ := lineCopy_start cont ended single proper (out.length + gap.length)
  have looked : ((LineScan.initial.after ended (out.length + gap.length) line).emit ||
      (cont && !(LineScan.initial.after ended (out.length + gap.length) line).nextcont)) =
        lineRead cont ended line := by
    rw [after_eq ended single]
    rfl
  rw [emitLine, looked]
  simp only [start]
  cases read : lineRead cont ended line with
  | false =>
    rw [packLine_unread purge after read]
    exact ⟨gap ++ wholeLine ended line, by simp, by simp⟩
  | true =>
    obtain ⟨c, copied, copy⟩ := List.exists_cons_of_ne_nil some
    rw [packLine_read purge after read copy, if_pos rfl]
    rw [copy] at whole
    have memory : gap ++ wholeLine ended line ++ [ahead] = gap ++ blanks ++ c :: (copied ++ [ahead]) := by
      rw [whole]
      simp
    have place : out.length + gap.length + blanks.length = out.length + (gap ++ blanks).length := by
      rw [List.length_append, Nat.add_assoc]
    have plain : (0 : Byte) ∉ copied ++ after := by
      intro zero
      apply clean
      rw [whole, List.append_assoc]
      exact List.mem_append_right blanks (List.mem_cons_of_mem c zero)
    obtain ⟨gap', size, run⟩ := emitText_spec purge c copied after out (gap ++ blanks) ahead plain next
    refine ⟨gap', ?_, ?_⟩
    · rw [size, whole, ← List.length_append, List.append_assoc]
    · rw [memory, place]
      exact run

theorem zero_end : [(0 : Byte)] ≠ [] := List.cons_ne_nil 0 []

theorem packLoop_scan (purge : Byte) (cont : Bool) {text : Bytes} (proper : text ≠ []) (clean : (0 : Byte) ∉ text)
    (out gap rest : Bytes) (fuel : Nat) :
    (Tape.parts out gap (text ++ rest)).next (packLoop purge (fuel + 1) cont) =
      (Tape.parts out gap (text ++ rest)).next (scanLine (fun scan c tape =>
        if c = 0 then
          (emitLine purge cont scan (out.length + gap.length) tape).bind fun tape =>
            packLoop purge fuel scan.nextcont c tape
        else tape.next fun c tape =>
          (emitLine purge cont scan (out.length + gap.length) tape).bind fun tape =>
            packLoop purge fuel scan.nextcont c tape) (fuel + 1) .initial) := by
  obtain ⟨c, text, rfl⟩ := List.exists_cons_of_ne_nil proper
  have real : c ≠ 0 := fun zero => clean (zero ▸ List.mem_cons_self)
  have read : (Tape.parts out (gap ++ [c]) (text ++ rest)).read - 1 = out.length + gap.length := by
    simp [Tape.parts, ← Nat.add_assoc]
  rw [List.cons_append, Tape.next_parts, Tape.next_parts, packLoop, if_neg real, read]

theorem packLoop_line (purge : Byte) (cont ended : Bool) {line : Bytes} (single : newline ∉ line)
    (proper : wholeLine ended line ≠ []) (out gap : Bytes) {after : Bytes}
    (clean : (0 : Byte) ∉ wholeLine ended line ++ after) (last : ended = false → after = []) (fuel : Nat)
    (room : line.length < fuel + 1) :
    ∃ gap', gap'.length + (packLine purge cont line ended after).1.length = gap.length + (wholeLine ended line).length ∧
      (Tape.parts out gap (wholeLine ended line ++ (after ++ [0]))).next (packLoop purge (fuel + 1) cont) =
        (Tape.parts (out ++ (packLine purge cont line ended after).1) gap' (after ++ [0])).next
          (packLoop purge fuel (packLine purge cont line ended after).2) := by
  obtain ⟨ahead, rest, next⟩ := List.exists_cons_of_ne_nil (List.append_ne_nil_of_right_ne_nil after zero_end)
  obtain ⟨gap', size, emits⟩ := emitLine_spec purge cont ended single proper out gap ahead clean next.symm
  refine ⟨gap', size, ?_⟩
  have nextcont : (LineScan.initial.after ended (out.length + gap.length) line).nextcont =
      (packLine purge cont line ended after).2 := by
    rw [after_eq ended single]
    rfl
  have inside : ∀ c ∈ line, c ≠ 0 ∧ c ≠ newline := by
    refine fun c member => ⟨fun zero => clean ?_, fun same => single (same ▸ member)⟩
    rw [← zero, wholeLine]
    cases ended <;> simp [member]
  rw [packLoop_scan purge cont proper (fun zero => clean (List.mem_append_left _ zero))]
  cases ended with
  | true =>
    have text : wholeLine true line ++ (after ++ [0]) = line ++ lineStop true :: (ahead :: rest) := by
      simp [wholeLine, lineStop, next]
    have moved : gap ++ line ++ [lineStop true] = gap ++ wholeLine true line := by simp [wholeLine, lineStop]
    rw [text, scanLine_spec _ true inside _ out gap _ _ room, if_neg (by decide), Tape.next_parts, moved, emits,
      Option.bind_some, nextcont, next, Tape.next_parts]
  | false =>
    obtain rfl := last rfl
    obtain ⟨rfl, rfl⟩ : (0 : Byte) = ahead ∧ [] = rest := by simpa using next
    have text : wholeLine false line ++ ([] ++ [0]) = line ++ lineStop false :: [] := rfl
    have same : gap ++ line ++ [lineStop false] = gap ++ wholeLine false line ++ [0] := rfl
    have stops : lineStop false = 0 := rfl
    rw [text, scanLine_spec _ false inside _ out gap _ _ room, if_pos stops, same, emits, Option.bind_some, nextcont,
      List.nil_append, Tape.next_parts]
    rfl

theorem packLines_line (purge : Byte) (cont : Bool) {line : Bytes} (single : newline ∉ line) (rest : Bytes) :
    packLines purge cont ((line ++ newline :: rest).splitOn newline) =
      (packLine purge cont line true rest).1 ++
        packLines purge (packLine purge cont line true rest).2 (rest.splitOn newline) := by
  rw [List.splitOn_append_cons_self_of_not_mem single]
  cases pieces : rest.splitOn newline with
  | nil => exact absurd pieces (List.splitOn_ne_nil newline rest)
  | cons next others =>
    have joined : [newline].intercalate (next :: others) = rest := by rw [← pieces, List.intercalate_splitOn]
    rw [packLines, joined]

theorem packLines_open (purge : Byte) (cont : Bool) {text : Bytes} (single : newline ∉ text) :
    packLines purge cont (text.splitOn newline) =
      if text = [] then [] else (packLine purge cont text false []).1 := by
  rw [List.splitOn_eq_singleton single, packLines]

theorem packLoop_spec (purge : Byte) {text : Bytes} (clean : (0 : Byte) ∉ text) (cont : Bool) (out gap : Bytes)
    (fuel : Nat) (room : text.length < fuel) :
    Leaves (out ++ packLines purge cont (text.splitOn newline))
      ((Tape.parts out gap (text ++ [0])).next (packLoop purge fuel cont)) := by
  have closes (out gap : Bytes) (fuel : Nat) (cont : Bool) :
      Leaves out ((Tape.parts out gap [0]).next (packLoop purge (fuel + 1) cont)) := by
    rw [Tape.next_parts, packLoop, if_pos rfl]
    cases gap with
    | nil => exact ⟨[], Tape.close_parts rfl 0⟩
    | cons old gap => exact ⟨_, Tape.close_parts (List.append_nil _) 0⟩
  induction text using lines_induction newline generalizing cont out gap fuel with
  | unfinished text single =>
    obtain ⟨fuel, rfl⟩ : ∃ fuel', fuel = fuel' + 1 := ⟨fuel - 1, by omega⟩
    rw [packLines_open purge cont single]
    by_cases empty : text = []
    · rw [if_pos empty, empty, List.append_nil]
      exact closes out gap fuel cont
    · obtain ⟨fuel, rfl⟩ : ∃ fuel', fuel = fuel' + 1 :=
        ⟨fuel - 1, by have := List.length_pos_of_ne_nil empty; omega⟩
      obtain ⟨gap', -, run⟩ := packLoop_line purge cont false single empty out gap
        (by rwa [List.append_nil]) (fun _ => rfl) (fuel + 1) room
      rw [if_neg empty]
      exact run ▸ closes _ gap' fuel _
  | line line rest single ih =>
    obtain ⟨fuel, rfl⟩ : ∃ fuel', fuel = fuel' + 1 := ⟨fuel - 1, by omega⟩
    rw [List.length_append, List.length_cons] at room
    have whole : wholeLine true line ++ rest = line ++ newline :: rest := by simp [wholeLine]
    have whole' : line ++ newline :: rest ++ [0] = wholeLine true line ++ (rest ++ [0]) := by
      rw [← whole, List.append_assoc]
    obtain ⟨gap', -, run⟩ := packLoop_line purge cont true single (by simp [wholeLine]) out gap
      (whole ▸ clean) nofun fuel (by omega)
    rw [packLines_line purge cont single, ← List.append_assoc, whole', run]
    exact ih (fun zero => clean (by simp [zero])) _ _ gap' fuel (by omega)

theorem packInPlace_eq {text : Bytes} (clean : (0 : Byte) ∉ text) (purge : Byte) :
    Leaves (pack text purge) (packInPlace text purge) := by
  have run := packLoop_spec purge clean false [] [] (text.length + 1) (Nat.lt_succ_self _)
  rw [List.nil_append] at run
  rw [packInPlace, Tape.start_eq, pack]
  exact run

theorem lineCopy_suffix (cont ended : Bool) (line : Bytes) : lineCopy cont ended line <:+ wholeLine ended line := by
  rw [lineCopy]
  split
  · exact List.dropWhile_suffix isblank
  · exact List.suffix_refl _

theorem packLine_cases (purge : Byte) (cont ended : Bool) (line after : Bytes) :
    (packLine purge cont line ended after).1 = [] ∨
      (packLine purge cont line ended after).1 = [newline] ∧ wholeLine ended line ≠ [] ∨
      (packLine purge cont line ended after).1 = lineCopy cont ended line := by
  rw [packLine_eq]
  dsimp only
  split_ifs with read purged replaced
  · refine Or.inr (Or.inl ⟨rfl, fun empty => ?_⟩)
    have none := List.suffix_nil.mp (empty ▸ lineCopy_suffix cont ended line)
    rw [none] at purged
    cases purged.2
  · exact Or.inl rfl
  · exact Or.inr (Or.inr rfl)
  · exact Or.inl rfl

theorem packLine_length (purge : Byte) (cont ended : Bool) (line after : Bytes) :
    (packLine purge cont line ended after).1.length ≤ (wholeLine ended line).length := by
  rcases packLine_cases purge cont ended line after with none | ⟨emptied, some⟩ | copied
  · rw [none]
    exact Nat.zero_le _
  · rw [emptied]
    exact List.length_pos_of_ne_nil some
  · rw [copied]
    exact (lineCopy_suffix cont ended line).length_le

theorem packLine_clean (purge : Byte) (cont ended : Bool) {line : Bytes} (clean : (0 : Byte) ∉ line) (after : Bytes) :
    (0 : Byte) ∉ (packLine purge cont line ended after).1 := by
  have whole : (0 : Byte) ∉ wholeLine ended line := by
    cases ended with
    | true => simpa [wholeLine, newline] using clean
    | false => exact clean
  rcases packLine_cases purge cont ended line after with none | ⟨emptied, -⟩ | copied
  · rw [none]
    exact List.not_mem_nil
  · rw [emptied]
    decide
  · rw [copied]
    exact fun zero => whole ((lineCopy_suffix cont ended line).subset zero)

theorem packLines_fit (purge : Byte) (cont : Bool) {text : Bytes} (clean : (0 : Byte) ∉ text) :
    (packLines purge cont (text.splitOn newline)).length ≤ text.length ∧
      (0 : Byte) ∉ packLines purge cont (text.splitOn newline) := by
  induction text using lines_induction newline generalizing cont with
  | unfinished text single =>
    rw [packLines_open purge cont single]
    split
    · exact ⟨Nat.zero_le _, List.not_mem_nil⟩
    · exact ⟨packLine_length purge cont false text [], packLine_clean purge cont false clean []⟩
  | line line rest single ih =>
    have first := packLine_length purge cont true line rest
    obtain ⟨others, clean'⟩ := ih (packLine purge cont line true rest).2 fun zero => clean (by simp [zero])
    rw [packLines_line purge cont single, List.length_append, List.length_append, List.length_cons, List.mem_append]
    rw [wholeLine, if_pos rfl, List.length_append, List.length_singleton] at first
    refine ⟨by omega, fun zero => zero.elim ?_ clean'⟩
    exact packLine_clean purge cont true (fun zero => clean (List.mem_append_left _ zero)) rest

end AppManager.Units
