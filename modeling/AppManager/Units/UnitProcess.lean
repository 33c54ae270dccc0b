import AppManager.Lib.Lines
import AppManager.Units.UnitDesc

/-! The units of an instance of the template of units: the text is cut at its tags, and
each piece is described by its directives and then packed. -/

namespace AppManager.Units
open AppManager.Lib AppManager.Lib.Libc

def newline : Byte := 10
def backslash : Byte := 92
def percent : Byte := 37

def isblank (byte : Byte) : Bool := byte == 32 || byte == 9

/-- The text after the pattern, when it matches. In a pattern, a space stands for some
blanks and a newline for blanks up to the end of the line. -/
def matchesPattern : Bytes → Bytes → Option Bytes
  | [], text => some text
  | p :: pattern, text =>
    if p = newline then
      match text.dropWhile isblank with
      | [] => matchesPattern pattern []
      | t :: rest => if t = newline then matchesPattern pattern rest else none
    else match text with
      | [] => none
      | t :: rest =>
        if p = 32 then
          if isblank t then matchesPattern pattern (rest.dropWhile isblank) else none
        else if t = p then matchesPattern pattern rest else none

theorem matchesPattern_cons (p : Byte) (pattern text : Bytes) :
    matchesPattern (p :: pattern) text =
      if p = newline then
        match text.dropWhile isblank with
        | [] => matchesPattern pattern []
        | t :: rest => if t = newline then matchesPattern pattern rest else none
      else match text with
        | [] => none
        | t :: rest =>
          if p = 32 then
            if isblank t then matchesPattern pattern (rest.dropWhile isblank) else none
          else if t = p then matchesPattern pattern rest else none := by
  rw [matchesPattern.eq_def]

/-- `offset` from the lines after the current one. -/
def offsetBelow (pattern : Bytes) : Bytes → Option (Bytes × Bytes)
  | [] => none
  | byte :: rest =>
    if byte = newline then
      match matchesPattern pattern rest with
      | some args => some (rest, args)
      | none => offsetBelow pattern rest
    else offsetBelow pattern rest

/-- The first line that matches a pattern, and what follows the pattern there. -/
def offset (pattern text : Bytes) : Option (Bytes × Bytes) :=
  match matchesPattern pattern text with
  | some args => some (text, args)
  | none => offsetBelow pattern text

/-- One line of `pack`: what is written of it, and whether the next line continues it.
The last line can miss its newline. The text after it is read when the newline is purged. -/
def packLine (purge : Byte) (cont : Bool) (line : Bytes) (ended : Bool) (after : Bytes) : Bytes × Bool :=
  let nextcont := ended && line.getLast? == some backslash
  let emit := (if nextcont then line.dropLast else line).any (fun byte => !isblank byte)
  let whole := if ended then line ++ [newline] else line
  let start := if !cont && emit then whole.dropWhile isblank else whole
  (if emit || (cont && !nextcont) then
      if purge ≠ 0 ∧ start.head? = some purge then
        if (start.tail ++ after).take 3 = ascii "nl\n" then [newline] else []
      else start
    else [], nextcont)

def packLines (purge : Byte) (cont : Bool) : List Bytes → Bytes
  | [] => []
  | [last] => if last = [] then [] else (packLine purge cont last false []).1
  | line :: next :: rest =>
    let packed := packLine purge cont line true ([newline].intercalate (next :: rest))
    packed.1 ++ packLines purge packed.2 (next :: rest)

/-- Removes empty lines, and lines that start with the purged byte. -/
def pack (text : Bytes) (purge : Byte) : Bytes := packLines purge false (text.splitOn newline)

/-- `strndup(text, strcspn(text, " \t\n"))`. -/
def word (text : Bytes) : Bytes := text.takeWhile (fun byte => !(isblank byte || byte == newline))

def processOneUnit (spec : Bytes) : UnitDesc :=
  let isuser := (offset (ascii "%systemd-unit user\n") spec).isSome
  let issystem := (offset (ascii "%systemd-unit system\n") spec).isSome
  let nsoc := (offset (ascii "%systemd-unit socket ") spec).map Prod.snd
  let nsrv := (offset (ascii "%systemd-unit service ") spec).map Prod.snd
  let wanted := (offset (ascii "%systemd-unit wanted-by ") spec).map Prod.snd
  { scope := if isuser.xor issystem then (if isuser then .user else .system) else .unknown
    type := if nsoc.isSome.xor nsrv.isSome then (if nsoc.isSome then .socket else .service) else .unknown
    name := if nsoc.isSome.xor nsrv.isSome then (nsoc <|> nsrv).map word else none
    content := pack spec percent
    wantedBy := wanted.map word }

/-- A unit that is found between its tags, or the error met there, and the text where
the next one is searched. Positions in the text are told by what is after them. -/
def splitStep (corpus : Bytes) : Option Bytes × Except Failure (Option UnitDesc) :=
  let einval : Failure := ⟨-EINVAL, EINVAL_failure⟩
  match offset (ascii "%begin ") corpus, offset (ascii "%end ") corpus with
  | none, none => (none, .ok none)
  | none, some _ => (none, .error einval)
  | some _, none => (none, .error einval)
  | some (befbeg, beg), some (last, aftend) =>
    if befbeg.length < last.length then (none, .error einval)
    else if (offset (ascii "%begin ") beg).any (fun again => decide (last.length < again.1.length)) then
      (none, .error einval)
    else match matchesPattern (ascii "systemd-unit\n") (beg.take (beg.length - last.length)) with
      | none => (some aftend, .error einval)
      | some spec =>
        match matchesPattern (ascii "systemd-unit\n") aftend with
        | none => (some aftend, .error einval)
        | some rest => (some rest, .ok (some (processOneUnit spec)))

theorem matchesPattern_suffix (pattern text after : Bytes) (found : matchesPattern pattern text = some after) :
    after <:+ text := by
  induction pattern generalizing text with
  | nil =>
    rw [matchesPattern, Option.some.injEq] at found
    subst found
    exact List.suffix_refl text
  | cons p pattern ih =>
    rw [matchesPattern_cons] at found
    split at found
    · have shorter := List.dropWhile_suffix isblank (l := text)
      split at found
      · exact (ih [] found).trans (List.nil_suffix)
      · next t rest blanks =>
        rw [blanks] at shorter
        split at found
        · exact (ih rest found).trans ((List.suffix_cons t rest).trans shorter)
        · cases found
    · split at found
      · cases found
      · next t rest =>
        split at found
        · split at found
          · exact (ih _ found).trans ((List.dropWhile_suffix isblank).trans (List.suffix_cons t rest))
          · cases found
        · split at found
          · exact (ih rest found).trans (List.suffix_cons t rest)
          · cases found

theorem matchesPattern_shorter (p : Byte) (pattern text after : Bytes) (visible : p ≠ newline)
    (found : matchesPattern (p :: pattern) text = some after) : after.length < text.length := by
  rw [matchesPattern_cons, if_neg visible] at found
  split at found
  · cases found
  · next t rest =>
    rw [List.length_cons]
    split at found
    · split at found
      · have shorter := (List.dropWhile_suffix isblank (l := rest)).length_le
        have inner := (matchesPattern_suffix _ _ _ found).length_le
        omega
      · cases found
    · split at found
      · have inner := (matchesPattern_suffix _ _ _ found).length_le
        omega
      · cases found

theorem offsetBelow_found (pattern text : Bytes) {line args : Bytes}
    (found : offsetBelow pattern text = some (line, args)) :
    line <:+ text ∧ matchesPattern pattern line = some args := by
  induction text with
  | nil => cases found
  | cons byte rest ih =>
    unfold offsetBelow at found
    split at found
    · split at found
      · next args' here =>
        rw [Option.some.injEq, Prod.mk.injEq] at found
        rw [← found.1, ← found.2]
        exact ⟨List.suffix_cons byte rest, here⟩
      · obtain ⟨inside, here⟩ := ih found
        exact ⟨inside.trans (List.suffix_cons byte rest), here⟩
    · obtain ⟨inside, here⟩ := ih found
      exact ⟨inside.trans (List.suffix_cons byte rest), here⟩

theorem offset_found (pattern text : Bytes) {line args : Bytes} (found : offset pattern text = some (line, args)) :
    line <:+ text ∧ matchesPattern pattern line = some args := by
  unfold offset at found
  split at found
  · next args' here =>
    rw [Option.some.injEq, Prod.mk.injEq] at found
    rw [← found.1, ← found.2]
    exact ⟨List.suffix_refl text, here⟩
  · exact offsetBelow_found pattern text found

theorem splitStep_shorter (corpus next : Bytes) (answer : Except Failure (Option UnitDesc))
    (step : splitStep corpus = (some next, answer)) : next.length < corpus.length := by
  unfold splitStep at step
  simp only at step
  split at step
  · cases step
  · cases step
  · cases step
  · next befbeg beg last aftend opened closed =>
    obtain ⟨inside, here⟩ := offset_found _ _ closed
    have less : aftend.length < last.length := matchesPattern_shorter _ _ _ _ (by decide) here
    have whole := inside.length_le
    split at step
    · cases step
    · split at step
      · cases step
      · split at step
        · cases step
          omega
        · split at step
          · cases step
            omega
          · next rest named =>
            cases step
            have rest' := (matchesPattern_suffix _ _ _ named).length_le
            omega

def addUnit (units : List UnitDesc) : Except Failure (Option UnitDesc) → List UnitDesc
  | .ok (some unit) => units ++ [unit]
  | _ => units

def firstError (rc : Int) : Except Failure (Option UnitDesc) → Int
  | .error failure => if rc = 0 then failure.val else rc
  | .ok _ => rc

/-- The loop of `corpus_split`, with the units found so far and the first error. -/
def splitFrom (corpus : Bytes) (units : List UnitDesc) (rc : Int) : Int × List UnitDesc :=
  match _more : (splitStep corpus).1 with
  | some next => splitFrom next (addUnit units (splitStep corpus).2) (firstError rc (splitStep corpus).2)
  | none =>
    if 0 ≤ firstError rc (splitStep corpus).2 then
      ((addUnit units (splitStep corpus).2).length, addUnit units (splitStep corpus).2)
    else (firstError rc (splitStep corpus).2, [])
termination_by corpus.length
decreasing_by exact splitStep_shorter corpus next (splitStep corpus).2 (Prod.ext _more rfl)

def corpusSplit (corpus : Bytes) : Int × List UnitDesc := splitFrom corpus [] 0

/-- The units are processed when there are some and there is a process. -/
def internalForSplit {State : Type} (process : Option (List UnitDesc → State → Int × State)) (corpus : Bytes)
    (state : State) : Int × State :=
  let split := corpusSplit corpus
  match process with
  | some process => if 0 < split.1 then process split.2 state else (split.1, state)
  | none => (split.1, state)

end AppManager.Units
