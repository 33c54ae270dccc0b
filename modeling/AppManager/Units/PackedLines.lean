import AppManager.Units.DroppedLines
import AppManager.Units.PackInPlace

/-! The logical lines of a packed text. The lines of a text are purged one by one, by their
first byte when they continue another one, and the logical lines are purged so where each of
their lines is purged as the first one is. -/

namespace AppManager.Units
open AppManager.Lib

def leadOf (line : Bytes) : Option Byte := line.find? fun byte => !isblank byte

def lineWords (line : Bytes) : List Bytes := (line.splitOnP isblank).filter (· ≠ [])

def unpurgedLines (text : Bytes) (purge : Byte) : List Bytes :=
  (nonBlankLines text).filter fun line => leadOf line ≠ some purge

/-- Something holds of each line: its logical line so far, when it goes on from the lines before, is told
by its first byte that is not a blank. -/
def EachLine (holds : Option (Option Byte) → Bool → Bytes → Bytes → Prop) : Option (Option Byte) → List Bytes → Prop
  | _, [] => True
  | pending, line :: rest =>
    holds pending (!rest.isEmpty) line ([newline].intercalate rest) ∧
      EachLine holds
        (if rest ≠ [] ∧ Continued line then some ((pending.getD none).or (leadOf line.dropLast)) else none) rest

instance decidableEachLine {holds : Option (Option Byte) → Bool → Bytes → Bytes → Prop}
    [each : ∀ pending ended line after, Decidable (holds pending ended line after)] :
    (pending : Option (Option Byte)) → (lines : List Bytes) → Decidable (EachLine holds pending lines)
  | _, [] => isTrue trivial
  | pending, line :: rest =>
    letI : Decidable (EachLine holds _ rest) := decidableEachLine
      (if rest ≠ [] ∧ Continued line then some ((pending.getD none).or (leadOf line.dropLast)) else none) rest
    inferInstanceAs (Decidable (_ ∧ _))

/-- A line that goes on from others is purged as its logical line is: it starts with the purged byte exactly
when the logical line does. A blank line that ends one is not purged, unless it is put back. -/
def LineSafe (purge : Byte) (pending : Option (Option Byte)) (ended : Bool) (line after : Bytes) : Prop :=
  ∀ first ∈ pending,
    if visible (lineBody ended line) then
      line.head? = some purge ↔ first.or (leadOf (lineBody ended line)) = some purge
    else ended = true → ¬Continued line → ∀ lead ∈ first, lead ≠ purge →
      (line ++ [newline]).head? = some purge → line = [] ∧ after.take 3 = ascii "nl\n"

instance (purge : Byte) (pending : Option (Option Byte)) (ended : Bool) (line after : Bytes) :
    Decidable (LineSafe purge pending ended line after) := by
  unfold LineSafe
  letI (first : Option Byte) : Decidable (∀ lead ∈ first, lead ≠ purge →
      (line ++ [newline]).head? = some purge → line = [] ∧ after.take 3 = ascii "nl\n") :=
    Option.decidableForallMem first
  exact Option.decidableForallMem pending

def PackSafe (purge : Byte) (text : Bytes) : Prop := EachLine (LineSafe purge) none (text.splitOn newline)

instance (purge : Byte) (text : Bytes) : Decidable (PackSafe purge text) :=
  inferInstanceAs (Decidable (EachLine _ _ _))

/-- What is written of a line is blank when its logical line is purged. Else the line is copied, up to the
blanks at its begin, when it is not blank or when it ends the logical line. -/
def LineKept (purge : Byte) (pending : Option (Option Byte)) (ended : Bool) (line after : Bytes) : Prop :=
  ∀ lead ∈ (pending.getD none).or (leadOf (lineBody ended line)),
    if lead = purge then
      ∀ byte ∈ (packLine purge pending.isSome line ended after).1, byte = newline ∨ isblank byte = true
    else visible (lineBody ended line) = true ∨ ¬Continued line →
      (packLine purge pending.isSome line ended after).1.dropWhile isblank = (wholeLine ended line).dropWhile isblank

/-- Each line of a text is written or removed with its logical line. -/
def LinesKept (purge : Byte) (text : Bytes) : Prop := EachLine (LineKept purge) none (text.splitOn newline)

/-- A text is empty or ends with a blank: what is put after it starts a word. -/
def Spaced (text : Bytes) : Prop := ∀ last ∈ text.getLast?, isblank last = true

theorem spaced_nil : Spaced [] := nofun

theorem lineWords_blank (text : Bytes) {blank : Byte} (isBlank : isblank blank = true) (rest : Bytes) :
    lineWords (text ++ blank :: rest) = lineWords text ++ lineWords rest := by
  rw [lineWords, List.splitOnP_append_cons text rest isBlank, List.filter_append]
  rfl

theorem lineWords_nil : lineWords [] = [] := by decide

theorem lineWords_append {text : Bytes} (apart : Spaced text) (rest : Bytes) :
    lineWords (text ++ rest) = lineWords text ++ lineWords rest := by
  rcases List.eq_nil_or_concat' text with none | ⟨before, blank, whole⟩
  · rw [none, lineWords_nil]
    rfl
  · have isBlank : isblank blank = true := apart blank (by rw [whole, List.getLast?_concat]; rfl)
    rw [whole, List.append_assoc, List.singleton_append, lineWords_blank before isBlank,
      lineWords_blank before isBlank [], lineWords_nil, List.append_nil]

theorem lineWords_dropWhile (line : Bytes) : lineWords (line.dropWhile isblank) = lineWords line := by
  induction line with
  | nil => rfl
  | cons c rest ih =>
    by_cases blank : isblank c = true
    · have split := lineWords_blank [] blank rest
      rw [List.nil_append, lineWords_nil, List.nil_append] at split
      rw [List.dropWhile_cons_of_pos blank, ih, split]
    · rw [List.dropWhile_cons_of_neg blank]

theorem leadOf_append (first rest : Bytes) : leadOf (first ++ rest) = (leadOf first).or (leadOf rest) := by
  rw [leadOf, leadOf, leadOf, List.find?_append]

theorem leadOf_blank (line : Bytes) : leadOf line = none ↔ visible line = false := by
  rw [leadOf, List.find?_eq_none, ← Bool.not_eq_true, visible, List.any_eq_true]
  simp

theorem lineWords_eq_nil (line : Bytes) : lineWords line = [] ↔ visible line = false := by
  induction line with
  | nil => decide
  | cons c rest ih =>
    by_cases blank : isblank c = true
    · have split := lineWords_blank [] blank rest
      rw [List.nil_append, lineWords_nil, List.nil_append] at split
      rw [split, ih]
      simp [visible, blank]
    · have text : visible (c :: rest) = true := by simp [visible, blank]
      rw [text]
      refine iff_of_false ?_ (by decide)
      rw [lineWords, List.splitOnP_cons_eq_if_modifyHead, if_neg blank]
      cases words : rest.splitOnP isblank with
      | nil => exact absurd words (List.splitOnP_ne_nil isblank rest)
      | cons word words => simp

theorem blankLine_eq (line : Bytes) : blankLine line = !visible line := by
  rw [blankLine, visible, List.not_any_eq_all_not]
  simp

/-- What is left of a logical line when it is packed. -/
def Follows (purge : Byte) (line out : Bytes) : Prop :=
  if leadOf line = some purge then lineWords out = [] else lineWords out = lineWords line

def wordsOf (lines : List Bytes) : List (List Bytes) := (nonBlank lines).map lineWords

def unpurged (purge : Byte) (lines : List Bytes) : List Bytes :=
  (nonBlank lines).filter fun line => leadOf line ≠ some purge

theorem wordsOf_cons (line : Bytes) (lines : List Bytes) :
    wordsOf (line :: lines) = if lineWords line = [] then wordsOf lines else lineWords line :: wordsOf lines := by
  rw [wordsOf, wordsOf, nonBlank, nonBlank, List.filter_cons, blankLine_eq, Bool.not_not]
  cases text : visible line with
  | false => rw [if_neg Bool.false_ne_true, if_pos ((lineWords_eq_nil line).mpr text)]
  | true =>
    have words : lineWords line ≠ [] := fun none => absurd ((lineWords_eq_nil line).mp none) (by rw [text]; decide)
    rw [if_pos rfl, if_neg words, List.map_cons]

theorem follows_cons {purge : Byte} {line out : Bytes} (follows : Follows purge line out) {lines outs : List Bytes}
    (rest : wordsOf outs = (unpurged purge lines).map lineWords) :
    wordsOf (out :: outs) = (unpurged purge (line :: lines)).map lineWords := by
  rw [wordsOf_cons, unpurged, nonBlank, List.filter_cons, blankLine_eq, Bool.not_not]
  rw [Follows] at follows
  cases text : visible line with
  | false =>
    have words : lineWords out = [] := by
      split at follows
      · exact follows
      · rw [follows, (lineWords_eq_nil line).mpr text]
    rw [if_neg Bool.false_ne_true, if_pos words]
    exact rest
  | true =>
    rw [if_pos rfl, List.filter_cons]
    by_cases purged : leadOf line = some purge
    · rw [if_pos purged] at follows
      rw [if_pos follows, if_neg (by simpa using purged)]
      exact rest
    · have words : lineWords line ≠ [] := fun none => absurd ((lineWords_eq_nil line).mp none) (by rw [text]; decide)
      rw [if_neg purged] at follows
      rw [follows, if_neg words, if_pos (by simpa using purged), List.map_cons, rest]
      rfl

theorem wordsOf_none {out : Bytes} (none : lineWords out = []) (lines : List Bytes) :
    wordsOf (out :: lines) = wordsOf lines := by
  rw [wordsOf_cons, if_pos none]

theorem wordsOf_joinTo {out : Bytes} (spaced : Spaced out) (none : lineWords out = []) (lines : List Bytes) :
    wordsOf (joinTo out lines) = wordsOf lines := by
  cases lines with
  | nil => rfl
  | cons line rest => rw [joinTo, wordsOf_cons, wordsOf_cons, lineWords_append spaced, none, List.nil_append]

def copyBody (cont ended : Bool) (line : Bytes) : Bytes :=
  if !cont && visible (lineBody ended line) then (lineBody ended line).dropWhile isblank else lineBody ended line

theorem lineCopy_eq (cont ended : Bool) (line : Bytes) :
    lineCopy cont ended line = copyBody cont ended line ++ lineEnd ended line := by
  rw [lineCopy, copyBody]
  split
  · next both =>
    rw [Bool.and_eq_true] at both
    rw [wholeLine_eq, dropWhile_visible both.2]
  · exact wholeLine_eq ended line

theorem lineWords_copyBody (cont ended : Bool) (line : Bytes) :
    lineWords (copyBody cont ended line) = lineWords (lineBody ended line) := by
  rw [copyBody]
  split
  · exact lineWords_dropWhile _
  · rfl

theorem head_dropWhile (line : Bytes) : (line.dropWhile isblank).head? = leadOf line :=
  (List.find?_not_eq_head?_dropWhile isblank line).symm

theorem lineCopy_head {ended : Bool} {line : Bytes} (text : visible (lineBody ended line) = true) :
    (lineCopy false ended line).head? = leadOf (lineBody ended line) ∧
      (lineCopy true ended line).head? = line.head? := by
  constructor
  · have both : (!false && visible (lineBody ended line)) = true := by rw [text]; rfl
    rw [lineCopy, if_pos both, wholeLine_eq, dropWhile_visible text, ← head_dropWhile, List.head?_append]
    cases head : ((lineBody ended line).dropWhile isblank).head? with
    | some c => rfl
    | none =>
      rw [head_dropWhile, leadOf_blank, text] at head
      cases head
  · rw [lineCopy, if_neg (by simp), wholeLine]
    cases line with
    | nil => exact absurd text (by cases ended <;> decide)
    | cons c rest => cases ended <;> rfl

/-- The text so far of the logical line that goes on, and what is left of it. -/
structure Carried (purge : Byte) (cont : Bool) (line out : Bytes) : Prop where
  follows : Follows purge line out
  spaced : Spaced line
  outSpaced : Spaced out
  start : cont = false → line = []

namespace Carried

variable {purge : Byte} {cont : Bool} {line out : Bytes}

theorem initial {out : Bytes} (outSpaced : Spaced out) (none : lineWords out = []) : Carried purge false [] out :=
  ⟨by rw [Follows, if_neg nofun, none, lineWords_nil], nofun, outSpaced, fun _ => rfl⟩

theorem words (pending : Carried purge cont line out) (lead : leadOf line = none ∨ leadOf line = some purge) :
    lineWords out = [] := by
  have follows := pending.follows
  rw [Follows] at follows
  rcases lead with none | purged
  · rw [none, if_neg nofun] at follows
    rw [follows, lineWords_eq_nil, ← leadOf_blank, none]
  · rwa [if_pos purged] at follows

/-- A part without words is added to the line. -/
theorem blank (pending : Carried purge cont line out) {part part' : Bytes} (text : visible part = false)
    (text' : visible part' = false) : Follows purge (line ++ part) (out ++ part') := by
  have follows := pending.follows
  rw [Follows] at follows ⊢
  rw [leadOf_append, (leadOf_blank part).mpr text, Option.or_none, lineWords_append pending.spaced,
    lineWords_append pending.outSpaced, (lineWords_eq_nil part).mpr text, (lineWords_eq_nil part').mpr text',
    List.append_nil, List.append_nil]
  exact follows

theorem purged (pending : Carried purge cont line out) {part : Bytes}
    (lead : (leadOf line).or (leadOf part) = some purge) : Follows purge (line ++ part) out ∧ lineWords out = [] := by
  have none : lineWords out = [] := by
    apply pending.words
    cases head : leadOf line with
    | none => exact Or.inl rfl
    | some c => rw [head] at lead; exact Or.inr lead
  rw [Follows, leadOf_append, if_pos lead]
  exact ⟨none, none⟩

/-- A part of a line that is not purged is copied. -/
theorem copied (pending : Carried purge cont line out) {part part' : Bytes}
    (lead : (leadOf line).or (leadOf part) ≠ some purge) (same : lineWords part' = lineWords part) :
    Follows purge (line ++ part) (out ++ part') := by
  have follows := pending.follows
  have other : leadOf line ≠ some purge := fun head => lead (by rw [head]; rfl)
  rw [Follows, if_neg other] at follows
  rw [Follows, leadOf_append, if_neg lead, lineWords_append pending.spaced, lineWords_append pending.outSpaced, same,
    follows]

end Carried

/-- What `pack` does of a line, to the text so far of its logical line and to what is left of it. -/
inductive Packed (purge : Byte) (cont ended : Bool) (first out line written : Bytes) : Prop
  | removed (none : written = []) (follows : Follows purge (first ++ lineBody ended line) out)
      (closed : ended = true → ¬Continued line → lineWords out = [])
  | emptied (newline : written = [newline]) (none : lineWords out = [])
      (follows : Follows purge (first ++ lineBody ended line) [])
  | copied (same : written = copyBody cont ended line ++ lineEnd ended line)
      (follows : Follows purge (first ++ lineBody ended line) (out ++ copyBody cont ended line))

theorem packed_purged {purge : Byte} {cont ended : Bool} {first out line written : Bytes}
    (follows : Follows purge (first ++ lineBody ended line) out) (none : lineWords out = [])
    (short : written = [] ∨ written = [newline]) : Packed purge cont ended first out line written := by
  rcases short with empty | emptied
  · exact .removed empty follows fun _ _ => none
  · refine .emptied emptied none ?_
    rw [Follows] at follows ⊢
    rw [lineWords_nil]
    rwa [none] at follows

theorem goesOn_iff (ended : Bool) (line : Bytes) :
    (ended && line.getLast? == some backslash) = true ↔ ended = true ∧ Continued line := by
  rw [Bool.and_eq_true, beq_iff_eq, Continued]

theorem lineBody_ended {ended : Bool} {line : Bytes} (ends : ¬(ended = true ∧ Continued line)) :
    lineBody ended line = line := by
  rw [lineBody, if_neg (mt (goesOn_iff ended line).mp ends)]

theorem purged_iff {purge : Byte} {cont ended : Bool} {line : Bytes} (clean : (0 : Byte) ∉ line) :
    (purge ≠ 0 ∧ (lineCopy cont ended line).head? = some purge) ↔ (lineCopy cont ended line).head? = some purge := by
  refine and_iff_right_of_imp fun head zero => ?_
  have member := (lineCopy_suffix cont ended line).subset (List.mem_of_mem_head? head)
  rw [zero, wholeLine] at member
  cases ended with
  | true => exact clean (by simpa [newline] using member)
  | false => exact clean member

theorem putBack_iff {ended : Bool} {line after : Bytes} (single : newline ∉ line) (last : ended = false → after = [])
    (blank : visible line = false) :
    ((wholeLine ended line).tail ++ after).take 3 = ascii "nl\n" ↔
      ended = true ∧ line = [] ∧ after.take 3 = ascii "nl\n" := by
  have other (c : Byte) (rest : Bytes) (first : c = newline ∨ isblank c = true) :
      (c :: rest).take 3 ≠ ascii "nl\n" := by
    intro same
    have head : c = 110 := (List.cons.inj same).1
    rw [head] at first
    revert first
    decide
  have blanks : ∀ c ∈ line, isblank c = true := by
    intro c member
    by_contra text
    exact absurd (visible_iff.mpr ⟨c, member, text⟩) (by rw [blank]; decide)
  cases ended with
  | true =>
    cases line with
    | nil => simp [wholeLine]
    | cons c rest =>
      refine iff_of_false ?_ fun all => List.cons_ne_nil _ _ all.2.1
      cases rest with
      | nil => exact other newline after (Or.inl rfl)
      | cons c' rest => exact other c' _ (Or.inr (blanks c' (by simp)))
  | false =>
    rw [last rfl]
    refine iff_of_false ?_ fun all => Bool.false_ne_true all.1
    rw [List.append_nil, wholeLine, if_neg Bool.false_ne_true]
    cases line with
    | nil => decide
    | cons c rest =>
      cases rest with
      | nil => exact List.ne_nil_of_length_pos (by decide : 0 < (ascii "nl\n").length) |>.symm
      | cons c' rest => exact other c' rest (Or.inr (blanks c' (by simp)))

theorem packLine_purged {purge : Byte} {cont ended : Bool} {line : Bytes} (clean : (0 : Byte) ∉ line) (after : Bytes)
    (read : lineRead cont ended line = true) (head : (lineCopy cont ended line).head? = some purge) :
    (packLine purge cont line ended after).1 =
      if ((lineCopy cont ended line).tail ++ after).take 3 = ascii "nl\n" then [newline] else [] := by
  rw [packLine_eq]
  dsimp only
  rw [if_pos read, if_pos ((purged_iff clean).mpr head)]

theorem packLine_copied {purge : Byte} {cont ended : Bool} {line : Bytes} (after : Bytes)
    (read : lineRead cont ended line = true) (head : (lineCopy cont ended line).head? ≠ some purge) :
    (packLine purge cont line ended after).1 = lineCopy cont ended line := by
  rw [packLine_eq]
  dsimp only
  rw [if_pos read, if_neg fun both => head both.2]

theorem lineRead_visible (cont : Bool) {ended : Bool} {line : Bytes} (text : visible (lineBody ended line) = true) :
    lineRead cont ended line = true := by
  rw [lineRead, text, Bool.true_or]

theorem packLine_visible {purge : Byte} {cont ended : Bool} {first out line : Bytes} (clean : (0 : Byte) ∉ line)
    (after : Bytes) (pending : Carried purge cont first out) (text : visible (lineBody ended line) = true)
    (safe : LineSafe purge (if cont then some (leadOf first) else none) ended line after) :
    Packed purge cont ended first out line (packLine purge cont line ended after).1 := by
  have read := lineRead_visible cont text
  have lead : (lineCopy cont ended line).head? = some purge ↔
      (leadOf first).or (leadOf (lineBody ended line)) = some purge := by
    cases cont with
    | false => rw [(lineCopy_head text).1, pending.start rfl]; rfl
    | true =>
      have safe := safe (leadOf first) rfl
      rw [if_pos text] at safe
      rw [(lineCopy_head text).2, safe]
  by_cases head : (lineCopy cont ended line).head? = some purge
  · obtain ⟨follows, none⟩ := pending.purged (lead.mp head)
    refine packed_purged follows none ?_
    rw [packLine_purged clean after read head]
    split
    · exact Or.inr rfl
    · exact Or.inl rfl
  · refine .copied ?_ (pending.copied (mt lead.mpr head) (lineWords_copyBody cont ended line))
    rw [packLine_copied after read head, lineCopy_eq]

theorem packLine_blank {purge : Byte} {cont ended : Bool} {first out line after : Bytes} (clean : (0 : Byte) ∉ line)
    (single : newline ∉ line) (last : ended = false → after = []) (pending : Carried purge cont first out)
    (text : visible (lineBody ended line) = false)
    (safe : LineSafe purge (if cont then some (leadOf first) else none) ended line after) :
    Packed purge cont ended first out line (packLine purge cont line ended after).1 := by
  have kept : Follows purge (first ++ lineBody ended line) out := by
    have blank := pending.blank text (rfl : visible [] = false)
    rwa [List.append_nil] at blank
  cases read : lineRead cont ended line with
  | false =>
    refine .removed (packLine_unread purge after read) kept fun proper stops => ?_
    have begins : cont = false := by
      have ends : (ended && line.getLast? == some backslash) = false := by
        rw [← Bool.not_eq_true, goesOn_iff]
        exact fun both => stops both.2
      rw [lineRead, text, ends] at read
      simpa using read
    exact pending.words (by rw [pending.start begins]; exact Or.inl rfl)
  | true =>
    obtain ⟨goesOn, ends⟩ : cont = true ∧ ¬(ended = true ∧ Continued line) := by
      rwa [lineRead, text, Bool.false_or, Bool.and_eq_true, Bool.not_eq_true', ← Bool.not_eq_true, goesOn_iff] at read
    subst goesOn
    by_cases head : (lineCopy true ended line).head? = some purge
    · have copy : lineCopy true ended line = wholeLine ended line := rfl
      rw [packLine_purged clean after read head, copy]
      by_cases lead : leadOf first = none ∨ leadOf first = some purge
      · refine packed_purged kept (pending.words lead) ?_
        split
        · exact Or.inr rfl
        · exact Or.inl rfl
      · rw [lineBody_ended ends] at text
        have putBack := putBack_iff single last text
        by_cases put : ((wholeLine ended line).tail ++ after).take 3 = ascii "nl\n"
        · obtain ⟨rfl, rfl, -⟩ := putBack.mp put
          refine .copied ?_ (pending.blank rfl rfl)
          rw [if_pos put]
          rfl
        · rw [if_neg put]
          refine .removed rfl kept fun proper stops => ?_
          have safe := safe (leadOf first) rfl
          rw [lineBody_ended ends, text, if_neg Bool.false_ne_true] at safe
          cases leads : leadOf first with
          | none => exact absurd (Or.inl leads) lead
          | some c =>
            have other : c ≠ purge := fun same => lead (Or.inr (by rw [leads, same]))
            rw [copy, wholeLine, proper, if_pos rfl] at head
            obtain ⟨empty, next⟩ := safe proper stops c leads other head
            exact absurd (putBack.mpr ⟨proper, empty, next⟩) put
    · refine .copied ?_ (pending.blank text text)
      rw [packLine_copied after read head, lineCopy_eq]

theorem packLine_packed {purge : Byte} {cont ended : Bool} {first out line after : Bytes} (clean : (0 : Byte) ∉ line)
    (single : newline ∉ line) (last : ended = false → after = []) (pending : Carried purge cont first out)
    (safe : LineSafe purge (if cont then some (leadOf first) else none) ended line after) :
    Packed purge cont ended first out line (packLine purge cont line ended after).1 := by
  cases text : visible (lineBody ended line) with
  | false => exact packLine_blank clean single last pending text safe
  | true => exact packLine_visible clean after pending text safe

theorem eachLine_line (holds : Option (Option Byte) → Bool → Bytes → Bytes → Prop) (pending : Option (Option Byte))
    {line : Bytes} (single : newline ∉ line) (rest : Bytes) :
    EachLine holds pending ((line ++ newline :: rest).splitOn newline) ↔
      holds pending true line rest ∧
        EachLine holds (if Continued line then some ((pending.getD none).or (leadOf line.dropLast)) else none)
          (rest.splitOn newline) := by
  have proper := List.splitOn_ne_nil newline rest
  rw [List.splitOn_append_cons_self_of_not_mem single, EachLine, List.intercalate_splitOn,
    List.isEmpty_eq_false_iff.mpr proper]
  simp only [Bool.not_false, ne_eq, proper, not_false_eq_true, true_and]

theorem eachLine_open (holds : Option (Option Byte) → Bool → Bytes → Bytes → Prop) (pending : Option (Option Byte))
    {text : Bytes} (single : newline ∉ text) :
    EachLine holds pending (text.splitOn newline) ↔ holds pending false text [] := by
  rw [List.splitOn_eq_singleton single]
  exact and_iff_left trivial

theorem spaced_concat (text : Bytes) : Spaced (text ++ [32]) := by
  intro last member
  rw [List.getLast?_concat] at member
  exact Option.some.inj member ▸ rfl

theorem lineWords_concat (text : Bytes) : lineWords (text ++ [32]) = lineWords text := by
  have split := lineWords_blank text (rfl : isblank 32 = true) []
  rwa [lineWords_nil, List.append_nil] at split

theorem leadOf_concat (text : Bytes) : leadOf (text ++ [32]) = leadOf text := by
  rw [leadOf_append]
  exact Option.or_none

/-- The logical line goes on after a blank. -/
theorem Follows.goesOn {purge : Byte} {line out : Bytes} (follows : Follows purge line out) {out' : Bytes}
    (spaced : Spaced out') (same : lineWords out' = lineWords out) : Carried purge true (line ++ [32]) out' := by
  refine ⟨?_, spaced_concat line, spaced, nofun⟩
  rw [Follows] at follows ⊢
  rwa [leadOf_concat, lineWords_concat, same]

theorem follows_single {purge : Byte} {line out : Bytes} (follows : Follows purge line out) :
    wordsOf [out] = (unpurged purge [line]).map lineWords := by
  have none : wordsOf [] = (unpurged purge []).map lineWords := rfl
  exact follows_cons follows none

theorem copyBody_suffix (cont ended : Bool) (line : Bytes) : copyBody cont ended line <:+ lineBody ended line := by
  rw [copyBody]
  split
  · exact List.dropWhile_suffix isblank
  · exact List.suffix_refl _

theorem copyBody_single (cont ended : Bool) {line : Bytes} (single : newline ∉ line) :
    newline ∉ copyBody cont ended line := by
  have inside : lineBody ended line ⊆ line := by
    rw [lineBody]
    split
    · exact List.dropLast_subset line
    · exact List.Subset.refl line
  exact fun member => single (inside ((copyBody_suffix cont ended line).subset member))

theorem joinLines_emptied {out : Bytes} (none : lineWords out = []) (rest : Bytes) :
    wordsOf (joinTo out (joinLines (([newline] ++ rest).splitOn newline))) =
      wordsOf (joinLines (rest.splitOn newline)) := by
  have pieces := List.splitOn_append_cons_self_of_not_mem (List.not_mem_nil (a := newline)) rest
  rw [List.singleton_append, ← List.nil_append (newline :: rest), pieces, joinLines_ended not_continued_nil, joinTo,
    List.append_nil, wordsOf_none none]

theorem joinLines_copied (out : Bytes) (cont : Bool) {line : Bytes} (single : newline ∉ line) (rest : Bytes) :
    joinTo out (joinLines ((copyBody cont true line ++ lineEnd true line ++ rest).splitOn newline)) =
      if Continued line then joinTo (out ++ copyBody cont true line ++ [32]) (joinLines (rest.splitOn newline))
      else (out ++ copyBody cont true line) :: joinLines (rest.splitOn newline) := by
  have plain := copyBody_single cont true single
  by_cases goesOn : Continued line
  · have whole : copyBody cont true line ++ lineEnd true line ++ rest =
        (copyBody cont true line ++ [backslash]) ++ newline :: rest := by
      rw [lineEnd, if_pos ((goesOn_iff true line).mpr ⟨rfl, goesOn⟩), if_pos rfl]
      simp
    have plain' : newline ∉ copyBody cont true line ++ [backslash] := by simpa [newline, backslash] using plain
    have continued : Continued (copyBody cont true line ++ [backslash]) := List.getLast?_concat
    rw [whole, List.splitOn_append_cons_self_of_not_mem plain',
      joinLines_continued continued (List.splitOn_ne_nil _ _), List.dropLast_concat, joinTo_joinTo, if_pos goesOn,
      List.append_assoc]
  · have whole : copyBody cont true line ++ lineEnd true line ++ rest =
        copyBody cont true line ++ newline :: rest := by
      rw [lineEnd, if_neg fun both => goesOn ((goesOn_iff true line).mp both).2, if_pos rfl]
      simp
    have ends : ¬Continued (copyBody cont true line) := by
      intro continued
      have inner := copyBody_suffix cont true line
      rw [lineBody_ended fun both => goesOn both.2] at inner
      obtain ⟨before, same⟩ := inner
      refine goesOn ?_
      rw [Continued, ← same, List.getLast?_append, continued]
      rfl
    rw [whole, List.splitOn_append_cons_self_of_not_mem plain, joinLines_ended ends, joinTo, if_neg goesOn]

theorem packLines_last {purge : Byte} {cont : Bool} {first out text : Bytes} (clean : (0 : Byte) ∉ text)
    (single : newline ∉ text) (pending : Carried purge cont first out)
    (safe : LineSafe purge (if cont then some (leadOf first) else none) false text []) :
    wordsOf (joinTo out (joinLines ((packLines purge cont (text.splitOn newline)).splitOn newline))) =
      (unpurged purge (joinTo first (joinLines (text.splitOn newline)))).map lineWords := by
  have whole : joinTo first (joinLines (text.splitOn newline)) = [first ++ lineBody false text] := by
    rw [List.splitOn_eq_singleton single, joinLines_last]
    rfl
  rw [packLines_open purge cont single, whole]
  by_cases empty : text = []
  · rw [if_pos empty, empty]
    exact follows_single (pending.blank rfl rfl)
  · rw [if_neg empty]
    cases packLine_packed clean single (fun _ => rfl) pending safe with
    | removed none follows closed =>
      have left : joinTo out (joinLines ([].splitOn newline)) = [out] := by
        rw [(by decide : ([] : Bytes).splitOn newline = [[]]), joinLines_last, joinTo, List.append_nil]
      rw [none, left]
      exact follows_single follows
    | emptied emptied none follows =>
      rw [emptied, ← List.append_nil [newline], joinLines_emptied none]
      exact follows_single follows
    | copied same follows =>
      have left : copyBody cont false text ++ lineEnd false text = copyBody cont false text := List.append_nil _
      rw [same, left, List.splitOn_eq_singleton (copyBody_single cont false single), joinLines_last]
      exact follows_single follows

theorem packLines_keeps {purge : Byte} {text : Bytes} (clean : (0 : Byte) ∉ text) {cont : Bool} {first out : Bytes}
    (pending : Carried purge cont first out)
    (safe : EachLine (LineSafe purge) (if cont then some (leadOf first) else none) (text.splitOn newline)) :
    wordsOf (joinTo out (joinLines ((packLines purge cont (text.splitOn newline)).splitOn newline))) =
      (unpurged purge (joinTo first (joinLines (text.splitOn newline)))).map lineWords := by
  induction text using lines_induction newline generalizing cont first out with
  | unfinished text single =>
    rw [eachLine_open _ _ single] at safe
    exact packLines_last clean single pending safe
  | line line rest single ih =>
    rw [eachLine_line _ _ single] at safe
    obtain ⟨safe, safe'⟩ := safe
    have clean' : (0 : Byte) ∉ rest := fun zero => clean (by simp [zero])
    have packed : Packed purge cont true first out line (packLine purge cont line true rest).1 :=
      packLine_packed (fun zero => clean (List.mem_append_left _ zero)) single nofun pending safe
    have lead : ((if cont then some (leadOf first) else none).getD none).or (leadOf line.dropLast) =
        (leadOf first).or (leadOf line.dropLast) := by
      cases cont with
      | false => rw [pending.start rfl]; rfl
      | true => rfl
    have next : (packLine purge cont line true rest).2 = decide (Continued line) := by
      rw [packLine_eq, Bool.eq_iff_iff, goesOn_iff, decide_eq_true_iff, and_iff_right rfl]
    rw [packLines_line purge cont single, next, List.splitOn_append_cons_self_of_not_mem single]
    rw [lead] at safe'
    by_cases goesOn : Continued line
    · have body : lineBody true line = line.dropLast := if_pos ((goesOn_iff true line).mpr ⟨rfl, goesOn⟩)
      have safe'' : EachLine (LineSafe purge)
          (if true then some (leadOf (first ++ lineBody true line ++ [32])) else none) (rest.splitOn newline) := by
        rw [if_pos goesOn] at safe'
        rwa [if_pos rfl, leadOf_concat, leadOf_append, body]
      have right : joinTo first (joinLines (line :: rest.splitOn newline)) =
          joinTo (first ++ lineBody true line ++ [32]) (joinLines (rest.splitOn newline)) := by
        rw [joinLines_continued goesOn (List.splitOn_ne_nil _ _), joinTo_joinTo, ← List.append_assoc, body]
      rw [decide_eq_true goesOn, right]
      cases packed with
      | removed none follows closed =>
        rw [none, List.nil_append]
        exact ih clean' (follows.goesOn pending.outSpaced rfl) safe''
      | emptied emptied none follows =>
        rw [emptied, joinLines_emptied none, ← joinTo_nil (joinLines (List.splitOn newline (packLines _ _ _)))]
        exact ih clean' (follows.goesOn spaced_nil rfl) safe''
      | copied same follows =>
        rw [same, joinLines_copied out cont single, if_pos goesOn]
        exact ih clean' (follows.goesOn (spaced_concat _) (lineWords_concat _)) safe''
    · have body : lineBody true line = line := lineBody_ended fun both => goesOn both.2
      rw [if_neg goesOn] at safe'
      have fresh := ih clean' (Carried.initial spaced_nil lineWords_nil) safe'
      rw [joinTo_nil, joinTo_nil] at fresh
      have right : joinTo first (joinLines (line :: rest.splitOn newline)) =
          (first ++ lineBody true line) :: joinLines (rest.splitOn newline) := by
        rw [joinLines_ended goesOn, joinTo, body]
      rw [decide_eq_false goesOn, right]
      cases packed with
      | removed none follows closed =>
        have words := closed rfl goesOn
        have kept := follows_cons follows fresh
        rw [wordsOf_none words] at kept
        rw [none, List.nil_append, wordsOf_joinTo pending.outSpaced words]
        exact kept
      | emptied emptied none follows =>
        have kept := follows_cons follows fresh
        rw [wordsOf_none lineWords_nil] at kept
        rw [emptied, joinLines_emptied none]
        exact kept
      | copied same follows =>
        rw [same, joinLines_copied out cont single, if_neg goesOn]
        exact follows_cons follows fresh

theorem leadOf_mem {line : Bytes} {lead : Byte} (found : leadOf line = some lead) :
    lead ∈ line ∧ ¬isblank lead = true :=
  ⟨List.mem_of_find?_eq_some found, by simpa using List.find?_some found⟩

theorem mem_wholeLine {ended : Bool} {line : Bytes} {byte : Byte} (member : byte ∈ lineBody ended line) :
    byte ∈ wholeLine ended line := by
  rw [wholeLine_eq]
  exact List.mem_append_left _ member

theorem body_single {ended : Bool} {line : Bytes} (single : newline ∉ line) : newline ∉ lineBody ended line := by
  rw [lineBody]
  split
  · exact fun member => single (List.dropLast_subset line member)
  · exact single

theorem short_visible {ended : Bool} {line short : Bytes} (single : newline ∉ line)
    (text : visible (lineBody ended line) = true) (blank : ∀ byte ∈ short, byte = newline) :
    short.dropWhile isblank ≠ (wholeLine ended line).dropWhile isblank := by
  intro same
  cases lead : leadOf (lineBody ended line) with
  | none => exact absurd ((leadOf_blank _).mp lead) (by rw [text]; decide)
  | some c =>
    have head := lead
    rw [← (lineCopy_head text).1, lineCopy, text, Bool.not_false, Bool.true_and, if_pos rfl, ← same] at head
    have member := (List.dropWhile_suffix isblank).subset (List.mem_of_mem_head? head)
    have inner := (leadOf_mem lead).1
    rw [blank c member] at inner
    exact body_single single inner

theorem lineKept_begin {purge : Byte} {ended : Bool} {line : Bytes} (clean : (0 : Byte) ∉ line) (after : Bytes) :
    LineKept purge none ended line after := by
  intro lead found
  have found : leadOf (lineBody ended line) = some lead := found
  have text : visible (lineBody ended line) = true := by
    rw [← Bool.not_eq_false, ← leadOf_blank, found]
    nofun
  have head := (lineCopy_head text).1
  have read := lineRead_visible false text
  split
  · next same =>
    have written := packLine_purged clean after read (head.trans (found.trans (congrArg some same)))
    intro byte member
    rw [Option.isSome_none, written] at member
    split at member
    · exact Or.inl (List.mem_singleton.mp member)
    · cases member
  · next other =>
    intro _
    have unpurged : (lineCopy false ended line).head? ≠ some purge := by
      rw [head, found]
      exact fun same => other (Option.some.inj same)
    have written := packLine_copied after read unpurged
    rw [Option.isSome_none, written, lineCopy, text, Bool.not_false, Bool.true_and, if_pos rfl,
      List.dropWhile_idempotent]

theorem lineKept_visible {purge : Byte} {ended : Bool} {line : Bytes} (clean : (0 : Byte) ∉ line)
    (single : newline ∉ line) (after : Bytes) (first : Option Byte) (text : visible (lineBody ended line) = true) :
    LineKept purge (some first) ended line after ↔ LineSafe purge (some first) ended line after := by
  have read := lineRead_visible true text
  have starts := (lineCopy_head text).2
  have copy : lineCopy true ended line = wholeLine ended line := rfl
  obtain ⟨lead, found⟩ : ∃ lead, first.or (leadOf (lineBody ended line)) = some lead := by
    cases first with
    | some lead => exact ⟨lead, rfl⟩
    | none =>
      refine Option.ne_none_iff_exists'.mp fun none => ?_
      exact absurd ((leadOf_blank _).mp none) (by rw [text]; decide)
  have safe : LineSafe purge (some first) ended line after ↔ (line.head? = some purge ↔ lead = purge) := by
    simp only [LineSafe, Option.mem_some_iff, forall_eq', text, if_true, found, Option.some.injEq]
  have kept : LineKept purge (some first) ended line after ↔
      if lead = purge then
        ∀ byte ∈ (packLine purge true line ended after).1, byte = newline ∨ isblank byte = true
      else (packLine purge true line ended after).1.dropWhile isblank = (wholeLine ended line).dropWhile isblank := by
    simp only [LineKept, Option.getD_some, found, Option.isSome_some, Option.mem_some_iff, forall_eq', text, true_or,
      true_imp_iff]
  rw [safe, kept]
  by_cases head : line.head? = some purge
  · have written := packLine_purged clean after read (starts.trans head)
    have blank : ∀ byte ∈ (packLine purge true line ended after).1, byte = newline := by
      intro byte member
      rw [written] at member
      split at member
      · exact List.mem_singleton.mp member
      · cases member
    rw [iff_true_intro head, true_iff]
    by_cases same : lead = purge
    · rw [if_pos same]
      exact iff_of_true (fun byte member => Or.inl (blank byte member)) same
    · rw [if_neg same]
      exact iff_of_false (short_visible single text blank) same
  · have written := packLine_copied after read (fun same => head (starts.symm.trans same))
    rw [iff_false_intro head, false_iff, written, copy]
    by_cases same : lead = purge
    · rw [if_pos same]
      refine iff_of_false (fun blank => ?_) (not_not.mpr same)
      obtain ⟨byte, member, stops⟩ := visible_iff.mp text
      rcases blank byte (mem_wholeLine member) with ends | isBlank
      · exact body_single single (ends ▸ member)
      · exact stops isBlank
    · rw [if_neg same]
      exact iff_of_true rfl same

theorem closing_iff {purge : Byte} {ended : Bool} {line after : Bytes} (clean : (0 : Byte) ∉ line)
    (single : newline ∉ line) (last : ended = false → after = []) (lead : Byte) (ends : ¬Continued line)
    (text : visible line = false) :
    (if lead = purge then ∀ byte ∈ (packLine purge true line ended after).1, byte = newline ∨ isblank byte = true
      else ¬Continued line →
        (packLine purge true line ended after).1.dropWhile isblank = (wholeLine ended line).dropWhile isblank) ↔
      (ended = true → ¬Continued line → lead ≠ purge → (line ++ [newline]).head? = some purge →
        line = [] ∧ after.take 3 = ascii "nl\n") := by
  have copy : lineCopy true ended line = wholeLine ended line := rfl
  have blanks : ∀ byte ∈ line, isblank byte = true := by
    intro byte member
    by_contra stops
    exact absurd (visible_iff.mpr ⟨byte, member, stops⟩) (by rw [text]; decide)
  have whole : ∀ byte ∈ wholeLine ended line, byte = newline ∨ isblank byte = true := by
    intro byte member
    cases ended with
    | false => exact Or.inr (blanks byte member)
    | true =>
      rcases List.mem_append.mp member with inner | ends
      · exact Or.inr (blanks byte inner)
      · exact Or.inl (List.mem_singleton.mp ends)
  have read : lineRead true ended line = true := by
    have goesOn : (ended && line.getLast? == some backslash) = false := by
      rw [← Bool.not_eq_true, goesOn_iff]
      exact fun both => ends both.2
    rw [lineRead, goesOn, Bool.not_false, Bool.true_and, Bool.or_true]
  by_cases same : lead = purge
  · rw [if_pos same]
    refine iff_of_true (fun byte member => ?_) fun _ _ other => absurd same other
    rcases packLine_cases purge true ended line after with none | ⟨emptied, -⟩ | copied
    · rw [none] at member
      cases member
    · rw [emptied] at member
      exact Or.inl (List.mem_singleton.mp member)
    · rw [copied] at member
      exact whole byte member
  · rw [if_neg same]
    by_cases head : (wholeLine ended line).head? = some purge
    · have putBack := putBack_iff single last text
      rw [packLine_purged clean after read head, copy]
      cases ended with
      | false =>
        have left : (wholeLine false line).dropWhile isblank = [] := List.dropWhile_eq_nil_iff.mpr blanks
        rw [if_neg fun put => Bool.false_ne_true (putBack.mp put).1, left]
        exact iff_of_true (fun _ => rfl) nofun
      | true =>
        have left : (wholeLine true line).dropWhile isblank = [newline] := List.dropWhile_append_of_pos blanks
        rw [left]
        by_cases put : ((wholeLine true line).tail ++ after).take 3 = ascii "nl\n"
        · rw [if_pos put]
          exact iff_of_true (fun _ => rfl) fun _ _ _ _ => (putBack.mp put).2
        · rw [if_neg put]
          refine iff_of_false (fun empty => absurd (empty ends) (by decide)) fun safe => put ?_
          exact putBack.mpr ⟨rfl, safe rfl ends same head⟩
    · rw [packLine_copied after read head, copy]
      refine iff_of_true (fun _ => rfl) fun proper _ _ head' => absurd ?_ head
      rwa [wholeLine, proper, if_pos rfl]

theorem lineKept_blank {purge : Byte} {ended : Bool} {line after : Bytes} (clean : (0 : Byte) ∉ line)
    (single : newline ∉ line) (last : ended = false → after = []) (first : Option Byte)
    (text : visible (lineBody ended line) = false) :
    LineKept purge (some first) ended line after ↔ LineSafe purge (some first) ended line after := by
  have found : first.or (leadOf (lineBody ended line)) = first := by
    rw [(leadOf_blank _).mpr text, Option.or_none]
  have safe : LineSafe purge (some first) ended line after ↔ (ended = true → ¬Continued line → ∀ lead ∈ first,
      lead ≠ purge → (line ++ [newline]).head? = some purge → line = [] ∧ after.take 3 = ascii "nl\n") := by
    simp only [LineSafe, Option.mem_some_iff, forall_eq', text, Bool.false_eq_true, if_false]
  have kept : LineKept purge (some first) ended line after ↔ ∀ lead ∈ first, if lead = purge then
        ∀ byte ∈ (packLine purge true line ended after).1, byte = newline ∨ isblank byte = true
      else ¬Continued line →
        (packLine purge true line ended after).1.dropWhile isblank = (wholeLine ended line).dropWhile isblank := by
    simp only [LineKept, Option.getD_some, found, Option.isSome_some, text, Bool.false_eq_true, false_or]
  rw [safe, kept]
  cases first with
  | none => exact iff_of_true nofun fun _ _ => nofun
  | some lead =>
    simp only [Option.mem_some_iff, forall_eq']
    by_cases goesOn : ended = true ∧ Continued line
    · have unread : lineRead true ended line = false := by
        rw [lineRead, text, (goesOn_iff ended line).mpr goesOn]
        rfl
      rw [packLine_unread purge after unread]
      refine iff_of_true ?_ fun _ stops => absurd goesOn.2 stops
      split
      · exact nofun
      · exact fun stops => absurd goesOn.2 stops
    · rw [lineBody_ended goesOn] at text
      have ends : ¬Continued line := by
        intro continued
        have member : backslash ∈ line := List.mem_of_getLast? continued
        exact absurd (visible_iff.mpr ⟨backslash, member, by decide⟩) (by rw [text]; decide)
      exact closing_iff clean single last lead ends text

theorem lineKept_iff {purge : Byte} (pending : Option (Option Byte)) {ended : Bool} {line after : Bytes}
    (clean : (0 : Byte) ∉ line) (single : newline ∉ line) (last : ended = false → after = []) :
    LineKept purge pending ended line after ↔ LineSafe purge pending ended line after := by
  cases pending with
  | none => exact iff_of_true (lineKept_begin clean after) nofun
  | some first =>
    cases text : visible (lineBody ended line) with
    | false => exact lineKept_blank clean single last first text
    | true => exact lineKept_visible clean single after first text

theorem linesKept_iff {purge : Byte} {text : Bytes} (clean : (0 : Byte) ∉ text) (pending : Option (Option Byte)) :
    EachLine (LineKept purge) pending (text.splitOn newline) ↔
      EachLine (LineSafe purge) pending (text.splitOn newline) := by
  induction text using lines_induction newline generalizing pending with
  | unfinished text single =>
    rw [eachLine_open _ _ single, eachLine_open _ _ single, lineKept_iff pending clean single fun _ => rfl]
  | line line rest single ih =>
    have clean' : (0 : Byte) ∉ line := fun zero => clean (List.mem_append_left _ zero)
    have first : LineKept purge pending true line rest ↔ LineSafe purge pending true line rest :=
      lineKept_iff pending clean' single nofun
    rw [eachLine_line _ _ single, eachLine_line _ _ single, first, ih fun zero => clean (by simp [zero])]

theorem pack_words {purge : Byte} {text : Bytes} (clean : (0 : Byte) ∉ text) (safe : PackSafe purge text) :
    (nonBlankLines (pack text purge)).map lineWords = (unpurgedLines text purge).map lineWords := by
  have kept := packLines_keeps clean (Carried.initial spaced_nil lineWords_nil) safe
  rwa [joinTo_nil, joinTo_nil] at kept

/-- The logical lines of the packed text are those of the text that are not purged, each of their lines being
written or removed with them, exactly when the lines that go on from others are purged as these. -/
theorem pack_keeps (text : Bytes) (purge : Byte) (clean : (0 : Byte) ∉ text) :
    (∃ result, Leaves result (packInPlace text purge) ∧ (0 : Byte) ∉ result ∧ result.length ≤ text.length ∧
      (nonBlankLines result).map lineWords = (unpurgedLines text purge).map lineWords ∧ LinesKept purge text) ↔
      PackSafe purge text := by
  constructor
  · rintro ⟨_, _, _, _, _, kept⟩
    exact (linesKept_iff clean none).mp kept
  · intro safe
    obtain ⟨short, clean'⟩ := packLines_fit purge false clean
    exact ⟨pack text purge, packInPlace_eq clean purge, clean', short, pack_words clean safe,
      (linesKept_iff clean none).mpr safe⟩

/-- A command on three lines with a specifier after blanks, between directives. -/
theorem pack_keeps_specifier :
    ∃ result, Leaves result (packInPlace (ascii "%nl\n \\\nA=/x \\\n  %h \\\n\n%drop\\\n%all\nB=2") percent) ∧
      (0 : Byte) ∉ result ∧
      result.length ≤ (ascii "%nl\n \\\nA=/x \\\n  %h \\\n\n%drop\\\n%all\nB=2").length ∧
      (nonBlankLines result).map lineWords =
        (unpurgedLines (ascii "%nl\n \\\nA=/x \\\n  %h \\\n\n%drop\\\n%all\nB=2") percent).map lineWords ∧
      LinesKept percent (ascii "%nl\n \\\nA=/x \\\n  %h \\\n\n%drop\\\n%all\nB=2") :=
  (pack_keeps (ascii "%nl\n \\\nA=/x \\\n  %h \\\n\n%drop\\\n%all\nB=2") percent (by decide)).mpr (by decide)

/-- A specifier that starts a line is taken for a directive: the command loses it and takes the next field. -/
theorem pack_loses :
    pack (ascii "A=/x \\\n%h/y\nB=2\n") percent = ascii "A=/x \\\nB=2\n" ∧
      (unpurgedLines (ascii "A=/x \\\n%h/y\nB=2\n") percent).map lineWords =
        [[ascii "A=/x", ascii "%h/y"], [ascii "B=2"]] ∧
      (nonBlankLines (ascii "A=/x \\\nB=2\n")).map lineWords = [[ascii "A=/x", ascii "B=2"]] ∧
      ¬∀ text purge, (0 : Byte) ∉ text → ∃ result, Leaves result (packInPlace text purge) ∧
        (nonBlankLines result).map lineWords = (unpurgedLines text purge).map lineWords := by
  refine ⟨by decide, by decide, by decide, fun keeps => ?_⟩
  obtain ⟨result, ⟨after, left⟩, same⟩ := keeps (ascii "A=/x \\\n%h/y\nB=2\n") percent (by decide)
  have run : packInPlace (ascii "A=/x \\\n%h/y\nB=2\n") percent =
      some (11, ascii "A=/x \\\nB=2\n" ++ 0 :: (ascii "B=2\n" ++ [0])) := by decide
  rw [run, Option.some.injEq, Prod.mk.injEq] at left
  have equal : ascii "A=/x \\\nB=2\n" = result := (List.append_inj left.2 left.1).1
  rw [← equal] at same
  exact absurd same (by decide)

end AppManager.Units
