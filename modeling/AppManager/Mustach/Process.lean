import AppManager.Lib.Calls
import AppManager.Lib.Trim

/-! The template engine. A pointer in a template is what the template has from there to its end.
The characters of a line are written when the line ends, or before a tag that does not stand alone
on its line. -/

namespace AppManager.Mustach
open AppManager.Lib AppManager.Lib.Calls

def MUSTACH_MAX_DEPTH : Nat := 256
def MUSTACH_MAX_LENGTH : Nat := 4096
def MUSTACH_MAX_DELIM_LENGTH : Nat := 8

def MUSTACH_ERROR_UNEXPECTED_END : Int := -2
def MUSTACH_ERROR_EMPTY_TAG : Int := -3
def MUSTACH_ERROR_TAG_TOO_LONG : Int := -4
def MUSTACH_ERROR_BAD_SEPARATORS : Int := -5
def MUSTACH_ERROR_TOO_DEEP : Int := -6
def MUSTACH_ERROR_CLOSING : Int := -7
def MUSTACH_ERROR_BAD_UNESCAPE_TAG : Int := -8

def newline : Byte := '\n'.toUInt8
def braceOpen : Byte := '\x7b'.toUInt8
def braceClose : Byte := '\x7d'.toUInt8
def equalSign : Byte := '='.toUInt8
def angle : Byte := '>'.toUInt8

/-- `isspace` in the C locale. -/
def isspace (c : Byte) : Bool := c == 32 || (9 ≤ c && c ≤ 13)

/-- The extensions that are allowed. -/
structure Flags where
  colon : Bool
  emptyTag : Bool

/-- `Mustach_With_AllExtensions`. -/
def Flags.all : Flags := ⟨true, true⟩

/-- What stops the processing: a negative status, or a callback that does not return. -/
inductive Failure where
  | status (rc : Int)
  | crash
  deriving DecidableEq, Repr

/-- The callbacks on a closure. What they write is given apart. -/
structure Interface (Closure : Type) where
  put : Closure → Bytes → Bool → Except Failure (Closure × Bytes)
  enter : Closure → Bytes → Except Failure (Bool × Closure)
  next : Closure → Except Failure (Bool × Closure)
  leave : Closure → Closure
  inclusion : Closure → Bytes → Except Failure (Closure × Bytes)

/-- Whether a tag can still stand alone on its line (1), and does (2). -/
inductive Stdalone where
  | no
  | blank
  | tag
  deriving DecidableEq, Repr

/-- The prefixes of the including templates, the outermost first, and the one of the line. -/
structure Pref where
  outer : List Bytes
  own : Bytes
  deriving DecidableEq

def Pref.emitted (pref : Pref) : Bytes := pref.outer.flatten ++ pref.own

def Pref.none : Pref := ⟨[], []⟩

/-- The line that is read, from `template` to `beg`, and what is written before it. -/
structure Layout where
  line : Bytes
  stdalone : Stdalone
  pref : Pref
  file : Bytes
  deriving DecidableEq

namespace Layout

/-- What is done at an end of line, which the end of the template is as well. -/
def flush (enabled : Bool) (layout : Layout) (ending : Bytes) : Bytes :=
  if layout.stdalone ≠ .tag ∧ enabled then
    layout.file ++ ((if layout.line ≠ [] then layout.pref.emitted else []) ++ (layout.line ++ ending))
  else layout.file

def nextLine (enabled : Bool) (outer : List Bytes) (layout : Layout) : Layout :=
  ⟨[], .blank, ⟨outer, []⟩, layout.flush enabled [newline]⟩

/-- A character that is not blank tells that the tag before it does not stand alone. -/
def wake (enabled : Bool) (layout : Layout) : Layout :=
  if layout.stdalone = .tag ∧ enabled then ⟨layout.line, .no, .none, layout.file ++ layout.pref.emitted⟩
  else layout

def push (c : Byte) (layout : Layout) : Layout := { layout with line := layout.line ++ [c] }

def atTag (enabled inline : Bool) (layout : Layout) : Layout :=
  let pref := { layout.pref with own := if enabled then layout.line else [] }
  let stdalone := if inline then .no else layout.stdalone
  if stdalone ≠ .no then ⟨[], .tag, pref, layout.file⟩
  else if enabled then ⟨[], stdalone, .none, layout.file ++ pref.emitted⟩
  else ⟨[], stdalone, pref, layout.file⟩

end Layout

/-- An opening delimiter starts with no blank, so that it is never searched at one. -/
structure Delimiters where
  opstr : Bytes
  clstr : Bytes
  starts : ∃ c rest, opstr = c :: rest ∧ isspace c = false
  deriving DecidableEq

def Delimiters.initial : Delimiters :=
  ⟨[braceOpen, braceOpen], [braceClose, braceClose], braceOpen, [braceOpen], rfl, by decide⟩

inductive Tag where
  | comment
  | delimiters (delims : Delimiters)
  | opens (inverted : Bool) (name : Bytes)
  | closes (name : Bytes)
  | inclusion (name : Bytes)
  | value (name : Bytes) (escape : Bool)
  deriving DecidableEq

def Tag.inline : Tag → Bool
  | .value _ _ => true
  | _ => false

/-- The loop that searches an opening delimiter, or the end of the template. -/
def searchOpening (opstr : Bytes) (enabled : Bool) (outer : List Bytes) : Bytes → Layout → Sum Bytes (Bytes × Layout)
  | [], layout => .inl (layout.flush enabled [])
  | c :: rest, layout =>
    if c = newline then searchOpening opstr enabled outer rest (layout.nextLine enabled outer)
    else if isspace c then searchOpening opstr enabled outer rest (layout.push c)
    else if opstr <+: c :: rest then .inr (c :: rest, layout.wake enabled)
    else searchOpening opstr enabled outer rest ({ layout.wake enabled with stdalone := .no }.push c)

/-- The loop that searches a delimiter: what is before it, and the text from it on. -/
def searchDelimiter (delimiter : Bytes) : Bytes → Option (Bytes × Bytes)
  | [] => none
  | c :: rest =>
    if delimiter <+: c :: rest then some ([], c :: rest)
    else (searchDelimiter delimiter rest).map fun (before, found) => (c :: before, found)

def getName (flags : Flags) (content : Bytes) : Except Int Bytes :=
  let name := trim isspace content
  if name = [] ∧ ¬flags.emptyTag then .error MUSTACH_ERROR_EMPTY_TAG
  else if MUSTACH_MAX_LENGTH < name.length then .error MUSTACH_ERROR_TAG_TOO_LONG
  else .ok name

/-- The length of a content that is empty wraps, and is then too long. -/
def excludeFirst (flags : Flags) : Bytes → Except Int Bytes
  | [] => .error MUSTACH_ERROR_TAG_TOO_LONG
  | _ :: content => getName flags content

theorem first_word {text inner : Bytes} (trimmed : inner = trim isspace text)
    (more : (inner.takeWhile fun c => !isspace c).length ≠ inner.length) :
    ∃ c rest, (inner.takeWhile fun c => !isspace c) = c :: rest ∧ isspace c = false := by
  have some : ¬Blanks isspace text := by
    intro blanks
    rw [trimmed, trim_eq_nil.mpr blanks] at more
    exact more rfl
  obtain ⟨lead, solid, last, rfl, before, proper, behind⟩ := solid_parts some
  rw [trim_solid before proper, rdropWhile_blanks behind, List.append_nil] at trimmed
  obtain ⟨c, rest, rfl, plain⟩ := proper.starts
  have plain : isspace c = false := Bool.eq_false_iff.mpr plain
  refine ⟨c, rest.takeWhile fun c => !isspace c, ?_, plain⟩
  rw [trimmed, List.takeWhile_cons_of_pos]
  rw [plain]
  rfl

def readDelimiters (content : Bytes) : Except Int Delimiters :=
  if content.length < 5 ∨ content.getLast? ≠ some equalSign then .error MUSTACH_ERROR_BAD_SEPARATORS
  else
    let inner := trim isspace content.tail.dropLast
    let opstr := inner.takeWhile fun c => !isspace c
    let clstr := (inner.dropWhile fun c => !isspace c).dropWhile isspace
    if single : opstr.length = inner.length then .error MUSTACH_ERROR_BAD_SEPARATORS
    else if MUSTACH_MAX_DELIM_LENGTH < opstr.length then .error MUSTACH_ERROR_BAD_SEPARATORS
    else if clstr = [] ∨ MUSTACH_MAX_DELIM_LENGTH < clstr.length then .error MUSTACH_ERROR_BAD_SEPARATORS
    else .ok ⟨opstr, clstr, first_word rfl single⟩

/-- The tag of a content, and where the template goes on when there is this after the closing delimiter. -/
def readTag (flags : Flags) (clstr content template : Bytes) : Except Int (Tag × Bytes) :=
  match content ++ clstr with
  | [] => .error MUSTACH_ERROR_UNEXPECTED_END
  | c :: _ =>
    if c = ':'.toUInt8 then
      (if flags.colon then excludeFirst flags content else getName flags content).map fun name =>
        (.value name true, template)
    else if c = '!'.toUInt8 then .ok (.comment, template)
    else if c = equalSign then (readDelimiters content).map fun delims => (.delimiters delims, template)
    else if c = braceOpen then
      if ∃ byte ∈ clstr, byte ≠ braceClose then
        if content.getLast? ≠ some braceClose then .error MUSTACH_ERROR_BAD_UNESCAPE_TAG
        else (excludeFirst flags content.dropLast).map fun name => (.value name false, template)
      else if template.head? ≠ some braceClose then .error MUSTACH_ERROR_BAD_UNESCAPE_TAG
      else (excludeFirst flags content).map fun name => (.value name false, template.tail)
    else if c = '&'.toUInt8 then (excludeFirst flags content).map fun name => (.value name false, template)
    else if c = '^'.toUInt8 then (excludeFirst flags content).map fun name => (.opens true name, template)
    else if c = '#'.toUInt8 then (excludeFirst flags content).map fun name => (.opens false name, template)
    else if c = '/'.toUInt8 then (excludeFirst flags content).map fun name => (.closes name, template)
    else if c = angle then (excludeFirst flags content).map fun name => (.inclusion name, template)
    else (getName flags content).map fun name => (.value name true, template)

structure Frame where
  name : Bytes
  again : Bytes
  enabled : Bool
  entered : Bool
  deriving DecidableEq

/-- The variables of `process`, and its argument `prefix`. -/
structure State (Closure : Type) where
  template : Bytes
  delims : Delimiters
  stack : List Frame
  enabled : Bool
  layout : Layout
  outer : List Bytes
  closure : Closure

variable {Closure : Type}

/-- The start of `process`. -/
def State.start (template : Bytes) (closure : Closure) (file : Bytes) (outer : List Bytes) : State Closure :=
  ⟨template, .initial, [], true, ⟨[], .blank, ⟨outer, []⟩, file⟩, outer, closure⟩

abbrev Outcome (Closure : Type) := Turn (State Closure) (Closure × Bytes) Failure

/-- What is done for a tag, the template being after it. -/
def act (itf : Interface Closure) (state : State Closure) : Tag → Outcome Closure
  | .comment => .goes state
  | .delimiters delims => .goes { state with delims := delims }
  | .opens inverted name =>
    if state.stack.length = MUSTACH_MAX_DEPTH then .ended (.error (.status MUSTACH_ERROR_TOO_DEEP))
    else
      match if state.enabled then itf.enter state.closure name else .ok (false, state.closure) with
      | .error failure => .ended (.error failure)
      | .ok (entered, closure) =>
        .goes { state with
          closure := closure
          stack := ⟨name, state.template, state.enabled, entered⟩ :: state.stack
          enabled := if inverted = entered then false else state.enabled }
  | .closes name =>
    match state.stack with
    | [] => .ended (.error (.status MUSTACH_ERROR_CLOSING))
    | frame :: stack =>
      if name ≠ frame.name then .ended (.error (.status MUSTACH_ERROR_CLOSING))
      else
        match if state.enabled ∧ frame.entered then itf.next state.closure else .ok (false, state.closure) with
        | .error failure => .ended (.error failure)
        | .ok (true, closure) => .goes { state with template := frame.again, closure := closure }
        | .ok (false, closure) =>
          .goes { state with
            stack := stack
            enabled := frame.enabled
            closure := if frame.enabled ∧ frame.entered then itf.leave closure else closure }
  | .inclusion name =>
    if state.enabled then
      match itf.inclusion state.closure name with
      | .error failure => .ended (.error failure)
      | .ok (closure, content) =>
        .calls (State.start content closure state.layout.file (state.layout.pref.outer ++ [state.layout.pref.own]))
          fun (closure, file) => { state with closure := closure, layout := { state.layout with file := file } }
    else .goes state
  | .value name escape =>
    if state.enabled then
      match itf.put state.closure name escape with
      | .error failure => .ended (.error failure)
      | .ok (closure, written) =>
        .goes { state with
          closure := closure
          layout := { state.layout with file := state.layout.file ++ written } }
    else .goes state

/-- One turn of the loop of `process`. -/
def turn (flags : Flags) (itf : Interface Closure) (state : State Closure) : Outcome Closure :=
  match searchOpening state.delims.opstr state.enabled state.outer state.template state.layout with
  | .inl file =>
    if state.stack = [] then .ended (.ok (state.closure, file))
    else .ended (.error (.status MUSTACH_ERROR_UNEXPECTED_END))
  | .inr (beg, layout) =>
    match searchDelimiter state.delims.clstr (beg.drop state.delims.opstr.length) with
    | none => .ended (.error (.status MUSTACH_ERROR_UNEXPECTED_END))
    | some (content, term) =>
      match readTag flags state.delims.clstr content (term.drop state.delims.clstr.length) with
      | .error rc => .ended (.error (.status rc))
      | .ok (tag, template) =>
        act itf { state with template := template, layout := layout.atTag state.enabled tag.inline } tag

/-- `process`, with fuel. What it gives is the closure and the file. -/
def process (flags : Flags) (itf : Interface Closure) (fuel : Nat) (template : Bytes) (closure : Closure) (file : Bytes)
    (outer : List Bytes) : Option (Except Failure (Closure × Bytes)) :=
  run (turn flags itf) fuel (State.start template closure file outer)

end AppManager.Mustach
