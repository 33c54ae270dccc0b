import AppManager.Lib.Unescape
import AppManager.Units.ManageAfid
import AppManager.Units.UnitProcess

/-! The keys of the tags of the template of units: components, then perhaps values for a test.
They are decoded in the memory of the tag, in a dotted form or in the form of a JSON pointer. -/

namespace AppManager.Units
open AppManager.Lib

def tilde : Byte := '~'.toUInt8
def pipe : Byte := '|'.toUInt8

def separator (isptr : Bool) : Byte := if isptr then '/'.toUInt8 else '.'.toUInt8

/-- Two backslashes are not replaced: they are for `first`. -/
def keyvalPair (isptr : Bool) (byte ahead : Byte) : Option Bytes :=
  if isptr then if byte = tilde ∧ ahead = equalSign then some [equalSign] else none
  else if byte = backslash ∧ ahead = backslash then some [backslash, backslash]
  else if byte = backslash ∧ ahead = equalSign then some [equalSign]
  else none

def firstPair (isptr : Bool) (byte ahead : Byte) : Option Bytes :=
  if isptr then
    if byte = tilde ∧ ahead = '1'.toUInt8 then some [separator true]
    else if byte = tilde ∧ ahead = '0'.toUInt8 then some [tilde]
    else none
  else if byte = backslash ∧ (ahead = separator false ∨ ahead = backslash) then some [ahead]
  else none

def valuePair (byte ahead : Byte) : Option Bytes :=
  if byte = backslash ∧ (ahead = pipe ∨ ahead = backslash) then some [ahead] else none

def keyvalEscapes (isptr : Bool) : Escapes where
  stop := equalSign
  pair := keyvalPair isptr
  stop_clean := by decide
  pair_clean := by
    intro byte ahead bytes found
    unfold keyvalPair at found
    split_ifs at found with _ same same same <;> cases found <;> rw [same.2] <;> decide
  pair_short := by
    intro byte ahead bytes found
    unfold keyvalPair at found
    split_ifs at found <;> cases found <;> decide

def firstEscapes (isptr : Bool) : Escapes where
  stop := separator isptr
  pair := firstPair isptr
  stop_clean := by cases isptr <;> decide
  pair_clean := by
    intro byte ahead bytes found
    unfold firstPair at found
    split_ifs at found with _ same same same <;> cases found
    · rw [same.2]
      decide
    · rw [same.2]
      decide
    · rcases same.2 with ahead | ahead <;> rw [ahead] <;> decide
  pair_short := by
    intro byte ahead bytes found
    unfold firstPair at found
    split_ifs at found <;> cases found <;> exact Nat.succ_le_succ (Nat.zero_le 1)

def valueEscapes : Escapes where
  stop := pipe
  pair := valuePair
  stop_clean := by decide
  pair_clean := by
    intro byte ahead bytes found
    unfold valuePair at found
    split_ifs at found with same
    cases found
    rcases same.2 with ahead | ahead <;> rw [ahead] <;> decide
  pair_short := by
    intro byte ahead bytes found
    unfold valuePair at found
    split_ifs at found
    cases found
    exact Nat.succ_le_succ (Nat.zero_le 1)

/-- The place of the value, or `none` for `NULL`, and the memory. -/
def keyval (cells : Bytes) (read : Nat) (isptr : Bool) : Option (Option Nat × Bytes) :=
  ((keyvalEscapes isptr).decodeInPlace cells read).map fun (c, next, cells) =>
    (if c = equalSign then some next else none, cells)

/-- The place of a decoded field, or `none` for `NULL`, the place of the next one, and the memory. -/
def component (escapes : Escapes) (cells : Bytes) (name : Nat) : Option (Option Nat × Nat × Bytes) :=
  cells[name]?.bind fun c =>
    if c = 0 then some (none, name, cells)
    else (escapes.decodeInPlace cells name).map fun (c, next, cells) =>
      (some name, if c = 0 then next - 1 else next, cells)

def first (cells : Bytes) (name : Nat) (isptr : Bool) : Option (Option Nat × Nat × Bytes) :=
  component (firstEscapes isptr) cells name

def value (cells : Bytes) (val : Nat) : Option (Option Nat × Nat × Bytes) := component valueEscapes cells val

/-- The strings that successive calls return, up to the one that returns `NULL`. -/
def successive (call : Bytes → Nat → Option (Option Nat × Nat × Bytes)) : Nat → Bytes → Nat → Option (List Bytes)
  | 0, _, _ => none
  | fuel + 1, cells, name => (call cells name).bind fun (found, name, cells) =>
    match found with
    | none => some []
    | some place => (successive call fuel cells name).map fun later => cstr (cells.drop place) :: later

def escapeByte (isptr : Bool) (byte : Byte) : Bytes :=
  if isptr then
    if byte = tilde then [tilde, '0'.toUInt8]
    else if byte = separator true then [tilde, '1'.toUInt8]
    else if byte = equalSign then [tilde, equalSign]
    else [byte]
  else if byte = backslash ∨ byte = separator false ∨ byte = equalSign then [backslash, byte]
  else [byte]

def escapeValueByte (byte : Byte) : Bytes := if byte = backslash ∨ byte = pipe then [backslash, byte] else [byte]

def encodeKey (isptr : Bool) (components : List Bytes) (val : Option Bytes) : Bytes :=
  [separator isptr].intercalate (components.map (·.flatMap (escapeByte isptr))) ++ val.elim [] (equalSign :: ·)

def encodeValues (values : List Bytes) : Bytes := [pipe].intercalate (values.map (·.flatMap escapeValueByte))

theorem keyval_spec (isptr : Bool) {cells text : Bytes} {read : Nat} (stands : StringAt cells read text) :
    ∃ next cells', keyval cells read isptr = some (((keyvalEscapes isptr).split text).2.map fun _ => next, cells') ∧
      StringAt cells' read ((keyvalEscapes isptr).split text).1 ∧
      ∀ val ∈ ((keyvalEscapes isptr).split text).2,
        StringAt cells' next val ∧ read + ((keyvalEscapes isptr).split text).1.length < next := by
  obtain ⟨next, cells', run, decoded⟩ := (keyvalEscapes isptr).decodeInPlace_spec stands
  have later := decoded.later
  have below := decoded.below
  unfold keyval
  rw [run]
  cases ended : ((keyvalEscapes isptr).split text).2 with
  | none => exact ⟨next, cells', rfl, decoded.field, by simp⟩
  | some rest =>
    refine ⟨next, cells', rfl, decoded.field, fun val member => ?_⟩
    cases member
    rw [ended] at later below
    exact ⟨later, below⟩

theorem component_nil (escapes : Escapes) {cells : Bytes} {name : Nat} (stands : StringAt cells name []) :
    component escapes cells name = some (none, name, cells) := by
  rw [component, stands.peek]
  rfl

theorem component_spec (escapes : Escapes) {cells text : Bytes} {name : Nat} (stands : StringAt cells name text)
    (some : text ≠ []) :
    ∃ name' cells', component escapes cells name = .some (.some name, name', cells') ∧
      escapes.Decoded cells cells' name name' text := by
  obtain ⟨next, cells', run, decoded⟩ := escapes.decodeInPlace_spec stands
  cases text with
  | nil => exact absurd rfl some
  | cons c rest =>
    have differs : c ≠ 0 := fun zero => stands.1 (zero ▸ List.mem_cons_self)
    unfold component
    rw [stands.peek, List.head?_cons, Option.getD_some, Option.bind_some, if_neg differs, run]
    refine ⟨_, cells', ?_, decoded⟩
    cases ended : (escapes.split (c :: rest)).2 with
    | none => rfl
    | some more => exact congrArg Option.some (by simp [escapes.stop_clean])

theorem successive_spec (escapes : Escapes) (fuel : Nat) {cells text : Bytes} {name : Nat}
    (stands : StringAt cells name text) (enough : (escapes.fields text).length < fuel) :
    successive (component escapes) fuel cells name = some (escapes.fields text) := by
  induction fuel generalizing cells text name with
  | zero => exact absurd enough (Nat.not_lt_zero _)
  | succ fuel ih =>
    by_cases empty : text = []
    · rw [empty] at stands ⊢
      rw [successive, component_nil escapes stands, Escapes.fields_nil]
      rfl
    obtain ⟨name', cells', run, decoded⟩ := component_spec escapes stands empty
    rw [escapes.fields_eq empty, List.length_cons] at enough
    rw [successive, run, Option.bind_some, escapes.fields_eq empty]
    change (successive (component escapes) fuel cells' name').map _ = _
    rw [ih decoded.later (by omega), Option.map_some, decoded.field.read]

/-- A written byte, with the equal sign as `keyval` leaves it. -/
def halfByte (isptr : Bool) (byte : Byte) : Bytes := if byte = equalSign then [equalSign] else escapeByte isptr byte

theorem keyval_plain (isptr : Bool) {byte : Byte} (sign : byte ≠ equalSign)
    (plain : byte ≠ if isptr then tilde else backslash) : (keyvalEscapes isptr).Decodes [byte] [byte] := by
  refine Escapes.Decodes.plain sign fun ahead => ?_
  cases isptr with
  | true => exact if_neg fun pair => plain pair.1
  | false => exact (if_neg fun pair => plain pair.1).trans (if_neg fun pair => plain pair.1)

theorem first_plain (isptr : Bool) {byte : Byte} (apart : byte ≠ separator isptr)
    (plain : byte ≠ if isptr then tilde else backslash) : (firstEscapes isptr).Decodes [byte] [byte] := by
  refine Escapes.Decodes.plain apart fun ahead => ?_
  cases isptr with
  | true => exact (if_neg fun pair => plain pair.1).trans (if_neg fun pair => plain pair.1)
  | false => exact if_neg fun pair => plain pair.1

theorem keyval_left (isptr : Bool) (ahead : Byte) (sign : ahead ≠ equalSign)
    (plain : ahead ≠ if isptr then tilde else backslash) :
    (keyvalEscapes isptr).Decodes [if isptr then tilde else backslash, ahead]
      [if isptr then tilde else backslash, ahead] := by
  apply Escapes.Decodes.apart _ _ (keyval_plain isptr sign plain)
  · cases isptr <;> decide
  · cases isptr with
    | true => exact if_neg fun pair => sign pair.2
    | false => exact (if_neg fun pair => plain pair.2).trans (if_neg fun pair => sign pair.2)

theorem escapeByte_decodes (isptr : Bool) (byte : Byte) :
    (keyvalEscapes isptr).Decodes (escapeByte isptr byte) (halfByte isptr byte) := by
  by_cases sign : byte = equalSign
  · -- The equal sign is decoded here.
    rw [sign, halfByte, if_pos rfl]
    cases isptr with
    | true => exact Escapes.Decodes.pair (by decide) rfl
    | false => exact Escapes.Decodes.pair (by decide) rfl
  rw [halfByte, if_neg sign]
  cases isptr with
  | true =>
    by_cases isTilde : byte = tilde
    · rw [isTilde]
      exact keyval_left true '0'.toUInt8 (by decide) (by decide)
    by_cases isSeparator : byte = separator true
    · rw [isSeparator]
      exact keyval_left true '1'.toUInt8 (by decide) (by decide)
    have written : escapeByte true byte = [byte] := by
      rw [escapeByte, if_pos rfl, if_neg isTilde, if_neg isSeparator, if_neg sign]
    rw [written]
    exact keyval_plain true sign isTilde
  | false =>
    by_cases isBackslash : byte = backslash
    · rw [isBackslash]
      exact Escapes.Decodes.pair (by decide) rfl
    by_cases isSeparator : byte = separator false
    · rw [isSeparator]
      exact keyval_left false (separator false) (by decide) (by decide)
    have written : escapeByte false byte = [byte] :=
      if_neg (not_or.mpr ⟨isBackslash, not_or.mpr ⟨isSeparator, sign⟩⟩)
    rw [written]
    exact keyval_plain false sign isBackslash

theorem halfByte_decodes (isptr : Bool) (byte : Byte) : (firstEscapes isptr).Decodes (halfByte isptr byte) [byte] := by
  by_cases sign : byte = equalSign
  · rw [sign, halfByte, if_pos rfl]
    exact first_plain isptr (by cases isptr <;> decide) (by cases isptr <;> decide)
  rw [halfByte, if_neg sign]
  cases isptr with
  | true =>
    by_cases isTilde : byte = tilde
    · rw [isTilde]
      exact Escapes.Decodes.pair (by decide) rfl
    by_cases isSeparator : byte = separator true
    · rw [isSeparator]
      exact Escapes.Decodes.pair (by decide) rfl
    have written : escapeByte true byte = [byte] := by
      rw [escapeByte, if_pos rfl, if_neg isTilde, if_neg isSeparator, if_neg sign]
    rw [written]
    exact first_plain true isSeparator isTilde
  | false =>
    by_cases isBackslash : byte = backslash
    · rw [isBackslash]
      exact Escapes.Decodes.pair (by decide) rfl
    by_cases isSeparator : byte = separator false
    · rw [isSeparator]
      exact Escapes.Decodes.pair (by decide) rfl
    have written : escapeByte false byte = [byte] :=
      if_neg (not_or.mpr ⟨isBackslash, not_or.mpr ⟨isSeparator, sign⟩⟩)
    rw [written]
    exact first_plain false isSeparator isBackslash

theorem escapeValueByte_decodes (byte : Byte) : valueEscapes.Decodes (escapeValueByte byte) [byte] := by
  unfold escapeValueByte
  split_ifs with special
  · apply Escapes.Decodes.pair
    · decide
    · exact if_pos ⟨rfl, special.symm⟩
  · obtain ⟨plain, other⟩ := not_or.mp special
    exact Escapes.Decodes.plain other fun ahead => if_neg fun pair => plain pair.1

theorem keyval_encodeKey (isptr : Bool) (components : List Bytes) (val : Option Bytes) :
    (keyvalEscapes isptr).split (encodeKey isptr components val) =
      ([separator isptr].intercalate (components.map (·.flatMap (halfByte isptr))), val) := by
  have key : (keyvalEscapes isptr).Decodes
      ([separator isptr].intercalate (components.map (·.flatMap (escapeByte isptr))))
      ([separator isptr].intercalate (components.map (·.flatMap (halfByte isptr)))) := by
    apply Escapes.Decodes.join
    · exact keyval_plain isptr (by cases isptr <;> decide) (by cases isptr <;> decide)
    · exact Escapes.Decodes.flatMap (escapeByte_decodes isptr)
  rw [encodeKey]
  cases val with
  | none =>
    rw [Option.elim_none, List.append_nil]
    exact key.split_all
  | some val => exact key.split_stopped val

theorem first_decodes (isptr : Bool) (text : Bytes) :
    (firstEscapes isptr).Decodes (text.flatMap (halfByte isptr)) text := by
  have decodes := Escapes.Decodes.flatMap (halfByte_decodes isptr) text
  rwa [List.flatMap_singleton'] at decodes

theorem value_decodes (text : Bytes) : valueEscapes.Decodes (text.flatMap escapeValueByte) text := by
  have decodes := Escapes.Decodes.flatMap escapeValueByte_decodes text
  rwa [List.flatMap_singleton'] at decodes

/-- The value and the components of a key, and the values of a test, are read back as they were before they were
written. -/
theorem key_round_trip (isptr : Bool) (components : List Bytes) (val : Option Bytes) (values : List Bytes)
    (last : ∀ text ∈ components.getLast?, text ≠ []) (full : ∀ text ∈ values, text ≠ [])
    {cells cells' : Bytes} {name place : Nat} (key : StringAt cells name (encodeKey isptr components val))
    (test : StringAt cells' place (encodeValues values)) :
    (∃ found later, keyval cells name isptr = some (found, later) ∧
      found.map (fun place => cstr (later.drop place)) = val ∧
      successive (first · · isptr) (components.length + 1) later name = some components) ∧
    successive value (values.length + 1) cells' place = some values := by
  constructor
  · obtain ⟨next, later, run, left, text⟩ := keyval_spec isptr key
    rw [keyval_encodeKey] at run left text
    have fields : (firstEscapes isptr).fields
        ([separator isptr].intercalate (components.map (·.flatMap (halfByte isptr)))) = components :=
      Escapes.fields_join (first_decodes isptr) components last
    have calls := successive_spec (firstEscapes isptr) (components.length + 1) left
    rw [fields] at calls
    refine ⟨_, later, run, ?_, calls (Nat.lt_succ_self _)⟩
    cases val with
    | none => rfl
    | some val => exact congrArg some (text val rfl).1.read
  · have fields : valueEscapes.fields (encodeValues values) = values :=
      Escapes.fields_join value_decodes values fun text member => full text (List.mem_of_getLast? member)
    have calls := successive_spec valueEscapes (values.length + 1) test
    rw [fields] at calls
    exact calls (Nat.lt_succ_self _)

/-- A key whose components have all the bytes that are escaped. -/
theorem key_round_trip_sample :
    (∃ found later, keyval (encodeKey true [ascii "a.b/=~", ascii "", ascii "\\="] (some (ascii "x\\|y")) ++ [0]) 0
        true = some (found, later) ∧
      found.map (fun place => cstr (later.drop place)) = some (ascii "x\\|y") ∧
      successive (first · · true) 4 later 0 = some [ascii "a.b/=~", ascii "", ascii "\\="]) ∧
    successive value 3 (encodeValues [ascii "x|", ascii "\\y"] ++ [0]) 0 = some [ascii "x|", ascii "\\y"] := by
  apply key_round_trip true [ascii "a.b/=~", ascii "", ascii "\\="] (some (ascii "x\\|y"))
    [ascii "x|", ascii "\\y"]
  · decide
  · decide
  · exact stringAt_append [] [] _ (by decide) rfl
  · exact stringAt_append [] [] _ (by decide) rfl

end AppManager.Units
