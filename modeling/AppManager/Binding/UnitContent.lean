import AppManager.Lib.Decimal
import AppManager.Lib.Json
import AppManager.Units.ManageAfid

/-! The unit files as the binding reads them: without comments and empty lines, with
continued lines joined, and then the fields of their lines that start with `X-AFM-`. -/

namespace AppManager.Binding
open AppManager.Lib AppManager.Lib.Libc AppManager.Units

def carriage : Byte := 13

/-- The states of `crop_and_trim_unit_content`, in its order. -/
inductive Cropping where
  | begin
  | line
  | escaped
  | comment
  deriving DecidableEq, Repr

def startsComment (byte : Byte) : Bool := byte == ';'.toUInt8 || byte == '#'.toUInt8

def cropFrom : Cropping → Bytes → Bytes
  | state, [] => if state = .line then [newline] else []
  | state, byte :: rest =>
    if byte = carriage then cropFrom state rest
    else if state = .comment then cropFrom (if byte = newline then .begin else .comment) rest
    else if state = .begin ∧ startsComment byte then cropFrom .comment rest
    else if state = .begin ∧ byte = newline then cropFrom .begin rest
    else if state = .escaped ∧ byte = newline then 32 :: cropFrom .line rest
    else
      (if state = .escaped then [backslash] else []) ++
        if byte = backslash then cropFrom .escaped rest
        else byte :: cropFrom (if byte = newline then .begin else .line) rest

def cropAndTrimUnitContent (content : Bytes) : Bytes := cropFrom .begin (cstr content)

/-- The value that starts a text, and the text after its line. -/
def decodeValue : Bytes → Bytes × Bytes
  | [] => ([], [])
  | [byte] => if byte = newline then ([], []) else ([byte], [])
  | byte :: next :: rest =>
    if byte = newline then ([], next :: rest)
    else if byte ≠ backslash then (byte :: (decodeValue (next :: rest)).1, (decodeValue (next :: rest)).2)
    else if next = 'n'.toUInt8 then (newline :: (decodeValue rest).1, (decodeValue rest).2)
    else if next = newline then (32 :: (decodeValue rest).1, (decodeValue rest).2)
    else (backslash :: next :: (decodeValue rest).1, (decodeValue rest).2)

structure Field where
  name : Bytes
  value : Bytes
  deriving DecidableEq, Repr

/-- The loop of `add_fields_of_content`: the fields that it adds, in order. -/
def fieldsFrom : Nat → Bytes → List Field
  | 0, _ => []
  | fuel + 1, text =>
    match strstr keyAfmPrefix text with
    | none => []
    | some found =>
      let name := found.drop keyAfmPrefix.length
      if equalSign ∈ name then
        let decoded := decodeValue (name.dropWhile (· != equalSign)).tail
        ⟨name.takeWhile (· != equalSign), decoded.1⟩ :: fieldsFrom fuel decoded.2
      else fieldsFrom fuel name

/-- Each turn goes on after the prefix that it found. -/
def fieldsOf (text : Bytes) : List Field := fieldsFrom (text.length + 1) text

def appendField (object : Json) (name : Bytes) (data : Json) : Json :=
  match object.get name with
  | none => object.add name data
  | some (.array items) => object.add name (.array (items ++ [data]))
  | some item => object.add name (.array [item, data])

def spells (text : Bytes) : Option Int :=
  if text ≠ [] ∧ (strtol text).rest = [] ∧ !(strtol text).erange then some (strtol text).value else none

def valueOf (text : Bytes) : Json :=
  match spells text with
  | some value => .literal (decimalText value)
  | none => .string text

/-- The private and the public data of an application. -/
structure Records where
  priv : Json
  pub : Json

def addField (records : Records) (field : Field) : Records :=
  if field.name.head? = some dash then
    { records with priv := appendField records.priv field.name.tail (valueOf field.value) }
  else ⟨appendField records.priv field.name (valueOf field.value),
    appendField records.pub field.name (valueOf field.value)⟩

def addFieldsOfContent (records : Records) (content : Bytes) : Records := (fieldsOf content).foldl addField records

theorem decodeValue_suffix (text : Bytes) : (decodeValue text).2 <:+ text := by
  fun_induction decodeValue text with
  | case1 => exact List.nil_suffix
  | case2 => exact List.nil_suffix
  | case3 => exact List.nil_suffix
  | case4 next rest => exact List.suffix_cons _ _
  | case5 byte next rest other normal ih => exact ih.trans (List.suffix_cons _ _)
  | case6 byte rest other escape ih => exact (ih.trans (List.suffix_cons _ _)).trans (List.suffix_cons _ _)
  | case7 byte rest other escape letter ih => exact (ih.trans (List.suffix_cons _ _)).trans (List.suffix_cons _ _)
  | case8 byte next rest other escape letter unbroken ih =>
    exact (ih.trans (List.suffix_cons _ _)).trans (List.suffix_cons _ _)

theorem after_equal_length (name : Bytes) : (decodeValue (name.dropWhile (· != equalSign)).tail).2.length ≤
    name.length := by
  have decoded := (decodeValue_suffix (name.dropWhile (· != equalSign)).tail).length_le
  have dropped := (List.dropWhile_sublist (l := name) (· != equalSign)).length_le
  rw [List.length_tail] at decoded
  omega

theorem fieldsFrom_fuel (fuel more : Nat) (text : Bytes) (enough : text.length < fuel) (enough' : text.length < more) :
    fieldsFrom fuel text = fieldsFrom more text := by
  induction fuel generalizing more text with
  | zero => omega
  | succ fuel ih =>
    cases more with
    | zero => omega
    | succ more =>
      rw [fieldsFrom, fieldsFrom]
      cases found : strstr keyAfmPrefix text with
      | none => rfl
      | some rest =>
        have shorter := strstr_length _ _ _ found
        have starts := (strstr_some _ _ _ found).1.length_le
        have size : keyAfmPrefix.length = 6 := rfl
        have after := after_equal_length (rest.drop keyAfmPrefix.length)
        rw [List.length_drop] at after
        have plain := ih more (rest.drop keyAfmPrefix.length) (by rw [List.length_drop]; omega)
          (by rw [List.length_drop]; omega)
        have decoded := ih more _ (show (decodeValue ((rest.drop keyAfmPrefix.length).dropWhile
          (· != equalSign)).tail).2.length < fuel by omega) (by omega)
        simp only [plain, decoded]

theorem fieldsOf_eq (text : Bytes) : fieldsOf text =
    match strstr keyAfmPrefix text with
    | none => []
    | some found =>
      let name := found.drop keyAfmPrefix.length
      if equalSign ∈ name then
        let decoded := decodeValue (name.dropWhile (· != equalSign)).tail
        ⟨name.takeWhile (· != equalSign), decoded.1⟩ :: fieldsOf decoded.2
      else fieldsOf name := by
  rw [fieldsOf, fieldsFrom]
  cases found : strstr keyAfmPrefix text with
  | none => rfl
  | some rest =>
    have shorter := strstr_length _ _ _ found
    have starts := (strstr_some _ _ _ found).1.length_le
    have size : keyAfmPrefix.length = 6 := rfl
    have after := after_equal_length (rest.drop keyAfmPrefix.length)
    rw [List.length_drop] at after
    have plain := fieldsFrom_fuel text.length ((rest.drop keyAfmPrefix.length).length + 1)
      (rest.drop keyAfmPrefix.length) (by rw [List.length_drop]; omega) (by omega)
    have decoded := fieldsFrom_fuel text.length _ (decodeValue ((rest.drop keyAfmPrefix.length).dropWhile
      (· != equalSign)).tail).2 (by omega) (Nat.lt_succ_self _)
    simp only [plain, decoded, fieldsOf]

end AppManager.Binding
