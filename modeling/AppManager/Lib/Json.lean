import AppManager.Lib.Bytes

/-! JSON values as `json-c` gives them to C code. The pointer of a null value is
`NULL`, the string of a value that is not a string is the text of that value, and
the iterations do nothing on values of another type than the one they expect. -/

namespace AppManager.Lib

inductive Json where
  | null
  | literal (text : Bytes)
  | string (text : Bytes)
  | array (items : List Json)
  | object (members : List (Bytes × Json))

namespace Json

def isString : Json → Bool
  | .string _ => true
  | _ => false

def isNull : Json → Bool
  | .null => true
  | _ => false

@[simp] theorem isNull_iff (json : Json) : json.isNull = true ↔ json = .null := by
  cases json <;> simp [isNull]

def isObject : Json → Bool
  | .object _ => true
  | _ => false

/-- `json_object_object_get_ex`, `none` when there is no such key. -/
def get (key : Bytes) : Json → Option Json
  | .object members => (members.find? (fun member => member.1 = key)).map Prod.snd
  | _ => none

/-- `json_object_get_string`. The text of an array or of an object is made by the
given serializer. -/
def getString (serialize : Json → Bytes) : Json → Option Bytes
  | .null => none
  | .literal text => some (cstr text)
  | .string text => some (cstr text)
  | .array items => some (cstr (serialize (.array items)))
  | .object members => some (cstr (serialize (.object members)))

/-- The items met by `rp_jsonc_array_for_all`. -/
def arrayItems : Json → List Json
  | .array items => items
  | _ => []

/-- The items met by `rp_jsonc_optarray_for_all`. -/
def optarrayItems : Json → List Json
  | .array items => items
  | item => [item]

/-- The members met by `rp_jsonc_object_for_all`. -/
def objectMembers : Json → List (Bytes × Json)
  | .object members => members
  | _ => []

def setMember (key : Bytes) (value : Json) : List (Bytes × Json) → List (Bytes × Json)
  | [] => [(key, value)]
  | member :: rest =>
    if member.1 = key then (key, value) :: rest else member :: setMember key value rest

/-- `json_object_object_add`, which keeps the place of a key that is already there. -/
def add (json : Json) (key : Bytes) (value : Json) : Json :=
  match json with
  | .object members => .object (setMember key value members)
  | other => other

def itemsAt (key : Bytes) (json : Json) : List Json := ((json.get key).map arrayItems).getD []

def membersAt (key : Bytes) (json : Json) : List (Bytes × Json) :=
  ((json.get key).map objectMembers).getD []

/-- The values that are in a value, itself one of them. -/
inductive Within (root : Json) : Json → Prop
  | root : Within root root
  | item {json item : Json} (inside : Within root json) (member : item ∈ json.arrayItems) : Within root item
  | member {json item : Json} {key : Bytes} (inside : Within root json) (found : json.get key = some item) :
    Within root item

theorem getString_eq_none (serialize : Json → Bytes) (json : Json) :
    json.getString serialize = none ↔ json = .null := by
  cases json <;> simp [getString]

theorem find_setMember (key other : Bytes) (value : Json) (members : List (Bytes × Json)) :
    ((setMember key value members).find? (fun member => member.1 = other)).map Prod.snd =
      if other = key then some value
      else (members.find? (fun member => member.1 = other)).map Prod.snd := by
  induction members with
  | nil =>
    by_cases same : other = key
    · simp [setMember, same]
    · simp [setMember, same, Ne.symm same]
  | cons member rest ih =>
    unfold setMember
    by_cases here : member.1 = key
    · by_cases same : other = key
      · simp [here, same]
      · simp [here, same, Ne.symm same]
    · rw [if_neg here]
      by_cases found : member.1 = other
      · rw [← found, if_neg here]
        simp
      · simp only [List.find?_cons, found, decide_false]
        exact ih

/-- Adding a member changes that one only. -/
theorem get_add (json : Json) (key other : Bytes) (value : Json) (differs : other ≠ key) :
    (json.add key value).get other = json.get other := by
  cases json with
  | object members =>
    change ((setMember key value members).find? (fun member => member.1 = other)).map Prod.snd = _
    rw [find_setMember, if_neg differs]
    rfl
  | _ => rfl

/-- What is added to an object is found in it. -/
theorem get_add_same (json : Json) (key : Bytes) (value : Json) (object : json.isObject = true) :
    (json.add key value).get key = some value := by
  cases json with
  | object members =>
    change ((setMember key value members).find? (fun member => member.1 = key)).map Prod.snd = _
    rw [find_setMember, if_pos rfl]
  | _ => cases object

theorem isObject_add (json : Json) (key : Bytes) (value : Json) : (json.add key value).isObject = json.isObject := by
  cases json <;> rfl

theorem isObject_of_get {json value : Json} {key : Bytes} (found : json.get key = some value) :
    json.isObject = true := by
  cases json with
  | object members => rfl
  | _ => cases found

theorem itemsAt_add (json : Json) (key other : Bytes) (value : Json) (differs : other ≠ key) :
    (json.add key value).itemsAt other = json.itemsAt other := by
  unfold itemsAt
  rw [get_add json key other value differs]

end Json
end AppManager.Lib
