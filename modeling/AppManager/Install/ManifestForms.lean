import AppManager.Install.Manifest

/-! What required permissions declare, in the forms that a manifest can give them, and the
form that they are brought to. -/

namespace AppManager.Install.Manifest
open AppManager.Lib AppManager.Lib.Libc AppManager.Utils

/-- A piece of required permissions: an item by itself, or one under a key. -/
inductive Part where
  | alone (item : Json)
  | under (key : Bytes) (item : Json)

def partsOf : Json → Option (List Part)
  | .string text => some [.alone (.string text)]
  | .array items => some (items.map .alone)
  | .object members => some (members.map fun member => .under member.1 member.2)
  | _ => none

def nullNamed (item : Json) : Bool :=
  match item.get MANIFEST_NAME with
  | some .null => true
  | _ => false

/-- The null name is met: the value of an item is searched before its name is used, but
the name of a member is used before. -/
def Part.nameless : Part → Bool
  | .alone item => nullNamed item && (item.get MANIFEST_VALUE).isSome
  | .under _ item => nullNamed item

def Part.object : Part → Json
  | .alone (.string text) => permission (.string text) (.string MANIFEST_VALUE_REQUIRED)
  | .under key (.string text) => permission (.string (cstr key)) (.string text)
  | .alone item => item
  | .under _ item => item

section
variable (serialize : Json → Bytes)

/-- The name and the value of an object that has both. -/
def described (item : Json) : Option (Bytes × Json) := do
  let name ← item.get MANIFEST_NAME
  let value ← item.get MANIFEST_VALUE
  let text ← name.getString serialize
  some (text, value)

/-- The permission that a part declares and its value. A string alone is the name of a
required permission. A string under a key is the value of the permission of that name. -/
def Part.declares : Part → Option (Bytes × Json)
  | .alone (.string text) => some (cstr text, .string MANIFEST_VALUE_REQUIRED)
  | .under key (.string text) => some (cstr key, .string text)
  | .alone item => described serialize item
  | .under key item => (described serialize item).filter fun declared => declared.1 = cstr key

/-- The value that is declared last for each permission. -/
def denote (input : Json) : Bytes → Option Json :=
  latest (((partsOf input).getD []).filterMap (Part.declares serialize))

/-- The object has the name and the value of a permission. -/
structure Describes (name : Bytes) (value item : Json) : Prop where
  named : ∃ jname, item.get MANIFEST_NAME = some jname ∧ jname.getString serialize = some name
  valued : item.get MANIFEST_VALUE = some value

structure Canonical (out : Json) : Prop where
  object : out.isObject = true
  once : (out.objectMembers.map Prod.fst).Nodup
  each : ∀ member ∈ out.objectMembers, ∃ value, Describes serialize member.1 value member.2

def Part.read (part : Part) : Except Crash (Option (Bytes × Json)) :=
  if part.nameless then .error .nullRead
  else .ok ((part.declares serialize).map fun declared => (declared.1, part.object))

def putMember (json : Json) (member : Bytes × Json) : Json := json.add member.1 member.2

theorem nullNamed_of_get {item jname : Json} (name : item.get MANIFEST_NAME = some jname) :
    nullNamed item = (jname.getString serialize).isNone := by
  rw [nullNamed, name]
  cases jname <;> rfl

theorem described_of_get {item jname jvalue : Json} (name : item.get MANIFEST_NAME = some jname)
    (value : item.get MANIFEST_VALUE = some jvalue) :
    described serialize item = (jname.getString serialize).map (·, jvalue) := by
  simp [described, name, value, Option.map_eq_bind]

theorem described_of_unnamed {item : Json} (name : item.get MANIFEST_NAME = none) :
    described serialize item = none := by
  simp [described, name]

theorem described_of_unvalued {item : Json} (value : item.get MANIFEST_VALUE = none) :
    described serialize item = none := by
  simp [described, value]

theorem Part.read_alone (members : List (Bytes × Json)) : (Part.alone (.object members)).read serialize =
    if nullNamed (.object members) && ((Json.object members).get MANIFEST_VALUE).isSome then .error .nullRead
    else .ok ((described serialize (.object members)).map fun declared => (declared.1, .object members)) := rfl

theorem Part.read_under (key : Bytes) (members : List (Bytes × Json)) :
    (Part.under key (.object members)).read serialize =
      if nullNamed (.object members) then .error .nullRead
      else .ok (((described serialize (.object members)).filter fun declared => declared.1 = cstr key).map
        fun declared => (declared.1, .object members)) := rfl

theorem processArrayPermCb_read (perms item : Json) : processArrayPermCb serialize perms item =
    ((Part.alone item).read serialize).map (answerTo (-EINVAL) putMember perms) := by
  cases item with
  | object members =>
    rw [Part.read_alone]
    unfold processArrayPermCb
    cases name : (Json.object members).get MANIFEST_NAME with
    | none => simp [described_of_unnamed serialize name, nullNamed, name, Except.map, answerTo]
    | some jname =>
      cases value : (Json.object members).get MANIFEST_VALUE with
      | none => simp [described_of_unvalued serialize value, Except.map, answerTo]
      | some jvalue =>
        rw [nullNamed_of_get serialize name, described_of_get serialize name value]
        cases text : jname.getString serialize with
        | none => simp [useString, text, Except.map, bind, Except.bind]
        | some key => simp [useString, text, Except.map, bind, Except.bind, answerTo, putMember]
  | string text =>
    simp [processArrayPermCb, addPermFromString, useString, Json.getString, Part.read, Part.nameless, nullNamed,
      Json.get, Part.declares, Except.map, answerTo, putMember, Part.object, bind, Except.bind]
  | _ => simp [processArrayPermCb, Part.read, Part.nameless, nullNamed, Json.get, Part.declares, described,
      Except.map, answerTo]

theorem processObjectPermCb_read (perms : Json) (member : Bytes × Json) : processObjectPermCb serialize perms member =
    ((Part.under member.1 member.2).read serialize).map (answerTo (-EINVAL) putMember perms) := by
  obtain ⟨key, item⟩ := member
  cases item with
  | object members =>
    rw [Part.read_under]
    unfold processObjectPermCb
    cases name : (Json.object members).get MANIFEST_NAME with
    | none => simp [described_of_unnamed serialize name, nullNamed, name, Except.map, answerTo]
    | some jname =>
      rw [nullNamed_of_get serialize name]
      cases text : jname.getString serialize with
      | none => simp [useString, name, text, Except.map, bind, Except.bind]
      | some given =>
        cases value : (Json.object members).get MANIFEST_VALUE with
        | none => simp [described_of_unvalued serialize value, useString, name, value, text, Except.map, bind,
            Except.bind, answerTo]
        | some jvalue =>
          rw [described_of_get serialize name value, text]
          by_cases same : cstr key = given
          · simp [useString, name, value, text, same, Option.filter, Except.map, bind, Except.bind, answerTo, putMember]
          · simp [useString, name, text, same, Ne.symm same, Option.filter, Except.map, bind, Except.bind, answerTo]
  | string text =>
    simp [processObjectPermCb, Part.read, Part.nameless, nullNamed, Json.get, Part.declares, Except.map, answerTo,
      putMember, Part.object]
  | _ => simp [processObjectPermCb, Part.read, Part.nameless, nullNamed, Json.get, Part.declares, described,
      Except.map, answerTo]

theorem adaptPermissions_of_parts {input : Json} {parts : List Part} (given : partsOf input = some parts) :
    ∃ partly, adaptPermissions serialize input = (readAll (Part.read serialize) parts).map fun members =>
      members.elim (-EINVAL, partly) fun members => (0, .object (Json.gather members)) := by
  have fails : (-EINVAL : Int) ≠ 0 := by decide
  have gathered : ∀ members, List.foldl putMember (.object []) members = .object (Json.gather members) :=
    fun members => Json.foldl_add members []
  cases input with
  | array items =>
    obtain rfl := Option.some.inj given
    obtain ⟨partly, run⟩ := iterateM_of_read fails (processArrayPermCb_read serialize) items (.object [])
    refine ⟨partly, ?_⟩
    simp only [gathered] at run
    rw [readAll_map]
    exact run
  | object members =>
    obtain rfl := Option.some.inj given
    obtain ⟨partly, run⟩ := iterateM_of_read fails (processObjectPermCb_read serialize) members (.object [])
    refine ⟨partly, ?_⟩
    simp only [gathered] at run
    rw [readAll_map]
    exact run
  | string text =>
    obtain rfl := Option.some.inj given
    exact ⟨.null, rfl⟩
  | _ => cases given

theorem adaptPermissions_of_no_parts {input : Json} (given : partsOf input = none) :
    adaptPermissions serialize input = .ok (-EINVAL, .null) := by
  cases input with
  | null => rfl
  | literal text => rfl
  | _ => cases given

section
variable {serialize} {name : Bytes} {value item : Json}

theorem Describes.of_described (given : described serialize item = some (name, value)) :
    Describes serialize name value item := by
  unfold described at given
  obtain ⟨jname, named, rest⟩ := Option.bind_eq_some_iff.mp given
  obtain ⟨jvalue, valued, rest⟩ := Option.bind_eq_some_iff.mp rest
  obtain ⟨text, shown, rest⟩ := Option.bind_eq_some_iff.mp rest
  cases rest
  exact ⟨⟨jname, named, shown⟩, valued⟩

theorem Describes.described (describes : Describes serialize name value item) :
    described serialize item = some (name, value) := by
  obtain ⟨⟨jname, named, shown⟩, valued⟩ := describes
  rw [described_of_get serialize named valued, shown, Option.map_some]

/-- The names are C strings. -/
theorem Describes.clean (describes : Describes serialize name value item) : cstr name = name := by
  obtain ⟨⟨jname, -, shown⟩, -⟩ := describes
  cases jname with
  | null => cases shown
  | _ =>
    cases shown
    exact cstr_of_no_nul _ (cstr_clean _)

theorem describes_permission (jname : Json) (shown : jname.getString serialize = some name) :
    Describes serialize name value (permission jname value) := ⟨⟨jname, rfl, shown⟩, rfl⟩

theorem Part.read_some {part : Part} {member : Bytes × Json} (done : part.read serialize = .ok (some member)) :
    ∃ value, part.declares serialize = some (member.1, value) ∧ Describes serialize member.1 value member.2 := by
  unfold Part.read at done
  split at done
  · cases done
  · rw [Except.ok.injEq, Option.map_eq_some_iff] at done
    obtain ⟨⟨name, value⟩, declared, rfl⟩ := done
    refine ⟨value, declared, ?_⟩
    cases part with
    | alone item =>
      cases item with
      | string text =>
        cases declared
        exact describes_permission _ rfl
      | _ => exact Describes.of_described declared
    | under key item =>
      cases item with
      | string text =>
        cases declared
        exact describes_permission _ (congrArg some (cstr_of_no_nul _ (cstr_clean _)))
      | object members => exact Describes.of_described (Option.filter_eq_some_iff.mp declared).1
      | _ => cases declared

/-- A permission in the last form is kept as it is. -/
theorem Describes.read (describes : Describes serialize name value item) :
    (Part.under name item).read serialize = .ok (some (name, item)) := by
  have declared := describes.described
  have clean := describes.clean
  obtain ⟨⟨jname, named, shown⟩, valued⟩ := describes
  cases item with
  | object members =>
    rw [Part.read_under, nullNamed_of_get serialize named, shown, declared]
    simp [clean, Option.filter]
  | _ => cases named

def valueOf (item : Json) : Json := (item.get MANIFEST_VALUE).getD .null

theorem Describes.valueOf (describes : Describes serialize name value item) : valueOf item = value := by
  rw [Manifest.valueOf, describes.valued, Option.getD_some]

theorem declares_of_read {parts : List Part} {members : List (Bytes × Json)}
    (done : List.Forall₂ (fun part member => part.read serialize = .ok (some member)) parts members) :
    parts.filterMap (Part.declares serialize) = members.map fun member => (member.1, valueOf member.2) := by
  induction done with
  | nil => rfl
  | cons first rest ih =>
    obtain ⟨value, declared, describes⟩ := Part.read_some first
    rw [List.filterMap_cons, declared, List.map_cons, describes.valueOf, ih]

theorem exists_read {parts : List Part} {members : List (Bytes × Json)} {member : Bytes × Json}
    (done : List.Forall₂ (fun part member => part.read serialize = .ok (some member)) parts members)
    (there : member ∈ members) : ∃ part : Part, part.read serialize = .ok (some member) := by
  induction done with
  | nil => cases there
  | cons first rest ih =>
    rcases List.mem_cons.mp there with rfl | later
    · exact ⟨_, first⟩
    · exact ih later

theorem canonical_gather {parts : List Part} {members : List (Bytes × Json)}
    (done : List.Forall₂ (fun part member => part.read serialize = .ok (some member)) parts members) :
    Canonical serialize (.object (Json.gather members)) where
  object := rfl
  once := Json.nodup_gather members
  each member there := by
    obtain ⟨part, read⟩ := exists_read done (Json.mem_gather there)
    obtain ⟨value, -, describes⟩ := Part.read_some read
    exact ⟨value, describes⟩

theorem Canonical.read {members : List (Bytes × Json)} (canonical : Canonical serialize (.object members)) :
    List.Forall₂ (fun (part : Part) member => part.read serialize = .ok (some member))
      (members.map fun member => Part.under member.1 member.2) members := by
  rw [List.forall₂_map_left_iff, List.forall₂_same]
  intro member there
  obtain ⟨value, describes⟩ := canonical.each member there
  exact describes.read

theorem Canonical.gather {members : List (Bytes × Json)} (canonical : Canonical serialize (.object members)) :
    Json.gather members = members := Json.gather_of_nodup canonical.once

theorem Canonical.denote {out : Json} (canonical : Canonical serialize out) (name : Bytes) :
    denote serialize out name = (out.get name).map valueOf := by
  cases out with
  | object members =>
    change latest ((members.map fun member => Part.under member.1 member.2).filterMap _) name = _
    rw [declares_of_read canonical.read, latest_map, ← Json.get_gather, canonical.gather]
  | _ => cases canonical.object

/-- The form is reached in one time. -/
theorem Canonical.adaptPermissions {out : Json} (canonical : Canonical serialize out) :
    adaptPermissions serialize out = .ok (0, out) := by
  cases out with
  | object members =>
    have given : partsOf (.object members) = some (members.map fun member => .under member.1 member.2) := rfl
    obtain ⟨partly, run⟩ := adaptPermissions_of_parts serialize given
    rw [run, readAll_some.mpr canonical.read]
    change Except.ok (0, Json.object (Json.gather members)) = _
    rw [canonical.gather]
  | _ => cases canonical.object

theorem adaptPermissions_done {input out : Json} {rc : Int}
    (done : adaptPermissions serialize input = .ok (rc, out)) (success : 0 ≤ rc) :
    rc = 0 ∧ Canonical serialize out ∧ denote serialize out = denote serialize input := by
  cases given : partsOf input with
  | none =>
    rw [adaptPermissions_of_no_parts serialize given] at done
    cases done
    exact absurd success (by decide)
  | some parts =>
    obtain ⟨partly, run⟩ := adaptPermissions_of_parts serialize given
    rw [run] at done
    cases read : readAll (Part.read serialize) parts with
    | error fault =>
      rw [read] at done
      cases done
    | ok answer =>
      rw [read] at done
      cases answer with
      | none =>
        cases done
        exact absurd success (by decide)
      | some members =>
        cases done
        have each := readAll_some.mp read
        have canonical := canonical_gather each
        refine ⟨rfl, canonical, funext fun name => ?_⟩
        rw [canonical.denote, Json.get_gather, Manifest.denote, given, Option.getD_some, declares_of_read each,
          latest_map]

end

end
end AppManager.Install.Manifest
