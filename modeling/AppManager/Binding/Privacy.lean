import AppManager.Binding.SharedValues
import AppManager.Utils.PathType
import Mathlib.Data.List.Forall2
import Mathlib.Data.List.ReduceOption

/-! The records of the applications: what is public of them does not depend on the fields
whose name starts with a dash. -/

namespace AppManager.Binding
open AppManager.Lib AppManager.Lib.Libc AppManager.Units

def keyUnitPath : Bytes := ascii "-unit-path"
def keyUnitName : Bytes := ascii "-unit-name"
def keyUnitScope : Bytes := ascii "-unit-scope"
def keyId : Bytes := ascii "id"
def keyVisibility : Bytes := ascii "visibility"
def valueVisible : Bytes := ascii "visible"

/-- `struct afm_apps`, for one of the two kinds of data. -/
structure AppLists where
  visibles : List Json
  all : List Json
  byname : Json

structure AfmApps where
  privates : AppLists
  publics : AppLists

def AppLists.init : AppLists := ⟨[], [], .object []⟩

def AfmApps.init : AfmApps := ⟨.init, .init⟩

/-- What `update_cb` gives to `addunit`. -/
structure UnitFile where
  isuser : Bool
  unitpath : Bytes
  unitname : Bytes
  content : Bytes

namespace UnitFile

/-- The fields of the content and those of the unit. -/
def fields (unit : UnitFile) : List Field :=
  fieldsOf unit.content ++ [⟨keyUnitPath, unit.unitpath⟩, ⟨keyUnitName, unit.unitname⟩,
    ⟨keyUnitScope, ascii (if unit.isuser then "user" else "system")⟩]

def records (unit : UnitFile) : Records := (Heap.addFields unit.fields).records

end UnitFile

section
variable (serialize : Json → Bytes)

/-- The string of a member, none of which is null. -/
def stringOf (json : Json) : Bytes := (json.getString serialize).getD []

/-- `strcasecmp` with `visible`. -/
def isVisible (priv : Json) : Bool :=
  (priv.get keyVisibility).any fun visi =>
    (stringOf serialize visi).map Utils.toLower = valueVisible.map Utils.toLower

def record (lists : AppLists) (strid : Bytes) (data : Json) (visible : Bool) : AppLists where
  visibles := if visible then lists.visibles ++ [data] else lists.visibles
  all := lists.all ++ [data]
  byname := lists.byname.add strid data

def addunit (apps : AfmApps) (unit : UnitFile) : Int × AfmApps :=
  match unit.records.pub.get keyId with
  | none => (-1, apps)
  | some id =>
    let visible := isVisible serialize unit.records.priv
    (0, ⟨record apps.privates (stringOf serialize id) unit.records.priv visible,
      record apps.publics (stringOf serialize id) unit.records.pub visible⟩)

def scanUnits (units : List UnitFile) : AfmApps := units.foldl (fun apps unit => (addunit serialize apps unit).2) .init

end

def isPublic (field : Field) : Bool := decide (field.name.head? ≠ some dash)

def shape : List Json → Option Json
  | [] => none
  | [value] => some value
  | values => some (.array values)

def valuesAt (fields : List Field) (key : Bytes) : List Json :=
  (fields.filter fun field => decide (keyOf field.name = key)).map fun field => valueOf field.value

theorem valuesAt_concat (fields : List Field) (field : Field) (key : Bytes) :
    valuesAt (fields ++ [field]) key =
      valuesAt fields key ++ if keyOf field.name = key then [valueOf field.value] else [] := by
  rw [valuesAt, List.filter_append, List.map_append]
  split_ifs with same
  · rw [List.filter_singleton, decide_eq_true same]
    rfl
  · rw [List.filter_singleton, decide_eq_false same]
    rfl

theorem valuesAt_single (fields : List Field) (key : Bytes) : ∀ value ∈ valuesAt fields key, Single value := by
  intro value member
  obtain ⟨field, -, same⟩ := List.mem_map.mp member
  exact same ▸ valueOf_single field.value

def publicValues (fields : List Field) (key : Bytes) : List Json :=
  (fields.filter fun field => isPublic field && decide (field.name = key)).map fun field => valueOf field.value

theorem keyOf_public {field : Field} (visible : isPublic field = true) : keyOf field.name = field.name :=
  if_neg (of_decide_eq_true visible)

theorem valuesAt_public (fields : List Field) (key : Bytes) :
    valuesAt (fields.filter isPublic) key = publicValues fields key := by
  rw [valuesAt, publicValues, List.filter_filter]
  refine congrArg (List.map _) (List.filter_congr fun field _ => ?_)
  cases shown : isPublic field with
  | false => rw [Bool.and_false, Bool.false_and]
  | true => rw [keyOf_public shown, Bool.and_true, Bool.true_and]

theorem appendField_shape {object : Json} {name : Bytes} {values : List Json} {value : Json}
    (shaped : object.get name = shape values) (singles : ∀ other ∈ values, Single other)
    (isObject : object.isObject = true) : (appendField object name value).get name = shape (values ++ [value]) := by
  cases values with
  | nil =>
    rw [appendField_absent value shaped, Json.get_add_same _ _ _ isObject]
    rfl
  | cons first rest =>
    cases rest with
    | nil =>
      rw [appendField_single value shaped (singles first List.mem_cons_self), Json.get_add_same _ _ _ isObject]
      rfl
    | cons second rest =>
      rw [appendField_array value shaped, Json.get_add_same _ _ _ isObject]
      rfl

theorem appendFields_shape (fields : List Field) (key : Bytes) :
    (fields.foldl (fun object field => appendField object (keyOf field.name) (valueOf field.value))
      (.object [])).isObject = true ∧
    (fields.foldl (fun object field => appendField object (keyOf field.name) (valueOf field.value)) (.object [])).get
      key = shape (valuesAt fields key) := by
  induction fields using List.reverseRecOn with
  | nil => exact ⟨rfl, rfl⟩
  | append_singleton fields field ih =>
    obtain ⟨isObject, shaped⟩ := ih
    rw [List.foldl_append, List.foldl_cons, List.foldl_nil, valuesAt_concat]
    refine ⟨(appendField_isObject _ _ _).trans isObject, ?_⟩
    split_ifs with same
    · rw [same]
      exact appendField_shape shaped (valuesAt_single fields key) isObject
    · rw [appendField_get _ _ _ _ (Ne.symm same), shaped, List.append_nil]

theorem addFields_parts (fields : List Field) :
    (Heap.addFields fields).records.priv =
      fields.foldl (fun object field => appendField object (keyOf field.name) (valueOf field.value)) (.object []) ∧
    (Heap.addFields fields).records.pub = (fields.filter isPublic).foldl
      (fun object field => appendField object (keyOf field.name) (valueOf field.value)) (.object []) := by
  rw [(Heap.addFields_records fields).2]
  induction fields using List.reverseRecOn with
  | nil => exact ⟨rfl, rfl⟩
  | append_singleton fields field ih =>
    obtain ⟨priv, pub⟩ := ih
    rw [List.filter_append, List.foldl_append, List.foldl_append, List.foldl_append, ← priv, ← pub, List.foldl_cons,
      List.foldl_nil, List.foldl_cons, List.foldl_nil, addField]
    by_cases isPrivate : field.name.head? = some dash
    · have hidden : ¬isPublic field = true := fun shown => of_decide_eq_true shown isPrivate
      rw [if_pos isPrivate, List.filter_cons_of_neg hidden, keyOf, if_pos isPrivate]
      exact ⟨rfl, rfl⟩
    · have shown : isPublic field = true := decide_eq_true isPrivate
      rw [if_neg isPrivate, List.filter_cons_of_pos shown, keyOf, if_neg isPrivate, List.filter_nil, List.foldl_cons,
        List.foldl_nil, keyOf, if_neg isPrivate]
      exact ⟨rfl, rfl⟩

/-- The entry of a unit in the public lists, when it has an identifier. -/
def publicEntry (unit : UnitFile) : Option Json :=
  if (unit.records.pub.get keyId).isSome then some unit.records.pub else none

def entryId (serialize : Json → Bytes) (entry : Json) : Bytes := ((entry.get keyId).map (stringOf serialize)).getD []

def selected (entries : List (Option Json)) (flags : List Bool) : List Json :=
  (entries.zip flags).filterMap fun pair => if pair.2 then pair.1 else none

theorem selected_concat {entries : List (Option Json)} {flags : List Bool} (aligned : entries.length = flags.length)
    (entry : Option Json) (flag : Bool) :
    selected (entries ++ [entry]) (flags ++ [flag]) = selected entries flags ++ if flag then entry.toList else [] := by
  rw [selected, List.zip_append aligned, List.filterMap_append]
  cases flag <;> cases entry <;> rfl

theorem scanUnits_publics (serialize : Json → Bytes) (units : List UnitFile) :
    (scanUnits serialize units).publics.all = (units.map publicEntry).reduceOption ∧
    (scanUnits serialize units).publics.byname = (units.map publicEntry).reduceOption.foldl
      (fun byname entry => byname.add (entryId serialize entry) entry) (.object []) ∧
    (scanUnits serialize units).publics.visibles =
      selected (units.map publicEntry) (units.map fun unit => isVisible serialize unit.records.priv) := by
  induction units using List.reverseRecOn with
  | nil => exact ⟨rfl, rfl, rfl⟩
  | append_singleton units unit ih =>
    obtain ⟨all, byname, visibles⟩ := ih
    have run : scanUnits serialize (units ++ [unit]) = (addunit serialize (scanUnits serialize units) unit).2 := by
      unfold scanUnits
      rw [List.foldl_append, List.foldl_cons, List.foldl_nil]
    rw [run, List.map_append, List.map_append, List.map_singleton, List.map_singleton, List.reduceOption_append,
      List.foldl_append, selected_concat (by rw [List.length_map, List.length_map]), ← byname, ← all, ← visibles]
    cases found : unit.records.pub.get keyId with
    | none =>
      have entry : publicEntry unit = none := by rw [publicEntry, found]; rfl
      rw [addunit, found, entry]
      refine ⟨(List.append_nil _).symm, rfl, ?_⟩
      split_ifs <;> exact (List.append_nil _).symm
    | some id =>
      have entry : publicEntry unit = some unit.records.pub := by rw [publicEntry, found]; rfl
      have named : entryId serialize unit.records.pub = stringOf serialize id := by rw [entryId, found]; rfl
      rw [addunit, found, entry]
      simp only [record, List.reduceOption_singleton, Option.toList_some, List.foldl_cons, List.foldl_nil, named]
      refine ⟨trivial, trivial, ?_⟩
      split_ifs
      · rfl
      · exact (List.append_nil _).symm

/-- Two lists of fields that differ in private fields only. -/
def SamePublic (fields fields' : List Field) : Prop := fields.filter isPublic = fields'.filter isPublic

theorem addFields_private (fields fields' : List Field) (same : SamePublic fields fields') :
    (Heap.addFields fields).records.pub = (Heap.addFields fields').records.pub := by
  rw [(addFields_parts fields).2, (addFields_parts fields').2, same]

theorem fields_samePublic {unit unit' : UnitFile} (same : SamePublic (fieldsOf unit.content) (fieldsOf unit'.content)) :
    SamePublic unit.fields unit'.fields := by
  have own (unit : UnitFile) : unit.fields.filter isPublic = (fieldsOf unit.content).filter isPublic := by
    rw [UnitFile.fields, List.filter_append]
    exact List.append_nil _
  rw [SamePublic, own, own, same]

/-- What is public of the applications does not depend on the private fields, is what the public fields give, and the
private data are what all the fields give. Private data decide only which of the public entries are visible. -/
theorem application_privacy (serialize : Json → Bytes) :
    (∀ fields fields', SamePublic fields fields' →
      (Heap.addFields fields).records.pub = (Heap.addFields fields').records.pub) ∧
    (∀ fields key,
      (Heap.addFields fields).records.pub.get key = shape (publicValues fields key) ∧
      (Heap.addFields fields).records.priv.get key = shape (valuesAt fields key)) ∧
    ∀ units units', List.Forall₂ (fun unit unit' : UnitFile =>
        SamePublic (fieldsOf unit.content) (fieldsOf unit'.content)) units units' →
      (scanUnits serialize units).publics.all = (scanUnits serialize units').publics.all ∧
      (scanUnits serialize units).publics.byname = (scanUnits serialize units').publics.byname ∧
      ∃ entries, (scanUnits serialize units).publics.all = entries.reduceOption ∧
        (scanUnits serialize units).publics.visibles =
          selected entries (units.map fun unit => isVisible serialize unit.records.priv) ∧
        (scanUnits serialize units').publics.visibles =
          selected entries (units'.map fun unit => isVisible serialize unit.records.priv) := by
  refine ⟨addFields_private, fun fields key => ⟨?_, ?_⟩, fun units units' same => ?_⟩
  · rw [(addFields_parts fields).2, (appendFields_shape _ key).2, valuesAt_public]
  · rw [(addFields_parts fields).1, (appendFields_shape fields key).2]
  · have entries : units.map publicEntry = units'.map publicEntry := by
      induction same with
      | nil => rfl
      | cons first rest ih =>
        have pub := addFields_private _ _ (fields_samePublic first)
        rw [List.map_cons, List.map_cons, ih, publicEntry, publicEntry, UnitFile.records, UnitFile.records, pub]
    obtain ⟨all, byname, visibles⟩ := scanUnits_publics serialize units
    obtain ⟨all', byname', visibles'⟩ := scanUnits_publics serialize units'
    rw [← entries] at all' byname' visibles'
    exact ⟨all.trans all'.symm, byname.trans byname'.symm, units.map publicEntry, all, visibles, visibles'⟩

/-- The private visibility decides whether an application is in the public list of the visible ones. -/
theorem visibles_not_private : ¬∀ (serialize : Json → Bytes) (units units' : List UnitFile),
    List.Forall₂ (fun unit unit' : UnitFile => SamePublic (fieldsOf unit.content) (fieldsOf unit'.content)) units units' →
      (scanUnits serialize units).publics.visibles = (scanUnits serialize units').publics.visibles := by
  intro all
  let named (visibility : String) : UnitFile :=
    ⟨false, ascii "/u/a.service", ascii "a.service", ascii "X-AFM-id=a\nX-AFM--visibility=" ++ ascii visibility⟩
  have same : SamePublic (fieldsOf (named "visible").content) (fieldsOf (named "hidden").content) := by
    unfold SamePublic
    decide +kernel
  have lists := all (fun _ => []) [named "visible"] [named "hidden"] (List.Forall₂.cons same List.Forall₂.nil)
  have lengths := congrArg List.length lists
  revert lengths
  decide +kernel

theorem application_privacy_visibility :
    let serialize : Json → Bytes := fun _ => []
    let shown : UnitFile := ⟨false, ascii "/u/a.service", ascii "a.service", ascii "X-AFM-id=a\nX-AFM--visibility=visible\n"⟩
    let hidden : UnitFile := ⟨true, ascii "/u/a.service", ascii "a.service", ascii "X-AFM-id=a\nX-AFM--visibility=hidden\n"⟩
    (scanUnits serialize [shown]).publics.byname = (scanUnits serialize [hidden]).publics.byname ∧
      (scanUnits serialize [shown]).publics.visibles.length = 1 ∧
      (scanUnits serialize [hidden]).publics.visibles.length = 0 := by
  intro serialize shown hidden
  have same : SamePublic (fieldsOf shown.content) (fieldsOf hidden.content) := by
    unfold SamePublic
    decide +kernel
  obtain ⟨-, byname, -⟩ := (application_privacy serialize).2.2 [shown] [hidden] (List.Forall₂.cons same List.Forall₂.nil)
  exact ⟨byname, by decide +kernel, by decide +kernel⟩

end AppManager.Binding
