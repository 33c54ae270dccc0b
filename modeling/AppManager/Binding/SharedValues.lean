import AppManager.Binding.FieldRoundTrip

/-! The data of an application in memory: the private and the public object point to the same
values, and an array grows where it is. It grows in one of the objects only, for each array
has one owner. -/

namespace AppManager.Binding
open AppManager.Lib AppManager.Lib.Libc AppManager.Units

/-- What a pointer of `json-c` leads to, besides the objects. -/
inductive JsonNode where
  | scalar (value : Json)
  | array (items : List Nat)

/-- The members of an object, with their pointers. -/
abbrev Pointers := List (Bytes × Nat)

namespace Pointers

def get (name : Bytes) (object : Pointers) : Option Nat :=
  (object.find? (fun member => member.1 = name)).map Prod.snd

/-- `json_object_object_add`. -/
def add (name : Bytes) (pointer : Nat) : Pointers → Pointers
  | [] => [(name, pointer)]
  | member :: rest => if member.1 = name then (name, pointer) :: rest else member :: add name pointer rest

def targets (object : Pointers) : List Nat := object.map Prod.snd

theorem targets_cons (member : Bytes × Nat) (rest : Pointers) :
    targets (member :: rest) = member.2 :: targets rest := rfl

end Pointers

def readScalar (nodes : List JsonNode) (pointer : Nat) : Json :=
  match nodes[pointer]? with
  | some (.scalar value) => value
  | _ => .null

def readNode (nodes : List JsonNode) (pointer : Nat) : Json :=
  match nodes[pointer]? with
  | some (.array items) => .array (items.map (readScalar nodes))
  | _ => readScalar nodes pointer

def readObject (nodes : List JsonNode) (object : Pointers) : Json :=
  .object (object.map fun member => (member.1, readNode nodes member.2))

/-- `append_field`: the nodes, and the members of the object. -/
def appendPointer (nodes : List JsonNode) (object : Pointers) (name : Bytes) (data : Nat) : List JsonNode × Pointers :=
  match object.get name with
  | none => (nodes, object.add name data)
  | some item =>
    match nodes[item]? with
    | some (.array items) => (nodes.set item (.array (items ++ [data])), object)
    | _ => (nodes ++ [.array [item, data]], object.add name nodes.length)

/-- The memory of the data of an application. -/
structure Heap where
  nodes : List JsonNode
  priv : Pointers
  pub : Pointers

namespace Heap

def empty : Heap := ⟨[], [], []⟩

/-- `add_field`, whose value is shared when it is public. -/
def addField (heap : Heap) (field : Field) : Heap :=
  let v := heap.nodes.length
  let nodes := heap.nodes ++ [.scalar (valueOf field.value)]
  if field.name.head? = some dash then
    let (nodes, priv) := appendPointer nodes heap.priv field.name.tail v
    ⟨nodes, priv, heap.pub⟩
  else
    let (nodes, priv) := appendPointer nodes heap.priv field.name v
    let (nodes, pub) := appendPointer nodes heap.pub field.name v
    ⟨nodes, priv, pub⟩

def records (heap : Heap) : Records := ⟨readObject heap.nodes heap.priv, readObject heap.nodes heap.pub⟩

end Heap

def Single (value : Json) : Prop := ∀ items, value ≠ .array items

theorem valueOf_single (text : Bytes) : Single (valueOf text) := by
  intro items
  rw [valueOf]
  cases spells text <;> simp

/-- The arrays hold scalars, and no array has two pointers from members. -/
structure Owned (nodes : List JsonNode) (targets : List Nat) : Prop where
  single : ∀ (pointer : Nat) value, nodes[pointer]? = some (.scalar value) → Single value
  items : ∀ (pointer : Nat) items, nodes[pointer]? = some (.array items) →
    ∀ item ∈ items, ∃ value, nodes[item]? = some (.scalar value)
  held : ∀ pointer ∈ targets, pointer < nodes.length
  once : ∀ (pointer : Nat) items, nodes[pointer]? = some (.array items) → targets.count pointer ≤ 1

theorem Owned.perm {nodes : List JsonNode} {targets targets' : List Nat} (owned : Owned nodes targets)
    (same : targets.Perm targets') : Owned nodes targets' where
  single := owned.single
  items := owned.items
  held := fun pointer member => owned.held pointer (same.mem_iff.mpr member)
  once := fun pointer items array => same.count_eq pointer ▸ owned.once pointer items array

theorem readObject_get (nodes : List JsonNode) (object : Pointers) (name : Bytes) :
    (readObject nodes object).get name = (object.get name).map (readNode nodes) := by
  rw [readObject, Json.get, Pointers.get, List.find?_map, Option.map_map, Option.map_map]
  rfl

theorem readObject_congr {nodes nodes' : List JsonNode} {object : Pointers}
    (same : ∀ pointer ∈ object.targets, readNode nodes' pointer = readNode nodes pointer) :
    readObject nodes' object = readObject nodes object := by
  refine congrArg Json.object (List.map_congr_left fun member inside => ?_)
  rw [same member.2 (List.mem_map_of_mem inside)]

theorem readObject_add (nodes : List JsonNode) (object : Pointers) (name : Bytes) (pointer : Nat) :
    readObject nodes (object.add name pointer) = (readObject nodes object).add name (readNode nodes pointer) := by
  rw [readObject, readObject, Json.add, Json.object.injEq]
  induction object with
  | nil => rfl
  | cons member rest ih =>
    rw [Pointers.add, List.map_cons, Json.setMember]
    by_cases here : member.1 = name
    · rw [if_pos here, if_pos here]
      rfl
    · rw [if_neg here, if_neg here, List.map_cons, ih]

theorem get_mem {object : Pointers} {name : Bytes} {pointer : Nat} (found : object.get name = some pointer) :
    pointer ∈ object.targets := by
  obtain ⟨member, first, same⟩ := Option.map_eq_some_iff.mp found
  exact same ▸ List.mem_map_of_mem (List.mem_of_find?_eq_some first)

theorem mem_add {object : Pointers} {name : Bytes} {pointer other : Nat}
    (member : other ∈ (object.add name pointer).targets) : other = pointer ∨ other ∈ object.targets := by
  induction object with
  | nil => exact Or.inl (List.mem_singleton.mp member)
  | cons first rest ih =>
    rw [Pointers.add] at member
    split_ifs at member with here
    · exact (List.mem_cons.mp member).imp_right (List.mem_cons_of_mem _)
    · rcases List.mem_cons.mp member with same | later
      · exact Or.inr (same ▸ List.mem_cons_self)
      · exact (ih later).imp_right (List.mem_cons_of_mem _)

theorem count_add (object : Pointers) (name : Bytes) {pointer other : Nat} (differs : other ≠ pointer) :
    (object.add name pointer).targets.count other ≤ object.targets.count other := by
  induction object with
  | nil => exact (List.count_eq_zero.mpr fun member => differs (List.mem_singleton.mp member)).le
  | cons first rest ih =>
    rw [Pointers.add]
    split_ifs with here
    · refine le_trans (le_of_eq ?_) List.count_le_count_cons
      exact List.count_cons_of_ne (Ne.symm differs)
    · rw [Pointers.targets_cons, Pointers.targets_cons, List.count_cons, List.count_cons]
      exact Nat.add_le_add_right ih _

theorem count_add_fresh (object : Pointers) (name : Bytes) {pointer : Nat} (fresh : pointer ∉ object.targets) :
    (object.add name pointer).targets.count pointer ≤ 1 := by
  induction object with
  | nil => exact List.count_le_length
  | cons first rest ih =>
    obtain ⟨differs, fresh'⟩ := not_or.mp (List.mem_cons.not.mp fresh)
    rw [Pointers.add]
    split_ifs with here
    · have none : (Pointers.targets rest).count pointer = 0 := List.count_eq_zero.mpr fresh'
      rw [Pointers.targets_cons, List.count_cons_self, none]
    · rw [Pointers.targets_cons, List.count_cons_of_ne (Ne.symm differs)]
      exact ih fresh'

theorem readObject_change {nodes nodes' : List JsonNode} {object : Pointers} {name : Bytes} {pointer : Nat}
    (found : object.get name = some pointer) (once : object.targets.count pointer ≤ 1)
    (others : ∀ other ≠ pointer, readNode nodes' other = readNode nodes other) :
    readObject nodes' object = (readObject nodes object).add name (readNode nodes' pointer) := by
  rw [readObject, readObject, Json.add, Json.object.injEq]
  induction object with
  | nil => cases found
  | cons first rest ih =>
    rw [Pointers.targets_cons, List.count_cons] at once
    rw [List.map_cons, List.map_cons, Json.setMember]
    by_cases here : first.1 = name
    · have same : first.2 = pointer := by
        rw [Pointers.get, List.find?_cons_of_pos (by simpa using here)] at found
        exact Option.some.inj found
      rw [if_pos (by simpa using same)] at once
      have none : pointer ∉ Pointers.targets rest := List.count_eq_zero.mp (by omega)
      rw [if_pos here, here, same]
      congr 1
      apply List.map_congr_left
      intro member inside
      rw [others member.2 fun equal => none (equal ▸ List.mem_map_of_mem inside)]
    · rw [Pointers.get, List.find?_cons_of_neg (by simpa using here)] at found
      have differs : first.2 ≠ pointer := by
        intro same
        have there : pointer ∈ Pointers.targets rest := get_mem found
        rw [if_pos (by simpa using same)] at once
        exact absurd (List.count_pos_iff.mpr there) (by omega)
      rw [if_neg here, others first.2 differs, ih found (by omega)]

theorem readScalar_grown {nodes : List JsonNode} (more : List JsonNode) {pointer : Nat} {value : Json}
    (scalar : nodes[pointer]? = some (.scalar value)) :
    readScalar (nodes ++ more) pointer = readScalar nodes pointer := by
  have inside := (List.getElem?_eq_some_iff.mp scalar).1
  rw [readScalar, readScalar, List.getElem?_append_left inside]

theorem readNode_grown {nodes : List JsonNode} {targets : List Nat} (owned : Owned nodes targets)
    (more : List JsonNode) {pointer : Nat} (inside : pointer < nodes.length) :
    readNode (nodes ++ more) pointer = readNode nodes pointer := by
  rw [readNode, readNode, List.getElem?_append_left inside]
  cases node : nodes[pointer]? with
  | none => exact absurd (List.getElem?_eq_none_iff.mp node) (Nat.not_le_of_lt inside)
  | some node' =>
    cases node' with
    | scalar value => exact readScalar_grown more node
    | array items =>
      refine congrArg Json.array (List.map_congr_left fun item member => ?_)
      obtain ⟨value, scalar⟩ := owned.items pointer items node item member
      exact readScalar_grown more scalar

section Extended
variable {nodes : List JsonNode} {item : Nat} {items : List Nat} (array : nodes[item]? = some (.array items))
  (items' : List Nat)
include array

theorem readScalar_set (pointer : Nat) :
    readScalar (nodes.set item (.array items')) pointer = readScalar nodes pointer := by
  have inside := (List.getElem?_eq_some_iff.mp array).1
  rw [readScalar, readScalar, List.getElem?_set]
  by_cases same : item = pointer
  · rw [if_pos same, if_pos inside, ← same, array]
  · rw [if_neg same]

theorem scalar_set {pointer : Nat} {kept : Json} (same : nodes[pointer]? = some (.scalar kept)) :
    (nodes.set item (.array items'))[pointer]? = some (.scalar kept) := by
  have differs : item ≠ pointer := by
    rintro rfl
    cases array.symm.trans same
  rw [List.getElem?_set_ne differs, same]

theorem readNode_set_other (pointer : Nat) (other : pointer ≠ item) :
    readNode (nodes.set item (.array items')) pointer = readNode nodes pointer := by
  have scalars : readScalar (nodes.set item (.array items')) = readScalar nodes := funext (readScalar_set array items')
  rw [readNode, readNode, List.getElem?_set_ne (Ne.symm other), scalars]

theorem readNode_set_self :
    readNode (nodes.set item (.array items')) item = .array (items'.map (readScalar nodes)) := by
  have inside := (List.getElem?_eq_some_iff.mp array).1
  have scalars : readScalar (nodes.set item (.array items')) = readScalar nodes := funext (readScalar_set array items')
  rw [readNode, List.getElem?_set_self inside, scalars]

end Extended

theorem appendField_absent {object : Json} {name : Bytes} (value : Json) (absent : object.get name = none) :
    appendField object name value = object.add name value := by
  rw [appendField, absent]

theorem appendField_array {object : Json} {name : Bytes} {items : List Json} (value : Json)
    (found : object.get name = some (.array items)) :
    appendField object name value = object.add name (.array (items ++ [value])) := by
  rw [appendField, found]

theorem appendField_single {object item : Json} {name : Bytes} (value : Json) (found : object.get name = some item)
    (single : Single item) : appendField object name value = object.add name (.array [item, value]) := by
  rw [appendField, found]
  cases item with
  | array items => exact absurd rfl (single items)
  | _ => rfl

theorem grown_cases {nodes : List JsonNode} {last node : JsonNode} {pointer : Nat}
    (new : (nodes ++ [last])[pointer]? = some node) :
    nodes[pointer]? = some node ∨ (pointer = nodes.length ∧ node = last) := by
  rw [List.getElem?_append] at new
  split_ifs at new with inside
  · exact Or.inl new
  · have place : pointer - nodes.length = 0 := by
      have size := (List.getElem?_eq_some_iff.mp new).1
      rw [List.length_singleton] at size
      omega
    rw [place] at new
    exact Or.inr ⟨by omega, (Option.some.inj new).symm⟩

theorem grown_old {nodes : List JsonNode} (more : List JsonNode) {node : JsonNode} {pointer : Nat}
    (old : nodes[pointer]? = some node) : (nodes ++ more)[pointer]? = some node := by
  rw [List.getElem?_append_left (List.getElem?_eq_some_iff.mp old).1, old]

/-- What comes of appending a value to an object: the object is the one with the value appended, and what else is
pointed to is as it was. -/
structure Appended (nodes nodes' : List JsonNode) (object object' : Pointers) (rest : List Nat) (name : Bytes)
    (value : Json) : Prop where
  owned : Owned nodes' (object'.targets ++ rest)
  read : readObject nodes' object' = appendField (readObject nodes object) name value
  others : ∀ pointer ∈ rest, readNode nodes' pointer = readNode nodes pointer
  scalars : ∀ (pointer : Nat) kept, nodes[pointer]? = some (.scalar kept) → nodes'[pointer]? = some (.scalar kept)

section Append
variable {nodes : List JsonNode} {object : Pointers} {rest : List Nat} {name : Bytes} {data : Nat} {value : Json}
  (owned : Owned nodes (object.targets ++ rest)) (scalar : nodes[data]? = some (.scalar value))
include owned scalar

theorem appended_absent (found : object.get name = none) :
    Appended nodes nodes object (object.add name data) rest name value where
  owned := by
    refine ⟨owned.single, owned.items, fun pointer member => ?_, fun pointer items array => ?_⟩
    · rcases List.mem_append.mp member with inObject | inRest
      · rcases mem_add inObject with same | before
        · exact same ▸ (List.getElem?_eq_some_iff.mp scalar).1
        · exact owned.held pointer (List.mem_append_left _ before)
      · exact owned.held pointer (List.mem_append_right _ inRest)
    · have differs : pointer ≠ data := by
        rintro rfl
        cases scalar.symm.trans array
      have before := owned.once pointer items array
      rw [List.count_append] at before ⊢
      exact (Nat.add_le_add_right (count_add object name differs) _).trans before
  read := by
    have got : (readObject nodes object).get name = none := by rw [readObject_get, found, Option.map_none]
    have there : readNode nodes data = value := by
      rw [readNode, scalar]
      simp only [readScalar, scalar]
    rw [readObject_add, appendField_absent value got, there]
  others := fun _ _ => rfl
  scalars := fun _ _ same => same

theorem appended_single {item : Nat} {first : Json} (found : object.get name = some item)
    (there : nodes[item]? = some (.scalar first)) :
    Appended nodes (nodes ++ [.array [item, data]]) object (object.add name nodes.length) rest name value where
  owned := by
    refine ⟨fun pointer kept new => ?_, fun pointer items new => ?_, fun pointer member => ?_,
      fun pointer items new => ?_⟩
    · rcases grown_cases new with old | ⟨-, other⟩
      · exact owned.single pointer kept old
      · cases other
    · intro place inside
      rcases grown_cases new with old | ⟨-, same⟩
      · obtain ⟨kept, scalar⟩ := owned.items pointer items old place inside
        exact ⟨kept, grown_old _ scalar⟩
      · rw [JsonNode.array.inj same] at inside
        rcases List.mem_pair.mp inside with here | here
        · exact ⟨first, by rw [here]; exact grown_old _ there⟩
        · exact ⟨value, by rw [here]; exact grown_old _ scalar⟩
    · rw [List.length_append, List.length_singleton]
      rcases List.mem_append.mp member with inObject | inRest
      · rcases mem_add inObject with same | before
        · exact same ▸ Nat.lt_succ_self _
        · exact Nat.lt_succ_of_lt (owned.held pointer (List.mem_append_left _ before))
      · exact Nat.lt_succ_of_lt (owned.held pointer (List.mem_append_right _ inRest))
    · have fresh : nodes.length ∉ object.targets ++ rest := fun member => lt_irrefl _ (owned.held _ member)
      rw [List.mem_append, not_or] at fresh
      rw [List.count_append]
      rcases grown_cases new with old | ⟨same, -⟩
      · have differs : pointer ≠ nodes.length := ((List.getElem?_eq_some_iff.mp old).1).ne
        have before := owned.once pointer items old
        rw [List.count_append] at before
        exact (Nat.add_le_add_right (count_add object name differs) _).trans before
      · rw [same, List.count_eq_zero.mpr fresh.2, Nat.add_zero]
        exact count_add_fresh object name fresh.1
  read := by
    have itemRead : readNode nodes item = first := by
      rw [readNode, there]
      simp only [readScalar, there]
    have got : (readObject nodes object).get name = some first := by
      rw [readObject_get, found, Option.map_some, itemRead]
    have pair : readNode (nodes ++ [.array [item, data]]) nodes.length = .array [first, value] := by
      rw [readNode, List.getElem?_append_right (Nat.le_refl _), Nat.sub_self]
      simp only [List.getElem?_cons_zero, List.map_cons, List.map_nil, readScalar, grown_old _ there,
        grown_old _ scalar]
    have same : readObject (nodes ++ [.array [item, data]]) object = readObject nodes object :=
      readObject_congr fun pointer member => readNode_grown owned _ (owned.held pointer (List.mem_append_left _ member))
    rw [readObject_add, pair, same, appendField_single value got (owned.single item first there)]
  others := fun pointer member => readNode_grown owned _ (owned.held pointer (List.mem_append_right _ member))
  scalars := fun pointer kept same => grown_old _ same

theorem appended_array {item : Nat} {items : List Nat} (found : object.get name = some item)
    (there : nodes[item]? = some (.array items)) :
    Appended nodes (nodes.set item (.array (items ++ [data]))) object object rest name value where
  owned := by
    have inside := (List.getElem?_eq_some_iff.mp there).1
    have kept {pointer : Nat} {kept : Json} (same : nodes[pointer]? = some (.scalar kept)) :
        (nodes.set item (.array (items ++ [data])))[pointer]? = some (.scalar kept) :=
      scalar_set there _ same
    refine ⟨fun pointer kept new => ?_, fun pointer items' new place member => ?_, fun pointer member => ?_,
      fun pointer items' new => ?_⟩
    · by_cases here : item = pointer
      · rw [here, List.getElem?_set_self (here ▸ inside)] at new
        cases new
      · rw [List.getElem?_set_ne here] at new
        exact owned.single pointer kept new
    · by_cases here : item = pointer
      · rw [here, List.getElem?_set_self (here ▸ inside), Option.some.injEq, JsonNode.array.injEq] at new
        rw [← new, List.mem_append, List.mem_singleton] at member
        rcases member with old | same
        · obtain ⟨first, same⟩ := owned.items item items there place old
          exact ⟨first, kept same⟩
        · exact ⟨value, by rw [same]; exact kept scalar⟩
      · rw [List.getElem?_set_ne here] at new
        obtain ⟨first, same⟩ := owned.items pointer items' new place member
        exact ⟨first, kept same⟩
    · rw [List.length_set]
      exact owned.held pointer member
    · by_cases here : item = pointer
      · exact here ▸ owned.once item items there
      · rw [List.getElem?_set_ne here] at new
        exact owned.once pointer items' new
  read := by
    have itemRead : readNode nodes item = .array (items.map (readScalar nodes)) := by rw [readNode, there]
    have got : (readObject nodes object).get name = some (.array (items.map (readScalar nodes))) := by
      rw [readObject_get, found, Option.map_some, itemRead]
    have once : object.targets.count item ≤ 1 := by
      have all := owned.once item items there
      rw [List.count_append] at all
      exact (Nat.le_add_right _ _).trans all
    have dataRead : readScalar nodes data = value := by rw [readScalar, scalar]
    rw [readObject_change found once fun other differs => readNode_set_other there _ other differs,
      readNode_set_self there, List.map_append, List.map_singleton, dataRead, appendField_array value got]
  others := by
    intro pointer member
    have all := owned.once item items there
    rw [List.count_append] at all
    have here := List.count_pos_iff.mpr (get_mem found)
    have none : item ∉ rest := List.count_eq_zero.mp (by omega)
    exact readNode_set_other there _ pointer fun same => none (same ▸ member)
  scalars := fun _ _ same => scalar_set there _ same

theorem appendPointer_spec : Appended nodes (appendPointer nodes object name data).1 object
    (appendPointer nodes object name data).2 rest name value := by
  unfold appendPointer
  cases found : object.get name with
  | none => exact appended_absent owned scalar found
  | some item =>
    cases there : nodes[item]? with
    | none =>
      have inside := owned.held item (List.mem_append_left _ (get_mem found))
      exact absurd (List.getElem?_eq_none_iff.mp there) (Nat.not_le_of_lt inside)
    | some node =>
      cases node with
      | scalar first =>
        simp only [there]
        exact appended_single owned scalar found there
      | array items =>
        simp only [there]
        exact appended_array owned scalar found there

end Append

namespace Heap

/-- The memory of an application, where no array has two owners. -/
def Sound (heap : Heap) : Prop := Owned heap.nodes (heap.priv.targets ++ heap.pub.targets)

/-- A new value is not pointed to. -/
theorem Sound.grown {heap : Heap} (sound : heap.Sound) (text : Bytes) :
    Owned (heap.nodes ++ [.scalar (valueOf text)]) (heap.priv.targets ++ heap.pub.targets) := by
  refine ⟨fun pointer kept new => ?_, fun pointer items new item inside => ?_, fun pointer member => ?_,
    fun pointer items new => ?_⟩
  · rcases grown_cases new with old | ⟨-, same⟩
    · exact sound.single pointer kept old
    · rw [JsonNode.scalar.inj same]
      exact valueOf_single text
  · rcases grown_cases new with old | ⟨-, other⟩
    · obtain ⟨kept, scalar⟩ := sound.items pointer items old item inside
      exact ⟨kept, grown_old _ scalar⟩
    · cases other
  · rw [List.length_append]
    exact Nat.lt_add_right _ (sound.held pointer member)
  · rcases grown_cases new with old | ⟨-, other⟩
    · exact sound.once pointer items old
    · cases other

theorem addField_records {heap : Heap} (sound : heap.Sound) (field : Field) :
    (heap.addField field).Sound ∧ (heap.addField field).records = Binding.addField heap.records field := by
  have grown := sound.grown field.value
  have scalar : (heap.nodes ++ [.scalar (valueOf field.value)])[heap.nodes.length]? =
      some (.scalar (valueOf field.value)) := by
    rw [List.getElem?_append_right (Nat.le_refl _), Nat.sub_self]
    rfl
  have privRead : readObject (heap.nodes ++ [.scalar (valueOf field.value)]) heap.priv =
      readObject heap.nodes heap.priv := readObject_congr fun pointer member =>
    readNode_grown sound _ (sound.held pointer (List.mem_append_left _ member))
  have pubRead : readObject (heap.nodes ++ [.scalar (valueOf field.value)]) heap.pub =
      readObject heap.nodes heap.pub := readObject_congr fun pointer member =>
    readNode_grown sound _ (sound.held pointer (List.mem_append_right _ member))
  unfold addField Binding.addField
  by_cases isPrivate : field.name.head? = some dash
  · have priv := @appendPointer_spec _ _ _ field.name.tail _ _ grown scalar
    rw [if_pos isPrivate, if_pos isPrivate]
    refine ⟨priv.owned, ?_⟩
    simp only [records, Records.mk.injEq]
    exact ⟨priv.read.trans (privRead ▸ rfl), (readObject_congr priv.others).trans pubRead⟩
  · have priv := @appendPointer_spec _ _ _ field.name _ _ grown scalar
    have pub := @appendPointer_spec _ _ _ field.name _ _ (priv.owned.perm List.perm_append_comm)
      (priv.scalars _ _ scalar)
    rw [if_neg isPrivate, if_neg isPrivate]
    refine ⟨pub.owned.perm List.perm_append_comm, ?_⟩
    simp only [records, Records.mk.injEq]
    refine ⟨(readObject_congr pub.others).trans (priv.read.trans (privRead ▸ rfl)), ?_⟩
    exact pub.read.trans (congrArg (appendField · _ _) ((readObject_congr priv.others).trans pubRead))

def addFields (fields : List Field) : Heap := fields.foldl addField empty

theorem addFields_records (fields : List Field) :
    (addFields fields).Sound ∧ (addFields fields).records = fields.foldl Binding.addField ⟨.object [], .object []⟩ := by
  induction fields using List.reverseRecOn with
  | nil =>
    refine ⟨⟨?_, ?_, ?_, ?_⟩, rfl⟩ <;> intro pointer <;> simp [addFields, empty, Pointers.targets]
  | append_singleton fields field ih =>
    obtain ⟨sound, same⟩ := ih
    obtain ⟨sound', same'⟩ := addField_records sound field
    unfold addFields
    rw [List.foldl_append, List.foldl_append, List.foldl_cons, List.foldl_nil, List.foldl_cons, List.foldl_nil, ← same]
    exact ⟨sound', same'⟩

end Heap

end AppManager.Binding
