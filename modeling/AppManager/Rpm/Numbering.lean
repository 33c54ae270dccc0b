import AppManager.Rpm.Records

/-! What a traversal of the records of one set does, and the numbers it gives them. -/

namespace AppManager.Rpm
open AppManager.Lib AppManager.Lib.Libc AppManager.Afmpkg

section
variable {Ts State : Type} [DecidableEq Ts] (ts : Ts)

def inSet (record : Record Ts) : Bool := decide (record.ts = ts)

/-- The records of a set, and those of the other sets. -/
def ofSet (records : List (Record Ts)) : List (Record Ts) := records.filter (inSet ts)
def ofOthers (records : List (Record Ts)) : List (Record Ts) := records.filter fun record => !inSet ts record

def hasType (type : ElementType) (record : Record Ts) : Bool := decide (record.type = type)

def acting (callback : Record Ts → State → (Bool × Record Ts) × State) (record : Record Ts) (closure : State) :
    Option (Record Ts) × State :=
  (if (callback record closure).1.1 then none else some (callback record closure).1.2, (callback record closure).2)

theorem forEachRecord_visit (callback : Record Ts → State → (Bool × Record Ts) × State)
    (records : List (Record Ts)) (closure : State) :
    forEachRecord ts (some callback) records closure = visit (inSet ts) (acting callback) records closure := by
  induction records generalizing closure with
  | nil => rfl
  | cons it next ih =>
    rw [forEachRecord, visit]
    by_cases own : it.ts = ts
    · rw [if_neg (not_not.mpr own), if_pos (by simp [inSet, own])]
      simp only [ih, acting]
      split <;> rfl
    · rw [if_pos own, if_neg (by simp [inSet, own]), ih]

theorem forEachRecord_none (records : List (Record Ts)) :
    (forEachRecord ts none records ()).1 = ofOthers ts records := by
  induction records with
  | nil => rfl
  | cons it next ih =>
    rw [forEachRecord]
    by_cases own : it.ts = ts
    · rw [if_neg (not_not.mpr own), ofOthers, List.filter_cons_of_neg (by simp [inSet, own])]
      exact ih
    · rw [if_pos own, ofOthers, List.filter_cons_of_pos (by simp [inSet, own])]
      exact congrArg (List.cons it) ih

/-- The callbacks do not move records to another set. -/
def Stays (callback : Record Ts → State → (Bool × Record Ts) × State) : Prop :=
  ∀ record closure, (callback record closure).1.2.ts = record.ts

theorem acting_keeps (callback : Record Ts → State → (Bool × Record Ts) × State) (stays : Stays callback)
    (record : Record Ts) (closure : State) (own : inSet ts record = true) :
    ∀ changed ∈ (acting callback record closure).1, inSet ts changed = true := by
  intro changed member
  rw [acting] at member
  split at member
  · cases member
  · rw [Option.mem_some_iff] at member
    rw [← member, inSet, stays]
    exact own

theorem forEachRecord_others (callback : Record Ts → State → (Bool × Record Ts) × State) (stays : Stays callback)
    (records : List (Record Ts)) (closure : State) :
    ofOthers ts (forEachRecord ts (some callback) records closure).1 = ofOthers ts records := by
  rw [forEachRecord_visit]
  exact visit_others _ _ (acting_keeps ts callback stays) records closure

theorem forEachRecord_own (callback : Record Ts → State → (Bool × Record Ts) × State) (stays : Stays callback)
    (records : List (Record Ts)) (closure : State) :
    ofSet ts (forEachRecord ts (some callback) records closure).1 =
        (visit (fun _ => true) (acting callback) (ofSet ts records) closure).1 ∧
      (forEachRecord ts (some callback) records closure).2 =
        (visit (fun _ => true) (acting callback) (ofSet ts records) closure).2 := by
  rw [forEachRecord_visit]
  exact visit_owned _ _ (acting_keeps ts callback stays) records closure

end

section
variable {Ts : Type}

theorem numberCount_stays : Stays (@numberCount Ts) := fun _ _ => rfl

theorem numberType_stays (type : ElementType) : Stays (@numberType Ts type) := by
  intro record closure
  rw [numberType]
  split <;> rfl

def withIndex (index : Nat) (record : Record Ts) : Record Ts := { record with index := index }

theorem acting_numberType (type : ElementType) :
    acting (@numberType Ts type) = numbering (hasType type) withIndex := by
  funext record closure
  rw [acting, numberType, numbering]
  by_cases same : record.type = type
  · have known : hasType type record = true := decide_eq_true same
    rw [if_pos same, known, if_pos rfl]
    rfl
  · have known : hasType type record = false := decide_eq_false same
    rw [if_neg same, known, if_neg (by simp)]
    rfl

variable [DecidableEq Ts] (ts : Ts)

theorem forEachRecord_count (records : List (Record Ts)) (count : Nat) :
    ofSet ts (forEachRecord ts (some numberCount) records count).1 =
      (ofSet ts records).map fun record => { record with count := count } := by
  rw [(forEachRecord_own ts _ numberCount_stays records count).1]
  exact congrArg Prod.fst (visit_map (fun count (record : Record Ts) => { record with count := count }) _ count)

theorem forEachRecord_type (type : ElementType) (records : List (Record Ts)) (idx : Nat) :
    let numbered := forEachRecord ts (some (numberType type)) records idx
    numbered.2 = idx + ((ofSet ts records).filter (hasType type)).length ∧
      ((ofSet ts numbered.1).filter (hasType type)).map Record.index =
        List.range' (idx + 1) ((ofSet ts records).filter (hasType type)).length ∧
      ((ofSet ts numbered.1).filter fun record => !hasType type record) =
        ((ofSet ts records).filter fun record => !hasType type record) ∧
      (ofSet ts numbered.1).map (fun record => (record.type, record.te, record.count)) =
        (ofSet ts records).map fun record => (record.type, record.te, record.count) := by
  intro numbered
  obtain ⟨own, ended⟩ := forEachRecord_own ts _ (numberType_stays type) records idx
  rw [acting_numberType] at own ended
  have stays (count : Nat) (record : Record Ts) : hasType type (withIndex count record) = hasType type record := rfl
  rw [own, ended]
  exact ⟨numbering_count _ _ _ _, numbering_numbers _ _ Record.index stays (fun _ _ => rfl) _ _,
    numbering_others _ _ stays _ _, numbering_view _ withIndex _ (fun _ _ => rfl) _ _⟩

end

section
variable {Ts : Type} (ts : Ts) (garbage : Nat)

def isPackage (te : Element) : Bool := decide (te.type ≠ .other)

def newRecord (te : Element) : Record Ts := ⟨ts, te.type, garbage, garbage, te, te.files⟩

theorem addRecords_eq (elements : List Element) (recorded : List (Record Ts) × Nat) :
    addRecords ts garbage elements recorded =
      (((elements.filter isPackage).map (newRecord ts garbage)).reverse ++ recorded.1,
        recorded.2 + (elements.filter isPackage).length) := by
  induction elements generalizing recorded with
  | nil => rfl
  | cons te elements ih =>
    rw [addRecords, ih]
    cases type : te.type with
    | other => rw [List.filter_cons_of_neg (by simp [isPackage, type])]
    | _ =>
      rw [List.filter_cons_of_pos (by simp [isPackage, type])]
      simp only [newRecord, type, List.map_cons, List.reverse_cons, List.append_assoc, List.singleton_append,
        List.length_cons, Prod.mk.injEq, true_and]
      omega

end

/-- The records of a set whose elements are all recorded and numbered, those that are
removed before those that are added. -/
structure Numbered {Ts : Type} [DecidableEq Ts] (ts : Ts) (elements : List Element) (records : List (Record Ts)) : Prop where
  packages : (ofSet ts records).map (fun record => (record.type, record.te)) =
    ((elements.filter isPackage).map fun te => (te.type, te)).reverse
  counted : ∀ record ∈ ofSet ts records, record.count = (ofSet ts records).length
  indexed : ((ofSet ts records).map Record.index).Perm (List.range' 1 (ofSet ts records).length)
  ordered : ∀ first ∈ ofSet ts records, ∀ second ∈ ofSet ts records,
    first.type = .removed → second.type = .added → first.index < second.index

section
variable {Ts : Type}

theorem seen_records {own : List (Record Ts)} {elements : List Element}
    (seen : own.map (fun record => (record.type, record.te, record.count)) =
      ((elements.filter isPackage).map fun te => (te.type, te, (elements.filter isPackage).length)).reverse) :
    own.length = (elements.filter isPackage).length ∧ ∀ record ∈ own,
      (record.type = .removed ∨ record.type = .added) ∧ record.count = (elements.filter isPackage).length := by
  constructor
  · have lengths := congrArg List.length seen
    rwa [List.length_map, List.length_reverse, List.length_map] at lengths
  · intro record member
    have inside := List.mem_map_of_mem (f := fun record : Record Ts => (record.type, record.te, record.count)) member
    rw [seen, List.mem_reverse] at inside
    obtain ⟨te, package, same⟩ := List.mem_map.mp inside
    rw [Prod.mk.injEq, Prod.mk.injEq] at same
    have kind : isPackage te = true := List.of_mem_filter package
    rw [← same.1, ← same.2.2]
    refine ⟨?_, rfl⟩
    cases type : te.type with
    | added => exact Or.inr rfl
    | removed => exact Or.inl rfl
    | other => simp [isPackage, type] at kind

theorem filter_removed (own : List (Record Ts)) : own.filter (hasType .removed) =
    (own.filter fun record => !hasType .added record).filter (hasType .removed) := by
  rw [List.filter_filter]
  apply List.filter_congr
  intro record member
  by_cases removed : record.type = .removed
  · simp [hasType, removed]
  · simp [hasType, removed]

theorem indexes_perm (own : List (Record Ts)) (removes adds : Nat)
    (only : ∀ record ∈ own, record.type = .removed ∨ record.type = .added)
    (first : (own.filter (hasType .removed)).map Record.index = List.range' 1 removes)
    (second : (own.filter (hasType .added)).map Record.index = List.range' (removes + 1) adds) :
    (own.map Record.index).Perm (List.range' 1 own.length) := by
  have rest : (own.filter fun record => !hasType .removed record) = own.filter (hasType .added) := by
    apply List.filter_congr
    intro record member
    rcases only record member with removed | added
    · simp [hasType, removed]
    · simp [hasType, added]
  have split := List.filter_append_perm (hasType .removed) own
  rw [rest] at split
  have size : own.length = removes + adds := by
    have lengths := congrArg List.length first
    have lengths' := congrArg List.length second
    rw [List.length_map, List.length_range'] at lengths lengths'
    rw [← split.length_eq, List.length_append, lengths, lengths']
  have indexes := split.map Record.index
  rw [List.map_append, first, second, Nat.add_comm removes 1, List.range'_append_1, ← size] at indexes
  exact indexes.symm

theorem indexes_ordered (own : List (Record Ts)) (removes adds : Nat)
    (first : (own.filter (hasType .removed)).map Record.index = List.range' 1 removes)
    (second : (own.filter (hasType .added)).map Record.index = List.range' (removes + 1) adds) :
    ∀ removed ∈ own, ∀ added ∈ own, removed.type = .removed → added.type = .added → removed.index < added.index := by
  intro removed member added member' isRemoved isAdded
  have before : removed.index ∈ List.range' 1 removes := by
    rw [← first]
    exact List.mem_map_of_mem (List.mem_filter.mpr ⟨member, decide_eq_true isRemoved⟩)
  have after : added.index ∈ List.range' (removes + 1) adds := by
    rw [← second]
    exact List.mem_map_of_mem (List.mem_filter.mpr ⟨member', decide_eq_true isAdded⟩)
  rw [List.mem_range'_1] at before after
  omega

end

section
variable {Ts : Type} [DecidableEq Ts] (ts : Ts) (garbage : Nat)

theorem inSet_newRecords (elements : List Element) :
    ∀ record ∈ ((elements.filter isPackage).map (newRecord ts garbage)).reverse, inSet ts record = true := by
  intro record member
  obtain ⟨te, -, same⟩ := List.mem_map.mp (List.mem_reverse.mp member)
  rw [← same]
  exact decide_eq_true rfl

theorem ofSet_addRecords (elements : List Element) (records : List (Record Ts)) (count : Nat) :
    ofSet ts (addRecords ts garbage elements (records, count)).1 =
      ((elements.filter isPackage).map (newRecord ts garbage)).reverse ++ ofSet ts records := by
  rw [addRecords_eq, ofSet, List.filter_append, List.filter_eq_self.mpr (inSet_newRecords ts garbage elements), ← ofSet]

theorem ofOthers_addRecords (elements : List Element) (records : List (Record Ts)) (count : Nat) :
    ofOthers ts (addRecords ts garbage elements (records, count)).1 = ofOthers ts records := by
  have none : ofOthers ts ((elements.filter isPackage).map (newRecord ts garbage)).reverse = [] := by
    rw [ofOthers, List.filter_eq_nil_iff]
    intro record member
    rw [inSet_newRecords ts garbage elements record member]
    exact Bool.false_ne_true
  rw [addRecords_eq, ofOthers, List.filter_append, ← ofOthers, none, List.nil_append, ← ofOthers]

theorem numberedRecords_others (elements : List Element) (records : List (Record Ts)) :
    ofOthers ts (numberedRecords ts garbage elements records) = ofOthers ts records := by
  rw [numberedRecords, numberAdds, numberRemoves, forEachRecord_others ts _ (numberType_stays .added),
    forEachRecord_others ts _ (numberType_stays .removed), forEachRecord_others ts _ numberCount_stays,
    ofOthers_addRecords]

theorem numberedRecords_spec (elements : List Element) (records : List (Record Ts)) (empty : ofSet ts records = []) :
    Numbered ts elements (numberedRecords ts garbage elements records) := by
  have own := ofSet_addRecords ts garbage elements records 0
  rw [empty, List.append_nil] at own
  have counted := forEachRecord_count ts (addRecords ts garbage elements (records, 0)).1
    (addRecords ts garbage elements (records, 0)).2
  generalize counts : forEachRecord ts (some numberCount) (addRecords ts garbage elements (records, 0)).1
    (addRecords ts garbage elements (records, 0)).2 = counts' at counted
  have removes := forEachRecord_type ts .removed counts'.1 0
  generalize removed : forEachRecord ts (some (numberType .removed)) counts'.1 0 = removed' at removes
  have adds := forEachRecord_type ts .added removed'.1 removed'.2
  have whole : numberedRecords ts garbage elements records =
      (forEachRecord ts (some (numberType .added)) removed'.1 removed'.2).1 := by
    rw [numberedRecords, numberAdds, numberRemoves, counts, removed]
  rw [whole]
  generalize added : forEachRecord ts (some (numberType .added)) removed'.1 removed'.2 = added' at adds
  obtain ⟨idx, firsts, -, views⟩ := removes
  obtain ⟨-, seconds, kept, views'⟩ := adds
  have seen : (ofSet ts added'.1).map (fun record => (record.type, record.te, record.count)) =
      ((elements.filter isPackage).map fun te => (te.type, te, (elements.filter isPackage).length)).reverse := by
    rw [views', views, counted, own, addRecords_eq, Nat.zero_add, List.map_map, List.map_reverse, List.map_map]
    rfl
  obtain ⟨size, each⟩ := seen_records seen
  have early : ((ofSet ts added'.1).filter (hasType .removed)).map Record.index =
      List.range' 1 ((ofSet ts counts'.1).filter (hasType .removed)).length := by
    rw [filter_removed, kept, ← filter_removed, firsts]
  rw [idx, Nat.zero_add] at seconds
  refine ⟨?_, ?_, indexes_perm _ _ _ (fun record member => (each record member).1) early seconds,
    indexes_ordered _ _ _ early seconds⟩
  · have projected := congrArg (List.map fun seen : ElementType × Element × Nat => (seen.1, seen.2.1)) seen
    rw [List.map_map, List.map_reverse, List.map_map] at projected
    exact projected
  · intro record member
    rw [(each record member).2, size]

end

end AppManager.Rpm
