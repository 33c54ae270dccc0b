import AppManager.Lib.Libc
import Mathlib.Logic.Function.Basic

/-! Trees of paths, as `path-entry.c` holds them. An entry has its first child and
its next sibling, so a value of `Entry` is a pointer to a list of siblings, `null`
at its end. An entry is named by the components that lead to it from the root of
its tree; its variables are kept apart, under that reference. -/

namespace AppManager.Utils
open AppManager.Lib AppManager.Lib.Libc

abbrev slash : Byte := '/'.toUInt8

structure Label where
  name : Bytes
  added : Bool
  slash : Bool
  deriving DecidableEq, Repr

inductive Entry where
  | null
  | node (label : Label) (children sibling : Entry)
  deriving DecidableEq, Repr

abbrev Ref := List Bytes

def searchChild (name : Bytes) : Entry → Entry
  | .null => .null
  | .node label children sibling =>
    if label.name = name then .node label children sibling else searchChild name sibling

/-- The place of a new child is found by `strcmp` with the text where its name
starts, which goes on after that name. -/
def makeChild (name text : Bytes) (hasSlash : Bool) : Entry → Entry
  | .null => .node ⟨name, false, hasSlash⟩ .null .null
  | .node label children sibling =>
    if cstr label.name < cstr text then .node label children (makeChild name text hasSlash sibling)
    else .node ⟨name, false, hasSlash⟩ .null (.node label children sibling)

/-- The room for the name in the block of an entry. The sum is one of `unsigned`, so that nothing
is left for a name of 2^32 - 1 bytes, that is copied out of its block. -/
def nameRoom (length : Nat) : Nat := (length + 1) % 2 ^ 32

theorem nameRoom_iff {length : Nat} (small : length < 2 ^ 32) : length < nameRoom length ↔ length ≠ 2 ^ 32 - 1 := by
  unfold nameRoom
  omega

def getChild (name text : Bytes) (hasSlash : Bool) (children : Entry) : Entry :=
  if searchChild name children = .null then makeChild name text hasSlash children else children

/-- A component of a path, the text that starts with it, and whether a slash precedes it. -/
structure Segment where
  name : Bytes
  text : Bytes
  hasSlash : Bool
  deriving DecidableEq, Repr

/-- The components met by `process` in the first bytes of a text. -/
def segments (begins hasSlash : Bool) : Bytes → Nat → List Segment
  | _, 0 => []
  | [], _ => []
  | byte :: rest, length + 1 =>
    if byte = slash then segments true true rest length
    else if begins then
      ⟨((byte :: rest).take (length + 1)).takeWhile (· != slash), byte :: rest, hasSlash⟩ ::
        segments false true rest length
    else segments false true rest length

def components (path : Bytes) (length : Nat) : Ref :=
  (segments true false path length).map Segment.name

/-- The names of a path are copied into blocks that have room for them. -/
def NamesFit (path : Bytes) (length : Nat) : Prop :=
  ∀ segment ∈ segments true false path (length % 2 ^ 32), segment.name.length < nameRoom segment.name.length

instance (path : Bytes) (length : Nat) : Decidable (NamesFit path length) :=
  inferInstanceAs (Decidable (∀ segment ∈ segments true false path (length % 2 ^ 32),
    segment.name.length < nameRoom segment.name.length))

def updateChild (name : Bytes) (change : Label → Entry → Label × Entry) : Entry → Entry
  | .null => .null
  | .node label children sibling =>
    if label.name = name then
      .node (change label children).1 (change label children).2 sibling
    else .node label children (updateChild name change sibling)

/-- `process` with `get_child`, and the mark on the entry that it returns. -/
def addSegments : List Segment → Label → Entry → Label × Entry
  | [], label, children => ({ label with added := true }, children)
  | segment :: rest, label, children =>
    (label, updateChild segment.name (addSegments rest)
      (getChild segment.name segment.text segment.hasSlash children))

/-- An entry in its tree: the labels above it, nearest first, and its children. -/
structure PathEntry where
  ref : Ref
  above : List Label
  label : Label
  children : Entry
  deriving DecidableEq, Repr

namespace PathEntry

def lineage (entry : PathEntry) : List Label := entry.label :: entry.above

def child (entry : PathEntry) (label : Label) (children : Entry) : PathEntry :=
  ⟨entry.ref ++ [label.name], entry.lineage, label, children⟩

def findChild (entry : PathEntry) (name : Bytes) (children : Entry) : Option PathEntry :=
  match searchChild name children with
  | .null => none
  | .node label children _ => some (entry.child label children)

end PathEntry

/-- `process` with `search_child`. -/
def descend : Ref → PathEntry → Option PathEntry
  | [], entry => some entry
  | name :: rest, entry => (entry.findChild name entry.children).bind (descend rest)

namespace Entry

def names : Entry → List Bytes
  | .null => []
  | .node label _ sibling => label.name :: sibling.names

def WellFormed : Entry → Prop
  | .null => True
  | .node label children sibling =>
    label.name ≠ [] ∧ slash ∉ label.name ∧ label.name ∉ sibling.names ∧
      children.WellFormed ∧ sibling.WellFormed

end Entry

theorem searchChild_eq_null (name : Bytes) (children : Entry) :
    searchChild name children = .null ↔ name ∉ children.names := by
  induction children with
  | null => simp [searchChild, Entry.names]
  | node label children sibling _ ih =>
    simp only [searchChild, Entry.names, List.mem_cons, not_or]
    by_cases same : label.name = name
    · simp [same]
    · rw [if_neg same, ih]
      exact ⟨fun rest => ⟨fun equal => same equal.symm, rest⟩, fun both => both.2⟩

theorem names_makeChild (name text : Bytes) (hasSlash : Bool) (children : Entry) (other : Bytes) :
    other ∈ (makeChild name text hasSlash children).names ↔ other = name ∨ other ∈ children.names := by
  induction children with
  | null => simp [makeChild, Entry.names]
  | node label children sibling _ ih =>
    unfold makeChild
    split
    · simp only [Entry.names, List.mem_cons, ih]
      tauto
    · simp only [Entry.names, List.mem_cons]

theorem wellFormed_makeChild (name text : Bytes) (hasSlash : Bool) (children : Entry)
    (proper : name ≠ []) (plain : slash ∉ name) (fresh : name ∉ children.names)
    (wf : children.WellFormed) : (makeChild name text hasSlash children).WellFormed := by
  induction children with
  | null => exact ⟨proper, plain, by simp [Entry.names], trivial, trivial⟩
  | node label children sibling _ ih =>
    simp only [Entry.names, List.mem_cons, not_or] at fresh
    obtain ⟨labelProper, labelPlain, distinct, inner, rest⟩ := wf
    unfold makeChild
    split
    · refine ⟨labelProper, labelPlain, ?_, inner, ih fresh.2 rest⟩
      rw [names_makeChild, not_or]
      exact ⟨fun same => fresh.1 same.symm, distinct⟩
    · exact ⟨proper, plain, by simpa [Entry.names] using fresh, trivial,
        labelProper, labelPlain, distinct, inner, rest⟩

theorem names_updateChild (name : Bytes) (change : Label → Entry → Label × Entry)
    (keeps : ∀ label children, (change label children).1.name = label.name) (children : Entry) :
    (updateChild name change children).names = children.names := by
  induction children with
  | null => rfl
  | node label children sibling _ ih =>
    unfold updateChild
    split
    · simp only [Entry.names, keeps]
    · simp only [Entry.names, ih]

theorem wellFormed_updateChild (name : Bytes) (change : Label → Entry → Label × Entry)
    (keeps : ∀ label children, (change label children).1.name = label.name)
    (safe : ∀ label children, children.WellFormed → (change label children).2.WellFormed)
    (children : Entry) (wf : children.WellFormed) : (updateChild name change children).WellFormed := by
  induction children with
  | null => trivial
  | node label children sibling _ ih =>
    obtain ⟨proper, plain, distinct, inner, rest⟩ := wf
    unfold updateChild
    split
    · refine ⟨?_, ?_, ?_, safe label children inner, rest⟩
      · rw [keeps]; exact proper
      · rw [keeps]; exact plain
      · rw [keeps]; exact distinct
    · refine ⟨proper, plain, ?_, inner, ih rest⟩
      rw [names_updateChild name change keeps]
      exact distinct

theorem segment_proper (begins hasSlash : Bool) (path : Bytes) (length : Nat) :
    ∀ segment ∈ segments begins hasSlash path length, segment.name ≠ [] ∧ slash ∉ segment.name := by
  induction path generalizing begins hasSlash length with
  | nil => cases length <;> simp [segments]
  | cons byte rest ih =>
    cases length with
    | zero => simp [segments]
    | succ length =>
      unfold segments
      split
      · exact ih _ _ _
      · next other =>
        split
        · intro segment member
          rcases List.mem_cons.mp member with same | later
          · subst segment
            refine ⟨?_, ?_⟩
            · rw [List.take_succ_cons, List.takeWhile_cons_of_pos (by simpa using other)]
              simp
            · intro inside
              have differs := List.mem_takeWhile_imp inside
              simp at differs
          · exact ih _ _ _ segment later
        · exact ih _ _ _

theorem segment_length (begins hasSlash : Bool) (path : Bytes) (length : Nat) :
    ∀ segment ∈ segments begins hasSlash path length, segment.name.length ≤ length := by
  induction path generalizing begins hasSlash length with
  | nil => cases length <;> simp [segments]
  | cons byte rest ih =>
    cases length with
    | zero => simp [segments]
    | succ length =>
      have later (begins hasSlash : Bool) : ∀ segment ∈ segments begins hasSlash rest length,
          segment.name.length ≤ length + 1 :=
        fun segment member => (ih _ _ _ segment member).trans (Nat.le_succ length)
      unfold segments
      split
      · exact later _ _
      · split
        · refine List.forall_mem_cons.mpr ⟨?_, later _ _⟩
          exact (List.takeWhile_prefix _).length_le.trans (List.length_take_le _ _)
        · exact later _ _

theorem namesFit_short (path : Bytes) (length : Nat) (short : length < 2 ^ 32 - 1) : NamesFit path length := by
  intro segment member
  have bound := segment_length _ _ _ _ segment member
  have cut := Nat.mod_le length (2 ^ 32)
  exact (nameRoom_iff (by omega)).mpr (by omega)

theorem addSegments_name (path : List Segment) (label : Label) (children : Entry) :
    (addSegments path label children).1.name = label.name := by
  cases path <;> rfl

theorem wellFormed_addSegments (path : List Segment)
    (proper : ∀ segment ∈ path, segment.name ≠ [] ∧ slash ∉ segment.name) (label : Label)
    (children : Entry) (wf : children.WellFormed) : (addSegments path label children).2.WellFormed := by
  induction path generalizing label children with
  | nil => exact wf
  | cons segment rest ih =>
    have here := proper segment (by simp)
    have later := fun other member => proper other (List.mem_cons_of_mem segment member)
    apply wellFormed_updateChild _ _ (addSegments_name rest) (ih later)
    unfold getChild
    split
    · next missing =>
      exact wellFormed_makeChild _ _ _ _ here.1 here.2
        ((searchChild_eq_null _ _).mp missing) wf
    · exact wf

/-- A root entry and its tree. Siblings always have distinct proper names. -/
structure PathTree where
  added : Bool
  children : Entry
  wf : children.WellFormed

namespace PathTree

def label (tree : PathTree) : Label := ⟨[], tree.added, false⟩

def root (tree : PathTree) : PathEntry := ⟨[], [], tree.label, tree.children⟩

end PathTree

def pathEntryCreateRoot : PathTree := ⟨false, .null, trivial⟩

/-- With memory at hand, adding a path succeeds. The length is cut to an `unsigned`. -/
def pathEntryAddLength (tree : PathTree) (path : Bytes) (length : Nat) : Int × PathTree :=
  let path := segments true false path (length % 2 ^ 32)
  (0, ⟨(addSegments path tree.label tree.children).1.added,
    (addSegments path tree.label tree.children).2,
    wellFormed_addSegments path (segment_proper _ _ _ _) tree.label tree.children tree.wf⟩)

/-- `none` is the answer `-ENOENT`. -/
def pathEntryGetLength (root : PathEntry) (path : Bytes) (length : Nat) : Option PathEntry :=
  descend (components path (length % 2 ^ 32)) root

/-- A variable of an entry. Keys are addresses, a value can be `NULL`. -/
structure Var (Key Value : Type) where
  key : Key
  value : Option Value
  dispose : Bool

abbrev Vars (Key Value : Type) := Ref → List (Var Key Value)

section
variable {Key Value : Type} [DecidableEq Key]

def searchVar (vars : List (Var Key Value)) (key : Key) : Option (Var Key Value) :=
  vars.find? (fun var => key = var.key)

def pathEntryVar (vars : Vars Key Value) (entry : Ref) (key : Key) : Option Value :=
  (searchVar (vars entry) key).bind Var.value

def setVar (key : Key) (value : Option Value) (dispose : Bool) :
    List (Var Key Value) → List (Var Key Value)
  | [] => []
  | var :: rest =>
    if key = var.key then ⟨key, value, dispose⟩ :: rest else var :: setVar key value dispose rest

def pathEntryVarSet (vars : Vars Key Value) (entry : Ref) (key : Key) (value : Option Value)
    (dispose : Bool) : Vars Key Value :=
  Function.update vars entry
    (if (searchVar (vars entry) key).isSome then setVar key value dispose (vars entry)
    else ⟨key, value, dispose⟩ :: vars entry)

theorem searchVar_setVar (key other : Key) (value : Option Value) (dispose : Bool)
    (vars : List (Var Key Value)) (known : (searchVar vars key).isSome) :
    searchVar (setVar key value dispose vars) other =
      if other = key then some ⟨key, value, dispose⟩ else searchVar vars other := by
  induction vars with
  | nil => simp [searchVar] at known
  | cons var rest ih =>
    by_cases here : key = var.key
    · simp only [setVar, if_pos here, searchVar, List.find?_cons]
      by_cases same : other = key
      · simp [same]
      · simp [same, ← here]
    · simp only [setVar, if_neg here, searchVar, List.find?_cons] at ih known ⊢
      rw [decide_eq_false here] at known
      by_cases same : other = key
      · subst other
        simp only [decide_eq_false here, ih known]
      · rw [ih known, if_neg same, if_neg same]

theorem pathEntryVar_set (vars : Vars Key Value) (entry other : Ref) (key key' : Key)
    (value : Option Value) (dispose : Bool) :
    pathEntryVar (pathEntryVarSet vars entry key value dispose) other key' =
      if other = entry ∧ key' = key then value else pathEntryVar vars other key' := by
  unfold pathEntryVar pathEntryVarSet
  by_cases same : other = entry
  · subst other
    rw [Function.update_self]
    by_cases known : (searchVar (vars entry) key).isSome
    · rw [if_pos known, searchVar_setVar _ _ _ _ _ known]
      by_cases equal : key' = key
      · simp [equal]
      · simp [equal]
    · rw [if_neg known]
      by_cases equal : key' = key
      · simp [equal, searchVar]
      · simp [equal, searchVar]
  · rw [Function.update_of_ne same, if_neg (fun both => same both.1)]

end
end AppManager.Utils
