import AppManager.Utils.PathAdding
import AppManager.Utils.PathTours

/-! Which entries of a tree are marked as having a slash before them: all those below
another one, and at the top those whose first given path starts with a slash. -/

namespace AppManager.Utils
open AppManager.Lib AppManager.Lib.Libc

def componentsOf (path : Bytes) : Ref := components path (path.length % 2 ^ 32)

/-- The first of some paths that leads through a name from the root. -/
def firstThrough (name : Bytes) (paths : List Bytes) : Option Bytes :=
  paths.find? fun path => (componentsOf path).head? = some name

def startsWithSlash (path : Bytes) : Bool := path.head? == some slash

theorem segments_slashed (begins : Bool) (path : Bytes) (length : Nat) :
    ∀ segment ∈ segments begins true path length, segment.hasSlash = true := by
  induction path generalizing begins length with
  | nil => cases length <;> simp [segments]
  | cons byte rest ih =>
    cases length with
    | zero => simp [segments]
    | succ length =>
      intro segment member
      unfold segments at member
      split at member
      · exact ih _ _ segment member
      · split at member
        · rcases List.mem_cons.mp member with same | later
          · rw [same]
          · exact ih _ _ segment later
        · exact ih _ _ segment member

theorem segments_first (path : Bytes) (length : Nat) {first : Segment} {rest : List Segment}
    (cut : segments true false path length = first :: rest) :
    first.hasSlash = startsWithSlash path ∧ ∀ segment ∈ rest, segment.hasSlash = true := by
  cases path with
  | nil => cases length <;> cases cut
  | cons byte text =>
    cases length with
    | zero => cases cut
    | succ length =>
      unfold segments at cut
      split at cut
      · next same =>
        have all := segments_slashed true text length
        rw [cut] at all
        refine ⟨?_, fun segment member => all segment (List.mem_cons_of_mem _ member)⟩
        rw [all first (by simp), same]
        rfl
      · next other =>
        rw [if_pos rfl] at cut
        obtain ⟨head, tail⟩ := List.cons.inj cut
        refine ⟨?_, ?_⟩
        · rw [← head]
          simp [startsWithSlash, other]
        · rw [← tail]
          exact segments_slashed false text length

def AllSlashed (children : Entry) : Prop :=
  ∀ name rest label label', labelAt (name :: rest) label children = some label' → label'.slash = true

theorem allSlashed_null : AllSlashed .null := by
  intro name rest label label' found
  cases found

theorem allSlashed_child {name : Bytes} {children : Entry} {child : Label × Entry}
    (all : AllSlashed children) (found : childAt name children = some child) :
    child.1.slash = true ∧ AllSlashed child.2 := by
  refine ⟨all name [] child.1 child.1 (by simp [labelAt, found]), ?_⟩
  intro other rest label label' below
  apply all name (other :: rest) label label'
  rw [labelAt, found, Option.bind_some]
  exact below

theorem allSlashed_of_children {children : Entry}
    (each : ∀ name child, childAt name children = some child → child.1.slash = true ∧ AllSlashed child.2) :
    AllSlashed children := by
  intro name rest label label' found
  rw [labelAt, Option.bind_eq_some_iff] at found
  obtain ⟨child, here, below⟩ := found
  obtain ⟨own, deeper⟩ := each name child here
  cases rest with
  | nil =>
    rw [labelAt, Option.some.injEq] at below
    rw [← below]
    exact own
  | cons next rest => exact deeper next rest child.1 label' below

theorem childAt_addSegments (first : Segment) (rest : List Segment) (label : Label) (children : Entry)
    (name : Bytes) :
    childAt name (addSegments (first :: rest) label children).2 =
      if name = first.name then
        some (let child := (childAt name children).getD (⟨name, false, first.hasSlash⟩, .null)
          addSegments rest child.1 child.2)
      else childAt name children := by
  rw [addSegments, childAt_updateChild _ _ _ (addSegments_name rest), childAt_getChild, childAt_getChild,
    if_pos rfl]
  by_cases same : name = first.name
  · rw [if_pos same, if_pos same, same]
    rfl
  · rw [if_neg same, if_neg same, if_neg same]

theorem addSegments_slash (path : List Segment) (label : Label) (children : Entry) :
    (addSegments path label children).1.slash = label.slash := by
  cases path <;> rfl

theorem allSlashed_addSegments (path : List Segment) (slashes : ∀ segment ∈ path, segment.hasSlash = true)
    (label : Label) (children : Entry) (all : AllSlashed children) :
    AllSlashed (addSegments path label children).2 := by
  induction path generalizing label children with
  | nil => exact all
  | cons first rest ih =>
    apply allSlashed_of_children
    intro name child found
    rw [childAt_addSegments] at found
    by_cases same : name = first.name
    · rw [if_pos same, Option.some.injEq] at found
      rw [← found]
      simp only [addSegments_slash]
      have later := ih (fun segment member => slashes segment (List.mem_cons_of_mem _ member))
      cases known : childAt name children with
      | none => exact ⟨slashes first (by simp), later _ _ allSlashed_null⟩
      | some old =>
        obtain ⟨own, below⟩ := allSlashed_child all known
        exact ⟨own, later _ _ below⟩
    · rw [if_neg same] at found
      exact allSlashed_child all found

/-- The slashes of a tree in which some paths were put. -/
structure Slashes (paths : List Bytes) (tree : PathTree) : Prop where
  top : ∀ name, (childAt name tree.children).map (·.1.slash) = (firstThrough name paths).map startsWithSlash
  below : ∀ name child, childAt name tree.children = some child → AllSlashed child.2

theorem slashes_start : Slashes [] pathEntryCreateRoot := ⟨fun _ => rfl, fun _ _ found => by cases found⟩

theorem Slashes.add {paths : List Bytes} {tree : PathTree} (slashes : Slashes paths tree) (path : Bytes) :
    Slashes (paths ++ [path]) (pathEntryAddLength tree path path.length).2 := by
  have through : ∀ name, firstThrough name (paths ++ [path]) = (firstThrough name paths).or
      (if (componentsOf path).head? = some name then some path else none) := by
    intro name
    rw [firstThrough, List.find?_append]
    congr 1
    by_cases leads : (componentsOf path).head? = some name
    · simp [leads]
    · simp [leads]
  have parts : componentsOf path =
      (segments true false path (path.length % 2 ^ 32)).map Segment.name := rfl
  have children : (pathEntryAddLength tree path path.length).2.children =
      (addSegments (segments true false path (path.length % 2 ^ 32)) tree.label tree.children).2 := rfl
  cases cut : segments true false path (path.length % 2 ^ 32) with
  | nil =>
    rw [cut] at children parts
    constructor
    · intro name
      rw [through, children, parts]
      simpa [addSegments] using slashes.top name
    · rw [children]
      exact slashes.below
  | cons first rest =>
    obtain ⟨own, later⟩ := segments_first path _ cut
    rw [cut] at children parts
    constructor
    · intro name
      have before := slashes.top name
      rw [through, children, parts, childAt_addSegments, List.map_cons, List.head?_cons]
      by_cases same : name = first.name
      · rw [if_pos same, if_pos (by rw [same])]
        cases known : firstThrough name paths with
        | none =>
          rw [known, Option.map_none, Option.map_eq_none_iff] at before
          simp [before, addSegments_slash, own]
        | some earlier =>
          rw [known] at before
          obtain ⟨child, found, flag⟩ := Option.map_eq_some_iff.mp before
          simp [found, addSegments_slash, flag]
      · rw [if_neg same, if_neg (fun equal => same (Option.some.inj equal).symm), Option.or_none]
        exact before
    · intro name child found
      rw [children, childAt_addSegments] at found
      by_cases same : name = first.name
      · rw [if_pos same, Option.some.injEq] at found
        rw [← found]
        apply allSlashed_addSegments rest later
        cases known : childAt name tree.children with
        | none => exact allSlashed_null
        | some old => exact slashes.below name old known
      · rw [if_neg same] at found
        exact slashes.below name child found

/-- The slash of an entry below another one. -/
theorem Slashes.nested {paths : List Bytes} {tree : PathTree} (slashes : Slashes paths tree) {ref : Ref}
    {label : Label} (found : labelAt ref tree.label tree.children = some label) (nested : 2 ≤ ref.length) :
    label.slash = true := by
  cases ref with
  | nil => simp at nested
  | cons name rest =>
    cases rest with
    | nil => simp at nested
    | cons next rest =>
      rw [labelAt, Option.bind_eq_some_iff] at found
      obtain ⟨child, here, below⟩ := found
      exact slashes.below name child here next rest child.1 label below

/-- The slash of an entry at the top. -/
theorem Slashes.first {paths : List Bytes} {tree : PathTree} (slashes : Slashes paths tree) {name : Bytes}
    {label : Label} (found : labelAt [name] tree.label tree.children = some label) :
    some label.slash = (firstThrough name paths).map startsWithSlash := by
  rw [labelAt, Option.bind_eq_some_iff] at found
  obtain ⟨child, here, same⟩ := found
  rw [labelAt, Option.some.injEq] at same
  rw [← slashes.top name, here, ← same, Option.map_some]

end AppManager.Utils
