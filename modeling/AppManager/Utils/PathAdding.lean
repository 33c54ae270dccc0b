import AppManager.Utils.PathLookup

/-! Adding a path marks the entry of its components and no other one. -/

namespace AppManager.Utils
open AppManager.Lib AppManager.Lib.Libc

def childAt (name : Bytes) (children : Entry) : Option (Label × Entry) :=
  match searchChild name children with
  | .null => none
  | .node label children _ => some (label, children)

theorem childAt_null (name : Bytes) : childAt name .null = none := rfl

theorem childAt_node (name : Bytes) (label : Label) (children sibling : Entry) :
    childAt name (.node label children sibling) =
      if label.name = name then some (label, children) else childAt name sibling := by
  by_cases here : label.name = name
  · rw [childAt, searchChild, if_pos here, if_pos here]
  · rw [childAt, searchChild, if_neg here, if_neg here, childAt]

theorem childAt_eq_none (name : Bytes) (children : Entry) :
    childAt name children = none ↔ name ∉ children.names := by
  rw [← searchChild_eq_null]
  unfold childAt
  cases searchChild name children with
  | null => simp
  | node label children sibling => simp

theorem childAt_updateChild (name other : Bytes) (change : Label → Entry → Label × Entry)
    (keeps : ∀ label children, (change label children).1.name = label.name) (children : Entry) :
    childAt other (updateChild name change children) =
      if other = name then (childAt name children).map fun child => change child.1 child.2
      else childAt other children := by
  induction children with
  | null => simp [updateChild, childAt_null]
  | node label children sibling _ ih =>
    by_cases here : label.name = name
    · rw [updateChild, if_pos here, childAt_node, childAt_node, childAt_node, keeps, if_pos here]
      by_cases same : other = name
      · rw [if_pos (by rw [here, same]), if_pos same]
        rfl
      · rw [if_neg same, if_neg (by rw [here]; exact Ne.symm same), if_neg (by rw [here]; exact Ne.symm same)]
    · rw [updateChild, if_neg here, childAt_node, childAt_node, childAt_node, ih, if_neg here]
      by_cases same : other = name
      · rw [if_neg (by rw [same]; exact here), if_pos same, if_pos same]
      · rw [if_neg same, if_neg same]

theorem childAt_makeChild (name other text : Bytes) (hasSlash : Bool) (children : Entry)
    (fresh : name ∉ children.names) :
    childAt other (makeChild name text hasSlash children) =
      if other = name then some (⟨name, false, hasSlash⟩, .null) else childAt other children := by
  induction children with
  | null =>
    rw [makeChild, childAt_node]
    simp only [eq_comm]
  | node label children sibling _ ih =>
    rw [Entry.names, List.mem_cons, not_or] at fresh
    unfold makeChild
    split
    · rw [childAt_node, childAt_node, ih fresh.2]
      by_cases same : other = name
      · rw [if_neg (by rw [same]; exact Ne.symm fresh.1), if_pos same, if_pos same]
      · rw [if_neg same, if_neg same]
    · rw [childAt_node]
      simp only [eq_comm]

theorem childAt_getChild (name other text : Bytes) (hasSlash : Bool) (children : Entry) :
    childAt other (getChild name text hasSlash children) =
      if other = name then some ((childAt name children).getD (⟨name, false, hasSlash⟩, .null))
      else childAt other children := by
  unfold getChild
  by_cases missing : searchChild name children = .null
  · have fresh := (searchChild_eq_null name children).mp missing
    rw [if_pos missing, childAt_makeChild name other text hasSlash children fresh,
      (childAt_eq_none name children).mpr fresh]
    rfl
  · rw [if_neg missing]
    by_cases same : other = name
    · have known : childAt name children ≠ none := by
        rw [ne_eq, childAt_eq_none, ← searchChild_eq_null]
        exact missing
      obtain ⟨child, found⟩ := Option.ne_none_iff_exists'.mp known
      rw [if_pos same, same, found]
      rfl
    · rw [if_neg same]

def labelAt : Ref → Label → Entry → Option Label
  | [], label, _ => some label
  | name :: rest, _, children =>
    (childAt name children).bind fun child => labelAt rest child.1 child.2

theorem labelAt_null (ref : Ref) (label : Label) (added : label.added = false) :
    (labelAt ref label .null).any (·.added) = false := by
  cases ref with
  | nil => exact added
  | cons name rest => rfl

theorem descend_label (ref : Ref) (entry : PathEntry) :
    (descend ref entry).map PathEntry.label = labelAt ref entry.label entry.children := by
  induction ref generalizing entry with
  | nil => rfl
  | cons name rest ih =>
    rw [descend, labelAt, PathEntry.findChild, childAt]
    cases searchChild name entry.children with
    | null => rfl
    | node label children sibling =>
      rw [Option.bind_some, Option.bind_some, ih]
      rfl

theorem addSegments_label (path : List Segment) (label : Label) (children : Entry) :
    (addSegments path label children).1 = { label with added := (addSegments path label children).1.added } := by
  cases path <;> rfl

theorem labelAt_addSegments (path : List Segment) (label : Label) (children : Entry) (ref : Ref) :
    (labelAt ref (addSegments path label children).1 (addSegments path label children).2).any (·.added) =
      (decide (ref = path.map Segment.name) || (labelAt ref label children).any (·.added)) := by
  induction path generalizing label children ref with
  | nil =>
    cases ref with
    | nil => simp [labelAt, addSegments]
    | cons name rest => simp [labelAt, addSegments]
  | cons segment rest ih =>
    cases ref with
    | nil => simp [labelAt, addSegments]
    | cons name others =>
      rw [addSegments]
      simp only [labelAt]
      rw [childAt_updateChild _ _ _ (addSegments_name rest), childAt_getChild, childAt_getChild, if_pos rfl]
      by_cases same : name = segment.name
      · have fresh := labelAt_null others ⟨segment.name, false, segment.hasSlash⟩ rfl
        rw [if_pos same, Option.map_some, Option.bind_some, ih, same, List.map_cons]
        simp only [List.cons.injEq, true_and]
        cases childAt segment.name children with
        | none =>
          rw [Option.getD_none, fresh]
          rfl
        | some child => rfl
      · rw [if_neg same, if_neg same, List.map_cons]
        simp only [List.cons.injEq, same, false_and, decide_false, Bool.false_or]

def PathTree.Added (tree : PathTree) (ref : Ref) : Prop :=
  ∃ entry ∈ tree.root.entries, entry.label.added = true ∧ entry.ref = ref

theorem added_iff (tree : PathTree) (ref : Ref) :
    tree.Added ref ↔ (labelAt ref tree.label tree.children).any (·.added) = true := by
  have label := descend_label ref tree.root
  change _ = labelAt ref tree.label tree.children at label
  rw [← label]
  unfold PathTree.Added
  constructor
  · intro added
    obtain ⟨entry, member, marked, located⟩ := added
    rw [(descend_root_iff tree ref entry).mpr ⟨member, located⟩]
    exact marked
  · intro marked
    cases found : descend ref tree.root with
    | none =>
      rw [found] at marked
      cases marked
    | some entry =>
      obtain ⟨member, located⟩ := (descend_root_iff tree ref entry).mp found
      rw [found] at marked
      exact ⟨entry, member, marked, located⟩

theorem not_added_root (ref : Ref) : ¬pathEntryCreateRoot.Added ref := by
  rw [added_iff, pathEntryCreateRoot]
  have none := labelAt_null ref ⟨[], false, false⟩ rfl
  rw [← Bool.not_eq_true] at none
  exact none

theorem added_addLength (tree : PathTree) (path : Bytes) (length : Nat) (ref : Ref) :
    (pathEntryAddLength tree path length).2.Added ref ↔
      ref = components path (length % 2 ^ 32) ∨ tree.Added ref := by
  have step := labelAt_addSegments (segments true false path (length % 2 ^ 32)) tree.label tree.children ref
  have name : (addSegments (segments true false path (length % 2 ^ 32)) tree.label tree.children).1 =
      (pathEntryAddLength tree path length).2.label := addSegments_label _ tree.label tree.children
  rw [name] at step
  rw [added_iff, added_iff]
  change Option.any _ (labelAt ref _ (addSegments _ tree.label tree.children).2) = true ↔ _
  rw [step, Bool.or_eq_true, decide_eq_true_iff]
  rfl

end AppManager.Utils
