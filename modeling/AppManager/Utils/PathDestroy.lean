import AppManager.Utils.PathAdding

/-! Removing an entry removes all the ones below it and leaves the others as they
were. Entries are compared by what does not depend on the ones below them: their
reference and their labels up to the root. -/

namespace AppManager.Utils
open AppManager.Lib

def removeChild (name : Bytes) : Entry → Entry
  | .null => .null
  | .node label children sibling =>
    if label.name = name then sibling else .node label children (removeChild name sibling)

/-- `path_entry_destroy` of the entry at some components, in the children of their start. -/
def destroyBelow : Ref → Entry → Entry
  | [], children => children
  | [name], children => removeChild name children
  | name :: next :: rest, children =>
    updateChild name (fun label inner => (label, destroyBelow (next :: rest) inner)) children

theorem names_removeChild (name : Bytes) (children : Entry) :
    ∀ other ∈ (removeChild name children).names, other ∈ children.names := by
  induction children with
  | null => simp [removeChild, Entry.names]
  | node label inner sibling _ rest =>
    intro other member
    unfold removeChild at member
    split at member
    · exact List.mem_cons_of_mem _ member
    · rcases List.mem_cons.mp member with same | later
      · exact List.mem_cons.mpr (Or.inl same)
      · exact List.mem_cons_of_mem _ (rest other later)

theorem wellFormed_removeChild (name : Bytes) (children : Entry) (wf : children.WellFormed) :
    (removeChild name children).WellFormed := by
  induction children with
  | null => trivial
  | node label inner sibling _ rest =>
    obtain ⟨proper, plain, fresh, below, after⟩ := wf
    unfold removeChild
    split
    · exact after
    · exact ⟨proper, plain, fun known => fresh (names_removeChild name sibling _ known), below, rest after⟩

theorem wellFormed_destroyBelow (ref : Ref) (children : Entry) (wf : children.WellFormed) :
    (destroyBelow ref children).WellFormed := by
  induction ref generalizing children with
  | nil => exact wf
  | cons name rest ih =>
    cases rest with
    | nil => exact wellFormed_removeChild name children wf
    | cons next rest =>
      exact wellFormed_updateChild name _ (fun _ _ => rfl) (fun _ inner safe => ih inner safe) children wf

def pathEntryDestroy (tree : PathTree) (ref : Ref) : Option PathTree :=
  if ref = [] then none
  else some ⟨tree.added, destroyBelow ref tree.children, wellFormed_destroyBelow ref tree.children tree.wf⟩

/-- What is known of an entry whatever is below it. -/
def PathEntry.mark (entry : PathEntry) : Ref × List Label := (entry.ref, entry.lineage)

def marksBelow (parent : PathEntry) (siblings : Entry) : List (Ref × List Label) :=
  (entriesBelow parent siblings).map PathEntry.mark

def PathTree.marks (tree : PathTree) : List (Ref × List Label) := tree.root.entries.map PathEntry.mark

theorem marksBelow_congr (parent other : PathEntry) (siblings : Entry) (same : parent.mark = other.mark) :
    marksBelow parent siblings = marksBelow other siblings := by
  have ref : parent.ref = other.ref := congrArg Prod.fst same
  have lineage : parent.lineage = other.lineage := congrArg Prod.snd same
  unfold marksBelow
  induction siblings generalizing parent other with
  | null => rfl
  | node label children sibling inner rest =>
    have here : (parent.child label children).mark = (other.child label children).mark := by
      simp only [PathEntry.mark, PathEntry.child, PathEntry.lineage] at lineage ⊢
      rw [ref, lineage]
    simp only [entriesBelow, List.map_append, List.map_cons, here, rest parent other same ref lineage]
    rw [inner (parent.child label children) (other.child label children) here
      (congrArg Prod.fst here) (congrArg Prod.snd here)]

theorem marksBelow_node (parent : PathEntry) (label : Label) (children sibling : Entry) :
    marksBelow parent (.node label children sibling) =
      marksBelow (parent.child label children) children ++
        (parent.child label children).mark :: marksBelow parent sibling := by
  simp only [marksBelow, entriesBelow, List.map_append, List.map_cons]

theorem mark_below (parent : PathEntry) (siblings : Entry) (wf : siblings.WellFormed)
    (mark : Ref × List Label) (member : mark ∈ marksBelow parent siblings) :
    ∃ name ∈ siblings.names, ∃ rest, mark.1 = parent.ref ++ name :: rest := by
  obtain ⟨entry, inside, same⟩ := List.mem_map.mp member
  obtain ⟨name, rest, located, known, -⟩ := descend_of_mem parent siblings wf entry inside
  exact ⟨name, known, rest, by rw [← same]; exact located⟩

theorem prefix_append_cons {ref : Ref} {name other : Bytes} {path rest : Ref} :
    ref ++ name :: path <+: ref ++ other :: rest ↔ name = other ∧ path <+: rest := by
  rw [List.prefix_append_right_inj, List.cons_prefix_cons]

theorem marksBelow_aside (parent : PathEntry) (siblings : Entry) (wf : siblings.WellFormed)
    (name : Bytes) (path : Ref) (fresh : name ∉ siblings.names) :
    (marksBelow parent siblings).filter (fun mark => ¬parent.ref ++ name :: path <+: mark.1) =
      marksBelow parent siblings := by
  rw [List.filter_eq_self]
  intro mark member
  obtain ⟨other, known, rest, located⟩ := mark_below parent siblings wf mark member
  rw [decide_eq_true_eq, located, prefix_append_cons]
  exact fun both => fresh (both.1 ▸ known)

theorem marksBelow_removeChild (parent : PathEntry) (siblings : Entry) (wf : siblings.WellFormed)
    (name : Bytes) : marksBelow parent (removeChild name siblings) =
      (marksBelow parent siblings).filter (fun mark => ¬parent.ref ++ [name] <+: mark.1) := by
  induction siblings with
  | null => rfl
  | node label children sibling _ rest =>
    obtain ⟨-, -, fresh, below, after⟩ := wf
    have childRef : (parent.child label children).ref = parent.ref ++ [label.name] := rfl
    rw [marksBelow_node, List.filter_append, List.filter_cons]
    unfold removeChild
    by_cases same : label.name = name
    · subst same
      have inner : (marksBelow (parent.child label children) children).filter
          (fun mark => ¬parent.ref ++ [label.name] <+: mark.1) = [] := by
        rw [List.filter_eq_nil_iff]
        intro mark member
        obtain ⟨next, -, path, located⟩ := mark_below _ children below mark member
        rw [located, childRef]
        simp [List.append_assoc]
      rw [if_pos rfl, inner, List.nil_append, if_neg (by simp [PathEntry.mark, childRef]),
        marksBelow_aside parent sibling after _ _ fresh]
    · have inner : (marksBelow (parent.child label children) children).filter
          (fun mark => ¬parent.ref ++ [name] <+: mark.1) =
            marksBelow (parent.child label children) children := by
        rw [List.filter_eq_self]
        intro mark member
        obtain ⟨next, -, path, located⟩ := mark_below _ children below mark member
        rw [decide_eq_true_eq, located, childRef, List.append_assoc, List.singleton_append,
          prefix_append_cons]
        exact fun both => same both.1.symm
      have own : ¬parent.ref ++ [name] <+: (parent.child label children).mark.1 := by
        rw [PathEntry.mark, childRef, prefix_append_cons]
        exact fun both => same both.1.symm
      rw [if_neg same, if_pos (by simpa using own), inner, marksBelow_node, rest after]

theorem marksBelow_destroyBelow (parent : PathEntry) (siblings : Entry) (wf : siblings.WellFormed)
    (name : Bytes) (path : Ref) : marksBelow parent (destroyBelow (name :: path) siblings) =
      (marksBelow parent siblings).filter (fun mark => ¬parent.ref ++ name :: path <+: mark.1) := by
  induction path generalizing name siblings parent with
  | nil => exact marksBelow_removeChild parent siblings wf name
  | cons next path ih =>
    rw [destroyBelow]
    induction siblings with
    | null => rfl
    | node label children sibling _ rest =>
      obtain ⟨-, -, fresh, below, after⟩ := wf
      have childRef : (parent.child label children).ref = parent.ref ++ [label.name] := rfl
      have deeper : ¬parent.ref ++ name :: next :: path <+: (parent.child label children).mark.1 := by
        rw [PathEntry.mark, childRef, prefix_append_cons]
        simp
      rw [marksBelow_node, List.filter_append, List.filter_cons, if_pos (by simpa using deeper)]
      unfold updateChild
      by_cases same : label.name = name
      · subst same
        have inner := ih (parent.child label children) children below next
        rw [childRef, List.append_assoc, List.singleton_append] at inner
        rw [if_pos rfl, marksBelow_node, marksBelow_aside parent sibling after _ _ fresh, ← inner]
        rw [marksBelow_congr (parent.child label (destroyBelow (next :: path) children))
          (parent.child label children) _ rfl]
        rfl
      · have inner : (marksBelow (parent.child label children) children).filter
            (fun mark => ¬parent.ref ++ name :: next :: path <+: mark.1) =
              marksBelow (parent.child label children) children := by
          rw [List.filter_eq_self]
          intro mark member
          obtain ⟨other, -, others, located⟩ := mark_below _ children below mark member
          rw [decide_eq_true_eq, located, childRef, List.append_assoc, List.singleton_append,
            prefix_append_cons]
          exact fun both => same both.1.symm
        rw [if_neg same, marksBelow_node, inner, rest after]

theorem marks_eq (tree : PathTree) :
    tree.marks = marksBelow tree.root tree.children ++ [([], [tree.label])] := by
  simp only [PathTree.marks, PathEntry.entries, List.map_append, List.map_singleton, marksBelow]
  rfl

theorem added_marks (tree : PathTree) (ref : Ref) :
    tree.Added ref ↔ ∃ mark ∈ tree.marks, mark.1 = ref ∧ mark.2.head?.any Label.added = true := by
  unfold PathTree.Added PathTree.marks
  constructor
  · rintro ⟨entry, member, added, same⟩
    exact ⟨entry.mark, List.mem_map_of_mem member, same, by simpa [PathEntry.mark, PathEntry.lineage] using added⟩
  · rintro ⟨mark, member, same, added⟩
    obtain ⟨entry, inside, made⟩ := List.mem_map.mp member
    rw [← made] at same added
    exact ⟨entry, inside, by simpa [PathEntry.mark, PathEntry.lineage] using added, same⟩

theorem marks_pathEntryDestroy (tree rest : PathTree) (ref : Ref)
    (destroyed : pathEntryDestroy tree ref = some rest) :
    rest.marks = tree.marks.filter (fun mark => ¬ref <+: mark.1) := by
  cases ref with
  | nil => simp [pathEntryDestroy] at destroyed
  | cons name path =>
    simp only [pathEntryDestroy, reduceCtorEq, ↓reduceIte, Option.some.injEq] at destroyed
    subst destroyed
    have below := marksBelow_destroyBelow tree.root tree.children tree.wf name path
    have congr := marksBelow_congr
      (PathTree.root ⟨tree.added, destroyBelow (name :: path) tree.children,
        wellFormed_destroyBelow (name :: path) tree.children tree.wf⟩) tree.root
      (destroyBelow (name :: path) tree.children) rfl
    have own : ¬name :: path <+: ([] : Ref) := by simp
    have rootRef : tree.root.ref = [] := rfl
    rw [rootRef, List.nil_append] at below
    rw [marks_eq, marks_eq, List.filter_append, congr, below, List.filter_cons,
      if_pos (by rw [decide_eq_true_eq]; exact own), List.filter_nil]
    rfl

theorem entriesBelow_findChild (parent : PathEntry) (siblings : Entry) (wf : siblings.WellFormed)
    (name : Bytes) (path : Ref) (child entry : PathEntry)
    (found : parent.findChild name siblings = some child) (reached : descend path child = some entry)
    (whole : entry.entries = child.entries.filter (fun other => child.ref ++ path <+: other.ref)) :
    entry.entries = (entriesBelow parent siblings).filter
      (fun other => parent.ref ++ name :: path <+: other.ref) := by
  have aside : ∀ siblings : Entry, siblings.WellFormed → name ∉ siblings.names →
      (entriesBelow parent siblings).filter (fun other => parent.ref ++ name :: path <+: other.ref) = [] := by
    intro siblings wf fresh
    rw [List.filter_eq_nil_iff]
    intro other member
    obtain ⟨next, rest, located, known, -⟩ := descend_of_mem parent siblings wf other member
    rw [decide_eq_true_eq, located, prefix_append_cons]
    exact fun both => fresh (both.1 ▸ known)
  induction siblings with
  | null => simp [PathEntry.findChild, searchChild] at found
  | node label children sibling _ rest =>
    obtain ⟨-, -, fresh, below, after⟩ := wf
    have childRef : (parent.child label children).ref = parent.ref ++ [label.name] := rfl
    by_cases same : label.name = name
    · subst same
      rw [findChild_here, Option.some.injEq] at found
      subst found
      rw [whole, PathEntry.entries, entriesBelow, childRef, List.append_assoc, List.singleton_append]
      simp only [List.filter_append, List.filter_cons, aside sibling after fresh, List.filter_nil]
      rfl
    · rw [findChild_later _ _ _ _ _ same] at found
      have inner : (entriesBelow (parent.child label children) children).filter
          (fun other => parent.ref ++ name :: path <+: other.ref) = [] := by
        rw [List.filter_eq_nil_iff]
        intro other member
        obtain ⟨next, rest, located, -, -⟩ := descend_of_mem _ children below other member
        rw [decide_eq_true_eq, located, childRef, List.append_assoc, List.singleton_append,
          prefix_append_cons]
        exact fun both => same both.1.symm
      have own : ¬parent.ref ++ name :: path <+: (parent.child label children).ref := by
        rw [childRef, prefix_append_cons]
        exact fun both => same both.1.symm
      rw [entriesBelow, List.filter_append, inner, List.nil_append, List.filter_cons,
        if_neg (by simpa using own)]
      exact rest after found

theorem wellFormed_findChild (parent : PathEntry) (siblings : Entry) (wf : siblings.WellFormed)
    (name : Bytes) (child : PathEntry) (found : parent.findChild name siblings = some child) :
    child.children.WellFormed := by
  induction siblings with
  | null => simp [PathEntry.findChild, searchChild] at found
  | node label children sibling _ rest =>
    obtain ⟨-, -, -, below, after⟩ := wf
    by_cases same : label.name = name
    · subst same
      rw [findChild_here, Option.some.injEq] at found
      subst found
      exact below
    · rw [findChild_later _ _ _ _ _ same] at found
      exact rest after found

theorem entries_descend (path : Ref) (start entry : PathEntry) (wf : start.children.WellFormed)
    (reached : descend path start = some entry) :
    entry.children.WellFormed ∧
      entry.entries = start.entries.filter (fun other => start.ref ++ path <+: other.ref) := by
  induction path generalizing start with
  | nil =>
    have same := Option.some.inj reached
    subst same
    refine ⟨wf, ?_⟩
    rw [eq_comm, List.filter_eq_self]
    intro other member
    rw [List.append_nil, decide_eq_true_eq]
    rcases List.mem_append.mp member with below | own
    · obtain ⟨name, rest, located, -, -⟩ := descend_of_mem start start.children wf other below
      exact ⟨name :: rest, located.symm⟩
    · obtain rfl := List.mem_singleton.mp own
      exact List.prefix_refl _
  | cons name rest ih =>
    rw [descend, Option.bind_eq_some_iff] at reached
    obtain ⟨child, found, later⟩ := reached
    obtain ⟨safe, whole⟩ := ih child (wellFormed_findChild start start.children wf name child found) later
    refine ⟨safe, ?_⟩
    have own : ¬start.ref ++ name :: rest <+: start.ref := by
      intro longer
      have size := longer.length_le
      rw [List.length_append, List.length_cons] at size
      omega
    rw [entriesBelow_findChild start start.children wf name rest child entry found later whole,
      PathEntry.entries, List.filter_append, List.filter_cons, if_neg (by simpa using own),
      List.filter_nil, List.append_nil]

theorem marks_descend (tree : PathTree) (ref : Ref) (entry : PathEntry)
    (found : descend ref tree.root = some entry) :
    entry.entries.map PathEntry.mark = tree.marks.filter (fun mark => ref <+: mark.1) := by
  have whole := (entries_descend ref tree.root entry tree.wf found).2
  have rootRef : tree.root.ref = [] := rfl
  rw [rootRef, List.nil_append] at whole
  rw [whole, PathTree.marks, List.filter_map]
  rfl

end AppManager.Utils
