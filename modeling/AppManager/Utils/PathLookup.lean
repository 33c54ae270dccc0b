import AppManager.Utils.PathVisits

/-! Looking a path up finds the entry that has it as reference, and the full path
of an entry leads back to it. -/

namespace AppManager.Utils
open AppManager.Lib AppManager.Lib.Libc

theorem findChild_here (parent : PathEntry) (label : Label) (children sibling : Entry) :
    parent.findChild label.name (.node label children sibling) = some (parent.child label children) := by
  simp [PathEntry.findChild, searchChild]

theorem findChild_later (parent : PathEntry) (label : Label) (children sibling : Entry) (name : Bytes)
    (other : label.name ≠ name) :
    parent.findChild name (.node label children sibling) = parent.findChild name sibling := by
  simp [PathEntry.findChild, searchChild, other]

/-- Entries below a parent are found from it. -/
theorem descend_of_mem (parent : PathEntry) (siblings : Entry) (wf : siblings.WellFormed)
    (entry : PathEntry) (member : entry ∈ entriesBelow parent siblings) :
    ∃ name rest, entry.ref = parent.ref ++ name :: rest ∧ name ∈ siblings.names ∧
      (parent.findChild name siblings).bind (descend rest) = some entry := by
  induction siblings generalizing parent with
  | null => simp [entriesBelow] at member
  | node label children sibling inner rest =>
    obtain ⟨-, -, fresh, below, after⟩ := wf
    rcases List.mem_append.mp member with inside | others
    · obtain ⟨name, path, located, -, found⟩ := inner (parent.child label children) below inside
      refine ⟨label.name, name :: path, by simp [located, PathEntry.child], by simp [Entry.names], ?_⟩
      rw [findChild_here, Option.bind_some, descend]
      exact found
    · rcases List.mem_cons.mp others with same | later
      · refine ⟨label.name, [], by simp [same, PathEntry.child], by simp [Entry.names], ?_⟩
        rw [findChild_here, Option.bind_some, descend, same]
      · obtain ⟨name, path, located, known, found⟩ := rest parent after later
        refine ⟨name, path, located, by simp [Entry.names, known], ?_⟩
        have other : label.name ≠ name := fun same => fresh (same ▸ known)
        rw [findChild_later _ _ _ _ _ other]
        exact found

theorem findChild_entries (parent : PathEntry) (name : Bytes) (siblings : Entry) (child : PathEntry)
    (found : parent.findChild name siblings = some child) :
    child.ref = parent.ref ++ [name] ∧ child.entries ⊆ entriesBelow parent siblings := by
  induction siblings with
  | null => simp [PathEntry.findChild, searchChild] at found
  | node label children sibling _ rest =>
    by_cases same : label.name = name
    · subst same
      rw [findChild_here] at found
      have equal := Option.some.inj found
      subst equal
      refine ⟨rfl, fun entry member => ?_⟩
      rcases List.mem_append.mp member with inside | own
      · exact List.mem_append.mpr (Or.inl inside)
      · exact List.mem_append.mpr (Or.inr (List.mem_cons.mpr (Or.inl (List.mem_singleton.mp own))))
    · rw [findChild_later _ _ _ _ _ same] at found
      obtain ⟨located, sub⟩ := rest found
      exact ⟨located, fun entry member =>
        List.mem_append.mpr (Or.inr (List.mem_cons.mpr (Or.inr (sub member))))⟩

theorem descend_sound (path : Ref) (start entry : PathEntry) (found : descend path start = some entry) :
    entry.ref = start.ref ++ path ∧ entry ∈ start.entries := by
  induction path generalizing start with
  | nil =>
    have same := Option.some.inj found
    subst same
    simp [PathEntry.entries]
  | cons name rest ih =>
    rw [descend, Option.bind_eq_some_iff] at found
    obtain ⟨child, first, later⟩ := found
    obtain ⟨located, sub⟩ := findChild_entries start name start.children child first
    obtain ⟨reaches, member⟩ := ih child later
    refine ⟨by simp [reaches, located], List.mem_append.mpr (Or.inl (sub member))⟩

theorem descend_append (first second : Ref) (start : PathEntry) :
    descend (first ++ second) start = (descend first start).bind (descend second) := by
  induction first generalizing start with
  | nil => rfl
  | cons name rest ih =>
    rw [List.cons_append, descend, descend, Option.bind_assoc]
    congr 1
    funext child
    exact ih child

/-- Descending along a reference finds the entry of the tree that has it, if any. -/
theorem descend_root_iff (tree : PathTree) (path : Ref) (entry : PathEntry) :
    descend path tree.root = some entry ↔ entry ∈ tree.root.entries ∧ entry.ref = path := by
  constructor
  · intro found
    obtain ⟨located, member⟩ := descend_sound path tree.root entry found
    exact ⟨member, located⟩
  · rintro ⟨member, rfl⟩
    rcases List.mem_append.mp member with below | own
    · obtain ⟨name, rest, located, -, found⟩ :=
        descend_of_mem tree.root tree.children tree.wf entry below
      rw [located]
      exact found
    · rw [List.mem_singleton.mp own]
      rfl

theorem entry_unique (tree : PathTree) {first second : PathEntry}
    (known : first ∈ tree.root.entries) (known' : second ∈ tree.root.entries)
    (same : first.ref = second.ref) : first = second := by
  have found := (descend_root_iff tree first.ref first).mpr ⟨known, rfl⟩
  have found' := (descend_root_iff tree first.ref second).mpr ⟨known', same.symm⟩
  exact Option.some.inj (found.symm.trans found')

theorem ref_below (parent : PathEntry) (siblings : Entry) :
    ∀ entry ∈ entriesBelow parent siblings, ∃ above, entry.ref = above ++ [entry.label.name] := by
  induction siblings generalizing parent with
  | null => simp [entriesBelow]
  | node label children sibling inner rest =>
    intro entry member
    rcases List.mem_append.mp member with inside | others
    · exact inner _ entry inside
    · rcases List.mem_cons.mp others with same | later
      · exact ⟨parent.ref, by rw [same]; rfl⟩
      · exact rest parent entry later

/-- The last component of a reference is the name of its entry. -/
theorem ref_last (tree : PathTree) (entry : PathEntry) (member : entry ∈ tree.root.entries)
    (below : entry.ref ≠ []) : ∃ above, entry.ref = above ++ [entry.label.name] := by
  rcases List.mem_append.mp member with inside | own
  · exact ref_below tree.root tree.children entry inside
  · rw [List.mem_singleton.mp own] at below
    exact absurd rfl below

theorem named_below (parent : PathEntry) (siblings : Entry) (wf : siblings.WellFormed) :
    ∀ entry ∈ entriesBelow parent siblings, entry.label.name ≠ [] := by
  induction siblings generalizing parent with
  | null => simp [entriesBelow]
  | node label children sibling inner rest =>
    obtain ⟨proper, -, -, below, after⟩ := wf
    intro entry member
    rcases List.mem_append.mp member with inside | others
    · exact inner _ below entry inside
    · rcases List.mem_cons.mp others with same | later
      · rw [same]
        exact proper
      · exact rest parent after entry later

theorem entry_named (tree : PathTree) (entry : PathEntry) (member : entry ∈ tree.root.entries)
    (below : entry.ref ≠ []) : entry.label.name ≠ [] := by
  rcases List.mem_append.mp member with inside | own
  · exact named_below tree.root tree.children tree.wf entry inside
  · rw [List.mem_singleton.mp own] at below
    exact absurd rfl below

theorem nodup_below (parent : PathEntry) (siblings : Entry) (wf : siblings.WellFormed) :
    ((entriesBelow parent siblings).map PathEntry.ref).Nodup := by
  induction siblings generalizing parent with
  | null => simp [entriesBelow]
  | node label children sibling inner rest =>
    obtain ⟨-, -, fresh, below, after⟩ := wf
    have deeper : ∀ entry ∈ entriesBelow (parent.child label children) children,
        ∃ name path, entry.ref = parent.ref ++ label.name :: name :: path := by
      intro entry member
      obtain ⟨name, path, located, -, -⟩ := descend_of_mem _ _ below entry member
      exact ⟨name, path, by simp [located, PathEntry.child]⟩
    have aside : ∀ entry ∈ entriesBelow parent sibling,
        ∃ name path, entry.ref = parent.ref ++ name :: path ∧ name ≠ label.name := by
      intro entry member
      obtain ⟨name, path, located, known, -⟩ := descend_of_mem _ _ after entry member
      exact ⟨name, path, located, fun same => fresh (same ▸ known)⟩
    have own : (parent.child label children).ref = parent.ref ++ [label.name] := rfl
    simp only [entriesBelow, List.map_append, List.map_cons, List.nodup_append, List.nodup_cons,
      List.mem_map, List.mem_cons, inner _ below, rest _ after, own, true_and, and_true]
    constructor
    · rintro ⟨entry, member, same⟩
      obtain ⟨name, path, located, other⟩ := aside entry member
      rw [located] at same
      simp at same
      exact other same.1
    · rintro _ ⟨entry, member, rfl⟩ _ (same | ⟨other, member', rfl⟩)
      · obtain ⟨name, path, located⟩ := deeper entry member
        simp [located, same]
      · obtain ⟨name, path, located⟩ := deeper entry member
        obtain ⟨name', path', located', differs⟩ := aside other member'
        rw [located, located']
        simp
        intro equal
        exact absurd equal.symm differs

theorem nodup_entries (tree : PathTree) : (tree.root.entries.map PathEntry.ref).Nodup := by
  have below := nodup_below tree.root tree.children tree.wf
  have rootRef : tree.root.ref = [] := rfl
  simp only [PathEntry.entries, List.map_append, List.map_singleton, List.nodup_append,
    List.mem_singleton, rootRef]
  refine ⟨below, by simp, ?_⟩
  rintro ref member _ rfl
  obtain ⟨entry, inside, rfl⟩ := List.mem_map.mp member
  obtain ⟨name, rest, located, -, -⟩ := descend_of_mem tree.root tree.children tree.wf entry inside
  simp [located]

theorem mem_addedVisits (tree : PathTree) (visit : Visit) : visit ∈ addedVisits tree ↔
    visit.entry ∈ tree.root.entries ∧ visit.entry.label.added = true ∧
      visit.path = pathOf visit.entry.lineage := by
  unfold addedVisits
  rw [List.mem_map]
  constructor
  · intro ⟨entry, member, same⟩
    rw [List.mem_filter] at member
    rw [← same]
    exact ⟨member.1, member.2, rfl⟩
  · intro ⟨known, added, path⟩
    refine ⟨visit.entry, List.mem_filter.mpr ⟨known, added⟩, ?_⟩
    rw [← path]

theorem nodup_addedVisits (tree : PathTree) : ((addedVisits tree).map (·.entry.ref)).Nodup := by
  have refs : (addedVisits tree).map (·.entry.ref) =
      (tree.root.entries.filter (·.label.added)).map PathEntry.ref := by
    simp [addedVisits]
  rw [refs]
  exact (nodup_entries tree).sublist (List.filter_sublist.map PathEntry.ref)

theorem nodup_reached (tree : PathTree) : ((reached tree).map (·.entry.ref)).Nodup :=
  (nodup_addedVisits tree).sublist ((reached_of_added tree).sublist.map _)

def names (begins : Bool) (path : Bytes) : Ref :=
  (segments begins begins path path.length).map Segment.name

theorem names_hasSlash (begins hasSlash : Bool) (path : Bytes) (length : Nat) :
    (segments begins hasSlash path length).map Segment.name =
      (segments begins begins path length).map Segment.name := by
  induction path generalizing begins hasSlash length with
  | nil => cases length <;> rfl
  | cons byte rest ih =>
    cases length with
    | zero => rfl
    | succ length =>
      unfold segments
      split
      · rfl
      · split <;> rfl

theorem names_cons (begins : Bool) (byte : Byte) (rest : Bytes) :
    names begins (byte :: rest) = if byte = slash then names true rest
      else if begins then (byte :: rest).takeWhile (· != slash) :: names false rest
      else names false rest := by
  unfold names
  rw [List.length_cons, segments]
  split
  · rfl
  · split
    · rw [List.map_cons, names_hasSlash false true, List.take_of_length_le (by simp)]
    · rw [names_hasSlash false true]

theorem names_nil (begins : Bool) : names begins [] = [] := rfl

theorem names_tail (path : Bytes) (plain : slash ∉ path) : names false path = [] := by
  induction path with
  | nil => exact names_nil false
  | cons byte rest ih =>
    rw [List.mem_cons, not_or] at plain
    rw [names_cons, if_neg (fun same => plain.1 same.symm), if_neg (by simp), ih plain.2]

theorem names_single (name : Bytes) (proper : name ≠ []) (plain : slash ∉ name) :
    names true name = [name] := by
  cases name with
  | nil => exact absurd rfl proper
  | cons byte rest =>
    have whole : (byte :: rest).takeWhile (· != slash) = byte :: rest := by
      rw [List.takeWhile_eq_self_iff]
      intro other member
      rw [bne_iff_ne]
      exact fun same => plain (same ▸ member)
    rw [List.mem_cons, not_or] at plain
    rw [names_cons, if_neg (fun same => plain.1 same.symm), if_pos rfl, whole, names_tail rest plain.2]

theorem names_join (begins : Bool) (first second : Bytes) :
    names begins (first ++ slash :: second) = names begins first ++ names true second := by
  induction first generalizing begins with
  | nil => rw [List.nil_append, names_cons, if_pos rfl, names_nil, List.nil_append]
  | cons byte rest ih =>
    rw [List.cons_append, names_cons, names_cons]
    by_cases isSlash : byte = slash
    · rw [if_pos isSlash, if_pos isSlash, ih]
    · have same : (byte :: (rest ++ slash :: second)).takeWhile (· != slash) =
          (byte :: rest).takeWhile (· != slash) := by
        rw [← List.cons_append, List.takeWhile_append]
        split
        · next all => rw [List.takeWhile_cons_of_neg (by simp), List.append_nil,
            (List.takeWhile_prefix _).eq_of_length all]
        · rfl
      rw [if_neg isSlash, if_neg isSlash, same, ih]
      split <;> rfl

theorem names_append (begins : Bool) (path name : Bytes) (proper : name ≠ []) (plain : slash ∉ name) :
    names begins (path ++ slash :: name) = names begins path ++ [name] := by
  rw [names_join, names_single name proper plain]

theorem components_eq (path : Bytes) : components path path.length = names true path :=
  names_hasSlash true false path path.length

theorem names_child (parent : PathEntry) (label : Label) (children : Entry) (proper : label.name ≠ [])
    (plain : slash ∉ label.name) (known : names true (pathOf parent.lineage) = parent.ref) :
    names true (pathOf (parent.child label children).lineage) = (parent.child label children).ref := by
  have own : pathOf (parent.child label children).lineage = pathOf (label :: parent.lineage) := rfl
  rw [own, pathOf_cons label _ proper, PathEntry.child, ← known]
  by_cases top : pathOf parent.lineage = []
  · cases starts : label.slash with
    | false => simp [top, names_nil, names_single _ proper plain]
    | true => simp [top, names_nil, names_cons, names_single _ proper plain]
  · have deeper : 0 < (pathOf parent.lineage).length := List.length_pos_iff.mpr top
    simp [deeper, names_append _ _ _ proper plain]

theorem names_below (parent : PathEntry) (siblings : Entry) (wf : siblings.WellFormed)
    (known : names true (pathOf parent.lineage) = parent.ref) :
    ∀ entry ∈ entriesBelow parent siblings, names true (pathOf entry.lineage) = entry.ref := by
  induction siblings generalizing parent with
  | null => simp [entriesBelow]
  | node label children sibling inner rest =>
    obtain ⟨proper, plain, -, below, after⟩ := wf
    have here := names_child parent label children proper plain known
    intro entry member
    rcases List.mem_append.mp member with inside | others
    · exact inner _ below here entry inside
    · rcases List.mem_cons.mp others with same | later
      · rw [same]
        exact here
      · exact rest parent after known entry later

theorem components_pathOf (tree : PathTree) (entry : PathEntry) (member : entry ∈ tree.root.entries) :
    components (pathOf entry.lineage) (pathOf entry.lineage).length = entry.ref := by
  have top : pathOf tree.root.lineage = [] := by
    simp [PathEntry.lineage, PathTree.root, PathTree.label, pathOf]
  have start : names true (pathOf tree.root.lineage) = tree.root.ref := by
    rw [top]
    rfl
  rw [components_eq]
  rcases List.mem_append.mp member with below | own
  · exact names_below tree.root tree.children tree.wf start entry below
  · rw [List.mem_singleton.mp own]
    exact start

theorem pathEntryGetLength_pathOf (tree : PathTree) (entry : PathEntry)
    (member : entry ∈ tree.root.entries) (small : (pathOf entry.lineage).length < 2 ^ 32) :
    pathEntryGetLength tree.root (pathOf entry.lineage) (pathOf entry.lineage).length = some entry := by
  rw [pathEntryGetLength, Nat.mod_eq_of_lt small, components_pathOf tree entry member,
    descend_root_iff]
  exact ⟨member, rfl⟩

theorem segments_single (name : Bytes) (proper : name ≠ []) (plain : slash ∉ name) :
    segments true false name name.length = [⟨name, name, false⟩] := by
  have known := names_single name proper plain
  rw [← components_eq, components] at known
  cases name with
  | nil => exact absurd rfl proper
  | cons byte rest =>
    have other : byte ≠ slash := fun same => plain (by simp [same])
    rw [List.length_cons, segments, if_neg other, if_pos rfl] at known ⊢
    rw [List.map_cons, List.cons.injEq, List.map_eq_nil_iff] at known
    obtain ⟨whole, none⟩ := known
    simp only at whole
    rw [whole, none]

theorem addLength_single (name : Bytes) (proper : name ≠ []) (plain : slash ∉ name)
    (small : name.length < 2 ^ 32) :
    (pathEntryAddLength pathEntryCreateRoot name name.length).2.added = false ∧
    (pathEntryAddLength pathEntryCreateRoot name name.length).2.children =
      .node ⟨name, true, false⟩ .null .null := by
  unfold pathEntryAddLength
  simp only [Nat.mod_eq_of_lt small, segments_single name proper plain]
  simp [addSegments, pathEntryCreateRoot, PathTree.label, getChild, searchChild, makeChild, updateChild]

end AppManager.Utils
