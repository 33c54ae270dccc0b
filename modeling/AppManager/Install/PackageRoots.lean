import AppManager.Install.PackagePath

/-! The package roots of a tree, found from the most nested ones on, and the tree that
is left of it while they are processed and removed in that order. -/

namespace AppManager.Install
open AppManager.Lib AppManager.Lib.Libc AppManager.Utils

def Marker.ref : Marker → Ref
  | .manifest => [ascii ".rpconfig", ascii "manifest.yml"]
  | .config => [ascii "config.xml"]

theorem components_marker (type : Marker) : components type.name (type.name.length % 2 ^ 32) = type.ref := by
  cases type <;> decide

def treeRefs (tree : PathTree) : List Ref := tree.root.entries.map PathEntry.ref

def IsPackage (tree : PathTree) (ref : Ref) : Prop := ∃ type : Marker, ref ++ type.ref ∈ treeRefs tree

/-- The package of an entry: the nearest package root from it on. -/
structure Innermost (tree : PathTree) (root entry : Ref) : Prop where
  package : IsPackage tree root
  inside : root <+: entry
  nearest : ∀ other, IsPackage tree other → other <+: entry → other <+: root

theorem mem_refs (tree : PathTree) (ref : Ref) : ref ∈ treeRefs tree ↔ (descend ref tree.root).isSome = true := by
  rw [Option.isSome_iff_exists]
  unfold treeRefs
  rw [List.mem_map]
  constructor
  · rintro ⟨entry, member, located⟩
    exact ⟨entry, (descend_root_iff tree ref entry).mpr ⟨member, located⟩⟩
  · rintro ⟨entry, found⟩
    obtain ⟨member, located⟩ := (descend_root_iff tree ref entry).mp found
    exact ⟨entry, member, located⟩

theorem getLength_marker (tree : PathTree) (entry : PathEntry) (member : entry ∈ tree.root.entries)
    (type : Marker) : (pathEntryGetLength entry type.name type.name.length).isSome = true ↔
      entry.ref ++ type.ref ∈ treeRefs tree := by
  have found := (descend_root_iff tree entry.ref entry).mpr ⟨member, rfl⟩
  rw [pathEntryGetLength, components_marker, mem_refs, descend_append, found]
  rfl

theorem detectPackageRoot_isSome (tree : PathTree) (entry : PathEntry) (member : entry ∈ tree.root.entries) :
    (detectPackageRoot entry).isSome = true ↔ IsPackage tree entry.ref := by
  have manifest := getLength_marker tree entry member .manifest
  have config := getLength_marker tree entry member .config
  have childless : entry.children = .null → ∀ type : Marker,
      (pathEntryGetLength entry type.name type.name.length).isSome = false := by
    intro none type
    rw [pathEntryGetLength, components_marker]
    cases type <;> simp [Marker.ref, descend, none, PathEntry.findChild, searchChild]
  have either : IsPackage tree entry.ref ↔ entry.ref ++ Marker.manifest.ref ∈ treeRefs tree ∨
      entry.ref ++ Marker.config.ref ∈ treeRefs tree := by
    constructor
    · rintro ⟨type, known⟩
      cases type with
      | manifest => exact Or.inl known
      | config => exact Or.inr known
    · rintro (known | known)
      · exact ⟨.manifest, known⟩
      · exact ⟨.config, known⟩
  rw [either, ← manifest, ← config]
  unfold detectPackageRoot
  split
  · next none => simp [childless none]
  · split
    · next found => simp [found]
    · next missing =>
      split
      · next found => simp [found]
      · next absent => simp [missing, absent]

def rootOf (entry : PathEntry) : Option (Ref × Marker) := (detectPackageRoot entry).map fun type => (entry.ref, type)

theorem detectPackageRoots_eq (tree : PathTree) :
    detectPackageRoots tree = (0, tree.root.entries.filterMap rootOf) := by
  have step : detectPackageRootsCb = fun roots (visit : Visit) =>
      (0, roots ++ (rootOf visit.entry).toList) := by
    funext roots visit
    unfold detectPackageRootsCb rootOf
    cases detectPackageRoot visit.entry <;> simp
  have folded : ∀ (visits : List Visit) (roots : List (Ref × Marker)),
      visits.foldl (fun roots visit => roots ++ (rootOf visit.entry).toList) roots =
        roots ++ (visits.map Visit.entry).filterMap rootOf := by
    intro visits
    induction visits with
    | nil => simp
    | cons visit rest ih =>
      intro roots
      rw [List.foldl_cons, ih, List.map_cons, List.filterMap_cons]
      cases rootOf visit.entry <;> simp
  have whole := tourFrom_loud { noPath := true, after := true } 0 0 tree.root [] rfl
    (by simp [underPath]) (by simp) (by simp)
  unfold detectPackageRoots
  rw [forEachInBuffer_eq _ _ rfl, effective, if_neg (by simp), whole, Tour.run_of, step, iterate_eq_foldl,
    folded, visitsFrom_after _ rfl rfl rfl]
  simp [emits]

/-- The references of the package roots, in the order in which they are processed. -/
def packageRefs (tree : PathTree) : List Ref := (detectPackageRoots tree).2.map Prod.fst

theorem package_ref (tree : PathTree) {root : Ref} (package : IsPackage tree root) : root ∈ treeRefs tree := by
  obtain ⟨type, marked⟩ := package
  rw [mem_refs] at marked ⊢
  rw [descend_append] at marked
  cases found : descend root tree.root with
  | none => simp [found] at marked
  | some entry => rfl

theorem mem_packageRefs (tree : PathTree) (ref : Ref) : ref ∈ packageRefs tree ↔ IsPackage tree ref := by
  have known : ref ∈ packageRefs tree ↔ ∃ entry ∈ tree.root.entries,
      entry.ref = ref ∧ (detectPackageRoot entry).isSome = true := by
    simp only [packageRefs, detectPackageRoots_eq, rootOf, List.mem_map, List.mem_filterMap,
      Option.map_eq_some_iff, Option.isSome_iff_exists]
    constructor
    · rintro ⟨root, ⟨entry, member, type, found, made⟩, same⟩
      exact ⟨entry, member, by rw [← same, ← made], type, found⟩
    · rintro ⟨entry, member, same, type, found⟩
      exact ⟨(entry.ref, type), ⟨entry, member, type, found, rfl⟩, same⟩
  rw [known]
  constructor
  · rintro ⟨entry, member, same, found⟩
    rw [← same]
    exact (detectPackageRoot_isSome tree entry member).mp found
  · intro package
    have located := package_ref tree package
    obtain ⟨entry, member, same⟩ := List.mem_map.mp located
    refine ⟨entry, member, same, (detectPackageRoot_isSome tree entry member).mpr ?_⟩
    rw [same]
    exact package

theorem packageRefs_order (tree : PathTree) :
    (packageRefs tree).Pairwise (fun first second => ¬first <+: second) := by
  have entries := entries_order tree.root tree.wf
  rw [packageRefs, detectPackageRoots_eq, List.pairwise_map]
  refine List.Pairwise.filterMap rootOf ?_ entries
  intro first second apart root found root' found'
  have same : root.1 = first.ref := by
    obtain ⟨type, -, made⟩ := Option.map_eq_some_iff.mp found
    rw [← made]
  have same' : root'.1 = second.ref := by
    obtain ⟨type, -, made⟩ := Option.map_eq_some_iff.mp found'
    rw [← made]
  rw [same, same']
  exact apart

/-- What is left of a tree once the entries at some references are removed. -/
structure Pruned (tree : PathTree) (done : List Ref) (rest : PathTree) : Prop where
  marks : rest.marks = tree.marks.filter fun mark => ∀ ref ∈ done, ¬ref <+: mark.1

theorem pruned_start (tree : PathTree) : Pruned tree [] tree := by
  refine ⟨?_⟩
  rw [eq_comm, List.filter_eq_self]
  intro mark _
  simp

theorem Pruned.destroy {tree rest rest' : PathTree} {done : List Ref} {ref : Ref} (pruned : Pruned tree done rest)
    (destroyed : pathEntryDestroy rest ref = some rest') : Pruned tree (done ++ [ref]) rest' := by
  refine ⟨?_⟩
  rw [marks_pathEntryDestroy rest rest' ref destroyed, pruned.marks, List.filter_filter]
  apply List.filter_congr
  intro mark _
  simp [and_comm, or_imp, forall_and]

theorem mem_marks (tree : PathTree) (ref : Ref) :
    ref ∈ treeRefs tree ↔ ∃ mark ∈ tree.marks, mark.1 = ref := by
  simp [treeRefs, PathTree.marks, PathEntry.mark]

/-- The entry of a package root is still there when no removed one was above it. -/
theorem Pruned.found {tree rest : PathTree} {done : List Ref} {ref : Ref} (pruned : Pruned tree done rest)
    (known : ref ∈ treeRefs tree) (aside : ∀ other ∈ done, ¬other <+: ref) :
    ∃ packdir, descend ref rest.root = some packdir ∧ packdir.children.WellFormed ∧
      packdir.entries.map PathEntry.mark = tree.marks.filter
        fun mark => ref <+: mark.1 ∧ ∀ other ∈ done, ¬other <+: mark.1 := by
  have kept : ref ∈ treeRefs rest := by
    rw [mem_marks] at known ⊢
    obtain ⟨mark, member, same⟩ := known
    refine ⟨mark, ?_, same⟩
    rw [pruned.marks, List.mem_filter]
    refine ⟨member, ?_⟩
    rw [decide_eq_true_eq, same]
    exact aside
  rw [mem_refs, Option.isSome_iff_exists] at kept
  obtain ⟨packdir, found⟩ := kept
  refine ⟨packdir, found, (entries_descend ref rest.root packdir rest.wf found).1, ?_⟩
  rw [marks_descend rest ref packdir found, pruned.marks, List.filter_filter]
  apply List.filter_congr
  intro mark _
  simp

theorem innermost_iff (tree : PathTree) {done later : List Ref} {root : Ref}
    (order : packageRefs tree = done ++ root :: later) (entry : Ref) :
    (root <+: entry ∧ ∀ other ∈ done, ¬other <+: entry) ↔ Innermost tree root entry := by
  have apart := packageRefs_order tree
  rw [order, List.pairwise_append, List.pairwise_cons] at apart
  obtain ⟨-, ⟨first, -⟩, cross⟩ := apart
  have isPackage : ∀ ref, IsPackage tree ref ↔ ref ∈ done ∨ ref = root ∨ ref ∈ later := by
    intro ref
    rw [← mem_packageRefs, order, List.mem_append, List.mem_cons]
  constructor
  · rintro ⟨inside, aside⟩
    refine ⟨(isPackage root).mpr (Or.inr (Or.inl rfl)), inside, ?_⟩
    intro other package above
    rcases (isPackage other).mp package with early | same | late
    · exact absurd above (aside other early)
    · subst same
      exact List.prefix_refl other
    · rcases List.prefix_or_prefix_of_prefix above inside with shorter | longer
      · exact shorter
      · exact absurd longer (first other late)
  · rintro ⟨-, inside, nearest⟩
    refine ⟨inside, fun other early above => ?_⟩
    exact cross other early root (by simp) (nearest other ((isPackage other).mpr (Or.inl early)) above)

/-- The entry of a package root when its turn comes: its entries are those of the tree
whose package it is. -/
theorem Pruned.own {tree rest : PathTree} {done later : List Ref} {root : Ref} (pruned : Pruned tree done rest)
    (order : packageRefs tree = done ++ root :: later) :
    ∃ packdir, descend root rest.root = some packdir ∧ packdir.children.WellFormed ∧
      (∀ entry ∈ packdir.entries, entry.mark ∈ tree.marks) ∧
      ∀ entry, entry ∈ packdir.entries.map PathEntry.ref ↔
        entry ∈ treeRefs tree ∧ Innermost tree root entry := by
  have apart := packageRefs_order tree
  rw [order, List.pairwise_append] at apart
  have package : IsPackage tree root := by
    rw [← mem_packageRefs, order]
    simp
  obtain ⟨packdir, found, wf, marks⟩ := pruned.found (package_ref tree package)
    (fun other member => apart.2.2 other member root (by simp))
  refine ⟨packdir, found, wf, ?_, ?_⟩
  · intro entry member
    have here := List.mem_map_of_mem (f := PathEntry.mark) member
    rw [marks] at here
    exact (List.mem_filter.mp here).1
  · intro entry
    have byMark : entry ∈ packdir.entries.map PathEntry.ref ↔
        ∃ mark ∈ packdir.entries.map PathEntry.mark, mark.1 = entry := by
      simp [PathEntry.mark]
    rw [byMark, marks, mem_marks, ← innermost_iff tree order]
    constructor
    · rintro ⟨mark, member, same⟩
      rw [List.mem_filter, decide_eq_true_eq] at member
      exact ⟨⟨mark, member.1, same⟩, same ▸ member.2⟩
    · rintro ⟨⟨mark, member, same⟩, kept⟩
      refine ⟨mark, ?_, same⟩
      rw [List.mem_filter, decide_eq_true_eq, same]
      exact ⟨member, kept⟩

theorem innermost_unique (tree : PathTree) (root entry : Ref) (package : IsPackage tree root)
    (inside : root <+: entry) : ∃! own, Innermost tree own entry := by
  have nearest : ∃ own, Innermost tree own entry := by
    generalize left : entry.length - root.length = size
    induction size using Nat.strong_induction_on generalizing root with
    | _ size ih =>
      by_cases more : ∃ other, IsPackage tree other ∧ other <+: entry ∧ ¬other <+: root
      · obtain ⟨other, package', inside', apart⟩ := more
        rcases List.prefix_or_prefix_of_prefix inside' inside with shorter | longer
        · exact absurd shorter apart
        · have grown : root.length < other.length := by
            rcases Nat.lt_or_ge root.length other.length with less | more
            · exact less
            · exact absurd (longer.eq_of_length_le more ▸ List.prefix_refl _) apart
          have bound := inside'.length_le
          exact ih (entry.length - other.length) (by omega) other package' inside' rfl
      · refine ⟨root, package, inside, fun other package' inside' => ?_⟩
        by_contra apart
        exact more ⟨other, package', inside', apart⟩
  obtain ⟨own, innermost⟩ := nearest
  refine ⟨own, innermost, fun other same => ?_⟩
  have below := innermost.nearest other same.package same.inside
  have above := same.nearest own innermost.package innermost.inside
  exact below.eq_of_length_le above.length_le

end AppManager.Install
