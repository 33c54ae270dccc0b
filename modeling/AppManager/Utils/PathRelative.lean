import AppManager.Utils.PathLookup

/-! The path of an entry from any of its ancestors. It is written in a buffer of any
length, except when no name leads from the ancestor to the entry. -/

namespace AppManager.Utils
open AppManager.Lib AppManager.Lib.Libc

/-- The named labels below the relative root, whose depth is given, from the top. -/
def labelsFrom (root : Nat) (lineage : List Label) : List Label :=
  ((lineage.take (lineage.length - root)).filter fun label => label.name ≠ []).reverse

def leads (flags : RelpathFlags) (labels : List Label) : Bool :=
  flags.forceLeadingSlash || (!flags.noLeadingSlash && labels.head?.any Label.slash)

def joined (flags : RelpathFlags) (labels : List Label) : Bytes :=
  (if leads flags labels then [slash] else []) ++ List.intercalate [slash] (labels.map Label.name)

def relativePath (root : Nat) (flags : RelpathFlags) (lineage : List Label) : Bytes :=
  joined flags (labelsFrom root lineage)

theorem labelsFrom_cons (root : Nat) (entry : Label) (above : List Label) (inside : root ≤ above.length) :
    labelsFrom root (entry :: above) =
      labelsFrom root above ++ (if entry.name = [] then [] else [entry]) := by
  have size : (entry :: above).length - root = (above.length - root) + 1 := by
    rw [List.length_cons]
    omega
  unfold labelsFrom
  rw [size, List.take_succ_cons, List.filter_cons]
  by_cases unnamed : entry.name = []
  · simp [unnamed]
  · simp [unnamed]

theorem labelsFrom_self (root : Nat) (lineage : List Label) (top : lineage.length ≤ root) :
    labelsFrom root lineage = [] := by
  rw [labelsFrom, Nat.sub_eq_zero_of_le top]
  rfl

theorem isTop_labels (root : Nat) (above : List Label) (inside : root ≤ above.length) :
    isTop root above = true ↔ labelsFrom root above = [] := by
  induction above with
  | nil => simp [isTop, labelsFrom]
  | cons parent above ih =>
    rw [isTop]
    by_cases here : above.length + 1 = root
    · rw [if_pos here, labelsFrom_self root _ (by rw [List.length_cons]; omega)]
      simp
    · have deeper : root ≤ above.length := by
        rw [List.length_cons] at inside
        omega
      rw [if_neg here, labelsFrom_cons root parent above deeper]
      by_cases unnamed : parent.name = []
      · simp [unnamed, ih deeper]
      · simp [unnamed]

theorem intercalate_snoc (ref : Ref) (name : Bytes) (more : ref ≠ []) :
    List.intercalate [slash] (ref ++ [name]) = List.intercalate [slash] ref ++ [slash] ++ name := by
  induction ref with
  | nil => exact absurd rfl more
  | cons first rest ih =>
    cases rest with
    | nil => simp [List.intercalate_cons_cons]
    | cons second rest =>
      rw [List.cons_append, List.cons_append, List.intercalate_cons_cons, ← List.cons_append,
        ih (List.cons_ne_nil _ _), List.intercalate_cons_cons]
      simp only [List.append_assoc]

theorem joined_single (flags : RelpathFlags) (entry : Label) : joined flags [entry] =
    (if flags.forceLeadingSlash || (!flags.noLeadingSlash && entry.slash) then [slash] else []) ++ entry.name := by
  simp [joined, leads]

theorem joined_snoc (flags : RelpathFlags) (labels : List Label) (entry : Label) (more : labels ≠ []) :
    joined flags (labels ++ [entry]) = joined flags labels ++ [slash] ++ entry.name := by
  have head : (labels ++ [entry]).head? = labels.head? := by
    cases labels with
    | nil => exact absurd rfl more
    | cons first rest => rfl
  rw [joined, joined, leads, leads, head, List.map_append, List.map_singleton,
    intercalate_snoc _ _ (by simpa using more)]
  simp only [List.append_assoc]

/-- With a name on the way, the whole path is written with its terminator, as far as the
buffer allows, and the returned length is always its own. -/
theorem pathEntryRelpath_spec (root : Nat) (flags : RelpathFlags) (lineage : List Label) (buffer : Bytes)
    (named : labelsFrom root lineage ≠ []) :
    pathEntryRelpath root flags lineage buffer = some ((relativePath root flags lineage).length,
      store buffer 0 (clipped buffer.length (relativePath root flags lineage))) := by
  unfold relativePath
  induction lineage with
  | nil => exact absurd (labelsFrom_self root [] (Nat.zero_le root)) named
  | cons entry above ih =>
    have inside : root ≤ above.length := by
      by_contra outside
      exact named (labelsFrom_self root _ (by rw [List.length_cons]; omega))
    rw [labelsFrom_cons root entry above inside] at named ⊢
    unfold pathEntryRelpath
    rw [if_neg (by omega)]
    by_cases unnamed : entry.name = []
    · rw [if_pos unnamed, List.append_nil] at named
      rw [if_pos unnamed, if_pos unnamed, List.append_nil]
      exact ih named
    · rw [if_neg unnamed, if_neg unnamed]
      by_cases top : labelsFrom root above = []
      · have first := appendName_spec entry (flags.forceLeadingSlash || (!flags.noLeadingSlash && entry.slash))
          [] [] buffer (by simp) (by simp) (by simp)
        rw [if_pos ((isTop_labels root above inside).mpr top), top, List.nil_append, joined_single]
        simpa [store_zero] using first
      · have written := appendName_spec entry true (joined flags (labelsFrom root above))
          (clipped buffer.length (joined flags (labelsFrom root above))) buffer
          (by simp only [clipped, List.length_take]; omega)
          (by rw [clipped, List.take_take, Nat.min_comm, ← List.take_take, List.take_left])
          (by simp only [clipped, List.length_take, List.length_append, List.length_singleton]; omega)
        rw [if_neg (fun isTop => top ((isTop_labels root above inside).mp isTop)), ih top,
          joined_snoc flags _ entry top]
        simpa using written

theorem findChild_label (parent : PathEntry) (name : Bytes) (children : Entry) (child : PathEntry)
    (found : parent.findChild name children = some child) :
    child.label.name = name ∧ child.lineage = child.label :: parent.lineage := by
  induction children with
  | null => simp [PathEntry.findChild, searchChild] at found
  | node label children sibling _ rest =>
    by_cases here : label.name = name
    · subst here
      rw [findChild_here, Option.some.injEq] at found
      subst found
      exact ⟨rfl, rfl⟩
    · rw [findChild_later _ _ _ _ _ here] at found
      exact rest found

theorem descend_lineage (path : Ref) (start entry : PathEntry) (found : descend path start = some entry) :
    ∃ labels : List Label, labels.map Label.name = path ∧ entry.lineage = labels.reverse ++ start.lineage := by
  induction path generalizing start with
  | nil =>
    rw [descend, Option.some.injEq] at found
    subst found
    exact ⟨[], rfl, rfl⟩
  | cons name rest ih =>
    rw [descend, Option.bind_eq_some_iff] at found
    obtain ⟨child, first, later⟩ := found
    obtain ⟨same, lineage⟩ := findChild_label start name start.children child first
    obtain ⟨labels, names, below⟩ := ih child later
    refine ⟨child.label :: labels, by rw [List.map_cons, same, names], ?_⟩
    rw [below, lineage]
    simp

theorem ref_proper (tree : PathTree) (entry : PathEntry) (member : entry ∈ tree.root.entries) :
    ∀ name ∈ entry.ref, name ≠ [] ∧ slash ∉ name := by
  rw [← components_pathOf tree entry member]
  intro name inside
  obtain ⟨segment, known, same⟩ := List.mem_map.mp inside
  exact same ▸ segment_proper _ _ _ _ segment known

theorem descend_below (tree : PathTree) (start entry : PathEntry) (known : start ∈ tree.root.entries)
    (member : entry ∈ tree.root.entries) (path : Ref) (below : entry.ref = start.ref ++ path) :
    descend path start = some entry := by
  have found := (descend_root_iff tree entry.ref entry).mpr ⟨member, rfl⟩
  rw [below, descend_append, (descend_root_iff tree start.ref start).mpr ⟨known, rfl⟩] at found
  exact found

theorem lineage_below (tree : PathTree) (start entry : PathEntry) (known : start ∈ tree.root.entries)
    (member : entry ∈ tree.root.entries) (path : Ref) (below : entry.ref = start.ref ++ path) :
    ∃ labels : List Label, labels.map Label.name = path ∧ entry.lineage = labels.reverse ++ start.lineage ∧
      labels.filter (fun label => label.name ≠ []) = labels := by
  obtain ⟨labels, names, lineage⟩ := descend_lineage path start entry
    (descend_below tree start entry known member path below)
  refine ⟨labels, names, lineage, ?_⟩
  rw [List.filter_eq_self]
  intro label inside
  rw [decide_eq_true_iff]
  refine (ref_proper tree entry member label.name ?_).1
  rw [below, ← names]
  exact List.mem_append_right _ (List.mem_map_of_mem inside)

theorem labelsFrom_below (tree : PathTree) (start entry : PathEntry) (known : start ∈ tree.root.entries)
    (member : entry ∈ tree.root.entries) (path : Ref) (below : entry.ref = start.ref ++ path) :
    (labelsFrom start.lineage.length entry.lineage).map Label.name = path := by
  obtain ⟨labels, names, lineage, proper⟩ := lineage_below tree start entry known member path below
  rw [labelsFrom, lineage, List.length_append, Nat.add_sub_cancel_right, List.take_left, List.filter_reverse,
    List.reverse_reverse, proper, names]

theorem labelsFrom_null (tree : PathTree) (entry : PathEntry) (member : entry ∈ tree.root.entries) :
    (labelsFrom 0 entry.lineage).map Label.name = entry.ref := by
  have top : tree.root ∈ tree.root.entries := List.mem_append_right _ (List.mem_singleton_self _)
  obtain ⟨labels, names, lineage, proper⟩ := lineage_below tree tree.root entry top member entry.ref rfl
  have unnamed : tree.root.lineage.filter (fun label => label.name ≠ []) = [] := rfl
  rw [labelsFrom, Nat.sub_zero, List.take_length, lineage, List.filter_append, unnamed, List.append_nil,
    List.filter_reverse, List.reverse_reverse, proper, names]

def depthOf : Option PathEntry → Nat
  | none => 0
  | some root => root.lineage.length

/-- Whatever the buffer of that length holds, the length of the path is returned, and the
buffer holds what fits of the path and its terminator, then what it held. -/
def RelpathWrites (root : Nat) (flags : RelpathFlags) (lineage : List Label) (length : Nat) : Prop :=
  ∀ buffer : Bytes, buffer.length = length → pathEntryRelpath root flags lineage buffer =
    some ((relativePath root flags lineage).length, clipped length (relativePath root flags lineage) ++
      buffer.drop ((relativePath root flags lineage).length + 1))

theorem store_clipped (buffer path : Bytes) :
    store buffer 0 (clipped buffer.length path) = clipped buffer.length path ++ buffer.drop (path.length + 1) := by
  rw [store_zero, clipped, List.length_take, List.length_append, List.length_singleton]
  by_cases fits : path.length + 1 ≤ buffer.length
  · rw [Nat.min_eq_right fits]
  · rw [Nat.min_eq_left (by omega), List.drop_length, List.drop_eq_nil_of_le (by omega)]

theorem relpathWrites_named (root : Nat) (flags : RelpathFlags) (lineage : List Label) (length : Nat)
    (named : labelsFrom root lineage ≠ []) : RelpathWrites root flags lineage length := by
  intro buffer size
  rw [pathEntryRelpath_spec root flags lineage buffer named, store_clipped, size]

theorem pathEntryRelpath_self (flags : RelpathFlags) (entry : PathEntry) (buffer : Bytes) :
    pathEntryRelpath entry.lineage.length flags entry.lineage buffer =
      if flags.forceLeadingSlash then some (1, if entry.label.name ≠ [] then slash :: buffer.drop 1 else buffer)
      else some (0, buffer) := by
  have depth : entry.above.length + 1 = (entry.label :: entry.above).length := rfl
  rw [PathEntry.lineage, pathEntryRelpath, if_pos depth, store_zero]
  simp only [List.length_pos_iff]
  rfl

theorem relpathWrites_self (flags : RelpathFlags) (entry : PathEntry) (length : Nat) :
    RelpathWrites entry.lineage.length flags entry.lineage length ↔
      length = if flags.forceLeadingSlash = true ∧ entry.label.name ≠ [] then 1 else 0 := by
  have path : relativePath entry.lineage.length flags entry.lineage =
      if flags.forceLeadingSlash then [slash] else [] := by
    simp [relativePath, joined, leads, labelsFrom_self entry.lineage.length entry.lineage le_rfl]
  -- a buffer full of ones shows the bytes that are not written
  have ones : (List.replicate length (1 : Byte)).length = length := List.length_replicate
  simp only [RelpathWrites, path, pathEntryRelpath_self]
  cases flags.forceLeadingSlash with
  | false =>
    simp only [Bool.false_eq_true, false_and, if_false]
    constructor
    · intro writes
      have here := writes _ ones
      cases length with
      | zero => rfl
      | succ length => simp [clipped, List.replicate_succ] at here
    · rintro rfl buffer same
      rw [List.length_eq_zero_iff.mp same]
      rfl
  | true =>
    simp only [true_and, if_true]
    by_cases named : entry.label.name = []
    · simp only [named, ne_eq, not_true, if_false]
      constructor
      · intro writes
        have here := writes _ ones
        cases length with
        | zero => rfl
        | succ length =>
          simp [clipped, List.replicate_succ] at here
          exact absurd here.1 (by decide)
      · rintro rfl buffer same
        rw [List.length_eq_zero_iff.mp same]
        rfl
    · simp only [named, ne_eq, not_false_iff, if_true]
      constructor
      · intro writes
        have here := writes _ ones
        cases length with
        | zero => simp [clipped] at here
        | succ length =>
          cases length with
          | zero => rfl
          | succ length => simp [clipped, List.replicate_succ] at here
      · rintro rfl buffer same
        obtain ⟨byte, rfl⟩ := List.length_eq_one_iff.mp same
        rfl

theorem relpathWrites_root (flags : RelpathFlags) (tree : PathTree) (length : Nat) :
    RelpathWrites 0 flags tree.root.lineage length ↔ flags.forceLeadingSlash = false ∧ length = 0 := by
  have read (buffer : Bytes) : pathEntryRelpath 0 flags tree.root.lineage buffer =
      if flags.forceLeadingSlash then none else some (0, buffer) := rfl
  have path : relativePath 0 flags tree.root.lineage = if flags.forceLeadingSlash then [slash] else [] := by
    simp [relativePath, joined, leads, labelsFrom, PathEntry.lineage, PathTree.root, PathTree.label]
  have ones : (List.replicate length (1 : Byte)).length = length := List.length_replicate
  simp only [RelpathWrites, path, read]
  cases flags.forceLeadingSlash with
  | true =>
    simp only [if_true, Bool.true_eq_false, false_and, iff_false]
    intro writes
    cases writes _ ones
  | false =>
    simp only [Bool.false_eq_true, if_false, true_and]
    constructor
    · intro writes
      have here := writes _ ones
      cases length with
      | zero => rfl
      | succ length => simp [clipped, List.replicate_succ] at here
    · rintro rfl buffer same
      rw [List.length_eq_zero_iff.mp same]
      rfl

/-- The path from an ancestor is written as it should when some name leads to the entry,
and else in buffers of a single length at most. -/
theorem relpathWrites_iff (tree : PathTree) (entry : PathEntry) (member : entry ∈ tree.root.entries)
    (root : Option PathEntry) (above : ∀ start ∈ root, start ∈ tree.root.entries ∧ start.ref <+: entry.ref)
    (flags : RelpathFlags) (length : Nat) : RelpathWrites (depthOf root) flags entry.lineage length ↔
      match root with
      | none => entry.ref ≠ [] ∨ flags.forceLeadingSlash = false ∧ length = 0
      | some start => start.ref ≠ entry.ref ∨
          length = if flags.forceLeadingSlash = true ∧ entry.ref ≠ [] then 1 else 0 := by
  cases root with
  | none =>
    by_cases top : entry.ref = []
    · have same : entry = tree.root :=
        entry_unique tree member (List.mem_append_right _ (List.mem_singleton_self _)) top
      subst same
      simp only [depthOf, relpathWrites_root, top, ne_eq, not_true, false_or]
    · have named : labelsFrom 0 entry.lineage ≠ [] := by
        intro none
        have names := labelsFrom_null tree entry member
        rw [none] at names
        exact top names.symm
      simp only [depthOf, relpathWrites_named 0 flags entry.lineage length named, ne_eq, top, not_false_iff,
        true_or]
  | some start =>
    obtain ⟨known, path, below⟩ := above start rfl
    by_cases itself : start.ref = entry.ref
    · have same : start = entry := entry_unique tree known member itself
      subst same
      have unnamed : start.label.name ≠ [] ↔ start.ref ≠ [] := by
        refine ⟨fun named top => named ?_, entry_named tree start known⟩
        rw [entry_unique tree known (List.mem_append_right _ (List.mem_singleton_self tree.root)) top]
        rfl
      simp only [depthOf, relpathWrites_self, unnamed, ne_eq, not_true, false_or]
    · have named : labelsFrom start.lineage.length entry.lineage ≠ [] := by
        intro none
        have names := labelsFrom_below tree start entry known member path below.symm
        rw [none] at names
        exact itself (by rw [← below, ← names, List.map_nil, List.append_nil])
      simp only [depthOf, relpathWrites_named _ flags entry.lineage length named, ne_eq, itself, not_false_iff,
        true_or]

def oneEntry : PathTree := (pathEntryAddLength pathEntryCreateRoot (ascii "/a") 2).2

theorem relpathWrites_iff_one :
    RelpathWrites (depthOf (some oneEntry.root)) ⟨true, false⟩ [⟨ascii "a", true, true⟩, oneEntry.label] 1 :=
  (relpathWrites_iff oneEntry (oneEntry.root.child ⟨ascii "a", true, true⟩ .null) (by decide)
    (some oneEntry.root) (by decide) ⟨true, false⟩ 1).mpr (Or.inl (by decide))

/-- The path of the root of a tree, with a slash, reads the name of a null entry. -/
theorem relpath_null_read : ¬∀ (tree : PathTree) (entry : PathEntry) (root : Option PathEntry),
    entry ∈ tree.root.entries → (∀ start ∈ root, start ∈ tree.root.entries ∧ start.ref <+: entry.ref) →
      ∀ flags length, RelpathWrites (depthOf root) flags entry.lineage length := by
  intro all
  have writes := all pathEntryCreateRoot pathEntryCreateRoot.root none (by simp [PathEntry.entries]) (by simp)
    ⟨false, true⟩ 0
  rw [depthOf, relpathWrites_root] at writes
  exact absurd writes.1 (by decide)

end AppManager.Utils
