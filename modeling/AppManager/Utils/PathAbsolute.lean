import AppManager.Utils.PathHistory
import AppManager.Utils.PathRelative

/-! Traversals with absolute paths. The buffer first holds the path of the start entry,
to which the traversal adds the name of that entry again unless the entry is silent. -/

namespace AppManager.Utils
open AppManager.Lib AppManager.Lib.Libc

/-- The status of a traversal, and what its callback is given. -/
def traversedFrom (flags : ForallFlags) (start : PathEntry) (size : Nat) : Int × List Visit :=
  pathEntryForEachInBuffer collect flags start size []

def ForallFlags.ordered (flags : ForallFlags) : ForallFlags :=
  if !flags.before && !flags.after then { flags with after := true } else flags

def emitted (flags : ForallFlags) (start : PathEntry) : List PathEntry :=
  (if flags.silentRoot then entriesBelow start start.children else start.entries).filter (emits flags ·.label)

def firstPath (flags : ForallFlags) (start : PathEntry) : Bytes :=
  if flags.absolute && !flags.noPath then pathOf start.lineage else []

theorem traversedFrom_eq (flags : ForallFlags) (start : PathEntry) (size : Nat) :
    traversedFrom flags start size = (if (tourFrom flags.ordered size start (firstPath flags start)).completed
      then 0 else -ENAMETOOLONG, (tourFrom flags.ordered size start (firstPath flags start)).items) := by
  have same : firstPath flags.ordered start = firstPath flags start := by
    unfold ForallFlags.ordered
    split <;> rfl
  rw [← same]
  exact (doForeach_eq ..).trans (run_collect ..)

theorem ordered_noPath (flags : ForallFlags) : flags.ordered.noPath = flags.noPath := by
  unfold ForallFlags.ordered
  split <;> rfl

theorem ordered_silentRoot (flags : ForallFlags) : flags.ordered.silentRoot = flags.silentRoot := by
  unfold ForallFlags.ordered
  split <;> rfl

theorem ordered_emits (flags : ForallFlags) : emits flags.ordered = emits flags := by
  unfold ForallFlags.ordered
  split <;> rfl

theorem ordered_shows (flags : ForallFlags) : (flags.ordered.before || flags.ordered.after) = true := by
  cases first : flags.before <;> cases last : flags.after <;> simp [ForallFlags.ordered, first, last]

section
variable (flags : ForallFlags)

theorem mem_visitsBelow (shows : (flags.before || flags.after) = true) (parent : PathEntry) (path : Bytes)
    (siblings : Entry) (entry : PathEntry) : entry ∈ (visitsBelow flags parent path siblings).map Visit.entry ↔
      entry ∈ (entriesBelow parent siblings).filter (emits flags ·.label) := by
  induction siblings generalizing parent path with
  | null => exact Iff.rfl
  | node label children sibling inner rest =>
    have own : emits flags (parent.child label children).label = emits flags label := rfl
    simp only [visitsBelow, entriesBelow, List.map_append, List.filter_append, List.filter_cons, own,
      List.mem_append, inner, rest]
    cases shown : emits flags label with
    | false => simp
    | true =>
      cases first : flags.before with
      | false =>
        rw [first, Bool.false_or] at shows
        simp [shows, or_assoc]
      | true =>
        simp only [Bool.true_and, if_true, List.map_singleton, List.mem_cons]
        cases flags.after <;> simp <;> tauto

theorem mem_visitsFrom (shows : (flags.before || flags.after) = true) (start : PathEntry) (path : Bytes)
    (entry : PathEntry) : entry ∈ (visitsFrom flags start path).map Visit.entry ↔ entry ∈ emitted flags start := by
  unfold visitsFrom emitted
  cases flags.silentRoot with
  | true =>
    rw [if_pos rfl, if_pos rfl]
    exact mem_visitsBelow flags shows start path start.children entry
  | false =>
    have below := mem_visitsBelow flags shows start (underPath flags start.label path) start.children entry
    simp only [Bool.false_eq_true, if_false, PathEntry.entries, List.map_append, List.filter_append,
      List.filter_cons, List.filter_nil, List.mem_append, below]
    cases emits flags start.label with
    | false => simp
    | true =>
      cases first : flags.before with
      | false =>
        rw [first, Bool.false_or] at shows
        simp [shows]
      | true =>
        simp only [Bool.true_and, if_true, List.map_singleton, List.mem_singleton]
        cases flags.after <;> simp <;> tauto

theorem underPath_full (visible : flags.noPath = false) (parent : PathEntry) (label : Label) (children : Entry)
    (proper : label.name ≠ []) :
    underPath flags label (pathOf parent.lineage) = pathOf (parent.child label children).lineage := by
  have own : (parent.child label children).lineage = label :: parent.lineage := rfl
  rw [own, pathOf_cons label parent.lineage proper, underPath, if_neg (by simp [visible, proper])]

theorem visitsBelow_full (visible : flags.noPath = false) (parent : PathEntry) (siblings : Entry)
    (wf : siblings.WellFormed) : ∀ visit ∈ visitsBelow flags parent (pathOf parent.lineage) siblings,
      visit.path = pathOf visit.entry.lineage := by
  induction siblings generalizing parent with
  | null => simp [visitsBelow]
  | node label children sibling inner rest =>
    obtain ⟨proper, -, -, below, after⟩ := wf
    have full := underPath_full flags visible parent label children proper
    apply visitsBelow_forall
    · exact full
    · rw [full]
      exact inner _ below
    · exact rest parent after

theorem visitsBelow_noPath (hidden : flags.noPath = true) (parent : PathEntry) (path : Bytes) (siblings : Entry) :
    ∀ visit ∈ visitsBelow flags parent path siblings, visit.path = path := by
  induction siblings generalizing parent with
  | null => simp [visitsBelow]
  | node label children sibling inner rest =>
    have same : underPath flags label path = path := by simp [underPath, hidden]
    apply visitsBelow_forall
    · exact same
    · rw [same]
      exact inner _
    · exact rest parent

theorem underPath_extends (label : Label) (path : Bytes) : path <+: underPath flags label path := by
  unfold underPath
  split
  · exact List.prefix_refl path
  · rw [List.append_assoc]
    exact List.prefix_append path _

theorem visitsBelow_extends (parent : PathEntry) (path : Bytes) (siblings : Entry) :
    ∀ visit ∈ visitsBelow flags parent path siblings, path <+: visit.path := by
  induction siblings generalizing parent path with
  | null => simp [visitsBelow]
  | node label children sibling inner rest =>
    apply visitsBelow_forall
    · exact underPath_extends flags label path
    · exact fun visit inside => (underPath_extends flags label path).trans (inner _ _ visit inside)
    · exact rest parent path

theorem visitsFrom_extends (start : PathEntry) (path : Bytes) :
    ∀ visit ∈ visitsFrom flags start path, path <+: visit.path := by
  have under := underPath_extends flags start.label path
  apply visitsFrom_forall flags
  · exact fun _ => under
  · intro visit member
    have below := visitsBelow_extends flags start _ start.children visit member
    split at below
    · exact below
    · exact under.trans below

end

theorem pathOf_below (labels above : List Label) (started : pathOf above ≠ [])
    (proper : ∀ label ∈ labels, label.name ≠ []) :
    pathOf (labels.reverse ++ above) = pathOf above ++ slashed (labels.map Label.name) := by
  induction labels generalizing above with
  | nil => simp [slashed]
  | cons label rest ih =>
    have here : pathOf (label :: above) = pathOf above ++ slash :: label.name := by
      rw [pathOf, if_neg (proper label (by simp)), if_neg started]
    rw [List.reverse_cons, List.append_assoc, List.singleton_append,
      ih (label :: above) (by simp [here]) (fun other member => proper other (List.mem_cons_of_mem label member)),
      here, List.map_cons, slashed_cons]
    simp

theorem entries_of_entry (tree : PathTree) (start entry : PathEntry) (known : start ∈ tree.root.entries)
    (member : entry ∈ start.entries) : entry ∈ tree.root.entries ∧ start.ref <+: entry.ref := by
  have found := (descend_root_iff tree start.ref start).mpr ⟨known, rfl⟩
  rw [(entries_descend start.ref tree.root start tree.wf found).2, List.mem_filter] at member
  exact ⟨member.1, of_decide_eq_true member.2⟩

theorem pathOf_named (entry : PathEntry) (named : entry.label.name ≠ []) : pathOf entry.lineage ≠ [] := by
  rw [PathEntry.lineage, pathOf_cons entry.label entry.above named]
  simp [named]

theorem pathOf_entry (tree : PathTree) (start entry : PathEntry) (known : start ∈ tree.root.entries)
    (named : start.label.name ≠ []) (member : entry ∈ start.entries) (path : Ref)
    (below : entry.ref = start.ref ++ path) : pathOf entry.lineage = pathOf start.lineage ++ slashed path := by
  obtain ⟨inside, -⟩ := entries_of_entry tree start entry known member
  obtain ⟨labels, names, lineage, proper⟩ := lineage_below tree start entry known inside path below
  rw [List.filter_eq_self] at proper
  rw [lineage, pathOf_below labels start.lineage (pathOf_named start named)
    (fun label member => of_decide_eq_true (proper label member)), names]

theorem root_unnamed (tree : PathTree) (start : PathEntry) (known : start ∈ tree.root.entries) :
    start.label.name = [] ↔ start.ref = [] := by
  constructor
  · intro unnamed
    by_contra below
    exact entry_named tree start known below unnamed
  · intro top
    rw [entry_unique tree known (List.mem_append_right _ (List.mem_singleton_self tree.root)) top]
    rfl

/-- The path and the length that `path_entry_get_path` gives for an entry. -/
def HasPath (entry : PathEntry) (path : Bytes) : Prop :=
  pathEntryGetPath entry.lineage (List.replicate (path.length + 1) 0) = some (path.length, path ++ [0])

theorem hasPath_iff (entry : PathEntry) (path : Bytes) : HasPath entry path ↔ path = pathOf entry.lineage := by
  rw [HasPath, pathEntryGetPath_spec]
  constructor
  · intro same
    rw [Option.some.injEq, Prod.mk.injEq] at same
    obtain ⟨size, text⟩ := same
    by_cases top : pathOf entry.lineage = []
    · rw [top] at size ⊢
      exact List.length_eq_zero_iff.mp size.symm
    · have whole : clipped (path.length + 1) (pathOf entry.lineage) = pathOf entry.lineage ++ [0] := by
        rw [clipped, ← size, List.take_of_length_le (by simp)]
      rw [if_neg top, store_clipped, List.length_replicate, whole, size, List.drop_eq_nil_of_le (by simp),
        List.append_nil] at text
      exact (List.append_cancel_right text).symm
  · rintro rfl
    by_cases top : pathOf entry.lineage = []
    · simp [top]
    · rw [if_neg top, store_clipped, List.length_replicate, List.drop_eq_nil_of_le (by simp), List.append_nil,
        clipped, List.take_of_length_le (by simp)]

/-- The callback is given the paths of the entries. -/
def PathsRight (flags : ForallFlags) (start : PathEntry) (size : Nat) : Prop :=
  ∀ visit ∈ (traversedFrom flags start size).2, HasPath visit.entry visit.path

/-- When no name is doubled, nor left out with all the paths. -/
def Undoubled (flags : ForallFlags) (start : PathEntry) : Prop :=
  if flags.noPath then ∀ entry ∈ emitted flags start, entry.ref = []
  else start.ref = [] ∨ flags.silentRoot = true ∨ emitted flags start = []

theorem pathOf_empty (tree : PathTree) (entry : PathEntry) (known : entry ∈ tree.root.entries) :
    pathOf entry.lineage = [] ↔ entry.ref = [] := by
  constructor
  · intro empty
    by_contra below
    exact pathOf_named entry (entry_named tree entry known below) empty
  · intro top
    rw [entry_unique tree known (List.mem_append_right _ (List.mem_singleton_self tree.root)) top]
    rfl

theorem visitsFrom_doubled (tree : PathTree) (start : PathEntry) (known : start ∈ tree.root.entries)
    (named : start.label.name ≠ []) (flags : ForallFlags) (visible : flags.noPath = false)
    (loud : flags.silentRoot = false) (shows : (flags.before || flags.after) = true) :
    ∀ visit ∈ visitsFrom flags start (pathOf start.lineage),
      (pathOf visit.entry.lineage).length < visit.path.length := by
  have under : underPath flags start.label (pathOf start.lineage) =
      pathOf start.lineage ++ slash :: start.label.name := by
    rw [underPath, if_neg (by simp [visible, named]),
      if_pos (Or.inl (List.length_pos_iff.mpr (pathOf_named start named)))]
    simp
  have wf := wellFormed_entries tree start known
  apply visitsFrom_forall flags
  · intro _
    rw [under]
    simp
  · rw [if_neg (by simp [loud]), under]
    intro visit inside
    obtain ⟨rest, located, shown⟩ := visitsBelow_path flags visible start _ (by simp) start.children wf visit inside
    have below : visit.entry ∈ start.entries := List.mem_append_left _ (List.mem_filter.mp
      ((mem_visitsBelow flags shows start _ start.children visit.entry).mp (List.mem_map_of_mem inside))).1
    rw [shown, pathOf_entry tree start visit.entry known named below rest located]
    simp only [List.length_append, List.length_cons]
    omega

theorem visits_of_fitting (flags : ForallFlags) (start : PathEntry) (size : Nat)
    (fits : (traversedFrom flags start size).1 = 0) :
    (traversedFrom flags start size).2 = visitsFrom flags.ordered start (firstPath flags start) := by
  rw [traversedFrom_eq] at fits ⊢
  apply (tourFrom_visits flags.ordered size start (firstPath flags start)).2
  by_contra stopped
  have fails : (-ENAMETOOLONG : Int) ≠ 0 := by decide
  simp only [if_neg stopped] at fits
  exact fails fits

section
variable (tree : PathTree) (start : PathEntry) (known : start ∈ tree.root.entries) (flags : ForallFlags)
include known

theorem emitted_known (entry : PathEntry) (member : entry ∈ emitted flags start) : entry ∈ tree.root.entries := by
  refine (entries_of_entry tree start entry known ?_).1
  rw [emitted, List.mem_filter] at member
  split at member
  · exact List.mem_append_left _ member.1
  · exact member.1

theorem visitsFrom_hidden (shows : (flags.before || flags.after) = true) (hides : flags.noPath = true) :
    (∀ visit ∈ visitsFrom flags start [], visit.path = pathOf visit.entry.lineage) ↔
      ∀ entry ∈ emitted flags start, entry.ref = [] := by
  have empty : ∀ visit ∈ visitsFrom flags start [], visit.path = [] := by
    have under : underPath flags start.label [] = [] := by simp [underPath, hides]
    apply visitsFrom_forall flags
    · exact fun _ => under
    · rw [under, ite_self]
      exact visitsBelow_noPath flags hides start [] start.children
  constructor
  · intro right entry member
    obtain ⟨visit, seen, rfl⟩ := List.mem_map.mp ((mem_visitsFrom flags shows start [] entry).mpr member)
    rw [← pathOf_empty tree visit.entry (emitted_known tree start known flags _ member), ← right visit seen]
    exact empty visit seen
  · intro top visit seen
    have member := (mem_visitsFrom flags shows start [] visit.entry).mp (List.mem_map_of_mem seen)
    rw [(pathOf_empty tree visit.entry (emitted_known tree start known flags _ member)).mpr (top _ member)]
    exact empty visit seen

theorem visitsFrom_visible (shows : (flags.before || flags.after) = true) (visible : flags.noPath = false) :
    (∀ visit ∈ visitsFrom flags start (pathOf start.lineage), visit.path = pathOf visit.entry.lineage) ↔
      start.ref = [] ∨ flags.silentRoot = true ∨ emitted flags start = [] := by
  have full := visitsBelow_full flags visible start start.children (wellFormed_entries tree start known)
  by_cases silent : flags.silentRoot = true
  · rw [visitsFrom, if_pos silent]
    exact iff_of_true full (Or.inr (Or.inl silent))
  · by_cases unnamed : start.label.name = []
    · have under : underPath flags start.label (pathOf start.lineage) = pathOf start.lineage := by
        simp [underPath, unnamed]
      refine iff_of_true (visitsFrom_forall flags _ _ _ (fun _ => under) ?_)
        (Or.inl ((root_unnamed tree start known).mp unnamed))
      rw [under, ite_self]
      exact full
    · have doubled := visitsFrom_doubled tree start known unnamed flags visible (by simpa using silent) shows
      constructor
      · intro right
        refine Or.inr (Or.inr (List.eq_nil_iff_forall_not_mem.mpr fun entry member => ?_))
        obtain ⟨visit, seen, -⟩ := List.mem_map.mp ((mem_visitsFrom flags shows start _ entry).mpr member)
        have longer := doubled visit seen
        rw [right visit seen] at longer
        exact absurd longer (lt_irrefl _)
      · rintro (top | quiet | none) visit seen
        · exact absurd ((root_unnamed tree start known).mpr top) unnamed
        · exact absurd quiet silent
        · have member := (mem_visitsFrom flags shows start _ visit.entry).mp (List.mem_map_of_mem seen)
          rw [none] at member
          cases member

theorem pathsRight_iff (absolute : flags.absolute = true) (size : Nat)
    (fits : (traversedFrom flags start size).1 = 0) : PathsRight flags start size ↔ Undoubled flags start := by
  have shows := ordered_shows flags
  have same : emitted flags.ordered start = emitted flags start := by
    rw [emitted, emitted, ordered_silentRoot, ordered_emits]
  simp only [PathsRight, visits_of_fitting flags start size fits, hasPath_iff]
  unfold Undoubled
  cases hidden : flags.noPath with
  | true =>
    have first : firstPath flags start = [] := by simp [firstPath, hidden]
    rw [first, if_pos rfl, ← same]
    exact visitsFrom_hidden tree start known flags.ordered shows ((ordered_noPath flags).trans hidden)
  | false =>
    have first : firstPath flags start = pathOf start.lineage := by simp [firstPath, absolute, hidden]
    rw [first, if_neg Bool.false_ne_true, ← same, ← ordered_silentRoot]
    exact visitsFrom_visible tree start known flags.ordered shows ((ordered_noPath flags).trans hidden)

end

theorem pathEntryForEach_traversed {State : Type} (step : State → Visit → State) (flags : ForallFlags)
    (start : PathEntry) (state : State) :
    (pathEntryForEach (fun state visit => (0, step state visit)) flags start state).2 =
      (traversedFrom flags start (if flags.noPath then 0 else PATH_MAX)).2.foldl step state := by
  have same : firstPath flags.ordered start = firstPath flags start := by
    unfold ForallFlags.ordered
    split <;> rfl
  rw [traversedFrom_eq, ← same, ← run_foldl step _ (-ENAMETOOLONG), ← doForeach_eq]
  rfl

end AppManager.Utils
