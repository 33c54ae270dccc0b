import AppManager.Lib.History
import AppManager.Utils.PathAdding
import AppManager.Utils.PathLinks
import AppManager.Utils.PathTours

/-! What a tree of paths holds after any additions to it and removals from it, told by
the history of these calls alone. -/

namespace AppManager.Utils
open AppManager.Lib AppManager.Lib.Libc

inductive Event where
  | add (path : Ref)
  | destroy (entry : Ref)
  deriving DecidableEq, Repr

/-- A path was added, after which no entry was destroyed at or above the reference. -/
def Standing (chosen : Ref → Prop) (history : List Event) (ref : Ref) : Prop :=
  Since (fun event => ∃ path, event = .add path ∧ chosen path)
    (fun event => ∃ entry, event = .destroy entry ∧ entry <+: ref) history

/-- The path was added and not destroyed since. -/
def Live (history : List Event) (ref : Ref) : Prop := Standing (ref = ·) history ref

/-- The entry comes first in a path that was added, and was not destroyed since. -/
def Created (history : List Event) (ref : Ref) : Prop := Standing (ref <+: ·) history ref

theorem standing_nil (chosen : Ref → Prop) (ref : Ref) : ¬Standing chosen [] ref := since_nil _ _

theorem standing_add (chosen : Ref → Prop) (history : List Event) (path ref : Ref) :
    Standing chosen (history ++ [.add path]) ref ↔ chosen path ∨ Standing chosen history ref := by
  simp [Standing, since_snoc]

theorem standing_destroy (chosen : Ref → Prop) (history : List Event) (entry ref : Ref) :
    Standing chosen (history ++ [.destroy entry]) ref ↔ Standing chosen history ref ∧ ¬entry <+: ref := by
  simp [Standing, since_snoc]

/-- Calls on a root that succeed, with what they do to the tree. The components of a path
are those of its length before it is cut to an `unsigned`, and have room in their blocks. -/
inductive Calls : Memory → List Event → Prop
  | create (address : Nat) : Calls (.createRoot address) []
  | add {memory history} (path : Bytes) (length : Nat) (supply : memory.Supply)
      (whole : components path (length % 2 ^ 32) = components path length) (fits : NamesFit path length) :
      Calls memory history →
      Calls (memory.addLength path length supply) (history ++ [.add (components path length)])
  | destroy {memory rest history} (address : Nat) (ref : Ref)
      (inner : memory.children.locate address = some ref) (done : memory.destroy address = some rest) :
      Calls memory history → Calls rest (history ++ [.destroy ref])

def PathTree.refs (tree : PathTree) : List Ref := tree.root.entries.map PathEntry.ref

theorem mem_refs_iff (tree : PathTree) (ref : Ref) :
    ref ∈ tree.refs ↔ (labelAt ref tree.label tree.children).isSome = true := by
  have label := descend_label ref tree.root
  change _ = labelAt ref tree.label tree.children at label
  rw [← label, Option.isSome_map]
  unfold PathTree.refs
  constructor
  · intro known
    obtain ⟨entry, member, located⟩ := List.mem_map.mp known
    rw [(descend_root_iff tree ref entry).mpr ⟨member, located⟩]
    rfl
  · intro found
    obtain ⟨entry, reached⟩ := Option.isSome_iff_exists.mp found
    obtain ⟨member, located⟩ := (descend_root_iff tree ref entry).mp reached
    exact List.mem_map.mpr ⟨entry, member, located⟩

theorem labelAt_null_isSome (ref : Ref) (label : Label) :
    (labelAt ref label .null).isSome = decide (ref = []) := by
  cases ref <;> simp [labelAt, childAt_null]

theorem labelAt_addSegments_isSome (path : List Segment) (label : Label) (children : Entry) (ref : Ref) :
    (labelAt ref (addSegments path label children).1 (addSegments path label children).2).isSome =
      (decide (ref <+: path.map Segment.name) || (labelAt ref label children).isSome) := by
  induction path generalizing label children ref with
  | nil =>
    cases ref with
    | nil => simp [labelAt]
    | cons name rest => simp [labelAt, addSegments]
  | cons segment rest ih =>
    cases ref with
    | nil => simp [labelAt, addSegments]
    | cons name others =>
      rw [addSegments]
      simp only [labelAt]
      rw [childAt_updateChild _ _ _ (addSegments_name rest), childAt_getChild, childAt_getChild, if_pos rfl]
      by_cases same : name = segment.name
      · rw [if_pos same, Option.map_some, Option.bind_some, ih, same, List.map_cons]
        simp only [List.cons_prefix_cons, true_and]
        cases childAt segment.name children with
        | none =>
          rw [Option.getD_none, labelAt_null_isSome]
          cases others <;> simp
        | some child => rfl
      · rw [if_neg same, if_neg same, List.map_cons]
        simp only [List.cons_prefix_cons, same, false_and, decide_false, Bool.false_or]

theorem refs_addLength (tree : PathTree) (path : Bytes) (length : Nat) (ref : Ref) :
    ref ∈ (pathEntryAddLength tree path length).2.refs ↔
      ref <+: components path (length % 2 ^ 32) ∨ ref ∈ tree.refs := by
  have step := labelAt_addSegments_isSome (segments true false path (length % 2 ^ 32)) tree.label tree.children
    ref
  have name : (addSegments (segments true false path (length % 2 ^ 32)) tree.label tree.children).1 =
      (pathEntryAddLength tree path length).2.label := addSegments_label _ tree.label tree.children
  rw [name] at step
  rw [mem_refs_iff, mem_refs_iff]
  change (labelAt ref _ (addSegments _ tree.label tree.children).2).isSome = true ↔ _
  rw [step, Bool.or_eq_true, decide_eq_true_iff]
  rfl

theorem mem_refs_marks (tree : PathTree) (ref : Ref) : ref ∈ tree.refs ↔ ∃ mark ∈ tree.marks, mark.1 = ref := by
  unfold PathTree.refs PathTree.marks
  rw [List.mem_map]
  constructor
  · rintro ⟨entry, member, same⟩
    exact ⟨entry.mark, List.mem_map_of_mem member, same⟩
  · rintro ⟨mark, member, same⟩
    obtain ⟨entry, inside, made⟩ := List.mem_map.mp member
    exact ⟨entry, inside, by rw [← made] at same; exact same⟩

theorem calls_history {memory : Memory} {history : List Event} (calls : Calls memory history) :
    (∀ ref, memory.tree.Added ref ↔ Live history ref) ∧
      ∀ ref, ref ∈ memory.tree.refs ↔ ref = [] ∨ Created history ref := by
  induction calls with
  | create address =>
    have empty : (Memory.createRoot address).tree = pathEntryCreateRoot := rfl
    rw [empty]
    refine ⟨fun ref => iff_of_false (not_added_root ref) (standing_nil _ ref), fun ref => ?_⟩
    have none : ¬Created [] ref := standing_nil _ ref
    simp [mem_refs_iff, pathEntryCreateRoot, labelAt_null_isSome, none]
  | add path length supply whole _ _ ih =>
    rw [Memory.tree_addLength]
    constructor
    · intro ref
      rw [added_addLength, whole, ih.1]
      exact (standing_add _ _ _ ref).symm
    · intro ref
      rw [refs_addLength, whole, ih.2, or_left_comm]
      exact or_congr_right (standing_add _ _ _ ref).symm
  | destroy address ref located done _ ih =>
    obtain ⟨rest, same, destroyed⟩ := Memory.tree_destroy _ address ref located
    rw [done, Option.some.injEq] at same
    subst same
    have marks := marks_pathEntryDestroy _ _ ref destroyed
    have inner : ref ≠ [] := by
      intro top
      simp [pathEntryDestroy, top] at destroyed
    constructor
    · intro other
      rw [added_marks, marks, Live, standing_destroy, ← Live, ← ih.1, added_marks]
      simp only [List.mem_filter, decide_eq_true_eq]
      constructor
      · rintro ⟨mark, ⟨member, apart⟩, equal, added⟩
        exact ⟨⟨mark, member, equal, added⟩, equal ▸ apart⟩
      · rintro ⟨⟨mark, member, equal, added⟩, apart⟩
        exact ⟨mark, ⟨member, equal ▸ apart⟩, equal, added⟩
    · intro other
      have before := ih.2 other
      rw [mem_refs_marks] at before
      rw [mem_refs_marks, marks, Created, standing_destroy, ← Created]
      simp only [List.mem_filter, decide_eq_true_eq]
      constructor
      · rintro ⟨mark, ⟨member, apart⟩, equal⟩
        rcases before.mp ⟨mark, member, equal⟩ with top | created
        · exact Or.inl top
        · exact Or.inr ⟨created, equal ▸ apart⟩
      · rintro (top | ⟨created, apart⟩)
        · obtain ⟨mark, member, equal⟩ := before.mpr (Or.inl top)
          refine ⟨mark, ⟨member, ?_⟩, equal⟩
          rw [equal, top, List.prefix_nil]
          exact inner
        · obtain ⟨mark, member, equal⟩ := before.mpr (Or.inr created)
          exact ⟨mark, ⟨member, equal ▸ apart⟩, equal⟩

/-- A callback that never stops and keeps what it is given. -/
def collect (seen : List Visit) (visit : Visit) : Int × List Visit := (0, seen ++ [visit])

theorem run_collect (tour : Tour Visit) (failure : Int) :
    tour.run collect failure [] = (if tour.completed then 0 else failure, tour.items) := by
  have folded : ∀ items seen : List Visit,
      List.foldl (fun seen visit => seen ++ [visit]) seen items = seen ++ items := by
    intro items
    induction items with
    | nil => simp
    | cons visit rest ih => intro seen; simp [ih]
  unfold collect
  simp only [Tour.run, iterate_eq_foldl, folded, List.nil_append, ↓reduceIte]

theorem names_proper (entry : PathEntry) (wf : entry.children.WellFormed) :
    entry.children.names.Nodup ∧ ∀ name ∈ entry.children.names, name ≠ [] ∧ slash ∉ name := by
  cases entry with
  | mk ref above label children =>
    simp only at wf ⊢
    induction children with
    | null => simp [Entry.names]
    | node label children sibling _ rest =>
      obtain ⟨proper, plain, fresh, -, after⟩ := wf
      obtain ⟨distinct, others⟩ := rest after
      refine ⟨List.nodup_cons.mpr ⟨fresh, distinct⟩, fun name member => ?_⟩
      rcases List.mem_cons.mp member with same | later
      · exact same ▸ ⟨proper, plain⟩
      · exact others name later

theorem wellFormed_entries (tree : PathTree) (entry : PathEntry) (member : entry ∈ tree.root.entries) :
    entry.children.WellFormed := by
  have found := (descend_root_iff tree entry.ref entry).mpr ⟨member, rfl⟩
  exact (entries_descend entry.ref tree.root entry tree.wf found).1

/-- The references that a traversal visits, by the history of the calls. -/
def Expected (flags : ForallFlags) (history : List Event) (ref : Ref) : Prop :=
  if flags.onlyAdded then Live history ref else ref = [] ∨ Created history ref

theorem visitsFrom_perm (flags : ForallFlags) (once : flags.before = !flags.after)
    (loud : flags.silentRoot = false) (tree : PathTree) :
    ((visitsFrom flags tree.root []).map Visit.entry).Perm (tree.root.entries.filter (emits flags ·.label)) := by
  cases last : flags.after with
  | true => rw [visitsFrom_after flags (by rw [once, last]; rfl) last loud]
  | false => exact visitsFrom_before flags (by rw [once, last]; rfl) last loud tree.root []

theorem visited_refs (flags : ForallFlags) (once : flags.before = !flags.after)
    (loud : flags.silentRoot = false) {memory : Memory} {history : List Event} (calls : Calls memory history) :
    ((visitsFrom flags memory.tree.root []).map (·.entry.ref)).Nodup ∧
      ∀ ref, ref ∈ (visitsFrom flags memory.tree.root []).map (·.entry.ref) ↔ Expected flags history ref := by
  have perm := (visitsFrom_perm flags once loud memory.tree).map PathEntry.ref
  rw [List.map_map] at perm
  change ((visitsFrom flags memory.tree.root []).map (·.entry.ref)).Perm _ at perm
  refine ⟨perm.nodup_iff.mpr ((nodup_entries memory.tree).sublist (List.filter_sublist.map PathEntry.ref)),
    fun ref => ?_⟩
  obtain ⟨live, created⟩ := calls_history calls
  rw [perm.mem_iff, List.mem_map, Expected]
  cases only : flags.onlyAdded with
  | true =>
    rw [if_pos rfl, ← live, PathTree.Added]
    simp only [List.mem_filter, emits, only, Bool.not_true, Bool.false_or, and_assoc]
  | false =>
    rw [if_neg (by decide), ← created, PathTree.refs, List.mem_map]
    simp only [List.mem_filter, emits, only, Bool.not_false, Bool.true_or, and_true]

def traversed (flags : ForallFlags) (size : Nat) (memory : Memory) : Int × List Visit :=
  pathEntryForEachInBuffer collect flags memory.tree.root size []

theorem traversed_eq (flags : ForallFlags) (size : Nat) (memory : Memory) :
    ∃ used : ForallFlags, used.onlyAdded = flags.onlyAdded ∧ used.noPath = flags.noPath ∧
      used.silentRoot = flags.silentRoot ∧
      ((flags.before && flags.after) = false → used.before = !used.after) ∧
      traversed flags size memory = (if (tourFrom used size memory.tree.root []).completed then 0
        else -ENAMETOOLONG, (tourFrom used size memory.tree.root []).items) := by
  have top : pathOf memory.tree.root.lineage = [] := by
    simp [PathEntry.lineage, PathTree.root, PathTree.label, pathOf]
  refine ⟨if !flags.before && !flags.after then { flags with after := true } else flags, ?_, ?_, ?_, ?_, ?_⟩
  · split <;> rfl
  · split <;> rfl
  · split <;> rfl
  · cases first : flags.before <;> cases last : flags.after <;> simp [first, last]
  · rw [traversed, pathEntryForEachInBuffer, top, ite_self]
    exact (doForeach_eq ..).trans (run_collect ..)

theorem tourFrom_stops (flags : ForallFlags) (size : Nat) (loud : flags.silentRoot = false) (tree : PathTree)
    (stops : (tourFrom flags size tree.root []).completed = false) :
    flags.noPath = false ∧ ∃ ref ∈ tree.refs, ref ≠ [] ∧ size ≤ (slashed ref).length := by
  by_contra fits
  have room : flags.noPath = false →
      ∀ other ∈ entriesBelow tree.root tree.root.children, (slashed other.ref).length < size + 0 := by
    intro visible other member
    by_contra long
    obtain ⟨name, rest, located, -⟩ := descend_of_mem tree.root tree.root.children tree.wf other member
    refine fits ⟨visible, other.ref, ?_, by rw [located]; simp, by omega⟩
    exact List.mem_map_of_mem (List.mem_append_left _ member)
  have top : underPath flags tree.root.label [] = [] := by
    simp [underPath, PathTree.root, PathTree.label]
  have whole := tourFrom_loud flags size 0 tree.root [] loud (by rw [top]; simp)
    (fun _ named => absurd rfl named) room
  rw [whole] at stops
  cases stops

/-- Siblings have distinct proper names and a link to their parent. A traversal visits each
expected entry once and no other one, or stops when a path has no room in its buffer. -/
theorem calls_keep_tree {memory : Memory} {history : List Event} (calls : Calls memory history) :
    ((∀ entry ∈ memory.tree.root.entries, entry.children.names.Nodup ∧
        ∀ name ∈ entry.children.names, name ≠ [] ∧ slash ∉ name) ∧
      memory.children.LinksTo memory.root) ∧
    ∀ flags size, flags.silentRoot = false → (flags.before && flags.after) = false →
      ((traversed flags size memory).2.map (·.entry.ref)).Nodup ∧
      (∀ ref ∈ (traversed flags size memory).2.map (·.entry.ref), Expected flags history ref) ∧
      ((traversed flags size memory).1 = 0 →
        ∀ ref, Expected flags history ref → ref ∈ (traversed flags size memory).2.map (·.entry.ref)) ∧
      ((traversed flags size memory).1 ≠ 0 → (traversed flags size memory).1 = -ENAMETOOLONG ∧
        flags.noPath = false ∧ ∃ ref, Created history ref ∧ size ≤ (slashed ref).length) := by
  refine ⟨⟨fun entry member => ?_, memory.linked⟩, fun flags size loud single => ?_⟩
  · exact names_proper entry (wellFormed_entries memory.tree entry member)
  · obtain ⟨used, only, hidden, quiet, once, same⟩ := traversed_eq flags size memory
    rw [same]
    have follows := tourFrom_visits used size memory.tree.root []
    rw [← quiet] at loud
    obtain ⟨apart, known⟩ := visited_refs used (once single) loud calls
    have expected : ∀ ref, Expected used history ref ↔ Expected flags history ref := by
      intro ref
      rw [Expected, only, Expected]
    simp only [expected] at known
    have first : ((tourFrom used size memory.tree.root []).items.map (·.entry.ref)) <+:
        ((visitsFrom used memory.tree.root []).map (·.entry.ref)) := follows.1.map _
    refine ⟨apart.sublist first.sublist, fun ref member => (known ref).mp (first.subset member), ?_, ?_⟩
    · intro zero ref wanted
      cases done : (tourFrom used size memory.tree.root []).completed with
      | true =>
        rw [follows.2 done]
        exact (known ref).mpr wanted
      | false =>
        rw [done] at zero
        cases zero
    · intro failed
      cases done : (tourFrom used size memory.tree.root []).completed with
      | true =>
        rw [done] at failed
        exact absurd rfl failed
      | false =>
        obtain ⟨visible, ref, inside, inner, long⟩ := tourFrom_stops used size loud memory.tree done
        refine ⟨rfl, hidden ▸ visible, ref, ?_, long⟩
        exact (((calls_history calls).2 ref).mp inside).resolve_left inner

theorem calls_keep_tree_removed : ∃ memory : Memory, ∃ history, Calls memory history ∧
    ¬Live history ["a".toUTF8.toList, "b".toUTF8.toList] ∧
    ["a".toUTF8.toList, "b".toUTF8.toList] ∉
      (traversed { onlyAdded := true } PATH_MAX memory).2.map (·.entry.ref) := by
  let supply : Memory.Supply (.createRoot 0) := ⟨Nat.succ, Nat.succ_injective, by simp [Memory.createRoot,
    Linked.addresses]⟩
  let path : Bytes := "/a//b".toUTF8.toList
  have added : Calls _ ([] ++ [.add (components path 5)]) :=
    .add path 5 supply (by decide +kernel) (namesFit_short _ _ (by decide)) (.create 0)
  have located : ((Memory.createRoot 0).addLength path 5 supply).children.locate 1 = some ["a".toUTF8.toList] := by
    decide +kernel
  obtain ⟨rest, done, -⟩ := Memory.tree_destroy _ 1 _ located
  have calls : Calls rest ([] ++ [.add (components path 5)] ++ [.destroy ["a".toUTF8.toList]]) :=
    .destroy 1 _ located done added
  have gone : ¬Live ([] ++ [.add (components path 5)] ++ [.destroy ["a".toUTF8.toList]])
      ["a".toUTF8.toList, "b".toUTF8.toList] := by
    rw [Live, standing_destroy]
    exact fun both => both.2 (by decide +kernel)
  refine ⟨_, _, calls, gone, fun visited => gone ?_⟩
  exact ((calls_keep_tree calls).2 { onlyAdded := true } PATH_MAX rfl rfl).2.1 _ visited

/-- One name of 4095 bytes, which the scratch buffer has no room for. -/
def longName : Bytes := List.replicate 4095 'a'.toUInt8

/-- An added path that is too long for the scratch buffer is not visited. -/
theorem traversed_too_long : ∃ memory : Memory, ∃ history, Calls memory history ∧
    Live history [longName] ∧ traversed { onlyAdded := true } PATH_MAX memory = (-ENAMETOOLONG, []) := by
  let supply : Memory.Supply (.createRoot 0) := ⟨Nat.succ, Nat.succ_injective, by simp [Memory.createRoot,
    Linked.addresses]⟩
  have size : longName.length = 4095 := List.length_replicate
  have proper : longName ≠ [] := List.ne_nil_of_length_pos (by rw [size]; decide)
  have single : segments true false longName 4095 = [⟨longName, longName, false⟩] := by
    rw [← size]
    exact segments_single longName proper (by rw [longName, List.mem_replicate]; decide)
  have named : components longName 4095 = [longName] := by rw [components, single, List.map_singleton]
  have calls : Calls _ ([] ++ [.add (components longName 4095)]) :=
    .add longName 4095 supply (by rw [Nat.mod_eq_of_lt (by decide)]) (namesFit_short _ _ (by decide)) (.create 0)
  refine ⟨_, _, calls, (standing_add _ [] _ _).mpr (Or.inl named.symm), ?_⟩
  rw [traversed, Memory.tree_addLength, show (Memory.createRoot 0).tree = pathEntryCreateRoot from rfl,
    pathEntryAddLength]
  simp only [Nat.mod_eq_of_lt (show 4095 < 2 ^ 32 by decide), single]
  simp [pathEntryForEachInBuffer, doForeach, enterPath, PathTree.root, PathTree.label, addSegments, getChild,
    searchChild, makeChild, updateChild, pathEntryCreateRoot, visitEntry, emits, forChildren, size, PATH_MAX]

end AppManager.Utils
