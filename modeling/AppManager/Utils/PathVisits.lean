import AppManager.Utils.PathForeach

/-! The entries of a tree and the ones that a traversal of the added entries
reaches: always the first ones, in the order of the traversal. -/

namespace AppManager.Utils
open AppManager.Lib AppManager.Lib.Libc

/-- All the entries below a parent, children before their parent. -/
def entriesBelow (parent : PathEntry) : Entry → List PathEntry
  | .null => []
  | .node label children sibling =>
    let entry := parent.child label children
    entriesBelow entry children ++ entry :: entriesBelow parent sibling

def PathEntry.entries (root : PathEntry) : List PathEntry :=
  entriesBelow root root.children ++ [root]

/-- The path shown for an entry when the traversal starts at the root of its tree. -/
def shownPath (flags : ForallFlags) (entry : PathEntry) : Bytes :=
  if flags.noPath then [] else pathOf entry.lineage

theorem pathOf_cons (label : Label) (above : List Label) (proper : label.name ≠ []) :
    pathOf (label :: above) = pathOf above ++
      (if 0 < (pathOf above).length ∨ label.slash then [slash] else []) ++ label.name := by
  rw [pathOf, if_neg proper]
  by_cases top : pathOf above = []
  · simp [top]
  · simp [top, List.length_pos_iff]

theorem enterPath_some {flags : ForallFlags} {size : Nat} {parent : PathEntry} {label : Label}
    (children : Entry) {inside : Bytes} (proper : label.name ≠ [])
    (entered : enterPath flags size label (shownPath flags parent) = some inside) :
    inside = shownPath flags (parent.child label children) ∧
      (flags.noPath = false → inside.length < size) := by
  have positive : 0 < label.name.length := List.length_pos_iff.mpr proper
  unfold enterPath shownPath at *
  cases hidden : flags.noPath with
  | true => simpa [hidden, eq_comm] using entered
  | false =>
    simp only [hidden, positive, Bool.not_false, and_self, ↓reduceIte, Bool.false_eq_true] at entered ⊢
    split at entered
    · simp at entered
    · next room =>
      have same := Option.some.inj entered
      rw [← pathOf_cons label _ proper] at same
      refine ⟨same.symm, fun _ => ?_⟩
      rw [← same, pathOf_cons label _ proper]
      split <;> simp only [List.length_append, List.length_singleton, List.length_nil] <;> omega

theorem tourChildren_follows (flags : ForallFlags) (size : Nat) (late : flags.before = false)
    (last : flags.after = true) (parent : PathEntry) (siblings : Entry) (wf : siblings.WellFormed) :
    (tourChildren flags size parent (shownPath flags parent) siblings).Follows
      (((entriesBelow parent siblings).filter (emits flags ·.label)).map
        fun entry => ⟨entry, shownPath flags entry⟩) := by
  induction siblings generalizing parent with
  | null => exact Tour.follows_of []
  | node label children sibling inner rest =>
    obtain ⟨proper, -, -, below, after⟩ := wf
    unfold tourChildren
    cases entered : enterPath flags size label (shownPath flags parent) with
    | none => exact ⟨List.nil_prefix, by simp⟩
    | some inside =>
      have shown := (enterPath_some children proper entered).1
      subst shown
      have here : (around (emits flags label) flags.before flags.after
          ⟨parent.child label children, shownPath flags (parent.child label children)⟩
          (tourChildren flags size (parent.child label children)
            (shownPath flags (parent.child label children)) children)).Follows _ :=
        Tour.follows_andThen (Tour.follows_andThen (Tour.follows_of _) (inner _ below))
          (Tour.follows_of _)
      have whole := Tour.follows_andThen here (rest parent after)
      rw [late, last] at whole
      cases shown : emits flags label with
      | false => simpa [late, last, shown, entriesBelow, PathEntry.child] using whole
      | true => simpa [late, last, shown, entriesBelow, PathEntry.child] using whole

theorem tourChildren_absolute (flags : ForallFlags) (size : Nat) (absolute : Bool)
    (parent : PathEntry) (path : Bytes) (siblings : Entry) :
    tourChildren { flags with absolute := absolute } size parent path siblings =
      tourChildren flags size parent path siblings := by
  induction siblings generalizing parent path with
  | null => rfl
  | node label children sibling inner rest =>
    have same : enterPath { flags with absolute := absolute } size label path =
      enterPath flags size label path := rfl
    simp only [tourChildren, same, inner, rest]
    rfl

theorem tourChildren_noPath (flags : ForallFlags) (size : Nat) (hidden : flags.noPath = true)
    (parent : PathEntry) (path : Bytes) (siblings : Entry) :
    (tourChildren flags size parent path siblings).completed = true := by
  induction siblings generalizing parent path with
  | null => rfl
  | node label children sibling inner rest =>
    have entered : enterPath flags size label path = some path := by simp [enterPath, hidden]
    simp only [tourChildren, entered, around, Tour.completed_andThen, inner, rest, Tour.of,
      Bool.and_self]

theorem tourChildren_short (flags : ForallFlags) (size : Nat) (visible : flags.noPath = false)
    (parent : PathEntry) (siblings : Entry) (wf : siblings.WellFormed) :
    ∀ visit ∈ (tourChildren flags size parent (shownPath flags parent) siblings).items,
      visit.path.length < size := by
  induction siblings generalizing parent with
  | null => simp [tourChildren, Tour.of]
  | node label children sibling inner rest =>
    obtain ⟨proper, -, -, below, after⟩ := wf
    intro visit member
    unfold tourChildren at member
    cases entered : enterPath flags size label (shownPath flags parent) with
    | none => simp [entered] at member
    | some inside =>
      obtain ⟨shown, short⟩ := enterPath_some children proper entered
      simp only [entered] at member
      have own : ∀ other : Bool, visit ∈ (if other then
          [(⟨parent.child label children, inside⟩ : Visit)] else []) → visit.path.length < size := by
        intro other only
        cases other <;> simp at only
        rw [only]
        exact short visible
      rcases Tour.mem_andThen member with here | later
      · rcases Tour.mem_andThen here with start | last
        · rcases Tour.mem_andThen start with first | middle
          · exact own _ first
          · rw [shown] at middle
            exact inner _ below visit middle
        · exact own _ last
      · exact rest parent after visit later

/-- The added entries of a tree with their full paths, children before their parent. -/
def addedVisits (tree : PathTree) : List Visit :=
  (tree.root.entries.filter (·.label.added)).map fun entry => ⟨entry, pathOf entry.lineage⟩

/-- The added entries that come before the first path too long for the scratch buffer. -/
def reached (tree : PathTree) : List Visit :=
  (tourFrom { onlyAdded := true, after := true } PATH_MAX tree.root []).items

theorem tourFrom_root (tree : PathTree) (flags : ForallFlags) (size : Nat)
    (loud : flags.silentRoot = false) : tourFrom flags size tree.root [] =
      around (emits flags tree.label) flags.before flags.after ⟨tree.root, []⟩
        (tourChildren flags size tree.root [] tree.children) := by
  have entered : enterPath flags size tree.root.label [] = some [] := by
    simp [enterPath, PathTree.root, PathTree.label]
  simp only [tourFrom, loud, entered]
  rfl

theorem tourFrom_root_follows (tree : PathTree) (flags : ForallFlags) (size : Nat)
    (late : flags.before = false) (last : flags.after = true) (loud : flags.silentRoot = false) :
    (tourFrom flags size tree.root []).Follows
      ((tree.root.entries.filter (emits flags ·.label)).map
        fun entry => ⟨entry, shownPath flags entry⟩) := by
  have top : shownPath flags tree.root = [] := by
    simp [shownPath, PathEntry.lineage, PathTree.root, PathTree.label, pathOf]
  have below := tourChildren_follows flags size late last tree.root tree.children tree.wf
  rw [top] at below
  have whole := Tour.follows_andThen (Tour.follows_andThen
    (Tour.follows_of (if emits flags tree.label && flags.before then [⟨tree.root, []⟩] else [])) below)
    (Tour.follows_of (if emits flags tree.label && flags.after then [⟨tree.root, []⟩] else []))
  rw [tourFrom_root tree flags size loud, around]
  have own : tree.root.label = tree.label := rfl
  have inner : tree.root.children = tree.children := rfl
  cases emitted : emits flags tree.label with
  | false =>
    rw [emitted] at whole
    simpa [late, last, emitted, PathEntry.entries, own, inner] using whole
  | true =>
    rw [emitted] at whole
    simpa [late, last, emitted, PathEntry.entries, own, inner, top] using whole

theorem reached_of_added (tree : PathTree) : reached tree <+: addedVisits tree :=
  (tourFrom_root_follows tree { onlyAdded := true, after := true } PATH_MAX rfl rfl rfl).1

theorem reached_short (tree : PathTree) (visit : Visit) (member : visit ∈ reached tree) :
    visit.path.length < PATH_MAX := by
  unfold reached at member
  rw [tourFrom_root _ _ _ rfl, around] at member
  have own : ∀ other : Bool, visit ∈ (if other then [(⟨tree.root, []⟩ : Visit)] else []) →
      visit.path.length < PATH_MAX := by
    intro other only
    cases other <;> simp at only
    simp [only, PATH_MAX]
  rcases Tour.mem_andThen member with start | last
  · rcases Tour.mem_andThen start with first | middle
    · exact own _ first
    · exact tourChildren_short { onlyAdded := true, after := true } PATH_MAX rfl tree.root tree.children
        tree.wf visit middle
  · exact own _ last

section
variable {State : Type} (step : State → Visit → State)

theorem run_foldl (tour : Tour Visit) (failure : Int) (state : State) :
    (tour.run (fun state visit => (0, step state visit)) failure state).2 =
      tour.items.foldl step state := by
  simp [Tour.run, iterate_eq_foldl]

/-- A callback that never stops sees the reached entries. -/
theorem pathEntryForEach_reached (tree : PathTree) (absolute : Bool) (state : State) :
    (pathEntryForEach (fun state visit => (0, step state visit))
      { onlyAdded := true, absolute := absolute } tree.root state).2 =
        (reached tree).foldl step state := by
  have path : pathOf tree.root.lineage = [] := by
    simp [PathEntry.lineage, PathTree.root, PathTree.label, pathOf]
  simp only [pathEntryForEach, pathEntryForEachInBuffer, Bool.not_false, Bool.and_self, ↓reduceIte,
    Bool.false_eq_true, doForeach_eq, run_foldl]
  rw [path, ite_self, tourFrom_root _ _ _ rfl, reached, tourFrom_root _ _ _ rfl]
  rw [tourChildren_absolute { onlyAdded := true, after := true }]
  rfl

theorem pathEntryForEach_noPath (tree : PathTree) (state : State) :
    (pathEntryForEach (fun state visit => (0, step state visit))
      { onlyAdded := true, noPath := true } tree.root state).2 =
        (tree.root.entries.filter (·.label.added)).foldl (fun state entry => step state ⟨entry, []⟩) state := by
  have follows := tourFrom_root_follows tree { onlyAdded := true, noPath := true, after := true } 0
    rfl rfl rfl
  have completed : (tourFrom { onlyAdded := true, noPath := true, after := true } 0 tree.root
      []).completed = true := by
    rw [tourFrom_root _ _ _ rfl, around, Tour.completed_andThen, Tour.completed_andThen,
      tourChildren_noPath _ _ rfl]
    rfl
  simp only [pathEntryForEach, pathEntryForEachInBuffer, Bool.not_false, Bool.and_self, ↓reduceIte,
    Bool.not_true, Bool.false_eq_true, doForeach_eq, run_foldl]
  rw [follows.2 completed, List.foldl_map]
  rfl

end
end AppManager.Utils
