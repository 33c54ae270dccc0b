import AppManager.Lib.Tour
import AppManager.Utils.PathName

/-! Traversals of a tree of paths. The path of the visited entry is built in a
buffer of fixed size, and the first entry whose path is too long for it ends the
whole traversal: the entries that a callback sees are a prefix of the traversal. -/

namespace AppManager.Utils
open AppManager.Lib AppManager.Lib.Libc

structure ForallFlags where
  onlyAdded : Bool := false
  noPath : Bool := false
  before : Bool := false
  after : Bool := false
  absolute : Bool := false
  silentRoot : Bool := false
  deriving DecidableEq, Repr

/-- What a callback is given: the entry, and the bytes of the buffer up to their length. -/
structure Visit where
  entry : PathEntry
  path : Bytes
  deriving DecidableEq, Repr

/-- The path of an entry after the one of its parent, when it fits. -/
def enterPath (flags : ForallFlags) (size : Nat) (label : Label) (path : Bytes) : Option Bytes :=
  if 0 < label.name.length ∧ !flags.noPath then
    if size < path.length + label.name.length + 2 then none
    else some (path ++ (if 0 < path.length ∨ label.slash then [slash] else []) ++ label.name)
  else some path

def emits (flags : ForallFlags) (label : Label) : Bool := !flags.onlyAdded || label.added

section
variable {State : Type} (callback : State → Visit → Int × State)

/-- `do_foreach` once the path of the entry is known, over the traversal of its children. -/
def visitEntry (emit before after : Bool) (visit : Visit) (loop : State → Int × State)
    (state : State) : Int × State :=
  let first := if emit && before then callback state visit else (0, state)
  let inner := if first.1 = 0 then loop first.2 else first
  if emit && inner.1 = 0 && after then callback inner.2 visit else inner

/-- The loop of `do_foreach` over children, each with its own traversal. -/
def forChildren (flags : ForallFlags) (size : Nat) (parent : PathEntry) (path : Bytes) :
    Entry → State → Int × State
  | .null, state => (0, state)
  | .node label children sibling, state =>
    match enterPath flags size label path with
    | none => (-ENAMETOOLONG, state)
    | some inside =>
      let entry := parent.child label children
      let here := visitEntry callback (emits flags label) flags.before flags.after ⟨entry, inside⟩
        (forChildren flags size entry inside children) state
      if here.1 = 0 then forChildren flags size parent path sibling here.2 else here

def doForeach (flags : ForallFlags) (size : Nat) (entry : PathEntry) (path : Bytes)
    (state : State) : Int × State :=
  if flags.silentRoot then
    visitEntry callback false flags.before flags.after ⟨entry, path⟩
      (forChildren callback flags size entry path entry.children) state
  else match enterPath flags size entry.label path with
    | none => (-ENAMETOOLONG, state)
    | some inside =>
      visitEntry callback (emits flags entry.label) flags.before flags.after ⟨entry, inside⟩
        (forChildren callback flags size entry inside entry.children) state

def pathEntryForEachInBuffer (flags : ForallFlags) (root : PathEntry) (size : Nat)
    (state : State) : Int × State :=
  let flags := if !flags.before && !flags.after then { flags with after := true } else flags
  doForeach callback flags size root
    (if flags.absolute && !flags.noPath then pathOf root.lineage else []) state

def pathEntryForEach (flags : ForallFlags) (root : PathEntry) (state : State) : Int × State :=
  pathEntryForEachInBuffer callback flags root (if flags.noPath then 0 else PATH_MAX) state

end

/-- The visits of one entry around those of its children. -/
def around (emit before after : Bool) (visit : Visit) (inner : Tour Visit) : Tour Visit :=
  ((Tour.of (if emit && before then [visit] else [])).andThen inner).andThen
    (Tour.of (if emit && after then [visit] else []))

def tourChildren (flags : ForallFlags) (size : Nat) (parent : PathEntry) (path : Bytes) :
    Entry → Tour Visit
  | .null => Tour.of []
  | .node label children sibling =>
    match enterPath flags size label path with
    | none => ⟨[], false⟩
    | some inside =>
      let entry := parent.child label children
      (around (emits flags label) flags.before flags.after ⟨entry, inside⟩
        (tourChildren flags size entry inside children)).andThen
          (tourChildren flags size parent path sibling)

theorem run_around {State : Type} (callback : State → Visit → Int × State) (failure : Int)
    (fails : failure ≠ 0) (emit before after : Bool) (visit : Visit) (inner : Tour Visit)
    (state : State) : (around emit before after visit inner).run callback failure state =
      visitEntry callback emit before after visit (inner.run callback failure) state := by
  unfold around visitEntry
  simp only [Tour.run_andThen _ _ fails, Tour.run_of, iterate_optional]
  generalize (if (emit && before) = true then callback state visit else (0, state)) = first
  generalize (if first.1 = 0 then inner.run callback failure first.2 else first) = middle
  by_cases zero : middle.1 = 0
  · cases emit with
    | false => simp [← zero]
    | true => cases after <;> simp [← zero]
  · simp [zero]

theorem forChildren_eq {State : Type} (callback : State → Visit → Int × State)
    (flags : ForallFlags) (size : Nat) (parent : PathEntry) (path : Bytes) (entry : Entry)
    (state : State) : forChildren callback flags size parent path entry state =
      (tourChildren flags size parent path entry).run callback (-ENAMETOOLONG) state := by
  induction entry generalizing parent path state with
  | null => simp [forChildren, tourChildren, Tour.run_of, iterate]
  | node label children sibling inner rest =>
    cases entered : enterPath flags size label path with
    | none => simp [forChildren, tourChildren, entered, Tour.run, iterate]
    | some inside =>
      have loop : forChildren callback flags size (parent.child label children) inside children =
          (tourChildren flags size (parent.child label children) inside children).run callback
            (-ENAMETOOLONG) := funext (inner _ _)
      simp only [forChildren, tourChildren, entered, loop, rest,
        Tour.run_andThen _ _ (by decide : -ENAMETOOLONG ≠ 0),
        run_around _ _ (by decide : -ENAMETOOLONG ≠ 0)]

def tourFrom (flags : ForallFlags) (size : Nat) (entry : PathEntry) (path : Bytes) : Tour Visit :=
  if flags.silentRoot then
    around false flags.before flags.after ⟨entry, path⟩
      (tourChildren flags size entry path entry.children)
  else match enterPath flags size entry.label path with
    | none => ⟨[], false⟩
    | some inside => around (emits flags entry.label) flags.before flags.after ⟨entry, inside⟩
        (tourChildren flags size entry inside entry.children)

/-- A traversal gives the callback the visits of its tour, in order. -/
theorem doForeach_eq {State : Type} (callback : State → Visit → Int × State) (flags : ForallFlags)
    (size : Nat) (entry : PathEntry) (path : Bytes) (state : State) :
    doForeach callback flags size entry path state =
      (tourFrom flags size entry path).run callback (-ENAMETOOLONG) state := by
  have loop : ∀ path, forChildren callback flags size entry path entry.children =
      (tourChildren flags size entry path entry.children).run callback (-ENAMETOOLONG) :=
    fun path => funext (forChildren_eq callback flags size entry path entry.children)
  unfold doForeach tourFrom
  split
  · rw [run_around _ _ (by decide : -ENAMETOOLONG ≠ 0), loop]
  · cases enterPath flags size entry.label path with
    | none => rfl
    | some inside => simp only [run_around _ _ (by decide : -ENAMETOOLONG ≠ 0), loop]

end AppManager.Utils
