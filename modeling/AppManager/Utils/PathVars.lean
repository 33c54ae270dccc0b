import AppManager.Lib.Custody
import AppManager.Utils.PathHistory

/-! The variables of the entries of a tree, with what becomes of their values. A value is set with
a function that disposes of it, which is called when the variable is set again or deleted. -/

namespace AppManager.Utils.PathVars
open AppManager.Lib AppManager.Lib.Libc Custody

/-- A variable of an entry. Keys, values and functions are addresses. -/
structure Var (Key Value Dispose : Type) where
  key : Key
  value : Value
  dispose : Option Dispose
  deriving DecidableEq, Repr

/-- A tree, the variables of its entries, and the calls that were made to dispose of values. -/
structure Store (Key Value Dispose : Type) where
  tree : Option PathTree
  vars : Ref → List (Var Key Value Dispose)
  disposed : List (Dispose × Value)

variable {Key Value Dispose : Type}

/-- `if (var->dispose != NULL) var->dispose(var->value)` -/
def Var.calls (var : Var Key Value Dispose) : List (Dispose × Value) :=
  (var.dispose.map fun dispose => (dispose, var.value)).toList

/-- The loop on the variables in `destroy`: they are freed and nothing is called. -/
def freeVars (store : Store Key Value Dispose) (entry : PathEntry) : Store Key Value Dispose :=
  { store with vars := Function.update store.vars entry.ref [] }

/-- The entry is unlinked, then what is below it is destroyed before it. -/
def pathEntryDestroy (store : Store Key Value Dispose) (entry : Ref) : Store Key Value Dispose :=
  match store.tree.bind fun tree => descend entry tree.root with
  | none => store
  | some found =>
    found.entries.foldl freeVars { store with tree := store.tree.bind (Utils.pathEntryDestroy · entry) }

def Store.Has (store : Store Key Value Dispose) (entry : Ref) : Prop :=
  ∃ tree, store.tree = some tree ∧ entry ∈ tree.refs

/-- Variables have different keys, and belong to entries. -/
structure Store.Proper (store : Store Key Value Dispose) : Prop where
  distinct : ∀ entry, ((store.vars entry).map Var.key).Nodup
  inside : ∀ entry, store.vars entry ≠ [] → store.Has entry

/-- Other variables of an entry of the tree are as proper as they are distinct. -/
theorem Store.Proper.update {store : Store Key Value Dispose} (proper : store.Proper) {entry : Ref}
    (inside : store.Has entry) {vars : List (Var Key Value Dispose)} (distinct : (vars.map Var.key).Nodup)
    (disposed : List (Dispose × Value)) :
    Store.Proper { store with vars := Function.update store.vars entry vars, disposed := disposed } := by
  refine ⟨fun other => ?_, fun other some => ?_⟩
  · by_cases here : other = entry
    · rw [here]
      simpa only [Function.update_self] using distinct
    · simpa only [Function.update_of_ne here] using proper.distinct other
  · by_cases here : other = entry
    · exact here ▸ inside
    · exact proper.inside other (by simpa only [Function.update_of_ne here] using some)

theorem foldl_freeVars (entries : List PathEntry) (store : Store Key Value Dispose) :
    (entries.foldl freeVars store).tree = store.tree ∧ (entries.foldl freeVars store).disposed = store.disposed := by
  induction entries generalizing store with
  | nil => exact ⟨rfl, rfl⟩
  | cons entry rest ih => exact ih (freeVars store entry)

theorem vars_foldl_freeVars (entries : List PathEntry) (store : Store Key Value Dispose) (other : Ref) :
    (other ∈ entries.map PathEntry.ref → (entries.foldl freeVars store).vars other = []) ∧
      (other ∉ entries.map PathEntry.ref → (entries.foldl freeVars store).vars other = store.vars other) := by
  induction entries generalizing store with
  | nil => exact ⟨fun member => absurd member List.not_mem_nil, fun _ => rfl⟩
  | cons entry rest ih =>
    obtain ⟨freed, left⟩ := ih (freeVars store entry)
    rw [List.foldl_cons, List.map_cons, List.mem_cons]
    by_cases later : other ∈ rest.map PathEntry.ref
    · exact ⟨fun _ => freed later, fun fresh => absurd (Or.inr later) fresh⟩
    · rw [left later]
      refine ⟨fun either => ?_, fun fresh => ?_⟩
      · have here := either.resolve_right later
        simp only [freeVars, here, Function.update_self]
      · have apart : other ≠ entry.ref := fun here => fresh (Or.inl here)
        simp only [freeVars, Function.update_of_ne apart]

theorem pathEntryDestroy_spec {store : Store Key Value Dispose} (proper : store.Proper) {entry : Ref} {tree : PathTree}
    (held : store.tree = some tree) (inside : entry ∈ tree.refs) :
    (pathEntryDestroy store entry).tree = Utils.pathEntryDestroy tree entry ∧
      (pathEntryDestroy store entry).disposed = store.disposed ∧
      ∀ other, (pathEntryDestroy store entry).vars other = if entry <+: other then [] else store.vars other := by
  obtain ⟨found, member, located⟩ := List.mem_map.mp inside
  have reached := (descend_root_iff tree entry found).mpr ⟨member, located⟩
  have whole := (entries_descend entry tree.root found tree.wf reached).2
  rw [show tree.root.ref = [] from rfl, List.nil_append] at whole
  have run : pathEntryDestroy store entry =
      found.entries.foldl freeVars { store with tree := Utils.pathEntryDestroy tree entry } := by
    rw [pathEntryDestroy, held, Option.bind_some, reached, Option.bind_some]
  have freed : ∀ other, other ∈ found.entries.map PathEntry.ref ↔ other ∈ tree.refs ∧ entry <+: other := by
    intro other
    rw [whole, PathTree.refs, List.mem_map, List.mem_map]
    constructor
    · rintro ⟨place, member, rfl⟩
      obtain ⟨known, below⟩ := List.mem_filter.mp member
      exact ⟨⟨place, known, rfl⟩, of_decide_eq_true below⟩
    · rintro ⟨⟨place, known, rfl⟩, below⟩
      exact ⟨place, List.mem_filter.mpr ⟨known, decide_eq_true below⟩, rfl⟩
  obtain ⟨left, same⟩ := foldl_freeVars found.entries { store with tree := Utils.pathEntryDestroy tree entry }
  rw [run, left, same]
  refine ⟨rfl, rfl, fun other => ?_⟩
  obtain ⟨none, kept⟩ := vars_foldl_freeVars found.entries
    { store with tree := Utils.pathEntryDestroy tree entry } other
  by_cases below : entry <+: other
  · rw [if_pos below]
    by_cases known : other ∈ tree.refs
    · exact none ((freed other).mpr ⟨known, below⟩)
    · rw [kept fun member => known ((freed other).mp member).1]
      by_contra some
      obtain ⟨tree', held', known'⟩ := proper.inside other some
      exact known (Option.some.inj (held'.symm.trans held) ▸ known')
  · rw [if_neg below, kept fun member => below ((freed other).mp member).2]

section
variable [DecidableEq Key]

def searchVar (vars : List (Var Key Value Dispose)) (key : Key) : Option (Var Key Value Dispose) :=
  vars.find? fun var => key = var.key

def replaceVar (key : Key) (value : Value) (dispose : Option Dispose) :
    List (Var Key Value Dispose) → List (Var Key Value Dispose)
  | [] => []
  | var :: rest =>
    if key = var.key then ⟨var.key, value, dispose⟩ :: rest else var :: replaceVar key value dispose rest

/-- `memory` tells whether `malloc` has some. -/
def pathEntryVarSet (store : Store Key Value Dispose) (entry : Ref) (key : Key) (value : Value)
    (dispose : Option Dispose) (memory : Bool) : Int × Store Key Value Dispose :=
  match searchVar (store.vars entry) key with
  | none =>
    if memory then
      (0, { store with vars := Function.update store.vars entry (⟨key, value, dispose⟩ :: store.vars entry) })
    else (-ENOMEM, store)
  | some var =>
    (0, { store with
      vars := Function.update store.vars entry (replaceVar key value dispose (store.vars entry))
      disposed := store.disposed ++ var.calls })

/-- The loop of `path_entry_var_del`, with the calls that it makes. -/
def delVar (key : Key) : List (Var Key Value Dispose) → List (Var Key Value Dispose) × List (Dispose × Value)
  | [] => ([], [])
  | var :: rest =>
    if var.key = key then (rest, var.calls)
    else
      let (rest, calls) := delVar key rest
      (var :: rest, calls)

def pathEntryVarDel (store : Store Key Value Dispose) (entry : Ref) (key : Key) : Store Key Value Dispose :=
  let (vars, calls) := delVar key (store.vars entry)
  { store with vars := Function.update store.vars entry vars, disposed := store.disposed ++ calls }

/-- What the search of a variable of an entry finds. -/
def Store.held (store : Store Key Value Dispose) (slot : Ref × Key) : Option (Value × Option Dispose) :=
  (searchVar (store.vars slot.1) slot.2).map fun var => (var.value, var.dispose)

theorem searchVar_eq_none {vars : List (Var Key Value Dispose)} {key : Key} :
    searchVar vars key = none ↔ key ∉ vars.map Var.key := by
  rw [searchVar, List.find?_eq_none, List.mem_map]
  constructor
  · rintro none ⟨var, member, rfl⟩
    exact none var member (decide_eq_true rfl)
  · intro fresh var member same
    exact fresh ⟨var, member, (of_decide_eq_true same).symm⟩

theorem keys_replaceVar (key : Key) (value : Value) (dispose : Option Dispose) (vars : List (Var Key Value Dispose)) :
    (replaceVar key value dispose vars).map Var.key = vars.map Var.key := by
  induction vars with
  | nil => rfl
  | cons var rest ih =>
    rw [replaceVar]
    split
    · rfl
    · rw [List.map_cons, ih, List.map_cons]

theorem searchVar_cons (var : Var Key Value Dispose) (rest : List (Var Key Value Dispose)) (key : Key) :
    searchVar (var :: rest) key = if key = var.key then some var else searchVar rest key := by
  rw [searchVar, List.find?_cons]
  by_cases same : key = var.key
  · rw [if_pos same, decide_eq_true same]
  · rw [if_neg same, decide_eq_false same]
    rfl

theorem searchVar_replaceVar {vars : List (Var Key Value Dispose)} {key : Key} (known : searchVar vars key ≠ none)
    (value : Value) (dispose : Option Dispose) (other : Key) :
    searchVar (replaceVar key value dispose vars) other =
      if other = key then some ⟨key, value, dispose⟩ else searchVar vars other := by
  induction vars with
  | nil => exact absurd rfl known
  | cons var rest ih =>
    rw [searchVar_cons] at known ⊢
    rw [replaceVar]
    by_cases here : key = var.key
    · rw [if_pos here, searchVar_cons, ← here]
      split_ifs <;> rfl
    · rw [if_neg here] at known
      rw [if_neg here, searchVar_cons, ih known]
      by_cases same : other = key
      · rw [if_pos same, if_pos same, same, if_neg here]
      · rw [if_neg same, if_neg same]

theorem delVar_sublist (key : Key) (vars : List (Var Key Value Dispose)) : (delVar key vars).1.Sublist vars := by
  induction vars with
  | nil => exact List.Sublist.refl _
  | cons var rest ih =>
    rw [delVar]
    split
    · exact List.sublist_cons_self var rest
    · exact ih.cons_cons var

theorem calls_delVar (key : Key) (vars : List (Var Key Value Dispose)) :
    (delVar key vars).2 = ((searchVar vars key).map Var.calls).getD [] := by
  induction vars with
  | nil => rfl
  | cons var rest ih =>
    rw [delVar, searchVar_cons]
    by_cases same : var.key = key
    · rw [if_pos same, if_pos same.symm]
      rfl
    · rw [if_neg same, if_neg fun equal => same equal.symm]
      exact ih

theorem searchVar_delVar {vars : List (Var Key Value Dispose)} (distinct : (vars.map Var.key).Nodup) (key other : Key) :
    searchVar (delVar key vars).1 other = if other = key then none else searchVar vars other := by
  induction vars with
  | nil => exact (ite_self none).symm
  | cons var rest ih =>
    obtain ⟨fresh, distinct⟩ := List.nodup_cons.mp distinct
    rw [delVar]
    by_cases same : var.key = key
    · rw [if_pos same]
      by_cases equal : other = key
      · rw [if_pos equal, searchVar_eq_none, equal, ← same]
        exact fresh
      · rw [if_neg equal, searchVar_cons, if_neg (same ▸ equal)]
    · rw [if_neg same, searchVar_cons, searchVar_cons, ih distinct]
      by_cases equal : other = key
      · rw [if_pos equal, if_pos equal, equal, if_neg fun here => same here.symm]
      · rw [if_neg equal, if_neg equal]

/-- A variable as the ones that the traversals read. -/
def Var.plain (var : Var Key Value Dispose) : Utils.Var Key Value := ⟨var.key, some var.value, var.dispose.isSome⟩

theorem searchVar_plain (vars : List (Var Key Value Dispose)) (key : Key) :
    Utils.searchVar (vars.map Var.plain) key = (searchVar vars key).map Var.plain := by
  unfold Utils.searchVar searchVar
  rw [List.find?_map]
  rfl

theorem replaceVar_plain (key : Key) (value : Value) (dispose : Option Dispose) (vars : List (Var Key Value Dispose)) :
    setVar key (some value) dispose.isSome (vars.map Var.plain) =
      (replaceVar key value dispose vars).map Var.plain := by
  induction vars with
  | nil => rfl
  | cons var rest ih =>
    rw [List.map_cons, setVar, replaceVar, ih]
    by_cases same : key = var.key
    · have plain : key = var.plain.key := same
      rw [if_pos same, if_pos plain, same]
      rfl
    · have plain : ¬key = var.plain.key := same
      rw [if_neg same, if_neg plain]
      rfl

theorem pathEntryVarSet_plain (store : Store Key Value Dispose) (entry : Ref) (key : Key) (value : Value)
    (dispose : Option Dispose) :
    (fun ref => ((pathEntryVarSet store entry key value dispose true).2.vars ref).map Var.plain) =
      Utils.pathEntryVarSet (fun ref => (store.vars ref).map Var.plain) entry key (some value) dispose.isSome := by
  unfold pathEntryVarSet Utils.pathEntryVarSet
  rw [searchVar_plain, replaceVar_plain]
  funext ref
  by_cases here : ref = entry
  · subst here
    cases searchVar (store.vars ref) key with
    | none => simp [Var.plain]
    | some var => simp
  · rw [Function.update_of_ne here]
    cases searchVar (store.vars entry) key with
    | none => simp [Function.update_of_ne here]
    | some var => simp [Function.update_of_ne here]

/-- The calls that are due for a variable that is no longer there. -/
def Store.released (store : Store Key Value Dispose) (entry : Ref) (key : Key) : List (Dispose × Value) :=
  ((searchVar (store.vars entry) key).map Var.calls).getD []

theorem mem_released (store : Store Key Value Dispose) (entry : Ref) (key : Key) (dispose : Dispose) (value : Value) :
    (dispose, value) ∈ store.released entry key ↔ store.held (entry, key) = some (value, some dispose) := by
  unfold Store.released Store.held
  cases searchVar (store.vars entry) key with
  | none => simp
  | some var =>
    obtain ⟨_, _, dispose'⟩ := var
    cases dispose' <;> simp [Var.calls, eq_comm, and_comm]

theorem released_nodup (store : Store Key Value Dispose) (entry : Ref) (key : Key) :
    (store.released entry key).Nodup := by
  unfold Store.released
  cases searchVar (store.vars entry) key with
  | none => exact List.nodup_nil
  | some var =>
    obtain ⟨_, _, dispose⟩ := var
    cases dispose <;> simp [Var.calls]

/-- A call that changes one variable of an entry, disposing of the value that it had. -/
structure Changes (store after : Store Key Value Dispose) (slot : Ref × Key)
    (content : Option (Value × Option Dispose)) : Prop where
  proper : after.Proper
  here : after.held slot = content
  others : ∀ other, other ≠ slot → after.held other = store.held other
  disposed : after.disposed = store.disposed ++ store.released slot.1 slot.2

theorem held_update_self (store : Store Key Value Dispose) (entry : Ref) (key : Key)
    (vars : List (Var Key Value Dispose)) (disposed : List (Dispose × Value)) :
    Store.held { store with vars := Function.update store.vars entry vars, disposed := disposed } (entry, key) =
      (searchVar vars key).map fun var => (var.value, var.dispose) := by
  simp only [Store.held, Function.update_self]

theorem held_update_others (store : Store Key Value Dispose) (entry : Ref) (key : Key)
    (vars : List (Var Key Value Dispose)) (disposed : List (Dispose × Value))
    (same : ∀ other, other ≠ key → searchVar vars other = searchVar (store.vars entry) other)
    (slot : Ref × Key) (other : slot ≠ (entry, key)) :
    Store.held { store with vars := Function.update store.vars entry vars, disposed := disposed } slot =
      store.held slot := by
  unfold Store.held
  by_cases here : slot.1 = entry
  · have apart : slot.2 ≠ key := fun equal => other (Prod.ext here equal)
    simp only [here, Function.update_self, same slot.2 apart]
  · simp only [Function.update_of_ne here]

theorem pathEntryVarSet_changes {store after : Store Key Value Dispose} (proper : store.Proper) {entry : Ref}
    (inside : store.Has entry) {key : Key} {value : Value} {dispose : Option Dispose} {memory : Bool}
    (done : pathEntryVarSet store entry key value dispose memory = (0, after)) :
    Changes store after (entry, key) (some (value, dispose)) := by
  unfold pathEntryVarSet at done
  cases found : searchVar (store.vars entry) key with
  | none =>
    rw [found] at done
    simp only at done
    split at done
    · cases done
      have fresh := searchVar_eq_none.mp found
      refine ⟨?_, ?_, ?_, ?_⟩
      · refine proper.update inside ?_ store.disposed
        exact List.nodup_cons.mpr ⟨fresh, proper.distinct entry⟩
      · rw [held_update_self, searchVar_cons, if_pos rfl]
        rfl
      · refine held_update_others store entry key _ _ fun other apart => ?_
        rw [searchVar_cons, if_neg apart]
      · rw [Store.released, found]
        exact (List.append_nil _).symm
    · cases done
  | some var =>
    rw [found] at done
    cases done
    have known : searchVar (store.vars entry) key ≠ none := by rw [found]; exact Option.some_ne_none var
    refine ⟨?_, ?_, ?_, ?_⟩
    · refine proper.update inside ?_ (store.disposed ++ var.calls)
      rw [keys_replaceVar]
      exact proper.distinct entry
    · rw [held_update_self, searchVar_replaceVar known, if_pos rfl]
      rfl
    · refine held_update_others store entry key _ _ fun other apart => ?_
      rw [searchVar_replaceVar known, if_neg apart]
    · rw [Store.released, found]
      rfl

theorem pathEntryVarSet_refused {store after : Store Key Value Dispose} {entry : Ref} {key : Key} {value : Value}
    {dispose : Option Dispose} {memory : Bool} {rc : Int} (refused : rc ≠ 0)
    (done : pathEntryVarSet store entry key value dispose memory = (rc, after)) : rc = -ENOMEM ∧ after = store := by
  unfold pathEntryVarSet at done
  split at done
  · split at done
    · cases done
      exact absurd rfl refused
    · cases done
      exact ⟨rfl, rfl⟩
  · cases done
    exact absurd rfl refused

theorem pathEntryVarDel_changes {store : Store Key Value Dispose} (proper : store.Proper) {entry : Ref}
    (inside : store.Has entry) (key : Key) : Changes store (pathEntryVarDel store entry key) (entry, key) none := by
  have deletes := searchVar_delVar (proper.distinct entry) key
  refine ⟨?_, ?_, ?_, ?_⟩
  · exact proper.update inside ((proper.distinct entry).sublist ((delVar_sublist key _).map Var.key)) _
  · rw [pathEntryVarDel, held_update_self, deletes, if_pos rfl]
    rfl
  · refine held_update_others store entry key _ _ fun other apart => ?_
    rw [deletes, if_neg apart]
  · exact congrArg (store.disposed ++ ·) (calls_delVar key (store.vars entry))

/-- No variable that would go with the entry has a function to dispose of its value. -/
def NothingToDispose (store : Store Key Value Dispose) (entry : Ref) : Prop :=
  ∀ other, entry <+: other → ∀ var ∈ store.vars other, var.dispose = none

/-- Calls on the entries of a tree that has no variables first, with what they give and clear.
A value is set along with the number of the call, which the code does not look at. An entry is
destroyed in some states only. -/
inductive Calls (may : Store Key (Value × Nat) Dispose → Ref → Prop) (tree : PathTree) :
    Store Key (Value × Nat) Dispose → List (Custody.Event (Ref × Key) Value Dispose) → Prop
  | start : Calls may tree ⟨some tree, fun _ => [], []⟩ []
  | add {store history} (path : Bytes) (length : Nat) {grown : PathTree} (held : store.tree = some grown) :
      Calls may tree store history →
      Calls may tree { store with tree := some (Utils.pathEntryAddLength grown path length).2 } history
  | set {store after history} (entry : Ref) (key : Key) (value : Value) (dispose : Option Dispose) (memory : Bool)
      (inside : store.Has entry)
      (done : pathEntryVarSet store entry key (value, history.length) dispose memory = (0, after)) :
      Calls may tree store history → Calls may tree after (history ++ [.give (entry, key) value dispose])
  | refuse {store after history} (entry : Ref) (key : Key) (value : Value) (dispose : Option Dispose) (memory : Bool)
      {rc : Int} (refused : rc ≠ 0)
      (done : pathEntryVarSet store entry key (value, history.length) dispose memory = (rc, after)) :
      Calls may tree store history → Calls may tree after history
  | del {store history} (entry : Ref) (key : Key) (inside : store.Has entry) : Calls may tree store history →
      Calls may tree (pathEntryVarDel store entry key) (history ++ [.clear (· = (entry, key))])
  | destroy {store history} (entry : Ref) (inside : store.Has entry) (allowed : may store entry) :
      Calls may tree store history →
      Calls may tree (pathEntryDestroy store entry) (history ++ [.clear fun slot => entry <+: slot.1])

/-- A call that changes one variable keeps the custody of the values. -/
theorem Changes.sound {store after : Store Key (Value × Nat) Dispose}
    {history : List (Custody.Event (Ref × Key) Value Dispose)} {event : Custody.Event (Ref × Key) Value Dispose}
    {slot : Ref × Key} (changes : Changes store after slot (event.content history.length))
    (one : ∀ other, event.Empties other ↔ other = slot) (sound : Sound history store.held store.disposed) :
    Sound (history ++ [event]) after.held after.disposed := by
  rw [changes.disposed]
  refine sound.snoc (fun other kept => changes.others other fun same => kept ((one other).mpr same))
    (fun other empties => (one other).mp empties ▸ changes.here) (released_nodup store _ _) fun dispose value => ?_
  rw [mem_released]
  constructor
  · exact fun held => ⟨slot, (one slot).mpr rfl, held⟩
  · rintro ⟨other, empties, held⟩
    exact (one other).mp empties ▸ held

theorem Store.held_mem {store : Store Key Value Dispose} {slot : Ref × Key} {value : Value} {dispose : Option Dispose}
    (held : store.held slot = some (value, dispose)) :
    ∃ var ∈ store.vars slot.1, var.value = value ∧ var.dispose = dispose := by
  obtain ⟨var, found, same⟩ := Option.map_eq_some_iff.mp held
  cases same
  exact ⟨var, List.mem_of_find?_eq_some found, rfl, rfl⟩

theorem pathEntryDestroy_sound {store : Store Key (Value × Nat) Dispose}
    {history : List (Custody.Event (Ref × Key) Value Dispose)} (proper : store.Proper) {entry : Ref}
    (inside : store.Has entry) (nothing : NothingToDispose store entry)
    (sound : Sound history store.held store.disposed) :
    (pathEntryDestroy store entry).Proper ∧ Sound (history ++ [.clear fun slot => entry <+: slot.1])
      (pathEntryDestroy store entry).held (pathEntryDestroy store entry).disposed := by
  obtain ⟨tree, held, known⟩ := inside
  obtain ⟨left, same, vars⟩ := pathEntryDestroy_spec proper held known
  constructor
  · refine ⟨fun other => ?_, fun other some => ?_⟩
    · rw [vars]
      split
      · exact List.nodup_nil
      · exact proper.distinct other
    · rw [vars] at some
      split at some
      · exact absurd rfl some
      · next aside =>
        obtain ⟨tree', held', known'⟩ := proper.inside other some
        rw [held, Option.some.injEq] at held'
        subst held'
        cases rest : Utils.pathEntryDestroy tree entry with
        | none =>
          have top : entry = [] := by
            by_contra inner
            simp [Utils.pathEntryDestroy, inner] at rest
          exact absurd (top ▸ List.nil_prefix) aside
        | some rest' =>
          refine ⟨rest', left.trans rest, ?_⟩
          rw [mem_refs_marks, marks_pathEntryDestroy tree rest' entry rest]
          obtain ⟨mark, member, here⟩ := (mem_refs_marks tree other).mp known'
          exact ⟨mark, List.mem_filter.mpr ⟨member, decide_eq_true (here ▸ aside)⟩, here⟩
  · rw [same, ← List.append_nil store.disposed]
    refine sound.snoc (fun slot kept => ?_) (fun slot empties => ?_) List.nodup_nil fun dispose value => ?_
    · have aside : ¬entry <+: slot.1 := kept
      simp only [Store.held, vars, if_neg aside]
    · have below : entry <+: slot.1 := empties
      simp only [Store.held, vars, if_pos below]
      rfl
    · refine iff_of_false List.not_mem_nil ?_
      rintro ⟨slot, below, found⟩
      obtain ⟨var, member, -, disposes⟩ := Store.held_mem found
      rw [nothing slot.1 below var member] at disposes
      cases disposes

/-- In every state that is reached, when no entry was destroyed with a value to dispose of, the
variables of an entry are what was set last and neither deleted nor destroyed since, and a value
that was set with a function is disposed of once, when it can no longer be read. -/
theorem calls_sound {tree : PathTree} {store : Store Key (Value × Nat) Dispose}
    {history : List (Custody.Event (Ref × Key) Value Dispose)} (calls : Calls NothingToDispose tree store history) :
    store.Proper ∧ Sound history store.held store.disposed := by
  induction calls with
  | start => exact ⟨⟨fun _ => List.nodup_nil, fun _ some => absurd rfl some⟩, sound_nil⟩
  | add path length held _ ih =>
    obtain ⟨proper, sound⟩ := ih
    refine ⟨⟨proper.distinct, fun entry some => ?_⟩, sound⟩
    obtain ⟨grown', held', known⟩ := proper.inside entry some
    rw [held, Option.some.injEq] at held'
    exact ⟨_, rfl, (refs_addLength _ path length entry).mpr (Or.inr (held' ▸ known))⟩
  | set entry key value dispose memory inside done _ ih =>
    have changes := pathEntryVarSet_changes ih.1 inside done
    exact ⟨changes.proper, Changes.sound changes (fun _ => Iff.rfl) ih.2⟩
  | refuse entry key value dispose memory refused done _ ih =>
    rw [(pathEntryVarSet_refused refused done).2]
    exact ih
  | del entry key inside _ ih =>
    have changes := pathEntryVarDel_changes ih.1 inside key
    exact ⟨changes.proper, Changes.sound changes (fun _ => Iff.rfl) ih.2⟩
  | destroy entry inside allowed _ ih => exact pathEntryDestroy_sound ih.1 inside allowed ih.2

end

/-- A value that is set again, then a variable that is deleted before its entry is destroyed. -/
theorem calls_sound_deleted :
    ∃ (store : Store Nat (Nat × Nat) Unit) (history : List (Custody.Event (Ref × Nat) Nat Unit)),
      Calls NothingToDispose pathEntryCreateRoot store history ∧ store.tree = none ∧
      store.disposed = [((), 5, 0), ((), 5, 1)] ∧ store.Proper ∧ Sound history store.held store.disposed := by
  have bare : Calls NothingToDispose pathEntryCreateRoot
    (⟨some pathEntryCreateRoot, fun _ => [], []⟩ : Store Nat (Nat × Nat) Unit) [] := .start
  have first := bare.set [] 7 5 (some ()) true ⟨pathEntryCreateRoot, rfl, by decide⟩ rfl
  have second := first.set [] 7 5 (some ()) false ⟨pathEntryCreateRoot, rfl, by decide⟩ rfl
  have third := second.del [] 7 ⟨pathEntryCreateRoot, rfl, by decide⟩
  have last := third.destroy [] ⟨pathEntryCreateRoot, rfl, by decide⟩ fun other _ var member => by
    by_cases top : other = []
    · exact absurd (top ▸ member) List.not_mem_nil
    · simp [pathEntryVarDel, Function.update_of_ne top] at member
  exact ⟨_, _, last, rfl, rfl, calls_sound last⟩

/-- Destroying an entry does not dispose of the value of its variable. -/
theorem destroy_leaks : ¬∀ (tree : PathTree) (store : Store Nat (Nat × Nat) Unit)
    (history : List (Custody.Event (Ref × Nat) Nat Unit)), Calls (fun _ _ => True) tree store history →
      Sound history store.held store.disposed := by
  intro sound
  have bare : Calls (fun _ _ => True) pathEntryCreateRoot
    (⟨some pathEntryCreateRoot, fun _ => [], []⟩ : Store Nat (Nat × Nat) Unit) [] := .start
  have first := bare.set [] 7 5 (some ()) true ⟨pathEntryCreateRoot, rfl, by decide⟩ rfl
  have last := first.destroy [] ⟨pathEntryCreateRoot, rfl, by decide⟩ trivial
  have gone : ((), 5, 0) ∈ (∅ : List (Unit × Nat × Nat)) := by
    refine ((sound _ _ _ last).released () 5 0).mpr ⟨([], 7), rfl, fun kept => ?_⟩
    exact kept 1 _ Nat.one_pos rfl List.nil_prefix
  cases gone

end AppManager.Utils.PathVars
