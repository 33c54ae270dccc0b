import AppManager.Lib.Bytes

/-! Sets of permissions, each granted or not and requested or not, and the walk over
the ones that a selector picks. -/

namespace AppManager.Utils
open AppManager.Lib

structure Permission where
  name : Bytes
  granted : Bool
  requested : Bool
  deriving DecidableEq, Repr

structure Permset where
  permissions : List Permission
  index : Nat
  deriving DecidableEq, Repr

inductive PermsetSelect where
  | Any
  | Requested
  | Granted
  | Requested_And_Granted
  deriving DecidableEq, Repr

namespace Permset

def create : Permset := ⟨[], 0⟩

def mark (grant request : Bool) (permission : Permission) : Permission :=
  { permission with granted := permission.granted || grant, requested := permission.requested || request }

def addTo (name : Bytes) (grant request : Bool) : List Permission → List Permission
  | [] => [mark grant request ⟨name, false, false⟩]
  | permission :: rest =>
    if permission.name = name then mark grant request permission :: rest
    else permission :: addTo name grant request rest

/-- `add` with memory at hand: the permission is found or made, then marked. -/
def add (permset : Permset) (name : Bytes) (grant request : Bool) : Permset :=
  { permset with permissions := addTo name grant request permset.permissions }

def grant (permset : Permset) (name : Bytes) : Permset := permset.add name true false

def request (permset : Permset) (name : Bytes) : Permset := permset.add name false true

def selects (permission : Permission) : PermsetSelect → Bool
  | .Any => true
  | .Requested => permission.requested
  | .Granted => permission.granted
  | .Requested_And_Granted => permission.granted && permission.requested

def advance (permset : Permset) (it : PermsetSelect) : Permset :=
  { permset with index :=
      permset.index + (permset.permissions.drop permset.index).findIdx (fun item => selects item it) }

def selectFirst (permset : Permset) (it : PermsetSelect) : Permset :=
  { permset with index := 0 }.advance it

def selectNext (permset : Permset) (it : PermsetSelect) : Permset :=
  { permset with index := permset.index + 1 }.advance it

def current (permset : Permset) : Option Bytes := permset.permissions[permset.index]?.map Permission.name

theorem lt_index_selectNext (permset : Permset) (it : PermsetSelect) :
    permset.index < (permset.selectNext it).index := by
  simp only [selectNext, advance]
  omega

theorem permissions_selectNext (permset : Permset) (it : PermsetSelect) :
    (permset.selectNext it).permissions = permset.permissions := rfl

/-- Calls the callback on the current permission and on the next selected ones, until
an answer is negative. -/
def forSelected {State : Type} (callback : State → Bytes → Int × State) (it : PermsetSelect)
    (permset : Permset) (state : State) : Int × State :=
  match _found : permset.current with
  | none => (0, state)
  | some name =>
    if (callback state name).1 < 0 then callback state name
    else forSelected callback it (permset.selectNext it) (callback state name).2
termination_by permset.permissions.length - permset.index
decreasing_by
  have inside : permset.index < permset.permissions.length := by
    unfold current at _found
    by_contra outside
    rw [List.getElem?_eq_none (by omega)] at _found
    cases _found
  have further := permset.lt_index_selectNext it
  rw [permissions_selectNext]
  omega

def selected (permset : Permset) (it : PermsetSelect) : List Bytes :=
  ((permset.permissions.drop permset.index).filter (fun item => selects item it)).map Permission.name

/-- Calls the callback on names in order, until an answer is negative. -/
def untilNegative {State : Type} (callback : State → Bytes → Int × State) :
    List Bytes → State → Int × State
  | [], state => (0, state)
  | name :: rest, state =>
    if (callback state name).1 < 0 then callback state name
    else untilNegative callback rest (callback state name).2

theorem drop_advance (items : List Permission) (it : PermsetSelect) :
    items.filter (fun item => selects item it) =
      (items.drop (items.findIdx fun item => selects item it)).filter (fun item => selects item it) ∧
    ∀ item, (items.drop (items.findIdx fun item => selects item it)).head? = some item →
      selects item it = true := by
  induction items with
  | nil => simp
  | cons item rest ih =>
    by_cases picked : selects item it = true
    · simp [List.findIdx_cons, picked]
    · simp only [List.findIdx_cons, picked, cond_false, List.drop_succ_cons, List.filter_cons,
        Bool.false_eq_true, ↓reduceIte]
      exact ih

theorem selected_advance (permset : Permset) (it : PermsetSelect) :
    (permset.advance it).selected it = permset.selected it := by
  unfold selected advance
  rw [(drop_advance (permset.permissions.drop permset.index) it).1, List.drop_drop]

theorem current_advance (permset : Permset) (it : PermsetSelect) :
    (permset.advance it).current = none ∧ (permset.advance it).selected it = [] ∨
    ∃ name, (permset.advance it).current = some name ∧
      (permset.advance it).selected it = name :: ((permset.advance it).selectNext it).selected it := by
  have heads := (drop_advance (permset.permissions.drop permset.index) it).2
  rw [List.drop_drop] at heads
  have index : (permset.advance it).index = permset.index +
      (permset.permissions.drop permset.index).findIdx (fun item => selects item it) := rfl
  rw [← index] at heads
  have items : (permset.advance it).permissions = permset.permissions := rfl
  unfold current
  rw [items]
  cases found : permset.permissions[(permset.advance it).index]? with
  | none =>
    have outside := List.getElem?_eq_none_iff.mp found
    refine Or.inl ⟨rfl, ?_⟩
    rw [selected, items, List.drop_eq_nil_of_le outside]
    rfl
  | some item =>
    obtain ⟨inside, same⟩ := List.getElem?_eq_some_iff.mp found
    have cell := List.drop_eq_getElem_cons inside
    rw [same] at cell
    refine Or.inr ⟨item.name, rfl, ?_⟩
    have picked := heads item (by rw [cell]; rfl)
    have next : ((permset.advance it).selectNext it).selected it =
        ((permset.permissions.drop ((permset.advance it).index + 1)).filter
          (fun item => selects item it)).map Permission.name := by
      rw [selectNext, selected_advance]
      rfl
    rw [next, selected, items, cell, List.filter_cons, if_pos picked, List.map_cons]

theorem forSelected_eq {State : Type} (callback : State → Bytes → Int × State) (it : PermsetSelect)
    (permset : Permset) (state : State) :
    forSelected callback it (permset.advance it) state =
      untilNegative callback (permset.selected it) state := by
  rw [← selected_advance]
  generalize length : (permset.advance it).selected it = names
  induction names generalizing permset state with
  | nil =>
    rcases current_advance permset it with ⟨ends, -⟩ | ⟨name, -, more⟩
    · rw [forSelected]
      split
      · rfl
      · next name found => rw [ends] at found; cases found
    · rw [length] at more
      cases more
  | cons name rest ih =>
    rcases current_advance permset it with ⟨-, none⟩ | ⟨name', found, more⟩
    · rw [length] at none
      cases none
    · rw [length, List.cons.injEq] at more
      obtain ⟨same, tail⟩ := more
      subst same
      rw [forSelected, untilNegative]
      split
      · next ends => rw [found] at ends; cases ends
      · next name' found' =>
        rw [found, Option.some.injEq] at found'
        subst found'
        split
        · rfl
        · exact ih { permset.advance it with index := (permset.advance it).index + 1 } _ tail.symm

/-- The walk goes over the selected names in the order of the set. -/
theorem forSelected_first {State : Type} (callback : State → Bytes → Int × State) (it : PermsetSelect)
    (permset : Permset) (state : State) :
    forSelected callback it (permset.selectFirst it) state = untilNegative callback
      ((permset.permissions.filter (fun item => selects item it)).map Permission.name) state := by
  rw [selectFirst, forSelected_eq]
  rfl

end Permset
end AppManager.Utils
