import AppManager.Lib.Outcome
import AppManager.Utils.PermsetMap

/-! The array of a set of permissions, which grows by blocks of eight. It keeps the
meaning of the set, and no cell is written out of it. -/

namespace AppManager.Utils
open AppManager.Lib

/-- `struct permset_s`. What stands after the counted permissions is not read. -/
structure PermsetArray where
  count : Nat
  index : Nat
  permissions : List Permission

inductive PermsetFault where
  | nomem
  | overflow
  deriving DecidableEq, Repr

namespace PermsetArray
variable (junk : Permission)

def create : PermsetArray := ⟨0, 0, []⟩

def get (array : PermsetArray) (name : Bytes) : Option Nat :=
  (array.permissions.take array.count).findIdx? fun permission => permission.name = name

/-- The cells for eight more permissions, when all are used. Their number is an
`unsigned`, and no memory is given for a size of zero. -/
def grow (array : PermsetArray) : Except PermsetFault PermsetArray :=
  if array.count % 8 ≠ 0 then .ok array
  else
    let cells := (array.count + 8) % 2 ^ 32
    if cells = 0 then .error .nomem
    else .ok { array with permissions :=
      array.permissions.take cells ++ List.replicate (cells - array.permissions.length) junk }

/-- The answer tells that the permission is requested and granted. -/
def markCell (grant request : Bool) (array : PermsetArray) (position : Nat) : Bool × PermsetArray :=
  let permission := Permset.mark grant request (array.permissions.getD position junk)
  (permission.requested && permission.granted,
    { array with permissions := array.permissions.set position permission })

/-- `add`, with memory for the name. -/
def addName (grant request : Bool) (array : PermsetArray) (name : Bytes) :
    Except PermsetFault (Bool × PermsetArray) :=
  match array.get name with
  | some position => .ok (array.markCell junk grant request position)
  | none => do
    let grown ← array.grow junk
    if grown.count < grown.permissions.length then
      let made := { grown with
        permissions := grown.permissions.set grown.count ⟨name, false, false⟩
        count := (grown.count + 1) % 2 ^ 32 }
      return made.markCell junk grant request grown.count
    else throw .overflow

/-- `add_list`: the answer tells that all the permissions are requested and granted. -/
def addWords (grant request : Bool) (array : PermsetArray) (list : Bytes) :
    Except PermsetFault (Bool × PermsetArray) :=
  (words list).foldlM (fun done name => do
    let added ← done.2.addName junk grant request name
    return (done.1 && added.1, added.2)) (true, array)

def grant : PermsetArray → Bytes → Except PermsetFault (Bool × PermsetArray) := addName junk true false
def grantList : PermsetArray → Bytes → Except PermsetFault (Bool × PermsetArray) := addWords junk true false
def add : PermsetArray → Bytes → Except PermsetFault (Bool × PermsetArray) := addName junk false false
def addList : PermsetArray → Bytes → Except PermsetFault (Bool × PermsetArray) := addWords junk false false
def request : PermsetArray → Bytes → Except PermsetFault (Bool × PermsetArray) := addName junk false true
def requestList : PermsetArray → Bytes → Except PermsetFault (Bool × PermsetArray) := addWords junk false true

def reset (array : PermsetArray) (it : PermsetReset) : PermsetArray :=
  { array with permissions :=
      (array.permissions.take array.count).map (Permset.clear it) ++ array.permissions.drop array.count }

def perform (array : PermsetArray) : PermsetOperation → Except PermsetFault PermsetArray
  | .grant name => (array.grant junk name).map Prod.snd
  | .request name => (array.request junk name).map Prod.snd
  | .add name => (array.add junk name).map Prod.snd
  | .grantList list => (array.grantList junk list).map Prod.snd
  | .requestList list => (array.requestList junk list).map Prod.snd
  | .addList list => (array.addList junk list).map Prod.snd
  | .reset it => .ok (array.reset it)

def view (array : PermsetArray) : Permset := ⟨array.permissions.take array.count, array.index⟩

/-- The cells are those of the blocks that were needed, and no name is there twice. -/
structure Sound (array : PermsetArray) : Prop where
  blocks : 8 ∣ array.permissions.length
  fits : array.count ≤ array.permissions.length
  tight : array.permissions.length < array.count + 8
  small : array.permissions.length < 2 ^ 32
  unique : array.view.names.Nodup

theorem sound_create : Sound create := ⟨⟨0, rfl⟩, le_rfl, by decide, by decide, List.nodup_nil⟩

theorem addTo_found {items : List Permission} {name : Bytes} {position : Nat}
    (found : items.findIdx? (fun permission => permission.name = name) = some position) (grant request : Bool) :
    ∃ permission, items[position]? = some permission ∧ Permset.flagsIn items name = some (Permset.flags permission) ∧
      Permset.addTo name grant request items = items.set position (Permset.mark grant request permission) := by
  induction items generalizing position with
  | nil => cases found
  | cons item rest ih =>
    rw [List.findIdx?_cons] at found
    rw [Permset.flagsIn_cons, Permset.addTo]
    by_cases here : item.name = name
    · rw [if_pos (decide_eq_true here), Option.some.injEq] at found
      subst found
      rw [if_pos here, if_pos here]
      exact ⟨item, rfl, rfl, rfl⟩
    · rw [if_neg (by simpa using here), Option.map_eq_some_iff] at found
      obtain ⟨index, later, rfl⟩ := found
      obtain ⟨permission, cell, flags, added⟩ := ih later
      rw [if_neg here, if_neg here]
      exact ⟨permission, cell, flags, congrArg (item :: ·) added⟩

theorem addTo_fresh {items : List Permission} {name : Bytes}
    (fresh : items.findIdx? (fun permission => permission.name = name) = none) (grant request : Bool) :
    Permset.flagsIn items name = none ∧
      Permset.addTo name grant request items = items ++ [Permset.mark grant request ⟨name, false, false⟩] := by
  induction items with
  | nil => exact ⟨rfl, rfl⟩
  | cons item rest ih =>
    rw [List.findIdx?_cons] at fresh
    rw [Permset.flagsIn_cons, Permset.addTo]
    by_cases here : item.name = name
    · rw [if_pos (decide_eq_true here)] at fresh
      cases fresh
    · rw [if_neg (by simpa using here), Option.map_eq_none_iff] at fresh
      obtain ⟨flags, added⟩ := ih fresh
      rw [if_neg here, if_neg here]
      exact ⟨flags, congrArg (item :: ·) added⟩

theorem grow_spec {array : PermsetArray} (sound : array.Sound) :
    Lib.Meets (fun grown : PermsetArray => grown.count = array.count ∧ grown.index = array.index ∧
        grown.permissions.take array.count = array.permissions.take array.count ∧ 8 ∣ grown.permissions.length ∧
        array.count < grown.permissions.length ∧ grown.permissions.length ≤ array.count + 8 ∧
        grown.permissions.length < 2 ^ 32)
      (· = .nomem) (array.grow junk) := by
  obtain ⟨blocks, fits, tight, small, -⟩ := sound
  unfold grow
  split
  · exact ⟨rfl, rfl, rfl, blocks, by omega, tight.le, small⟩
  · next full =>
    simp only
    split
    · rfl
    · next room =>
      have cells : (array.count + 8) % 2 ^ 32 = array.count + 8 := by omega
      have length : array.permissions.length = array.count := by omega
      have size : (array.permissions.take (array.count + 8) ++
          List.replicate (array.count + 8 - array.permissions.length) junk).length = array.count + 8 := by
        rw [List.length_append, List.length_take, List.length_replicate]
        omega
      rw [cells]
      refine ⟨rfl, rfl, ?_, ?_, ?_, ?_, ?_⟩
      · simp only
        rw [List.take_of_length_le (by omega : array.permissions.length ≤ array.count + 8),
          List.take_append_of_le_length fits]
      · simp only [size]
        omega
      · simp only [size]
        omega
      · simp only [size]
        exact le_rfl
      · simp only [size]
        omega

/-- What the addition of a name gives: the set with the name in it, and both flags of it. -/
structure Added (grant request : Bool) (array : PermsetArray) (name : Bytes) (result : Bool × PermsetArray) :
    Prop where
  sound : result.2.Sound
  view : result.2.view = array.view.add name grant request
  answer : ∃ granted requested, result.2.view.map name = some (granted, requested) ∧
    result.1 = (requested && granted)

theorem markCell_added {array : PermsetArray} (sound : array.Sound) (grant request : Bool) {name : Bytes}
    {position : Nat} (found : array.get name = some position) :
    Added grant request array name (array.markCell junk grant request position) := by
  obtain ⟨permission, cell, flags, added⟩ := addTo_found found grant request
  obtain ⟨inside, -⟩ := List.getElem?_eq_some_iff.mp cell
  rw [List.length_take] at inside
  rw [List.getElem?_take_of_lt (by omega)] at cell
  have read : array.permissions.getD position junk = permission := by
    rw [List.getD_eq_getElem?_getD, cell, Option.getD_some]
  have view : (array.markCell junk grant request position).2.view = array.view.add name grant request := by
    simp only [view, markCell, read, Permset.add, added, List.take_set]
  refine ⟨⟨?_, ?_, ?_, ?_, ?_⟩, view, ?_⟩
  · simpa [markCell] using sound.blocks
  · simpa [markCell] using sound.fits
  · simpa [markCell] using sound.tight
  · simpa [markCell] using sound.small
  · rw [view]
    exact Permset.nodup_add sound.unique name grant request
  · rw [view, Permset.map_add, PermissionMap.mark, Function.update_self]
    have known : array.view.map name = some (Permset.flags permission) := flags
    rw [known]
    refine ⟨_, _, rfl, ?_⟩
    simp only [markCell, read]
    rfl

theorem addName_fresh {array : PermsetArray} (sound : array.Sound) (grant request : Bool) {name : Bytes}
    (fresh : array.get name = none) :
    Lib.Meets (Added grant request array name) (· = .nomem) (array.addName junk grant request name) := by
  obtain ⟨unknown, added⟩ := addTo_fresh fresh grant request
  unfold addName
  simp only [fresh]
  refine (grow_spec junk sound).bind fun grown => ?_
  rintro ⟨count, index, kept, blocks, room, tight, small⟩
  rw [count, if_pos room]
  have wraps : (array.count + 1) % 2 ^ 32 = array.count + 1 := by omega
  have read : (grown.permissions.set array.count ⟨name, false, false⟩).getD array.count junk =
      ⟨name, false, false⟩ := by
    rw [List.getD_eq_getElem?_getD, List.getElem?_set_self room, Option.getD_some]
  simp only [markCell, wraps, read, List.set_set]
  have view : (⟨array.count + 1, grown.index, grown.permissions.set array.count
      (Permset.mark grant request ⟨name, false, false⟩)⟩ : PermsetArray).view = array.view.add name grant request := by
    simp only [view, Permset.add, added, index]
    rw [List.take_add_one, List.take_set_of_le le_rfl, List.getElem?_set_self room, Option.toList_some, kept]
  refine ⟨⟨?_, ?_, ?_, ?_, ?_⟩, view, ?_⟩
  · simpa using blocks
  · simp only [List.length_set]
    exact room
  · simp only [List.length_set]
    omega
  · simpa using small
  · rw [view]
    exact Permset.nodup_add sound.unique name grant request
  · have none : array.view.map name = none := unknown
    rw [view, Permset.map_add, PermissionMap.mark, Function.update_self, none]
    exact ⟨_, _, rfl, rfl⟩

theorem addName_spec {array : PermsetArray} (sound : array.Sound) (grant request : Bool) (name : Bytes) :
    Lib.Meets (Added grant request array name) (· = .nomem) (array.addName junk grant request name) := by
  cases found : array.get name with
  | none => exact addName_fresh junk sound grant request found
  | some position =>
    unfold addName
    rw [found]
    exact markCell_added junk sound grant request found

theorem addWords_spec {array : PermsetArray} (sound : array.Sound) (grant request : Bool) (list : Bytes) :
    Lib.Meets (fun result : Bool × PermsetArray => result.2.Sound ∧
        result.2.view.map = (listNames list).foldl (PermissionMap.mark grant request) array.view.map)
      (· = .nomem) (array.addWords junk grant request list) := by
  unfold addWords
  rw [words_eq]
  generalize listNames list = names
  suffices each : ∀ done : Bool × PermsetArray, done.2.Sound →
      Lib.Meets (fun result : Bool × PermsetArray => result.2.Sound ∧
          result.2.view.map = names.foldl (PermissionMap.mark grant request) done.2.view.map)
        (· = .nomem) (names.foldlM (fun done name => do
          let added ← done.2.addName junk grant request name
          return (done.1 && added.1, added.2)) done) from each (true, array) sound
  induction names with
  | nil => exact fun done sound => ⟨sound, rfl⟩
  | cons name rest ih =>
    intro done sound
    rw [List.foldlM_cons, List.foldl_cons, bind_assoc]
    refine (addName_spec junk sound grant request name).bind fun added first => ?_
    rw [← Permset.map_add, ← first.view]
    exact ih (done.1 && added.1, added.2) first.sound

theorem view_reset (array : PermsetArray) (fits : array.count ≤ array.permissions.length) (it : PermsetReset) :
    (array.reset it).view = array.view.reset it := by
  have size : ((array.permissions.take array.count).map (Permset.clear it)).length = array.count := by
    rw [List.length_map, List.length_take]
    omega
  simp only [view, reset, Permset.reset, Permset.mk.injEq, and_true]
  rw [List.take_append_of_le_length size.ge, List.take_of_length_le size.le]

theorem sound_reset {array : PermsetArray} (sound : array.Sound) (it : PermsetReset) : (array.reset it).Sound := by
  have view := view_reset array sound.fits it
  have size : (array.reset it).permissions.length = array.permissions.length := by
    have fits := sound.fits
    simp only [reset, List.length_append, List.length_map, List.length_take, List.length_drop]
    omega
  refine ⟨?_, ?_, ?_, ?_, ?_⟩
  · exact size ▸ sound.blocks
  · exact size.symm ▸ sound.fits
  · exact size.symm ▸ sound.tight
  · exact size.symm ▸ sound.small
  · rw [view, Permset.names_reset]
    exact sound.unique

theorem perform_spec {array : PermsetArray} (sound : array.Sound) (operation : PermsetOperation) :
    Lib.Meets (fun array' : PermsetArray => array'.Sound ∧ array'.view.map = operation.update array.view.map)
      (· = .nomem) (array.perform junk operation) := by
  have named : ∀ grant request name, Lib.Meets (fun array' : PermsetArray => array'.Sound ∧
      array'.view.map = array.view.map.mark grant request name) (· = .nomem)
      ((array.addName junk grant request name).map Prod.snd) := by
    intro grant request name
    have added := addName_spec junk sound grant request name
    cases result : array.addName junk grant request name with
    | error fault =>
      rw [result] at added
      exact added
    | ok result' =>
      rw [result] at added
      exact ⟨added.sound, by rw [← Permset.map_add, ← added.view]⟩
  have listed : ∀ grant request list, Lib.Meets (fun array' : PermsetArray => array'.Sound ∧
      array'.view.map = (listNames list).foldl (PermissionMap.mark grant request) array.view.map) (· = .nomem)
      ((array.addWords junk grant request list).map Prod.snd) := by
    intro grant request list
    have added := addWords_spec junk sound grant request list
    cases result : array.addWords junk grant request list with
    | error fault =>
      rw [result] at added
      exact added
    | ok result' =>
      rw [result] at added
      exact added
  cases operation with
  | grant name => exact named true false name
  | request name => exact named false true name
  | add name => exact named false false name
  | grantList list => exact listed true false list
  | requestList list => exact listed false true list
  | addList list => exact listed false false list
  | reset it =>
    refine ⟨sound_reset sound it, ?_⟩
    rw [view_reset array sound.fits it, Permset.map_reset]
    rfl

def run (operations : List PermsetOperation) : Except PermsetFault PermsetArray :=
  operations.foldlM (perform junk) create

theorem run_spec (operations : List PermsetOperation) :
    Lib.Meets (fun array : PermsetArray => array.Sound ∧
        array.view.map = operations.foldl PermsetOperation.update fun _ => none)
      (· = .nomem) (run junk operations) := by
  suffices each : ∀ array : PermsetArray, array.Sound → Lib.Meets (fun array' : PermsetArray => array'.Sound ∧
      array'.view.map = operations.foldl PermsetOperation.update array.view.map) (· = .nomem)
      (operations.foldlM (perform junk) array) from each create sound_create
  induction operations with
  | nil => exact fun array sound => ⟨sound, rfl⟩
  | cons operation rest ih =>
    intro array sound
    rw [List.foldlM_cons, List.foldl_cons]
    refine (perform_spec junk sound operation).bind fun array' first => ?_
    rw [← first.2]
    exact ih array' first.1

end PermsetArray
end AppManager.Utils
