import AppManager.Lib.Bisect
import AppManager.Lib.Bytes
import Mathlib.Data.List.Perm.Basic

/-! The files of a widget as they are recorded: descriptors in the order of their names,
where a name is searched by bisection and is not declared twice. -/

namespace AppManager.Wgtpkg
open AppManager.Lib

inductive EntryType where
  | unset
  | file
  | directory
  deriving DecidableEq, Repr

structure FileDesc where
  name : Bytes
  type : EntryType
  zindex : Nat
  deriving DecidableEq, Repr

/-- The array `allfiles`. -/
abbrev Fdb := List FileDesc

namespace Fdb

/-- A descriptor is given by its place in the array. -/
def getFiledesc (files : Fdb) (name : Bytes) (create : Bool) : Option (Fdb × Nat) :=
  match bisect FileDesc.name files name 0 files.length le_rfl with
  | .inl place => some (files, place)
  | .inr low => if create then some (files.take low ++ ⟨name, .unset, 0⟩ :: files.drop low, low) else none

def fileAdd (files : Fdb) (name : Bytes) (type : EntryType) : Option (Fdb × Nat) :=
  (files.getFiledesc name true).bind fun (files, place) =>
    files[place]?.bind fun desc =>
      if desc.type = .unset then some (files.modify place fun desc => { desc with type }, place) else none

def fileAddDirectory (files : Fdb) (name : Bytes) : Option (Fdb × Nat) := files.fileAdd name .directory
def fileAddFile (files : Fdb) (name : Bytes) : Option (Fdb × Nat) := files.fileAdd name .file

/-- What `zread` does to the descriptor that it gets. -/
def setZindex (files : Fdb) (place zindex : Nat) : Fdb := files.modify place fun desc => { desc with zindex }

/-- What the array is between two calls: its names ascend, and each of them was declared. -/
structure Tidy (files : Fdb) : Prop where
  ascending : Ascending FileDesc.name files
  declared : ∀ desc ∈ files, desc.type ≠ .unset

theorem Tidy.empty : Tidy [] := ⟨List.Pairwise.nil, fun _ => nofun⟩

theorem modify_middle (front back : Fdb) (desc : FileDesc) (place : Nat) (here : front.length = place)
    (change : FileDesc → FileDesc) : (front ++ desc :: back).modify place change = front ++ change desc :: back := by
  subst here
  induction front with
  | nil => rfl
  | cons first rest ih => rw [List.cons_append, List.length_cons, List.modify_succ_cons, ih, List.cons_append]

/-- A name is refused where it is declared already; else its descriptor is added and the array stays tidy. -/
theorem fileAdd_tidy {files : Fdb} (tidy : Tidy files) (name : Bytes) (type : EntryType) (given : type ≠ .unset)
    (zindex : Nat) :
    (name ∈ files.map FileDesc.name ∧ files.fileAdd name type = none) ∨
      ∃ files' place, files.fileAdd name type = some (files', place) ∧
        (files'.setZindex place zindex).Perm (⟨name, type, zindex⟩ :: files) ∧
        Tidy (files'.setZindex place zindex) := by
  unfold fileAdd getFiledesc
  cases searched : bisect FileDesc.name files name 0 files.length le_rfl with
  | inl place =>
    obtain ⟨desc, found, same⟩ := bisect_found FileDesc.name searched
    have member := List.mem_of_getElem? found
    refine Or.inl ⟨List.mem_map.mpr ⟨desc, member, same⟩, ?_⟩
    simp only [Option.bind_some]
    rw [found, Option.bind_some, if_neg (tidy.declared desc member)]
  | inr low =>
    obtain ⟨inside, before, after⟩ := bisect_absent FileDesc.name List.lt_trans lt_of_not_lt tidy.ascending
      (Nat.zero_le _) (by simp) (by simp) searched
    have front : (files.take low).length = low := List.length_take_of_le inside
    have written : setZindex (files.take low ++ ⟨name, type, 0⟩ :: files.drop low) low zindex =
        files.take low ++ ⟨name, type, zindex⟩ :: files.drop low := modify_middle _ _ _ _ front _
    have here : (files.take low ++ (⟨name, .unset, 0⟩ : FileDesc) :: files.drop low)[low]? =
        some ⟨name, .unset, 0⟩ := by
      rw [List.getElem?_append_right (le_of_eq front), front, Nat.sub_self]
      rfl
    refine Or.inr ⟨files.take low ++ ⟨name, type, 0⟩ :: files.drop low, low, ?_, ?_, ?_, ?_⟩
    · simp only [if_true, Option.bind_some]
      rw [here, Option.bind_some, if_pos rfl, modify_middle _ _ _ _ front]
    · rw [written]
      apply List.perm_middle.trans
      rw [List.take_append_drop]
    · rw [written]
      exact tidy.ascending.insert FileDesc.name ⟨name, type, zindex⟩ low before after
    · rw [written]
      intro desc member
      rcases List.mem_append.mp member with earlier | later
      · exact tidy.declared desc (List.mem_of_mem_take earlier)
      · rcases List.mem_cons.mp later with rfl | later
        · exact given
        · exact tidy.declared desc (List.mem_of_mem_drop later)

end Fdb
end AppManager.Wgtpkg
