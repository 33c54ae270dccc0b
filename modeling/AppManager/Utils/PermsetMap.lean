import AppManager.Utils.Permset
import Mathlib.Logic.Function.Basic

/-! What a set of permissions means: a finite map from the names to their two flags,
updated by each operation, whose entries the walks of the set enumerate. -/

namespace AppManager.Utils
open AppManager.Lib

inductive PermsetReset where
  | Nothing
  | Requested
  | Granted
  | Requested_And_Granted
  deriving DecidableEq, Repr

def separators : Bytes := ascii " \t\n\r,"

def isSeparator (byte : Byte) : Bool := separators.contains byte

theorem dropWhile_starts {list rest : Bytes} {byte : Byte} (left : list.dropWhile isSeparator = byte :: rest) :
    isSeparator byte = false := by
  have head := List.head?_dropWhile_not isSeparator list
  rw [left] at head
  exact head

/-- The names that `add_list` reads, by `strspn` and `strcspn`. -/
def words (list : Bytes) : List Bytes :=
  match _iter : list.dropWhile isSeparator with
  | [] => []
  | byte :: rest =>
    (byte :: rest).takeWhile (!isSeparator ·) :: words ((byte :: rest).dropWhile (!isSeparator ·))
termination_by list.length
decreasing_by
  have whole := (List.dropWhile_sublist (l := list) isSeparator).length_le
  have shorter := (List.dropWhile_sublist (l := rest) (!isSeparator ·)).length_le
  rw [_iter, List.length_cons] at whole
  rw [List.dropWhile_cons_of_pos (by rw [dropWhile_starts _iter]; rfl)]
  omega

/-- The parts between separators that are not empty. -/
def listNames (list : Bytes) : List Bytes := (list.splitOnP isSeparator).filter (· ≠ [])

theorem listNames_separator {byte : Byte} (separates : isSeparator byte = true) (rest : Bytes) :
    listNames (byte :: rest) = listNames rest := by
  rw [listNames, List.splitOnP_cons_eq_if_modifyHead, separates]
  rfl

theorem listNames_dropWhile (list : Bytes) : listNames (list.dropWhile isSeparator) = listNames list := by
  induction list with
  | nil => rfl
  | cons byte rest ih =>
    rw [List.dropWhile_cons]
    split
    · next separates => rw [ih, listNames_separator separates]
    · rfl

theorem listNames_name {name : Bytes} (named : name ≠ []) (plain : ∀ byte ∈ name, isSeparator byte = false)
    (rest : Bytes) (ends : ∀ byte ∈ rest.head?, isSeparator byte = true) :
    listNames (name ++ rest) = name :: listNames rest := by
  cases rest with
  | nil =>
    rw [List.append_nil, listNames, List.splitOnP_eq_singleton plain, listNames, List.splitOnP_nil]
    simp [named]
  | cons byte rest =>
    have separates := ends byte rfl
    rw [listNames_separator separates, listNames, List.splitOnP_append_cons_of_forall_mem plain byte separates,
      List.filter_cons_of_pos (by simp [named])]
    rfl

theorem words_eq (list : Bytes) : words list = listNames list := by
  induction list using words.induct with
  | case1 list none =>
    rw [words, ← listNames_dropWhile, none]
    rfl
  | case2 list byte rest found ih =>
    have named : (byte :: rest).takeWhile (!isSeparator ·) ≠ [] := by
      rw [List.takeWhile_cons_of_pos (by rw [dropWhile_starts found]; rfl)]
      exact List.cons_ne_nil _ _
    have plain : ∀ byte' ∈ (byte :: rest).takeWhile (!isSeparator ·), isSeparator byte' = false := by
      intro byte' member
      simpa using List.mem_takeWhile_imp member
    have ends : ∀ byte' ∈ ((byte :: rest).dropWhile (!isSeparator ·)).head?, isSeparator byte' = true := by
      intro byte' first
      have head := List.head?_dropWhile_not (!isSeparator ·) (byte :: rest)
      rw [Option.mem_def] at first
      rw [first] at head
      simpa using head
    rw [words, ← listNames_dropWhile, found]
    simp only
    rw [ih, ← listNames_name named plain _ ends, List.takeWhile_append_dropWhile]

/-- The flags of each name: granted, requested. -/
abbrev PermissionMap := Bytes → Option (Bool × Bool)

namespace PermissionMap

def mark (grant request : Bool) (map : PermissionMap) (name : Bytes) : PermissionMap :=
  Function.update map name
    (some (((map name).getD (false, false)).1 || grant, ((map name).getD (false, false)).2 || request))

def clear : PermsetReset → Bool × Bool → Bool × Bool
  | .Nothing, flags => flags
  | .Requested, flags => (flags.1, false)
  | .Granted, flags => (false, flags.2)
  | .Requested_And_Granted, _ => (false, false)

def reset (it : PermsetReset) (map : PermissionMap) : PermissionMap := fun name => (map name).map (clear it)

end PermissionMap

inductive PermsetOperation where
  | grant (name : Bytes)
  | request (name : Bytes)
  | add (name : Bytes)
  | grantList (list : Bytes)
  | requestList (list : Bytes)
  | addList (list : Bytes)
  | reset (it : PermsetReset)
  deriving DecidableEq, Repr

def PermsetOperation.update (map : PermissionMap) : PermsetOperation → PermissionMap
  | .grant name => map.mark true false name
  | .request name => map.mark false true name
  | .add name => map.mark false false name
  | .grantList list => (listNames list).foldl (PermissionMap.mark true false) map
  | .requestList list => (listNames list).foldl (PermissionMap.mark false true) map
  | .addList list => (listNames list).foldl (PermissionMap.mark false false) map
  | .reset it => map.reset it

namespace Permset

def flags (permission : Permission) : Bool × Bool := (permission.granted, permission.requested)

def names (permset : Permset) : List Bytes := permset.permissions.map Permission.name

theorem names_addTo (name : Bytes) (grant request : Bool) (items : List Permission) :
    (addTo name grant request items).map Permission.name =
      if name ∈ items.map Permission.name then items.map Permission.name
      else items.map Permission.name ++ [name] := by
  induction items with
  | nil => rfl
  | cons item rest ih =>
    unfold addTo
    by_cases here : item.name = name
    · simp [here, mark]
    · by_cases later : name ∈ rest.map Permission.name
      · rw [if_pos later] at ih
        rw [if_neg here, List.map_cons, List.map_cons, ih, if_pos (List.mem_cons_of_mem _ later)]
      · rw [if_neg later] at ih
        rw [if_neg here, List.map_cons, List.map_cons, ih, if_neg, List.cons_append]
        rw [List.mem_cons, not_or]
        exact ⟨Ne.symm here, later⟩

theorem nodup_add {permset : Permset} (unique : permset.names.Nodup) (name : Bytes) (grant request : Bool) :
    (permset.add name grant request).names.Nodup := by
  rw [names, add, names_addTo]
  split
  · exact unique
  · next fresh => exact List.nodup_append.mpr ⟨unique, by simp, by simpa using fresh⟩

/-- Where a name is found in a list, and with which flags. -/
def flagsIn (items : List Permission) (name : Bytes) : Option (Bool × Bool) :=
  (items.find? fun permission => permission.name = name).map flags

def map (permset : Permset) : PermissionMap := flagsIn permset.permissions

theorem flagsIn_cons (item : Permission) (rest : List Permission) (name : Bytes) :
    flagsIn (item :: rest) name = if item.name = name then some (flags item) else flagsIn rest name := by
  rw [flagsIn, List.find?_cons]
  by_cases here : item.name = name
  · simp [here]
  · simp [here, flagsIn]

theorem flagsIn_addTo (name : Bytes) (grant request : Bool) (items : List Permission) :
    flagsIn (addTo name grant request items) = PermissionMap.mark grant request (flagsIn items) name := by
  funext other
  rw [PermissionMap.mark, Function.update_apply]
  induction items with
  | nil =>
    rw [addTo, flagsIn_cons]
    by_cases same : other = name
    · rw [if_pos same, if_pos (by rw [same]; rfl)]
      rfl
    · rw [if_neg same, if_neg (fun equal => same equal.symm)]
  | cons item rest ih =>
    rw [addTo, flagsIn_cons, flagsIn_cons]
    by_cases here : item.name = name
    · rw [if_pos here, if_pos here, flagsIn_cons, Option.getD_some]
      by_cases same : other = name
      · rw [if_pos same, if_pos (by rw [same]; exact here)]
        rfl
      · have differs : item.name ≠ other := fun equal => same (equal.symm.trans here)
        have differs' : (mark grant request item).name ≠ other := differs
        rw [if_neg same, if_neg differs', if_neg differs]
    · rw [if_neg here, if_neg here, flagsIn_cons, ih]
      by_cases same : other = name
      · rw [if_pos same, if_pos same, if_neg (same ▸ here)]
      · rw [if_neg same, if_neg same]

theorem map_add (permset : Permset) (name : Bytes) (grant request : Bool) :
    (permset.add name grant request).map = permset.map.mark grant request name :=
  flagsIn_addTo name grant request permset.permissions

def clear : PermsetReset → Permission → Permission
  | .Nothing, permission => permission
  | .Requested, permission => { permission with requested := false }
  | .Granted, permission => { permission with granted := false }
  | .Requested_And_Granted, permission => { permission with granted := false, requested := false }

def reset (permset : Permset) (it : PermsetReset) : Permset :=
  { permset with permissions := permset.permissions.map (clear it) }

theorem name_clear (it : PermsetReset) (permission : Permission) : (clear it permission).name = permission.name := by
  cases it <;> rfl

theorem flags_clear (it : PermsetReset) (permission : Permission) :
    flags (clear it permission) = PermissionMap.clear it (flags permission) := by
  cases it <;> rfl

theorem names_reset (permset : Permset) (it : PermsetReset) : (permset.reset it).names = permset.names := by
  rw [names, reset, List.map_map]
  exact List.map_congr_left fun permission _ => name_clear it permission

theorem map_reset (permset : Permset) (it : PermsetReset) : (permset.reset it).map = permset.map.reset it := by
  funext name
  change flagsIn (permset.permissions.map (clear it)) name =
    (flagsIn permset.permissions name).map (PermissionMap.clear it)
  induction permset.permissions with
  | nil => rfl
  | cons item rest ih =>
    rw [List.map_cons, flagsIn_cons, flagsIn_cons, name_clear, ih, flags_clear]
    split <;> rfl

/-- The names that a loop over the selected permissions meets. -/
def enumerate (permset : Permset) (it : PermsetSelect) : List Bytes :=
  (forSelected (fun met name => (0, met ++ [name])) it (permset.selectFirst it) []).2

theorem untilNegative_collects (names met : List Bytes) :
    (untilNegative (fun met name => (0, met ++ [name])) names met).2 = met ++ names := by
  induction names generalizing met with
  | nil => rw [untilNegative, List.append_nil]
  | cons name rest ih =>
    rw [untilNegative, if_neg (lt_irrefl 0), ih, List.append_assoc, List.singleton_append]

theorem enumerate_eq (permset : Permset) (it : PermsetSelect) : permset.enumerate it =
    (permset.permissions.filter fun permission => selects permission it).map Permission.name := by
  rw [enumerate, forSelected_first, untilNegative_collects, List.nil_append]

theorem flags_injective {first second : Permission} (names : first.name = second.name)
    (same : flags first = flags second) : first = second := by
  obtain ⟨name, granted, requested⟩ := first
  obtain ⟨name', granted', requested'⟩ := second
  simp only [flags, Prod.mk.injEq] at names same
  rw [names, same.1, same.2]

theorem mem_iff_flagsIn {items : List Permission} (unique : (items.map Permission.name).Nodup)
    (permission : Permission) :
    permission ∈ items ↔ flagsIn items permission.name = some (flags permission) := by
  induction items with
  | nil => simp [flagsIn]
  | cons item rest ih =>
    rw [List.map_cons, List.nodup_cons] at unique
    rw [List.mem_cons, flagsIn_cons]
    by_cases here : item.name = permission.name
    · have elsewhere : permission ∉ rest := fun member =>
        unique.1 (here ▸ List.mem_map_of_mem (f := Permission.name) member)
      rw [if_pos here, Option.some.injEq]
      constructor
      · rintro (rfl | member)
        · rfl
        · exact absurd member elsewhere
      · exact fun same => Or.inl (flags_injective here same).symm
    · rw [if_neg here, ← ih unique.2]
      exact or_iff_right fun same => here (by rw [same])

theorem enumerate_spec {permset : Permset} (unique : permset.names.Nodup) (it : PermsetSelect) :
    (permset.enumerate it).Nodup ∧ ∀ name, name ∈ permset.enumerate it ↔
      ∃ granted requested, permset.map name = some (granted, requested) ∧
        selects ⟨name, granted, requested⟩ it = true := by
  rw [enumerate_eq]
  refine ⟨unique.sublist ((List.filter_sublist).map _), fun name => ?_⟩
  rw [List.mem_map]
  constructor
  · rintro ⟨permission, member, rfl⟩
    obtain ⟨inside, picked⟩ := List.mem_filter.mp member
    exact ⟨_, _, (mem_iff_flagsIn unique permission).mp inside, picked⟩
  · rintro ⟨granted, requested, found, picked⟩
    refine ⟨⟨name, granted, requested⟩, List.mem_filter.mpr ⟨?_, picked⟩, rfl⟩
    exact (mem_iff_flagsIn unique ⟨name, granted, requested⟩).mpr found

end Permset

end AppManager.Utils
