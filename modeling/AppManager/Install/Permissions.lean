import AppManager.Install.Sessions
import AppManager.Utils.PermsetArray

/-! The permissions that an installation asks for. Those that the manifest and its targets
declare are collected in a set, and each of them is asked for once, before the default
ones. -/

namespace AppManager.Install
open AppManager.Lib AppManager.Lib.Libc AppManager.Utils

def Call.permission : Call → Option Bytes
  | .setperm permission _ => some permission
  | _ => none

def permissionsOf (calls : List Call) : List Bytes := calls.filterMap Call.permission

/-- The items about permissions, those of the manifest and those of its targets. -/
def permissionItems (manifest : Json) : List Json :=
  (manifest :: manifest.itemsAt MANIFEST_TARGETS).flatMap fun owner =>
    (owner.membersAt MANIFEST_REQUIRED_PERMISSIONS).map Prod.snd

/-- The item declares a permission, as required or as optional or without a value. -/
structure Declares (item : Json) (name : Bytes) : Prop where
  named : ∃ text, item.get MANIFEST_NAME = some (.string text) ∧ cstr text = name
  valued : item.get MANIFEST_VALUE = none ∨ ∃ text, item.get MANIFEST_VALUE = some (.string text) ∧
    (cstr text = MANIFEST_VALUE_OPTIONAL ∨ cstr text = MANIFEST_VALUE_REQUIRED)

/-- The names and the values of permissions are strings. -/
def PermissionStrings (manifest : Json) : Prop :=
  ∀ item ∈ permissionItems manifest, (∃ text, item.get MANIFEST_NAME = some (.string text)) ∧
    ∀ value, item.get MANIFEST_VALUE = some value → ∃ text, value = .string text

section
variable {Closure : Type} (world : World)

/-- A set has all the declared names, requested and granted, and no other one. -/
structure Exactly (permset : Permset) (declared : Bytes → Prop) : Prop where
  unique : permset.names.Nodup
  given : ∀ name, declared name → permset.map name = some (true, true)
  only : ∀ name, (permset.map name).isSome → declared name

theorem exactly_create : Exactly Permset.create fun _ => False :=
  ⟨List.nodup_nil, fun _ => False.elim, fun _ some => by cases some⟩

theorem requestPermission_exactly {state : State Closure} {declared : Bytes → Prop} (perm : Bytes)
    (exactly : Exactly state.permset declared) :
    Exactly (requestPermission state perm).permset fun name => declared name ∨ name = perm := by
  have map : (requestPermission state perm).permset.map =
      (state.permset.map.mark true false perm).mark false true perm := by
    rw [requestPermission, Permset.request, Permset.grant, Permset.map_add, Permset.map_add]
  have here : (requestPermission state perm).permset.map perm = some (true, true) := by
    simp [map, PermissionMap.mark]
  have others : ∀ name, name ≠ perm → (requestPermission state perm).permset.map name = state.permset.map name := by
    intro name other
    simp [map, PermissionMap.mark, Function.update_of_ne other]
  refine ⟨Permset.nodup_add (Permset.nodup_add exactly.unique _ _ _) _ _ _, ?_, ?_⟩
  · intro name declares
    by_cases same : name = perm
    · rw [same]
      exact here
    · rw [others name same]
      exact exactly.given name (declares.resolve_right same)
  · intro name some
    by_cases same : name = perm
    · exact Or.inr same
    · rw [others name same] at some
      exact Or.inl (exactly.only name some)

theorem Exactly.congr {permset : Permset} {declared declared' : Bytes → Prop} (exactly : Exactly permset declared)
    (same : ∀ name, declared name ↔ declared' name) : Exactly permset declared' :=
  ⟨exactly.unique, fun name given => exactly.given name ((same name).mpr given),
    fun name some => (same name).mp (exactly.only name some)⟩

theorem checkOnePermissionCb_exactly {state state' : State Closure} {declared : Bytes → Prop} {item : Json}
    (named : ∃ text, item.get MANIFEST_NAME = some (.string text))
    (valued : ∀ value, item.get MANIFEST_VALUE = some value → ∃ text, value = .string text)
    (done : checkOnePermissionCb world state item = .ok state') (exactly : Exactly state.permset declared) :
    Exactly state'.permset fun name => declared name ∨ Declares item name := by
  obtain ⟨text, found⟩ := named
  obtain ⟨members, rfl⟩ : ∃ members, item = .object members := by
    cases item with
    | object members => exact ⟨members, rfl⟩
    | _ => cases found
  have asked : permissionName (.object members) = some (cstr text) := by rw [permissionName, found]
  have only : ∀ {name}, Declares (.object members) name → name = cstr text := by
    rintro name ⟨⟨text', found', rfl⟩, -⟩
    rw [found, Option.some.injEq, Json.string.injEq] at found'
    rw [found']
  have accepted : Declares (.object members) (cstr text) →
      Exactly (requestPermission state (cstr text)).permset fun name =>
        declared name ∨ Declares (.object members) name := by
    intro declares
    apply (requestPermission_exactly (cstr text) exactly).congr
    exact fun name => or_congr_right ⟨fun same => same ▸ declares, only⟩
  simp only [checkOnePermissionCb, asked, acceptPermission] at done
  cases value : (Json.object members).get MANIFEST_VALUE with
  | none =>
    simp only [value, Except.ok.injEq] at done
    subst done
    exact accepted ⟨⟨text, found, rfl⟩, Or.inl value⟩
  | some given =>
    obtain ⟨shown, rfl⟩ := valued given value
    simp only [value, Json.getString] at done
    split at done
    · next right =>
      rw [Except.ok.injEq] at done
      subst done
      exact accepted ⟨⟨text, found, rfl⟩, Or.inr ⟨shown, value, right⟩⟩
    · next wrong =>
      rw [Except.ok.injEq] at done
      subst done
      apply exactly.congr
      intro name
      refine ⟨Or.inl, fun either => either.resolve_right ?_⟩
      rintro ⟨-, absent | ⟨shown', value', right⟩⟩
      · rw [value] at absent
        cases absent
      · rw [value, Option.some.injEq, Json.string.injEq] at value'
        rw [← value'] at right
        exact wrong right

theorem foldlM_exactly (items : List Json)
    (strings : ∀ item ∈ items, (∃ text, item.get MANIFEST_NAME = some (.string text)) ∧
      ∀ value, item.get MANIFEST_VALUE = some value → ∃ text, value = .string text)
    {state state' : State Closure} {declared : Bytes → Prop}
    (done : items.foldlM (checkOnePermissionCb world) state = .ok state') (exactly : Exactly state.permset declared) :
    Exactly state'.permset fun name => declared name ∨ ∃ item ∈ items, Declares item name := by
  induction items generalizing state declared with
  | nil =>
    cases done
    exact exactly.congr fun name => by simp
  | cons item rest ih =>
    rw [List.foldlM_cons] at done
    obtain ⟨middle, first, others⟩ := bind_ok done
    have here := strings item (by simp)
    have one := checkOnePermissionCb_exactly world here.1 here.2 first exactly
    apply (ih (fun other member => strings other (List.mem_cons_of_mem _ member)) others one).congr
    intro name
    rw [or_assoc, List.exists_mem_cons_iff]

theorem checkPermissionsCb_eq (state : State Closure) (jso : Json) : checkPermissionsCb world state jso =
    ((jso.membersAt MANIFEST_REQUIRED_PERMISSIONS).map Prod.snd).foldlM (checkOnePermissionCb world) state := by
  rw [checkPermissionsCb, List.foldlM_map]

theorem checkPermissions_eq (pack : Package) (state : State Closure) : checkPermissions world pack state =
    (permissionItems pack.manifest).foldlM (checkOnePermissionCb world) state := by
  rw [checkPermissions, permissionItems, List.flatMap_cons, List.foldlM_append, checkPermissionsCb_eq]
  congr 1
  funext state'
  change pack.targets.foldlM (checkPermissionsCb world) state' = (pack.targets.flatMap _).foldlM _ state'
  induction pack.targets generalizing state' with
  | nil => rfl
  | cons target rest ih =>
    rw [List.foldlM_cons, List.flatMap_cons, List.foldlM_append, checkPermissionsCb_eq]
    congr 1
    funext state''
    exact ih state''

theorem checkPermissions_exactly (pack : Package) (strings : PermissionStrings pack.manifest)
    {state checked : State Closure}
    (done : checkPermissions world pack { state with permset := Permset.create } = .ok checked) :
    Exactly checked.permset fun name => ∃ item ∈ permissionItems pack.manifest, Declares item name := by
  rw [checkPermissions_eq] at done
  exact (foldlM_exactly world _ strings done exactly_create).congr fun name => by simp

theorem permset_put (state : State Closure) (rc : Int) : (state.put rc).permset = state.permset := by
  unfold State.put
  split <;> rfl

theorem steady_permset {offset : Nat} {path : Bytes} (room : offset < path.length) (permset : Permset)
    (calls : List Call) : Steady offset path fun state : State Closure =>
      state.permset = permset ∧ state.calls = calls ∧ Alike offset path state.path where
  room := room
  alike _ kept := kept.2.2
  put state rc kept := by
    rw [permset_put, (put_rc state rc).2, put_path]
    exact kept
  reset _ kept := kept
  setType _ _ _ kept := kept
  withPath _ _ kept alike := ⟨kept.1, kept.2.1, alike⟩

/-- Calls were made since then that ask for some permissions. -/
def Asked (before : List Call) (permissions : List Bytes) (calls : List Call) : Prop :=
  ∃ made, calls = before ++ made ∧ permissionsOf made = permissions

namespace Asked
variable {before : List Call} {permissions : List Bytes} {state : State Closure}

theorem permit (asked : Asked before permissions state.calls) (opers : Operations Closure) (name : Bytes) :
    Asked before (permissions ++ [name]) (permit opers state name).2.calls := by
  obtain ⟨made, calls, names⟩ := asked
  refine ⟨made ++ [.setperm name (opers.setperm state.closure name).1], ?_, ?_⟩
  · simp only [Install.permit, State.called, calls, List.append_assoc]
  · rw [permissionsOf, List.filterMap_append, ← permissionsOf, names]
    rfl

/-- A call of another operation. -/
theorem called (asked : Asked before permissions state.calls) (call : Int → Call) (answer : Int × Closure)
    (other : (call answer.1).permission = none) : Asked before permissions (state.called call answer).2.calls := by
  obtain ⟨made, calls, names⟩ := asked
  refine ⟨made ++ [call answer.1], ?_, ?_⟩
  · simp only [State.called, calls, List.append_assoc]
  · rw [permissionsOf, List.filterMap_append, ← permissionsOf, names, List.filterMap_cons, other]
    simp

theorem put (asked : Asked before permissions state.calls) (rc : Int) :
    Asked before permissions (state.put rc).calls := by
  rw [(put_rc state rc).2]
  exact asked

/-- All the names are asked for when no answer is negative. -/
theorem untilNegative (asked : Asked before permissions state.calls) (opers : Operations Closure)
    (names : List Bytes) (fine : 0 ≤ (Permset.untilNegative (Install.permit opers) names state).1) :
    Asked before (permissions ++ names) (Permset.untilNegative (Install.permit opers) names state).2.calls := by
  induction names generalizing permissions state with
  | nil =>
    rw [List.append_nil]
    exact asked
  | cons name rest ih =>
    unfold Permset.untilNegative at fine ⊢
    by_cases negative : (Install.permit opers state name).1 < 0
    · rw [if_pos negative] at fine
      omega
    · rw [if_neg negative] at fine ⊢
      rw [List.append_cons]
      exact ih (asked.permit opers name) fine

end Asked

theorem setupSecurity_asked (opers : Operations Closure) (pack : Package) (state : State Closure)
    (room : pack.offsetPack < state.path.length) (fine : 0 ≤ (setupSecurity world opers pack state).1) :
    Asked state.calls (state.permset.enumerate .Requested_And_Granted ++ defaultPermissions)
      (setupSecurity world opers pack state).2.calls := by
  obtain ⟨path', -, run⟩ := forEachEntry_visible pack { after := true } rfl rfl
    (setupSecurityFileCb opers) state (lt_of_le_of_lt (entryOffset_le pack _) room)
  have tagged : (pack.forEachEntry { after := true } (setupSecurityFileCb opers) state).2.permset = state.permset ∧
      Asked state.calls [] (pack.forEachEntry { after := true } (setupSecurityFileCb opers) state).2.calls := by
    rw [run]
    apply Tour.run_invariant (fun state' : State Closure => state'.permset = state.permset ∧
      Asked state.calls [] state'.calls) ⟨rfl, [], (List.append_nil _).symm, rfl⟩
    rintro state' ⟨same, asked⟩ visit _
    exact ⟨(permset_put _ _).trans same, (asked.called (.tagfile _ _ _) _ rfl).put _⟩
  rw [setupSecurity_eq] at fine ⊢
  generalize (pack.forEachEntry { after := true } (setupSecurityFileCb opers) state).2 = after at tagged fine ⊢
  obtain ⟨same, asked⟩ := tagged
  simp only at fine ⊢
  by_cases failed : after.rc < 0
  · rw [if_pos failed] at fine
    exact absurd failed (not_lt.mpr fine)
  · rw [if_neg failed] at fine ⊢
    rw [permitAndPlug, Permset.forSelected_first, ← Permset.enumerate_eq, same] at fine ⊢
    simp only at fine ⊢
    generalize granted : Permset.untilNegative (permit opers) _ after = first at fine ⊢
    by_cases refused : first.1 < 0
    · rw [if_pos refused] at fine
      exact absurd refused (not_lt.mpr fine)
    · rw [if_neg refused] at fine ⊢
      have selected := asked.untilNegative opers (state.permset.enumerate .Requested_And_Granted)
        (by rw [granted]; exact not_lt.mp refused)
      rw [granted, List.nil_append] at selected
      generalize given : Permset.untilNegative (permit opers) defaultPermissions first.2 = last at fine ⊢
      by_cases denied : last.1 < 0
      · rw [if_pos denied] at fine
        exact absurd denied (not_lt.mpr fine)
      · rw [if_neg denied]
        have defaults := selected.untilNegative opers defaultPermissions (by rw [given]; exact not_lt.mp denied)
        rw [given] at defaults
        apply forEachPlug_keeps world opers (fun state' : State Closure => Asked state.calls _ state'.calls) pack
          _ _ _ _ defaults
        · exact fun state' rc kept => kept.put rc
        · exact fun state' text kept => kept
        · exact fun state' entry impid impdir kept => (kept.called (.setplug _ _ _) _ rfl).put _

theorem setupSecurity_declared (opers : Operations Closure) (pack : Package) (strings : PermissionStrings pack.manifest)
    {state checked computed : State Closure} (room : pack.offsetPack < state.path.length)
    (permitted : checkPermissions world pack { state with permset := Permset.create } = .ok checked)
    (typed : computeFilesProperties world pack (checkContents world pack checked) = .ok computed)
    (fine : 0 ≤ (setupSecurity world opers pack (setupFilesProperties world pack computed)).1) :
    ∃ names : List Bytes, names.Nodup ∧
      (∀ name, name ∈ names ↔ ∃ item ∈ permissionItems pack.manifest, Declares item name) ∧
      Asked state.calls (names ++ defaultPermissions)
        (setupSecurity world opers pack (setupFilesProperties world pack computed)).2.calls := by
  have exactly := checkPermissions_exactly world pack strings permitted
  have same : SamePermset { state with permset := Permset.create } checked := by
    have meets := checkPermissions_meets world pack { state with permset := Permset.create }
    rw [permitted] at meets
    exact meets
  have quiet := same.quiet pack.offsetPack
  have steady : Steady pack.offsetPack state.path fun state' : State Closure => state'.permset = checked.permset ∧
      state'.calls = state.calls ∧ Alike pack.offsetPack state.path state'.path :=
    steady_permset room checked.permset state.calls
  -- the permissions and the calls are still those of the check when the security starts
  have contents := checkContents_keeps world steady checked ⟨rfl, quiet.calls, quiet.path⟩
  have computing := computeFilesProperties_keeps world steady _ contents
  rw [typed] at computing
  obtain ⟨permset, calls, alike⟩ := setupFilesProperties_keeps world steady computed computing
  have asked := setupSecurity_asked world opers pack _ (by rw [alike.size]; exact room) fine
  rw [permset, calls] at asked
  obtain ⟨unique, members⟩ := Permset.enumerate_spec exactly.unique .Requested_And_Granted
  refine ⟨_, unique, fun name => ?_, asked⟩
  rw [members]
  constructor
  · rintro ⟨granted, requested, found, -⟩
    exact exactly.only name (by rw [found]; rfl)
  · exact fun declares => ⟨true, true, exactly.given name declares, rfl⟩

end

/-- A set of permissions is a map, whatever the operations that made it, and an installation
asks for the permissions that are declared, then for the default ones. -/
theorem permissions_once (junk : Permission) :
    (∀ operations array, PermsetArray.run junk operations = .ok array → array.view.names.Nodup ∧
      array.view.map = operations.foldl PermsetOperation.update (fun _ => none) ∧
      ∀ it, (array.view.enumerate it).Nodup ∧ ∀ name, name ∈ array.view.enumerate it ↔
        ∃ granted requested, array.view.map name = some (granted, requested) ∧
          Permset.selects ⟨name, granted, requested⟩ it = true) ∧
    (∀ operations, PermsetArray.run junk operations ≠ .error .overflow) ∧
    ∀ (Closure : Type) (world : World) (opers : Operations Closure) (pack : Package),
      PermissionStrings pack.manifest → ∀ state checked computed : State Closure,
      pack.offsetPack < state.path.length →
      checkPermissions world pack { state with permset := Permset.create } = .ok checked →
      computeFilesProperties world pack (checkContents world pack checked) = .ok computed →
      0 ≤ (setupSecurity world opers pack (setupFilesProperties world pack computed)).1 →
      ∃ names : List Bytes, names.Nodup ∧
        (∀ name, name ∈ names ↔ ∃ item ∈ permissionItems pack.manifest, Declares item name) ∧
        Asked state.calls (names ++ defaultPermissions)
          (setupSecurity world opers pack (setupFilesProperties world pack computed)).2.calls := by
  refine ⟨fun operations array made => ?_, fun operations made => ?_, ?_⟩
  · have spec := PermsetArray.run_spec junk operations
    rw [made] at spec
    exact ⟨spec.1.unique, spec.2, Permset.enumerate_spec spec.1.unique⟩
  · have spec := PermsetArray.run_spec junk operations
    rw [made] at spec
    cases spec
  · intro Closure world opers pack strings state checked computed room permitted typed fine
    exact setupSecurity_declared world opers pack strings room permitted typed fine

def requiringPackage : Package := ⟨(filesOf []).root, 0, 1, requiring (.string MANIFEST_VALUE_REQUIRED)⟩

def requiringState : State Unit := startState () [slash, 0]

theorem permissions_once_required :
    (∃ array, PermsetArray.run ⟨[], false, false⟩ [.grant (ascii "a"), .add (ascii "b"), .request (ascii "a")] =
      .ok array ∧ ascii "a" ∈ array.view.enumerate .Requested_And_Granted) ∧
    ∃ checked computed names, names.Nodup ∧ ascii "perm" ∈ names ∧
      checkPermissions (plainWorld (.object [])) requiringPackage requiringState = .ok checked ∧
      computeFilesProperties (plainWorld (.object [])) requiringPackage
        (checkContents (plainWorld (.object [])) requiringPackage checked) = .ok computed ∧
      Asked [] (names ++ defaultPermissions) (setupSecurity (plainWorld (.object [])) accepting requiringPackage
        (setupFilesProperties (plainWorld (.object [])) requiringPackage computed)).2.calls := by
  obtain ⟨sets, -, installs⟩ := permissions_once ⟨[], false, false⟩
  constructor
  · obtain ⟨array, made⟩ : ∃ array, PermsetArray.run ⟨[], false, false⟩
        [.grant (ascii "a"), .add (ascii "b"), .request (ascii "a")] = .ok array := ⟨_, rfl⟩
    obtain ⟨-, map, walks⟩ := sets _ array made
    exact ⟨array, made, ((walks .Requested_And_Granted).2 _).mpr ⟨true, true, by rw [map]; rfl, rfl⟩⟩
  · have items : permissionItems requiringPackage.manifest = [.object [(MANIFEST_NAME, .string (ascii "perm")),
        (MANIFEST_VALUE, .string MANIFEST_VALUE_REQUIRED)]] := rfl
    have strings : PermissionStrings requiringPackage.manifest := by
      intro item member
      rw [items, List.mem_singleton] at member
      rw [member]
      exact ⟨⟨_, rfl⟩, fun value same => ⟨_, (Option.some.inj same).symm⟩⟩
    obtain ⟨names, unique, members, asked⟩ := installs Unit (plainWorld (.object [])) accepting requiringPackage
      strings requiringState _ _ (by decide) rfl rfl (by decide +kernel)
    refine ⟨_, _, names, unique, (members _).mpr ⟨_, by rw [items]; exact List.mem_singleton_self _, ?_⟩, rfl, rfl,
      asked⟩
    exact ⟨⟨ascii "perm", rfl, rfl⟩, Or.inr ⟨_, rfl, Or.inr rfl⟩⟩

end AppManager.Install
