import AppManager.Install.Stages

/-! How an installation comes to its operations, and the part of the path buffer that it
never writes. -/

namespace AppManager.Install
open AppManager.Lib AppManager.Lib.Libc AppManager.Utils

variable {Closure : Type} (world : World) (opers : Operations Closure)

theorem put_rc (state : State Closure) (rc : Int) :
    ((state.put rc).rc < 0 ↔ state.rc < 0 ∨ rc < 0) ∧ (state.put rc).calls = state.calls := by
  unfold State.put
  split
  · next both => exact ⟨⟨fun _ => Or.inr both.1, fun _ => both.1⟩, rfl⟩
  · next kept =>
    refine ⟨⟨Or.inl, fun either => ?_⟩, rfl⟩
    rcases either with negative | negative
    · exact negative
    · by_contra fine
      exact kept ⟨negative, by omega⟩

theorem checkInstalled_rc (pack : Package) (found : Option PathEntry) (allowed : FileKind → Bool)
    (state : State Closure) : (checkInstalled world pack found allowed state).2.rc = state.rc := by
  unfold checkInstalled
  split
  · rfl
  · simp only
    split
    · rfl
    · split <;> rfl

theorem checkOneTargetConfigCb_rc (pack : Package) (state : State Closure) (negative : state.rc < 0) (jso : Json) :
    (checkOneTargetConfigCb world pack state jso).rc < 0 := by
  unfold checkOneTargetConfigCb
  split
  · refine ((put_rc _ _).1).mpr (Or.inl ?_)
    rw [checkConfigFile, checkInstalled_rc]
    exact negative
  · exact ((put_rc _ _).1).mpr (Or.inl negative)

theorem checkTargetConfig_rc (pack : Package) (state : State Closure) (target : Json)
    (negative : state.rc < 0) : (checkTargetConfig world pack state target).rc < 0 := by
  unfold checkTargetConfig
  split
  · exact negative
  · next configs _ =>
    exact List.foldlRecOn (motive := fun state : State Closure => state.rc < 0) configs.optarrayItems
      (checkOneTargetConfigCb world pack) negative
      fun state' kept jso _ => checkOneTargetConfigCb_rc world pack state' kept jso

theorem checkInstalled_found (pack : Package) (found : Option PathEntry) (allowed : FileKind → Bool)
    (state : State Closure) (fine : 0 ≤ (checkInstalled world pack found allowed state).1) : found.isSome := by
  cases found with
  | some entry => rfl
  | none => exact absurd fine (by rw [checkInstalled]; exact not_le.mpr ENOENT_failure)

/-- The content of a target is an object with a source, which is found, and a type. -/
def Checked (pack : Package) (target : Json) : Prop :=
  ∃ members src type entry, target.get (ascii "content") = some (.object members) ∧
    (Json.object members).get (ascii "src") = some (.string src) ∧
    (Json.object members).get (ascii "type") = some (.string type) ∧
    findContent pack.packdir (cstr src) = some entry

theorem checkTargetCb_fine (pack : Package) (state : State Closure) (target : Json)
    (fine : 0 ≤ (checkTargetCb world pack state target).rc) : 0 ≤ state.rc ∧ Checked pack target := by
  have content : 0 ≤ (checkTargetContent world pack state target).rc := by
    by_contra negative
    have later := checkTargetConfig_rc world pack _ target (not_le.mp negative)
    unfold checkTargetCb at fine
    omega
  have einval : ¬0 ≤ (state.put (-EINVAL)).rc := by
    have negative := ((put_rc state (-EINVAL)).1).mpr (Or.inr (by decide))
    omega
  unfold checkTargetContent at content
  split at content
  · next members located =>
    split at content
    · next src sourced =>
      split at content
      · next type typed =>
        have sign := (put_rc (checkSrcTypeDefinition world pack state (cstr src)).2
          (checkSrcTypeDefinition world pack state (cstr src)).1).1
        rw [checkSrcTypeDefinition, checkInstalled_rc] at sign
        rw [checkSrcTypeDefinition] at content
        have both : ¬state.rc < 0 ∧ ¬(checkInstalled world pack (findContent pack.packdir (cstr src)) (· ≠ .other)
            state).1 < 0 := by
          rw [← not_or, ← sign]
          exact not_lt.mpr content
        obtain ⟨entry, found⟩ := Option.isSome_iff_exists.mp
          (checkInstalled_found world pack _ _ state (not_lt.mp both.2))
        exact ⟨not_lt.mp both.1, members, src, type, entry, located, sourced, typed, found⟩
      · exact absurd content einval
    · exact absurd content einval
  · exact absurd content einval

theorem checkContents_checked (pack : Package) (state : State Closure)
    (fine : 0 ≤ (checkContents world pack state).rc) : ∀ target ∈ pack.targets, Checked pack target := by
  unfold checkContents at fine
  have whole : ∀ (targets : List Json) (state : State Closure),
      0 ≤ (targets.foldl (checkTargetCb world pack) state).rc →
      0 ≤ state.rc ∧ ∀ target ∈ targets, Checked pack target := by
    intro targets
    induction targets with
    | nil => exact fun state fine => ⟨fine, by simp⟩
    | cons target rest ih =>
      intro state fine
      obtain ⟨next, later⟩ := ih _ fine
      obtain ⟨first, here⟩ := checkTargetCb_fine world pack state target next
      refine ⟨first, fun other member => ?_⟩
      rcases List.mem_cons.mp member with same | inside
      · rw [same]
        exact here
      · exact later other inside
  exact (whole pack.targets state fine).2

theorem checkContents_types (pack : Package) (state : State Closure)
    (fine : 0 ≤ (checkContents world pack state).rc) : TypesGiven pack := by
  intro target member content located
  obtain ⟨members, -, type, -, given, -, typed, -⟩ := checkContents_checked world pack state fine target member
  rw [given, Option.some.injEq] at located
  rw [← located, typed]
  simp

/-- No permission and no file property of a manifest has a null value. -/
structure Given (manifest : Json) : Prop where
  permissions : PermissionsGiven manifest
  targets : ∀ target ∈ manifest.itemsAt MANIFEST_TARGETS, PermissionsGiven target
  properties : PropertiesGiven manifest

/-- The part of an installation that calls the operations. -/
def secureAndUnits (pack : Package) (state : State Closure) : Int × State Closure :=
  let result := setupSecurity world opers pack state
  if result.1 < 0 then result else processUnits world opers pack result.2

/-- An installation crashes for a null value or fails before it calls any operation, or
comes to the operations once the contents are accepted. -/
theorem installAfmpkg_rule {good : Int × State Closure → Prop} {bad : Crashed Closure → Prop} (pack : Package)
    (state : State Closure) (room : pack.offsetPack < state.path.length)
    (crashes : ∀ crashed, NullRead (Quiet pack.offsetPack state) crashed → ¬Given pack.manifest → bad crashed)
    (fails : ∀ rc state', Quiet pack.offsetPack state state' → rc < 0 → good (rc, state'))
    (secures : ∀ checked state' : State Closure, 0 ≤ (checkContents world pack checked).rc →
      Quiet pack.offsetPack state state' → 0 ≤ state'.rc → good (secureAndUnits world opers pack state')) :
    Meets good bad (installAfmpkg world opers pack state) := by
  have permissions := checkPermissions_meets world pack { state with permset := Permset.create }
  have start : Quiet pack.offsetPack state { state with permset := Permset.create } :=
    ⟨rfl, rfl, Alike.refl _ _, id⟩
  unfold installAfmpkg
  refine Meets.bind (permissions.mono (fun _ => id) ?_) fun checked same => ?_
  · intro crashed fault
    exact crashes crashed (fault.1.mono fun _ same => start.trans (same.quiet _)) fun given =>
      fault.2 ⟨given.permissions, given.targets⟩
  have first := start.trans (same.quiet pack.offsetPack)
  have steady := Quiet.steady room
  have quiet := checkContents_keeps world steady checked first
  simp only
  split
  · next negative => exact fails _ _ quiet negative
  · next fine =>
    have types := checkContents_types world pack checked (by omega)
    have computing := computeFilesProperties_keeps world steady (checkContents world pack checked) quiet
    refine Meets.bind (computing.mono (fun _ => id) ?_) fun computed whole => ?_
    · exact fun crashed fault => crashes crashed fault.1 fun given => fault.2 ⟨given.properties, types⟩
    split
    · next negative => exact fails _ _ whole negative
    · have all := setupFilesProperties_keeps world steady computed whole
      split
      · next negative => exact fails _ _ all negative
      · next positive =>
        have done := secures checked _ (not_lt.mp fine) all (not_lt.mp positive)
        unfold secureAndUnits at done
        split
        · next negative =>
          rw [if_pos negative] at done
          exact done
        · next more =>
          rw [if_neg more] at done
          exact done

/-- The offsets of a package are in the order of the paths that they end. -/
structure Placed (pack : Package) (path : Bytes) : Prop where
  root : pack.offsetRoot ≤ pack.entryOffset {}
  room : pack.offsetPack < path.length

theorem entryOffset_le (pack : Package) (flags : ForallFlags) : pack.entryOffset flags ≤ pack.offsetPack := by
  unfold Package.entryOffset
  split
  · exact le_rfl
  · split <;> omega

theorem Placed.alike {pack : Package} {path path' : Bytes} {offset : Nat} (placed : Placed pack path)
    (alike : Alike offset path path') : Placed pack path' :=
  ⟨placed.root, by rw [alike.size]; exact placed.room⟩

theorem Placed.quiet {pack : Package} {state state' : State Closure} (placed : Placed pack state.path)
    (quiet : Quiet pack.offsetPack state state') : Alike pack.offsetRoot state.path state'.path :=
  quiet.path.mono (placed.root.trans (entryOffset_le pack {}))

theorem snprintfAt_alike (path text : Bytes) (offset : Nat) (room : offset < path.length) :
    Alike offset path (snprintfAt path offset text) := by
  apply Alike.store _ _ _ le_rfl
  rw [List.length_append, List.length_take, List.length_singleton]
  omega

theorem put_path (state : State Closure) (rc : Int) : (state.put rc).path = state.path := by
  unfold State.put
  split <;> rfl

/-- The permissions and the plugs, after the marking of the files. -/
def permitAndPlug (pack : Package) (state : State Closure) : Int × State Closure :=
  let selected := Permset.forSelected (permit opers) .Requested_And_Granted
    (state.permset.selectFirst .Requested_And_Granted) state
  if selected.1 < 0 then selected
  else
    let defaults := Permset.untilNegative (permit opers) defaultPermissions selected.2
    if defaults.1 < 0 then defaults
    else
      let state := forEachPlug world pack (setPlugCb opers) defaults.2
      (state.rc, state)

/-- A plug of a manifest: what it exports and where it is imported. -/
def PlugOf (manifest name value : Json) : Prop :=
  ∃ desc ∈ manifest.itemsAt MANIFEST_PLUGS, desc.get MANIFEST_NAME = some name ∧ desc.get MANIFEST_VALUE = some value

def exportText (name : Json) : Bytes := slash :: shown (name.getString world.serialize)

/-- The directory where a plug is imported below a root. -/
def importPath (root : Bytes) (value : Json) : Bytes :=
  root ++ world.appDir ++ slash :: shown (value.getString world.serialize) ++ ascii "/plugins"

theorem setupSecurity_eq (pack : Package) (state : State Closure) :
    setupSecurity world opers pack state =
      let tagged := (pack.forEachEntry { after := true } (setupSecurityFileCb opers) state).2
      if tagged.rc < 0 then (tagged.rc, tagged) else permitAndPlug world opers pack tagged := rfl

section
variable (inv : State Closure → Prop)

theorem untilNegative_keeps (permits : ∀ state perm, inv state → inv (permit opers state perm).2)
    (names : List Bytes) (state : State Closure) (start : inv state) :
    inv (Permset.untilNegative (permit opers) names state).2 := by
  induction names generalizing state with
  | nil => exact start
  | cons name rest ih =>
    have next := permits state name start
    unfold Permset.untilNegative
    split
    · exact next
    · exact ih _ next

theorem forEachPlug_rule (pack : Package) (puts : ∀ state rc, inv state → inv (state.put rc))
    (plugs : ∀ state entry name value, PlugOf pack.manifest name value → inv state →
      inv (setPlugCb opers (state.withPath (snprintfAt state.path pack.offsetPack (exportText world name))) entry
        (value.getString world.serialize) ((importPath world ((cstr (snprintfAt state.path pack.offsetPack
          (exportText world name))).take pack.offsetRoot) value).take PATH_MAX)))
    (state : State Closure) (start : inv state) : inv (forEachPlug world pack (setPlugCb opers) state) := by
  apply List.foldlRecOn (motive := fun state' : State Closure => inv state')
    (pack.manifest.itemsAt MANIFEST_PLUGS) (forEachPlugCb world pack (setPlugCb opers)) start
  intro state' kept desc member
  unfold forEachPlugCb
  split
  · exact puts _ _ kept
  · next name named =>
    split
    · exact puts _ _ kept
    · next value valued =>
      simp only
      split
      · exact puts _ _ kept
      · next entry _ =>
        -- a length is not at once negative and too large
        rw [if_neg (by omega)]
        exact plugs state' entry name value ⟨desc, member, named, valued⟩ kept

theorem forEachPlug_keeps (pack : Package) (puts : ∀ state rc, inv state → inv (state.put rc))
    (writes : ∀ state text, inv state → inv (state.withPath (snprintfAt state.path pack.offsetPack text)))
    (plugs : ∀ state entry impid impdir, inv state → inv (setPlugCb opers state entry impid impdir))
    (state : State Closure) (start : inv state) : inv (forEachPlug world pack (setPlugCb opers) state) :=
  forEachPlug_rule world opers inv pack puts
    (fun _ _ _ _ _ kept => plugs _ _ _ _ (writes _ _ kept)) state start

theorem permitAndPlug_rule (pack : Package) (permits : ∀ state perm, inv state → inv (permit opers state perm).2)
    (plugs : ∀ state, inv state → inv (forEachPlug world pack (setPlugCb opers) state)) (state : State Closure)
    (start : inv state) : inv (permitAndPlug world opers pack state).2 := by
  have selected := untilNegative_keeps opers inv permits ((state.permset.permissions.filter
    (fun item => Permset.selects item .Requested_And_Granted)).map Permission.name) state start
  rw [← Permset.forSelected_first] at selected
  simp only [permitAndPlug]
  generalize Permset.forSelected (permit opers) .Requested_And_Granted
    (state.permset.selectFirst .Requested_And_Granted) state = granted at selected ⊢
  split
  · exact selected
  · have defaults := untilNegative_keeps opers inv permits defaultPermissions granted.2 selected
    generalize Permset.untilNegative (permit opers) defaultPermissions granted.2 = last at defaults ⊢
    split
    · exact defaults
    · exact plugs last.2 defaults

theorem permitAndPlug_keeps (pack : Package) (puts : ∀ state rc, inv state → inv (state.put rc))
    (writes : ∀ state text, inv state → inv (state.withPath (snprintfAt state.path pack.offsetPack text)))
    (permits : ∀ state perm, inv state → inv (permit opers state perm).2)
    (plugs : ∀ state entry impid impdir, inv state → inv (setPlugCb opers state entry impid impdir))
    (state : State Closure) (start : inv state) : inv (permitAndPlug world opers pack state).2 :=
  permitAndPlug_rule world opers inv pack permits
    (forEachPlug_keeps world opers inv pack puts writes plugs) state start

end

theorem setupSecurity_alike (pack : Package) (state : State Closure) (placed : Placed pack state.path) :
    Alike pack.offsetRoot state.path (setupSecurity world opers pack state).2.path := by
  obtain ⟨path', alike, run⟩ := forEachEntry_visible pack { after := true } rfl rfl
    (setupSecurityFileCb opers) state (lt_of_le_of_lt (entryOffset_le pack _) placed.room)
  have tagged : Alike pack.offsetRoot state.path
      (pack.forEachEntry { after := true } (setupSecurityFileCb opers) state).2.path := by
    rw [run]
    exact alike.mono placed.root
  rw [setupSecurity_eq]
  simp only
  split
  · exact tagged
  · apply permitAndPlug_keeps world opers
      (fun state' : State Closure => Alike pack.offsetRoot state.path state'.path) pack _ _ _ _ _ tagged
    · intro state' rc kept
      rw [put_path]
      exact kept
    · intro state' text kept
      refine kept.trans ((snprintfAt_alike state'.path text pack.offsetPack (placed.alike kept).room).mono ?_)
      exact placed.root.trans (entryOffset_le pack {})
    · intro state' perm kept
      exact kept
    · intro state' entry impid impdir kept
      rw [setPlugCb, put_path]
      exact kept

theorem processUnits_path (pack : Package) (state : State Closure) :
    (processUnits world opers pack state).2.path = state.path := by
  unfold processUnits
  split <;> rfl

theorem installAfmpkg_alike (pack : Package) (state : State Closure) (placed : Placed pack state.path) :
    Meets (fun result => Alike pack.offsetRoot state.path result.2.path) (fun _ => True)
      (installAfmpkg world opers pack state) := by
  apply installAfmpkg_rule world opers pack state placed.room
  · exact fun _ _ _ => trivial
  · exact fun rc state' quiet _ => placed.quiet quiet
  · intro checked state' _ quiet _
    have security := (placed.quiet quiet).trans (setupSecurity_alike world opers pack state'
      (placed.alike (placed.quiet quiet)))
    unfold secureAndUnits
    simp only
    split
    · exact security
    · rw [processUnits_path]
      exact security

theorem session_alike (appid : Option Bytes) (pack : Package) (state : State Closure)
    (placed : Placed pack state.path) :
    Meets (fun result => Alike pack.offsetRoot state.path result.2.path) (fun _ => True)
      (session world opers appid .install pack state) := by
  simp only [session, ↓reduceIte]
  split
  · have processed := installAfmpkg_alike world opers pack
      (state.called (.begins appid) (opers.begins state.closure appid .install)).2 placed
    exact processed.bind fun result alike => alike
  · exact Alike.refl _ _

end AppManager.Install
