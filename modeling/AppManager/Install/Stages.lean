import AppManager.Install.Process
import AppManager.Lib.Outcome

/-! What the stages of a package leave as it was. Those that check the manifest and
compute the types call no operation, and write in the path buffer only after the path of
the package. -/

namespace AppManager.Install
open AppManager.Lib AppManager.Lib.Libc AppManager.Utils

variable {Closure : Type}

def effective (flags : ForallFlags) : ForallFlags :=
  if !flags.before && !flags.after then { flags with after := true } else flags

/-- The visits that a traversal of the package gives to its callback. -/
def Package.tour (pack : Package) (flags : ForallFlags) (size : Nat) : Tour Visit :=
  tourFrom (effective flags) size pack.packdir []

theorem forEachInBuffer_eq {State : Type} (callback : State → Visit → Int × State) (flags : ForallFlags)
    (relative : flags.absolute = false) (root : PathEntry) (size : Nat) (state : State) :
    pathEntryForEachInBuffer callback flags root size state =
      (tourFrom (effective flags) size root []).run callback (-ENAMETOOLONG) state := by
  have used : (effective flags).absolute = false := by
    unfold effective
    split <;> exact relative
  unfold pathEntryForEachInBuffer
  change doForeach callback (effective flags) size root (if (effective flags).absolute &&
    !(effective flags).noPath then pathOf root.lineage else []) state = _
  rw [used, doForeach_eq]
  rfl

/-- Two buffers of the same size that start alike. -/
structure Alike (offset : Nat) (path path' : Bytes) : Prop where
  size : path'.length = path.length
  lead : path'.take offset = path.take offset

namespace Alike
variable {offset : Nat} {path path' path'' : Bytes}

theorem refl (offset : Nat) (path : Bytes) : Alike offset path path := ⟨rfl, rfl⟩

theorem trans (first : Alike offset path path') (second : Alike offset path' path'') :
    Alike offset path path'' := ⟨second.size.trans first.size, second.lead.trans first.lead⟩

theorem mono {less : Nat} (alike : Alike offset path path') (smaller : less ≤ offset) :
    Alike less path path' := by
  refine ⟨alike.size, ?_⟩
  have shorter := congrArg (List.take less) alike.lead
  rwa [List.take_take, List.take_take, Nat.min_eq_left smaller] at shorter

theorem store (path data : Bytes) (position : Nat) (after : offset ≤ position)
    (room : position + data.length ≤ path.length) : Alike offset path (store path position data) :=
  ⟨store_length path data position room, take_store path data position offset after (by omega)⟩

end Alike

/-- A traversal of the package runs its tour, with the start of the buffer as it was. -/
theorem forEachEntry_visible (pack : Package) (flags : ForallFlags) (visible : flags.noPath = false)
    (relative : flags.absolute = false)
    (callback : State Closure → Bytes → PathEntry → Int × State Closure) (state : State Closure)
    (room : pack.entryOffset flags < state.path.length) :
    ∃ path', Alike (pack.entryOffset flags) state.path path' ∧
      pack.forEachEntry flags callback state =
        (((pack.tour flags (state.path.length - pack.entryOffset flags)).run
            (onString callback (state.path.take (pack.entryOffset flags))) (-ENAMETOOLONG) state).1,
          ((pack.tour flags (state.path.length - pack.entryOffset flags)).run
            (onString callback (state.path.take (pack.entryOffset flags))) (-ENAMETOOLONG) state).2.withPath
              path') := by
  have size : (state.path.take (pack.entryOffset flags)).length = pack.entryOffset flags := by
    rw [List.length_take]
    omega
  have agrees := forEachIn_agrees callback flags visible relative pack.packdir
    (state.path.take (pack.entryOffset flags)) state.path state (by rw [size]) (by rw [size]; exact room)
  rw [size] at agrees
  rw [forEachInBuffer_eq _ _ relative] at agrees
  have starts := agrees.written.starts
  simp only [List.length_nil, Nat.add_zero, List.append_nil] at starts
  rw [size] at starts
  refine ⟨_, ⟨?_, starts⟩, ?_⟩
  · rw [agrees.written.total, size]
    omega
  · unfold Package.forEachEntry
    exact Prod.ext agrees.answer (congrArg (State.withPath · _) agrees.state)

theorem forEachEntry_hidden (pack : Package) (flags : ForallFlags) (hidden : flags.noPath = true)
    (relative : flags.absolute = false)
    (callback : State Closure → Bytes → PathEntry → Int × State Closure) (state : State Closure) :
    pack.forEachEntry flags callback state =
      (((pack.tour flags (state.path.length - pack.entryOffset flags)).run
          (fun state' visit => callback state' (cstr state.path) visit.entry) (-ENAMETOOLONG) state).1,
        ((pack.tour flags (state.path.length - pack.entryOffset flags)).run
          (fun state' visit => callback state' (cstr state.path) visit.entry) (-ENAMETOOLONG) state).2.withPath
            state.path) := by
  unfold Package.forEachEntry
  rw [forEachIn_noPath _ flags hidden, forEachInBuffer_eq _ _ relative]
  rfl

/-- The state after a stage that calls no operation. -/
structure Quiet (offset : Nat) (state state' : State Closure) : Prop where
  closure : state'.closure = state.closure
  calls : state'.calls = state.calls
  path : Alike offset state.path state'.path
  sign : state.rc ≤ 0 → state'.rc ≤ 0

namespace Quiet
variable {offset : Nat} {state state' state'' : State Closure}

theorem refl (offset : Nat) (state : State Closure) : Quiet offset state state :=
  ⟨rfl, rfl, Alike.refl _ _, id⟩

theorem trans (first : Quiet offset state state') (second : Quiet offset state' state'') :
    Quiet offset state state'' :=
  ⟨second.closure.trans first.closure, second.calls.trans first.calls, first.path.trans second.path,
    fun start => second.sign (first.sign start)⟩

theorem put (quiet : Quiet offset state state') (rc : Int) : Quiet offset state (state'.put rc) := by
  unfold State.put
  split
  · next kept => exact ⟨quiet.closure, quiet.calls, quiet.path, fun _ => kept.1.le⟩
  · exact quiet

theorem setType (quiet : Quiet offset state state') (entry : Ref) (type : PathType) :
    Quiet offset state (state'.setType entry type) :=
  ⟨quiet.closure, quiet.calls, quiet.path, quiet.sign⟩

theorem withPath (quiet : Quiet offset state state') {path : Bytes} (alike : Alike offset state.path path) :
    Quiet offset state (state'.withPath path) :=
  ⟨quiet.closure, quiet.calls, alike, quiet.sign⟩

end Quiet

/-- A condition that depends neither on the error nor on the types, nor on the path buffer
but for its size and its start. -/
structure Steady (offset : Nat) (path : Bytes) (inv : State Closure → Prop) : Prop where
  room : offset < path.length
  alike : ∀ state, inv state → Alike offset path state.path
  put : ∀ state rc, inv state → inv (state.put rc)
  reset : ∀ state, inv state → inv { state with rc := 0 }
  setType : ∀ state entry type, inv state → inv (state.setType entry type)
  withPath : ∀ state path', inv state → Alike offset path path' → inv (state.withPath path')

theorem Quiet.steady {offset : Nat} {state : State Closure} (room : offset < state.path.length) :
    Steady offset state.path (Quiet offset state) where
  room := room
  alike _ quiet := quiet.path
  put _ rc quiet := quiet.put rc
  reset _ quiet := ⟨quiet.closure, quiet.calls, quiet.path, fun _ => le_rfl⟩
  setType _ entry type quiet := quiet.setType entry type
  withPath _ _ quiet alike := quiet.withPath alike

section
variable {pack : Package} {path : Bytes} {inv : State Closure → Prop}

theorem Steady.inside {offset : Nat} (steady : Steady offset path inv) {state : State Closure} (kept : inv state) :
    offset < state.path.length := by
  rw [(steady.alike state kept).size]
  exact steady.room

theorem forEachContentEntry_keeps (steady : Steady pack.offsetPack path inv) (flags : ForallFlags)
    (visible : flags.noPath = false) (relative : flags.absolute = false)
    (callback : State Closure → Bytes → PathEntry → Int × State Closure)
    (keeps : ∀ state path entry, inv state → inv (callback state path entry).2) (state : State Closure)
    (start : inv state) : inv (pack.forEachContentEntry flags callback state).2 := by
  obtain ⟨path', alike, run⟩ := forEachEntry_visible pack { flags with silentRoot := true } visible relative
    callback state (steady.inside start)
  rw [Package.forEachContentEntry, run]
  refine steady.withPath _ _ (Tour.run_invariant inv start ?_) ((steady.alike state start).trans alike)
  intro state' kept visit _
  exact keeps state' _ visit.entry kept

theorem forEachEntry_hidden_keeps {offset : Nat} (steady : Steady offset path inv) (flags : ForallFlags)
    (hidden : flags.noPath = true) (relative : flags.absolute = false)
    (callback : State Closure → Bytes → PathEntry → Int × State Closure)
    (keeps : ∀ state path entry, inv state → inv (callback state path entry).2) (state : State Closure)
    (start : inv state) : inv (pack.forEachEntry flags callback state).2 := by
  rw [forEachEntry_hidden pack flags hidden relative callback state]
  refine steady.withPath _ _ (Tour.run_invariant inv start ?_) (steady.alike state start)
  intro state' kept visit _
  exact keeps state' _ visit.entry kept

end

theorem whenFine_meets {good : State Closure → Prop} {bad : Crashed Closure → Prop}
    {stage : State Closure → Run Closure (State Closure)} {state : State Closure} (start : good state)
    (meets : 0 ≤ state.rc → Meets good bad (stage state)) : Meets good bad (whenFine stage state) := by
  unfold whenFine
  split
  · next fine => exact meets fine
  · exact start

/-- A crash on a null value, in a state that earlier stages left. -/
structure NullRead (left : State Closure → Prop) (crashed : Crashed Closure) : Prop where
  crash : crashed.crash = .nullRead
  state : left crashed.state

theorem NullRead.mono {left left' : State Closure → Prop} {crashed : Crashed Closure}
    (null : NullRead left crashed) (wider : ∀ state, left state → left' state) : NullRead left' crashed :=
  ⟨null.crash, wider _ null.state⟩

variable (world : World)

def PermissionsGiven (jso : Json) : Prop :=
  ∀ member ∈ jso.membersAt MANIFEST_REQUIRED_PERMISSIONS, member.2.get MANIFEST_VALUE ≠ some .null

def SamePermset (state state' : State Closure) : Prop := state' = { state with permset := state'.permset }

theorem SamePermset.quiet {state state' : State Closure} (same : SamePermset state state') (offset : Nat) :
    Quiet offset state state' := by
  rw [same]
  exact ⟨rfl, rfl, Alike.refl _ _, id⟩

theorem SamePermset.trans {state state' state'' : State Closure} (first : SamePermset state state')
    (second : SamePermset state' state'') : SamePermset state state'' := by
  unfold SamePermset at *
  rw [second, first]

theorem checkOnePermissionCb_meets (state : State Closure) (jso : Json) :
    Meets (SamePermset state)
      (fun crashed => NullRead (· = state) crashed ∧ jso.get MANIFEST_VALUE = some .null)
      (checkOnePermissionCb world state jso) := by
  have self : SamePermset state state := rfl
  have requested : ∀ perm, SamePermset state (requestPermission state perm) := fun _ => rfl
  cases jso with
  | null => exact self
  | literal text => exact self
  | string text => exact requested _
  | array items => exact self
  | object members =>
    have accepted : SamePermset state (acceptPermission state (permissionName (.object members))) := by
      cases permissionName (.object members) with
      | none => exact self
      | some perm => exact requested perm
    simp only [checkOnePermissionCb]
    split
    · exact accepted
    · next value found =>
      split
      · next null =>
        rw [Json.getString_eq_none] at null
        exact ⟨⟨rfl, rfl⟩, by rw [found, null]⟩
      · split
        · exact accepted
        · exact self

theorem checkPermissionsCb_meets (state : State Closure) (jso : Json) :
    Meets (SamePermset state) (fun crashed => NullRead (SamePermset state) crashed ∧ ¬PermissionsGiven jso)
      (checkPermissionsCb world state jso) := by
  apply Meets.foldlM (show SamePermset state state from rfl)
  intro state' before member inside
  refine (checkOnePermissionCb_meets world state' member.2).mono (fun _ => before.trans) ?_
  intro crashed fault
  exact ⟨fault.1.mono fun _ same => by rw [same]; exact before, fun given => given member inside fault.2⟩

/-- The permissions of the manifest and of its targets have values. -/
def AllPermissionsGiven (pack : Package) : Prop :=
  PermissionsGiven pack.manifest ∧ ∀ target ∈ pack.targets, PermissionsGiven target

theorem checkPermissions_meets (pack : Package) (state : State Closure) :
    Meets (SamePermset state)
      (fun crashed => NullRead (SamePermset state) crashed ∧ ¬AllPermissionsGiven pack)
      (checkPermissions world pack state) := by
  have first : Meets (SamePermset state)
      (fun crashed => NullRead (SamePermset state) crashed ∧ ¬AllPermissionsGiven pack)
      (checkPermissionsCb world state pack.manifest) := by
    refine (checkPermissionsCb_meets world state pack.manifest).mono (fun _ => id) ?_
    intro crashed fault
    exact ⟨fault.1, fun given => fault.2 given.1⟩
  refine first.bind fun checked before => ?_
  apply Meets.foldlM before
  intro state' safe target inside
  refine (checkPermissionsCb_meets world state' target).mono (fun _ => safe.trans) ?_
  intro crashed fault
  exact ⟨fault.1.mono fun _ => safe.trans, fun given => fault.2 (given.2 target inside)⟩

theorem relpathAt_alike (pack : Package) (entry : PathEntry) (path : Bytes)
    (room : pack.offsetPack < path.length) :
    Alike pack.offsetPack path (relpathAt pack entry path).2 := by
  have size : (path.drop pack.offsetPack).length = path.length - pack.offsetPack := List.length_drop
  have written : (((pathEntryRelpath pack.packdir.lineage.length ⟨false, true⟩ entry.lineage
      (path.drop pack.offsetPack)).getD (0, path.drop pack.offsetPack)).2).length =
        (path.drop pack.offsetPack).length := by
    cases found : pathEntryRelpath pack.packdir.lineage.length ⟨false, true⟩ entry.lineage
        (path.drop pack.offsetPack) with
    | none => rfl
    | some result =>
      exact pathEntryRelpath_length _ _ _ _ result.2 result.1 (by rw [size]; omega) found
  exact Alike.store path _ _ le_rfl (by rw [written, size]; omega)

section
variable {pack : Package} {path : Bytes} {inv : State Closure → Prop} (steady : Steady pack.offsetPack path inv)
include steady

theorem checkInstalled_keeps (found : Option PathEntry) (allowed : FileKind → Bool) (state : State Closure)
    (start : inv state) : inv (checkInstalled world pack found allowed state).2 := by
  cases found with
  | none => exact start
  | some entry =>
    have written := steady.withPath state _ start
      ((steady.alike state start).trans (relpathAt_alike pack entry state.path (steady.inside start)))
    simp only [checkInstalled]
    split
    · exact written
    · split
      · exact written
      · exact written

theorem checkTargetContent_keeps (state : State Closure) (target : Json) (start : inv state) :
    inv (checkTargetContent world pack state target) := by
  unfold checkTargetContent
  split
  · split
    · split
      · exact steady.put _ _ (checkInstalled_keeps world steady _ _ state start)
      · exact steady.put _ _ start
    · exact steady.put _ _ start
  · exact steady.put _ _ start

theorem checkTargetConfig_keeps (state : State Closure) (target : Json) (start : inv state) :
    inv (checkTargetConfig world pack state target) := by
  unfold checkTargetConfig
  split
  · exact start
  · next configs _ =>
    apply List.foldlRecOn configs.optarrayItems (checkOneTargetConfigCb world pack) start
    intro state' kept jso _
    unfold checkOneTargetConfigCb
    split
    · exact steady.put _ _ (checkInstalled_keeps world steady _ _ state' kept)
    · exact steady.put _ _ kept

theorem checkContents_keeps (state : State Closure) (start : inv state) : inv (checkContents world pack state) := by
  apply List.foldlRecOn pack.targets (checkTargetCb world pack) start
  intro state' kept target _
  exact checkTargetConfig_keeps world steady _ target (checkTargetContent_keeps world steady state' target kept)

theorem computeNamedProperties_keeps (key : Bytes) (type : PathType) (items : List Json) (state : State Closure)
    (start : inv state) : inv (items.foldl (computeNamedProperty world pack key type) state) := by
  apply List.foldlRecOn items (computeNamedProperty world pack key type) start
  intro state' kept jso _
  unfold computeNamedProperty
  split
  · exact steady.put _ _ kept
  · split
    · exact steady.put _ _ kept
    · exact steady.setType _ _ _ kept

end

def PropertiesGiven (manifest : Json) : Prop :=
  ∀ item ∈ manifest.itemsAt MANIFEST_FILE_PROPERTIES, item.get (ascii "value") ≠ some .null

def TypesGiven (pack : Package) : Prop :=
  ∀ target ∈ pack.targets, ∀ content, target.get (ascii "content") = some content →
    content.get (ascii "type") ≠ some .null

section
variable {pack : Package} {path : Bytes} {inv : State Closure → Prop} (steady : Steady pack.offsetPack path inv)
include steady

theorem computeExplicitFilePropertiesCb_meets (state : State Closure) (start : inv state) (jso : Json) :
    Meets inv (fun crashed => NullRead inv crashed ∧ jso.get (ascii "value") = some .null)
      (computeExplicitFilePropertiesCb world pack state jso) := by
  unfold computeExplicitFilePropertiesCb
  split
  · next name value _ found =>
    split
    · exact steady.put _ _ start
    · split
      · next null =>
        rw [Json.getString_eq_none] at null
        exact ⟨⟨rfl, start⟩, by rw [found, null]⟩
      · simp only
        split
        · exact steady.put _ _ start
        · split
          · exact steady.setType _ _ _ start
          · split
            · exact steady.put _ _ start
            · exact start
  · exact steady.put _ _ start

theorem computeTargetFilePropertiesCb_meets (state : State Closure) (start : inv state) (jso : Json) :
    Meets inv (fun crashed => NullRead inv crashed ∧ ∃ content,
        jso.get (ascii "content") = some content ∧ content.get (ascii "type") = some .null)
      (computeTargetFilePropertiesCb world pack state jso) := by
  unfold computeTargetFilePropertiesCb
  split
  · exact start
  · next content located =>
    split
    · next src type _ found =>
      split
      · exact steady.put _ _ start
      · split
        · split
          · next null =>
            rw [Json.getString_eq_none] at null
            exact ⟨⟨rfl, start⟩, content, located, by rw [found, null]⟩
          · split
            · exact steady.setType _ _ _ start
            · exact start
        · exact start
    · exact start

theorem computeDefaultFilesPropertiesCb_keeps (state : State Closure) (name : Bytes) (entry : PathEntry)
    (start : inv state) : inv (computeDefaultFilesPropertiesCb world state name entry).2 := by
  unfold computeDefaultFilesPropertiesCb
  split
  · exact steady.put _ _ start
  · exact steady.put _ _ start
  · split
    · exact start
    · exact steady.setType _ _ _ start

theorem computePublicFilesPropertiesCb_keeps (state : State Closure) (name : Bytes) (entry : PathEntry)
    (start : inv state) : inv (computePublicFilesPropertiesCb pack state name entry).2 := by
  simp only [computePublicFilesPropertiesCb]
  split
  · exact start
  · split
    · split
      · exact steady.setType _ _ _ start
      · exact start
    · split
      · exact steady.setType _ _ _ start
      · exact start

theorem computeFilesProperties_keeps (state : State Closure) (start : inv state) :
    Meets inv (fun crashed => NullRead inv crashed ∧ ¬(PropertiesGiven pack.manifest ∧ TypesGiven pack))
      (computeFilesProperties world pack state) := by
  have begun : inv { state.setType pack.packdir.ref .Id with rc := 0 } :=
    steady.reset _ (steady.setType state _ _ start)
  unfold computeFilesProperties
  refine Meets.bind (whenFine_meets begun fun _ => ?_) fun state₁ kept₁ => ?_
  · exact forEachEntry_hidden_keeps steady _ rfl rfl _
      (fun state' _ entry kept => steady.setType state' entry.ref _ kept) _ begun
  refine Meets.bind (whenFine_meets kept₁ fun _ => ?_) fun state₂ kept₂ => ?_
  · exact computeNamedProperties_keeps world steady _ _ _ state₁ kept₁
  refine Meets.bind (whenFine_meets kept₂ fun _ => ?_) fun state₃ kept₃ => ?_
  · exact computeNamedProperties_keeps world steady _ _ _ state₂ kept₂
  refine Meets.bind (whenFine_meets kept₃ fun _ => Meets.foldlM kept₃ ?_) fun state₄ kept₄ => ?_
  · intro state' kept item inside
    refine (computeExplicitFilePropertiesCb_meets world steady state' kept item).mono (fun _ => id) ?_
    exact fun crashed fault => ⟨fault.1, fun given => given.1 item inside fault.2⟩
  refine Meets.bind (whenFine_meets kept₄ fun _ => Meets.foldlM kept₄ ?_) fun state₅ kept₅ => ?_
  · intro state' kept target inside
    refine (computeTargetFilePropertiesCb_meets world steady state' kept target).mono (fun _ => id) ?_
    rintro crashed ⟨null, content, located, type⟩
    exact ⟨null, fun given => given.2 target inside content located type⟩
  refine Meets.bind (whenFine_meets kept₅ fun _ => ?_) fun state₆ kept₆ => ?_
  · exact forEachContentEntry_keeps steady _ rfl rfl _
      (computeDefaultFilesPropertiesCb_keeps world steady) _ kept₅
  exact whenFine_meets kept₆ fun _ => forEachEntry_hidden_keeps steady _ rfl rfl _
    (computePublicFilesPropertiesCb_keeps steady) _ kept₆

theorem setupFilesProperties_keeps (state : State Closure) (start : inv state) :
    inv (setupFilesProperties world pack state) := by
  apply forEachContentEntry_keeps steady {} rfl rfl _ _ state start
  intro state' name entry kept
  simp only [setupFilePropertiesCb]
  split
  · exact steady.put _ _ kept
  · exact kept

end

end AppManager.Install
