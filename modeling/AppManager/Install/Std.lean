import AppManager.Install.Sessions
import AppManager.Units.UnitOper

/-! The standard operations: units are written in their directory and security rules
are given to the security manager, which installs them at the end of the session. -/

namespace AppManager.Install
open AppManager.Lib AppManager.Lib.Libc AppManager.Utils AppManager.Units

inductive SlmCall where
  | create
  | setId (appid : Bytes)
  | addPath (path type : Bytes)
  | addPermission (permission : Bytes)
  | addPlug (exportdir : Bytes) (importid : Option Bytes) (importdir : Bytes)
  | uninstall
  deriving DecidableEq, Repr

/-- The answers of the security manager, each told by its rank, those of its
installations of rules apart, the outcomes of the changes of files, and the directory
of units. -/
structure Host where
  slm : SlmCall → Nat → Int
  slmInstall : Nat → Int
  outcomes : Outcomes
  unitsRoot : Bytes

/-- The closure of the standard operations, with the answers that were given to the
installations of rules. -/
structure StdState where
  mode : Mode
  connected : Bool
  disk : Disk
  asked : Nat
  installs : List Int

section
variable (host : Host)

def ask (call : SlmCall) (state : StdState) : Int × StdState :=
  (host.slm call state.asked, { state with asked := state.asked + 1 })

def stdBegin (state : StdState) (appid : Option Bytes) (mode : Mode) : Int × StdState :=
  let created := ask host .create state
  if created.1 < 0 then (created.1, { created.2 with mode := .nop })
  else match appid with
    | none => (created.1, { created.2 with connected := true, mode := mode })
    | some appid =>
      let named := ask host (.setId appid) { created.2 with connected := true }
      if named.1 < 0 then (named.1, { named.2 with connected := false, mode := .nop })
      else (named.1, { named.2 with mode := mode })

def stdTagfile (state : StdState) (path : Bytes) (type : PathType) : Int × StdState :=
  if type = .Unset then (-EINVAL, state)
  else ask host (.addPath path (pathTypeForSlm (if state.mode ≠ .install then .Id else type))) state

def stdSetperm (state : StdState) (permission : Bytes) : Int × StdState :=
  ask host (.addPermission permission) state

def stdSetplug (state : StdState) (exportdir : Bytes) (importid : Option Bytes) (importdir : Bytes) :
    Int × StdState :=
  ask host (.addPlug exportdir importid importdir) state

def stdSetunits (state : StdState) (units : List UnitDesc) : Int × StdState :=
  let result := if state.mode = .install then installUnits host.outcomes host.unitsRoot units state.disk
    else uninstallUnits host.outcomes host.unitsRoot units state.disk
  (result.1, { state with disk := result.2 })

/-- `sec_lsm_manager_install`, whose answer is kept. -/
def installRules (state : StdState) : Int × StdState :=
  let answer := host.slmInstall state.installs.length
  (answer, { state with installs := state.installs ++ [answer] })

def stdEnd (state : StdState) (status : Int) : Int × StdState :=
  if state.connected then
    let result := if status ≠ 0 then (status, state)
      else if state.mode = .install then installRules host state else ask host .uninstall state
    (result.1, { result.2 with connected := false })
  else (status, state)

def stdOperations : Operations StdState where
  begins := stdBegin host
  tagfile := stdTagfile host
  setperm := stdSetperm host
  setplug := stdSetplug host
  setunits := stdSetunits host
  ends := stdEnd host

def stdStart (files : Bytes → Option Node) : StdState := ⟨.nop, false, ⟨files, 0, []⟩, 0, []⟩

def afmpkgStdInstall (world : World) (apkg : Description) (files : Bytes → Option Node) :
    Run StdState (Int × State StdState) :=
  afmpkgInstall world (stdOperations host) apkg (stdStart files)

def afmpkgStdUninstall (world : World) (apkg : Description) (files : Bytes → Option Node) :
    Run StdState (Int × State StdState) :=
  afmpkgUninstall world (stdOperations host) apkg (stdStart files)

end

section
variable {Closure : Type} (world : World) (opers : Operations Closure)

theorem setupSecurity_closure (inv : Closure → Prop)
    (tags : ∀ closure path type, inv closure → inv (opers.tagfile closure path type).2)
    (permits : ∀ closure permission, inv closure → inv (opers.setperm closure permission).2)
    (plugs : ∀ closure exportdir importid importdir, inv closure →
      inv (opers.setplug closure exportdir importid importdir).2) (pack : Package) (state : State Closure)
    (room : pack.entryOffset { after := true } < state.path.length) (start : inv state.closure) :
    inv (setupSecurity world opers pack state).2.closure := by
  have put : ∀ (state : State Closure) (rc : Int), (state.put rc).closure = state.closure := by
    intro state rc
    unfold State.put
    split <;> rfl
  obtain ⟨path', -, run⟩ := forEachEntry_visible pack { after := true } rfl rfl
    (setupSecurityFileCb opers) state room
  have tagged : inv (pack.forEachEntry { after := true } (setupSecurityFileCb opers) state).2.closure := by
    rw [run]
    apply Tour.run_invariant (fun state' : State Closure => inv state'.closure) start
    intro state' kept visit _
    simp only [onString, setupSecurityFileCb, put]
    exact tags _ _ _ kept
  rw [setupSecurity_eq]
  simp only
  split
  · exact tagged
  · apply permitAndPlug_keeps world opers (fun state' : State Closure => inv state'.closure) pack _ _ _ _ _ tagged
    · intro state' rc kept
      rw [put]
      exact kept
    · intro state' text kept
      exact kept
    · intro state' perm kept
      exact permits _ _ kept
    · intro state' entry impid impdir kept
      rw [setPlugCb, put]
      exact plugs _ _ _ _ kept

theorem installAfmpkg_closure (inv : Closure → Prop)
    (tags : ∀ closure path type, inv closure → inv (opers.tagfile closure path type).2)
    (permits : ∀ closure permission, inv closure → inv (opers.setperm closure permission).2)
    (plugs : ∀ closure exportdir importid importdir, inv closure →
      inv (opers.setplug closure exportdir importid importdir).2) (pack : Package) (state : State Closure)
    (room : pack.offsetPack < state.path.length) (start : inv state.closure) :
    Meets (fun result => inv result.2.closure ∨ ∃ before units, inv before ∧
        world.unitsOf pack.manifest = .ok units ∧ units ≠ [] ∧
        result.1 = (opers.setunits before units).1 ∧ result.2.closure = (opers.setunits before units).2)
      (fun crashed => inv crashed.state.closure) (installAfmpkg world opers pack state) := by
  apply installAfmpkg_rule world opers pack state room
  · intro crashed null _
    rw [null.state.closure]
    exact start
  · intro rc state' quiet _
    left
    rw [quiet.closure]
    exact start
  · intro _ state' _ quiet _
    have secured := setupSecurity_closure world opers inv tags permits plugs pack state'
      (by rw [quiet.path.size]; exact lt_of_le_of_lt (entryOffset_le pack _) room)
      (by rw [quiet.closure]; exact start)
    unfold secureAndUnits
    simp only
    split
    · exact Or.inl secured
    · unfold processUnits
      split
      · exact Or.inl secured
      · exact Or.inl secured
      · next units some made => exact Or.inr ⟨_, units, secured, made, some, rfl, rfl⟩

end

def Committed (state : StdState) : Prop := ∃ rc ∈ state.installs, 0 ≤ rc

/-- The files of units that were written are there if and only if the rules were
installed. -/
def Agrees (state : StdState) : Prop :=
  ∀ path ∈ state.disk.written, (state.disk.Present path ↔ Committed state)

instance (state : StdState) : Decidable (Committed state) :=
  inferInstanceAs (Decidable (∃ rc ∈ state.installs, 0 ≤ rc))

instance (state : StdState) : Decidable (Agrees state) :=
  inferInstanceAs (Decidable (∀ path ∈ state.disk.written, (state.disk.Present path ↔ Committed state)))

/-- The rules of a package that has units are accepted. -/
def RulesAccepted (host : Host) (world : World) : Prop :=
  ∀ manifest units, world.unitsOf manifest = .ok units → units ≠ [] → 0 ≤ host.slmInstall 0

structure Idle (state : StdState) : Prop where
  closed : state.connected = false
  unwritten : state.disk.written = []
  uninstalled : state.installs = []

/-- In a session, before the units. -/
structure Opened (state : StdState) : Prop where
  install : state.mode = .install
  connected : state.connected = true
  unwritten : state.disk.written = []
  uninstalled : state.installs = []

/-- After the session of a package. -/
structure Settled (rc : Int) (state : StdState) : Prop where
  agrees : Agrees state
  kept : 0 ≤ rc → state.disk.written = [] ∨ Committed state

theorem agrees_of_unwritten {state : StdState} (unwritten : state.disk.written = []) : Agrees state := by
  intro path member
  rw [unwritten] at member
  cases member

theorem settled_of_unwritten {state : StdState} (rc : Int) (unwritten : state.disk.written = []) :
    Settled rc state :=
  ⟨agrees_of_unwritten unwritten, fun _ => Or.inl unwritten⟩

section
variable (host : Host)

theorem stdBegin_idle {state : StdState} (idle : Idle state) (appid : Option Bytes) :
    (0 ≤ (stdBegin host state appid .install).1 ∧ Opened (stdBegin host state appid .install).2) ∨
    ((stdBegin host state appid .install).1 < 0 ∧ Idle (stdBegin host state appid .install).2) := by
  obtain ⟨closed, unwritten, uninstalled⟩ := idle
  unfold stdBegin
  simp only
  split
  · next refused => exact Or.inr ⟨refused, closed, unwritten, uninstalled⟩
  · next created =>
    split
    · exact Or.inl ⟨not_lt.mp created, rfl, rfl, unwritten, uninstalled⟩
    · split
      · next refused => exact Or.inr ⟨refused, rfl, unwritten, uninstalled⟩
      · next named => exact Or.inl ⟨not_lt.mp named, rfl, rfl, unwritten, uninstalled⟩

theorem stdTagfile_opened {state : StdState} (opened : Opened state) (path : Bytes) (type : PathType) :
    Opened (stdTagfile host state path type).2 := by
  obtain ⟨install, connected, unwritten, uninstalled⟩ := opened
  unfold stdTagfile
  split
  · exact ⟨install, connected, unwritten, uninstalled⟩
  · exact ⟨install, connected, unwritten, uninstalled⟩

theorem stdEnd_unwritten {state : StdState} (unwritten : state.disk.written = []) (status rc : Int) :
    Settled rc (stdEnd host state status).2 := by
  apply settled_of_unwritten
  unfold stdEnd installRules ask
  split
  · simp only
    split
    · exact unwritten
    · split
      · exact unwritten
      · exact unwritten
  · exact unwritten

theorem stdEnd_units (succeeds : host.outcomes.UnlinkSucceeds) (commits : 0 ≤ host.slmInstall 0)
    {state : StdState} (opened : Opened state) (units : List UnitDesc) :
    Settled (if (stdEnd host (stdSetunits host state units).2 (stdSetunits host state units).1).1 < 0 then
        (stdEnd host (stdSetunits host state units).2 (stdSetunits host state units).1).1
      else (stdSetunits host state units).1)
      (stdEnd host (stdSetunits host state units).2 (stdSetunits host state units).1).2 := by
  obtain ⟨install, connected, unwritten, uninstalled⟩ := opened
  have settles := installUnits_settles host.outcomes host.unitsRoot succeeds units state.disk unwritten
  have made : stdSetunits host state units =
      ((installUnits host.outcomes host.unitsRoot units state.disk).1,
        { state with disk := (installUnits host.outcomes host.unitsRoot units state.disk).2 }) := by
    simp only [stdSetunits, if_pos install]
  rw [made]
  generalize installUnits host.outcomes host.unitsRoot units state.disk = result at settles ⊢
  rcases settles with ⟨zero, kept⟩ | ⟨negative, gone⟩
  · have ended : stdEnd host { state with disk := result.2 } result.1 = (host.slmInstall 0,
        { state with disk := result.2, connected := false, installs := [host.slmInstall 0] }) := by
      simp [stdEnd, zero, connected, install, installRules, uninstalled]
    rw [ended]
    have committed : Committed
        { state with disk := result.2, connected := false, installs := [host.slmInstall 0] } :=
      ⟨host.slmInstall 0, by simp, commits⟩
    exact ⟨fun path member => ⟨fun _ => committed, fun _ => kept path member⟩, fun _ => Or.inr committed⟩
  · have ended : stdEnd host { state with disk := result.2 } result.1 =
        (result.1, { state with disk := result.2, connected := false }) := by
      have other : result.1 ≠ 0 := by omega
      simp [stdEnd, other, connected]
    rw [ended]
    refine ⟨fun path member => ⟨fun here => absurd here (gone path member), ?_⟩, ?_⟩
    · rintro ⟨rc, inside, -⟩
      change rc ∈ state.installs at inside
      rw [uninstalled] at inside
      cases inside
    · intro positive
      rw [if_pos negative] at positive
      omega

theorem session_settles (world : World) (succeeds : host.outcomes.UnlinkSucceeds)
    (commits : RulesAccepted host world) (appid : Option Bytes) (pack : Package)
    (state : State StdState) (room : pack.offsetPack < state.path.length) (idle : Idle state.closure) :
    Meets (fun result => Settled result.1 result.2.closure) (fun crashed => Agrees crashed.state.closure)
      (session world (stdOperations host) appid .install pack state) := by
  have begun := stdBegin_idle host idle appid
  have operation : (stdOperations host).begins state.closure appid .install =
    stdBegin host state.closure appid .install := rfl
  simp only [session, ↓reduceIte, operation]
  generalize stdBegin host state.closure appid .install = begin at begun ⊢
  rcases begun with ⟨fine, opened⟩ | ⟨negative, closed⟩
  · have processed := installAfmpkg_closure world (stdOperations host) Opened
      (fun closure path type opened => stdTagfile_opened host opened path type)
      (fun _ _ opened => ⟨opened.install, opened.connected, opened.unwritten, opened.uninstalled⟩)
      (fun _ _ _ _ opened => ⟨opened.install, opened.connected, opened.unwritten, opened.uninstalled⟩)
      pack (state.called (.begins appid) begin).2 room opened
    rw [if_pos (show 0 ≤ (state.called (.begins appid) begin).1 from fine)]
    refine (processed.mono (fun _ => id) fun crashed opened => agrees_of_unwritten opened.unwritten).bind ?_
    intro result reached
    rcases reached with opened | ⟨before, units, opened, made, some, code, after⟩
    · exact stdEnd_unwritten host opened.unwritten result.1 _
    · have settled := stdEnd_units host succeeds (commits _ units made some) opened units
      change result.1 = (stdSetunits host before units).1 at code
      change result.2.closure = (stdSetunits host before units).2 at after
      rw [← code, ← after] at settled
      exact settled
  · rw [if_neg (show ¬0 ≤ (state.called (.begins appid) begin).1 from not_le.mpr negative)]
    exact stdEnd_unwritten host closed.unwritten _ _

/-- Rules are asked for, and the files are as they were. -/
def Extends (before after : StdState) : Prop :=
  after.disk = before.disk ∧ before.installs <+: after.installs

theorem Extends.trans {before middle after : StdState} (first : Extends before middle)
    (second : Extends middle after) : Extends before after :=
  ⟨second.1.trans first.1, first.2.trans second.2⟩

theorem Extends.agrees {before after : StdState} {rc : Int} (further : Extends before after)
    (settled : Settled rc before) (fine : 0 ≤ rc) : Agrees after := by
  obtain ⟨disk, installs⟩ := further
  rcases settled.kept fine with unwritten | committed
  · exact agrees_of_unwritten (by rw [disk]; exact unwritten)
  · have later : Committed after := by
      obtain ⟨rc, member, positive⟩ := committed
      exact ⟨rc, installs.subset member, positive⟩
    intro path member
    rw [disk] at member ⊢
    exact (settled.agrees path member).trans ⟨fun _ => later, fun _ => committed⟩

theorem stdBegin_extends (state : StdState) (appid : Option Bytes) (mode : Mode) :
    Extends state (stdBegin host state appid mode).2 := by
  unfold stdBegin
  simp only
  split
  · exact ⟨rfl, List.prefix_refl _⟩
  · split
    · exact ⟨rfl, List.prefix_refl _⟩
    · split <;> exact ⟨rfl, List.prefix_refl _⟩

theorem stdTagfile_extends (state : StdState) (path : Bytes) (type : PathType) :
    Extends state (stdTagfile host state path type).2 := by
  unfold stdTagfile
  split <;> exact ⟨rfl, List.prefix_refl _⟩

theorem stdEnd_extends (state : StdState) (status : Int) : Extends state (stdEnd host state status).2 := by
  unfold stdEnd
  split
  · simp only
    split
    · exact ⟨rfl, List.prefix_refl _⟩
    · split
      · exact ⟨rfl, List.prefix_append _ _⟩
      · exact ⟨rfl, List.prefix_refl _⟩
  · exact ⟨rfl, List.prefix_refl _⟩

theorem processDefaultTree_extends (lead : Bytes) (tree : PathTree) (state : State StdState)
    (holds : Holds lead state.path) (short : lead.length < PATH_MAX) :
    Extends state.closure
      (processDefaultTree (stdOperations host) .install lead.length tree state).2.closure := by
  simp only [processDefaultTree, ne_eq, not_true_eq_false, ↓reduceIte]
  split
  · exact ⟨rfl, List.prefix_refl _⟩
  · have begun : Extends state.closure ((stdOperations host).begins state.closure none .install).2 :=
      stdBegin_extends host state.closure none .install
    generalize (stdOperations host).begins state.closure none .install = begin at begun ⊢
    split
    · obtain ⟨path', -, run⟩ := tagDefaultTree_eq (stdOperations host) tree
        (state.called (.begins none) begin).2 holds short
      have tagged : Extends state.closure (tagDefaultTree (stdOperations host) lead.length tree
          (state.called (.begins none) begin).2).2.closure := by
        rw [run]
        apply Tour.run_invariant (fun state' : State StdState => Extends state.closure state'.closure) begun
        intro state' further visit _
        exact further.trans (stdTagfile_extends host _ _ _)
      exact tagged.trans (stdEnd_extends host _ _)
    · exact begun.trans (stdEnd_extends host _ _)

theorem processRootpkg_settles (world : World) (apkg : Description)
    (succeeds : host.outcomes.UnlinkSucceeds) (commits : RulesAccepted host world)
    (root : Ref × Marker) (progress : Progress StdState)
    (rooted : Holds (stripped apkg.root) progress.state.path) (idle : Idle progress.state.closure) :
    Meets (fun result => Settled result.1 result.2.state.closure ∧
        Holds (stripped apkg.root) result.2.state.path)
      (fun crashed => Agrees crashed.state.closure)
      (processRootpkg world (stdOperations host) apkg .install (stripped apkg.root).length root progress) := by
  apply processRootpkg_meets world (stdOperations host) apkg .install root progress rooted
  · intro crash state _ quiet
    apply agrees_of_unwritten
    rw [quiet.closure]
    exact idle.unwritten
  · intro tree rc state _ _ quiet
    refine ⟨settled_of_unwritten rc ?_, rooted.alike quiet.path le_rfl⟩
    simp only
    rw [quiet.closure]
    exact idle.unwritten
  · intro tree packdir manifest described state entered
    have placed := entered.placed
    refine ((session_settles host world succeeds commits _ _ state placed.room
      (by rw [entered.quiet.closure]; exact idle)).and
      (session_alike world (stdOperations host) _ _ state placed)).mono ?_ ?_
    · rintro result ⟨settled, alike⟩
      exact ⟨settled, rooted.alike (entered.quiet.path.trans alike) le_rfl⟩
    · intro crashed fault
      exact fault.1

end

def unitWorld : World :=
  { plainWorld (requiring (.string MANIFEST_VALUE_REQUIRED)) with unitsOf := fun _ => .ok [wantedUnit] }

/-- Everything is accepted, but for the rules at the end of sessions. -/
def hostWith (answer : Int) : Host :=
  ⟨fun _ _ => 0, fun _ => answer, ⟨id, fun _ => none, fun _ => true, fun _ => true, fun _ => true⟩, ascii "/units"⟩

end AppManager.Install
