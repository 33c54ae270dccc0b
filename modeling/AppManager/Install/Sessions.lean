import AppManager.Install.PackagePath

/-! The operations of an installation are called by sessions. A session whose
beginning or one of whose calls failed is told so at its end, and is the last one. -/

namespace AppManager.Install
open AppManager.Lib AppManager.Lib.Libc AppManager.Utils

variable {Closure : Type} (world : World) (opers : Operations Closure)

def Call.isInner : Call → Bool
  | .begins _ _ => false
  | .ends _ _ => false
  | _ => true

def Call.answer : Call → Int
  | .begins _ rc => rc
  | .tagfile _ _ _ rc => rc
  | .setperm _ rc => rc
  | .setplug _ _ _ rc => rc
  | .setunits _ rc => rc
  | .ends _ rc => rc

/-- Inner calls were made since then, and the code is negative if one of them failed. -/
def Tells (before : List Call) (rc : Int) (state : State Closure) : Prop :=
  ∃ inner, state.calls = before ++ inner ∧ (∀ call ∈ inner, call.isInner = true) ∧
    ((∃ call ∈ inner, call.answer < 0) → rc < 0)

namespace Tells
variable {before : List Call} {rc : Int} {state state' : State Closure}

theorem start (rc : Int) (state : State Closure) : Tells state.calls rc state :=
  ⟨[], by simp, by simp, by simp⟩

theorem same (tells : Tells before rc state) (calls : state'.calls = state.calls) {rc' : Int}
    (told : rc < 0 → rc' < 0) : Tells before rc' state' := by
  obtain ⟨inner, made, kind, failed⟩ := tells
  exact ⟨inner, calls.trans made, kind, fun some => told (failed some)⟩

/-- One more inner call, whose failure is told too. -/
theorem snoc (tells : Tells before rc state) {call : Call} (calls : state'.calls = state.calls ++ [call])
    (inner : call.isInner = true) {rc' : Int} (told : rc < 0 ∨ call.answer < 0 → rc' < 0) :
    Tells before rc' state' := by
  obtain ⟨made, early, kind, failed⟩ := tells
  refine ⟨made ++ [call], by rw [calls, early, List.append_assoc], ?_, ?_⟩
  · intro other member
    rcases List.mem_append.mp member with before | last
    · exact kind other before
    · rw [List.mem_singleton.mp last]
      exact inner
  · rintro ⟨other, member, negative⟩
    apply told
    rcases List.mem_append.mp member with before | last
    · exact Or.inl (failed ⟨other, before, negative⟩)
    · rw [List.mem_singleton.mp last] at negative
      exact Or.inr negative

theorem called (tells : Tells before rc state) (fine : 0 ≤ rc) (call : Int → Call) (answer : Int × Closure)
    (inside : ∀ rc, (call rc).isInner = true ∧ (call rc).answer = rc) :
    Tells before answer.1 (state.called call answer).2 := by
  apply tells.snoc rfl (inside _).1
  rw [(inside _).2]
  rintro (negative | negative)
  · exact absurd negative (not_lt.mpr fine)
  · exact negative

theorem calledPut (tells : Tells before state.rc state) (call : Int → Call) (answer : Int × Closure)
    (inside : ∀ rc, (call rc).isInner = true ∧ (call rc).answer = rc) :
    Tells before ((state.called call answer).2.put answer.1).rc ((state.called call answer).2.put answer.1) := by
  obtain ⟨sign, calls⟩ := put_rc (state.called call answer).2 answer.1
  apply tells.snoc calls (inside _).1
  rw [(inside _).2, sign]
  exact id

end Tells

theorem untilNegative_tells {before : List Call} (names : List Bytes) (state : State Closure) (rc : Int)
    (fine : 0 ≤ rc) (tells : Tells before rc state) :
    Tells before (Permset.untilNegative (permit opers) names state).1
      (Permset.untilNegative (permit opers) names state).2 := by
  induction names generalizing state rc with
  | nil => exact tells.same rfl (by omega)
  | cons name rest ih =>
    have next : Tells before (permit opers state name).1 (permit opers state name).2 :=
      tells.called fine (.setperm name) _ (fun _ => ⟨rfl, rfl⟩)
    unfold Permset.untilNegative
    split
    · exact next
    · next positive => exact ih _ _ (by omega) next

theorem setPlugCb_tells {before : List Call} (state : State Closure) (entry : PathEntry)
    (impid : Option Bytes) (impdir : Bytes) (tells : Tells before state.rc state) :
    Tells before (setPlugCb opers state entry impid impdir).rc (setPlugCb opers state entry impid impdir) :=
  tells.calledPut (.setplug _ _ _) _ (fun _ => ⟨rfl, rfl⟩)

theorem forEachPlug_tells {before : List Call} (pack : Package) (state : State Closure)
    (tells : Tells before state.rc state) :
    Tells before (forEachPlug world pack (setPlugCb opers) state).rc
      (forEachPlug world pack (setPlugCb opers) state) := by
  apply forEachPlug_keeps world opers (fun state' : State Closure => Tells before state'.rc state') pack _ _ _ _ tells
  · intro state' rc kept
    obtain ⟨sign, calls⟩ := put_rc state' rc
    exact kept.same calls fun negative => sign.mpr (Or.inl negative)
  · intro state' text kept
    exact kept.same rfl id
  · intro state' entry impid impdir kept
    exact setPlugCb_tells opers state' entry impid impdir kept

theorem setupSecurity_tells (pack : Package) (state : State Closure)
    (room : pack.entryOffset { after := true } < state.path.length) :
    Tells state.calls (setupSecurity world opers pack state).1 (setupSecurity world opers pack state).2 := by
  obtain ⟨path', -, run⟩ := forEachEntry_visible pack { after := true } rfl rfl
    (setupSecurityFileCb opers) state room
  have tagged : Tells state.calls
      (pack.forEachEntry { after := true } (setupSecurityFileCb opers) state).2.rc
      (pack.forEachEntry { after := true } (setupSecurityFileCb opers) state).2 := by
    rw [run]
    apply Tour.run_invariant (fun state' => Tells state.calls state'.rc state') (Tells.start _ state)
    intro state' tells visit _
    exact tells.calledPut (.tagfile _ _ _) _ (fun _ => ⟨rfl, rfl⟩)
  simp only [setupSecurity]
  generalize (pack.forEachEntry { after := true } (setupSecurityFileCb opers) state).2 = after at tagged ⊢
  split
  · exact tagged
  · next kept =>
    have selected := untilNegative_tells opers ((after.permset.permissions.filter
      (fun item => Permset.selects item .Requested_And_Granted)).map Permission.name) after after.rc
      (by omega) tagged
    rw [← Permset.forSelected_first] at selected
    generalize Permset.forSelected (permit opers) .Requested_And_Granted
      (after.permset.selectFirst .Requested_And_Granted) after = granted at selected ⊢
    split
    · exact selected
    · have defaults := untilNegative_tells opers defaultPermissions granted.2 granted.1 (by omega) selected
      generalize Permset.untilNegative (permit opers) defaultPermissions granted.2 = last at defaults ⊢
      split
      · exact defaults
      · exact forEachPlug_tells world opers pack last.2 (defaults.same rfl (by omega))

theorem processUnits_tells {before : List Call} (pack : Package) (state : State Closure) (rc : Int)
    (fine : 0 ≤ rc) (tells : Tells before rc state) :
    Tells before (processUnits world opers pack state).1 (processUnits world opers pack state).2 := by
  unfold processUnits
  split
  · exact tells.same rfl (by omega)
  · exact tells.same rfl (by omega)
  · exact tells.called fine (.setunits _) _ (fun _ => ⟨rfl, rfl⟩)

theorem installAfmpkg_meets (pack : Package) (state : State Closure)
    (room : pack.offsetPack < state.path.length) :
    Meets (fun result => Tells state.calls result.1 result.2)
      (fun crashed => crashed.state.calls = state.calls ∧ ¬Given pack.manifest)
      (installAfmpkg world opers pack state) := by
  apply installAfmpkg_rule world opers pack state room
  · intro crashed null fault
    exact ⟨null.state.calls, fault⟩
  · intro rc state' quiet _
    exact (Tells.start rc state).same quiet.calls id
  · intro _ state' _ quiet _
    have security := setupSecurity_tells world opers pack state'
      (by rw [quiet.path.size]; exact lt_of_le_of_lt (entryOffset_le pack _) room)
    rw [quiet.calls] at security
    unfold secureAndUnits
    simp only
    split
    · exact security
    · exact processUnits_tells world opers pack _ _ (by omega) security

/-- One session of operations, with its answers. -/
structure Session where
  appid : Option Bytes
  begun : Int
  inner : List Call
  status : Int
  ended : Int

namespace Session

def calls (session : Session) : List Call :=
  .begins session.appid session.begun :: session.inner ++ [.ends session.status session.ended]

/-- The beginning or an inner call answered an error. -/
def Failed (session : Session) : Prop := session.begun < 0 ∨ ∃ call ∈ session.inner, call.answer < 0

structure Proper (session : Session) : Prop where
  inner : ∀ call ∈ session.inner, call.isInner = true
  silent : session.begun < 0 → session.inner = []
  told : session.Failed → session.status < 0

end Session

/-- The calls are those of proper sessions, and only the last one can fail, when the
returned code is negative. -/
def Disciplined (calls : List Call) (rc : Int) : Prop :=
  ∃ sessions : List Session, calls = sessions.flatMap Session.calls ∧
    (∀ session ∈ sessions, session.Proper) ∧
    ∀ earlier session later, sessions = earlier ++ session :: later → session.Failed → later = [] ∧ rc < 0

namespace Disciplined
variable {calls : List Call} {rc : Int}

theorem start (rc : Int) : Disciplined [] rc := ⟨[], rfl, by simp, by simp⟩

/-- Without a negative code, no session failed. -/
theorem fine (disciplined : Disciplined calls rc) (positive : 0 ≤ rc) (rc' : Int) : Disciplined calls rc' := by
  obtain ⟨sessions, made, proper, last⟩ := disciplined
  refine ⟨sessions, made, proper, fun earlier session later parts failed => ?_⟩
  have negative := (last earlier session later parts failed).2
  omega

theorem andThen (disciplined : Disciplined calls 0) (session : Session) (proper : session.Proper)
    (told : session.Failed → rc < 0) : Disciplined (calls ++ session.calls) rc := by
  obtain ⟨sessions, made, all, last⟩ := disciplined
  refine ⟨sessions ++ [session], by rw [made]; simp, ?_, ?_⟩
  · intro other member
    rcases List.mem_append.mp member with early | here
    · exact all other early
    · rw [List.mem_singleton.mp here]
      exact proper
  · intro earlier other later parts failed
    rcases List.eq_nil_or_concat later with none | ⟨others, final, more⟩
    · refine ⟨none, ?_⟩
      rw [none] at parts
      have same := (List.append_inj' parts rfl).2
      rw [List.cons.injEq] at same
      rw [same.1] at told
      exact told failed
    · rw [more, List.concat_eq_append, ← List.cons_append, ← List.append_assoc] at parts
      have same := (List.append_inj' parts rfl).1
      have negative := (last earlier other others same failed).2
      omega

theorem not_single {call : Call} : ¬Disciplined [call] rc := by
  rintro ⟨sessions, made, -⟩
  cases sessions with
  | nil => simp at made
  | cons session rest => simp [Session.calls] at made

end Disciplined

theorem endedCode_negative {ended status : Int} (negative : status < 0) :
    (if ended < 0 then ended else status) < 0 := by
  split
  · assumption
  · exact negative

theorem session_meets (appid : Option Bytes) (pack : Package) (state : State Closure)
    (room : pack.offsetPack < state.path.length) :
    Meets (fun result => ∃ done : Session, done.Proper ∧ result.2.calls = state.calls ++ done.calls ∧
        (done.Failed → result.1 < 0)) (fun _ => ¬Given pack.manifest)
      (session world opers appid .install pack state) := by
  simp only [session, ↓reduceIte]
  generalize begun : opers.begins state.closure appid .install = begin
  split
  · next fine =>
    have processed := installAfmpkg_meets world opers pack (state.called (.begins appid) begin).2 room
    refine (processed.mono (fun _ => id) fun _ fault => fault.2).bind fun result tells => ?_
    obtain ⟨inner, made, kind, failed⟩ := tells
    generalize opers.ends result.2.closure result.1 = ended
    have told : (begin.1 < 0 ∨ ∃ call ∈ inner, call.answer < 0) → result.1 < 0 := by
      intro either
      rcases either with negative | some
      · change 0 ≤ begin.1 at fine
        omega
      · exact failed some
    refine ⟨⟨appid, begin.1, inner, result.1, ended.1⟩, ⟨kind, ?_, told⟩, ?_, ?_⟩
    · intro negative
      change 0 ≤ begin.1 at fine
      change begin.1 < 0 at negative
      omega
    · simp only [State.called, made, Session.calls, List.append_assoc, List.cons_append, List.nil_append]
    · exact fun wrong => endedCode_negative (told wrong)
  · next negative =>
    have below : begin.1 < 0 := not_le.mp negative
    refine ⟨⟨appid, begin.1, [], begin.1, (opers.ends begin.2 begin.1).1⟩,
      ⟨by simp, fun _ => rfl, fun _ => below⟩, ?_, fun _ => endedCode_negative below⟩
    simp [State.called, Session.calls]

/-- The item is a target with its metadata, or as it was. -/
def Completes (target item : Json) : Prop := item = target ∨ ∃ value, item = target.add (ascii "#metatarget") value

/-- The items are the targets with their metadata. -/
structure AllComplete (targets items : List Json) : Prop where
  known : ∀ item ∈ items, ∃ target ∈ targets, Completes target item
  all : ∀ target ∈ targets, ∃ item ∈ items, Completes target item

theorem AllComplete.cons {targets items : List Json} (rest : AllComplete targets items) {target item : Json}
    (completes : Completes target item) : AllComplete (target :: targets) (item :: items) := by
  refine ⟨fun item' member => ?_, fun target' member => ?_⟩
  · rcases List.mem_cons.mp member with same | later
    · exact ⟨target, by simp, same ▸ completes⟩
    · obtain ⟨other, inside, found⟩ := rest.known item' later
      exact ⟨other, List.mem_cons_of_mem _ inside, found⟩
  · rcases List.mem_cons.mp member with same | later
    · exact ⟨item, by simp, same ▸ completes⟩
    · obtain ⟨other, inside, found⟩ := rest.all target' later
      exact ⟨other, List.mem_cons_of_mem _ inside, found⟩

theorem allComplete_addMetaToTargets (mode : Mode) (targets : List Json) (afids : Nat) :
    AllComplete targets (addMetaToTargets world mode afids targets).2.2 := by
  induction targets generalizing afids with
  | nil => exact ⟨by simp [addMetaToTargets], by simp⟩
  | cons target rest ih =>
    unfold addMetaToTargets
    refine (ih _).cons ?_
    unfold addMetaToTarget
    simp only
    split
    · exact Or.inr ⟨_, rfl⟩
    · split
      · exact Or.inl rfl
      · exact Or.inr ⟨_, rfl⟩

/-- A manifest with its metadata is as it was at the other keys, but for those of its targets. -/
structure WithMetadata (manifest described : Json) : Prop where
  others : ∀ key, key ≠ ascii "#metadata" → key ≠ MANIFEST_TARGETS → described.get key = manifest.get key
  targets : AllComplete (manifest.itemsAt MANIFEST_TARGETS) (described.itemsAt MANIFEST_TARGETS)

theorem withMetadata_described (apkg : Description) (mode : Mode) {offsetRoot offsetPack afids : Nat}
    {path : Bytes} {manifest : Json} {described : Described}
    (made : addMetaToManifest world apkg mode offsetRoot offsetPack afids path manifest = .ok described) :
    WithMetadata manifest described.manifest := by
  obtain ⟨redpakid, -, rest⟩ := bind_ok made
  generalize metadataOf world apkg redpakid (installDir offsetRoot offsetPack path) = metadata at rest
  have apart : MANIFEST_TARGETS ≠ ascii "#metadata" := by decide
  have same := Json.get_add manifest (ascii "#metadata") MANIFEST_TARGETS metadata apart
  simp only at rest
  split at rest
  · next targets located =>
    obtain rfl := Except.ok.inj rest
    refine ⟨fun key other different => ?_, ?_⟩
    · rw [Json.get_add _ _ _ _ different, Json.get_add _ _ _ _ other]
    · have before : manifest.itemsAt MANIFEST_TARGETS = targets := by
        rw [Json.itemsAt, ← same, located]
        rfl
      rw [before, Json.itemsAt, Json.get_add_same _ _ _ (Json.isObject_of_get located)]
      exact allComplete_addMetaToTargets world mode targets afids
  · obtain rfl := Except.ok.inj rest
    refine ⟨fun key other _ => Json.get_add _ _ _ _ other, ?_⟩
    rw [Json.itemsAt_add _ _ _ _ apart]
    exact ⟨fun item member => ⟨item, member, Or.inl rfl⟩, fun target member => ⟨target, member, Or.inl rfl⟩⟩

theorem Completes.get {target item : Json} (completes : Completes target item) {key : Bytes}
    (other : key ≠ ascii "#metatarget") : item.get key = target.get key := by
  rcases completes with same | ⟨value, same⟩
  · rw [same]
  · rw [same, Json.get_add _ _ _ _ other]

theorem given_described (apkg : Description) (mode : Mode) {offsetRoot offsetPack afids : Nat}
    {path : Bytes} {manifest : Json} {described : Described} (given : Given manifest)
    (made : addMetaToManifest world apkg mode offsetRoot offsetPack afids path manifest = .ok described) :
    Given described.manifest := by
  have whole := withMetadata_described world apkg mode made
  refine ⟨?_, ?_, ?_⟩
  · rw [PermissionsGiven, Json.membersAt, whole.others _ (by decide) (by decide)]
    exact given.permissions
  · intro item member
    obtain ⟨target, inside, completes⟩ := whole.targets.known item member
    rw [PermissionsGiven, Json.membersAt, completes.get (by decide)]
    exact given.targets target inside
  · rw [PropertiesGiven, Json.itemsAt, whole.others _ (by decide) (by decide)]
    exact given.properties

section
variable (apkg : Description)

/-- The manifests of the packages found in the files have no null value where it
would be compared. -/
def ManifestsGiven (roots : List (Ref × Marker)) : Prop :=
  ∀ root ∈ roots, ∀ manifest, readAt world apkg.root root = .ok manifest → Given manifest

theorem processRootpkg_disciplined (root : Ref × Marker) (progress : Progress Closure)
    (rooted : Holds (stripped apkg.root) progress.state.path)
    (disciplined : Disciplined progress.state.calls 0)
    (given : ∀ manifest, readAt world apkg.root root = .ok manifest → Given manifest) :
    Meets (fun result => Disciplined result.2.state.calls result.1 ∧
        Holds (stripped apkg.root) result.2.state.path)
      (fun crashed => Disciplined crashed.state.calls 0)
      (processRootpkg world opers apkg .install (stripped apkg.root).length root progress) := by
  apply processRootpkg_meets world opers apkg .install root progress rooted
  · intro crash state _ quiet
    rw [quiet.calls]
    exact disciplined
  · intro tree rc state _ _ quiet
    refine ⟨?_, rooted.alike quiet.path le_rfl⟩
    simp only
    rw [quiet.calls]
    exact disciplined.fine le_rfl rc
  · intro tree packdir manifest described state entered
    have placed := entered.placed
    have fine : Given described.manifest := by
      obtain ⟨afids, path, made⟩ := entered.described
      exact given_described world apkg .install (given manifest entered.read) made
    refine ((session_meets world opers _ _ state placed.room).and
      (session_alike world opers _ _ state placed)).mono ?_ ?_
    · rintro result ⟨⟨done, proper, made, told⟩, alike⟩
      refine ⟨?_, rooted.alike (entered.quiet.path.trans alike) le_rfl⟩
      simp only
      rw [made, entered.quiet.calls]
      exact disciplined.andThen done proper told
    · intro crashed fault
      exact absurd fine fault.1

theorem rootpkgsForEach_disciplined (roots : List (Ref × Marker)) (progress : Progress Closure)
    (rooted : Holds (stripped apkg.root) progress.state.path)
    (disciplined : Disciplined progress.state.calls 0) (given : ManifestsGiven world apkg roots) :
    Meets (fun result => Disciplined result.2.state.calls result.1 ∧
        Holds (stripped apkg.root) result.2.state.path)
      (fun crashed => Disciplined crashed.state.calls 0)
      (rootpkgsForEach world opers apkg .install (stripped apkg.root).length roots progress) := by
  induction roots generalizing progress with
  | nil => exact ⟨disciplined, rooted⟩
  | cons root rest ih =>
    have first := processRootpkg_disciplined world opers apkg root progress rooted disciplined
      (given root (by simp))
    refine first.bind fun result done => ?_
    split
    · next zero =>
      rw [zero] at done
      exact ih result.2 done.2 done.1 fun other member => given other (List.mem_cons_of_mem _ member)
    · exact done

end

theorem tagRun_tells {before : List Call} (lead : Bytes) (tour : Tour Visit) (state : State Closure)
    (tells : Tells before 0 state) :
    Tells before (tour.run (onString (processDefaultTreeAddCb opers) lead) (-ENAMETOOLONG) state).1
      (tour.run (onString (processDefaultTreeAddCb opers) lead) (-ENAMETOOLONG) state).2 := by
  have whole : ∀ (items : List Visit) (state : State Closure), Tells before 0 state →
      Tells before (iterate (onString (processDefaultTreeAddCb opers) lead) items state).1
        (iterate (onString (processDefaultTreeAddCb opers) lead) items state).2 := by
    intro items
    induction items with
    | nil => exact fun _ tells => tells
    | cons visit rest ih =>
      intro state tells
      have next : Tells before (onString (processDefaultTreeAddCb opers) lead state visit).1
          (onString (processDefaultTreeAddCb opers) lead state visit).2 :=
        tells.called le_rfl (.tagfile _ _ _) _ (fun _ => ⟨rfl, rfl⟩)
      unfold iterate
      split
      · next zero =>
        rw [zero] at next
        exact ih _ next
      · exact next
  have done := whole tour.items state tells
  simp only [Tour.run]
  split
  · next zero =>
    rw [zero] at done
    exact done.same rfl (by omega)
  · exact done

theorem tagDefaultTree_tells {lead : Bytes} (tree : PathTree) (state : State Closure)
    (holds : Holds lead state.path) (short : lead.length < PATH_MAX) :
    Tells state.calls (tagDefaultTree opers lead.length tree state).1
      (tagDefaultTree opers lead.length tree state).2 := by
  obtain ⟨path', -, run⟩ := tagDefaultTree_eq opers tree state holds short
  have tells := tagRun_tells opers lead (defaultTour tree (PATH_MAX - lead.length)) state (Tells.start 0 state)
  rw [run]
  exact tells.same rfl id

theorem processDefaultTree_disciplined (lead : Bytes) (tree : PathTree) (state : State Closure)
    (contract : ∀ closure status, status < 0 → (opers.ends closure status).1 = status)
    (holds : Holds lead state.path) (short : lead.length < PATH_MAX)
    (disciplined : Disciplined state.calls 0) :
    Disciplined (processDefaultTree opers .install lead.length tree state).2.calls
      (processDefaultTree opers .install lead.length tree state).1 := by
  simp only [processDefaultTree, ne_eq, not_true_eq_false, ↓reduceIte]
  split
  · exact disciplined.fine le_rfl _
  · generalize opers.begins state.closure none .install = begin
    split
    · next fine =>
      have tells := tagDefaultTree_tells opers tree (state.called (.begins none) begin).2 holds short
      generalize tagDefaultTree opers lead.length tree (state.called (.begins none) begin).2 = result at tells ⊢
      obtain ⟨inner, made, kind, failed⟩ := tells
      have positive : 0 ≤ begin.1 := fine
      have told : (begin.1 < 0 ∨ ∃ call ∈ inner, call.answer < 0) → result.1 < 0 := by
        intro either
        rcases either with negative | some
        · omega
        · exact failed some
      have calls : (result.2.called (.ends result.1) (opers.ends result.2.closure result.1)).2.calls =
          state.calls ++ Session.calls ⟨none, begin.1, inner, result.1,
            (opers.ends result.2.closure result.1).1⟩ := by
        simp only [State.called, made, Session.calls, List.append_assoc, List.cons_append, List.nil_append]
      rw [calls]
      refine disciplined.andThen _ ⟨kind, fun negative => absurd positive (not_le.mpr negative), told⟩ ?_
      intro wrong
      have negative := told wrong
      simp only [State.called]
      rw [contract _ _ negative]
      exact negative
    · next negative =>
      have below : begin.1 < 0 := not_le.mp negative
      have calls : ((state.called (.begins none) begin).2.called (.ends begin.1)
          (opers.ends begin.2 begin.1)).2.calls = state.calls ++
            Session.calls ⟨none, begin.1, [], begin.1, (opers.ends begin.2 begin.1).1⟩ := by
        simp [State.called, Session.calls]
      refine calls ▸ disciplined.andThen _ ⟨by simp, fun _ => rfl, fun _ => below⟩ ?_
      intro _
      exact (contract begin.2 begin.1 below).symm ▸ below

/-- A manifest that requires a permission, whose value can be null. -/
def requiring (value : Json) : Json :=
  .object [(MANIFEST_ID, .string (ascii "app")), (MANIFEST_REQUIRED_PERMISSIONS, .object
    [(ascii "perm", .object [(MANIFEST_NAME, .string (ascii "perm")), (MANIFEST_VALUE, value)])])]

theorem given_requiring : Given (requiring (.string MANIFEST_VALUE_REQUIRED)) := by
  have members : (requiring (.string MANIFEST_VALUE_REQUIRED)).membersAt MANIFEST_REQUIRED_PERMISSIONS =
    [(ascii "perm", .object [(MANIFEST_NAME, .string (ascii "perm")),
      (MANIFEST_VALUE, .string MANIFEST_VALUE_REQUIRED)])] := rfl
  have targets : (requiring (.string MANIFEST_VALUE_REQUIRED)).itemsAt MANIFEST_TARGETS = [] := rfl
  have properties : (requiring (.string MANIFEST_VALUE_REQUIRED)).itemsAt MANIFEST_FILE_PROPERTIES = [] := rfl
  refine ⟨?_, by simp [targets], by simp [PropertiesGiven, properties]⟩
  intro member inside
  rw [members, List.mem_singleton] at inside
  rw [inside]
  exact fun null => nomatch Option.some.inj null

theorem readAt_plainWorld {manifest other : Json} {root : Option Bytes} {item : Ref × Marker}
    (read : readAt (plainWorld manifest) root item = .ok other) : other = manifest := by
  unfold readAt access at read
  split at read
  · cases marker : item.2 <;> rw [marker] at read <;> exact (Except.ok.inj read).symm
  · cases read

end AppManager.Install
