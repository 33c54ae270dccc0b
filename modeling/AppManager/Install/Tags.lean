import AppManager.Install.PackageRoots
import AppManager.Install.Sessions

/-! The entries that the calls of an installation mark, each with the path that is given
for it, and the codes of the sessions. -/

namespace AppManager.Install
open AppManager.Lib AppManager.Lib.Libc AppManager.Utils AppManager.Units

def Call.tag : Call → Option (Ref × Bytes)
  | .tagfile entry path _ _ => some (entry, path)
  | _ => none

/-- The marked entries and their paths, in the order of the calls. -/
def tagsOf (calls : List Call) : List (Ref × Bytes) := calls.filterMap Call.tag

theorem tagsOf_append (first second : List Call) : tagsOf (first ++ second) = tagsOf first ++ tagsOf second :=
  List.filterMap_append

/-- The mark of a visited entry, after the start of the path buffer. -/
def visitTag (lead : Bytes) (visit : Visit) : Ref × Bytes := (visit.entry.ref, cstr (lead ++ visit.path))

def packTags (pack : Package) (path : Bytes) : List (Ref × Bytes) :=
  (pack.tour { after := true } (path.length - pack.entryOffset { after := true })).items.map
    (visitTag (path.take (pack.entryOffset { after := true })))

theorem packTags_alike (pack : Package) {path path' : Bytes} (alike : Alike pack.offsetPack path path') :
    packTags pack path' = packTags pack path := by
  unfold packTags
  rw [alike.size, (alike.mono (entryOffset_le pack { after := true })).lead]

section
variable {Closure : Type} (world : World) (opers : Operations Closure)

theorem tags_put (state : State Closure) (rc : Int) : tagsOf (state.put rc).calls = tagsOf state.calls := by
  rw [(put_rc state rc).2]

theorem tags_called (state : State Closure) (call : Int → Call) (answer : Int × Closure)
    (other : (call answer.1).tag = none) :
    tagsOf (state.called call answer).2.calls = tagsOf state.calls := by
  simp [State.called, tagsOf, other]

theorem iterate_tags (lead : Bytes) (visits : List Visit) (state : State Closure) :
    tagsOf (iterate (onString (setupSecurityFileCb opers) lead) visits state).2.calls =
      tagsOf state.calls ++ visits.map (visitTag lead) := by
  induction visits generalizing state with
  | nil => simp [iterate]
  | cons visit rest ih =>
    have zero : (onString (setupSecurityFileCb opers) lead state visit).1 = 0 := rfl
    have here : tagsOf (onString (setupSecurityFileCb opers) lead state visit).2.calls =
        tagsOf state.calls ++ [visitTag lead visit] := by
      simp only [onString, setupSecurityFileCb]
      rw [tags_put, State.called, tagsOf_append]
      rfl
    rw [iterate, if_pos zero, ih, here, List.append_assoc, List.map_cons, List.singleton_append]

theorem setupSecurity_tags (pack : Package) (state : State Closure)
    (room : pack.entryOffset { after := true } < state.path.length) :
    tagsOf (setupSecurity world opers pack state).2.calls = tagsOf state.calls ++ packTags pack state.path := by
  obtain ⟨path', -, run⟩ := forEachEntry_visible pack { after := true } rfl rfl
    (setupSecurityFileCb opers) state room
  have tagged : tagsOf (pack.forEachEntry { after := true } (setupSecurityFileCb opers) state).2.calls =
      tagsOf state.calls ++ packTags pack state.path := by
    rw [run]
    simp only [State.withPath, Tour.run]
    split
    · exact iterate_tags opers _ _ state
    · exact iterate_tags opers _ _ state
  rw [setupSecurity_eq]
  simp only
  split
  · exact tagged
  · apply permitAndPlug_keeps world opers
      (fun state' => tagsOf state'.calls = tagsOf state.calls ++ packTags pack state.path) pack _ _ _ _ _ tagged
    · intro state' rc kept
      rw [tags_put]
      exact kept
    · intro state' text kept
      exact kept
    · intro state' perm kept
      rw [permit, tags_called _ _ _ rfl]
      exact kept
    · intro state' entry impid impdir kept
      rw [setPlugCb, tags_put, tags_called _ _ _ rfl]
      exact kept

theorem put_nonpositive (state : State Closure) (rc : Int) (sign : state.rc ≤ 0) : (state.put rc).rc ≤ 0 := by
  unfold State.put
  split
  · next kept => exact kept.1.le
  · exact sign

theorem setupSecurity_code (pack : Package) (state : State Closure)
    (room : pack.entryOffset { after := true } < state.path.length) (sign : state.rc ≤ 0) :
    (setupSecurity world opers pack state).1 ≤ 0 := by
  obtain ⟨path', -, run⟩ := forEachEntry_visible pack { after := true } rfl rfl
    (setupSecurityFileCb opers) state room
  have tagged : (pack.forEachEntry { after := true } (setupSecurityFileCb opers) state).2.rc ≤ 0 := by
    rw [run]
    apply Tour.run_invariant (fun state' : State Closure => state'.rc ≤ 0) sign
    intro state' kept visit _
    exact put_nonpositive _ _ kept
  rw [setupSecurity_eq]
  generalize (pack.forEachEntry { after := true } (setupSecurityFileCb opers) state).2 = after at tagged ⊢
  simp only
  split
  · next negative => exact negative.le
  · have selected := untilNegative_keeps opers (fun state' : State Closure => state'.rc ≤ 0)
      (fun _ _ kept => kept) ((after.permset.permissions.filter
        (fun item => Permset.selects item .Requested_And_Granted)).map Permission.name) after tagged
    rw [← Permset.forSelected_first] at selected
    simp only [permitAndPlug]
    generalize Permset.forSelected (permit opers) .Requested_And_Granted
      (after.permset.selectFirst .Requested_And_Granted) after = granted at selected ⊢
    split
    · next negative => exact negative.le
    · have defaults := untilNegative_keeps opers (fun state' : State Closure => state'.rc ≤ 0)
        (fun _ _ kept => kept) defaultPermissions granted.2 selected
      generalize Permset.untilNegative (permit opers) defaultPermissions granted.2 = last at defaults ⊢
      split
      · next negative => exact negative.le
      · exact forEachPlug_keeps world opers (fun state' : State Closure => state'.rc ≤ 0) pack
          put_nonpositive (fun _ _ kept => kept) (fun _ _ _ _ kept => put_nonpositive _ _ kept) last.2 defaults

/-- What a package that is processed marks, with its code: all its entries, or none after
an early failure. -/
structure Marked (before : List (Ref × Bytes)) (own : List (Ref × Bytes)) (result : Int × State Closure) :
    Prop where
  code : result.1 ≤ 0
  tags : tagsOf result.2.calls = before ++ own ∨ (result.1 < 0 ∧ tagsOf result.2.calls = before)

theorem installAfmpkg_tags (units : ∀ closure units, (opers.setunits closure units).1 ≤ 0) (pack : Package)
    (state : State Closure) (room : pack.offsetPack < state.path.length) (sign : state.rc ≤ 0) :
    Meets (Marked (tagsOf state.calls) (packTags pack state.path))
      (NullRead fun state' => tagsOf state'.calls = tagsOf state.calls)
      (installAfmpkg world opers pack state) := by
  apply installAfmpkg_rule world opers pack state room
  · intro crashed null _
    exact null.mono fun state' quiet => by rw [quiet.calls]
  · intro rc state' quiet negative
    refine ⟨negative.le, Or.inr ⟨negative, ?_⟩⟩
    simp only
    rw [quiet.calls]
  · intro _ state' _ quiet _
    have smaller : pack.entryOffset { after := true } < state'.path.length := by
      rw [quiet.path.size]
      exact lt_of_le_of_lt (entryOffset_le pack _) room
    have tags := setupSecurity_tags world opers pack state' smaller
    have code := setupSecurity_code world opers pack state' smaller (quiet.sign sign)
    rw [quiet.calls, packTags_alike pack quiet.path] at tags
    unfold secureAndUnits
    simp only
    split
    · exact ⟨code, Or.inl tags⟩
    · unfold processUnits
      split
      · next rc _ => exact ⟨rc.property.le, Or.inl tags⟩
      · exact ⟨le_rfl, Or.inl tags⟩
      · refine ⟨units _ _, Or.inl ?_⟩
        rw [tags_called _ _ _ rfl]
        exact tags

theorem session_tags (units : ∀ closure units, (opers.setunits closure units).1 ≤ 0) (appid : Option Bytes)
    (pack : Package) (state : State Closure) (room : pack.offsetPack < state.path.length)
    (sign : state.rc ≤ 0) :
    Meets (Marked (tagsOf state.calls) (packTags pack state.path))
      (NullRead fun state' => tagsOf state'.calls = tagsOf state.calls)
      (session world opers appid .install pack state) := by
  simp only [session, ↓reduceIte]
  have begun := tags_called state (.begins appid) (opers.begins state.closure appid .install) rfl
  split
  · have processed := installAfmpkg_tags world opers units pack
      (state.called (.begins appid) (opers.begins state.closure appid .install)).2 room sign
    rw [begun] at processed
    refine processed.bind fun result marked => ?_
    have ended := tags_called result.2 (.ends result.1) (opers.ends result.2.closure result.1) rfl
    refine ⟨?_, ?_⟩
    · simp only
      split
      · next negative => exact negative.le
      · exact marked.code
    · simp only
      rw [ended]
      rcases marked.tags with all | ⟨negative, none⟩
      · exact Or.inl all
      · exact Or.inr ⟨endedCode_negative negative, none⟩
  · next failed =>
    have negative : (state.called (.begins appid) (opers.begins state.closure appid .install)).1 < 0 :=
      not_le.mp failed
    refine ⟨(endedCode_negative negative).le, Or.inr ⟨endedCode_negative negative, ?_⟩⟩
    simp only
    rw [tags_called _ _ _ rfl, begun]

end

theorem rootpkgsForEach_meets {Closure : Type} (world : World) (opers : Operations Closure) (apkg : Description)
    (mode : Mode) (offsetRoot : Nat) (inv : List (Ref × Marker) → Progress Closure → Prop)
    {good : Int × Progress Closure → Prop} {bad : Crashed Closure → Prop} (all : List (Ref × Marker))
    (each : ∀ done root later, all = done ++ root :: later → ∀ progress, inv done progress →
      Meets (fun result => if result.1 = 0 then inv (done ++ [root]) result.2 else good result) bad
        (processRootpkg world opers apkg mode offsetRoot root progress))
    (last : ∀ progress, inv all progress → good (0, progress)) (progress : Progress Closure)
    (start : inv [] progress) :
    Meets good bad (rootpkgsForEach world opers apkg mode offsetRoot all progress) := by
  have whole : ∀ (rest done : List (Ref × Marker)) (progress : Progress Closure), all = done ++ rest →
      inv done progress → Meets good bad (rootpkgsForEach world opers apkg mode offsetRoot rest progress) := by
    intro rest
    induction rest with
    | nil =>
      intro done progress parts kept
      rw [List.append_nil] at parts
      exact last progress (parts ▸ kept)
    | cons root later ih =>
      intro done progress parts kept
      unfold rootpkgsForEach
      refine (each done root later parts progress kept).bind fun result next => ?_
      split at next
      · next zero =>
        rw [if_pos zero]
        exact ih (done ++ [root]) result.2 (by rw [parts, List.append_assoc, List.singleton_append]) next
      · next other =>
        rw [if_neg other]
        exact next
  exact whole all [] progress rfl start

theorem searchRedpak_error (world : World) (offsetRoot : Nat) (marker path : Bytes) (lpa : Nat) (crash : Crash)
    (failed : searchRedpak world offsetRoot marker path lpa = .error crash) : crash = .overflow := by
  induction lpa using Nat.strong_induction_on generalizing path with
  | _ lpa ih =>
    unfold searchRedpak at failed
    split at failed
    · next above =>
      split at failed
      · next fits =>
        split at failed
        · cases failed
        · split at failed
          · next more =>
            have start := le_markerAt path marker lpa
            exact ih _ (trimName_lt offsetRoot path marker lpa (by omega) above more) _ failed
          · cases failed
      · exact (Except.error.inj failed).symm
    · cases failed

theorem getRedpakid_error (world : World) (apkg : Description) (offsetRoot : Nat) (path : Bytes) (crash : Crash)
    (failed : getRedpakid world apkg offsetRoot path = .error crash) : crash = .overflow := by
  unfold getRedpakid at failed
  split at failed
  · cases failed
  · split at failed
    · cases failed
    · exact searchRedpak_error world offsetRoot _ _ _ crash failed

end AppManager.Install
