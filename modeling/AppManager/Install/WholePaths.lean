import AppManager.Install.Fitting

/-! The paths that are given to the operations. The mark of an entry has all its components,
and when the plugs of a package fit they are not cut. -/

namespace AppManager.Install
open AppManager.Lib AppManager.Lib.Libc AppManager.Utils

section
variable (world : World) (apkg : Description)

/-- The mark of an entry has all its components. It misses at most one slash. -/
def WholeTag (entry : Ref) (path : Bytes) : Prop :=
  (entry = [] ∧ path = cstr (stripped apkg.root)) ∨
  ∃ above name rest, ∃ separator ∈ [[], [slash]], entry = above ++ [name] ++ rest ∧
    path = cstr (packagePath apkg above ++ (separator ++ name ++ slashed rest))

/-- The directories of a plug of some package are whole, after what stands in the buffer. -/
def WholePlug (exportdir : Bytes) (importid : Option Bytes) (importdir : Bytes) : Prop :=
  ∃ root ∈ (detectPackageRoots apkg.files).2, ∃ manifest name value, readAt world apkg.root root = .ok manifest ∧
    PlugOf manifest name value ∧ importid = value.getString world.serialize ∧
    importdir = importPath world (cstr (stripped apkg.root)) value ∧
    ∃ lead : Bytes, lead.length = (packagePath apkg root.1).length ∧
      exportdir = cstr (lead ++ exportText world name)

def Call.Whole : Call → Prop
  | .tagfile entry path _ _ => WholeTag apkg entry path
  | .setplug exportdir importid importdir _ => WholePlug world apkg exportdir importid importdir
  | _ => True

/-- The calls so far are whole, and the path buffer starts as it did. -/
structure Told {Closure : Type} (offset : Nat) (path : Bytes) (state : State Closure) : Prop where
  calls : ∀ call ∈ state.calls, call.Whole world apkg
  path : Alike offset path state.path

namespace Told
variable {Closure : Type} {world apkg} {offset : Nat} {path : Bytes} {state : State Closure}

theorem put (told : Told world apkg offset path state) (rc : Int) : Told world apkg offset path (state.put rc) :=
  ⟨by rw [(put_rc state rc).2]; exact told.calls, by rw [put_path]; exact told.path⟩

theorem called (told : Told world apkg offset path state) (call : Int → Call) (answer : Int × Closure)
    (whole : (call answer.1).Whole world apkg) : Told world apkg offset path (state.called call answer).2 := by
  refine ⟨fun other member => ?_, told.path⟩
  rcases List.mem_append.mp member with early | last
  · exact told.calls other early
  · rw [List.mem_singleton.mp last]
    exact whole

theorem quiet {state' : State Closure} (told : Told world apkg offset path state) {after : Nat}
    (quiet : Quiet after state state') (deeper : offset ≤ after) : Told world apkg offset path state' :=
  ⟨by rw [quiet.calls]; exact told.calls, told.path.trans (quiet.path.mono deeper)⟩

theorem mono {less : Nat} (told : Told world apkg offset path state) (smaller : less ≤ offset) :
    Told world apkg less path state := ⟨told.calls, told.path.mono smaller⟩

end Told
end

theorem snprintfAt_string {path : Bytes} (size : path.length = PATH_MAX) (offset : Nat) (text : Bytes)
    (fits : offset + text.length < PATH_MAX) :
    cstr (snprintfAt path offset text) = cstr (path.take offset ++ text) := by
  have whole : text.take (path.length - offset - 1) = text := List.take_of_length_le (by rw [size]; omega)
  rw [snprintfAt, whole, store]
  simp only [List.append_assoc, List.singleton_append]
  rw [← List.append_assoc, cstr_append_nul]

section
variable {Closure : Type} (world : World) (opers : Operations Closure) (apkg : Description)

/-- What is known of the package that a session is for. -/
structure InSession (root : Ref × Marker) (manifest : Json) (pack : Package) (path : Bytes) : Prop where
  known : root ∈ (detectPackageRoots apkg.files).2
  read : readAt world apkg.root root = .ok manifest
  metadata : WithMetadata manifest pack.manifest
  inTree : ∃ tree : PathTree, pack.packdir ∈ tree.root.entries
  wf : pack.packdir.children.WellFormed
  located : ∃ above, pack.packdir.ref = root.1 ∧ root.1 = above ++ [pack.packdir.label.name] ∧
    pack.entryOffset { after := true } = (packagePath apkg above).length
  named : pack.packdir.label.name ≠ []
  offsetRoot : pack.offsetRoot = (stripped apkg.root).length
  offsetPack : pack.offsetPack = (packagePath apkg root.1).length
  room : PathFits apkg root.1
  holds : Holds (packagePath apkg root.1) path

variable {world apkg}
variable {root : Ref × Marker} {manifest : Json} {pack : Package} {path : Bytes}

theorem inSession_of {mode : Mode} {tree : PathTree} {packdir : PathEntry} {described : Described}
    (known : root ∈ (detectPackageRoots apkg.files).2) (found : descend root.1 tree.root = some packdir)
    (below : root.1 ≠ []) (room : PathFits apkg root.1) (read : readAt world apkg.root root = .ok manifest)
    (made : ∃ afids written, addMetaToManifest world apkg mode (stripped apkg.root).length
      (packagePath apkg root.1).length afids written manifest = .ok described)
    (holds : Holds (packagePath apkg root.1) path) :
    InSession world apkg root manifest ⟨packdir, (stripped apkg.root).length, (packagePath apkg root.1).length,
      described.manifest⟩ path := by
  obtain ⟨inside, located⟩ := (descend_root_iff tree root.1 packdir).mp found
  obtain ⟨above, last⟩ := ref_last tree packdir inside (by rw [located]; exact below)
  have offset := entryOffset_package apkg packdir above described.manifest
  rw [located] at last
  rw [← last] at offset
  obtain ⟨afids, written, added⟩ := made
  exact ⟨known, read, withMetadata_described world apkg mode added, ⟨tree, inside⟩,
    (entries_descend root.1 tree.root packdir tree.wf found).1, ⟨above, located, last, offset⟩,
    entry_named tree packdir inside (by rw [located]; exact below), rfl, rfl, room, holds⟩

theorem Entered.inSession {mode : Mode} {progress : Progress Closure} {tree : PathTree} {packdir : PathEntry}
    {described : Described} {state : State Closure} (known : root ∈ (detectPackageRoots apkg.files).2)
    (entered : Entered world apkg mode root progress tree packdir manifest described state) :
    InSession world apkg root manifest ⟨packdir, (stripped apkg.root).length, (packagePath apkg root.1).length,
      described.manifest⟩ state.path :=
  inSession_of known entered.found entered.below entered.room entered.read entered.described entered.holds

theorem InSession.inside (opened : InSession world apkg root manifest pack path) : pack.offsetPack < path.length := by
  rw [opened.holds.size, opened.offsetPack]
  exact opened.room

/-- The root is before the place where the marking of the package starts. -/
theorem InSession.rooted (opened : InSession world apkg root manifest pack path) :
    pack.offsetRoot ≤ pack.entryOffset { after := true } := by
  obtain ⟨above, -, -, offset⟩ := opened.located
  rw [opened.offsetRoot, offset, packagePath_length]
  omega

/-- The visits of a package are marked with whole paths. -/
theorem InSession.tag (opened : InSession world apkg root manifest pack path) (size : Nat) :
    ∀ visit ∈ (pack.tour { after := true } size).items,
      WholeTag apkg visit.entry.ref (cstr (path.take (pack.entryOffset { after := true }) ++ visit.path)) := by
  obtain ⟨above, located, last, offset⟩ := opened.located
  have holds := opened.holds
  rw [last] at holds
  intro visit toured
  have visited : visit ∈ visitsFrom { after := true } pack.packdir [] :=
    (tourFrom_visits { after := true } _ pack.packdir []).1.subset toured
  obtain ⟨rest, reached, shown⟩ := visitsFrom_path { after := true } rfl rfl pack.packdir opened.named opened.wf
    visit visited
  rw [located, last] at reached
  rw [offset, take_packagePath apkg holds, shown]
  refine Or.inr ⟨above, pack.packdir.label.name, rest, leading pack.packdir.label, ?_, reached, rfl⟩
  unfold leading
  split
  · simp
  · simp

theorem InSession.plugs (opened : InSession world apkg root manifest pack path) {name value : Json} :
    PlugOf pack.manifest name value ↔ PlugOf manifest name value := by
  unfold PlugOf
  rw [Json.itemsAt, opened.metadata.others _ (by decide) (by decide)]
  rfl

/-- The plugs of a package, when they fit. -/
theorem InSession.plug (opened : InSession world apkg root manifest pack path)
    (fits : ∀ name value, PlugOf manifest name value → PlugFits pack world apkg name value) (state : State Closure)
    (told : Told world apkg (pack.entryOffset { after := true }) path state) :
    Told world apkg (pack.entryOffset { after := true }) path (forEachPlug world pack (setPlugCb opers) state) := by
  apply forEachPlug_rule world opers (fun state' => Told world apkg (pack.entryOffset { after := true }) path state')
    pack (fun _ rc kept => kept.put rc) _ state told
  intro state' entry name value plug kept
  have known := opened.plugs.mp plug
  obtain ⟨short, small⟩ := fits name value known
  have size : state'.path.length = PATH_MAX := kept.path.size.trans opened.holds.size
  have inside : pack.offsetPack < state'.path.length := by rw [size]; omega
  have string := snprintfAt_string size pack.offsetPack (exportText world name) short
  have alike := snprintfAt_alike state'.path (exportText world name) pack.offsetPack inside
  -- the root is still at the start of the buffer
  have start : state'.path.take pack.offsetRoot = stripped apkg.root := by
    rw [(kept.path.mono opened.rooted).lead, opened.offsetRoot]
    have cut := congrArg (List.take (stripped apkg.root).length) opened.holds.starts
    rw [List.take_take, packagePath_length, Nat.min_eq_left (Nat.le_add_right _ _), packagePath, List.take_left]
      at cut
    exact cut
  have deeper : pack.offsetRoot ≤ pack.offsetPack := opened.rooted.trans (entryOffset_le pack _)
  have split : state'.path.take pack.offsetPack = stripped apkg.root ++
      (state'.path.take pack.offsetPack).drop pack.offsetRoot := by
    conv_lhs => rw [← List.take_append_drop pack.offsetRoot (state'.path.take pack.offsetPack)]
    rw [List.take_take, Nat.min_eq_left deeper, start]
  have cut : (cstr (snprintfAt state'.path pack.offsetPack (exportText world name))).take pack.offsetRoot =
      cstr (stripped apkg.root) := by
    rw [string, ← cstr_take, split, List.append_assoc, opened.offsetRoot, List.take_left]
  rw [cut, List.take_of_length_le small]
  have written : Told world apkg (pack.entryOffset { after := true }) path
      (state'.withPath (snprintfAt state'.path pack.offsetPack (exportText world name))) :=
    ⟨kept.calls, kept.path.trans (alike.mono (entryOffset_le pack _))⟩
  refine (written.called (.setplug _ _ _) _ ?_).put _
  refine ⟨root, opened.known, manifest, name, value, opened.read, known, rfl, rfl,
    state'.path.take pack.offsetPack, ?_, string⟩
  rw [List.length_take, ← opened.offsetPack]
  omega

theorem InSession.marking (opened : InSession world apkg root manifest pack path)
    (callback : State Closure → Bytes → PathEntry → Int × State Closure)
    (each : ∀ state name entry, WholeTag apkg entry.ref name →
      Told world apkg (pack.entryOffset { after := true }) path state →
        Told world apkg (pack.entryOffset { after := true }) path (callback state name entry).2)
    (state : State Closure) (told : Told world apkg (pack.entryOffset { after := true }) path state) :
    Told world apkg (pack.entryOffset { after := true }) path
      (pack.forEachEntry { after := true } callback state).2 := by
  have room : pack.entryOffset { after := true } < state.path.length := by
    rw [told.path.size]
    exact lt_of_le_of_lt (entryOffset_le pack _) opened.inside
  obtain ⟨path', alike, run⟩ := forEachEntry_visible pack { after := true } rfl rfl callback state room
  rw [run, told.path.lead]
  have toured : Told world apkg (pack.entryOffset { after := true }) path
      ((pack.tour { after := true } (state.path.length - pack.entryOffset { after := true })).run
        (onString callback (path.take (pack.entryOffset { after := true }))) (-ENAMETOOLONG) state).2 :=
    Tour.run_invariant _ told fun state' kept visit member =>
      each state' _ visit.entry (opened.tag _ visit member) kept
  exact ⟨toured.calls, told.path.trans alike⟩

theorem InSession.setupSecurity (opened : InSession world apkg root manifest pack path)
    (fits : ∀ name value, PlugOf manifest name value → PlugFits pack world apkg name value) (state : State Closure)
    (told : Told world apkg (pack.entryOffset { after := true }) path state) :
    Told world apkg (pack.entryOffset { after := true }) path (setupSecurity world opers pack state).2 := by
  have tagged := opened.marking (setupSecurityFileCb opers)
    (fun state' name entry whole kept => (kept.called (.tagfile entry.ref name _) _ whole).put _) state told
  rw [setupSecurity_eq]
  simp only
  split
  · exact tagged
  · exact permitAndPlug_rule world opers (fun state' => Told world apkg (pack.entryOffset { after := true }) path state')
      pack (fun state' perm kept => kept.called (.setperm perm) _ trivial) (opened.plug opers fits) _ tagged

theorem InSession.setdownSecurity (opened : InSession world apkg root manifest pack path)
    (fits : ∀ name value, PlugOf manifest name value → PlugFits pack world apkg name value) (state : State Closure)
    (told : Told world apkg (pack.entryOffset { after := true }) path state) :
    Told world apkg (pack.entryOffset { after := true }) path (setdownSecurity world opers pack state).2 :=
  opened.plug opers fits _ (opened.marking (setdownSecurityFileCb opers)
    (fun _ name entry whole kept => kept.called (.tagfile entry.ref name .Id) _ whole) state told)

theorem Told.units {offset : Nat} {state : State Closure} (told : Told world apkg offset path state) (pack : Package) :
    Told world apkg offset path (processUnits world opers pack state).2 := by
  unfold processUnits
  split
  · exact told
  · exact told
  · exact told.called (.setunits _) _ trivial

/-- What a session leaves: whole calls and, when it succeeds, entries that all fit. -/
structure Ended (world : World) (apkg : Description) (pack : Package) (path : Bytes) (result : Int × State Closure) :
    Prop where
  told : Told world apkg (pack.entryOffset { after := true }) path result.2
  answered : 0 ≤ result.1 → ∀ entry ∈ pack.packdir.entries, PathFits apkg entry.ref

theorem Ended.failed {rc : Int} {state : State Closure} (negative : rc < 0)
    (told : Told world apkg (pack.entryOffset { after := true }) path state) : Ended world apkg pack path (rc, state) :=
  ⟨told, fun positive => absurd positive (not_le.mpr negative)⟩

theorem InSession.unrefused (opened : InSession world apkg root manifest pack path) (checked : State Closure)
    (accepted : 0 ≤ (checkContents world pack checked).rc) (mode : Mode) :
    Unrefused { pack with manifest := manifest } mode := by
  obtain ⟨tree, inTree⟩ := opened.inTree
  have room : pack.offsetRoot < PATH_MAX := by
    have short := opened.room
    rw [PathFits, packagePath_length] at short
    rw [opened.offsetRoot]
    omega
  intro _ entry looked refused
  have known := (looked_described opened.metadata pack.packdir pack.offsetRoot pack.offsetPack entry).mpr looked
  exact absurd accepted (not_le.mpr (checkContents_refuses pack world inTree room known refused checked))

theorem InSession.install (opened : InSession world apkg root manifest pack path)
    (fits : PackFits { pack with manifest := manifest } world apkg .install) (state : State Closure)
    (same : state.path = path) (told : Told world apkg (pack.entryOffset { after := true }) path state) :
    Meets (Ended world apkg pack path)
      (NullRead fun state' => Told world apkg (pack.entryOffset { after := true }) path state')
      (installAfmpkg world opers pack state) := by
  apply installAfmpkg_rule world opers pack state (by rw [same]; exact opened.inside)
  · intro crashed null _
    exact null.mono fun state' quiet => told.quiet quiet (entryOffset_le pack _)
  · exact fun rc state' quiet negative => .failed negative (told.quiet quiet (entryOffset_le pack _))
  · intro checked state' accepted quiet _
    have fine := opened.unrefused checked accepted .install
    have secured := opened.setupSecurity opers (fits.plugs fine) state' (told.quiet quiet (entryOffset_le pack _))
    unfold secureAndUnits
    simp only
    split
    · exact ⟨secured, fun _ => fits.entries fine⟩
    · exact ⟨secured.units opers pack, fun _ => fits.entries fine⟩

theorem InSession.uninstall (opened : InSession world apkg root manifest pack path) {mode : Mode} (other : mode ≠ .install)
    (fits : PackFits { pack with manifest := manifest } world apkg mode) (state : State Closure)
    (told : Told world apkg (pack.entryOffset { after := true }) path state) :
    Ended world apkg pack path (uninstallAfmpkg world opers pack state) := by
  have fine : Unrefused { pack with manifest := manifest } mode := fun same => absurd same other
  have units := told.units opers pack
  unfold uninstallAfmpkg
  simp only
  split
  · exact ⟨units, fun _ => fits.entries fine⟩
  · exact ⟨opened.setdownSecurity opers (fits.plugs fine) _ units, fun _ => fits.entries fine⟩

theorem InSession.session (opened : InSession world apkg root manifest pack path) {mode : Mode}
    (fits : PackFits { pack with manifest := manifest } world apkg mode) (appid : Option Bytes) (state : State Closure)
    (same : state.path = path) (calls : ∀ call ∈ state.calls, call.Whole world apkg) :
    Meets (Ended world apkg pack path)
      (NullRead fun state' => Told world apkg (pack.entryOffset { after := true }) path state')
      (session world opers appid mode pack state) := by
  have told : Told world apkg (pack.entryOffset { after := true }) path state := ⟨calls, same ▸ Alike.refl _ _⟩
  have begun := told.called (.begins appid) (opers.begins state.closure appid mode) trivial
  -- the end of a session keeps what it is given
  have finish : ∀ result, Ended world apkg pack path result → Ended world apkg pack path
      (if (opers.ends result.2.closure result.1).1 < 0 then (opers.ends result.2.closure result.1).1 else result.1,
        (result.2.called (.ends result.1) (opers.ends result.2.closure result.1)).2) := by
    intro result ended
    refine ⟨ended.told.called (.ends result.1) _ trivial, fun positive => ended.answered ?_⟩
    by_contra negative
    exact absurd positive (not_le.mpr (endedCode_negative (not_le.mp negative)))
  unfold AppManager.Install.session
  simp only
  split
  · split
    · next install =>
      subst install
      exact (opened.install opers fits
        (state.called (.begins appid) (opers.begins state.closure appid .install)).2 same begun).bind finish
    · next other => exact finish _ (opened.uninstall opers other fits _ begun)
  · next negative => exact finish _ (.failed (not_le.mp negative) begun)

end
end AppManager.Install
