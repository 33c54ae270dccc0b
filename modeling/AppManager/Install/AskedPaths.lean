import AppManager.Install.InstallDir
import AppManager.Install.Typing
import AppManager.Install.WholePaths
import AppManager.Utils.PathReads

/-! The paths that the system is asked about are those of entries of the request and of
markers of redpaks, and none is cut: the processing does the same whatever the system would
answer about other paths. -/

namespace AppManager.Install
open AppManager.Lib AppManager.Lib.Libc AppManager.Utils

/-- The same surroundings, with other answers about the kinds of files. -/
def World.asking (world : World) (fstatat : Bytes → Except Failure FileKind) : World :=
  { world with fstatat := fstatat }

/-- The path of an entry of the request, or of a marker in a directory above one, which is
ended by its slash. -/
inductive Askable (apkg : Description) : Bytes → Prop where
  | entry {ref : Ref} (known : ref ∈ treeRefs apkg.files) : Askable apkg (cstr (packagePath apkg ref))
  | marker {ref : Ref} {marker above : Bytes} (known : ref ∈ treeRefs apkg.files)
      (auto : apkg.redpakAuto = some marker) (inside : above <+: cstr (packagePath apkg ref) ++ [slash])
      (ended : above = [] ∨ above.getLast? = some slash) : Askable apkg (cstr (above ++ marker))

section
variable (world : World) (apkg : Description) {fstatat : Bytes → Except Failure FileKind}
  (same : ∀ path, Askable apkg path → fstatat path = world.fstatat path)
include same

theorem access_asking {path : Bytes} (askable : Askable apkg path) :
    access (world.asking fstatat).fstatat path = access world.fstatat path := by
  have answer : (world.asking fstatat).fstatat path = world.fstatat path := same path askable
  rw [access, access, answer]

/-- A position of the search of a redpak: what stands before it is a part of the directory. -/
structure Searching (offsetRoot : Nat) (directory path : Bytes) (lpa : Nat) : Prop where
  inside : lpa < path.length
  lead : path.take lpa <+: directory ++ [slash]
  ends : offsetRoot ≤ lpa → lpa = 0 ∨ path.getD (lpa - 1) 0 = slash ∨ path.take lpa = directory

omit same in
theorem Searching.ended {offsetRoot : Nat} {directory path : Bytes} {lpa : Nat}
    (searching : Searching offsetRoot directory path lpa) (above : offsetRoot ≤ lpa) :
    (endedBySlash path lpa).2.take (endedBySlash path lpa).1 <+: directory ++ [slash] ∧
      ((endedBySlash path lpa).2.take (endedBySlash path lpa).1 = [] ∨
        ((endedBySlash path lpa).2.take (endedBySlash path lpa).1).getLast? = some slash) := by
  have inside := searching.inside
  unfold endedBySlash
  split
  · next appended =>
    have written := take_store_end path [slash] lpa inside.le
    have whole : path.take lpa = directory := by
      rcases searching.ends above with start | slashed | whole
      · exact absurd start appended.1.ne'
      · exact absurd slashed appended.2
      · exact whole
    rw [whole, List.length_singleton] at written
    simp only [written]
    exact ⟨List.prefix_refl _, Or.inr List.getLast?_concat⟩
  · next ended =>
    refine ⟨searching.lead, ?_⟩
    cases lpa with
    | zero => exact Or.inl (List.take_zero)
    | succ last =>
      right
      have slashed : path.getD last 0 = slash := by
        by_contra other
        exact ended ⟨Nat.succ_pos last, other⟩
      have within : last < path.length := by omega
      rw [List.getD_eq_getElem?_getD, List.getElem?_eq_getElem within, Option.getD_some] at slashed
      rw [List.getLast?_take, if_neg (Nat.succ_ne_zero last), Nat.add_sub_cancel,
        List.getElem?_eq_getElem within, Option.some_or, slashed]

omit same in
theorem take_prefix_of {directory text : Bytes} {position stop : Nat}
    (lead : text.take position <+: directory) (before : stop ≤ position) : text.take stop <+: directory := by
  refine List.IsPrefix.trans ?_ lead
  have cut := List.take_prefix stop (text.take position)
  rwa [List.take_take, Nat.min_eq_left before] at cut

theorem searchRedpak_asking {ref : Ref} (known : ref ∈ treeRefs apkg.files) {marker : Bytes}
    (auto : apkg.redpakAuto = some marker) (offsetRoot : Nat) (path : Bytes) (lpa : Nat)
    (searching : Searching offsetRoot (cstr (packagePath apkg ref)) path lpa) :
    searchRedpak (world.asking fstatat) offsetRoot marker path lpa = searchRedpak world offsetRoot marker path lpa := by
  induction lpa using Nat.strong_induction_on generalizing path with
  | _ lpa ih =>
    conv_lhs => rw [searchRedpak]
    conv_rhs => rw [searchRedpak]
    by_cases above : offsetRoot ≤ lpa
    · rw [dif_pos above, dif_pos above]
      by_cases fits : (markerAt path marker lpa).1 + marker.length + 1 ≤ path.length
      · have start := le_markerAt path marker lpa
        have size := markerAt_length path marker lpa fits
        obtain ⟨inside, ended⟩ := searching.ended above
        have text : (endedBySlash path lpa).2.length = path.length := by
          unfold endedBySlash
          split
          · exact store_length _ _ _ (by have := searching.inside; rw [List.length_singleton]; omega)
          · rfl
        have position : (markerAt path marker lpa).1 = (endedBySlash path lpa).1 := rfl
        have looked : cstr (markerAt path marker lpa).2 =
            cstr ((endedBySlash path lpa).2.take (endedBySlash path lpa).1 ++ marker) := by
          rw [markerAt, store]
          simp only [List.append_assoc, List.singleton_append]
          rw [← List.append_assoc, cstr_append_nul]
        have lead : (markerAt path marker lpa).2.take (markerAt path marker lpa).1 <+:
            cstr (packagePath apkg ref) ++ [slash] := by
          rw [markerAt, take_store _ _ _ _ le_rfl (by rw [text]; omega)]
          exact inside
        rw [dif_pos fits, dif_pos fits, looked, access_asking world apkg same (.marker known auto inside ended)]
        by_cases more : offsetRoot < trimSlashes offsetRoot (markerAt path marker lpa).2
            (markerAt path marker lpa).1
        · have shorter := trimName_lt offsetRoot path marker lpa (by omega) above more
          rw [dif_pos more, dif_pos more]
          rw [ih _ shorter]
          refine ⟨by rw [size]; omega, take_prefix_of lead (by omega), fun inside => ?_⟩
          -- the name of the directory was left out, up to a slash
          cases stopped : trimName offsetRoot (markerAt path marker lpa).2
              (trimSlashes offsetRoot (markerAt path marker lpa).2 (markerAt path marker lpa).1) with
          | zero => exact Or.inl rfl
          | succ stop =>
            rw [stopped] at inside
            have ends := stepBack_stop offsetRoot (markerAt path marker lpa).2 (· != slash) _ stop stopped inside
            exact Or.inr (Or.inl (by simpa using ends))
        · rw [dif_neg more, dif_neg more]
      · rw [dif_neg fits, dif_neg fits]
    · rw [dif_neg above, dif_neg above]

theorem getRedpakid_asking {ref : Ref} (known : ref ∈ treeRefs apkg.files) (short : PathFits apkg ref)
    (offsetRoot : Nat) (path : Bytes) (string : cstr path = cstr (packagePath apkg ref)) :
    getRedpakid (world.asking fstatat) apkg offsetRoot path = getRedpakid world apkg offsetRoot path := by
  unfold getRedpakid
  split
  · rfl
  · split
    · rfl
    · next marker auto =>
      have copied : (cstr (packagePath apkg ref)).length < PATH_MAX := lt_of_le_of_lt (cstr_length_le _) short
      obtain ⟨size, starts⟩ := copy_spec world.memory _ copied
      have searching : Searching offsetRoot (cstr (packagePath apkg ref))
          (store world.memory.val 0 (cstr (packagePath apkg ref) ++ [0])) (cstr (packagePath apkg ref)).length :=
        ⟨by rw [size]; exact copied, by rw [starts]; exact List.prefix_append _ _, fun _ => Or.inr (Or.inr starts)⟩
      rw [string]
      exact searchRedpak_asking world apkg same known auto offsetRoot _ _ searching

omit same in
theorem addMetaToTargets_asking (mode : Mode) (targets : List Json) (afids : Nat) :
    addMetaToTargets (world.asking fstatat) mode afids targets = addMetaToTargets world mode afids targets := by
  induction targets generalizing afids with
  | nil => rfl
  | cons target rest ih =>
    have first : addMetaToTarget (world.asking fstatat) mode afids target = addMetaToTarget world mode afids target := rfl
    simp only [addMetaToTargets, first, ih]

theorem addMetaToManifest_asking (mode : Mode) {ref : Ref} (known : ref ∈ treeRefs apkg.files)
    (short : PathFits apkg ref) (below : ref ≠ []) {path : Bytes} (holds : Holds (packagePath apkg ref) path)
    (afids : Nat) (manifest : Json) :
    addMetaToManifest (world.asking fstatat) apkg mode (stripped apkg.root).length (packagePath apkg ref).length
        afids path manifest =
      addMetaToManifest world apkg mode (stripped apkg.root).length (packagePath apkg ref).length afids path
        manifest := by
  have deeper := packagePath_deeper apkg below
  have string := (holds_installDir holds deeper short).2
  have metadata : metadataOf (world.asking fstatat) = metadataOf world := rfl
  simp only [addMetaToManifest, getRedpakid_asking world apkg same known short _ _ string, metadata,
    addMetaToTargets_asking]

/-- The string in a path buffer is one that may be asked, or the system refuses it. -/
def Answerable (path : Bytes) : Prop := Askable apkg (cstr path) ∨ PATH_MAX ≤ (cstr path).length

theorem answerable_asking {path : Bytes} (answerable : Answerable apkg path) :
    access (world.asking fstatat).fstatat (cstr path) = access world.fstatat (cstr path) := by
  rcases answerable with askable | long
  · exact access_asking world apkg same askable
  · rw [access, access, if_neg (by omega), if_neg (by omega)]

end

section
variable {apkg : Description}

/-- What follows the path of the package in the path buffer is, after its slash, answerable. -/
structure Watched (apkg : Description) (lead path : Bytes) : Prop where
  holds : Holds lead path
  answerable : Answerable apkg (store path lead.length [slash])

theorem store_slash {lead tail path : Bytes} (shape : path = lead ++ slash :: tail) :
    store path lead.length [slash] = path := by
  rw [shape, store, List.take_left]
  simp

theorem answerable_clipped {ref : Ref} (known : ref ∈ treeRefs apkg.files) {lead text path : Bytes}
    (whole : packagePath apkg ref = lead ++ text) (room : lead.length < PATH_MAX) {rest : Bytes}
    (written : path = lead ++ (clipped (PATH_MAX - lead.length) text ++ rest)) (size : path.length = PATH_MAX) :
    Answerable apkg path := by
  by_cases fits : text.length < PATH_MAX - lead.length
  · have ended : clipped (PATH_MAX - lead.length) text = text ++ [0] := by
      rw [clipped, List.take_of_length_le]
      rw [List.length_append, List.length_singleton]
      exact fits
    have string : cstr path = cstr (packagePath apkg ref) := by
      rw [written, ended, whole, List.append_assoc, List.singleton_append, ← List.append_assoc, cstr_append_nul]
    exact Or.inl (string ▸ .entry known)
  · have cut : clipped (PATH_MAX - lead.length) text = text.take (PATH_MAX - lead.length) := by
      rw [clipped, List.take_append_of_le_length (not_lt.mp fits)]
    have full : path = (packagePath apkg ref).take PATH_MAX := by
      have length := congrArg List.length written
      rw [size, cut] at length
      simp only [List.length_append, List.length_take] at length
      have none : rest = [] := List.eq_nil_of_length_eq_zero (by omega)
      rw [written, cut, none, List.append_nil, whole, List.take_append, List.take_of_length_le room.le]
    have string : cstr path = (cstr (packagePath apkg ref)).take PATH_MAX := by rw [full, cstr_take]
    by_cases short : (cstr (packagePath apkg ref)).length < PATH_MAX
    · rw [List.take_of_length_le short.le] at string
      exact Or.inl (string ▸ .entry known)
    · right
      rw [string, List.length_take]
      omega

end

section
variable {Closure : Type} {world : World} {apkg : Description} {fstatat : Bytes → Except Failure FileKind}
  (same : ∀ path, Askable apkg path → fstatat path = world.fstatat path)
variable {root : Ref × Marker} {manifest : Json} {pack : Package} {start : Bytes}
  (opened : InSession world apkg root manifest pack start)
  (marks : ∀ entry ∈ pack.packdir.entries, entry.mark ∈ apkg.files.marks)
include opened marks

theorem InSession.watched {entry : PathEntry} (inside : ∃ names, descend names pack.packdir = some entry)
    {path : Bytes} (watched : Watched apkg (packagePath apkg root.1) path) :
    Answerable apkg (relpathAt pack entry path).2 ∧
      Watched apkg (packagePath apkg root.1) (relpathAt pack entry path).2 := by
  obtain ⟨names, found⟩ := inside
  obtain ⟨tree, inTree⟩ := opened.inTree
  have room : (packagePath apkg root.1).length < PATH_MAX := opened.room
  have offset := opened.offsetPack
  have holds := watched.holds
  have size : (relpathAt pack entry path).2.length = PATH_MAX :=
    (relpathAt_alike pack entry path (by rw [offset, holds.size]; exact room)).size.trans holds.size
  have lead : path.take pack.offsetPack = packagePath apkg root.1 := by rw [offset]; exact holds.starts
  -- a path that starts by the one of the package and a slash
  have finish : ∀ tail, (relpathAt pack entry path).2 = packagePath apkg root.1 ++ slash :: tail →
      Answerable apkg (relpathAt pack entry path).2 →
        Answerable apkg (relpathAt pack entry path).2 ∧
          Watched apkg (packagePath apkg root.1) (relpathAt pack entry path).2 := by
    intro tail shape answerable
    refine ⟨answerable, ⟨size, by rw [shape, List.take_left]⟩, ?_⟩
    rw [store_slash shape]
    exact answerable
  by_cases below : names = []
  · subst below
    obtain rfl : pack.packdir = entry := Option.some.inj found
    have whole := relpathAt_self pack opened.named holds.size (by rw [offset]; exact room)
    rw [lead] at whole
    have restored : (relpathAt pack pack.packdir path).2 = store path (packagePath apkg root.1).length [slash] := by
      rw [whole, store, holds.starts, offset, List.append_assoc]
      rfl
    exact finish _ whole (restored ▸ watched.answerable)
  · have whole := relpathAt_clipped pack inTree below found holds.size (by rw [offset]; exact room)
    rw [lead, offset] at whole
    obtain ⟨located, member⟩ := descend_sound names pack.packdir entry found
    obtain ⟨above, reference, -, -⟩ := opened.located
    have known : root.1 ++ names ∈ treeRefs apkg.files := by
      rw [mem_marks]
      exact ⟨entry.mark, marks entry member, by rw [← reference, ← located]; rfl⟩
    -- the path from the package starts with a slash
    obtain ⟨name, rest, rfl⟩ := List.exists_cons_of_ne_nil below
    obtain ⟨left, positive⟩ : ∃ left, PATH_MAX - (packagePath apkg root.1).length = left + 1 :=
      ⟨PATH_MAX - (packagePath apkg root.1).length - 1, by omega⟩
    have first := whole
    simp only [positive, slashed_cons, clipped, List.cons_append, List.take_succ_cons] at first
    exact finish _ first (answerable_clipped known (packagePath_append apkg root.1 _) room whole size)

include same

theorem InSession.checkInstalled_asking (found : Option PathEntry)
    (inside : ∀ entry, found = some entry → ∃ names, descend names pack.packdir = some entry)
    (allowed : FileKind → Bool) (state : State Closure) (watched : Watched apkg (packagePath apkg root.1) state.path) :
    checkInstalled (world.asking fstatat) pack found allowed state = checkInstalled world pack found allowed state ∧
      Watched apkg (packagePath apkg root.1) (checkInstalled world pack found allowed state).2.path := by
  cases found with
  | none => exact ⟨rfl, watched⟩
  | some entry =>
    obtain ⟨answerable, kept⟩ := opened.watched marks (inside entry rfl) watched
    simp only [checkInstalled, State.withPath, answerable_asking world apkg same answerable]
    refine ⟨trivial, ?_⟩
    split
    · exact kept
    · split
      · exact kept
      · exact kept

theorem InSession.checkTargetContent_asking (state : State Closure) (target : Json)
    (watched : Watched apkg (packagePath apkg root.1) state.path) :
    checkTargetContent (world.asking fstatat) pack state target = checkTargetContent world pack state target ∧
      Watched apkg (packagePath apkg root.1) (checkTargetContent world pack state target).path := by
  unfold checkTargetContent
  split
  · split
    · next src _ =>
      split
      · obtain ⟨alike, kept⟩ := opened.checkInstalled_asking same marks
          (findContent pack.packdir (cstr src)) (fun _ => findContent_descend) (· ≠ .other) state watched
        simp only [checkSrcTypeDefinition, alike, put_path, kept, and_self]
      · exact ⟨rfl, (put_path state _).symm ▸ watched⟩
    · exact ⟨rfl, (put_path state _).symm ▸ watched⟩
  · exact ⟨rfl, (put_path state _).symm ▸ watched⟩

theorem InSession.checkTargetConfig_asking (state : State Closure) (target : Json)
    (watched : Watched apkg (packagePath apkg root.1) state.path) :
    checkTargetConfig (world.asking fstatat) pack state target = checkTargetConfig world pack state target ∧
      Watched apkg (packagePath apkg root.1) (checkTargetConfig world pack state target).path := by
  unfold checkTargetConfig
  split
  · exact ⟨rfl, watched⟩
  · apply foldl_agree (fun state : State Closure => Watched apkg (packagePath apkg root.1) state.path) ?_ _ watched
    intro state' watched' jso _
    unfold checkOneTargetConfigCb
    split
    · next text _ =>
      obtain ⟨alike, kept⟩ := opened.checkInstalled_asking same marks
        (pathEntryGet pack.packdir (some (cstr text))) (fun _ => pathEntryGet_descend) (· = .regular)
        state' watched'
      simp only [checkConfigFile, alike, put_path, kept, and_self]
    · exact ⟨rfl, (put_path state' _).symm ▸ watched'⟩

theorem InSession.checkContents_asking (state : State Closure)
    (watched : Watched apkg (packagePath apkg root.1) state.path) :
    checkContents (world.asking fstatat) pack state = checkContents world pack state ∧
      Watched apkg (packagePath apkg root.1) (checkContents world pack state).path := by
  apply foldl_agree (fun state : State Closure => Watched apkg (packagePath apkg root.1) state.path) ?_ _ watched
  intro state' watched' target _
  obtain ⟨first, kept⟩ := opened.checkTargetContent_asking same marks state' target watched'
  obtain ⟨second, last⟩ := opened.checkTargetConfig_asking same marks _ target kept
  exact ⟨by rw [checkTargetCb, first, second, checkTargetCb], last⟩

variable {paths : List Bytes} (given : apkg.files = filesOf paths)
include given

omit same in
theorem InSession.visit_askable {visit : Visit}
    (visited : visit ∈ visitsBelow contents pack.packdir [] pack.packdir.children) :
    Askable apkg (cstr (packagePath apkg root.1 ++ visit.path)) := by
  obtain ⟨child, inside, rest, top, located, shown⟩ :=
    visitsBelow_top contents rfl pack.packdir pack.packdir.children opened.wf visit visited
  have mark := marks child (List.mem_append.mpr (Or.inl inside))
  obtain ⟨above, reference, last, -⟩ := opened.located
  have nested : 2 ≤ child.ref.length := by
    rw [top, reference, last, List.length_append, List.length_append]
    simp
  rw [given] at mark
  have slashed : child.label.slash = true := (slashes_filesOf paths).nested (labelAt_mark _ child mark) nested
  have entry : visit.entry ∈ pack.packdir.entries := by
    have map := List.mem_map_of_mem (f := Visit.entry) visited
    rw [(visitsBelow_before contents rfl rfl _ _ _).mem_iff] at map
    exact List.mem_append.mpr (Or.inl (List.mem_filter.mp map).1)
  have known : visit.entry.ref ∈ treeRefs apkg.files := by
    rw [mem_marks]
    exact ⟨visit.entry.mark, marks visit.entry entry, rfl⟩
  have whole : packagePath apkg root.1 ++ visit.path = packagePath apkg visit.entry.ref := by
    rw [located, top, reference, List.append_assoc, packagePath_append, shown, leading, if_pos slashed]
    rfl
  rw [whole]
  exact .entry known

theorem InSession.computeDefault_asking (state : State Closure) (holds : Holds (packagePath apkg root.1) state.path) :
    pack.forEachContentEntry { before := true } (computeDefaultFilesPropertiesCb (world.asking fstatat)) state =
      pack.forEachContentEntry { before := true } (computeDefaultFilesPropertiesCb world) state := by
  have room : (packagePath apkg root.1).length < state.path.length := by
    rw [holds.size]
    exact opened.room
  have alike : ∀ visit ∈ visitsBelow contents pack.packdir [] pack.packdir.children, ∀ state' : State Closure,
      onString (computeDefaultFilesPropertiesCb (world.asking fstatat)) (packagePath apkg root.1) state' visit =
        onString (computeDefaultFilesPropertiesCb world) (packagePath apkg root.1) state' visit := by
    intro visit visited state'
    have answer := access_asking world apkg same (opened.visit_askable marks given visited)
    simp only [onString, computeDefaultFilesPropertiesCb, answer]
  have walked := forEachIn_congr contents rfl rfl rfl pack.packdir state.path state holds.starts room alike
  rw [← opened.offsetPack] at walked
  unfold Package.forEachContentEntry Package.forEachEntry
  exact congrArg (fun result : Int × Bytes × State Closure => (result.1, result.2.2.withPath result.2.1)) walked

theorem InSession.computeFilesProperties_asking (state : State Closure)
    (holds : Holds (packagePath apkg root.1) state.path) :
    computeFilesProperties (world.asking fstatat) pack state = computeFilesProperties world pack state := by
  have stages : manifestStages (world.asking fstatat) pack (resetTypes pack state) =
      manifestStages world pack (resetTypes pack state) := rfl
  rw [computeFilesProperties_eq, computeFilesProperties_eq, stages]
  cases read : manifestStages world pack (resetTypes pack state) with
  | error crashed => rfl
  | ok state₅ =>
    by_cases fine : 0 ≤ state₅.rc
    · have path : state₅.path = state.path :=
        (manifestStages_types world pack _ _ read fine).1.path.trans (resetTypes_types pack opened.wf state).2.1
      have default := opened.computeDefault_asking same marks given state₅ (by rw [path]; exact holds)
      simp only [bind, Except.bind, whenFine, default]
    · simp only [bind, Except.bind, whenFine, if_neg fine]

theorem InSession.installAfmpkg_asking (opers : Operations Closure) (state : State Closure)
    (watched : Watched apkg (packagePath apkg root.1) state.path) :
    installAfmpkg (world.asking fstatat) opers pack state = installAfmpkg world opers pack state := by
  have permitted : checkPermissions (world.asking fstatat) pack { state with permset := Permset.create } =
      checkPermissions world pack { state with permset := Permset.create } := rfl
  have meets := checkPermissions_meets world pack { state with permset := Permset.create }
  unfold installAfmpkg
  rw [permitted]
  cases read : checkPermissions world pack { state with permset := Permset.create } with
  | error crashed => simp only [bind, Except.bind]
  | ok checked =>
    rw [read] at meets
    have permset : checked = { state with permset := checked.permset } := meets
    have path : checked.path = state.path := by rw [permset]
    obtain ⟨alike, kept⟩ := opened.checkContents_asking same marks checked (by rw [path]; exact watched)
    have computed := opened.computeFilesProperties_asking same marks given _ kept.holds
    simp only [bind, Except.bind, alike, computed]
    rfl

theorem InSession.session_asking (opers : Operations Closure) (appid : Option Bytes) (mode : Mode)
    (state : State Closure) (watched : Watched apkg (packagePath apkg root.1) state.path) :
    Install.session (world.asking fstatat) opers appid mode pack state =
      Install.session world opers appid mode pack state := by
  have installed := opened.installAfmpkg_asking same marks given opers
    (state.called (.begins appid) (opers.begins state.closure appid mode)).2 watched
  unfold AppManager.Install.session
  simp only [installed]
  rfl

end

theorem slashed_marker (type : Marker) : slashed type.ref = slash :: type.name := by
  cases type <;> decide

theorem marker_known {tree : PathTree} {root : Ref × Marker} (known : root ∈ (detectPackageRoots tree).2) :
    root.1 ++ root.2.ref ∈ treeRefs tree := by
  rw [detectPackageRoots_eq] at known
  obtain ⟨entry, member, detected⟩ := List.mem_filterMap.mp known
  obtain ⟨type, found, made⟩ := Option.map_eq_some_iff.mp detected
  have marked : (pathEntryGetLength entry type.name type.name.length).isSome = true := by
    unfold detectPackageRoot at found
    split at found
    · cases found
    · split at found
      · next manifest => exact Option.some.inj found ▸ manifest
      · split at found
        · next config => exact Option.some.inj found ▸ config
        · cases found
  rw [← made]
  exact (getLength_marker tree entry member type).mp marked

theorem getManifest_clipped (world : World) (type : Marker) {lead path : Bytes} (holds : Holds lead path)
    (room : lead.length < PATH_MAX) : (getManifest world lead.length type path).1 =
      lead ++ (clipped (PATH_MAX - lead.length) (slash :: type.name) ++
        List.replicate (PATH_MAX - (lead.length + 1) - type.name.length - 1) 0) := by
  rw [getManifest_path world type holds room]
  have next : PATH_MAX - lead.length = PATH_MAX - (lead.length + 1) + 1 := by omega
  rw [next]
  generalize PATH_MAX - (lead.length + 1) = left
  rw [clipped, List.cons_append, List.take_succ_cons, List.cons_append, List.take_append, List.append_assoc]
  congr 3
  cases left - type.name.length with
  | zero => simp
  | succ zeros => simp [List.replicate_succ]

section
variable {Closure : Type} (world : World) (apkg : Description)

theorem watched_manifest {root : Ref × Marker} (known : root ∈ (detectPackageRoots apkg.files).2)
    (below : root.1 ≠ []) (room : PathFits apkg root.1) {path : Bytes} (holds : Holds (packagePath apkg root.1) path) :
    Watched apkg (packagePath apkg root.1) (installDir (stripped apkg.root).length (packagePath apkg root.1).length
      (getManifest world (packagePath apkg root.1).length root.2 path).1) := by
  obtain ⟨kept, -⟩ := getManifest_spec world root.2 holds room
  have deeper := packagePath_deeper apkg below
  have written := getManifest_clipped world root.2 holds room
  have size := kept.size
  have shape := getManifest_path world root.2 holds room
  generalize (getManifest world (packagePath apkg root.1).length root.2 path).1 = text at kept written size shape
  refine ⟨(holds_installDir kept deeper room).1, ?_⟩
  have restored : store (installDir (stripped apkg.root).length (packagePath apkg root.1).length text)
      (packagePath apkg root.1).length [slash] = text := by
    rw [installDir, if_pos (by omega), shape]
    simp [store]
  rw [restored]
  refine answerable_clipped (marker_known known) ?_ room written size
  rw [packagePath_append, slashed_marker]

variable {fstatat : Bytes → Except Failure FileKind}
  (same : ∀ path, Askable apkg path → fstatat path = world.fstatat path)
  {paths : List Bytes} (given : apkg.files = filesOf paths) (opers : Operations Closure) (mode : Mode)
include same given

theorem processPackage_asking {root : Ref × Marker} (known : root ∈ (detectPackageRoots apkg.files).2)
    {tree : PathTree} {packdir : PathEntry} (found : descend root.1 tree.root = some packdir)
    (marks : ∀ entry ∈ packdir.entries, entry.mark ∈ apkg.files.marks) (below : root.1 ≠ [])
    (room : PathFits apkg root.1) (state : State Closure) (holds : Holds (packagePath apkg root.1) state.path) :
    processPackage (world.asking fstatat) opers apkg mode packdir (stripped apkg.root).length
        (packagePath apkg root.1).length root.2 state =
      processPackage world opers apkg mode packdir (stripped apkg.root).length (packagePath apkg root.1).length
        root.2 state := by
  obtain ⟨kept, read⟩ := getManifest_spec world root.2 holds room
  have watched := watched_manifest world apkg known below room holds
  have reads : getManifest (world.asking fstatat) (packagePath apkg root.1).length root.2 state.path =
      getManifest world (packagePath apkg root.1).length root.2 state.path := rfl
  have itself : packdir ∈ packdir.entries := by simp [PathEntry.entries]
  have entry : root.1 ∈ treeRefs apkg.files := by
    rw [mem_marks]
    exact ⟨packdir.mark, marks packdir itself, ((descend_root_iff tree root.1 packdir).mp found).2⟩
  unfold processPackage
  rw [reads]
  generalize getManifest world (packagePath apkg root.1).length root.2 state.path = text at kept read watched
  cases answer : text.2 with
  | error rc => simp only [answer]
  | ok manifest =>
    have described := addMetaToManifest_asking world apkg same mode entry room below kept state.afids manifest
    simp only [answer, State.withPath, described]
    cases made : addMetaToManifest world apkg mode (stripped apkg.root).length (packagePath apkg root.1).length
        state.afids text.1 manifest with
    | error crash => rfl
    | ok described =>
      obtain ⟨path, -⟩ := addMetaToManifest_described world apkg mode _ _ _ _ manifest described made
      rw [← path] at watched
      have manifest' : readAt world apkg.root root = .ok manifest := by rw [← answer, read]; rfl
      have placed : Holds (packagePath apkg root.1) described.path := by
        rw [path]
        exact (holds_installDir kept (packagePath_deeper apkg below) room).1
      have opened := inSession_of known found below room manifest' ⟨_, _, made⟩ placed
      simp only
      split
      · rfl
      · exact opened.session_asking same marks given opers _ mode
          { state with path := described.path, afids := described.afids } watched

theorem processRootpkg_asking {root : Ref × Marker} (known : root ∈ (detectPackageRoots apkg.files).2)
    (progress : Progress Closure) (rooted : Holds (stripped apkg.root) progress.state.path)
    (inside : ∀ tree packdir, progress.files = some tree → descend root.1 tree.root = some packdir →
      ∀ entry ∈ packdir.entries, entry.mark ∈ apkg.files.marks) :
    processRootpkg (world.asking fstatat) opers apkg mode (stripped apkg.root).length root progress =
      processRootpkg world opers apkg mode (stripped apkg.root).length root progress := by
  unfold processRootpkg
  cases files : progress.files with
  | none => rfl
  | some tree =>
    simp only [Option.bind_some]
    cases found : descend root.1 tree.root with
    | none => rfl
    | some packdir =>
      obtain ⟨member, located⟩ := (descend_root_iff tree root.1 packdir).mp found
      have names := slashedNames_entry tree packdir member
      rw [located] at names
      simp only [Option.map_some, relpath_forced, names, slashed_eq_nil]
      by_cases top : root.1 = []
      · rw [if_pos top]
      · rw [if_neg top]
        simp only
        split
        · rfl
        · next fits =>
          have holds := holds_packagePath rooted (slashed root.1) (by omega)
          rw [← packagePath_length] at holds fits ⊢
          rw [processPackage_asking world apkg same given opers mode known found (inside tree packdir files found)
            top (not_le.mp fits)]
          exact holds

end
end AppManager.Install
