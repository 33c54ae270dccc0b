import AppManager.Install.Installing
import AppManager.Utils.PathTours

/-! The path of a package in the path buffer, and how the processing of a package root
ends before its session or enters it. -/

namespace AppManager.Install
open AppManager.Lib AppManager.Lib.Libc AppManager.Utils

def slashedNames : List Label → Bytes
  | [] => []
  | entry :: above => if entry.name = [] then slashedNames above else slashedNames above ++ slash :: entry.name

theorem slashedNames_eq_nil (lineage : List Label) : slashedNames lineage = [] ↔ pathOf lineage = [] := by
  induction lineage with
  | nil => simp [slashedNames, pathOf]
  | cons entry above ih =>
    by_cases unnamed : entry.name = []
    · simp [slashedNames, pathOf, unnamed, ih]
    · by_cases top : pathOf above = []
      · simp [slashedNames, pathOf, unnamed, top]
      · simp [slashedNames, pathOf, unnamed, top]

/-- With a forced leading slash, the path of every entry but the root is written, as
far as the buffer allows. The root has no entry above it to name. -/
theorem relpath_forced (lineage : List Label) (buffer : Bytes) :
    pathEntryRelpath 0 ⟨false, true⟩ lineage buffer =
      if slashedNames lineage = [] then none
      else some ((slashedNames lineage).length,
        store buffer 0 (clipped buffer.length (slashedNames lineage))) := by
  induction lineage with
  | nil => simp [pathEntryRelpath, slashedNames]
  | cons entry above ih =>
    unfold pathEntryRelpath slashedNames
    rw [if_neg (Nat.succ_ne_zero above.length)]
    by_cases unnamed : entry.name = []
    · rw [if_pos unnamed, if_pos unnamed, ih]
    · have named : slashedNames above ++ slash :: entry.name ≠ [] := by simp
      rw [if_neg unnamed, if_neg unnamed, if_neg named]
      by_cases top : slashedNames above = []
      · have first := appendName_spec entry true [] [] buffer (by simp) (by simp) (by simp)
        rw [if_pos ((isTop_iff above).mpr ((slashedNames_eq_nil above).mp top)), top]
        simpa [store_zero] using first
      · have isNotTop : isTop 0 above = false := by
          rw [← Bool.not_eq_true, isTop_iff, ← slashedNames_eq_nil]
          exact top
        have rest := appendName_spec entry true (slashedNames above)
          (clipped buffer.length (slashedNames above)) buffer
          (by simp only [clipped, List.length_take]; omega)
          (by rw [clipped, List.take_take, Nat.min_comm, ← List.take_take, List.take_left])
          (by simp only [clipped, List.length_take, List.length_append, List.length_singleton]; omega)
        rw [isNotTop, if_neg (by simp), ih, if_neg top]
        simpa using rest

theorem slashedNames_below (parent : PathEntry) (siblings : Entry) (wf : siblings.WellFormed)
    (known : slashedNames parent.lineage = slashed parent.ref) :
    ∀ entry ∈ entriesBelow parent siblings, slashedNames entry.lineage = slashed entry.ref := by
  induction siblings generalizing parent with
  | null => simp [entriesBelow]
  | node label children sibling inner rest =>
    obtain ⟨proper, -, -, below, after⟩ := wf
    have here : slashedNames (parent.child label children).lineage =
        slashed (parent.child label children).ref := by
      change slashedNames (label :: parent.lineage) = slashed (parent.ref ++ [label.name])
      rw [slashedNames, if_neg proper, known, slashed_append]
    intro entry member
    rcases List.mem_append.mp member with inside | others
    · exact inner _ below here entry inside
    · rcases List.mem_cons.mp others with same | later
      · rw [same]
        exact here
      · exact rest parent after known entry later

theorem slashedNames_entry (tree : PathTree) (entry : PathEntry) (member : entry ∈ tree.root.entries) :
    slashedNames entry.lineage = slashed entry.ref := by
  have start : slashedNames tree.root.lineage = slashed tree.root.ref := rfl
  rcases List.mem_append.mp member with below | own
  · exact slashedNames_below tree.root tree.children tree.wf start entry below
  · rw [List.mem_singleton.mp own]
    exact start

/-- The buffer has the right size and starts with some bytes. -/
structure Holds (lead path : Bytes) : Prop where
  size : path.length = PATH_MAX
  starts : path.take lead.length = lead

theorem Holds.alike {lead path path' : Bytes} (holds : Holds lead path) {offset : Nat}
    (alike : Alike offset path path') (long : lead.length ≤ offset) : Holds lead path' := by
  have shorter := alike.mono long
  exact ⟨shorter.size.trans holds.size, shorter.lead.trans holds.starts⟩

theorem stripped_prefix (root : Bytes) : stripped (some root) <+: root := List.rdropWhile_prefix _ root

/-- The path buffer starts with the root, without its trailing slashes. -/
theorem holds_initialPath (world : World) (root : Option Bytes) (short : (root.getD []).length < PATH_MAX) :
    Holds (stripped root) (initialPath world root) ∧ (stripped root).length < PATH_MAX := by
  have smaller : (stripped root).length ≤ (root.getD []).length := (List.rdropWhile_prefix _ _).length_le
  refine ⟨?_, lt_of_le_of_lt smaller short⟩
  have ending : ∀ path : Bytes, Holds (stripped root) path →
      Holds (stripped root) (store path (stripped root).length [0]) := by
    intro path holds
    apply holds.alike (Alike.store path [0] (stripped root).length le_rfl ?_) le_rfl
    rw [holds.size, List.length_singleton]
    omega
  cases root with
  | none => exact ending _ ⟨world.memory.property, rfl⟩
  | some root =>
    apply ending
    obtain ⟨slashes, whole⟩ := stripped_prefix root
    have room : 0 + (root ++ [0]).length ≤ world.memory.val.length := by
      rw [world.memory.property, List.length_append, List.length_singleton]
      exact (Nat.zero_add _).symm ▸ short
    refine ⟨(store_length _ _ _ room).trans world.memory.property, ?_⟩
    have filled : store world.memory.val 0 (root ++ [0]) = stripped (some root) ++
        (slashes ++ [0] ++ world.memory.val.drop (root ++ [0]).length) := by
      rw [store_zero, List.append_assoc, ← List.append_assoc (stripped (some root)),
        ← List.append_assoc (stripped (some root)), whole, List.append_assoc]
    simp only [filled, List.take_left]

/-- The visits of the files that are in no package. -/
def defaultTour (tree : PathTree) (size : Nat) : Tour Visit :=
  tourFrom { onlyAdded := true, before := true } size tree.root []

theorem tagDefaultTree_eq {Closure : Type} (opers : Operations Closure) {lead : Bytes} (tree : PathTree)
    (state : State Closure) (holds : Holds lead state.path) (short : lead.length < PATH_MAX) :
    ∃ path', Holds lead path' ∧ tagDefaultTree opers lead.length tree state =
      (((defaultTour tree (PATH_MAX - lead.length)).run (onString (processDefaultTreeAddCb opers) lead)
          (-ENAMETOOLONG) state).1,
        ((defaultTour tree (PATH_MAX - lead.length)).run (onString (processDefaultTreeAddCb opers) lead)
          (-ENAMETOOLONG) state).2.withPath path') := by
  have agrees := forEachIn_agrees (processDefaultTreeAddCb opers) { onlyAdded := true, before := true }
    rfl rfl tree.root lead state.path state holds.starts (by rw [holds.size]; exact short)
  rw [forEachInBuffer_eq _ _ rfl, holds.size] at agrees
  generalize left : forEachIn (fun state buffer entry => processDefaultTreeAddCb opers state (cstr buffer) entry)
    { onlyAdded := true, before := true } tree.root lead.length (state.path, state) = walked at agrees
  have total := agrees.written.total
  have starts := agrees.written.starts
  rw [List.length_nil, Nat.add_zero, List.append_nil] at starts
  refine ⟨walked.2.1, ⟨by omega, starts⟩, ?_⟩
  simp only [tagDefaultTree, left]
  exact Prod.ext agrees.answer (congrArg (fun after : State Closure => after.withPath walked.2.1) agrees.state)

theorem store_tail (path data : Bytes) (position : Nat) (ends : position + data.length = path.length) :
    store path position data = path.take position ++ data := by
  rw [store, List.drop_eq_nil_of_le (by omega), List.append_nil]

theorem holds_packagePath {lead path : Bytes} (holds : Holds lead path) (text : Bytes)
    (room : lead.length + text.length < PATH_MAX) :
    Holds (lead ++ text) (store (store path lead.length (store (path.drop lead.length) 0
      (clipped (path.drop lead.length).length text))) (lead.length + text.length) [0]) := by
  have size : (path.drop lead.length).length = PATH_MAX - lead.length := by
    rw [List.length_drop, holds.size]
  have cut : clipped (path.drop lead.length).length text = text ++ [0] := by
    rw [clipped, List.take_of_length_le]
    rw [size, List.length_append, List.length_singleton]
    omega
  have tail : (store (path.drop lead.length) 0 (text ++ [0])).length = PATH_MAX - lead.length := by
    rw [store_length _ _ _ (by rw [size, List.length_append, List.length_singleton]; omega), size]
  have whole := store_tail path (store (path.drop lead.length) 0 (text ++ [0])) lead.length
    (by rw [tail, holds.size]; omega)
  have length : (path.take lead.length ++ store (path.drop lead.length) 0 (text ++ [0])).length = PATH_MAX := by
    rw [List.length_append, tail, List.length_take, holds.size]
    omega
  have regroup : lead ++ store (path.drop lead.length) 0 (text ++ [0]) = (lead ++ text) ++
      (0 :: (path.drop lead.length).drop (text ++ [0]).length) := by
    rw [store_zero]
    simp
  rw [cut, whole]
  refine ⟨?_, ?_⟩
  · rw [store_length _ _ _ (by rw [length, List.length_singleton]; omega), length]
  · rw [List.length_append, take_store _ _ _ _ le_rfl (by rw [length]; omega), holds.starts, regroup,
      ← List.length_append, List.take_left]

theorem access_take {Answer : Type} (answer : Bytes → Except Failure Answer) (text : Bytes) :
    access answer (cstr (text.take PATH_MAX)) = access answer (cstr text) := by
  rw [cstr_take]
  by_cases short : (cstr text).length ≤ PATH_MAX
  · rw [List.take_of_length_le short]
  · rw [access, access, if_neg (by rw [List.length_take]; omega), if_neg (by omega)]

theorem getManifest_path (world : World) (type : Marker) {lead path : Bytes} (holds : Holds lead path)
    (room : lead.length < PATH_MAX) : (getManifest world lead.length type path).1 =
      lead ++ slash :: (type.name.take (PATH_MAX - (lead.length + 1)) ++
        List.replicate (PATH_MAX - (lead.length + 1) - type.name.length) 0) := by
  have first : store path lead.length [slash] = lead ++ slash :: path.drop (lead.length + 1) := by
    rw [store, holds.starts]
    simp
  have firstSize : (store path lead.length [slash]).length = PATH_MAX := by
    rw [store_length _ _ _ (by rw [holds.size, List.length_singleton]; omega), holds.size]
  simp only [getManifest, strncpyAt, firstSize]
  generalize space : PATH_MAX - (lead.length + 1) = left
  have size : (type.name.take left ++ List.replicate (left - type.name.length) (0 : Byte)).length = left := by
    rw [List.length_append, List.length_take, List.length_replicate]
    omega
  rw [store_tail _ _ _ (by rw [size, firstSize]; omega), first]
  have start : lead ++ slash :: path.drop (lead.length + 1) =
      (lead ++ [slash]) ++ path.drop (lead.length + 1) := by simp
  have length : lead.length + 1 = (lead ++ [slash]).length := by simp
  rw [start, length, List.take_left]
  simp

theorem getManifest_spec (world : World) (type : Marker) {lead path : Bytes} (holds : Holds lead path)
    (room : lead.length < PATH_MAX) :
    Holds lead (getManifest world lead.length type path).1 ∧
      (getManifest world lead.length type path).2 =
        access (world.reader type) (cstr (lead ++ slash :: type.name)) := by
  have whole := getManifest_path world type holds room
  have read : (getManifest world lead.length type path).2 =
      access (world.reader type) (cstr (getManifest world lead.length type path).1) := rfl
  rw [read, whole]
  generalize space : PATH_MAX - (lead.length + 1) = left
  refine ⟨⟨?_, by simp⟩, ?_⟩
  · simp only [List.length_append, List.length_cons, List.length_take, List.length_replicate]
    omega
  · by_cases fits : type.name.length < left
    · have zeros : List.replicate (left - type.name.length) (0 : Byte) =
          0 :: List.replicate (left - type.name.length - 1) 0 := by
        rw [← List.replicate_succ]
        congr 1
        omega
      have shape : lead ++ slash :: (type.name.take left ++
          List.replicate (left - type.name.length) 0) = (lead ++ slash :: type.name) ++
            0 :: List.replicate (left - type.name.length - 1) 0 := by
        rw [zeros, List.take_of_length_le fits.le]
        simp
      rw [shape, cstr_append_nul]
    · have shape : lead ++ slash :: (type.name.take left ++
          List.replicate (left - type.name.length) 0) = (lead ++ slash :: type.name).take PATH_MAX := by
        have none : left - type.name.length = 0 := by omega
        rw [none, List.replicate_zero, List.append_nil, List.take_append, List.take_of_length_le room.le]
        congr 1
        obtain ⟨rest, same⟩ : ∃ rest, PATH_MAX - lead.length = rest + 1 := ⟨left, by omega⟩
        rw [same, List.take_succ_cons]
        congr 2
        omega
      rw [shape, access_take]

theorem holds_installDir {lead path : Bytes} (holds : Holds lead path) {offsetRoot : Nat}
    (deeper : offsetRoot < lead.length) (room : lead.length < PATH_MAX) :
    Holds lead (installDir offsetRoot lead.length path) ∧
      cstr (installDir offsetRoot lead.length path) = cstr lead := by
  unfold installDir
  rw [if_pos (by omega)]
  refine ⟨holds.alike (Alike.store path [0] lead.length le_rfl ?_) le_rfl, ?_⟩
  · rw [holds.size, List.length_singleton]
    omega
  · rw [store, holds.starts, List.append_assoc, List.singleton_append, cstr_append_nul]

def readAt (world : World) (root : Option Bytes) (item : Ref × Marker) : Except Failure Json :=
  access (world.reader item.2) (cstr (stripped root ++ slashed item.1 ++ slash :: item.2.name))

section
variable {Closure : Type} (world : World) (opers : Operations Closure) (apkg : Description) (mode : Mode)

def packagePath (ref : Ref) : Bytes := stripped apkg.root ++ slashed ref

theorem packagePath_length (ref : Ref) :
    (packagePath apkg ref).length = (stripped apkg.root).length + (slashed ref).length := by
  rw [packagePath, List.length_append]

theorem packagePath_append (ref names : Ref) :
    packagePath apkg (ref ++ names) = packagePath apkg ref ++ slashed names := by
  rw [packagePath, packagePath, List.append_assoc, slashed, slashed, slashed, List.flatMap_append]

theorem packagePath_deeper {ref : Ref} (below : ref ≠ []) :
    (stripped apkg.root).length < (packagePath apkg ref).length := by
  have some : 0 < (slashed ref).length := List.length_pos_iff.mpr fun empty => below ((slashed_eq_nil _).mp empty)
  rw [packagePath_length]
  omega

/-- The state in which the session of a package starts. -/
structure Entered (root : Ref × Marker) (progress : Progress Closure) (tree : PathTree) (packdir : PathEntry)
    (manifest : Json) (described : Described) (state : State Closure) : Prop where
  files : progress.files = some tree
  found : descend root.1 tree.root = some packdir
  quiet : Quiet (stripped apkg.root).length progress.state state
  fine : state.rc = 0
  below : root.1 ≠ []
  room : (packagePath apkg root.1).length < PATH_MAX
  holds : Holds (packagePath apkg root.1) state.path
  read : readAt world apkg.root root = .ok manifest
  described : ∃ afids path, addMetaToManifest world apkg mode (stripped apkg.root).length
    (packagePath apkg root.1).length afids path manifest = .ok described

theorem Entered.placed {root : Ref × Marker} {progress : Progress Closure} {tree : PathTree}
    {packdir : PathEntry} {manifest : Json} {described : Described} {state : State Closure}
    (entered : Entered world apkg mode root progress tree packdir manifest described state) :
    Placed ⟨packdir, (stripped apkg.root).length, (packagePath apkg root.1).length, described.manifest⟩
      state.path := by
  obtain ⟨member, located⟩ := (descend_root_iff tree root.1 packdir).mp entered.found
  obtain ⟨above, last⟩ := ref_last tree packdir member (by rw [located]; exact entered.below)
  have size : (packagePath apkg root.1).length = (stripped apkg.root).length + (slashed above).length +
      (packdir.label.name.length + 1) := by
    rw [packagePath_length, ← located, last, slashed_append, List.length_append, List.length_cons]
    omega
  refine ⟨?_, by rw [entered.holds.size]; exact entered.room⟩
  simp only [Package.entryOffset, Bool.false_eq_true, ↓reduceIte]
  split <;> omega

/-- The crashes before the session of a package. -/
inductive RootCrash (root : Ref × Marker) (progress : Progress Closure) : Crash → Prop where
  | dangling (missing : progress.files.bind (fun tree => descend root.1 tree.root) = none) :
      RootCrash root progress .dangling
  | nullRead (top : root.1 = []) : RootCrash root progress .nullRead
  | overflow (long : PATH_MAX ≤ (packagePath apkg root.1).length) : RootCrash root progress .overflow
  | redpak {crash : Crash} {manifest : Json} (read : readAt world apkg.root root = .ok manifest)
      (searched : getRedpakid world apkg (stripped apkg.root).length (packagePath apkg root.1) =
        .error crash) : RootCrash root progress crash

theorem addMetaToManifest_cases {offsetRoot : Nat} {lead path : Bytes} (afids : Nat) (manifest : Json)
    (holds : Holds lead path) (deeper : offsetRoot < lead.length) (room : lead.length < PATH_MAX) :
    (∃ crash, addMetaToManifest world apkg mode offsetRoot lead.length afids path manifest = .error crash ∧
      getRedpakid world apkg offsetRoot lead = .error crash) ∨
    ∃ described, addMetaToManifest world apkg mode offsetRoot lead.length afids path manifest = .ok described ∧
      Holds lead described.path := by
  obtain ⟨kept, string⟩ := holds_installDir holds deeper room
  have same : getRedpakid world apkg offsetRoot (installDir offsetRoot lead.length path) =
      getRedpakid world apkg offsetRoot lead := by
    unfold getRedpakid
    rw [string]
  simp only [addMetaToManifest, same]
  cases found : getRedpakid world apkg offsetRoot lead with
  | error crash => exact Or.inl ⟨crash, rfl, rfl⟩
  | ok redpakid =>
    right
    simp only [bind, Except.bind]
    split
    · exact ⟨_, rfl, kept⟩
    · exact ⟨_, rfl, kept⟩

theorem processPackage_meets {good : Int × State Closure → Prop} {bad : Crashed Closure → Prop}
    (packdir : PathEntry) {offsetRoot : Nat} {lead : Bytes} (type : Marker) (state : State Closure)
    (holds : Holds lead state.path) (deeper : offsetRoot < lead.length) (room : lead.length < PATH_MAX)
    (crashes : ∀ crash manifest state',
      access (world.reader type) (cstr (lead ++ slash :: type.name)) = .ok manifest →
      getRedpakid world apkg offsetRoot lead = .error crash → Quiet offsetRoot state state' →
        bad ⟨crash, state'⟩)
    (fails : ∀ rc state', rc < 0 → Quiet offsetRoot state state' → good (rc, state'))
    (enters : ∀ manifest described state',
      access (world.reader type) (cstr (lead ++ slash :: type.name)) = .ok manifest →
      (∃ afids path, addMetaToManifest world apkg mode offsetRoot lead.length afids path manifest =
        .ok described) →
      Quiet offsetRoot state state' → state'.rc = state.rc → Holds lead state'.path →
      Meets good bad
        (session world opers ((described.manifest.get MANIFEST_ID).bind (Json.getString world.serialize)) mode
          ⟨packdir, offsetRoot, lead.length, described.manifest⟩ state')) :
    Meets good bad (processPackage world opers apkg mode packdir offsetRoot lead.length type state) := by
  obtain ⟨kept, read⟩ := getManifest_spec world type holds room
  have alike : ∀ path, Holds lead path → Alike offsetRoot state.path path := by
    intro path other
    have whole : Alike lead.length state.path path :=
      ⟨other.size.trans holds.size.symm, other.starts.trans holds.starts.symm⟩
    exact whole.mono deeper.le
  have reading := (Quiet.refl offsetRoot state).withPath (alike _ kept)
  simp only [processPackage, read]
  cases answer : access (world.reader type) (cstr (lead ++ slash :: type.name)) with
  | error rc => exact fails rc.val _ rc.property reading
  | ok manifest =>
    simp only
    rcases addMetaToManifest_cases world apkg mode (state.withPath
        (getManifest world lead.length type state.path).1).afids manifest kept deeper room with
      ⟨crash, crashed, searched⟩ | ⟨described, done, last⟩
    · have path : (state.withPath (getManifest world lead.length type state.path).1).path =
        (getManifest world lead.length type state.path).1 := rfl
      rw [path, crashed]
      exact crashes crash manifest _ answer searched reading
    · have path : (state.withPath (getManifest world lead.length type state.path).1).path =
        (getManifest world lead.length type state.path).1 := rfl
      rw [path, done]
      simp only
      split
      · next negative => exact fails _ _ negative ⟨rfl, rfl, alike _ last, fun _ => negative.le⟩
      · exact enters manifest described _ answer ⟨_, _, done⟩ ⟨rfl, rfl, alike _ last, id⟩ rfl last

/-- What is written of a path after that of the root stays in the buffer, and behind the root. -/
theorem alike_written {root path : Bytes} (rooted : Holds root path) (text : Bytes) :
    Alike root.length path (store path root.length
      (store (path.drop root.length) 0 (clipped (path.drop root.length).length text))) := by
  have short : root.length ≤ PATH_MAX := by
    have size := congrArg List.length rooted.starts
    rw [List.length_take, rooted.size] at size
    omega
  have written : (store (path.drop root.length) 0 (clipped (path.drop root.length).length text)).length =
      (path.drop root.length).length := by
    apply store_length
    rw [clipped, List.length_take]
    omega
  apply Alike.store _ _ _ le_rfl
  rw [written, List.length_drop, rooted.size]
  omega

/-- A package root crashes or fails before its session, or enters it. -/
theorem processRootpkg_meets {good : Int × Progress Closure → Prop} {bad : Crashed Closure → Prop}
    (root : Ref × Marker) (progress : Progress Closure)
    (rooted : Holds (stripped apkg.root) progress.state.path)
    (crashes : ∀ crash state, RootCrash world apkg root progress crash →
      Quiet (stripped apkg.root).length progress.state state → bad ⟨crash, state⟩)
    (fails : ∀ tree rc state, progress.files = some tree → rc < 0 →
      Quiet (stripped apkg.root).length progress.state state →
        good (rc, ⟨pathEntryDestroy tree root.1, state⟩))
    (enters : ∀ tree packdir manifest described state,
      Entered world apkg mode root progress tree packdir manifest described state →
      Meets (fun result => good (result.1, ⟨pathEntryDestroy tree root.1, result.2⟩)) bad
        (session world opers ((described.manifest.get MANIFEST_ID).bind (Json.getString world.serialize)) mode
          ⟨packdir, (stripped apkg.root).length, (packagePath apkg root.1).length, described.manifest⟩ state)) :
    Meets good bad (processRootpkg world opers apkg mode (stripped apkg.root).length root progress) := by
  have fresh : Quiet (stripped apkg.root).length progress.state
      { progress.state with rc := 0, permset := Permset.create } := ⟨rfl, rfl, Alike.refl _ _, fun _ => le_rfl⟩
  unfold processRootpkg
  cases files : progress.files with
  | none => exact crashes _ _ (.dangling (by rw [files]; rfl)) fresh
  | some tree =>
    simp only [Option.bind_some]
    cases found : descend root.1 tree.root with
    | none => exact crashes _ _ (.dangling (by rw [files]; exact found)) fresh
    | some packdir =>
      obtain ⟨member, located⟩ := (descend_root_iff tree root.1 packdir).mp found
      have names := slashedNames_entry tree packdir member
      rw [located] at names
      simp only [Option.map_some, relpath_forced, names, slashed_eq_nil]
      by_cases top : root.1 = []
      · rw [if_pos top]
        exact crashes _ _ (.nullRead top) fresh
      · rw [if_neg top]
        have alike := alike_written rooted (slashed root.1)
        simp only
        split
        · next long =>
          rw [← packagePath_length] at long
          exact crashes _ _ (.overflow long) (fresh.withPath alike)
        · next fits =>
          have holds := holds_packagePath rooted (slashed root.1) (by omega)
          have entering := alike.trans (Alike.store _ [0]
            ((stripped apkg.root).length + (slashed root.1).length) (Nat.le_add_right _ _) (by
              rw [alike.size, rooted.size, List.length_singleton]
              omega))
          have start := fresh.withPath entering
          rw [← packagePath_length] at holds start fits ⊢
          have deeper := packagePath_deeper apkg top
          have rest : ∀ result : Int × State Closure, good (result.1, ⟨pathEntryDestroy tree root.1, result.2⟩) →
              Meets good bad (.ok (result.1, ⟨pathEntryDestroy tree root.1, result.2⟩)) := fun _ safe => safe
          refine Meets.bind (processPackage_meets world opers apkg mode packdir root.2 _ holds deeper
            (by omega) ?_ ?_ ?_) rest
          · intro crash manifest state' read searched quiet
            exact crashes crash state' (.redpak read searched) (start.trans quiet)
          · intro rc state' negative quiet
            exact fails tree rc state' files negative (start.trans quiet)
          · intro manifest described state' read made quiet same kept
            exact enters tree packdir manifest described state'
              ⟨files, found, start.trans quiet, same, top, by omega, kept, read, made⟩

end
end AppManager.Install
