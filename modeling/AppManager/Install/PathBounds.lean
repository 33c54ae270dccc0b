import AppManager.Install.AskedPaths

/-! The bounds of the path buffers over a whole processing. They are kept, and the paths
are used whole, as long as the package roots that are processed fit. -/

namespace AppManager.Install
open AppManager.Lib AppManager.Lib.Libc AppManager.Utils

section
variable {Closure : Type} (world : World) (opers : Operations Closure) (apkg : Description) (mode : Mode)

/-- What holds of each package root that is processed, with what the ones before left. -/
def EachProcessed (holds : Ref × Marker → Progress Closure → Prop) :
    List (Ref × Marker) → Progress Closure → Prop
  | [], _ => True
  | root :: rest, progress => holds root progress ∧ ∀ next,
      processRootpkg world opers apkg mode (stripped apkg.root).length root progress = .ok (0, next) →
        EachProcessed holds rest next

/-- The same in the processing of a request, once its root was accepted. -/
def AllProcessed (holds : Ref × Marker → Progress Closure → Prop) (closure : Closure) : Prop :=
  (apkg.root.getD []).length < PATH_MAX →
    EachProcessed world opers apkg mode holds (detectPackageRoots apkg.files).2
      ⟨some apkg.files, startState closure (initialPath world apkg.root)⟩

/-- The package of a root, with its manifest as it is read. -/
structure Packaged (root : Ref × Marker) (progress : Progress Closure) (pack : Package) : Prop where
  files : ∃ tree, progress.files = some tree ∧ descend root.1 tree.root = some pack.packdir
  offsetRoot : pack.offsetRoot = (stripped apkg.root).length
  offsetPack : pack.offsetPack = (packagePath apkg root.1).length
  read : readAt world apkg.root root = .ok pack.manifest

/-- The path of a package root fits and, when its manifest is read, so do the path of the
marker of redpaks and those that are used for the package. -/
structure RootRoom (root : Ref × Marker) (progress : Progress Closure) : Prop where
  path : PathFits apkg root.1
  marker : ∀ pack, Packaged world apkg root progress pack → MarkerFits apkg root.1
  package : ∀ pack, Packaged world apkg root progress pack → PackFits pack world apkg mode

/-- The path of a file of the package that is looked at stands whole in the buffer, with
its end, when it is not refused. -/
def LooksWhole (root : Ref × Marker) (progress : Progress Closure) : Prop :=
  mode = .install → ∀ pack, Packaged world apkg root progress pack → ∀ entry, Looked pack entry →
    ¬Refused pack entry → entry.ref ≠ root.1 → ∀ path, Holds (packagePath apkg root.1) path →
      packagePath apkg entry.ref ++ [0] <+: (relpathAt pack entry path).2

def EntriesFit (root : Ref × Marker) (progress : Progress Closure) : Prop :=
  ∀ pack, Packaged world apkg root progress pack → ∀ entry ∈ pack.packdir.entries, PathFits apkg entry.ref

/-- The path buffers are not overflowed, and no path is used that was cut. A path that does
not fit is answered by an error. -/
structure Bounded (closure : Closure) : Prop where
  inside : Meets (fun result => result.2.path.length = PATH_MAX)
    (fun crashed => crashed.crash.unbounded = false ∧ crashed.state.path.length = PATH_MAX)
    (afmpkgProcess world opers apkg closure mode)
  calls : ∀ call ∈ (afmpkgProcess world opers apkg closure mode).calls, call.Whole world apkg
  asked : ∀ fstatat, (∀ path, Askable apkg path → fstatat path = world.fstatat path) →
    afmpkgProcess (world.asking fstatat) opers apkg closure mode = afmpkgProcess world opers apkg closure mode
  looked : AllProcessed world opers apkg mode (LooksWhole world apkg mode) closure
  answered : ∀ result, afmpkgProcess world opers apkg closure mode = .ok result → 0 ≤ result.1 →
    AllProcessed world opers apkg mode (EntriesFit world apkg) closure

variable {world opers apkg mode} in
theorem Bounded.never {closure : Closure} (bounded : Bounded world opers apkg mode closure) {crashed : Crashed Closure}
    (run : afmpkgProcess world opers apkg closure mode = .error crashed) : crashed.crash.unbounded = false := by
  have inside := bounded.inside
  rw [run] at inside
  exact inside.1

variable {world opers apkg mode} in
/-- The bounds are not kept for a root that is accepted for its cut length. -/
theorem Bounded.whole {closure : Closure} (bounded : Bounded world opers apkg mode closure)
    (accepted : rootLength apkg.root < PATH_MAX) : (apkg.root.getD []).length < 2 ^ 32 := by
  by_contra long
  have run : afmpkgProcess world opers apkg closure mode =
      .error ⟨.cutRoot, startState closure world.memory.val⟩ := by
    rw [afmpkgProcess, if_neg (not_le.mpr accepted), if_pos (not_lt.mp long)]
    rfl
  cases bounded.never run

variable {world opers apkg mode} in
theorem EachProcessed.mono {holds holds' : Ref × Marker → Progress Closure → Prop}
    (wider : ∀ root progress, holds root progress → holds' root progress) {roots : List (Ref × Marker)}
    {progress : Progress Closure} (each : EachProcessed world opers apkg mode holds roots progress) :
    EachProcessed world opers apkg mode holds' roots progress := by
  induction roots generalizing progress with
  | nil => trivial
  | cons root rest ih => exact ⟨wider root progress each.1, fun next done => ih (each.2 next done)⟩

/-- What is left after some package roots, since a path buffer. -/
structure Running (start : Bytes) (done : List (Ref × Marker)) (progress : Progress Closure) : Prop where
  files : ∃ rest, progress.files = some rest ∧ Pruned apkg.files (done.map Prod.fst) rest
  told : Told world apkg (stripped apkg.root).length start progress.state

theorem Told.trans {offset more : Nat} {path : Bytes} {state state' : State Closure}
    (told : Told world apkg offset path state) (next : Told world apkg more state.path state')
    (deeper : offset ≤ more) : Told world apkg offset path state' :=
  ⟨next.calls, told.path.trans (next.path.mono deeper)⟩

section
variable {done later : List (Ref × Marker)} {root : Ref × Marker} {start : Bytes}
  (starts : Holds (stripped apkg.root) start)
  (order : (detectPackageRoots apkg.files).2 = done ++ root :: later)
include starts order

theorem processRootpkg_bounded (progress : Progress Closure) (running : Running world apkg start done progress)
    (fits : RootRoom world apkg mode root progress) :
    Meets (fun result => Told world apkg (stripped apkg.root).length start result.2.state ∧
        (0 ≤ result.1 → Running world apkg start (done ++ [root]) result.2 ∧ EntriesFit world apkg root progress))
      (fun crashed => crashed.crash.unbounded = false ∧ Told world apkg (stripped apkg.root).length start crashed.state)
      (processRootpkg world opers apkg mode (stripped apkg.root).length root progress) := by
  obtain ⟨⟨rest, files, pruned⟩, told⟩ := running
  have rooted := starts.alike told.path le_rfl
  have known : root ∈ (detectPackageRoots apkg.files).2 := by simp [order]
  apply processRootpkg_meets world opers apkg mode root progress rooted
  · intro crash state kind quiet
    refine ⟨?_, told.quiet quiet le_rfl⟩
    cases kind with
    | dangling _ => rfl
    | nullRead _ => rfl
    | overflow long => exact absurd fits.path (not_lt.mpr long)
    | redpak read searched =>
      obtain ⟨packdir, found, -⟩ := pruned.own (roots_order apkg order)
      have marker := fits.marker ⟨packdir, (stripped apkg.root).length, (packagePath apkg root.1).length, _⟩
        ⟨⟨rest, files, found⟩, rfl, rfl, read⟩
      exact absurd searched ((getRedpakid_inside world apkg fits.path).mp marker crash)
  · exact fun tree rc state _ negative quiet =>
      ⟨told.quiet quiet le_rfl, fun positive => absurd positive (not_le.mpr negative)⟩
  · intro tree packdir manifest described state entered
    have opened := entered.inSession known
    have packaged : Packaged world apkg root progress
      ⟨packdir, (stripped apkg.root).length, (packagePath apkg root.1).length, manifest⟩ :=
        ⟨⟨tree, entered.files, entered.found⟩, rfl, rfl, entered.read⟩
    have before := told.quiet entered.quiet le_rfl
    refine (opened.session opers (fits.package _ packaged) _ state rfl before.calls).mono ?_ ?_
    · intro result ended
      have after := before.trans world apkg ended.told opened.rooted
      refine ⟨after, fun positive => ⟨?_, ?_⟩⟩
      · obtain ⟨rest', destroyed⟩ : ∃ rest', pathEntryDestroy tree root.1 = some rest' := by
          simp [pathEntryDestroy, entered.below]
        obtain rfl : rest = tree := Option.some.inj (files.symm.trans entered.files)
        refine ⟨⟨rest', destroyed, ?_⟩, after⟩
        rw [List.map_append]
        exact pruned.destroy destroyed
      · intro pack other entry member
        obtain ⟨tree', files', found'⟩ := other.files
        obtain rfl : tree' = tree := Option.some.inj (files'.symm.trans entered.files)
        have same : packdir = pack.packdir := Option.some.inj (entered.found.symm.trans found')
        exact ended.answered positive entry (same ▸ member)
    · rintro crashed null
      exact ⟨by rw [null.crash]; rfl, before.trans world apkg null.state opened.rooted⟩


theorem processRootpkg_alike {fstatat : Bytes → Except Failure FileKind}
    (same : ∀ path, Askable apkg path → fstatat path = world.fstatat path) {paths : List Bytes}
    (given : apkg.files = filesOf paths) (progress : Progress Closure)
    (running : Running world apkg start done progress) :
    processRootpkg (world.asking fstatat) opers apkg mode (stripped apkg.root).length root progress =
      processRootpkg world opers apkg mode (stripped apkg.root).length root progress := by
  obtain ⟨⟨rest, files, pruned⟩, told⟩ := running
  have known : root ∈ (detectPackageRoots apkg.files).2 := by simp [order]
  obtain ⟨packdir, found, -, marks, -⟩ := pruned.own (roots_order apkg order)
  apply processRootpkg_asking world apkg same given opers mode known progress (starts.alike told.path le_rfl)
  intro tree packdir' files' found'
  obtain rfl : rest = tree := Option.some.inj (files.symm.trans files')
  obtain rfl : packdir = packdir' := Option.some.inj (found.symm.trans found')
  exact marks

end

section
variable {start : Bytes} (starts : Holds (stripped apkg.root) start)
include starts

theorem rootpkgsForEach_bounded (roots done : List (Ref × Marker))
    (order : (detectPackageRoots apkg.files).2 = done ++ roots) (progress : Progress Closure)
    (running : Running world apkg start done progress)
    (fits : EachProcessed world opers apkg mode (RootRoom world apkg mode) roots progress) :
    Meets (fun result => Told world apkg (stripped apkg.root).length start result.2.state ∧
        (0 ≤ result.1 → EachProcessed world opers apkg mode (EntriesFit world apkg) roots progress))
      (fun crashed => crashed.crash.unbounded = false ∧ Told world apkg (stripped apkg.root).length start crashed.state)
      (rootpkgsForEach world opers apkg mode (stripped apkg.root).length roots progress) := by
  induction roots generalizing done progress with
  | nil => exact ⟨running.told, fun _ => trivial⟩
  | cons root rest ih =>
    have first := processRootpkg_bounded world opers apkg mode starts order progress running fits.1
    unfold rootpkgsForEach
    cases ran : processRootpkg world opers apkg mode (stripped apkg.root).length root progress with
    | error crashed =>
      rw [ran] at first
      exact first
    | ok result =>
      rw [ran] at first
      obtain ⟨told, answered⟩ := first
      simp only [bind, Except.bind]
      split
      · next zero =>
        obtain ⟨running', entries⟩ := answered zero.ge
        have next : processRootpkg world opers apkg mode (stripped apkg.root).length root progress =
            .ok (0, result.2) := by rw [ran, ← zero]
        have rest' := ih (done ++ [root]) (by rw [order, List.append_assoc]; rfl) result.2 running' (fits.2 _ next)
        refine rest'.mono ?_ fun _ => id
        rintro final ⟨kept, others⟩
        refine ⟨kept, fun positive => ⟨entries, fun other same => ?_⟩⟩
        rw [next] at same
        obtain rfl : result.2 = other := (Prod.mk.inj (Except.ok.inj same)).2
        exact others positive
      · next other =>
        refine ⟨told, fun positive => ⟨(answered positive).2, fun next same => ?_⟩⟩
        rw [ran] at same
        exact absurd (congrArg Prod.fst (Except.ok.inj same)) other

theorem rootpkgsForEach_asking {fstatat : Bytes → Except Failure FileKind}
    (same : ∀ path, Askable apkg path → fstatat path = world.fstatat path) {paths : List Bytes}
    (given : apkg.files = filesOf paths) (roots done : List (Ref × Marker))
    (order : (detectPackageRoots apkg.files).2 = done ++ roots) (progress : Progress Closure)
    (running : Running world apkg start done progress)
    (fits : EachProcessed world opers apkg mode (RootRoom world apkg mode) roots progress) :
    rootpkgsForEach (world.asking fstatat) opers apkg mode (stripped apkg.root).length roots progress =
      rootpkgsForEach world opers apkg mode (stripped apkg.root).length roots progress := by
  induction roots generalizing done progress with
  | nil => rfl
  | cons root rest ih =>
    have first := processRootpkg_bounded world opers apkg mode starts order progress running fits.1
    unfold rootpkgsForEach
    rw [processRootpkg_alike world opers apkg mode starts order same given progress running]
    cases ran : processRootpkg world opers apkg mode (stripped apkg.root).length root progress with
    | error crashed => simp only [bind, Except.bind]
    | ok result =>
      rw [ran] at first
      simp only [bind, Except.bind]
      split
      · next zero =>
        exact ih (done ++ [root]) (by rw [order, List.append_assoc]; rfl) result.2 (first.2 zero.ge).1
          (fits.2 _ (by rw [ran, ← zero]))
      · rfl


omit starts in
theorem defaultTour_whole (tree : PathTree) (size : Nat) : ∀ visit ∈ (defaultTour tree size).items,
    WholeTag apkg visit.entry.ref (cstr (stripped apkg.root ++ visit.path)) := by
  intro visit toured
  have visited := (tourFrom_visits addedOnly _ tree.root []).1.subset toured
  rcases addedVisit_cases visited with root | below
  · left
    rw [root, List.append_nil]
    exact ⟨rfl, rfl⟩
  · right
    obtain ⟨child, -, rest, top, located, shown⟩ :=
      visitsBelow_top addedOnly rfl tree.root tree.children tree.wf visit below
    have topRef : child.ref = [child.label.name] := top
    refine ⟨[], child.label.name, rest, leading child.label, ?_, by rw [located, topRef]; rfl, ?_⟩
    · unfold leading
      split
      · simp
      · simp
    · have nothing : packagePath apkg [] = stripped apkg.root := List.append_nil _
      rw [shown, nothing]

theorem processDefaultTree_told (short : (stripped apkg.root).length < PATH_MAX) (tree : PathTree)
    (state : State Closure) (told : Told world apkg (stripped apkg.root).length start state) :
    Told world apkg (stripped apkg.root).length start
      (processDefaultTree opers mode (stripped apkg.root).length tree state).2 := by
  have begun := told.called (.begins none) (opers.begins state.closure none mode) trivial
  have tagged : Told world apkg (stripped apkg.root).length start (tagDefaultTree opers (stripped apkg.root).length
      tree (state.called (.begins none) (opers.begins state.closure none mode)).2).2 := by
    generalize (state.called (.begins none) (opers.begins state.closure none mode)).2 = open_ at begun
    obtain ⟨path', holds', run⟩ := tagDefaultTree_eq opers tree open_ (starts.alike begun.path le_rfl) short
    have toured : Told world apkg (stripped apkg.root).length start
        ((defaultTour tree (PATH_MAX - (stripped apkg.root).length)).run
          (onString (processDefaultTreeAddCb opers) (stripped apkg.root)) (-ENAMETOOLONG) open_).2 :=
      Tour.run_invariant _ begun fun state' kept visit member =>
        kept.called (.tagfile visit.entry.ref _ .Default) _ (defaultTour_whole apkg tree _ visit member)
    rw [run]
    exact ⟨toured.calls, holds'.size.trans starts.size.symm, holds'.starts.trans starts.starts.symm⟩
  unfold processDefaultTree
  simp only
  split
  · exact told
  · split
    · exact told
    · refine Told.called ?_ (.ends _) _ trivial
      split
      · exact tagged
      · exact begun


end

theorem RootRoom.looksWhole {root : Ref × Marker} {progress : Progress Closure}
    (fits : RootRoom world apkg mode root progress) : LooksWhole world apkg mode root progress := by
  intro install pack packaged entry looked unrefused other path holds
  have short : PathFits apkg entry.ref :=
    ((fits.package pack packaged).looked install entry looked).resolve_right unrefused
  obtain ⟨tree, -, located⟩ := packaged.files
  obtain ⟨inTree, reference⟩ := (descend_root_iff tree root.1 pack.packdir).mp located
  obtain ⟨target, -, looks⟩ := looked
  obtain ⟨names, found⟩ := looks.descend
  have ref := (descend_sound names pack.packdir entry found).1
  rw [reference] at ref
  have below : names ≠ [] := fun none => other (by rw [ref, none, List.append_nil])
  have room : pack.offsetPack < PATH_MAX := by
    rw [packaged.offsetPack]
    exact fits.path
  rw [ref] at short ⊢
  rw [PathFits, packagePath_append, List.length_append] at short
  have ended : clipped (PATH_MAX - (packagePath apkg root.1).length) (slashed names) = slashed names ++ [0] := by
    rw [clipped, List.take_of_length_le]
    rw [List.length_append, List.length_singleton]
    omega
  rw [relpathAt_clipped pack inTree below found holds.size room, packaged.offsetPack, holds.starts, ended,
    packagePath_append, ← List.append_assoc, ← List.append_assoc]
  exact List.prefix_append _ _

theorem afmpkgProcess_told (closure : Closure) (short : (apkg.root.getD []).length < PATH_MAX)
    (fits : EachProcessed world opers apkg mode (RootRoom world apkg mode) (detectPackageRoots apkg.files).2
      ⟨some apkg.files, startState closure (initialPath world apkg.root)⟩) :
    Meets (fun result => Told world apkg (stripped apkg.root).length (initialPath world apkg.root) result.2 ∧
        (0 ≤ result.1 → EachProcessed world opers apkg mode (EntriesFit world apkg) (detectPackageRoots apkg.files).2
          ⟨some apkg.files, startState closure (initialPath world apkg.root)⟩))
      (fun crashed => crashed.crash.unbounded = false ∧
        Told world apkg (stripped apkg.root).length (initialPath world apkg.root) crashed.state)
      (afmpkgProcess world opers apkg closure mode) := by
  obtain ⟨starts, room⟩ := holds_initialPath world apkg.root short
  have detected : (detectPackageRoots apkg.files).1 = 0 := by rw [detectPackageRoots_eq]
  have packages := rootpkgsForEach_bounded world opers apkg mode starts _ [] rfl
    ⟨some apkg.files, startState closure (initialPath world apkg.root)⟩
    ⟨⟨apkg.files, rfl, pruned_start apkg.files⟩, (fun _ none => by cases none), Alike.refl _ _⟩ fits
  unfold afmpkgProcess
  rw [if_neg (rootLength_whole short).1, if_neg (rootLength_whole short).2]
  simp only
  rw [if_neg (by rw [detected]; decide)]
  refine packages.bind fun result done => ?_
  split
  · next negative => exact ⟨done.1, fun positive => absurd positive (not_le.mpr negative)⟩
  · next positive =>
    split
    · exact done
    · exact ⟨processDefaultTree_told world opers apkg mode starts room _ _ done.1, fun _ => done.2 (not_lt.mp positive)⟩

/-- When the root is not cut and the package roots that are processed fit, the path buffers are not
overflowed, no path that is used was cut, and what does not fit is answered by an error. -/
theorem afmpkgProcess_bounded {paths : List Bytes} (given : apkg.files = filesOf paths)
    (whole : rootLength apkg.root < PATH_MAX → (apkg.root.getD []).length < 2 ^ 32) (closure : Closure)
    (fits : AllProcessed world opers apkg mode (RootRoom world apkg mode) closure) :
    Bounded world opers apkg mode closure := by
  by_cases short : (apkg.root.getD []).length < PATH_MAX
  · obtain ⟨starts, -⟩ := holds_initialPath world apkg.root short
    have told := afmpkgProcess_told world opers apkg mode closure short (fits short)
    refine ⟨?_, ?_, ?_, ?_, ?_⟩
    · refine told.mono (fun result kept => kept.1.path.size.trans starts.size) ?_
      exact fun crashed kept => ⟨kept.1, kept.2.path.size.trans starts.size⟩
    · cases run : afmpkgProcess world opers apkg closure mode with
      | ok result =>
        rw [run] at told
        exact told.1.calls
      | error crashed =>
        rw [run] at told
        exact told.2.calls
    · intro fstatat same
      have alike := rootpkgsForEach_asking world opers apkg mode starts same given _ [] rfl
        ⟨some apkg.files, startState closure (initialPath world apkg.root)⟩
        ⟨⟨apkg.files, rfl, pruned_start apkg.files⟩, (fun _ none => by cases none), Alike.refl _ _⟩ (fits short)
      have initial : initialPath (world.asking fstatat) apkg.root = initialPath world apkg.root := rfl
      unfold afmpkgProcess
      simp only [if_neg (rootLength_whole short).1, if_neg (rootLength_whole short).2, initial]
      simp only [alike]
    · exact fun _ => (fits short).mono fun _ _ => RootRoom.looksWhole world apkg mode
    · intro result run positive _
      rw [run] at told
      exact told.2 positive
  · have long : PATH_MAX ≤ rootLength apkg.root := by
      by_contra accepted
      have uncut := whole (not_le.mp accepted)
      exact short (rootLength_short accepted (not_le.mpr uncut))
    have refused : afmpkgProcess world opers apkg closure mode =
        .ok (-ENAMETOOLONG, startState closure world.memory.val) := if_pos long
    refine ⟨?_, ?_, ?_, fun fits => absurd fits short, fun _ _ _ fits => absurd fits short⟩
    · rw [refused]
      exact world.memory.property
    · intro call member
      rw [refused] at member
      cases member
    · intro fstatat _
      rw [refused]
      exact if_pos long

end

/-- A package with a configuration, in a root where redpaks are searched. -/
def markedPackage : Description :=
  { request (some (ascii "/root")) [ascii "/app/config.xml", ascii "/app/bin/run"] with
    redpakAuto := some (ascii ".redpak") }

theorem afmpkgProcess_bounded_marked :
    Bounded (plainWorld (.object [])) accepting markedPackage .install () := by
  have paths : ∀ ref ∈ treeRefs markedPackage.files, (packagePath markedPackage ref).length < PATH_MAX := by decide
  have roots : (detectPackageRoots markedPackage.files).2 = [([ascii "app"], .config)] := by decide
  refine afmpkgProcess_bounded _ accepting markedPackage .install rfl (fun _ => by decide) () fun _ => ?_
  rw [roots]
  refine ⟨⟨paths _ (by decide), ?_, ?_⟩, fun _ _ => trivial⟩
  · intro pack _ _ marker auto _
    obtain rfl : ascii ".redpak" = marker := Option.some.inj auto
    decide
  · intro pack packaged
    have manifest : pack.manifest = .object [] := readAt_plainWorld packaged.read
    refine ⟨fun _ entry looked => ?_, fun _ entry member => ?_, fun _ name value plug => ?_⟩
    · obtain ⟨target, member, -⟩ := looked
      rw [Package.targets, manifest] at member
      cases member
    · obtain ⟨tree, files, found⟩ := packaged.files
      obtain rfl : markedPackage.files = tree := Option.some.inj files
      have mark : entry.mark ∈ pack.packdir.entries.map PathEntry.mark := List.mem_map_of_mem member
      rw [marks_descend _ _ _ found] at mark
      exact paths entry.ref ((mem_marks _ _).mpr ⟨entry.mark, (List.mem_filter.mp mark).1, rfl⟩)
    · obtain ⟨item, member, -⟩ := plug
      rw [manifest] at member
      cases member

/-- The root is accepted, but the path of the package does not fit after it. -/
def longRequest : Description := request (some (slash :: List.replicate 4093 97)) [ascii "/app/config.xml"]

theorem afmpkgProcess_unbounded : ¬Bounded (plainWorld (.object [])) accepting longRequest .install () := by
  intro bounded
  have overflowed : (match afmpkgProcess (plainWorld (.object [])) accepting longRequest () .install with
      | .ok _ => none
      | .error crashed => some crashed.crash) = some .overflow := by decide +kernel
  cases run : afmpkgProcess (plainWorld (.object [])) accepting longRequest () .install with
  | ok result =>
    rw [run] at overflowed
    cases overflowed
  | error crashed =>
    rw [run] at overflowed
    have kept := bounded.never run
    rw [Option.some.inj overflowed] at kept
    cases kept

end AppManager.Install
