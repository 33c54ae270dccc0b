import AppManager.Install.Tags
import AppManager.Utils.PathAdding

/-! When an installation succeeds, each package has its session, in which its own entries
are marked, and a last session marks the added files that are in no package. -/

namespace AppManager.Install
open AppManager.Lib AppManager.Lib.Libc AppManager.Utils AppManager.Units

/-- All the operations answer zero, the end of a session when that is its status. -/
structure Succeeds {Closure : Type} (opers : Operations Closure) : Prop where
  begins : ∀ closure appid mode, (opers.begins closure appid mode).1 = 0
  tagfile : ∀ closure path type, (opers.tagfile closure path type).1 = 0
  setperm : ∀ closure permission, (opers.setperm closure permission).1 = 0
  setplug : ∀ closure exportdir importid importdir, (opers.setplug closure exportdir importid importdir).1 = 0
  setunits : ∀ closure units, (opers.setunits closure units).1 = 0
  ends : ∀ closure, (opers.ends closure 0).1 = 0

def Session.tagged (session : Session) : List Ref := (tagsOf session.inner).map Prod.fst

/-- The session of a package marks once each of its entries, and no other one. -/
structure Covers (tree : PathTree) (root : Ref) (session : Session) : Prop where
  proper : session.Proper
  once : session.tagged.Nodup
  exactly : ∀ entry, entry ∈ session.tagged ↔ entry ∈ treeRefs tree ∧ Innermost tree root entry

def Outside (tree : PathTree) (entry : Ref) : Prop :=
  tree.Added entry ∧ ∀ root, IsPackage tree root → ¬root <+: entry

/-- The last session marks once, by default, each added entry that is in no package. -/
structure CoversRest (tree : PathTree) (session : Session) : Prop where
  proper : session.Proper
  anonymous : session.appid = none
  default : ∀ call ∈ session.inner, ∃ entry path rc, call = .tagfile entry path .Default rc
  once : session.tagged.Nodup
  exactly : ∀ entry, entry ∈ session.tagged ↔ Outside tree entry

/-- The calls are those of the packages, nested ones first, and of the remaining files. -/
def Partitioned (tree : PathTree) (calls : List Call) : Prop :=
  ∃ (packages : List (Ref × Session)) (rest : Option Session),
    calls = packages.flatMap (·.2.calls) ++ rest.toList.flatMap Session.calls ∧
    (∀ root, root ∈ packages.map Prod.fst ↔ IsPackage tree root) ∧
    (packages.map Prod.fst).Pairwise (fun first second => ¬first <+: second) ∧
    (∀ package ∈ packages, Covers tree package.1 package.2) ∧
    (∀ root entry, IsPackage tree root → root <+: entry → ∃! package, Innermost tree package entry) ∧
    match rest with
    | none => ∀ entry, ¬Outside tree entry
    | some session => CoversRest tree session

theorem tagsOf_session (session : Session) : tagsOf session.calls = tagsOf session.inner := by
  simp [Session.calls, tagsOf, List.filterMap_cons, Call.tag]

section
variable {Closure : Type} (world : World) (opers : Operations Closure) (apkg : Description)

theorem packagePath_snoc (above : Ref) (name : Bytes) :
    packagePath apkg (above ++ [name]) = packagePath apkg above ++ Utils.slash :: name := by
  rw [packagePath, packagePath, slashed_append, List.append_assoc]

theorem entryOffset_package (packdir : PathEntry) (above : Ref) (manifest : Json) :
    Package.entryOffset ⟨packdir, (stripped apkg.root).length,
      (packagePath apkg (above ++ [packdir.label.name])).length, manifest⟩ { after := true } =
        (packagePath apkg above).length := by
  have size := congrArg List.length (packagePath_snoc apkg above packdir.label.name)
  rw [List.length_append, List.length_cons] at size
  simp only [Package.entryOffset, Bool.false_eq_true, ↓reduceIte]
  rw [if_pos (by omega), size]
  omega

theorem take_packagePath {above : Ref} {name path : Bytes} (holds : Holds (packagePath apkg (above ++ [name])) path) :
    path.take (packagePath apkg above).length = packagePath apkg above := by
  have kept := congrArg (List.take (packagePath apkg above).length) holds.starts
  rw [List.take_take, packagePath_snoc, List.length_append, Nat.min_eq_left (Nat.le_add_right _ _),
    List.take_left] at kept
  exact kept

/-- Where the marking of a package starts in the path buffer. -/
theorem Entered.start {mode : Mode} {root : Ref × Marker} {progress : Progress Closure} {tree : PathTree}
    {packdir : PathEntry} {manifest : Json} {described : Described} {state : State Closure}
    (entered : Entered world apkg mode root progress tree packdir manifest described state) :
    ∃ above, root.1 = above ++ [packdir.label.name] ∧
      Package.entryOffset ⟨packdir, (stripped apkg.root).length, (packagePath apkg root.1).length,
        described.manifest⟩ { after := true } = (packagePath apkg above).length ∧
      state.path.take (packagePath apkg above).length = packagePath apkg above := by
  obtain ⟨member, located⟩ := (descend_root_iff tree root.1 packdir).mp entered.found
  obtain ⟨above, last⟩ := ref_last tree packdir member (by rw [located]; exact entered.below)
  rw [located] at last
  have holds := entered.holds
  rw [last] at holds
  refine ⟨above, last, ?_, take_packagePath apkg holds⟩
  rw [last]
  exact entryOffset_package apkg packdir above described.manifest

theorem packTags_refs {mode : Mode} {root : Ref × Marker} {progress : Progress Closure} {tree : PathTree}
    {packdir : PathEntry} {manifest : Json} {described : Described} {state : State Closure}
    (entered : Entered world apkg mode root progress tree packdir manifest described state)
    (fits : ∀ entry ∈ packdir.entries, (packagePath apkg entry.ref).length < PATH_MAX) :
    (packTags ⟨packdir, (stripped apkg.root).length, (packagePath apkg root.1).length,
      described.manifest⟩ state.path).map Prod.fst = packdir.entries.map PathEntry.ref := by
  obtain ⟨above, last, offset, -⟩ := entered.start
  have located := ((descend_root_iff tree root.1 packdir).mp entered.found).2
  have room := entered.room
  have size : (packagePath apkg root.1).length =
      (packagePath apkg above).length + (packdir.label.name.length + 1) := by
    rw [packagePath_length, packagePath_length, last, slashed_append, List.length_append, List.length_cons]
    omega
  have above_ := packagePath_length apkg above
  have whole := tourFrom_loud { after := true } (PATH_MAX - (packagePath apkg above).length)
    (slashed above).length packdir [] rfl
    (by
      have longer := underPath_length { after := true } packdir.label []
      rw [located, last, slashed_append, List.length_append, List.length_cons]
      simp only [List.length_nil] at longer
      omega)
    (by
      intro _ _
      simp only [List.length_nil]
      omega)
    (by
      intro _ other member
      have short := fits other (List.mem_append.mpr (Or.inl member))
      rw [packagePath_length] at short
      omega)
  have tour : Package.tour ⟨packdir, (stripped apkg.root).length, (packagePath apkg root.1).length,
      described.manifest⟩ { after := true } (PATH_MAX - (packagePath apkg above).length) =
        Tour.of (visitsFrom { after := true } packdir []) := whole
  rw [packTags, offset, entered.holds.size, tour, List.map_map]
  have refs := congrArg (List.map PathEntry.ref) (visitsFrom_after { after := true } rfl rfl rfl packdir [])
  rw [List.map_map] at refs
  simpa [Tour.of, visitTag, emits, Function.comp_def] using refs

/-- After some package roots, each has had its session and is not in the tree any more. -/
structure Advanced (done : List (Ref × Marker)) (progress : Progress Closure) : Prop where
  files : ∃ rest, progress.files = some rest ∧ Pruned apkg.files (done.map Prod.fst) rest
  rooted : Holds (stripped apkg.root) progress.state.path
  sessions : ∃ packages : List (Ref × Session), progress.state.calls = packages.flatMap (·.2.calls) ∧
    packages.map Prod.fst = done.map Prod.fst ∧ ∀ package ∈ packages, Covers apkg.files package.1 package.2

theorem roots_order {done later : List (Ref × Marker)} {root : Ref × Marker}
    (order : (detectPackageRoots apkg.files).2 = done ++ root :: later) :
    packageRefs apkg.files = done.map Prod.fst ++ root.1 :: later.map Prod.fst := by
  rw [packageRefs, order, List.map_append, List.map_cons]

/-- The session of the next package, which takes the entries of that package away. -/
theorem session_advances (succeeds : Succeeds opers)
    (fits : ∀ ref ∈ treeRefs apkg.files, (packagePath apkg ref).length < PATH_MAX)
    {done : List (Ref × Marker)} {root : Ref × Marker} {later : List (Ref × Marker)}
    (order : (detectPackageRoots apkg.files).2 = done ++ root :: later) (below : root.1 ≠ [])
    {progress : Progress Closure} (advanced : Advanced apkg done progress) {tree : PathTree} {packdir : PathEntry}
    {manifest : Json} {described : Described} {state : State Closure}
    (entered : Entered world apkg .install root progress tree packdir manifest described state) :
    Meets (fun result => if result.1 = 0 then Advanced apkg (done ++ [root]) ⟨pathEntryDestroy tree root.1, result.2⟩
        else result.1 < 0) (fun crashed => crashed.crash ≠ .dangling)
      (session world opers ((described.manifest.get MANIFEST_ID).bind (Json.getString world.serialize)) .install
        ⟨packdir, (stripped apkg.root).length, (packagePath apkg root.1).length, described.manifest⟩ state) := by
  obtain ⟨⟨rest, files, pruned⟩, rooted, packages, calls, names, covers⟩ := advanced
  obtain rfl : tree = rest := Option.some.inj (entered.files.symm.trans files)
  obtain ⟨packdir', found, wf, -, inTree⟩ := pruned.own (roots_order apkg order)
  obtain rfl : packdir = packdir' := Option.some.inj (entered.found.symm.trans found)
  have units : ∀ closure units, (opers.setunits closure units).1 ≤ 0 := fun closure units =>
    (succeeds.setunits closure units).le
  have placed := entered.placed
  have own := packTags_refs world apkg entered (fun entry member =>
    fits entry.ref ((inTree entry.ref).mp (List.mem_map_of_mem member)).1)
  have sign : state.rc ≤ 0 := entered.fine.le
  have all := ((session_meets world opers ((described.manifest.get MANIFEST_ID).bind
    (Json.getString world.serialize)) _ state placed.room).and
    (session_alike world opers _ _ state placed)).and
    (session_tags world opers units _ _ state placed.room sign)
  refine all.mono ?_ ?_
  · rintro result ⟨⟨⟨session, proper, made, -⟩, alike⟩, marked⟩
    split
    · next zero =>
      have tags : tagsOf result.2.calls = tagsOf state.calls ++ packTags ⟨packdir,
          (stripped apkg.root).length, (packagePath apkg root.1).length, described.manifest⟩ state.path := by
        rcases marked.tags with whole | ⟨negative, -⟩
        · exact whole
        · omega
      rw [made, tagsOf_append, List.append_cancel_left_eq, tagsOf_session] at tags
      have tagged : session.tagged = packdir.entries.map PathEntry.ref := by
        rw [Session.tagged, tags, own]
      obtain ⟨rest', destroyed⟩ : ∃ rest', pathEntryDestroy tree root.1 = some rest' := by
        simp [pathEntryDestroy, below]
      refine ⟨⟨rest', destroyed, ?_⟩, rooted.alike (entered.quiet.path.trans alike) le_rfl,
        packages ++ [(root.1, session)], ?_, by simp [names], ?_⟩
      · rw [List.map_append]
        exact pruned.destroy destroyed
      · simp only
        rw [made, entered.quiet.calls, calls, List.flatMap_append]
        simp
      · intro other member
        rcases List.mem_append.mp member with early | last
        · exact covers other early
        · rw [List.mem_singleton.mp last]
          refine ⟨proper, ?_, ?_⟩
          · rw [tagged]
            exact nodup_from packdir wf
          · rw [tagged]
            exact inTree
    · next other =>
      have code := marked.code
      omega
  · rintro crashed ⟨-, null⟩
    rw [null.crash]
    simp

theorem processRootpkg_advances (succeeds : Succeeds opers) (outer : ¬IsPackage apkg.files [])
    (fits : ∀ ref ∈ treeRefs apkg.files, (packagePath apkg ref).length < PATH_MAX)
    (done : List (Ref × Marker)) (root : Ref × Marker) (later : List (Ref × Marker))
    (order : (detectPackageRoots apkg.files).2 = done ++ root :: later) (progress : Progress Closure)
    (advanced : Advanced apkg done progress) :
    Meets (fun result => if result.1 = 0 then Advanced apkg (done ++ [root]) result.2 else result.1 < 0)
      (fun crashed => crashed.crash ≠ .dangling)
      (processRootpkg world opers apkg .install (stripped apkg.root).length root progress) := by
  obtain ⟨rest, files, pruned⟩ := advanced.files
  have refs := roots_order apkg order
  have package : IsPackage apkg.files root.1 := by
    rw [← mem_packageRefs, refs]
    simp
  obtain ⟨packdir, found, -⟩ := pruned.own refs
  have below : root.1 ≠ [] := fun top => outer (top ▸ package)
  apply processRootpkg_meets world opers apkg .install root progress advanced.rooted
  · intro crash state crashed _
    cases crashed with
    | dangling missing => simp [files, found] at missing
    | nullRead _ => simp
    | overflow _ => simp
    | redpak _ searched => simp [getRedpakid_error world apkg _ _ crash searched]
  · intro tree rc state _ negative _
    rw [if_neg negative.ne]
    exact negative
  · intro tree packdir manifest described state entered
    exact session_advances world opers apkg succeeds fits order below advanced entered

def addedOnly : ForallFlags := { onlyAdded := true, before := true }

theorem iterate_one {Item : Type} (items : List Item) :
    (iterate (fun (_ : Unit) (_ : Item) => ((1 : Int), ())) items ()).1 = if items = [] then 0 else 1 := by
  cases items <;> rfl

theorem mem_addedVisits_ref (tree : PathTree) (flags : ForallFlags) (only : flags.onlyAdded = true)
    (first : flags.before = true) (early : flags.after = false) (loud : flags.silentRoot = false) (ref : Ref) :
    (∃ visit ∈ visitsFrom flags tree.root [], visit.entry.ref = ref) ↔ tree.Added ref := by
  have perm := visitsFrom_before flags first early loud tree.root []
  have member : ∀ entry, (∃ visit ∈ visitsFrom flags tree.root [], visit.entry = entry) ↔
      entry ∈ tree.root.entries ∧ entry.label.added = true := by
    intro entry
    rw [← List.mem_map, perm.mem_iff, List.mem_filter, emits, only]
    simp
  unfold PathTree.Added
  constructor
  · rintro ⟨visit, inside, same⟩
    obtain ⟨known, added⟩ := (member visit.entry).mp ⟨visit, inside, rfl⟩
    exact ⟨visit.entry, known, added, same⟩
  · rintro ⟨entry, known, added, same⟩
    obtain ⟨visit, inside, here⟩ := (member entry).mpr ⟨known, added⟩
    exact ⟨visit, inside, by rw [here, same]⟩

theorem detectAdded_iff (tree : PathTree) : detectAdded tree ≤ 0 ↔ ∀ ref, ¬tree.Added ref := by
  have whole := tourFrom_loud { onlyAdded := true, noPath := true, before := true } 0 0 tree.root [] rfl
    (by simp [underPath]) (by simp) (by simp)
  have value : detectAdded tree =
      if visitsFrom { onlyAdded := true, noPath := true, before := true } tree.root [] = [] then 0 else 1 := by
    unfold detectAdded
    rw [forEachInBuffer_eq _ _ rfl, effective, if_neg (by simp), whole, Tour.run_of]
    exact iterate_one _
  have known := mem_addedVisits_ref tree { onlyAdded := true, noPath := true, before := true } rfl rfl rfl rfl
  rw [value]
  constructor
  · intro none ref added
    obtain ⟨visit, inside, -⟩ := (known ref).mpr added
    rw [if_neg (List.ne_nil_of_mem inside)] at none
    exact absurd none (by decide)
  · intro nothing
    rw [if_pos]
    rw [List.eq_nil_iff_forall_not_mem]
    intro visit inside
    exact nothing visit.entry.ref ((known visit.entry.ref).mp ⟨visit, inside, rfl⟩)

theorem outside_iff {tree rest : PathTree} (pruned : Pruned tree (packageRefs tree) rest) (entry : Ref) :
    rest.Added entry ↔ Outside tree entry := by
  unfold Outside
  rw [added_marks, added_marks, pruned.marks]
  constructor
  · rintro ⟨mark, member, same, added⟩
    rw [List.mem_filter, decide_eq_true_eq] at member
    refine ⟨⟨mark, member.1, same, added⟩, fun root package => ?_⟩
    rw [← same]
    exact member.2 root ((mem_packageRefs tree root).mpr package)
  · rintro ⟨⟨mark, member, same, added⟩, aside⟩
    refine ⟨mark, ?_, same, added⟩
    rw [List.mem_filter, decide_eq_true_eq, same]
    exact ⟨member, fun root package => aside root ((mem_packageRefs tree root).mp package)⟩

theorem iterate_default (succeeds : Succeeds opers) (lead : Bytes) (visits : List Visit) (state : State Closure) :
    (iterate (onString (processDefaultTreeAddCb opers) lead) visits state).1 = 0 ∧
    (iterate (onString (processDefaultTreeAddCb opers) lead) visits state).2.calls =
      state.calls ++ visits.map fun visit =>
        .tagfile visit.entry.ref (cstr (lead ++ visit.path)) .Default 0 := by
  induction visits generalizing state with
  | nil => simp [iterate]
  | cons visit rest ih =>
    have zero : (onString (processDefaultTreeAddCb opers) lead state visit).1 = 0 := succeeds.tagfile _ _ _
    have here : (onString (processDefaultTreeAddCb opers) lead state visit).2.calls =
        state.calls ++ [.tagfile visit.entry.ref (cstr (lead ++ visit.path)) .Default 0] := by
      simp only [onString, processDefaultTreeAddCb, State.called, succeeds.tagfile]
    rw [iterate, if_pos zero]
    obtain ⟨code, calls⟩ := ih (onString (processDefaultTreeAddCb opers) lead state visit).2
    refine ⟨code, ?_⟩
    rw [calls, here, List.append_assoc, List.map_cons, List.singleton_append]

theorem tagDefaultTree_calls (succeeds : Succeeds opers) {lead : Bytes} (tree : PathTree) (state : State Closure)
    (holds : Holds lead state.path) (short : lead.length < PATH_MAX)
    (fits : ∀ ref ∈ treeRefs tree, (lead ++ slashed ref).length < PATH_MAX) :
    (tagDefaultTree opers lead.length tree state).1 = 0 ∧
    (tagDefaultTree opers lead.length tree state).2.calls =
      state.calls ++ (visitsFrom addedOnly tree.root []).map fun visit =>
        .tagfile visit.entry.ref (cstr (lead ++ visit.path)) .Default 0 := by
  have whole : defaultTour tree (PATH_MAX - lead.length) = Tour.of (visitsFrom addedOnly tree.root []) := by
    apply tourFrom_loud addedOnly (PATH_MAX - lead.length) 0 tree.root [] rfl
    · simp [underPath, PathTree.root, PathTree.label]
    · intro _ named
      exact absurd rfl named
    · intro _ other member
      have inside := fits other.ref (List.mem_map_of_mem (List.mem_append.mpr (Or.inl member)))
      rw [List.length_append] at inside
      omega
  obtain ⟨path', -, run⟩ := tagDefaultTree_eq opers tree state holds short
  obtain ⟨code, calls⟩ := iterate_default opers succeeds lead (visitsFrom addedOnly tree.root []) state
  rw [run, whole, Tour.run_of]
  exact ⟨code, calls⟩

theorem processDefaultTree_covers (succeeds : Succeeds opers) {lead : Bytes} {tree rest : PathTree}
    (pruned : Pruned tree (packageRefs tree) rest) (state : State Closure) (holds : Holds lead state.path)
    (short : lead.length < PATH_MAX) (fits : ∀ ref ∈ treeRefs rest, (lead ++ slashed ref).length < PATH_MAX) :
    (∃ session, CoversRest tree session ∧
      (processDefaultTree opers .install lead.length rest state).2.calls = state.calls ++ session.calls) ∨
    ((∀ entry, ¬Outside tree entry) ∧
      (processDefaultTree opers .install lead.length rest state).2.calls = state.calls) := by
  simp only [processDefaultTree, ne_eq, not_true_eq_false, ↓reduceIte]
  split
  · next nothing =>
    refine Or.inr ⟨fun entry outside => ?_, rfl⟩
    exact (detectAdded_iff rest).mp nothing entry ((outside_iff pruned entry).mpr outside)
  · left
    have zero := succeeds.begins state.closure none .install
    generalize opers.begins state.closure none .install = begin at zero
    have begun : (state.called (.begins none) begin).1 = 0 := zero
    rw [if_pos begun.ge]
    obtain ⟨code, calls⟩ := tagDefaultTree_calls opers succeeds rest (state.called (.begins none) begin).2
      holds short fits
    generalize tagDefaultTree opers lead.length rest (state.called (.begins none) begin).2 = tagged at code calls
    refine ⟨⟨none, 0, (visitsFrom addedOnly rest.root []).map fun visit =>
      .tagfile visit.entry.ref (cstr (lead ++ visit.path)) .Default 0, 0, 0⟩, ?_, ?_⟩
    · have refs : Session.tagged ⟨none, 0, (visitsFrom addedOnly rest.root []).map fun visit =>
          .tagfile visit.entry.ref (cstr (lead ++ visit.path)) .Default 0, 0, 0⟩ =
            (visitsFrom addedOnly rest.root []).map fun visit => visit.entry.ref := by
        simp [Session.tagged, tagsOf, List.filterMap_map, Function.comp_def, Call.tag]
      have perm := (visitsFrom_before addedOnly rfl rfl rfl rest.root []).map PathEntry.ref
      rw [List.map_map] at perm
      refine ⟨⟨?_, by simp, ?_⟩, rfl, ?_, ?_, ?_⟩
      · intro call member
        obtain ⟨visit, -, made⟩ := List.mem_map.mp member
        rw [← made]
        rfl
      · rintro (negative | ⟨call, member, negative⟩)
        · exact absurd negative (lt_irrefl 0)
        · obtain ⟨visit, -, made⟩ := List.mem_map.mp member
          rw [← made] at negative
          exact absurd negative (lt_irrefl 0)
      · intro call member
        obtain ⟨visit, -, made⟩ := List.mem_map.mp member
        exact ⟨_, _, _, made.symm⟩
      · rw [refs]
        refine perm.nodup_iff.mpr ((nodup_from rest.root rest.wf).sublist ?_)
        exact List.filter_sublist.map PathEntry.ref
      · intro entry
        rw [refs, ← outside_iff pruned, ← mem_addedVisits_ref rest addedOnly rfl rfl rfl rfl, List.mem_map]
    · simp only [State.called, code, calls, succeeds.ends, Session.calls, zero, List.append_assoc,
        List.cons_append, List.nil_append]

/-- An installation that succeeds partitions the files among the sessions. No package
root is looked up in vain. -/
theorem afmpkgInstall_partitions (closure : Closure) (succeeds : Succeeds opers)
    (outer : ¬IsPackage apkg.files [])
    (fits : ∀ ref ∈ treeRefs apkg.files, (packagePath apkg ref).length < PATH_MAX) :
    Meets (fun result => result.1 = 0 → Partitioned apkg.files result.2.calls)
      (fun crashed => crashed.crash ≠ .dangling) (afmpkgInstall world opers apkg closure) := by
  unfold afmpkgInstall afmpkgProcess
  split_ifs with long cut
  · intro zero
    change -ENAMETOOLONG = 0 at zero
    exact absurd zero (by decide)
  · exact Crash.noConfusion
  · obtain ⟨rooted, room⟩ := holds_initialPath world apkg.root (rootLength_short long cut)
    have detected : (detectPackageRoots apkg.files).1 = 0 := by rw [detectPackageRoots_eq]
    have packages : Meets (fun result => result.1 < 0 ∨
        (result.1 = 0 ∧ Advanced apkg (detectPackageRoots apkg.files).2 result.2))
        (fun crashed => crashed.crash ≠ .dangling)
        (rootpkgsForEach world opers apkg .install (stripped apkg.root).length (detectPackageRoots apkg.files).2
          ⟨some apkg.files, startState closure (initialPath world apkg.root)⟩) := by
      apply rootpkgsForEach_meets world opers apkg .install _ (Advanced apkg)
      · intro done root later order progress advanced
        refine (processRootpkg_advances world opers apkg succeeds outer fits done root later order progress
          advanced).mono ?_ fun _ => id
        intro result next
        split at next
        · next zero =>
          rw [if_pos zero]
          exact next
        · next other =>
          rw [if_neg other]
          exact Or.inl next
      · exact fun progress advanced => Or.inr ⟨rfl, advanced⟩
      · exact ⟨⟨apkg.files, rfl, pruned_start apkg.files⟩, rooted, [], rfl, rfl, by simp⟩
    simp only
    rw [if_neg (by rw [detected]; decide)]
    refine packages.bind fun result done => ?_
    rcases done with negative | ⟨zero, ⟨rest, files, pruned⟩, holds, packages, calls, names, covers⟩
    · rw [if_pos negative]
      intro zero
      change result.1 = 0 at zero
      omega
    · have inTree : ∀ ref ∈ treeRefs rest, (stripped apkg.root ++ slashed ref).length < PATH_MAX := by
        intro ref member
        apply fits
        rw [mem_marks] at member ⊢
        obtain ⟨mark, inside, same⟩ := member
        rw [pruned.marks] at inside
        exact ⟨mark, (List.mem_filter.mp inside).1, same⟩
      have known : ∀ root, root ∈ packages.map Prod.fst ↔ IsPackage apkg.files root := by
        intro root
        rw [names]
        exact mem_packageRefs apkg.files root
      have order : (packages.map Prod.fst).Pairwise fun first second => ¬first <+: second := by
        rw [names]
        exact packageRefs_order apkg.files
      rw [if_neg (by omega), files]
      intro _
      rcases processDefaultTree_covers opers succeeds pruned result.2.state holds room inTree with
        ⟨session, rest', made⟩ | ⟨nothing, made⟩
      · refine ⟨packages, some session, ?_, known, order, covers, innermost_unique apkg.files, rest'⟩
        simp only [made, calls, Option.toList_some, List.flatMap_cons, List.flatMap_nil, List.append_nil]
      · refine ⟨packages, none, ?_, known, order, covers, innermost_unique apkg.files, nothing⟩
        simp only [made, calls, Option.toList_none, List.flatMap_nil, List.append_nil]

end

def nestedRequest : Description :=
  request none [ascii "/p/config.xml", ascii "/p/q/.rpconfig/manifest.yml", ascii "file"]

theorem afmpkgInstall_partitions_nested :
    ∃ result, afmpkgInstall (plainWorld (requiring (.string MANIFEST_VALUE_REQUIRED))) accepting nestedRequest () =
      .ok result ∧ result.1 = 0 ∧ Partitioned nestedRequest.files result.2.calls := by
  have succeeds : Succeeds accepting :=
    ⟨fun _ _ _ => rfl, fun _ _ _ => rfl, fun _ _ => rfl, fun _ _ _ _ => rfl, fun _ _ => rfl, fun _ => rfl⟩
  have undetected : detectPackageRoot nestedRequest.files.root = none := by decide +kernel
  have fits : ∀ ref ∈ treeRefs nestedRequest.files, (packagePath nestedRequest ref).length < PATH_MAX := by
    decide +kernel
  have installed : (match afmpkgInstall (plainWorld (requiring (.string MANIFEST_VALUE_REQUIRED))) accepting
      nestedRequest () with
    | .ok result => decide (result.1 = 0)
    | .error _ => false) = true := by decide +kernel
  generalize nestedRequest = apkg at undetected fits installed
  have outer : ¬IsPackage apkg.files [] := by
    intro top
    have found := (detectPackageRoot_isSome apkg.files apkg.files.root (by simp [PathEntry.entries])).mpr top
    rw [undetected] at found
    cases found
  have partitions := afmpkgInstall_partitions (plainWorld (requiring (.string MANIFEST_VALUE_REQUIRED)))
    accepting apkg () succeeds outer fits
  generalize afmpkgInstall (plainWorld (requiring (.string MANIFEST_VALUE_REQUIRED))) accepting apkg () = run
    at installed partitions
  cases run with
  | ok result =>
    have zero : result.1 = 0 := of_decide_eq_true installed
    exact ⟨result, rfl, zero, partitions zero⟩
  | error crashed => cases installed

end AppManager.Install
