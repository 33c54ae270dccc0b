import AppManager.Install.Partition
import AppManager.Utils.PathSlashes

/-! The paths under which entries are marked. Package directories are written with a
slash before each name, but the names of the last ones, as those of the other files,
come with the slashes that the first paths were given with. -/

namespace AppManager.Install
open AppManager.Lib AppManager.Lib.Libc AppManager.Utils AppManager.Units

def tagPath (root : Option Bytes) (entry : Ref) : Bytes :=
  stripped root ++ Utils.slash :: List.intercalate [Utils.slash] entry

theorem slash_intercalate (name : Bytes) (rest : Ref) :
    Utils.slash :: List.intercalate [Utils.slash] (name :: rest) = slashed (name :: rest) := by
  induction rest generalizing name with
  | nil => simp [slashed]
  | cons next rest ih =>
    rw [slashed_cons, ← ih next, List.intercalate_cons_cons]
    simp

theorem tagPath_append (apkg : Description) (above rest : Ref) (name : Bytes) :
    tagPath apkg.root (above ++ [name] ++ rest) = packagePath apkg above ++ Utils.slash :: (name ++ slashed rest) := by
  have whole : Utils.slash :: List.intercalate [Utils.slash] (above ++ [name] ++ rest) =
      slashed (above ++ [name] ++ rest) := by
    cases above with
    | nil => exact slash_intercalate name rest
    | cons first others => exact slash_intercalate first _
  rw [tagPath, whole, packagePath]
  simp [slashed]

/-- The entries that are marked under their own path: there is no NUL in it, and either
the package is not at the top or the first path that led there starts with a slash. -/
structure WellPlaced (root : Option Bytes) (paths : List Bytes) (entry : Ref) : Prop where
  clean : (0 : Byte) ∉ tagPath root entry
  placed : (∃ package, Innermost (filesOf paths) package entry ∧ 2 ≤ package.length) ∨
    ∃ name rest path, entry = name :: rest ∧ firstThrough name paths = some path ∧ startsWithSlash path = true

/-- Exactly the marks of well placed entries have the right path. -/
def RightTags (root : Option Bytes) (paths : List Bytes) (tags : List (Ref × Bytes)) : Prop :=
  ∀ tag ∈ tags, tag.2 = tagPath root tag.1 ↔ WellPlaced root paths tag.1

theorem slashes_filesOf (paths : List Bytes) : Slashes paths (filesOf paths) := by
  induction paths using List.reverseRecOn with
  | nil => exact slashes_start
  | append_singleton paths path ih =>
    rw [filesOf, List.foldl_append]
    exact ih.add path

theorem labelAt_mark (tree : PathTree) (entry : PathEntry) (member : entry.mark ∈ tree.marks) :
    labelAt entry.ref tree.label tree.children = some entry.label := by
  obtain ⟨other, inside, same⟩ := List.mem_map.mp member
  have ref : other.ref = entry.ref := congrArg Prod.fst same
  have lineage : other.lineage = entry.lineage := congrArg Prod.snd same
  have found := (descend_root_iff tree entry.ref other).mpr ⟨inside, ref⟩
  have label := descend_label entry.ref tree.root
  rw [found, Option.map_some] at label
  exact label.symm.trans (congrArg some (List.cons.inj lineage).1)

theorem cstr_leading (lead tail : Bytes) (label : Label) :
    cstr (lead ++ (leading label ++ tail)) = lead ++ Utils.slash :: tail ↔
      (0 : Byte) ∉ lead ++ Utils.slash :: tail ∧ label.slash = true := by
  cases given : label.slash with
  | true =>
    simp only [leading, given, ↓reduceIte, List.singleton_append, and_true]
    exact ⟨fun same => same ▸ cstr_clean _, cstr_of_no_nul _⟩
  | false =>
    simp only [leading, given, Bool.false_eq_true, ↓reduceIte, List.nil_append, and_false, iff_false]
    intro same
    have size := cstr_length_le (lead ++ tail)
    have longer := congrArg List.length same
    simp only [List.length_append, List.length_cons] at size longer
    omega

theorem visitTag_right (apkg : Description) (paths : List Bytes) {above rest : Ref} {label : Label} (visit : Visit)
    (located : visit.entry.ref = above ++ [label.name] ++ rest)
    (shown : visit.path = leading label ++ label.name ++ slashed rest)
    (placed : label.slash = true ↔ ((∃ package, Innermost (filesOf paths) package visit.entry.ref ∧
        2 ≤ package.length) ∨ ∃ name rest path, visit.entry.ref = name :: rest ∧
          firstThrough name paths = some path ∧ startsWithSlash path = true)) :
    (visitTag (packagePath apkg above) visit).2 = tagPath apkg.root (visitTag (packagePath apkg above) visit).1 ↔
      WellPlaced apkg.root paths (visitTag (packagePath apkg above) visit).1 := by
  have whole := tagPath_append apkg above rest label.name
  rw [← located] at whole
  have right := cstr_leading (packagePath apkg above) (label.name ++ slashed rest) label
  rw [← whole, placed] at right
  simp only [visitTag]
  rw [shown, List.append_assoc, right]
  exact ⟨fun both => ⟨both.1, both.2⟩, fun well => ⟨well.clean, well.placed⟩⟩

theorem first_slash {paths : List Bytes} {name : Bytes} {label : Label}
    (found : labelAt [name] (filesOf paths).label (filesOf paths).children = some label) (rest : Ref) :
    label.slash = true ↔ ∃ name' rest' path, name :: rest = name' :: rest' ∧
      firstThrough name' paths = some path ∧ startsWithSlash path = true := by
  have flag := (slashes_filesOf paths).first found
  constructor
  · intro given
    rw [given, eq_comm, Option.map_eq_some_iff] at flag
    obtain ⟨path, through, starts⟩ := flag
    exact ⟨name, rest, path, rfl, through, starts⟩
  · rintro ⟨name', rest', path, same, through, starts⟩
    rw [← (List.cons.inj same).1] at through
    rw [through, Option.map_some, starts] at flag
    exact Option.some.inj flag

section
variable {Closure : Type} (world : World) (opers : Operations Closure) (apkg : Description) (paths : List Bytes)

theorem packTags_right (given : apkg.files = filesOf paths) {root : Ref × Marker} {progress : Progress Closure}
    {tree : PathTree} {packdir : PathEntry} {manifest : Json} {described : Described} {state : State Closure}
    (entered : Entered world apkg .install root progress tree packdir manifest described state)
    (wf : packdir.children.WellFormed) (marks : ∀ entry ∈ packdir.entries, entry.mark ∈ apkg.files.marks)
    (inTree : ∀ entry, entry ∈ packdir.entries.map PathEntry.ref ↔
      entry ∈ treeRefs apkg.files ∧ Innermost apkg.files root.1 entry) :
    RightTags apkg.root paths (packTags ⟨packdir, (stripped apkg.root).length,
      (packagePath apkg root.1).length, described.manifest⟩ state.path) := by
  obtain ⟨above, last, offset, start⟩ := entered.start
  have located := ((descend_root_iff tree root.1 packdir).mp entered.found).2
  have own : packdir ∈ packdir.entries := by simp [PathEntry.entries]
  have label := labelAt_mark apkg.files packdir (marks packdir own)
  have named : packdir.label.name ≠ [] := by
    have inside := ((descend_root_iff tree root.1 packdir).mp entered.found).1
    exact entry_named tree packdir inside (by rw [located]; exact entered.below)
  rw [located] at label
  intro tag member
  rw [packTags, offset, start] at member
  obtain ⟨visit, toured, made⟩ := List.mem_map.mp member
  have visited : visit ∈ visitsFrom { after := true } packdir [] :=
    (tourFrom_visits { after := true } _ packdir []).1.subset toured
  obtain ⟨rest, reached, shown⟩ := visitsFrom_path { after := true } rfl rfl packdir named wf visit visited
  rw [located, last] at reached
  have entry : visit.entry ∈ packdir.entries := by
    have map := List.mem_map_of_mem (f := Visit.entry) visited
    rw [visitsFrom_after { after := true } rfl rfl rfl packdir []] at map
    exact (List.mem_filter.mp map).1
  have innermost := ((inTree visit.entry.ref).mp (List.mem_map_of_mem entry)).2
  rw [given] at innermost label
  rw [← made]
  apply visitTag_right apkg paths visit reached shown
  have only : ∀ package, Innermost (filesOf paths) package visit.entry.ref → package = root.1 := by
    intro package other
    exact (innermost_unique _ _ _ innermost.package innermost.inside).unique other innermost
  cases above with
  | nil =>
    rw [last] at label only
    have top : visit.entry.ref = packdir.label.name :: rest := reached
    have flag := first_slash label rest
    rw [← top] at flag
    refine flag.trans ⟨Or.inr, ?_⟩
    rintro (⟨package, other, nested⟩ | given)
    · rw [only package other] at nested
      simp at nested
    · exact given
  | cons first others =>
    have nested : 2 ≤ root.1.length := by simp [last]
    exact ⟨fun _ => Or.inl ⟨root.1, innermost, nested⟩, fun _ => (slashes_filesOf paths).nested label nested⟩

theorem addedVisit_cases {tree : PathTree} {visit : Visit} (visited : visit ∈ visitsFrom addedOnly tree.root []) :
    visit = ⟨tree.root, []⟩ ∨ visit ∈ visitsBelow addedOnly tree.root [] tree.children := by
  have loud : addedOnly.silentRoot = false := rfl
  have early : addedOnly.after = false := rfl
  have pathless : underPath addedOnly tree.root.label [] = [] := rfl
  simp only [visitsFrom, loud, early, pathless, Bool.false_eq_true, ↓reduceIte, Bool.and_false,
    List.append_nil] at visited
  rcases List.mem_append.mp visited with top | below
  · split at top
    · exact Or.inl (List.mem_singleton.mp top)
    · cases top
  · exact Or.inr below

theorem defaultTags_right (given : apkg.files = filesOf paths) {rest : PathTree}
    (pruned : Pruned apkg.files (packageRefs apkg.files) rest) (visit : Visit)
    (visited : visit ∈ visitsFrom addedOnly rest.root []) :
    (visitTag (stripped apkg.root) visit).2 = tagPath apkg.root (visitTag (stripped apkg.root) visit).1 ↔
      WellPlaced apkg.root paths (visitTag (stripped apkg.root) visit).1 := by
  have inTree : ∀ entry ∈ rest.root.entries, entry.mark ∈ (filesOf paths).marks ∧
      ∀ package, ¬Innermost (filesOf paths) package entry.ref := by
    intro entry member
    have mark : entry.mark ∈ rest.marks := List.mem_map_of_mem member
    rw [pruned.marks, List.mem_filter, decide_eq_true_eq, given] at mark
    refine ⟨mark.1, fun package innermost => ?_⟩
    exact mark.2 package ((mem_packageRefs _ package).mpr innermost.package) innermost.inside
  have aside : ∀ package, ¬Innermost (filesOf paths) package visit.entry.ref := by
    have map := List.mem_map_of_mem (f := Visit.entry) visited
    rw [(visitsFrom_before addedOnly rfl rfl rfl rest.root []).mem_iff] at map
    exact (inTree visit.entry (List.mem_filter.mp map).1).2
  rcases addedVisit_cases visited with root | below
  · have empty : visit.entry.ref = [] := by rw [root]; rfl
    constructor
    · intro same
      have size := congrArg List.length same
      have bound := cstr_length_le (stripped apkg.root)
      simp only [visitTag, root, tagPath, List.append_nil, List.length_append, List.length_cons]
        at size bound
      omega
    · rintro ⟨-, ⟨package, innermost, -⟩ | ⟨name, others, path, same, -⟩⟩
      · exact absurd innermost (aside package)
      · change visit.entry.ref = _ at same
        rw [empty] at same
        cases same
  · obtain ⟨child, inside, others, top, located, shown⟩ :=
      visitsBelow_top addedOnly rfl rest.root rest.children rest.wf visit below
    have topRef : child.ref = [child.label.name] := top
    have label := labelAt_mark (filesOf paths) child
      (inTree child (List.mem_append.mpr (Or.inl inside))).1
    rw [topRef] at label located
    have lead : stripped apkg.root = packagePath apkg [] := by simp [packagePath, slashed]
    rw [lead]
    apply @visitTag_right apkg paths [] _ _ visit located shown
    have flag := first_slash label others
    have ref : visit.entry.ref = child.label.name :: others := located
    rw [← ref] at flag
    refine flag.trans ⟨Or.inr, ?_⟩
    rintro (⟨package, innermost, -⟩ | given)
    · exact absurd innermost (aside package)
    · exact given

/-- After some package roots, the marks are as they should be. -/
structure Marking (done : List (Ref × Marker)) (progress : Progress Closure) : Prop where
  files : ∃ rest, progress.files = some rest ∧ Pruned apkg.files (done.map Prod.fst) rest
  rooted : Holds (stripped apkg.root) progress.state.path
  right : RightTags apkg.root paths (tagsOf progress.state.calls)

theorem RightTags.append {root : Option Bytes} {first second : List (Ref × Bytes)}
    (right : RightTags root paths first) (more : RightTags root paths second) :
    RightTags root paths (first ++ second) := by
  intro tag member
  rcases List.mem_append.mp member with early | late
  · exact right tag early
  · exact more tag late

theorem processRootpkg_marking (units : ∀ closure units, (opers.setunits closure units).1 ≤ 0)
    (given : apkg.files = filesOf paths) (done : List (Ref × Marker)) (root : Ref × Marker)
    (later : List (Ref × Marker)) (order : (detectPackageRoots apkg.files).2 = done ++ root :: later)
    (progress : Progress Closure) (marking : Marking apkg paths done progress) :
    Meets (fun result => if result.1 = 0 then Marking apkg paths (done ++ [root]) result.2
        else result.1 < 0 ∧ RightTags apkg.root paths (tagsOf result.2.state.calls))
      (fun crashed => RightTags apkg.root paths (tagsOf crashed.state.calls))
      (processRootpkg world opers apkg .install (stripped apkg.root).length root progress) := by
  obtain ⟨⟨rest, files, pruned⟩, rooted, right⟩ := marking
  obtain ⟨packdir, found, wf, marks, inTree⟩ := pruned.own (roots_order apkg order)
  apply processRootpkg_meets world opers apkg .install root progress rooted
  · intro crash state _ quiet
    rw [quiet.calls]
    exact right
  · intro tree rc state _ negative quiet
    rw [if_neg negative.ne]
    refine ⟨negative, ?_⟩
    rw [quiet.calls]
    exact right
  · intro tree packdir' manifest described state entered
    have sameTree : tree = rest := Option.some.inj (entered.files.symm.trans files)
    subst sameTree
    have sameDir : packdir' = packdir := Option.some.inj (entered.found.symm.trans found)
    subst sameDir
    have placed := entered.placed
    have own := packTags_right world apkg paths given entered wf marks inTree
    have before : tagsOf state.calls = tagsOf progress.state.calls := by rw [entered.quiet.calls]
    refine ((session_alike world opers _ _ state placed).and
      (session_tags world opers units _ _ state placed.room entered.fine.le)).mono ?_ ?_
    · rintro result ⟨alike, marked⟩
      have kept : RightTags apkg.root paths (tagsOf result.2.calls) := by
        rcases marked.tags with all | ⟨-, none⟩
        · rw [all, before]
          exact right.append paths own
        · rw [none, before]
          exact right
      simp only
      split
      · obtain ⟨rest', destroyed⟩ : ∃ rest', pathEntryDestroy tree root.1 = some rest' := by
          simp [pathEntryDestroy, entered.below]
        refine ⟨⟨rest', destroyed, ?_⟩, rooted.alike (entered.quiet.path.trans alike) le_rfl, kept⟩
        rw [List.map_append]
        exact pruned.destroy destroyed
      · next other =>
        have code := marked.code
        exact ⟨by omega, kept⟩
    · rintro crashed ⟨-, null⟩
      rw [null.state, before]
      exact right

theorem tagDefaultTree_right (given : apkg.files = filesOf paths) {rest : PathTree}
    (pruned : Pruned apkg.files (packageRefs apkg.files) rest) (state : State Closure)
    (rooted : Holds (stripped apkg.root) state.path) (short : (stripped apkg.root).length < PATH_MAX)
    (right : RightTags apkg.root paths (tagsOf state.calls)) :
    RightTags apkg.root paths
      (tagsOf (tagDefaultTree opers (stripped apkg.root).length rest state).2.calls) := by
  obtain ⟨path', -, run⟩ := tagDefaultTree_eq opers rest state rooted short
  rw [run]
  apply Tour.run_invariant (fun state' : State Closure => RightTags apkg.root paths (tagsOf state'.calls)) right
  intro state' kept visit toured
  have visited := (tourFrom_visits addedOnly _ rest.root []).1.subset toured
  have more : tagsOf (onString (processDefaultTreeAddCb opers) (stripped apkg.root) state' visit).2.calls =
      tagsOf state'.calls ++ [visitTag (stripped apkg.root) visit] := by
    simp only [onString, processDefaultTreeAddCb, State.called, tagsOf_append]
    rfl
  rw [more]
  refine kept.append paths fun tag member => ?_
  rw [List.mem_singleton.mp member]
  exact defaultTags_right apkg paths given pruned visit visited

theorem processDefaultTree_right (given : apkg.files = filesOf paths) {rest : PathTree}
    (pruned : Pruned apkg.files (packageRefs apkg.files) rest) (state : State Closure)
    (rooted : Holds (stripped apkg.root) state.path) (short : (stripped apkg.root).length < PATH_MAX)
    (right : RightTags apkg.root paths (tagsOf state.calls)) :
    RightTags apkg.root paths
      (tagsOf (processDefaultTree opers .install (stripped apkg.root).length rest state).2.calls) := by
  simp only [processDefaultTree, ne_eq, not_true_eq_false, ↓reduceIte]
  split
  · exact right
  · have begun := tags_called state (.begins none) (opers.begins state.closure none .install) rfl
    rw [tags_called _ _ _ rfl]
    split
    · apply tagDefaultTree_right opers apkg paths given pruned
        (state.called (.begins none) (opers.begins state.closure none .install)).2 rooted short
      rw [begun]
      exact right
    · rw [begun]
      exact right

/-- The entries that are marked under their own path are the well placed ones. -/
theorem afmpkgInstall_tagPaths (closure : Closure) (units : ∀ closure units, (opers.setunits closure units).1 ≤ 0)
    (given : apkg.files = filesOf paths) :
    ∀ tag ∈ tagsOf (afmpkgInstall world opers apkg closure).calls,
      tag.2 = tagPath apkg.root tag.1 ↔ WellPlaced apkg.root paths tag.1 := by
  have nothing : RightTags apkg.root paths (tagsOf []) := by
    intro tag member
    cases member
  have whole : Meets (fun result => RightTags apkg.root paths (tagsOf result.2.calls))
      (fun crashed => RightTags apkg.root paths (tagsOf crashed.state.calls))
      (afmpkgInstall world opers apkg closure) := by
    unfold afmpkgInstall afmpkgProcess
    split_ifs with long cut
    · exact nothing
    · exact nothing
    · obtain ⟨rooted, room⟩ := holds_initialPath world apkg.root (rootLength_short long cut)
      have detected : (detectPackageRoots apkg.files).1 = 0 := by rw [detectPackageRoots_eq]
      have packages : Meets (fun result => (result.1 < 0 ∧
          RightTags apkg.root paths (tagsOf result.2.state.calls)) ∨
          Marking apkg paths (detectPackageRoots apkg.files).2 result.2)
          (fun crashed => RightTags apkg.root paths (tagsOf crashed.state.calls))
          (rootpkgsForEach world opers apkg .install (stripped apkg.root).length
            (detectPackageRoots apkg.files).2
            ⟨some apkg.files, startState closure (initialPath world apkg.root)⟩) := by
        apply rootpkgsForEach_meets world opers apkg .install _ (Marking apkg paths)
        · intro done root later order progress marking
          refine (processRootpkg_marking world opers apkg paths units given done root later order progress
            marking).mono ?_ fun _ => id
          intro result next
          split at next
          · next zero =>
            rw [if_pos zero]
            exact next
          · next other =>
            rw [if_neg other]
            exact Or.inl next
        · exact fun progress marking => Or.inr marking
        · exact ⟨⟨apkg.files, rfl, pruned_start apkg.files⟩, rooted, nothing⟩
      simp only
      rw [if_neg (by rw [detected]; decide)]
      refine packages.bind fun result done => ?_
      rcases done with ⟨negative, right⟩ | ⟨⟨rest, files, pruned⟩, holds, right⟩
      · rw [if_pos negative]
        exact right
      · split
        · exact right
        · rw [files]
          exact processDefaultTree_right opers apkg paths given pruned result.2.state holds room right
  cases run : afmpkgInstall world opers apkg closure with
  | ok result =>
    rw [run] at whole
    exact whole
  | error crashed =>
    rw [run] at whole
    exact whole

end

/-- Files of a nested package and of a package at the top, and a file in no package. -/
def slashesRequest : Description :=
  request (some (ascii "/r//")) [ascii "file", ascii "/p/config.xml", ascii "q/r/config.xml"]

theorem afmpkgInstall_tagPaths_slashes :
    ∃ tags, tagsOf (afmpkgInstall (plainWorld (requiring (.string MANIFEST_VALUE_REQUIRED))) accepting
      slashesRequest ()).calls = tags ∧ tags.map Prod.snd = [ascii "/r/p/config.xml", ascii "/r/p",
        ascii "/r/q/r/config.xml", ascii "/r/q/r", ascii "/rfile"] ∧
      ∀ tag ∈ tags, tag.2 = tagPath (some (ascii "/r//")) tag.1 ↔
        WellPlaced (some (ascii "/r//")) [ascii "file", ascii "/p/config.xml", ascii "q/r/config.xml"] tag.1 := by
  have marked : (tagsOf (afmpkgInstall (plainWorld (requiring (.string MANIFEST_VALUE_REQUIRED))) accepting
      slashesRequest ()).calls).map Prod.snd = [ascii "/r/p/config.xml", ascii "/r/p",
        ascii "/r/q/r/config.xml", ascii "/r/q/r", ascii "/rfile"] := by decide +kernel
  exact ⟨_, rfl, marked, afmpkgInstall_tagPaths (plainWorld (requiring (.string MANIFEST_VALUE_REQUIRED)))
    accepting slashesRequest _ () (fun _ _ => le_rfl) rfl⟩

/-- A file that is given without a slash and is in no package. -/
theorem afmpkgInstall_glued :
    (∀ ref ∈ treeRefs (request (some (ascii "/r")) [ascii "file"]).files,
      (packagePath (request (some (ascii "/r")) [ascii "file"]) ref).length < PATH_MAX) ∧
    ([ascii "file"], ascii "/rfile") ∈ tagsOf (afmpkgInstall (plainWorld (.object [])) accepting
      (request (some (ascii "/r")) [ascii "file"]) ()).calls ∧
    ascii "/rfile" ≠ tagPath (some (ascii "/r")) [ascii "file"] := by
  refine ⟨by decide +kernel, by decide +kernel, by decide⟩

end AppManager.Install
