import AppManager.Install.TagPaths
import AppManager.Utils.PathRelative

/-! The directories in the metadata of a manifest. The one of the installation is cut out
of the path buffer after as many bytes as the given root has, and the buffer has the root
without its trailing slashes. -/

namespace AppManager.Install
open AppManager.Lib AppManager.Lib.Libc AppManager.Utils

def taggedPath (pack : Package) (path : Bytes) : Bytes :=
  (visitTag (path.take (pack.entryOffset { after := true }))
    ⟨pack.packdir, underPath { after := true } pack.packdir.label []⟩).2

/-- The directory of the installation starts with a slash, and after the directory of the
root without its trailing slashes it gives the path of the package. -/
def DirectoriesRight (metadata : Json) (tagged : Bytes) : Prop :=
  ∃ installed root, metadata.get (ascii "install-dir") = some (.string installed) ∧
    metadata.get (ascii "root-dir") = some (.string root) ∧
    installed.head? = some slash ∧ stripped (some root) ++ installed = tagged

/-- The given root has no trailing slash, or so many of them that what is read is the name
of the marker, after the path of a package that has a part of that name. -/
def RootFits (root : Option Bytes) (package : Ref) (type : Marker) : Prop :=
  stripped root = root.getD [] ∨
    package = [ascii "manifest.yml"] ∧ type = .manifest ∧ (root.getD []).length = (stripped root).length + 23

/-- A slash stands before the name of a package directory where it is marked. -/
def SlashedDirectory (paths : List Bytes) (package : Ref) : Prop :=
  2 ≤ package.length ∨
    ∃ name path, package = [name] ∧ firstThrough name paths = some path ∧ startsWithSlash path = true

theorem metadataOf_directories (world : World) (apkg : Description) (auto : apkg.redpakAuto = none)
    (redpakid : Option Bytes) (path : Bytes) :
    (metadataOf world apkg redpakid path).get (ascii "install-dir") =
        some (.string (cstr (path.drop (apkg.root.getD []).length))) ∧
      (metadataOf world apkg redpakid path).get (ascii "root-dir") = some (.string (apkg.root.getD [])) := by
  have root : (if redpakid.isSome ∧ apkg.redpakAuto.isSome then redpakid.getD [] else apkg.root.getD []) =
      apkg.root.getD [] := by rw [if_neg (by simp [auto])]
  unfold metadataOf
  simp only [root]
  cases redpakid with
  | none => exact ⟨by rfl, by rfl⟩
  | some redpakid => exact ⟨by rfl, by rfl⟩

theorem cstr_drop (text name : Bytes) (count zeros : Nat) (clean : (0 : Byte) ∉ text) (clean' : (0 : Byte) ∉ name) :
    cstr ((text ++ 0 :: (name ++ List.replicate (zeros + 1) 0)).drop count) =
      if count ≤ text.length then text.drop count else name.drop (count - text.length - 1) := by
  have inside : ∀ rest : Bytes, ∀ skipped, (0 : Byte) ∉ rest → (0 : Byte) ∉ rest.drop skipped :=
    fun rest skipped plain member => plain (List.mem_of_mem_drop member)
  split
  · next short =>
    rw [List.drop_append_of_le_length short, cstr_append_nul, cstr_of_no_nul _ (inside text count clean)]
  · next long =>
    obtain ⟨more, rfl⟩ : ∃ more, count = text.length + (more + 1) := ⟨count - text.length - 1, by omega⟩
    have skipped : text.length + (more + 1) - text.length - 1 = more := by omega
    rw [skipped, List.drop_append, List.drop_eq_nil_of_le (by omega), List.nil_append, Nat.add_sub_cancel_left,
      List.drop_succ_cons]
    by_cases within : more ≤ name.length
    · rw [List.drop_append_of_le_length within, List.replicate_succ, cstr_append_nul,
        cstr_of_no_nul _ (inside name more clean')]
    · rw [List.drop_append, List.drop_eq_nil_of_le (by omega), List.nil_append, List.drop_replicate]
      cases zeros + 1 - (more - name.length) with
      | zero => rfl
      | succ left => rfl

theorem slashedDirectory_iff (paths : List Bytes) {package : Ref} {label : Label} (below : package ≠ [])
    (found : labelAt package (filesOf paths).label (filesOf paths).children = some label) :
    label.slash = true ↔ SlashedDirectory paths package := by
  have slashes := slashes_filesOf paths
  match package with
  | [] => exact absurd rfl below
  | [name] =>
    have flag := slashes.first found
    constructor
    · intro given
      rw [given, eq_comm, Option.map_eq_some_iff] at flag
      obtain ⟨path, through, starts⟩ := flag
      exact Or.inr ⟨name, path, rfl, through, starts⟩
    · rintro (nested | ⟨other, path, same, through, starts⟩)
      · simp at nested
      · rw [← (List.cons.inj same).1] at through
        rw [through, Option.map_some, starts] at flag
        exact Option.some.inj flag
  | name :: next :: rest =>
    exact iff_of_true (slashes.nested found (by simp)) (Or.inl (by simp))

theorem taggedPath_eq (apkg : Description) (packdir : PathEntry) (above : Ref) (manifest : Json) (path : Bytes)
    (named : packdir.label.name ≠ []) (clean : (0 : Byte) ∉ packagePath apkg (above ++ [packdir.label.name]))
    (holds : Holds (packagePath apkg (above ++ [packdir.label.name])) path) :
    taggedPath ⟨packdir, (stripped apkg.root).length, (packagePath apkg (above ++ [packdir.label.name])).length,
      manifest⟩ path = packagePath apkg above ++ (leading packdir.label ++ packdir.label.name) := by
  have under : underPath { after := true } packdir.label [] = leading packdir.label ++ packdir.label.name := by
    simp [underPath, named, leading]
  rw [packagePath_snoc, List.mem_append, List.mem_cons, not_or, not_or] at clean
  rw [taggedPath, entryOffset_package, take_packagePath apkg holds, visitTag]
  simp only [under]
  apply cstr_of_no_nul
  rw [List.mem_append, List.mem_append, not_or, not_or]
  refine ⟨clean.1, ?_, clean.2.2⟩
  unfold leading
  split
  · decide
  · simp

theorem names_slashed (ref : Ref) (proper : ∀ name ∈ ref, name ≠ [] ∧ slash ∉ name) :
    names true (slashed ref) = ref := by
  induction ref using List.reverseRecOn with
  | nil => rfl
  | append_singleton above name ih =>
    have last := proper name (by simp)
    rw [slashed_append, names_append true _ _ last.1 last.2,
      ih fun other member => proper other (List.mem_append_left _ member)]

theorem marker_slash (type : Marker) (skipped : Nat) (starts : (type.name.drop skipped).head? = some slash) :
    type = .manifest ∧ skipped = 9 := by
  have member : slash ∈ type.name := List.mem_of_mem_drop (List.mem_of_mem_head? starts)
  cases type with
  | config => exact absurd member (by decide)
  | manifest =>
    have short : skipped < 22 := by
      by_contra long
      rw [List.drop_eq_nil_of_le (by have size : Marker.manifest.name.length = 22 := by decide
                                     omega)] at starts
      cases starts
    have only : ∀ count < 22, (Marker.manifest.name.drop count).head? = some slash → count = 9 := by decide
    exact ⟨rfl, only skipped short starts⟩

/-- What is cut out after some slashes is the marked path of the package when there are
none, or just those after which the name of the marker goes on as that path. -/
theorem cut_iff (above : Ref) (label : Label) (type : Marker) (skipped : Nat)
    (proper : ∀ name ∈ above ++ [label.name], name ≠ [] ∧ slash ∉ name) (nested : above ≠ [] → label.slash = true)
    (installed : Bytes) (cut : installed = if skipped ≤ (slashed (above ++ [label.name])).length
      then (slashed (above ++ [label.name])).drop skipped
      else type.name.drop (skipped - (slashed (above ++ [label.name])).length - 1)) :
    (installed.head? = some slash ∧ installed = slashed above ++ (leading label ++ label.name)) ↔
      (skipped = 0 ∨ above ++ [label.name] = [ascii "manifest.yml"] ∧ type = .manifest ∧ skipped = 23) ∧
        label.slash = true := by
  cases given : label.slash with
  | false =>
    have top : above = [] := by
      by_contra deeper
      rw [nested deeper] at given
      cases given
    have plain := (proper label.name (by simp)).2
    simp only [Bool.false_eq_true, and_false, iff_false, not_and]
    intro starts same
    rw [top] at same
    have name : installed = label.name := by simpa [leading, given, slashed] using same
    rw [name] at starts
    exact plain (List.mem_of_mem_head? starts)
  | true =>
    have whole : slashed above ++ (leading label ++ label.name) = slashed (above ++ [label.name]) := by
      rw [slashed_append, leading, if_pos given, List.singleton_append]
    have starting : (slashed (above ++ [label.name])).head? = some slash := by
      cases above <;> rfl
    rw [whole]
    simp only [and_true]
    generalize text : slashed (above ++ [label.name]) = path at *
    have positive : 0 < path.length := by
      cases path with
      | nil => cases starting
      | cons byte rest => simp
    have manifest : above ++ [label.name] = [ascii "manifest.yml"] → path = ascii "/manifest.yml" := by
      intro same
      rw [← text, same]
      decide
    constructor
    · rintro ⟨starts, same⟩
      by_cases short : skipped ≤ path.length
      · rw [if_pos short] at cut
        have size := congrArg List.length (cut.symm.trans same)
        rw [List.length_drop] at size
        exact Or.inl (by omega)
      · rw [if_neg short] at cut
        rw [cut] at starts
        obtain ⟨marker, nine⟩ := marker_slash type _ starts
        have known : path = ascii "/manifest.yml" := by
          rw [← same, cut, marker, nine]
          decide
        have size : path.length = 13 := by rw [known]; decide
        refine Or.inr ⟨?_, marker, by omega⟩
        rw [← names_slashed _ proper, text, known]
        decide
    · rintro (none | ⟨same, marker, count⟩)
      · rw [none, if_pos (Nat.zero_le _), List.drop_zero] at cut
        rw [cut]
        exact ⟨starting, rfl⟩
      · have known := manifest same
        have size : path.length = 13 := by rw [known]; decide
        rw [if_neg (by omega), marker, count, size] at cut
        have here : installed = path := by
          rw [cut, known]
          decide
        rw [here]
        exact ⟨starting, rfl⟩

/-- The path of a package directory as `process_rootpkg` writes it after the root, and the
manifest as `process_package` reads and describes it. -/
def describedAt (world : World) (apkg : Description) (mode : Mode) (packdir : PathEntry) (type : Marker)
    (path : Bytes) (afids : Nat) : Option (Nat × Described) := do
  let offsetRoot := (stripped apkg.root).length
  let written ← pathEntryRelpath 0 ⟨false, true⟩ packdir.lineage (path.drop offsetRoot)
  let offsetPack := offsetRoot + written.1
  if PATH_MAX ≤ offsetPack then none
  else
    let read := getManifest world offsetPack type (store (store path offsetRoot written.2) offsetPack [0])
    let manifest ← read.2.toOption
    let described ← (addMetaToManifest world apkg mode offsetRoot offsetPack afids read.1 manifest).toOption
    return (offsetPack, described)

theorem addMetaToManifest_described (world : World) (apkg : Description) (mode : Mode) (offsetRoot offsetPack : Nat)
    (afids : Nat) (path : Bytes) (manifest : Json) (described : Described)
    (done : addMetaToManifest world apkg mode offsetRoot offsetPack afids path manifest = .ok described) :
    described.path = installDir offsetRoot offsetPack path ∧
      ∀ metadata, described.manifest.get (ascii "#metadata") = some metadata →
        ∃ redpakid, metadata = metadataOf world apkg redpakid (installDir offsetRoot offsetPack path) := by
  have apart : ascii "#metadata" ≠ MANIFEST_TARGETS := by decide
  obtain ⟨redpakid, -, rest⟩ := bind_ok done
  have added (metadata : Json) (found : (manifest.add (ascii "#metadata") (metadataOf world apkg redpakid
      (installDir offsetRoot offsetPack path))).get (ascii "#metadata") = some metadata) :
      metadata = metadataOf world apkg redpakid (installDir offsetRoot offsetPack path) := by
    have object := Json.isObject_of_get found
    rw [Json.isObject_add] at object
    rw [Json.get_add_same _ _ _ object, Option.some.injEq] at found
    exact found.symm
  simp only at rest
  split at rest
  · obtain rfl := Except.ok.inj rest
    refine ⟨rfl, fun metadata found => ⟨redpakid, added metadata ?_⟩⟩
    rwa [Json.get_add _ _ _ _ apart] at found
  · obtain rfl := Except.ok.inj rest
    exact ⟨rfl, fun metadata found => ⟨redpakid, added metadata found⟩⟩

theorem toOption_some {Fault Value : Type} {result : Except Fault Value} {value : Value}
    (given : result.toOption = some value) : result = .ok value := by
  cases result with
  | error fault => cases given
  | ok other => exact congrArg Except.ok (Option.some.inj given)

theorem describedAt_some {world : World} {apkg : Description} {mode : Mode} {packdir : PathEntry} {type : Marker}
    {path : Bytes} {afids offsetPack : Nat} {described : Described}
    (given : describedAt world apkg mode packdir type path afids = some (offsetPack, described)) :
    ∃ length written manifest, offsetPack = (stripped apkg.root).length + length ∧ offsetPack < PATH_MAX ∧
      pathEntryRelpath 0 ⟨false, true⟩ packdir.lineage (path.drop (stripped apkg.root).length) =
        some (length, written) ∧
      (getManifest world offsetPack type
        (store (store path (stripped apkg.root).length written) offsetPack [0])).2 = .ok manifest ∧
      addMetaToManifest world apkg mode (stripped apkg.root).length offsetPack afids (getManifest world offsetPack type
        (store (store path (stripped apkg.root).length written) offsetPack [0])).1 manifest = .ok described := by
  unfold describedAt at given
  simp only [bind, Option.bind_eq_some_iff] at given
  obtain ⟨⟨length, written⟩, named, rest⟩ := given
  split at rest
  · cases rest
  · next short =>
    rw [Option.bind_eq_some_iff] at rest
    obtain ⟨manifest, read, rest⟩ := rest
    rw [Option.bind_eq_some_iff] at rest
    obtain ⟨described', done, same⟩ := rest
    simp only [pure, Option.some.injEq, Prod.mk.injEq] at same
    obtain ⟨rfl, rfl⟩ := same
    exact ⟨length, written, manifest, rfl, not_le.mp short, named, toOption_some read, toOption_some done⟩

theorem processRootpkg_described {Closure : Type} (world : World) (opers : Operations Closure) (apkg : Description)
    (mode : Mode) (root : Ref × Marker) (progress : Progress Closure) (tree : PathTree) (packdir : PathEntry)
    (files : progress.files = some tree) (found : descend root.1 tree.root = some packdir) (offsetPack : Nat)
    (described : Described) (fine : 0 ≤ described.rc)
    (given : describedAt world apkg mode packdir root.2 progress.state.path progress.state.afids =
      some (offsetPack, described)) :
    processRootpkg world opers apkg mode (stripped apkg.root).length root progress = do
      let result ← session world opers ((described.manifest.get MANIFEST_ID).bind (Json.getString world.serialize))
        mode ⟨packdir, (stripped apkg.root).length, offsetPack, described.manifest⟩
        { progress.state with rc := 0, permset := Permset.create, path := described.path, afids := described.afids }
      return (result.1, ⟨pathEntryDestroy tree root.1, result.2⟩) := by
  obtain ⟨length, written, manifest, rfl, short, named, read, done⟩ := describedAt_some given
  unfold processRootpkg processPackage
  simp only [files, found, named, Option.bind_some, Option.map_some, if_neg (not_le.mpr short), State.withPath, read,
    done, if_neg (not_lt.mpr fine)]

theorem installDir_getManifest (world : World) (type : Marker) {offsetRoot : Nat} {lead path : Bytes}
    (holds : Holds lead path) (deeper : offsetRoot < lead.length) (room : lead.length + 1 + type.name.length < PATH_MAX) :
    ∃ zeros, installDir offsetRoot lead.length (getManifest world lead.length type path).1 =
      lead ++ 0 :: (type.name ++ List.replicate (zeros + 1) 0) := by
  refine ⟨PATH_MAX - (lead.length + 1) - type.name.length - 1, ?_⟩
  have zeros : PATH_MAX - (lead.length + 1) - type.name.length - 1 + 1 =
      PATH_MAX - (lead.length + 1) - type.name.length := by omega
  rw [getManifest_path world type holds (by omega), List.take_of_length_le (by omega), zeros, installDir,
    if_pos (by omega), store, List.take_left]
  simp

theorem describedAt_spec (world : World) (apkg : Description) (mode : Mode) (auto : apkg.redpakAuto = none)
    (packdir : PathEntry) (known : packdir.mark ∈ apkg.files.marks)
    (clean : (0 : Byte) ∉ packagePath apkg packdir.ref) (type : Marker) (path : Bytes)
    (rooted : Holds (stripped apkg.root) path) (afids offsetPack : Nat) (described : Described)
    (done : describedAt world apkg mode packdir type path afids = some (offsetPack, described)) (trailing : Nat)
    (more : (apkg.root.getD []).length = (stripped apkg.root).length + trailing) :
    packdir.ref ≠ [] ∧ offsetPack = (packagePath apkg packdir.ref).length ∧
      Holds (packagePath apkg packdir.ref) described.path ∧
      ∀ metadata, described.manifest.get (ascii "#metadata") = some metadata →
        metadata.get (ascii "install-dir") = some (.string (if trailing ≤ (slashed packdir.ref).length
          then (slashed packdir.ref).drop trailing
          else type.name.drop (trailing - (slashed packdir.ref).length - 1))) ∧
        metadata.get (ascii "root-dir") = some (.string (apkg.root.getD [])) := by
  obtain ⟨length, written, manifest, offset, short, named, read, done⟩ := describedAt_some done
  obtain ⟨entry, inside, same⟩ := List.mem_map.mp known
  have ref : entry.ref = packdir.ref := congrArg Prod.fst same
  have lineage : entry.lineage = packdir.lineage := congrArg Prod.snd same
  -- the path that is written is the one of the package
  have names := slashedNames_entry apkg.files entry inside
  rw [lineage, ref] at names
  rw [relpath_forced, names] at named
  have below : packdir.ref ≠ [] := by
    intro top
    rw [top] at named
    cases named
  rw [if_neg (by rwa [slashed_eq_nil]), Option.some.injEq, Prod.mk.injEq] at named
  obtain ⟨rfl, rfl⟩ := named
  have holds := holds_packagePath rooted (slashed packdir.ref) (by omega)
  have size : offsetPack = (packagePath apkg packdir.ref).length := by rw [packagePath_length, offset]
  have slashes : 0 < (slashed packdir.ref).length := List.length_pos_iff.mpr (by rwa [ne_eq, slashed_eq_nil])
  rw [← offset] at holds
  generalize store (store path (stripped apkg.root).length _) offsetPack [0] = before at holds read done
  change Holds (packagePath apkg packdir.ref) before at holds
  rw [size] at short read done
  -- the marker was read at a path that is not too long for the system
  have cleanMarker : (0 : Byte) ∉ type.name := by cases type <;> decide
  have room : (packagePath apkg packdir.ref).length + 1 + type.name.length < PATH_MAX := by
    rw [(getManifest_spec world type holds short).2, access, cstr_of_no_nul] at read
    · by_contra long
      rw [if_neg (by rw [List.length_append, List.length_cons]; omega)] at read
      cases read
    · rw [List.mem_append, List.mem_cons, not_or, not_or]
      exact ⟨clean, by decide, cleanMarker⟩
  have deeper := packagePath_deeper apkg below
  obtain ⟨zeros, buffer⟩ := installDir_getManifest world type holds deeper room
  obtain ⟨path', metadata'⟩ := addMetaToManifest_described world apkg mode _ _ afids _ manifest described done
  have kept := (holds_installDir (getManifest_spec world type holds short).1 deeper short).1
  rw [← path'] at kept
  refine ⟨below, size, kept, fun metadata added => ?_⟩
  obtain ⟨redpakid, rfl⟩ := metadata' metadata added
  obtain ⟨installed, root⟩ := metadataOf_directories world apkg auto redpakid (installDir (stripped apkg.root).length
    (packagePath apkg packdir.ref).length (getManifest world (packagePath apkg packdir.ref).length type before).1)
  refine ⟨?_, root⟩
  rw [installed, buffer, more, packagePath, List.append_assoc, List.drop_length_add_append,
    cstr_drop _ _ _ _ (fun member => clean (List.mem_append_right _ member)) cleanMarker]

/-- The directories are right when the given root has no trailing slash and the package is
marked with a slash before its name, but for one number of slashes and one package. -/
theorem directories_iff (world : World) (apkg : Description) (mode : Mode) (paths : List Bytes)
    (given : apkg.files = filesOf paths) (auto : apkg.redpakAuto = none) (packdir : PathEntry)
    (known : packdir.mark ∈ apkg.files.marks) (clean : (0 : Byte) ∉ packagePath apkg packdir.ref) (type : Marker)
    (path : Bytes) (rooted : Holds (stripped apkg.root) path) (afids offsetPack : Nat) (described : Described)
    (done : describedAt world apkg mode packdir type path afids = some (offsetPack, described)) (metadata : Json)
    (added : described.manifest.get (ascii "#metadata") = some metadata) :
    DirectoriesRight metadata
        (taggedPath ⟨packdir, (stripped apkg.root).length, offsetPack, described.manifest⟩ described.path) ↔
      RootFits apkg.root packdir.ref type ∧ SlashedDirectory paths packdir.ref := by
  have shorter := List.rdropWhile_prefix (fun byte : Byte => decide (byte = slash)) (apkg.root.getD [])
  obtain ⟨trailing, more⟩ : ∃ trailing, (apkg.root.getD []).length = (stripped apkg.root).length + trailing :=
    ⟨_, (Nat.add_sub_cancel' shorter.length_le).symm⟩
  obtain ⟨below, size, holds, directories⟩ := describedAt_spec world apkg mode auto packdir known clean type path
    rooted afids offsetPack described done trailing more
  obtain ⟨installed, root⟩ := directories metadata added
  obtain ⟨entry, inside, same⟩ := List.mem_map.mp known
  have ref : entry.ref = packdir.ref := congrArg Prod.fst same
  have own : entry.label = packdir.label := (List.cons.inj (congrArg Prod.snd same)).1
  obtain ⟨above, last⟩ := ref_last apkg.files entry inside (by rwa [ref])
  rw [ref, own] at last
  have proper := ref_proper apkg.files entry inside
  have label := labelAt_mark apkg.files packdir known
  rw [given] at label
  have flag := slashedDirectory_iff paths below label
  have fits : RootFits apkg.root packdir.ref type ↔
      trailing = 0 ∨ packdir.ref = [ascii "manifest.yml"] ∧ type = .manifest ∧ trailing = 23 := by
    unfold RootFits
    rw [more]
    refine or_congr ⟨fun equal => ?_, fun none => shorter.eq_of_length (by rw [more, none]; rfl)⟩
      (by rw [Nat.add_left_cancel_iff])
    rw [equal] at more
    omega
  rw [fits, ← flag, size]
  rw [ref, last] at proper
  rw [last] at clean holds installed ⊢
  rw [taggedPath_eq apkg packdir above described.manifest described.path (proper _ (by simp)).1 clean holds,
    ← cut_iff above packdir.label type trailing proper ?_ _ rfl]
  · have same : packagePath apkg above = stripped apkg.root ++ slashed above := rfl
    constructor
    · rintro ⟨installed', root', first, second, starts, equal⟩
      rw [installed, Option.some.injEq, Json.string.injEq] at first
      rw [root, Option.some.injEq, Json.string.injEq] at second
      subst first second
      rw [same, List.append_assoc] at equal
      exact ⟨starts, List.append_cancel_left equal⟩
    · rintro ⟨starts, equal⟩
      refine ⟨_, _, installed, root, starts, ?_⟩
      rw [equal, same, List.append_assoc]
      rfl
  · intro deeper
    rw [flag, last]
    refine Or.inl ?_
    have longer := List.length_pos_iff.mpr deeper
    rw [List.length_append, List.length_singleton]
    omega

def oneFile : List Bytes := [ascii "/p/config.xml"]

def onePackage : PathEntry := (descend [ascii "p"] (filesOf oneFile).root).getD pathEntryCreateRoot.root

def objectWorld : World := plainWorld (.object [])

/-- The description of the package `p` below a root. -/
def describedOne (root : Option Bytes) : Option (Nat × Described) :=
  describedAt objectWorld (request root oneFile) .install onePackage .config (initialPath objectWorld root) 0

theorem describedOne_some (root : Option Bytes)
    (given : ((describedOne root).bind fun found => found.2.manifest.get (ascii "#metadata")).isSome) :
    ∃ offsetPack described metadata, describedOne root = some (offsetPack, described) ∧
      described.manifest.get (ascii "#metadata") = some metadata := by
  obtain ⟨metadata, found⟩ := Option.isSome_iff_exists.mp given
  rw [Option.bind_eq_some_iff] at found
  obtain ⟨⟨offsetPack, described⟩, made, added⟩ := found
  exact ⟨offsetPack, described, metadata, made, added⟩

theorem directories_iff_one : ∃ offsetPack described metadata,
    describedOne (some (ascii "/r")) = some (offsetPack, described) ∧
    DirectoriesRight metadata (taggedPath ⟨onePackage, 2, offsetPack, described.manifest⟩ described.path) := by
  obtain ⟨offsetPack, described, metadata, made, added⟩ := describedOne_some (some (ascii "/r")) (by decide +kernel)
  exact ⟨offsetPack, described, metadata, made,
    (directories_iff objectWorld (request (some (ascii "/r")) oneFile) .install oneFile rfl rfl onePackage
      (by decide +kernel) (by decide +kernel) .config _
      (holds_initialPath objectWorld (some (ascii "/r")) (by decide)).1 0 offsetPack described made metadata
      added).mpr ⟨Or.inl (by decide), Or.inr ⟨ascii "p", ascii "/p/config.xml", by decide +kernel, by decide +kernel,
        by decide⟩⟩⟩

/-- With the root `/r/`, the directory of the installation is `p`, without a slash. -/
theorem trailing_slash_cut : ¬∀ (world : World) (apkg : Description) (mode : Mode) (paths : List Bytes),
    apkg.files = filesOf paths → apkg.redpakAuto = none → ∀ packdir : PathEntry, packdir.mark ∈ apkg.files.marks →
    (0 : Byte) ∉ packagePath apkg packdir.ref → ∀ (type : Marker) (path : Bytes), Holds (stripped apkg.root) path →
    ∀ (afids offsetPack : Nat) (described : Described),
    describedAt world apkg mode packdir type path afids = some (offsetPack, described) → ∀ metadata,
    described.manifest.get (ascii "#metadata") = some metadata → DirectoriesRight metadata
      (taggedPath ⟨packdir, (stripped apkg.root).length, offsetPack, described.manifest⟩ described.path) := by
  intro all
  obtain ⟨offsetPack, described, metadata, made, added⟩ := describedOne_some (some (ascii "/r/")) (by decide +kernel)
  have known : onePackage.mark ∈ (request (some (ascii "/r/")) oneFile).files.marks := by decide +kernel
  have clean : (0 : Byte) ∉ packagePath (request (some (ascii "/r/")) oneFile) onePackage.ref := by decide +kernel
  have rooted := (holds_initialPath objectWorld (some (ascii "/r/")) (by decide)).1
  obtain ⟨installed, root, found, -, starts, -⟩ := all objectWorld (request (some (ascii "/r/")) oneFile) .install
    oneFile rfl rfl onePackage known clean .config _ rooted 0 offsetPack described made metadata added
  obtain ⟨-, -, -, directories⟩ := describedAt_spec objectWorld (request (some (ascii "/r/")) oneFile) .install rfl
    onePackage known clean .config _ rooted 0 offsetPack described made 1 (by decide)
  have ref : onePackage.ref = [ascii "p"] := by decide +kernel
  have cut := (directories metadata added).1
  rw [found, Option.some.injEq, Json.string.injEq, ref] at cut
  rw [cut] at starts
  exact absurd starts (by decide)

end AppManager.Install
