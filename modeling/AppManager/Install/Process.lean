import AppManager.Install.FileProperties
import AppManager.Install.Metadata
import AppManager.Utils.PathDestroy
import Mathlib.Data.List.DropRight

/-! The processing of installed files: the packages found in their tree, from the most
nested ones on, each in a session of operations and then removed from the tree, and at
last a session for the files that remain. -/

namespace AppManager.Install
open AppManager.Lib AppManager.Lib.Libc AppManager.Utils AppManager.Units

variable {Closure : Type} (world : World) (opers : Operations Closure)

def setupSecurityFileCb (state : State Closure) (path : Bytes) (entry : PathEntry) : Int × State Closure :=
  let unset := getEntryType state.types entry.ref = .Unset
  let type := if unset then .Conf else getEntryType state.types entry.ref
  let result := state.called (.tagfile entry.ref path type) (opers.tagfile state.closure path type)
  (0, result.2.put result.1)

def permit (state : State Closure) (perm : Bytes) : Int × State Closure :=
  state.called (.setperm perm) (opers.setperm state.closure perm)

def setPlugCb (state : State Closure) (_entry : PathEntry) (impid : Option Bytes) (impdir : Bytes) :
    State Closure :=
  let exportdir := cstr state.path
  let result := state.called (.setplug exportdir impid impdir)
    (opers.setplug state.closure exportdir impid impdir)
  result.2.put result.1

def defaultPermissions : List Bytes := [ascii "urn:redpesk:token:valid"]

def setupSecurity (pack : Package) (state : State Closure) : Int × State Closure :=
  let state := (pack.forEachEntry { after := true } (setupSecurityFileCb opers) state).2
  if state.rc < 0 then (state.rc, state)
  else
    let selected := Permset.forSelected (permit opers) .Requested_And_Granted
      (state.permset.selectFirst .Requested_And_Granted) state
    if selected.1 < 0 then selected
    else
      let defaults := Permset.untilNegative (permit opers) defaultPermissions selected.2
      if defaults.1 < 0 then defaults
      else
        let state := forEachPlug world pack (setPlugCb opers) defaults.2
        (state.rc, state)

def setdownSecurityFileCb (state : State Closure) (path : Bytes) (entry : PathEntry) :
    Int × State Closure :=
  state.called (.tagfile entry.ref path .Id) (opers.tagfile state.closure path .Id)

def setdownSecurity (pack : Package) (state : State Closure) : Int × State Closure :=
  let state := (pack.forEachEntry {} (setdownSecurityFileCb opers) state).2
  (0, forEachPlug world pack (setPlugCb opers) state)

def processUnits (pack : Package) (state : State Closure) : Int × State Closure :=
  match world.unitsOf pack.manifest with
  | .error rc => (rc, state)
  | .ok [] => (0, state)
  | .ok units => state.called (.setunits units) (opers.setunits state.closure units)

def installAfmpkg (pack : Package) (state : State Closure) : Run Closure (Int × State Closure) := do
  let checked ← checkPermissions world pack { state with permset := Permset.create }
  let state := checkContents world pack checked
  if state.rc < 0 then return (state.rc, state)
  else
    let computed ← computeFilesProperties world pack state
    if computed.rc < 0 then return (computed.rc, computed)
    else
      let state := setupFilesProperties world pack computed
      if state.rc < 0 then return (state.rc, state)
      else
        let result := setupSecurity world opers pack state
        if result.1 < 0 then return result else return processUnits world opers pack result.2

def uninstallAfmpkg (pack : Package) (state : State Closure) : Int × State Closure :=
  let result := processUnits world opers pack state
  if result.1 < 0 then result else setdownSecurity world opers pack result.2

/-- The two files whose presence makes a package root. -/
inductive Marker where
  | manifest
  | config
  deriving DecidableEq, Repr

def Marker.name : Marker → Bytes
  | .manifest => ascii ".rpconfig/manifest.yml"
  | .config => ascii "config.xml"

/-- `strncpy`, which fills the rest with zeros. -/
def strncpyAt (buffer : Bytes) (offset : Nat) (text : Bytes) : Bytes :=
  let room := buffer.length - offset
  store buffer offset (text.take room ++ List.replicate (room - text.length) 0)

def World.reader (world : World) : Marker → Bytes → Except Failure Json
  | .manifest => world.manifestReadAndCheck
  | .config => world.configReadAndCheck

def getManifest (offsetPack : Nat) (type : Marker) (path : Bytes) : Bytes × Except Failure Json :=
  let path := strncpyAt (store path offsetPack [Utils.slash]) (offsetPack + 1) type.name
  (path, access (world.reader type) (cstr path))

/-- A session of operations around the processing of a package. -/
def session (appid : Option Bytes) (mode : Mode) (pack : Package) (state : State Closure) :
    Run Closure (Int × State Closure) := do
  let begun := state.called (.begins appid) (opers.begins state.closure appid mode)
  let processed ←
    if 0 ≤ begun.1 then
      if mode = .install then installAfmpkg world opers pack begun.2
      else pure (uninstallAfmpkg world opers pack begun.2)
    else pure begun
  let ended := processed.2.called (.ends processed.1) (opers.ends processed.2.closure processed.1)
  return (if ended.1 < 0 then ended.1 else processed.1, ended.2)

def processPackage (apkg : Description) (mode : Mode) (packdir : PathEntry) (offsetRoot offsetPack : Nat)
    (type : Marker) (state : State Closure) : Run Closure (Int × State Closure) := do
  let read := getManifest world offsetPack type state.path
  let state := state.withPath read.1
  match read.2 with
  | .error rc => return (rc, state)
  | .ok manifest =>
    match addMetaToManifest world apkg mode offsetRoot offsetPack state.afids state.path manifest with
    | .error crash => throw ⟨crash, state⟩
    | .ok described =>
      let state := { state with path := described.path, afids := described.afids }
      if described.rc < 0 then return (described.rc, { state with rc := described.rc })
      else
        let appid := (described.manifest.get MANIFEST_ID).bind (Json.getString world.serialize)
        session world opers appid mode ⟨packdir, offsetRoot, offsetPack, described.manifest⟩ state

def processDefaultTreeAddCb (state : State Closure) (path : Bytes) (entry : PathEntry) :
    Int × State Closure :=
  state.called (.tagfile entry.ref path .Default) (opers.tagfile state.closure path .Default)

def tagDefaultTree (offsetRoot : Nat) (tree : PathTree) (state : State Closure) : Int × State Closure :=
  let result := forEachIn (fun state buffer entry => processDefaultTreeAddCb opers state (cstr buffer) entry)
    { onlyAdded := true, before := true } tree.root offsetRoot (state.path, state)
  (result.1, result.2.2.withPath result.2.1)

def detectAdded (tree : PathTree) : Int :=
  (pathEntryForEachInBuffer (fun _ _ => (1, ())) { onlyAdded := true, noPath := true, before := true }
    tree.root 0 ()).1

def processDefaultTree (mode : Mode) (offsetRoot : Nat) (tree : PathTree) (state : State Closure) :
    Int × State Closure :=
  if mode ≠ .install then (0, state)
  else if detectAdded tree ≤ 0 then (detectAdded tree, state)
  else
    let begun := state.called (.begins none) (opers.begins state.closure none mode)
    let tagged := if 0 ≤ begun.1 then tagDefaultTree opers offsetRoot tree begun.2 else begun
    tagged.2.called (.ends tagged.1) (opers.ends tagged.2.closure tagged.1)

def detectPackageRoot (entry : PathEntry) : Option Marker :=
  if entry.children = .null then none
  else if (pathEntryGetLength entry Marker.manifest.name Marker.manifest.name.length).isSome then
    some .manifest
  else if (pathEntryGetLength entry Marker.config.name Marker.config.name.length).isSome then some .config
  else none

def detectPackageRootsCb (roots : List (Ref × Marker)) (visit : Visit) : Int × List (Ref × Marker) :=
  match detectPackageRoot visit.entry with
  | some type => (0, roots ++ [(visit.entry.ref, type)])
  | none => (0, roots)

def detectPackageRoots (tree : PathTree) : Int × List (Ref × Marker) :=
  pathEntryForEachInBuffer detectPackageRootsCb { noPath := true, after := true } tree.root 0 []

/-- The tree while packages are processed, until its root itself is destroyed. -/
structure Progress (Closure : Type) where
  files : Option PathTree
  state : State Closure

/-- The entry of a package root is looked up again in the tree. Its path starts with a
slash, and its length is not compared with the size of the buffer. -/
def processRootpkg (apkg : Description) (mode : Mode) (offsetRoot : Nat) (root : Ref × Marker)
    (progress : Progress Closure) : Run Closure (Int × Progress Closure) := do
  let state := { progress.state with rc := 0, permset := Permset.create }
  match progress.files.bind fun tree => (descend root.1 tree.root).map fun entry => (tree, entry) with
  | none => throw ⟨.dangling, state⟩
  | some (tree, packdir) =>
    match pathEntryRelpath 0 ⟨false, true⟩ packdir.lineage (state.path.drop offsetRoot) with
    | none => throw ⟨.nullRead, state⟩
    | some (length, written) =>
      let path := store state.path offsetRoot written
      if PATH_MAX ≤ offsetRoot + length then throw ⟨.overflow, state.withPath path⟩
      else
        let result ← processPackage world opers apkg mode packdir offsetRoot (offsetRoot + length) root.2
          (state.withPath (store path (offsetRoot + length) [0]))
        return (result.1, ⟨pathEntryDestroy tree root.1, result.2⟩)

def rootpkgsForEach (apkg : Description) (mode : Mode) (offsetRoot : Nat) :
    List (Ref × Marker) → Progress Closure → Run Closure (Int × Progress Closure)
  | [], progress => return (0, progress)
  | root :: rest, progress => do
    let result ← processRootpkg world opers apkg mode offsetRoot root progress
    if result.1 = 0 then rootpkgsForEach apkg mode offsetRoot rest result.2 else return result

def stripped (root : Option Bytes) : Bytes := (root.getD []).rdropWhile (· = Utils.slash)

def initialPath (root : Option Bytes) : Bytes :=
  let path := match root with
    | none => world.memory.val
    | some root => store world.memory.val 0 (root ++ [0])
  store path (stripped root).length [0]

def startState (closure : Closure) (path : Bytes) : State Closure :=
  ⟨closure, [], 0, Permset.create, fun _ => [], path, 0⟩

/-- `offset_root` is an `unsigned`, that takes the length of the root modulo 2^32. -/
def rootLength (root : Option Bytes) : Nat := (root.getD []).length % 2 ^ 32

/-- A root that is accepted for its cut length is used up to that length only, and the metadata
are read behind the path buffer: nothing is said of such a run. -/
def afmpkgProcess (apkg : Description) (closure : Closure) (mode : Mode) :
    Run Closure (Int × State Closure) := do
  if PATH_MAX ≤ rootLength apkg.root then
    return (-ENAMETOOLONG, startState closure world.memory.val)
  else if 2 ^ 32 ≤ (apkg.root.getD []).length then throw ⟨.cutRoot, startState closure world.memory.val⟩
  else
    let state := startState closure (initialPath world apkg.root)
    let offsetRoot := (stripped apkg.root).length
    let roots := detectPackageRoots apkg.files
    if roots.1 < 0 then return (roots.1, state)
    else
      let result ← rootpkgsForEach world opers apkg mode offsetRoot roots.2 ⟨some apkg.files, state⟩
      if result.1 < 0 then return (result.1, result.2.state)
      else match result.2.files with
        | none => return (result.1, result.2.state)
        | some tree => return processDefaultTree opers mode offsetRoot tree result.2.state

theorem rootLength_short {root : Option Bytes} (fits : ¬PATH_MAX ≤ rootLength root)
    (whole : ¬2 ^ 32 ≤ (root.getD []).length) : (root.getD []).length < PATH_MAX := by
  rw [rootLength, Nat.mod_eq_of_lt (not_le.mp whole)] at fits
  exact not_le.mp fits

theorem rootLength_whole {root : Option Bytes} (short : (root.getD []).length < PATH_MAX) :
    ¬PATH_MAX ≤ rootLength root ∧ ¬2 ^ 32 ≤ (root.getD []).length := by
  have limit : PATH_MAX < 2 ^ 32 := by decide
  rw [rootLength, Nat.mod_eq_of_lt (short.trans limit)]
  exact ⟨not_le.mpr short, not_le.mpr (short.trans limit)⟩

def afmpkgInstall (apkg : Description) (closure : Closure) : Run Closure (Int × State Closure) :=
  afmpkgProcess world opers apkg closure .install

def afmpkgUninstall (apkg : Description) (closure : Closure) : Run Closure (Int × State Closure) :=
  afmpkgProcess world opers apkg closure .uninstall

def Run.calls : Run Closure (Int × State Closure) → List Call
  | .ok result => result.2.calls
  | .error crashed => crashed.state.calls

def filesOf (paths : List Bytes) : PathTree :=
  paths.foldl (fun tree path => (pathEntryAddLength tree path path.length).2) pathEntryCreateRoot

def request (root : Option Bytes) (paths : List Bytes) : Description :=
  ⟨⟨none, filesOf paths, root, none⟩, none⟩

/-- A system where all files are regular ones and all packages have the same manifest. -/
def plainWorld (manifest : Json) : World where
  memory := ⟨List.replicate PATH_MAX 0, List.length_replicate ..⟩
  fstatat := fun _ => .ok .regular
  chmod := fun _ => .ok ()
  manifestReadAndCheck := fun _ => .ok manifest
  configReadAndCheck := fun _ => .ok manifest
  unitsOf := fun _ => .ok []
  getNewAfid := fun afids => afids
  serialize := fun _ => []
  appDir := ascii "/usr/redpesk"
  iconDir := ascii "/usr/share/icons"

/-- Operations that always succeed, and report at the end the status that is given. -/
def accepting : Operations Unit where
  begins := fun _ _ _ => (0, ())
  tagfile := fun _ _ _ => (0, ())
  setperm := fun _ _ => (0, ())
  setplug := fun _ _ _ _ => (0, ())
  setunits := fun _ _ => (0, ())
  ends := fun _ status => (status, ())

end AppManager.Install
