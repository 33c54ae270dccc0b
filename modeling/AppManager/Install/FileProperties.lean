import AppManager.Install.State

/-! The checks of a manifest against the files of its package, and the computation of
the types of these files. -/

namespace AppManager.Install
open AppManager.Lib AppManager.Lib.Libc AppManager.Utils

variable {Closure : Type} (world : World)

def requestPermission (state : State Closure) (perm : Bytes) : State Closure :=
  { state with permset := (state.permset.grant perm).request perm }

def acceptPermission (state : State Closure) : Option Bytes → State Closure
  | some perm => requestPermission state perm
  | none => state

def permissionName (jso : Json) : Option Bytes :=
  match jso.get MANIFEST_NAME with
  | some (.string text) => some (cstr text)
  | _ => none

/-- A null value is compared with `strcmp`. -/
def checkOnePermissionCb (state : State Closure) (jso : Json) : Run Closure (State Closure) :=
  match jso with
  | .object _ =>
    match jso.get MANIFEST_VALUE with
    | none => .ok (acceptPermission state (permissionName jso))
    | some value =>
      match value.getString world.serialize with
      | none => .error ⟨.nullRead, state⟩
      | some text =>
        if text = MANIFEST_VALUE_OPTIONAL ∨ text = MANIFEST_VALUE_REQUIRED then
          .ok (acceptPermission state (permissionName jso))
        else .ok state
  | .string text => .ok (requestPermission state (cstr text))
  | _ => .ok state

def checkPermissionsCb (state : State Closure) (jso : Json) : Run Closure (State Closure) :=
  (jso.membersAt MANIFEST_REQUIRED_PERMISSIONS).foldlM
    (fun state member => checkOnePermissionCb world state member.2) state

def checkPermissions (pack : Package) (state : State Closure) : Run Closure (State Closure) := do
  let state ← checkPermissionsCb world state pack.manifest
  pack.targets.foldlM (checkPermissionsCb world) state

/-- The path of an entry from the package directory, written after the path of that one. -/
def relpathAt (pack : Package) (entry : PathEntry) (path : Bytes) : Nat × Bytes :=
  let result := (pathEntryRelpath pack.packdir.lineage.length ⟨false, true⟩ entry.lineage
    (path.drop pack.offsetPack)).getD (0, path.drop pack.offsetPack)
  (result.1, store path pack.offsetPack result.2)

/-- The check of an installed file, whose length is added to that of the root. -/
def checkInstalled (pack : Package) (found : Option PathEntry) (allowed : FileKind → Bool)
    (state : State Closure) : Int × State Closure :=
  match found with
  | none => (-ENOENT, state)
  | some entry =>
    let result := relpathAt pack entry state.path
    let state := state.withPath result.2
    if PATH_MAX < result.1 + pack.offsetRoot then (-ENAMETOOLONG, state)
    else match access world.fstatat (cstr state.path) with
      | .error rc => (rc, state)
      | .ok kind => (if allowed kind then 0 else -EINVAL, state)

/-- Contents are also searched in the directory of the web contents. -/
def findContent (packdir : PathEntry) (src : Bytes) : Option PathEntry :=
  match pathEntryGet packdir (some src) with
  | some entry => some entry
  | none => (pathEntryGet packdir (some (ascii "htdocs"))).bind fun entry => pathEntryGet entry (some src)

def checkSrcTypeDefinition (pack : Package) (state : State Closure) (src : Bytes) : Int × State Closure :=
  checkInstalled world pack (findContent pack.packdir src) (· ≠ .other) state

def checkTargetContent (pack : Package) (state : State Closure) (target : Json) : State Closure :=
  match target.get (ascii "content") with
  | some (.object content) =>
    match (Json.object content).get (ascii "src") with
    | some (.string src) =>
      match (Json.object content).get (ascii "type") with
      | some (.string _) =>
        let result := checkSrcTypeDefinition world pack state (cstr src)
        result.2.put result.1
      | _ => state.put (-EINVAL)
    | _ => state.put (-EINVAL)
  | _ => state.put (-EINVAL)

def checkConfigFile (pack : Package) (state : State Closure) (src : Bytes) : Int × State Closure :=
  checkInstalled world pack (pathEntryGet pack.packdir (some src)) (· = .regular) state

def checkOneTargetConfigCb (pack : Package) (state : State Closure) (jso : Json) : State Closure :=
  match jso with
  | .string text =>
    let result := checkConfigFile world pack state (cstr text)
    result.2.put result.1
  | _ => state.put (-EINVAL)

def checkTargetConfig (pack : Package) (state : State Closure) (target : Json) : State Closure :=
  match target.get MANIFEST_REQUIRED_CONFIGS with
  | none => state
  | some configs => configs.optarrayItems.foldl (checkOneTargetConfigCb world pack) state

def checkTargetCb (pack : Package) (state : State Closure) (target : Json) : State Closure :=
  checkTargetConfig world pack (checkTargetContent world pack state target) target

def checkContents (pack : Package) (state : State Closure) : State Closure :=
  pack.targets.foldl (checkTargetCb world pack) state

def resetTypeCb (state : State Closure) (_path : Bytes) (entry : PathEntry) : Int × State Closure :=
  (0, state.setType entry.ref .Unset)

/-- A null value is given to `path_type_of_property_key`. -/
def computeExplicitFilePropertiesCb (pack : Package) (state : State Closure) (jso : Json) :
    Run Closure (State Closure) :=
  match jso.get (ascii "name"), jso.get (ascii "value") with
  | some name, some value =>
    match pathEntryGet pack.packdir (name.getString world.serialize) with
    | none => .ok (state.put (-ENOENT))
    | some entry =>
      match value.getString world.serialize with
      | none => .error ⟨.nullRead, state⟩
      | some strval =>
        let type := pathTypeOfPropertyKey strval
        let prvtype := getEntryType state.types entry.ref
        if type = .Unset then .ok (state.put (-EINVAL))
        else if prvtype = .Unset then .ok (state.setType entry.ref type)
        else if prvtype ≠ type then .ok (state.put (-EEXIST))
        else .ok state
  | _, _ => .ok (state.put (-EINVAL))

/-- An item that gives its type to the entry that it names at a key. -/
def computeNamedProperty (pack : Package) (key : Bytes) (type : PathType) (state : State Closure)
    (jso : Json) : State Closure :=
  match jso.get key with
  | none => state.put (-EINVAL)
  | some name =>
    match pathEntryGet pack.packdir (name.getString world.serialize) with
    | none => state.put (-ENOENT)
    | some entry => state.setType entry.ref type

def computeImplicitPlugPropertyCb (pack : Package) : State Closure → Json → State Closure :=
  computeNamedProperty world pack (ascii "name") .Plug

def computeProvidedBindingPropertyCb (pack : Package) : State Closure → Json → State Closure :=
  computeNamedProperty world pack (ascii "value") .Public_Lib

/-- A null type is compared with `strcasecmp`. -/
def computeTargetFilePropertiesCb (pack : Package) (state : State Closure) (jso : Json) :
    Run Closure (State Closure) :=
  match jso.get (ascii "content") with
  | none => .ok state
  | some content =>
    match content.get (ascii "src"), content.get (ascii "type") with
    | some src, some type =>
      match pathEntryGet pack.packdir (src.getString world.serialize) with
      | none => .ok (state.put (-ENOENT))
      | some entry =>
        if getEntryType state.types entry.ref = .Unset then
          match type.getString world.serialize with
          | none => .error ⟨.nullRead, state⟩
          | some mime =>
            if mimeTypeIsExecutable mime then .ok (state.setType entry.ref .Exec) else .ok state
        else .ok state
    | _, _ => .ok state

/-- The type of an entry that has none yet: by its name when it is a directory, else
that of its parent. -/
def defaultType (types : Vars VarKey PathType) (kind : FileKind) (entry : PathEntry) : PathType :=
  let named := if kind = .directory then pathTypeOfDirname entry.label.name else .Unset
  let inherited := if named = .Unset then getEntryType types entry.ref.dropLast else named
  if inherited = .Unset then .Id else inherited

def computeDefaultFilesPropertiesCb (state : State Closure) (path : Bytes) (entry : PathEntry) :
    Int × State Closure :=
  match access world.fstatat path with
  | .error rc => (rc, state.put rc)
  | .ok .other => (-EINVAL, state.put (-EINVAL))
  | .ok kind =>
    if getEntryType state.types entry.ref ≠ .Unset then (0, state)
    else (0, state.setType entry.ref (defaultType state.types kind entry))

def computePublicFilesPropertiesCb (pack : Package) (state : State Closure) (_path : Bytes)
    (entry : PathEntry) : Int × State Closure :=
  let type := getEntryType state.types entry.ref
  let parent := entry.ref.dropLast
  if entry.ref = pack.packdir.ref then (0, state)
  else if type = .Plug then
    (0, if getEntryType state.types parent ≠ .Public then state.setType parent .Plug else state)
  else if type.isPublic then (0, state.setType parent .Public)
  else (0, state)

/-- A stage that is done as long as no error was met. -/
def whenFine (stage : State Closure → Run Closure (State Closure)) (state : State Closure) :
    Run Closure (State Closure) :=
  if 0 ≤ state.rc then stage state else .ok state

def computeFilesProperties (pack : Package) (state : State Closure) : Run Closure (State Closure) := do
  let state := { state.setType pack.packdir.ref .Id with rc := 0 }
  let state ← whenFine (fun state =>
    .ok (pack.forEachContentEntry { noPath := true } resetTypeCb state).2) state
  let state ← whenFine (fun state =>
    .ok ((pack.manifest.itemsAt MANIFEST_PLUGS).foldl (computeImplicitPlugPropertyCb world pack) state)) state
  let state ← whenFine (fun state =>
    .ok ((pack.manifest.itemsAt MANIFEST_PROVIDED_BINDING).foldl
      (computeProvidedBindingPropertyCb world pack) state)) state
  let state ← whenFine (fun state =>
    (pack.manifest.itemsAt MANIFEST_FILE_PROPERTIES).foldlM
      (computeExplicitFilePropertiesCb world pack) state) state
  let state ← whenFine (fun state =>
    pack.targets.foldlM (computeTargetFilePropertiesCb world pack) state) state
  let state ← whenFine (fun state =>
    .ok (pack.forEachContentEntry { before := true } (computeDefaultFilesPropertiesCb world) state).2) state
  whenFine (fun state =>
    .ok (pack.forEachEntry { after := true, noPath := true } (computePublicFilesPropertiesCb pack) state).2) state

def makeFileExecutable (filename : Bytes) : Int :=
  match access world.chmod filename with
  | .ok _ => 0
  | .error rc => rc

def setupFilePropertiesCb (state : State Closure) (path : Bytes) (entry : PathEntry) : Int × State Closure :=
  let type := getEntryType state.types entry.ref
  if type = .Public_Exec ∨ type = .Exec then (0, state.put (makeFileExecutable world path)) else (0, state)

def setupFilesProperties (pack : Package) (state : State Closure) : State Closure :=
  (pack.forEachContentEntry {} (setupFilePropertiesCb world) state).2

end AppManager.Install
