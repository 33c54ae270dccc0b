import AppManager.Afmpkg.Request
import AppManager.Lib.Json
import AppManager.Units.UnitDesc
import AppManager.Utils.PathBuffer
import AppManager.Utils.PathType
import AppManager.Utils.Permset

/-! The state of the processing of a package: the operations it calls and the trace of
these calls, the path buffer shared by its stages, the types of the entries and the
error that is kept. -/

namespace AppManager.Install
open AppManager.Lib AppManager.Lib.Libc AppManager.Utils AppManager.Units

inductive Mode where
  | nop
  | install
  | uninstall
  deriving DecidableEq, Repr

/-- The description of a package, with the name of the marker of redpaks. -/
structure Description extends Afmpkg.Apkg where
  redpakAuto : Option Bytes

structure Operations (Closure : Type) where
  begins : Closure → Option Bytes → Mode → Int × Closure
  tagfile : Closure → Bytes → PathType → Int × Closure
  setperm : Closure → Bytes → Int × Closure
  setplug : Closure → Bytes → Option Bytes → Bytes → Int × Closure
  setunits : Closure → List UnitDesc → Int × Closure
  ends : Closure → Int → Int × Closure

/-- A call of an operation and its answer. A call of `tagfile` also tells the entry
that it is for. -/
inductive Call where
  | begins (appid : Option Bytes) (rc : Int)
  | tagfile (entry : Ref) (path : Bytes) (type : PathType) (rc : Int)
  | setperm (permission : Bytes) (rc : Int)
  | setplug (exportdir : Bytes) (importid : Option Bytes) (importdir : Bytes) (rc : Int)
  | setunits (units : List UnitDesc) (rc : Int)
  | ends (status rc : Int)
  deriving DecidableEq, Repr

inductive FileKind where
  | regular
  | directory
  | other
  deriving DecidableEq, Repr

/-- What the processing reads around it: the memory of its buffers before it writes
there, the files, the manifests that are read and checked, the units made for a manifest,
the identifiers that are available, and the directories set at build time. -/
structure World where
  memory : { bytes : Bytes // bytes.length = PATH_MAX }
  fstatat : Bytes → Except Failure FileKind
  chmod : Bytes → Except Failure Unit
  manifestReadAndCheck : Bytes → Except Failure Json
  configReadAndCheck : Bytes → Except Failure Json
  unitsOf : Json → Except Failure (List UnitDesc)
  getNewAfid : Nat → Int
  serialize : Json → Bytes
  appDir : Bytes
  iconDir : Bytes

/-- The system refuses the paths that are too long for it. -/
def access {Answer : Type} (answer : Bytes → Except Failure Answer) (path : Bytes) : Except Failure Answer :=
  if path.length < PATH_MAX then answer path else .error ⟨-ENAMETOOLONG, by decide⟩

inductive VarKey where
  | type
  deriving DecidableEq, Repr

/-- What changes while a package is processed. -/
structure State (Closure : Type) where
  closure : Closure
  calls : List Call
  rc : Int
  permset : Permset
  types : Vars VarKey PathType
  path : Bytes
  afids : Nat

structure Package where
  packdir : PathEntry
  offsetRoot : Nat
  offsetPack : Nat
  manifest : Json

inductive Crash where
  | nullRead
  | overflow
  | dangling
  | cutRoot
  deriving DecidableEq, Repr

/-- The bound of a buffer was not kept, or a path was cut without an answer. -/
def Crash.unbounded : Crash → Bool
  | .overflow => true
  | .cutRoot => true
  | _ => false

structure Crashed (Closure : Type) where
  crash : Crash
  state : State Closure

abbrev Run (Closure Result : Type) := Except (Crashed Closure) Result

def getEntryType (types : Vars VarKey PathType) (entry : Ref) : PathType :=
  (pathEntryVar types entry .type).getD .Unset

/-- The type `Unset` is the value `NULL`. -/
def setEntryType (types : Vars VarKey PathType) (entry : Ref) (type : PathType) : Vars VarKey PathType :=
  pathEntryVarSet types entry .type (if type = .Unset then none else some type) false

theorem getEntryType_set (types : Vars VarKey PathType) (entry other : Ref) (type : PathType) :
    getEntryType (setEntryType types entry type) other =
      if other = entry then type else getEntryType types other := by
  unfold getEntryType setEntryType
  rw [pathEntryVar_set]
  by_cases same : other = entry
  · by_cases unset : type = .Unset
    · simp [same, unset]
    · simp [same, unset]
  · simp [same]

theorem setEntryType_comm (types : Vars VarKey PathType) {first second : Ref} (other : first ≠ second)
    (type type' : PathType) : setEntryType (setEntryType types first type) second type' =
      setEntryType (setEntryType types second type') first type := by
  unfold setEntryType pathEntryVarSet
  rw [Function.update_of_ne other.symm, Function.update_of_ne other, Function.update_comm other]

def pathEntryGet (root : PathEntry) (path : Option Bytes) : Option PathEntry :=
  pathEntryGetLength root (path.getD []) (path.getD []).length

def MANIFEST_TARGETS : Bytes := ascii "targets"
def MANIFEST_PLUGS : Bytes := ascii "plugs"
def MANIFEST_NAME : Bytes := ascii "name"
def MANIFEST_VALUE : Bytes := ascii "value"
def MANIFEST_REQUIRED_PERMISSIONS : Bytes := ascii "required-permission"
def MANIFEST_REQUIRED_CONFIGS : Bytes := ascii "required-config"
def MANIFEST_PROVIDED_BINDING : Bytes := ascii "provided-binding"
def MANIFEST_FILE_PROPERTIES : Bytes := ascii "file-properties"
def MANIFEST_VALUE_OPTIONAL : Bytes := ascii "optional"
def MANIFEST_VALUE_REQUIRED : Bytes := ascii "required"
def MANIFEST_ID : Bytes := ascii "id"

section
variable {Closure : Type}

namespace State

/-- `put_state_rc`: the first error is kept. -/
def put (state : State Closure) (rc : Int) : State Closure :=
  if rc < 0 ∧ 0 ≤ state.rc then { state with rc := rc } else state

def setType (state : State Closure) (entry : Ref) (type : PathType) : State Closure :=
  { state with types := setEntryType state.types entry type }

def withPath (state : State Closure) (path : Bytes) : State Closure := { state with path := path }

def called (state : State Closure) (call : Int → Call) (answer : Int × Closure) : Int × State Closure :=
  (answer.1, { state with closure := answer.2, calls := state.calls ++ [call answer.1] })

end State

namespace Package

/-- Where `for_each_entry` starts in the path buffer. -/
def entryOffset (pack : Package) (flags : ForallFlags) : Nat :=
  if flags.silentRoot then pack.offsetPack
  else if pack.packdir.label.name.length < pack.offsetPack then
    pack.offsetPack - (pack.packdir.label.name.length + 1)
  else pack.offsetPack

/-- The callback is given the string in the path buffer. -/
def forEachEntry (pack : Package) (flags : ForallFlags)
    (callback : State Closure → Bytes → PathEntry → Int × State Closure) (state : State Closure) :
    Int × State Closure :=
  let result := forEachIn (fun state buffer entry => callback state (cstr buffer) entry) flags
    pack.packdir (pack.entryOffset flags) (state.path, state)
  (result.1, result.2.2.withPath result.2.1)

def forEachContentEntry (pack : Package) (flags : ForallFlags)
    (callback : State Closure → Bytes → PathEntry → Int × State Closure) (state : State Closure) :
    Int × State Closure :=
  pack.forEachEntry { flags with silentRoot := true } callback state

def targets (pack : Package) : List Json := pack.manifest.itemsAt MANIFEST_TARGETS

end Package

/-- `snprintf` at a place of a buffer, up to its end. -/
def snprintfAt (buffer : Bytes) (offset : Nat) (text : Bytes) : Bytes :=
  store buffer offset (text.take (buffer.length - offset - 1) ++ [0])

/-- The conversion `%s`. -/
def shown (text : Option Bytes) : Bytes := text.getD (ascii "(null)")

def forEachPlugCb (world : World) (pack : Package)
    (callback : State Closure → PathEntry → Option Bytes → Bytes → State Closure) (state : State Closure)
    (desc : Json) : State Closure :=
  match desc.get MANIFEST_NAME with
  | none => state.put (-EINVAL)
  | some name =>
    match desc.get MANIFEST_VALUE with
    | none => state.put (-EINVAL)
    | some value =>
      let expdir := name.getString world.serialize
      let impid := value.getString world.serialize
      match pathEntryGet pack.packdir expdir with
      | none => state.put (-ENOENT)
      | some entry =>
        let state := state.withPath (snprintfAt state.path pack.offsetPack (Utils.slash :: shown expdir))
        let path := (cstr state.path).take pack.offsetRoot ++ world.appDir ++ Utils.slash :: shown impid ++
          ascii "/plugins"
        if (path.length : Int) ≤ 0 ∧ PATH_MAX + 1 ≤ path.length then state.put (-ENAMETOOLONG)
        else callback state entry impid (path.take PATH_MAX)

def forEachPlug (world : World) (pack : Package)
    (callback : State Closure → PathEntry → Option Bytes → Bytes → State Closure) (state : State Closure) :
    State Closure :=
  (pack.manifest.itemsAt MANIFEST_PLUGS).foldl (forEachPlugCb world pack callback) state

end
end AppManager.Install
