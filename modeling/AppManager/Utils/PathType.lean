import AppManager.Lib.Bytes

/-! The types of installed files, the names that manifests and directories give to
them, and the MIME types of executable contents. -/

namespace AppManager.Utils
open AppManager.Lib

inductive PathType where
  | Unset
  | Default
  | Conf
  | Data
  | Exec
  | Http
  | Icon
  | Id
  | Lib
  | Plug
  | Public
  | Public_Exec
  | Public_Lib
  deriving DecidableEq, Repr

structure FileType where
  type : PathType
  key : Bytes
  dir : Option Bytes

def filetypes : List FileType := [
  ⟨.Conf, ascii "config", some (ascii "etc")⟩,
  ⟨.Data, ascii "data", none⟩,
  ⟨.Exec, ascii "executable", some (ascii "bin")⟩,
  ⟨.Http, ascii "www", some (ascii "htdocs")⟩,
  ⟨.Lib, ascii "library", some (ascii "lib")⟩,
  ⟨.Plug, ascii "plug", none⟩,
  ⟨.Public, ascii "public", some (ascii "public")⟩,
  ⟨.Public_Exec, ascii "public-executable", none⟩,
  ⟨.Public_Lib, ascii "public-library", none⟩]

def searchFiletypes (matching : FileType → Bool) : PathType :=
  ((filetypes.reverse.find? matching).map FileType.type).getD .Unset

def pathTypeOfPropertyKey (key : Bytes) : PathType :=
  searchFiletypes fun item => cstr key = item.key

def pathTypeOfDirname (dir : Bytes) : PathType :=
  searchFiletypes fun item => some (cstr dir) = item.dir

def pathTypeForSlm : PathType → Bytes
  | .Unset => ascii "default"
  | .Default => ascii "default"
  | .Conf => ascii "conf"
  | .Data => ascii "data"
  | .Exec => ascii "exec"
  | .Http => ascii "http"
  | .Icon => ascii "icon"
  | .Id => ascii "id"
  | .Lib => ascii "lib"
  | .Plug => ascii "plug"
  | .Public => ascii "public"
  | .Public_Exec => ascii "public"
  | .Public_Lib => ascii "public"

/-- The public types, for which the directories above are made public. -/
def PathType.isPublic : PathType → Bool
  | .Public => true
  | .Public_Exec => true
  | .Public_Lib => true
  | _ => false

def execTypeStrings : List Bytes := [
  ascii "application/x-executable",
  ascii "application/vnd.redpesk.native",
  ascii "application/vnd.agl.native"]

def toLower (byte : Byte) : Byte := if 65 ≤ byte ∧ byte ≤ 90 then byte + 32 else byte

theorem toLower_toLower (byte : Byte) : toLower (toLower byte) = toLower byte := by
  unfold toLower
  split
  · next upper =>
    have above : ¬(65 ≤ byte + 32 ∧ byte + 32 ≤ 90) := by
      simp only [UInt8.le_iff_toNat_le, UInt8.toNat_add, UInt8.reduceToNat] at upper ⊢
      omega
    rw [if_neg above]
  · rfl

/-- `strcasecmp` is zero. -/
def sameIgnoringCase (first second : Bytes) : Bool :=
  (cstr first).map toLower = (cstr second).map toLower

def mimeTypeIsExecutable (type : Bytes) : Bool :=
  execTypeStrings.reverse.any (sameIgnoringCase type)

end AppManager.Utils
