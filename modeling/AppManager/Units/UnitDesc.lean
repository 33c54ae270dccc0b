import AppManager.Lib.Libc

/-! Descriptions of systemd units and the paths of their files. -/

namespace AppManager.Units
open AppManager.Lib AppManager.Lib.Libc

inductive UnitScope where
  | unknown
  | system
  | user
  deriving DecidableEq, Repr

inductive UnitType where
  | unknown
  | service
  | socket
  deriving DecidableEq, Repr

structure UnitDesc where
  scope : UnitScope
  type : UnitType
  name : Option Bytes
  content : Bytes
  wantedBy : Option Bytes
  deriving DecidableEq, Repr

namespace UnitDesc

/-- The name of a unit that passes `unit_desc_check`. -/
def check (desc : UnitDesc) : Option Bytes :=
  if desc.scope ≠ .unknown ∧ desc.type ≠ .unknown then desc.name.filter (· ≠ []) else none

def ext (desc : UnitDesc) : Bytes := if desc.type = .socket then ascii "socket" else ascii "service"

def scopeDir (desc : UnitDesc) : Bytes := if desc.scope = .user then ascii "user" else ascii "system"

def slash : Byte := '/'.toUInt8
def dot : Byte := '.'.toUInt8

/-- `check_snprintf_result`: a text that does not fit is an error. -/
def fitting (pathlen : Nat) (text : Bytes) : Option Bytes := if text.length < pathlen then some text else none

def pathText (root : Bytes) (desc : UnitDesc) (name : Bytes) : Bytes :=
  root ++ slash :: desc.scopeDir ++ slash :: name ++ dot :: desc.ext

def wantsText (root : Bytes) (desc : UnitDesc) (wanter name : Bytes) : Bytes :=
  root ++ slash :: desc.scopeDir ++ slash :: wanter ++ ascii ".wants/" ++ name ++ dot :: desc.ext

def targetText (desc : UnitDesc) (name : Bytes) : Bytes := ascii "../" ++ name ++ dot :: desc.ext

def getPath (root : Bytes) (desc : UnitDesc) (name : Bytes) (pathlen : Nat) : Option Bytes :=
  fitting pathlen (desc.pathText root name)

def getWantsPath (root : Bytes) (desc : UnitDesc) (wanter name : Bytes) (pathlen : Nat) : Option Bytes :=
  fitting pathlen (desc.wantsText root wanter name)

def getWantsTarget (desc : UnitDesc) (name : Bytes) (pathlen : Nat) : Option Bytes :=
  fitting pathlen (desc.targetText name)

theorem fitting_eq_some {pathlen : Nat} {text path : Bytes} :
    fitting pathlen text = some path ↔ text.length < pathlen ∧ path = text := by
  unfold fitting
  split
  · next fits => simp [fits, eq_comm]
  · next long => simp [long]

end UnitDesc
end AppManager.Units
