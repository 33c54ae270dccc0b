import AppManager.Install.FileProperties
import AppManager.Lib.Members
import AppManager.Lib.Reading

/-! The check and the normalization of a manifest that was read. The permissions that it
requires, and those that its targets require, are given in several forms. They are brought
to one: an object where each name of a permission gives an object with that name and a
value. -/

namespace AppManager.Install
open AppManager.Lib AppManager.Lib.Libc AppManager.Utils

def MANIFEST_RP_MANIFEST : Bytes := ascii "rp-manifest"
def MANIFEST_VERSION : Bytes := ascii "version"
def MANIFEST_ID_UNDERSCORE : Bytes := ascii "id-underscore"
def MANIFEST_VER : Bytes := ascii "ver"
def MANIFEST_IDAVER : Bytes := ascii "idaver"
def MANIFEST_TARGET : Bytes := ascii "target"
def MANIFEST_SHARP_TARGET : Bytes := ascii "#target"

namespace Manifest

def makeLowercase (text : Bytes) : Bytes := text.map toLower

def dashToUnderscore (text : Bytes) : Bytes :=
  text.map fun byte => if byte = '-'.toUInt8 then '_'.toUInt8 else byte

def inNumber (byte : Byte) : Bool := byte ≠ ' '.toUInt8 ∧ byte ≠ '.'.toUInt8

def mkver : Option Bytes → Option Bytes
  | none => none
  | some version =>
    let first := version.takeWhile inNumber
    let rest := version.drop first.length
    if rest.head? = some '.'.toUInt8 then
      some (makeLowercase (first ++ '.'.toUInt8 :: rest.tail.takeWhile inNumber))
    else some (makeLowercase first)

/-- Versions are distinguished or not at build time. -/
def mkidaver (distinctVersions : Bool) (id ver : Bytes) : Bytes :=
  if distinctVersions then id ++ '@'.toUInt8 :: ver else id

def add (jso : Json) (key value : Bytes) : Json := jso.add key (.string value)

section
variable (serialize : Json → Bytes)

/-- A string that is used without a check that there is one. -/
def useString (json : Json) : Except Crash Bytes :=
  match json.getString serialize with
  | none => .error .nullRead
  | some text => .ok text

/-- The version is checked, but the identifier is given to `strdup`. -/
def fulfill (distinctVersions : Bool) (jso : Json) : Except Crash (Int × Json) :=
  match jso.get MANIFEST_ID with
  | none => .ok (-EINVAL, jso)
  | some id =>
    match jso.get MANIFEST_VERSION with
    | none => .ok (-EINVAL, jso)
    | some version => do
      let given ← useString serialize id
      let lowid := makeLowercase given
      match mkver (version.getString serialize) with
      | none => .ok (-EINVAL, jso)
      | some ver =>
        let jso := add jso MANIFEST_ID lowid
        let jso := add jso MANIFEST_ID_UNDERSCORE (dashToUnderscore lowid)
        let jso := add jso MANIFEST_IDAVER (mkidaver distinctVersions lowid ver)
        .ok (0, add jso MANIFEST_VER ver)

/-- The answer for one target and what it becomes. -/
def retarget (item : Json) : Int × Json :=
  if item.isObject then
    match item.get MANIFEST_SHARP_TARGET with
    | some _ => (0, item)
    | none =>
      match item.get MANIFEST_TARGET with
      | none => (-EINVAL, item)
      | some targ => (0, item.add MANIFEST_SHARP_TARGET targ)
  else (-EINVAL, item)

/-- The targets after one that is refused are also changed. -/
def retargets (jso : Json) : Int × Json :=
  match jso.get MANIFEST_TARGETS with
  | some (.array items) =>
    (if (items.map retarget).all (·.1 = 0) then 0 else -EINVAL,
      jso.add MANIFEST_TARGETS (.array ((items.map retarget).map Prod.snd)))
  | _ => (-EINVAL, jso)

def permission (name value : Json) : Json := .object [(MANIFEST_NAME, name), (MANIFEST_VALUE, value)]

def addPermFromString (perms permstring : Json) : Except Crash (Int × Json) := do
  let key ← useString serialize permstring
  .ok (0, perms.add key (permission permstring (.string MANIFEST_VALUE_REQUIRED)))

def processArrayPermCb (perms item : Json) : Except Crash (Int × Json) :=
  match item with
  | .object _ =>
    match item.get MANIFEST_NAME with
    | none => .ok (-EINVAL, perms)
    | some name =>
      match item.get MANIFEST_VALUE with
      | none => .ok (-EINVAL, perms)
      | some _ => do
        let key ← useString serialize name
        .ok (0, perms.add key item)
  | .string _ => addPermFromString serialize perms item
  | _ => .ok (-EINVAL, perms)

/-- The name is compared with the key by `strcmp`, before the value is searched. -/
def processObjectPermCb (perms : Json) (member : Bytes × Json) : Except Crash (Int × Json) :=
  let key := cstr member.1
  let item := member.2
  match item with
  | .object _ =>
    match item.get MANIFEST_NAME with
    | none => .ok (-EINVAL, perms)
    | some name => do
      let text ← useString serialize name
      if key = text then
        match item.get MANIFEST_VALUE with
        | none => .ok (-EINVAL, perms)
        | some _ => .ok (0, perms.add key item)
      else .ok (-EINVAL, perms)
  | .string _ => .ok (0, perms.add key (permission (.string key) item))
  | _ => .ok (-EINVAL, perms)

/-- The forms of the permissions. There is no result for the others. -/
def adaptPermissions (input : Json) : Except Crash (Int × Json) :=
  match input with
  | .array items => iterateM (processArrayPermCb serialize) items (.object [])
  | .object members => iterateM (processObjectPermCb serialize) members (.object [])
  | .string _ => addPermFromString serialize (.object []) input
  | _ => .ok (-EINVAL, .null)

def adaptPermissionsOf (jso : Json) : Except Crash (Int × Json) :=
  match jso with
  | .object _ =>
    match jso.get MANIFEST_REQUIRED_PERMISSIONS with
    | none => .ok (0, jso)
    | some input => do
      let answer ← adaptPermissions serialize input
      if answer.1 < 0 then .ok (answer.1, jso)
      else .ok (answer.1, jso.add MANIFEST_REQUIRED_PERMISSIONS answer.2)
  | _ => .ok (-EINVAL, jso)

/-- The targets are changed in place, until one is refused. -/
def adaptTargets : List Json → Except Crash (Int × List Json)
  | [] => .ok (0, [])
  | item :: rest => do
    let first ← adaptPermissionsOf serialize item
    if first.1 = 0 then
      let others ← adaptTargets rest
      .ok (others.1, first.2 :: others.2)
    else .ok (first.1, first.2 :: rest)

def adaptAllPermissions (jso : Json) : Except Crash (Int × Json) := do
  let own ← adaptPermissionsOf serialize jso
  if own.1 < 0 then .ok own
  else
    match own.2.get MANIFEST_TARGETS with
    | some (.array items) =>
      let targets ← adaptTargets serialize items
      .ok (targets.1, own.2.add MANIFEST_TARGETS (.array targets.2))
    | _ => .ok (-EINVAL, own.2)

def normalize (distinctVersions : Bool) (obj : Json) : Except Crash (Int × Json) := do
  let fulfilled ← fulfill serialize distinctVersions obj
  if fulfilled.1 < 0 then .ok fulfilled
  else
    let retargeted := retargets fulfilled.2
    if retargeted.1 < 0 then .ok retargeted
    else adaptAllPermissions serialize retargeted.2

def isalnum (byte : Byte) : Bool :=
  (48 ≤ byte ∧ byte ≤ 57) ∨ (65 ≤ byte ∧ byte ≤ 90) ∨ (97 ≤ byte ∧ byte ≤ 122)

def validChar (byte : Byte) : Bool := isalnum byte ∨ byte ∈ ascii ".-_"

/-- The first character is read without a check that there is a string. -/
def checkValidString (jso : Json) (key : Bytes) : Except Crash Int :=
  match jso.get key with
  | none => .ok (-EINVAL)
  | some jval => do
    let value ← useString serialize jval
    .ok (if value ≠ [] ∧ value.all validChar then 0 else -EINVAL)

def check (jso : Json) : Except Crash Int :=
  match jso.get MANIFEST_RP_MANIFEST with
  | none => .ok (-EINVAL)
  | some jval => do
    let mark ← useString serialize jval
    if mark = ascii "1" then
      let rc ← checkValidString serialize jso MANIFEST_ID
      if rc = 0 then checkValidString serialize jso MANIFEST_VERSION else .ok rc
    else .ok (-EINVAL)

end
end Manifest
end AppManager.Install
