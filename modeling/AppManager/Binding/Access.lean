import AppManager.Binding.Urun

/-! The verbs of the application manager: their parameters are extracted from the
request and checked, then either the action of the verb runs or an error is replied. -/

namespace AppManager.Binding
open AppManager.Lib AppManager.Lib.Libc

def NOBODY : Int := 99

/-- A JSON value as the accessors of `json-c` see it. The pointer of `null` is `NULL`. -/
inductive JsonData where
  | null
  | boolean (value : Bool)
  | int (value : Int)
  | double (zero : Bool) (text : Bytes)
  | string (text : Bytes)
  | array (items : List JsonData)
  | object (members : List (Bytes × JsonData))

namespace JsonData

def get (key : Bytes) : JsonData → Option JsonData
  | .object members => (members.find? fun member => member.1 = key).map Prod.snd
  | _ => none

/-- `json_object_get_int` for an integer, which is kept inside the values of `int`. -/
def getInt (value : Int) : Int := max (-2 ^ 31) (min value (2 ^ 31 - 1))

def getBoolean : JsonData → Bool
  | .boolean value => value
  | .int value => value != 0
  | .double zero _ => !zero
  | .string text => !text.isEmpty
  | _ => false

def isUser : JsonData → Bool
  | .int value => decide (0 ≤ getInt value)
  | _ => false

/-- `json_object_get_string`, with the serializer for the other types. -/
def getString (serialize : JsonData → Bytes) : JsonData → Option Bytes
  | .null => none
  | .string text => some (cstr text)
  | json => some (serialize json)

end JsonData

/-- A request: its JSON argument, and the information about its client. -/
structure AfbReq where
  args : JsonData
  clientInfo : JsonData
  serialize : JsonData → Bytes

abbrev Mask := BitVec 32

def Param_UID : Mask := 1
def Param_All : Mask := 2
def Param_Id : Mask := 4
def Param_RunId : Mask := 8

def has (mask param : Mask) : Bool := decide (mask &&& param ≠ 0)

inductive Status where
  | noError
  | badRequest
  | notFound
  | notRunning
  | forbidden
  | outOfMemory
  deriving DecidableEq, Repr

structure Params where
  status : Status
  required : Mask
  found : Mask
  uid : Int
  runid : Int
  id : Option Bytes

/-- The codes of the error replies. -/
inductive AfbErrno where
  | invalidRequest
  | noItem
  | badState
  | forbidden
  | outOfMemory
  deriving DecidableEq, Repr

/-- The acts of a verb: its action, or an error reply, or a crash of the program. -/
inductive VerbAct where
  | action (params : Params)
  | replyError (code : AfbErrno)
  | crash

abbrev VerbDialog := Dialog Question Answer VerbAct
abbrev VerbStep := Step Question Answer VerbAct

def REDPESK_PREFIX : Bytes := ascii "urn:redpesk:permission:afm:system:"
def AGL_PREFIX : Bytes := ascii "urn:AGL:permission:afm:system:"

/-- `DEF_PERM`, with the permissions of AGL. -/
def defPerm (suffix : Bytes) : AfbAuth := .or (.permission (REDPESK_PREFIX ++ suffix)) (.permission (AGL_PREFIX ++ suffix))

def VIEW_ALL : Bytes := ascii "view-all"
def SET_UID : Bytes := ascii "set-uid"
def authPermViewAll : AfbAuth := defPerm VIEW_ALL
def authPermSetUid : AfbAuth := defPerm SET_UID

def hasAuthCb (params : Params) (status : Int) : Params :=
  if status = -ENOMEM then { params with status := .outOfMemory }
  else if status ≤ 0 then { params with status := .forbidden }
  else params

def hasAuth (params : Params) (auth : AfbAuth) (callback : Params → VerbDialog) : VerbDialog :=
  authCheck auth fun status => callback (hasAuthCb params status)

def getReqUid (req : AfbReq) : Int :=
  match req.clientInfo.get (ascii "uid") with
  | some (.int value) =>
    let val := JsonData.getInt value
    if 0 ≤ val ∧ val ≤ 65534 then val else NOBODY
  | _ => NOBODY

def extractUid (obj : Option JsonData) (params : Params) : Params :=
  match obj with
  | none => params
  | some (.int value) =>
    let id := JsonData.getInt value
    if id < 0 then { params with status := .badRequest }
    else if params.uid ≠ id then { params with uid := id, found := params.found ||| Param_UID }
    else params
  | some _ => { params with status := .badRequest }

def extractAll (expected : Mask) (obj : Option JsonData) (params : Params) : Params :=
  if has expected Param_All ∧ obj.any JsonData.getBoolean then { params with found := params.found ||| Param_All }
  else params

def extractId (serialize : JsonData → Bytes) (expected : Mask) (obj : Option JsonData) (params : Params) : Params :=
  match obj with
  | some obj =>
    if has expected (Param_Id ||| Param_RunId) then
      { params with id := obj.getString serialize, found := params.found ||| Param_Id }
    else params
  | none => params

def extractRunid (expected : Mask) (obj : Option JsonData) (params : Params) : Params :=
  if has expected Param_RunId then
    match obj with
    | none => params
    | some (.int value) => { params with runid := JsonData.getInt value, found := params.found ||| Param_RunId }
    | some _ => { params with status := .badRequest }
  else params

def extractParams (req : AfbReq) (required optional : Mask) : Params :=
  let expected := optional ||| required
  let params : Params :=
    { status := .noError, required := required, found := 0, uid := getReqUid req, runid := 0, id := none }
  match req.args with
  | .int value =>
    if has expected Param_RunId then
      { params with runid := JsonData.getInt value, found := params.found ||| Param_RunId }
    else params
  | .string text =>
    if has expected (Param_Id ||| Param_RunId) then
      { params with id := some (cstr text), found := params.found ||| Param_Id }
    else params
  | .object members =>
    let args := JsonData.object members
    extractRunid expected (args.get (ascii "runid"))
      (extractId req.serialize expected (args.get (ascii "id"))
        (extractAll expected (args.get (ascii "all")) (extractUid (args.get (ascii "uid")) params)))
  | _ => params

def replyOf : Status → AfbErrno
  | .notFound => .noItem
  | .notRunning => .badState
  | .forbidden => .forbidden
  | .outOfMemory => .outOfMemory
  | .badRequest | .noError => .invalidRequest

def checkFinal (params : Params) : VerbDialog :=
  if params.status = .noError ∧ params.required &&& params.found = params.required then
    .perform (.action params) .ended
  else .perform (.replyError (replyOf params.status)) .ended

section
variable (afudb : AfmUdb)

def checkRunid (params : Params) : VerbDialog :=
  if params.status = .noError ∧ has params.required Param_RunId ∧
      params.found &&& (Param_RunId ||| Param_Id) = Param_Id then
    afmUrunSearchRunid (.perform .crash .ended) afudb params.id params.uid fun answer =>
      if answer.1 < 0 then
        checkFinal { params with status := if answer.2 = ESRCH then .notRunning else .notFound }
      else checkFinal { params with runid := answer.1, found := params.found ||| Param_RunId }
  else checkFinal params

def checkPermissionAll (params : Params) : VerbDialog :=
  if params.status ≠ .noError ∨ !has params.found Param_All then checkRunid afudb params
  else hasAuth params authPermViewAll (checkRunid afudb)

def checkPermissionUid (params : Params) : VerbDialog :=
  if params.status ≠ .noError ∨ !has params.found Param_UID then checkPermissionAll afudb params
  else hasAuth params authPermSetUid (checkPermissionAll afudb)

def withParams (req : AfbReq) (required optional : Mask) : VerbDialog :=
  .ask .allocate fun given : Bool =>
    if given then checkPermissionUid afudb (extractParams req required optional)
    else .perform (.replyError .outOfMemory) .ended

end

end AppManager.Binding
