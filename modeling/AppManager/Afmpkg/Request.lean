import AppManager.Afmpkg.Proto
import AppManager.Utils.PathEntry

/-! The request of a client, filled line by line. Zero and `NULL` stand for what was
not given yet, and the first error is the one that is kept. -/

namespace AppManager.Afmpkg
open AppManager.Lib AppManager.Lib.Libc AppManager.Utils

inductive RequestState where
  | pending
  | ready
  | ok
  | error
  deriving DecidableEq, Repr

inductive RequestKind where
  | unset
  | addPackage
  | removePackage
  | checkAddPackage
  | checkRemovePackage
  | getStatus
  deriving DecidableEq, Repr

structure Apkg where
  package : Option Bytes
  files : PathTree
  root : Option Bytes
  redpakid : Option Bytes

structure Request where
  state : RequestState
  kind : RequestKind
  scode : Int
  index : Nat
  count : Nat
  transid : Option Bytes
  scratch : Option Bytes
  msg : Option Bytes
  apkg : Apkg

def afmpkgRequestInit : Int × Request :=
  (0, ⟨.pending, .unset, 0, 0, 0, none, none, none, ⟨none, pathEntryCreateRoot, none, none⟩⟩)

def afmpkgRequestError (req : Request) (scode : Int) (msg : Bytes) : Int × Request :=
  (scode, if req.scode = 0 then { req with state := .error, scode := scode, msg := some msg } else req)

def getOperationKind (string : Bytes) : RequestKind :=
  if cstr string = OPERATION_ADD then .addPackage
  else if cstr string = OPERATION_REMOVE then .removePackage
  else if cstr string = OPERATION_CHECK_ADD then .checkAddPackage
  else if cstr string = OPERATION_CHECK_REMOVE then .checkRemovePackage
  else .unset

/-- The codes and the messages of the errors of a number. -/
structure NumberErrors where
  unexpected : Int × Bytes
  invalid : Int × Bytes
  range : Int × Bytes
  order : Int × Bytes

/-- A number that is given once, in the order that the other one imposes. -/
def addNumber (req : Request) (errors : NumberErrors) (present : Nat) (disorder : Nat → Bool)
    (set : Nat → Request) (line : Bytes) : Int × Request :=
  if present ≠ 0 ∨ req.kind = .unset then
    afmpkgRequestError req errors.unexpected.1 errors.unexpected.2
  else
    let val := strtol (cstr line)
    if val.rest ≠ [] then afmpkgRequestError req errors.invalid.1 errors.invalid.2
    else if val.value < 1 ∨ UINT_MAX < val.value ∨ (val.value = LONG_MAX ∧ val.erange) then
      afmpkgRequestError req errors.range.1 errors.range.2
    else if disorder val.value.toNat then afmpkgRequestError req errors.order.1 errors.order.2
    else (0, set val.value.toNat)

def addCount (req : Request) (line : Bytes) : Int × Request :=
  addNumber req ⟨(-1003, ascii "unexpected COUNT"), (-1004, ascii "invalid COUNT"),
      (-1005, ascii "COUNT out of range"), (-1006, ascii "COUNT out of INDEX")⟩
    req.count (fun val => req.index ≠ 0 ∧ val < req.index) (fun val => { req with count := val }) line

def addIndex (req : Request) (line : Bytes) : Int × Request :=
  addNumber req ⟨(-1011, ascii "unexpected INDEX"), (-1012, ascii "invalid INDEX"),
      (-1013, ascii "INDEX out of range"), (-1014, ascii "INDEX out of COUNT")⟩
    req.index (fun val => req.count ≠ 0 ∧ req.count < val) (fun val => { req with index := val }) line

def addText (req : Request) (scode : Int) (msg : Bytes) (present : Option Bytes)
    (set : Bytes → Request) (line : Bytes) : Int × Request :=
  if present ≠ none ∨ req.kind = .unset then afmpkgRequestError req scode msg
  else (0, set (cstr line))

def addPackage (req : Request) : Bytes → Int × Request :=
  addText req (-1015) (ascii "unexpected PACKAGE") req.apkg.package
    fun text => { req with apkg := { req.apkg with package := some text } }

def addRedpakid (req : Request) : Bytes → Int × Request :=
  addText req (-1017) (ascii "unexpected REDPAKID") req.apkg.redpakid
    fun text => { req with apkg := { req.apkg with redpakid := some text } }

def addRoot (req : Request) : Bytes → Int × Request :=
  addText req (-1018) (ascii "unexpected ROOT") req.apkg.root
    fun text => { req with apkg := { req.apkg with root := some text } }

def addTransid (req : Request) : Bytes → Int × Request :=
  addText req (-1019) (ascii "unexpected TRANSID") req.transid
    fun text => { req with transid := some text }

def addBegin (req : Request) (line : Bytes) : Int × Request :=
  if req.kind ≠ .unset then afmpkgRequestError req (-1001) (ascii "unexpected BEGIN")
  else if getOperationKind line = .unset then
    afmpkgRequestError { req with kind := .unset } (-1002) (ascii "invalid BEGIN")
  else (0, { req with kind := getOperationKind line })

def addEnd (req : Request) (line : Bytes) : Int × Request :=
  if req.kind ≠ getOperationKind line then afmpkgRequestError req (-1008) (ascii "invalid END")
  else (0, { req with state := .ready })

def addFile (req : Request) (line : Bytes) : Int × Request :=
  if req.kind = .unset then afmpkgRequestError req (-1009) (ascii "unexpected FILE")
  else
    let result := pathEntryAddLength req.apkg.files line line.length
    let req := { req with apkg := { req.apkg with files := result.2 } }
    if result.1 < 0 then afmpkgRequestError req (-1010) (ascii "can't add FILE") else (0, req)

def addStatus (req : Request) (line : Bytes) : Int × Request :=
  if req.kind ≠ .unset ∨ req.transid ≠ none then
    afmpkgRequestError req (-1020) (ascii "unexpected STATUS")
  else (0, { req with transid := some (cstr line), kind := .getStatus, state := .ready })

/-- The line is followed by a NUL, and can hold others. -/
def afmpkgRequestAddLine (req : Request) (line : Bytes) : Int × Request :=
  if req.state ≠ .pending then afmpkgRequestError req (-1000) (ascii "line after end")
  else match lineKey line with
    | none => afmpkgRequestError req (-1021) (ascii "bad line")
    | some (.BEGIN, value) => addBegin req value
    | some (.COUNT, value) => addCount req value
    | some (.END, value) => addEnd req value
    | some (.FILE, value) => addFile req value
    | some (.INDEX, value) => addIndex req value
    | some (.PACKAGE, value) => addPackage req value
    | some (.REDPAKID, value) => addRedpakid req value
    | some (.ROOT, value) => addRoot req value
    | some (.TRANSID, value) => addTransid req value
    | some (.STATUS, value) => addStatus req value

/-- The answers to successive lines, and the request after them. -/
def addLines : Request → List Bytes → List Int × Request
  | req, [] => ([], req)
  | req, line :: rest =>
    let result := afmpkgRequestAddLine req line
    (result.1 :: (addLines result.2 rest).1, (addLines result.2 rest).2)

end AppManager.Afmpkg
