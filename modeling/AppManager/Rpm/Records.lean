import AppManager.Afmpkg.Client
import AppManager.Lib.Visit

/-! The plugin of rpm, that tells the framework of the packages of transaction sets. The
elements of all the sets are recorded in one list, from before the transaction of their
set until after it. -/

namespace AppManager.Rpm
open AppManager.Lib AppManager.Lib.Libc AppManager.Afmpkg

def RPMRC_OK : Int := 0
def RPMRC_FAIL : Int := 2

inductive ElementType where
  | added
  | removed
  | other
  deriving DecidableEq, Repr

/-- An element of a transaction set. -/
structure Element where
  type : ElementType
  name : CString
  files : List CString

/-- The flags of a transaction set that the plugin tests. -/
structure Flags where
  test : Bool
  nopreun : Bool
  nopost : Bool
  deriving DecidableEq, Repr

/-- What a call of the plugin meets: its set, the environment, the memory it gets and what
the framework answers to each message. -/
structure Setting where
  flags : Flags
  rootdir : Option CString
  transid : Option CString
  redpakid : Option CString
  alloc : Allocator
  stack : Client
  garbage : Nat
  dial : Bytes → Int

section
variable {Ts : Type}

structure Record (Ts : Type) where
  ts : Ts
  type : ElementType
  index : Nat
  count : Nat
  te : Element
  files : List CString

/-- One call of `perform` on a record of its type: the operation, the message that was
made for it and sent, if any. -/
structure Performed (Ts : Type) where
  record : Record Ts
  operation : Int
  message : Option Bytes

def cint (value : Nat) : CInt := ⟨toInt value, by unfold toInt; split <;> omega, toInt_lt value⟩

/-- Calls one after the other as long as they give zero. -/
def whileZero (alloc : Allocator) (client : Client) : List Call → Option (Int × Client)
  | [] => some (0, client)
  | call :: rest =>
    (client.step alloc call).bind fun called =>
      if called.1 = 0 then whileZero alloc called.2 rest else some called

theorem whileZero_named (alloc : Allocator) (calls : List Call) (client : Client) (named : client.Named) :
    (whileZero alloc client calls).isSome := by
  induction calls generalizing client with
  | nil => rfl
  | cons call rest ih =>
    obtain ⟨called, step, named⟩ := step_named alloc client named call
    rw [whileZero, step, Option.bind_some]
    split
    · exact ih _ named
    · rfl

def messageCalls (setting : Setting) (record : Record Ts) (operation : Int) : List Call :=
  .opening operation record.te.name (cint record.index) (cint record.count) ::
    (setting.rootdir.map Call.putRootdir).toList ++ (setting.transid.map Call.putTransid).toList ++
    (setting.redpakid.map Call.putRedpakid).toList ++ record.files.map Call.putFile ++ [.ending]

theorem messageCalls_run (setting : Setting) (client : Client) (record : Record Ts) (operation : Int) :
    (whileZero setting.alloc client (messageCalls setting record operation)).isSome := by
  simp only [messageCalls, List.cons_append]
  rw [whileZero, Client.step, Option.bind_some]
  split
  · next begun =>
    apply whileZero_named
    by_cases range : operation < 0 ∨ 3 < operation
    · rw [afmpkgClientBegin, if_pos range] at begun
      exact absurd begun (by decide : ¬-EINVAL = (0 : Int))
    · rw [Client.Named, afmpkgClientBegin_operation _ _ _ _ _ _ range]
      omega
  · rfl

def makeMessage (setting : Setting) (client : Client) (record : Record Ts) (operation : Int) : Int × Client :=
  (whileZero setting.alloc client (messageCalls setting record operation)).get
    (messageCalls_run setting client record operation)

def getOperation (type : ElementType) (onlycheck : Bool) : Int :=
  match type with
  | .added => if onlycheck then 2 else 0
  | .removed => if onlycheck then 3 else 1
  | .other => -1

/-- What the calls of `perform` add to: what they performed, and the code at `prc`. -/
structure Progress (Ts : Type) where
  performed : List (Performed Ts)
  rc : Int

def perform (setting : Setting) (type : ElementType) (onlycheck : Bool) (record : Record Ts)
    (progress : Progress Ts) : (Bool × Record Ts) × Progress Ts :=
  if record.type ≠ type then ((false, record), progress)
  else
    let operation := getOperation type onlycheck
    let made := makeMessage setting (afmpkgClientInit setting.stack) record operation
    if made.1 < 0 then
      ((true, record), ⟨progress.performed ++ [⟨record, operation, none⟩], RPMRC_FAIL⟩)
    else
      let rc := if setting.dial made.2.content ≤ 0 then RPMRC_FAIL else progress.rc
      ((true, record), ⟨progress.performed ++ [⟨record, operation, some made.2.content⟩], rc⟩)

def performRemove (setting : Setting) := @perform Ts setting .removed false
def performAdd (setting : Setting) := @perform Ts setting .added false
def performCheckRemove (setting : Setting) := @perform Ts setting .removed true
def performCheckAdd (setting : Setting) := @perform Ts setting .added true

variable [DecidableEq Ts]

def forEachRecord {State : Type} (ts : Ts) (callback : Option (Record Ts → State → (Bool × Record Ts) × State)) :
    List (Record Ts) → State → List (Record Ts) × State
  | [], closure => ([], closure)
  | it :: next, closure =>
    if it.ts ≠ ts then
      let rest := forEachRecord ts callback next closure
      (it :: rest.1, rest.2)
    else match callback with
      | some callback =>
        let called := callback it closure
        let rest := forEachRecord ts (some callback) next called.2
        (if called.1.1 then rest.1 else called.1.2 :: rest.1, rest.2)
      | none => forEachRecord ts none next closure

def numberCount (record : Record Ts) (count : Nat) : (Bool × Record Ts) × Nat :=
  ((false, { record with count := count }), count)

/-- `number_removes` and `number_adds`, each for its type. -/
def numberType (type : ElementType) (record : Record Ts) (idx : Nat) : (Bool × Record Ts) × Nat :=
  if record.type = type then ((false, { record with index := idx + 1 }), idx + 1) else ((false, record), idx)

def numberRemoves := @numberType Ts .removed
def numberAdds := @numberType Ts .added

/-- The records that are put before the others, and their count. -/
def addRecords (ts : Ts) (garbage : Nat) : List Element → List (Record Ts) × Nat → List (Record Ts) × Nat
  | [], recorded => recorded
  | te :: elements, recorded =>
    addRecords ts garbage elements
      (match te.type with
      | .added | .removed => (⟨ts, te.type, garbage, garbage, te, te.files⟩ :: recorded.1, recorded.2 + 1)
      | .other => recorded)

/-- The records once `tsm_pre_cb` has numbered them. -/
def numberedRecords (ts : Ts) (garbage : Nat) (elements : List Element) (records : List (Record Ts)) :
    List (Record Ts) :=
  let recorded := addRecords ts garbage elements (records, 0)
  let counted := forEachRecord ts (some numberCount) recorded.1 recorded.2
  let removes := forEachRecord ts (some numberRemoves) counted.1 0
  (forEachRecord ts (some numberAdds) removes.1 removes.2).1

/-- The records after the call, and what was performed. -/
def tsmPreCb (ts : Ts) (setting : Setting) (elements : List Element) (records : List (Record Ts)) :
    List (Record Ts) × List (Performed Ts) :=
  let numbered := numberedRecords ts setting.garbage elements records
  match setting.flags.test, setting.flags.nopreun with
  | false, false =>
    let done := forEachRecord ts (some (performRemove setting)) numbered ⟨[], RPMRC_OK⟩
    (done.1, done.2.performed)
  | false, true => (numbered, [])
  | true, _ =>
    let done := forEachRecord ts (some (performCheckRemove setting)) numbered ⟨[], RPMRC_OK⟩
    (done.1, done.2.performed)

def tsmPostCb (ts : Ts) (setting : Setting) (res : Int) (records : List (Record Ts)) :
    List (Record Ts) × List (Performed Ts) :=
  let done :=
    if res = RPMRC_OK then
      match setting.flags.test, setting.flags.nopost with
      | false, false => forEachRecord ts (some (performAdd setting)) records ⟨[], RPMRC_OK⟩
      | false, true => (records, ⟨[], RPMRC_OK⟩)
      | true, _ => forEachRecord ts (some (performCheckAdd setting)) records ⟨[], RPMRC_OK⟩
    else (records, ⟨[], RPMRC_OK⟩)
  ((forEachRecord ts none done.1 ()).1, done.2.performed)

end

end AppManager.Rpm
