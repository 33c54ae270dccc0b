import AppManager.Afmpkg.Request

/-! The processing of a request, the transactions that requests belong to, and the
line of the reply. -/

namespace AppManager.Afmpkg
open AppManager.Lib AppManager.Lib.Libc

/-- The counters are unsigned integers of 32 bits. -/
structure Transaction where
  expire : Int
  count : Nat
  success : Nat
  fail : Nat
  id : Bytes
  deriving DecidableEq, Repr

def RETENTION_SECONDS : Int := 3600

/-- Two readings of the time: for the expiration, then for the creation. -/
structure Clock where
  now : Int
  later : Int

def cleanupTransactions (transactions : List Transaction) (now : Int) : List Transaction :=
  transactions.filter fun trans => now < trans.expire

/-- The transactions and the position of the one with that identifier. -/
def getTransaction (transactions : List Transaction) (clock : Clock) (transid : Bytes) (count : Nat) :
    List Transaction × Option Nat :=
  let kept := cleanupTransactions transactions clock.now
  match kept.findIdx? fun trans => trans.id = transid with
  | some position => (kept, some position)
  | none =>
    if count ≠ 0 then (⟨clock.later + RETENTION_SECONDS, count, 0, 0, transid⟩ :: kept, some 0)
    else (kept, none)

def putTransaction (transactions : List Transaction) (position : Nat) : List Transaction :=
  transactions.eraseIdx position

/-- `afmpkg_install` and `afmpkg_uninstall`. -/
structure Operations where
  install : Apkg → Int
  uninstall : Apkg → Int

/-- What the server does to the system. -/
inductive Action where
  | install (apkg : Apkg)
  | uninstall (apkg : Apkg)
  | sighupAll

structure Processed where
  rc : Int
  req : Request
  transactions : List Transaction
  actions : List Action

/-- The accounting of a request that was processed with that result. -/
def recordStatus (clock : Clock) (transactions : List Transaction) (req : Request) (rc : Int)
    (actions : List Action) : Processed :=
  match req.transid with
  | none => ⟨rc, req, transactions, actions⟩
  | some transid =>
    match getTransaction transactions clock transid req.count with
    | (kept, none) =>
      let result := afmpkgRequestError req (-ENOMEM) (ascii "out of memory")
      ⟨result.1, result.2, kept, actions⟩
    | (kept, some position) =>
      let counted := if 0 ≤ rc
        then kept.modify position fun trans => { trans with success := (trans.success + 1) % 2 ^ 32 }
        else kept.modify position fun trans => { trans with fail := (trans.fail + 2 ^ 32 - 1) % 2 ^ 32 }
      ⟨rc, req, counted, actions⟩

/-- The two branches of the operations on packages. -/
def processPackage (clock : Clock) (transactions : List Transaction) (req : Request) (rc : Int)
    (msg : Bytes) (action : Action) : Processed :=
  let req := if rc < 0 then (afmpkgRequestError req rc msg).2 else req
  recordStatus clock transactions req rc [action]

/-- The conversion `%d` of an unsigned integer. -/
def intText (value : Nat) : Bytes := ascii (toString (toInt value))

def statusText (trans : Transaction) : Bytes :=
  intText trans.count ++ space :: intText trans.success ++ space :: intText trans.fail

def processStatus (clock : Clock) (transactions : List Transaction) (req : Request) : Processed :=
  match req.transid with
  | none =>
    let result := afmpkgRequestError req (-EINVAL) (ascii "invalid state")
    ⟨result.1, result.2, transactions, []⟩
  | some transid =>
    match getTransaction transactions clock transid 0 with
    | (kept, none) =>
      let result := afmpkgRequestError req (-ENOMEM) (ascii "out of memory")
      ⟨result.1, result.2, kept, []⟩
    | (kept, some position) =>
      let scratch := (kept[position]?.map statusText).getD []
      ⟨scratch.length, { req with scratch := some scratch, msg := some scratch },
        putTransaction kept position, []⟩

def afmpkgRequestProcess (operations : Operations) (clock : Clock) (transactions : List Transaction)
    (req : Request) : Processed :=
  match req.kind with
  | .unset =>
    let result := afmpkgRequestError req (-EINVAL) (ascii "invalid state")
    ⟨result.1, result.2, transactions, []⟩
  | .addPackage =>
    processPackage clock transactions req (operations.install req.apkg) (ascii "can't install")
      (.install req.apkg)
  | .removePackage =>
    processPackage clock transactions req (operations.uninstall req.apkg) (ascii "can't uninstall")
      (.uninstall req.apkg)
  | .checkAddPackage | .checkRemovePackage => ⟨0, req, transactions, []⟩
  | .getStatus => processStatus clock transactions req

/-- The text is cut at the end of the line buffer, the returned length is not. -/
def afmpkgRequestMakeReplyLine (req : Request) (line : Bytes) : Bytes × Nat :=
  let head := copyOut line 0 (if 0 ≤ req.scode then KEY_OK else KEY_ERROR)
  let message := match req.msg with
    | none => head
    | some msg => if cstr msg = [] then head else copyOut head.1 head.2 (space :: cstr msg)
  let ended := copyOut message.1 message.2 [newline]
  (if ended.2 < line.length then ended.1.set ended.2 0 else ended.1, ended.2)

theorem process_actions (operations : Operations) (clock : Clock) (transactions : List Transaction)
    (req : Request) :
    (afmpkgRequestProcess operations clock transactions req).actions =
      match req.kind with
      | .addPackage => [.install req.apkg]
      | .removePackage => [.uninstall req.apkg]
      | _ => [] := by
  have recorded : ∀ (req : Request) (rc : Int) (actions : List Action),
      (recordStatus clock transactions req rc actions).actions = actions := by
    intro req rc actions
    unfold recordStatus
    split
    · rfl
    · split
      · rfl
      · rfl
  unfold afmpkgRequestProcess
  cases kind : req.kind with
  | unset => rfl
  | addPackage => exact recorded _ _ _
  | removePackage => exact recorded _ _ _
  | checkAddPackage => rfl
  | checkRemovePackage => rfl
  | getStatus =>
    simp only [processStatus]
    split
    · rfl
    · split
      · rfl
      · rfl

end AppManager.Afmpkg
