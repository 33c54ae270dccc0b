import AppManager.Afmpkg.Proto
import AppManager.Lib.Libc

/-! The client of the installer, that writes the lines of its request in a buffer. The
buffer is first the one inside of the client, then a block of the heap. -/

namespace AppManager.Afmpkg
open AppManager.Lib AppManager.Lib.Libc

def AFMPKG_CLIENT_BUFFER0_SIZE : Nat := 4050

inductive ClientState where
  | none
  | started
  | ready
  deriving DecidableEq, Repr

def MEMO_ROOTDIR : UInt8 := 1
def MEMO_TRANSID : UInt8 := 2
def MEMO_REDPAKID : UInt8 := 4

/-- The buffer in use is the block of the heap, if there is one. -/
structure Client where
  buffer0 : { cells : Bytes // cells.length = AFMPKG_CLIENT_BUFFER0_SIZE }
  heap : Option Bytes
  length : Nat
  size : Nat
  operation : Int
  state : ClientState
  memo : UInt8

def Client.buffer (client : Client) : Bytes := client.heap.getD client.buffer0.1

def Client.content (client : Client) : Bytes := client.buffer.take client.length

/-- Writes in the buffer in use, inside of its size. -/
def Client.write (client : Client) (position : Nat) (data : Bytes) : Client :=
  match client.heap with
  | some block => { client with heap := some (store block position data) }
  | none =>
    if room : position + data.length ≤ client.buffer0.1.length then
      { client with buffer0 := ⟨store client.buffer0.1 position data,
          (store_length _ _ _ room).trans client.buffer0.2⟩ }
    else client

/-- The blocks that `malloc` gives, of any content. -/
structure Allocator where
  malloc : Nat → Bytes
  size : ∀ size, (malloc size).length = size

/-- The first bytes of a block are kept, the others are those of a new block. -/
def Allocator.realloc (alloc : Allocator) (block : Bytes) (size : Nat) : Bytes :=
  (block ++ (alloc.malloc size).drop block.length).take size

/-- The doubling of the size. Its end is an overflow, as no size is zero. -/
def growSize (size fpos : Nat) : Option Nat :=
  if size ≤ fpos then
    let nxtsz := 2 * size % 2 ^ 64
    if nxtsz ≤ size then none else growSize nxtsz fpos
  else some size
termination_by 2 ^ 64 - size
decreasing_by
  have := Nat.mod_lt (2 * size) (by decide : 0 < 2 ^ 64)
  omega

/-- Makes the buffer longer than `fpos`. -/
def grow (alloc : Allocator) (client : Client) (fpos : Nat) : Option Client :=
  if client.size ≤ fpos then
    (growSize client.size fpos).map fun size =>
      match client.heap with
      | none => { client with heap := some (alloc.malloc size), size := size }
      | some block => { client with heap := some (alloc.realloc block size), size := size }
  else some client

def putKeyValNl (alloc : Allocator) (client : Client) (key : Key) (val : Bytes) : Int × Client :=
  if client.state ≠ .started then (-EINVAL, client)
  else
    let fpos := (client.length + 2 + val.length + key.text.length) % 2 ^ 64
    match grow alloc client fpos with
    | none => (-EINVAL, client)
    | some grown =>
      (0, { grown.write client.length (keyLine key val ++ [newline]) with length := fpos })

def putKeyValNlMemo (alloc : Allocator) (client : Client) (key : Key) (val : Bytes) (memo : UInt8) :
    Int × Client :=
  if client.memo &&& memo ≠ 0 then (-EINVAL, client)
  else
    let result := putKeyValNl alloc client key val
    if result.1 = 0 then (result.1, { result.2 with memo := result.2.memo ||| memo }) else result

/-- The division of C, so that a negative value gives characters before `0`. -/
def itoa (value : Int) : Bytes :=
  let digit := UInt8.ofNat (48 + value.tmod 10).toNat
  if value.tdiv 10 = 0 then [digit] else itoa (value.tdiv 10) ++ [digit]
termination_by value.natAbs
decreasing_by
  rw [Int.natAbs_tdiv]
  apply Nat.div_lt_self _ (by decide)
  apply Int.natAbs_pos.mpr
  intro zero
  subst zero
  contradiction

def operationName (operation : Int) : Bytes :=
  if operation = 0 then OPERATION_ADD
  else if operation = 1 then OPERATION_REMOVE
  else if operation = 2 then OPERATION_CHECK_ADD
  else if operation = 3 then OPERATION_CHECK_REMOVE
  else []

/-- A read of the table, that gives nothing outside of it. -/
def readOperationName (operation : Int) : Option Bytes :=
  if operation < 0 ∨ 3 < operation then none else some (operationName operation)

def afmpkgClientInit (client : Client) : Client :=
  { client with heap := none, length := 0, size := AFMPKG_CLIENT_BUFFER0_SIZE, state := .none }

def afmpkgClientBegin (alloc : Allocator) (client : Client) (operation : Int) (packageName : CString)
    (index count : CInt) : Int × Client :=
  if operation < 0 ∨ 3 < operation then (-EINVAL, client)
  else
    let begun := putKeyValNl alloc
      { client with length := 0, operation := operation, state := .started, memo := 0 }
      .BEGIN (operationName operation)
    if begun.1 ≠ 0 then begun
    else
      let named := putKeyValNl alloc begun.2 .PACKAGE packageName.bytes
      if named.1 ≠ 0 then named
      else
        let indexed := putKeyValNl alloc named.2 .INDEX (itoa index.1)
        if indexed.1 ≠ 0 then indexed else putKeyValNl alloc indexed.2 .COUNT (itoa count.1)

/-- The END line with the name of the operation, and a NUL after it. -/
def endRequest (alloc : Allocator) (client : Client) (name : Bytes) : Int × Client :=
  let result := putKeyValNl alloc client .END name
  let ended := { result.2 with state := .ready }
  (result.1, if result.1 = 0 then ended.write ended.length [0] else ended)

/-- The table is read whatever the state is, also before an operation is set. -/
def afmpkgClientEnd (alloc : Allocator) (client : Client) : Option (Int × Client) :=
  (readOperationName client.operation).map (endRequest alloc client)

def afmpkgClientPutFile (alloc : Allocator) (client : Client) (value : CString) : Int × Client :=
  putKeyValNl alloc client .FILE value.bytes

def afmpkgClientPutRootdir (alloc : Allocator) (client : Client) (value : CString) : Int × Client :=
  putKeyValNlMemo alloc client .ROOT value.bytes MEMO_ROOTDIR

def afmpkgClientPutTransid (alloc : Allocator) (client : Client) (value : CString) : Int × Client :=
  putKeyValNlMemo alloc client .TRANSID value.bytes MEMO_TRANSID

def afmpkgClientPutRedpakid (alloc : Allocator) (client : Client) (value : CString) : Int × Client :=
  putKeyValNlMemo alloc client .REDPAKID value.bytes MEMO_REDPAKID

inductive Call where
  | opening (operation : Int) (packageName : CString) (index count : CInt)
  | putFile (value : CString)
  | putRootdir (value : CString)
  | putTransid (value : CString)
  | putRedpakid (value : CString)
  | ending

/-- One call, that has no result when it reads outside of the table. -/
def Client.step (alloc : Allocator) (client : Client) : Call → Option (Int × Client)
  | .opening operation packageName index count =>
    some (afmpkgClientBegin alloc client operation packageName index count)
  | .putFile value => some (afmpkgClientPutFile alloc client value)
  | .putRootdir value => some (afmpkgClientPutRootdir alloc client value)
  | .putTransid value => some (afmpkgClientPutTransid alloc client value)
  | .putRedpakid value => some (afmpkgClientPutRedpakid alloc client value)
  | .ending => afmpkgClientEnd alloc client

/-- The operation of the request has a name in the table. -/
def Client.Named (client : Client) : Prop := 0 ≤ client.operation ∧ client.operation ≤ 3

theorem write_operation (client : Client) (position : Nat) (data : Bytes) :
    (client.write position data).operation = client.operation := by
  unfold Client.write
  split
  · rfl
  · split <;> rfl

theorem putKeyValNl_operation (alloc : Allocator) (client : Client) (key : Key) (val : Bytes) :
    (putKeyValNl alloc client key val).2.operation = client.operation := by
  unfold putKeyValNl grow
  split
  · rfl
  · simp only
    split
    · rfl
    · next grown =>
      rw [write_operation]
      split at grown
      · obtain ⟨size, -, rfl⟩ := Option.map_eq_some_iff.mp grown
        split <;> rfl
      · cases grown
        rfl

theorem putKeyValNlMemo_operation (alloc : Allocator) (client : Client) (key : Key) (val : Bytes) (memo : UInt8) :
    (putKeyValNlMemo alloc client key val memo).2.operation = client.operation := by
  unfold putKeyValNlMemo
  split
  · rfl
  · simp only
    split <;> exact putKeyValNl_operation alloc client key val

theorem afmpkgClientBegin_operation (alloc : Allocator) (client : Client) (operation : Int) (packageName : CString)
    (index count : CInt) (known : ¬(operation < 0 ∨ 3 < operation)) :
    (afmpkgClientBegin alloc client operation packageName index count).2.operation = operation := by
  rw [afmpkgClientBegin, if_neg known]
  simp only
  split_ifs <;> simp only [putKeyValNl_operation]

theorem step_named (alloc : Allocator) (client : Client) (named : client.Named) (call : Call) :
    ∃ result, client.step alloc call = some result ∧ result.2.Named := by
  unfold Client.Named at named ⊢
  cases call with
  | opening operation packageName index count =>
    refine ⟨_, rfl, ?_⟩
    by_cases range : operation < 0 ∨ 3 < operation
    · rw [afmpkgClientBegin, if_pos range]
      exact named
    · rw [afmpkgClientBegin_operation _ _ _ _ _ _ range]
      omega
  | putFile value => exact ⟨_, rfl, (putKeyValNl_operation _ _ _ _).symm ▸ named⟩
  | putRootdir value => exact ⟨_, rfl, (putKeyValNlMemo_operation _ _ _ _ _).symm ▸ named⟩
  | putTransid value => exact ⟨_, rfl, (putKeyValNlMemo_operation _ _ _ _ _).symm ▸ named⟩
  | putRedpakid value => exact ⟨_, rfl, (putKeyValNlMemo_operation _ _ _ _ _).symm ▸ named⟩
  | ending =>
    refine ⟨endRequest alloc client (operationName client.operation), ?_, ?_⟩
    · rw [Client.step, afmpkgClientEnd, readOperationName, if_neg (by omega)]
      rfl
    · have kept : (endRequest alloc client (operationName client.operation)).2.operation = client.operation := by
        unfold endRequest
        simp only
        split
        · exact (write_operation _ _ _).trans (putKeyValNl_operation _ _ _ _)
        · exact putKeyValNl_operation _ _ _ _
      rw [kept]
      exact named

theorem itoa_length (value : Int) : (itoa value).length ≤ value.natAbs + 1 := by
  induction size : value.natAbs using Nat.strong_induction_on generalizing value with
  | _ count ih =>
    unfold itoa
    simp only
    by_cases last : value.tdiv 10 = 0
    · rw [if_pos last]
      simp
    · have smaller : (value.tdiv 10).natAbs < count := by
        rw [← size, Int.natAbs_tdiv]
        apply Nat.div_lt_self _ (by decide)
        apply Int.natAbs_pos.mpr
        intro zero
        subst zero
        contradiction
      have bound := ih _ smaller (value.tdiv 10) rfl
      rw [if_neg last, List.length_append, List.length_singleton]
      omega

end AppManager.Afmpkg
