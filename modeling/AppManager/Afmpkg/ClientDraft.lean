import AppManager.Afmpkg.Client

/-! What the calls of a client are for: a draft of the request, in which nothing is ever
lost. The client follows its draft until its buffer has to grow. -/

namespace AppManager.Afmpkg
open AppManager.Lib AppManager.Lib.Libc

def lineOf (key : Key) (val : Bytes) : Bytes := keyLine key val ++ [newline]

theorem lineOf_length (key : Key) (val : Bytes) :
    (lineOf key val).length = key.text.length + val.length + 2 := by
  simp only [lineOf, keyLine, List.length_append, List.length_cons, List.length_nil]
  omega

/-- The lines of a call, under the operation of the request. -/
def Call.text (operation : Int) : Call → Bytes
  | .opening operation packageName index count =>
    lineOf .BEGIN (operationName operation) ++ lineOf .PACKAGE packageName.bytes ++
      lineOf .INDEX (itoa index.1) ++ lineOf .COUNT (itoa count.1)
  | .putFile value => lineOf .FILE value.bytes
  | .putRootdir value => lineOf .ROOT value.bytes
  | .putTransid value => lineOf .TRANSID value.bytes
  | .putRedpakid value => lineOf .REDPAKID value.bytes
  | .ending => lineOf .END (operationName operation)

def Call.isOpening : Call → Bool
  | .opening .. => true
  | _ => false

/-- The lines of the calls that returned zero, since the last one that opened a request. -/
structure Record where
  content : Bytes
  operation : Int

def Record.add (record : Record) (call : Call) (rc : Int) : Record :=
  if rc ≠ 0 then record
  else match call with
    | .opening operation .. => ⟨call.text operation, operation⟩
    | _ => { record with content := record.content ++ call.text record.operation }

/-- The buffer holds the recorded lines, and has room for a NUL after them. -/
def Client.Holds (client : Client) (record : Record) : Prop :=
  client.content = record.content ∧ client.length < client.size

/-- In every state of a run the buffer holds the recorded lines, every call has a result, and
no call that fails changes the content but the opening of a request. -/
def Faithful (alloc : Allocator) : Client → Record → List Call → Prop
  | client, record, [] => client.Holds record
  | client, record, call :: rest =>
    client.Holds record ∧ ∃ rc next, client.step alloc call = some (rc, next) ∧
      (rc < 0 → call.isOpening = false → next.content = client.content) ∧
      Faithful alloc next (record.add call rc) rest

structure Draft where
  content : Bytes
  operation : Int
  state : ClientState
  memo : UInt8

def Draft.put (draft : Draft) (line : Bytes) : Int × Draft :=
  if draft.state ≠ .started then (-EINVAL, draft)
  else (0, { draft with content := draft.content ++ line })

def Draft.putOnce (draft : Draft) (line : Bytes) (memo : UInt8) : Int × Draft :=
  if draft.memo &&& memo ≠ 0 then (-EINVAL, draft)
  else if draft.state ≠ .started then (-EINVAL, draft)
  else (0, { draft with content := draft.content ++ line, memo := draft.memo ||| memo })

def Draft.step (draft : Draft) (call : Call) : Int × Draft :=
  match call with
  | .opening operation .. =>
    if operation < 0 ∨ 3 < operation then (-EINVAL, draft)
    else (0, ⟨call.text operation, operation, .started, 0⟩)
  | .putFile _ => draft.put (call.text draft.operation)
  | .putRootdir _ => draft.putOnce (call.text draft.operation) MEMO_ROOTDIR
  | .putTransid _ => draft.putOnce (call.text draft.operation) MEMO_TRANSID
  | .putRedpakid _ => draft.putOnce (call.text draft.operation) MEMO_REDPAKID
  | .ending =>
    let result := draft.put (call.text draft.operation)
    (result.1, { result.2 with state := .ready })

/-- A request is ended only when its operation is one of the table. -/
def Draft.Allows (draft : Draft) : Call → Prop
  | .ending => 0 ≤ draft.operation ∧ draft.operation ≤ 3
  | _ => True

/-- Every state of a run is a draft that fits in the buffer of the client, with a NUL
after it, and none is ended before an operation is set. -/
def Short : Draft → List Call → Prop
  | draft, [] => draft.content.length < AFMPKG_CLIENT_BUFFER0_SIZE
  | draft, call :: rest =>
    draft.content.length < AFMPKG_CLIENT_BUFFER0_SIZE ∧ draft.Allows call ∧ Short (draft.step call).2 rest

/-- The calls are allowed and all return zero, up to the last draft. -/
def Draft.Accepts : Draft → List Call → Draft → Prop
  | draft, [], last => draft = last
  | draft, call :: rest, last => draft.Allows call ∧ (draft.step call).1 = 0 ∧ (draft.step call).2.Accepts rest last

/-- A client that never grew and its draft. -/
structure Follows (client : Client) (draft : Draft) : Prop where
  small : client.heap = none
  size : client.size = AFMPKG_CLIENT_BUFFER0_SIZE
  content : client.content = draft.content
  length : client.length = draft.content.length
  fits : draft.content.length < AFMPKG_CLIENT_BUFFER0_SIZE
  operation : client.operation = draft.operation
  state : client.state = draft.state
  memo : client.memo = draft.memo

theorem follows_holds {client : Client} {draft : Draft} (follows : Follows client draft) (operation : Int) :
    client.Holds ⟨draft.content, operation⟩ := by
  refine ⟨follows.content, ?_⟩
  rw [follows.length, follows.size]
  exact follows.fits

theorem write_small (client : Client) (small : client.heap = none) (position : Nat) (data : Bytes)
    (room : position + data.length ≤ client.buffer0.1.length) :
    client.write position data =
      { client with buffer0 := ⟨store client.buffer0.1 position data,
          (store_length _ _ _ room).trans client.buffer0.2⟩ } := by
  rw [Client.write, small]
  exact dif_pos room

theorem put_short (alloc : Allocator) {client : Client} {draft : Draft} (follows : Follows client draft)
    (key : Key) (val : Bytes) (started : draft.state = .started)
    (room : (draft.content ++ lineOf key val).length < AFMPKG_CLIENT_BUFFER0_SIZE) :
    (putKeyValNl alloc client key val).1 = 0 ∧
      Follows (putKeyValNl alloc client key val).2 { draft with content := draft.content ++ lineOf key val } := by
  have bound := room
  rw [List.length_append, lineOf_length] at bound
  unfold AFMPKG_CLIENT_BUFFER0_SIZE at bound
  have fpos : (client.length + 2 + val.length + key.text.length) % 2 ^ 64 =
      client.length + (lineOf key val).length := by
    rw [lineOf_length, follows.length, Nat.mod_eq_of_lt (by omega)]
    omega
  have stays : grow alloc client (client.length + (lineOf key val).length) = some client := by
    rw [grow, if_neg]
    rw [follows.size, follows.length, ← List.length_append]
    exact not_le.mpr room
  have inside : client.length + (lineOf key val).length ≤ client.buffer0.1.length := by
    rw [client.buffer0.2, follows.length, ← List.length_append]
    exact le_of_lt room
  have result : putKeyValNl alloc client key val =
      (0, { client.write client.length (lineOf key val) with
            length := client.length + (lineOf key val).length }) := by
    rw [putKeyValNl, if_neg (not_not.mpr (follows.state.trans started)), fpos]
    simp only [stays]
    rfl
  rw [result, write_small client follows.small _ _ inside]
  refine ⟨rfl, follows.small, follows.size, ?_, ?_, room, follows.operation, follows.state, follows.memo⟩
  · have before := follows.content
    simp only [Client.content, Client.buffer, follows.small, Option.getD_none] at before ⊢
    rw [take_store_end _ _ _ (by omega), before]
  · simp only
    rw [follows.length, List.length_append]

theorem put_refused (alloc : Allocator) (client : Client) (key : Key) (val : Bytes)
    (idle : client.state ≠ .started) : putKeyValNl alloc client key val = (-EINVAL, client) := by
  rw [putKeyValNl, if_pos idle]

/-- The lines of an opening, each one after those before it. -/
theorem opening_text (operation : Int) (packageName : CString) (index count : CInt) :
    (Call.opening operation packageName index count).text operation =
      (([] ++ lineOf .BEGIN (operationName operation) ++ lineOf .PACKAGE packageName.bytes) ++
        lineOf .INDEX (itoa index.1)) ++ lineOf .COUNT (itoa count.1) := by
  rw [List.nil_append]
  rfl

theorem follows_open (client : Client) (draft : Draft) (follows : Follows client draft) (operation : Int) :
    Follows { client with length := 0, operation := operation, state := .started, memo := 0 }
      ⟨[], operation, .started, 0⟩ :=
  ⟨follows.small, follows.size, by simp [Client.content], rfl,
    by simp [AFMPKG_CLIENT_BUFFER0_SIZE], rfl, rfl, rfl⟩

theorem begin_short (alloc : Allocator) (client : Client) (draft : Draft) (follows : Follows client draft)
    (operation : Int) (packageName : CString) (index count : CInt) (range : ¬(operation < 0 ∨ 3 < operation))
    (room : ((Call.opening operation packageName index count).text operation).length <
      AFMPKG_CLIENT_BUFFER0_SIZE) :
    (afmpkgClientBegin alloc client operation packageName index count).1 = 0 ∧
      Follows (afmpkgClientBegin alloc client operation packageName index count).2
        ⟨(Call.opening operation packageName index count).text operation, operation, .started, 0⟩ := by
  rw [opening_text] at room ⊢
  have third : (([] ++ lineOf .BEGIN (operationName operation) ++ lineOf .PACKAGE packageName.bytes) ++
      lineOf .INDEX (itoa index.1)).length < AFMPKG_CLIENT_BUFFER0_SIZE := by
    rw [List.length_append] at room
    omega
  have second : ([] ++ lineOf .BEGIN (operationName operation) ++ lineOf .PACKAGE packageName.bytes).length <
      AFMPKG_CLIENT_BUFFER0_SIZE := by
    rw [List.length_append] at third
    omega
  have first : ([] ++ lineOf .BEGIN (operationName operation)).length < AFMPKG_CLIENT_BUFFER0_SIZE := by
    rw [List.length_append] at second
    omega
  obtain ⟨begun, follows⟩ := put_short alloc (follows_open client draft follows operation) .BEGIN
    (operationName operation) rfl first
  obtain ⟨named, follows⟩ := put_short alloc follows .PACKAGE packageName.bytes rfl second
  obtain ⟨indexed, follows⟩ := put_short alloc follows .INDEX (itoa index.1) rfl third
  obtain ⟨counted, follows⟩ := put_short alloc follows .COUNT (itoa count.1) rfl room
  rw [afmpkgClientBegin, if_neg range]
  simp only [begun, named, indexed, counted, ne_eq, not_true_eq_false, ↓reduceIte]
  exact ⟨trivial, follows⟩

theorem end_short (alloc : Allocator) (client : Client) (draft : Draft) (follows : Follows client draft)
    (room : (draft.step .ending).2.content.length < AFMPKG_CLIENT_BUFFER0_SIZE) :
    (endRequest alloc client (operationName draft.operation)).1 = (draft.step .ending).1 ∧
      Follows (endRequest alloc client (operationName draft.operation)).2 (draft.step .ending).2 := by
  simp only [Draft.step, Draft.put, Call.text] at room ⊢
  by_cases started : draft.state = .started
  · rw [if_neg (not_not.mpr started)] at room ⊢
    obtain ⟨zero, next⟩ := put_short alloc follows .END (operationName draft.operation) started room
    have inside : (putKeyValNl alloc client .END (operationName draft.operation)).2.length + [0].length ≤
        (putKeyValNl alloc client .END (operationName draft.operation)).2.buffer0.1.length := by
      rw [(putKeyValNl alloc client .END (operationName draft.operation)).2.buffer0.2, next.length]
      exact room
    unfold endRequest
    generalize putKeyValNl alloc client .END (operationName draft.operation) = result at zero next inside
    simp only [zero, ↓reduceIte, true_and]
    rw [write_small _ (by exact next.small) _ _ (by exact inside)]
    refine ⟨next.small, next.size, ?_, next.length, next.fits, next.operation, rfl, next.memo⟩
    have before := next.content
    simp only [Client.content, Client.buffer, next.small, Option.getD_none] at before ⊢
    rw [take_store _ _ _ _ le_rfl (by simp only [List.length_singleton] at inside; omega)]
    exact before
  · rw [if_pos started]
    have refused := put_refused alloc client .END (operationName draft.operation)
      (by rw [follows.state]; exact started)
    unfold endRequest
    rw [refused]
    exact ⟨rfl, follows.small, follows.size, follows.content, follows.length, follows.fits,
      follows.operation, rfl, follows.memo⟩

theorem once_short (alloc : Allocator) (client : Client) (draft : Draft) (follows : Follows client draft)
    (key : Key) (val : Bytes) (memo : UInt8)
    (room : (draft.putOnce (lineOf key val) memo).2.content.length < AFMPKG_CLIENT_BUFFER0_SIZE) :
    (putKeyValNlMemo alloc client key val memo).1 = (draft.putOnce (lineOf key val) memo).1 ∧
      Follows (putKeyValNlMemo alloc client key val memo).2 (draft.putOnce (lineOf key val) memo).2 := by
  simp only [Draft.putOnce] at room ⊢
  unfold putKeyValNlMemo
  rw [follows.memo]
  by_cases again : draft.memo &&& memo ≠ 0
  · rw [if_pos again, if_pos again]
    exact ⟨rfl, follows⟩
  · rw [if_neg again] at room ⊢
    rw [if_neg again]
    by_cases started : draft.state = .started
    · rw [if_neg (not_not.mpr started)] at room ⊢
      obtain ⟨zero, next⟩ := put_short alloc follows key val started room
      simp only [zero, ↓reduceIte, true_and]
      exact ⟨next.small, next.size, next.content, next.length, next.fits, next.operation, next.state,
        by rw [next.memo]⟩
    · rw [if_pos started, put_refused alloc client key val (by rw [follows.state]; exact started)]
      exact ⟨rfl, follows⟩

theorem end_step (alloc : Allocator) (client : Client) (draft : Draft) (follows : Follows client draft) :
    client.step alloc .ending =
      if draft.operation < 0 ∨ 3 < draft.operation then none
      else some (endRequest alloc client (operationName draft.operation)) := by
  rw [Client.step, afmpkgClientEnd, readOperationName, follows.operation]
  split <;> rfl

/-- One call, while the draft fits. -/
theorem step_short (alloc : Allocator) (client : Client) (draft : Draft) (follows : Follows client draft)
    (call : Call) (allowed : draft.Allows call)
    (room : (draft.step call).2.content.length < AFMPKG_CLIENT_BUFFER0_SIZE) :
    ∃ next, client.step alloc call = some ((draft.step call).1, next) ∧ Follows next (draft.step call).2 := by
  have result {called : Int × Client} (same : called.1 = (draft.step call).1 ∧ Follows called.2 (draft.step call).2) :
      ∃ next, some called = some ((draft.step call).1, next) ∧ Follows next (draft.step call).2 :=
    ⟨called.2, congrArg (fun rc => some (rc, called.2)) same.1, same.2⟩
  cases call with
  | opening operation packageName index count =>
    apply result
    simp only [Draft.step] at room ⊢
    by_cases range : operation < 0 ∨ 3 < operation
    · rw [if_pos range, afmpkgClientBegin, if_pos range]
      exact ⟨rfl, follows⟩
    · rw [if_neg range] at room ⊢
      exact begin_short alloc client draft follows operation packageName index count range room
  | putFile value =>
    apply result
    simp only [Draft.step, Draft.put, Call.text] at room ⊢
    by_cases started : draft.state = .started
    · rw [if_neg (not_not.mpr started)] at room ⊢
      exact put_short alloc follows .FILE value.bytes started room
    · rw [if_pos started]
      have refused := put_refused alloc client .FILE value.bytes (by rw [follows.state]; exact started)
      simp only [afmpkgClientPutFile, refused, true_and]
      exact follows
  | putRootdir value => exact result (once_short alloc client draft follows .ROOT value.bytes MEMO_ROOTDIR room)
  | putTransid value => exact result (once_short alloc client draft follows .TRANSID value.bytes MEMO_TRANSID room)
  | putRedpakid value => exact result (once_short alloc client draft follows .REDPAKID value.bytes MEMO_REDPAKID room)
  | ending =>
    have inside : ¬(draft.operation < 0 ∨ 3 < draft.operation) := by
      obtain ⟨low, high⟩ := allowed
      omega
    rw [end_step alloc client draft follows, if_neg inside]
    exact result (end_short alloc client draft follows room)

end AppManager.Afmpkg
