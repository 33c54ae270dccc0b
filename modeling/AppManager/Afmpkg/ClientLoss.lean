import AppManager.Afmpkg.ClientGrowth

/-! What a client of any length still holds: the lines from a place on, that lies before the
lines of its last call. The allocations succeed, for texts that are shorter than the memory. -/

namespace AppManager.Afmpkg
open AppManager.Lib AppManager.Lib.Libc

/-- The end of what can be written, which the doubling reaches. -/
def memoryEnd : Nat := AFMPKG_CLIENT_BUFFER0_SIZE * 2 ^ 52

/-- A client and its draft, of which the bytes before `lost` may not be in the buffer. -/
structure Remains (lost : Nat) (client : Client) (draft : Draft) : Prop where
  block : client.buffer.length = client.size
  doubled : ∃ step ≤ 52, client.size = AFMPKG_CLIENT_BUFFER0_SIZE * 2 ^ step
  length : client.length = draft.content.length
  room : client.length < client.size
  kept : client.content.drop lost = draft.content.drop lost
  behind : lost ≤ draft.content.length
  operation : client.operation = draft.operation
  state : client.state = draft.state
  memo : client.memo = draft.memo

theorem write_buffer (client : Client) (position : Nat) (data : Bytes)
    (room : position + data.length ≤ client.buffer.length) :
    (client.write position data).buffer = store client.buffer position data := by
  unfold Client.write
  cases heap : client.heap with
  | some block => simp only [Client.buffer, heap, Option.getD_some]
  | none =>
    simp only [Client.buffer, heap, Option.getD_none] at room ⊢
    rw [dif_pos room]
    rfl

theorem write_others (client : Client) (position : Nat) (data : Bytes) :
    (client.write position data).size = client.size ∧ (client.write position data).state = client.state ∧
      (client.write position data).memo = client.memo := by
  unfold Client.write
  split
  · exact ⟨rfl, rfl, rfl⟩
  · split <;> exact ⟨rfl, rfl, rfl⟩

theorem grow_remains (alloc : Allocator) {lost : Nat} {client : Client} {draft : Draft}
    (remains : Remains lost client draft) (fpos : Nat) (memory : fpos < memoryEnd) :
    ∃ grown, grow alloc client fpos = some grown ∧ fpos < grown.size ∧ grown.buffer.length = grown.size ∧
      (∃ step ≤ 52, grown.size = AFMPKG_CLIENT_BUFFER0_SIZE * 2 ^ step) ∧
      (grown.buffer.take client.length = client.content ∨ client.heap = none) ∧
      (grown.length = client.length ∧ grown.operation = client.operation ∧ grown.state = client.state ∧
        grown.memo = client.memo) := by
  obtain ⟨step, small, doubled⟩ := remains.doubled
  unfold grow
  split
  · obtain ⟨step', small', sized, above⟩ := growSize_first fpos step memory small
    obtain ⟨size, form⟩ : ∃ size, size = AFMPKG_CLIENT_BUFFER0_SIZE * 2 ^ step' := ⟨_, rfl⟩
    rw [← doubled, ← form] at sized
    rw [← form] at above
    rw [sized, Option.map_some]
    have before := remains.room
    cases heap : client.heap with
    | none => exact ⟨_, rfl, above, alloc.size size, ⟨step', small', form⟩, Or.inr rfl, rfl, rfl, rfl, rfl⟩
    | some block =>
      have whole := remains.block
      simp only [Client.content, Client.buffer, heap, Option.getD_some] at whole ⊢
      have cells : (alloc.realloc block size).length = size := by
        rw [Allocator.realloc, List.length_take, List.length_append, List.length_drop, alloc.size]
        omega
      refine ⟨_, rfl, above, cells, ⟨step', small', form⟩, Or.inl ?_, rfl, rfl, rfl, rfl⟩
      rw [Option.getD_some, Allocator.realloc, List.take_take, Nat.min_eq_left (by omega),
        List.take_append_of_le_length (by omega)]
  · next fits =>
    exact ⟨client, rfl, not_le.mp fits, remains.block, remains.doubled, Or.inl rfl, rfl, rfl, rfl, rfl⟩

theorem written_buffer (client : Client) (position : Nat) (line : Bytes)
    (room : position + line.length ≤ client.buffer.length) :
    Client.buffer { client.write position line with length := position + line.length } =
      store client.buffer position line :=
  write_buffer client position line room

theorem written_content (client : Client) (position : Nat) (line : Bytes)
    (room : position + line.length ≤ client.buffer.length) :
    Client.content { client.write position line with length := position + line.length } =
      client.buffer.take position ++ line := by
  rw [Client.content, written_buffer client position line room, take_store_end _ _ _ (by omega)]

/-- What a growth loses is all that was written before the next line. -/
theorem Remains.line {lost : Nat} {client grown : Client} {draft : Draft} (remains : Remains lost client draft)
    (room : client.length ≤ grown.buffer.length)
    (content : grown.buffer.take client.length = client.content ∨ client.heap = none) (line : Bytes) :
    ∃ lost' ≤ draft.content.length,
      (grown.buffer.take client.length ++ line).drop lost' = (draft.content ++ line).drop lost' := by
  have length := remains.length
  rcases content with same | none
  · have short : lost ≤ client.content.length := by
      have behind := remains.behind
      have room := remains.room
      rw [Client.content, List.length_take, remains.block]
      omega
    refine ⟨lost, remains.behind, ?_⟩
    rw [same, List.drop_append_of_le_length short, List.drop_append_of_le_length remains.behind, remains.kept]
  · have taken : (grown.buffer.take client.length).length = draft.content.length := by
      rw [List.length_take]
      omega
    refine ⟨draft.content.length, le_rfl, ?_⟩
    rw [List.drop_left, List.drop_left' taken]

theorem put_remains (alloc : Allocator) {lost : Nat} {client : Client} {draft : Draft}
    (remains : Remains lost client draft) (key : Key) (val : Bytes) (started : draft.state = .started)
    (memory : (draft.content ++ lineOf key val).length < memoryEnd) :
    ∃ next, putKeyValNl alloc client key val = (0, next) ∧ ∃ lost' ≤ draft.content.length,
      Remains lost' next { draft with content := draft.content ++ lineOf key val } := by
  have bound := memory
  rw [List.length_append] at bound
  have fpos : (client.length + 2 + val.length + key.text.length) % 2 ^ 64 =
      client.length + (lineOf key val).length := by
    have size := lineOf_length key val
    have small : memoryEnd < 2 ^ 64 := by decide
    rw [remains.length, Nat.mod_eq_of_lt (by omega)]
    omega
  obtain ⟨grown, grows, room, block, doubled, content, length, operation, state, memo⟩ :=
    grow_remains alloc remains (client.length + (lineOf key val).length) (by rw [remains.length]; exact bound)
  have inside : client.length + (lineOf key val).length ≤ grown.buffer.length := by omega
  obtain ⟨size, state', memo'⟩ := write_others grown client.length (lineOf key val)
  have result : putKeyValNl alloc client key val = (0, { grown.write client.length (lineOf key val) with
      length := client.length + (lineOf key val).length }) := by
    rw [putKeyValNl, if_neg (not_not.mpr (remains.state.trans started)), fpos]
    simp only [grows]
    rfl
  obtain ⟨lost', behind, kept⟩ := remains.line (by omega) content (lineOf key val)
  refine ⟨_, result, lost', behind, ?_⟩
  exact
    { block := by
        rw [written_buffer grown client.length (lineOf key val) inside, store_length _ _ _ inside, block, ← size]
      doubled := by
        rw [← size] at doubled
        exact doubled
      length := by
        simp only
        rw [List.length_append, remains.length]
      room := by
        rw [← size] at room
        exact room
      kept := written_content grown client.length (lineOf key val) inside ▸ kept
      behind := behind.trans (by simp)
      operation := (write_operation _ _ _).trans (operation.trans remains.operation)
      state := state'.trans (state.trans remains.state)
      memo := memo'.trans (memo.trans remains.memo) }

theorem begin_remains (alloc : Allocator) {lost : Nat} {client : Client} {draft : Draft}
    (remains : Remains lost client draft) (operation : Int) (packageName : CString) (index count : CInt)
    (range : ¬(operation < 0 ∨ 3 < operation))
    (memory : ((Call.opening operation packageName index count).text operation).length < memoryEnd) :
    ∃ next lost', afmpkgClientBegin alloc client operation packageName index count = (0, next) ∧
      Remains lost' next ⟨(Call.opening operation packageName index count).text operation, operation, .started, 0⟩ := by
  rw [opening_text] at memory ⊢
  have third : (([] ++ lineOf .BEGIN (operationName operation) ++ lineOf .PACKAGE packageName.bytes) ++
      lineOf .INDEX (itoa index.1)).length < memoryEnd := by
    rw [List.length_append] at memory
    exact (Nat.le_add_right _ _).trans_lt memory
  have second : ([] ++ lineOf .BEGIN (operationName operation) ++ lineOf .PACKAGE packageName.bytes).length <
      memoryEnd := by
    rw [List.length_append] at third
    exact (Nat.le_add_right _ _).trans_lt third
  have first : ([] ++ lineOf .BEGIN (operationName operation)).length < memoryEnd := by
    rw [List.length_append] at second
    exact (Nat.le_add_right _ _).trans_lt second
  have opened : Remains 0 { client with length := 0, operation := operation, state := .started, memo := 0 }
      ⟨[], operation, .started, 0⟩ :=
    { block := remains.block, doubled := remains.doubled, length := rfl
      room := Nat.zero_lt_of_lt remains.room
      kept := by rw [Client.content, List.take_zero]
      behind := le_rfl, operation := rfl, state := rfl, memo := rfl }
  obtain ⟨begun, putBegin, _, _, remains⟩ := put_remains alloc opened .BEGIN (operationName operation) rfl first
  obtain ⟨named, putName, _, _, remains⟩ := put_remains alloc remains .PACKAGE packageName.bytes rfl second
  obtain ⟨indexed, putIndex, _, _, remains⟩ := put_remains alloc remains .INDEX (itoa index.1) rfl third
  obtain ⟨counted, putCount, lost', _, remains⟩ := put_remains alloc remains .COUNT (itoa count.1) rfl memory
  refine ⟨counted, lost', ?_, remains⟩
  rw [afmpkgClientBegin, if_neg range]
  simp only [putBegin, putName, putIndex, putCount, ne_eq, not_true_eq_false, ↓reduceIte]

theorem end_remains (alloc : Allocator) {lost : Nat} {client : Client} {draft : Draft}
    (remains : Remains lost client draft) (memory : (draft.step .ending).2.content.length < memoryEnd) :
    ∃ next, endRequest alloc client (operationName draft.operation) = ((draft.step .ending).1, next) ∧
      ∃ lost' ≤ draft.content.length, Remains lost' next (draft.step .ending).2 := by
  simp only [Draft.step, Draft.put, Call.text] at memory ⊢
  by_cases started : draft.state = .started
  · rw [if_neg (not_not.mpr started)] at memory ⊢
    obtain ⟨next, put, lost', behind, remains⟩ :=
      put_remains alloc remains .END (operationName draft.operation) started memory
    have inside : next.length + [(0 : Byte)].length ≤ next.buffer.length := by
      rw [remains.block]
      exact remains.room
    -- the NUL is written after the content
    have wrote : (Client.write { next with state := .ready } next.length [0]).buffer = store next.buffer next.length [0] :=
      write_buffer { next with state := .ready } next.length [0] inside
    obtain ⟨size, state, memo⟩ := write_others { next with state := .ready } next.length [0]
    have length := write_length { next with state := .ready } next.length [0]
    have content : (Client.write { next with state := .ready } next.length [0]).content = next.content := by
      rw [Client.content, wrote, length, take_store _ _ _ _ le_rfl ((Nat.le_add_right _ _).trans inside)]
      rfl
    refine ⟨Client.write { next with state := .ready } next.length [0], ?_, lost', behind, ?_⟩
    · simp only [endRequest, put, ↓reduceIte]
    · exact
        { block := by rw [wrote, store_length _ _ _ inside, remains.block, size]
          doubled := by rw [size]; exact remains.doubled
          length := length.trans remains.length
          room := by rw [length, size]; exact remains.room
          kept := by rw [content]; exact remains.kept
          behind := remains.behind
          operation := (write_operation _ _ _).trans remains.operation
          state := state
          memo := memo.trans remains.memo }
  · rw [if_pos started] at memory ⊢
    have refused := put_refused alloc client .END (operationName draft.operation)
      (by rw [remains.state]; exact started)
    unfold endRequest
    rw [refused]
    exact ⟨_, rfl, lost, remains.behind, remains.block, remains.doubled, remains.length, remains.room, remains.kept,
      remains.behind, remains.operation, rfl, remains.memo⟩

theorem once_remains (alloc : Allocator) {lost : Nat} {client : Client} {draft : Draft}
    (remains : Remains lost client draft) (key : Key) (val : Bytes) (memo : UInt8)
    (memory : (draft.putOnce (lineOf key val) memo).2.content.length < memoryEnd) :
    ∃ next, putKeyValNlMemo alloc client key val memo = ((draft.putOnce (lineOf key val) memo).1, next) ∧
      ∃ lost' ≤ draft.content.length, Remains lost' next (draft.putOnce (lineOf key val) memo).2 := by
  have same : ∃ lost' ≤ draft.content.length, Remains lost' client draft := ⟨lost, remains.behind, remains⟩
  simp only [Draft.putOnce] at memory ⊢
  unfold putKeyValNlMemo
  rw [remains.memo]
  by_cases again : draft.memo &&& memo ≠ 0
  · rw [if_pos again, if_pos again]
    exact ⟨client, rfl, same⟩
  · rw [if_neg again] at memory ⊢
    rw [if_neg again]
    by_cases started : draft.state = .started
    · rw [if_neg (not_not.mpr started)] at memory ⊢
      obtain ⟨next, zero, lost', behind, remains⟩ := put_remains alloc remains key val started memory
      simp only [zero, ↓reduceIte]
      exact ⟨_, rfl, lost', behind, remains.block, remains.doubled, remains.length, remains.room, remains.kept,
        remains.behind, remains.operation, remains.state, by rw [remains.memo]⟩
    · rw [if_pos started, put_refused alloc client key val (by rw [remains.state]; exact started)]
      exact ⟨client, rfl, same⟩

theorem step_remains (alloc : Allocator) {lost : Nat} {client : Client} {draft : Draft}
    (remains : Remains lost client draft) (call : Call) (allowed : draft.Allows call)
    (memory : (draft.step call).2.content.length < memoryEnd) :
    ∃ next lost', client.step alloc call = some ((draft.step call).1, next) ∧
      Remains lost' next (draft.step call).2 ∧ (call.isOpening = false → lost' ≤ draft.content.length) := by
  have result {called : Int × Client} {rc : Int} {draft' : Draft} (same : ∃ next, called = (rc, next) ∧
      ∃ lost' ≤ draft.content.length, Remains lost' next draft') :
      ∃ next lost', some called = some (rc, next) ∧ Remains lost' next draft' ∧
        (call.isOpening = false → lost' ≤ draft.content.length) := by
    obtain ⟨next, equal, lost', behind, remains⟩ := same
    exact ⟨next, lost', congrArg some equal, remains, fun _ => behind⟩
  cases call with
  | opening operation packageName index count =>
    simp only [Draft.step, Client.step] at memory ⊢
    by_cases range : operation < 0 ∨ 3 < operation
    · rw [if_pos range, afmpkgClientBegin, if_pos range]
      exact ⟨client, lost, rfl, remains, fun _ => remains.behind⟩
    · rw [if_neg range] at memory ⊢
      obtain ⟨next, lost', begun, remains⟩ := begin_remains alloc remains operation packageName index count range memory
      exact ⟨next, lost', congrArg some begun, remains, fun closed => Bool.noConfusion closed⟩
  | putFile value =>
    apply result
    simp only [Draft.step, Draft.put, Call.text] at memory ⊢
    by_cases started : draft.state = .started
    · rw [if_neg (not_not.mpr started)] at memory ⊢
      exact put_remains alloc remains .FILE value.bytes started memory
    · rw [if_pos started]
      exact ⟨client, put_refused alloc client .FILE value.bytes (by rw [remains.state]; exact started),
        lost, remains.behind, remains⟩
  | putRootdir value => exact result (once_remains alloc remains .ROOT value.bytes MEMO_ROOTDIR memory)
  | putTransid value => exact result (once_remains alloc remains .TRANSID value.bytes MEMO_TRANSID memory)
  | putRedpakid value => exact result (once_remains alloc remains .REDPAKID value.bytes MEMO_REDPAKID memory)
  | ending =>
    obtain ⟨low, high⟩ := allowed
    have read : client.step alloc .ending = some (endRequest alloc client (operationName draft.operation)) := by
      rw [Client.step, afmpkgClientEnd, readOperationName, remains.operation, if_neg (by omega)]
      rfl
    rw [read]
    exact result (end_remains alloc remains memory)

theorem remains_init (client : Client) : Remains 0 (afmpkgClientInit client) (firstDraft client) where
  block := client.buffer0.2
  doubled := ⟨0, Nat.zero_le _, rfl⟩
  length := rfl
  room := (by decide : 0 < AFMPKG_CLIENT_BUFFER0_SIZE)
  kept := by rw [Client.content]; rfl
  behind := le_rfl
  operation := rfl
  state := rfl
  memo := rfl

theorem accepts_length {draft last : Draft} {calls : List Call} (accepts : draft.Accepts calls last)
    (later : ∀ call ∈ calls, call.isOpening = false) : draft.content.length ≤ last.content.length := by
  induction calls generalizing draft with
  | nil => exact le_of_eq (congrArg (fun draft => draft.content.length) accepts)
  | cons call rest ih =>
    obtain ⟨closed, others⟩ := List.forall_mem_cons.mp later
    obtain ⟨-, zero, accepts⟩ := accepts
    refine le_trans ?_ (ih accepts others)
    rcases draft_cases draft call with ⟨-, _, _, _, _, rfl, -⟩ | ⟨-, -, -, content, -⟩ | ⟨failed, -⟩
    · cases closed
    · rw [content, List.length_append]
      exact Nat.le_add_right _ _
    · exact absurd zero failed.ne

end AppManager.Afmpkg
