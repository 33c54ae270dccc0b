import AppManager.Afmpkg.ClientGrowth
import AppManager.Afmpkg.Message

/-! From the calls of a client to the request of the server: what the buffer of the
client holds after its last call, cut in lines. -/

namespace AppManager.Afmpkg
open AppManager.Lib AppManager.Lib.Libc AppManager.Utils

def Client.run (alloc : Allocator) (client : Client) (calls : List Call) : Option Client :=
  calls.foldlM (fun client call => (client.step alloc call).map Prod.snd) client

theorem run_cons {alloc : Allocator} {client : Client} {call : Call} {called : Int × Client}
    (step : client.step alloc call = some called) (rest : List Call) :
    client.run alloc (call :: rest) = called.2.run alloc rest := by
  rw [Client.run, List.foldlM_cons, step]
  rfl

theorem run_concat {alloc : Allocator} {client after : Client} {calls : List Call}
    (run : client.run alloc calls = some after) (call : Call) :
    client.run alloc (calls ++ [call]) = (after.step alloc call).map Prod.snd := by
  rw [Client.run] at run ⊢
  rw [List.foldlM_append, run, Option.bind_eq_bind, Option.bind_some, List.foldlM_cons]
  cases after.step alloc call <;> rfl

theorem run_named (alloc : Allocator) (calls : List Call) (client : Client) (named : client.Named) :
    (client.run alloc calls).isSome := by
  induction calls generalizing client with
  | nil => rfl
  | cons call rest ih =>
    obtain ⟨called, step, named⟩ := step_named alloc client named call
    rw [run_cons step]
    exact ih _ named

theorem message_runs (message : Message) (alloc : Allocator) (client : Client) :
    (client.run alloc message.calls).isSome := by
  rw [Message.calls, List.cons_append, run_cons (rfl : client.step alloc (.opening message.operation
    message.packageName message.index message.count) = some _)]
  apply run_named
  have known := message.known
  rw [Client.Named, afmpkgClientBegin_operation _ _ _ _ _ _ (by omega)]
  exact known

def Message.sender (message : Message) (alloc : Allocator) (client : Client) : Client :=
  ((afmpkgClientInit client).run alloc message.calls).get (message_runs message alloc _)

def Message.emitted (message : Message) (alloc : Allocator) (client : Client) : List Bytes :=
  wholeLines newline (message.sender alloc client).content

def Put.text (put : Put) : Bytes := lineOf put.field.1 put.field.2

def memoOf (keys : List Key) : UInt8 :=
  (if .ROOT ∈ keys then MEMO_ROOTDIR else 0) ||| (if .TRANSID ∈ keys then MEMO_TRANSID else 0) |||
    (if .REDPAKID ∈ keys then MEMO_REDPAKID else 0)

def keysOf (puts : List Put) : List Key := puts.map (·.field.1)

/-- The draft of a request after some of its puts. -/
def draftOf (operation : Int) (packageName : CString) (index count : CInt) (done : List Put) : Draft :=
  ⟨(Call.opening operation packageName index count).text operation ++ (done.map Put.text).flatten, operation,
    .started, memoOf (keysOf done)⟩

def Message.draft (message : Message) (done : List Put) : Draft :=
  draftOf message.operation message.packageName message.index message.count done

theorem memo_put (keys : List Key) (put : Put) (first : put.field.1 ≠ .FILE → put.field.1 ∉ keys) (draft : Draft)
    (started : draft.state = .started) (memo : draft.memo = memoOf keys) :
    draft.step put.call =
      (0, { draft with content := draft.content ++ put.text, memo := memoOf (keys ++ [put.field.1]) }) := by
  have masks : ∀ root transid redpakid : Bool,
      let bits := (if root then MEMO_ROOTDIR else 0) ||| (if transid then MEMO_TRANSID else 0) |||
        (if redpakid then MEMO_REDPAKID else 0)
      (root = false → bits &&& MEMO_ROOTDIR = 0) ∧ (transid = false → bits &&& MEMO_TRANSID = 0) ∧
        (redpakid = false → bits &&& MEMO_REDPAKID = 0) := by decide
  have marks : ∀ root transid redpakid : Bool,
      let bits := (if root then MEMO_ROOTDIR else 0) ||| (if transid then MEMO_TRANSID else 0) |||
        (if redpakid then MEMO_REDPAKID else 0)
      bits ||| MEMO_ROOTDIR = MEMO_ROOTDIR ||| (if transid then MEMO_TRANSID else 0) |||
          (if redpakid then MEMO_REDPAKID else 0) ∧
        bits ||| MEMO_TRANSID = (if root then MEMO_ROOTDIR else 0) ||| MEMO_TRANSID |||
          (if redpakid then MEMO_REDPAKID else 0) ∧
        bits ||| MEMO_REDPAKID = (if root then MEMO_ROOTDIR else 0) ||| (if transid then MEMO_TRANSID else 0) |||
          MEMO_REDPAKID := by decide
  have mask := masks (decide (.ROOT ∈ keys)) (decide (.TRANSID ∈ keys)) (decide (.REDPAKID ∈ keys))
  have mark := marks (decide (.ROOT ∈ keys)) (decide (.TRANSID ∈ keys)) (decide (.REDPAKID ∈ keys))
  simp only [decide_eq_true_eq, decide_eq_false_iff_not] at mask mark
  cases put with
  | file value =>
    simp only [Put.call, Draft.step, Draft.put]
    rw [if_neg (not_not.mpr started)]
    simp [memo, memoOf, Put.field, Put.text, Call.text]
  | rootdir value =>
    have fresh : Key.ROOT ∉ keys := first (by simp [Put.field])
    simp only [Put.call, Draft.step, Draft.putOnce]
    rw [memo, memoOf, if_neg (not_not.mpr (mask.1 fresh)), if_neg (not_not.mpr started), mark.1]
    simp [memoOf, Put.field, Put.text, Call.text]
  | transid value =>
    have fresh : Key.TRANSID ∉ keys := first (by simp [Put.field])
    simp only [Put.call, Draft.step, Draft.putOnce]
    rw [memo, memoOf, if_neg (not_not.mpr (mask.2.1 fresh)), if_neg (not_not.mpr started), mark.2.1]
    simp [memoOf, Put.field, Put.text, Call.text]
  | redpakid value =>
    have fresh : Key.REDPAKID ∉ keys := first (by simp [Put.field])
    simp only [Put.call, Draft.step, Draft.putOnce]
    rw [memo, memoOf, if_neg (not_not.mpr (mask.2.2 fresh)), if_neg (not_not.mpr started), mark.2.2]
    simp [memoOf, Put.field, Put.text, Call.text]

theorem put_first {puts : List Put}
    (once : ∀ key, key ≠ .FILE → ((puts.map Put.field).filter fun field => field.1 = key).length ≤ 1)
    (done rest : List Put) (put : Put) (whole : puts = done ++ put :: rest) :
    put.field.1 ≠ .FILE → put.field.1 ∉ keysOf done := by
  intro proper again
  have once := once put.field.1 proper
  obtain ⟨earlier, member, same⟩ := List.mem_map.mp again
  have inside : earlier.field ∈ (done.map Put.field).filter fun field => field.1 = put.field.1 :=
    List.mem_filter.mpr ⟨List.mem_map_of_mem member, by simpa using same⟩
  have some := List.length_pos_of_mem inside
  rw [whole, List.map_append, List.filter_append, List.length_append, List.map_cons, List.filter_cons_of_pos (by simp),
    List.length_cons] at once
  omega

section
variable {operation : Int} {packageName : CString} {index count : CInt} {puts : List Put}

theorem draftOf_put (once : ∀ key, key ≠ .FILE → ((puts.map Put.field).filter fun field => field.1 = key).length ≤ 1)
    (done rest : List Put) (put : Put) (whole : puts = done ++ put :: rest) :
    (draftOf operation packageName index count done).step put.call =
      (0, draftOf operation packageName index count (done ++ [put])) := by
  rw [memo_put (keysOf done) put (put_first once done rest put whole) _ rfl rfl]
  simp [draftOf, keysOf, List.append_assoc]

theorem draftOf_open (known : 0 ≤ operation ∧ operation ≤ 3) (draft : Draft) :
    draft.step (.opening operation packageName index count) = (0, draftOf operation packageName index count []) := by
  simp only [Draft.step]
  rw [if_neg (by omega)]
  simp [draftOf, keysOf, memoOf]

theorem draftOf_text : (draftOf operation packageName index count puts).content ++ lineOf .END (operationName operation) =
    linesText (messageLines operation (messageFields packageName index count puts)) := by
  have texts : (puts.map Put.text).flatten = linesText ((puts.map Put.field).map Field.line) := by
    simp only [linesText, List.map_map]
    rfl
  rw [draftOf, texts]
  simp [messageLines, messageFields, linesText, Call.text, lineOf, Field.line, List.append_assoc]

theorem put_allowed (draft : Draft) (put : Put) : draft.Allows put.call := by
  cases put <;> trivial

theorem draftOf_accepts (known : 0 ≤ operation ∧ operation ≤ 3)
    (once : ∀ key, key ≠ .FILE → ((puts.map Put.field).filter fun field => field.1 = key).length ≤ 1) (draft : Draft) :
    draft.Accepts (.opening operation packageName index count :: puts.map Put.call)
      (draftOf operation packageName index count puts) := by
  have later (rest done : List Put) (whole : puts = done ++ rest) :
      (draftOf operation packageName index count done).Accepts (rest.map Put.call)
        (draftOf operation packageName index count puts) := by
    induction rest generalizing done with
    | nil =>
      rw [whole, List.append_nil]
      rfl
    | cons put rest ih =>
      have step : (draftOf operation packageName index count done).step put.call =
          (0, draftOf operation packageName index count (done ++ [put])) := draftOf_put once done rest put whole
      refine ⟨put_allowed _ put, congrArg Prod.fst step, ?_⟩
      rw [step]
      exact ih (done ++ [put]) (by rw [whole, List.append_assoc]; rfl)
  have begins : draft.step (.opening operation packageName index count) =
      (0, draftOf operation packageName index count []) := draftOf_open known draft
  refine ⟨trivial, congrArg Prod.fst begins, ?_⟩
  rw [begins]
  exact later puts [] rfl

end

theorem draft_put (message : Message) (done rest : List Put) (put : Put) (whole : message.puts = done ++ put :: rest) :
    (message.draft done).step put.call = (0, message.draft (done ++ [put])) :=
  draftOf_put message.once done rest put whole

theorem draft_open (message : Message) (draft : Draft) :
    draft.step (.opening message.operation message.packageName message.index message.count) =
      (0, message.draft []) :=
  draftOf_open message.known draft

theorem draft_text (message : Message) :
    (message.draft message.puts).content ++ lineOf .END (operationName message.operation) = message.text :=
  draftOf_text

theorem draft_length (message : Message) (done rest : List Put) (whole : message.puts = done ++ rest) :
    (message.draft done).content.length + (rest.map fun put => put.text.length).sum +
      (lineOf .END (operationName message.operation)).length = message.text.length := by
  rw [← draft_text, Message.draft, Message.draft, draftOf, draftOf, whole]
  simp only [List.map_append, List.flatten_append, List.length_append, List.length_flatten, List.map_map]
  have sums : (rest.map (List.length ∘ Put.text)).sum = (rest.map fun put => put.text.length).sum := rfl
  omega

theorem draft_head (message : Message) (done : List Put) : (message.draft done).Sound := by
  have start := text_head (.opening message.operation message.packageName message.index message.count)
    message.operation
  have some : (Call.opening message.operation message.packageName message.index message.count).text
      message.operation ≠ [] := by simp [Call.text, lineOf, keyLine]
  refine ⟨fun _ => List.append_ne_nil_of_left_ne_nil some _, ?_⟩
  rw [Message.draft, draftOf, List.head?_append_of_ne_nil _ some]
  exact start

section
variable (alloc : Allocator)

theorem puts_follow (message : Message) (short : message.text.length < AFMPKG_CLIENT_BUFFER0_SIZE)
    (done rest : List Put) (whole : message.puts = done ++ rest) (client : Client)
    (follows : Follows client (message.draft done)) :
    ∃ after, client.run alloc (rest.map Put.call) = some after ∧ Follows after (message.draft message.puts) := by
  induction rest generalizing done client with
  | nil =>
    rw [List.append_nil] at whole
    rw [whole]
    exact ⟨client, rfl, follows⟩
  | cons put rest ih =>
    have step := draft_put message done rest put whole
    have next : message.puts = (done ++ [put]) ++ rest := by rw [whole, List.append_assoc]; rfl
    have size := draft_length message (done ++ [put]) rest next
    have room : ((message.draft done).step put.call).2.content.length < AFMPKG_CLIENT_BUFFER0_SIZE := by
      rw [step]
      simp only
      omega
    obtain ⟨called, made, later⟩ := step_short alloc client _ follows put.call (put_allowed _ put) room
    rw [step] at made later
    rw [List.map_cons, run_cons made]
    exact ih (done ++ [put]) next _ later

theorem emitted_short (message : Message) (short : message.text.length < AFMPKG_CLIENT_BUFFER0_SIZE)
    (client : Client) : (message.sender alloc client).content = message.text := by
  have size := draft_length message [] message.puts rfl
  have opens := draft_open message (firstDraft client)
  obtain ⟨opened, made, first⟩ := step_short alloc _ _ (follows_init client)
    (.opening message.operation message.packageName message.index message.count) trivial
    (by rw [opens]; simp only; omega)
  rw [opens] at made first
  obtain ⟨after, run, middle⟩ := puts_follow alloc message short [] message.puts rfl _ first
  have ends : ((message.draft message.puts).step .ending).2.content = message.text := draft_text message
  obtain ⟨ended, made', last⟩ := step_short alloc _ _ middle .ending message.known (by rw [ends]; exact short)
  have whole : (afmpkgClientInit client).run alloc message.calls = some ended := by
    rw [Message.calls, List.cons_append, run_cons made, run_concat run, made', Option.map_some]
  rw [Message.sender, Option.get_of_eq_some _ whole, ← ends]
  exact last.content

end

theorem put_length (alloc : Allocator) (client : Client) (key : Key) (val : Bytes) :
    (putKeyValNl alloc client key val).2.length ≤ client.length + (lineOf key val).length := by
  rw [lineOf_length]
  unfold putKeyValNl
  split
  · exact Nat.le_add_right _ _
  · simp only
    split
    · exact Nat.le_add_right _ _
    · have bound := Nat.mod_le (client.length + 2 + val.length + key.text.length) (2 ^ 64)
      simp only
      omega

theorem put_step (alloc : Allocator) (client : Client) (put : Put) : ∃ called, client.step alloc put.call = some called ∧
    (called.2.length = (putKeyValNl alloc client put.field.1 put.field.2).2.length ∧
      called.2.buffer = (putKeyValNl alloc client put.field.1 put.field.2).2.buffer ∨ called.2 = client) := by
  have once : ∀ key val memo, ((putKeyValNlMemo alloc client key val memo).2.length =
        (putKeyValNl alloc client key val).2.length ∧
      (putKeyValNlMemo alloc client key val memo).2.buffer = (putKeyValNl alloc client key val).2.buffer) ∨
      (putKeyValNlMemo alloc client key val memo).2 = client := by
    intro key val memo
    unfold putKeyValNlMemo
    split
    · exact Or.inr rfl
    · simp only
      split
      · exact Or.inl ⟨rfl, rfl⟩
      · exact Or.inl ⟨rfl, rfl⟩
  cases put with
  | file value => exact ⟨_, rfl, Or.inl ⟨rfl, rfl⟩⟩
  | rootdir value => exact ⟨_, rfl, once .ROOT value.bytes MEMO_ROOTDIR⟩
  | transid value => exact ⟨_, rfl, once .TRANSID value.bytes MEMO_TRANSID⟩
  | redpakid value => exact ⟨_, rfl, once .REDPAKID value.bytes MEMO_REDPAKID⟩

theorem puts_spoiled (rest : List Put) (client : Client) (spoiled : Spoiled client)
    (bound : client.length + (rest.map fun put => put.text.length).sum < 2 ^ 63) :
    ∃ after, client.run zeroAllocator (rest.map Put.call) = some after ∧ Spoiled after ∧
      after.length ≤ client.length + (rest.map fun put => put.text.length).sum := by
  induction rest generalizing client with
  | nil => exact ⟨client, rfl, spoiled, le_rfl⟩
  | cons put rest ih =>
    simp only [List.map_cons, List.sum_cons] at bound ⊢
    have size : put.text.length = (lineOf put.field.1 put.field.2).length := rfl
    obtain ⟨kept, short⟩ := put_spoiled client put.field.1 put.field.2 spoiled (by omega)
    obtain ⟨called, made, effect⟩ := put_step zeroAllocator client put
    have next : Spoiled called.2 ∧ called.2.length ≤ client.length + put.text.length := by
      rcases effect with ⟨length, buffer⟩ | same
      · exact ⟨⟨length ▸ kept.filled, buffer ▸ kept.head⟩, length ▸ short⟩
      · rw [same]
        exact ⟨spoiled, Nat.le_add_right _ _⟩
    obtain ⟨after, run, later, total⟩ := ih _ next.1 (by omega)
    refine ⟨after, ?_, later, by omega⟩
    rw [run_cons made]
    exact run

theorem begin_length (alloc : Allocator) (client : Client) (operation : Int) (packageName : CString)
    (index count : CInt) :
    (afmpkgClientBegin alloc client operation packageName index count).2.length ≤
      max client.length ((Call.opening operation packageName index count).text operation).length := by
  rw [opening_text, List.length_append, List.length_append, List.length_append, List.nil_append]
  unfold afmpkgClientBegin
  simp only
  split
  · exact le_max_left _ _
  · have begun := put_length alloc { client with length := 0, operation := operation, state := .started, memo := 0 }
      .BEGIN (operationName operation)
    simp only at begun
    generalize putKeyValNl alloc _ .BEGIN (operationName operation) = first at begun ⊢
    have named := put_length alloc first.2 .PACKAGE packageName.bytes
    generalize putKeyValNl alloc first.2 .PACKAGE packageName.bytes = second at named ⊢
    have indexed := put_length alloc second.2 .INDEX (itoa index.1)
    generalize putKeyValNl alloc second.2 .INDEX (itoa index.1) = third at indexed ⊢
    have counted := put_length alloc third.2 .COUNT (itoa count.1)
    split_ifs <;> omega

theorem puts_spoil (message : Message) (done rest : List Put) (whole : message.puts = done ++ rest)
    (client : Client) (follows : Follows client (message.draft done)) :
    ∃ after, client.run zeroAllocator (rest.map Put.call) = some after ∧
      (Follows after (message.draft message.puts) ∨ Spoiled after ∧ after.length ≤ message.text.length) := by
  have memory := message.inMemory
  change message.text.length < 2 ^ 63 at memory
  induction rest generalizing done client with
  | nil =>
    rw [List.append_nil] at whole
    rw [whole]
    exact ⟨client, rfl, Or.inl follows⟩
  | cons put rest ih =>
    have step := draft_put message done rest put whole
    have next : message.puts = (done ++ [put]) ++ rest := by rw [whole, List.append_assoc]; rfl
    have size := draft_length message (done ++ [put]) rest next
    have sound := draft_head message done
    by_cases room : (message.draft (done ++ [put])).content.length < AFMPKG_CLIENT_BUFFER0_SIZE
    · obtain ⟨called, made, later⟩ := step_short zeroAllocator client _ follows put.call (put_allowed _ put)
        (by rw [step]; exact room)
      rw [step] at made later
      rw [List.map_cons, run_cons made]
      exact ih (done ++ [put]) next _ later
    · obtain ⟨called, made, effect⟩ := put_step zeroAllocator client put
      have spoiled := step_spoils client _ follows sound put.call (by rw [step]; exact not_lt.mp room) made
      have grown : called.2.length ≤ (message.draft (done ++ [put])).content.length := by
        have added : (message.draft (done ++ [put])).content.length = client.length + put.text.length := by
          rw [follows.length]
          simp [Message.draft, draftOf]
          omega
        rw [added]
        rcases effect with ⟨length, _⟩ | same
        · rw [length]
          exact put_length zeroAllocator client put.field.1 put.field.2
        · rw [same]
          exact Nat.le_add_right _ _
      obtain ⟨after, run, kept, total⟩ := puts_spoiled rest _ spoiled (by omega)
      rw [List.map_cons, run_cons made]
      exact ⟨after, run, Or.inr ⟨kept, by omega⟩⟩

theorem end_spoiled (client : Client) (spoiled : Spoiled client) (bound : client.length < 2 ^ 63) :
    ∀ called, client.step zeroAllocator .ending = some called → Spoiled called.2 := by
  intro called step
  have name : (lineOf .END (operationName client.operation)).length < 100 := by
    rw [lineOf_length]
    unfold operationName
    split_ifs <;> decide
  obtain ⟨kept, _⟩ := put_spoiled client .END (operationName client.operation) spoiled (by omega)
  rw [Client.step, afmpkgClientEnd, readOperationName] at step
  split at step
  · cases step
  cases step
  simp only [endRequest]
  split
  · refine ⟨?_, write_head _ _ _ kept.filled kept.head⟩
    rw [write_length]
    exact kept.filled
  · exact ⟨kept.filled, kept.head⟩

theorem not_rebuilt (message : Message) (text : Bytes) (head : text.head? = some 0) :
    ¬Rebuilt message (wholeLines newline text) := by
  intro rebuilt
  rcases first_line newline text with plain | ⟨line, rest, plain, same⟩
  · have state := rebuilt.state
    rw [wholeLines_open newline text plain] at state
    cases state
  · have first : line.head? = some 0 := by
      cases line with
      | nil =>
        rw [same] at head
        cases head
      | cons byte others =>
        rw [same] at head
        exact head
    have some : line ≠ [] := by
      intro empty
      rw [empty] at first
      cases first
    have accepted := rebuilt.accepted
    rw [same, wholeLines_line newline line rest plain some, accepted_cons] at accepted
    have bad : lineKey line = none := by
      cases found : lineKey line with
      | none => rfl
      | some pair =>
        obtain ⟨key, value⟩ := pair
        rw [(lineKey_eq_some line key value).mp found] at first
        cases key <;> cases first
    rw [addLine_bad afmpkgRequestInit.2 rfl line bad] at accepted
    exact error_not_zero (by decide) accepted.1

theorem message_plain (message : Message) : ∀ line ∈ message.lines, newline ∉ line ∧ line ≠ [] := by
  have keyed : ∀ key value, newline ∉ value → newline ∉ keyLine key value ∧ keyLine key value ≠ [] := by
    intro key value plain
    refine ⟨?_, by simp [keyLine]⟩
    simp only [keyLine, List.mem_append, List.mem_cons, not_or]
    refine ⟨?_, by decide, plain⟩
    cases key <;> decide
  have name : newline ∉ operationName message.operation := by
    unfold operationName
    split_ifs <;> decide
  intro line member
  simp only [Message.lines, messageLines, Message.fields, messageFields, List.cons_append, List.nil_append,
    List.mem_cons, List.map_cons, List.map_map, List.mem_append, List.mem_map, List.not_mem_nil, or_false] at member
  rcases member with begins | package | index | count | (⟨put, inside, same⟩ | ends)
  · rw [begins]
    exact keyed _ _ name
  · rw [package]
    exact keyed _ _ message.plainName
  · rw [index]
    exact keyed _ _ (itoa_numbered message.index message.positive).2.1
  · rw [count]
    exact keyed _ _ (itoa_numbered message.count (message.positive.trans message.ordered)).2.1
  · rw [← same]
    exact keyed _ _ (message.plain put inside)
  · rw [ends]
    exact keyed _ _ name

theorem paths_short (message : Message) (path : Bytes) (member : path ∈ message.paths) :
    path.length ≤ message.text.length := by
  have line : keyLine .FILE path ∈ message.lines := by
    rw [mem_paths] at member
    rw [Message.lines, messageLines]
    exact List.mem_append_left _ (List.mem_cons_of_mem _ (List.mem_map_of_mem (f := Field.line) member))
  have inside : keyLine .FILE path ++ [newline] ∈ message.lines.map (· ++ [newline]) := List.mem_map_of_mem line
  have part := (List.sublist_flatten_of_mem inside).length_le
  simp only [keyLine, List.length_append, List.length_cons] at part
  rw [Message.text, linesText]
  omega

theorem emitted_long (message : Message) (long : AFMPKG_CLIENT_BUFFER0_SIZE ≤ message.text.length) (client : Client) :
    (message.sender zeroAllocator client).content.head? = some 0 := by
  have memory : message.text.length < 2 ^ 63 := message.inMemory
  have size := draft_length message [] message.puts rfl
  have opens := draft_open message (firstDraft client)
  obtain ⟨ended, whole⟩ := Option.isSome_iff_exists.mp
    (message_runs message zeroAllocator (afmpkgClientInit client))
  rw [Message.sender, Option.get_of_eq_some _ whole]
  let opened := afmpkgClientBegin zeroAllocator (afmpkgClientInit client) message.operation message.packageName
    message.index message.count
  have begins : (afmpkgClientInit client).step zeroAllocator
      (.opening message.operation message.packageName message.index message.count) = some opened := rfl
  rw [Message.calls, List.cons_append, run_cons begins] at whole
  apply spoiled_content
  have last {after : Client} (run : opened.2.run zeroAllocator (message.puts.map Put.call) = some after) :
      ∃ called, after.step zeroAllocator .ending = some called ∧ called.2 = ended := by
    rw [run_concat run] at whole
    exact Option.map_eq_some_iff.mp whole
  by_cases room : (message.draft []).content.length < AFMPKG_CLIENT_BUFFER0_SIZE
  · obtain ⟨called, made, first⟩ := step_short zeroAllocator _ _ (follows_init client)
      (.opening message.operation message.packageName message.index message.count) trivial (by rw [opens]; exact room)
    rw [opens] at made first
    have same : opened.2 = called := congrArg Prod.snd (Option.some.inj made)
    rw [← same] at first
    obtain ⟨after, run, follows | ⟨spoiled, bound⟩⟩ := puts_spoil message [] message.puts rfl _ first
    · obtain ⟨called, ends, rfl⟩ := last run
      have text : ((message.draft message.puts).step .ending).2.content = message.text := draft_text message
      exact step_spoils _ _ follows (draft_head message message.puts) .ending (by rw [text]; exact long) ends
    · obtain ⟨called, ends, rfl⟩ := last run
      exact end_spoiled _ spoiled (by omega) called ends
  · have spoiled := step_spoils _ _ (follows_init client) (sound_first client)
      (.opening message.operation message.packageName message.index message.count)
      (by rw [opens]; exact not_lt.mp room) begins
    have length := begin_length zeroAllocator (afmpkgClientInit client) message.operation message.packageName
      message.index message.count
    have text : (message.draft []).content =
        (Call.opening message.operation message.packageName message.index message.count).text message.operation := by
      simp [Message.draft, draftOf]
    have start : (afmpkgClientInit client).length = 0 := rfl
    have bound : opened.2.length ≤ (message.draft []).content.length := by
      rw [text]
      exact length.trans (by rw [start, Nat.zero_max])
    obtain ⟨after, run, kept, total⟩ := puts_spoiled message.puts opened.2 spoiled (by omega)
    obtain ⟨called, ends, rfl⟩ := last run
    exact end_spoiled _ kept (by omega) called ends

/-- The lines that the calls of a message are for rebuild it; those that the client sends
do so, whatever blocks the heap gives, when the message fits in its first buffer. -/
theorem round_trip_iff (message : Message) :
    ((∀ path ∈ message.paths, path.length < 2 ^ 32) → Rebuilt message message.lines) ∧
    ((∀ alloc client, Rebuilt message (message.emitted alloc client)) ↔
      message.text.length < AFMPKG_CLIENT_BUFFER0_SIZE) := by
  refine ⟨rebuilt_lines message, ?_, ?_⟩
  · intro all
    by_contra long
    have head := emitted_long message (not_lt.mp long) rawClient
    exact not_rebuilt message _ head (all zeroAllocator rawClient)
  · intro short alloc client
    have small : ∀ path ∈ message.paths, path.length < 2 ^ 32 := by
      intro path member
      have bound := paths_short message path member
      unfold AFMPKG_CLIENT_BUFFER0_SIZE at short
      omega
    rw [Message.emitted, emitted_short alloc message short client, Message.text, linesText,
      wholeLines_joined newline message.lines (message_plain message)]
    exact rebuilt_lines message small

theorem longName_text (operation : Int) (index count : CInt) (first : index.1.natAbs ≤ 1) (second : count.1.natAbs ≤ 1) :
    AFMPKG_CLIENT_BUFFER0_SIZE ≤
        (linesText (messageLines operation (messageFields longName index count []))).length ∧
      (linesText (messageLines operation (messageFields longName index count []))).length < 2 ^ 63 := by
  have name : longName.bytes.length = AFMPKG_CLIENT_BUFFER0_SIZE := List.length_replicate
  have begins : (operationName operation).length ≤ 20 := by
    unfold operationName
    split_ifs <;> decide
  have indexed := itoa_length index.1
  have counted := itoa_length count.1
  have keys : ∀ key : Key, key.text.length ≤ 20 := by
    intro key
    cases key <;> decide
  have one := keys .BEGIN
  have two := keys .PACKAGE
  have three := keys .INDEX
  have four := keys .COUNT
  have five := keys .END
  simp only [linesText, messageLines, messageFields, List.map_nil, List.append_nil, List.map_cons, List.cons_append,
    List.nil_append, List.flatten_cons, List.flatten_nil, List.length_append, List.length_cons, List.length_nil,
    Field.line, keyLine, name]
  unfold AFMPKG_CLIENT_BUFFER0_SIZE
  omega

def longMessage : Message where
  operation := 0
  known := by decide
  packageName := longName
  index := ⟨1, by decide⟩
  count := ⟨1, by decide⟩
  positive := by decide
  ordered := by decide
  puts := []
  once := by simp
  plainName := by
    intro member
    exact absurd (List.eq_of_mem_replicate member) (by decide)
  plain := by simp
  inMemory := (longName_text 0 ⟨1, by decide⟩ ⟨1, by decide⟩ (by decide) (by decide)).2

/-- The server does not get the message: its first bytes are those of a new block. -/
theorem longMessage_lost :
    ¬∀ (message : Message) (alloc : Allocator) (client : Client),
      Rebuilt message (message.emitted alloc client) := by
  intro all
  have long := (longName_text 0 ⟨1, by decide⟩ ⟨1, by decide⟩ (by decide) (by decide)).1
  exact not_rebuilt longMessage _ (emitted_long longMessage long rawClient) (all longMessage zeroAllocator rawClient)

end AppManager.Afmpkg
