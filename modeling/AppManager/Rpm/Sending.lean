import AppManager.Afmpkg.ClientLoss
import AppManager.Afmpkg.RoundTrip
import AppManager.Rpm.Records

/-! What the plugin sends for a record: the text of its message, of which the first growth of
the buffer of the client loses a part that lies before the last line. -/

namespace AppManager.Rpm
open AppManager.Lib AppManager.Lib.Libc AppManager.Afmpkg

/-- What a message says of a package, after its name and its numbers. -/
def putsOf (setting : Setting) (files : List CString) : List Put :=
  (setting.rootdir.map Put.rootdir).toList ++ (setting.transid.map Put.transid).toList ++
    (setting.redpakid.map Put.redpakid).toList ++ files.map Put.file

theorem putsOf_once (setting : Setting) (files : List CString) (key : Key) (other : key ≠ .FILE) :
    (((putsOf setting files).map Put.field).filter fun field => field.1 = key).length ≤ 1 := by
  have none : ((files.map Put.file).map Put.field).filter (fun field => field.1 = key) = [] := by
    rw [List.filter_eq_nil_iff]
    intro field member
    obtain ⟨put, inside, rfl⟩ := List.mem_map.mp member
    obtain ⟨file, -, rfl⟩ := List.mem_map.mp inside
    exact fun same => other (of_decide_eq_true same).symm
  rw [putsOf, List.map_append, List.filter_append, none, List.append_nil]
  cases setting.rootdir <;> cases setting.transid <;> cases setting.redpakid <;> cases key <;> simp [Put.field]

section
variable {Ts : Type}

theorem getOperation_known (type : ElementType) (known : type ≠ .other) (onlycheck : Bool) :
    0 ≤ getOperation type onlycheck ∧ getOperation type onlycheck ≤ 3 := by
  cases type with
  | other => exact (known rfl).elim
  | _ => cases onlycheck <;> decide

/-- The lines that the calls for a record are for. -/
def recordText (setting : Setting) (operation : Int) (record : Record Ts) : Bytes :=
  linesText (messageLines operation (messageFields record.te.name (cint record.index) (cint record.count)
    (putsOf setting record.files)))

theorem messageCalls_puts (setting : Setting) (record : Record Ts) (operation : Int) :
    messageCalls setting record operation =
      .opening operation record.te.name (cint record.index) (cint record.count) ::
        (putsOf setting record.files).map Put.call ++ [.ending] := by
  have calls (value : Option CString) (put : CString → Put) (call : CString → Call)
      (same : ∀ text, (put text).call = call text) :
      (value.map put).toList.map Put.call = (value.map call).toList := by
    cases value with
    | none => rfl
    | some text => exact congrArg (fun call => [call]) (same text)
  have files : (record.files.map Put.file).map Put.call = record.files.map Call.putFile := by
    rw [List.map_map]
    rfl
  rw [messageCalls]
  simp only [putsOf, List.map_append, calls setting.rootdir Put.rootdir Call.putRootdir (fun _ => rfl),
    calls setting.transid Put.transid Call.putTransid (fun _ => rfl),
    calls setting.redpakid Put.redpakid Call.putRedpakid (fun _ => rfl), files, List.cons_append]

theorem whileZero_append {alloc : Allocator} {client after : Client} {calls : List Call}
    (made : whileZero alloc client calls = some (0, after)) (more : List Call) :
    whileZero alloc client (calls ++ more) = whileZero alloc after more := by
  induction calls generalizing client with
  | nil =>
    cases made
    rfl
  | cons call rest ih =>
    rw [List.cons_append]
    rw [whileZero] at made ⊢
    obtain ⟨called, step, made⟩ := Option.bind_eq_some_iff.mp made
    rw [step, Option.bind_some]
    split at made
    · next zero => rw [if_pos zero, ih made]
    · next failed =>
      cases made
      exact absurd rfl failed

theorem whileZero_accepts (alloc : Allocator) (bound : Nat) (related : Client → Draft → Prop)
    (step : ∀ client draft call, related client draft → draft.Allows call →
      (draft.step call).2.content.length < bound →
        ∃ next, client.step alloc call = some ((draft.step call).1, next) ∧ related next (draft.step call).2)
    {draft last : Draft} {calls : List Call} (accepts : draft.Accepts calls last)
    (later : ∀ call ∈ calls.tail, call.isOpening = false) (short : last.content.length < bound)
    {client : Client} (start : related client draft) :
    ∃ after, whileZero alloc client calls = some (0, after) ∧ related after last := by
  induction calls generalizing client draft with
  | nil =>
    cases accepts
    exact ⟨client, rfl, start⟩
  | cons call rest ih =>
    obtain ⟨allowed, zero, accepts⟩ := accepts
    have size := accepts_length accepts later
    obtain ⟨next, made, start⟩ := step client draft call start allowed (size.trans_lt short)
    obtain ⟨after, others, ends⟩ := ih accepts (fun call member => later call (List.mem_of_mem_tail member)) start
    refine ⟨after, ?_, ends⟩
    rw [whileZero, made, Option.bind_some, if_pos zero, others]

/-- The message of a record that is sent: it ends with the name of its operation, and is whole
when it fits in the first buffer of the client. -/
def Sent (setting : Setting) (performed : Performed Ts) : Prop :=
  (recordText setting performed.operation performed.record).length < 2 ^ 63 →
    ∃ text, performed.message = some text ∧ lineOf .END (operationName performed.operation) <:+ text ∧
      ((recordText setting performed.operation performed.record).length < AFMPKG_CLIENT_BUFFER0_SIZE →
        text = recordText setting performed.operation performed.record)

section
variable (setting : Setting) (record : Record Ts) (operation : Int)

/-- The calls of a message before its end. -/
def openCalls : List Call :=
  .opening operation record.te.name (cint record.index) (cint record.count) ::
    (putsOf setting record.files).map Put.call

def openDraft : Draft :=
  draftOf operation record.te.name (cint record.index) (cint record.count) (putsOf setting record.files)

theorem openDraft_text : ((openDraft setting record operation).step .ending).2.content =
    recordText setting operation record := draftOf_text

theorem openDraft_short : (openDraft setting record operation).content.length ≤
    (recordText setting operation record).length := by
  have text : (openDraft setting record operation).content ++ lineOf .END (operationName operation) =
      recordText setting operation record := draftOf_text
  rw [← text, List.length_append]
  exact Nat.le_add_right _ _

theorem openCalls_accepts (known : 0 ≤ operation ∧ operation ≤ 3) (draft : Draft) :
    draft.Accepts (openCalls setting record operation) (openDraft setting record operation) :=
  draftOf_accepts known (putsOf_once setting record.files) draft

theorem openCalls_later : ∀ call ∈ (openCalls setting record operation).tail, call.isOpening = false := by
  intro call member
  obtain ⟨put, -, rfl⟩ := List.mem_map.mp member
  cases put <;> rfl

theorem makeMessage_calls {client begun after : Client}
    (made : whileZero setting.alloc client (openCalls setting record operation) = some (0, begun))
    (ended : begun.step setting.alloc .ending = some (0, after)) :
    makeMessage setting client record operation = (0, after) := by
  apply Option.get_of_eq_some
  rw [messageCalls_puts]
  change whileZero setting.alloc client (openCalls setting record operation ++ [.ending]) = some (0, after)
  rw [whileZero_append made, whileZero, ended]
  rfl

/-- In any memory, the line that names the operation comes last. -/
theorem makeMessage_ends (client : Client) (known : 0 ≤ operation ∧ operation ≤ 3)
    (memory : (recordText setting operation record).length < memoryEnd) :
    ∃ after, makeMessage setting (afmpkgClientInit client) record operation = (0, after) ∧
      lineOf .END (operationName operation) <:+ after.content := by
  obtain ⟨begun, made, lost, remains⟩ := whileZero_accepts setting.alloc memoryEnd
    (fun client draft => ∃ lost, Remains lost client draft)
    (fun client draft call related allowed room => by
      obtain ⟨lost, remains⟩ := related
      obtain ⟨next, lost', step, remains, -⟩ := step_remains setting.alloc remains call allowed room
      exact ⟨next, step, lost', remains⟩)
    (openCalls_accepts setting record operation known (firstDraft client)) (openCalls_later setting record operation)
    ((openDraft_short setting record operation).trans_lt memory) ⟨0, remains_init client⟩
  obtain ⟨after, lost', ended, remains', behind⟩ := step_remains setting.alloc remains .ending known
    (by rw [openDraft_text]; exact memory)
  refine ⟨after, makeMessage_calls setting record operation made ended, ?_⟩
  have kept := remains'.kept
  rw [show ((openDraft setting record operation).step .ending).2.content =
    (openDraft setting record operation).content ++ lineOf .END (operationName operation) from rfl,
    List.drop_append_of_le_length (behind rfl)] at kept
  exact (List.suffix_append _ _).trans (kept ▸ List.drop_suffix _ _)

/-- In the first buffer, the message is whole. -/
theorem makeMessage_whole (client : Client) (known : 0 ≤ operation ∧ operation ≤ 3)
    (short : (recordText setting operation record).length < AFMPKG_CLIENT_BUFFER0_SIZE) :
    ∃ after, makeMessage setting (afmpkgClientInit client) record operation = (0, after) ∧
      after.content = recordText setting operation record := by
  obtain ⟨begun, made, follows⟩ := whileZero_accepts setting.alloc AFMPKG_CLIENT_BUFFER0_SIZE Follows
    (fun client draft call follows allowed room => step_short setting.alloc client draft follows call allowed room)
    (openCalls_accepts setting record operation known (firstDraft client)) (openCalls_later setting record operation)
    ((openDraft_short setting record operation).trans_lt short) (follows_init client)
  obtain ⟨after, ended, follows⟩ := step_short setting.alloc _ _ follows .ending known
    (by rw [openDraft_text]; exact short)
  exact ⟨after, makeMessage_calls setting record operation made ended,
    follows.content.trans (openDraft_text setting record operation)⟩

end

theorem makeMessage_sent (setting : Setting) (client : Client) (record : Record Ts) (operation : Int)
    (known : 0 ≤ operation ∧ operation ≤ 3) (memory : (recordText setting operation record).length < 2 ^ 63) :
    ∃ after, makeMessage setting (afmpkgClientInit client) record operation = (0, after) ∧
      lineOf .END (operationName operation) <:+ after.content ∧
      ((recordText setting operation record).length < AFMPKG_CLIENT_BUFFER0_SIZE →
        after.content = recordText setting operation record) := by
  have limit : (2 : Nat) ^ 63 < memoryEnd := by decide
  obtain ⟨after, made, ends⟩ := makeMessage_ends setting record operation client known (memory.trans limit)
  refine ⟨after, made, ends, fun short => ?_⟩
  obtain ⟨after', made', whole⟩ := makeMessage_whole setting record operation client known short
  rw [made] at made'
  cases made'
  exact whole

end

end AppManager.Rpm
