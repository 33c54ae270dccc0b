import AppManager.Afmpkg.Transactions
import AppManager.Afmpkg.Serve

/-! The server and its clients. One transaction is accounted for among any others: what the
requests that are not of that transaction do to the table leaves its record as it is. -/

namespace AppManager.Afmpkg
open AppManager.Lib AppManager.Lib.Libc

/-- A client that is served, from the bytes it sends to those it gets. -/
structure Connection where
  operations : Operations
  clock : Clock
  buffer : ReceiveBuffer
  replyBuffer : ReplyBuffer
  results : List Recv
  ending : Ending

namespace Connection

def received (connection : Connection) : Reception :=
  receive connection.results connection.ending connection.buffer afmpkgRequestInit.2

def serve (connection : Connection) (transactions : List Transaction) : Served :=
  afmpkgServe connection.operations connection.clock transactions connection.buffer connection.replyBuffer
    connection.results connection.ending

/-- The turn of a client whose request is received without error. -/
def turn (connection : Connection) : Option Turn :=
  if 0 ≤ connection.received.rc then some ⟨connection.operations, connection.clock, connection.received.req⟩
  else none

/-- The request of the client is of that transaction. -/
def concerns (transid : Bytes) (connection : Connection) : Bool :=
  connection.turn.any fun turn => turn.operates transid || turn.asks transid

def succeeds (connection : Connection) : Bool := connection.turn.any fun turn => 0 ≤ turn.rc

def fails (connection : Connection) : Bool := connection.turn.any fun turn => turn.rc < 0

end Connection

/-- The table after clients, in the order in which they take the mutex. -/
def servedTable (connections : List Connection) : List Transaction :=
  connections.foldl (fun transactions connection => (connection.serve transactions).transactions) []

theorem serve_turn (connection : Connection) (transactions : List Transaction) :
    (connection.serve transactions).transactions =
      connection.turn.elim transactions fun turn => (turn.process transactions).transactions := by
  unfold Connection.serve afmpkgServe Connection.turn Connection.received
  dsimp only
  split_ifs <;> rfl

theorem serve_sent {connection : Connection} {turn : Turn} (taken : connection.turn = some turn)
    (transactions : List Transaction) :
    (connection.serve transactions).sent = reply (turn.process transactions).req connection.replyBuffer := by
  unfold Connection.turn Connection.received at taken
  split_ifs at taken with going
  obtain rfl := Option.some.inj taken
  unfold Connection.serve afmpkgServe
  dsimp only
  rw [if_pos going]
  rfl

theorem servedTable_turns (connections : List Connection) :
    servedTable connections = tableAfter (connections.filterMap Connection.turn) := by
  induction connections using List.reverseRecOn with
  | nil => rfl
  | append_singleton connections connection ih =>
    rw [servedTable, List.foldl_concat, ← servedTable, serve_turn, ih, List.filterMap_append, List.filterMap_cons,
      List.filterMap_nil]
    cases connection.turn with
    | none => rw [List.append_nil]; rfl
    | some turn => exact (tableAfter_snoc _ _).symm

/-- What a turn makes of the table. -/
inductive Touched (turn : Turn) (transactions : List Transaction) : List Transaction → Prop where
  | same (idle : ∀ transid, turn.operates transid = false ∧ turn.asks transid = false) :
      Touched turn transactions transactions
  | cleaned (transid : Bytes)
      (lost : turn.asks transid = true ∨ turn.operates transid = true ∧ turn.req.count = 0)
      (absent : (cleanupTransactions transactions turn.clock.now).findIdx? (fun trans => trans.id = transid) = none) :
      Touched turn transactions (cleanupTransactions transactions turn.clock.now)
  | counted (transid : Bytes) (position : Nat) (operates : turn.operates transid = true)
      (found : (cleanupTransactions transactions turn.clock.now).findIdx? (fun trans => trans.id = transid) =
        some position) :
      Touched turn transactions ((cleanupTransactions transactions turn.clock.now).modify position (tally turn.rc))
  | opened (transid : Bytes) (operates : turn.operates transid = true) (counted : 1 ≤ turn.req.count)
      (absent : (cleanupTransactions transactions turn.clock.now).findIdx? (fun trans => trans.id = transid) = none) :
      Touched turn transactions (tally turn.rc
        ⟨turn.clock.later + RETENTION_SECONDS, turn.req.count, 0, 0, transid⟩ ::
          cleanupTransactions transactions turn.clock.now)
  | removed (transid : Bytes) (position : Nat) (asks : turn.asks transid = true)
      (found : (cleanupTransactions transactions turn.clock.now).findIdx? (fun trans => trans.id = transid) =
        some position) :
      Touched turn transactions ((cleanupTransactions transactions turn.clock.now).eraseIdx position)

theorem concluded_given (operations : Operations) (req : Request) :
    (concluded operations req).transid = req.transid ∧ (concluded operations req).count = req.count := by
  unfold concluded afmpkgRequestError
  split_ifs <;> exact ⟨rfl, rfl⟩

theorem process_kind (operations : Operations) (clock : Clock) (transactions : List Transaction) (req : Request)
    (operation : isOperation req.kind) :
    (afmpkgRequestProcess operations clock transactions req).req.kind = req.kind := by
  have errors (req : Request) (scode : Int) (msg : Bytes) : (afmpkgRequestError req scode msg).2.kind = req.kind := by
    unfold afmpkgRequestError
    split_ifs <;> rfl
  have kept : (concluded operations req).kind = req.kind := by
    unfold concluded
    split_ifs
    · exact errors _ _ _
    · exact errors _ _ _
    · rfl
  rw [process_operation _ _ _ _ operation]
  rcases recordStatus_req clock transactions (concluded operations req) (operations.result req)
    [if req.kind = .addPackage then .install req.apkg else .uninstall req.apkg] with ⟨-, same⟩ | ⟨-, same⟩
  · rw [same, errors, kept]
  · rw [same, kept]

theorem modify_tally (rc : Int) (transactions : List Transaction) (position : Nat) :
    (if 0 ≤ rc
      then transactions.modify position fun trans => { trans with success := (trans.success + 1) % 2 ^ 32 }
      else transactions.modify position fun trans => { trans with fail := (trans.fail + 2 ^ 32 - 1) % 2 ^ 32 }) =
    transactions.modify position (tally rc) := by
  unfold tally
  split_ifs <;> rfl

theorem process_touched (turn : Turn) (transactions : List Transaction) :
    Touched turn transactions (turn.process transactions).transactions := by
  have unnamed (none : turn.req.transid = none) (transid : Bytes) :
      turn.operates transid = false ∧ turn.asks transid = false := by
    simp [Turn.operates, Turn.asks, none]
  by_cases operation : isOperation turn.req.kind
  · unfold Turn.process
    rw [process_operation _ _ _ _ operation, recordStatus, (concluded_given _ _).1, (concluded_given _ _).2]
    cases named : turn.req.transid with
    | none => exact Touched.same (unnamed named)
    | some transid =>
      have operates : turn.operates transid = true := (operates_iff turn transid).mpr ⟨operation, named⟩
      dsimp only [getTransaction]
      cases found : (cleanupTransactions transactions turn.clock.now).findIdx? fun trans => trans.id = transid with
      | some position =>
        dsimp only
        rw [modify_tally]
        exact Touched.counted transid position operates found
      | none =>
        dsimp only
        by_cases counted : turn.req.count = 0
        · rw [if_neg (not_not.mpr counted)]
          exact Touched.cleaned transid (Or.inr ⟨operates, counted⟩) found
        · rw [if_pos counted]
          dsimp only
          rw [modify_tally]
          exact Touched.opened transid operates (Nat.pos_of_ne_zero counted) found
  · by_cases status : turn.req.kind = .getStatus
    · unfold Turn.process afmpkgRequestProcess processStatus
      rw [status]
      dsimp only
      cases named : turn.req.transid with
      | none => exact Touched.same (unnamed named)
      | some transid =>
        have asks : turn.asks transid = true := (asks_iff turn transid).mpr ⟨status, named⟩
        dsimp only [getTransaction]
        cases found : (cleanupTransactions transactions turn.clock.now).findIdx? fun trans => trans.id = transid with
        | some position => exact Touched.removed transid position asks found
        | none => exact Touched.cleaned transid (Or.inl asks) found
    · have idle (transid : Bytes) : turn.operates transid = false ∧ turn.asks transid = false := by
        rw [← Bool.not_eq_true, ← Bool.not_eq_true, operates_iff, asks_iff]
        exact ⟨fun both => operation both.1, fun both => status both.1⟩
      have same : (turn.process transactions).transactions = transactions := by
        unfold Turn.process afmpkgRequestProcess
        cases kind : turn.req.kind with
        | addPackage => exact (operation (Or.inl kind)).elim
        | removePackage => exact (operation (Or.inr kind)).elim
        | getStatus => exact (status kind).elim
        | _ => rfl
      rw [same]
      exact Touched.same idle

theorem recordOf_cleanup {transactions : List Transaction} {transid : Bytes} {now : Int}
    (unexpired : ∀ trans ∈ recordOf transactions transid, now < trans.expire) :
    recordOf (cleanupTransactions transactions now) transid = recordOf transactions transid := by
  unfold recordOf cleanupTransactions at *
  induction transactions with
  | nil => rfl
  | cons trans rest ih =>
    by_cases own : trans.id = transid
    · rw [List.find?_cons_of_pos (by simpa using own)] at unexpired ⊢
      rw [List.filter_cons_of_pos (by simpa using unexpired trans rfl), List.find?_cons_of_pos (by simpa using own)]
    · rw [List.find?_cons_of_neg (by simpa using own)] at unexpired ⊢
      rw [← ih unexpired, List.filter_cons]
      split_ifs
      · exact List.find?_cons_of_neg (by simpa using own)
      · rfl

theorem cleanup_distinct {transactions : List Transaction} (now : Int) (distinct : (transactions.map (·.id)).Nodup) :
    ((cleanupTransactions transactions now).map (·.id)).Nodup :=
  distinct.sublist (List.filter_sublist.map _)

theorem Touched.distinct {turn : Turn} {transactions table : List Transaction} (touched : Touched turn transactions table)
    (distinct : (transactions.map (·.id)).Nodup) : (table.map (·.id)).Nodup := by
  have kept := cleanup_distinct turn.clock.now distinct
  cases touched with
  | same => exact distinct
  | cleaned => exact kept
  | counted transid position =>
    rw [map_modify _ _ (tally_id turn.rc)]
    exact kept
  | opened transid operates counted absent =>
    rw [List.map_cons, List.nodup_cons, tally_id]
    refine ⟨?_, kept⟩
    intro member
    obtain ⟨trans, inside, same⟩ := List.mem_map.mp member
    exact absurd same (of_decide_eq_false (List.findIdx?_eq_none_iff.mp absent trans inside))
  | removed transid position => exact kept.sublist ((List.eraseIdx_sublist _ _).map _)

theorem named_unique {turn : Turn} {transid other : Bytes} (first : turn.operates transid = true ∨ turn.asks transid = true)
    (second : turn.operates other = true ∨ turn.asks other = true) : other = transid := by
  simp only [operates_iff, asks_iff, ← or_and_right] at first second
  exact Option.some.inj (second.2.symm.trans first.2)

theorem operates_not_asks {turn : Turn} {transid : Bytes} (operates : turn.operates transid = true) (other : Bytes) :
    turn.asks other = false := by
  rw [← Bool.not_eq_true, asks_iff]
  exact fun both => operation_not_status ((operates_iff turn transid).mp operates).1 both.1

def recordAfter (transid : Bytes) (turn : Turn) (record : Option Transaction) : Option Transaction :=
  if turn.asks transid then none
  else if turn.operates transid then
    some (tally turn.rc (record.getD ⟨turn.clock.later + RETENTION_SECONDS, turn.req.count, 0, 0, transid⟩))
  else record

theorem recordAfter_other {transid named : Bytes} {turn : Turn} (of : turn.operates named = true ∨ turn.asks named = true)
    (differs : transid ≠ named) (record : Option Transaction) : recordAfter transid turn record = record := by
  have away : ¬(turn.operates transid = true ∨ turn.asks transid = true) := fun own => differs (named_unique of own)
  rw [not_or] at away
  rw [recordAfter, if_neg away.2, if_neg away.1]

theorem Touched.record {turn : Turn} {transactions table : List Transaction} (touched : Touched turn transactions table)
    (distinct : (transactions.map (·.id)).Nodup) {transid : Bytes}
    (unexpired : ∀ trans ∈ recordOf transactions transid, turn.clock.now < trans.expire)
    (counted : turn.operates transid = true → 1 ≤ turn.req.count) :
    recordOf table transid = recordAfter transid turn (recordOf transactions transid) := by
  have kept := recordOf_cleanup unexpired
  have fewer := cleanup_distinct turn.clock.now distinct
  cases touched with
  | same idle => rw [recordAfter, (idle transid).1, (idle transid).2, if_neg Bool.false_ne_true, if_neg Bool.false_ne_true]
  | cleaned named lost absent =>
    have of : turn.operates named = true ∨ turn.asks named = true := lost.elim Or.inr fun both => Or.inl both.1
    rw [kept]
    by_cases same : transid = named
    · subst same
      rw [← recordOf_eq_none, kept] at absent
      rw [absent]
      rcases lost with asks | ⟨operates, none⟩
      · rw [recordAfter, if_pos asks]
      · exact absurd (counted operates) (by omega)
    · exact (recordAfter_other of same _).symm
  | counted named position operates found =>
    rw [recordOf_modify _ named position _ (tally_id turn.rc) found, kept]
    by_cases same : transid = named
    · subst same
      have present : recordOf transactions transid ≠ none := by
        rw [← kept, ne_eq, recordOf_eq_none, found]
        nofun
      obtain ⟨trans, known⟩ := Option.ne_none_iff_exists'.mp present
      rw [if_pos rfl, recordAfter, operates_not_asks operates, if_neg Bool.false_ne_true, if_pos operates, kept, known]
      rfl
    · rw [if_neg same, recordAfter_other (Or.inl operates) same]
  | opened named operates positive absent =>
    rw [recordOf, List.find?_cons, tally_id, ← recordOf, kept]
    by_cases same : transid = named
    · subst same
      rw [← recordOf_eq_none, kept] at absent
      rw [decide_eq_true rfl, recordAfter, operates_not_asks operates, if_neg Bool.false_ne_true, if_pos operates, absent]
      rfl
    · rw [decide_eq_false (Ne.symm same), recordAfter_other (Or.inl operates) same]
  | removed named position asks found =>
    rw [recordOf_erase _ named position fewer found, kept]
    by_cases same : transid = named
    · subst same
      rw [if_pos rfl, recordAfter, if_pos asks]
    · rw [if_neg same, recordAfter_other (Or.inr asks) same]

/-- The record of a transaction is that of its operations, whatever the others are. -/
structure Accounts (transid : Bytes) (turns : List Turn) (transactions : List Transaction) : Prop where
  distinct : (transactions.map (·.id)).Nodup
  record : recordOf transactions transid = summary transid (since transid turns)

theorem fold_expire (history : List Turn) (trans : Transaction) :
    (history.foldl (fun trans turn => tally turn.rc trans) trans).expire = trans.expire := by
  induction history generalizing trans with
  | nil => rfl
  | cons turn rest ih => rw [List.foldl_cons, ih, tally_expire]

theorem summary_expire {transid : Bytes} {history : List Turn} {trans : Transaction}
    (known : summary transid history = some trans) :
    ∃ turn ∈ history, trans.expire = turn.clock.later + RETENTION_SECONDS := by
  cases history with
  | nil => cases known
  | cons first rest =>
    obtain rfl := Option.some.inj known
    exact ⟨first, List.mem_cons_self, fold_expire _ _⟩

theorem mem_since {transid : Bytes} {turns : List Turn} {turn : Turn} (member : turn ∈ since transid turns) :
    turn ∈ turns ∧ turn.operates transid = true := by
  induction turns using List.reverseRecOn with
  | nil => cases member
  | append_singleton turns last ih =>
    rw [since_snoc] at member
    split_ifs at member with asks operates
    · cases member
    · rcases List.mem_append.mp member with before | here
      · exact ⟨List.mem_append_left _ (ih before).1, (ih before).2⟩
      · obtain rfl := List.mem_singleton.mp here
        exact ⟨by simp, operates⟩
    · exact ⟨List.mem_append_left _ (ih member).1, (ih member).2⟩

/-- No turn comes when an operation of the transaction is older than the retention time. -/
def Unexpired (transid : Bytes) (turns : List Turn) : Prop :=
  turns.Pairwise fun earlier later =>
    earlier.operates transid = true → later.clock.now < earlier.clock.later + RETENTION_SECONDS

theorem accounts_snoc {transid : Bytes} {turns : List Turn} {transactions : List Transaction}
    (accounts : Accounts transid turns transactions) (turn : Turn)
    (unexpired : ∀ earlier ∈ turns, earlier.operates transid = true →
      turn.clock.now < earlier.clock.later + RETENTION_SECONDS)
    (counted : turn.operates transid = true → 1 ≤ turn.req.count) :
    Accounts transid (turns ++ [turn]) (turn.process transactions).transactions := by
  have touched := process_touched turn transactions
  refine ⟨touched.distinct accounts.distinct, ?_⟩
  rw [touched.record accounts.distinct ?_ counted, accounts.record, since_snoc, recordAfter]
  · split_ifs
    · rfl
    · exact (summary_snoc transid _ turn).symm
    · rfl
  · intro trans member
    rw [accounts.record] at member
    obtain ⟨earlier, inside, expire⟩ := summary_expire member
    rw [expire]
    exact unexpired earlier (mem_since inside).1 (mem_since inside).2

theorem accounts_run {transid : Bytes} (turns : List Turn) (unexpired : Unexpired transid turns)
    (counted : ∀ turn ∈ turns, turn.operates transid = true → 1 ≤ turn.req.count) :
    Accounts transid turns (tableAfter turns) := by
  induction turns using List.reverseRecOn with
  | nil => exact ⟨List.nodup_nil, rfl⟩
  | append_singleton turns turn ih =>
    obtain ⟨before, -, young⟩ := List.pairwise_append.mp unexpired
    rw [tableAfter_snoc]
    exact accounts_snoc (ih before fun other member => counted other (List.mem_append_left _ member)) turn
      (fun earlier member => young earlier member turn (List.mem_singleton.mpr rfl)) (counted turn (by simp))

theorem cleanup_cleanup (transactions : List Transaction) (now : Int) :
    cleanupTransactions (cleanupTransactions transactions now) now = cleanupTransactions transactions now := by
  simp only [cleanupTransactions, List.filter_filter, Bool.and_self]

theorem process_cleanup (turn : Turn) {transid : Bytes} (asks : turn.asks transid = true) (transactions : List Transaction) :
    turn.process (cleanupTransactions transactions turn.clock.now) = turn.process transactions := by
  obtain ⟨status, named⟩ := (asks_iff turn transid).mp asks
  unfold Turn.process afmpkgRequestProcess processStatus
  simp only [status, named, getTransaction, cleanup_cleanup]

theorem toInt_opposite {fail : Nat} (small : fail < 2 ^ 31) : toInt (fail * (2 ^ 32 - 1) % 2 ^ 32) = -(fail : Int) := by
  have whole : fail * (2 ^ 32 - 1) + fail = fail * 2 ^ 32 := by
    rw [← Nat.mul_succ, Nat.succ_eq_add_one, Nat.sub_add_cancel Nat.one_le_two_pow]
  unfold toInt
  split <;> omega

/-- A request of status gets the counts of the operations of its transaction, that of the failures negated. -/
theorem status_replied {transid : Bytes} {before : List Turn} {turn first : Turn} {rest : List Turn}
    (unexpired : Unexpired transid (before ++ [turn]))
    (counted : ∀ turn ∈ before, turn.operates transid = true → 1 ≤ turn.req.count)
    (asks : turn.asks transid = true) (clear : turn.req.scode = 0) (history : since transid before = first :: rest)
    (few : (first :: rest).length < 2 ^ 31) (small : first.req.count < 2 ^ 31) (buffer : ReplyBuffer) :
    reply (turn.process (tableAfter before)).req buffer = KEY_OK ++ space :: (decimalText first.req.count ++
      space :: decimalText (successes (first :: rest)) ++ space :: decimalText (-(failures (first :: rest) : Int))) ++
        [newline] ∧
      recordOf (tableAfter (before ++ [turn])) transid = none := by
  obtain ⟨earlier, -, young⟩ := List.pairwise_append.mp unexpired
  have accounts := accounts_run before earlier counted
  obtain ⟨known, counts, count, success, fail⟩ := summary_counts transid first rest
  have record := accounts.record
  rw [history, counts] at record
  have unexpired' : ∀ trans ∈ recordOf (tableAfter before) transid, turn.clock.now < trans.expire := by
    intro trans member
    rw [record, ← counts, ← history] at member
    obtain ⟨turn', inside, expire⟩ := summary_expire member
    rw [expire]
    exact young turn' (mem_since inside).1 turn (List.mem_singleton.mpr rfl) (mem_since inside).2
  obtain ⟨status, named⟩ := (asks_iff turn transid).mp asks
  have kept := recordOf_cleanup unexpired'
  constructor
  · rw [← process_cleanup turn asks]
    rcases status_table turn _ transid status named (cleanup_cleanup _ _) with
      ⟨position, trans, _, same, _, req⟩ | ⟨absent, _⟩
    · rw [kept, record] at same
      obtain rfl := Option.some.inj same
      have wins : successes (first :: rest) ≤ (first :: rest).length := List.countP_le_length
      have losses : failures (first :: rest) ≤ (first :: rest).length := List.countP_le_length
      have printed : statusText known = decimalText first.req.count ++ space :: decimalText (successes (first :: rest)) ++
          space :: decimalText (-(failures (first :: rest) : Int)) := by
        simp only [statusText, intText, count, success, fail]
        rw [toInt_of_small _ small, Nat.mod_eq_of_lt (by omega), toInt_of_small _ (by omega : _ < 2 ^ 31),
          toInt_opposite (by omega)]
        rfl
      rw [req, reply_status turn.req clear known buffer, printed]
    · rw [kept, record] at absent
      cases absent
  · rw [tableAfter_snoc, (process_touched turn _).record accounts.distinct unexpired'
      (fun operates => absurd asks (by rw [operates_not_asks operates]; exact Bool.false_ne_true)), recordAfter, if_pos asks]

theorem since_filter {transid : Bytes} {turns : List Turn} (silent : ∀ turn ∈ turns, turn.asks transid = false) :
    since transid turns = turns.filter (Turn.operates transid) := by
  induction turns using List.reverseRecOn with
  | nil => rfl
  | append_singleton turns turn ih =>
    rw [since_snoc, silent turn (by simp), if_neg Bool.false_ne_true, List.filter_append, List.filter_singleton,
      ih fun other member => silent other (List.mem_append_left _ member)]
    cases turn.operates transid with
    | true => rfl
    | false => exact (List.append_nil _).symm

/-- The operations of a transaction are those of the clients it concerns, when these only ask for operations. -/
theorem since_connections {transid : Bytes} {connections : List Connection}
    (operate : ∀ connection ∈ connections.filter (Connection.concerns transid), ∀ turn ∈ connection.turn,
      turn.operates transid = true) :
    since transid (connections.filterMap Connection.turn) =
      (connections.filter (Connection.concerns transid)).filterMap Connection.turn := by
  have concerned {connection : Connection} {turn : Turn} (member : connection ∈ connections)
      (taken : connection.turn = some turn) (of : (turn.operates transid || turn.asks transid) = true) :
      turn.operates transid = true :=
    operate connection (List.mem_filter.mpr ⟨member, by rw [Connection.concerns, taken]; exact of⟩) turn taken
  rw [since_filter, List.filter_filterMap, List.filterMap_filter]
  · apply List.filterMap_congr
    intro connection member
    rw [Connection.concerns]
    cases taken : connection.turn with
    | none => rfl
    | some turn =>
      rw [Option.any_some, Option.filter_some]
      cases of : turn.operates transid || turn.asks transid with
      | true => rw [if_pos (concerned member taken of), if_pos rfl]
      | false => rw [if_neg (by simp [(Bool.or_eq_false_iff.mp of).1]), if_neg Bool.false_ne_true]
  · intro turn member
    obtain ⟨connection, inside, taken⟩ := List.mem_filterMap.mp member
    cases asks : turn.asks transid with
    | false => rfl
    | true =>
      have operates := concerned inside taken (by rw [asks, Bool.or_true])
      rw [operates_not_asks operates] at asks
      cases asks

theorem verdicts_filterMap (connections : List Connection) :
    successes (connections.filterMap Connection.turn) = connections.countP Connection.succeeds ∧
      failures (connections.filterMap Connection.turn) = connections.countP Connection.fails := by
  unfold successes failures
  rw [List.countP_filterMap, List.countP_filterMap]
  have same (p : Turn → Bool) (connection : Connection) :
      ((connection.turn.map p).getD false) = connection.turn.any p := by
    cases connection.turn <;> rfl
  simp only [same]
  exact ⟨rfl, rfl⟩

/-- The stream comes at once, then the client closes. -/
def Connection.Carries (connection : Connection) (text : Bytes) : Prop :=
  ∃ chunk : Chunk, chunk.1 = text ∧ connection.results = [.data chunk] ∧ connection.ending = .closed

theorem untilRejected_accepted (req : Request) (lines : List Bytes) (accepted : Accepted req lines) :
    untilRejected req lines = lines := by
  induction lines generalizing req with
  | nil => rfl
  | cons line rest ih =>
    obtain ⟨zero, later⟩ := (accepted_cons req line rest).mp accepted
    rw [untilRejected, if_neg (by omega), ih _ later]

theorem carries_turn {connection : Connection} {text : Bytes} (carries : connection.Carries text)
    (room : text.length ≤ RECEIVE_SIZE) (accepted : Accepted afmpkgRequestInit.2 (wholeLines newline text)) :
    connection.turn = some ⟨connection.operations, connection.clock,
      (addLines afmpkgRequestInit.2 (wholeLines newline text)).2⟩ := by
  obtain ⟨chunk, rfl, results, ending⟩ := carries
  obtain ⟨calls, stops⟩ := receiveData_first connection.buffer chunk room
  have received : connection.received = receiveData (.start connection.buffer afmpkgRequestInit.2) chunk := by
    rw [Connection.received, results, ending, receive, receiveLoop]
    split_ifs <;> rfl
  have tracks := tracks_receiveData _ chunk (tracks_start connection.buffer)
  rw [untilRejected_accepted _ _ accepted] at calls
  rw [Connection.turn, received, if_pos (by rw [← not_lt, stops]; exact not_not.mpr accepted), tracks.request, calls]

end AppManager.Afmpkg
