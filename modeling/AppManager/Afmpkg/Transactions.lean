import AppManager.Afmpkg.Reply
import AppManager.Lib.Decimal

/-! The accounting of transactions. The threads of the server update the table of
transactions one after the other, under its mutex: a run is the list of their turns. -/

namespace AppManager.Afmpkg
open AppManager.Lib AppManager.Lib.Libc

/-- A request that is processed, at the moment when it takes the mutex. -/
structure Turn where
  operations : Operations
  clock : Clock
  req : Request

namespace Turn

def process (turn : Turn) (transactions : List Transaction) : Processed :=
  afmpkgRequestProcess turn.operations turn.clock transactions turn.req

def rc (turn : Turn) : Int := turn.operations.result turn.req

/-- The turn is an operation on a package of that transaction. -/
def operates (transid : Bytes) (turn : Turn) : Bool :=
  (turn.req.kind = .addPackage ∨ turn.req.kind = .removePackage) ∧ turn.req.transid = some transid

/-- The turn asks for the status of that transaction. -/
def asks (transid : Bytes) (turn : Turn) : Bool :=
  turn.req.kind = .getStatus ∧ turn.req.transid = some transid

/-- A request of a transaction without error: an operation that has its count, or a
request of status. -/
structure Valid (turn : Turn) : Prop where
  clear : turn.req.scode = 0
  named : ∃ transid, turn.req.transid = some transid
  kind : (isOperation turn.req.kind ∧ 1 ≤ turn.req.count) ∨ turn.req.kind = .getStatus

end Turn

def tableAfter (turns : List Turn) : List Transaction :=
  turns.foldl (fun transactions turn => (turn.process transactions).transactions) []

/-- No record is older than the retention time when a turn comes. -/
def Retained (turns : List Turn) : Prop :=
  turns.Pairwise fun earlier later => later.clock.now < earlier.clock.later + RETENTION_SECONDS

/-- The operations of a transaction since its last request of status. -/
def since (transid : Bytes) (turns : List Turn) : List Turn :=
  turns.foldl (fun counted turn =>
    if turn.asks transid then [] else if turn.operates transid then counted ++ [turn] else counted) []

def recordOf (transactions : List Transaction) (transid : Bytes) : Option Transaction :=
  transactions.find? fun trans => trans.id = transid

def successes (turns : List Turn) : Nat := turns.countP (fun turn => 0 ≤ turn.rc)

def failures (turns : List Turn) : Nat := turns.countP (fun turn => turn.rc < 0)

def countsText (count success fail : Nat) : Bytes :=
  decimalText count ++ space :: decimalText success ++ space :: decimalText fail

/-- A request of status, after some turns, gets the counts of its transaction, whose
record is removed, and no other one is changed. -/
structure Accounted (buffer : ReplyBuffer) (before : List Turn) (turn first : Turn) (transid : Bytes) : Prop where
  replied : reply (turn.process (tableAfter before)).req buffer =
    KEY_OK ++ space :: countsText first.req.count (successes (since transid before))
      (failures (since transid before)) ++ [newline]
  removed : recordOf (tableAfter (before ++ [turn])) transid = none
  others : ∀ other, other ≠ transid →
    recordOf (tableAfter (before ++ [turn])) other = recordOf (tableAfter before) other

/-- No operation failed, and the counts fit in the type `int`. -/
structure Countable (history : List Turn) : Prop where
  succeeded : ∀ turn ∈ history, 0 ≤ turn.rc
  short : history.length < 2 ^ 31
  counted : ∀ first ∈ history.head?, first.req.count < 2 ^ 31

/-- The accounting of one operation in the record of its transaction. -/
def tally (rc : Int) (trans : Transaction) : Transaction :=
  if 0 ≤ rc then { trans with success := (trans.success + 1) % 2 ^ 32 }
  else { trans with fail := (trans.fail + 2 ^ 32 - 1) % 2 ^ 32 }

theorem tally_id (rc : Int) (trans : Transaction) : (tally rc trans).id = trans.id := by
  unfold tally
  split <;> rfl

theorem tally_expire (rc : Int) (trans : Transaction) : (tally rc trans).expire = trans.expire := by
  unfold tally
  split <;> rfl

theorem tally_count (rc : Int) (trans : Transaction) : (tally rc trans).count = trans.count := by
  unfold tally
  split <;> rfl

section
variable (transactions : List Transaction) (transid : Bytes) (position : Nat)

theorem recordOf_position
    (found : transactions.findIdx? (fun trans => trans.id = transid) = some position) :
    transactions[position]? = recordOf transactions transid := by
  induction transactions generalizing position with
  | nil => cases found
  | cons trans rest ih =>
    rw [List.findIdx?_cons] at found
    unfold recordOf at ih ⊢
    by_cases here : trans.id = transid
    · rw [decide_eq_true here, if_pos rfl, Option.some.injEq] at found
      subst found
      simp [here]
    · rw [decide_eq_false here, if_neg (by decide), Option.map_eq_some_iff] at found
      obtain ⟨before, earlier, same⟩ := found
      subst same
      rw [List.getElem?_cons_succ, ih before earlier, List.find?_cons_of_neg (by simpa using here)]

theorem recordOf_modify (change : Transaction → Transaction) (keeps : ∀ trans, (change trans).id = trans.id)
    (found : transactions.findIdx? (fun trans => trans.id = transid) = some position) (other : Bytes) :
    recordOf (transactions.modify position change) other =
      if other = transid then (recordOf transactions transid).map change else recordOf transactions other := by
  induction transactions generalizing position with
  | nil => cases found
  | cons trans rest ih =>
    rw [List.findIdx?_cons] at found
    unfold recordOf at ih ⊢
    by_cases here : trans.id = transid
    · rw [decide_eq_true here, if_pos rfl, Option.some.injEq] at found
      subst found
      rw [List.modify_zero_cons, List.find?_cons, List.find?_cons, List.find?_cons, keeps, here]
      by_cases same : other = transid
      · simp [same]
      · simp [same, Ne.symm same]
    · rw [decide_eq_false here, if_neg (by decide), Option.map_eq_some_iff] at found
      obtain ⟨before, earlier, next⟩ := found
      subst next
      rw [List.modify_succ_cons, List.find?_cons, List.find?_cons, List.find?_cons, decide_eq_false here,
        ih before earlier]
      by_cases same : other = transid
      · simp [same, here]
      · simp only [same, ↓reduceIte]

theorem recordOf_erase (distinct : (transactions.map (·.id)).Nodup)
    (found : transactions.findIdx? (fun trans => trans.id = transid) = some position) (other : Bytes) :
    recordOf (transactions.eraseIdx position) other =
      if other = transid then none else recordOf transactions other := by
  induction transactions generalizing position with
  | nil => cases found
  | cons trans rest ih =>
    rw [List.findIdx?_cons] at found
    rw [List.map_cons, List.nodup_cons] at distinct
    unfold recordOf at ih ⊢
    by_cases here : trans.id = transid
    · rw [decide_eq_true here, if_pos rfl, Option.some.injEq] at found
      subst found
      rw [List.eraseIdx_cons_zero, List.find?_cons, here]
      by_cases same : other = transid
      · rw [if_pos same, same, List.find?_eq_none]
        intro trans' member equal
        apply distinct.1
        rw [here, ← of_decide_eq_true equal]
        exact List.mem_map_of_mem member
      · simp [same, Ne.symm same]
    · rw [decide_eq_false here, if_neg (by decide), Option.map_eq_some_iff] at found
      obtain ⟨before, earlier, next⟩ := found
      subst next
      rw [List.eraseIdx_cons_succ, List.find?_cons, List.find?_cons, ih before distinct.2 earlier]
      by_cases same : other = transid
      · simp [same, here]
      · simp only [same, ↓reduceIte]

end

theorem map_modify {Field : Type} (field : Transaction → Field) (change : Transaction → Transaction)
    (keeps : ∀ trans, field (change trans) = field trans) (transactions : List Transaction) (position : Nat) :
    (transactions.modify position change).map field = transactions.map field := by
  induction transactions generalizing position with
  | nil => rw [List.modify_nil]
  | cons trans rest ih =>
    cases position with
    | zero => rw [List.modify_zero_cons, List.map_cons, List.map_cons, keeps]
    | succ position => rw [List.modify_succ_cons, List.map_cons, List.map_cons, ih]

theorem recordOf_eq_none (transactions : List Transaction) (transid : Bytes) :
    recordOf transactions transid = none ↔
      transactions.findIdx? (fun trans => trans.id = transid) = none := by
  simp [recordOf, List.find?_eq_none, List.findIdx?_eq_none_iff]

/-- The record that some operations of a transaction leave. -/
def summary (transid : Bytes) : List Turn → Option Transaction
  | [] => none
  | first :: rest => some ((first :: rest).foldl (fun trans turn => tally turn.rc trans)
      ⟨first.clock.later + RETENTION_SECONDS, first.req.count, 0, 0, transid⟩)

theorem summary_snoc (transid : Bytes) (history : List Turn) (turn : Turn) :
    summary transid (history ++ [turn]) =
      some (tally turn.rc ((summary transid history).getD
        ⟨turn.clock.later + RETENTION_SECONDS, turn.req.count, 0, 0, transid⟩)) := by
  cases history with
  | nil => rfl
  | cons first rest =>
    rw [List.cons_append, summary, summary, ← List.cons_append, List.foldl_concat, Option.getD_some]

theorem since_snoc (transid : Bytes) (turns : List Turn) (turn : Turn) :
    since transid (turns ++ [turn]) =
      if turn.asks transid then [] else if turn.operates transid then since transid turns ++ [turn]
      else since transid turns := by
  rw [since, List.foldl_concat]
  rfl

theorem tableAfter_snoc (turns : List Turn) (turn : Turn) :
    tableAfter (turns ++ [turn]) = (turn.process (tableAfter turns)).transactions := by
  rw [tableAfter, List.foldl_concat]
  rfl

/-- The table holds one record for each transaction since its last request of status. -/
structure Recorded (turns : List Turn) (transactions : List Transaction) : Prop where
  distinct : (transactions.map (·.id)).Nodup
  record : ∀ transid, recordOf transactions transid = summary transid (since transid turns)
  expires : ∀ expire ∈ transactions.map (·.expire), ∃ turn ∈ turns,
    expire = turn.clock.later + RETENTION_SECONDS

theorem cleanup_recorded (turns : List Turn) (transactions : List Transaction) (recorded : Recorded turns transactions)
    (now : Int) (young : ∀ earlier ∈ turns, now < earlier.clock.later + RETENTION_SECONDS) :
    cleanupTransactions transactions now = transactions := by
  rw [cleanupTransactions, List.filter_eq_self]
  intro trans member
  obtain ⟨turn, earlier, expire⟩ := recorded.expires trans.expire (List.mem_map_of_mem member)
  rw [decide_eq_true_eq, expire]
  exact young turn earlier

theorem operation_table (turn : Turn) (transactions : List Transaction) (transid : Bytes)
    (operation : isOperation turn.req.kind) (named : turn.req.transid = some transid) (counted : 1 ≤ turn.req.count)
    (young : cleanupTransactions transactions turn.clock.now = transactions) :
    (∃ position, transactions.findIdx? (fun trans => trans.id = transid) = some position ∧
      (turn.process transactions).transactions = transactions.modify position (tally turn.rc)) ∨
    (transactions.findIdx? (fun trans => trans.id = transid) = none ∧
      (turn.process transactions).transactions =
        tally turn.rc ⟨turn.clock.later + RETENTION_SECONDS, turn.req.count, 0, 0, transid⟩ :: transactions) := by
  have given : (concluded turn.operations turn.req).transid = some transid := by
    unfold concluded afmpkgRequestError
    split
    · split <;> exact named
    · exact named
  have count : (concluded turn.operations turn.req).count = turn.req.count := by
    unfold concluded afmpkgRequestError
    split
    · split <;> rfl
    · rfl
  have tallied : ∀ (kept : List Transaction) (position : Nat),
      (if 0 ≤ turn.rc
        then kept.modify position fun trans => { trans with success := (trans.success + 1) % 2 ^ 32 }
        else kept.modify position fun trans => { trans with fail := (trans.fail + 2 ^ 32 - 1) % 2 ^ 32 }) =
      kept.modify position (tally turn.rc) := by
    intro kept position
    unfold tally
    split <;> rfl
  unfold Turn.process
  rw [process_operation turn.operations turn.clock transactions turn.req operation, recordStatus, given, count]
  simp only [getTransaction, young]
  cases found : transactions.findIdx? (fun trans => trans.id = transid) with
  | some position => exact Or.inl ⟨position, rfl, tallied transactions position⟩
  | none =>
    refine Or.inr ⟨rfl, ?_⟩
    have positive : turn.req.count ≠ 0 := Nat.ne_of_gt counted
    simp only [ne_eq, positive, not_false_eq_true, ↓reduceIte]
    exact tallied _ 0

theorem operates_iff (turn : Turn) (transid : Bytes) :
    turn.operates transid = true ↔ isOperation turn.req.kind ∧ turn.req.transid = some transid := by
  simp [Turn.operates, isOperation]

theorem asks_iff (turn : Turn) (transid : Bytes) :
    turn.asks transid = true ↔ turn.req.kind = .getStatus ∧ turn.req.transid = some transid := by
  simp [Turn.asks]

theorem operation_not_status {kind : RequestKind} (operation : isOperation kind) : kind ≠ .getStatus := by
  rcases operation with add | remove
  · rw [add]
    decide
  · rw [remove]
    decide

theorem recorded_operation (turns : List Turn) (transactions : List Transaction)
    (recorded : Recorded turns transactions) (turn : Turn) (transid : Bytes) (operation : isOperation turn.req.kind)
    (named : turn.req.transid = some transid) (counted : 1 ≤ turn.req.count)
    (young : cleanupTransactions transactions turn.clock.now = transactions) :
    Recorded (turns ++ [turn]) (turn.process transactions).transactions := by
  have history : ∀ other, since other (turns ++ [turn]) =
      if other = transid then since transid turns ++ [turn] else since other turns := by
    intro other
    have silent : turn.asks other = false := by
      rw [← Bool.not_eq_true, asks_iff]
      exact fun both => operation_not_status operation both.1
    rw [since_snoc, silent, if_neg (by decide)]
    by_cases same : other = transid
    · rw [if_pos ((operates_iff turn other).mpr ⟨operation, by rw [same]; exact named⟩), if_pos same, same]
    · rw [if_neg, if_neg same]
      rw [operates_iff, named]
      exact fun both => same (Option.some.inj both.2).symm
  have old := recorded.record transid
  rcases operation_table turn transactions transid operation named counted young with
    ⟨position, found, result⟩ | ⟨absent, result⟩
  · have present : summary transid (since transid turns) ≠ none := by
      rw [← old, ne_eq, recordOf_eq_none, found]
      simp
    obtain ⟨trans, known⟩ := Option.ne_none_iff_exists'.mp present
    rw [result]
    refine ⟨?_, ?_, ?_⟩
    · rw [map_modify _ _ (tally_id turn.rc)]
      exact recorded.distinct
    · intro other
      rw [recordOf_modify transactions transid position _ (tally_id turn.rc) found, history]
      by_cases same : other = transid
      · rw [if_pos same, if_pos same, same, old, summary_snoc, known]
        rfl
      · rw [if_neg same, if_neg same]
        exact recorded.record other
    · rw [map_modify _ _ (tally_expire turn.rc)]
      intro expire member
      obtain ⟨earlier, inside, same⟩ := recorded.expires expire member
      exact ⟨earlier, List.mem_append_left _ inside, same⟩
  · have none : summary transid (since transid turns) = none := by
      rw [← old, recordOf_eq_none]
      exact absent
    rw [result]
    refine ⟨?_, ?_, ?_⟩
    · rw [List.map_cons, List.nodup_cons, tally_id]
      refine ⟨?_, recorded.distinct⟩
      intro member
      obtain ⟨trans, inside, same⟩ := List.mem_map.mp member
      have other := (List.findIdx?_eq_none_iff.mp absent) trans inside
      exact absurd same (of_decide_eq_false other)
    · intro other
      rw [recordOf, List.find?_cons, tally_id, history]
      by_cases same : other = transid
      · rw [if_pos same, same, decide_eq_true rfl, summary_snoc, none]
        rfl
      · rw [if_neg same, decide_eq_false (Ne.symm same)]
        exact recorded.record other
    · intro expire member
      rw [List.map_cons, List.mem_cons, tally_expire] at member
      rcases member with own | earlier
      · exact ⟨turn, by simp, own⟩
      · obtain ⟨before, inside, same⟩ := recorded.expires expire earlier
        exact ⟨before, List.mem_append_left _ inside, same⟩

theorem status_table (turn : Turn) (transactions : List Transaction) (transid : Bytes)
    (status : turn.req.kind = .getStatus) (named : turn.req.transid = some transid)
    (young : cleanupTransactions transactions turn.clock.now = transactions) :
    (∃ position trans, transactions.findIdx? (fun trans => trans.id = transid) = some position ∧
      recordOf transactions transid = some trans ∧
      (turn.process transactions).transactions = transactions.eraseIdx position ∧
      (turn.process transactions).req =
        { turn.req with scratch := some (statusText trans), msg := some (statusText trans) }) ∨
    (recordOf transactions transid = none ∧ (turn.process transactions).transactions = transactions) := by
  unfold Turn.process afmpkgRequestProcess processStatus
  simp only [status, named, getTransaction, young]
  cases found : transactions.findIdx? (fun trans => trans.id = transid) with
  | some position =>
    have cell := recordOf_position transactions transid position found
    cases known : recordOf transactions transid with
    | none =>
      rw [recordOf_eq_none, found] at known
      cases known
    | some trans =>
      refine Or.inl ⟨position, trans, rfl, rfl, rfl, ?_⟩
      simp only [cell, known, Option.map_some, Option.getD_some]
  | none => exact Or.inr ⟨(recordOf_eq_none transactions transid).mpr found, rfl⟩

theorem status_others (turn : Turn) (transactions : List Transaction) (transid : Bytes)
    (status : turn.req.kind = .getStatus) (named : turn.req.transid = some transid)
    (young : cleanupTransactions transactions turn.clock.now = transactions)
    (distinct : (transactions.map (·.id)).Nodup) (other : Bytes) :
    recordOf (turn.process transactions).transactions other =
      if other = transid then none else recordOf transactions other := by
  rcases status_table turn transactions transid status named young with
    ⟨position, trans, found, _, result, _⟩ | ⟨absent, result⟩
  · rw [result]
    exact recordOf_erase transactions transid position distinct found other
  · rw [result]
    by_cases same : other = transid
    · rw [if_pos same, same]
      exact absent
    · rw [if_neg same]

theorem recorded_status (turns : List Turn) (transactions : List Transaction)
    (recorded : Recorded turns transactions) (turn : Turn) (transid : Bytes) (status : turn.req.kind = .getStatus)
    (named : turn.req.transid = some transid)
    (young : cleanupTransactions transactions turn.clock.now = transactions) :
    Recorded (turns ++ [turn]) (turn.process transactions).transactions := by
  have fewer : (turn.process transactions).transactions.Sublist transactions := by
    rcases status_table turn transactions transid status named young with
      ⟨position, trans, _, _, result, _⟩ | ⟨_, result⟩
    · rw [result]
      exact List.eraseIdx_sublist transactions position
    · rw [result]
  refine ⟨recorded.distinct.sublist (fewer.map _), ?_, ?_⟩
  · intro other
    have idle : turn.operates other = false := by
      rw [← Bool.not_eq_true, operates_iff]
      exact fun both => operation_not_status both.1 status
    rw [status_others turn transactions transid status named young recorded.distinct, since_snoc, idle]
    by_cases same : other = transid
    · rw [if_pos same, if_pos ((asks_iff turn other).mpr ⟨status, by rw [same]; exact named⟩)]
      rfl
    · rw [if_neg same, if_neg, if_neg (by decide)]
      · exact recorded.record other
      · rw [asks_iff, named]
        exact fun both => same (Option.some.inj both.2).symm
  · intro expire member
    obtain ⟨earlier, inside, same⟩ := recorded.expires expire ((fewer.map _).subset member)
    exact ⟨earlier, List.mem_append_left _ inside, same⟩

theorem recorded_run (turns : List Turn) (valid : ∀ turn ∈ turns, turn.Valid) (retained : Retained turns) :
    Recorded turns (tableAfter turns) := by
  induction turns using List.reverseRecOn with
  | nil => exact ⟨List.nodup_nil, fun _ => rfl, by simp [tableAfter]⟩
  | append_singleton turns turn ih =>
    obtain ⟨before, -, young⟩ := List.pairwise_append.mp retained
    have recorded := ih (fun other member => valid other (List.mem_append_left _ member)) before
    have kept := cleanup_recorded turns _ recorded turn.clock.now
      (fun earlier member => young earlier member turn (List.mem_singleton.mpr rfl))
    have last := valid turn (by simp)
    obtain ⟨transid, named⟩ := last.named
    rw [tableAfter_snoc]
    rcases last.kind with ⟨operation, counted⟩ | status
    · exact recorded_operation turns _ recorded turn transid operation named counted kept
    · exact recorded_status turns _ recorded turn transid status named kept

theorem tally_fold (history : List Turn) (trans : Transaction) (success : trans.success < 2 ^ 32)
    (fail : trans.fail < 2 ^ 32) :
    (history.foldl (fun trans turn => tally turn.rc trans) trans).count = trans.count ∧
    (history.foldl (fun trans turn => tally turn.rc trans) trans).success =
      (trans.success + successes history) % 2 ^ 32 ∧
    (history.foldl (fun trans turn => tally turn.rc trans) trans).fail =
      (trans.fail + failures history * (2 ^ 32 - 1)) % 2 ^ 32 := by
  induction history generalizing trans with
  | nil =>
    simp only [successes, failures, List.foldl_nil, List.countP_nil, Nat.zero_mul, Nat.add_zero,
      Nat.mod_eq_of_lt success, Nat.mod_eq_of_lt fail, and_self]
  | cons turn rest ih =>
    have wins : successes (turn :: rest) = successes rest + if 0 ≤ turn.rc then 1 else 0 := by
      simp [successes, List.countP_cons]
    have losses : failures (turn :: rest) = failures rest + if turn.rc < 0 then 1 else 0 := by
      simp [failures, List.countP_cons]
    rw [List.foldl_cons, wins, losses]
    by_cases good : 0 ≤ turn.rc
    · have next := ih (tally turn.rc trans)
        (by rw [tally, if_pos good]; exact Nat.mod_lt _ (by decide)) (by rw [tally, if_pos good]; exact fail)
      rw [tally_count] at next
      obtain ⟨count, success', fail'⟩ := next
      refine ⟨count, success'.trans ?_, fail'.trans ?_⟩
      · rw [tally, if_pos good, if_pos good]
        simp only
        omega
      · rw [tally, if_pos good, if_neg (by omega)]
        rfl
    · have next := ih (tally turn.rc trans)
        (by rw [tally, if_neg good]; exact success) (by rw [tally, if_neg good]; exact Nat.mod_lt _ (by decide))
      rw [tally_count] at next
      obtain ⟨count, success', fail'⟩ := next
      refine ⟨count, success'.trans ?_, fail'.trans ?_⟩
      · rw [tally, if_neg good, if_neg good]
        rfl
      · rw [tally, if_neg good, if_pos (by omega)]
        simp only
        omega

theorem summary_counts (transid : Bytes) (first : Turn) (rest : List Turn) :
    ∃ trans, summary transid (first :: rest) = some trans ∧ trans.count = first.req.count ∧
      trans.success = successes (first :: rest) % 2 ^ 32 ∧
      trans.fail = failures (first :: rest) * (2 ^ 32 - 1) % 2 ^ 32 := by
  obtain ⟨count, success, fail⟩ := tally_fold (first :: rest)
    ⟨first.clock.later + RETENTION_SECONDS, first.req.count, 0, 0, transid⟩ (Nat.two_pow_pos 32) (Nat.two_pow_pos 32)
  rw [Nat.zero_add] at success fail
  exact ⟨_, rfl, count, success, fail⟩

theorem toInt_eq_iff (value : Nat) : toInt value = value ↔ value < 2 ^ 31 := by
  constructor
  · intro same
    have bound := toInt_lt value
    omega
  · exact toInt_of_small value

theorem counts_iff (count success fail : Nat) :
    (toInt count = count ∧ toInt (success % 2 ^ 32) = success ∧ toInt (fail * (2 ^ 32 - 1) % 2 ^ 32) = fail) ↔
      count < 2 ^ 31 ∧ success < 2 ^ 31 ∧ fail = 0 := by
  have whole : toInt (success % 2 ^ 32) = success ↔ success < 2 ^ 31 := by
    unfold toInt
    split <;> omega
  have opposite : (fail * (2 ^ 32 - 1) % 2 ^ 32 + fail) % 2 ^ 32 = 0 := by
    have multiple : fail * (2 ^ 32 - 1) + fail = fail * 2 ^ 32 := by
      rw [← Nat.mul_succ, Nat.succ_eq_add_one, Nat.sub_add_cancel (Nat.one_le_two_pow)]
    rw [Nat.mod_add_mod, multiple, Nat.mul_mod_left]
  have below : fail * (2 ^ 32 - 1) % 2 ^ 32 < 2 ^ 32 := Nat.mod_lt _ (Nat.two_pow_pos 32)
  have none : toInt (fail * (2 ^ 32 - 1) % 2 ^ 32) = fail ↔ fail = 0 := by
    generalize fail * (2 ^ 32 - 1) % 2 ^ 32 = printed at opposite below
    unfold toInt
    split <;> omega
  rw [toInt_eq_iff, whole, none]

theorem space_not_mem_decimalText (value : Int) : space ∉ decimalText value :=
  not_mem_decimalText space (by decide) (by decide) value

theorem numbers_injective {first second third first' second' third' : Int}
    (same : decimalText first ++ space :: decimalText second ++ space :: decimalText third =
      decimalText first' ++ space :: decimalText second' ++ space :: decimalText third') :
    first = first' ∧ second = second' ∧ third = third' := by
  have fields : ∀ left left' right right' : Bytes, space ∉ left → space ∉ left' →
      left ++ space :: right = left' ++ space :: right' → left = left' ∧ right = right' := by
    intro left left' right right' plain plain' equal
    have heads := congrArg (List.takeWhile (· != space)) equal
    rw [takeWhile_stop _ _ _ plain, takeWhile_stop _ _ _ plain'] at heads
    rw [heads, List.append_cancel_left_eq, List.cons.injEq] at equal
    exact ⟨heads, equal.2⟩
  rw [List.append_assoc, List.append_assoc, List.cons_append, List.cons_append] at same
  obtain ⟨one, rest⟩ := fields _ _ _ _ (space_not_mem_decimalText _) (space_not_mem_decimalText _) same
  obtain ⟨two, three⟩ := fields _ _ _ _ (space_not_mem_decimalText _) (space_not_mem_decimalText _) rest
  exact ⟨decimalText_injective one, decimalText_injective two, decimalText_injective three⟩

theorem intText_length (value : Nat) : (intText value).length ≤ 11 := by
  have digits : ∀ number : Nat, number < 10 ^ 10 → (decimalText (number : Int)).length ≤ 10 := by
    intro number small
    rw [decimalText_natCast, ascii, List.length_map, String.length_toList]
    exact (Nat.length_repr_le_iff (by decide)).mpr small
  change (decimalText (toInt value)).length ≤ 11
  unfold toInt
  have residue : value % 2 ^ 32 < 2 ^ 32 := Nat.mod_lt _ (Nat.two_pow_pos 32)
  split
  · exact (digits _ (by omega)).trans (by decide)
  · next high =>
    obtain ⟨number, negative⟩ := Int.eq_negSucc_of_lt_zero
      (by omega : ((value % 2 ^ 32 : Nat) : Int) - 2 ^ 32 < 0)
    have bound : number + 1 < 10 ^ 10 := by omega
    rw [negative, decimalText_negative, List.length_append]
    have rest := digits (number + 1) bound
    change 1 + _ ≤ 11
    omega

theorem cstr_statusText (trans : Transaction) : cstr (statusText trans) = statusText trans := by
  have clean : ∀ value, (0 : Byte) ∉ intText value :=
    fun value => not_mem_decimalText 0 (by decide) (by decide) (toInt value)
  apply cstr_of_no_nul
  simp only [statusText, List.mem_append, List.mem_cons, not_or]
  exact ⟨⟨clean _, by decide, clean _⟩, by decide, clean _⟩

theorem reply_status (req : Request) (clear : req.scode = 0) (trans : Transaction) (buffer : ReplyBuffer) :
    reply { req with scratch := some (statusText trans), msg := some (statusText trans) } buffer =
      KEY_OK ++ space :: statusText trans ++ [newline] := by
  have text : replyText { req with scratch := some (statusText trans), msg := some (statusText trans) } =
      KEY_OK ++ space :: statusText trans ++ [newline] := by
    have some : statusText trans ≠ [] := by simp [statusText]
    simp only [replyText, clear, le_refl, ↓reduceIte, cstr_statusText, if_neg some]
  have short : (KEY_OK ++ space :: statusText trans ++ [newline]).length < REPLY_SIZE := by
    have count := intText_length trans.count
    have success := intText_length trans.success
    have fail := intText_length trans.fail
    have head : KEY_OK.length = 2 := by decide
    simp only [statusText, List.length_append, List.length_cons, List.length_nil, head]
    unfold REPLY_SIZE
    omega
  rw [reply_eq, text, if_neg (not_le.mpr short)]

theorem accounted_iff (buffer : ReplyBuffer) (before : List Turn) (turn first : Turn) (rest : List Turn)
    (transid : Bytes) (recorded : Recorded before (tableAfter before))
    (young : cleanupTransactions (tableAfter before) turn.clock.now = tableAfter before)
    (clear : turn.req.scode = 0) (asks : turn.asks transid = true)
    (history : since transid before = first :: rest) :
    Accounted buffer before turn first transid ↔ Countable (since transid before) := by
  obtain ⟨status, named⟩ := (asks_iff turn transid).mp asks
  obtain ⟨known, counts, count, success, fail⟩ := summary_counts transid first rest
  have others := status_others turn (tableAfter before) transid status named young recorded.distinct
  have record := recorded.record transid
  rw [history, counts] at record
  have printed : reply (turn.process (tableAfter before)).req buffer =
      KEY_OK ++ space :: statusText known ++ [newline] := by
    rcases status_table turn (tableAfter before) transid status named young with
      ⟨position, trans, _, same, _, req⟩ | ⟨absent, _⟩
    · rw [req, ← Option.some.inj (record.symm.trans same)]
      exact reply_status turn.req clear known buffer
    · rw [absent] at record
      cases record
  have texts : KEY_OK ++ space :: statusText known ++ [newline] =
      KEY_OK ++ space :: countsText first.req.count (successes (since transid before))
        (failures (since transid before)) ++ [newline] ↔
      first.req.count < 2 ^ 31 ∧ successes (since transid before) < 2 ^ 31 ∧
        failures (since transid before) = 0 := by
    rw [← counts_iff, history, List.append_cancel_right_eq, List.append_cancel_left_eq, List.cons.injEq,
      statusText, countsText, count, success, fail]
    constructor
    · intro same
      exact numbers_injective same.2
    · intro same
      obtain ⟨one, two, three⟩ := same
      refine ⟨rfl, ?_⟩
      simp only [intText]
      rw [one, two, three]
      rfl
  have split : successes (since transid before) + failures (since transid before) =
      (since transid before).length := by
    rw [successes, failures, List.length_eq_countP_add_countP (fun turn : Turn => decide (0 ≤ turn.rc))]
    simp
  have none : failures (since transid before) = 0 ↔ ∀ turn ∈ since transid before, 0 ≤ turn.rc := by
    simp [failures, List.countP_eq_zero]
  constructor
  · intro accounted
    have replied := accounted.replied
    rw [printed, texts] at replied
    obtain ⟨small, some, zero⟩ := replied
    refine ⟨none.mp zero, by omega, ?_⟩
    intro other head
    rw [history, List.head?_cons, Option.mem_some_iff] at head
    rw [← head]
    exact small
  · intro countable
    have zero := none.mpr countable.succeeded
    have short := countable.short
    refine ⟨?_, ?_, ?_⟩
    · rw [printed, texts]
      exact ⟨countable.counted first (by rw [history]; rfl), by omega, zero⟩
    · rw [tableAfter_snoc, others, if_pos rfl]
    · intro other differs
      rw [tableAfter_snoc, others, if_neg differs]

/-- In a run within the retention time, all the requests of status get their counts
exactly when each of them comes after operations that all succeeded. -/
theorem statuses_accounted_iff (buffer : ReplyBuffer) (turns : List Turn) (valid : ∀ turn ∈ turns, turn.Valid)
    (retained : Retained turns) :
    (∀ before turn after transid first rest, turns = before ++ turn :: after → turn.asks transid = true →
      since transid before = first :: rest → Accounted buffer before turn first transid) ↔
    (∀ before turn after transid, turns = before ++ turn :: after → turn.asks transid = true →
      Countable (since transid before)) := by
  have each : ∀ before turn after transid first rest, turns = before ++ turn :: after →
      turn.asks transid = true → since transid before = first :: rest →
      (Accounted buffer before turn first transid ↔ Countable (since transid before)) := by
    intro before turn after transid first rest whole asks history
    subst whole
    obtain ⟨earlier, -, young⟩ := List.pairwise_append.mp retained
    have recorded := recorded_run before (fun other member => valid other (List.mem_append_left _ member)) earlier
    have kept := cleanup_recorded before _ recorded turn.clock.now
      (fun other member => young other member turn List.mem_cons_self)
    exact accounted_iff buffer before turn first rest transid recorded kept (valid turn (by simp)).clear asks history
  constructor
  · intro all before turn after transid whole asks
    cases history : since transid before with
    | nil => exact ⟨by simp, by simp, by simp⟩
    | cons first rest =>
      rw [← history]
      exact (each before turn after transid first rest whole asks history).mp
        (all before turn after transid first rest whole asks history)
  · intro all before turn after transid first rest whole asks history
    exact (each before turn after transid first rest whole asks history).mpr
      (all before turn after transid whole asks)

/-- An operation of transaction `t`, of two packages, with that result. -/
def sampleAdd (rc : Int) : Turn :=
  ⟨⟨fun _ => rc, fun _ => rc⟩, ⟨0, 0⟩,
    { afmpkgRequestInit.2 with kind := .addPackage, count := 2, transid := some (ascii "t") }⟩

def sampleStatus : Turn :=
  ⟨⟨fun _ => 0, fun _ => 0⟩, ⟨0, 0⟩,
    { afmpkgRequestInit.2 with kind := .getStatus, state := .ready, transid := some (ascii "t") }⟩

theorem sample_valid (rc : Int) : ∀ turn ∈ [sampleAdd rc, sampleStatus], turn.Valid := by
  intro turn member
  rw [List.mem_pair] at member
  rcases member with add | status
  · rw [add]
    exact ⟨rfl, ⟨_, rfl⟩, Or.inl ⟨Or.inl rfl, (by decide : 1 ≤ 2)⟩⟩
  · rw [status]
    exact ⟨rfl, ⟨_, rfl⟩, Or.inr rfl⟩

theorem sample_retained (rc : Int) : Retained [sampleAdd rc, sampleStatus] := by
  have young : ∀ turn ∈ [sampleStatus],
      turn.clock.now < (sampleAdd rc).clock.later + RETENTION_SECONDS := by
    intro turn member
    rw [List.mem_singleton.mp member]
    exact (by decide : (0 : Int) < 0 + RETENTION_SECONDS)
  exact List.pairwise_cons.mpr ⟨young, List.pairwise_singleton _ _⟩

/-- Of the two packages of a transaction, one was installed. -/
theorem sample_accounted :
    (∀ turn ∈ [sampleAdd 0, sampleStatus], turn.Valid) ∧ Retained [sampleAdd 0, sampleStatus] ∧
      Accounted zeroReply [sampleAdd 0] sampleStatus (sampleAdd 0) (ascii "t") := by
  refine ⟨sample_valid 0, sample_retained 0,
    (statuses_accounted_iff zeroReply [sampleAdd 0, sampleStatus] (sample_valid 0) (sample_retained 0)).mpr ?_
      [sampleAdd 0] sampleStatus [] (ascii "t") (sampleAdd 0) [] rfl (by decide) (by rfl)⟩
  intro before turn after transid whole asks
  cases before with
  | nil => exact ⟨by simp [since], by simp [since], by simp [since]⟩
  | cons head before =>
    rw [List.cons_append, List.cons.injEq] at whole
    cases before with
    | nil =>
      have history : since transid [head] = [] ∨ since transid [head] = [sampleAdd 0] := by
        rw [← whole.1]
        simp only [since, List.foldl_cons, List.foldl_nil]
        split
        · exact Or.inl rfl
        · split
          · exact Or.inr rfl
          · exact Or.inl rfl
      rcases history with none | one
      · rw [none]
        exact ⟨by simp, by simp, by simp⟩
      · rw [one]
        exact ⟨by simp [sampleAdd, Turn.rc, Operations.result], by simp, by simp [sampleAdd]⟩
    | cons other before =>
      have lengths := congrArg List.length whole.2
      simp only [List.length_append, List.length_cons, List.length_nil] at lengths
      omega

/-- A package failed: the status of its transaction tells of `-1` failures. -/
theorem failure_miscounted :
    ¬∀ (buffer : ReplyBuffer) (turns : List Turn) (_ : ∀ turn ∈ turns, turn.Valid) (_ : Retained turns),
      ∀ before turn after transid first rest, turns = before ++ turn :: after → turn.asks transid = true →
        since transid before = first :: rest → Accounted buffer before turn first transid := by
  intro all
  have accounted := all zeroReply [sampleAdd (-1), sampleStatus] (sample_valid (-1)) (sample_retained (-1))
    [sampleAdd (-1)] sampleStatus [] (ascii "t") (sampleAdd (-1)) [] rfl (by decide) (by rfl)
  have text := accounted.replied
  rw [reply_eq] at text
  exact absurd text (by decide)

end AppManager.Afmpkg
