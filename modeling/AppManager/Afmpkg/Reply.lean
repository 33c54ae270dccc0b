import AppManager.Afmpkg.Serve

/-! The line of the reply, and the verdict that it gives on a package: the result of the
operation, after the accounting of its transaction. -/

namespace AppManager.Afmpkg
open AppManager.Lib AppManager.Lib.Libc

def replyText (req : Request) : Bytes :=
  (if 0 ≤ req.scode then KEY_OK else KEY_ERROR) ++
    (match req.msg with
      | none => []
      | some msg => if cstr msg = [] then [] else space :: cstr msg) ++ [newline]

theorem makeReplyLine_eq (req : Request) (line : Bytes) :
    afmpkgRequestMakeReplyLine req line =
      (if (replyText req).length < line.length
        then (store line 0 ((replyText req).take line.length)).set (replyText req).length 0
        else store line 0 ((replyText req).take line.length), (replyText req).length) := by
  have head : copyOut line 0 (if 0 ≤ req.scode then KEY_OK else KEY_ERROR) =
      (store line 0 ((if 0 ≤ req.scode then KEY_OK else KEY_ERROR).take line.length),
        (if 0 ≤ req.scode then KEY_OK else KEY_ERROR).length) := by
    simpa [store_zero] using copyOut_spec line [] (if 0 ≤ req.scode then KEY_OK else KEY_ERROR)
  unfold afmpkgRequestMakeReplyLine replyText
  rw [head]
  cases req.msg with
  | none => simp only [copyOut_spec, List.append_nil]
  | some msg =>
    by_cases empty : cstr msg = []
    · simp only [if_pos empty, copyOut_spec, List.append_nil]
    · simp only [if_neg empty, copyOut_spec]

theorem reply_eq (req : Request) (buffer : ReplyBuffer) :
    reply req buffer =
      if REPLY_SIZE ≤ (replyText req).length then (replyText req).take (REPLY_SIZE - 1) ++ [newline]
      else replyText req := by
  have size := buffer.2
  unfold reply
  rw [makeReplyLine_eq]
  simp only [size]
  by_cases long : REPLY_SIZE ≤ (replyText req).length
  · have whole : store buffer.1 0 ((replyText req).take REPLY_SIZE) = (replyText req).take REPLY_SIZE := by
      rw [store_zero, List.drop_eq_nil_of_le, List.append_nil]
      rw [List.length_take, size]
      omega
    rw [if_pos long, if_neg (not_lt.mpr long), if_pos long, whole]
    have last : (replyText req).take REPLY_SIZE =
        (replyText req).take (REPLY_SIZE - 1) ++ ((replyText req).take REPLY_SIZE).drop (REPLY_SIZE - 1) := by
      conv_lhs => rw [← List.take_append_drop (REPLY_SIZE - 1) ((replyText req).take REPLY_SIZE)]
      rw [List.take_take, Nat.min_eq_left (Nat.sub_le REPLY_SIZE 1)]
    have cell : (((replyText req).take REPLY_SIZE).drop (REPLY_SIZE - 1)).length = 1 := by
      rw [List.length_drop, List.length_take]
      unfold REPLY_SIZE at long ⊢
      omega
    obtain ⟨byte, single⟩ := List.length_eq_one_iff.mp cell
    rw [last, single, List.set_append_right _ _ (by rw [List.length_take]; omega), List.length_take,
      Nat.min_eq_left (by omega), Nat.sub_self, List.set_cons_zero]
  · have short := not_le.mp long
    rw [if_neg long, if_pos short, if_neg long, List.take_set_of_le le_rfl, List.take_of_length_le short.le,
      store_zero, List.take_left]

theorem reply_verdict (req : Request) (buffer : ReplyBuffer) :
    (if 0 ≤ req.scode then KEY_OK else KEY_ERROR) <+: reply req buffer := by
  have start : (if 0 ≤ req.scode then KEY_OK else KEY_ERROR) <+: replyText req := by
    rw [replyText, List.append_assoc]
    exact List.prefix_append _ _
  have short : (if 0 ≤ req.scode then KEY_OK else KEY_ERROR).length ≤ REPLY_SIZE - 1 := by
    split <;> decide
  rw [reply_eq]
  by_cases long : REPLY_SIZE ≤ (replyText req).length
  · rw [if_pos long]
    apply List.IsPrefix.trans _ (List.prefix_append _ _)
    exact List.prefix_take_iff.mpr ⟨start, short⟩
  · rw [if_neg long]
    exact start

theorem reply_verdict_iff (req : Request) (buffer : ReplyBuffer) :
    (KEY_OK <+: reply req buffer ↔ 0 ≤ req.scode) ∧ (KEY_ERROR <+: reply req buffer ↔ req.scode < 0) := by
  have verdict := reply_verdict req buffer
  have differ : ∀ text : Bytes, KEY_OK <+: text → ¬KEY_ERROR <+: text := by
    intro text ok error
    have shorter := List.prefix_of_prefix_length_le ok error (by decide)
    exact absurd shorter (by decide)
  by_cases ok : 0 ≤ req.scode
  · rw [if_pos ok] at verdict
    exact ⟨iff_of_true verdict ok, iff_of_false (differ _ verdict) (not_lt.mpr ok)⟩
  · rw [if_neg ok] at verdict
    exact ⟨iff_of_false (fun start => differ _ start verdict) ok, iff_of_true verdict (not_le.mp ok)⟩

def Operations.result (operations : Operations) (req : Request) : Int :=
  if req.kind = .addPackage then operations.install req.apkg else operations.uninstall req.apkg

/-- The request is of a transaction that is neither recorded nor to be recorded. -/
def Unrecorded (clock : Clock) (transactions : List Transaction) (req : Request) : Prop :=
  ∃ transid, req.transid = some transid ∧ req.count = 0 ∧
    ∀ trans ∈ transactions, clock.now < trans.expire → trans.id ≠ transid

/-- The request after an operation on its package. -/
def concluded (operations : Operations) (req : Request) : Request :=
  if operations.result req < 0 then
    (afmpkgRequestError req (operations.result req)
      (if req.kind = .addPackage then ascii "can't install" else ascii "can't uninstall")).2
  else req

theorem process_operation (operations : Operations) (clock : Clock) (transactions : List Transaction)
    (req : Request) (operation : isOperation req.kind) :
    afmpkgRequestProcess operations clock transactions req =
      recordStatus clock transactions (concluded operations req) (operations.result req)
        [if req.kind = .addPackage then .install req.apkg else .uninstall req.apkg] := by
  unfold afmpkgRequestProcess concluded Operations.result
  rcases operation with add | remove
  · simp only [add, processPackage, ↓reduceIte]
  · simp only [remove, processPackage, reduceCtorEq, ↓reduceIte]

theorem getTransaction_none_iff (transactions : List Transaction) (clock : Clock) (transid : Bytes) (count : Nat) :
    (getTransaction transactions clock transid count).2 = none ↔
      count = 0 ∧ ∀ trans ∈ transactions, clock.now < trans.expire → trans.id ≠ transid := by
  have absent : (cleanupTransactions transactions clock.now).findIdx? (fun trans => trans.id = transid) = none ↔
      ∀ trans ∈ transactions, clock.now < trans.expire → trans.id ≠ transid := by
    simp only [List.findIdx?_eq_none_iff, cleanupTransactions, List.mem_filter, decide_eq_true_eq,
      decide_eq_false_iff_not, and_imp, ne_eq]
  unfold getTransaction
  simp only
  cases found : (cleanupTransactions transactions clock.now).findIdx? (fun trans => trans.id = transid) with
  | some position =>
    apply iff_of_false
    · simp
    · intro both
      rw [absent.mpr both.2] at found
      cases found
  | none =>
    by_cases zero : count = 0
    · simp only [zero, ne_eq, not_true_eq_false, ↓reduceIte, true_and]
      exact iff_of_true trivial (absent.mp found)
    · simp [zero]

theorem recordStatus_req (clock : Clock) (transactions : List Transaction) (req : Request) (rc : Int)
    (actions : List Action) :
    (Unrecorded clock transactions req ∧ (recordStatus clock transactions req rc actions).req =
      (afmpkgRequestError req (-ENOMEM) (ascii "out of memory")).2) ∨
    (¬Unrecorded clock transactions req ∧ (recordStatus clock transactions req rc actions).req = req) := by
  unfold recordStatus Unrecorded
  cases given : req.transid with
  | none => exact Or.inr ⟨by simp, rfl⟩
  | some transid =>
    have iff := getTransaction_none_iff transactions clock transid req.count
    simp only
    cases found : getTransaction transactions clock transid req.count with
    | mk kept position =>
      rw [found] at iff
      cases position with
      | none => exact Or.inl ⟨⟨transid, rfl, iff.mp rfl⟩, rfl⟩
      | some position =>
        refine Or.inr ⟨?_, rfl⟩
        intro unrecorded
        obtain ⟨other, same, rest⟩ := unrecorded
        cases same
        cases iff.mpr rest

theorem concluded_scode (operations : Operations) (req : Request) (clear : req.scode = 0) :
    (concluded operations req).scode = if operations.result req < 0 then operations.result req else 0 := by
  unfold concluded
  split
  · rw [afmpkgRequestError, if_pos clear]
  · exact clear

theorem concluded_unrecorded (clock : Clock) (transactions : List Transaction) (operations : Operations)
    (req : Request) :
    Unrecorded clock transactions (concluded operations req) ↔ Unrecorded clock transactions req := by
  unfold concluded afmpkgRequestError
  split
  · split <;> rfl
  · rfl

/-- The reply is the verdict of the operation, but for a package that was processed
well and whose transaction is not recorded. -/
theorem verdict_iff (lines : List Bytes) (accepted : Accepted afmpkgRequestInit.2 lines)
    (operation : isOperation (addLines afmpkgRequestInit.2 lines).2.kind) (operations : Operations)
    (clock : Clock) (transactions : List Transaction) (buffer : ReplyBuffer) :
    ((0 ≤ operations.result (addLines afmpkgRequestInit.2 lines).2 →
        KEY_OK <+: reply (afmpkgRequestProcess operations clock transactions
          (addLines afmpkgRequestInit.2 lines).2).req buffer) ∧
      (operations.result (addLines afmpkgRequestInit.2 lines).2 < 0 →
        KEY_ERROR <+: reply (afmpkgRequestProcess operations clock transactions
          (addLines afmpkgRequestInit.2 lines).2).req buffer)) ↔
    ¬(0 ≤ operations.result (addLines afmpkgRequestInit.2 lines).2 ∧
      Unrecorded clock transactions (addLines afmpkgRequestInit.2 lines).2) := by
  have clear := accepted_scode afmpkgRequestInit.2 lines accepted
  generalize (addLines afmpkgRequestInit.2 lines).2 = req at operation clear ⊢
  have code := concluded_scode operations req clear
  have unrecorded := concluded_unrecorded clock transactions operations req
  obtain ⟨ok, error⟩ := reply_verdict_iff (afmpkgRequestProcess operations clock transactions req).req buffer
  rw [ok, error, process_operation operations clock transactions req operation]
  rcases recordStatus_req clock transactions (concluded operations req) (operations.result req)
    [if req.kind = .addPackage then .install req.apkg else .uninstall req.apkg] with
    ⟨missing, result⟩ | ⟨recorded, result⟩
  · rw [unrecorded] at missing
    rw [result, afmpkgRequestError]
    by_cases failed : operations.result req < 0
    · rw [if_pos failed] at code
      rw [if_neg (by omega), code]
      exact iff_of_true ⟨fun positive => positive, fun negative => negative⟩ (fun both => by omega)
    · rw [if_neg failed] at code
      rw [if_pos code]
      apply iff_of_false
      · intro both
        exact absurd (both.1 (not_lt.mp failed)) (by simp [ENOMEM])
      · exact not_not.mpr ⟨not_lt.mp failed, missing⟩
  · rw [unrecorded] at recorded
    rw [result, code]
    apply iff_of_true
    · split <;> omega
    · exact fun both => recorded both.2

def addWithTransid : List Bytes := [ascii "BEGIN ADD", ascii "TRANSID t", ascii "END ADD"]

theorem addWithTransid_accepted : Accepted afmpkgRequestInit.2 addWithTransid := by
  unfold Accepted
  decide

def zeroReply : ReplyBuffer := ⟨List.replicate REPLY_SIZE 0, List.length_replicate⟩

/-- With a transaction that is recorded, the verdict is the one of the operation. -/
theorem addWithTransid_recorded :
    Accepted afmpkgRequestInit.2 addWithTransid ∧
      KEY_OK <+: reply (afmpkgRequestProcess ⟨fun _ => 0, fun _ => 0⟩ ⟨0, 0⟩ [⟨1, 2, 1, 0, ascii "t"⟩]
        (addLines afmpkgRequestInit.2 addWithTransid).2).req zeroReply := by
  refine ⟨addWithTransid_accepted, ((verdict_iff addWithTransid addWithTransid_accepted (Or.inl (by decide))
    ⟨fun _ => 0, fun _ => 0⟩ ⟨0, 0⟩ [⟨1, 2, 1, 0, ascii "t"⟩] zeroReply).mpr ?_).1 (by decide)⟩
  intro both
  obtain ⟨transid, same, -, other⟩ := both.2
  have known : transid = ascii "t" := Option.some.inj (same.symm.trans (by decide))
  exact other _ (List.mem_singleton.mpr rfl) (by decide) known.symm

/-- A package is installed, and its client is told that it is not: the request has a
transaction and no count. -/
theorem uncounted_install_refused :
    ¬∀ (lines : List Bytes) (_ : Accepted afmpkgRequestInit.2 lines)
      (_ : isOperation (addLines afmpkgRequestInit.2 lines).2.kind) (operations : Operations)
      (clock : Clock) (transactions : List Transaction) (buffer : ReplyBuffer),
      (0 ≤ operations.result (addLines afmpkgRequestInit.2 lines).2 →
        KEY_OK <+: reply (afmpkgRequestProcess operations clock transactions
          (addLines afmpkgRequestInit.2 lines).2).req buffer) ∧
      (operations.result (addLines afmpkgRequestInit.2 lines).2 < 0 →
        KEY_ERROR <+: reply (afmpkgRequestProcess operations clock transactions
          (addLines afmpkgRequestInit.2 lines).2).req buffer) := by
  intro all
  have told := (all addWithTransid addWithTransid_accepted (Or.inl (by decide)) ⟨fun _ => 0, fun _ => 0⟩ ⟨0, 0⟩ []
    zeroReply).1 (by decide)
  rw [(reply_verdict_iff _ _).1] at told
  exact absurd told (by decide)

end AppManager.Afmpkg
