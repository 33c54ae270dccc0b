import AppManager.Afmpkg.Receive
import AppManager.Afmpkg.Process

/-! The service of one client: its request is received, processed, and replied to. -/

namespace AppManager.Afmpkg
open AppManager.Lib AppManager.Lib.Libc

def REPLY_SIZE : Nat := 512

abbrev ReplyBuffer := { cells : Bytes // cells.length = REPLY_SIZE }

def reply (req : Request) (buffer : ReplyBuffer) : Bytes :=
  let made := afmpkgRequestMakeReplyLine req buffer.1
  if REPLY_SIZE ≤ made.2 then made.1.set (REPLY_SIZE - 1) newline else made.1.take made.2

structure Served where
  rc : Int
  transactions : List Transaction
  actions : List Action
  sent : Bytes

def sighups (kind : RequestKind) : List Action :=
  match kind with
  | .addPackage | .removePackage => [.sighupAll]
  | _ => []

section
variable (operations : Operations) (clock : Clock) (transactions : List Transaction)
  (buffer : ReceiveBuffer) (replyBuffer : ReplyBuffer)

def afmpkgServe (results : List Recv) (ending : Ending) : Served :=
  let received := receive results ending buffer afmpkgRequestInit.2
  if 0 ≤ received.rc then
    let done := afmpkgRequestProcess operations clock transactions received.req
    ⟨done.rc, done.transactions, done.actions ++ sighups done.req.kind, reply done.req replyBuffer⟩
  else ⟨received.rc, transactions, [], reply received.req replyBuffer⟩

end

def isOperation (kind : RequestKind) : Prop := kind = .addPackage ∨ kind = .removePackage

structure Progress (lines : List Bytes) (req : Request) : Prop where
  fresh : req.state = .pending → req.kind = .unset → lines = []
  begun : ∀ value rest, lines = keyLine .BEGIN value :: rest → req.kind = getOperationKind value
  operation : isOperation req.kind → ∃ value rest, lines = keyLine .BEGIN value :: rest
  ended : (req.state = .pending ∧ ∀ value, keyLine .END value ∉ lines) ∨
    (req.state = .ready ∧ (isOperation req.kind →
      ∃ value, lines.getLast? = some (keyLine .END value) ∧ getOperationKind value = req.kind))

theorem progress_nil : Progress [] afmpkgRequestInit.2 := by
  refine ⟨fun _ _ => rfl, by simp, ?_, Or.inl ⟨rfl, by simp⟩⟩
  intro operation
  rcases operation with add | remove
  · cases add
  · cases remove

theorem progress_kept {lines : List Bytes} (line : Bytes) {req next : Request} (progress : Progress lines req)
    (kind : next.kind = req.kind) (other : ∀ value, line ≠ keyLine .BEGIN value) :
    (∀ value rest, lines ++ [line] = keyLine .BEGIN value :: rest → next.kind = getOperationKind value) ∧
      (isOperation next.kind → ∃ value rest, lines ++ [line] = keyLine .BEGIN value :: rest) := by
  rw [kind]
  constructor
  · intro value rest same
    cases lines with
    | nil => exact absurd (List.cons.inj same).1 (other value)
    | cons first others =>
      rw [List.cons_append, List.cons.injEq] at same
      exact progress.begun value others (by rw [same.1])
  · intro isOne
    obtain ⟨value, rest, whole⟩ := progress.operation isOne
    exact ⟨value, rest ++ [line], by rw [whole, List.cons_append]⟩

theorem progress_snoc (lines : List Bytes) (line : Bytes) (req next : Request) (progress : Progress lines req)
    (pending : req.state = .pending) (effect : Effect req line next) : Progress (lines ++ [line]) next := by
  have noEnd : ∀ value, keyLine .END value ∉ lines := by
    rcases progress.ended with ⟨_, none⟩ | ⟨ready, _⟩
    · exact none
    · rw [pending] at ready
      cases ready
  cases effect with
  | begins value same first known result =>
    have kind : next.kind = getOperationKind value := by rw [result]
    have state : next.state = .pending := by rw [result]; exact pending
    have empty := progress.fresh pending first
    subst empty
    rw [List.nil_append, same]
    refine ⟨fun _ unset => absurd (kind.symm.trans unset) known, ?_, fun _ => ⟨value, [], rfl⟩,
      Or.inl ⟨state, ?_⟩⟩
    · intro other rest equal
      rw [List.cons.injEq] at equal
      rw [kind, (keyLine_injective equal.1).2]
    · intro other member
      exact absurd (keyLine_injective (List.mem_singleton.mp member)).1 (by decide)
  | ends value same operation result =>
    have kind : next.kind = req.kind := by rw [result]
    have state : next.state = .ready := by rw [result]
    obtain ⟨begun, opens⟩ := progress_kept line progress kind (by
      intro other isBegin
      exact absurd (keyLine_injective (same.symm.trans isBegin)).1 (by decide))
    refine ⟨fun pending' => ?_, begun, opens, Or.inr ⟨state, fun _ => ⟨value, ?_, ?_⟩⟩⟩
    · rw [state] at pending'
      cases pending'
    · rw [List.getLast?_concat, same]
    · rw [kind, operation]
  | status value same first kind state =>
    have empty := progress.fresh pending first
    subst empty
    have none : ¬isOperation next.kind := by
      intro isOne
      rw [kind] at isOne
      rcases isOne with add | remove
      · cases add
      · cases remove
    refine ⟨fun pending' => ?_, ?_, fun isOne => absurd isOne none, Or.inr ⟨state, fun isOne => absurd isOne none⟩⟩
    · rw [state] at pending'
      cases pending'
    · intro other rest equal
      rw [List.nil_append, List.cons.injEq, same] at equal
      exact absurd (keyLine_injective equal.1).1 (by decide)
  | body key value same isBody set kind state =>
    have other : ∀ other value', isBodyKey other = false → line ≠ keyLine other value' := by
      intro other value' outside isOther
      rw [(keyLine_injective (same.symm.trans isOther)).1, outside] at isBody
      cases isBody
    obtain ⟨begun, opens⟩ := progress_kept line progress kind (fun value' => other .BEGIN value' rfl)
    refine ⟨fun _ unset => absurd (kind.symm.trans unset) set, begun, opens, Or.inl ⟨state, ?_⟩⟩
    intro value' member
    rcases List.mem_append.mp member with before | last
    · exact noEnd value' before
    · exact other .END value' rfl (List.mem_singleton.mp last).symm

theorem accepted_progress (lines : List Bytes) (accepted : Accepted afmpkgRequestInit.2 lines) :
    Progress lines (addLines afmpkgRequestInit.2 lines).2 := by
  induction lines using List.reverseRecOn with
  | nil => exact progress_nil
  | append_singleton lines line ih =>
    obtain ⟨request, iff⟩ := addLines_snoc afmpkgRequestInit.2 lines line
    obtain ⟨before, zero⟩ := iff.mp accepted
    obtain ⟨pending, effect⟩ := addLine_effect _ line zero
    rw [request]
    exact progress_snoc lines line _ _ (ih before) pending effect

/-- The request is the one of the given lines, which are accepted as long as the
reception goes on. -/
structure Tracks (r : Reception) : Prop where
  request : r.req = (addLines afmpkgRequestInit.2 r.calls).2
  going : 0 ≤ r.rc ↔ Accepted afmpkgRequestInit.2 r.calls

theorem tracks_start (buffer : ReceiveBuffer) : Tracks (.start buffer afmpkgRequestInit.2) :=
  ⟨rfl, iff_of_true (Int.le_refl 0) (by simp [Accepted, Reception.start, addLines])⟩

theorem tracks_line (r : Reception) (buffer line : Bytes) (tracks : Tracks r) (going : 0 ≤ r.rc) :
    Tracks { r with buffer := buffer, req := (afmpkgRequestAddLine r.req line).2,
                    rc := (afmpkgRequestAddLine r.req line).1, calls := r.calls ++ [line] } := by
  obtain ⟨request, accepted⟩ := addLines_snoc afmpkgRequestInit.2 r.calls line
  rw [← tracks.request] at request accepted
  refine ⟨request.symm, ?_⟩
  simp only
  rw [addLine_sign, accepted]
  exact ⟨fun zero => ⟨tracks.going.mp going, zero⟩, fun both => both.2⟩

theorem tracks_extract (r : Reception) (it : Nat) (tracks : Tracks r) : Tracks (extract r it) := by
  fun_induction extract r it with
  | case1 => exact ⟨tracks.request, tracks.going⟩
  | case2 _ _ _ _ _ _ ih => exact ih tracks
  | case3 r it more _ _ _ _ _ ih => exact ih (tracks_line r _ _ tracks more.2)
  | case4 => exact tracks

theorem tracks_receiveData (r : Reception) (chunk : Chunk) (tracks : Tracks r) :
    Tracks (receiveData r chunk) :=
  tracks_extract _ 0 ⟨tracks.request, tracks.going⟩

theorem tracks_receiveLoop (results : List Recv) (r : Reception) (tracks : Tracks r) :
    Tracks (receiveLoop .closed results r) ∧ (receiveLoop .failed results r).rc < 0 := by
  induction results generalizing r with
  | nil => exact ⟨tracks, Int.negSucc_lt_zero 1999⟩
  | cons result rest ih =>
    cases result with
    | interrupted => exact ih r tracks
    | data chunk =>
      have next := tracks_receiveData r chunk tracks
      rw [receiveLoop, receiveLoop]
      by_cases stopped : (receiveData r chunk).rc < 0
      · rw [if_pos stopped, if_pos stopped]
        exact ⟨next, stopped⟩
      · rw [if_neg stopped, if_neg stopped]
        exact ih _ next

def Action.kind : Action → Option RequestKind
  | .install _ => some .addPackage
  | .uninstall _ => some .removePackage
  | .sighupAll => none

/-- The accepted lines have a begin line of that kind and end with an end line of it. -/
structure Complete (kind : RequestKind) (received : Reception) : Prop where
  ready : received.req.state = .ready
  accepted : Accepted afmpkgRequestInit.2 received.calls
  begins : ∃ value, getOperationKind value = kind ∧ keyLine .BEGIN value ∈ received.calls
  ends : ∃ value, getOperationKind value = kind ∧ received.calls.getLast? = some (keyLine .END value)

/-- Accepted lines of an operation without an end line. -/
structure Truncated (lines : List Bytes) : Prop where
  accepted : Accepted afmpkgRequestInit.2 lines
  begins : ∃ value rest, lines = keyLine .BEGIN value :: rest ∧ isOperation (getOperationKind value)
  endless : ∀ value, keyLine .END value ∉ lines

section
variable (operations : Operations) (clock : Clock) (transactions : List Transaction)
  (buffer : ReceiveBuffer) (replyBuffer : ReplyBuffer) (results : List Recv) (ending : Ending)

theorem serve_acts_iff (kind : RequestKind) :
    (∃ action ∈ (afmpkgServe operations clock transactions buffer replyBuffer results ending).actions,
      action.kind = some kind) ↔
    0 ≤ (receive results ending buffer afmpkgRequestInit.2).rc ∧ isOperation kind ∧
      (receive results ending buffer afmpkgRequestInit.2).req.kind = kind := by
  unfold afmpkgServe
  generalize receive results ending buffer afmpkgRequestInit.2 = received
  by_cases going : 0 ≤ received.rc
  · simp only [process_actions, going, true_and]
    have silent : ∀ other, ∀ action ∈ sighups other, action.kind = none := by
      intro other action member
      cases other with
      | addPackage | removePackage =>
        rw [List.mem_singleton.mp member]
        rfl
      | _ => cases member
    constructor
    · intro ⟨action, member, same⟩
      rcases List.mem_append.mp member with acts | signals
      · cases found : received.req.kind with
        | addPackage =>
          rw [found, List.mem_singleton] at acts
          rw [acts] at same
          cases same
          exact ⟨Or.inl rfl, rfl⟩
        | removePackage =>
          rw [found, List.mem_singleton] at acts
          rw [acts] at same
          cases same
          exact ⟨Or.inr rfl, rfl⟩
        | _ =>
          rw [found] at acts
          cases acts
      · rw [silent _ action signals] at same
        cases same
    · intro ⟨operation, same⟩
      rcases operation with add | remove
      · subst add
        exact ⟨.install received.req.apkg, by simp [same], rfl⟩
      · subst remove
        exact ⟨.uninstall received.req.apkg, by simp [same], rfl⟩
  · simp [going]

theorem truncated_acts (closed : ending = .closed)
    (truncated : Truncated (receive results ending buffer afmpkgRequestInit.2).calls) :
    ∃ action ∈ (afmpkgServe operations clock transactions buffer replyBuffer results ending).actions,
      ∃ kind, action.kind = some kind ∧
        ¬Complete kind (receive results ending buffer afmpkgRequestInit.2) := by
  subst closed
  have tracks := (tracks_receiveLoop results (.start buffer afmpkgRequestInit.2) (tracks_start buffer)).1
  have progress := accepted_progress _ truncated.accepted
  rw [receive] at truncated progress
  rw [← tracks.request] at progress
  obtain ⟨value, rest, lines, operation⟩ := truncated.begins
  have kind := progress.begun value rest lines
  obtain ⟨action, member, same⟩ := (serve_acts_iff operations clock transactions buffer replyBuffer results
    .closed (getOperationKind value)).mpr ⟨tracks.going.mpr truncated.accepted, operation, kind⟩
  refine ⟨action, member, getOperationKind value, same, ?_⟩
  intro complete
  obtain ⟨last, _, final⟩ := complete.ends
  exact truncated.endless last (List.mem_of_getLast? final)

/-- The server acts on complete requests only, but when the stream is closed after
accepted lines of an operation that has no end line. -/
theorem serve_complete_iff :
    (∀ action ∈ (afmpkgServe operations clock transactions buffer replyBuffer results ending).actions,
      ∀ kind, action.kind = some kind →
        Complete kind (receive results ending buffer afmpkgRequestInit.2)) ↔
    ¬(ending = .closed ∧ Truncated (receive results ending buffer afmpkgRequestInit.2).calls) := by
  constructor
  · intro all ⟨closed, truncated⟩
    obtain ⟨action, member, kind, same, incomplete⟩ :=
      truncated_acts operations clock transactions buffer replyBuffer results ending closed truncated
    exact incomplete (all action member kind same)
  · intro whole action member kind same
    obtain ⟨going, operation, isKind⟩ := (serve_acts_iff operations clock transactions buffer replyBuffer
      results ending kind).mp ⟨action, member, same⟩
    have loops := tracks_receiveLoop results (.start buffer afmpkgRequestInit.2) (tracks_start buffer)
    cases ending with
    | failed => exact absurd going (Int.not_le.mpr loops.2)
    | closed =>
      have tracks : Tracks (receive results .closed buffer afmpkgRequestInit.2) := loops.1
      have accepted := tracks.going.mp going
      have progress := accepted_progress _ accepted
      rw [← tracks.request] at progress
      have isOne : isOperation (receive results .closed buffer afmpkgRequestInit.2).req.kind :=
        isKind.symm ▸ operation
      obtain ⟨value, rest, lines⟩ := progress.operation isOne
      have begins := progress.begun value rest lines
      rcases progress.ended with ⟨_, endless⟩ | ⟨ready, ends⟩
      · exact absurd ⟨rfl, accepted, ⟨value, rest, lines, begins ▸ isOne⟩, endless⟩ whole
      · obtain ⟨last, final, same'⟩ := ends isOne
        exact ⟨ready, accepted, ⟨value, begins.symm.trans isKind, by rw [lines]; simp⟩,
          ⟨last, same'.trans isKind, final⟩⟩

end

def beginOnly : Chunk := ⟨ascii "BEGIN ADD\n", by decide⟩

/-- The begin line alone makes an installation. -/
theorem begin_line_installs :
    ¬∀ (operations : Operations) (clock : Clock) (transactions : List Transaction) (buffer : ReceiveBuffer)
      (replyBuffer : ReplyBuffer) (results : List Recv) (ending : Ending),
      ∀ action ∈ (afmpkgServe operations clock transactions buffer replyBuffer results ending).actions,
      ∀ kind, action.kind = some kind →
        Complete kind (receive results ending buffer afmpkgRequestInit.2) := by
  intro all
  have lines : wholeLines newline beginOnly.1 = [ascii "BEGIN ADD"] := by
    rw [show beginOnly.1 = ascii "BEGIN ADD" ++ newline :: [] from rfl,
      wholeLines_line newline (ascii "BEGIN ADD") [] (by decide) (by decide),
      wholeLines_open newline [] (by simp)]
  have calls := receivedLines_first zeroBuffer beginOnly [] ⟨by decide, fun _ => trivial⟩ (Or.inl rfl)
  rw [show joined [beginOnly] = beginOnly.1 from rfl, lines] at calls
  have truncated : Truncated (receivedLines zeroBuffer [beginOnly]) := by
    rw [calls]
    refine ⟨?_, ⟨OPERATION_ADD, [], by decide, Or.inl (by decide)⟩, ?_⟩
    · unfold Accepted
      decide
    · intro value member
      rw [show untilRejected afmpkgRequestInit.2 [ascii "BEGIN ADD"] = [keyLine .BEGIN OPERATION_ADD] by decide,
        List.mem_singleton] at member
      exact absurd (keyLine_injective member).1 (by decide)
  obtain ⟨action, member, kind, same, incomplete⟩ := truncated_acts ⟨fun _ => 0, fun _ => 0⟩ ⟨0, 0⟩ []
    zeroBuffer ⟨List.replicate REPLY_SIZE 0, List.length_replicate⟩ [.data beginOnly] .closed rfl truncated
  exact incomplete (all _ _ _ _ _ _ _ action member kind same)

end AppManager.Afmpkg
