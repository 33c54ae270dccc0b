import AppManager.Binding.Access

/-! What every request ends with: one action or one error reply, and no action without the
permissions that its parameters need. -/

namespace AppManager.Binding
open AppManager.Lib AppManager.Lib.Libc

def asksOnly (steps : List VerbStep) : Prop := ∀ step ∈ steps, ∃ question answer, step = .asked question answer

/-- One of the permissions of that suffix was asked, and granted. -/
def Granted (suffix : Bytes) (steps : List VerbStep) : Prop :=
  ∃ start ∈ [REDPESK_PREFIX, AGL_PREFIX], ∃ status : Int, 0 < status ∧
    (Step.asked (Question.permission (start ++ suffix)) status : VerbStep) ∈ steps

/-- The parameters of an action, and the steps before it. -/
structure Allowed (requester : Int) (required : Mask) (params : Params) (steps : List VerbStep) : Prop where
  complete : required &&& params.found = required
  uid : params.uid = requester ∨ Granted SET_UID steps
  all : has params.found Param_All = false ∨ Granted VIEW_ALL steps

/-- The end of a request: after questions only, one action that is allowed, or one reply. -/
def Concluded (requester : Int) (required : Mask) (steps : List VerbStep) : Prop :=
  ∃ before act, steps = before ++ [.acted act] ∧ act ≠ .crash ∧ asksOnly before ∧
    ∀ params, act = .action params → Allowed requester required params before

theorem granted_append (suffix : Bytes) (steps more : List VerbStep) (granted : Granted suffix steps) :
    Granted suffix (steps ++ more) := by
  obtain ⟨start, known, status, positive, member⟩ := granted
  exact ⟨start, known, status, positive, List.mem_append_left more member⟩

theorem asksOnly_snoc (steps : List VerbStep) (question : Question) (answer : Answer question)
    (only : asksOnly steps) : asksOnly (steps ++ [.asked question answer]) := by
  intro step member
  rcases List.mem_append.mp member with before | last
  · exact only step before
  · exact ⟨question, answer, List.mem_singleton.mp last⟩

theorem or_and (mask bit param : Mask) : (mask ||| bit) &&& param = (mask &&& param) ||| (bit &&& param) := by
  ext position
  simp only [BitVec.getElem_and, BitVec.getElem_or, Bool.and_or_distrib_right]

theorem has_or (mask param bit : Mask) : has (mask ||| bit) param = (has mask param || has bit param) := by
  rw [has, has, has, or_and, ← Bool.decide_or, decide_eq_decide, Ne, Ne, Ne,
    show (0 : Mask) = 0#32 from rfl, BitVec.or_eq_zero_iff, not_and_or]

theorem authCheck_defPerm {Act : Type} (suffix : Bytes) (callback : Int → Dialog Question Answer Act) :
    authCheck (defPerm suffix) callback = .ask .allocate fun given : Bool =>
      if given then .ask (.permission (REDPESK_PREFIX ++ suffix)) fun status : Int =>
        if status ≤ 0 then .ask (.permission (AGL_PREFIX ++ suffix)) fun status : Int => callback status
        else callback status
      else callback (-ENOMEM) := by
  rw [authCheck]
  congr 1
  funext given
  congr 1
  rw [defPerm, ckaPush, if_neg (by decide), ckaPush_permission _ _ _ (by simp [CKAUTH_STACK_DEPTH])]
  congr 1
  funext status
  rw [ckaPop]
  split
  · rw [ckaPush_permission _ _ _ (by simp [CKAUTH_STACK_DEPTH])]
    simp only [ckaPop]
  · rw [ckaPop]

section
variable (requester : Int) (required : Mask)

/-- The user is the requester, or is marked as another one. -/
def Marked (params : Params) : Prop :=
  params.required = required ∧ (params.uid = requester ∨ has params.found Param_UID = true)

theorem marked_found (params : Params) (bit : Mask) (marked : Marked requester required params) (runid : Int)
    (id : Option Bytes) :
    Marked requester required { params with found := params.found ||| bit, runid := runid, id := id } := by
  refine ⟨marked.1, marked.2.imp_right fun known => ?_⟩
  rw [has_or, known, Bool.true_or]

theorem extractUid_marked (obj : Option JsonData) (params : Params) (marked : Marked requester required params) :
    Marked requester required (extractUid obj params) := by
  unfold extractUid
  split
  · exact marked
  · simp only
    split
    · exact marked
    · split
      · refine ⟨marked.1, Or.inr ?_⟩
        simp only [has_or, Bool.or_eq_true]
        exact Or.inr (by decide)
      · exact marked
  · exact marked

theorem extractAll_marked (expected : Mask) (obj : Option JsonData) (params : Params)
    (marked : Marked requester required params) : Marked requester required (extractAll expected obj params) := by
  rw [extractAll]
  split
  · exact marked_found requester required params Param_All marked params.runid params.id
  · exact marked

theorem extractId_marked (serialize : JsonData → Bytes) (expected : Mask) (obj : Option JsonData) (params : Params)
    (marked : Marked requester required params) : Marked requester required (extractId serialize expected obj params) := by
  unfold extractId
  split
  · split
    · exact marked_found requester required params Param_Id marked params.runid _
    · exact marked
  · exact marked

theorem extractRunid_marked (expected : Mask) (obj : Option JsonData) (params : Params)
    (marked : Marked requester required params) : Marked requester required (extractRunid expected obj params) := by
  unfold extractRunid
  split
  · split
    · exact marked
    · exact marked_found requester required params Param_RunId marked _ params.id
    · exact marked
  · exact marked

theorem extractParams_marked (req : AfbReq) (optional : Mask) :
    Marked (getReqUid req) required (extractParams req required optional) := by
  have start : Marked (getReqUid req) required ⟨.noError, required, 0, getReqUid req, 0, none⟩ := ⟨rfl, Or.inl rfl⟩
  rw [extractParams]
  simp only
  split
  · split
    · exact marked_found (getReqUid req) required _ Param_RunId start _ none
    · exact start
  · split
    · exact marked_found (getReqUid req) required _ Param_Id start 0 _
    · exact start
  · apply extractRunid_marked
    apply extractId_marked
    apply extractAll_marked
    exact extractUid_marked _ _ _ _ start
  · exact start

theorem hasAuth_ensures (params : Params) (suffix : Bytes) (callback : Params → VerbDialog) (steps : List VerbStep)
    (wanted : List VerbStep → Prop) (only : asksOnly steps)
    (after : ∀ status more, asksOnly (steps ++ more) → (0 < status → Granted suffix (steps ++ more)) →
      (callback (hasAuthCb params status)).Ensures (steps ++ more) wanted) :
    (hasAuth params (defPerm suffix) callback).Ensures steps wanted := by
  rw [hasAuth, authCheck_defPerm]
  refine Dialog.ensures_ask fun given => ?_
  have only' := asksOnly_snoc steps .allocate given only
  split
  · refine Dialog.ensures_ask fun first : Int => ?_
    have asked := asksOnly_snoc _ (.permission (REDPESK_PREFIX ++ suffix)) first only'
    rw [List.append_assoc] at asked ⊢
    split
    · refine Dialog.ensures_ask fun second : Int => ?_
      have both := asksOnly_snoc _ (.permission (AGL_PREFIX ++ suffix)) second asked
      rw [List.append_assoc] at both ⊢
      exact after second _ both fun positive => ⟨AGL_PREFIX, by simp, second, positive, by simp⟩
    · exact after first _ asked fun positive => ⟨REDPESK_PREFIX, by simp, first, positive, by simp⟩
  · exact after (-ENOMEM) [.asked .allocate given] only' fun positive => absurd positive (by decide)

/-- What is known of the parameters when the permissions are checked. -/
structure Checked (params : Params) (steps : List VerbStep) : Prop where
  only : asksOnly steps
  uid : params.uid = requester ∨ Granted SET_UID steps
  all : has params.found Param_All = false ∨ Granted VIEW_ALL steps

theorem Checked.snoc {params : Params} {steps : List VerbStep} (checked : Checked requester params steps)
    (question : Question) (answer : Answer question) :
    Checked requester params (steps ++ [.asked question answer]) where
  only := asksOnly_snoc steps question answer checked.only
  uid := checked.uid.imp_right (granted_append SET_UID steps _)
  all := checked.all.imp_right (granted_append VIEW_ALL steps _)

theorem checkFinal_concludes (params : Params) (steps : List VerbStep) (same : params.required = required)
    (only : asksOnly steps) (checked : params.status = .noError → Checked requester params steps) :
    (checkFinal params).Ensures steps (Concluded requester required) := by
  rw [checkFinal]
  split
  · next good =>
    obtain ⟨-, uid, all⟩ := checked good.1
    refine Dialog.ensures_perform (Dialog.ensures_ended ⟨steps, _, rfl, VerbAct.noConfusion, only, fun params' action => ?_⟩)
    rw [← VerbAct.action.inj action]
    exact ⟨by rw [← same]; exact good.2, uid, all⟩
  · exact Dialog.ensures_perform
      (Dialog.ensures_ended ⟨steps, _, rfl, VerbAct.noConfusion, only, fun params' action => (by cases action)⟩)

section
variable (afudb : AfmUdb)

/-- The runid is looked up, and there is no way to search it. -/
def Doomed (params : Params) : Prop :=
  has params.required Param_RunId = true ∧ params.found &&& (Param_RunId ||| Param_Id) = Param_Id ∧
    Unsearchable afudb params.id

theorem checkRunid_concludes (params : Params) (steps : List VerbStep) (same : params.required = required)
    (only : asksOnly steps) (checked : params.status = .noError → Checked requester params steps)
    (safe : params.status = .noError → ¬Doomed afudb params) :
    (checkRunid afudb params).Ensures steps (Concluded requester required) := by
  rw [checkRunid]
  split
  · next search =>
    obtain ⟨noError, needs, given⟩ := search
    have asked : ∀ steps question answer, Checked requester params steps →
        Checked requester params (steps ++ [.asked question answer]) := fun steps question answer known =>
      Checked.snoc requester known question answer
    have good : ¬Unsearchable afudb params.id := fun unknown => safe noError ⟨needs, given, unknown⟩
    refine afmUrunSearchRunid_ensures asked good params.uid (fun answer later known => ?_) (checked noError)
    split
    · refine checkFinal_concludes requester required _ _ same known.only fun noError => ?_
      simp only at noError
      split at noError <;> cases noError
    · refine checkFinal_concludes requester required _ _ same known.only fun _ => ⟨known.only, known.uid, ?_⟩
      refine known.all.imp_left fun unset => ?_
      rw [has_or, unset]
      decide
  · exact checkFinal_concludes requester required params steps same only checked

theorem hasAuthCb_required (params : Params) (status : Int) :
    (hasAuthCb params status).required = params.required := by
  rw [hasAuthCb]
  split
  · rfl
  · split <;> rfl

theorem hasAuthCb_granted (params : Params) (status : Int) (noError : (hasAuthCb params status).status = .noError) :
    0 < status ∧ hasAuthCb params status = params := by
  rw [hasAuthCb] at noError ⊢
  split at noError
  · cases noError
  · split at noError
    · cases noError
    · next memory positive => exact ⟨not_le.mp positive, by rw [if_neg memory, if_neg positive]⟩

theorem checkPermissionAll_concludes (params : Params) (steps : List VerbStep) (same : params.required = required)
    (only : asksOnly steps) (kept : params.status = .noError → params.uid = requester ∨ Granted SET_UID steps)
    (safe : params.status = .noError → ¬Doomed afudb params) :
    (checkPermissionAll afudb params).Ensures steps (Concluded requester required) := by
  rw [checkPermissionAll]
  split
  · next unasked =>
    refine checkRunid_concludes requester required afudb params steps same only (fun noError => ?_) safe
    refine ⟨only, kept noError, Or.inl ?_⟩
    simpa using unasked.resolve_left (not_not.mpr noError)
  · next asks =>
    have started : params.status = .noError := not_not.mp (not_or.mp asks).1
    refine hasAuth_ensures params VIEW_ALL (checkRunid afudb) steps _ only fun status more only' granted => ?_
    refine checkRunid_concludes requester required afudb _ _ (by rw [hasAuthCb_required, same]) only'
      (fun noError => ?_) (fun noError => ?_)
    · obtain ⟨positive, unchanged⟩ := hasAuthCb_granted params status noError
      rw [unchanged]
      exact ⟨only', (kept started).imp_right (granted_append SET_UID steps more), Or.inr (granted positive)⟩
    · rw [(hasAuthCb_granted params status noError).2]
      exact safe started

theorem checkPermissionUid_concludes (params : Params) (steps : List VerbStep)
    (marked : Marked requester required params) (only : asksOnly steps)
    (safe : params.status = .noError → ¬Doomed afudb params) :
    (checkPermissionUid afudb params).Ensures steps (Concluded requester required) := by
  obtain ⟨same, uid⟩ := marked
  rw [checkPermissionUid]
  split
  · next unasked =>
    refine checkPermissionAll_concludes requester required afudb params steps same only (fun noError => Or.inl ?_) safe
    refine uid.resolve_right ?_
    simpa using unasked.resolve_left (not_not.mpr noError)
  · next asks =>
    have started : params.status = .noError := not_not.mp (not_or.mp asks).1
    refine hasAuth_ensures params SET_UID (checkPermissionAll afudb) steps _ only fun status more only' granted => ?_
    refine checkPermissionAll_concludes requester required afudb _ _ (by rw [hasAuthCb_required, same]) only'
      (fun noError => Or.inr (granted (hasAuthCb_granted params status noError).1)) (fun noError => ?_)
    rw [(hasAuthCb_granted params status noError).2]
    exact safe started

end

end

/-- Memory is given, permissions are granted, and systemd knows nothing. -/
def granting (_ : List VerbStep) : (question : Question) → Answer question
  | .allocate => true
  | .permission _ => (1 : Int)
  | .unitDpathByName _ _ => (.error 0 : Except Int Bytes)
  | .unitPidOfDpath _ _ => ((0, 0) : Int × Int)

theorem hasAuth_granting (params : Params) (suffix : Bytes) (callback : Params → VerbDialog) (steps : List VerbStep) :
    ∃ more, (hasAuth params (defPerm suffix) callback).history granting steps =
      (callback params).history granting more := by
  refine ⟨steps ++ [.asked .allocate true] ++ [.asked (.permission (REDPESK_PREFIX ++ suffix)) (1 : Int)], ?_⟩
  rw [hasAuth, authCheck_defPerm]
  rfl

section
variable (afudb : AfmUdb)

theorem withParams_granting (req : AfbReq) (required optional : Mask) :
    ∃ steps, (withParams afudb req required optional).history granting [] =
      (checkRunid afudb (extractParams req required optional)).history granting steps := by
  have all : ∀ params steps, ∃ more, (checkPermissionAll afudb params).history granting steps =
      (checkRunid afudb params).history granting more := by
    intro params steps
    rw [checkPermissionAll]
    split
    · exact ⟨steps, rfl⟩
    · exact hasAuth_granting params VIEW_ALL (checkRunid afudb) steps
  have start : (withParams afudb req required optional).history granting [] =
      (checkPermissionUid afudb (extractParams req required optional)).history granting [.asked .allocate true] := rfl
  rw [start, checkPermissionUid]
  split
  · exact all _ _
  · obtain ⟨more, same⟩ := hasAuth_granting (extractParams req required optional) SET_UID (checkPermissionAll afudb)
      [.asked .allocate true]
    rw [authPermSetUid, same]
    exact all _ more

theorem withParams_ensures_iff (req : AfbReq) (required optional : Mask) :
    (withParams afudb req required optional).Ensures [] (Concluded (getReqUid req) required) ↔
      ((extractParams req required optional).status = .noError →
        ¬Doomed afudb (extractParams req required optional)) := by
  constructor
  · rintro ensures noError ⟨needs, given, unknown⟩
    obtain ⟨steps, run⟩ := withParams_granting afudb req required optional
    have crashes : checkRunid afudb (extractParams req required optional) = .perform .crash .ended := by
      rw [checkRunid, if_pos ⟨noError, needs, given⟩, afmUrunSearchRunid_crash unknown]
    obtain ⟨before, act, shape, sound, -⟩ := ensures granting
    rw [run, crashes] at shape
    have last := congrArg List.getLast? (show steps ++ [.acted .crash] = before ++ [.acted act] from shape)
    rw [List.getLast?_concat, List.getLast?_concat, Option.some.injEq, Step.acted.injEq] at last
    exact sound last.symm
  · intro safe
    have none : asksOnly [] := fun step member => (by cases member)
    rw [withParams]
    refine Dialog.ensures_ask fun given => ?_
    have only := asksOnly_snoc [] .allocate given none
    split
    · exact checkPermissionUid_concludes (getReqUid req) required afudb _ _ (extractParams_marked required req optional)
        only safe
    · exact Dialog.ensures_perform
        (Dialog.ensures_ended ⟨_, _, rfl, VerbAct.noConfusion, only, fun params action => (by cases action)⟩)

/-- The identifier of a request that gives no runid, and no user or the number of one.
`NULL` is the one of a null. -/
def idToSearch (req : AfbReq) : Option (Option Bytes) :=
  match req.args with
  | .string text => some (some (cstr text))
  | .object members =>
    let args := JsonData.object members
    if (args.get (ascii "runid")).isNone ∧ (args.get (ascii "uid")).all JsonData.isUser then
      (args.get (ascii "id")).map (JsonData.getString req.serialize)
    else none
  | _ => none

theorem has_either {expected : Mask} (needs : has expected Param_RunId = true) :
    has expected (Param_Id ||| Param_RunId) = true := by
  rw [has, BitVec.and_comm] at needs ⊢
  rw [or_and, decide_eq_true_eq, Ne, show (0 : Mask) = 0#32 from rfl, BitVec.or_eq_zero_iff]
  exact fun both => of_decide_eq_true needs both.2

/-- What the search of the runid looks at: the status, the bits of the runid and of the
identifier, and the identifier. -/
structure Seen (params : Params) (good : Prop) (bits : Mask) (id : Option Bytes) : Prop where
  status : params.status = .noError ↔ good
  bits : params.found &&& (Param_RunId ||| Param_Id) = bits
  id : params.id = id

variable {params : Params} {good : Prop} {bits : Mask} {id : Option Bytes}

theorem Seen.extractUid (seen : Seen params good bits id) (obj : Option JsonData) :
    Seen (extractUid obj params) (good ∧ obj.all JsonData.isUser = true) bits id := by
  obtain ⟨status, found, same⟩ := seen
  unfold Binding.extractUid
  split
  · exact ⟨by simpa using status, found, same⟩
  · next value =>
    simp only [Option.all_some, JsonData.isUser, decide_eq_true_eq]
    split
    · next negative => exact ⟨by simp [negative], found, same⟩
    · next positive =>
      have user : 0 ≤ JsonData.getInt value := not_lt.mp positive
      split
      · refine ⟨by simpa [user] using status, ?_, same⟩
        rw [or_and, found]
        exact BitVec.or_zero
      · exact ⟨by simpa [user] using status, found, same⟩
  · next obj notInt =>
    refine ⟨?_, found, same⟩
    cases obj <;> first | exact absurd rfl (notInt _) | simp [JsonData.isUser]

theorem Seen.extractAll (seen : Seen params good bits id) (expected : Mask) (obj : Option JsonData) :
    Seen (extractAll expected obj params) good bits id := by
  obtain ⟨status, found, same⟩ := seen
  unfold Binding.extractAll
  split
  · refine ⟨status, ?_, same⟩
    rw [or_and, found]
    exact BitVec.or_zero
  · exact ⟨status, found, same⟩

theorem Seen.extractId (seen : Seen params good 0 id) (serialize : JsonData → Bytes) {expected : Mask}
    (needs : has expected Param_RunId = true) (obj : Option JsonData) :
    Seen (extractId serialize expected obj params) good (if obj.isSome then Param_Id else 0)
      (obj.elim id (JsonData.getString serialize)) := by
  obtain ⟨status, found, same⟩ := seen
  have either := has_either needs
  unfold Binding.extractId
  cases obj with
  | none => exact ⟨status, found, same⟩
  | some obj =>
    simp only [either, if_true, Option.isSome_some]
    refine ⟨status, ?_, rfl⟩
    rw [or_and, found]
    rfl

theorem Seen.extractRunid (seen : Seen params good bits id) {expected : Mask}
    (needs : has expected Param_RunId = true) (obj : Option JsonData) :
    ((extractRunid expected obj params).status = .noError ∧
      (extractRunid expected obj params).found &&& (Param_RunId ||| Param_Id) = Param_Id ↔
        good ∧ bits = Param_Id ∧ obj.isNone = true) ∧ (extractRunid expected obj params).id = id := by
  obtain ⟨status, found, same⟩ := seen
  unfold Binding.extractRunid
  rw [if_pos needs]
  cases obj with
  | none => exact ⟨by simp [status, found], same⟩
  | some obj =>
    cases obj with
    | int value =>
      refine ⟨?_, same⟩
      simp only [Option.isNone_some, Bool.false_eq_true, and_false, iff_false, not_and]
      intro _ runid
      have bit := congrArg (fun mask : Mask => mask[3]) runid
      simp [Param_RunId, Param_Id] at bit
    | _ => exact ⟨by simp, same⟩

theorem extractParams_search (req : AfbReq) (optional : Mask) {required : Mask}
    (needs : has required Param_RunId = true) (id : Option Bytes) :
    ((extractParams req required optional).status = .noError ∧
      (extractParams req required optional).found &&& (Param_RunId ||| Param_Id) = Param_Id) ∧
      (extractParams req required optional).id = id ↔ idToSearch req = some id := by
  have expected : has (optional ||| required) Param_RunId = true := by rw [has_or, needs, Bool.or_true]
  have start : Seen ⟨.noError, required, 0, getReqUid req, 0, none⟩ True 0 none :=
    ⟨by simp, show (0 : Mask) &&& (Param_RunId ||| Param_Id) = 0 by decide, rfl⟩
  unfold extractParams idToSearch
  generalize req.args = args
  cases args with
  | int value =>
    have runid : Param_RunId &&& (Param_RunId ||| Param_Id) ≠ Param_Id := by decide
    simp [expected, runid]
  | string text =>
    have given : Param_Id &&& (Param_RunId ||| Param_Id) = Param_Id := by decide
    simp [has_either expected, given]
  | object members =>
    have uid := start.extractUid ((JsonData.object members).get (ascii "uid"))
    have named := (uid.extractAll (optional ||| required) ((JsonData.object members).get (ascii "all"))).extractId
      req.serialize expected ((JsonData.object members).get (ascii "id"))
    obtain ⟨searched, same⟩ := named.extractRunid expected ((JsonData.object members).get (ascii "runid"))
    simp only
    rw [searched, same]
    cases (JsonData.object members).get (ascii "id") with
    | none =>
      have absent : 0#32 ≠ Param_Id := by decide
      simp [absent]
    | some obj =>
      simp only [Option.isSome_some, if_true, Option.elim_some, true_and, Option.map_some]
      split
      · next given => simp [given.1, given.2]
      · next missing =>
        simp only [reduceCtorEq, iff_false, not_and]
        exact fun good => absurd ⟨good.2, good.1⟩ missing
  | _ =>
    have absent : 0#32 ≠ Param_Id := by decide
    simp [absent]

end

def nullRequest : AfbReq := ⟨.object [(ascii "id", .null)], .null, fun _ => []⟩

end AppManager.Binding
