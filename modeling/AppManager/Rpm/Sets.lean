import AppManager.Lib.History
import Mathlib.Data.List.Induction
import AppManager.Rpm.Numbering
import AppManager.Rpm.Sending

/-! The calls of the plugin for several transaction sets, in any order in which the calls
of each set alternate. -/

namespace AppManager.Rpm
open AppManager.Lib AppManager.Lib.Libc AppManager.Afmpkg

section
variable {Ts : Type}

/-- What `perform` leaves of a record of its type. -/
def performedOn (setting : Setting) (type : ElementType) (onlycheck : Bool) (record : Record Ts) : Performed Ts :=
  let made := makeMessage setting (afmpkgClientInit setting.stack) record (getOperation type onlycheck)
  ⟨record, getOperation type onlycheck, if made.1 < 0 then none else some made.2.content⟩

def performedRc (setting : Setting) (type : ElementType) (onlycheck : Bool) (record : Record Ts) (rc : Int) : Int :=
  let made := makeMessage setting (afmpkgClientInit setting.stack) record (getOperation type onlycheck)
  if made.1 < 0 ∨ setting.dial made.2.content ≤ 0 then RPMRC_FAIL else rc

theorem performed_sent (setting : Setting) {type : ElementType} (known : type ≠ .other) (onlycheck : Bool)
    (record : Record Ts) : Sent setting (performedOn setting type onlycheck record) := by
  intro memory
  obtain ⟨after, made, ending, whole⟩ := makeMessage_sent setting setting.stack record (getOperation type onlycheck)
    (getOperation_known type known onlycheck) memory
  refine ⟨after.content, ?_, ending, whole⟩
  rw [performedOn, made]
  rfl

theorem performed_all_sent (setting : Setting) {type : ElementType} (known : type ≠ .other) (onlycheck : Bool)
    (records : List (Record Ts)) :
    ∀ performed ∈ records.map (performedOn setting type onlycheck), Sent setting performed := by
  intro performed member
  obtain ⟨record, -, rfl⟩ := List.mem_map.mp member
  exact performed_sent setting known onlycheck record

theorem acting_perform (setting : Setting) (type : ElementType) (onlycheck : Bool) :
    acting (@perform Ts setting type onlycheck) = fun record progress =>
      if hasType type record then
        (none, ⟨progress.performed ++ [performedOn setting type onlycheck record],
          performedRc setting type onlycheck record progress.rc⟩)
      else (some record, progress) := by
  funext record progress
  rw [acting, perform]
  by_cases same : record.type = type
  · have known : hasType type record = true := decide_eq_true same
    rw [if_neg (not_not.mpr same), known, if_pos rfl]
    simp only [performedOn, performedRc]
    split
    · next failed => simp only [if_true, failed, true_or]
    · next made => simp only [if_true, made, false_or]
  · have known : hasType type record = false := decide_eq_false same
    rw [if_pos same, known]
    rfl

theorem perform_stays (setting : Setting) (type : ElementType) (onlycheck : Bool) :
    Stays (@perform Ts setting type onlycheck) := by
  intro record progress
  rw [perform]
  split
  · rfl
  · simp only
    split <;> rfl

theorem foldl_performed (made : Record Ts → Performed Ts) (code : Record Ts → Int → Int) (chosen : List (Record Ts))
    (progress : Progress Ts) :
    (chosen.foldl (fun progress record => Progress.mk (progress.performed ++ [made record])
      (code record progress.rc)) progress).performed = progress.performed ++ chosen.map made := by
  induction chosen generalizing progress with
  | nil => exact (List.append_nil _).symm
  | cons record rest ih => rw [List.foldl_cons, ih, List.map_cons, List.append_assoc, List.singleton_append]

theorem performed_te (setting : Setting) (type : ElementType) (onlycheck : Bool) (records : List (Record Ts))
    (elements : List Element) (tes : records.map Record.te = elements.reverse) :
    (records.map (performedOn setting type onlycheck)).map (fun performed => (performed.record.te, performed.operation)) =
      (elements.map fun te => (te, getOperation type onlycheck)).reverse := by
  rw [← List.map_reverse, ← tes, List.map_map, List.map_map]
  rfl

variable [DecidableEq Ts] (ts : Ts)

theorem forEachRecord_perform (setting : Setting) (type : ElementType) (onlycheck : Bool)
    (records : List (Record Ts)) (progress : Progress Ts) :
    let done := forEachRecord ts (some (perform setting type onlycheck)) records progress
    ofSet ts done.1 = ((ofSet ts records).filter fun record => !hasType type record) ∧
      ofOthers ts done.1 = ofOthers ts records ∧
      done.2.performed = progress.performed ++
        ((ofSet ts records).filter (hasType type)).map (performedOn setting type onlycheck) := by
  intro done
  obtain ⟨own, ended⟩ := forEachRecord_own ts _ (perform_stays setting type onlycheck) records progress
  rw [acting_perform, visit_drop (hasType type) fun record progress => Progress.mk
    (progress.performed ++ [performedOn setting type onlycheck record])
    (performedRc setting type onlycheck record progress.rc)] at own ended
  refine ⟨own, forEachRecord_others ts _ (perform_stays setting type onlycheck) records progress, ?_⟩
  rw [ended]
  exact foldl_performed _ _ _ progress

end

inductive TsmCall (Ts : Type) where
  | pre (ts : Ts) (setting : Setting) (elements : List Element)
  | post (ts : Ts) (setting : Setting) (res : Int)

def TsmCall.ts {Ts : Type} : TsmCall Ts → Ts
  | .pre ts _ _ => ts
  | .post ts _ _ => ts

section
variable {Ts : Type}

/-- The last call of the set is the one before the transaction of these elements. -/
def Pending (ts : Ts) (elements : List Element) (calls : List (TsmCall Ts)) : Prop :=
  Since (fun call => ∃ setting, call = .pre ts setting elements) (fun call => call.ts = ts) calls

/-- The call of a set before its transaction comes when none is pending, that after when one is. -/
def InTurn (calls : List (TsmCall Ts)) (call : TsmCall Ts) : Prop :=
  match call with
  | .pre ts _ _ => ¬∃ elements, Pending ts elements calls
  | .post ts _ _ => ∃ elements, Pending ts elements calls

/-- Each set has a call before its transaction, then one after it, and so on. -/
def Alternating (calls : List (TsmCall Ts)) : Prop :=
  ∀ before call after, calls = before ++ call :: after → InTurn before call

theorem pending_snoc (ts : Ts) (elements : List Element) (calls : List (TsmCall Ts)) (call : TsmCall Ts) :
    Pending ts elements (calls ++ [call]) ↔
      (∃ setting, call = .pre ts setting elements) ∨ (Pending ts elements calls ∧ call.ts ≠ ts) :=
  since_snoc _ _ calls call

def elementsOf (type : ElementType) (elements : List Element) : List Element :=
  elements.filter fun te => decide (te.type = type)

variable [DecidableEq Ts]

def tsmStep (records : List (Record Ts)) : TsmCall Ts → List (Record Ts) × List (Performed Ts)
  | .pre ts setting elements => tsmPreCb ts setting elements records
  | .post ts setting res => tsmPostCb ts setting res records

def recordsAfter (calls : List (TsmCall Ts)) : List (Record Ts) :=
  calls.foldl (fun records call => (tsmStep records call).1) []

/-- The records of the other sets are neither changed nor performed. -/
structure Isolated (ts : Ts) (records : List (Record Ts)) (result : List (Record Ts) × List (Performed Ts)) : Prop where
  others : ofOthers ts result.1 = ofOthers ts records
  own : ∀ performed ∈ result.2, performed.record.ts = ts

/-- What the call before a transaction does: the operations on the elements it performs, which are sent. -/
structure PreKept (ts : Ts) (setting : Setting) (elements : List Element) (records : List (Record Ts)) : Prop where
  numbered : Numbered ts elements (numberedRecords ts setting.garbage elements records)
  performed : (tsmPreCb ts setting elements records).2.map (fun performed => (performed.record.te, performed.operation)) =
    if setting.flags.test then ((elementsOf .removed elements).map fun te => (te, getOperation .removed true)).reverse
    else if setting.flags.nopreun then []
    else ((elementsOf .removed elements).map fun te => (te, getOperation .removed false)).reverse
  sent : ∀ performed ∈ (tsmPreCb ts setting elements records).2, Sent setting performed
  isolated : Isolated ts records (tsmPreCb ts setting elements records)

structure PostKept (ts : Ts) (setting : Setting) (res : Int) (elements : List Element) (records : List (Record Ts)) :
    Prop where
  performed : (tsmPostCb ts setting res records).2.map (fun performed => (performed.record.te, performed.operation)) =
    if res ≠ RPMRC_OK then []
    else if setting.flags.test then ((elementsOf .added elements).map fun te => (te, getOperation .added true)).reverse
    else if setting.flags.nopost then []
    else ((elementsOf .added elements).map fun te => (te, getOperation .added false)).reverse
  sent : ∀ performed ∈ (tsmPostCb ts setting res records).2, Sent setting performed
  cleaned : ofSet ts (tsmPostCb ts setting res records).1 = []
  isolated : Isolated ts records (tsmPostCb ts setting res records)

/-- A call after some others. That of a post is for the elements of the last pre. -/
def CallKept (before : List (TsmCall Ts)) : TsmCall Ts → Prop
  | .pre ts setting elements => PreKept ts setting elements (recordsAfter before)
  | .post ts setting res =>
    ∃ elements, Pending ts elements before ∧ PostKept ts setting res elements (recordsAfter before)

/-- The records that wait for the end of a transaction. -/
def Waiting (ts : Ts) (elements : List Element) (records : List (Record Ts)) : Prop :=
  ((ofSet ts records).filter (hasType .added)).map Record.te = (elementsOf .added elements).reverse

theorem numbered_te (ts : Ts) (elements : List Element) (records : List (Record Ts))
    (numbered : Numbered ts elements records) (type : ElementType) (known : type ≠ .other) :
    ((ofSet ts records).filter (hasType type)).map Record.te = (elementsOf type elements).reverse := by
  have seen : ((ofSet ts records).filter (hasType type)).map Record.te =
      (((ofSet ts records).map fun record => (record.type, record.te)).filter fun seen =>
        decide (seen.1 = type)).map Prod.snd := by
    rw [List.filter_map, List.map_map]
    rfl
  rw [seen, numbered.packages, List.filter_reverse, List.filter_map, List.map_reverse, List.map_map, elementsOf,
    List.filter_filter]
  congr 1
  have same : elements.filter (fun te => decide (te.type = type) && isPackage te) =
      elements.filter fun te => decide (te.type = type) := by
    apply List.filter_congr
    intro te member
    by_cases here : te.type = type
    · simp [isPackage, here, known]
    · simp [here]
  calc
    _ = (elements.filter fun te => decide (te.type = type) && isPackage te).map id := rfl
    _ = _ := by rw [List.map_id, same]

theorem performed_own (ts : Ts) (setting : Setting) (type : ElementType) (onlycheck : Bool) (records : List (Record Ts)) :
    ∀ performed ∈ ((ofSet ts records).filter (hasType type)).map (performedOn setting type onlycheck),
      performed.record.ts = ts := by
  intro performed member
  obtain ⟨record, inside, same⟩ := List.mem_map.mp member
  rw [← same]
  exact of_decide_eq_true (List.mem_filter.mp (List.mem_of_mem_filter inside)).2

section
variable (ts : Ts) (setting : Setting) (elements : List Element) (records : List (Record Ts))

theorem performs_removed (onlycheck : Bool) (empty : ofSet ts records = []) :
    let numbered := numberedRecords ts setting.garbage elements records
    let done := forEachRecord ts (some (perform setting .removed onlycheck)) numbered ⟨[], RPMRC_OK⟩
    done.2.performed.map (fun performed => (performed.record.te, performed.operation)) =
        ((elementsOf .removed elements).map fun te => (te, getOperation .removed onlycheck)).reverse ∧
      (∀ performed ∈ done.2.performed, Sent setting performed) ∧
      Isolated ts records (done.1, done.2.performed) ∧ Waiting ts elements done.1 := by
  intro numbered done
  obtain ⟨own, others, performed⟩ := forEachRecord_perform ts setting .removed onlycheck numbered ⟨[], RPMRC_OK⟩
  have spec := numberedRecords_spec ts setting.garbage elements records empty
  rw [List.nil_append] at performed
  refine ⟨?_, ?_, ⟨?_, ?_⟩, ?_⟩
  · rw [performed]
    exact performed_te setting .removed onlycheck _ _ (numbered_te ts elements numbered spec .removed (by decide))
  · rw [performed]
    exact performed_all_sent setting (by decide) onlycheck _
  · exact others.trans (numberedRecords_others ts setting.garbage elements records)
  · rw [performed]
    exact performed_own ts setting .removed onlycheck numbered
  · have same : ((ofSet ts numbered).filter fun record => !hasType .removed record).filter (hasType .added) =
        (ofSet ts numbered).filter (hasType .added) := by
      rw [List.filter_filter]
      apply List.filter_congr
      intro record member
      by_cases added : record.type = .added
      · simp [hasType, added]
      · simp [hasType, added]
    rw [Waiting, own, same]
    exact numbered_te ts elements numbered spec .added (by decide)

theorem tsmPreCb_kept (empty : ofSet ts records = []) :
    PreKept ts setting elements records ∧ Waiting ts elements (tsmPreCb ts setting elements records).1 := by
  have spec := numberedRecords_spec ts setting.garbage elements records empty
  cases test : setting.flags.test with
  | true =>
    obtain ⟨performed, sent, isolated, waiting⟩ := performs_removed ts setting elements records true empty
    have whole : tsmPreCb ts setting elements records =
        let done := forEachRecord ts (some (performCheckRemove setting))
          (numberedRecords ts setting.garbage elements records) ⟨[], RPMRC_OK⟩
        (done.1, done.2.performed) := by
      rw [tsmPreCb, test]
    exact ⟨⟨spec, by rw [whole, if_pos test]; exact performed, by rw [whole]; exact sent,
      by rw [whole]; exact isolated⟩, by rw [whole]; exact waiting⟩
  | false =>
    have unset : ¬setting.flags.test = true := by simp [test]
    cases nopreun : setting.flags.nopreun with
    | true =>
      have whole : tsmPreCb ts setting elements records =
          (numberedRecords ts setting.garbage elements records, []) := by
        rw [tsmPreCb, test, nopreun]
      refine ⟨⟨spec, ?_, ?_, ?_⟩, ?_⟩
      · rw [whole, if_neg unset, if_pos nopreun]
        rfl
      · rw [whole]
        exact fun performed member => (by cases member)
      · rw [whole]
        exact ⟨numberedRecords_others ts setting.garbage elements records, fun performed member => (by cases member)⟩
      · rw [whole]
        exact numbered_te ts elements _ spec .added (by decide)
    | false =>
      obtain ⟨performed, sent, isolated, waiting⟩ := performs_removed ts setting elements records false empty
      have whole : tsmPreCb ts setting elements records =
          let done := forEachRecord ts (some (performRemove setting))
            (numberedRecords ts setting.garbage elements records) ⟨[], RPMRC_OK⟩
          (done.1, done.2.performed) := by
        rw [tsmPreCb, test, nopreun]
      exact ⟨⟨spec, by rw [whole, if_neg unset, if_neg (by simp [nopreun])]; exact performed,
        by rw [whole]; exact sent, by rw [whole]; exact isolated⟩, by rw [whole]; exact waiting⟩

theorem ofSet_ofOthers : ofSet ts (ofOthers ts records) = [] := by
  rw [ofSet, ofOthers, List.filter_filter, List.filter_eq_nil_iff]
  intro record member
  simp

theorem ofOthers_ofOthers : ofOthers ts (ofOthers ts records) = ofOthers ts records := by
  rw [ofOthers, ofOthers, List.filter_filter]
  simp only [Bool.and_self]

theorem dropped_kept (done : List (Record Ts) × Progress Ts) (others : ofOthers ts done.1 = ofOthers ts records)
    (own : ∀ performed ∈ done.2.performed, performed.record.ts = ts) :
    Isolated ts records ((forEachRecord ts none done.1 ()).1, done.2.performed) ∧
      ofSet ts (forEachRecord ts none done.1 ()).1 = [] := by
  rw [forEachRecord_none]
  exact ⟨⟨(ofOthers_ofOthers ts done.1).trans others, own⟩, ofSet_ofOthers ts done.1⟩

theorem performs_added (onlycheck : Bool) (waiting : Waiting ts elements records) :
    let done := forEachRecord ts (some (perform setting .added onlycheck)) records ⟨[], RPMRC_OK⟩
    done.2.performed.map (fun performed => (performed.record.te, performed.operation)) =
        ((elementsOf .added elements).map fun te => (te, getOperation .added onlycheck)).reverse ∧
      (∀ performed ∈ done.2.performed, Sent setting performed) ∧
      ofOthers ts done.1 = ofOthers ts records ∧ ∀ performed ∈ done.2.performed, performed.record.ts = ts := by
  intro done
  obtain ⟨-, others, performed⟩ := forEachRecord_perform ts setting .added onlycheck records ⟨[], RPMRC_OK⟩
  rw [List.nil_append] at performed
  refine ⟨?_, ?_, others, ?_⟩
  · rw [performed]
    exact performed_te setting .added onlycheck _ _ waiting
  · rw [performed]
    exact performed_all_sent setting (by decide) onlycheck _
  · rw [performed]
    exact performed_own ts setting .added onlycheck records

theorem tsmPostCb_shape (res : Int) (done : List (Record Ts) × Progress Ts)
    (whole : tsmPostCb ts setting res records = ((forEachRecord ts none done.1 ()).1, done.2.performed))
    (sent : ∀ performed ∈ done.2.performed, Sent setting performed)
    (others : ofOthers ts done.1 = ofOthers ts records)
    (own : ∀ performed ∈ done.2.performed, performed.record.ts = ts)
    (performed : done.2.performed.map (fun performed => (performed.record.te, performed.operation)) =
      if res ≠ RPMRC_OK then []
      else if setting.flags.test then ((elementsOf .added elements).map fun te => (te, getOperation .added true)).reverse
      else if setting.flags.nopost then []
      else ((elementsOf .added elements).map fun te => (te, getOperation .added false)).reverse) :
    PostKept ts setting res elements records := by
  obtain ⟨isolated, cleaned⟩ := dropped_kept ts records done others own
  exact ⟨by rw [whole]; exact performed, by rw [whole]; exact sent, by rw [whole]; exact cleaned,
    by rw [whole]; exact isolated⟩

theorem tsmPostCb_kept (res : Int) (waiting : Waiting ts elements records) :
    PostKept ts setting res elements records := by
  by_cases failed : res ≠ RPMRC_OK
  · apply tsmPostCb_shape ts setting elements records res (records, ⟨[], RPMRC_OK⟩)
    · rw [tsmPostCb, if_neg failed]
    · exact fun performed member => (by cases member)
    · rfl
    · exact fun performed member => (by cases member)
    · rw [if_pos failed]
      rfl
  · have done := not_not.mp failed
    cases test : setting.flags.test with
    | true =>
      obtain ⟨performed, sent, others, own⟩ := performs_added ts setting elements records true waiting
      apply tsmPostCb_shape ts setting elements records res
        (forEachRecord ts (some (performCheckAdd setting)) records ⟨[], RPMRC_OK⟩) _ sent others own
      · rw [if_neg failed, if_pos test]
        exact performed
      · rw [tsmPostCb, if_pos done, test]
    | false =>
      have unset : ¬setting.flags.test = true := by simp [test]
      cases nopost : setting.flags.nopost with
      | true =>
        apply tsmPostCb_shape ts setting elements records res (records, ⟨[], RPMRC_OK⟩)
        · rw [tsmPostCb, if_pos done, test, nopost]
        · exact fun performed member => (by cases member)
        · rfl
        · exact fun performed member => (by cases member)
        · rw [if_neg failed, if_neg unset, if_pos nopost]
          rfl
      | false =>
        obtain ⟨performed, sent, others, own⟩ := performs_added ts setting elements records false waiting
        apply tsmPostCb_shape ts setting elements records res
          (forEachRecord ts (some (performAdd setting)) records ⟨[], RPMRC_OK⟩) _ sent others own
        · rw [if_neg failed, if_neg unset, if_neg (by simp [nopost])]
          exact performed
        · rw [tsmPostCb, if_pos done, test, nopost]

end

/-- What a state of the records is, for the calls that led to it. -/
def Recorded (calls : List (TsmCall Ts)) : Prop :=
  ∀ ts, (∀ elements, Pending ts elements calls → Waiting ts elements (recordsAfter calls)) ∧
    ((¬∃ elements, Pending ts elements calls) → ofSet ts (recordsAfter calls) = [])

theorem recordsAfter_snoc (calls : List (TsmCall Ts)) (call : TsmCall Ts) :
    recordsAfter (calls ++ [call]) = (tsmStep (recordsAfter calls) call).1 := by
  rw [recordsAfter, List.foldl_append]
  rfl

theorem ofSet_isolated (ts other : Ts) (differs : other ≠ ts) (records : List (Record Ts))
    (result : List (Record Ts) × List (Performed Ts)) (isolated : Isolated ts records result) :
    ofSet other result.1 = ofSet other records := by
  have through (list : List (Record Ts)) : ofSet other list = ofSet other (ofOthers ts list) := by
    rw [ofSet, ofSet, ofOthers, List.filter_filter]
    apply List.filter_congr
    intro record member
    by_cases here : record.ts = other
    · simp [inSet, here, differs]
    · simp [inSet, here]
  rw [through, isolated.others, ← through]

theorem recorded_other (calls : List (TsmCall Ts)) (call : TsmCall Ts) (recorded : Recorded calls) (other : Ts)
    (differs : other ≠ call.ts) (isolated : Isolated call.ts (recordsAfter calls) (tsmStep (recordsAfter calls) call)) :
    (∀ elements, Pending other elements (calls ++ [call]) → Waiting other elements (recordsAfter (calls ++ [call]))) ∧
      ((¬∃ elements, Pending other elements (calls ++ [call])) → ofSet other (recordsAfter (calls ++ [call])) = []) := by
  have pending (elements : List Element) :
      Pending other elements (calls ++ [call]) ↔ Pending other elements calls := by
    rw [pending_snoc, and_iff_left (Ne.symm differs), or_iff_right]
    rintro ⟨setting, same⟩
    rw [same] at differs
    exact differs rfl
  have same := ofSet_isolated call.ts other differs _ _ isolated
  simp only [pending, Waiting, recordsAfter_snoc, same]
  exact recorded other

theorem call_kept (calls : List (TsmCall Ts)) (call : TsmCall Ts) (recorded : Recorded calls)
    (turn : InTurn calls call) :
    CallKept calls call ∧ Recorded (calls ++ [call]) := by
  cases call with
  | pre ts setting elements =>
    obtain ⟨kept, waiting⟩ := tsmPreCb_kept ts setting elements (recordsAfter calls) ((recorded ts).2 turn)
    refine ⟨kept, fun other => ?_⟩
    by_cases same : other = ts
    · subst same
      rw [recordsAfter_snoc]
      constructor
      · intro elements' pending
        rcases (pending_snoc other elements' calls _).mp pending with ⟨setting', here⟩ | ⟨-, away⟩
        · injection here with _ _ here
          rw [← here]
          exact waiting
        · exact absurd rfl away
      · intro none
        exact absurd ⟨elements, (pending_snoc other elements calls _).mpr (Or.inl ⟨setting, rfl⟩)⟩ none
    · exact recorded_other calls _ recorded other same kept.isolated
  | post ts setting res =>
    obtain ⟨elements, pending⟩ := turn
    have kept := tsmPostCb_kept ts setting elements (recordsAfter calls) res ((recorded ts).1 elements pending)
    refine ⟨⟨elements, pending, kept⟩, fun other => ?_⟩
    by_cases same : other = ts
    · subst same
      rw [recordsAfter_snoc]
      refine ⟨fun elements' pending' => ?_, fun none => kept.cleaned⟩
      rcases (pending_snoc other elements' calls _).mp pending' with ⟨setting', here⟩ | ⟨-, away⟩
      · cases here
      · exact absurd rfl away
    · exact recorded_other calls _ recorded other same kept.isolated

theorem recorded_run (calls : List (TsmCall Ts)) (alternating : Alternating calls) : Recorded calls := by
  induction calls using List.reverseRecOn with
  | nil =>
    intro ts
    exact ⟨fun elements pending => absurd pending (since_nil _ _), fun none => rfl⟩
  | append_singleton calls call ih =>
    have before : Alternating calls := by
      intro first other rest split
      exact alternating first other (rest ++ [call]) (by rw [split, List.append_assoc, List.cons_append])
    exact (call_kept calls call (ih before) (alternating calls call [] rfl)).2

end

section
variable {Ts : Type}

theorem alternating_nil : Alternating ([] : List (TsmCall Ts)) := by
  intro before call after split
  simp at split

theorem alternating_snoc (calls : List (TsmCall Ts)) (call : TsmCall Ts) (alternating : Alternating calls)
    (turn : InTurn calls call) : Alternating (calls ++ [call]) := by
  intro before other after split
  rcases List.eq_nil_or_concat after with none | ⟨rest, last, some⟩
  · subst none
    obtain ⟨same, here⟩ := List.append_inj' split rfl
    rw [← same, ← List.head_eq_of_cons_eq here]
    exact turn
  · subst some
    rw [List.concat_eq_append, ← List.cons_append, ← List.append_assoc] at split
    exact alternating before other rest (List.append_inj_left' split rfl)

end

section
variable {Ts : Type} [DecidableEq Ts]

/-- In any interleaving of the calls of several sets, each call does what it has to do. -/
theorem calls_kept (calls : List (TsmCall Ts)) (alternating : Alternating calls) (before : List (TsmCall Ts))
    (call : TsmCall Ts) (after : List (TsmCall Ts)) (split : calls = before ++ call :: after) :
    CallKept before call := by
  have first : Alternating before := by
    intro start other rest whole
    exact alternating start other (rest ++ call :: after) (by rw [split, whole, List.append_assoc, List.cons_append])
  exact (call_kept before call (recorded_run before first) (alternating before call after split)).1

end

def quiet : Setting :=
  { flags := ⟨false, false, false⟩, rootdir := none, transid := none, redpakid := none
    alloc := zeroAllocator, stack := rawClient
    garbage := 0
    dial := fun _ => 1 }

def element (type : ElementType) : Element := ⟨type, ⟨ascii "app", by decide, by decide⟩, []⟩

/-- A set that ends while another one is pending. -/
theorem calls_kept_two :
    CallKept [TsmCall.pre 0 quiet [element .removed, element .added], .pre 1 quiet [element .added]]
      (.post 0 quiet RPMRC_OK) := by
  refine calls_kept [TsmCall.pre 0 quiet [element .removed, element .added], .pre 1 quiet [element .added],
    .post 0 quiet RPMRC_OK] ?_ _ _ [] rfl
  have none (ts : Nat) (elements : List Element) : ¬Pending ts elements [] := since_nil _ _
  refine alternating_snoc [_, _] _ (alternating_snoc [_] _ (alternating_snoc [] _ alternating_nil ?_) ?_) ?_
  · rintro ⟨elements, pending⟩
    exact none 0 elements pending
  · rintro ⟨elements, pending⟩
    rcases (pending_snoc 1 elements [] _).mp pending with ⟨setting, same⟩ | ⟨before, -⟩
    · cases same
    · exact none 1 elements before
  · exact ⟨_, [], _, [_], rfl, ⟨quiet, rfl⟩, by simp [TsmCall.ts]⟩

end AppManager.Rpm
