import AppManager.Binding.Auth

/-! The meaning of authorizations, and how the check with a bounded stack agrees with it. -/

namespace AppManager.Binding
open AppManager.Lib AppManager.Lib.Libc

/-- The meaning of an authorization when each permission always gets the same answer. -/
def AfbAuth.holds (granted : Bytes → Int) : AfbAuth → Bool
  | .permission text => decide (0 < granted text)
  | .or first next => first.holds granted || next.holds granted
  | .and first next => first.holds granted && next.holds granted
  | .not first => !first.holds granted
  | .yes => true
  | _ => false

section
variable {Act : Type} (answers : List (Step Question Answer Act) → (question : Question) → Answer question)

/-- The value of an authorization and the history after it, when each answer depends on
what happened before. -/
def AfbAuth.evaluate : AfbAuth → List (Step Question Answer Act) → Bool × List (Step Question Answer Act)
  | .permission text, before =>
    let answer : Int := answers before (.permission text)
    (decide (0 < answer), before ++ [.asked (.permission text) answer])
  | .or first next, before =>
    let left := first.evaluate before
    if left.1 then left else next.evaluate left.2
  | .and first next, before =>
    let left := first.evaluate before
    if left.1 then next.evaluate left.2 else left
  | .not first, before =>
    let inner := first.evaluate before
    (!inner.1, inner.2)
  | .yes, before => (true, before)
  | _, before => (false, before)

/-- How many nodes are pending together at the deepest of the evaluation. -/
def AfbAuth.nesting : AfbAuth → List (Step Question Answer Act) → Nat
  | .or first next, before =>
    let left := first.evaluate answers before
    max (first.nesting before + 1) (if left.1 then 0 else next.nesting left.2)
  | .and first next, before =>
    let left := first.evaluate answers before
    max (first.nesting before + 1) (if left.1 then next.nesting left.2 else 0)
  | .not first, before => first.nesting before + 1
  | _, _ => 1

theorem evaluate_holds (granted : Bytes → Int)
    (fixed : ∀ before text, answers before (.permission text) = granted text) (auth : AfbAuth)
    (before : List (Step Question Answer Act)) : (auth.evaluate answers before).1 = auth.holds granted := by
  induction auth generalizing before with
  | permission text => simp only [AfbAuth.evaluate, AfbAuth.holds, fixed]
  | or first next left right =>
    rw [AfbAuth.evaluate, AfbAuth.holds, ← left before]
    cases value : (first.evaluate answers before).1 with
    | true => simp [value]
    | false => simp [right]
  | and first next left right =>
    rw [AfbAuth.evaluate, AfbAuth.holds, ← left before]
    cases value : (first.evaluate answers before).1 with
    | true => simp [right]
    | false => simp [value]
  | not first inner => rw [AfbAuth.evaluate, AfbAuth.holds, ← inner before]
  | no | token | loa | yes | unknown => rfl

/-- Between two histories, permissions were asked and nothing else was done. -/
def AsksOnly (before after : List (Step Question Answer Act)) : Prop :=
  ∃ asked, after = before ++ asked ∧ ∀ step ∈ asked, ∃ text answer, step = .asked (.permission text) answer

theorem AsksOnly.refl (before : List (Step Question Answer Act)) : AsksOnly before before :=
  ⟨[], (List.append_nil before).symm, by simp⟩

theorem AsksOnly.trans {before middle after : List (Step Question Answer Act)}
    (early : AsksOnly before middle) (late : AsksOnly middle after) : AsksOnly before after := by
  obtain ⟨first, rfl, permissions⟩ := early
  obtain ⟨second, rfl, permissions'⟩ := late
  refine ⟨first ++ second, List.append_assoc _ _ _, ?_⟩
  intro step member
  exact (List.mem_append.mp member).elim (permissions step) (permissions' step)

theorem evaluate_asks (auth : AfbAuth) (before : List (Step Question Answer Act)) :
    AsksOnly before (auth.evaluate answers before).2 := by
  induction auth generalizing before with
  | permission text => exact ⟨_, rfl, fun step member => ⟨text, _, List.mem_singleton.mp member⟩⟩
  | or first next left right =>
    rw [AfbAuth.evaluate]
    split
    · exact left before
    · exact (left before).trans (right _)
  | and first next left right =>
    rw [AfbAuth.evaluate]
    split
    · exact (left before).trans (right _)
    · exact left before
  | not first inner => exact inner before
  | no | token | loa | yes | unknown => exact AsksOnly.refl before

theorem ckaPush_room (auth : AfbAuth) (stack : List AfbAuth) (before : List (Step Question Answer Act))
    (room : stack.length + auth.nesting answers before ≤ CKAUTH_STACK_DEPTH) :
    ∃ status, (0 < status ↔ (auth.evaluate answers before).1 = true) ∧
      ∀ callback, (ckaPush callback auth stack).history answers before =
        (ckaPop callback stack status).history answers (auth.evaluate answers before).2 := by
  induction auth generalizing stack before with
  | permission text =>
    simp only [AfbAuth.nesting] at room
    refine ⟨_, by rw [AfbAuth.evaluate, decide_eq_true_iff], fun callback => ?_⟩
    rw [ckaPush_permission callback text stack (by omega), Dialog.history]
    rfl
  | or first next left right =>
    rw [AfbAuth.nesting] at room
    obtain ⟨status, value, same⟩ := left (.or first next :: stack) before
      (by rw [List.length_cons]; omega)
    rw [AfbAuth.evaluate]
    by_cases holds : (first.evaluate answers before).1 = true
    · refine ⟨status, by rw [if_pos holds, value], fun callback => ?_⟩
      rw [ckaPush, if_neg (by omega), same, ckaPop, if_neg (not_le.mpr (value.mpr holds)), if_pos holds]
    · rw [if_neg holds] at room
      obtain ⟨status', value', same'⟩ := right stack (first.evaluate answers before).2 (by omega)
      refine ⟨status', by rw [if_neg holds, value'], fun callback => ?_⟩
      rw [ckaPush, if_neg (by omega), same, ckaPop,
        if_pos (not_lt.mp (fun positive => holds (value.mp positive))), if_neg holds, same']
  | and first next left right =>
    rw [AfbAuth.nesting] at room
    obtain ⟨status, value, same⟩ := left (.and first next :: stack) before
      (by rw [List.length_cons]; omega)
    rw [AfbAuth.evaluate]
    by_cases holds : (first.evaluate answers before).1 = true
    · rw [if_pos holds] at room
      obtain ⟨status', value', same'⟩ := right stack (first.evaluate answers before).2 (by omega)
      refine ⟨status', by rw [if_pos holds, value'], fun callback => ?_⟩
      rw [ckaPush, if_neg (by omega), same, ckaPop, if_pos (value.mpr holds), if_pos holds, same']
    · refine ⟨status, by rw [if_neg holds, value], fun callback => ?_⟩
      rw [ckaPush, if_neg (by omega), same, ckaPop, if_neg (fun positive => holds (value.mp positive)),
        if_neg holds]
  | not first inner =>
    rw [AfbAuth.nesting] at room
    obtain ⟨status, value, same⟩ := inner (.not first :: stack) before (by rw [List.length_cons]; omega)
    refine ⟨if status ≤ 0 then 1 else 0, ?_, fun callback => ?_⟩
    · rw [AfbAuth.evaluate, Bool.not_eq_true', ← Bool.not_eq_true, ← value, not_lt]
      split <;> simp [*]
    · rw [ckaPush, if_neg (by omega), same, ckaPop]
      rfl
  | yes =>
    simp only [AfbAuth.nesting] at room
    refine ⟨1, by simp [AfbAuth.evaluate], fun callback => ?_⟩
    rw [ckaPush, if_neg (by omega)]
    simp only [ckaPop, AfbAuth.evaluate]
  | no | token | loa | unknown =>
    simp only [AfbAuth.nesting] at room
    refine ⟨0, by simp [AfbAuth.evaluate], fun callback => ?_⟩
    rw [ckaPush, if_neg (by omega)]
    · simp only [ckaPop, AfbAuth.evaluate]
    all_goals simp

/-- The check ends with an error after some permissions were asked. -/
def Overruns (auth : AfbAuth) (stack : List AfbAuth) (before : List (Step Question Answer Act)) : Prop :=
  ∃ after, AsksOnly before after ∧ ∀ callback : Int → Dialog Question Answer Act,
    (ckaPush callback auth stack).history answers before = (callback (-E2BIG)).history answers after

theorem ckaPush_over (auth : AfbAuth) (stack : List AfbAuth) (before : List (Step Question Answer Act))
    (beyond : CKAUTH_STACK_DEPTH ≤ stack.length) : Overruns answers auth stack before := by
  refine ⟨before, AsksOnly.refl before, fun callback => ?_⟩
  cases auth <;> rw [ckaPush.eq_def, if_pos beyond]

section
variable {answers} {auth first next : AfbAuth} {stack : List AfbAuth} {before : List (Step Question Answer Act)}
  (push : ∀ callback : Int → Dialog Question Answer Act,
    ckaPush callback auth stack = ckaPush callback first (auth :: stack))
include push

/-- The node that is evaluated first has no room. -/
theorem Overruns.inside (deep : Overruns answers first (auth :: stack) before) :
    Overruns answers auth stack before := by
  obtain ⟨after, asks, ended⟩ := deep
  exact ⟨after, asks, fun callback => (congrArg (·.history answers before) (push callback)).trans (ended callback)⟩

/-- That node had room, and the one that is evaluated after it has none. -/
theorem Overruns.later (room : (auth :: stack).length + first.nesting answers before ≤ CKAUTH_STACK_DEPTH)
    (pop : ∀ (callback : Int → Dialog Question Answer Act) (status : Int),
      (0 < status ↔ (first.evaluate answers before).1 = true) →
        ckaPop callback (auth :: stack) status = ckaPush callback next stack)
    (deep : Overruns answers next stack (first.evaluate answers before).2) : Overruns answers auth stack before := by
  obtain ⟨status, value, same⟩ := ckaPush_room answers first (auth :: stack) before room
  obtain ⟨after, asks, ended⟩ := deep
  refine ⟨after, (evaluate_asks answers first before).trans asks, fun callback => ?_⟩
  rw [push, same, pop callback status value, ended]

end

theorem ckaPush_full (auth : AfbAuth) (stack : List AfbAuth) (before : List (Step Question Answer Act))
    (full : CKAUTH_STACK_DEPTH < stack.length + auth.nesting answers before) : Overruns answers auth stack before := by
  induction auth generalizing stack before with
  | or first next left right =>
    by_cases beyond : CKAUTH_STACK_DEPTH ≤ stack.length
    · exact ckaPush_over answers _ stack before beyond
    have push (callback : Int → Dialog Question Answer Act) :
        ckaPush callback (.or first next) stack = ckaPush callback first (.or first next :: stack) := by
      rw [ckaPush, if_neg beyond]
    rw [AfbAuth.nesting] at full
    by_cases deep : CKAUTH_STACK_DEPTH < stack.length + (first.nesting answers before + 1)
    · exact Overruns.inside push (left _ before (by rw [List.length_cons]; omega))
    · have fails : (first.evaluate answers before).1 ≠ true := by
        intro holds
        rw [if_pos holds] at full
        omega
      rw [if_neg fails] at full
      apply Overruns.later push (by rw [List.length_cons]; omega) _ (right stack _ (by omega))
      intro callback status value
      rw [ckaPop, if_pos (not_lt.mp (fun positive => fails (value.mp positive)))]
  | and first next left right =>
    by_cases beyond : CKAUTH_STACK_DEPTH ≤ stack.length
    · exact ckaPush_over answers _ stack before beyond
    have push (callback : Int → Dialog Question Answer Act) :
        ckaPush callback (.and first next) stack = ckaPush callback first (.and first next :: stack) := by
      rw [ckaPush, if_neg beyond]
    rw [AfbAuth.nesting] at full
    by_cases deep : CKAUTH_STACK_DEPTH < stack.length + (first.nesting answers before + 1)
    · exact Overruns.inside push (left _ before (by rw [List.length_cons]; omega))
    · have holds : (first.evaluate answers before).1 = true := by
        by_contra fails
        rw [if_neg fails] at full
        omega
      rw [if_pos holds] at full
      apply Overruns.later push (by rw [List.length_cons]; omega) _ (right stack _ (by omega))
      intro callback status value
      rw [ckaPop, if_pos (value.mpr holds)]
  | not first inner =>
    by_cases beyond : CKAUTH_STACK_DEPTH ≤ stack.length
    · exact ckaPush_over answers _ stack before beyond
    rw [AfbAuth.nesting] at full
    apply Overruns.inside _ (inner (.not first :: stack) before (by rw [List.length_cons]; omega))
    intro callback
    rw [ckaPush, if_neg beyond]
  | permission | yes | no | token | loa | unknown =>
    exact ckaPush_over answers _ stack before (Nat.lt_succ_iff.mp full)

/-- Whatever the callback does next, the check has asked for permissions and calls it
once, with a status that tells whether the authorization holds, or with an error. -/
theorem authCheck_evaluates (auth : AfbAuth) (before : List (Step Question Answer Act)) :
    let given : Bool := answers before .allocate
    let started := before ++ [.asked .allocate given]
    ∃ status after, AsksOnly started after ∧
      (∀ callback : Int → Dialog Question Answer Act,
        (authCheck auth callback).history answers before = (callback status).history answers after) ∧
      (0 < status → (auth.evaluate answers started).1 = true) ∧
      (given = false → status = -ENOMEM) ∧
      (given = true → auth.nesting answers started ≤ CKAUTH_STACK_DEPTH →
        (0 < status ↔ (auth.evaluate answers started).1 = true)) ∧
      (given = true → CKAUTH_STACK_DEPTH < auth.nesting answers started → status < 0) ∧
      ∀ granted, (∀ before text, answers before (.permission text) = granted text) →
        (auth.evaluate answers started).1 = auth.holds granted := by
  intro given started
  have plain (granted : Bytes → Int) (fixed : ∀ before text, answers before (.permission text) = granted text) :=
    evaluate_holds answers granted fixed auth started
  have begins (callback : Int → Dialog Question Answer Act) : (authCheck auth callback).history answers before =
      (if given then ckaPush callback auth [] else callback (-ENOMEM)).history answers started := rfl
  cases memory : given with
  | false =>
    refine ⟨-ENOMEM, started, AsksOnly.refl started, fun callback => ?_, fun positive => ?_, fun _ => rfl, ?_⟩
    · rw [begins, memory]
      rfl
    · exact absurd positive (by decide)
    · exact ⟨fun refused => (by cases refused), fun refused => (by cases refused), plain⟩
  | true =>
    by_cases room : auth.nesting answers started ≤ CKAUTH_STACK_DEPTH
    · obtain ⟨status, value, same⟩ := ckaPush_room answers auth [] started (by simpa using room)
      refine ⟨status, _, evaluate_asks answers auth started, fun callback => ?_, value.mp, ?_, ?_⟩
      · rw [begins, memory, if_pos rfl, same, ckaPop]
      · exact fun refused => (by cases refused)
      · exact ⟨fun _ _ => value, fun _ deep => absurd room (not_le.mpr deep), plain⟩
    · obtain ⟨after, asks, ended⟩ := ckaPush_full answers auth [] started (by simpa using room)
      refine ⟨-E2BIG, after, asks, fun callback => ?_, fun positive => ?_, ?_, ?_⟩
      · rw [begins, memory, if_pos rfl, ended]
      · exact absurd positive (by decide)
      · exact fun refused => (by cases refused)
      · exact ⟨fun _ shallow => absurd shallow room, fun _ _ => by decide, plain⟩

end

end AppManager.Binding
