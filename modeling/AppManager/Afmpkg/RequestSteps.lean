import AppManager.Afmpkg.Request
import Mathlib.Data.List.Induction

/-! What one line does to a request, and what follows for sequences of lines. -/

namespace AppManager.Afmpkg
open AppManager.Lib AppManager.Lib.Libc AppManager.Utils

def isBodyKey : Key → Bool
  | .FILE | .COUNT | .INDEX | .PACKAGE | .REDPAKID | .ROOT | .TRANSID => true
  | .BEGIN | .END | .STATUS => false

/-- The whole text is a number that `strtol` reads, in the range of a count. -/
def Numbered (text : Bytes) (number : Nat) : Prop :=
  (strtol text).rest = [] ∧ (strtol text).value = number ∧ 1 ≤ number ∧ (number : Int) ≤ UINT_MAX

def Rejects (req : Request) (result : Int × Request) : Prop :=
  ∃ scode msg, scode < 0 ∧ result = afmpkgRequestError req scode msg

theorem rejects_error (req : Request) (scode : Int) (msg : Bytes) (negative : scode < 0) :
    Rejects req (afmpkgRequestError req scode msg) := ⟨scode, msg, negative, rfl⟩

theorem error_not_zero {req : Request} {scode : Int} {msg : Bytes} (negative : scode < 0) :
    (afmpkgRequestError req scode msg).1 ≠ 0 := Int.ne_of_lt negative

theorem rejects_not_zero {req : Request} {result : Int × Request} (rejects : Rejects req result) :
    result.1 ≠ 0 := by
  obtain ⟨scode, msg, negative, same⟩ := rejects
  rw [same]
  exact error_not_zero negative

theorem addNumber_cases (req : Request) (errors : NumberErrors) (present : Nat) (disorder : Nat → Bool)
    (set : Nat → Request) (line : Bytes)
    (negative : errors.unexpected.1 < 0 ∧ errors.invalid.1 < 0 ∧ errors.range.1 < 0 ∧ errors.order.1 < 0) :
    (∃ number, req.kind ≠ .unset ∧ present = 0 ∧ Numbered (cstr line) number ∧ disorder number = false ∧
      addNumber req errors present disorder set line = (0, set number)) ∨
    ((∀ number, req.kind ≠ .unset → present = 0 → Numbered (cstr line) number → disorder number = true) ∧
      Rejects req (addNumber req errors present disorder set line)) := by
  obtain ⟨unexpected, invalid, range, order⟩ := negative
  unfold addNumber
  by_cases early : present ≠ 0 ∨ req.kind = .unset
  · rw [if_pos early]
    refine Or.inr ⟨fun number begun first _ => ?_, rejects_error _ _ _ unexpected⟩
    exact absurd early (not_or.mpr ⟨not_not.mpr first, begun⟩)
  rw [if_neg early]
  rw [not_or, not_not] at early
  simp only
  by_cases whole : (strtol (cstr line)).rest ≠ []
  · rw [if_pos whole]
    exact Or.inr ⟨fun number _ _ numbered => absurd numbered.1 whole, rejects_error _ _ _ invalid⟩
  rw [if_neg whole]
  by_cases outside : (strtol (cstr line)).value < 1 ∨ UINT_MAX < (strtol (cstr line)).value ∨
      ((strtol (cstr line)).value = LONG_MAX ∧ (strtol (cstr line)).erange = true)
  · rw [if_pos outside]
    refine Or.inr ⟨fun number _ _ numbered => ?_, rejects_error _ _ _ range⟩
    obtain ⟨-, value, positive, small⟩ := numbered
    rw [value] at outside
    unfold UINT_MAX at small outside
    unfold LONG_MAX at outside
    omega
  rw [if_neg outside]
  rw [not_or, not_or] at outside
  have value : ((strtol (cstr line)).value.toNat : Int) = (strtol (cstr line)).value := by omega
  by_cases ordered : disorder (strtol (cstr line)).value.toNat = true
  · rw [if_pos ordered]
    refine Or.inr ⟨fun number _ _ numbered => ?_, rejects_error _ _ _ order⟩
    have same : (strtol (cstr line)).value.toNat = number := by
      rw [numbered.2.1]
      rfl
    rw [← same]
    exact ordered
  · rw [if_neg ordered]
    refine Or.inl ⟨_, early.2, early.1, ⟨not_not.mp whole, value.symm, ?_, ?_⟩, ?_, rfl⟩
    · omega
    · omega
    · exact Bool.not_eq_true _ ▸ ordered

theorem addNumber_zero {req : Request} {errors : NumberErrors} {present : Nat} {disorder : Nat → Bool}
    {set : Nat → Request} {line : Bytes}
    (negative : errors.unexpected.1 < 0 ∧ errors.invalid.1 < 0 ∧ errors.range.1 < 0 ∧ errors.order.1 < 0)
    (zero : (addNumber req errors present disorder set line).1 = 0) :
    req.kind ≠ .unset ∧ ∃ number, addNumber req errors present disorder set line = (0, set number) := by
  rcases addNumber_cases req errors present disorder set line negative with
    ⟨number, begun, _, _, _, result⟩ | ⟨_, rejects⟩
  · exact ⟨begun, number, result⟩
  · exact absurd zero (rejects_not_zero rejects)

theorem addText_cases (req : Request) (scode : Int) (msg : Bytes) (present : Option Bytes)
    (set : Bytes → Request) (line : Bytes) (negative : scode < 0) :
    (req.kind ≠ .unset ∧ present = none ∧ addText req scode msg present set line = (0, set (cstr line))) ∨
    ((req.kind ≠ .unset → present ≠ none) ∧ Rejects req (addText req scode msg present set line)) := by
  unfold addText
  by_cases early : present ≠ none ∨ req.kind = .unset
  · rw [if_pos early]
    exact Or.inr ⟨fun begun => early.resolve_right begun, rejects_error _ _ _ negative⟩
  · rw [if_neg early]
    rw [not_or, not_not] at early
    exact Or.inl ⟨early.2, early.1, rfl⟩

theorem addText_zero {req : Request} {scode : Int} {msg : Bytes} {present : Option Bytes}
    {set : Bytes → Request} {line : Bytes} (negative : scode < 0)
    (zero : (addText req scode msg present set line).1 = 0) :
    req.kind ≠ .unset ∧ addText req scode msg present set line = (0, set (cstr line)) := by
  rcases addText_cases req scode msg present set line negative with ⟨begun, _, result⟩ | ⟨_, rejects⟩
  · exact ⟨begun, result⟩
  · exact absurd zero (rejects_not_zero rejects)

theorem addBegin_zero {req : Request} {value : Bytes} (zero : (addBegin req value).1 = 0) :
    req.kind = .unset ∧ getOperationKind value ≠ .unset ∧
      addBegin req value = (0, { req with kind := getOperationKind value }) := by
  unfold addBegin at zero ⊢
  by_cases again : req.kind ≠ .unset
  · rw [if_pos again] at zero
    exact absurd zero (error_not_zero (by decide))
  rw [if_neg again] at zero ⊢
  by_cases unknown : getOperationKind value = .unset
  · rw [if_pos unknown] at zero
    exact absurd zero (error_not_zero (by decide))
  · exact ⟨not_not.mp again, unknown, if_neg unknown⟩

theorem addEnd_zero {req : Request} {value : Bytes} (zero : (addEnd req value).1 = 0) :
    req.kind = getOperationKind value ∧ addEnd req value = (0, { req with state := .ready }) := by
  unfold addEnd at zero ⊢
  by_cases other : req.kind ≠ getOperationKind value
  · rw [if_pos other] at zero
    exact absurd zero (error_not_zero (by decide))
  · exact ⟨not_not.mp other, if_neg other⟩

theorem addStatus_zero {req : Request} {value : Bytes} (zero : (addStatus req value).1 = 0) :
    req.kind = .unset ∧
      addStatus req value = (0, { req with transid := some (cstr value), kind := .getStatus, state := .ready }) := by
  unfold addStatus at zero ⊢
  by_cases again : req.kind ≠ .unset ∨ req.transid ≠ none
  · rw [if_pos again] at zero
    exact absurd zero (error_not_zero (by decide))
  · exact ⟨not_not.mp (not_or.mp again).1, if_neg again⟩

theorem addFile_zero {req : Request} {value : Bytes} (zero : (addFile req value).1 = 0) :
    req.kind ≠ .unset ∧ ∃ files, addFile req value = (0, { req with apkg := { req.apkg with files := files } }) := by
  unfold addFile at zero ⊢
  by_cases early : req.kind = .unset
  · rw [if_pos early] at zero
    exact absurd zero (error_not_zero (by decide))
  rw [if_neg early] at zero ⊢
  by_cases failed : (pathEntryAddLength req.apkg.files value value.length).1 < 0
  · rw [if_pos failed] at zero
    exact absurd zero (error_not_zero (by decide))
  · exact ⟨early, _, if_neg failed⟩

theorem addLine_key (req : Request) (pending : req.state = .pending) (key : Key) (value : Bytes) :
    afmpkgRequestAddLine req (keyLine key value) =
      match key with
      | .BEGIN => addBegin req value
      | .COUNT => addCount req value
      | .END => addEnd req value
      | .FILE => addFile req value
      | .INDEX => addIndex req value
      | .PACKAGE => addPackage req value
      | .REDPAKID => addRedpakid req value
      | .ROOT => addRoot req value
      | .TRANSID => addTransid req value
      | .STATUS => addStatus req value := by
  have found : lineKey (keyLine key value) = some (key, value) := (lineKey_eq_some _ _ _).mpr rfl
  unfold afmpkgRequestAddLine
  rw [if_neg (not_not.mpr pending), found]
  cases key <;> rfl

theorem end_accepted {req : Request} (pending : req.state = .pending) {operation : Bytes}
    (same : req.kind = getOperationKind operation) :
    afmpkgRequestAddLine req (keyLine .END operation) = (0, { req with state := .ready }) :=
  (addLine_key req pending .END operation).trans (if_neg (not_not.mpr same))

theorem addLine_late (req : Request) (late : req.state ≠ .pending) (line : Bytes) :
    afmpkgRequestAddLine req line = afmpkgRequestError req (-1000) (ascii "line after end") := by
  rw [afmpkgRequestAddLine, if_pos late]

theorem addLine_bad (req : Request) (pending : req.state = .pending) (line : Bytes)
    (bad : lineKey line = none) :
    afmpkgRequestAddLine req line = afmpkgRequestError req (-1021) (ascii "bad line") := by
  rw [afmpkgRequestAddLine, if_neg (not_not.mpr pending), bad]

/-- An accepted line and what it does to the state and to the kind. -/
inductive Effect (req : Request) (line : Bytes) (next : Request) : Prop where
  | begins (value : Bytes) (same : line = keyLine .BEGIN value) (first : req.kind = .unset)
      (known : getOperationKind value ≠ .unset) (result : next = { req with kind := getOperationKind value })
  | ends (value : Bytes) (same : line = keyLine .END value) (operation : req.kind = getOperationKind value)
      (result : next = { req with state := .ready })
  | status (value : Bytes) (same : line = keyLine .STATUS value) (first : req.kind = .unset)
      (kind : next.kind = .getStatus) (state : next.state = .ready)
  | body (key : Key) (value : Bytes) (same : line = keyLine key value) (isBody : isBodyKey key = true)
      (begun : req.kind ≠ .unset) (kind : next.kind = req.kind) (state : next.state = .pending)

theorem addLine_effect (req : Request) (line : Bytes) (zero : (afmpkgRequestAddLine req line).1 = 0) :
    req.state = .pending ∧ Effect req line (afmpkgRequestAddLine req line).2 := by
  by_cases late : req.state ≠ .pending
  · rw [addLine_late req late] at zero
    exact absurd zero (error_not_zero (by decide))
  have pending := not_not.mp late
  refine ⟨pending, ?_⟩
  cases found : lineKey line with
  | none =>
    rw [addLine_bad req pending line found] at zero
    exact absurd zero (error_not_zero (by decide))
  | some pair =>
    obtain ⟨key, value⟩ := pair
    have same := (lineKey_eq_some line key value).mp found
    have code := addLine_key req pending key value
    rw [← same] at code
    cases key with
    | BEGIN =>
      rw [code] at zero ⊢
      obtain ⟨first, known, result⟩ := addBegin_zero zero
      exact .begins value same first known (congrArg Prod.snd result)
    | END =>
      rw [code] at zero ⊢
      obtain ⟨operation, result⟩ := addEnd_zero zero
      exact .ends value same operation (congrArg Prod.snd result)
    | STATUS =>
      rw [code] at zero ⊢
      obtain ⟨first, result⟩ := addStatus_zero zero
      simp only [result]
      exact .status value same first rfl rfl
    | FILE =>
      rw [code] at zero ⊢
      obtain ⟨begun, files, result⟩ := addFile_zero zero
      simp only [result]
      exact .body .FILE value same rfl begun rfl pending
    | COUNT | INDEX =>
      simp only [addCount, addIndex] at code
      rw [code] at zero ⊢
      obtain ⟨begun, number, result⟩ := addNumber_zero (by decide) zero
      rw [result]
      exact .body _ value same rfl begun rfl pending
    | PACKAGE | REDPAKID | ROOT | TRANSID =>
      simp only [addPackage, addRedpakid, addRoot, addTransid] at code
      rw [code] at zero ⊢
      obtain ⟨begun, result⟩ := addText_zero (by decide) zero
      rw [result]
      exact .body _ value same rfl begun rfl pending

/-- An error is recorded over no other error, so that a line either is accepted and
records none, or is refused with the code and the message that the request keeps. -/
theorem addLine_scode (req : Request) (line : Bytes) :
    ((afmpkgRequestAddLine req line).1 = 0 ∧ (afmpkgRequestAddLine req line).2.scode = req.scode) ∨
    ∃ base scode msg, scode < 0 ∧ base.scode = req.scode ∧
      afmpkgRequestAddLine req line = afmpkgRequestError base scode msg := by
  have refuse : ∀ (base : Request) (scode : Int) (msg : Bytes), scode < 0 → base.scode = req.scode →
      ((afmpkgRequestError base scode msg).1 = 0 ∧
        (afmpkgRequestError base scode msg).2.scode = req.scode) ∨
      ∃ base' scode' msg', scode' < 0 ∧ base'.scode = req.scode ∧
        afmpkgRequestError base scode msg = afmpkgRequestError base' scode' msg' :=
    fun base scode msg negative same => Or.inr ⟨base, scode, msg, negative, same, rfl⟩
  have accept : ∀ base : Request, base.scode = req.scode →
      (((0, base) : Int × Request).1 = 0 ∧ ((0, base) : Int × Request).2.scode = req.scode) ∨
      ∃ base' scode' msg', scode' < 0 ∧ base'.scode = req.scode ∧
        ((0, base) : Int × Request) = afmpkgRequestError base' scode' msg' :=
    fun base same => Or.inl ⟨rfl, same⟩
  unfold afmpkgRequestAddLine
  split
  · exact refuse _ _ _ (by decide) rfl
  · cases lineKey line with
    | none => exact refuse _ _ _ (by decide) rfl
    | some pair =>
      obtain ⟨key, value⟩ := pair
      cases key with
      | BEGIN =>
        simp only [addBegin]
        split
        · exact refuse _ _ _ (by decide) rfl
        · split
          · exact refuse _ _ _ (by decide) rfl
          · exact accept _ rfl
      | COUNT | INDEX =>
        simp only [addCount, addIndex, addNumber]
        split
        · exact refuse _ _ _ (by decide) rfl
        · split
          · exact refuse _ _ _ (by decide) rfl
          · split
            · exact refuse _ _ _ (by decide) rfl
            · split
              · exact refuse _ _ _ (by decide) rfl
              · exact accept _ rfl
      | END =>
        simp only [addEnd]
        split
        · exact refuse _ _ _ (by decide) rfl
        · exact accept _ rfl
      | FILE =>
        simp only [addFile]
        split
        · exact refuse _ _ _ (by decide) rfl
        · split
          · exact refuse _ _ _ (by decide) rfl
          · exact accept _ rfl
      | PACKAGE | REDPAKID | ROOT | TRANSID =>
        simp only [addPackage, addRedpakid, addRoot, addTransid, addText]
        split
        · exact refuse _ _ _ (by decide) rfl
        · exact accept _ rfl
      | STATUS =>
        simp only [addStatus]
        split
        · exact refuse _ _ _ (by decide) rfl
        · exact accept _ rfl

theorem addLine_sign (req : Request) (line : Bytes) :
    0 ≤ (afmpkgRequestAddLine req line).1 ↔ (afmpkgRequestAddLine req line).1 = 0 := by
  rcases addLine_scode req line with ⟨zero, _⟩ | ⟨base, scode, msg, negative, _, result⟩
  · exact iff_of_true (Int.le_of_eq zero.symm) zero
  · rw [result]
    exact iff_of_false (Int.not_le.mpr negative) (error_not_zero negative)

def Accepted (req : Request) (lines : List Bytes) : Prop := ∀ rc ∈ (addLines req lines).1, rc = 0

theorem accepted_nil (req : Request) : Accepted req [] := by
  simp [Accepted, addLines]

theorem accepted_cons (req : Request) (line : Bytes) (rest : List Bytes) :
    Accepted req (line :: rest) ↔ (afmpkgRequestAddLine req line).1 = 0 ∧
      Accepted (afmpkgRequestAddLine req line).2 rest := by
  simp [Accepted, addLines]

theorem addLines_snoc (req : Request) (lines : List Bytes) (line : Bytes) :
    (addLines req (lines ++ [line])).2 = (afmpkgRequestAddLine (addLines req lines).2 line).2 ∧
      (Accepted req (lines ++ [line]) ↔
        Accepted req lines ∧ (afmpkgRequestAddLine (addLines req lines).2 line).1 = 0) := by
  induction lines generalizing req with
  | nil => simp [addLines, Accepted]
  | cons first rest ih =>
    obtain ⟨request, accepted⟩ := ih (afmpkgRequestAddLine req first).2
    rw [List.cons_append, accepted_cons, accepted_cons, accepted, and_assoc]
    exact ⟨request, Iff.rfl⟩

theorem accepted_late (req : Request) (late : req.state ≠ .pending) (lines : List Bytes) :
    Accepted req lines ↔ lines = [] := by
  cases lines with
  | nil => exact iff_of_true (accepted_nil req) rfl
  | cons line rest =>
    apply iff_of_false
    · intro accepted
      have zero := ((accepted_cons req line rest).mp accepted).1
      rw [addLine_late req late] at zero
      exact error_not_zero (by decide) zero
    · exact List.cons_ne_nil line rest

theorem addLines_negative (req : Request) (lines : List Bytes) :
    (∃ rc ∈ (addLines req lines).1, rc < 0) ↔ ¬Accepted req lines := by
  induction lines generalizing req with
  | nil => exact iff_of_false (by simp [addLines]) (not_not.mpr (accepted_nil req))
  | cons line rest ih =>
    have sign := addLine_sign req line
    rw [accepted_cons, Classical.not_and_iff_not_or_not, ← ih, addLines]
    simp only [List.mem_cons, exists_eq_or_imp]
    apply or_congr_left
    omega

theorem accepted_scode (req : Request) (lines : List Bytes) (accepted : Accepted req lines) :
    (addLines req lines).2.scode = req.scode := by
  induction lines generalizing req with
  | nil => rfl
  | cons line rest ih =>
    obtain ⟨zero, later⟩ := (accepted_cons req line rest).mp accepted
    rcases addLine_scode req line with ⟨_, same⟩ | ⟨base, scode, msg, negative, _, refused⟩
    · rw [addLines]
      exact (ih _ later).trans same
    · rw [refused] at zero
      exact absurd zero (error_not_zero negative)

theorem addLines_error (req : Request) (failed : req.state = .error) (code : req.scode ≠ 0)
    (lines : List Bytes) :
    (addLines req lines).2 = req ∧ ∀ rc ∈ (addLines req lines).1, rc < 0 := by
  have step : ∀ line, afmpkgRequestAddLine req line = (-1000, req) := by
    intro line
    rw [addLine_late req (by rw [failed]; decide), afmpkgRequestError, if_neg code]
  induction lines with
  | nil => simp [addLines]
  | cons line rest ih =>
    rw [addLines, step line]
    exact ⟨ih.1, by simpa using ih.2⟩

theorem first_rejection (before : List Bytes) (line : Bytes) (after : List Bytes)
    (accepted : Accepted afmpkgRequestInit.2 before)
    (refused : (afmpkgRequestAddLine (addLines afmpkgRequestInit.2 before).2 line).1 ≠ 0) :
    ∃ base scode msg, scode < 0 ∧
      afmpkgRequestAddLine (addLines afmpkgRequestInit.2 before).2 line =
        afmpkgRequestError base scode msg ∧
      ((afmpkgRequestError base scode msg).2.state = .error ∧
        (afmpkgRequestError base scode msg).2.scode = scode ∧
        (afmpkgRequestError base scode msg).2.msg = some msg) ∧
      (addLines (afmpkgRequestError base scode msg).2 after).2 = (afmpkgRequestError base scode msg).2 ∧
      ∀ rc ∈ (addLines (afmpkgRequestError base scode msg).2 after).1, rc < 0 := by
  have clear := accepted_scode afmpkgRequestInit.2 before accepted
  rcases addLine_scode (addLines afmpkgRequestInit.2 before).2 line with
    ⟨zero, _⟩ | ⟨base, scode, msg, negative, same, result⟩
  · exact absurd zero refused
  · have first : base.scode = 0 := same.trans clear
    have recorded : (afmpkgRequestError base scode msg).2 =
        { base with state := .error, scode := scode, msg := some msg } := by
      rw [afmpkgRequestError, if_pos first]
    refine ⟨base, scode, msg, negative, result, ?_, ?_⟩
    · rw [recorded]
      exact ⟨rfl, rfl, rfl⟩
    · apply addLines_error
      · rw [recorded]
      · rw [recorded]
        exact Int.ne_of_lt negative

end AppManager.Afmpkg
