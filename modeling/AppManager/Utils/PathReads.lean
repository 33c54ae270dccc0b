import AppManager.Utils.PathBuffer
import AppManager.Utils.PathTours

/-! A traversal in a buffer gives its callback nothing but the strings of its visits. -/

namespace AppManager.Utils
open AppManager.Lib AppManager.Lib.Libc

section
variable {State : Type} {body body' : State → Bytes → PathEntry → Int × State} {lead : Bytes} {size : Nat}

theorem visitEntry_congr (flags : ForallFlags) (visible : flags.noPath = false) (emit before after : Bool)
    (visit : Visit) (same : (emit && (before || after)) = true →
      ∀ state, onString body lead state visit = onString body' lead state visit)
    {loop loop' : Bytes × State → Int × Bytes × State} {plain : State → Int × State}
    (inner : ∀ buffer state, Written buffer lead visit.path size → loop (buffer, state) = loop' (buffer, state) ∧
      Agrees lead visit.path size (loop (buffer, state)) (plain state))
    (buffer : Bytes) (state : State) (written : Written buffer lead visit.path size) :
    visitEntry (callIn (fun state buffer entry => body state (cstr buffer) entry) flags lead.length)
        emit before after visit loop (buffer, state) =
      visitEntry (callIn (fun state buffer entry => body' state (cstr buffer) entry) flags lead.length)
        emit before after visit loop' (buffer, state) := by
  have call : (emit && (before || after)) = true → ∀ buffer state, Written buffer lead visit.path size →
      callIn (fun state buffer entry => body state (cstr buffer) entry) flags lead.length (buffer, state) visit =
      callIn (fun state buffer entry => body' state (cstr buffer) entry) flags lead.length (buffer, state) visit := by
    intro shown buffer state written
    have here := same shown state
    unfold onString at here
    simp only [callIn, visible, Bool.false_eq_true, ↓reduceIte]
    rw [written.string, here]
  have first : Agrees lead visit.path size
      (if (emit && before) = true then
        callIn (fun state buffer entry => body state (cstr buffer) entry) flags lead.length
          (buffer, state) visit else (0, buffer, state))
      (if (emit && before) = true then onString body lead state visit else (0, state)) := by
    split
    · exact callIn_agrees body flags visible visit state written
    · exact ⟨rfl, rfl, written⟩
  have early : (if (emit && before) = true then
        callIn (fun state buffer entry => body state (cstr buffer) entry) flags lead.length
          (buffer, state) visit else (0, buffer, state)) =
      if (emit && before) = true then
        callIn (fun state buffer entry => body' state (cstr buffer) entry) flags lead.length
          (buffer, state) visit else (0, buffer, state) := by
    split
    · next shown => exact call (by cases emit <;> cases before <;> simp_all) buffer state written
    · rfl
  unfold visitEntry
  simp only
  rw [← early]
  generalize (if (emit && before) = true then
    callIn (fun state buffer entry => body state (cstr buffer) entry) flags lead.length
      (buffer, state) visit else (0, buffer, state)) = start at first ⊢
  have second := first.andThen fun buffer state written => (inner buffer state written).2
  have middle : (if start.1 = 0 then loop start.2 else start) = if start.1 = 0 then loop' start.2 else start := by
    split
    · exact (inner start.2.1 start.2.2 first.written).1
    · rfl
  rw [← middle]
  generalize (if start.1 = 0 then loop start.2 else start) = ended at second ⊢
  split
  · next shown => exact call (by cases emit <;> cases after <;> simp_all) ended.2.1 ended.2.2 second.written
  · rfl

theorem forChildrenIn_congr (flags : ForallFlags) (visible : flags.noPath = false) (siblings : Entry)
    (parent : PathEntry) (path : Bytes) (same : ∀ visit ∈ visitsBelow flags parent path siblings,
      ∀ state, onString body lead state visit = onString body' lead state visit)
    (buffer : Bytes) (state : State) (written : Written buffer lead path size) :
    forChildrenIn (fun state buffer entry => body state (cstr buffer) entry) flags lead.length size parent path
        siblings (buffer, state) =
      forChildrenIn (fun state buffer entry => body' state (cstr buffer) entry) flags lead.length size parent path
        siblings (buffer, state) := by
  induction siblings generalizing parent path buffer state with
  | null => rfl
  | node label children sibling inner rest =>
    simp only [visitsBelow, List.mem_append] at same
    unfold forChildrenIn
    cases entered : enterPath flags size label path with
    | none => rfl
    | some inside =>
      obtain ⟨extends_, short⟩ := enterPath_append written.room entered
      have longer := written.enter (inside.drop path.length) (by rw [← extends_]; exact short)
      rw [← extends_] at longer
      have shown : underPath flags label path = inside := by
        rw [enterPath_eq] at entered
        split at entered
        · cases entered
        · exact Option.some.inj entered
      rw [shown] at same
      have loop := fun buffer state written => And.intro
        (inner (parent.child label children) inside (fun visit member => same visit (Or.inl (Or.inl (Or.inr member))))
          buffer state written)
        (forChildrenIn_agrees body flags visible children (parent.child label children) inside buffer
          state written)
      have here := visitEntry_congr flags visible (emits flags label) flags.before
        flags.after ⟨parent.child label children, inside⟩ (by
          intro given
          rw [Bool.and_eq_true, Bool.or_eq_true] at given
          obtain ⟨emitted, first | last⟩ := given
          · exact same _ (Or.inl (Or.inl (Or.inl (by simp [emitted, first]))))
          · exact same _ (Or.inl (Or.inr (by simp [emitted, last])))) loop _ state longer
      have agrees := visitEntry_agrees body flags visible (emits flags label) flags.before flags.after
        ⟨parent.child label children, inside⟩ _ _ (fun buffer state written => (loop buffer state written).2)
        _ state longer
      have back : Agrees lead path size _ _ := Agrees.leave path (inside.drop path.length)
        (by rw [← extends_]; exact agrees)
      have later : ∀ result : Int × Bytes × State, Written result.2.1 lead path size →
          (if result.1 = 0 then forChildrenIn (fun state buffer entry => body state (cstr buffer) entry) flags
            lead.length size parent path sibling result.2 else result) =
          if result.1 = 0 then forChildrenIn (fun state buffer entry => body' state (cstr buffer) entry) flags
            lead.length size parent path sibling result.2 else result := by
        intro result written
        split
        · exact rest parent path (fun visit member => same visit (Or.inr member)) _ _ written
        · rfl
      exact (later _ back.written).trans (congrArg (fun result : Int × Bytes × State =>
        if result.1 = 0 then forChildrenIn (fun state buffer entry => body' state (cstr buffer) entry) flags
          lead.length size parent path sibling result.2 else result) here)

theorem forEachIn_congr (flags : ForallFlags) (visible : flags.noPath = false) (silent : flags.silentRoot = true)
    (ordered : flags.before = true) (root : PathEntry) (buffer : Bytes) (state : State)
    (starts : buffer.take lead.length = lead) (room : lead.length < buffer.length)
    (same : ∀ visit ∈ visitsBelow flags root [] root.children,
      ∀ state, onString body lead state visit = onString body' lead state visit) :
    forEachIn (fun state buffer entry => body state (cstr buffer) entry) flags root lead.length (buffer, state) =
      forEachIn (fun state buffer entry => body' state (cstr buffer) entry) flags root lead.length (buffer, state) := by
  have written : Written buffer lead [] (buffer.length - lead.length) := ⟨by simpa using starts, by omega, by simp; omega⟩
  unfold forEachIn
  simp only [ordered, silent, Bool.not_true, Bool.false_and, Bool.false_eq_true, ↓reduceIte]
  exact visitEntry_congr flags visible false _ _ ⟨root, []⟩ (by simp)
    (fun buffer state written => ⟨forChildrenIn_congr flags visible root.children root [] same buffer state written,
      forChildrenIn_agrees body flags visible root.children root [] buffer state written⟩) buffer state written

end
end AppManager.Utils
