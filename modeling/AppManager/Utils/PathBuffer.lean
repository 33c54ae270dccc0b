import AppManager.Utils.PathVisits

/-! The bytes of the buffer during a traversal that starts at some place of it. A
callback that reads the whole buffer as a string reads what stands before that
place, followed by the path of the visited entry. -/

namespace AppManager.Utils
open AppManager.Lib AppManager.Lib.Libc

section
variable {State : Type} (callback : State → Bytes → PathEntry → Int × State)

/-- The callback is given the buffer once the path is terminated in it. -/
def callIn (flags : ForallFlags) (base : Nat) (state : Bytes × State) (visit : Visit) :
    Int × Bytes × State :=
  let buffer := if flags.noPath then state.1 else store state.1 (base + visit.path.length) [0]
  let result := callback state.2 buffer visit.entry
  (result.1, buffer, result.2)

def enterIn (base : Nat) (path inside : Bytes) (state : Bytes × State) : Bytes × State :=
  (store state.1 (base + path.length) (inside.drop path.length), state.2)

def forChildrenIn (flags : ForallFlags) (base size : Nat) (parent : PathEntry) (path : Bytes) :
    Entry → Bytes × State → Int × Bytes × State
  | .null, state => (0, state)
  | .node label children sibling, state =>
    match enterPath flags size label path with
    | none => (-ENAMETOOLONG, state)
    | some inside =>
      let entry := parent.child label children
      let here := visitEntry (callIn callback flags base) (emits flags label) flags.before flags.after
        ⟨entry, inside⟩ (forChildrenIn flags base size entry inside children)
        (enterIn base path inside state)
      if here.1 = 0 then forChildrenIn flags base size parent path sibling here.2 else here

/-- `path_entry_for_each_in_buffer` from some place of a buffer, for flags without
`PATH_ENTRY_FORALL_ABSOLUTE`. -/
def forEachIn (flags : ForallFlags) (root : PathEntry) (base : Nat) (state : Bytes × State) :
    Int × Bytes × State :=
  let flags := if !flags.before && !flags.after then { flags with after := true } else flags
  let size := state.1.length - base
  if flags.silentRoot then
    visitEntry (callIn callback flags base) false flags.before flags.after ⟨root, []⟩
      (forChildrenIn callback flags base size root [] root.children) state
  else match enterPath flags size root.label [] with
    | none => (-ENAMETOOLONG, state)
    | some inside =>
      visitEntry (callIn callback flags base) (emits flags root.label) flags.before flags.after
        ⟨root, inside⟩ (forChildrenIn callback flags base size root inside root.children)
        (enterIn base [] inside state)

end

/-- The buffer starts with some bytes and then a path, and has room for more. -/
structure Written (buffer lead path : Bytes) (size : Nat) : Prop where
  starts : buffer.take (lead.length + path.length) = lead ++ path
  total : buffer.length = lead.length + size
  room : path.length < size

namespace Written
variable {buffer lead path : Bytes} {size : Nat}

theorem enter (written : Written buffer lead path size) (more : Bytes)
    (room : (path ++ more).length < size) :
    Written (store buffer (lead.length + path.length) more) lead (path ++ more) size := by
  have inside : lead.length + path.length ≤ buffer.length := by
    rw [written.total]
    have := written.room
    omega
  have ends := take_store_end buffer more (lead.length + path.length) inside
  refine ⟨?_, ?_, room⟩
  · rw [List.length_append, ← Nat.add_assoc, ends, written.starts, List.append_assoc]
  · rw [List.length_append] at room
    rw [store_length _ _ _ (by rw [written.total]; omega), written.total]

theorem leave {more : Bytes} (written : Written buffer lead (path ++ more) size) :
    Written buffer lead path size := by
  have short := written.room
  rw [List.length_append] at short
  refine ⟨?_, written.total, by omega⟩
  have shorter := congrArg (List.take (lead.length + path.length)) written.starts
  rw [List.take_take, List.length_append, Nat.min_eq_left (by omega), ← List.append_assoc,
    ← List.length_append, List.take_left] at shorter
  rw [← List.length_append]
  exact shorter

theorem ended (written : Written buffer lead path size) :
    Written (store buffer (lead.length + path.length) [0]) lead path size := by
  have inside : lead.length + path.length < buffer.length := by
    rw [written.total]
    have := written.room
    omega
  refine ⟨?_, ?_, written.room⟩
  · rw [take_store _ _ _ _ le_rfl inside.le, written.starts]
  · rw [store_length _ _ _ (by rw [List.length_singleton]; omega), written.total]

theorem string (written : Written buffer lead path size) :
    cstr (store buffer (lead.length + path.length) [0]) = cstr (lead ++ path) := by
  rw [store, written.starts, List.append_assoc, List.singleton_append, cstr_append_nul]

end Written

theorem enterPath_append {flags : ForallFlags} {size : Nat} {label : Label} {path inside : Bytes}
    (room : path.length < size) (entered : enterPath flags size label path = some inside) :
    inside = path ++ inside.drop path.length ∧ inside.length < size := by
  unfold enterPath at entered
  split at entered
  · split at entered
    · cases entered
    · next fits =>
      have same := Option.some.inj entered
      subst same
      refine ⟨by rw [List.append_assoc, List.drop_left], ?_⟩
      split <;> simp only [List.length_append, List.length_singleton, List.length_nil] <;> omega
  · have same := Option.some.inj entered
    subst same
    exact ⟨by simp, room⟩

section
variable {State : Type} (body : State → Bytes → PathEntry → Int × State)

/-- The callback over strings, at a given start of the buffer. -/
def onString (lead : Bytes) (state : State) (visit : Visit) : Int × State :=
  body state (cstr (lead ++ visit.path)) visit.entry

/-- The same answer and the same state, with the path still in the buffer. -/
structure Agrees (lead path : Bytes) (size : Nat) (result : Int × Bytes × State)
    (expected : Int × State) : Prop where
  answer : result.1 = expected.1
  state : result.2.2 = expected.2
  written : Written result.2.1 lead path size

namespace Agrees
variable {body} {lead path : Bytes} {size : Nat} {start : Int × Bytes × State} {start' : Int × State}

theorem andThen (first : Agrees lead path size start start') {loop : Bytes × State → Int × Bytes × State}
    {plain : State → Int × State} (next : ∀ buffer state, Written buffer lead path size →
      Agrees lead path size (loop (buffer, state)) (plain state)) :
    Agrees lead path size (if start.1 = 0 then loop start.2 else start)
      (if start'.1 = 0 then plain start'.2 else start') := by
  rw [first.answer]
  split
  · rw [← first.state]
    exact next _ _ first.written
  · exact first

theorem leave (path more : Bytes) (first : Agrees lead (path ++ more) size start start') :
    Agrees lead path size start start' :=
  ⟨first.answer, first.state, first.written.leave⟩

end Agrees

theorem callIn_agrees (flags : ForallFlags) (visible : flags.noPath = false) {buffer lead : Bytes}
    {size : Nat} (visit : Visit) (state : State) (written : Written buffer lead visit.path size) :
    Agrees lead visit.path size
      (callIn (fun state buffer entry => body state (cstr buffer) entry) flags lead.length
        (buffer, state) visit) (onString body lead state visit) := by
  simp only [callIn, visible, Bool.false_eq_true, ↓reduceIte]
  rw [written.string]
  exact ⟨rfl, rfl, written.ended⟩

theorem visitEntry_agrees (flags : ForallFlags) (visible : flags.noPath = false) {lead : Bytes}
    {size : Nat} (emit before after : Bool) (visit : Visit) (loop : Bytes × State → Int × Bytes × State)
    (plain : State → Int × State)
    (inner : ∀ buffer state, Written buffer lead visit.path size →
      Agrees lead visit.path size (loop (buffer, state)) (plain state))
    (buffer : Bytes) (state : State) (written : Written buffer lead visit.path size) :
    Agrees lead visit.path size
      (visitEntry (callIn (fun state buffer entry => body state (cstr buffer) entry) flags lead.length)
        emit before after visit loop (buffer, state))
      (visitEntry (onString body lead) emit before after visit plain state) := by
  have first : Agrees lead visit.path size
      (if (emit && before) = true then
        callIn (fun state buffer entry => body state (cstr buffer) entry) flags lead.length
          (buffer, state) visit else (0, buffer, state))
      (if (emit && before) = true then onString body lead state visit else (0, state)) := by
    split
    · exact callIn_agrees body flags visible visit state written
    · exact ⟨rfl, rfl, written⟩
  unfold visitEntry
  generalize (if (emit && before) = true then
    callIn (fun state buffer entry => body state (cstr buffer) entry) flags lead.length
      (buffer, state) visit else (0, buffer, state)) = start at first ⊢
  generalize (if (emit && before) = true then onString body lead state visit else (0, state)) =
    start' at first ⊢
  have second := first.andThen inner
  simp only
  generalize (if start.1 = 0 then loop start.2 else start) = middle at second ⊢
  generalize (if start'.1 = 0 then plain start'.2 else start') = middle' at second ⊢
  rw [second.answer]
  split
  · rw [← second.state]
    exact callIn_agrees body flags visible visit _ second.written
  · exact second

theorem forChildrenIn_agrees (flags : ForallFlags) (visible : flags.noPath = false) {lead : Bytes}
    {size : Nat} (siblings : Entry) (parent : PathEntry) (path : Bytes) (buffer : Bytes) (state : State)
    (written : Written buffer lead path size) :
    Agrees lead path size
      (forChildrenIn (fun state buffer entry => body state (cstr buffer) entry) flags lead.length size
        parent path siblings (buffer, state))
      (forChildren (onString body lead) flags size parent path siblings state) := by
  induction siblings generalizing parent path buffer state with
  | null => exact ⟨rfl, rfl, written⟩
  | node label children sibling inner rest =>
    unfold forChildrenIn forChildren
    cases entered : enterPath flags size label path with
    | none => exact ⟨rfl, rfl, written⟩
    | some inside =>
      obtain ⟨extends_, short⟩ := enterPath_append written.room entered
      have longer := written.enter (inside.drop path.length) (by rw [← extends_]; exact short)
      rw [← extends_] at longer
      have here := visitEntry_agrees body flags visible (emits flags label) flags.before flags.after
        ⟨parent.child label children, inside⟩ _ _
        (fun buffer state => inner (parent.child label children) inside buffer state) _ state longer
      have back : Agrees lead path size _ _ := Agrees.leave path (inside.drop path.length)
        (by rw [← extends_]; exact here)
      exact back.andThen (rest parent path)

/-- Apart from its bytes, a traversal in a buffer is the traversal of the visits. When it
enters its root, the buffer keeps the path of that one. -/
theorem forEachIn_agrees_path (flags : ForallFlags) (visible : flags.noPath = false)
    (relative : flags.absolute = false) (root : PathEntry) (lead buffer : Bytes) (state : State)
    (starts : buffer.take lead.length = lead) (room : lead.length < buffer.length) (path : Bytes)
    (entered : path = [] ∨ (flags.silentRoot = false ∧
      enterPath flags (buffer.length - lead.length) root.label [] = some path)) :
    Agrees lead path (buffer.length - lead.length)
      (forEachIn (fun state buffer entry => body state (cstr buffer) entry) flags root lead.length
        (buffer, state))
      (pathEntryForEachInBuffer (onString body lead) flags root (buffer.length - lead.length) state) := by
  have written : Written buffer lead [] (buffer.length - lead.length) :=
    ⟨by simpa using starts, by omega, by simp; omega⟩
  unfold forEachIn pathEntryForEachInBuffer
  generalize chosen : (if (!flags.before && !flags.after) = true then { flags with after := true }
    else flags) = used
  have same : used.noPath = flags.noPath ∧ used.absolute = flags.absolute ∧ used.silentRoot = flags.silentRoot := by
    rw [← chosen]
    split <;> exact ⟨rfl, rfl, rfl⟩
  have visible' : used.noPath = false := same.1.trans visible
  simp only [same.2.1.trans relative, Bool.false_and, Bool.false_eq_true, ↓reduceIte]
  unfold doForeach
  split
  · next silent =>
    have none : path = [] := by
      rcases entered with empty | ⟨loud, -⟩
      · exact empty
      · rw [same.2.2, loud] at silent
        cases silent
    rw [none]
    exact visitEntry_agrees body used visible' _ _ _ ⟨root, []⟩ _ _
      (fun buffer state => forChildrenIn_agrees body used visible' root.children root [] buffer state)
      buffer state written
  · have enters : enterPath used (buffer.length - lead.length) root.label [] =
        enterPath flags (buffer.length - lead.length) root.label [] := by
      unfold enterPath
      rw [same.1]
    rw [enters]
    cases inside : enterPath flags (buffer.length - lead.length) root.label [] with
    | none =>
      have none : path = [] := by
        rcases entered with empty | ⟨-, some⟩
        · exact empty
        · rw [inside] at some
          cases some
      rw [none]
      exact ⟨rfl, rfl, written⟩
    | some inner =>
      obtain ⟨-, short⟩ := enterPath_append written.room inside
      have longer := written.enter inner (by simpa using short)
      rw [List.nil_append] at longer
      have here := visitEntry_agrees body used visible' (emits used root.label) used.before used.after
        ⟨root, inner⟩ _ _
        (fun buffer state => forChildrenIn_agrees body used visible' root.children root inner buffer state)
        _ state longer
      rcases entered with empty | ⟨-, some⟩
      · rw [empty]
        exact Agrees.leave [] inner here
      · rw [inside] at some
        rw [← Option.some.inj some]
        exact here

theorem forEachIn_agrees (flags : ForallFlags) (visible : flags.noPath = false)
    (relative : flags.absolute = false) (root : PathEntry) (lead buffer : Bytes) (state : State)
    (starts : buffer.take lead.length = lead) (room : lead.length < buffer.length) :
    Agrees lead [] (buffer.length - lead.length)
      (forEachIn (fun state buffer entry => body state (cstr buffer) entry) flags root lead.length
        (buffer, state))
      (pathEntryForEachInBuffer (onString body lead) flags root (buffer.length - lead.length) state) :=
  forEachIn_agrees_path body flags visible relative root lead buffer state starts room [] (Or.inl rfl)

theorem store_nil (buffer : Bytes) (position : Nat) : store buffer position [] = buffer := by
  simp [store]

def carry (buffer : Bytes) (result : Int × State) : Int × Bytes × State := (result.1, buffer, result.2)

theorem carry_andThen (buffer : Bytes) (loop : Bytes × State → Int × Bytes × State)
    (plain : State → Int × State) (same : ∀ state, loop (buffer, state) = carry buffer (plain state))
    (result : Int × State) : (if (carry buffer result).1 = 0 then loop (carry buffer result).2
      else carry buffer result) = carry buffer (if result.1 = 0 then plain result.2 else result) := by
  by_cases zero : result.1 = 0
  · simp only [carry, zero, ↓reduceIte, same]
  · simp only [carry, zero, ↓reduceIte]

theorem visitEntry_noPath (flags : ForallFlags) (hidden : flags.noPath = true) (base : Nat)
    (buffer : Bytes) (emit before after : Bool) (visit : Visit)
    (loop : Bytes × State → Int × Bytes × State) (plain : State → Int × State)
    (same : ∀ state, loop (buffer, state) = carry buffer (plain state)) (state : State) :
    visitEntry (callIn body flags base) emit before after visit loop (buffer, state) =
      carry buffer (visitEntry (fun state visit => body state buffer visit.entry) emit before after visit
        plain state) := by
  have call : ∀ state, callIn body flags base (buffer, state) visit =
      carry buffer (body state buffer visit.entry) := by
    intro state
    simp [callIn, hidden, carry]
  have first : (if (emit && before) = true then callIn body flags base (buffer, state) visit
      else (0, buffer, state)) = carry buffer
        (if (emit && before) = true then body state buffer visit.entry else (0, state)) := by
    split
    · exact call state
    · rfl
  unfold visitEntry
  simp only [first, carry_andThen buffer loop plain same]
  generalize (if (if (emit && before) = true then body state buffer visit.entry else (0, state)).1 = 0
    then plain (if (emit && before) = true then body state buffer visit.entry else (0, state)).2
    else if (emit && before) = true then body state buffer visit.entry else (0, state)) = inner
  have answer : (carry buffer inner).1 = inner.1 := rfl
  rw [answer]
  split
  · exact call inner.2
  · rfl

theorem forChildrenIn_noPath (flags : ForallFlags) (hidden : flags.noPath = true) (base size : Nat)
    (buffer : Bytes) (siblings : Entry) (parent : PathEntry) (path : Bytes) (state : State) :
    forChildrenIn body flags base size parent path siblings (buffer, state) =
      carry buffer (forChildren (fun state visit => body state buffer visit.entry) flags size parent path
        siblings state) := by
  induction siblings generalizing parent path state with
  | null => rfl
  | node label children sibling inner rest =>
    have entered : enterPath flags size label path = some path := by simp [enterPath, hidden]
    unfold forChildrenIn forChildren
    simp only [entered, enterIn, List.drop_length, store_nil]
    rw [visitEntry_noPath body flags hidden base buffer _ _ _ ⟨parent.child label children, path⟩ _ _
      (inner (parent.child label children) path) state]
    exact carry_andThen buffer _ _ (rest parent path) _

theorem forEachIn_noPath (flags : ForallFlags) (hidden : flags.noPath = true) (root : PathEntry)
    (base : Nat) (buffer : Bytes) (state : State) :
    forEachIn body flags root base (buffer, state) =
      carry buffer (pathEntryForEachInBuffer (fun state visit => body state buffer visit.entry) flags root
        (buffer.length - base) state) := by
  unfold forEachIn pathEntryForEachInBuffer
  generalize chosen : (if (!flags.before && !flags.after) = true then { flags with after := true }
    else flags) = used
  have hidden' : used.noPath = true := by
    rw [← chosen]
    split <;> exact hidden
  have entered : enterPath used (buffer.length - base) root.label [] = some [] := by
    simp [enterPath, hidden']
  unfold doForeach
  simp only [hidden', Bool.not_true, Bool.and_false, Bool.false_eq_true, ↓reduceIte, entered, enterIn,
    List.drop_nil, store_nil]
  split
  · exact visitEntry_noPath body used hidden' base buffer _ _ _ ⟨root, []⟩ _ _
      (forChildrenIn_noPath body used hidden' base _ buffer root.children root []) state
  · exact visitEntry_noPath body used hidden' base buffer _ _ _ ⟨root, []⟩ _ _
      (forChildrenIn_noPath body used hidden' base _ buffer root.children root []) state

end
end AppManager.Utils
