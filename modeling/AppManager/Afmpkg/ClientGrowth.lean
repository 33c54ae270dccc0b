import AppManager.Afmpkg.ClientDraft

/-! The first growth of the buffer of a client, that loses its content, and what is left
of the agreement between a client and its draft. -/

namespace AppManager.Afmpkg
open AppManager.Lib AppManager.Lib.Libc

theorem growSize_first (fpos step : Nat) (bound : fpos < AFMPKG_CLIENT_BUFFER0_SIZE * 2 ^ 52) (small : step ≤ 52) :
    ∃ step' ≤ 52, growSize (AFMPKG_CLIENT_BUFFER0_SIZE * 2 ^ step) fpos = some (AFMPKG_CLIENT_BUFFER0_SIZE * 2 ^ step') ∧
      fpos < AFMPKG_CLIENT_BUFFER0_SIZE * 2 ^ step' := by
  induction distance : 52 - step generalizing step with
  | zero =>
    have last : step = 52 := by omega
    subst last
    unfold growSize
    rw [if_neg (by omega)]
    exact ⟨52, le_rfl, rfl, bound⟩
  | succ count ih =>
    unfold growSize
    by_cases beyond : AFMPKG_CLIENT_BUFFER0_SIZE * 2 ^ step ≤ fpos
    · have double : 2 * (AFMPKG_CLIENT_BUFFER0_SIZE * 2 ^ step) = AFMPKG_CLIENT_BUFFER0_SIZE * 2 ^ (step + 1) := by
        rw [Nat.pow_succ, Nat.mul_left_comm, Nat.mul_comm 2]
      have limit : AFMPKG_CLIENT_BUFFER0_SIZE * 2 ^ (step + 1) < 2 ^ 64 :=
        calc AFMPKG_CLIENT_BUFFER0_SIZE * 2 ^ (step + 1)
            ≤ AFMPKG_CLIENT_BUFFER0_SIZE * 2 ^ 52 :=
              Nat.mul_le_mul_left _ (Nat.pow_le_pow_right (by decide) (by omega))
          _ < 2 ^ 64 := by decide
      have positive : 0 < AFMPKG_CLIENT_BUFFER0_SIZE * 2 ^ step := Nat.mul_pos (by decide) (Nat.two_pow_pos step)
      rw [if_pos beyond]
      simp only
      rw [double, Nat.mod_eq_of_lt limit, if_neg (by omega)]
      exact ih (step + 1) (by omega) (by omega)
    · rw [if_neg beyond]
      exact ⟨step, small, rfl, by omega⟩

def zeroAllocator : Allocator := ⟨fun size => List.replicate size 0, fun _ => List.length_replicate⟩

/-- The content starts with a byte that no line starts with. -/
structure Spoiled (client : Client) : Prop where
  filled : 0 < client.length
  head : client.buffer.head? = some 0

theorem spoiled_content {client : Client} (spoiled : Spoiled client) : client.content.head? = some 0 := by
  obtain ⟨filled, head⟩ := spoiled
  rw [Client.content, List.head?_take, if_neg (Nat.ne_of_gt filled)]
  exact head

theorem store_head (buffer data : Bytes) (position : Nat) (after : 0 < position) (byte : Byte)
    (head : buffer.head? = some byte) : (store buffer position data).head? = some byte := by
  cases buffer with
  | nil => cases head
  | cons first others =>
    cases position with
    | zero => exact absurd after (Nat.lt_irrefl 0)
    | succ count => simpa [store] using head

theorem write_head (client : Client) (position : Nat) (data : Bytes) (after : 0 < position)
    (head : client.buffer.head? = some 0) : (client.write position data).buffer.head? = some 0 := by
  unfold Client.write
  cases heap : client.heap with
  | some block =>
    simp only [Client.buffer, heap, Option.getD_some] at head ⊢
    exact store_head block data position after 0 head
  | none =>
    by_cases room : position + data.length ≤ client.buffer0.1.length
    · simp only [dif_pos room]
      simp only [Client.buffer, heap, Option.getD_none] at head ⊢
      exact store_head client.buffer0.1 data position after 0 head
    · simp only [dif_neg room]
      exact head

theorem write_length (client : Client) (position : Nat) (data : Bytes) :
    (client.write position data).length = client.length := by
  unfold Client.write
  split
  · rfl
  · split
    · rfl
    · rfl

theorem growSize_above (size fpos size' : Nat) (result : growSize size fpos = some size') : fpos < size' := by
  fun_induction growSize size fpos with
  | case1 => cases result
  | case2 _ _ _ _ ih => exact ih result
  | case3 size small =>
    rw [Option.some.injEq] at result
    omega

theorem malloc_head (size : Nat) (positive : 0 < size) : (zeroAllocator.malloc size).head? = some 0 := by
  cases size with
  | zero => exact absurd positive (Nat.lt_irrefl 0)
  | succ size => rfl

theorem grow_head (client grown : Client) (fpos : Nat) (head : client.buffer.head? = some 0)
    (result : grow zeroAllocator client fpos = some grown) : grown.buffer.head? = some 0 := by
  unfold grow at result
  by_cases beyond : client.size ≤ fpos
  · rw [if_pos beyond, Option.map_eq_some_iff] at result
    obtain ⟨size, sized, same⟩ := result
    have positive : 0 < size := Nat.zero_lt_of_lt (growSize_above _ _ _ sized)
    cases heap : client.heap with
    | none =>
      rw [heap] at same
      rw [← same]
      exact malloc_head size positive
    | some block =>
      simp only [heap] at same
      rw [Client.buffer, heap, Option.getD_some] at head
      rw [← same, Client.buffer, Option.getD_some, Allocator.realloc, List.head?_take,
        if_neg (Nat.ne_of_gt positive), List.head?_append, head, Option.some_or]
  · rw [if_neg beyond, Option.some.injEq] at result
    rw [← result]
    exact head

theorem put_spoiled (client : Client) (key : Key) (val : Bytes) (spoiled : Spoiled client)
    (bound : client.length + (lineOf key val).length < 2 ^ 64) :
    Spoiled (putKeyValNl zeroAllocator client key val).2 ∧
      (putKeyValNl zeroAllocator client key val).2.length ≤ client.length + (lineOf key val).length := by
  unfold putKeyValNl
  rw [lineOf_length] at bound ⊢
  by_cases started : client.state = .started
  · rw [if_neg (not_not.mpr started), Nat.mod_eq_of_lt (by omega)]
    simp only
    cases result : grow zeroAllocator client (client.length + 2 + val.length + key.text.length) with
    | none => exact ⟨spoiled, Nat.le_add_right _ _⟩
    | some grown =>
      refine ⟨⟨by simp only; omega, ?_⟩, by simp only; omega⟩
      exact write_head grown client.length _ spoiled.filled (grow_head client grown _ spoiled.head result)
  · rw [if_pos started]
    exact ⟨spoiled, Nat.le_add_right _ _⟩

theorem put_spoils (client : Client) (draft : Draft) (follows : Follows client draft) (key : Key) (val : Bytes)
    (started : draft.state = .started) (begun : draft.content ≠ []) (short : val.length < 2 ^ 63)
    (long : AFMPKG_CLIENT_BUFFER0_SIZE ≤ (draft.content ++ lineOf key val).length) :
    Spoiled (putKeyValNl zeroAllocator client key val).2 ∧
      (putKeyValNl zeroAllocator client key val).2.length = client.length + (lineOf key val).length := by
  have fits := follows.fits
  have name : key.text.length < 10 := by
    cases key <;> decide
  have position : client.length + 2 + val.length + key.text.length = client.length + (lineOf key val).length := by
    rw [lineOf_length]
    omega
  rw [List.length_append, ← follows.length] at long
  rw [← follows.length] at fits
  unfold AFMPKG_CLIENT_BUFFER0_SIZE at fits
  obtain ⟨step, -, sized, above⟩ := growSize_first (client.length + (lineOf key val).length) 0
    (by rw [← position]; unfold AFMPKG_CLIENT_BUFFER0_SIZE; omega) (Nat.zero_le _)
  generalize AFMPKG_CLIENT_BUFFER0_SIZE * 2 ^ step = size at sized above
  have grown : grow zeroAllocator client (client.length + (lineOf key val).length) =
      some { client with heap := some (zeroAllocator.malloc size), size := size } := by
    rw [Nat.pow_zero, Nat.mul_one, ← follows.size] at sized
    rw [grow, follows.size, if_pos long, ← follows.size, sized, Option.map_some, follows.small]
  have filled : 0 < client.length := by
    rw [follows.length]
    exact List.length_pos_of_ne_nil begun
  unfold putKeyValNl
  rw [if_neg (not_not.mpr (follows.state.trans started)), Nat.mod_eq_of_lt (by omega), position]
  simp only [grown]
  refine ⟨⟨by simp only; omega, ?_⟩, trivial⟩
  exact write_head _ client.length _ filled (malloc_head size (Nat.zero_lt_of_lt above))

theorem itoa_short (value : CInt) (key : Key) : (lineOf key (itoa value.1)).length < 2 ^ 33 := by
  have digits := itoa_length value.1
  have name : key.text.length < 10 := by
    cases key <;> decide
  obtain ⟨value, low, high⟩ := value
  rw [lineOf_length]
  simp only at digits ⊢
  omega

theorem begin_spoils (client : Client) (draft : Draft) (follows : Follows client draft) (operation : Int)
    (packageName : CString) (index count : CInt) (range : ¬(operation < 0 ∨ 3 < operation))
    (long : AFMPKG_CLIENT_BUFFER0_SIZE ≤ ((Call.opening operation packageName index count).text operation).length) :
    Spoiled (afmpkgClientBegin zeroAllocator client operation packageName index count).2 := by
  have indexSize := itoa_short index .INDEX
  have countSize := itoa_short count .COUNT
  have nameSize : (lineOf .PACKAGE packageName.bytes).length < 2 ^ 63 + 10 := by
    have bound := packageName.short
    rw [lineOf_length, show Key.PACKAGE.text.length = 7 from rfl]
    omega
  have first : ([] ++ lineOf .BEGIN (operationName operation)).length < AFMPKG_CLIENT_BUFFER0_SIZE := by
    unfold operationName
    split_ifs <;> decide
  obtain ⟨begun, follows⟩ := put_short zeroAllocator (follows_open client draft follows operation) .BEGIN
    (operationName operation) rfl first
  rw [opening_text] at long
  rw [afmpkgClientBegin, if_neg range]
  simp only [begun, ne_eq, not_true_eq_false, ↓reduceIte]
  generalize putKeyValNl zeroAllocator _ .BEGIN (operationName operation) = started at follows ⊢
  have small : started.2.length < AFMPKG_CLIENT_BUFFER0_SIZE := follows.length ▸ first
  have some : ([] ++ lineOf .BEGIN (operationName operation)) ≠ [] := by simp [lineOf, keyLine]
  unfold AFMPKG_CLIENT_BUFFER0_SIZE at small
  by_cases second : ([] ++ lineOf .BEGIN (operationName operation) ++ lineOf .PACKAGE packageName.bytes).length <
      AFMPKG_CLIENT_BUFFER0_SIZE
  · obtain ⟨named, follows⟩ := put_short zeroAllocator follows .PACKAGE packageName.bytes rfl second
    simp only [named, not_true_eq_false, ↓reduceIte]
    generalize putKeyValNl zeroAllocator started.2 .PACKAGE packageName.bytes = name at follows ⊢
    have some' : ([] ++ lineOf .BEGIN (operationName operation) ++ lineOf .PACKAGE packageName.bytes) ≠ [] := by
      simp [lineOf, keyLine]
    by_cases third : (([] ++ lineOf .BEGIN (operationName operation) ++ lineOf .PACKAGE packageName.bytes) ++
        lineOf .INDEX (itoa index.1)).length < AFMPKG_CLIENT_BUFFER0_SIZE
    · obtain ⟨indexed, follows⟩ := put_short zeroAllocator follows .INDEX (itoa index.1) rfl third
      simp only [indexed, not_true_eq_false, ↓reduceIte]
      exact (put_spoils _ _ follows .COUNT (itoa count.1) rfl (by simp [lineOf, keyLine])
        (by rw [lineOf_length] at countSize; omega) long).1
    · obtain ⟨spoiled, size⟩ := put_spoils _ _ follows .INDEX (itoa index.1) rfl some'
        (by rw [lineOf_length] at indexSize; omega) (not_lt.mp third)
      have fits := follows.length ▸ second
      unfold AFMPKG_CLIENT_BUFFER0_SIZE at fits
      split_ifs
      · exact (put_spoiled _ .COUNT (itoa count.1) spoiled (by omega)).1
      · exact spoiled
  · obtain ⟨spoiled, size⟩ := put_spoils _ _ follows .PACKAGE packageName.bytes rfl some packageName.short
      (not_lt.mp second)
    split_ifs
    · obtain ⟨spoiled, size'⟩ := put_spoiled _ .INDEX (itoa index.1) spoiled (by omega)
      exact (put_spoiled _ .COUNT (itoa count.1) spoiled (by omega)).1
    · exact (put_spoiled _ .INDEX (itoa index.1) spoiled (by omega)).1
    · exact spoiled

/-- A started draft has its begin line, and no line starts with a NUL. -/
structure Draft.Sound (draft : Draft) : Prop where
  begun : draft.state = .started → draft.content ≠ []
  head : draft.content.head? ≠ some 0

theorem operationName_short (operation : Int) : (operationName operation).length < 2 ^ 63 := by
  unfold operationName
  split_ifs <;> decide

theorem once_spoils (client : Client) (draft : Draft) (follows : Follows client draft) (sound : draft.Sound)
    (key : Key) (val : CString) (memo : UInt8)
    (long : AFMPKG_CLIENT_BUFFER0_SIZE ≤ (draft.putOnce (lineOf key val.bytes) memo).2.content.length) :
    Spoiled (putKeyValNlMemo zeroAllocator client key val.bytes memo).2 := by
  have fits := follows.fits
  simp only [Draft.putOnce] at long
  unfold putKeyValNlMemo
  rw [follows.memo]
  by_cases again : draft.memo &&& memo ≠ 0
  · rw [if_pos again] at long
    exact absurd fits (not_lt.mpr long)
  · rw [if_neg again] at long ⊢
    by_cases started : draft.state = .started
    · rw [if_neg (not_not.mpr started)] at long
      have spoiled := (put_spoils client draft follows key val.bytes started (sound.begun started) val.short
        long).1
      simp only
      split
      · exact ⟨spoiled.filled, spoiled.head⟩
      · exact spoiled
    · rw [if_pos started] at long
      exact absurd fits (not_lt.mpr long)

theorem step_spoils (client : Client) (draft : Draft) (follows : Follows client draft) (sound : draft.Sound)
    (call : Call) (long : AFMPKG_CLIENT_BUFFER0_SIZE ≤ (draft.step call).2.content.length)
    {called : Int × Client} (step : client.step zeroAllocator call = some called) : Spoiled called.2 := by
  have fits := follows.fits
  cases call with
  | opening operation packageName index count =>
    cases step
    simp only [Draft.step] at long
    by_cases range : operation < 0 ∨ 3 < operation
    · rw [if_pos range] at long
      exact absurd fits (not_lt.mpr long)
    · rw [if_neg range] at long
      exact begin_spoils client draft follows operation packageName index count range long
  | putFile value =>
    cases step
    simp only [Draft.step, Draft.put, Call.text] at long
    by_cases started : draft.state = .started
    · rw [if_neg (not_not.mpr started)] at long
      exact (put_spoils client draft follows .FILE value.bytes started (sound.begun started) value.short
        long).1
    · rw [if_pos started] at long
      exact absurd fits (not_lt.mpr long)
  | putRootdir value =>
    cases step
    exact once_spoils client draft follows sound .ROOT value MEMO_ROOTDIR long
  | putTransid value =>
    cases step
    exact once_spoils client draft follows sound .TRANSID value MEMO_TRANSID long
  | putRedpakid value =>
    cases step
    exact once_spoils client draft follows sound .REDPAKID value MEMO_REDPAKID long
  | ending =>
    simp only [Draft.step, Draft.put, Call.text] at long
    by_cases started : draft.state = .started
    · rw [if_neg (not_not.mpr started)] at long
      have spoiled := (put_spoils client draft follows .END (operationName draft.operation) started
        (sound.begun started) (operationName_short _) long).1
      rw [end_step zeroAllocator client draft follows] at step
      split at step
      · cases step
      cases step
      simp only [endRequest]
      split
      · refine ⟨?_, write_head _ _ _ spoiled.filled spoiled.head⟩
        rw [write_length]
        exact spoiled.filled
      · exact ⟨spoiled.filled, spoiled.head⟩
    · rw [if_pos started] at long
      exact absurd fits (not_lt.mpr long)

theorem line_head (key : Key) (val : Bytes) : (lineOf key val).head? ≠ some 0 := by
  have same : (lineOf key val).head? = key.text.head? := by
    cases key <;> rfl
  rw [same]
  cases key <;> decide

theorem append_head (first second : Bytes) (head : first.head? ≠ some 0) (next : second.head? ≠ some 0) :
    (first ++ second).head? ≠ some 0 := by
  cases first with
  | nil => exact next
  | cons byte rest => exact head

theorem text_head (call : Call) (operation : Int) : (call.text operation).head? ≠ some 0 := by
  cases call with
  | opening operation packageName index count =>
    apply append_head _ _ _ (line_head .COUNT _)
    apply append_head _ _ _ (line_head .INDEX _)
    apply append_head _ _ (line_head .BEGIN _) (line_head .PACKAGE _)
  | putFile value => exact line_head .FILE _
  | putRootdir value => exact line_head .ROOT _
  | putTransid value => exact line_head .TRANSID _
  | putRedpakid value => exact line_head .REDPAKID _
  | ending => exact line_head .END _

/-- A call that succeeds opens a draft or adds its lines to it; a call that fails leaves
the content as it is. -/
theorem draft_cases (draft : Draft) (call : Call) :
    ((draft.step call).1 = 0 ∧ (∃ operation packageName index count,
        call = .opening operation packageName index count ∧
        (draft.step call).2 = ⟨call.text operation, operation, .started, 0⟩)) ∨
    ((draft.step call).1 = 0 ∧ call.isOpening = false ∧ draft.state = .started ∧
      (draft.step call).2.content = draft.content ++ call.text draft.operation ∧
      (draft.step call).2.operation = draft.operation) ∨
    ((draft.step call).1 < 0 ∧ (draft.step call).2.content = draft.content ∧
      (draft.step call).2.operation = draft.operation ∧
      ((draft.step call).2.state = .started → draft.state = .started)) := by
  have fails : ∀ next : Draft, next.content = draft.content → next.operation = draft.operation →
      (next.state = .started → draft.state = .started) →
      (-EINVAL, next).1 < 0 ∧ next.content = draft.content ∧ next.operation = draft.operation ∧
        (next.state = .started → draft.state = .started) :=
    fun next content operation state => ⟨(by decide : -EINVAL < 0), content, operation, state⟩
  have once : ∀ line memo, ((draft.putOnce line memo).1 = 0 ∧ draft.state = .started ∧
      (draft.putOnce line memo).2.content = draft.content ++ line ∧
      (draft.putOnce line memo).2.operation = draft.operation) ∨
      draft.putOnce line memo = (-EINVAL, draft) := by
    intro line memo
    unfold Draft.putOnce
    split
    · exact Or.inr rfl
    · split
      · exact Or.inr rfl
      · next _ started => exact Or.inl ⟨rfl, not_not.mp started, rfl, rfl⟩
  cases call with
  | opening operation packageName index count =>
    simp only [Draft.step]
    split
    · exact Or.inr (Or.inr (fails draft rfl rfl id))
    · exact Or.inl ⟨rfl, operation, packageName, index, count, rfl, rfl⟩
  | putFile value =>
    simp only [Draft.step, Draft.put]
    split
    · exact Or.inr (Or.inr (fails draft rfl rfl id))
    · next started => exact Or.inr (Or.inl ⟨rfl, rfl, not_not.mp started, rfl, rfl⟩)
  | putRootdir value =>
    rcases once (lineOf .ROOT value.bytes) MEMO_ROOTDIR with ⟨zero, others⟩ | refused
    · exact Or.inr (Or.inl ⟨zero, rfl, others⟩)
    · rw [show draft.step (.putRootdir value) = (-EINVAL, draft) from refused]
      exact Or.inr (Or.inr (fails draft rfl rfl id))
  | putTransid value =>
    rcases once (lineOf .TRANSID value.bytes) MEMO_TRANSID with ⟨zero, others⟩ | refused
    · exact Or.inr (Or.inl ⟨zero, rfl, others⟩)
    · rw [show draft.step (.putTransid value) = (-EINVAL, draft) from refused]
      exact Or.inr (Or.inr (fails draft rfl rfl id))
  | putRedpakid value =>
    rcases once (lineOf .REDPAKID value.bytes) MEMO_REDPAKID with ⟨zero, others⟩ | refused
    · exact Or.inr (Or.inl ⟨zero, rfl, others⟩)
    · rw [show draft.step (.putRedpakid value) = (-EINVAL, draft) from refused]
      exact Or.inr (Or.inr (fails draft rfl rfl id))
  | ending =>
    simp only [Draft.step, Draft.put]
    split
    · exact Or.inr (Or.inr (fails { draft with state := .ready } rfl rfl (by simp)))
    · next started => exact Or.inr (Or.inl ⟨rfl, rfl, not_not.mp started, rfl, rfl⟩)

def Draft.record (draft : Draft) : Record := ⟨draft.content, draft.operation⟩

theorem record_add_failed (record : Record) (call : Call) (rc : Int) (failed : rc ≠ 0) :
    record.add call rc = record := by
  unfold Record.add
  exact if_pos failed

theorem record_add_other (record : Record) (call : Call) (other : call.isOpening = false) :
    record.add call 0 = { record with content := record.content ++ call.text record.operation } := by
  cases call with
  | opening operation packageName index count => cases other
  | _ => rfl

theorem draft_record (draft : Draft) (call : Call) :
    draft.record.add call (draft.step call).1 = (draft.step call).2.record := by
  rcases draft_cases draft call with ⟨zero, operation, name, index, count, isOpening, next⟩ |
      ⟨zero, other, _, content, operation⟩ | ⟨negative, content, operation, _⟩
  · rw [zero, next, isOpening]
    rfl
  · rw [zero, record_add_other _ _ other, Draft.record, Draft.record, content, operation]
  · rw [record_add_failed _ _ _ (Int.ne_of_lt negative), Draft.record, Draft.record, content, operation]

theorem draft_sound (draft : Draft) (call : Call) (sound : draft.Sound) : (draft.step call).2.Sound := by
  rcases draft_cases draft call with ⟨_, operation, name, index, count, isOpening, next⟩ |
      ⟨_, _, started, content, _⟩ | ⟨_, content, _, state⟩
  · rw [next]
    refine ⟨fun _ => ?_, text_head call operation⟩
    rw [isOpening]
    simp [Call.text, lineOf, keyLine]
  · refine ⟨fun _ => ?_, ?_⟩
    · rw [content]
      exact List.append_ne_nil_of_left_ne_nil (sound.begun started) _
    · rw [content]
      exact append_head _ _ sound.head (text_head call _)
  · exact ⟨fun started => content ▸ sound.begun (state started), content ▸ sound.head⟩

theorem faithful_of_short (alloc : Allocator) (client : Client) (draft : Draft) (follows : Follows client draft)
    (calls : List Call) (short : Short draft calls) : Faithful alloc client draft.record calls := by
  induction calls generalizing client draft with
  | nil => exact follows_holds follows _
  | cons call rest ih =>
    have room : (draft.step call).2.content.length < AFMPKG_CLIENT_BUFFER0_SIZE := by
      cases rest with
      | nil => exact short.2.2
      | cons => exact short.2.2.1
    obtain ⟨next, step, later⟩ := step_short alloc client draft follows call short.2.1 room
    refine ⟨follows_holds follows _, _, next, step, ?_, ?_⟩
    · intro negative other
      rw [later.content, follows.content]
      rcases draft_cases draft call with ⟨zero, _⟩ | ⟨zero, _⟩ | ⟨_, content, _⟩
      · exact absurd zero (Int.ne_of_lt negative)
      · exact absurd zero (Int.ne_of_lt negative)
      · exact content
    · rw [draft_record]
      exact ih _ _ later short.2.2

theorem record_head (record : Record) (call : Call) (rc : Int) (head : record.content.head? ≠ some 0) :
    (record.add call rc).content.head? ≠ some 0 := by
  by_cases zero : rc = 0
  · subst zero
    cases opens : call.isOpening with
    | false =>
      rw [record_add_other record call opens]
      exact append_head _ _ head (text_head call _)
    | true =>
      cases call with
      | opening operation packageName index count =>
        exact text_head (.opening operation packageName index count) operation
      | _ => cases opens
  · rw [record_add_failed record call rc zero]
    exact head

theorem allows_of_step {alloc : Allocator} {client : Client} {draft : Draft} (follows : Follows client draft)
    {call : Call} {called : Int × Client} (step : client.step alloc call = some called) : draft.Allows call := by
  cases call with
  | ending =>
    rw [end_step alloc client draft follows] at step
    split at step
    · cases step
    · next inside => exact ⟨by omega, by omega⟩
  | _ => trivial

theorem short_of_faithful (client : Client) (draft : Draft) (follows : Follows client draft)
    (sound : draft.Sound) (calls : List Call) (faithful : Faithful zeroAllocator client draft.record calls) :
    Short draft calls := by
  induction calls generalizing client draft with
  | nil => exact follows.fits
  | cons call rest ih =>
    obtain ⟨-, rc, after, step, -, rest_faithful⟩ := faithful
    have allowed : draft.Allows call := allows_of_step follows step
    refine ⟨follows.fits, allowed, ?_⟩
    by_cases room : (draft.step call).2.content.length < AFMPKG_CLIENT_BUFFER0_SIZE
    · obtain ⟨next, step', later⟩ := step_short zeroAllocator client draft follows call allowed room
      rw [step] at step'
      cases step'
      rw [draft_record] at rest_faithful
      exact ih _ _ later (draft_sound draft call sound) rest_faithful
    · have spoiled := step_spoils client draft follows sound call (not_lt.mp room) step
      have holds : after.Holds (draft.record.add call rc) := by
        cases rest with
        | nil => exact rest_faithful
        | cons => exact rest_faithful.1
      have head := spoiled_content spoiled
      rw [holds.1] at head
      exact absurd head (record_head _ _ _ sound.head)

def firstDraft (client : Client) : Draft := ⟨[], client.operation, .none, client.memo⟩

theorem follows_init (client : Client) : Follows (afmpkgClientInit client) (firstDraft client) :=
  ⟨rfl, rfl, by simp [Client.content, afmpkgClientInit, firstDraft], rfl,
    by simp [firstDraft, AFMPKG_CLIENT_BUFFER0_SIZE], rfl, rfl, rfl⟩

theorem sound_first (client : Client) : (firstDraft client).Sound := ⟨by simp [firstDraft], by simp [firstDraft]⟩

/-- The buffer of a client is right in all the states of a run, whatever blocks the heap
gives, when no draft of the run outgrows the buffer that the client starts with and no end
comes before an operation is set. -/
theorem faithful_iff_short (client : Client) (calls : List Call) :
    (∀ alloc, Faithful alloc (afmpkgClientInit client) ⟨[], client.operation⟩ calls) ↔
      Short (firstDraft client) calls := by
  constructor
  · intro faithful
    exact short_of_faithful _ _ (follows_init client) (sound_first client) calls (faithful zeroAllocator)
  · intro short alloc
    exact faithful_of_short alloc _ _ (follows_init client) calls short

def longName : CString where
  bytes := List.replicate AFMPKG_CLIENT_BUFFER0_SIZE 97
  clean := fun member => absurd (List.eq_of_mem_replicate member) (by decide)
  short := by
    rw [List.length_replicate]
    decide

def rawClient : Client :=
  ⟨⟨List.replicate AFMPKG_CLIENT_BUFFER0_SIZE 0, List.length_replicate⟩, none, 0, 0, 0, .none, 0⟩

/-- A long name is enough to lose the begin line. -/
theorem long_name_spoils :
    ¬∀ (client : Client) (calls : List Call) (alloc : Allocator),
      Faithful alloc (afmpkgClientInit client) ⟨[], client.operation⟩ calls := by
  intro all
  have short := short_of_faithful _ _ (follows_init rawClient) (sound_first rawClient)
    [.opening 0 longName ⟨1, by decide⟩ ⟨1, by decide⟩] (all _ _ _)
  have fits := short.2.2
  simp only [Short, Draft.step] at fits
  rw [if_neg (by decide)] at fits
  simp only [Call.text, List.length_append] at fits
  have name : AFMPKG_CLIENT_BUFFER0_SIZE ≤ (lineOf .PACKAGE longName.bytes).length := by
    rw [lineOf_length, longName, List.length_replicate]
    omega
  omega

end AppManager.Afmpkg
