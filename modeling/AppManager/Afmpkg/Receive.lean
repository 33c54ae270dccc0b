import AppManager.Afmpkg.RequestSteps
import AppManager.Lib.Lines

/-! The reception of a request. The bytes of the socket come in chunks, and the buffer
keeps from one chunk to the next the line that is not ended yet. -/

namespace AppManager.Afmpkg
open AppManager.Lib AppManager.Lib.Libc

def RECEIVE_SIZE : Nat := 32768

/-- The bytes that `recv` gives. -/
abbrev Chunk := { bytes : Bytes // bytes ≠ [] }

/-- A result of `recv` that is followed by another one. -/
inductive Recv where
  | data (chunk : Chunk)
  | interrupted
  deriving DecidableEq

/-- The last result of `recv`: zero or an error. -/
inductive Ending where
  | closed
  | failed
  deriving DecidableEq, Repr

/-- The local variables of `receive`, its request, and the lines it gave to
`afmpkg_request_add_line`. -/
structure Reception where
  buffer : Bytes
  length : Nat
  req : Request
  rc : Int
  calls : List Bytes

/-- A buffer of the stack, of which nothing is known but its size. -/
abbrev ReceiveBuffer := { cells : Bytes // cells.length = RECEIVE_SIZE }

def Reception.start (buffer : ReceiveBuffer) (req : Request) : Reception := ⟨buffer.1, 0, req, 0, []⟩

def endOfLine (buffer : Bytes) (it length : Nat) : Nat :=
  it + (((buffer.take length).drop it).takeWhile (· != newline)).length

/-- The extraction of the lines, from the position `it` on. -/
def extract (r : Reception) (it : Nat) : Reception :=
  if it < r.length ∧ 0 ≤ r.rc then
    let eol := endOfLine r.buffer it r.length
    if eol = r.length then
      { r with buffer := moveDown r.buffer 0 it (r.length - it), length := r.length - it }
    else if eol = it then extract r (eol + 1)
    else
      let line := (r.buffer.take eol).drop it
      let result := afmpkgRequestAddLine r.req line
      extract { r with buffer := r.buffer.set eol 0, req := result.2, rc := result.1,
                       calls := r.calls ++ [line] } (eol + 1)
  else r
termination_by r.length - it
decreasing_by
  all_goals
    simp only [endOfLine]
    omega

/-- The new bytes go after the kept ones, and their number becomes the length. -/
def receiveData (r : Reception) (chunk : Chunk) : Reception :=
  extract { r with buffer := store r.buffer r.length chunk.1, length := chunk.1.length } 0

def receiveLoop (ending : Ending) : List Recv → Reception → Reception
  | [], r =>
    match ending with
    | .closed => r
    | .failed =>
      let result := afmpkgRequestError r.req (-2000) (ascii "receive error")
      { r with rc := result.1, req := result.2 }
  | .interrupted :: rest, r => receiveLoop ending rest r
  | .data chunk :: rest, r =>
    if (receiveData r chunk).rc < 0 then receiveData r chunk
    else receiveLoop ending rest (receiveData r chunk)

def receive (results : List Recv) (ending : Ending) (buffer : ReceiveBuffer) (req : Request) : Reception :=
  receiveLoop ending results (.start buffer req)

/-- Each chunk fits in the room that `recv` was given for it. -/
def Admissible : List Chunk → Reception → Prop
  | [], _ => True
  | chunk :: rest, r => chunk.1.length ≤ RECEIVE_SIZE - r.length ∧
    (0 ≤ (receiveData r chunk).rc → Admissible rest (receiveData r chunk))

def joined (chunks : List Chunk) : Bytes := (chunks.map Subtype.val).flatten

theorem joined_cons (chunk : Chunk) (rest : List Chunk) : joined (chunk :: rest) = chunk.1 ++ joined rest := rfl

def Cutting (buffer : ReceiveBuffer) (stream : Bytes) (chunks : List Chunk) : Prop :=
  joined chunks = stream ∧ Admissible chunks (.start buffer afmpkgRequestInit.2)

/-- The lines up to the first one that is rejected, which is the last one. -/
def untilRejected (req : Request) : List Bytes → List Bytes
  | [] => []
  | line :: rest => line ::
    if (afmpkgRequestAddLine req line).1 < 0 then []
    else untilRejected (afmpkgRequestAddLine req line).2 rest

/-- The lines that the reception of a fresh request gives. -/
def receivedLines (buffer : ReceiveBuffer) (chunks : List Chunk) : List Bytes :=
  (receive (chunks.map .data) .closed buffer afmpkgRequestInit.2).calls

theorem endOfLine_cases (buffer : Bytes) (it length : Nat) (start : it ≤ length)
    (inside : length ≤ buffer.length) :
    (endOfLine buffer it length = length ∧ newline ∉ (buffer.take length).drop it) ∨
    (it ≤ endOfLine buffer it length ∧ endOfLine buffer it length < length ∧
      newline ∉ (buffer.take (endOfLine buffer it length)).drop it ∧
      (buffer.take length).drop it = (buffer.take (endOfLine buffer it length)).drop it ++
        newline :: (buffer.take length).drop (endOfLine buffer it length + 1)) := by
  have size : ((buffer.take length).drop it).length = length - it := by
    rw [List.length_drop, List.length_take, Nat.min_eq_left inside]
  rcases first_line newline ((buffer.take length).drop it) with plain | ⟨line, rest, plain, same⟩
  · left
    refine ⟨?_, plain⟩
    have whole : ((buffer.take length).drop it).takeWhile (· != newline) = (buffer.take length).drop it := by
      rw [List.takeWhile_eq_self_iff]
      intro byte member
      rw [bne_iff_ne]
      exact fun equal => plain (equal ▸ member)
    rw [endOfLine, whole, size]
    omega
  · right
    have found : endOfLine buffer it length = it + line.length := by
      rw [endOfLine, same, takeWhile_stop newline line rest plain]
    have bound : line.length + 1 + rest.length = length - it := by
      rw [← size, same, List.length_append, List.length_cons]
      omega
    have head : (buffer.take (it + line.length)).drop it = line := by
      have cut := congrArg (List.take line.length) same
      rw [List.take_left, List.take_drop, List.take_take, Nat.min_eq_left (by omega)] at cut
      exact cut
    have tail : (buffer.take length).drop (it + line.length + 1) = rest := by
      calc (buffer.take length).drop (it + line.length + 1)
          = ((buffer.take length).drop it).drop (line.length + 1) := by rw [List.drop_drop, Nat.add_assoc]
        _ = rest := by
          rw [same]
          simp
    rw [found, head, tail]
    exact ⟨by omega, by omega, plain, same⟩

theorem extract_calls (r : Reception) (it : Nat) (start : it ≤ r.length)
    (inside : r.length ≤ r.buffer.length) (going : 0 ≤ r.rc) :
    (extract r it).calls =
        r.calls ++ untilRejected r.req (wholeLines newline ((r.buffer.take r.length).drop it)) ∧
      ((extract r it).rc < 0 ↔
        ∃ rc ∈ (addLines r.req (wholeLines newline ((r.buffer.take r.length).drop it))).1, rc < 0) := by
  induction size : r.length - it using Nat.strong_induction_on generalizing r it with
  | _ count ih =>
    unfold extract
    by_cases more : it < r.length
    · rw [if_pos ⟨more, going⟩]
      simp only
      rcases endOfLine_cases r.buffer it r.length start inside with
        ⟨last, plain⟩ | ⟨after, before, plain, text⟩
      · rw [if_pos last, wholeLines_open newline _ plain]
        simp [untilRejected, addLines, going]
      · rw [if_neg (by omega)]
        generalize endOfLine r.buffer it r.length = eol at after before plain text ⊢
        by_cases empty : eol = it
        · obtain ⟨calls, rc⟩ := ih (r.length - (eol + 1)) (by omega) r (eol + 1) (by omega) inside going rfl
          rw [if_pos empty, calls, rc, text]
          have none : (r.buffer.take eol).drop it = [] := by
            apply List.drop_eq_nil_of_le
            rw [List.length_take]
            omega
          rw [none, List.nil_append, wholeLines_empty]
          exact ⟨rfl, Iff.rfl⟩
        · have line : (r.buffer.take eol).drop it ≠ [] := by
            apply List.ne_nil_of_length_pos
            rw [List.length_drop, List.length_take]
            omega
          rw [if_neg empty, text, wholeLines_line newline _ _ plain line]
          generalize (r.buffer.take eol).drop it = line
          by_cases rejected : (afmpkgRequestAddLine r.req line).1 < 0
          · unfold extract
            rw [if_neg (by simp only; omega)]
            simp [untilRejected, addLines, rejected]
          · obtain ⟨calls, rc⟩ := ih (r.length - (eol + 1)) (by omega)
              { r with buffer := r.buffer.set eol 0, req := (afmpkgRequestAddLine r.req line).2,
                       rc := (afmpkgRequestAddLine r.req line).1, calls := r.calls ++ [line] }
              (eol + 1) (by simp only; omega) (by simpa using inside) (by simp only; omega) rfl
            have same : ((r.buffer.set eol 0).take r.length).drop (eol + 1) =
                (r.buffer.take r.length).drop (eol + 1) := by
              rw [List.take_set, List.drop_set_of_lt (by omega)]
            simp only [same] at calls rc
            rw [calls, rc]
            simp [untilRejected, addLines, rejected]
    · rw [if_neg (by omega), List.drop_eq_nil_of_le (by rw [List.length_take]; omega),
        wholeLines_open newline [] (by simp)]
      simp [untilRejected, addLines, going]

theorem extract_blank (r : Reception) (it : Nat) (start : it ≤ r.length)
    (inside : r.length ≤ r.buffer.length) (going : 0 ≤ r.rc)
    (blank : Blank newline ((r.buffer.take r.length).drop it)) :
    (extract r it = r ∧ ∀ byte ∈ (r.buffer.take r.length).drop it, byte = newline) ∨
    ∃ before kept buffer, (r.buffer.take r.length).drop it = before ++ kept ∧ kept ≠ [] ∧ newline ∉ kept ∧
      buffer.length = r.buffer.length ∧ buffer.take kept.length = kept ∧
      extract r it = { r with buffer := buffer, length := kept.length } := by
  induction size : r.length - it using Nat.strong_induction_on generalizing it with
  | _ count ih =>
    unfold extract
    by_cases more : it < r.length
    · rw [if_pos ⟨more, going⟩]
      simp only
      have cells : ((r.buffer.take r.length).drop it).length = r.length - it := by
        rw [List.length_drop, List.length_take, Nat.min_eq_left inside]
      rcases endOfLine_cases r.buffer it r.length start inside with
        ⟨last, plain⟩ | ⟨after, before, plain, text⟩
      · right
        have moved : moveDown r.buffer 0 it (r.length - it) =
            store r.buffer 0 ((r.buffer.take r.length).drop it) := by
          rw [moveDown_eq_store _ _ _ _ (by omega) (by omega), List.take_drop]
          congr 2
          congr 1
          omega
        refine ⟨[], (r.buffer.take r.length).drop it, moveDown r.buffer 0 it (r.length - it), rfl, ?_, plain,
          ?_, ?_, ?_⟩
        · apply List.ne_nil_of_length_pos
          omega
        · rw [moved]
          apply store_length
          omega
        · rw [moved]
          simpa using take_store_end r.buffer ((r.buffer.take r.length).drop it) 0 (by omega)
        · rw [if_pos last, cells]
      · rw [if_neg (by omega)]
        generalize endOfLine r.buffer it r.length = eol at after before plain text ⊢
        have empty : eol = it := by
          by_contra line
          have filled : (r.buffer.take eol).drop it ≠ [] := by
            apply List.ne_nil_of_length_pos
            rw [List.length_drop, List.length_take]
            omega
          obtain ⟨byte, member⟩ := List.exists_mem_of_ne_nil _ filled
          exact plain (blank _ _ text byte member ▸ member)
        have none : (r.buffer.take eol).drop it = [] := by
          apply List.drop_eq_nil_of_le
          rw [List.length_take]
          omega
        rw [none, List.nil_append] at text
        rw [text, blank_cons] at blank
        rw [if_pos empty, text]
        rcases ih (r.length - (eol + 1)) (by omega) (eol + 1) (by omega) blank rfl with
          ⟨same, all⟩ | ⟨front, kept, buffer, split, result⟩
        · left
          refine ⟨same, ?_⟩
          intro byte member
          rcases List.mem_cons.mp member with first | other
          · exact first
          · exact all byte other
        · right
          exact ⟨newline :: front, kept, buffer, by rw [split, List.cons_append], result⟩
    · left
      rw [if_neg (by omega), List.drop_eq_nil_of_le (by rw [List.length_take]; omega)]
      exact ⟨rfl, by simp⟩

def Reception.kept (r : Reception) : Bytes := r.buffer.take r.length

/-- What the extraction sees of the kept bytes and of the new ones: as many bytes as
there are new ones. -/
def Reception.view (r : Reception) (bytes : Bytes) : Bytes := (r.kept ++ bytes).take bytes.length

theorem store_view (r : Reception) (bytes : Bytes) (room : r.length + bytes.length ≤ r.buffer.length) :
    (store r.buffer r.length bytes).take bytes.length = r.view bytes := by
  rw [Reception.view, Reception.kept, ← take_store_end r.buffer bytes r.length (by omega), List.take_take,
    Nat.min_eq_left (by omega)]

structure Silent (r : Reception) : Prop where
  calls : r.calls = []
  going : 0 ≤ r.rc
  size : r.buffer.length = RECEIVE_SIZE
  inside : r.length ≤ RECEIVE_SIZE

theorem silent_start (buffer : ReceiveBuffer) (req : Request) : Silent (.start buffer req) :=
  ⟨rfl, Int.le_refl 0, buffer.2, Nat.zero_le _⟩

theorem receiveData_blank (r : Reception) (chunk : Chunk) (silent : Silent r)
    (room : chunk.1.length ≤ RECEIVE_SIZE - r.length) (blank : Blank newline (r.view chunk.1)) :
    Silent (receiveData r chunk) ∧
      (((receiveData r chunk).kept = r.view chunk.1 ∧ ∀ byte ∈ r.view chunk.1, byte = newline) ∨
      ∃ before, r.view chunk.1 = before ++ (receiveData r chunk).kept ∧ (receiveData r chunk).kept ≠ [] ∧
        newline ∉ (receiveData r chunk).kept) := by
  obtain ⟨calls, going, size, inside⟩ := silent
  have cells : (store r.buffer r.length chunk.1).length = RECEIVE_SIZE := by
    rw [store_length _ _ _ (by omega), size]
  have seen := store_view r chunk.1 (by omega)
  unfold receiveData
  rcases extract_blank { r with buffer := store r.buffer r.length chunk.1, length := chunk.1.length } 0
      (by omega) (by simp only; omega) going (by simpa only [List.drop_zero, seen] using blank) with
    ⟨same, all⟩ | ⟨before, kept, buffer, split, filled, plain, long, front, same⟩
  · rw [same]
    simp only [List.drop_zero, seen] at all
    exact ⟨⟨calls, going, cells, by simp only; omega⟩, Or.inl ⟨seen, all⟩⟩
  · simp only [List.drop_zero, seen] at split
    simp only at long
    have short : kept.length ≤ buffer.length := by
      have bound := congrArg List.length front
      rw [List.length_take] at bound
      omega
    rw [same]
    refine ⟨⟨calls, going, by simp only; omega, by simp only; omega⟩, Or.inr ⟨before, ?_, ?_, ?_⟩⟩
    · rw [Reception.kept, front]
      exact split
    · rw [Reception.kept, front]
      exact filled
    · rw [Reception.kept, front]
      exact plain

theorem receiveLoop_invariant (inv : Reception → List Chunk → Prop)
    (step : ∀ r chunk rest, inv r (chunk :: rest) → chunk.1.length ≤ RECEIVE_SIZE - r.length →
      inv (receiveData r chunk) rest)
    (chunks : List Chunk) (r : Reception) (holds : inv r chunks) (admissible : Admissible chunks r) :
    ∃ rest, inv (receiveLoop .closed (chunks.map .data) r) rest := by
  induction chunks generalizing r with
  | nil => exact ⟨[], holds⟩
  | cons chunk rest ih =>
    obtain ⟨room, next⟩ := admissible
    have after := step r chunk rest holds room
    rw [List.map_cons, receiveLoop]
    by_cases stopped : (receiveData r chunk).rc < 0
    · rw [if_pos stopped]
      exact ⟨rest, after⟩
    · rw [if_neg stopped]
      exact ih _ after (next (by omega))

theorem silent_step (r : Reception) (chunk : Chunk) (rest : List Chunk)
    (holds : Silent r ∧ Blank newline (r.kept ++ joined (chunk :: rest)))
    (room : chunk.1.length ≤ RECEIVE_SIZE - r.length) :
    Silent (receiveData r chunk) ∧ Blank newline ((receiveData r chunk).kept ++ joined rest) := by
  obtain ⟨silent, blank⟩ := holds
  have text : r.kept ++ joined (chunk :: rest) =
      r.view chunk.1 ++ ((r.kept ++ chunk.1).drop chunk.1.length ++ joined rest) := by
    rw [Reception.view, ← List.append_assoc, List.take_append_drop, joined_cons, List.append_assoc]
  rw [text] at blank
  have seen : Blank newline (r.view chunk.1) := by
    obtain ⟨others, same⟩ := wholeLines_append newline (r.view chunk.1)
      ((r.kept ++ chunk.1).drop chunk.1.length ++ joined rest)
    rw [(wholeLines_eq_nil newline _).mpr blank] at same
    exact (wholeLines_eq_nil newline _).mp (List.append_eq_nil_iff.mp same.symm).1
  obtain ⟨after, ends⟩ := receiveData_blank r chunk silent room seen
  refine ⟨after, ?_⟩
  have later : Blank newline (joined rest) := by
    apply blank_suffix newline (r.view chunk.1 ++ (r.kept ++ chunk.1).drop chunk.1.length)
    rw [List.append_assoc]
    exact blank
  rcases ends with ⟨whole, all⟩ | ⟨before, split, filled, plain⟩
  · rw [whole]
    clear whole text blank seen
    generalize r.view chunk.1 = view at all
    induction view with
    | nil => exact later
    | cons byte view ih =>
      rw [all byte (by simp), List.cons_append, blank_cons]
      exact ih (fun other member => all other (List.mem_cons_of_mem byte member))
  · apply blank_open
    rw [List.mem_append, not_or]
    refine ⟨plain, ?_⟩
    obtain ⟨byte, member⟩ := List.exists_mem_of_ne_nil _ filled
    have other : byte ≠ newline := fun same => plain (same ▸ member)
    have tail := blank_tail newline (r.view chunk.1) _ blank byte (by rw [split]; simp [member]) other
    rw [List.mem_append, not_or] at tail
    exact tail.2

theorem receivedLines_blank (buffer : ReceiveBuffer) (chunks : List Chunk)
    (admissible : Admissible chunks (.start buffer afmpkgRequestInit.2))
    (blank : Blank newline (joined chunks)) : receivedLines buffer chunks = [] := by
  have start : (Reception.start buffer afmpkgRequestInit.2).kept = [] := by
    simp [Reception.kept, Reception.start]
  obtain ⟨rest, silent, _⟩ := receiveLoop_invariant
    (fun r chunks => Silent r ∧ Blank newline (r.kept ++ joined chunks)) silent_step chunks
    (.start buffer afmpkgRequestInit.2) ⟨silent_start buffer _, by rw [start]; exact blank⟩ admissible
  exact silent.calls

def singleton (byte : Byte) : Chunk := ⟨[byte], List.cons_ne_nil byte []⟩

theorem silent_byte (r : Reception) (byte : Byte) (holds : Silent r ∧ r.length ≤ 1) :
    Silent (receiveData r (singleton byte)) ∧ (receiveData r (singleton byte)).length ≤ 1 := by
  obtain ⟨silent, short⟩ := holds
  have one : (r.view [byte]).length ≤ 1 := by
    rw [Reception.view, List.length_take]
    exact Nat.min_le_left _ _
  have blank : Blank newline (r.view [byte]) := by
    intro before after same other member
    rw [same, List.length_append, List.length_cons] at one
    have none : before = [] := List.length_eq_zero_iff.mp (by omega)
    rw [none] at member
    cases member
  have room : 1 ≤ RECEIVE_SIZE - r.length := by
    unfold RECEIVE_SIZE
    omega
  obtain ⟨after, ends⟩ := receiveData_blank r (singleton byte) silent room blank
  refine ⟨after, ?_⟩
  have size : (receiveData r (singleton byte)).kept.length = (receiveData r (singleton byte)).length := by
    have inside := after.inside
    rw [Reception.kept, List.length_take, after.size]
    omega
  rw [← size]
  rcases ends with ⟨whole, _⟩ | ⟨before, split, _⟩
  · rw [whole]
    exact one
  · calc (receiveData r (singleton byte)).kept.length
        ≤ (before ++ (receiveData r (singleton byte)).kept).length := by simp
      _ = (r.view [byte]).length := congrArg List.length split.symm
      _ ≤ 1 := one

theorem bytes_admissible (stream : Bytes) (r : Reception) (holds : Silent r ∧ r.length ≤ 1) :
    Admissible (stream.map singleton) r := by
  induction stream generalizing r with
  | nil => exact trivial
  | cons byte rest ih =>
    refine ⟨?_, fun _ => ih _ (silent_byte r byte holds)⟩
    unfold RECEIVE_SIZE
    simp only [singleton, List.length_singleton]
    omega

theorem bytes_cutting (buffer : ReceiveBuffer) (stream : Bytes) :
    Cutting buffer stream (stream.map singleton) := by
  refine ⟨?_, bytes_admissible stream _ ⟨silent_start buffer _, Nat.zero_le _⟩⟩
  induction stream with
  | nil => rfl
  | cons byte rest ih =>
    rw [List.map_cons, joined_cons, ih]
    rfl

theorem receivedLines_bytes (buffer : ReceiveBuffer) (stream : Bytes) :
    receivedLines buffer (stream.map singleton) = [] := by
  have step : ∀ r chunk rest, ((Silent r ∧ r.length ≤ 1) ∧ ∃ bytes : Bytes, chunk :: rest = bytes.map singleton) →
      chunk.1.length ≤ RECEIVE_SIZE - r.length →
      (Silent (receiveData r chunk) ∧ (receiveData r chunk).length ≤ 1) ∧
        ∃ bytes : Bytes, rest = bytes.map singleton := by
    intro r chunk rest ⟨holds, bytes, same⟩ _
    cases bytes with
    | nil => cases same
    | cons byte bytes =>
      rw [List.map_cons, List.cons.injEq] at same
      rw [same.1]
      exact ⟨silent_byte r byte holds, bytes, same.2⟩
  obtain ⟨rest, ⟨silent, _⟩, _⟩ := receiveLoop_invariant
    (fun r chunks => (Silent r ∧ r.length ≤ 1) ∧ ∃ bytes : Bytes, chunks = bytes.map singleton) step
    (stream.map singleton) (.start buffer afmpkgRequestInit.2)
    ⟨⟨silent_start buffer _, Nat.zero_le _⟩, stream, rfl⟩ (bytes_cutting buffer stream).2
  exact silent.calls

theorem untilRejected_append (req : Request) (lines more : List Bytes)
    (rejected : ∃ rc ∈ (addLines req lines).1, rc < 0) :
    untilRejected req (lines ++ more) = untilRejected req lines := by
  induction lines generalizing req with
  | nil =>
    obtain ⟨rc, member, _⟩ := rejected
    cases member
  | cons line rest ih =>
    rw [List.cons_append, untilRejected, untilRejected]
    by_cases refused : (afmpkgRequestAddLine req line).1 < 0
    · rw [if_pos refused, if_pos refused]
    · rw [if_neg refused, if_neg refused, ih]
      obtain ⟨rc, member, negative⟩ := rejected
      rw [addLines] at member
      rcases List.mem_cons.mp member with first | later
      · rw [first] at negative
        exact absurd negative refused
      · exact ⟨rc, later, negative⟩

theorem receiveData_first (buffer : ReceiveBuffer) (chunk : Chunk) (room : chunk.1.length ≤ RECEIVE_SIZE) :
    (receiveData (.start buffer afmpkgRequestInit.2) chunk).calls =
        untilRejected afmpkgRequestInit.2 (wholeLines newline chunk.1) ∧
      ((receiveData (.start buffer afmpkgRequestInit.2) chunk).rc < 0 ↔
        ¬Accepted afmpkgRequestInit.2 (wholeLines newline chunk.1)) := by
  have size : (store buffer.1 0 chunk.1).length = RECEIVE_SIZE := by
    rw [store_length _ _ _ (by rw [buffer.2]; omega), buffer.2]
  have seen := store_view (.start buffer afmpkgRequestInit.2) chunk.1 (by
    simp only [Reception.start]
    rw [buffer.2]
    omega)
  have view : (Reception.start buffer afmpkgRequestInit.2).view chunk.1 = chunk.1 := by
    simp [Reception.view, Reception.kept, Reception.start]
  obtain ⟨calls, rc⟩ := extract_calls
    { Reception.start buffer afmpkgRequestInit.2 with
      buffer := store buffer.1 0 chunk.1, length := chunk.1.length } 0 (Nat.zero_le _)
    (by simp only; omega) (Int.le_refl 0)
  simp only [Reception.start] at seen calls rc view
  rw [List.drop_zero, seen, view] at calls rc
  rw [addLines_negative] at rc
  exact ⟨calls, rc⟩

/-- The lines of a stream that comes at once, or whose first chunk has a line that is
rejected. -/
theorem receivedLines_first (buffer : ReceiveBuffer) (chunk : Chunk) (rest : List Chunk)
    (admissible : Admissible (chunk :: rest) (.start buffer afmpkgRequestInit.2))
    (once : rest = [] ∨ ¬Accepted afmpkgRequestInit.2 (wholeLines newline chunk.1)) :
    receivedLines buffer (chunk :: rest) =
      untilRejected afmpkgRequestInit.2 (wholeLines newline (joined (chunk :: rest))) := by
  obtain ⟨calls, stops⟩ := receiveData_first buffer chunk admissible.1
  rw [receivedLines, receive, List.map_cons, receiveLoop]
  by_cases accepted : Accepted afmpkgRequestInit.2 (wholeLines newline chunk.1)
  · have none := once.resolve_right (not_not.mpr accepted)
    subst none
    rw [if_neg (fun stopped => stops.mp stopped accepted), List.map_nil, receiveLoop, calls]
    simp [joined]
  · obtain ⟨others, same⟩ := wholeLines_append newline chunk.1 (joined rest)
    rw [if_pos (stops.mpr accepted), calls, joined_cons, same,
      untilRejected_append _ _ _ ((addLines_negative _ _).mpr accepted)]

/-- The reception gives the lines of the stream when it comes at once or is rejected at
once; and gives them however it is cut only when there are none. -/
theorem receivedLines_iff (buffer : ReceiveBuffer) (stream : Bytes) :
    (∀ chunk rest, Cutting buffer stream (chunk :: rest) →
      rest = [] ∨ ¬Accepted afmpkgRequestInit.2 (wholeLines newline chunk.1) →
      receivedLines buffer (chunk :: rest) = untilRejected afmpkgRequestInit.2 (wholeLines newline stream)) ∧
    ((∀ chunks, Cutting buffer stream chunks →
      receivedLines buffer chunks = untilRejected afmpkgRequestInit.2 (wholeLines newline stream)) ↔
        wholeLines newline stream = []) := by
  constructor
  · intro chunk rest ⟨whole, admissible⟩ once
    rw [receivedLines_first buffer chunk rest admissible once, whole]
  · constructor
    · intro all
      have bytes := all _ (bytes_cutting buffer stream)
      rw [receivedLines_bytes] at bytes
      cases lines : wholeLines newline stream with
      | nil => rfl
      | cons line others =>
        rw [lines, untilRejected] at bytes
        cases bytes
    · intro none chunks ⟨whole, admissible⟩
      rw [none, untilRejected]
      apply receivedLines_blank buffer chunks admissible
      rw [whole]
      exact (wholeLines_eq_nil newline stream).mp none

def zeroBuffer : ReceiveBuffer := ⟨List.replicate RECEIVE_SIZE 0, List.length_replicate⟩

/-- A line that comes in two chunks is lost. -/
theorem cut_line_lost :
    ¬∀ (buffer : ReceiveBuffer) (stream : Bytes) (chunks : List Chunk),
      (∀ line ∈ terminated newline stream, line.length + 1 < RECEIVE_SIZE) →
      Cutting buffer stream chunks →
      receivedLines buffer chunks = untilRejected afmpkgRequestInit.2 (wholeLines newline stream) := by
  intro all
  have lines : terminated newline (ascii "A\n") = [ascii "A"] :=
    terminated_line newline (ascii "A") [] (by decide)
  have short : ∀ line ∈ terminated newline (ascii "A\n"), line.length + 1 < RECEIVE_SIZE := by
    rw [lines]
    decide
  have same := all zeroBuffer (ascii "A\n") [⟨ascii "A", by decide⟩, ⟨ascii "\n", by decide⟩] short
    (bytes_cutting zeroBuffer (ascii "A\n"))
  have none := receivedLines_bytes zeroBuffer (ascii "A\n")
  rw [wholeLines, lines] at same
  exact absurd (none.symm.trans same) (by decide)

end AppManager.Afmpkg
