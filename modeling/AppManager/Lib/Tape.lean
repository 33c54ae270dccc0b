import AppManager.Lib.Bytes

/-! A buffer that is rewritten in place, by a place that reads and a place that writes
behind it. -/

namespace AppManager.Lib

/-- `read` is after the last byte that was read. -/
structure Tape where
  cells : Bytes
  read : Nat
  write : Nat
  deriving DecidableEq, Repr

namespace Tape

def start (cells : Bytes) : Tape := ⟨cells, 0, 0⟩

/-- `c = *read++`, and what is done then. -/
def next {Result : Type} (tape : Tape) (go : Byte → Tape → Option Result) : Option Result :=
  tape.cells[tape.read]?.bind fun byte => go byte { tape with read := tape.read + 1 }

/-- `*write++ = c`, which is lost when it is after the buffer. -/
def put (tape : Tape) (byte : Byte) : Option Tape :=
  if tape.write < tape.cells.length then
    some { tape with cells := tape.cells.set tape.write byte, write := tape.write + 1 }
  else none

/-- `*write = c`, with the bytes that were written and the whole buffer. -/
def close (tape : Tape) (byte : Byte) : Option (Nat × Bytes) :=
  if tape.write < tape.cells.length then some (tape.write, tape.cells.set tape.write byte) else none

/-- `while (count--) *write++ = *begin++;` -/
def copyDown : Nat → Nat → Tape → Option Tape
  | 0, _, tape => some tape
  | count + 1, begin, tape =>
    tape.cells[begin]?.bind fun byte => (tape.put byte).bind (copyDown count (begin + 1))

/-- What is written, then what is read and not yet written over, then what is not read. -/
def parts (out gap rest : Bytes) : Tape := ⟨out ++ gap ++ rest, out.length + gap.length, out.length⟩

theorem start_eq (cells : Bytes) : start cells = parts [] [] cells := rfl

theorem peek_parts (out gap : Bytes) (byte : Byte) (rest : Bytes) :
    (parts out gap (byte :: rest)).cells[(parts out gap (byte :: rest)).read]? = some byte := by
  simp only [parts]
  rw [← List.length_append, List.getElem?_append_right (Nat.le_refl _), Nat.sub_self]
  rfl

theorem next_parts {Result : Type} (out gap : Bytes) (byte : Byte) (rest : Bytes)
    (go : Byte → Tape → Option Result) :
    (parts out gap (byte :: rest)).next go = go byte (parts out (gap ++ [byte]) rest) := by
  have here : (out ++ gap ++ byte :: rest)[out.length + gap.length]? = some byte := peek_parts out gap byte rest
  have whole : out ++ gap ++ byte :: rest = out ++ (gap ++ [byte]) ++ rest := by
    simp only [List.append_assoc, List.singleton_append]
  simp only [next, parts]
  rw [here, whole, List.length_append, List.length_singleton, Nat.add_assoc]
  rfl

theorem set_parts (out : Bytes) (old byte : Byte) (after : Bytes) :
    (out ++ old :: after).set out.length byte = out ++ byte :: after := by
  rw [List.set_append_right _ _ (Nat.le_refl _), Nat.sub_self]
  rfl

theorem put_parts (out : Bytes) (old : Byte) (gap rest : Bytes) (byte : Byte) :
    (parts out (old :: gap) rest).put byte = some (parts (out ++ [byte]) gap rest) := by
  have room : (parts out (old :: gap) rest).write < (parts out (old :: gap) rest).cells.length := by
    simp only [parts, List.length_append, List.length_cons]
    omega
  have cells : (out ++ (old :: gap) ++ rest).set out.length byte = out ++ [byte] ++ gap ++ rest := by
    rw [List.append_assoc, List.cons_append, set_parts, List.append_assoc, List.append_assoc]
    rfl
  rw [put, if_pos room, Option.some.injEq]
  simp only [parts, Tape.mk.injEq, cells, List.length_append, List.length_cons, List.length_nil, true_and, and_true]
  clear room
  omega

theorem put_over (out : Bytes) (old : Byte) (rest : Bytes) (byte : Byte) :
    (parts out [] (old :: rest)).put byte = some ⟨out ++ byte :: rest, out.length, out.length + 1⟩ := by
  have room : out.length < (out ++ [] ++ old :: rest).length := by
    simp only [List.length_append, List.length_cons]
    omega
  rw [put, parts, if_pos room, List.append_nil, set_parts]
  rfl

/-- A byte is written after one was read: there is room, and as much is left as before. -/
theorem put_read (out gap : Bytes) (read : Byte) (rest : Bytes) (byte : Byte) :
    ∃ gap', gap'.length = gap.length ∧
      (parts out (gap ++ [read]) rest).put byte = some (parts (out ++ [byte]) gap' rest) := by
  cases gap with
  | nil => exact ⟨[], rfl, put_parts out read [] rest byte⟩
  | cons old gap => exact ⟨gap ++ [read], by simp, put_parts out old (gap ++ [read]) rest byte⟩

theorem close_full (out : Bytes) (byte : Byte) : (parts out [] []).close byte = none := by
  rw [close, parts, List.append_nil, List.append_nil]
  exact if_neg (lt_irrefl _)

theorem close_parts {out gap rest after : Bytes} {old : Byte} (some : gap ++ rest = old :: after) (byte : Byte) :
    (parts out gap rest).close byte = Option.some (out.length, out ++ byte :: after) := by
  have room : (parts out gap rest).write < (parts out gap rest).cells.length := by
    simp only [parts, List.append_assoc, some, List.length_append, List.length_cons]
    omega
  rw [close, if_pos room, parts, List.append_assoc, some, set_parts]

/-- What was written is ended after a byte was read: as much as before is between, up to what is not read. -/
theorem close_read (out gap : Bytes) (last : Byte) (rest : Bytes) (byte : Byte) : ∃ junk, junk.length = gap.length ∧
    (parts out (gap ++ [last]) rest).close byte = some (out.length, out ++ byte :: (junk ++ rest)) ∧
    (last = byte → ∃ front, front.length = gap.length ∧ byte :: junk = front ++ [byte]) := by
  cases gap with
  | nil => exact ⟨[], rfl, close_parts rfl byte, fun _ => ⟨[], rfl, rfl⟩⟩
  | cons old gap =>
    have whole : old :: gap ++ [last] ++ rest = old :: (gap ++ [last] ++ rest) := rfl
    exact ⟨gap ++ [last], by simp, close_parts whole byte, fun same => ⟨byte :: gap, rfl, by rw [same]; rfl⟩⟩

theorem get_parts (out junk : Bytes) (byte : Byte) (after rest : Bytes) :
    (parts out (junk ++ byte :: after) rest).cells[out.length + junk.length]? = some byte := by
  have whole : out ++ (junk ++ byte :: after) ++ rest = (out ++ junk) ++ byte :: (after ++ rest) := by simp
  simp only [parts, whole]
  rw [← List.length_append, List.getElem?_append_right (Nat.le_refl _), Nat.sub_self]
  rfl

/-- A part of what was read is copied: what is after it stays, and as much as before is between. -/
theorem copyDown_parts (out junk source after rest : Bytes) : ∃ junk', junk'.length = junk.length ∧
    copyDown source.length (out.length + junk.length) (parts out (junk ++ source ++ after) rest) =
      some (parts (out ++ source) (junk' ++ after) rest) := by
  induction source generalizing out junk with
  | nil => exact ⟨junk, rfl, by simp only [List.append_nil, List.length_nil, copyDown]⟩
  | cons byte source ih =>
    have here := get_parts out junk byte (source ++ after) rest
    have whole : junk ++ byte :: source ++ after = junk ++ byte :: (source ++ after) := by
      rw [List.append_assoc, List.cons_append]
    obtain ⟨junk', size, gap⟩ : ∃ junk', junk'.length = junk.length ∧
        (parts out (junk ++ byte :: (source ++ after)) rest).put byte =
          some (parts (out ++ [byte]) (junk' ++ source ++ after) rest) := by
      cases junk with
      | nil => exact ⟨[], rfl, put_parts out byte (source ++ after) rest byte⟩
      | cons old junk => exact ⟨junk ++ [byte], by simp, by simp [put_parts]⟩
    obtain ⟨junk'', size', run⟩ := ih (out ++ [byte]) junk'
    refine ⟨junk'', size'.trans size, ?_⟩
    have next : out.length + junk.length + 1 = (out ++ [byte]).length + junk'.length := by
      rw [List.length_append, List.length_singleton, size]
      omega
    rw [whole, List.length_cons, copyDown, here, Option.bind_some, gap, Option.bind_some, next, run, List.append_assoc,
      List.singleton_append]

end Tape

/-- A string that stands at the begin of a buffer. -/
theorem cstr_terminated {text : Bytes} (clean : (0 : Byte) ∉ text) (after : Bytes) :
    cstr (text ++ 0 :: after) = text := by
  rw [cstr_append_nul, cstr_of_no_nul text clean]

end AppManager.Lib
