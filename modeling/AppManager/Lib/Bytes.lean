import Mathlib.Algebra.Order.Ring.Int
import Mathlib.Data.List.Basic
import Mathlib.Data.List.TakeDrop
import Mathlib.Data.List.TakeWhile

/-! Byte strings and bounded buffers as C sees them. A string is the list of the
bytes before its terminator, and a buffer is the list of all its cells, written
by `memcpy`-like stores that never change its size when they fit. -/

namespace AppManager.Lib

abbrev Byte := UInt8
abbrev Bytes := List Byte

def ascii (text : String) : Bytes := text.toList.map Char.toUInt8

theorem ascii_ofList (chars : List Char) : ascii (String.ofList chars) = chars.map Char.toUInt8 := by
  rw [ascii, String.toList_ofList]

/-- What a string function reads: everything before the first NUL. -/
def cstr (bytes : Bytes) : Bytes := bytes.takeWhile (· != 0)

theorem cstr_of_no_nul (bytes : Bytes) (clean : (0 : Byte) ∉ bytes) : cstr bytes = bytes := by
  unfold cstr
  rw [List.takeWhile_eq_self_iff]
  intro byte member
  rw [bne_iff_ne]
  intro zero
  exact clean (zero ▸ member)

/-- Reading a string stops at the first NUL, whatever follows it. -/
theorem cstr_append_nul (bytes rest : Bytes) : cstr (bytes ++ 0 :: rest) = cstr bytes := by
  induction bytes with
  | nil => rfl
  | cons byte bytes ih =>
    unfold cstr at ih ⊢
    by_cases zero : byte = 0
    · simp [zero]
    · simpa [zero] using ih

theorem cstr_clean (bytes : Bytes) : (0 : Byte) ∉ cstr bytes := by
  intro member
  have differs := List.mem_takeWhile_imp member
  simp at differs

theorem cstr_length_le (bytes : Bytes) : (cstr bytes).length ≤ bytes.length := (List.takeWhile_sublist _).length_le

/-- What is read of a string that is cut is cut as well. -/
theorem cstr_take (bytes : Bytes) (length : Nat) : cstr (bytes.take length) = (cstr bytes).take length := by
  induction bytes generalizing length with
  | nil => simp [cstr]
  | cons byte rest ih =>
    cases length with
    | zero => simp [cstr]
    | succ length =>
      unfold cstr at ih ⊢
      by_cases stops : byte = 0
      · simp [stops]
      · simpa [stops] using ih length

/-- Texts are compared as `strcmp` does. -/
theorem lt_of_not_lt {first second : Bytes} (differ : first ≠ second) (not : ¬first < second) : second < first := by
  rw [List.not_lt] at not
  exact Std.lt_of_le_of_ne not (Ne.symm differ)

/-- `memcpy(&buffer[position], data, length of data)`. -/
def store (buffer : Bytes) (position : Nat) (data : Bytes) : Bytes :=
  buffer.take position ++ data ++ buffer.drop (position + data.length)

theorem store_length (buffer data : Bytes) (position : Nat)
    (room : position + data.length ≤ buffer.length) :
    (store buffer position data).length = buffer.length := by
  simp only [store, List.length_append, List.length_take, List.length_drop]
  omega

/-- Cells before the written ones keep their content. -/
theorem take_store (buffer data : Bytes) (position count : Nat) (before : count ≤ position)
    (room : position ≤ buffer.length) :
    (store buffer position data).take count = buffer.take count := by
  rw [store, List.append_assoc, List.take_append_of_le_length
    (by simp only [List.length_take]; omega), List.take_take, Nat.min_eq_left before]

/-- The cells up to the end of the written ones. -/
theorem take_store_end (buffer data : Bytes) (position : Nat) (room : position ≤ buffer.length) :
    (store buffer position data).take (position + data.length) = buffer.take position ++ data := by
  have size : position + data.length = (buffer.take position ++ data).length := by
    simp only [List.length_append, List.length_take]
    omega
  rw [store, size, List.take_left]

theorem store_zero (buffer data : Bytes) : store buffer 0 data = data ++ buffer.drop data.length := by
  simp [store]

theorem store_store (buffer first second : Bytes) (position : Nat) (inside : position ≤ first.length)
    (covers : first.length ≤ position + second.length) :
    store (store buffer 0 first) position second = store buffer 0 (first.take position ++ second) := by
  rw [store_zero, store_zero, store, List.take_append_of_le_length inside,
    List.drop_append, List.drop_eq_nil_of_le covers, List.drop_drop, List.nil_append]
  have tail : first.length + (position + second.length - first.length) =
      (first.take position ++ second).length := by
    simp only [List.length_append, List.length_take]
    omega
  rw [tail]

/-- What a writer does that never goes over the end of its buffer, but counts what it
would have written. -/
def copyOut (buffer : Bytes) (position : Nat) (data : Bytes) : Bytes × Nat :=
  (if position < buffer.length then store buffer position (data.take (buffer.length - position))
    else buffer, position + data.length)

/-- Successive copies write the concatenation, cut at the end of the buffer. -/
theorem copyOut_spec (buffer text data : Bytes) :
    copyOut (store buffer 0 (text.take buffer.length)) text.length data =
      (store buffer 0 ((text ++ data).take buffer.length), (text ++ data).length) := by
  have size : (store buffer 0 (text.take buffer.length)).length = buffer.length :=
    store_length _ _ _ (by simp only [List.length_take]; omega)
  unfold copyOut
  rw [size, List.length_append]
  split
  · next room =>
    rw [List.take_of_length_le (by omega : text.length ≤ buffer.length),
      List.take_append, List.take_of_length_le (by omega : text.length ≤ buffer.length),
      store_store _ _ _ _ le_rfl (by omega), List.take_length]
  · next full =>
    rw [List.take_append_of_le_length (by omega : buffer.length ≤ text.length)]

/-- The copy loop that takes cells from after the place where it puts them. -/
def moveDown (buffer : Bytes) (target source : Nat) : Nat → Bytes
  | 0 => buffer
  | count + 1 => moveDown (buffer.set target (buffer.getD source 0)) (target + 1) (source + 1) count

theorem store_cons (buffer data : Bytes) (byte : Byte) (position : Nat) (inside : position < buffer.length) :
    store buffer position (byte :: data) = store (buffer.set position byte) (position + 1) data := by
  have front : (buffer.set position byte).take (position + 1) = buffer.take position ++ [byte] := by
    rw [List.take_add_one, List.take_set_of_le le_rfl, List.getElem?_set_self inside, Option.toList_some]
  have back : (buffer.set position byte).drop (position + 1 + data.length) =
      buffer.drop (position + (byte :: data).length) := by
    rw [List.drop_set_of_lt (by omega), List.length_cons]
    congr 1
    omega
  rw [store, store, front, back, List.append_assoc _ [byte], List.singleton_append]

theorem moveDown_eq_store (buffer : Bytes) (target source count : Nat) (below : target ≤ source)
    (inside : source + count ≤ buffer.length) :
    moveDown buffer target source count = store buffer target ((buffer.drop source).take count) := by
  induction count generalizing buffer target source with
  | zero => simp [moveDown, store]
  | succ count ih =>
    have next := ih (buffer.set target (buffer.getD source 0)) (target + 1) (source + 1) (by omega)
      (by rw [List.length_set]; omega)
    have cell : buffer.drop source = buffer.getD source 0 :: buffer.drop (source + 1) := by
      rw [List.drop_eq_getElem_cons (by omega : source < buffer.length), List.getD_eq_getElem?_getD,
        List.getElem?_eq_getElem (by omega : source < buffer.length), Option.getD_some]
    rw [moveDown, next, List.drop_set_of_lt (by omega), cell, List.take_succ_cons,
      store_cons _ _ _ _ (by omega)]

end AppManager.Lib
