import AppManager.Lib.Bytes
import Mathlib.Data.List.Induction

/-! Hexadecimal text of a byte string, and its conversion in place from the end of a
buffer whose first half holds the bytes. -/

namespace AppManager.Lib

def hexDigit (low : Byte) : Byte := low + (if low ≤ 9 then 48 else 87)

def hexByte (byte : Byte) : Bytes := [hexDigit ((byte >>> 4) &&& 15), hexDigit (byte &&& 15)]

def hexString (bytes : Bytes) : Bytes := bytes.flatMap hexByte

/-- Each byte, from the last one, is replaced by its two digits at twice its place. -/
def hexInPlace : Nat → Bytes → Bytes
  | 0, value => value
  | length + 1, value =>
    let byte := value.getD length 0
    hexInPlace length (store (store value (2 * length + 1) [hexDigit (byte &&& 15)])
      (2 * length) [hexDigit ((byte >>> 4) &&& 15)])

theorem hexString_length (bytes : Bytes) : (hexString bytes).length = 2 * bytes.length := by
  induction bytes with
  | nil => rfl
  | cons byte rest ih =>
    simp only [hexString, hexByte, List.flatMap_cons, List.length_append, List.length_cons,
      List.length_nil] at ih ⊢
    omega

theorem hexDigit_not_blank (byte : Byte) : hexDigit (byte &&& 15) ≠ 32 := by
  unfold hexDigit
  have all : ∀ value : Fin 256, (let low := UInt8.ofFin value &&& 15
      low + (if low ≤ 9 then 48 else 87)) ≠ 32 := by decide +kernel
  simpa using all byte.toFin

theorem blank_not_mem_hexString (bytes : Bytes) : (32 : Byte) ∉ hexString bytes := by
  simp only [hexString, hexByte, List.mem_flatMap, List.mem_cons, List.not_mem_nil, or_false]
  intro ⟨byte, _, digit⟩
  rcases digit with high | low
  · exact hexDigit_not_blank (byte >>> 4) high.symm
  · exact hexDigit_not_blank byte low.symm

theorem store_cell (before after : Bytes) (old new : Byte) (position : Nat)
    (start : before.length = position) :
    store (before ++ old :: after) position [new] = before ++ new :: after := by
  subst start
  rw [store, List.take_left, List.length_singleton, List.append_assoc, List.singleton_append,
    List.drop_append, List.drop_eq_nil_of_le (by omega), Nat.add_sub_cancel_left, List.nil_append,
    List.drop_one, List.tail_cons]

theorem store_pair (before after : Bytes) (position : Nat) (first second : Byte)
    (start : before.length = position) (room : 2 ≤ after.length) :
    store (store (before ++ after) (position + 1) [second]) position [first] =
      before ++ first :: second :: after.drop 2 := by
  match after, room with
  | old :: old' :: rest, _ =>
    have apart : before ++ old :: old' :: rest = (before ++ [old]) ++ old' :: rest := by simp
    rw [apart, store_cell _ _ _ _ _ (by simp [start]), List.append_assoc, List.singleton_append,
      store_cell _ _ _ _ _ start]
    rfl

theorem hexInPlace_spec (bytes free : Bytes) (room : bytes.length ≤ free.length) :
    hexInPlace bytes.length (bytes ++ free) = hexString bytes ++ free.drop bytes.length := by
  induction bytes using List.reverseRecOn generalizing free with
  | nil => simp [hexInPlace, hexString]
  | append_singleton bytes byte ih =>
    rw [List.length_append, List.length_singleton] at room ⊢
    have read : (bytes ++ [byte] ++ free).getD bytes.length 0 = byte := by simp
    have split : bytes ++ [byte] ++ free =
        (bytes ++ (byte :: free).take bytes.length) ++ (byte :: free).drop bytes.length := by
      rw [List.append_assoc, List.append_assoc, List.take_append_drop, List.singleton_append]
    have start : (bytes ++ (byte :: free).take bytes.length).length = 2 * bytes.length := by
      simp only [List.length_append, List.length_take, List.length_cons]
      omega
    rw [hexInPlace, read, split, store_pair _ _ _ _ _ start (by simp; omega), List.append_assoc, ih]
    · have size : ((byte :: free).take bytes.length).length = bytes.length := by
        simp only [List.length_take, List.length_cons]
        omega
      simp only [hexString, List.flatMap_append, List.flatMap_singleton, hexByte, List.drop_drop]
      rw [List.drop_append, size, List.drop_eq_nil_of_le (by omega), Nat.sub_self, List.drop_zero]
      simp
    · simp only [List.length_append, List.length_take, List.length_cons]
      omega

end AppManager.Lib
