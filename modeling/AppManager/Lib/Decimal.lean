import Mathlib.Data.List.Induction
import AppManager.Lib.Libc

/-! The decimal texts of integers, and what the readers of numbers make of them. -/

namespace AppManager.Lib.Libc

/-- The text of a number, as `%d` writes it. -/
def decimalText (value : Int) : Bytes := ascii (toString value)

def digitByte (digit : Nat) : Byte := UInt8.ofNat (48 + digit)

theorem digitByte_toNat (digit : Nat) (small : digit < 10) : (digitByte digit).toNat = 48 + digit := by
  rw [digitByte, UInt8.toNat_ofNat']
  omega

theorem digitByte_isDigit (digit : Nat) (small : digit < 10) : isDigit (digitByte digit) = true := by
  have table : ∀ digit < 10, isDigit (digitByte digit) = true := by decide
  exact table digit small

theorem digitChar_byte (digit : Nat) (small : digit < 10) : digit.digitChar.toUInt8 = digitByte digit := by
  have table : ∀ digit < 10, digit.digitChar.toUInt8 = digitByte digit := by decide
  exact table digit small

theorem decimalText_natCast (number : Nat) : decimalText (number : Int) = ascii number.repr := rfl

theorem decimalText_step (number : Nat) :
    decimalText (number : Int) =
      if number < 10 then [digitByte number]
      else decimalText ((number / 10 : Nat) : Int) ++ [digitByte (number % 10)] := by
  simp only [decimalText_natCast, ascii, Nat.toList_repr]
  rw [Nat.toDigits_eq_if (by decide)]
  split
  · next small => rw [List.map_singleton, digitChar_byte number small]
  · rw [List.map_append, List.map_singleton, digitChar_byte _ (Nat.mod_lt _ (by decide))]

theorem decimal_snoc (digits : Bytes) (byte : Byte) :
    decimal (digits ++ [byte]) = 10 * decimal digits + (byte.toNat - 48) := by
  rw [decimal, List.foldl_concat]
  rfl

theorem decimalText_digits (number : Nat) :
    (∀ byte ∈ decimalText (number : Int), isDigit byte = true) ∧ decimal (decimalText (number : Int)) = number := by
  induction number using Nat.strong_induction_on with
  | _ number ih =>
    rw [decimalText_step]
    by_cases small : number < 10
    · rw [if_pos small]
      constructor
      · intro byte member
        rw [List.mem_singleton.mp member]
        exact digitByte_isDigit number small
      · rw [← List.nil_append [digitByte number], decimal_snoc, digitByte_toNat number small]
        simp [decimal]
    · rw [if_neg small]
      obtain ⟨digits, value⟩ := ih (number / 10) (by omega)
      have last : number % 10 < 10 := Nat.mod_lt _ (by decide)
      constructor
      · intro byte member
        rcases List.mem_append.mp member with before | final
        · exact digits byte before
        · rw [List.mem_singleton.mp final]
          exact digitByte_isDigit _ last
      · rw [decimal_snoc, value, digitByte_toNat _ last]
        omega

theorem decimalText_ne_nil (number : Nat) : decimalText (number : Int) ≠ [] := by
  rw [decimalText_step]
  split <;> simp

theorem decimalText_negative (number : Nat) :
    decimalText (Int.negSucc number) = ascii "-" ++ decimalText ((number + 1 : Nat) : Int) := by
  simp only [decimalText, ascii]
  rw [show toString (Int.negSucc number) = "-" ++ (number + 1).repr from rfl,
    show toString ((number + 1 : Nat) : Int) = (number + 1).repr from rfl, String.toList_append, List.map_append]

theorem minus_not_digit : isDigit ('-'.toUInt8) = false := by decide

theorem not_mem_decimalText (byte : Byte) (other : isDigit byte = false) (unsigned : byte ≠ '-'.toUInt8)
    (value : Int) : byte ∉ decimalText value := by
  have positive : ∀ number : Nat, byte ∉ decimalText (number : Int) := by
    intro number member
    rw [(decimalText_digits number).1 byte member] at other
    cases other
  cases value with
  | ofNat number => exact positive number
  | negSucc number =>
    rw [decimalText_negative]
    intro member
    rcases List.mem_append.mp member with sign | digits
    · exact unsigned (List.mem_singleton.mp sign)
    · exact positive _ digits

theorem decimalText_injective {first second : Int} (same : decimalText first = decimalText second) :
    first = second := by
  have signs : ∀ number other : Nat, decimalText (number : Int) ≠ decimalText (Int.negSucc other) := by
    intro number other equal
    have member : '-'.toUInt8 ∈ decimalText (number : Int) := by
      rw [equal, decimalText_negative]
      exact List.mem_append_left _ (List.mem_singleton.mpr rfl)
    have digit := (decimalText_digits number).1 _ member
    rw [minus_not_digit] at digit
    cases digit
  cases first with
  | ofNat number =>
    cases second with
    | ofNat other =>
      have values := congrArg decimal same
      rw [Int.ofNat_eq_natCast, Int.ofNat_eq_natCast, (decimalText_digits number).2, (decimalText_digits other).2]
        at values
      rw [values]
    | negSucc other => exact absurd same (signs number other)
  | negSucc number =>
    cases second with
    | ofNat other => exact absurd same.symm (signs other number)
    | negSucc other =>
      rw [decimalText_negative, decimalText_negative, List.append_cancel_left_eq] at same
      have values := congrArg decimal same
      rw [(decimalText_digits _).2, (decimalText_digits _).2] at values
      rw [Nat.succ.inj values]

theorem digit_kinds {byte : Byte} (digit : isDigit byte = true) :
    isSpace byte = false ∧ (some byte == some (45 : Byte)) = false ∧ (some byte == some (43 : Byte)) = false := by
  simp only [isDigit, Bool.and_eq_true, decide_eq_true_eq, UInt8.le_iff_toNat_le] at digit
  simp only [isSpace, Bool.or_eq_false_iff, Bool.and_eq_false_iff, beq_eq_false_iff_ne, ne_eq, Option.some.injEq,
    decide_eq_false_iff_not, UInt8.le_iff_toNat_le, ← UInt8.toNat_inj]
  simp only [UInt8.toNat_ofNat] at *
  omega

theorem strtol_number {blanks digits rest : Bytes} (blank : ∀ byte ∈ blanks, isSpace byte = true) (proper : digits ≠ [])
    (number : ∀ byte ∈ digits, isDigit byte = true) (ended : ∀ byte ∈ rest.head?, isDigit byte = false)
    (fits : (decimal digits : Int) ≤ LONG_MAX) :
    strtol (blanks ++ (digits ++ rest)) = ⟨decimal digits, rest, false⟩ := by
  obtain ⟨first, others, same⟩ := List.exists_cons_of_ne_nil proper
  obtain ⟨space, minus, plus⟩ := digit_kinds (number first (by rw [same]; exact List.mem_cons_self))
  have signed : (blanks ++ (digits ++ rest)).dropWhile isSpace = digits ++ rest := by
    rw [List.dropWhile_append_of_pos blank, same, List.cons_append, List.dropWhile_cons_of_neg (by simp [space])]
  have head : (digits ++ rest).head? = some first := by rw [same]; rfl
  have stops : rest.takeWhile isDigit = [] ∧ rest.dropWhile isDigit = rest := by
    cases rest with
    | nil => exact ⟨rfl, rfl⟩
    | cons byte rest =>
      have other : ¬isDigit byte = true := by simp [ended byte rfl]
      exact ⟨List.takeWhile_cons_of_neg other, List.dropWhile_cons_of_neg other⟩
  have whole : (digits ++ rest).takeWhile isDigit = digits := by
    rw [List.takeWhile_append_of_pos number, stops.1, List.append_nil]
  have after : (digits ++ rest).dropWhile isDigit = rest := by rw [List.dropWhile_append_of_pos number, stops.2]
  have least : LONG_MIN ≤ (decimal digits : Int) := by
    unfold LONG_MIN
    omega
  simp only [strtol, signed, head, minus, plus, Bool.or_self, Bool.false_eq_true, ↓reduceIte, whole, after, proper,
    not_lt.mpr fits, not_lt.mpr least]

theorem strtol_decimalText (number : Nat) (fits : (number : Int) ≤ LONG_MAX) :
    strtol (decimalText (number : Int)) = ⟨number, [], false⟩ := by
  obtain ⟨digits, value⟩ := decimalText_digits number
  have read : strtol ([] ++ (decimalText (number : Int) ++ [])) = ⟨decimal (decimalText (number : Int)), [], false⟩ :=
    strtol_number (by simp) (decimalText_ne_nil number) digits (by simp) (by rwa [value])
  rwa [List.nil_append, List.append_nil, value] at read

/-- A text as `strtol` reads its digits. -/
def unsignedText (text : Bytes) : Bytes :=
  let signed := text.dropWhile isSpace
  if signed.head? == some 45 || signed.head? == some 43 then signed.tail else signed

theorem strtol_rest (text : Bytes) : (strtol text).rest =
    if (unsignedText text).takeWhile isDigit = [] then text else (unsignedText text).dropWhile isDigit := by
  simp only [strtol, unsignedText]
  split_ifs <;> rfl

theorem strtol_digits (text : Bytes) (proper : text ≠ []) (whole : (strtol text).rest = []) :
    (unsignedText text).takeWhile isDigit ≠ [] ∧ ∀ byte ∈ unsignedText text, isDigit byte = true := by
  rw [strtol_rest] at whole
  split at whole
  · exact absurd whole proper
  · next digits => exact ⟨digits, List.dropWhile_eq_nil_iff.mp whole⟩

theorem strtol_blanks (text other : Bytes) (proper : text ≠ []) (whole : (strtol text).rest = [])
    (same : other.dropWhile isSpace = text.dropWhile isSpace) : strtol other = strtol text := by
  have digits := (strtol_digits text proper whole).1
  rw [unsignedText] at digits
  simp only [strtol, same, if_neg digits]

theorem strtol_signed (text : Bytes) (proper : text ≠ []) (whole : (strtol text).rest = []) :
    text.dropWhile isSpace ≠ [] ∧
      ∀ byte ∈ text.dropWhile isSpace, isDigit byte = true ∨ byte = 43 ∨ byte = 45 := by
  obtain ⟨some, all⟩ := strtol_digits text proper whole
  rw [unsignedText] at some all
  cases signed : text.dropWhile isSpace with
  | nil =>
    rw [signed] at some
    exact absurd rfl some
  | cons first rest =>
    rw [signed] at all
    refine ⟨by simp, fun byte member => ?_⟩
    split at all
    · next sign =>
      rcases List.mem_cons.mp member with here | later
      · rw [List.head?_cons, Bool.or_eq_true, beq_iff_eq, beq_iff_eq, Option.some.injEq, Option.some.injEq] at sign
        rw [here]
        exact Or.inr sign.symm
      · exact Or.inl (all byte later)
    · exact Or.inl (all byte member)

theorem digit_value {byte : Byte} (digit : isDigit byte = true) :
    byte.toNat - 48 < 10 ∧ digitByte (byte.toNat - 48) = byte := by
  unfold isDigit at digit
  rw [Bool.and_eq_true, decide_eq_true_iff, decide_eq_true_iff, UInt8.le_iff_toNat_le, UInt8.le_iff_toNat_le] at digit
  have low : 48 ≤ byte.toNat := digit.1
  have high : byte.toNat ≤ 57 := digit.2
  refine ⟨by omega, ?_⟩
  apply UInt8.toNat_inj.mp
  rw [digitByte_toNat _ (by omega)]
  omega

/-- Digits that start with another one than zero are as many as the size of their number tells. -/
theorem decimal_lower {first : Byte} (digit : isDigit first = true) (leading : first ≠ 48) (others : Bytes) :
    10 ^ others.length ≤ decimal (first :: others) := by
  induction others using List.reverseRecOn with
  | nil =>
    have some : first.toNat ≠ 48 := fun same => leading (UInt8.toNat_inj.mp same)
    have low : 48 ≤ first.toNat := by
      unfold isDigit at digit
      rw [Bool.and_eq_true, decide_eq_true_iff, UInt8.le_iff_toNat_le] at digit
      exact digit.1
    simp only [List.length_nil, Nat.pow_zero, decimal, List.foldl_cons, List.foldl_nil]
    omega
  | append_singleton others last ih =>
    rw [← List.cons_append, decimal_snoc, List.length_append, List.length_singleton, Nat.pow_succ]
    omega

theorem decimalText_decimal {first : Byte} {others : Bytes} (digits : ∀ byte ∈ first :: others, isDigit byte = true)
    (leading : first ≠ 48) : decimalText (decimal (first :: others) : Nat) = first :: others := by
  induction others using List.reverseRecOn with
  | nil =>
    obtain ⟨small, same⟩ := digit_value (digits first List.mem_cons_self)
    have value : decimal [first] = first.toNat - 48 := by simp [decimal]
    rw [value, decimalText_step, if_pos small, same]
  | append_singleton others last ih =>
    obtain ⟨small, same⟩ := digit_value (digits last (by simp))
    have lower := decimal_lower (digits first List.mem_cons_self) leading others
    have positive : 0 < 10 ^ others.length := Nat.pow_pos (by decide)
    rw [← List.cons_append, decimal_snoc, decimalText_step, if_neg (by omega)]
    have quot : (10 * decimal (first :: others) + (last.toNat - 48)) / 10 = decimal (first :: others) := by omega
    have rem : (10 * decimal (first :: others) + (last.toNat - 48)) % 10 = last.toNat - 48 := by omega
    rw [quot, rem, same, ih fun byte member => digits byte ?_]
    rcases List.mem_cons.mp member with rfl | later
    · exact List.mem_cons_self
    · exact List.mem_cons_of_mem _ (List.mem_append_left _ later)

theorem decimalText_leading {number : Nat} (positive : 0 < number) :
    ∃ first others, decimalText number = first :: others ∧ first ≠ 48 := by
  induction number using Nat.strong_induction_on with
  | _ number ih =>
    rw [decimalText_step]
    by_cases small : number < 10
    · rw [if_pos small]
      refine ⟨digitByte number, [], rfl, fun zero => ?_⟩
      have value := digitByte_toNat number small
      rw [zero] at value
      have byte : (48 : Byte).toNat = 48 := rfl
      omega
    · obtain ⟨first, others, text, leading⟩ := ih (number / 10) (by omega) (by omega)
      rw [if_neg small, text]
      exact ⟨first, _, rfl, leading⟩

end AppManager.Lib.Libc
