import AppManager.Lib.Bytes

/-! The few things of the C library and of the LP64 platform that modelled code
reads: error codes, limits, the conversion to `int` and the reading of decimal
numbers. -/

namespace AppManager.Lib.Libc

def ENOENT : Int := 2
def EBADF : Int := 9
def ENOMEM : Int := 12
def EEXIST : Int := 17
def EINVAL : Int := 22
def ENAMETOOLONG : Int := 36
def ENOTEMPTY : Int := 39
def ENODATA : Int := 61
def EBADMSG : Int := 74
def EADDRNOTAVAIL : Int := 99
def ENOKEY : Int := 126

/-- The negative error codes that functions return. -/
abbrev Failure := { rc : Int // rc < 0 }

theorem ENOENT_failure : -ENOENT < 0 := by decide

theorem ENOMEM_failure : -ENOMEM < 0 := by decide

theorem EINVAL_failure : -EINVAL < 0 := by decide

def PATH_MAX : Nat := 4096
def UINT_MAX : Int := 2 ^ 32 - 1
def LONG_MAX : Int := 2 ^ 63 - 1
def LONG_MIN : Int := -2 ^ 63

/-- The values of type `int`. -/
abbrev CInt := { value : Int // -2 ^ 31 ≤ value ∧ value < 2 ^ 31 }

/-- A string in memory: no NUL in it, and no object is longer than `PTRDIFF_MAX`. -/
structure CString where
  bytes : Bytes
  clean : (0 : Byte) ∉ bytes
  short : bytes.length < 2 ^ 63

/-- `(int)value` for a `size_t` value, as compilers for this platform do it. -/
def toInt (value : Nat) : Int :=
  if value % 2 ^ 32 < 2 ^ 31 then (value % 2 ^ 32 : Nat) else (value % 2 ^ 32 : Nat) - 2 ^ 32

theorem toInt_of_small (value : Nat) (small : value < 2 ^ 31) : toInt value = value := by
  have residue : value % 2 ^ 32 = value := Nat.mod_eq_of_lt (by omega)
  rw [toInt, residue, if_pos small]

theorem toInt_le (value : Nat) : toInt value ≤ value := by
  unfold toInt
  have residue := Nat.mod_le value (2 ^ 32)
  split <;> omega

theorem toInt_lt (value : Nat) : toInt value < 2 ^ 31 := by
  unfold toInt
  have residue := Nat.mod_lt value (by decide : 0 < 2 ^ 32)
  split <;> omega

def isSpace (byte : Byte) : Bool := byte == 32 || (9 ≤ byte && byte ≤ 13)

def isDigit (byte : Byte) : Bool := 48 ≤ byte && byte ≤ 57

def decimal (digits : Bytes) : Nat := digits.foldl (fun value byte => 10 * value + (byte.toNat - 48)) 0

/-- What `strtol(text, &rest, 10)` gives: the value, the text it stopped at, and
whether the number was out of the range of `long`. -/
structure Strtol where
  value : Int
  rest : Bytes
  erange : Bool
  deriving DecidableEq, Repr

/-- `strtol` in base ten. Without digits nothing is consumed, not even the blanks. -/
def strtol (text : Bytes) : Strtol :=
  let signed := text.dropWhile isSpace
  let negative := signed.head? == some 45
  let digits := if negative || signed.head? == some 43 then signed.tail else signed
  if digits.takeWhile isDigit = [] then ⟨0, text, false⟩
  else
    let magnitude : Int := decimal (digits.takeWhile isDigit)
    let value := if negative then -magnitude else magnitude
    let rest := digits.dropWhile isDigit
    if LONG_MAX < value then ⟨LONG_MAX, rest, true⟩
    else if value < LONG_MIN then ⟨LONG_MIN, rest, true⟩
    else ⟨value, rest, false⟩

end AppManager.Lib.Libc
