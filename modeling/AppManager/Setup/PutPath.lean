import AppManager.Lib.Decimal

/-! The paths of the setup tools, where `%u` and `%g` stand for the ids of the user. The digits
of an id are put by a recursion through `div`, which is on signed integers. -/

namespace AppManager.Setup
open AppManager.Lib AppManager.Lib.Libc

def percent : Byte := '%'.toUInt8
def letterU : Byte := 'u'.toUInt8
def letterG : Byte := 'g'.toUInt8

/-- An `int` that is given for an `unsigned`. -/
def unsigned (value : Int) : Nat := (value % 2 ^ 32).toNat

theorem toInt_unsigned {value : Int} (low : -2 ^ 31 ≤ value) (high : value < 2 ^ 31) :
    toInt (unsigned value) = value := by
  unfold toInt unsigned
  have residue : (value % 2 ^ 32).toNat % 2 ^ 32 = (value % 2 ^ 32).toNat := by
    apply Nat.mod_eq_of_lt
    omega
  rw [residue]
  split <;> omega

theorem le_toInt (value : Nat) : -2 ^ 31 ≤ toInt value := by
  unfold toInt
  split <;> omega

theorem toInt_quot (value : Nat) : toInt (unsigned ((toInt value).tdiv 10)) = (toInt value).tdiv 10 := by
  have low := le_toInt value
  have high := toInt_lt value
  have size := Int.natAbs_tdiv (toInt value) 10
  change _ = (toInt value).natAbs / 10 at size
  apply toInt_unsigned <;> omega

/-- The bytes that `putuint` puts. -/
def putuint (value : Nat) : Bytes :=
  (if (toInt value).tdiv 10 ≠ 0 then putuint (unsigned ((toInt value).tdiv 10)) else []) ++
    [UInt8.ofInt (48 + (toInt value).tmod 10)]
termination_by (toInt value).natAbs
decreasing_by
  next more =>
    rw [toInt_quot, Int.natAbs_tdiv]
    have some := Int.natAbs_pos.mpr more
    rw [Int.natAbs_tdiv] at some
    exact Nat.div_lt_self (Nat.pos_of_ne_zero fun none => by simp [none] at some) (by decide)

/-- The characters from some place of the template on, after what is put for the ones before.
There is no result when the end of the template is missed. -/
def putpath (uid gid : Nat) : Bytes → Bytes → Option Bytes
  | [], _ => none
  | c :: src, dest =>
    if c = percent then
      match src with
      | [] => none
      | next :: rest =>
        if next = letterU then putpath uid gid rest (dest ++ putuint uid)
        else if next = letterG then putpath uid gid rest (dest ++ putuint gid)
        else if next = percent then putpath uid gid rest (dest ++ [c])
        else putpath uid gid (next :: rest) (dest ++ [c])
    else if c = 0 then some (dest ++ [c])
    else putpath uid gid src (dest ++ [c])

inductive Token where
  | user
  | group
  | plain (byte : Byte)
  deriving DecidableEq, Repr

def tokens : Bytes → List Token
  | [] => []
  | [byte] => [.plain byte]
  | byte :: next :: rest =>
    if byte = percent then
      if next = letterU then .user :: tokens rest
      else if next = letterG then .group :: tokens rest
      else if next = percent then .plain percent :: tokens rest
      else .plain percent :: tokens (next :: rest)
    else .plain byte :: tokens (next :: rest)

/-- What stands for a token, when the ids have these texts. -/
def Token.text (uid gid : Bytes) : Token → Bytes
  | .user => uid
  | .group => gid
  | .plain byte => [byte]

def expand (uid gid : Nat) (template : Bytes) : Bytes :=
  (tokens template).flatMap (Token.text (decimalText uid) (decimalText gid))

theorem putpath_end (uid gid : Nat) (after dest : Bytes) : putpath uid gid (0 :: after) dest = some (dest ++ [0]) := by
  unfold putpath
  rw [if_neg (by decide), if_pos rfl]

theorem putpath_plain (uid gid : Nat) {c : Byte} (other : c ≠ percent) (proper : c ≠ 0) (src dest : Bytes) :
    putpath uid gid (c :: src) dest = putpath uid gid src (dest ++ [c]) := by
  conv_lhs => unfold putpath
  rw [if_neg other, if_neg proper]

theorem putpath_percent (uid gid : Nat) (next : Byte) (rest dest : Bytes) :
    putpath uid gid (percent :: next :: rest) dest =
      if next = letterU then putpath uid gid rest (dest ++ putuint uid)
      else if next = letterG then putpath uid gid rest (dest ++ putuint gid)
      else if next = percent then putpath uid gid rest (dest ++ [percent])
      else putpath uid gid (next :: rest) (dest ++ [percent]) := by
  conv_lhs => unfold putpath
  rw [if_pos rfl]

theorem putpath_tokens (uid gid : Nat) {template : Bytes} (clean : (0 : Byte) ∉ template) (after dest : Bytes) :
    putpath uid gid (template ++ 0 :: after) dest =
      some (dest ++ (tokens template).flatMap (Token.text (putuint uid) (putuint gid)) ++ [0]) := by
  have more (before : Bytes) (token : Token) (rest : List Token) :
      before ++ (token :: rest).flatMap (Token.text (putuint uid) (putuint gid)) =
        before ++ token.text (putuint uid) (putuint gid) ++
          rest.flatMap (Token.text (putuint uid) (putuint gid)) := by
    rw [List.flatMap_cons, List.append_assoc]
  have later {byte next : Byte} {rest : Bytes} (clean : (0 : Byte) ∉ byte :: next :: rest) : (0 : Byte) ∉ rest :=
    fun member => clean (List.mem_cons_of_mem _ (List.mem_cons_of_mem _ member))
  induction template using tokens.induct generalizing dest with
  | case1 => rw [List.nil_append, putpath_end, tokens, List.flatMap_nil, List.append_nil]
  | case2 byte =>
    have proper : byte ≠ 0 := fun zero => clean (zero ▸ List.mem_cons_self)
    rw [List.singleton_append, tokens, more, List.flatMap_nil, List.append_nil]
    by_cases sign : byte = percent
    · rw [sign, putpath_percent, if_neg (by decide), if_neg (by decide), if_neg (by decide), putpath_end]
      rfl
    · rw [putpath_plain uid gid sign proper, putpath_end]
      rfl
  | case3 rest ih =>
    rw [List.cons_append, List.cons_append, putpath_percent, if_pos rfl, ih (later clean), tokens, if_pos rfl,
      if_pos rfl, more]
    rfl
  | case4 rest user ih =>
    rw [List.cons_append, List.cons_append, putpath_percent, if_neg user, if_pos rfl, ih (later clean), tokens,
      if_pos rfl, if_neg user, if_pos rfl, more]
    rfl
  | case5 rest user group ih =>
    rw [List.cons_append, List.cons_append, putpath_percent, if_neg user, if_neg group, if_pos rfl, ih (later clean),
      tokens, if_pos rfl, if_neg user, if_neg group, if_pos rfl, more]
    rfl
  | case6 next rest user group double ih =>
    rw [List.cons_append, List.cons_append, putpath_percent, if_neg user, if_neg group, if_neg double,
      ← List.cons_append, ih fun member => clean (List.mem_cons_of_mem _ member), tokens, if_pos rfl, if_neg user,
      if_neg group, if_neg double, more]
    rfl
  | case7 byte next rest sign ih =>
    have proper : byte ≠ 0 := fun zero => clean (zero ▸ List.mem_cons_self)
    rw [List.cons_append, putpath_plain uid gid sign proper, ih fun member => clean (List.mem_cons_of_mem _ member),
      tokens, if_neg sign, more]
    rfl

theorem putuint_small {value : Nat} (small : value < 2 ^ 31) : putuint value = decimalText value := by
  induction value using Nat.strong_induction_on with
  | _ value ih =>
    have quot : (toInt value).tdiv 10 = ((value / 10 : Nat) : Int) := by
      rw [toInt_of_small value small]
      rfl
    have rem : (toInt value).tmod 10 = ((value % 10 : Nat) : Int) := by
      rw [toInt_of_small value small]
      rfl
    have digit : UInt8.ofInt (48 + ((value % 10 : Nat) : Int)) = digitByte (value % 10) := by
      have table : ∀ digit < 10, UInt8.ofInt (48 + ((digit : Nat) : Int)) = digitByte digit := by decide
      exact table _ (Nat.mod_lt _ (by decide))
    have next : unsigned ((value / 10 : Nat) : Int) = value / 10 := by
      unfold unsigned
      omega
    rw [putuint, decimalText_step, quot, rem, digit, next]
    by_cases one : value < 10
    · rw [if_pos one, Nat.div_eq_of_lt one, Nat.mod_eq_of_lt one]
      rfl
    · have more : ((value / 10 : Nat) : Int) ≠ 0 := by omega
      rw [if_neg one, if_pos more, ih (value / 10) (by omega) (by omega)]

theorem putuint_negative {value : Nat} (negative : toInt value < 0) :
    ∃ first rest, putuint value = first :: rest ∧ isDigit first = false := by
  induction value using putuint.induct with
  | case1 value ih =>
    obtain ⟨size, minus⟩ : ∃ size : Nat, toInt value = -(size : Int) := ⟨(-toInt value).toNat, by omega⟩
    have quot : (toInt value).tdiv 10 = -((size / 10 : Nat) : Int) := by
      rw [minus, Int.neg_tdiv]
      rfl
    have rem : (toInt value).tmod 10 = -((size % 10 : Nat) : Int) := by
      rw [minus, Int.neg_tmod]
      rfl
    rw [putuint]
    by_cases more : (toInt value).tdiv 10 ≠ 0
    · have below : toInt (unsigned ((toInt value).tdiv 10)) < 0 := by
        rw [toInt_quot]
        omega
      obtain ⟨first, rest, split, other⟩ := ih more below
      rw [if_pos more, split]
      exact ⟨first, _, rfl, other⟩
    · have table : ∀ digit < 10, digit ≠ 0 → isDigit (UInt8.ofInt (48 + -((digit : Nat) : Int))) = false := by decide
      rw [if_neg more, rem]
      exact ⟨_, [], rfl, table _ (Nat.mod_lt _ (by decide)) (by omega)⟩

/-- Texts that differ from their first byte on. -/
def Apart (first second : Bytes) : Prop :=
  ∃ byte rest other others, first = byte :: rest ∧ second = other :: others ∧ byte ≠ other

theorem Apart.append_ne {first second : Bytes} (apart : Apart first second) (after other : Bytes) :
    first ++ after ≠ second ++ other := by
  obtain ⟨byte, rest, byte', rest', rfl, rfl, differ⟩ := apart
  exact fun same => differ (List.head_eq_of_cons_eq same)

theorem putuint_cases (id : UInt32) :
    (id.toNat < 2 ^ 31 ∧ putuint id.toNat = decimalText id.toNat) ∨
      (¬id.toNat < 2 ^ 31 ∧ Apart (putuint id.toNat) (decimalText id.toNat)) := by
  have bounded := id.toNat_lt
  by_cases small : id.toNat < 2 ^ 31
  · exact Or.inl ⟨small, putuint_small small⟩
  · have negative : toInt id.toNat < 0 := by
      unfold toInt
      split <;> omega
    obtain ⟨first, rest, split, other⟩ := putuint_negative negative
    refine Or.inr ⟨small, ?_⟩
    cases text : decimalText id.toNat with
    | nil => exact absurd text (decimalText_ne_nil _)
    | cons digit digits =>
      have isDigit' := (decimalText_digits id.toNat).1 digit (text ▸ List.mem_cons_self)
      refine ⟨first, rest, digit, digits, split, rfl, fun same => ?_⟩
      rw [same, isDigit'] at other
      cases other

theorem flatMap_eq_iff {first second : Token → Bytes} {list : List Token}
    (kinds : ∀ token ∈ list, first token = second token ∨ Apart (first token) (second token)) :
    list.flatMap first = list.flatMap second ↔ ∀ token ∈ list, first token = second token := by
  constructor
  · intro same
    induction list with
    | nil => exact fun _ member => absurd member List.not_mem_nil
    | cons token rest ih =>
      rw [List.flatMap_cons, List.flatMap_cons] at same
      rcases kinds token List.mem_cons_self with equal | apart
      · rw [equal, List.append_cancel_left_eq] at same
        exact List.forall_mem_cons.mpr
          ⟨equal, ih (fun other member => kinds other (List.mem_cons_of_mem _ member)) same⟩
      · exact absurd same (apart.append_ne _ _)
  · exact fun each => List.flatMap_congr each

/-- A template is put with its ids in decimal exactly when the ids that it uses are positive as an `int`. -/
theorem putpath_expands (uid gid : UInt32) {template : Bytes} (clean : (0 : Byte) ∉ template) (after : Bytes) :
    putpath uid.toNat gid.toNat (template ++ 0 :: after) [] =
        some (expand uid.toNat gid.toNat template ++ [0]) ↔
      (.user ∈ tokens template → uid.toNat < 2 ^ 31) ∧ (.group ∈ tokens template → gid.toNat < 2 ^ 31) := by
  have either (id : UInt32) : putuint id.toNat = decimalText id.toNat ∨
      Apart (putuint id.toNat) (decimalText id.toNat) :=
    (putuint_cases id).imp And.right And.right
  have small (id : UInt32) : putuint id.toNat = decimalText id.toNat ↔ id.toNat < 2 ^ 31 := by
    rcases putuint_cases id with ⟨small, same⟩ | ⟨large, apart⟩
    · exact iff_of_true same small
    · refine iff_of_false (fun same => apart.append_ne [] [] ?_) large
      rw [same]
  rw [putpath_tokens _ _ clean, List.nil_append, Option.some.injEq, List.append_cancel_right_eq, expand, flatMap_eq_iff]
  · constructor
    · exact fun each => ⟨fun member => (small uid).mp (each .user member),
        fun member => (small gid).mp (each .group member)⟩
    · rintro ⟨user, group⟩ token member
      cases token with
      | user => exact (small uid).mpr (user member)
      | group => exact (small gid).mpr (group member)
      | plain byte => rfl
  · intro token _
    cases token with
    | user => exact either uid
    | group => exact either gid
    | plain byte => exact Or.inl rfl

theorem putpath_expands_home :
    putpath (1001 : UInt32).toNat (4294967294 : UInt32).toNat (ascii "/home/%u/%%g%" ++ 0 :: ascii "junk") [] =
        some (expand (1001 : UInt32).toNat (4294967294 : UInt32).toNat (ascii "/home/%u/%%g%") ++ [0]) ↔
      (.user ∈ tokens (ascii "/home/%u/%%g%") → (1001 : UInt32).toNat < 2 ^ 31) ∧
        (.group ∈ tokens (ascii "/home/%u/%%g%") → (4294967294 : UInt32).toNat < 2 ^ 31) :=
  putpath_expands 1001 4294967294 (by decide) _

/-- The last id is put as one byte, which is before the digits. -/
theorem putpath_last_uid :
    putpath (4294967295 : UInt32).toNat (0 : UInt32).toNat (ascii "%u" ++ 0 :: []) [] = some (ascii "/" ++ [0]) ∧
      ¬∀ (uid gid : UInt32) (template after : Bytes), (0 : Byte) ∉ template →
        putpath uid.toNat gid.toNat (template ++ 0 :: after) [] =
          some (expand uid.toNat gid.toNat template ++ [0]) := by
  have quot : (toInt (4294967295 : UInt32).toNat).tdiv 10 = 0 := by decide
  have byte : putuint (4294967295 : UInt32).toNat = ascii "/" := by
    rw [putuint, if_neg fun more => more quot]
    decide
  have put : putpath (4294967295 : UInt32).toNat (0 : UInt32).toNat (ascii "%u" ++ 0 :: []) [] =
      some (ascii "/" ++ [0]) := by
    rw [putpath_tokens _ _ (by decide), byte]
    decide
  refine ⟨put, fun expands => ?_⟩
  have same := (expands 4294967295 0 (ascii "%u") [] (by decide)).symm.trans put
  exact absurd same (by decide +kernel)

end AppManager.Setup
