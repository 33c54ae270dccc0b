import AppManager.Lib.Decimal

/-! The numbers of the signature files of a widget. Their digits are read with 32 bits, where a
number that is too big is seen by a value that gets smaller. -/

namespace AppManager.Wgtpkg
open AppManager.Lib AppManager.Lib.Libc

def authorFile : Bytes := ascii "author-signature.xml"
def distributorFilePrefix : Bytes := ascii "signature"
def distributorFileSuffix : Bytes := ascii ".xml"

/-- `UINT_MAX`, that stands for the signature of the author. -/
def uintMax : Nat := 2 ^ 32 - 1

/-- The loop on the digits, where `rest` is `name + len`. There is no result for a number too big.
When `len` is full the name is read from its first character on, which is the one of the prefix. -/
def scanNumber (name : Bytes) : Nat → Nat → Bytes → Option (Nat × Bytes)
  | _, id, [] => some (id, [])
  | len, id, byte :: rest =>
    if isDigit byte then
      let nid := (10 * id + (byte.toNat - 48)) % 2 ^ 32
      if nid < id ∨ nid = uintMax then none
      else if len + 1 = 2 ^ 32 then some (nid, name)
      else scanNumber name (len + 1) nid rest
    else some (id, byte :: rest)

def whatSignature (name : Bytes) : Nat :=
  if name = authorFile then uintMax
  else if name.take distributorFilePrefix.length ≠ distributorFilePrefix then 0
  else
    match name.drop distributorFilePrefix.length with
    | [] => 0
    | byte :: rest =>
      if byte ≤ 48 ∨ 57 < byte then 0
      else
        match scanNumber name (distributorFilePrefix.length + 1) (byte.toNat - 48) rest with
        | none => 0
        | some (id, rest) => if rest = distributorFileSuffix then id else 0

def distributorFile (digits : Bytes) : Bytes := distributorFilePrefix ++ (digits ++ distributorFileSuffix)

/-- The name that `create_signature` makes. -/
def signatureFile (number : Nat) : Bytes :=
  if number = 0 ∨ number = uintMax then authorFile else distributorFile (decimalText number)

inductive Means : Bytes → Nat → Prop
  | author : Means authorFile uintMax
  | distributor {number : Nat} (positive : 0 < number) (small : number < uintMax) :
    Means (distributorFile (decimalText number)) number
  | other {name : Bytes} (author : name ≠ authorFile)
    (distributor : ∀ number : Nat, 0 < number → number < uintMax → name ≠ distributorFile (decimalText number)) :
    Means name 0

def residue (digits : Bytes) : Nat := decimal digits % 2 ^ 32

/-- Some digit makes the value smaller, or makes it the greatest one. -/
def Caught (front digits : Bytes) : Prop :=
  ∃ more byte rest, digits = more ++ byte :: rest ∧
    (residue (front ++ more ++ [byte]) < residue (front ++ more) ∨ residue (front ++ more ++ [byte]) = uintMax)

theorem caught_cons (front : Bytes) (byte : Byte) (rest : Bytes) : Caught front (byte :: rest) ↔
    (residue (front ++ [byte]) < residue front ∨ residue (front ++ [byte]) = uintMax) ∨
      Caught (front ++ [byte]) rest := by
  constructor
  · rintro ⟨more, last, after, split, wraps⟩
    cases more with
    | nil =>
      cases split
      rw [List.append_nil] at wraps
      exact Or.inl wraps
    | cons first more =>
      obtain ⟨rfl, rfl⟩ := List.cons.inj split
      refine Or.inr ⟨more, last, after, rfl, ?_⟩
      rw [List.append_assoc front, List.singleton_append]
      exact wraps
  · rintro (wraps | ⟨more, last, after, rfl, wraps⟩)
    · exact ⟨[], byte, rest, rfl, by rwa [List.append_nil]⟩
    · refine ⟨byte :: more, last, after, rfl, ?_⟩
      rw [List.append_assoc front, List.singleton_append] at wraps
      exact wraps

theorem residue_snoc (front : Bytes) (byte : Byte) :
    residue (front ++ [byte]) = (10 * residue front + (byte.toNat - 48)) % 2 ^ 32 := by
  unfold residue
  rw [decimal_snoc]
  omega

theorem scanNumber_end (name : Bytes) (len id : Nat) {rest : Bytes}
    (ended : ∀ byte ∈ rest.head?, isDigit byte = false) :
    scanNumber name len id rest = some (id, rest) := by
  cases rest with
  | nil => rfl
  | cons byte rest =>
    rw [scanNumber, ended byte rfl]
    rfl

theorem scanNumber_digits (name front : Bytes) {digits rest : Bytes} (number : ∀ byte ∈ digits, isDigit byte = true)
    (ended : ∀ byte ∈ rest.head?, isDigit byte = false) {len : Nat} (room : len < 2 ^ 32) :
    (¬Caught front digits ∧ len + digits.length < 2 ^ 32 ∧
      scanNumber name len (residue front) (digits ++ rest) = some (residue (front ++ digits), rest)) ∨
    ((Caught front digits ∨ 2 ^ 32 ≤ len + digits.length) ∧
      (scanNumber name len (residue front) (digits ++ rest) = none ∨
        ∃ id, scanNumber name len (residue front) (digits ++ rest) = some (id, name))) := by
  induction digits generalizing front len with
  | nil =>
    refine Or.inl ⟨?_, room, ?_⟩
    · rintro ⟨more, byte, after, split, -⟩
      exact absurd split.symm (List.append_ne_nil_of_right_ne_nil _ (List.cons_ne_nil _ _))
    · rw [List.nil_append, List.append_nil]
      exact scanNumber_end name len _ ended
  | cons byte digits ih =>
    have turn : scanNumber name len (residue front) (byte :: digits ++ rest) =
        if residue (front ++ [byte]) < residue front ∨ residue (front ++ [byte]) = uintMax then none
        else if len + 1 = 2 ^ 32 then some (residue (front ++ [byte]), name)
        else scanNumber name (len + 1) (residue (front ++ [byte])) (digits ++ rest) := by
      rw [List.cons_append, scanNumber, if_pos (number byte List.mem_cons_self), residue_snoc]
    rw [turn, caught_cons, List.length_cons]
    by_cases wraps : residue (front ++ [byte]) < residue front ∨ residue (front ++ [byte]) = uintMax
    · rw [if_pos wraps]
      exact Or.inr ⟨Or.inl (Or.inl wraps), Or.inl rfl⟩
    · rw [if_neg wraps]
      by_cases full : len + 1 = 2 ^ 32
      · rw [if_pos full]
        exact Or.inr ⟨Or.inr (by omega), Or.inr ⟨_, rfl⟩⟩
      · rw [if_neg full]
        have later := ih (front ++ [byte]) (fun other member => number other (List.mem_cons_of_mem _ member))
          (show len + 1 < 2 ^ 32 by omega)
        have size : len + 1 + digits.length = len + (digits.length + 1) := by omega
        rw [List.append_assoc, List.singleton_append, size] at later
        rcases later with ⟨quiet, small, read⟩ | ⟨why, read⟩
        · exact Or.inl ⟨fun either => either.elim wraps quiet, small, read⟩
        · exact Or.inr ⟨why.imp_left Or.inr, read⟩

theorem residue_uncaught {front digits : Bytes} (quiet : ¬Caught front digits) (small : residue front < uintMax) :
    residue front ≤ residue (front ++ digits) ∧ residue (front ++ digits) < uintMax := by
  induction digits generalizing front with
  | nil =>
    rw [List.append_nil]
    exact ⟨Nat.le_refl _, small⟩
  | cons byte digits ih =>
    obtain ⟨grows, quiet⟩ := not_or.mp ((caught_cons front byte digits).not.mp quiet)
    obtain ⟨grows, other⟩ := not_or.mp grows
    have bounded : residue (front ++ [byte]) < 2 ^ 32 := Nat.mod_lt _ (by decide)
    obtain ⟨low, high⟩ := ih quiet (show residue (front ++ [byte]) < uintMax by unfold uintMax at *; omega)
    rw [List.append_assoc, List.singleton_append] at low high
    exact ⟨le_trans (not_lt.mp grows) low, high⟩

theorem decimal_append (front digits : Bytes) : decimal front ≤ decimal (front ++ digits) := by
  induction digits using List.reverseRecOn with
  | nil => rw [List.append_nil]
  | append_singleton digits last ih =>
    rw [← List.append_assoc, decimal_snoc]
    omega

theorem uncaught_small {front digits : Bytes} (small : decimal (front ++ digits) < uintMax) : ¬Caught front digits := by
  rintro ⟨more, byte, rest, rfl, wraps⟩
  have whole := decimal_append (front ++ more ++ [byte]) rest
  have same : front ++ more ++ [byte] ++ rest = front ++ (more ++ byte :: rest) := by simp
  have step := decimal_snoc (front ++ more) byte
  rw [same] at whole
  unfold uintMax at *
  have before : residue (front ++ more) = decimal (front ++ more) := Nat.mod_eq_of_lt (by omega)
  have after : residue (front ++ more ++ [byte]) = decimal (front ++ more ++ [byte]) := Nat.mod_eq_of_lt (by omega)
  rw [before, after] at wraps
  omega

def Number (digits : Bytes) : Prop :=
  ∃ first others, digits = first :: others ∧ first ≠ 48 ∧ ∀ byte ∈ digits, isDigit byte = true

/-- A number that is too big is seen: some digit is caught, or the name is longer than `len` can tell. -/
def Seen (digits : Bytes) : Prop :=
  decimal digits < uintMax ∨ Caught (digits.take 1) (digits.drop 1) ∨
    2 ^ 32 ≤ distributorFilePrefix.length + digits.length

theorem author_ne (text : Bytes) : distributorFilePrefix ++ text ≠ authorFile := by
  intro same
  have first := congrArg List.head? same
  rw [List.head?_append_of_ne_nil _ (by decide)] at first
  exact absurd first (by decide)

theorem suffix_ne (text : Bytes) : distributorFilePrefix ++ text ≠ distributorFileSuffix := by
  intro same
  have first := congrArg List.head? same
  rw [List.head?_append_of_ne_nil _ (by decide)] at first
  exact absurd first (by decide)

theorem number_first {byte : Byte} : (byte ≤ 48 ∨ 57 < byte) ↔ ¬(isDigit byte = true ∧ byte ≠ 48) := by
  rw [isDigit, Bool.and_eq_true, decide_eq_true_iff, decide_eq_true_iff]
  simp only [UInt8.le_iff_toNat_le, UInt8.lt_iff_toNat_lt, ne_eq, ← UInt8.toNat_inj]
  simp only [UInt8.toNat_ofNat]
  omega

theorem whatSignature_number {digits tail : Bytes} (number : Number digits)
    (ended : ∀ byte ∈ tail.head?, isDigit byte = false) :
    (tail = distributorFileSuffix ∧ ¬Caught (digits.take 1) (digits.drop 1) ∧
      distributorFilePrefix.length + digits.length < 2 ^ 32 ∧
      whatSignature (distributorFilePrefix ++ (digits ++ tail)) = residue digits) ∨
    ((tail ≠ distributorFileSuffix ∨ Caught (digits.take 1) (digits.drop 1) ∨
      2 ^ 32 ≤ distributorFilePrefix.length + digits.length) ∧
      whatSignature (distributorFilePrefix ++ (digits ++ tail)) = 0) := by
  obtain ⟨first, others, rfl, leading, digits⟩ := number
  have digit := digits first List.mem_cons_self
  have value : first.toNat - 48 = residue [first] := by
    have small := (digit_value digit).1
    simp only [residue, decimal, List.foldl_cons, List.foldl_nil]
    omega
  have run : whatSignature (distributorFilePrefix ++ (first :: others ++ tail)) =
      match scanNumber (distributorFilePrefix ++ (first :: others ++ tail)) (distributorFilePrefix.length + 1)
        (residue [first]) (others ++ tail) with
      | none => 0
      | some (id, rest) => if rest = distributorFileSuffix then id else 0 := by
    rw [whatSignature, if_neg (author_ne _), List.take_left, if_neg (not_not.mpr rfl), List.drop_left,
      List.cons_append]
    simp only [if_neg (number_first.not.mpr (not_not.mpr ⟨digit, leading⟩)), value]
  rw [run]
  rcases scanNumber_digits (distributorFilePrefix ++ (first :: others ++ tail)) [first]
    (fun byte member => digits byte (List.mem_cons_of_mem _ member)) ended
    (show distributorFilePrefix.length + 1 < 2 ^ 32 by decide) with ⟨quiet, short, read⟩ | ⟨why, read⟩
  · rw [read]
    by_cases last : tail = distributorFileSuffix
    · refine Or.inl ⟨last, quiet, ?_, if_pos last⟩
      rw [List.length_cons]
      omega
    · exact Or.inr ⟨Or.inl last, if_neg last⟩
  · refine Or.inr ⟨Or.inr (why.imp_right fun long => ?_), ?_⟩
    · rw [List.length_cons]
      omega
    · rcases read with none | ⟨id, read⟩
      · rw [none]
      · rw [read]
        exact if_neg (suffix_ne _)

theorem whatSignature_other {name : Bytes} (author : name ≠ authorFile)
    (other : ∀ digits, Number digits → name ≠ distributorFile digits) : whatSignature name = 0 := by
  by_cases start : name.take distributorFilePrefix.length = distributorFilePrefix
  · obtain ⟨rest, rfl⟩ := List.prefix_iff_eq_take.mpr start.symm
    cases rest with
    | nil => rw [whatSignature, if_neg author, if_neg (not_not.mpr start), List.drop_left]
    | cons byte rest =>
      by_cases proper : isDigit byte = true ∧ byte ≠ 48
      · have number : Number (byte :: rest.takeWhile isDigit) := by
          refine ⟨byte, _, rfl, proper.2, List.forall_mem_cons.mpr ⟨proper.1, fun digit member => ?_⟩⟩
          exact List.mem_takeWhile_imp member
        have ended : ∀ byte ∈ (rest.dropWhile isDigit).head?, isDigit byte = false := by
          intro byte first
          have stop := List.head?_dropWhile_not isDigit rest
          rw [Option.mem_def.mp first] at stop
          exact stop
        have split : byte :: rest = byte :: rest.takeWhile isDigit ++ rest.dropWhile isDigit := by
          rw [List.cons_append, List.takeWhile_append_dropWhile]
        rw [split] at other ⊢
        rcases whatSignature_number number ended with ⟨last, -⟩ | ⟨-, none⟩
        · rw [last] at other
          exact absurd rfl (other _ number)
        · exact none
      · rw [whatSignature, if_neg author, if_neg (not_not.mpr start), List.drop_left]
        exact if_pos (number_first.mpr proper)
  · rw [whatSignature, if_neg author, if_pos start]

theorem distributorFile_injective {digits digits' : Bytes} (same : distributorFile digits = distributorFile digits') :
    digits = digits' := List.append_cancel_right (List.append_cancel_left same)

theorem number_text {digits : Bytes} (number : Number digits) :
    decimalText (decimal digits : Nat) = digits ∧ 0 < decimal digits := by
  obtain ⟨first, others, rfl, leading, digits⟩ := number
  have lower := decimal_lower (digits first List.mem_cons_self) leading others
  exact ⟨decimalText_decimal digits leading, lt_of_lt_of_le (Nat.pow_pos (by decide)) lower⟩

theorem number_decimalText {value : Nat} (positive : 0 < value) : Number (decimalText value) := by
  obtain ⟨first, others, text, leading⟩ := decimalText_leading positive
  exact ⟨first, others, text, leading, (decimalText_digits value).1⟩

theorem means_number {digits : Bytes} (number : Number digits) (value : Nat) :
    Means (distributorFile digits) value ↔ value = if decimal digits < uintMax then decimal digits else 0 := by
  obtain ⟨text, positive⟩ := number_text number
  generalize named : distributorFile digits = name
  constructor
  · rintro (_ | ⟨positive', small⟩ | ⟨author, distributor⟩)
    · exact absurd named (author_ne _)
    · have same := distributorFile_injective named
      rw [same, (decimalText_digits _).2, if_pos small]
    · rw [if_neg]
      intro small
      refine distributor (decimal digits) positive small ?_
      rw [text, named]
  · rintro rfl
    by_cases small : decimal digits < uintMax
    · have means := Means.distributor positive small
      rw [text, named] at means
      rwa [if_pos small]
    · rw [if_neg small]
      refine Means.other (named ▸ author_ne _) fun other positive' small' same => small ?_
      have digits' := distributorFile_injective (named.trans same)
      rw [digits', (decimalText_digits other).2]
      exact small'

/-- Where the number of a name is too big, that is seen. -/
def NumberSeen (name : Bytes) : Prop := ∀ digits, Number digits → name = distributorFile digits → Seen digits

theorem suffix_ended : ∀ byte ∈ distributorFileSuffix.head?, isDigit byte = false := by
  intro byte head
  obtain rfl : 46 = byte := Option.some.inj head
  rfl

theorem whatSignature_seen {digits : Bytes} (number : Number digits) (seen : Seen digits) :
    whatSignature (distributorFile digits) = if decimal digits < uintMax then decimal digits else 0 := by
  by_cases small : decimal digits < uintMax
  · rw [if_pos small]
    obtain ⟨first, others, rfl, leading, digits⟩ := number
    have quiet : ¬Caught [first] others := uncaught_small small
    have lower := decimal_lower (digits first List.mem_cons_self) leading others
    have short : others.length < 10 := by
      by_contra long
      have more := Nat.pow_le_pow_right (show 0 < 10 by decide) (not_lt.mp long)
      unfold uintMax at small
      omega
    rcases whatSignature_number ⟨first, others, rfl, leading, digits⟩ suffix_ended with
      ⟨-, -, -, read⟩ | ⟨why, -⟩
    · refine read.trans (Nat.mod_eq_of_lt ?_)
      unfold uintMax at small
      omega
    · have size : distributorFilePrefix.length = 9 := rfl
      rw [List.length_cons, size] at why
      rcases why with last | caught | long
      · exact absurd rfl last
      · exact absurd caught quiet
      · omega
  · rw [if_neg small]
    rcases whatSignature_number number suffix_ended with ⟨-, quiet, short, -⟩ | ⟨-, none⟩
    · exact absurd (seen.resolve_left small) (not_or.mpr ⟨quiet, not_le.mpr short⟩)
    · exact none

theorem whatSignature_unseen {digits : Bytes} (number : Number digits) (unseen : ¬Seen digits) :
    ¬Means (distributorFile digits) (whatSignature (distributorFile digits)) := by
  obtain ⟨big, unseen⟩ := not_or.mp unseen
  obtain ⟨quiet, short⟩ := not_or.mp unseen
  rw [means_number number, if_neg big]
  rcases whatSignature_number number suffix_ended with ⟨-, -, -, read⟩ | ⟨why, -⟩
  · intro zero
    have value : residue digits = 0 := read.symm.trans zero
    obtain ⟨first, others, rfl, leading, digits⟩ := number
    have lower := decimal_lower (digits first List.mem_cons_self) leading []
    have upper := (digit_value (digits first List.mem_cons_self)).1
    have one : residue [first] = decimal [first] := by
      simp only [residue, decimal, List.foldl_cons, List.foldl_nil]
      omega
    have small : decimal [first] < uintMax := by
      simp only [decimal, List.foldl_cons, List.foldl_nil, uintMax]
      omega
    have grows := (residue_uncaught quiet (one ▸ small)).1
    rw [List.take_succ_cons, List.take_zero, List.drop_succ_cons, List.drop_zero, List.singleton_append, value, one]
      at grows
    rw [List.length_nil, Nat.pow_zero] at lower
    omega
  · exact absurd why (not_or.mpr ⟨not_not.mpr rfl, not_or.mpr ⟨quiet, short⟩⟩)

theorem whatSignature_iff (name : Bytes) : Means name (whatSignature name) ↔ NumberSeen name := by
  by_cases author : name = authorFile
  · subst author
    refine iff_of_true ?_ fun digits _ same => absurd same.symm (author_ne _)
    rw [whatSignature, if_pos rfl]
    exact Means.author
  by_cases made : ∃ digits, Number digits ∧ name = distributorFile digits
  · obtain ⟨digits, number, rfl⟩ := made
    constructor
    · intro means digits' number' same
      rw [← distributorFile_injective same]
      by_contra unseen
      exact whatSignature_unseen number unseen means
    · intro seen
      exact (means_number number _).mpr (whatSignature_seen number (seen digits number rfl))
  · have other : ∀ digits, Number digits → name ≠ distributorFile digits := fun digits number same =>
      made ⟨digits, number, same⟩
    refine iff_of_true ?_ fun digits number same => absurd same (other digits number)
    rw [whatSignature_other author other]
    exact Means.other author fun value positive _ => other _ (number_decimalText positive)

theorem means_name {name other : Bytes} {number : Nat} (means : Means name number) (means' : Means other number)
    (some : number ≠ 0) : name = other := by
  cases means with
  | author =>
    cases means' with
    | author => rfl
    | distributor _ small => exact absurd small (lt_irrefl _)
  | distributor positive small =>
    cases means' with
    | author => exact absurd small (lt_irrefl _)
    | distributor => rfl
    | other => exact absurd rfl some
  | other => exact absurd rfl some

theorem whatSignature_file {number : Nat} (bounded : number ≤ uintMax) :
    whatSignature (signatureFile number) = if number = 0 then uintMax else number := by
  rw [signatureFile]
  by_cases author : number = 0 ∨ number = uintMax
  · rw [if_pos author, whatSignature, if_pos rfl]
    rcases author with rfl | rfl
    · rfl
    · rfl
  · obtain ⟨some, other⟩ := not_or.mp author
    have small : number < uintMax := lt_of_le_of_ne bounded other
    have value := (decimalText_digits number).2
    rw [if_neg author, if_neg some, whatSignature_seen (number_decimalText (Nat.pos_of_ne_zero some)), value,
      if_pos small]
    exact Or.inl (value.symm ▸ small)

/-- The number of a name is the one that it means exactly where a number too big is seen; names whose numbers are so
are told apart, and the names that are made are numbered as they were asked. -/
theorem whatSignature_means (name : Bytes) :
    (Means name (whatSignature name) ↔ NumberSeen name) ∧
    (∀ other, NumberSeen name → NumberSeen other → whatSignature name ≠ 0 → whatSignature name = whatSignature other →
      name = other) ∧
    ∀ number ≤ uintMax, whatSignature (signatureFile number) = if number = 0 then uintMax else number := by
  refine ⟨whatSignature_iff name, fun other seen seen' some same => ?_, fun number => whatSignature_file⟩
  exact means_name ((whatSignature_iff name).mpr seen) (same ▸ (whatSignature_iff other).mpr seen') some

theorem whatSignature_means_twelve :
    Means (ascii "signature12.xml") (whatSignature (ascii "signature12.xml")) ∧
      whatSignature (signatureFile 12) = 12 := by
  obtain ⟨means, -, inverts⟩ := whatSignature_means (ascii "signature12.xml")
  refine ⟨means.mpr fun digits _ same => ?_, inverts 12 (by decide)⟩
  have twelve : digits = ascii "12" := distributorFile_injective (same.symm.trans (by decide))
  rw [twelve]
  exact Or.inl (by decide)

/-- The residue of this number is greater than the one before its last digit. -/
theorem whatSignature_wraps : whatSignature (ascii "signature10000000000.xml") = 1410065408 ∧
    whatSignature (ascii "signature1410065408.xml") = 1410065408 ∧ ¬∀ name, Means name (whatSignature name) := by
  have wrapped : whatSignature (ascii "signature10000000000.xml") = 1410065408 := by decide +kernel
  refine ⟨wrapped, by decide +kernel, fun means => ?_⟩
  have number : Number (ascii "10000000000") := ⟨49, ascii "0000000000", by decide, by decide, by decide +kernel⟩
  have named : ascii "signature10000000000.xml" = distributorFile (ascii "10000000000") := by decide +kernel
  have meant := means (ascii "signature10000000000.xml")
  rw [wrapped, named, means_number number] at meant
  exact absurd meant (by decide)

end AppManager.Wgtpkg
