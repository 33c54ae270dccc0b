import AppManager.Binding.CropInPlace
import AppManager.Lib.Walk

/-! `add_fields_of_content` on the memory of its content, in which the values are decoded where
they are. What `crop_and_trim_unit_content` leaves at the end of the content decides whether the
last value stays in the memory. -/

namespace AppManager.Binding
open AppManager.Lib AppManager.Lib.Libc AppManager.Units Relation

/-- The states of the scan: before the search of a field, before each turn of the loop that decodes a value, and at
the end. -/
inductive Scan where
  | search (cells : Bytes) (read : Nat) (fields : List Field)
  | decode (name value : Nat) (tape : Tape) (fields : List Field)
  | stop (fields : List Field)

def searchField (cells : Bytes) (read : Nat) (fields : List Field) : Scan :=
  let text := cstr (cells.drop read)
  match strstr keyAfmPrefix text with
  | none => .stop fields
  | some found =>
    let name := read + (text.length - found.length) + keyAfmPrefix.length
    let rest := found.drop keyAfmPrefix.length
    if rest.any (· = equalSign) then
      let sign := name + (rest.takeWhile (· != equalSign)).length
      .decode name (sign + 1) ⟨cells.set sign 0, sign + 1, sign + 1⟩ fields
    else .search cells name fields

/-- The `switch` on the byte after a backslash. -/
def putEscaped (ahead : Byte) (tape : Tape) : Option Tape :=
  if ahead = 'n'.toUInt8 then tape.put newline
  else if ahead = newline then tape.put 32
  else (tape.put backslash).bind fun tape => tape.put ahead

def decodeTurn (name value : Nat) (tape : Tape) (fields : List Field) : Option Scan :=
  tape.next fun byte after =>
    if byte = 0 ∨ byte = newline then
      (tape.close 0).map fun (_, cells) =>
        .search cells (if byte = 0 then tape.read else after.read)
          (fields ++ [⟨cstr (cells.drop name), cstr (cells.drop value)⟩])
    else if byte ≠ backslash then (after.put byte).map fun tape => .decode name value tape fields
    else after.next fun ahead past =>
      (putEscaped ahead (if ahead = 0 then after else past)).map fun tape => .decode name value tape fields

/-- There is no next state at the end, nor where a byte is read or written after the memory. -/
def scanStep : Scan → Option Scan
  | .search cells read fields => some (searchField cells read fields)
  | .decode name value tape fields => decodeTurn name value tape fields
  | .stop _ => none

namespace Scan

def start (content : Bytes) : Scan := .search (content ++ [0]) 0 []

/-- Between two turns, what is written is not after what is read. -/
def Ordered : Scan → Prop
  | .decode _ _ tape _ => tape.write ≤ tape.read
  | _ => True

def Finished : Scan → Prop
  | .stop _ => True
  | _ => False

/-- In each state that is reached the order is kept, and no byte is written after the memory. -/
def Safe (scan : Scan) : Prop :=
  ∀ state, ReflTransGen (Walk.Step scanStep) scan state →
    state.Ordered ∧ (scanStep state = none → state.Finished)

end Scan

/-- A value up to the end of the text, whose last backslash escapes nothing, and where no escape is longer than what
it stands for. -/
def dangles : Bytes → Bool
  | [] => false
  | [byte] => byte = backslash
  | byte :: ahead :: rest =>
    if byte = newline then false
    else if byte ≠ backslash then dangles (ahead :: rest)
    else if ahead = 'n'.toUInt8 ∨ ahead = newline then false
    else dangles rest

def nameText (found : Bytes) : Bytes := (found.drop keyAfmPrefix.length).takeWhile (· != equalSign)

def valueText (found : Bytes) : Bytes := ((found.drop keyAfmPrefix.length).dropWhile (· != equalSign)).tail

/-- One of the values that the scan comes to dangles: it is the last one. -/
inductive Dangling : Bytes → Prop
  | here {text found : Bytes} (key : strstr keyAfmPrefix text = some found)
    (sign : equalSign ∈ found.drop keyAfmPrefix.length) (ends : dangles (valueText found) = true) : Dangling text
  | later {text found : Bytes} (key : strstr keyAfmPrefix text = some found)
    (sign : equalSign ∈ found.drop keyAfmPrefix.length) (rest : Dangling (decodeValue (valueText found)).2) :
    Dangling text
  | unsigned {text found : Bytes} (key : strstr keyAfmPrefix text = some found)
    (none : equalSign ∉ found.drop keyAfmPrefix.length) (rest : Dangling (found.drop keyAfmPrefix.length)) :
    Dangling text

theorem not_dangling_of_none {text : Bytes} (none : strstr keyAfmPrefix text = none) : ¬Dangling text := by
  intro dangling
  cases dangling with
  | here key => cases none.symm.trans key
  | later key => cases none.symm.trans key
  | unsigned key => cases none.symm.trans key

theorem dangling_signed {text found : Bytes} (key : strstr keyAfmPrefix text = some found)
    (sign : equalSign ∈ found.drop keyAfmPrefix.length) :
    Dangling text ↔ dangles (valueText found) = true ∨ Dangling (decodeValue (valueText found)).2 := by
  constructor
  · intro dangling
    cases dangling with
    | here other _ ends => exact Or.inl (Option.some.inj (key.symm.trans other) ▸ ends)
    | later other _ rest => exact Or.inr (Option.some.inj (key.symm.trans other) ▸ rest)
    | unsigned other none => exact absurd sign (Option.some.inj (key.symm.trans other) ▸ none)
  · rintro (ends | rest)
    · exact Dangling.here key sign ends
    · exact Dangling.later key sign rest

theorem dangling_unsigned {text found : Bytes} (key : strstr keyAfmPrefix text = some found)
    (none : equalSign ∉ found.drop keyAfmPrefix.length) :
    Dangling text ↔ Dangling (found.drop keyAfmPrefix.length) := by
  constructor
  · intro dangling
    cases dangling with
    | here other sign => exact absurd (Option.some.inj (key.symm.trans other) ▸ sign) none
    | later other sign => exact absurd (Option.some.inj (key.symm.trans other) ▸ sign) none
    | unsigned other _ rest => exact Option.some.inj (key.symm.trans other) ▸ rest
  · exact Dangling.unsigned key none

/-- The states of the scan of a content, by what they have of it: the fields that are added and those that are still to
be added are the ones of the content, and what is written of a value has room as long as nothing was dropped. -/
inductive Traced (content : Bytes) : Scan → Prop
  | search (before text : Bytes) (fields : List Field) (clean : (0 : Byte) ∉ text)
    (all : fields ++ fieldsOf text = fieldsOf content) (ends : Dangling text ↔ Dangling content) :
    Traced content (.search (before ++ (text ++ [0])) before.length fields)
  | decode (before name out gap text : Bytes) (fields : List Field) (named : (0 : Byte) ∉ name)
    (clean : (0 : Byte) ∉ text)
    (all : fields ++ ⟨name, cstr (out ++ (decodeValue text).1)⟩ :: fieldsOf (decodeValue text).2 = fieldsOf content)
    (ends : (gap = [] ∧ dangles text = true) ∨ Dangling (decodeValue text).2 ↔ Dangling content) :
    Traced content (.decode before.length (before.length + name.length + 1)
      (.parts (before ++ (name ++ 0 :: out)) gap (text ++ [0])) fields)
  | stop (sound : ¬Dangling content) : Traced content (.stop (fieldsOf content))

theorem Traced.ordered {content : Bytes} {scan : Scan} (traced : Traced content scan) : scan.Ordered := by
  cases traced with
  | search => exact trivial
  | decode before name out gap text => exact Nat.le_add_right _ _
  | stop => exact trivial

/-- What is left of the memory, with the turns that read nothing. -/
def Scan.size : Scan → Nat
  | .search cells read _ => 2 * (cells.length - read)
  | .decode _ _ tape _ => 2 * (tape.cells.length - tape.read) + 1
  | .stop _ => 0

theorem size_search (before text : Bytes) (fields : List Field) :
    (Scan.search (before ++ (text ++ [0])) before.length fields).size = 2 * (text.length + 1) := by
  simp only [Scan.size, List.length_append, List.length_singleton]
  omega

theorem size_decode (name value : Nat) (out gap text : Bytes) (fields : List Field) :
    (Scan.decode name value (.parts out gap (text ++ [0])) fields).size = 2 * (text.length + 1) + 1 := by
  simp only [Scan.size, Tape.parts, List.length_append, List.length_singleton]
  omega

theorem decodeValue_clean (text : Bytes) (clean : (0 : Byte) ∉ text) : (0 : Byte) ∉ (decodeValue text).1 := by
  fun_induction decodeValue text with
  | case1 => exact clean
  | case2 => exact List.not_mem_nil
  | case3 => exact clean
  | case4 => exact List.not_mem_nil
  | case5 byte next rest other normal ih =>
    obtain ⟨differs, clean'⟩ := not_or.mp (List.mem_cons.not.mp clean)
    exact List.not_mem_cons_of_ne_of_not_mem differs (ih clean')
  | case6 byte rest other escape ih =>
    exact List.not_mem_cons_of_ne_of_not_mem (by decide)
      (ih fun inside => clean (List.mem_cons_of_mem _ (List.mem_cons_of_mem _ inside)))
  | case7 byte rest other escape letter ih =>
    exact List.not_mem_cons_of_ne_of_not_mem (by decide)
      (ih fun inside => clean (List.mem_cons_of_mem _ (List.mem_cons_of_mem _ inside)))
  | case8 byte next rest other escape letter unbroken ih =>
    have differs : (0 : Byte) ≠ next := fun zero => clean (zero ▸ List.mem_cons_of_mem _ List.mem_cons_self)
    exact List.not_mem_cons_of_ne_of_not_mem (by decide) (List.not_mem_cons_of_ne_of_not_mem differs
      (ih fun inside => clean (List.mem_cons_of_mem _ (List.mem_cons_of_mem _ inside))))

theorem searchField_none {before text : Bytes} (fields : List Field) (clean : (0 : Byte) ∉ text)
    (none : strstr keyAfmPrefix text = none) :
    searchField (before ++ (text ++ [0])) before.length fields = .stop fields := by
  have read : cstr (text ++ [0]) = text := cstr_terminated clean []
  simp only [searchField, List.drop_left, read, none]

section Found
variable {before front rest : Bytes} (fields : List Field) (clean : (0 : Byte) ∉ front ++ (keyAfmPrefix ++ rest))
  (key : strstr keyAfmPrefix (front ++ (keyAfmPrefix ++ rest)) = some (keyAfmPrefix ++ rest))
include clean key

theorem searchField_found :
    searchField (before ++ (front ++ (keyAfmPrefix ++ rest) ++ [0])) before.length fields =
      if rest.any (· = equalSign) then
        let sign := (before ++ (front ++ keyAfmPrefix)).length + (rest.takeWhile (· != equalSign)).length
        .decode (before ++ (front ++ keyAfmPrefix)).length (sign + 1)
          ⟨(before ++ (front ++ keyAfmPrefix) ++ (rest ++ [0])).set sign 0, sign + 1, sign + 1⟩ fields
      else .search (before ++ (front ++ keyAfmPrefix) ++ (rest ++ [0])) (before ++ (front ++ keyAfmPrefix)).length
        fields := by
  have name : before.length + ((front ++ (keyAfmPrefix ++ rest)).length - (keyAfmPrefix ++ rest).length) +
      keyAfmPrefix.length = (before ++ (front ++ keyAfmPrefix)).length := by
    simp only [List.length_append]
    omega
  have cells : before ++ (front ++ (keyAfmPrefix ++ rest) ++ [0]) =
      before ++ (front ++ keyAfmPrefix) ++ (rest ++ [0]) := by simp only [List.append_assoc]
  have read : cstr (front ++ (keyAfmPrefix ++ rest) ++ [0]) = front ++ (keyAfmPrefix ++ rest) :=
    cstr_terminated clean []
  rw [← cells]
  simp only [searchField, read, key, name, List.drop_left]

theorem searchField_unsigned (none : equalSign ∉ rest) :
    searchField (before ++ (front ++ (keyAfmPrefix ++ rest) ++ [0])) before.length fields =
      .search (before ++ (front ++ keyAfmPrefix) ++ (rest ++ [0])) (before ++ (front ++ keyAfmPrefix)).length
        fields := by
  have nowhere : ¬rest.any (· = equalSign) = true := by
    rw [List.any_eq_true]
    rintro ⟨byte, member, same⟩
    exact none (of_decide_eq_true same ▸ member)
  rw [searchField_found fields clean key, if_neg nowhere]

theorem searchField_signed {name value : Bytes} (split : rest = name ++ equalSign :: value)
    (plain : equalSign ∉ name) :
    searchField (before ++ (front ++ (keyAfmPrefix ++ rest) ++ [0])) before.length fields =
      .decode (before ++ (front ++ keyAfmPrefix)).length ((before ++ (front ++ keyAfmPrefix)).length + name.length + 1)
        (.parts (before ++ (front ++ keyAfmPrefix) ++ (name ++ [0])) [] (value ++ [0])) fields := by
  have somewhere : rest.any (· = equalSign) = true := by
    rw [split, List.any_append, List.any_cons, decide_eq_true rfl, Bool.true_or, Bool.or_true]
  have written : (before ++ (front ++ keyAfmPrefix) ++ (rest ++ [0])).set
      ((before ++ (front ++ keyAfmPrefix)).length + name.length) 0 =
        before ++ (front ++ keyAfmPrefix) ++ (name ++ [0]) ++ [] ++ (value ++ [0]) := by
    have whole : before ++ (front ++ keyAfmPrefix) ++ (rest ++ [0]) =
        before ++ (front ++ keyAfmPrefix) ++ name ++ equalSign :: (value ++ [0]) := by
      rw [split]
      simp only [List.append_assoc, List.cons_append]
    rw [whole, ← List.length_append, Tape.set_parts]
    simp only [List.append_assoc, List.cons_append, List.nil_append]
  have place : (before ++ (front ++ keyAfmPrefix) ++ (name ++ [0])).length =
      (before ++ (front ++ keyAfmPrefix)).length + name.length + 1 := by
    simp only [List.length_append, List.length_singleton, Nat.add_assoc]
  have field : rest.takeWhile (· != equalSign) = name := by rw [split, takeWhile_stop _ _ _ plain]
  rw [searchField_found fields clean key, if_pos somewhere, field]
  simp only [written, Tape.parts, place, List.length_nil, Nat.add_zero]

end Found

theorem searchField_traced {content before text : Bytes} {fields : List Field} (clean : (0 : Byte) ∉ text)
    (all : fields ++ fieldsOf text = fieldsOf content) (ends : Dangling text ↔ Dangling content) :
    Traced content (searchField (before ++ (text ++ [0])) before.length fields) ∧
      (searchField (before ++ (text ++ [0])) before.length fields).size <
        (Scan.search (before ++ (text ++ [0])) before.length fields).size := by
  cases key : strstr keyAfmPrefix text with
  | none =>
    have nothing : fieldsOf text = [] := by rw [fieldsOf_eq, key]
    rw [nothing, List.append_nil] at all
    rw [searchField_none fields clean key, all]
    refine ⟨Traced.stop (mt ends.mpr (not_dangling_of_none key)), ?_⟩
    rw [size_search]
    exact Nat.mul_pos Nat.two_pos (Nat.succ_pos _)
  | some found =>
    obtain ⟨⟨rest, starts⟩, front, whole, -⟩ := strstr_some _ _ _ key
    subst starts whole
    have after : (keyAfmPrefix ++ rest).drop keyAfmPrefix.length = rest := List.drop_left
    have clean' : (0 : Byte) ∉ rest := fun inside => clean (by simp [inside])
    have prefix_size : keyAfmPrefix.length = 6 := rfl
    by_cases sign : equalSign ∈ rest
    · obtain ⟨name, value, split, plain⟩ := List.eq_append_cons_of_mem sign
      have named : nameText (keyAfmPrefix ++ rest) = name := by rw [nameText, after, split, takeWhile_stop _ _ _ plain]
      have valued : valueText (keyAfmPrefix ++ rest) = value := by
        rw [valueText, after, split, dropWhile_stop _ _ _ plain, List.tail_cons]
      have known : fieldsOf (front ++ (keyAfmPrefix ++ rest)) =
          ⟨name, (decodeValue value).1⟩ :: fieldsOf (decodeValue value).2 := by
        rw [fieldsOf_eq, key]
        simp only [after, if_pos sign]
        rw [← after, ← nameText, named, ← valueText, valued]
      rw [dangling_signed key (after.symm ▸ sign), valued] at ends
      rw [searchField_signed fields clean key split plain]
      rw [known] at all
      have clean'' : (0 : Byte) ∉ value := fun inside => clean' (by simp [split, inside])
      constructor
      · apply Traced.decode _ name [] [] value fields
        · exact fun inside => clean' (by simp [split, inside])
        · exact clean''
        · rwa [List.nil_append, cstr_of_no_nul _ (decodeValue_clean value clean'')]
        · exact (or_congr_left (and_iff_right rfl)).trans ends
      · rw [size_search, split]
        refine (size_decode _ _ _ [] value fields).trans_lt ?_
        simp only [List.length_append, List.length_cons]
        omega
    · rw [searchField_unsigned fields clean key sign]
      have known : fieldsOf (front ++ (keyAfmPrefix ++ rest)) = fieldsOf rest := by
        rw [fieldsOf_eq, key]
        simp only [after, if_neg sign]
      rw [known] at all
      rw [dangling_unsigned key (after.symm ▸ sign), after] at ends
      refine ⟨Traced.search _ rest fields clean' all ends, ?_⟩
      rw [size_search, size_search]
      simp only [List.length_append]
      omega

theorem decodeTurn_end (before name out gap rest : Bytes) (byte : Byte) (fields : List Field)
    (ends : byte = 0 ∨ byte = newline) (named : (0 : Byte) ∉ name) : ∃ junk, junk.length = gap.length ∧
      (byte = 0 → ∃ front, front.length = gap.length ∧ 0 :: junk = front ++ [0]) ∧
      decodeTurn before.length (before.length + name.length + 1)
        (.parts (before ++ (name ++ 0 :: out)) gap (byte :: rest)) fields = some (.search
          (before ++ (name ++ 0 :: out) ++ 0 :: (junk ++ rest))
          ((before ++ (name ++ 0 :: out)).length + gap.length + if byte = 0 then 0 else 1)
          (fields ++ [⟨name, cstr out⟩])) := by
  obtain ⟨junk, size, close, last⟩ := Tape.close_read (before ++ (name ++ 0 :: out)) gap byte rest 0
  refine ⟨junk, size, last, ?_⟩
  have unread : (Tape.parts (before ++ (name ++ 0 :: out)) gap (byte :: rest)).close 0 =
      (Tape.parts (before ++ (name ++ 0 :: out)) (gap ++ [byte]) rest).close 0 := by
    simp only [Tape.close, Tape.parts, List.append_assoc, List.singleton_append]
  have nameRead : cstr ((before ++ (name ++ 0 :: out) ++ 0 :: (junk ++ rest)).drop before.length) = name := by
    rw [List.append_assoc, List.drop_left, List.append_assoc, List.cons_append]
    exact cstr_terminated named _
  have valueRead : cstr ((before ++ (name ++ 0 :: out) ++ 0 :: (junk ++ rest)).drop
      (before.length + name.length + 1)) = cstr out := by
    have split : before ++ (name ++ 0 :: out) ++ 0 :: (junk ++ rest) =
        before ++ (name ++ [0]) ++ (out ++ 0 :: (junk ++ rest)) := by simp
    have place : (before ++ (name ++ [0])).length = before.length + name.length + 1 := by
      simp only [List.length_append, List.length_singleton, Nat.add_assoc]
    rw [split, ← place, List.drop_left, cstr_append_nul]
  rw [decodeTurn, Tape.next_parts, if_pos ends, unread, close, Option.map_some]
  simp only [nameRead, valueRead]
  split_ifs with zero
  · rfl
  · simp only [Tape.parts, List.length_append, List.length_singleton, Nat.add_assoc]

theorem decodeTurn_plain (before name out gap rest : Bytes) (byte : Byte) (fields : List Field)
    (other : ¬(byte = 0 ∨ byte = newline)) (plain : byte ≠ backslash) : ∃ gap', gap'.length = gap.length ∧
      decodeTurn before.length (before.length + name.length + 1)
        (.parts (before ++ (name ++ 0 :: out)) gap (byte :: rest)) fields = some (.decode before.length
          (before.length + name.length + 1) (.parts (before ++ (name ++ 0 :: (out ++ [byte]))) gap' rest) fields) := by
  obtain ⟨gap', size, put⟩ := Tape.put_read (before ++ (name ++ 0 :: out)) gap byte rest byte
  refine ⟨gap', size, ?_⟩
  rw [decodeTurn, Tape.next_parts, if_neg other, if_pos plain, put, Option.map_some]
  simp only [List.append_assoc, List.cons_append]

theorem decodeTurn_short (before name out gap rest : Bytes) (ahead byte : Byte) (fields : List Field)
    (short : (ahead = 'n'.toUInt8 ∧ byte = newline) ∨ (ahead = newline ∧ byte = 32)) : ∃ gap', gap' ≠ [] ∧
      decodeTurn before.length (before.length + name.length + 1)
        (.parts (before ++ (name ++ 0 :: out)) gap (backslash :: ahead :: rest)) fields = some (.decode before.length
          (before.length + name.length + 1) (.parts (before ++ (name ++ 0 :: (out ++ [byte]))) gap' rest) fields) := by
  obtain ⟨gap', size, put⟩ := Tape.put_read (before ++ (name ++ 0 :: out)) (gap ++ [backslash]) ahead rest byte
  refine ⟨gap', fun empty => by simp [empty] at size, ?_⟩
  have escape : ¬(backslash = 0 ∨ backslash = newline) := by decide
  have real : ahead ≠ 0 := by rcases short with ⟨rfl, -⟩ | ⟨rfl, -⟩ <;> decide
  have written (tape : Tape) : putEscaped ahead tape = tape.put byte := by
    rcases short with ⟨rfl, rfl⟩ | ⟨rfl, rfl⟩
    · exact if_pos rfl
    · exact (if_neg (by decide)).trans (if_pos rfl)
  rw [decodeTurn, Tape.next_parts, if_neg escape, if_neg (not_not_intro rfl), Tape.next_parts, if_neg real, written,
    put, Option.map_some]
  simp only [List.append_assoc, List.cons_append]

theorem putEscaped_pair {out gap rest : Bytes} {ahead : Byte} (letter : ahead ≠ 'n'.toUInt8)
    (unbroken : ahead ≠ newline) (read : Byte) (room : gap ≠ []) : ∃ gap', gap'.length + 1 = gap.length ∧
      putEscaped ahead (.parts out (gap ++ [read]) rest) = some (.parts (out ++ [backslash, ahead]) gap' rest) := by
  obtain ⟨gap₁, size, put⟩ := Tape.put_read out gap read rest backslash
  cases gap₁ with
  | nil => exact absurd (List.length_eq_zero_iff.mp size.symm) room
  | cons old gap' =>
    refine ⟨gap', size, ?_⟩
    rw [putEscaped, if_neg letter, if_neg unbroken, put, Option.bind_some, Tape.put_parts, List.append_assoc]
    rfl

theorem decodeTurn_pair (before name out gap rest : Bytes) (ahead : Byte) (fields : List Field) (real : ahead ≠ 0)
    (letter : ahead ≠ 'n'.toUInt8) (unbroken : ahead ≠ newline) : ∃ gap', gap'.length = gap.length ∧
      decodeTurn before.length (before.length + name.length + 1)
        (.parts (before ++ (name ++ 0 :: out)) gap (backslash :: ahead :: rest)) fields = some (.decode before.length
          (before.length + name.length + 1)
          (.parts (before ++ (name ++ 0 :: (out ++ [backslash, ahead]))) gap' rest) fields) := by
  obtain ⟨gap', size, put⟩ := putEscaped_pair letter unbroken ahead
    (List.append_ne_nil_of_right_ne_nil gap (List.cons_ne_nil backslash []))
  refine ⟨gap', by simpa using size, ?_⟩
  have escape : ¬(backslash = 0 ∨ backslash = newline) := by decide
  rw [decodeTurn, Tape.next_parts, if_neg escape, if_neg (not_not_intro rfl), Tape.next_parts, if_neg real, put,
    Option.map_some]
  simp only [List.append_assoc, List.cons_append]

theorem decodeTurn_last (before name out gap : Bytes) (fields : List Field) (room : gap ≠ []) : ∃ gap',
    decodeTurn before.length (before.length + name.length + 1)
      (.parts (before ++ (name ++ 0 :: out)) gap [backslash, 0]) fields = some (.decode before.length
        (before.length + name.length + 1) (.parts (before ++ (name ++ 0 :: (out ++ [backslash, 0]))) gap' [0])
        fields) := by
  obtain ⟨gap', -, put⟩ : ∃ gap', gap'.length + 1 = gap.length ∧
      putEscaped 0 (.parts (before ++ (name ++ 0 :: out)) (gap ++ [backslash]) [0]) =
        some (.parts (before ++ (name ++ 0 :: out) ++ [backslash, 0]) gap' [0]) :=
    putEscaped_pair (by decide) (by decide) backslash room
  refine ⟨gap', ?_⟩
  have escape : ¬(backslash = 0 ∨ backslash = newline) := by decide
  rw [decodeTurn, Tape.next_parts, if_neg escape, if_neg (not_not_intro rfl), Tape.next_parts, if_pos rfl, put,
    Option.map_some]
  simp only [List.append_assoc, List.cons_append]

theorem decodeTurn_dangling (before name out : Bytes) (fields : List Field) :
    decodeTurn before.length (before.length + name.length + 1)
      (.parts (before ++ (name ++ 0 :: out)) [] [backslash, 0]) fields = some (.decode before.length
        (before.length + name.length + 1) ⟨before ++ (name ++ 0 :: out) ++ [backslash, 0],
          (before ++ (name ++ 0 :: out)).length + 1, (before ++ (name ++ 0 :: out)).length + 2⟩ fields) := by
  have escape : ¬(backslash = 0 ∨ backslash = newline) := by decide
  have put : putEscaped 0 (.parts (before ++ (name ++ 0 :: out)) ([] ++ [backslash]) [0]) =
      some ⟨before ++ (name ++ 0 :: out) ++ [backslash, 0],
        (before ++ (name ++ 0 :: out)).length + 1, (before ++ (name ++ 0 :: out)).length + 2⟩ := by
    rw [putEscaped, if_neg (by decide), if_neg (by decide), List.nil_append, Tape.put_parts, Option.bind_some,
      Tape.put_over, List.append_assoc, List.length_append, List.length_singleton]
    rfl
  rw [decodeTurn, Tape.next_parts, if_neg escape, if_neg (not_not_intro rfl), Tape.next_parts, if_pos rfl, put,
    Option.map_some]

theorem dangles_newline (rest : Bytes) : dangles (newline :: rest) = false := by
  cases rest with
  | nil => decide
  | cons ahead rest => exact if_pos rfl

theorem dangles_plain {byte : Byte} (rest : Bytes) (line : byte ≠ newline) (plain : byte ≠ backslash) :
    dangles (byte :: rest) = dangles rest := by
  cases rest with
  | nil => exact decide_eq_false plain
  | cons ahead rest => rw [dangles, if_neg line, if_pos plain]

/-- The turn at a text keeps the account of the content, and comes nearer to the end of it. -/
def TurnTraced (content before name out gap text : Bytes) (fields : List Field) : Prop :=
  ∃ scan, decodeTurn before.length (before.length + name.length + 1)
      (.parts (before ++ (name ++ 0 :: out)) gap (text ++ [0])) fields = some scan ∧
    Traced content scan ∧ scan.size < 2 * (text.length + 1) + 1

section Turn
variable {content before name out gap : Bytes} {fields : List Field} (named : (0 : Byte) ∉ name)
include named

theorem turn_end (all : fields ++ ⟨name, cstr out⟩ :: fieldsOf [] = fieldsOf content)
    (ends : Dangling [] ↔ Dangling content) : TurnTraced content before name out gap [] fields := by
  obtain ⟨junk, -, last, turn⟩ := decodeTurn_end before name out gap [] 0 fields (Or.inl rfl) named
  obtain ⟨front, size, same⟩ := last rfl
  have cells : before ++ (name ++ 0 :: out) ++ 0 :: (junk ++ []) =
      before ++ (name ++ 0 :: out) ++ front ++ ([] ++ [0]) := by
    rw [List.append_nil, same, List.append_assoc _ front]
    rfl
  have place : (before ++ (name ++ 0 :: out)).length + gap.length + (if (0 : Byte) = 0 then 0 else 1) =
      (before ++ (name ++ 0 :: out) ++ front).length := by
    rw [if_pos rfl, Nat.add_zero, ← size, ← List.length_append]
  rw [cells, place] at turn
  refine ⟨_, turn, Traced.search _ [] _ List.not_mem_nil ?_ ends, ?_⟩
  · rw [List.append_assoc]
    exact all
  · rw [size_search]
    exact Nat.lt_succ_self _

theorem turn_newline {rest : Bytes} (clean : (0 : Byte) ∉ rest)
    (all : fields ++ ⟨name, cstr out⟩ :: fieldsOf rest = fieldsOf content)
    (ends : Dangling rest ↔ Dangling content) : TurnTraced content before name out gap (newline :: rest) fields := by
  obtain ⟨junk, size, -, turn⟩ := decodeTurn_end before name out gap (rest ++ [0]) newline fields (Or.inr rfl) named
  have cells : before ++ (name ++ 0 :: out) ++ 0 :: (junk ++ (rest ++ [0])) =
      before ++ (name ++ 0 :: out) ++ 0 :: junk ++ (rest ++ [0]) := by
    rw [List.append_assoc _ (0 :: junk)]
    rfl
  have place : (before ++ (name ++ 0 :: out)).length + gap.length + (if newline = 0 then 0 else 1) =
      (before ++ (name ++ 0 :: out) ++ 0 :: junk).length := by
    rw [if_neg (by decide), ← size, Nat.add_assoc, ← List.length_cons, ← List.length_append]
  rw [cells, place] at turn
  refine ⟨_, turn, Traced.search _ rest _ clean ?_ ends, ?_⟩
  · rwa [List.append_assoc]
  · rw [size_search, List.length_cons]
    omega

theorem turn_last (room : gap ≠ [])
    (all : fields ++ ⟨name, cstr (out ++ [backslash])⟩ :: fieldsOf [] = fieldsOf content)
    (ends : Dangling [] ↔ Dangling content) : TurnTraced content before name out gap [backslash] fields := by
  obtain ⟨gap', turn⟩ := decodeTurn_last before name out gap fields room
  have same : cstr (out ++ [backslash, 0] ++ []) = cstr (out ++ [backslash]) := by
    rw [List.append_nil, ← cstr_append_nul (out ++ [backslash]) [], List.append_assoc]
    rfl
  have nothing : ¬(gap' = [] ∧ dangles [] = true) := fun both => by cases both.2
  refine ⟨_, turn, Traced.decode before name _ gap' [] fields named List.not_mem_nil (same ▸ all) ?_, ?_⟩
  · exact (or_iff_right nothing).trans ends
  · exact (size_decode _ _ _ gap' [] fields).trans_lt (by decide)

theorem turn_goes {gap' text text' written : Bytes} (clean : (0 : Byte) ∉ text') (shorter : text'.length < text.length)
    (turn : decodeTurn before.length (before.length + name.length + 1)
      (.parts (before ++ (name ++ 0 :: out)) gap (text ++ [0])) fields = some (.decode before.length
        (before.length + name.length + 1) (.parts (before ++ (name ++ 0 :: (out ++ written))) gap' (text' ++ [0]))
        fields))
    (all : fields ++ ⟨name, cstr (out ++ (written ++ (decodeValue text').1))⟩ :: fieldsOf (decodeValue text').2 =
      fieldsOf content)
    (ends : (gap' = [] ∧ dangles text' = true) ∨ Dangling (decodeValue text').2 ↔ Dangling content) :
    TurnTraced content before name out gap text fields := by
  refine ⟨_, turn, Traced.decode before name _ gap' text' fields named clean ?_ ends, ?_⟩
  · rwa [List.append_assoc]
  · rw [size_decode]
    omega

theorem turn_escape {rest : Bytes} {ahead : Byte} (clean : (0 : Byte) ∉ ahead :: rest)
    (all : fields ++ ⟨name, cstr (out ++ (decodeValue (backslash :: ahead :: rest)).1)⟩ ::
      fieldsOf (decodeValue (backslash :: ahead :: rest)).2 = fieldsOf content)
    (ends : (gap = [] ∧ dangles (backslash :: ahead :: rest) = true) ∨
      Dangling (decodeValue (backslash :: ahead :: rest)).2 ↔ Dangling content) :
    TurnTraced content before name out gap (backslash :: ahead :: rest) fields := by
  obtain ⟨real, clean'⟩ := not_or.mp (List.mem_cons.not.mp clean)
  have shorter : rest.length < (backslash :: ahead :: rest).length := by
    simp only [List.length_cons]
    omega
  by_cases short : ∃ byte, (ahead = 'n'.toUInt8 ∧ byte = newline) ∨ (ahead = newline ∧ byte = 32)
  · obtain ⟨byte, short⟩ := short
    obtain ⟨gap', room, turn⟩ := decodeTurn_short before name out gap (rest ++ [0]) ahead byte fields short
    have decoded : decodeValue (backslash :: ahead :: rest) =
        (byte :: (decodeValue rest).1, (decodeValue rest).2) := by
      rcases short with ⟨rfl, rfl⟩ | ⟨rfl, rfl⟩
      · exact decodeValue_letter rest
      · exact decodeValue_blank rest
    have shrinks : dangles (backslash :: ahead :: rest) = false := by
      rw [dangles, if_neg (by decide), if_neg (not_not_intro rfl),
        if_pos (short.imp (fun both => both.1) fun both => both.1)]
    rw [decoded] at all ends
    rw [shrinks] at ends
    have here : ¬(gap' = [] ∧ dangles rest = true) := fun both => room both.1
    apply turn_goes named clean' shorter turn all
    exact (or_iff_right here).trans ((or_iff_right fun both => by cases both.2).symm.trans ends)
  · have letter : ahead ≠ 'n'.toUInt8 := fun same => short ⟨newline, Or.inl ⟨same, rfl⟩⟩
    have unbroken : ahead ≠ newline := fun same => short ⟨32, Or.inr ⟨same, rfl⟩⟩
    obtain ⟨gap', size, turn⟩ :=
      decodeTurn_pair before name out gap (rest ++ [0]) ahead fields (Ne.symm real) letter unbroken
    have same : dangles (backslash :: ahead :: rest) = dangles rest := by
      rw [dangles, if_neg (by decide), if_neg (not_not_intro rfl), if_neg (not_or.mpr ⟨letter, unbroken⟩)]
    rw [decodeValue_pair rest ahead letter unbroken] at all ends
    rw [same, ← List.length_eq_zero_iff, ← size, List.length_eq_zero_iff] at ends
    exact turn_goes named clean' shorter turn all ends

theorem decodeTurn_traced {text : Bytes} (clean : (0 : Byte) ∉ text)
    (all : fields ++ ⟨name, cstr (out ++ (decodeValue text).1)⟩ :: fieldsOf (decodeValue text).2 = fieldsOf content)
    (ends : (gap = [] ∧ dangles text = true) ∨ Dangling (decodeValue text).2 ↔ Dangling content)
    (sound : ¬(gap = [] ∧ text = [backslash])) : TurnTraced content before name out gap text fields := by
  cases text with
  | nil =>
    rw [decodeValue, List.append_nil] at all
    exact turn_end named all ((or_iff_right fun both => by cases both.2).symm.trans ends)
  | cons c rest =>
    obtain ⟨differs, clean'⟩ := not_or.mp (List.mem_cons.not.mp clean)
    by_cases line : c = newline
    · rw [line, decodeValue_newline, List.append_nil] at all
      rw [line, decodeValue_newline, dangles_newline] at ends
      exact line ▸ turn_newline named clean' all ((or_iff_right fun both => by cases both.2).symm.trans ends)
    by_cases escape : c = backslash
    · subst escape
      cases rest with
      | nil =>
        have room : gap ≠ [] := fun empty => sound ⟨empty, rfl⟩
        exact turn_last named room all ((or_iff_right fun both => room both.1).symm.trans ends)
      | cons ahead rest => exact turn_escape named clean' all ends
    · obtain ⟨gap', size, turn⟩ := decodeTurn_plain before name out gap (rest ++ [0]) c fields
        (not_or.mpr ⟨Ne.symm differs, line⟩) escape
      rw [decodeValue_plain rest c line escape] at all ends
      rw [dangles_plain rest line escape, ← List.length_eq_zero_iff, ← size, List.length_eq_zero_iff] at ends
      exact turn_goes named clean' (Nat.lt_succ_self _) turn all ends

end Turn

theorem decodeTurn_outside (out : Bytes) (name value : Nat) (fields : List Field) :
    decodeTurn name value ⟨out ++ [backslash, 0], out.length + 1, out.length + 2⟩ fields = none := by
  have byte : (out ++ [backslash, 0])[out.length + 1]? = some 0 := by
    rw [List.getElem?_append_right (Nat.le_succ _), Nat.succ_sub (Nat.le_refl _), Nat.sub_self]
    rfl
  have full : ¬out.length + 2 < (out ++ [backslash, 0]).length := by
    rw [List.length_append]
    exact lt_irrefl _
  rw [decodeTurn, Tape.next, byte, Option.bind_some, if_pos (Or.inl rfl), Tape.close, if_neg full]
  rfl

theorem Scan.Safe.cons {scan next : Scan} (step : scanStep scan = some next) (ordered : scan.Ordered)
    (safe : next.Safe) : scan.Safe := by
  intro state reach
  rcases ReflTransGen.cases_head reach with same | ⟨other, first, rest⟩
  · subst same
    exact ⟨ordered, fun none => by cases none.symm.trans step⟩
  · cases first.symm.trans step
    exact safe state rest

/-- From each state the scan ends: with the fields of the content, or where the last value dangles with what is written
after what is read. -/
theorem Traced.run {content : Bytes} {scan : Scan} (traced : Traced content scan) :
    (¬Dangling content ∧ ReflTransGen (Walk.Step scanStep) scan (.stop (fieldsOf content)) ∧ scan.Safe) ∨
    (Dangling content ∧
      ∃ last, ReflTransGen (Walk.Step scanStep) scan last ∧ ¬last.Ordered ∧ scanStep last = none) := by
  induction size : scan.size using Nat.strong_induction_on generalizing scan with
  | _ size ih =>
    have goOn {next : Scan} (step : scanStep scan = some next) (traced' : Traced content next)
        (smaller : next.size < scan.size) :
        (¬Dangling content ∧ ReflTransGen (Walk.Step scanStep) scan (.stop (fieldsOf content)) ∧ scan.Safe) ∨
        (Dangling content ∧
          ∃ last, ReflTransGen (Walk.Step scanStep) scan last ∧ ¬last.Ordered ∧ scanStep last = none) := by
      subst size
      rcases ih next.size smaller traced' rfl with ⟨sound, reach, safe⟩ | ⟨dangling, last, reach, stuck⟩
      · exact Or.inl ⟨sound, reach.head step, safe.cons step traced.ordered⟩
      · exact Or.inr ⟨dangling, last, reach.head step, stuck⟩
    cases traced with
    | stop sound =>
      refine Or.inl ⟨sound, ReflTransGen.refl, fun state reach => ?_⟩
      rw [Walk.reach_from_end rfl reach]
      exact ⟨trivial, fun _ => trivial⟩
    | search before text fields clean all ends =>
      obtain ⟨traced', smaller⟩ := searchField_traced clean all ends
      exact goOn rfl traced' smaller
    | decode before name out gap text fields named clean all ends =>
      by_cases sound : gap = [] ∧ text = [backslash]
      · obtain ⟨rfl, rfl⟩ := sound
        have turn := decodeTurn_dangling before name out fields
        refine Or.inr ⟨ends.mp (Or.inl ⟨rfl, rfl⟩), _, ReflTransGen.single turn, ?_, decodeTurn_outside _ _ _ _⟩
        exact Nat.not_le_of_lt (Nat.lt_succ_self _)
      · obtain ⟨next, turn, traced', smaller⟩ := decodeTurn_traced named clean all ends sound
        exact goOn turn traced' ((size_decode _ _ _ gap text fields).symm ▸ smaller)

theorem start_traced {content : Bytes} (clean : (0 : Byte) ∉ content) : Traced content (Scan.start content) :=
  Traced.search [] content [] clean (List.nil_append _) Iff.rfl

/-- The scan of a unit file ends always. It never writes after what it reads nor after the memory exactly when no value
dangles. -/
theorem scan_in_place (file : Bytes) :
    Walk.Halts scanStep (Scan.start (cropAndTrimUnitContent file)) ∧
    ((Scan.start (cropAndTrimUnitContent file)).Safe ↔ ¬Dangling (cropAndTrimUnitContent file)) := by
  have clean : (0 : Byte) ∉ cropAndTrimUnitContent file := cropFrom_clean .begin (cstr_clean file)
  rcases (start_traced clean).run with ⟨sound, reach, safe⟩ | ⟨dangling, last, reach, disordered, stuck⟩
  · exact ⟨(Walk.halts_of_reach reach).mpr (Walk.Halts.stop rfl), iff_of_true safe sound⟩
  · have overruns : ¬(Scan.start (cropAndTrimUnitContent file)).Safe := fun safe => disordered (safe last reach).1
    exact ⟨(Walk.halts_of_reach reach).mpr (Walk.Halts.stop stuck), iff_of_false overruns (not_not_intro dangling)⟩

/-- A file that ends with two backslashes: one of them is left at the end of the content. -/
theorem scan_overruns : cropAndTrimUnitContent (ascii "X-AFM-a=b\\\\") = ascii "X-AFM-a=b\\" ∧
    ∃ last, ReflTransGen (Walk.Step scanStep) (Scan.start (ascii "X-AFM-a=b\\")) last ∧
      ¬last.Ordered ∧ ¬last.Finished ∧ scanStep last = none := by
  refine ⟨by decide, .decode 6 8 ⟨ascii "X-AFM-a" ++ 0 :: ascii "b\\" ++ [0], 10, 11⟩ [], ?_, ?_, id, rfl⟩
  · apply ReflTransGen.head (b := .decode 6 8 ⟨ascii "X-AFM-a" ++ 0 :: ascii "b\\" ++ [0], 8, 8⟩ [])
    · rfl
    apply ReflTransGen.head (b := .decode 6 8 ⟨ascii "X-AFM-a" ++ 0 :: ascii "b\\" ++ [0], 9, 9⟩ [])
    · rfl
    exact ReflTransGen.single rfl
  · exact Nat.not_succ_le_self 10

end AppManager.Binding
