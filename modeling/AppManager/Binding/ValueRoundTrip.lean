import Mathlib.Data.List.DropRight
import AppManager.Binding.JoinedLines
import AppManager.Units.ApplyMustach

/-! What the decoding of a value gives back of a printed text. -/

namespace AppManager.Binding
open AppManager.Lib AppManager.Lib.Libc AppManager.Units

/-- Reading each backslash with the byte after it, none is before an `n` or a newline. -/
def PlainEscapes : Bytes → Prop
  | [] => True
  | [_] => True
  | byte :: next :: rest =>
    if byte = backslash then next ≠ 'n'.toUInt8 ∧ next ≠ newline ∧ PlainEscapes rest else PlainEscapes (next :: rest)

/-- The texts that are the same once printed and read. -/
structure Intact (value : Bytes) : Prop where
  terminated : (0 : Byte) ∉ value
  unprinted : percent ∉ value
  kept : carriage ∉ value
  ends : value.getLast? ≠ some backslash
  escapes : PlainEscapes value

theorem plainEscapes_plain (byte : Byte) (rest : Bytes) (normal : byte ≠ backslash) :
    PlainEscapes (byte :: rest) ↔ PlainEscapes rest := by
  cases rest with
  | nil => rw [PlainEscapes, PlainEscapes]
  | cons next rest => rw [PlainEscapes, if_neg normal]

theorem plainEscapes_pair (next : Byte) (rest : Bytes) : PlainEscapes (backslash :: next :: rest) ↔
    next ≠ 'n'.toUInt8 ∧ next ≠ newline ∧ PlainEscapes rest := by
  rw [PlainEscapes, if_pos rfl]

theorem escapes_induction {motive : Bytes → Prop} (empty : motive []) (last : motive [backslash])
    (plain : ∀ byte rest, byte ≠ backslash → motive rest → motive (byte :: rest))
    (pair : ∀ next rest, motive rest → motive (backslash :: next :: rest)) (text : Bytes) : motive text := by
  induction size : text.length using Nat.strong_induction_on generalizing text with
  | _ size' ih =>
    subst size
    cases text with
    | nil => exact empty
    | cons byte rest =>
      by_cases escape : byte = backslash
      · subst escape
        cases rest with
        | nil => exact last
        | cons next rest => exact pair next rest (ih rest.length (by simp only [List.length_cons]; omega) rest rfl)
      · exact plain byte rest escape (ih rest.length (Nat.lt_succ_self _) rest rfl)

theorem decodeValue_print (value : Bytes) (unprinted : percent ∉ value) :
    (decodeValue (value.flatMap printByte)).1 = value ↔ PlainEscapes value := by
  induction value using escapes_induction with
  | empty => exact iff_of_true rfl trivial
  | last => exact iff_of_true rfl trivial
  | plain byte rest normal ih =>
    rw [List.mem_cons, not_or] at unprinted
    rw [plainEscapes_plain byte rest normal, ← ih unprinted.2, List.flatMap_cons]
    by_cases same : byte = newline
    · subst same
      rw [printByte_newline, List.cons_append, List.singleton_append, decodeValue_letter, List.cons.injEq,
        and_iff_right rfl]
    · rw [printByte_plain byte (Ne.symm unprinted.1) same, List.singleton_append, decodeValue_plain _ _ same normal,
        List.cons.injEq, and_iff_right rfl]
  | pair next rest ih =>
    simp only [List.mem_cons, not_or] at unprinted
    rw [plainEscapes_pair, ← ih unprinted.2.2, List.flatMap_cons, List.flatMap_cons, printByte_backslash,
      List.singleton_append]
    by_cases same : next = newline
    · subst same
      rw [printByte_newline, List.cons_append, List.singleton_append, decodeValue_pair _ _ (by decide) (by decide)]
      exact iff_of_false (fun equal => absurd (List.cons.inj (List.cons.inj equal).2).1 (by decide))
        fun both => both.2.1 rfl
    · rw [printByte_plain next (Ne.symm unprinted.2.1) same, List.singleton_append]
      by_cases letter : next = 'n'.toUInt8
      · rw [letter, decodeValue_letter]
        exact iff_of_false (fun equal => absurd (List.cons.inj equal).1 (by decide)) fun both => both.1 rfl
      · rw [decodeValue_pair _ _ letter same, List.cons.injEq, List.cons.injEq, and_iff_right rfl, and_iff_right rfl,
          and_iff_right letter, and_iff_right same]

theorem decodeValue_cut (front more : Bytes) (unprinted : percent ∉ front) :
    (decodeValue (front.flatMap printByte ++ 32 :: more)).1 ≠ front ++ [backslash] := by
  induction front using escapes_induction with
  | empty =>
    rw [List.flatMap_nil, List.nil_append, decodeValue_plain _ _ (by decide) (by decide)]
    exact fun equal => absurd (List.cons.inj equal).1 (by decide)
  | last =>
    rw [List.flatMap_singleton, printByte_backslash, List.singleton_append,
      decodeValue_pair _ _ (by decide) (by decide)]
    exact fun equal => absurd (List.cons.inj (List.cons.inj equal).2).1 (by decide)
  | plain byte rest normal ih =>
    rw [List.mem_cons, not_or] at unprinted
    rw [List.flatMap_cons, List.append_assoc]
    by_cases same : byte = newline
    · subst same
      rw [printByte_newline, List.cons_append, List.singleton_append, decodeValue_letter]
      exact fun equal => ih unprinted.2 (List.cons.inj equal).2
    · rw [printByte_plain byte (Ne.symm unprinted.1) same, List.singleton_append, decodeValue_plain _ _ same normal]
      exact fun equal => ih unprinted.2 (List.cons.inj equal).2
  | pair next rest ih =>
    simp only [List.mem_cons, not_or] at unprinted
    rw [List.flatMap_cons, List.flatMap_cons, printByte_backslash, List.append_assoc, List.append_assoc,
      List.singleton_append]
    by_cases same : next = newline
    · subst same
      rw [printByte_newline, List.cons_append, List.singleton_append, decodeValue_pair _ _ (by decide) (by decide)]
      exact fun equal => absurd (List.cons.inj (List.cons.inj equal).2).1 (by decide)
    · rw [printByte_plain next (Ne.symm unprinted.2.1) same, List.singleton_append]
      by_cases letter : next = 'n'.toUInt8
      · rw [letter, decodeValue_letter]
        exact fun equal => absurd (List.cons.inj equal).1 (by decide)
      · rw [decodeValue_pair _ _ letter same]
        exact fun equal => ih unprinted.2.2 (List.cons.inj (List.cons.inj equal).2).2

theorem decodeValue_count (text : Bytes) :
    (decodeValue text).1.count percent + (decodeValue text).2.count percent = text.count percent := by
  induction text using escapes_induction with
  | empty => rfl
  | last => rfl
  | plain byte rest normal ih =>
    by_cases same : byte = newline
    · rw [same, decodeValue_newline, List.count_cons, if_neg (by decide), List.count_nil, Nat.zero_add, Nat.add_zero]
    · rw [decodeValue_plain rest byte same normal, List.count_cons, List.count_cons, ← ih]
      simp only
      omega
  | pair next rest ih =>
    have escape : (backslash == percent) = false := by decide
    have ended : (newline == percent) = false := by decide
    by_cases letter : next = 'n'.toUInt8
    · have known : ('n'.toUInt8 == percent) = false := by decide
      rw [letter, decodeValue_letter]
      simp only [List.count_cons, escape, ended, known, Bool.false_eq_true, if_false]
      omega
    · by_cases same : next = newline
      · have known : ((32 : Byte) == percent) = false := by decide
        rw [same, decodeValue_blank]
        simp only [List.count_cons, escape, ended, known, Bool.false_eq_true, if_false]
        omega
      · rw [decodeValue_pair rest next letter same]
        simp only [List.count_cons, escape, Bool.false_eq_true, if_false]
        omega

theorem mem_decodeValue (byte : Byte) (text : Bytes) (inside : byte ∈ (decodeValue text).1) :
    byte ∈ text ∨ byte = newline ∨ byte = 32 := by
  induction text using escapes_induction with
  | empty => cases inside
  | last => exact Or.inl inside
  | plain first rest normal ih =>
    by_cases same : first = newline
    · rw [same, decodeValue_newline] at inside
      cases inside
    · rw [decodeValue_plain rest first same normal] at inside
      rcases List.mem_cons.mp inside with here | later
      · exact Or.inl (here ▸ List.mem_cons_self)
      · exact (ih later).imp_left (List.mem_cons_of_mem first)
  | pair next rest ih =>
    have later (below : byte ∈ (decodeValue rest).1) :
        byte ∈ backslash :: next :: rest ∨ byte = newline ∨ byte = 32 :=
      (ih below).imp_left fun member => List.mem_cons_of_mem _ (List.mem_cons_of_mem _ member)
    by_cases letter : next = 'n'.toUInt8
    · rw [letter, decodeValue_letter] at inside
      rcases List.mem_cons.mp inside with here | below
      · exact Or.inr (Or.inl here)
      · exact later below
    · by_cases same : next = newline
      · rw [same, decodeValue_blank] at inside
        rcases List.mem_cons.mp inside with here | below
        · exact Or.inr (Or.inr here)
        · exact later below
      · rw [decodeValue_pair rest next letter same] at inside
        rcases List.mem_cons.mp inside with here | below
        · exact Or.inl (here ▸ List.mem_cons_self)
        · rcases List.mem_cons.mp below with here | below
          · exact Or.inl (here ▸ List.mem_cons_of_mem _ List.mem_cons_self)
          · exact later below

/-- The value that is read where a text was printed. A backslash at its end joins what
more is on the next line. -/
def readValue (value more : Bytes) : Bytes :=
  let kept := (cstr value).filter (· != carriage)
  if kept.getLast? = some backslash then (decodeValue (kept.dropLast.flatMap printByte ++ 32 :: more)).1
  else (decodeValue (kept.flatMap printByte)).1

theorem kept_same (value : Bytes) (terminated : (0 : Byte) ∉ value) (clean : carriage ∉ value) :
    (cstr value).filter (· != carriage) = value := by
  rw [cstr_of_no_nul value terminated, List.filter_eq_self]
  intro byte member
  rw [bne_iff_ne]
  exact fun same => clean (same ▸ member)

theorem readValue_of_intact (value more : Bytes) (intact : Intact value) : readValue value more = value := by
  rw [readValue, kept_same value intact.terminated intact.kept, if_neg intact.ends]
  exact (decodeValue_print value intact.unprinted).mpr intact.escapes

theorem mem_readValue (byte : Byte) (value more : Bytes) (control : byte < 32) (other : byte ≠ newline)
    (inside : byte ∈ readValue value more) :
    byte ∈ (cstr value).filter (· != carriage) ∨ byte ∈ more := by
  have space : byte ≠ 32 := fun same => absurd control (by rw [same]; decide)
  have escape : byte ≠ backslash := fun same => absurd control (by rw [same]; decide)
  have letter : byte ≠ 'n'.toUInt8 := fun same => absurd control (by rw [same]; decide)
  have printed (text : Bytes) (member : byte ∈ text.flatMap printByte) : byte ∈ text :=
    (mem_print byte text member).2.resolve_right fun either => either.elim escape letter
  rw [readValue] at inside
  split at inside
  · have member := (mem_decodeValue _ _ inside).resolve_right (not_or.mpr ⟨other, space⟩)
    rcases List.mem_append.mp member with first | second
    · exact Or.inl (List.dropLast_subset _ (printed _ first))
    · exact Or.inr ((List.mem_cons.mp second).resolve_left space)
  · exact Or.inl (printed _ ((mem_decodeValue _ _ inside).resolve_right (not_or.mpr ⟨other, space⟩)))

theorem readValue_clean (value more : Bytes) (terminated : (0 : Byte) ∉ more) (kept : carriage ∉ more) :
    (0 : Byte) ∉ readValue value more ∧ carriage ∉ readValue value more := by
  constructor
  · intro inside
    rcases mem_readValue 0 value more (by decide) (by decide) inside with own | joined
    · have zero := List.mem_takeWhile_imp (List.mem_of_mem_filter own)
      exact absurd zero (by decide)
    · exact terminated joined
  · intro inside
    rcases mem_readValue carriage value more (by decide) (by decide) inside with own | joined
    · exact absurd (List.of_mem_filter own) (by decide)
    · exact kept joined

theorem readValue_count (value more : Bytes) (plain : newline ∉ more) (terminated : (0 : Byte) ∉ value)
    (clean : carriage ∉ value) :
    2 * value.count percent ≤ (readValue value more).count percent := by
  rw [readValue, kept_same value terminated clean]
  have printed (text : Bytes) : newline ∉ text.flatMap printByte := fun inside => (mem_print _ text inside).1 rfl
  split
  · next ends =>
    obtain ⟨front, split⟩ := List.getLast?_eq_some_iff.mp ends
    have count := decodeValue_count (front.flatMap printByte ++ 32 :: more)
    have line : newline ∉ front.flatMap printByte ++ 32 :: more := by
      rw [List.mem_append, List.mem_cons, not_or, not_or]
      exact ⟨printed front, by decide, plain⟩
    rw [decodeValue_open _ line, List.count_nil, List.count_append,
      count_print] at count
    rw [split, List.dropLast_concat, List.count_append, List.count_eq_zero.mpr (by decide : percent ∉ [backslash])]
    omega
  · have count := decodeValue_count (value.flatMap printByte)
    rw [decodeValue_open _ (printed value), List.count_nil, count_print] at count
    omega

theorem readValue_iff (value more : Bytes) (plain : newline ∉ more) (terminated : (0 : Byte) ∉ more)
    (kept : carriage ∉ more) : readValue value more = value ↔ Intact value := by
  refine ⟨fun same => ?_, readValue_of_intact value more⟩
  obtain ⟨clear, clean⟩ := readValue_clean value more terminated kept
  rw [same] at clear clean
  have twice := readValue_count value more plain clear clean
  rw [same] at twice
  have unprinted : percent ∉ value := List.count_eq_zero.mp (by omega)
  rw [readValue, kept_same value clear clean] at same
  split at same
  · next ends =>
    obtain ⟨front, split⟩ := List.getLast?_eq_some_iff.mp ends
    rw [split, List.dropLast_concat] at same
    refine absurd same (decodeValue_cut front more fun inside => unprinted ?_)
    rw [split]
    exact List.mem_append_left _ inside
  · next ends => exact ⟨clear, unprinted, clean, ends, (decodeValue_print value unprinted).mp same⟩

theorem spells_shape (value : Bytes) (spelled : spells value ≠ none) :
    value ≠ [] ∧ (strtol value).rest = [] := by
  rw [spells] at spelled
  split at spelled
  · next both => exact ⟨both.1, both.2.1⟩
  · exact absurd rfl spelled

theorem spells_bytes (value : Bytes) (spelled : spells value ≠ none) (byte : Byte) (member : byte ∈ value) :
    isSpace byte = true ∨ isDigit byte = true ∨ byte = 43 ∨ byte = 45 := by
  obtain ⟨proper, whole⟩ := spells_shape value spelled
  rw [← List.takeWhile_append_dropWhile (p := isSpace) (l := value)] at member
  rcases List.mem_append.mp member with blank | signed
  · exact Or.inl (List.mem_takeWhile_imp blank)
  · exact Or.inr ((strtol_signed value proper whole).2 byte signed)

theorem plainEscapes_of_none (text : Bytes) (plain : backslash ∉ text) : PlainEscapes text := by
  induction text with
  | nil => trivial
  | cons byte rest ih =>
    rw [List.mem_cons, not_or] at plain
    exact (plainEscapes_plain byte rest (Ne.symm plain.1)).mpr (ih plain.2)

theorem spells_readValue (value more : Bytes) (spelled : spells value ≠ none) :
    spells (readValue value more) = spells value := by
  have away (byte : Byte) (other : ¬(isSpace byte = true ∨ isDigit byte = true ∨ byte = 43 ∨ byte = 45)) :
      byte ∉ value := fun member => other (spells_bytes value spelled byte member)
  obtain ⟨proper, whole⟩ := spells_shape value spelled
  obtain ⟨some, signed⟩ := strtol_signed value proper whole
  have blanks (byte : Byte) (member : byte ∈ (value.takeWhile isSpace).filter (· != carriage)) :
      isSpace byte = true := List.mem_takeWhile_imp (List.mem_of_mem_filter member)
  have kept : value.filter (· != carriage) =
      (value.takeWhile isSpace).filter (· != carriage) ++ value.dropWhile isSpace := by
    conv_lhs => rw [← List.takeWhile_append_dropWhile (p := isSpace) (l := value)]
    rw [List.filter_append, List.append_cancel_left_eq, List.filter_eq_self]
    intro byte member
    rw [bne_iff_ne]
    intro same
    exact absurd (signed byte member) (by rw [same]; decide)
  have clear := away 0 (by decide)
  have escape : backslash ∉ value := away backslash (by decide)
  have intact : Intact (value.filter (· != carriage)) :=
    { terminated := fun inside => clear (List.mem_of_mem_filter inside)
      unprinted := fun inside => away percent (by decide) (List.mem_of_mem_filter inside)
      kept := fun inside => absurd (List.of_mem_filter inside) (by decide)
      ends := fun last => escape (List.mem_of_mem_filter (List.mem_of_getLast? last))
      escapes := plainEscapes_of_none _ fun inside => escape (List.mem_of_mem_filter inside) }
  have same : readValue value more = value.filter (· != carriage) := by
    rw [← readValue_of_intact (value.filter (· != carriage)) more intact]
    simp only [readValue, cstr_of_no_nul value clear, kept_same _ intact.terminated intact.kept]
  have number : strtol (value.filter (· != carriage)) = strtol value := by
    apply strtol_blanks value _ proper whole
    rw [kept, List.dropWhile_append_of_pos blanks, List.dropWhile_idempotent]
  have proper' : value.filter (· != carriage) ≠ [] := by
    rw [kept]
    exact fun empty => some (List.append_eq_nil_iff.mp empty).2
  rw [same, spells, spells, number]
  simp only [proper, proper', ne_eq, not_false_eq_true, true_and]

/-- The value that is recorded is the one that was printed exactly for integers and
for intact texts. -/
theorem valueOf_readValue (value more : Bytes) (plain : newline ∉ more) (terminated : (0 : Byte) ∉ more)
    (kept : carriage ∉ more) :
    valueOf (readValue value more) = valueOf value ↔ spells value ≠ none ∨ Intact value := by
  cases spelled : spells value with
  | some number =>
    have same := spells_readValue value more (by rw [spelled]; simp)
    refine iff_of_true ?_ (Or.inl (by simp))
    rw [valueOf, valueOf, same, spelled]
  | none =>
    rw [or_iff_right (by simp), ← readValue_iff value more plain terminated kept]
    constructor
    · intro same
      rw [valueOf, valueOf, spelled] at same
      split at same
      · cases same
      · exact Json.string.inj same
    · intro same
      rw [same]

end AppManager.Binding
