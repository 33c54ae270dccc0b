import AppManager.Units.ManageAfid

/-! The search of a free identifier in the words of the array, which are all the memory
that it may read. -/

namespace AppManager.Units

def AFID_COUNT : Nat := AFID_MAX - AFID_MIN + 1
def AFID_ACNT : Nat := (AFID_COUNT + 31) >>> 5

/-- The words of `afids_array`. What reads or writes after the last one has no result. -/
abbrev AfidsWords := List (BitVec 32)

namespace AfidsWords

def test (words : AfidsWords) (afid : Nat) : Option Bool :=
  words[afidAidx afid]?.map fun word : BitVec 32 => (word >>> afidAsft afid) &&& 1#32 ≠ 0#32

def set (words : AfidsWords) (afid : Nat) : Option AfidsWords :=
  words[afidAidx afid]?.map fun word => List.set words (afidAidx afid) (word ||| 1#32 <<< afidAsft afid)

/-- The first loop, which ends for each of its steps brings it nearer to the last identifier. -/
def skipFull (words : AfidsWords) (afid : Nat) : Option Nat :=
  if afid ≤ AFID_MAX then
    words[afidAidx afid]?.bind fun word => if ~~~word = 0 then skipFull words (afid + 32) else some afid
  else some afid
termination_by AFID_MAX + 1 - afid

def skipUsed (words : AfidsWords) (afid : Nat) : Option Nat :=
  if afid ≤ AFID_MAX then (words.test afid).bind fun used => if used then skipUsed words (afid + 1) else some afid
  else some afid
termination_by AFID_MAX + 1 - afid

def firstFreeAfid (words : AfidsWords) : Option Int :=
  (words.skipFull AFID_MIN).bind fun start =>
    (words.skipUsed start).map fun afid => if AFID_MAX < afid then -1 else afid

/-- The bitmaps that are made of the empty one by setting identifiers. -/
inductive Marked : AfidsWords → Prop
  | empty : Marked (List.replicate AFID_ACNT 0)
  | set (words words' : AfidsWords) (afid : Nat) (marked : Marked words) (valid : AFID_IS_VALID afid)
      (stored : words.set afid = some words') : Marked words'

/-- The array of the other functions, of which only the words are in memory. -/
def array (words : AfidsWords) : AfidsArray := fun index => words.getD index 0

theorem aidx_lt (afid : Nat) (most : afid ≤ AFID_MAX) : afidAidx afid < AFID_ACNT := by
  unfold afidAidx AFID_MIN
  unfold AFID_MAX at most
  have words : AFID_ACNT = 63 := by decide
  omega

theorem read_inside {words : AfidsWords} (size : words.length = AFID_ACNT) (afid : Nat) (most : afid ≤ AFID_MAX) :
    words[afidAidx afid]? = some (words.array (afidAidx afid)) := by
  have inside : afidAidx afid < words.length := size ▸ aidx_lt afid most
  rw [array, List.getD_eq_getElem?_getD, List.getElem?_eq_getElem inside]
  rfl

theorem bit_of_shift (word : BitVec 32) (shift : Nat) :
    decide ((word >>> shift) &&& 1#32 ≠ 0#32) = word.getLsbD shift := by
  rw [Bool.eq_iff_iff, decide_eq_true_iff, BitVec.getLsbD, Nat.testBit, bne_iff_ne, ne_eq, ne_eq, BitVec.toNat_eq,
    BitVec.toNat_and, BitVec.toNat_ushiftRight, Nat.and_comm]
  rfl

theorem test_eq {words : AfidsWords} (size : words.length = AFID_ACNT) (afid : Nat) (most : afid ≤ AFID_MAX) :
    words.test afid = some (afidTest words.array afid) := by
  rw [test, read_inside size afid most, Option.map_some, afidTest, bit_of_shift]

theorem set_inside {words : AfidsWords} (size : words.length = AFID_ACNT) (afid : Nat) (most : afid ≤ AFID_MAX) :
    ∃ words', words.set afid = some words' ∧ words'.length = AFID_ACNT ∧ words'.array = afidSet words.array afid := by
  have inside : afidAidx afid < words.length := size ▸ aidx_lt afid most
  refine ⟨_, by rw [set, read_inside size afid most]; rfl, by rw [List.length_set, size], ?_⟩
  funext index
  rw [array, afidSet, List.getD_eq_getElem?_getD, List.getElem?_set]
  by_cases same : index = afidAidx afid
  · rw [same, if_pos rfl, if_pos inside, Function.update_self]
    rfl
  · rw [if_neg (Ne.symm same), Function.update_of_ne same, array, List.getD_eq_getElem?_getD]

theorem Marked.length {words : AfidsWords} (marked : Marked words) : words.length = AFID_ACNT := by
  induction marked with
  | empty => exact List.length_replicate
  | set words words' afid _ valid stored size =>
    obtain ⟨_, stored', size', -⟩ := set_inside size afid (by exact_mod_cast valid.2)
    rw [stored, Option.some.injEq] at stored'
    rw [stored', size']

theorem skipFull_eq {words : AfidsWords} (size : words.length = AFID_ACNT) (count afid : Nat)
    (enough : AFID_MAX < afid + 32 * count) : words.skipFull afid = some (skipWords words.array count afid) := by
  induction count generalizing afid with
  | zero =>
    rw [skipFull, if_neg (by omega)]
    rfl
  | succ count ih =>
    rw [skipFull, skipWords]
    by_cases most : afid ≤ AFID_MAX
    · rw [if_pos most, read_inside size afid most, Option.bind_some]
      by_cases full : ~~~words.array (afidAidx afid) = 0
      · rw [if_pos full, if_pos ⟨most, full⟩]
        exact ih (afid + 32) (by omega)
      · rw [if_neg full, if_neg fun both => full both.2]
    · rw [if_neg most, if_neg fun both => most both.1]

theorem skipUsed_eq {words : AfidsWords} (size : words.length = AFID_ACNT) (count afid : Nat)
    (enough : AFID_MAX < afid + count) : words.skipUsed afid = some (skipBits words.array count afid) := by
  induction count generalizing afid with
  | zero =>
    rw [skipUsed, if_neg (by omega)]
    rfl
  | succ count ih =>
    rw [skipUsed, skipBits]
    by_cases most : afid ≤ AFID_MAX
    · rw [if_pos most, test_eq size afid most, Option.bind_some]
      by_cases used : afidTest words.array afid = true
      · rw [if_pos used, if_pos ⟨most, used⟩]
        exact ih (afid + 1) (by omega)
      · rw [if_neg used, if_neg fun both => used both.2]
    · rw [if_neg most, if_neg fun both => most both.1]

theorem firstFreeAfid_eq {words : AfidsWords} (size : words.length = AFID_ACNT) :
    words.firstFreeAfid = some (Units.firstFreeAfid words.array) := by
  have later : 1 ≤ skipWords words.array 63 AFID_MIN := (skipWords_set words.array 63 AFID_MIN (by decide)).1
  rw [AfidsWords.firstFreeAfid, skipFull_eq size 63 AFID_MIN (by decide), Option.bind_some,
    skipUsed_eq size AFID_MAX _ (by omega)]
  rfl

end AfidsWords

/-- The identifier is the least one that is free, or -1 when there is none. -/
def FirstFree (words : AfidsWords) (result : Int) : Prop :=
  (result = -1 ∧ ∀ afid : Nat, AFID_IS_VALID afid → words.test afid = some true) ∨
    ∃ afid : Nat, result = afid ∧ AFID_IS_VALID afid ∧ words.test afid = some false ∧
      ∀ lower < afid, AFID_IS_VALID lower → words.test lower = some true

theorem firstFree_least (words : AfidsWords) (marked : words.Marked) :
    ∃ result, words.firstFreeAfid = some result ∧ FirstFree words result := by
  have read (afid : Nat) (valid : AFID_IS_VALID afid) : words.test afid = some (afidTest words.array afid) :=
    AfidsWords.test_eq marked.length afid (by exact_mod_cast valid.2)
  refine ⟨firstFreeAfid words.array, AfidsWords.firstFreeAfid_eq marked.length, ?_⟩
  rcases firstFreeAfid_least words.array with ⟨none, used⟩ | ⟨afid, found, valid, free, lower⟩
  · exact Or.inl ⟨none, fun afid valid => by rw [read afid valid, used afid valid]⟩
  · refine Or.inr ⟨afid, found, valid, by rw [read afid valid, free], fun other less valid' => ?_⟩
    rw [read other valid', lower other less valid']

/-- After the first identifier is taken, the second one is given. -/
theorem firstFree_least_second :
    ∃ result, AfidsWords.firstFreeAfid (1 :: List.replicate (AFID_ACNT - 1) 0) = some result ∧
      FirstFree (1 :: List.replicate (AFID_ACNT - 1) 0) result :=
  firstFree_least _ (.set _ _ 1 .empty (by decide) (by decide))

end AppManager.Units
