import AppManager.Lib.Search
import AppManager.Units.NormalizeUnit

/-! The identifiers of applications. The ones in use are bits of an array, which is
filled from the unit files that are on the disk. -/

namespace AppManager.Units
open AppManager.Lib AppManager.Lib.Libc

def keyAfmPrefix : Bytes := ascii "X-AFM-"
def keyAfid : Bytes := ascii "ID"
def equalSign : Byte := '='.toUInt8
def dash : Byte := '-'.toUInt8

/-- The cast of a `long` to an `int`. -/
def atoi (text : Bytes) : Int := ((strtol text).value + 2 ^ 31) % 2 ^ 32 - 2 ^ 31

def AFID_MIN : Nat := 1
def AFID_MAX : Nat := 1999
def AFID_IS_VALID (afid : Int) : Prop := AFID_MIN ≤ afid ∧ afid ≤ AFID_MAX

instance (afid : Int) : Decidable (AFID_IS_VALID afid) := inferInstanceAs (Decidable (_ ∧ _))

abbrev AfidsArray := Nat → BitVec 32

def afidAsft (afid : Nat) : Nat := (afid - AFID_MIN) % 32
def afidAidx (afid : Nat) : Nat := (afid - AFID_MIN) / 32
def afidTest (array : AfidsArray) (afid : Nat) : Bool := (array (afidAidx afid)).getLsbD (afidAsft afid)
def afidSet (array : AfidsArray) (afid : Nat) : AfidsArray :=
  Function.update array (afidAidx afid) (array (afidAidx afid) ||| 1#32 <<< afidAsft afid)

/-- What follows the key of an identifier, up to its value. -/
def afidValue (iter : Bytes) : Bytes := iter.dropWhile fun byte => byte != equalSign && byte != newline

/-- The loop of `get_afid_cb`: the number after each key, and where the search goes on. -/
def afidsFrom : Nat → Bytes → List Int
  | 0, _ => []
  | fuel + 1, text =>
    match strstr keyAfmPrefix text with
    | none => []
    | some found =>
      let iter := found.drop keyAfmPrefix.length
      let iter := if iter.head? = some dash then iter.tail else iter
      if keyAfid <+: iter then
        let iter := afidValue (iter.drop keyAfid.length)
        if iter.head? = some equalSign then
          let value := iter.tail.dropWhile (· == 32)
          atoi value :: afidsFrom fuel value
        else afidsFrom fuel iter
      else afidsFrom fuel iter

/-- Each search goes on after what it found, so that as many as there are bytes are enough. -/
def afidsOf (content : Bytes) : List Int := afidsFrom (content.length + 1) content

def mark (array : AfidsArray) (afid : Int) : AfidsArray :=
  if AFID_IS_VALID afid then afidSet array afid.toNat else array

def getAfidCb (read : Except Failure Bytes) (array : AfidsArray) : Int × AfidsArray :=
  match read with
  | .error failure => (failure.val, array)
  | .ok content => (0, (afidsOf (normalizeUnitFile (cstr content))).foldl mark array)

/-- What `readdir` gives: a regular file, with what reading it gives, an entry of another
kind, or one whose kind or path is not available. -/
inductive Dirent where
  | file (name : Bytes) (read : Except Failure Bytes)
  | other
  | failing

/-- A directory as one traversal meets it: why it can not be opened, its entries, and
whether their end is reached. -/
structure Directory where
  opened : Option Int
  entries : List Dirent
  ended : Bool

section
variable {State : Type} (callback : Bytes → Except Failure Bytes → State → Int × State)

def listEntries (ended : Bool) : List Dirent → State → Int × State
  | [], state => (if ended then 0 else -1, state)
  | .other :: rest, state => listEntries ended rest state
  | .failing :: _, state => (-1, state)
  | .file name read :: rest, state =>
    if (callback name read state).1 = 0 then listEntries ended rest (callback name read state).2
    else callback name read state

def unitsFsList (directory : Directory) (relax : Bool) (state : State) : Int × State :=
  match directory.opened with
  | some errno => (if relax ∧ errno = ENOENT then 0 else -1, state)
  | none => listEntries callback directory.ended directory.entries state

end

/-- The directories of the system and of the users, as one scan meets them. -/
structure Scan where
  system : Directory
  user : Directory

def updateAfids (strict : Bool) (scan : Scan) : Int × AfidsArray :=
  let system := unitsFsList (fun _ => getAfidCb) scan.system true fun _ => 0
  let user := unitsFsList (fun _ => getAfidCb) scan.user true system.2
  (if !strict then 0 else if system.1 < 0 then system.1 else user.1, user.2)

/-- The first of the two loops, over whole words, as many as the array has. -/
def skipWords (array : AfidsArray) : Nat → Nat → Nat
  | 0, afid => afid
  | words + 1, afid =>
    if afid ≤ AFID_MAX ∧ ~~~array (afidAidx afid) = 0 then skipWords array words (afid + 32) else afid

def skipBits (array : AfidsArray) : Nat → Nat → Nat
  | 0, afid => afid
  | count + 1, afid => if afid ≤ AFID_MAX ∧ afidTest array afid then skipBits array count (afid + 1) else afid

def firstFreeAfid (array : AfidsArray) : Int :=
  let afid := skipBits array AFID_MAX (skipWords array 63 AFID_MIN)
  if AFID_MAX < afid then -1 else afid

structure AfidState where
  initDone : Bool
  array : AfidsArray

def initAfidManager (strict : Bool) (scan : Scan) (state : AfidState) : Int × AfidState :=
  if state.initDone then (0, state)
  else ((updateAfids strict scan).1, ⟨true, (updateAfids strict scan).2⟩)

def recordAfid (afid : Int) (array : AfidsArray) : Int × AfidState :=
  (afid, ⟨true, if 0 ≤ afid then afidSet array afid.toNat else array⟩)

/-- The first scan is that of the initialisation, the other one that of the exhaustion. -/
def getNewAfid (first again : Scan) (state : AfidState) : Int × AfidState :=
  let init := initAfidManager true first state
  if init.1 < 0 then init
  else
    let afid := firstFreeAfid init.2.array
    if afid < 0 then
      let update := updateAfids true again
      if update.1 < 0 then (update.1, ⟨true, update.2⟩)
      else recordAfid (firstFreeAfid update.2) update.2
    else recordAfid afid init.2.array

theorem afidTest_set (array : AfidsArray) (afid other : Nat) (valid : AFID_MIN ≤ afid) (valid' : AFID_MIN ≤ other) :
    afidTest (afidSet array afid) other = (decide (other = afid) || afidTest array other) := by
  unfold afidTest afidSet
  by_cases word : afidAidx other = afidAidx afid
  · have shift : afidAsft afid < 32 := Nat.mod_lt _ (by decide)
    have shift' : afidAsft other < 32 := Nat.mod_lt _ (by decide)
    have same : other = afid ↔ afidAsft other = afidAsft afid := by
      unfold afidAidx at word
      unfold afidAsft AFID_MIN at *
      omega
    rw [word, Function.update_self, BitVec.getLsbD_or, BitVec.getLsbD_shiftLeft, Bool.or_comm]
    congr 1
    rw [Bool.eq_iff_iff, decide_eq_true_iff, same]
    simp only [Bool.and_eq_true, decide_eq_true_eq, Bool.not_eq_true', decide_eq_false_iff_not, BitVec.getLsbD_one]
    omega
  · have differs : other ≠ afid := fun same => word (by rw [same])
    rw [Function.update_of_ne word, decide_eq_false differs, Bool.false_or]

theorem skipWords_set (array : AfidsArray) (words afid : Nat) (start : afid % 32 = 1) :
    afid ≤ skipWords array words afid ∧
      ∀ other, afid ≤ other → other < skipWords array words afid → afidTest array other = true := by
  induction words generalizing afid with
  | zero => exact ⟨le_refl _, fun other low high => absurd high (not_lt.mpr low)⟩
  | succ words ih =>
    rw [skipWords]
    split
    · next full =>
      obtain ⟨later, set⟩ := ih (afid + 32) (by omega)
      refine ⟨by omega, fun other low high => ?_⟩
      by_cases here : other < afid + 32
      · have word : afidAidx other = afidAidx afid := by
          unfold afidAidx AFID_MIN
          omega
        have ones : array (afidAidx afid) = BitVec.allOnes 32 := by
          have none : ~~~array (afidAidx afid) = 0#32 := full.2
          rw [← BitVec.not_zero, ← none, BitVec.not_not]
        rw [afidTest, word, ones, BitVec.getLsbD_allOnes, decide_eq_true_iff]
        exact Nat.mod_lt _ (by decide)
      · exact set other (by omega) high
    · exact ⟨le_refl _, fun other low high => absurd high (not_lt.mpr low)⟩

theorem skipBits_set (array : AfidsArray) (count afid : Nat) (enough : AFID_MAX < count + afid) :
    afid ≤ skipBits array count afid ∧
      (∀ other, afid ≤ other → other < skipBits array count afid → afidTest array other = true) ∧
      (skipBits array count afid ≤ AFID_MAX → afidTest array (skipBits array count afid) = false) := by
  induction count generalizing afid with
  | zero =>
    refine ⟨le_refl _, fun other low high => absurd high (not_lt.mpr low), fun low => ?_⟩
    rw [skipBits] at low
    omega
  | succ count ih =>
    rw [skipBits]
    split
    · next set =>
      obtain ⟨later, before, stops⟩ := ih (afid + 1) (by omega)
      refine ⟨by omega, fun other low high => ?_, stops⟩
      by_cases here : other = afid
      · rw [here]
        exact set.2
      · exact before other (by omega) high
    · next free =>
      refine ⟨le_refl _, fun other low high => absurd high (not_lt.mpr low), fun low => ?_⟩
      rw [← Bool.not_eq_true]
      exact fun set => free ⟨low, set⟩

theorem firstFreeAfid_least (array : AfidsArray) :
    (firstFreeAfid array = -1 ∧ ∀ afid : Nat, AFID_IS_VALID afid → afidTest array afid = true) ∨
      ∃ afid : Nat, firstFreeAfid array = afid ∧ AFID_IS_VALID afid ∧ afidTest array afid = false ∧
        ∀ lower < afid, AFID_IS_VALID lower → afidTest array lower = true := by
  obtain ⟨low, words⟩ := skipWords_set array 63 AFID_MIN (by decide)
  have positive : 1 ≤ skipWords array 63 AFID_MIN := low
  obtain ⟨later, bits, stops⟩ := skipBits_set array AFID_MAX (skipWords array 63 AFID_MIN) (by omega)
  rw [firstFreeAfid]
  generalize skipWords array 63 AFID_MIN = start at positive low words later bits stops ⊢
  generalize skipBits array AFID_MAX start = stop at later bits stops ⊢
  have before : ∀ lower < stop, AFID_IS_VALID lower → afidTest array lower = true := by
    intro lower less valid
    have least : AFID_MIN ≤ lower := by exact_mod_cast valid.1
    by_cases skipped : lower < start
    · exact words lower least skipped
    · exact bits lower (by omega) less
  split
  · next high => exact Or.inl ⟨rfl, fun afid valid => before afid (lt_of_le_of_lt (by exact_mod_cast valid.2) high) valid⟩
  · next inside =>
    refine Or.inr ⟨stop, rfl, ⟨?_, ?_⟩, stops (by omega), before⟩
    · exact_mod_cast le_trans low later
    · exact_mod_cast not_lt.mp inside

theorem firstFreeAfid_spec (array : AfidsArray) :
    (firstFreeAfid array = -1 ∧ ∀ afid : Nat, AFID_IS_VALID afid → afidTest array afid = true) ∨
      ∃ afid : Nat, firstFreeAfid array = afid ∧ AFID_IS_VALID afid ∧ afidTest array afid = false := by
  rcases firstFreeAfid_least array with none | ⟨afid, found, valid, free, -⟩
  · exact Or.inl none
  · exact Or.inr ⟨afid, found, valid, free⟩

theorem mark_test (array : AfidsArray) (afid : Int) (other : Nat) (valid : AFID_IS_VALID other) :
    afidTest (mark array afid) other = (decide ((other : Int) = afid) || afidTest array other) := by
  unfold mark
  split
  · next valid' =>
    obtain ⟨least, -⟩ := valid
    obtain ⟨least', -⟩ := valid'
    rw [afidTest_set array afid.toNat other (by unfold AFID_MIN at *; omega) (by exact_mod_cast least)]
    congr 2
    unfold AFID_MIN at *
    rw [eq_iff_iff]
    omega
  · next invalid =>
    have differs : (other : Int) ≠ afid := fun same => invalid (same ▸ valid)
    rw [decide_eq_false differs, Bool.false_or]

theorem marks_test (afids : List Int) (array : AfidsArray) (other : Nat) (valid : AFID_IS_VALID other) :
    afidTest (afids.foldl mark array) other = (decide ((other : Int) ∈ afids) || afidTest array other) := by
  induction afids generalizing array with
  | nil => simp
  | cons afid rest ih =>
    rw [List.foldl_cons, ih, mark_test array afid other valid, ← Bool.or_assoc]
    congr 1
    rw [Bool.eq_iff_iff, Bool.or_eq_true, decide_eq_true_iff, decide_eq_true_iff, decide_eq_true_iff,
      List.mem_cons, or_comm]

end AppManager.Units
