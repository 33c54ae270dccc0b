import AppManager.Lib.Libc
import AppManager.Lib.Lines
import AppManager.Lib.Moves

/-! The paths that are looked for in a widget. A path is checked byte by byte, and what
is accepted leads to nothing above the root of the widget. -/

namespace AppManager.Wgtpkg
open AppManager.Lib AppManager.Lib.Libc

def slash : Byte := '/'.toUInt8
def dot : Byte := '.'.toUInt8

/-- The default case, where no other `/` nor the end was read. -/
def skipName (l : Int) (rest : Bytes) : Int × Bytes :=
  (if 0 ≤ l then l + 1 else l, rest.dropWhile (· != slash))

/-- The switch on one byte, with the bytes that its cases read after it: the depth and what is left. -/
def switchOn (l : Int) (byte : Byte) (rest : Bytes) : Int × Bytes :=
  if byte = dot then
    match rest with
    | [] => (l, [])
    | second :: rest =>
      if second = slash then (l, rest)
      else if second = dot then
        match rest with
        | [] => (l - 1, [])
        | third :: rest => if third = slash then (l - 1, rest) else skipName l rest
      else skipName l rest
  else if byte = slash then (l, rest)
  else skipName l rest

theorem switchOn_shorter (l : Int) (byte : Byte) (rest : Bytes) : (switchOn l byte rest).2.length ≤ rest.length := by
  have dropped (bytes : Bytes) : (bytes.dropWhile (· != slash)).length ≤ bytes.length :=
    (List.dropWhile_suffix _).length_le
  fun_cases switchOn <;> simp only [skipName, List.length_cons, List.length_nil] <;> grind

def inspect (l : Int) : Bytes → Int
  | [] => l
  | byte :: rest => inspect (switchOn l byte rest).1 (switchOn l byte rest).2
termination_by path => path.length
decreasing_by exact Nat.lt_succ_of_le (switchOn_shorter l byte rest)

def validsubpath (subpath : Bytes) : Int :=
  if subpath.head? = some slash then 0 else if 0 ≤ inspect 0 subpath then 1 else 0

def normalsubpath (subpath : Bytes) : Option Bytes :=
  if validsubpath (subpath.dropWhile (· == slash)) ≠ 0 then some (subpath.dropWhile (· == slash)) else none

structure Wgt where
  rootfd : Int
  locales : List Bytes

inductive AtCall where
  | faccessat (dirfd : Int) (path : Bytes) (mode flags : Nat)
  | openat (dirfd : Int) (path : Bytes) (flags : Nat)

def AtCall.dirfd : AtCall → Int
  | faccessat dirfd _ _ _ => dirfd
  | openat dirfd _ _ => dirfd

def AtCall.path : AtCall → Bytes
  | faccessat _ path _ _ => path
  | openat _ path _ => path

/-- What a function returns, the error it sets, and the calls it makes. -/
structure Answer where
  rc : Int
  errno : Option Int
  calls : List AtCall

def F_OK : Nat := 0
def O_RDONLY : Nat := 0

section
variable (kernel : AtCall → Int) (wgt : Wgt) (filename : Bytes)

/-- Without result, the assertion that the widget is connected fails. -/
def wgtHas : Option Answer :=
  if wgt.rootfd = -1 then none
  else match normalsubpath filename with
    | none => some ⟨-1, some EINVAL, []⟩
    | some path =>
      let call := .faccessat wgt.rootfd path F_OK 0
      some ⟨if kernel call = 0 then 1 else 0, none, [call]⟩

def wgtOpenRead : Option Answer :=
  if wgt.rootfd = -1 then none
  else match normalsubpath filename with
    | none => some ⟨-1, some EINVAL, []⟩
    | some path =>
      let call := .openat wgt.rootfd path O_RDONLY
      some ⟨kernel call, none, [call]⟩

end

/-- What a component does to the place where it is looked for, when no link is on the way. -/
def componentMove (component : Bytes) : Move Bytes :=
  if component = [] ∨ component = [dot] then .stay
  else if component = [dot, dot] then .up
  else .down component

def moves (path : Bytes) : List (Move Bytes) := (path.splitOn slash).map componentMove

def Absolute (path : Bytes) : Prop := path.head? = some slash

instance (path : Bytes) : Decidable (Absolute path) := inferInstanceAs (Decidable (_ = _))

/-- The path stays below the place from which it is looked for. -/
def Confined (path : Bytes) : Prop := ¬Absolute path ∧ Move.Within (moves path)

instance (path : Bytes) : Decidable (Confined path) := inferInstanceAs (Decidable (_ ∧ _))

/-- The places that the search of a path from a directory goes through, when no link is on the way. -/
def Passes (directory : List Bytes) (path : Bytes) (place : List Bytes) : Prop :=
  ∃ first, first <+: moves path ∧ place = Move.walk (if Absolute path then [] else directory) first

def depthAfter (l : Int) : Move Bytes → Int
  | .stay => l
  | .up => l - 1
  | .down _ => if 0 ≤ l then l + 1 else l

theorem skipName_name (l : Int) (name after component : Bytes) (single : slash ∉ name)
    (stops : after = [] ∨ ∃ rest, after = slash :: rest) :
    skipName l (name ++ after) = (depthAfter l (.down component), after) := by
  rcases stops with rfl | ⟨rest, rfl⟩
  · rw [List.append_nil, skipName, List.dropWhile_eq_nil_iff.mpr]
    · rfl
    · intro byte member
      rw [bne_iff_ne]
      exact fun same => single (same ▸ member)
  · rw [skipName, dropWhile_stop slash name rest single]
    rfl

theorem inspect_slash (l : Int) (rest : Bytes) : inspect l (slash :: rest) = inspect l rest := by
  rw [inspect, switchOn.eq_def, if_neg (by decide), if_pos rfl]

theorem inspect_name (l : Int) (name after : Bytes) (single : slash ∉ name)
    (stops : after = [] ∨ ∃ rest, after = slash :: rest) :
    inspect l (name ++ after) = inspect (depthAfter l (componentMove name)) after := by
  cases name with
  | nil => rfl
  | cons first tail =>
    obtain ⟨plain, single'⟩ := not_or.mp (List.mem_cons.not.mp single)
    rw [List.cons_append, inspect, switchOn.eq_def]
    by_cases dotted : first = dot
    · subst dotted
      rw [if_pos rfl]
      cases tail with
      | nil =>
        rcases stops with rfl | ⟨rest, rfl⟩
        · rfl
        · rw [inspect_slash]
          rfl
      | cons second tail =>
        obtain ⟨plain', single''⟩ := not_or.mp (List.mem_cons.not.mp single')
        simp only [List.cons_append]
        rw [if_neg (Ne.symm plain')]
        by_cases dotted' : second = dot
        · subst dotted'
          rw [if_pos rfl]
          cases tail with
          | nil =>
            rcases stops with rfl | ⟨rest, rfl⟩
            · rfl
            · rw [inspect_slash]
              rfl
          | cons third tail =>
            obtain ⟨plain'', single'''⟩ := not_or.mp (List.mem_cons.not.mp single'')
            simp only [List.cons_append]
            rw [if_neg (Ne.symm plain''), skipName_name l tail after (dot :: dot :: third :: tail) single''' stops,
              componentMove, if_neg (by simp), if_neg (by simp)]
        · rw [if_neg dotted', skipName_name l tail after (dot :: second :: tail) single'' stops, componentMove,
            if_neg (by simp), if_neg (by simp [dotted'])]
    · rw [if_neg dotted, if_neg (Ne.symm plain), skipName_name l tail after (first :: tail) single' stops,
        componentMove, if_neg (by simp [dotted]), if_neg (by simp [dotted])]

theorem depthAfter_eq {l : Int} (nonneg : 0 ≤ l) (move : Move Bytes) : depthAfter l move = l + move.rise := by
  cases move with
  | stay => exact (add_zero l).symm
  | up => rfl
  | down name => exact if_pos nonneg

theorem depthAfter_negative {l : Int} (negative : l < 0) (move : Move Bytes) : depthAfter l move < 0 := by
  cases move with
  | stay => exact negative
  | up => exact (sub_one_lt l).trans negative
  | down name => rwa [depthAfter, if_neg (not_le.mpr negative)]

theorem inspect_nonneg (l : Int) (path : Bytes) : 0 ≤ inspect l path ↔ Move.WithinFrom l (moves path) := by
  have step (level : Int) (move : Move Bytes) (rest : List (Move Bytes)) :
      Move.WithinFrom (depthAfter level move) rest ↔ Move.WithinFrom level (move :: rest) := by
    rw [Move.WithinFrom]
    by_cases nonneg : 0 ≤ level
    · rw [depthAfter_eq nonneg, and_iff_right nonneg]
    · refine iff_of_false (fun within => ?_) fun both => nonneg both.1
      exact absurd within.nonneg (not_le.mpr (depthAfter_negative (not_le.mp nonneg) move))
  induction path using lines_induction slash generalizing l with
  | unfinished name single =>
    have run := inspect_name l name [] single (Or.inl rfl)
    rw [List.append_nil] at run
    rw [run, moves, List.splitOn_eq_singleton single, List.map_singleton, ← step, inspect]
    rfl
  | line name rest single ih =>
    rw [inspect_name l name (slash :: rest) single (Or.inr ⟨rest, rfl⟩), inspect_slash, moves,
      List.splitOn_append_cons_self_of_not_mem single, List.map_cons]
    exact (ih (depthAfter l (componentMove name))).trans (step l (componentMove name) (moves rest))

theorem validsubpath_iff (subpath : Bytes) : validsubpath subpath = 1 ↔ Confined subpath := by
  rw [Confined, Move.within_iff, ← inspect_nonneg, validsubpath, Absolute]
  split
  · next absolute => simp [absolute]
  · next relative =>
    split
    · next nonneg => simp [relative, nonneg]
    · next negative => simp [negative]

example : validsubpath (ascii "./..a/././..b/..c/./.././.././../.") = 1 := (validsubpath_iff _).mpr (by decide)

theorem Confined.passes {path : Bytes} (confined : Confined path) (directory place : List Bytes)
    (passes : Passes directory path place) : directory <+: place := by
  obtain ⟨first, start, rfl⟩ := passes
  rw [if_neg confined.1]
  exact confined.2.below start directory

theorem normalsubpath_confined {filename path : Bytes} (given : normalsubpath filename = some path) :
    Confined path := by
  unfold normalsubpath at given
  split at given
  · next valid =>
    rw [Option.some.injEq] at given
    rw [← validsubpath_iff, ← given]
    unfold validsubpath at valid ⊢
    split at valid
    · exact absurd rfl valid
    · next relative =>
      rw [if_neg relative]
      split at valid
      · next nonneg => exact if_pos nonneg
      · exact absurd rfl valid
  · cases given

end AppManager.Wgtpkg
