import Mathlib.Algebra.Order.Group.Int
import Mathlib.Data.List.Basic

/-! Moves in a tree of names: the places that they lead to, and whether they stay below
the one where they start. -/

namespace AppManager.Lib

inductive Move (Name : Type*) where
  | stay
  | up
  | down (name : Name)
  deriving DecidableEq, Repr

namespace Move
variable {Name : Type*}

def rise : Move Name → Int
  | stay => 0
  | up => -1
  | down _ => 1

/-- A place is given by the names that lead to it from the top, above which there is nothing. -/
def apply (place : List Name) : Move Name → List Name
  | stay => place
  | up => place.dropLast
  | down name => place ++ [name]

def walk (place : List Name) (moves : List (Move Name)) : List Name := moves.foldl apply place

def depth : List (Move Name) → Int
  | [] => 0
  | move :: rest => move.rise + depth rest

/-- At no time do the moves lead above their start. -/
def Within (moves : List (Move Name)) : Prop := ∀ first, first <+: moves → 0 ≤ depth first

/-- The same, for moves that go on at some depth. -/
def WithinFrom (level : Int) : List (Move Name) → Prop
  | [] => 0 ≤ level
  | move :: rest => 0 ≤ level ∧ WithinFrom (level + move.rise) rest

theorem WithinFrom.nonneg {level : Int} {moves : List (Move Name)} (within : WithinFrom level moves) : 0 ≤ level := by
  cases moves with
  | nil => exact within
  | cons move rest => exact within.1

theorem withinFrom_iff (level : Int) (moves : List (Move Name)) :
    WithinFrom level moves ↔ ∀ first, first <+: moves → 0 ≤ level + depth first := by
  induction moves generalizing level with
  | nil =>
    constructor
    · intro within first empty
      rw [List.prefix_nil.mp empty]
      exact (add_zero level).symm ▸ within
    · intro within
      exact add_zero level ▸ within [] List.nil_prefix
  | cons move rest ih =>
    rw [WithinFrom, ih]
    constructor
    · rintro ⟨nonneg, later⟩ first start
      rcases List.prefix_cons_iff.mp start with rfl | ⟨tail, rfl, short⟩
      · exact (add_zero level).symm ▸ nonneg
      · rw [depth, ← add_assoc]
        exact later tail short
    · intro within
      refine ⟨add_zero level ▸ within [] List.nil_prefix, fun first short => ?_⟩
      rw [add_assoc]
      exact within (move :: first) (List.prefix_cons_iff.mpr (Or.inr ⟨first, rfl, short⟩))

theorem within_iff (moves : List (Move Name)) : Within moves ↔ WithinFrom 0 moves := by
  rw [withinFrom_iff, Within]
  simp only [zero_add]

instance decidableWithinFrom (level : Int) : (moves : List (Move Name)) → Decidable (WithinFrom level moves)
  | [] => inferInstanceAs (Decidable (0 ≤ level))
  | move :: rest =>
    have := decidableWithinFrom (level + move.rise) rest
    inferInstanceAs (Decidable (_ ∧ _))

instance (moves : List (Move Name)) : Decidable (Within moves) := decidable_of_iff _ (within_iff moves).symm

theorem walk_below (root below : List Name) (moves : List (Move Name)) (within : WithinFrom below.length moves) :
    root <+: walk (root ++ below) moves := by
  induction moves generalizing below with
  | nil => exact List.prefix_append root below
  | cons move rest ih =>
    obtain ⟨-, later⟩ := within
    cases move with
    | stay =>
      apply ih below
      rwa [rise, add_zero] at later
    | up =>
      have inside := later.nonneg
      rw [rise] at inside later
      have proper : below ≠ [] := by
        rintro rfl
        simp at inside
      have shorter : (below.dropLast.length : Int) = below.length + -1 := by
        rw [List.length_dropLast]
        have := List.length_pos_iff.mpr proper
        omega
      have moved := ih below.dropLast (by rwa [shorter])
      rwa [← List.dropLast_append_of_ne_nil proper] at moved
    | down name =>
      have moved := ih (below ++ [name]) (by
        rw [List.length_append, List.length_singleton]
        exact_mod_cast later)
      rwa [← List.append_assoc] at moved

theorem Within.below {moves first : List (Move Name)} (within : Within moves) (start : first <+: moves)
    (root : List Name) : root <+: walk root first := by
  have part : Within first := fun part short => within part (short.trans start)
  have led := walk_below root [] first ((within_iff first).mp part)
  rwa [List.append_nil] at led

end Move
end AppManager.Lib
