import Mathlib.Data.Fintype.Card
import Mathlib.Logic.Relation

/-! Walks of a partial successor function. A search that always follows the first
candidate is such a walk, and over a finite set it ends exactly when it meets no
cycle. -/

namespace AppManager.Lib.Walk
open Relation

variable {α : Type*} {next : α → Option α}

def Step (next : α → Option α) (a b : α) : Prop := next a = some b

/-- The walk from this element meets an element without successor. -/
inductive Halts (next : α → Option α) : α → Prop
  | stop {a : α} (last : next a = none) : Halts next a
  | move {a b : α} (step : next a = some b) (rest : Halts next b) : Halts next a

theorem founded_of_acyclic {β : Type*} [Finite β] {relation : β → β → Prop}
    (acyclic : ∀ b, ¬TransGen relation b b) : WellFounded fun b a => TransGen relation a b :=
  have _irreflexive : Std.Irrefl fun b a => TransGen relation a b := ⟨acyclic⟩
  have _transitive : IsTrans β fun b a => TransGen relation a b := ⟨fun _ _ _ first second => second.trans first⟩
  Finite.wellFounded_of_trans_of_irrefl _

theorem halts_of_step {a b : α} (step : Step next a b) : Halts next a ↔ Halts next b := by
  constructor
  · intro halts
    cases halts with
    | stop last => simp [Step, last] at step
    | move first rest =>
      have same := Option.some.inj (first.symm.trans step)
      exact same ▸ rest
  · exact Halts.move step

theorem halts_of_reach {a b : α} (reach : ReflTransGen (Step next) a b) :
    Halts next a ↔ Halts next b := by
  induction reach with
  | refl => exact Iff.rfl
  | tail _ step ih => exact ih.trans (halts_of_step step)

theorem cycle_of_step {a b : α} (step : Step next a b) (cycle : TransGen (Step next) a a) :
    TransGen (Step next) b b := by
  obtain ⟨c, first, rest⟩ := TransGen.head'_iff.mp cycle
  have same : c = b := Option.some.inj (first.symm.trans step)
  subst c
  exact TransGen.tail' rest step

theorem not_halts_of_cycle {a : α} (cycle : TransGen (Step next) a a) : ¬Halts next a := by
  intro halts
  induction halts with
  | stop last =>
    obtain ⟨c, first, _⟩ := TransGen.head'_iff.mp cycle
    simp [Step, last] at first
  | move step _ ih => exact ih (cycle_of_step step cycle)

theorem halts_iff_no_cycle [Finite α] (start : α) :
    Halts next start ↔
      ∀ a, ReflTransGen (Step next) start a → ¬TransGen (Step next) a a := by
  constructor
  · intro halts a reach cycle
    exact not_halts_of_cycle cycle ((halts_of_reach reach).mp halts)
  · intro acyclic
    -- Only moves inside the reachable part matter: there the converse of a move is well founded.
    let moves : α → α → Prop := fun a b => ReflTransGen (Step next) start a ∧ Step next a b
    have forward : ∀ {a b}, TransGen moves a b →
        ReflTransGen (Step next) start a ∧ TransGen (Step next) a b := by
      intro a b moved
      induction moved with
      | single move => exact ⟨move.1, TransGen.single move.2⟩
      | tail _ move ih => exact ⟨ih.1, ih.2.tail move.2⟩
    have founded : WellFounded fun b a => TransGen moves a b :=
      founded_of_acyclic fun a cycle => acyclic a (forward cycle).1 (forward cycle).2
    have ends : ∀ a, ReflTransGen (Step next) start a → Halts next a := by
      intro a
      induction a using founded.induction with
      | _ a ih =>
        intro reach
        cases found : next a with
        | none => exact Halts.stop found
        | some b => exact Halts.move found (ih b (TransGen.single ⟨reach, found⟩) (reach.tail found))
    exact ends start ReflTransGen.refl

theorem halts_of_measure (measure : α → Nat) (smaller : ∀ a b, next a = some b → measure b < measure a) (start : α) :
    Halts next start := by
  induction size : measure start using Nat.strong_induction_on generalizing start with
  | _ size ih =>
    cases found : next start with
    | none => exact Halts.stop found
    | some b => exact Halts.move found (ih (measure b) (size ▸ smaller start b found) b rfl)

theorem reach_from_end {a b : α} (last : next a = none) (reach : ReflTransGen (Step next) a b) :
    b = a := by
  cases reach using ReflTransGen.head_induction_on with
  | refl => rfl
  | head step _ => simp [Step, last] at step

end AppManager.Lib.Walk
