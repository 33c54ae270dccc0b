import Mathlib.Data.Nat.Find

/-! Runs that are given fuel: what they end with does not depend on it, once there is enough. -/

namespace AppManager.Lib

variable {Result Value : Type}

/-- The run gives this result, whatever fuel it has above some amount. -/
def Settles (run : Nat → Option Result) (result : Result) : Prop :=
  ∃ enough, ∀ fuel, enough ≤ fuel → run fuel = some result

namespace Settles

theorem known (result : Result) : Settles (fun _ => some result) result := ⟨0, fun _ _ => rfl⟩

/-- One step takes one unit of fuel. -/
theorem step {run rest : Nat → Option Result} {result : Result} (unfolds : ∀ fuel, run (fuel + 1) = rest fuel)
    (ends : Settles rest result) : Settles run result := by
  obtain ⟨enough, same⟩ := ends
  refine ⟨enough + 1, fun fuel least => ?_⟩
  cases fuel with
  | zero => exact absurd least (Nat.not_succ_le_zero enough)
  | succ fuel =>
    rw [unfolds]
    exact same fuel (Nat.le_of_succ_le_succ least)

/-- Two runs one after the other share their fuel. -/
theorem after {run : Nat → Option Value} {whole rest : Nat → Option Result} {value : Value} {result : Result}
    (first : Settles run value) (unfolds : ∀ fuel, run fuel = some value → whole fuel = rest fuel)
    (second : Settles rest result) : Settles whole result := by
  obtain ⟨enough, same⟩ := first
  obtain ⟨enough', same'⟩ := second
  refine ⟨max enough enough', fun fuel least => ?_⟩
  rw [unfolds fuel (same fuel (Nat.le_trans (Nat.le_max_left _ _) least))]
  exact same' fuel (Nat.le_trans (Nat.le_max_right _ _) least)

theorem map {run : Nat → Option Value} {value : Value} (ends : Settles run value) (change : Value → Result) :
    Settles (fun fuel => (run fuel).map change) (change value) := by
  obtain ⟨enough, same⟩ := ends
  exact ⟨enough, fun fuel least => congrArg (Option.map change) (same fuel least)⟩

theorem bind {run : Nat → Option Value} {value : Value} {next : Nat → Value → Option Result} {result : Result}
    (first : Settles run value) (second : Settles (fun fuel => next fuel value) result) :
    Settles (fun fuel => (run fuel).bind (next fuel)) result :=
  first.after (fun fuel same => congrArg (Option.bind · (next fuel)) same) second

theorem unique {run : Nat → Option Result} {one other : Result} (first : Settles run one) (second : Settles run other) :
    one = other := by
  obtain ⟨enough, same⟩ := first
  obtain ⟨enough', same'⟩ := second
  have both := (same _ (Nat.le_max_left enough enough')).symm.trans (same' _ (Nat.le_max_right enough enough'))
  exact Option.some.inj both

theorem ends {run : Nat → Option Result} {result : Result} (settles : Settles run result) :
    ∃ fuel, (run fuel).isSome = true := by
  obtain ⟨enough, same⟩ := settles
  exact ⟨enough, by rw [same enough (Nat.le_refl enough)]; rfl⟩

end Settles

/-- One more unit of fuel does not change what a run gives. -/
def Grows (run : Nat → Option Result) : Prop := ∀ fuel result, run fuel = some result → run (fuel + 1) = some result

/-- What a run gives, with the least fuel that makes it end. -/
def outcome (run : Nat → Option Result) (ends : ∃ fuel, (run fuel).isSome = true) : Result :=
  (run (Nat.find ends)).get (Nat.find_spec ends)

namespace Grows

theorem known (result : Option Result) : Grows fun _ => result := fun _ _ same => same

theorem bind {run : Nat → Option Value} {next : Nat → Value → Option Result} (first : Grows run)
    (second : ∀ value, Grows (next · value)) : Grows fun fuel => (run fuel).bind (next fuel) := by
  intro fuel result same
  obtain ⟨value, here, rest⟩ := Option.bind_eq_some_iff.mp same
  exact Option.bind_eq_some_iff.mpr ⟨value, first fuel value here, second value fuel result rest⟩

theorem map {run : Nat → Option Value} (first : Grows run) (change : Value → Result) :
    Grows fun fuel => (run fuel).map change := by
  intro fuel result same
  obtain ⟨value, here, made⟩ := Option.map_eq_some_iff.mp same
  exact Option.map_eq_some_iff.mpr ⟨value, first fuel value here, made⟩

theorem settles {run : Nat → Option Result} (grows : Grows run) {fuel : Nat} {result : Result}
    (gives : run fuel = some result) : Settles run result := by
  refine ⟨fuel, fun more least => ?_⟩
  induction least with
  | refl => exact gives
  | step _ ih => exact grows _ result ih

theorem outcome_eq {run : Nat → Option Result} (grows : Grows run) {result : Result} (settles : Settles run result)
    (ends : ∃ fuel, (run fuel).isSome = true) : outcome run ends = result :=
  (grows.settles (Option.some_get (Nat.find_spec ends)).symm).unique settles

end Grows
end AppManager.Lib
