import AppManager.Lib.Fuel
import Mathlib.Logic.Relation

/-! Machines whose turns end, go on, or wait for what another run of the machine gives. Only the
calls that wait for each other without end can keep such a machine from a result, when each
level is founded. -/

namespace AppManager.Lib.Calls
open Relation

variable {State Value Error : Type}

inductive Turn (State Value Error : Type) where
  | ended (result : Except Error Value)
  | goes (next : State)
  | calls (callee : State) (back : Value → State)

/-- A computation that goes on after another one, when this has no error. -/
def after {First Second : Type} (first : Option (Except Error First))
    (second : First → Option (Except Error Second)) : Option (Except Error Second) :=
  match first with
  | none => none
  | some (.error error) => some (.error error)
  | some (.ok value) => second value

/-- A computation for each item, one after the other. -/
def each {Item : Type} (body : Item → Value → Option (Except Error Value)) :
    List Item → Value → Option (Except Error Value)
  | [], value => some (.ok value)
  | item :: rest, value => after (body item value) (each body rest)

theorem after_ok {Second : Type} {first : Option (Except Error Value)} {second : Value → Option (Except Error Second)}
    {result : Second} (gives : after first second = some (.ok result)) :
    ∃ value, first = some (.ok value) ∧ second value = some (.ok result) := by
  cases first with
  | none => cases gives
  | some outcome =>
    cases outcome with
    | error error => cases gives
    | ok value => exact ⟨value, rfl, gives⟩

theorem after_some {Second : Type} {first : Option (Except Error Value)} {second : Value → Option (Except Error Second)}
    {result : Except Error Second} (gives : after first second = some result) : ∃ outcome, first = some outcome := by
  cases first with
  | none => cases gives
  | some outcome => exact ⟨outcome, rfl⟩

theorem after_assoc {Second Third : Type} (first : Option (Except Error Value))
    (second : Value → Option (Except Error Second)) (third : Second → Option (Except Error Third)) :
    after (after first second) third = after first fun value => after (second value) third := by
  cases first with
  | none => rfl
  | some outcome => cases outcome <;> rfl

@[simp] theorem after_some_ok (first : Option (Except Error Value)) :
    after first (fun value => some (.ok value)) = first := by
  cases first with
  | none => rfl
  | some outcome => cases outcome <;> rfl

def run (turn : State → Turn State Value Error) : Nat → State → Option (Except Error Value)
  | 0, _ => none
  | fuel + 1, state =>
    match turn state with
    | .ended result => some result
    | .goes next => run turn fuel next
    | .calls callee back => after (run turn fuel callee) fun value => run turn fuel (back value)

variable {turn : State → Turn State Value Error}

theorem run_succ {fuel : Nat} {state : State} {result : Except Error Value} (gives : run turn fuel state = some result) :
    run turn (fuel + 1) state = some result := by
  induction fuel generalizing state result with
  | zero => cases gives
  | succ fuel ih =>
    rw [run] at gives ⊢
    cases here : turn state with
    | ended result' =>
      rw [here] at gives
      exact gives
    | goes next =>
      rw [here] at gives
      exact ih gives
    | calls callee back =>
      rw [here] at gives
      obtain ⟨outcome, called⟩ := after_some gives
      simp only [called] at gives
      simp only [ih called]
      cases outcome with
      | error error => exact gives
      | ok value => exact ih gives

theorem run_mono {fuel more : Nat} (least : fuel ≤ more) {state : State} {result : Except Error Value}
    (gives : run turn fuel state = some result) : run turn more state = some result := by
  induction least with
  | refl => exact gives
  | step _ ih => exact run_succ ih

def Gives (turn : State → Turn State Value Error) (state : State) (result : Except Error Value) : Prop :=
  ∃ fuel, run turn fuel state = some result

theorem gives_iff_settles {state : State} {result : Except Error Value} :
    Gives turn state result ↔ Settles (fun fuel => run turn fuel state) result := by
  constructor
  · intro ⟨fuel, gives⟩
    exact ⟨fuel, fun more least => run_mono least gives⟩
  · intro ⟨enough, gives⟩
    exact ⟨enough, gives enough (Nat.le_refl enough)⟩

theorem Gives.unique {state : State} {one other : Except Error Value} (first : Gives turn state one)
    (second : Gives turn state other) : one = other :=
  (gives_iff_settles.mp first).unique (gives_iff_settles.mp second)

theorem gives_ended {state : State} {result : Except Error Value} (ended : turn state = .ended result) :
    Gives turn state result := by
  refine ⟨1, ?_⟩
  rw [run, ended]

/-- A move of the machine, a whole call being one. -/
inductive Step (turn : State → Turn State Value Error) : State → State → Prop
  | goes {state next : State} (here : turn state = .goes next) : Step turn state next
  | back {state callee : State} {back : Value → State} {value : Value} (here : turn state = .calls callee back)
    (called : Gives turn callee (.ok value)) : Step turn state (back value)

abbrev Reaches (turn : State → Turn State Value Error) : State → State → Prop := ReflTransGen (Step turn)

/-- A run goes through the moves. -/
theorem Step.run {state next : State} (move : Step turn state next) {fuel : Nat} {result : Except Error Value}
    (gives : run turn fuel state = some result) : run turn fuel next = some result := by
  cases fuel with
  | zero => cases gives
  | succ fuel =>
    cases move with
    | goes here =>
      rw [Calls.run, here] at gives
      exact run_succ gives
    | back here called =>
      rw [Calls.run, here] at gives
      obtain ⟨outcome, known⟩ := after_some gives
      obtain rfl := Gives.unique ⟨fuel, known⟩ called
      simp only [known] at gives
      exact run_succ gives

theorem Step.gives {state next : State} (move : Step turn state next) {result : Except Error Value} :
    Gives turn state result ↔ Gives turn next result := by
  constructor
  · intro ⟨fuel, gives⟩
    exact ⟨fuel, move.run gives⟩
  · intro ⟨fuel, gives⟩
    cases move with
    | goes here =>
      refine ⟨fuel + 1, ?_⟩
      rw [Calls.run, here]
      exact gives
    | back here called =>
      obtain ⟨fuel', called⟩ := called
      refine ⟨max fuel fuel' + 1, ?_⟩
      rw [Calls.run, here]
      simp only [run_mono (Nat.le_max_right fuel fuel') called]
      exact run_mono (Nat.le_max_left fuel fuel') gives

theorem Reaches.run {state next : State} (moves : Reaches turn state next) {fuel : Nat}
    {result : Except Error Value} (gives : run turn fuel state = some result) : run turn fuel next = some result := by
  induction moves with
  | refl => exact gives
  | tail _ move ih => exact move.run ih

theorem Reaches.gives {state next : State} (moves : Reaches turn state next) {result : Except Error Value} :
    Gives turn state result ↔ Gives turn next result := by
  induction moves with
  | refl => exact Iff.rfl
  | tail _ move ih => exact ih.trans move.gives

theorem gives_of_callee {state callee : State} {back : Value → State} (here : turn state = .calls callee back)
    {error : Error} (called : Gives turn callee (.error error)) : Gives turn state (.error error) := by
  obtain ⟨fuel, called⟩ := called
  refine ⟨fuel + 1, ?_⟩
  rw [run, here]
  simp only [called]
  rfl

/-- The machine comes to a call of this callee. -/
def Waits (turn : State → Turn State Value Error) (state callee : State) : Prop :=
  ∃ caller back, Reaches turn state caller ∧ turn caller = .calls callee back

theorem Waits.of_reaches {state next callee : State} (moves : Reaches turn state next) (waits : Waits turn next callee) :
    Waits turn state callee := by
  obtain ⟨caller, back, later, here⟩ := waits
  exact ⟨caller, back, moves.trans later, here⟩

/-- A callee needs less fuel than what waits for it. -/
theorem Waits.run {state callee : State} (waits : Waits turn state callee) {fuel : Nat} {result : Except Error Value}
    (gives : run turn (fuel + 1) state = some result) : ∃ called, run turn fuel callee = some called := by
  obtain ⟨caller, back, moves, here⟩ := waits
  have later := moves.run gives
  rw [Calls.run, here] at later
  exact after_some later

theorem gives_or_waits {state : State} (founded : Acc (fun next state => Step turn state next) state) :
    (∃ result, Gives turn state result) ∨ ∃ callee, Waits turn state callee ∧ ¬∃ result, Gives turn callee result := by
  induction founded with
  | intro state _ ih =>
    have go {next : State} (move : Step turn state next) : (∃ result, Gives turn state result) ∨
        ∃ callee, Waits turn state callee ∧ ¬∃ result, Gives turn callee result := by
      rcases ih next move with ⟨result, gives⟩ | ⟨callee, waits, endless⟩
      · exact Or.inl ⟨result, move.gives.mpr gives⟩
      · exact Or.inr ⟨callee, waits.of_reaches (ReflTransGen.single move), endless⟩
    cases here : turn state with
    | ended result => exact Or.inl ⟨result, gives_ended here⟩
    | goes next => exact go (Step.goes here)
    | calls callee back =>
      by_cases ends : ∃ result, Gives turn callee result
      · obtain ⟨result, called⟩ := ends
        cases result with
        | error error => exact Or.inl ⟨.error error, gives_of_callee here called⟩
        | ok value => exact go (Step.back here called)
      · exact Or.inr ⟨callee, ⟨state, back, ReflTransGen.refl, here⟩, ends⟩

theorem founded_of_gives {state : State} {result : Except Error Value} (gives : Gives turn state result) :
    Acc (fun callee caller => Waits turn caller callee) state := by
  obtain ⟨fuel, gives⟩ := gives
  induction fuel generalizing state result with
  | zero => cases gives
  | succ fuel ih =>
    refine Acc.intro state fun callee waits => ?_
    obtain ⟨called, gives'⟩ := waits.run gives
    exact ih gives'

theorem gives_of_founded (Good : State → Prop)
    (levels : ∀ {state}, Good state → Acc (fun next state => Step turn state next) state)
    (calls : ∀ {state callee}, Good state → Waits turn state callee → Good callee) {state : State} (good : Good state)
    (founded : Acc (fun callee caller => Waits turn caller callee) state) : ∃ result, Gives turn state result := by
  induction founded with
  | intro state _ ih =>
    rcases gives_or_waits (levels good) with ends | ⟨callee, waits, endless⟩
    · exact ends
    · exact absurd (ih callee waits (calls good waits)) endless

end AppManager.Lib.Calls
