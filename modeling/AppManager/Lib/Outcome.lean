import AppManager.Lib.Tour

/-! Conditions on results that can be faults, and their rules along sequences,
folds and iterations. -/

namespace AppManager.Lib

variable {Fault Value Result Item State : Type}

/-- The value meets the first condition, or the fault meets the second one. -/
def Meets (good : Value → Prop) (bad : Fault → Prop) : Except Fault Value → Prop
  | .ok value => good value
  | .error fault => bad fault

namespace Meets

variable {good good' : Value → Prop} {bad bad' : Fault → Prop}

theorem mono {result : Except Fault Value} (meets : Meets good bad result)
    (values : ∀ value, good value → good' value) (faults : ∀ fault, bad fault → bad' fault) :
    Meets good' bad' result := by
  cases result with
  | ok value => exact values value meets
  | error fault => exact faults fault meets

theorem and {result : Except Fault Value} (first : Meets good bad result) (second : Meets good' bad' result) :
    Meets (fun value => good value ∧ good' value) (fun fault => bad fault ∧ bad' fault) result := by
  cases result with
  | ok value => exact ⟨first, second⟩
  | error fault => exact ⟨first, second⟩

theorem bind {result : Except Fault Value} {next : Value → Except Fault Result} {goal : Result → Prop}
    (meets : Meets good bad result) (rest : ∀ value, good value → Meets goal bad (next value)) :
    Meets goal bad (result >>= next) := by
  cases result with
  | ok value => exact rest value meets
  | error fault => exact meets

theorem map {result : Except Fault Value} {make : Value → Result} {goal : Result → Prop} (meets : Meets good bad result)
    (made : ∀ value, good value → goal (make value)) : Meets goal bad (result.map make) := by
  cases result with
  | ok value => exact made value meets
  | error fault => exact meets

theorem any (result : Except Fault Value) : Meets (fun _ => True) (fun _ => True) result := by
  cases result <;> trivial

theorem foldlM {step : Value → Item → Except Fault Value} {items : List Item} {value : Value}
    (start : good value) (each : ∀ value, good value → ∀ item ∈ items, Meets good bad (step value item)) :
    Meets good bad (items.foldlM step value) := by
  induction items generalizing value with
  | nil => exact start
  | cons item rest ih =>
    rw [List.foldlM_cons]
    refine Meets.bind (each value start item (by simp)) fun next safe => ?_
    exact ih safe fun value safe item member => each value safe item (List.mem_cons_of_mem _ member)

end Meets

theorem bind_ok {result : Except Fault Value} {next : Value → Except Fault Result} {final : Result}
    (done : result >>= next = .ok final) : ∃ value, result = .ok value ∧ next value = .ok final := by
  cases result with
  | error fault => cases done
  | ok value => exact ⟨value, rfl, done⟩

theorem foldl_makes (holds : State → Prop) {step : State → Item → State} {items : List Item} {item : Item}
    (member : item ∈ items) (makes : ∀ state, holds (step state item))
    (keeps : ∀ state, holds state → ∀ item, holds (step state item)) (state : State) :
    holds (items.foldl step state) := by
  obtain ⟨before, after, rfl⟩ := List.append_of_mem member
  rw [List.foldl_append, List.foldl_cons]
  exact List.foldlRecOn after step (makes _) fun state' kept item' _ => keeps state' kept item'

theorem foldl_agree (holds : State → Prop) {step step' : State → Item → State} {items : List Item}
    (each : ∀ state, holds state → ∀ item ∈ items, step' state item = step state item ∧ holds (step state item))
    (state : State) (start : holds state) :
    items.foldl step' state = items.foldl step state ∧ holds (items.foldl step state) := by
  induction items generalizing state with
  | nil => exact ⟨rfl, start⟩
  | cons item rest ih =>
    obtain ⟨same, kept⟩ := each state start item (by simp)
    rw [List.foldl_cons, List.foldl_cons, same]
    exact ih (fun state safe item member => each state safe item (List.mem_cons_of_mem _ member)) _ kept

theorem iterate_invariant (inv : State → Prop) {callback : State → Item → Int × State}
    {items : List Item} {state : State} (start : inv state)
    (each : ∀ state, inv state → ∀ item ∈ items, inv (callback state item).2) :
    inv (iterate callback items state).2 := by
  induction items generalizing state with
  | nil => exact start
  | cons item rest ih =>
    have next := each state start item (by simp)
    unfold iterate
    split
    · exact ih next fun state safe item member => each state safe item (List.mem_cons_of_mem _ member)
    · exact next

theorem Tour.run_invariant (inv : State → Prop) {callback : State → Item → Int × State} {failure : Int}
    {tour : Tour Item} {state : State} (start : inv state)
    (each : ∀ state, inv state → ∀ item ∈ tour.items, inv (callback state item).2) :
    inv (tour.run callback failure state).2 := by
  have whole := iterate_invariant inv start each
  simp only [Tour.run]
  split
  · exact whole
  · exact whole

end AppManager.Lib
