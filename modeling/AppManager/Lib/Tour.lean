import Mathlib.Data.List.Basic

/-! Iterations with a callback that stop at the first answer that is not zero. A
tour is the list of the items to give to the callback, and tells whether these are
all of them or whether the iteration then fails by itself. -/

namespace AppManager.Lib

variable {Item State : Type}

/-- Gives the items in order, until an answer is not zero. -/
def iterate (callback : State → Item → Int × State) : List Item → State → Int × State
  | [], state => (0, state)
  | item :: rest, state =>
    if (callback state item).1 = 0 then iterate callback rest (callback state item).2
    else callback state item

theorem iterate_append (callback : State → Item → Int × State) (first second : List Item)
    (state : State) : iterate callback (first ++ second) state =
      if (iterate callback first state).1 = 0 then
        iterate callback second (iterate callback first state).2
      else iterate callback first state := by
  induction first generalizing state with
  | nil => simp [iterate]
  | cons item rest ih =>
    by_cases goes : (callback state item).1 = 0
    · simp only [List.cons_append, iterate, if_pos goes, ih]
    · simp only [List.cons_append, iterate, if_neg goes]

theorem iterate_optional (callback : State → Item → Int × State) (given : Bool) (item : Item)
    (state : State) : iterate callback (if given then [item] else []) state =
      if given then callback state item else (0, state) := by
  cases given with
  | false => rfl
  | true =>
    simp only [↓reduceIte, iterate]
    split
    · next zero => exact Prod.ext zero.symm rfl
    · rfl

/-- A callback that always answers zero folds over the items. -/
theorem iterate_eq_foldl (step : State → Item → State) (items : List Item) (state : State) :
    iterate (fun state item => (0, step state item)) items state = (0, items.foldl step state) := by
  induction items generalizing state with
  | nil => rfl
  | cons item rest ih => simp only [iterate, ↓reduceIte, ih, List.foldl_cons]

structure Tour (Item : Type) where
  items : List Item
  completed : Bool

namespace Tour

def of (items : List Item) : Tour Item := ⟨items, true⟩

/-- The items of the second tour come only after a first one that completes. -/
def andThen (first second : Tour Item) : Tour Item :=
  if first.completed then ⟨first.items ++ second.items, second.completed⟩ else first

def run (callback : State → Item → Int × State) (failure : Int) (tour : Tour Item)
    (state : State) : Int × State :=
  let result := iterate callback tour.items state
  if result.1 = 0 then (if tour.completed then 0 else failure, result.2) else result

theorem run_of (callback : State → Item → Int × State) (failure : Int) (items : List Item)
    (state : State) : (of items).run callback failure state = iterate callback items state := by
  simp only [run, of, ↓reduceIte]
  split
  · next zero => exact Prod.ext zero.symm rfl
  · rfl

theorem run_andThen (callback : State → Item → Int × State) (failure : Int) (fails : failure ≠ 0)
    (first second : Tour Item) (state : State) :
    (first.andThen second).run callback failure state =
      if (first.run callback failure state).1 = 0 then
        second.run callback failure (first.run callback failure state).2
      else first.run callback failure state := by
  unfold andThen run
  by_cases done : first.completed
  · by_cases goes : (iterate callback first.items state).1 = 0
    · simp [done, goes, iterate_append]
    · simp [done, goes, iterate_append]
  · by_cases goes : (iterate callback first.items state).1 = 0
    · simp [done, goes, fails]
    · simp [done, goes]

/-- The tour gives the first items of a list, and all of them when it completes. -/
def Follows (tour : Tour Item) (items : List Item) : Prop :=
  tour.items <+: items ∧ (tour.completed = true → tour.items = items)

theorem follows_of (items : List Item) : (of items).Follows items :=
  ⟨List.prefix_refl items, fun _ => rfl⟩

theorem eq_of_completed {tour : Tour Item} {items : List Item} (follows : tour.Follows items)
    (completed : tour.completed = true) : tour = of items := by
  cases tour with
  | mk own done =>
    have same : own = items := follows.2 completed
    rw [same, of, show done = true from completed]

theorem follows_andThen {first second : Tour Item} {items rest : List Item}
    (start : first.Follows items) (next : second.Follows rest) :
    (first.andThen second).Follows (items ++ rest) := by
  unfold andThen
  split
  · next done =>
    rw [Follows, start.2 done]
    refine ⟨?_, fun complete => by rw [next.2 complete]⟩
    exact (List.prefix_append_right_inj items).mpr next.1
  · next stopped =>
    exact ⟨start.1.trans (List.prefix_append items rest), fun complete => absurd complete stopped⟩

theorem mem_andThen {first second : Tour Item} {item : Item}
    (member : item ∈ (first.andThen second).items) : item ∈ first.items ∨ item ∈ second.items := by
  unfold andThen at member
  split at member
  · exact List.mem_append.mp member
  · exact Or.inl member

theorem completed_andThen (first second : Tour Item) :
    (first.andThen second).completed = (first.completed && second.completed) := by
  unfold andThen
  cases done : first.completed <;> simp [done]

end Tour
end AppManager.Lib
