import Mathlib.Data.List.Basic

/-! A visit of the items of a list that are owned. Each of them is changed or dropped
by a function, that a state is handed along. -/

namespace AppManager.Lib

section
variable {Item State : Type} (own : Item → Bool) (act : Item → State → Option Item × State)

def visit : List Item → State → List Item × State
  | [], state => ([], state)
  | item :: rest, state =>
    if own item then
      let acted := act item state
      let visited := visit rest acted.2
      (acted.1.toList ++ visited.1, visited.2)
    else
      let visited := visit rest state
      (item :: visited.1, visited.2)

theorem visit_others (keeps : ∀ item state, own item = true → ∀ changed ∈ (act item state).1, own changed = true)
    (items : List Item) (state : State) :
    (visit own act items state).1.filter (fun item => !own item) = items.filter fun item => !own item := by
  induction items generalizing state with
  | nil => rfl
  | cons item rest ih =>
    rw [visit]
    by_cases owned : own item = true
    · have none : ((act item state).1.toList.filter fun item => !own item) = [] := by
        rw [List.filter_eq_nil_iff]
        intro changed member
        simp [keeps item state owned changed (Option.mem_toList.mp member)]
      rw [if_pos owned, List.filter_cons_of_neg (by simp [owned]), List.filter_append, ih, none, List.nil_append]
    · rw [if_neg owned, List.filter_cons_of_pos (by simp [owned]), List.filter_cons_of_pos (by simp [owned]), ih]

theorem visit_owned (keeps : ∀ item state, own item = true → ∀ changed ∈ (act item state).1, own changed = true)
    (items : List Item) (state : State) :
    (visit own act items state).1.filter own = (visit (fun _ => true) act (items.filter own) state).1 ∧
      (visit own act items state).2 = (visit (fun _ => true) act (items.filter own) state).2 := by
  induction items generalizing state with
  | nil => exact ⟨rfl, rfl⟩
  | cons item rest ih =>
    rw [visit]
    by_cases owned : own item = true
    · obtain ⟨kept, ended⟩ := ih (act item state).2
      have same : (act item state).1.toList.filter own = (act item state).1.toList := by
        rw [List.filter_eq_self]
        exact fun changed member => keeps item state owned changed (Option.mem_toList.mp member)
      rw [if_pos owned, List.filter_cons_of_pos owned, visit, if_pos rfl]
      exact ⟨by rw [List.filter_append, same, kept], ended⟩
    · rw [if_neg owned, List.filter_cons_of_neg owned, List.filter_cons_of_neg owned]
      exact ih state

end

section
variable {Item State : Type} (chosen : Item → Bool)

theorem visit_drop (handle : Item → State → State) (items : List Item) (state : State) :
    visit (fun _ => true) (fun item state => if chosen item then (none, handle item state) else (some item, state))
      items state =
        (items.filter fun item => !chosen item, (items.filter chosen).foldl (fun state item => handle item state) state) := by
  induction items generalizing state with
  | nil => rfl
  | cons item rest ih =>
    rw [visit, if_pos rfl]
    by_cases here : chosen item = true
    · simp only [here, if_true, ih, Option.toList_none, List.nil_append, Bool.not_true, List.filter_cons,
        Bool.false_eq_true, if_false, List.foldl_cons]
    · simp only [here, if_false, ih, Option.toList_some, List.singleton_append, List.filter_cons, Bool.false_eq_true,
        Bool.not_false, if_true]

theorem visit_map (change : State → Item → Item) (items : List Item) (state : State) :
    visit (fun _ => true) (fun item state => (some (change state item), state)) items state =
      (items.map (change state), state) := by
  induction items with
  | nil => rfl
  | cons item rest ih =>
    rw [visit, if_pos rfl]
    simp only [ih]
    rfl

end

section
variable {Item View : Type} (chosen : Item → Bool) (renumber : Nat → Item → Item)

/-- The numbering of the chosen items, from a count on. -/
def numbering (item : Item) (count : Nat) : Option Item × Nat :=
  if chosen item then (some (renumber (count + 1) item), count + 1) else (some item, count)

theorem numbering_count (items : List Item) (count : Nat) :
    (visit (fun _ => true) (numbering chosen renumber) items count).2 = count + (items.filter chosen).length := by
  induction items generalizing count with
  | nil => rfl
  | cons item rest ih =>
    rw [visit, if_pos rfl, numbering]
    by_cases here : chosen item = true
    · rw [if_pos here, List.filter_cons_of_pos here, List.length_cons]
      simp only [ih]
      omega
    · rw [if_neg here, List.filter_cons_of_neg here]
      exact ih count

theorem numbering_view (view : Item → View) (same : ∀ count item, view (renumber count item) = view item)
    (items : List Item) (count : Nat) :
    (visit (fun _ => true) (numbering chosen renumber) items count).1.map view = items.map view := by
  induction items generalizing count with
  | nil => rfl
  | cons item rest ih =>
    rw [visit, if_pos rfl, numbering]
    split <;> simp only [Option.toList_some, List.singleton_append, List.map_cons, ih, same]

theorem numbering_others (stays : ∀ count item, chosen (renumber count item) = chosen item) (items : List Item)
    (count : Nat) :
    ((visit (fun _ => true) (numbering chosen renumber) items count).1.filter fun item => !chosen item) =
      items.filter fun item => !chosen item := by
  induction items generalizing count with
  | nil => rfl
  | cons item rest ih =>
    rw [visit, if_pos rfl, numbering]
    by_cases here : chosen item = true
    · simp only [here, if_true, Option.toList_some, List.singleton_append]
      rw [List.filter_cons_of_neg (by simp [stays, here]), List.filter_cons_of_neg (by simp [here]), ih]
    · simp only [here, if_false, Option.toList_some, List.singleton_append, Bool.false_eq_true]
      rw [List.filter_cons_of_pos (by simp [here]), List.filter_cons_of_pos (by simp [here]), ih]

theorem numbering_numbers (number : Item → Nat)
    (stays : ∀ count item, chosen (renumber count item) = chosen item)
    (numbered : ∀ count item, number (renumber count item) = count) (items : List Item) (count : Nat) :
    ((visit (fun _ => true) (numbering chosen renumber) items count).1.filter chosen).map number =
      List.range' (count + 1) (items.filter chosen).length := by
  induction items generalizing count with
  | nil => rfl
  | cons item rest ih =>
    rw [visit, if_pos rfl, numbering]
    by_cases here : chosen item = true
    · simp only [here, if_true, Option.toList_some, List.singleton_append]
      rw [List.filter_cons_of_pos (by rw [stays, here]), List.filter_cons_of_pos here, List.map_cons, ih, numbered,
        List.length_cons, List.range'_succ]
    · simp only [here, if_false, Option.toList_some, List.singleton_append, Bool.false_eq_true]
      rw [List.filter_cons_of_neg here, List.filter_cons_of_neg here, ih]

end

end AppManager.Lib
