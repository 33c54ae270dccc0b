import Mathlib.Data.List.Basic

/-! What holds since an event of a history: it was made to hold, and nothing undid it after. -/

namespace AppManager.Lib

variable {Event : Type}

def Since (makes undoes : Event → Prop) (history : List Event) : Prop :=
  ∃ before event after, history = before ++ event :: after ∧ makes event ∧ ∀ later ∈ after, ¬undoes later

theorem since_nil (makes undoes : Event → Prop) : ¬Since makes undoes [] := by
  rintro ⟨before, event, after, split, -⟩
  simp at split

/-- The last event makes it hold, or keeps it as it was. -/
theorem since_snoc (makes undoes : Event → Prop) (history : List Event) (last : Event) :
    Since makes undoes (history ++ [last]) ↔ makes last ∨ (Since makes undoes history ∧ ¬undoes last) := by
  constructor
  · rintro ⟨before, event, after, split, made, kept⟩
    rcases List.eq_nil_or_concat after with none | ⟨first, final, some⟩
    · subst none
      exact Or.inl (List.head_eq_of_cons_eq (List.append_inj_right' split rfl) ▸ made)
    · subst some
      rw [List.concat_eq_append, ← List.cons_append, ← List.append_assoc] at split
      have start := List.append_inj_left' split rfl
      have ends := List.head_eq_of_cons_eq (List.append_inj_right' split rfl)
      refine Or.inr ⟨⟨before, event, first, start, made, fun later member => kept later (by simp [member])⟩, ?_⟩
      rw [ends]
      exact kept final (by simp)
  · rintro (made | ⟨⟨before, event, after, split, made, kept⟩, keeps⟩)
    · exact ⟨history, last, [], rfl, made, by simp⟩
    · refine ⟨before, event, after ++ [last], by rw [split]; simp, made, fun later member => ?_⟩
      rcases List.mem_append.mp member with earlier | here
      · exact kept later earlier
      · exact List.mem_singleton.mp here ▸ keeps

end AppManager.Lib
