import Mathlib.Data.List.Nodup

/-! Values that are given to slots, each with the function that is to dispose of it, if any. The
history of what was given and cleared tells what is in the slots and what is disposed of, where
a value is told from the same one given again by the number of the event that gave it. -/

namespace AppManager.Lib.Custody

variable {Slot Value Dispose : Type}

inductive Event (Slot Value Dispose : Type) where
  | give (slot : Slot) (value : Value) (dispose : Option Dispose)
  | clear (chosen : Slot → Prop)

namespace Event

def Empties : Event Slot Value Dispose → Slot → Prop
  | .give slot _ _, other => other = slot
  | .clear chosen, slot => chosen slot

/-- What is in the emptied slots after the event of that number. -/
def content : Event Slot Value Dispose → Nat → Option ((Value × Nat) × Option Dispose)
  | .give _ value dispose, number => some ((value, number), dispose)
  | .clear _, _ => none

end Event

def Given (history : List (Event Slot Value Dispose)) (number : Nat) (slot : Slot) (value : Value)
    (dispose : Option Dispose) : Prop := history[number]? = some (.give slot value dispose)

/-- Nothing emptied the slot after the event of that number. -/
def Kept (history : List (Event Slot Value Dispose)) (number : Nat) (slot : Slot) : Prop :=
  ∀ later event, number < later → history[later]? = some event → ¬event.Empties slot

/-- A slot holds what was given to it last, if it was not cleared since. A value that was given
with a function is disposed of by that function once when it is no longer held, and the other
values never are. -/
structure Sound (history : List (Event Slot Value Dispose))
    (held : Slot → Option ((Value × Nat) × Option Dispose)) (disposed : List (Dispose × Value × Nat)) : Prop where
  holds : ∀ slot value number dispose, held slot = some ((value, number), dispose) ↔
    Given history number slot value dispose ∧ Kept history number slot
  once : disposed.Nodup
  released : ∀ dispose value number, (dispose, value, number) ∈ disposed ↔
    ∃ slot, Given history number slot value (some dispose) ∧ ¬Kept history number slot

variable {history : List (Event Slot Value Dispose)} {event : Event Slot Value Dispose} {number : Nat} {slot : Slot}
  {value : Value} {dispose : Option Dispose}

theorem sound_nil : Sound ([] : List (Event Slot Value Dispose)) (fun _ => none) [] :=
  ⟨by simp [Given], List.nodup_nil, by simp [Given]⟩

theorem Given.lt (given : Given history number slot value dispose) : number < history.length :=
  (List.getElem?_eq_some_iff.mp given).1

theorem getElem?_snoc {other : Event Slot Value Dispose} : (history ++ [event])[number]? = some other ↔
    history[number]? = some other ∨ number = history.length ∧ event = other := by
  rcases Nat.lt_trichotomy number history.length with before | last | after
  · have other' : number ≠ history.length := Nat.ne_of_lt before
    rw [List.getElem?_append_left before]
    exact ⟨Or.inl, fun either => either.resolve_right fun last => other' last.1⟩
  · rw [last, List.getElem?_concat_length, List.getElem?_length]
    simp
  · have other' : number ≠ history.length := Nat.ne_of_gt after
    have size : (history ++ [event]).length ≤ number := by
      rw [List.length_append]
      exact after
    rw [List.getElem?_eq_none size, List.getElem?_eq_none (Nat.le_of_lt after)]
    simp [other']

theorem given_snoc : Given (history ++ [event]) number slot value dispose ↔
    Given history number slot value dispose ∨ number = history.length ∧ event = .give slot value dispose :=
  getElem?_snoc

theorem kept_snoc (before : number < history.length) :
    Kept (history ++ [event]) number slot ↔ Kept history number slot ∧ ¬event.Empties slot := by
  constructor
  · intro kept
    exact ⟨fun later other after known => kept later other after (getElem?_snoc.mpr (Or.inl known)),
      kept _ event before (getElem?_snoc.mpr (Or.inr ⟨rfl, rfl⟩))⟩
  · rintro ⟨kept, last⟩ later other after known
    rcases getElem?_snoc.mp known with known | ⟨-, rfl⟩
    · exact kept later other after known
    · exact last

theorem kept_last : Kept (history ++ [event]) history.length slot := by
  intro later other after known
  rcases getElem?_snoc.mp known with known | ⟨last, -⟩
  · exact absurd (List.getElem?_eq_some_iff.mp known).1 (Nat.not_lt_of_gt after)
  · exact absurd last (Nat.ne_of_gt after)

/-- An event that empties slots keeps this when exactly what was in them is disposed of, once each. -/
theorem Sound.snoc {held held' : Slot → Option ((Value × Nat) × Option Dispose)}
    {disposed freed : List (Dispose × Value × Nat)} (sound : Sound history held disposed)
    (others : ∀ slot, ¬event.Empties slot → held' slot = held slot)
    (emptied : ∀ slot, event.Empties slot → held' slot = event.content history.length)
    (once : freed.Nodup) (released : ∀ dispose value, (dispose, value) ∈ freed ↔
      ∃ slot, event.Empties slot ∧ held slot = some (value, some dispose)) :
    Sound (history ++ [event]) held' (disposed ++ freed) := by
  refine ⟨fun slot value number dispose => ?_, ?_, fun dispose value number => ?_⟩
  · rw [given_snoc]
    by_cases empties : event.Empties slot
    · rw [emptied slot empties]
      constructor
      · intro content
        cases event with
        | give target value' dispose' =>
          cases content
          cases empties
          exact ⟨Or.inr ⟨rfl, rfl⟩, kept_last⟩
        | clear chosen => cases content
      · rintro ⟨given | ⟨rfl, rfl⟩, kept⟩
        · exact absurd empties ((kept_snoc given.lt).mp kept).2
        · rfl
    · rw [others slot empties, sound.holds]
      constructor
      · rintro ⟨given, kept⟩
        exact ⟨Or.inl given, (kept_snoc given.lt).mpr ⟨kept, empties⟩⟩
      · rintro ⟨given | ⟨rfl, rfl⟩, kept⟩
        · exact ⟨given, ((kept_snoc given.lt).mp kept).1⟩
        · exact absurd rfl empties
  · refine List.nodup_append'.mpr ⟨sound.once, once, ?_⟩
    rintro ⟨dispose, value, number⟩ before now
    obtain ⟨slot, given, gone⟩ := (sound.released _ _ _).mp before
    obtain ⟨slot', -, held⟩ := (released _ _).mp now
    obtain ⟨given', kept⟩ := (sound.holds _ _ _ _).mp held
    rw [Given, given, Option.some.injEq, Event.give.injEq] at given'
    exact gone (given'.1 ▸ kept)
  · rw [List.mem_append, sound.released, released]
    constructor
    · rintro (⟨slot, given, gone⟩ | ⟨slot, empties, held⟩)
      · exact ⟨slot, given_snoc.mpr (Or.inl given), fun kept => gone ((kept_snoc given.lt).mp kept).1⟩
      · have given := ((sound.holds _ _ _ _).mp held).1
        exact ⟨slot, given_snoc.mpr (Or.inl given), fun kept => ((kept_snoc given.lt).mp kept).2 empties⟩
    · rintro ⟨slot, given, gone⟩
      rcases given_snoc.mp given with given | ⟨rfl, rfl⟩
      · by_cases kept : Kept history number slot
        · by_cases empties : event.Empties slot
          · exact Or.inr ⟨slot, empties, (sound.holds _ _ _ _).mpr ⟨given, kept⟩⟩
          · exact absurd ((kept_snoc given.lt).mpr ⟨kept, empties⟩) gone
        · exact Or.inl ⟨slot, given, kept⟩
      · exact absurd kept_last gone

end AppManager.Lib.Custody
