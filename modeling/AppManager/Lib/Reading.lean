import AppManager.Lib.Outcome
import Mathlib.Algebra.Order.Ring.Int
import Mathlib.Data.List.Forall2

/-! Iterations whose callback reads an item and puts what it read in a state. They stop
at the first item that is refused, and the reading of an item can be a fault. -/

namespace AppManager.Lib

variable {Fault Item Entry State Value Result : Type}

/-- Gives the items in order, until an answer is not zero. -/
def iterateM (callback : State → Item → Except Fault (Int × State)) : List Item → State → Except Fault (Int × State)
  | [], state => .ok (0, state)
  | item :: rest, state =>
    callback state item >>= fun answer =>
      if answer.1 = 0 then iterateM callback rest answer.2 else .ok answer

/-- What is read of all the items, `none` when one of them is refused. -/
def readAll (read : Item → Except Fault (Option Entry)) : List Item → Except Fault (Option (List Entry))
  | [] => .ok (some [])
  | item :: rest =>
    read item >>= fun
      | none => .ok none
      | some entry => (readAll read rest).map (Option.map (entry :: ·))

theorem readAll_map {Source : Type} (read : Item → Except Fault (Option Entry)) (make : Source → Item)
    (sources : List Source) : readAll read (sources.map make) = readAll (fun source => read (make source)) sources := by
  induction sources with
  | nil => rfl
  | cons source rest ih => rw [List.map_cons, readAll, readAll, ih]

section
variable {read : Item → Except Fault (Option Entry)}

theorem readAll_some {items : List Item} {entries : List Entry} :
    readAll read items = .ok (some entries) ↔
      List.Forall₂ (fun item entry => read item = .ok (some entry)) items entries := by
  induction items generalizing entries with
  | nil => simp [readAll, eq_comm, List.forall₂_nil_left_iff]
  | cons item rest ih =>
    rw [readAll, List.forall₂_cons_left_iff]
    cases answer : read item with
    | error fault => simp [bind, Except.bind]
    | ok found =>
      cases found with
      | none => simp [bind, Except.bind]
      | some entry =>
        cases others : readAll read rest with
        | error fault => simp [bind, Except.bind, Except.map, ← ih, others]
        | ok others' =>
          cases others' with
          | none => simp [bind, Except.bind, Except.map, ← ih, others]
          | some entries' => simp [bind, Except.bind, Except.map, ← ih, others, eq_comm]

end

/-- The answer of a callback to what was read of an item. -/
def answerTo (refusal : Int) (place : State → Entry → State) (state : State) : Option Entry → Int × State
  | none => (refusal, state)
  | some entry => (0, place state entry)

theorem iterateM_of_read {callback : State → Item → Except Fault (Int × State)}
    {read : Item → Except Fault (Option Entry)} {refusal : Int} {place : State → Entry → State}
    (fails : refusal ≠ 0) (each : ∀ state item, callback state item = (read item).map (answerTo refusal place state))
    (items : List Item) (state : State) : ∃ partly,
      iterateM callback items state = (readAll read items).map fun entries =>
        entries.elim (refusal, partly) fun entries => (0, entries.foldl place state) := by
  induction items generalizing state with
  | nil => exact ⟨state, rfl⟩
  | cons item rest ih =>
    cases answer : read item with
    | error fault => exact ⟨state, by simp [iterateM, readAll, each, answer, bind, Except.bind, Except.map]⟩
    | ok found =>
      cases found with
      | none =>
        exact ⟨state, by simp [iterateM, readAll, each, answer, answerTo, fails, bind, Except.bind, Except.map]⟩
      | some entry =>
        obtain ⟨partly, rest'⟩ := ih (place state entry)
        refine ⟨partly, ?_⟩
        simp only [iterateM, readAll, each, answer, answerTo, bind, Except.bind, Except.map, ↓reduceIte] at rest' ⊢
        rw [rest']
        cases readAll read rest with
        | error fault => rfl
        | ok entries => cases entries <;> rfl

/-- How a computation ends: with a fault unless it is safe, then with the code zero if it
accepts and with a negative code if not. -/
def Judged (code : Value → Int) (accepted safe : Prop) : Except Fault Value → Prop
  | .ok value => safe ∧ code value ≤ 0 ∧ (code value = 0 ↔ accepted)
  | .error _ => ¬safe

namespace Judged
variable {code : Value → Int} {code' : Result → Int} {accepted accepted' safe safe' : Prop}

theorem congr {run : Except Fault Value} (judged : Judged code accepted safe run) (same : accepted ↔ accepted')
    (same' : safe ↔ safe') : Judged code accepted' safe' run := by
  rw [← same, ← same']
  exact judged

theorem map {run : Except Fault Value} {change : Value → Result} (judged : Judged code accepted safe run)
    (codes : ∀ value, code value ≤ 0 → code' (change value) ≤ 0 ∧ (code' (change value) = 0 ↔ code value = 0)) :
    Judged code' accepted safe (run.map change) := by
  cases run with
  | error fault => exact judged
  | ok value =>
    obtain ⟨bound, same⟩ := codes value judged.2.1
    exact ⟨judged.1, bound, same.trans judged.2.2⟩

/-- What comes next is done after what accepts, and a refusal stays one. -/
theorem andThen {first : Except Fault Value} {next : Value → Except Fault Result}
    (judged : Judged code accepted safe first)
    (stop : ∀ value, first = .ok value → code value < 0 → ∃ final, next value = .ok final ∧ code' final < 0)
    (go : ∀ value, first = .ok value → code value = 0 → accepted → Judged code' accepted' safe' (next value)) :
    Judged code' (accepted ∧ accepted') (safe ∧ (accepted → safe')) (first >>= next) := by
  cases first with
  | error fault => exact fun both => judged both.1
  | ok value =>
    obtain ⟨whole, bound, zero⟩ := judged
    by_cases yes : accepted
    · have rest := go value rfl (zero.mpr yes) yes
      exact rest.congr (by simp [yes]) (by simp [yes, whole])
    · obtain ⟨final, done, negative⟩ := stop value rfl (lt_of_le_of_ne bound fun same => yes (zero.mp same))
      change Judged code' _ _ (next value)
      rw [done]
      exact ⟨⟨whole, fun same => absurd same yes⟩, negative.le, by simp [yes, negative.ne]⟩

theorem keep {first : Except Fault Value} {next : Value → Except Fault Result}
    (judged : Judged code accepted safe first)
    (stop : ∀ value, first = .ok value → code value < 0 → ∃ final, next value = .ok final ∧ code' final < 0)
    (go : ∀ value, first = .ok value → code value = 0 → ∃ final, next value = .ok final ∧ code' final = 0) :
    Judged code' accepted safe (first >>= next) := by
  have both : Judged code' (accepted ∧ True) (safe ∧ (accepted → True)) (first >>= next) := by
    refine judged.andThen stop fun value done zero yes => ?_
    obtain ⟨final, last, code⟩ := go value done zero
    rw [last]
    exact ⟨trivial, code.le, by simp [code]⟩
  exact both.congr (by simp) (by simp)

theorem returns {run : Except Fault Value} (judged : Judged code accepted safe run) :
    (∃ value, run = .ok value ∧ code value ≤ 0) ↔ safe := by
  cases run with
  | error fault =>
    constructor
    · rintro ⟨value, done, -⟩
      cases done
    · exact fun whole => absurd whole judged
  | ok value => exact ⟨fun _ => judged.1, fun _ => ⟨value, rfl, judged.2.1⟩⟩

end Judged

/-- The items that come only after accepted ones meet a condition. -/
def Reached (accepted meets : Item → Prop) (items : List Item) : Prop :=
  ∀ before item after, items = before ++ item :: after → (∀ other ∈ before, accepted other) → meets item

theorem reached_nil (accepted meets : Item → Prop) : Reached accepted meets [] := by
  intro before item after split
  cases before <;> cases split

theorem reached_cons {accepted meets : Item → Prop} {item : Item} {rest : List Item} :
    Reached accepted meets (item :: rest) ↔ meets item ∧ (accepted item → Reached accepted meets rest) := by
  constructor
  · intro reached
    refine ⟨reached [] item rest rfl (by simp), fun yes before other after split each => ?_⟩
    exact reached (item :: before) other after (by rw [split, List.cons_append]) (List.forall_mem_cons.mpr ⟨yes, each⟩)
  · rintro ⟨here, later⟩ before other after split each
    cases before with
    | nil =>
      obtain ⟨rfl, -⟩ := List.cons.inj split
      exact here
    | cons head before =>
      obtain ⟨rfl, rest'⟩ := List.cons.inj split
      obtain ⟨yes, each⟩ := List.forall_mem_cons.mp each
      exact later yes before other after rest' each

section
variable {Item' : Type} {relates : Item → Item' → Prop} {items : List Item} {items' : List Item'}

theorem forall_mem_iff_of_forall₂ {holds : Item → Prop} {holds' : Item' → Prop}
    (each : List.Forall₂ relates items items') (same : ∀ item item', relates item item' → (holds item ↔ holds' item')) :
    (∀ item ∈ items, holds item) ↔ ∀ item' ∈ items', holds' item' := by
  induction each with
  | nil => simp
  | cons first rest ih => rw [List.forall_mem_cons, List.forall_mem_cons, same _ _ first, ih]

theorem reached_iff_of_forall₂ {accepted meets : Item → Prop} {accepted' meets' : Item' → Prop}
    (each : List.Forall₂ relates items items')
    (same : ∀ item item', relates item item' → (accepted item ↔ accepted' item') ∧ (meets item ↔ meets' item')) :
    Reached accepted meets items ↔ Reached accepted' meets' items' := by
  induction each with
  | nil => simp [reached_nil]
  | cons first rest ih => rw [reached_cons, reached_cons, (same _ _ first).1, (same _ _ first).2, ih]

end

theorem foldlM_ok {step : State → Item → Except Fault State} {items : List Item} {state final : State}
    (done : items.foldlM step state = .ok final) : ∀ item ∈ items, ∃ before after, step before item = .ok after := by
  induction items generalizing state with
  | nil => exact fun item there => by cases there
  | cons item rest ih =>
    rw [List.foldlM_cons] at done
    obtain ⟨middle, first, others⟩ := bind_ok done
    exact List.forall_mem_cons.mpr ⟨⟨state, middle, first⟩, ih others⟩

def foundCode (found : Option Entry) : Int := if found.isSome then 0 else -1

theorem foundCode_le (found : Option Entry) : foundCode found ≤ 0 := by
  unfold foundCode
  split <;> decide

theorem readAll_judged {read : Item → Except Fault (Option Entry)} {accepted safe : Item → Prop} {items : List Item}
    (each : ∀ item ∈ items, Judged foundCode (accepted item) (safe item) (read item)) :
    Judged foundCode (∀ item ∈ items, accepted item) (Reached accepted safe items) (readAll read items) := by
  induction items with
  | nil => exact ⟨reached_nil _ _, foundCode_le _, by simp [foundCode]⟩
  | cons item rest ih =>
    obtain ⟨first, others⟩ := List.forall_mem_cons.mp each
    rw [readAll]
    refine (first.andThen ?_ fun entry done zero yes => ?_).congr List.forall_mem_cons.symm reached_cons.symm
    · intro entry done negative
      cases entry with
      | none => exact ⟨none, rfl, negative⟩
      | some entry => exact absurd negative (by simp [foundCode])
    · cases entry with
      | none => exact absurd zero (by simp [foundCode])
      | some entry => exact (ih others).map fun found _ => ⟨foundCode_le _, by simp [foundCode]⟩

end AppManager.Lib
