import AppManager.Mustach.Refine
import Mathlib.Data.Multiset.DershowitzManna
import Mathlib.Order.WellFounded
import Mathlib.Tactic.Abel

/-! The end of the engine, for every template. It goes back to the start of a section for each item,
with less and less to read: what remains is the text, and the sections that have items left. -/

namespace AppManager.Mustach
open AppManager.Lib AppManager.Lib.Calls Relation Multiset

variable {Closure Context : Type} {flags : Flags} {itf : Interface Closure} {view : View Context}
  {Stands : Closure → List (Context × List Context) → Prop}

/-- The contexts of the sections that are entered, above the ones of the start, and what the items that follow
are still to make read. -/
inductive Opened (base : List (Context × List Context)) :
    List Frame → List (Context × List Context) → Multiset ℕ → Prop
  | none : Opened base [] base 0
  | plain {frame : Frame} {stack levels again} (out : frame.entered = false) (below : Opened base stack levels again) :
      Opened base (frame :: stack) levels again
  | entered {frame : Frame} {stack level levels again} (context : Context) (later : List Context)
      (inside : frame.entered = true) (enabled : frame.enabled = true) (below : Opened base stack (level :: levels) again) :
      Opened base (frame :: stack) ((context, later) :: level :: levels)
        (replicate later.length frame.again.length + again)

def Remains (Stands : Closure → List (Context × List Context) → Prop) (base : List (Context × List Context))
    (state : State Closure) (remains : Multiset ℕ) : Prop :=
  ∃ context later levels again, Stands state.closure ((context, later) :: levels) ∧
    Opened base state.stack ((context, later) :: levels) again ∧ remains = {state.template.length} + again

theorem less_text {fewer more : ℕ} (less : fewer < more) (entered : ℕ) (left again : Multiset ℕ) :
    IsDershowitzMannaLT ({fewer} + (replicate entered fewer + again)) ({more} + (left + again)) := by
  refine ⟨again, {fewer} + replicate entered fewer, {more} + left, ?_, ?_, ?_, ?_⟩
  · exact fun none => singleton_ne_zero more (add_eq_zero.mp none).1
  · rw [← add_assoc, add_comm]
  · rw [← add_assoc, add_comm]
  · intro size member
    refine ⟨more, mem_add.mpr (Or.inl (mem_singleton_self more)), ?_⟩
    rcases mem_add.mp member with here | here
    · exact (mem_singleton.mp here).trans_lt less
    · exact (eq_of_mem_replicate here).trans_lt less

theorem less_again (size item count : ℕ) (again : Multiset ℕ) :
    IsDershowitzMannaLT ({item} + (replicate count item + again)) ({size} + (replicate (count + 1) item + again)) := by
  refine ⟨{item} + (replicate count item + again), 0, {size}, singleton_ne_zero size, (add_zero _).symm, ?_, nofun⟩
  rw [replicate_succ, ← singleton_add]
  abel

def Leaves (view : View Context) (Stands : Closure → List (Context × List Context) → Prop)
    (base : List (Context × List Context)) (remains : Multiset ℕ) : Outcome Closure → Prop
  | .ended (.error _) => True
  | .ended (.ok (closure, _)) => Stands closure base
  | .goes next => ∃ fewer, Remains Stands base next fewer ∧ IsDershowitzMannaLT fewer remains
  | .calls callee back => ∃ context later levels name content closure file outer,
      callee = State.start content closure file outer ∧ Stands closure ((context, later) :: levels) ∧
      view.inclusion context name = .ok content ∧
      ∀ value, Stands value.1 ((context, later) :: levels) →
        ∃ fewer, Remains Stands base (back value) fewer ∧ IsDershowitzMannaLT fewer remains

theorem Leaves.goes {base : List (Context × List Context)} {next : State Closure} {context : Context}
    {later : List Context} {levels : List (Context × List Context)} {again remains : Multiset ℕ}
    (stands : Stands next.closure ((context, later) :: levels))
    (opened : Opened base next.stack ((context, later) :: levels) again)
    (less : IsDershowitzMannaLT ({next.template.length} + again) remains) :
    Leaves view Stands base remains (.goes next) :=
  ⟨_, ⟨context, later, levels, again, stands, opened, rfl⟩, less⟩

section
variable {base : List (Context × List Context)} {context : Context} {later : List Context}
  {levels : List (Context × List Context)} {again : Multiset ℕ} {size : ℕ}

theorem less_read {fewer more : ℕ} (less : fewer < more) (again : Multiset ℕ) :
    IsDershowitzMannaLT ({fewer} + again) ({more} + again) := by
  simpa using less_text less 0 0 again

theorem opens_leaves (shows : Shows itf view Stands) (state : State Closure)
    (stands : Stands state.closure ((context, later) :: levels))
    (opened : Opened base state.stack ((context, later) :: levels) again) (shorter : state.template.length < size)
    (inverted : Bool) (name : Bytes) :
    Leaves view Stands base ({size} + again) (act itf state (.opens inverted name)) := by
  rw [act]
  split_ifs with deep enabled
  · trivial
  · have enters := shows.enter stands name
    cases found : view.items context name with
    | error failure =>
      rw [found] at enters
      rw [enters]
      trivial
    | ok items =>
      rw [found] at enters
      cases items with
      | nil =>
        obtain ⟨closure', enters, stands'⟩ := enters
        rw [enters]
        exact Leaves.goes stands' (Opened.plain rfl opened) (less_read shorter again)
      | cons item items =>
        obtain ⟨closure', enters, stands'⟩ := enters
        rw [enters]
        refine Leaves.goes stands' (Opened.entered item items rfl enabled opened) ?_
        simpa using less_text shorter items.length 0 again
  · exact Leaves.goes stands (Opened.plain rfl opened) (less_read shorter again)

/-- The items that are left are not read when the section is not rendered. -/
theorem closes_leaves (shows : Shows itf view Stands) (state : State Closure)
    (stands : Stands state.closure ((context, later) :: levels))
    (opened : Opened base state.stack ((context, later) :: levels) again) (shorter : state.template.length < size)
    (name : Bytes) : Leaves view Stands base ({size} + again) (act itf state (.closes name)) := by
  rw [act]
  cases stack : state.stack with
  | nil => trivial
  | cons frame frames =>
    rw [stack] at opened
    dsimp only
    by_cases other : name ≠ frame.name
    · rw [if_pos other]
      trivial
    rw [if_neg other]
    cases opened with
    | plain out below =>
      simp only [out, Bool.false_eq_true, and_false, if_false]
      exact Leaves.goes stands below (less_read shorter _)
    | entered context later inside enabled below =>
      simp only [inside, enabled, and_true, if_true]
      by_cases here : state.enabled = true
      · have next := shows.next stands
        rw [if_pos here]
        cases later with
        | nil =>
          obtain ⟨closure', next, stands'⟩ := next
          rw [next]
          exact Leaves.goes (shows.leave stands') below (by simpa using less_text shorter 0 0 _)
        | cons item items =>
          obtain ⟨closure', next, stands'⟩ := next
          rw [next]
          exact Leaves.goes stands' (Opened.entered item items inside enabled below) (less_again _ _ _ _)
      · rw [if_neg here]
        exact Leaves.goes (shows.leave stands) below (by simpa using less_text shorter 0 _ _)

theorem act_leaves (shows : Shows itf view Stands) (state : State Closure)
    (stands : Stands state.closure ((context, later) :: levels))
    (opened : Opened base state.stack ((context, later) :: levels) again) (shorter : state.template.length < size)
    (tag : Tag) : Leaves view Stands base ({size} + again) (act itf state tag) := by
  have less := less_read shorter again
  cases tag with
  | comment => exact Leaves.goes stands opened less
  | delimiters delims => exact Leaves.goes stands opened less
  | value name escape =>
    rw [act]
    split_ifs with enabled
    · rw [shows.put stands]
      cases view.value context name escape with
      | error failure => trivial
      | ok written => exact Leaves.goes stands opened less
    · exact Leaves.goes stands opened less
  | inclusion name =>
    rw [act]
    split_ifs with enabled
    · rw [shows.inclusion stands]
      cases found : view.inclusion context name with
      | error failure => trivial
      | ok content =>
        refine ⟨context, later, levels, name, content, _, _, _, rfl, stands, found, fun value stands' => ?_⟩
        exact ⟨_, ⟨context, later, levels, again, stands', opened, rfl⟩, less⟩
    · exact Leaves.goes stands opened less
  | opens inverted name => exact opens_leaves shows state stands opened shorter inverted name
  | closes name => exact closes_leaves shows state stands opened shorter name

end

theorem turn_leaves (flags : Flags) (shows : Shows itf view Stands) {base : List (Context × List Context)}
    {state : State Closure} {remains : Multiset ℕ} (before : Remains Stands base state remains) :
    Leaves view Stands base remains (turn flags itf state) := by
  obtain ⟨context, later, levels, again, stands, opened, rfl⟩ := before
  rw [turn_lex]
  cases read : lex flags state.delims state.template with
  | last chunk =>
    dsimp only
    split_ifs with top
    · rw [top] at opened
      cases opened
      exact stands
    · trivial
  | bad chunk rc => trivial
  | tag chunk tag rest =>
    exact act_leaves shows { state with
      template := rest
      layout := (state.layout.readAll state.enabled state.outer chunk).tag state.enabled tag.inline }
      stands opened (lex_tag read).2.1 tag

theorem Remains.start {closure : Closure} {context : Context} {later : List Context}
    {levels : List (Context × List Context)} (stands : Stands closure ((context, later) :: levels)) (template : Bytes)
    (file : Bytes) (outer : List Bytes) :
    Remains Stands ((context, later) :: levels) (State.start template closure file outer) ({template.length} + 0) :=
  ⟨context, later, levels, 0, stands, Opened.none, rfl⟩

theorem run_stands (shows : Shows itf view Stands) {fuel : ℕ} {base : List (Context × List Context)}
    {state : State Closure} {remains : Multiset ℕ} (before : Remains Stands base state remains) {closure : Closure}
    {file : Bytes} (gives : run (turn flags itf) fuel state = some (.ok (closure, file))) : Stands closure base := by
  induction fuel generalizing base state remains closure file with
  | zero => cases gives
  | succ fuel ih =>
    have leaves := turn_leaves flags shows before
    rw [run] at gives
    cases here : turn flags itf state with
    | ended result =>
      simp only [here, Option.some.injEq] at gives
      rw [here, gives] at leaves
      exact leaves
    | goes next =>
      simp only [here] at gives leaves
      obtain ⟨fewer, after, -⟩ := leaves
      exact ih after gives
    | calls callee back =>
      simp only [here] at gives leaves
      obtain ⟨context, later, levels, name, content, closure', file', outer, rfl, stands, -, goesOn⟩ := leaves
      obtain ⟨value, called, gives⟩ := after_ok gives
      obtain ⟨fewer, after, -⟩ := goesOn value (ih (Remains.start stands content file' outer) called)
      exact ih after gives

theorem step_remains (shows : Shows itf view Stands) {base : List (Context × List Context)} {state next : State Closure}
    {remains : Multiset ℕ} (before : Remains Stands base state remains) (move : Step (turn flags itf) state next) :
    ∃ fewer, Remains Stands base next fewer ∧ IsDershowitzMannaLT fewer remains := by
  have leaves := turn_leaves flags shows before
  cases move with
  | goes here =>
    rw [here] at leaves
    exact leaves
  | back here called =>
    rw [here] at leaves
    obtain ⟨context, later, levels, name, content, closure, file, outer, rfl, stands, -, goesOn⟩ := leaves
    obtain ⟨fuel, called⟩ := called
    exact goesOn _ (run_stands shows (Remains.start stands content file outer) called)

theorem step_founded (shows : Shows itf view Stands) {base : List (Context × List Context)} {state : State Closure}
    {remains : Multiset ℕ} (before : Remains Stands base state remains) :
    Acc (fun next state => Step (turn flags itf) state next) state := by
  have less : WellFounded (IsDershowitzMannaLT : Multiset ℕ → Multiset ℕ → Prop) := wellFounded_isDershowitzMannaLT
  induction remains using less.induction generalizing state with
  | _ remains ih =>
    refine Acc.intro state fun next move => ?_
    obtain ⟨fewer, after, smaller⟩ := step_remains shows before move
    exact ih fewer smaller after

theorem waits_content (shows : Shows itf view Stands) {base : List (Context × List Context)} {state callee : State Closure}
    {remains : Multiset ℕ} (before : Remains Stands base state remains) (waits : Waits (turn flags itf) state callee) :
    ∃ context later levels name content closure file outer, callee = State.start content closure file outer ∧
      Stands closure ((context, later) :: levels) ∧ view.inclusion context name = .ok content := by
  obtain ⟨caller, back, moves, here⟩ := waits
  have there : ∃ fewer, Remains Stands base caller fewer := by
    clear here
    induction moves with
    | refl => exact ⟨remains, before⟩
    | tail _ move ih =>
      obtain ⟨fewer, there⟩ := ih
      obtain ⟨fewer', there', -⟩ := step_remains shows there move
      exact ⟨fewer', there'⟩
  obtain ⟨fewer, there⟩ := there
  have leaves := turn_leaves flags shows there
  rw [here] at leaves
  obtain ⟨context, later, levels, name, content, closure, file, outer, same, stands, found, -⟩ := leaves
  exact ⟨context, later, levels, name, content, closure, file, outer, same, stands, found⟩

theorem process_ends_iff (shows : Shows itf view Stands) {closure : Closure} {context : Context} {later : List Context}
    {levels : List (Context × List Context)} (stands : Stands closure ((context, later) :: levels)) (template : Bytes)
    (file : Bytes) (outer : List Bytes) :
    (∃ result, Gives (turn flags itf) (State.start template closure file outer) result) ↔
      Acc (fun callee caller => Waits (turn flags itf) caller callee) (State.start template closure file outer) := by
  constructor
  · intro ⟨result, gives⟩
    exact founded_of_gives gives
  · refine gives_of_founded (fun state => ∃ base remains, Remains Stands base state remains) ?_ ?_
      ⟨_, _, Remains.start stands template file outer⟩
    · intro state ⟨base, remains, before⟩
      exact step_founded shows before
    · intro state callee ⟨base, remains, before⟩ waits
      obtain ⟨context, later, levels, name, content, closure, file, outer, rfl, stands, -⟩ := waits_content shows before waits
      exact ⟨_, _, Remains.start stands content file outer⟩

theorem process_endless_iff (shows : Shows itf view Stands) {closure : Closure} {context : Context}
    {later : List Context} {levels : List (Context × List Context)} (stands : Stands closure ((context, later) :: levels))
    (template : Bytes) (file : Bytes) (outer : List Bytes) :
    (∀ fuel, process flags itf fuel template closure file outer = none) ↔
      ∃ chain : ℕ → State Closure, chain 0 = State.start template closure file outer ∧
        ∀ n, Waits (turn flags itf) (chain n) (chain (n + 1)) := by
  have chains := not_acc_iff_exists_descending_chain (r := fun callee caller => Waits (turn flags itf) caller callee)
    (x := State.start template closure file outer)
  rw [← process_ends_iff shows stands] at chains
  refine Iff.trans ?_ chains
  simp only [process, Gives, not_exists, Option.eq_none_iff_forall_ne_some]
  exact forall_comm

def Plain (state : State Closure) : Prop :=
  angle ∉ state.template ∧ angle ∉ state.delims.clstr ∧ ∀ frame ∈ state.stack, angle ∉ frame.again

/-- A turn of a plain state ends, or goes on in a plain state. -/
def LeavesPlain : Outcome Closure → Prop
  | .ended _ => True
  | .goes next => Plain next
  | .calls _ _ => False

/-- No tag but a partial reads an angle bracket. -/
theorem act_plain (itf : Interface Closure) {state : State Closure} (plain : Plain state) {tag : Tag}
    (sets : ∀ delims, tag = .delimiters delims → angle ∉ delims.clstr) (includes : ∀ name, tag ≠ .inclusion name) :
    LeavesPlain (act itf state tag) := by
  obtain ⟨later, ending, frames⟩ := plain
  cases tag with
  | comment => exact ⟨later, ending, frames⟩
  | delimiters delims => exact ⟨later, sets delims rfl, frames⟩
  | value name escape =>
    rw [act]
    split_ifs
    · cases itf.put state.closure name escape with
      | error failure => trivial
      | ok put => exact ⟨later, ending, frames⟩
    · exact ⟨later, ending, frames⟩
  | inclusion name => exact (includes name rfl).elim
  | opens inverted name =>
    have opened (frame : Frame) (again : frame.again = state.template) :
        ∀ frame' ∈ frame :: state.stack, angle ∉ frame'.again := by
      intro frame' member
      rcases List.mem_cons.mp member with rfl | there
      · exact again ▸ later
      · exact frames frame' there
    rw [act]
    split_ifs
    · trivial
    · cases itf.enter state.closure name with
      | error failure => trivial
      | ok entered => exact ⟨later, ending, opened _ rfl⟩
    · exact ⟨later, ending, opened _ rfl⟩
  | closes name =>
    rw [act]
    cases stack : state.stack with
    | nil => trivial
    | cons frame below =>
      rw [stack] at frames
      have lower : ∀ frame' ∈ below, angle ∉ frame'.again := fun frame' member =>
        frames frame' (List.mem_cons_of_mem _ member)
      dsimp only
      by_cases other : name ≠ frame.name
      · rw [if_pos other]
        trivial
      rw [if_neg other]
      generalize (if state.enabled = true ∧ frame.entered = true then itf.next state.closure
        else .ok (false, state.closure)) = outcome
      cases outcome with
      | error failure => trivial
      | ok next =>
        obtain ⟨again, closure⟩ := next
        cases again with
        | true => exact ⟨frames frame List.mem_cons_self, ending, frames⟩
        | false => exact ⟨later, ending, lower⟩

theorem turn_plain (flags : Flags) (itf : Interface Closure) {state : State Closure} (plain : Plain state) :
    LeavesPlain (turn flags itf state) := by
  obtain ⟨text, ending, frames⟩ := plain
  rw [turn_lex]
  cases read : lex flags state.delims state.template with
  | last chunk =>
    dsimp only
    split_ifs <;> trivial
  | bad chunk rc => trivial
  | tag chunk tag rest =>
    obtain ⟨suffix, -, before, content, others, whole, sets, includes⟩ := lex_tag read
    have later : angle ∉ rest := fun inside => text (suffix.subset inside)
    have within : angle ∉ content ++ state.delims.clstr := by
      intro inside
      refine text ?_
      rw [whole]
      simp only [List.mem_append] at inside ⊢
      tauto
    have behind : Plain { state with
        template := rest
        layout := (state.layout.readAll state.enabled state.outer chunk).tag state.enabled tag.inline } :=
      ⟨later, ending, frames⟩
    refine act_plain itf behind (fun delims set inside => ?_) fun name included => ?_
    · exact within (List.mem_append_left _ ((sets delims set).2 inside))
    · exact within (List.mem_of_mem_head? (includes name included))

theorem plain_waits {state callee : State Closure} (plain : Plain state) : ¬Waits (turn flags itf) state callee := by
  intro ⟨caller, back, moves, here⟩
  have there : Plain caller := by
    clear here
    induction moves with
    | refl => exact plain
    | tail _ move ih =>
      have goes := turn_plain flags itf ih
      cases move with
      | goes here =>
        rw [here] at goes
        exact goes
      | back here _ =>
        rw [here] at goes
        exact goes.elim
  have calls := turn_plain flags itf there
  rw [here] at calls
  exact calls

end AppManager.Mustach
