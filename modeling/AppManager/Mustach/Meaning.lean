import AppManager.Mustach.Refine

/-! The engine and the meaning of templates give the same results. -/

namespace AppManager.Mustach
open AppManager.Lib AppManager.Lib.Calls

variable {Closure Context : Type} {flags : Flags} {itf : Interface Closure} {view : View Context}
  {Stands : Closure → List (Context × List Context) → Prop}

theorem parseTemplate_some {template : Bytes} {nodes : List Node} (known : parseTemplate flags template = some nodes) :
    ∃ ending, parse flags (template.length + 1) [] .initial template = some (nodes, ending) := by
  obtain ⟨⟨nodes, ending⟩, known', rfl⟩ := Option.map_eq_some_iff.mp known
  exact ⟨ending, known'⟩

theorem render_parsed {template : Bytes} {nodes : List Node} (known : parseTemplate flags template = some nodes)
    (depth : Nat) (context : Context) (outer : List Bytes) (file : Bytes) :
    render flags view (depth + 1) context template outer file =
      after (renderNodes view (render flags view depth) outer nodes context true ⟨[], .blank, ⟨outer, []⟩, file⟩)
        fun layout => some (.ok (layout.flush true [])) := by
  rw [render, known, Option.bind_some]

theorem render_expands (flags : Flags) (shows : Shows itf view Stands) (depth : Nat) :
    Expands flags itf Stands (render flags view depth) := by
  induction depth with
  | zero =>
    intro closure context later levels _ content outer file
    trivial
  | succ depth ih =>
    intro closure context later levels stands content outer file
    cases known : parseTemplate flags content with
    | none =>
      rw [render, known]
      trivial
    | some nodes =>
      obtain ⟨ending, parsed⟩ := parseTemplate_some known
      have ends := parse_follows shows ih parsed (State.start content closure file outer) context later levels
        rfl rfl rfl stands
      rw [render_parsed known]
      match outcome : renderNodes view (render flags view depth) outer nodes context true
        ⟨[], .blank, ⟨outer, []⟩, file⟩ with
      | none => trivial
      | some (.error failure) =>
        simp only [State.start, outcome] at ends
        exact ends
      | some (.ok layout) =>
        simp only [State.start, outcome] at ends
        obtain ⟨closure', stands', gives⟩ := ends
        cases ending with
        | none => exact ⟨closure', stands', gives⟩
        | some place => exact gives.elim

theorem renders_of_process (shows : Shows itf view Stands)
    (inclusions : ∀ {closure context later levels name content}, Stands closure ((context, later) :: levels) →
      view.inclusion context name = .ok content → parseTemplate flags content ≠ none) {fuel : Nat} {closure : Closure}
    {context : Context} {later : List Context}
    {levels : List (Context × List Context)} {template file : Bytes} {outer : List Bytes}
    {result : Except Failure (Closure × Bytes)} (stands : Stands closure ((context, later) :: levels))
    (parses : parseTemplate flags template ≠ none)
    (gives : process flags itf fuel template closure file outer = some result) :
    render flags view fuel context template outer file ≠ none := by
  induction fuel generalizing closure context later levels template file outer result with
  | zero => cases gives
  | succ fuel ih =>
    obtain ⟨nodes, known⟩ := Option.ne_none_iff_exists'.mp parses
    obtain ⟨ending, parsed⟩ := parseTemplate_some known
    have ends := parse_follows shows (render_expands flags shows fuel) parsed (State.start template closure file outer)
      context later levels rfl rfl rfl stands
    rw [render_parsed known]
    intro unknown
    match outcome : renderNodes view (render flags view fuel) outer nodes context true
      ⟨[], .blank, ⟨outer, []⟩, file⟩ with
    | some (.error failure) => simp only [outcome, after, reduceCtorEq] at unknown
    | some (.ok layout) => simp only [outcome, after, reduceCtorEq] at unknown
    | none =>
      simp only [State.start, outcome] at ends
      obtain ⟨closure', context', later', levels', name, content, outer', file', stands', found, unknown', waits⟩ := ends
      obtain ⟨called, gives'⟩ := waits.run gives
      exact ih stands' (inclusions stands' found) gives' unknown'

/-- The engine gives the rendering, and its closure stands for the same contexts after as before. -/
theorem process_iff_render (flags : Flags) (shows : Shows itf view Stands)
    (inclusions : ∀ {closure context later levels name content}, Stands closure ((context, later) :: levels) →
      view.inclusion context name = .ok content → parseTemplate flags content ≠ none) {closure : Closure}
    {context : Context} {later : List Context} {levels : List (Context × List Context)} {template : Bytes}
    (file : Bytes) (outer : List Bytes) (stands : Stands closure ((context, later) :: levels))
    (parses : parseTemplate flags template ≠ none)
    (result : Except Failure Bytes) :
    (∃ fuel outcome, process flags itf fuel template closure file outer = some outcome ∧
        outcome.map Prod.snd = result) ↔
      ∃ depth, render flags view depth context template outer file = some result := by
  have meaning (depth : Nat) := render_expands flags shows depth stands template outer file
  constructor
  · rintro ⟨fuel, outcome, gives, rfl⟩
    refine ⟨fuel, ?_⟩
    obtain ⟨rendered, known⟩ := Option.ne_none_iff_exists'.mp (renders_of_process shows inclusions stands parses gives)
    have meant := meaning fuel
    rw [known] at meant ⊢
    cases rendered with
    | error failure =>
      obtain rfl := Gives.unique ⟨fuel, gives⟩ meant
      rfl
    | ok file' =>
      obtain ⟨closure', _, meant⟩ := meant
      obtain rfl := Gives.unique ⟨fuel, gives⟩ meant
      rfl
  · rintro ⟨depth, known⟩
    have meant := meaning depth
    rw [known] at meant
    cases result with
    | error failure =>
      obtain ⟨fuel, gives⟩ := meant
      exact ⟨fuel, _, gives, rfl⟩
    | ok file' =>
      obtain ⟨closure', _, fuel, gives⟩ := meant
      exact ⟨fuel, _, gives, rfl⟩

end AppManager.Mustach
