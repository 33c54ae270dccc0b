import AppManager.Mustach.Render

/-! The engine refines the meaning of templates. The stack of the engine holds the places where the
bodies of the open sections start, the meaning has none: it follows the nodes. -/

namespace AppManager.Mustach
open AppManager.Lib AppManager.Lib.Calls Relation

variable {Closure Context : Type}

/-- Callbacks that go through the items of a view. The closure stands for the contexts of the open
sections, the innermost first, each one with the items that follow it. -/
structure Shows (itf : Interface Closure) (view : View Context)
    (Stands : Closure → List (Context × List Context) → Prop) : Prop where
  put {closure : Closure} {context : Context} {later : List Context} {levels : List (Context × List Context)}
    (stands : Stands closure ((context, later) :: levels)) (name : Bytes) (escape : Bool) :
    itf.put closure name escape = (view.value context name escape).map fun written => (closure, written)
  inclusion {closure : Closure} {context : Context} {later : List Context} {levels : List (Context × List Context)}
    (stands : Stands closure ((context, later) :: levels)) (name : Bytes) :
    itf.inclusion closure name = (view.inclusion context name).map fun content => (closure, content)
  enter {closure : Closure} {context : Context} {later : List Context} {levels : List (Context × List Context)}
    (stands : Stands closure ((context, later) :: levels)) (name : Bytes) :
    match view.items context name with
    | .error failure => itf.enter closure name = .error failure
    | .ok [] => ∃ closure', itf.enter closure name = .ok (false, closure') ∧ Stands closure' ((context, later) :: levels)
    | .ok (item :: items) => ∃ closure', itf.enter closure name = .ok (true, closure') ∧
        Stands closure' ((item, items) :: (context, later) :: levels)
  next {closure : Closure} {context : Context} {later : List Context} {level : Context × List Context}
    {levels : List (Context × List Context)} : Stands closure ((context, later) :: level :: levels) →
    match later with
    | [] => ∃ closure', itf.next closure = .ok (false, closure') ∧ Stands closure' ((context, []) :: level :: levels)
    | item :: items => ∃ closure', itf.next closure = .ok (true, closure') ∧
        Stands closure' ((item, items) :: level :: levels)
  leave {closure : Closure} {level level' : Context × List Context} {levels : List (Context × List Context)}
    (stands : Stands closure (level :: level' :: levels)) : Stands (itf.leave closure) (level' :: levels)

theorem renderNodes_text (view : View Context) (expand : Expansion Context) (outer : List Bytes) (chunk : Bytes)
    (node : Node) (context : Context) (enabled : Bool) (layout : Layout) :
    renderNodes view expand outer [.text chunk, node] context enabled layout =
      renderNode view expand outer node context enabled (layout.readAll enabled outer chunk) := by
  have last : renderNodes view expand outer [] context enabled = fun layout => some (.ok layout) := rfl
  rw [renderNodes, renderNode]
  change renderNodes view expand outer [node] context enabled (layout.readAll enabled outer chunk) = _
  rw [renderNodes, last, after_some_ok]

mutual

theorem renderNode_skipped (view : View Context) (expand : Expansion Context) (outer : List Bytes) :
    ∀ (node : Node) (context context' : Context) (layout : Layout),
      renderNode view expand outer node context false layout = renderNode view expand outer node context' false layout
  | .text _, _, _, _ => rfl
  | .mark, _, _, _ => rfl
  | .value _ _, _, _, _ => rfl
  | .inclusion _, _, _, _ => rfl
  | .block _ _ body, context, context', layout => by
    rw [renderNode, renderNode]
    exact renderNodes_skipped view expand outer body context context' (layout.tag false false)
  | .fail _, _, _, _ => rfl

theorem renderNodes_skipped (view : View Context) (expand : Expansion Context) (outer : List Bytes) :
    ∀ (nodes : List Node) (context context' : Context) (layout : Layout),
      renderNodes view expand outer nodes context false layout =
        renderNodes view expand outer nodes context' false layout
  | [], _, _, _ => rfl
  | node :: rest, context, context', layout => by
    rw [renderNodes, renderNodes, renderNode_skipped view expand outer node context context']
    exact congrArg (after _) (funext (renderNodes_skipped view expand outer rest context context'))

end

section
variable (flags : Flags) (itf : Interface Closure) (view : View Context)
  (Stands : Closure → List (Context × List Context) → Prop) (expand : Expansion Context)

/-- The engine comes to a partial that has no known expansion. -/
def Pends (state : State Closure) : Prop :=
  ∃ closure context later levels name content outer file, Stands closure ((context, later) :: levels) ∧
    view.inclusion context name = .ok content ∧ expand context content outer file = none ∧
    Waits (turn flags itf) state (State.start content closure file outer)

/-- The expansions tell what the engine does with the content of a partial. -/
def Expands : Prop :=
  ∀ {closure context later levels}, Stands closure ((context, later) :: levels) → ∀ content outer file,
    match expand context content outer file with
    | none => True
    | some (.error failure) => Gives (turn flags itf) (State.start content closure file outer) (.error failure)
    | some (.ok file') => ∃ closure', Stands closure' ((context, later) :: levels) ∧
        Gives (turn flags itf) (State.start content closure file outer) (.ok (closure', file'))

/-- For this outcome of nodes, the engine goes from a state to the base at a place and with a layout. There is
no place after nodes that do not end. -/
def Passes (start base : State Closure) (place : Option (Bytes × Delimiters))
    (levels : List (Context × List Context)) : Option (Except Failure Layout) → Prop
  | none => Pends flags itf view Stands expand start
  | some (.error failure) => Gives (turn flags itf) start (.error failure)
  | some (.ok layout) =>
    match place with
    | none => False
    | some (template, delims) => ∃ closure, Stands closure levels ∧ Reaches (turn flags itf) start
        { base with template := template, delims := delims, layout := layout, closure := closure }

/-- For this outcome of all its nodes, the engine ends, or it comes to the closing tag. -/
def Ends (state : State Closure) (levels : List (Context × List Context)) (ending : Option (Bytes × Delimiters)) :
    Option (Except Failure Layout) → Prop
  | none => Pends flags itf view Stands expand state
  | some (.error failure) => Gives (turn flags itf) state (.error failure)
  | some (.ok layout) => ∃ closure, Stands closure levels ∧
      match ending, state.stack with
      | none, [] => Gives (turn flags itf) state (.ok (closure, layout.flush state.enabled []))
      | some (template, delims), frame :: _ => ∃ last, Reaches (turn flags itf) state last ∧
          turn flags itf last = act itf
            { state with template := template, delims := delims, layout := layout, closure := closure }
            (.closes frame.name)
      | _, _ => False

/-- What was parsed tells what the engine does from there. -/
def Follows (names : List Bytes) (delims : Delimiters) (text : Bytes) (nodes : List Node)
    (ending : Option (Bytes × Delimiters)) : Prop :=
  ∀ (state : State Closure) (context later levels), state.template = text → state.delims = delims →
    state.stack.map Frame.name = names → Stands state.closure ((context, later) :: levels) →
    Ends flags itf view Stands expand state ((context, later) :: levels) ending
      (renderNodes view expand state.outer nodes context state.enabled state.layout)

end

section
variable {flags : Flags} {itf : Interface Closure} {view : View Context}
  {Stands : Closure → List (Context × List Context) → Prop} {expand : Expansion Context}

theorem Pends.of_reaches {state next : State Closure} (moves : Reaches (turn flags itf) state next)
    (pends : Pends flags itf view Stands expand next) : Pends flags itf view Stands expand state := by
  obtain ⟨closure, context, later, levels, name, content, outer, file, stands, content, unknown, waits⟩ := pends
  exact ⟨_, _, _, _, _, _, _, _, stands, content, unknown, waits.of_reaches moves⟩

theorem Passes.of_reaches {start next base : State Closure} {place : Option (Bytes × Delimiters)}
    {levels : List (Context × List Context)} {outcome : Option (Except Failure Layout)}
    (moves : Reaches (turn flags itf) start next)
    (passes : Passes flags itf view Stands expand next base place levels outcome) :
    Passes flags itf view Stands expand start base place levels outcome := by
  match outcome, place with
  | none, _ => exact Pends.of_reaches moves passes
  | some (.error failure), _ => exact moves.gives.mpr passes
  | some (.ok layout), none => exact passes
  | some (.ok layout), some _ =>
    obtain ⟨closure, stands, later⟩ := passes
    exact ⟨closure, stands, moves.trans later⟩

theorem Ends.of_reaches {state : State Closure} {template : Bytes} {delims : Delimiters} {layout : Layout}
    {closure : Closure} {levels : List (Context × List Context)} {ending : Option (Bytes × Delimiters)}
    {outcome : Option (Except Failure Layout)}
    (moves : Reaches (turn flags itf) state
      { state with template := template, delims := delims, layout := layout, closure := closure })
    (ends : Ends flags itf view Stands expand
      { state with template := template, delims := delims, layout := layout, closure := closure } levels ending
      outcome) : Ends flags itf view Stands expand state levels ending outcome := by
  match outcome with
  | none => exact Pends.of_reaches moves ends
  | some (.error failure) => exact moves.gives.mpr ends
  | some (.ok layout) =>
    obtain ⟨closure', stands, there⟩ := ends
    refine ⟨closure', stands, ?_⟩
    obtain ⟨text, opening, stack, enabled, before, outer, held⟩ := state
    match ending, stack with
    | none, [] => exact moves.gives.mpr there
    | some _, _ :: _ =>
      obtain ⟨last, more, here⟩ := there
      exact ⟨last, moves.trans more, here⟩
    | none, _ :: _ => exact there
    | some _, [] => exact there

/-- Some nodes, and then the others. -/
theorem Passes.ends {state : State Closure} {place ending : Option (Bytes × Delimiters)}
    {levels : List (Context × List Context)} {first : Option (Except Failure Layout)}
    {second : Layout → Option (Except Failure Layout)}
    (passes : Passes flags itf view Stands expand state state place levels first)
    (ends : ∀ {template delims layout closure}, place = some (template, delims) → Stands closure levels →
      Ends flags itf view Stands expand
        { state with template := template, delims := delims, layout := layout, closure := closure } levels ending
        (second layout)) : Ends flags itf view Stands expand state levels ending (after first second) := by
  match first, place with
  | none, _ => exact passes
  | some (.error failure), _ => exact passes
  | some (.ok layout), none => exact passes.elim
  | some (.ok layout), some (template, delims) =>
    obtain ⟨closure, stands, moves⟩ := passes
    exact Ends.of_reaches moves (ends rfl stands)

/-- The nodes of a section, and then what its closing tag does. -/
theorem Ends.passes (inner : State Closure) {base : State Closure} {frame : Frame} {frames : List Frame}
    {inside levels : List (Context × List Context)} {ending place : Option (Bytes × Delimiters)}
    {first : Option (Except Failure Layout)} {second : Layout → Option (Except Failure Layout)}
    (ends : Ends flags itf view Stands expand { inner with stack := frame :: frames } inside ending first)
    (closing : ∀ {template delims layout closure last}, ending = some (template, delims) → Stands closure inside →
      turn flags itf last = act itf { inner with
        template := template
        delims := delims
        stack := frame :: frames
        layout := layout
        closure := closure } (.closes frame.name) →
      Passes flags itf view Stands expand last base place levels (second layout)) :
    Passes flags itf view Stands expand { inner with stack := frame :: frames } base place levels
      (after first second) := by
  match first, ending with
  | none, _ => exact ends
  | some (.error failure), _ => exact ends
  | some (.ok layout), none =>
    obtain ⟨_, _, there⟩ := ends
    exact there.elim
  | some (.ok layout), some (template, delims) =>
    obtain ⟨closure, stands, last, moves, here⟩ := ends
    exact Passes.of_reaches moves (closing rfl stands here)

/-- A section whose closing tag does not go back. -/
theorem Follows.once {names : List Bytes} {base : State Closure} (frame : Frame) (enabled : Bool) {closure : Closure}
    {body : List Node} {ending : Option (Bytes × Delimiters)} {context : Context} {later : List Context}
    {inside levels : List (Context × List Context)}
    (follows : Follows flags itf view Stands expand (frame.name :: names) base.delims base.template body ending)
    (opened : base.stack.map Frame.name = names) (stands : Stands closure ((context, later) :: inside))
    (closing : ∀ {closure'}, Stands closure' ((context, later) :: inside) → ∃ closure'', Stands closure'' levels ∧
      ∀ template delims layout, act itf { base with
        template := template
        delims := delims
        stack := frame :: base.stack
        enabled := enabled
        layout := layout
        closure := closure' } (.closes frame.name) =
      .goes { base with template := template, delims := delims, layout := layout, closure := closure'' }) :
    Passes flags itf view Stands expand
      { base with stack := frame :: base.stack, enabled := enabled, closure := closure } base ending levels
      (renderNodes view expand base.outer body context enabled base.layout) := by
  rw [← after_some_ok (renderNodes view expand base.outer body context enabled base.layout)]
  refine Ends.passes { base with enabled := enabled, closure := closure }
    (follows _ _ _ _ rfl rfl (congrArg (frame.name :: ·) opened) stands) ?_
  intro template delims layout closure' last known stands' here
  obtain ⟨closure'', stands'', closes⟩ := closing stands'
  subst known
  exact ⟨closure'', stands'', ReflTransGen.single (Step.goes (here.trans (closes template delims layout)))⟩

/-- The items of a section, from one on. -/
theorem Follows.items (shows : Shows itf view Stands) {name : Bytes} {names : List Bytes} {base : State Closure}
    {body : List Node} {ending : Option (Bytes × Delimiters)}
    (follows : Follows flags itf view Stands expand (name :: names) base.delims base.template body ending)
    (same : ∀ {template delims}, ending = some (template, delims) → delims = base.delims)
    (opened : base.stack.map Frame.name = names) (enabled : base.enabled = true) {level : Context × List Context}
    {levels : List (Context × List Context)} (items : List Context) (item : Context) (layout : Layout)
    (closure : Closure) (stands : Stands closure ((item, items) :: level :: levels)) :
    Passes flags itf view Stands expand
      { base with
        stack := ⟨name, base.template, base.enabled, true⟩ :: base.stack
        layout := layout
        closure := closure } base ending (level :: levels)
      (each (fun item => renderNodes view expand base.outer body item base.enabled) (item :: items) layout) := by
  induction items generalizing item layout closure with
  | nil =>
    refine Ends.passes { base with layout := layout, closure := closure }
      (follows _ _ _ _ rfl rfl (congrArg (name :: ·) opened) stands) ?_
    intro template delims layout' closure' last known stands' here
    obtain rfl := same known
    subst known
    obtain ⟨closure'', past, stands''⟩ := shows.next stands'
    refine ⟨itf.leave closure'', shows.leave stands'', ReflTransGen.single (Step.goes (here.trans ?_))⟩
    simp [act, enabled, past]
  | cons item' items ih =>
    refine Ends.passes { base with layout := layout, closure := closure }
      (follows _ _ _ _ rfl rfl (congrArg (name :: ·) opened) stands) ?_
    intro template delims layout' closure' last known stands' here
    obtain rfl := same known
    obtain ⟨closure'', more, stands''⟩ := shows.next stands'
    refine Passes.of_reaches (ReflTransGen.single (Step.goes (here.trans ?_))) (ih item' layout' closure'' stands'')
    simp [act, enabled, more]

/-- A section, from its opening tag on. -/
theorem Follows.block (shows : Shows itf view Stands) {name : Bytes} {names : List Bytes} {start base : State Closure}
    {body : List Node} {ending : Option (Bytes × Delimiters)} {inverted : Bool}
    (follows : Follows flags itf view Stands expand (name :: names) base.delims base.template body ending)
    (same : ∀ {template delims}, ending = some (template, delims) → delims = base.delims)
    (opened : base.stack.map Frame.name = names) (shallow : base.stack.length ≠ MUSTACH_MAX_DEPTH)
    {context : Context} {later : List Context} {levels : List (Context × List Context)}
    (stands : Stands base.closure ((context, later) :: levels)) {layout : Layout}
    (before : base.layout = layout.tag base.enabled false)
    (here : turn flags itf start = act itf base (.opens inverted name)) :
    Passes flags itf view Stands expand start base ending ((context, later) :: levels)
      (renderNode view expand base.outer (.block inverted name body) context base.enabled layout) := by
  rw [renderNode]
  cases enabled : base.enabled with
  | false =>
    rw [enabled] at before
    rw [if_neg Bool.false_ne_true, ← before]
    refine Passes.of_reaches (ReflTransGen.single (Step.goes (here.trans ?_)))
      (Follows.once ⟨name, base.template, base.enabled, false⟩ false follows opened stands ?_)
    · simp [act, enabled, shallow]
    · intro closure' stands'
      refine ⟨closure', stands', ?_⟩
      simp [act]
  | true =>
    rw [enabled] at before
    rw [if_pos rfl, ← before]
    have enters := shows.enter stands name
    cases found : view.items context name with
    | error failure =>
      rw [found] at enters
      refine gives_ended (here.trans ?_)
      simp [act, enabled, shallow, enters]
    | ok items =>
      rw [found] at enters
      cases items with
      | nil =>
        obtain ⟨closure', enters, stands'⟩ := enters
        refine Passes.of_reaches (ReflTransGen.single (Step.goes (here.trans ?_)))
          (Follows.once ⟨name, base.template, base.enabled, false⟩ inverted
            follows opened stands' ?_)
        · cases inverted <;> simp [act, enabled, shallow, enters]
        · intro closure'' stands''
          refine ⟨closure'', stands'', ?_⟩
          simp [act]
      | cons item items =>
        obtain ⟨closure', enters, stands'⟩ := enters
        cases inverted with
        | true =>
          dsimp only
          rw [if_pos rfl, renderNodes_skipped view expand base.outer body context item]
          refine Passes.of_reaches (ReflTransGen.single (Step.goes (here.trans ?_)))
            (Follows.once ⟨name, base.template, base.enabled, true⟩ false
              follows opened stands' ?_)
          · simp [act, enabled, shallow, enters]
          · intro closure'' stands''
            refine ⟨itf.leave closure'', shows.leave stands'', ?_⟩
            simp [act, enabled]
        | false =>
          dsimp only
          rw [if_neg Bool.false_ne_true, ← enabled]
          refine Passes.of_reaches (ReflTransGen.single (Step.goes (here.trans ?_)))
            (Follows.items shows follows same opened enabled items item base.layout closure' stands')
          simp [act, enabled, shallow, enters]

/-- A tag where the engine goes on at once. -/
theorem Passes.goes {start base : State Closure} {tag : Tag} {delims : Delimiters} {layout : Layout}
    {closure : Closure} {levels : List (Context × List Context)} (stands : Stands closure levels)
    (here : turn flags itf start = act itf base tag)
    (acts : act itf base tag = .goes { base with delims := delims, layout := layout, closure := closure }) :
    Passes flags itf view Stands expand start base (some (base.template, delims)) levels (some (.ok layout)) :=
  ⟨closure, stands, ReflTransGen.single (Step.goes (here.trans acts))⟩

theorem Passes.value (shows : Shows itf view Stands) {start base : State Closure} {name : Bytes} {escape : Bool}
    {context : Context} {later : List Context} {levels : List (Context × List Context)}
    (stands : Stands base.closure ((context, later) :: levels))
    (here : turn flags itf start = act itf base (.value name escape)) :
    Passes flags itf view Stands expand start base (some (base.template, base.delims)) ((context, later) :: levels)
      (renderValue view context name escape base.enabled base.layout) := by
  rw [renderValue]
  cases enabled : base.enabled with
  | false =>
    rw [if_neg Bool.false_ne_true]
    exact Passes.goes stands here (if_neg (Bool.eq_false_iff.mp enabled))
  | true =>
    rw [if_pos rfl]
    have puts := shows.put stands name escape
    cases found : view.value context name escape with
    | error failure =>
      rw [found] at puts
      refine gives_ended (here.trans ?_)
      simp [act, enabled, puts, Except.map]
    | ok written =>
      rw [found] at puts
      exact Passes.goes stands here (by simp [act, enabled, puts, Except.map, Layout.write])

theorem Passes.inclusion (shows : Shows itf view Stands) (expands : Expands flags itf Stands expand)
    {start base : State Closure} {name : Bytes} {context : Context} {later : List Context}
    {levels : List (Context × List Context)} (stands : Stands base.closure ((context, later) :: levels))
    (here : turn flags itf start = act itf base (.inclusion name)) :
    Passes flags itf view Stands expand start base (some (base.template, base.delims)) ((context, later) :: levels)
      (renderInclusion view expand context name base.enabled base.layout) := by
  rw [renderInclusion]
  cases enabled : base.enabled with
  | false =>
    rw [if_neg Bool.false_ne_true]
    exact Passes.goes stands here (if_neg (Bool.eq_false_iff.mp enabled))
  | true =>
    rw [if_pos rfl]
    have puts := shows.inclusion stands name
    cases found : view.inclusion context name with
    | error failure =>
      rw [found] at puts
      refine gives_ended (here.trans ?_)
      simp [act, enabled, puts, Except.map]
    | ok content =>
      rw [found] at puts
      have calls : turn flags itf start = .calls
          (State.start content base.closure base.layout.file (base.layout.pref.outer ++ [base.layout.pref.own]))
          fun result => { base with closure := result.1, layout := { base.layout with file := result.2 } } := by
        rw [here]
        simp [act, enabled, puts, Except.map]
      have expanded := expands stands content (base.layout.pref.outer ++ [base.layout.pref.own]) base.layout.file
      cases outcome : expand context content (base.layout.pref.outer ++ [base.layout.pref.own]) base.layout.file with
      | none =>
        simp only [after, outcome]
        exact ⟨_, _, _, _, _, _, _, _, stands, found, outcome, start, _, ReflTransGen.refl, calls⟩
      | some result =>
        rw [outcome] at expanded
        simp only [after, outcome]
        cases result with
        | error failure => exact gives_of_callee calls expanded
        | ok file =>
          obtain ⟨closure, stands', gives⟩ := expanded
          exact ⟨closure, stands', ReflTransGen.single (Step.back calls gives)⟩

/-- A tag where the engine goes on, and what is after it. -/
theorem Follows.tag {chunk text rest : Bytes} {delims : Delimiters} {tag : Tag} {node : Node} {names : List Bytes}
    (place : Option (Bytes × Delimiters)) (nodes : List Node) {ending : Option (Bytes × Delimiters)}
    (read : lex flags delims text = .tag chunk tag rest)
    (passes : ∀ {start base : State Closure} {context later levels} {layout : Layout},
      Stands base.closure ((context, later) :: levels) → base.template = rest → base.delims = delims →
      base.stack.map Frame.name = names → base.layout = layout.tag base.enabled tag.inline →
      turn flags itf start = act itf base tag →
      Passes flags itf view Stands expand start base place ((context, later) :: levels)
        (renderNode view expand base.outer node context base.enabled layout))
    (follows : ∀ {template delims}, place = some (template, delims) →
      Follows flags itf view Stands expand names delims template nodes ending) :
    Follows flags itf view Stands expand names delims text ([.text chunk, node] ++ nodes) ending := by
  intro state context later levels template opening opened stands
  obtain rfl := template
  obtain rfl := opening
  have here := turn_lex flags itf state
  rw [read] at here
  have goes := @passes state { state with
    template := rest
    layout := (state.layout.readAll state.enabled state.outer chunk).tag state.enabled tag.inline }
    _ _ _ _ stands rfl rfl opened rfl here
  rw [renderNodes_append, renderNodes_text]
  exact Passes.ends goes fun known stands' => follows known _ _ _ _ rfl rfl opened stands'

/-- What ends nodes at a failure. -/
theorem Follows.fail {chunk text : Bytes} {delims : Delimiters} {names : List Bytes} {rc : Int}
    {ending : Option (Bytes × Delimiters)}
    (fails : ∀ {state : State Closure}, state.template = text → state.delims = delims →
      state.stack.map Frame.name = names → turn flags itf state = .ended (.error (.status rc))) :
    Follows flags itf view Stands expand names delims text [.text chunk, .fail rc] ending := by
  intro state context later levels template opening opened _
  rw [renderNodes_text, renderNode]
  exact gives_ended (fails template opening opened)

theorem Ends.last {state : State Closure} {chunk : Bytes} {context : Context} {later : List Context}
    {levels : List (Context × List Context)} (read : lex flags state.delims state.template = .last chunk)
    (top : state.stack = []) (stands : Stands state.closure ((context, later) :: levels)) :
    Ends flags itf view Stands expand state ((context, later) :: levels) none
      (renderNodes view expand state.outer [.text chunk] context state.enabled state.layout) := by
  have ended := turn_lex flags itf state
  rw [read] at ended
  obtain ⟨text, delims, stack, enabled, layout, outer, closure⟩ := state
  obtain rfl := top
  exact ⟨closure, stands, gives_ended ended⟩

theorem Ends.closes {state : State Closure} {chunk rest name : Bytes} {names : List Bytes} {context : Context}
    {later : List Context} {levels : List (Context × List Context)}
    (read : lex flags state.delims state.template = .tag chunk (.closes name) rest)
    (opened : state.stack.map Frame.name = name :: names)
    (stands : Stands state.closure ((context, later) :: levels)) :
    Ends flags itf view Stands expand state ((context, later) :: levels) (some (rest, state.delims))
      (renderNodes view expand state.outer [.text chunk, .mark] context state.enabled state.layout) := by
  have closes := turn_lex flags itf state
  rw [read] at closes
  obtain ⟨frame, frames, stack, rfl, -⟩ := List.map_eq_cons_iff.mp opened
  obtain ⟨text, delims, stack, enabled, layout, outer, closure⟩ := state
  subst stack
  rw [renderNodes_text]
  exact ⟨closure, stands, _, ReflTransGen.refl, closes⟩

theorem Follows.last {chunk text : Bytes} {delims : Delimiters} (names : List Bytes)
    (read : lex flags delims text = .last chunk) :
    Follows flags itf view Stands expand names delims text
      (.text chunk :: if names = [] then [] else [.fail MUSTACH_ERROR_UNEXPECTED_END]) none := by
  split_ifs with top
  · rintro state context later levels rfl rfl opened stands
    exact Ends.last read (List.map_eq_nil_iff.mp (opened.trans top)) stands
  · refine Follows.fail ?_
    rintro state rfl rfl opened
    rw [turn_lex, read]
    exact if_neg fun none => top (by rw [← opened, none]; rfl)

theorem Follows.bad {chunk text : Bytes} {delims : Delimiters} {rc : Int} (names : List Bytes)
    (read : lex flags delims text = .bad chunk rc) :
    Follows flags itf view Stands expand names delims text [.text chunk, .fail rc] none := by
  refine Follows.fail ?_
  rintro state rfl rfl _
  rw [turn_lex, read]

section
variable {fuel : Nat} {names : List Bytes} {delims : Delimiters} {text chunk rest : Bytes} {nodes : List Node}
  {ending : Option (Bytes × Delimiters)}

/-- A tag after which the parser goes on in the same sections. -/
theorem Follows.next
    (follows : ∀ {names delims text nodes ending}, parse flags fuel names delims text = some (nodes, ending) →
      Follows flags itf view Stands expand names delims text nodes ending)
    {template : Bytes} {tag : Tag} {node : Node} {delims' : Delimiters}
    (read : lex flags delims text = .tag chunk tag rest)
    (known : (parse flags fuel names delims' template).map (Parsed.follow [.text chunk, node]) = some (nodes, ending))
    (passes : ∀ {start base : State Closure} {context later levels} {layout : Layout},
      Stands base.closure ((context, later) :: levels) → base.template = rest → base.delims = delims →
      base.stack.map Frame.name = names → base.layout = layout.tag base.enabled tag.inline →
      turn flags itf start = act itf base tag →
      Passes flags itf view Stands expand start base (some (template, delims')) ((context, later) :: levels)
        (renderNode view expand base.outer node context base.enabled layout)) :
    Follows flags itf view Stands expand names delims text nodes ending := by
  obtain ⟨parsed, known', same⟩ := Option.map_eq_some_iff.mp known
  obtain ⟨rfl, rfl⟩ := Prod.mk.inj same
  refine Follows.tag _ _ read passes ?_
  rintro _ _ ⟨⟩
  exact follows known'

theorem Follows.opens (shows : Shows itf view Stands)
    (follows : ∀ {names delims text nodes ending}, parse flags fuel names delims text = some (nodes, ending) →
      Follows flags itf view Stands expand names delims text nodes ending)
    {inverted : Bool} {name : Bytes} (read : lex flags delims text = .tag chunk (.opens inverted name) rest)
    (known : parse flags (fuel + 1) names delims text = some (nodes, ending)) :
    Follows flags itf view Stands expand names delims text nodes ending := by
  rw [parse, read] at known
  dsimp only at known
  split_ifs at known with deep
  · obtain ⟨rfl, rfl⟩ := Prod.mk.inj (Option.some.inj known)
    refine Follows.fail ?_
    rintro state rfl rfl opened
    rw [turn_lex, read]
    exact if_pos (by rw [← deep, ← opened, List.length_map])
  · obtain ⟨⟨body, place⟩, inside, known⟩ := Option.bind_eq_some_iff.mp known
    have within := follows inside
    cases place with
    | none =>
      obtain ⟨rfl, rfl⟩ := Prod.mk.inj (Option.some.inj known)
      refine Follows.tag none [] read ?_ ?_
      · rintro start base context later levels layout stands rfl rfl opened before here
        have shallow : base.stack.length ≠ MUSTACH_MAX_DEPTH := by rwa [← opened, List.length_map] at deep
        exact Follows.block shows within (fun known => by cases known) opened shallow stands before here
      · rintro _ _ ⟨⟩
    | some place =>
      obtain ⟨template, delims'⟩ := place
      dsimp only at known
      split_ifs at known with same
      obtain rfl := same
      refine Follows.next follows read known ?_
      rintro start base context later levels layout stands rfl rfl opened before here
      have shallow : base.stack.length ≠ MUSTACH_MAX_DEPTH := by rwa [← opened, List.length_map] at deep
      refine Follows.block shows within ?_ opened shallow stands before here
      rintro _ _ ⟨⟩
      rfl

theorem Follows.closes {name : Bytes} (read : lex flags delims text = .tag chunk (.closes name) rest)
    (known : parse flags (fuel + 1) names delims text = some (nodes, ending)) :
    Follows flags itf view Stands expand names delims text nodes ending := by
  rw [parse, read] at known
  dsimp only at known
  cases names with
  | nil =>
    obtain ⟨rfl, rfl⟩ := Prod.mk.inj (Option.some.inj known)
    refine Follows.fail ?_
    rintro state rfl rfl opened
    rw [turn_lex, read]
    simp [act, List.map_eq_nil_iff.mp opened]
  | cons opened names =>
    dsimp only at known
    split_ifs at known with same
    · obtain ⟨rfl, rfl⟩ := Prod.mk.inj (Option.some.inj known)
      obtain rfl := same
      rintro state context later levels rfl rfl opened' stands
      exact Ends.closes read opened' stands
    · obtain ⟨rfl, rfl⟩ := Prod.mk.inj (Option.some.inj known)
      refine Follows.fail ?_
      rintro state rfl rfl opened'
      obtain ⟨frame, frames, stack, named, -⟩ := List.map_eq_cons_iff.mp opened'
      rw [turn_lex, read]
      simp only [act, stack, named]
      exact if_pos same

end

theorem parse_follows (shows : Shows itf view Stands) (expands : Expands flags itf Stands expand) {fuel : Nat}
    {names : List Bytes} {delims : Delimiters} {text : Bytes} {nodes : List Node} {ending : Option (Bytes × Delimiters)}
    (known : parse flags fuel names delims text = some (nodes, ending)) :
    Follows flags itf view Stands expand names delims text nodes ending := by
  induction fuel generalizing names delims text nodes ending with
  | zero => cases known
  | succ fuel ih =>
    have parsed := known
    rw [parse] at known
    cases read : lex flags delims text with
    | last chunk =>
      rw [read] at known
      obtain ⟨rfl, rfl⟩ := Prod.mk.inj (Option.some.inj known)
      exact Follows.last names read
    | bad chunk rc =>
      rw [read] at known
      obtain ⟨rfl, rfl⟩ := Prod.mk.inj (Option.some.inj known)
      exact Follows.bad names read
    | tag chunk tag rest =>
      rw [read] at known
      cases tag with
      | comment =>
        refine Follows.next ih read known ?_
        rintro start base context later levels layout stands rfl rfl _ (before : _ = layout.tag base.enabled false) here
        rw [renderNode, ← before]
        exact Passes.goes stands here rfl
      | delimiters delims' =>
        refine Follows.next ih read known ?_
        rintro start base context later levels layout stands rfl rfl _ (before : _ = layout.tag base.enabled false) here
        rw [renderNode, ← before]
        exact Passes.goes stands here rfl
      | value name escape =>
        refine Follows.next ih read known ?_
        rintro start base context later levels layout stands rfl rfl _ (before : _ = layout.tag base.enabled true) here
        rw [renderNode, ← before]
        exact Passes.value shows stands here
      | inclusion name =>
        refine Follows.next ih read known ?_
        rintro start base context later levels layout stands rfl rfl _ (before : _ = layout.tag base.enabled false) here
        rw [renderNode, ← before]
        exact Passes.inclusion shows expands stands here
      | opens inverted name => exact Follows.opens shows ih read parsed
      | closes name => exact Follows.closes read parsed

end
end AppManager.Mustach
