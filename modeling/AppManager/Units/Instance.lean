import AppManager.Units.Explore

/-! What the instance of a template for an object is. The context of a section has its item above the
ones of the sections around it. -/

namespace AppManager.Units
open AppManager.Lib AppManager.Lib.Calls AppManager.Mustach

def Expl.push (e : Expl) (o : Json) : Expl := ⟨e.stack ++ [o], List.append_ne_nil_of_right_ne_nil _ (List.cons_ne_nil _ _)⟩

def sections (truth : Bytes → Bool) : Json → List Json
  | .array items => items
  | o => if o.isObject ∨ getBoolean truth o then [o] else []

section
variable (serialize : Json → Bytes) (truth : Bytes → Bool)

/-- What a name means in a context, for the code that does not test the values of a null object. -/
def seek (e : Expl) (name : Bytes) : Except Failure Json :=
  if (Name.ofText (cstr name)).ComparesNull e then .error .crash
  else .ok ((Name.ofText (cstr name)).meaning serialize e)

def seekAny (e : Expl) : List Bytes → Except Failure Json
  | [] => .ok .null
  | name :: later => (seek serialize e name).bind fun o => if o.isNull then seekAny e later else .ok o

def view : View Expl where
  value e name escape :=
    (seek serialize e name).map fun o => ((o.getString serialize).map (print · escape)).getD []
  items e name := (seekAny serialize e (alternatives (cstr name))).bind fun o =>
    if MAX_DEPTH ≤ e.stack.length then .error (.status MUSTACH_ERROR_TOO_DEEP) else .ok ((sections truth o).map e.push)
  inclusion e name :=
    (seek serialize e name).map fun o => ((o.getString serialize).map (print · false)).getD []

end

/-- The contexts of places, each one with the ones of the items that follow it. -/
def levels : List Place → List (Expl × List Expl)
  | [] => []
  | place :: outer =>
    (above outer place.obj, (place.cont.arrayItems.drop (place.index + 1)).map (above outer)) :: levels outer

def Inside (root : Json) (e : Exploration) : Prop := ∀ place ∈ e.current :: e.outer, root.Within place.obj ∧
  ∀ item ∈ place.cont.arrayItems, root.Within item

def Shown (root : Json) (e : Exploration) (shown : List (Expl × List Expl)) : Prop :=
  shown = levels (e.current :: e.outer) ∧ Inside root e

section
variable {serialize : Json → Bytes} {truth : Bytes → Bool}

theorem find_seek (serialize : Json → Bytes) (e : Expl) (name : Bytes) :
    (seek serialize e name = .error .crash ∧ find serialize e name = .error .nullString) ∨
      ∃ o, seek serialize e name = .ok o ∧ find serialize e name = .ok o := by
  rw [find_eq, seek]
  split_ifs with null
  · exact Or.inl ⟨rfl, rfl⟩
  · exact Or.inr ⟨_, rfl, rfl⟩

theorem findAny_seekAny (serialize : Json → Bytes) (e : Expl) (names : List Bytes) :
    (seekAny serialize e names = .error .crash ∧ findAny serialize e names = .error .nullString) ∨
      ∃ o, seekAny serialize e names = .ok o ∧ findAny serialize e names = .ok o := by
  induction names with
  | nil => exact Or.inr ⟨.null, rfl, rfl⟩
  | cons name later ih =>
    rw [seekAny, findAny]
    rcases find_seek serialize e name with ⟨crashes, here⟩ | ⟨o, means, here⟩
    · rw [crashes, here]
      exact Or.inl ⟨rfl, rfl⟩
    · rw [means, here]
      cases o with
      | null => exact ih
      | _ => exact Or.inr ⟨_, rfl, rfl⟩

@[simp] theorem above_push (place : Place) (outer : List Place) (o : Json) :
    (above outer place.obj).push o = above (place :: outer) o := by
  simp [above, Expl.push]

theorem resolve_within {root : Json} {e : Expl} (inside : ∀ o ∈ e.stack, root.Within o) {keys : List Bytes} {o : Json}
    (resolves : e.resolve keys = some o) : root.Within o := by
  cases keys with
  | nil => cases resolves
  | cons key keys =>
    obtain ⟨first, here, rest⟩ := Option.bind_eq_some_iff.mp resolves
    obtain ⟨_, _, there⟩ := List.exists_of_findSome?_eq_some here
    obtain ⟨context, member, found⟩ := List.exists_of_findSome?_eq_some there
    have within : root.Within first := Json.Within.member (inside context (List.mem_reverse.mp member)) found
    clear resolves here there found
    induction keys generalizing first with
    | nil =>
      cases rest
      exact within
    | cons key keys ih =>
      rw [List.foldlM_cons] at rest
      obtain ⟨second, here, rest⟩ := Option.bind_eq_some_iff.mp rest
      obtain ⟨_, _, found⟩ := List.exists_of_findSome?_eq_some here
      exact ih second rest (Json.Within.member within found)

theorem seek_within {root : Json} {e : Expl} (inside : ∀ o ∈ e.stack, root.Within o) {name : Bytes} {o : Json}
    (means : seek serialize e name = .ok o) : o = .null ∨ root.Within o := by
  unfold seek at means
  split_ifs at means
  obtain rfl := Except.ok.inj means
  rw [Name.meaning]
  cases found : ((Name.ofText (cstr name)).object e).filter
    fun o => (Name.ofText (cstr name)).test.all (Name.accepts serialize o) with
  | none => exact Or.inl rfl
  | some o =>
    refine Or.inr ?_
    have object := (Option.filter_eq_some_iff.mp found).1
    unfold Name.object at object
    split_ifs at object
    · obtain rfl := Option.some.inj object
      exact inside _ (List.getLast_mem e.some)
    · exact resolve_within inside object

theorem seekAny_within {root : Json} {e : Expl} (inside : ∀ o ∈ e.stack, root.Within o) {names : List Bytes} {o : Json}
    (means : seekAny serialize e names = .ok o) : o = .null ∨ root.Within o := by
  induction names with
  | nil => exact Or.inl (Except.ok.inj means).symm
  | cons name later ih =>
    rw [seekAny] at means
    cases found : seek serialize e name with
    | error failure =>
      rw [found] at means
      cases means
    | ok o' =>
      rw [found] at means
      change (if o'.isNull then seekAny serialize e later else .ok o') = .ok o at means
      split_ifs at means with null
      · exact ih means
      · obtain rfl := Except.ok.inj means
        exact seek_within inside found

theorem inside_expl {root : Json} {e : Exploration} (inside : Inside root e) : ∀ o ∈ e.expl.stack, root.Within o := by
  intro o member
  rcases List.mem_append.mp member with below | here
  · obtain ⟨place, there, rfl⟩ := List.mem_map.mp below
    exact (inside place (List.mem_cons_of_mem _ (List.mem_reverse.mp there))).1
  · obtain rfl := List.mem_singleton.mp here
    exact (inside e.current List.mem_cons_self).1

theorem enter_items (serialize : Json → Bytes) (truth : Bytes → Bool) {root : Json} {e : Exploration}
    (inside : Inside root e) (name : Bytes) :
    match (view serialize truth).items e.expl name with
    | .error failure => enter serialize truth e name = .error failure
    | .ok [] => enter serialize truth e name = .ok (false, e)
    | .ok (item :: items) => ∃ e', enter serialize truth e name = .ok (true, e') ∧ Inside root e' ∧
        levels (e'.current :: e'.outer) = (item, items) :: levels (e.current :: e.outer) := by
  have depth : e.expl.stack.length = e.outer.length + 1 := by simp [Exploration.expl, above]
  have pushed (o : Json) : e.expl.push o = above (e.current :: e.outer) o := above_push e.current e.outer o
  have items : (view serialize truth).items e.expl name =
      (seekAny serialize e.expl (alternatives (cstr name))).bind fun o =>
        if MAX_DEPTH ≤ e.outer.length + 1 then .error (.status MUSTACH_ERROR_TOO_DEEP)
        else .ok ((sections truth o).map (above (e.current :: e.outer))) := by
    rw [← depth, ← funext pushed]
    rfl
  rw [items, enter, findor]
  rcases findAny_seekAny serialize e.expl (alternatives (cstr name)) with ⟨crashes, here⟩ | ⟨o, means, here⟩
  · rw [crashes, here]
    rfl
  have within := seekAny_within (inside_expl inside) means
  rw [means, here]
  dsimp only [Except.bind]
  by_cases deep : MAX_DEPTH ≤ e.outer.length + 1
  · rw [if_pos deep, if_pos deep]
  rw [if_neg deep, if_neg deep]
  have entered {o : Json} (place : Place) (obj : place.obj = o) (object : root.Within o)
      (items : ∀ item ∈ place.cont.arrayItems, root.Within item) : Inside root ⟨place, e.current :: e.outer⟩ := by
    intro place' member
    rcases List.mem_cons.mp member with rfl | there
    · exact ⟨obj ▸ object, items⟩
    · exact inside place' there
  cases o with
  | array items =>
    have within : root.Within (.array items) := within.resolve_left nofun
    cases items with
    | nil => rfl
    | cons item items =>
      have all (item' : Json) (member : item' ∈ item :: items) : root.Within item' := Json.Within.item within member
      exact ⟨_, rfl, entered _ rfl (all item List.mem_cons_self) all, rfl⟩
  | _ =>
    -- what is not an array is its own item
    dsimp only [sections]
    split_ifs with whole
    · refine ⟨_, rfl, entered _ rfl (within.resolve_left ?_) nofun, rfl⟩
      intro null
      cases null <;> simp [Json.isObject, getBoolean] at whole
    · rfl

theorem put_value (truth : Bytes → Bool) (e : Exploration) (name : Bytes) (escape : Bool) :
    put serialize e name escape =
      ((view serialize truth).value e.expl name escape).map fun written => (e, written) := by
  rw [put]
  change _ = ((seek serialize e.expl name).map _).map _
  rcases find_seek serialize e.expl name with ⟨crashes, here⟩ | ⟨o, means, here⟩
  · rw [crashes, here]
    rfl
  · rw [means, here]
    rfl

theorem next_item {root : Json} {e : Exploration} (inside : Inside root e) (open' : e.outer ≠ []) :
    match (e.current.cont.arrayItems.drop (e.current.index + 1)).map (above e.outer) with
    | [] => ∃ e', next e = .ok (false, e') ∧ Inside root e' ∧
        levels (e'.current :: e'.outer) = (e.expl, []) :: levels e.outer
    | item :: items => ∃ e', next e = .ok (true, e') ∧ Inside root e' ∧
        levels (e'.current :: e'.outer) = (item, items) :: levels e.outer := by
  obtain ⟨⟨cont, obj, index, count, counted⟩, outer⟩ := e
  obtain ⟨place, outer, rfl⟩ := List.exists_cons_of_ne_nil open'
  have current := inside _ List.mem_cons_self
  dsimp only at counted current ⊢
  have moved {place' : Place} (object : root.Within place'.obj)
      (items : ∀ item ∈ place'.cont.arrayItems, root.Within item) : Inside root ⟨place', place :: outer⟩ := by
    intro place'' member
    rcases List.mem_cons.mp member with rfl | there
    · exact ⟨object, items⟩
    · exact inside place'' (List.mem_cons_of_mem _ there)
  cases later : cont.arrayItems.drop (index + 1) with
  | nil =>
    have least := List.drop_eq_nil_iff.mp later
    have past : count ≤ index + 1 := by omega
    refine ⟨_, if_pos past, moved current.1 current.2, ?_⟩
    have none : cont.arrayItems.drop (index + 1 + 1) = [] := List.drop_eq_nil_iff.mpr (by omega)
    rw [levels]
    dsimp only
    rw [none]
    rfl
  | cons item items =>
    have more : index + 1 < cont.arrayItems.length := by
      by_contra least
      rw [List.drop_eq_nil_iff.mpr (Nat.le_of_not_lt least)] at later
      cases later
    have past : ¬count ≤ index + 1 := by omega
    rw [List.drop_eq_getElem_cons more] at later
    obtain ⟨rfl, rfl⟩ := List.cons.inj later
    have found : (cont.arrayItems[index + 1]?).getD .null = cont.arrayItems[index + 1] := by
      rw [List.getElem?_eq_getElem more, Option.getD_some]
    refine ⟨_, if_neg past, moved ?_ current.2, ?_⟩
    · dsimp only
      rw [found]
      exact current.2 _ (List.getElem_mem more)
    · rw [levels]
      dsimp only
      rw [found]

theorem itf_shows (root : Json) : Shows (itf serialize truth) (view serialize truth) (Shown root) where
  put := by
    rintro e context later shown ⟨same, inside⟩ name escape
    obtain ⟨rfl, rfl⟩ := Prod.mk.inj (List.cons.inj same).1
    exact put_value truth e name escape
  inclusion := by
    rintro e context later shown ⟨same, inside⟩ name
    obtain ⟨rfl, rfl⟩ := Prod.mk.inj (List.cons.inj same).1
    exact put_value truth e name false
  enter := by
    rintro e context later shown ⟨same, inside⟩ name
    obtain ⟨rfl, rfl⟩ := Prod.mk.inj (List.cons.inj same).1
    have enters := enter_items serialize truth inside name
    rw [same]
    match found : (view serialize truth).items e.expl name with
    | .error failure =>
      rw [found] at enters
      exact enters
    | .ok [] =>
      rw [found] at enters
      exact ⟨e, enters, rfl, inside⟩
    | .ok (item :: items) =>
      rw [found] at enters
      obtain ⟨e', enters, inside', shown⟩ := enters
      exact ⟨e', enters, shown.symm, inside'⟩
  next := by
    intro e context later level shown ⟨same, inside⟩
    obtain ⟨here, below⟩ := List.cons.inj same
    obtain ⟨rfl, rfl⟩ := Prod.mk.inj here
    have open' : e.outer ≠ [] := by
      intro none
      rw [none] at below
      cases below
    have goesOn := next_item inside open'
    rw [below]
    match known : (e.current.cont.arrayItems.drop (e.current.index + 1)).map (above e.outer) with
    | [] =>
      rw [known] at goesOn
      obtain ⟨e', past, inside', shown⟩ := goesOn
      exact ⟨e', past, shown.symm, inside'⟩
    | item :: items =>
      rw [known] at goesOn
      obtain ⟨e', more, inside', shown⟩ := goesOn
      exact ⟨e', more, shown.symm, inside'⟩
  leave := by
    rintro e level level' shown ⟨same, inside⟩
    obtain ⟨_, below⟩ := List.cons.inj same
    obtain ⟨current, outer⟩ := e
    cases outer with
    | nil => cases below
    | cons place outer => exact ⟨below, fun place' member => inside place' (List.mem_cons_of_mem _ member)⟩

theorem start_shown (root : Json) : Shown root (Exploration.start root) [(above [] root, [])] := by
  refine ⟨rfl, ?_⟩
  intro place member
  obtain rfl := List.mem_singleton.mp member
  exact ⟨Json.Within.root, nofun⟩

theorem inclusion_text {root : Json} {e : Exploration} {context : Expl} {later : List Expl}
    {shown : List (Expl × List Expl)} (stands : Shown root e ((context, later) :: shown)) {name content : Bytes}
    (found : (view serialize truth).inclusion context name = .ok content) :
    content = [] ∨ ∃ o, root.Within o ∧ content <:+: (o.getString serialize).getD [] := by
  obtain ⟨same, inside⟩ := stands
  obtain ⟨rfl, _⟩ := Prod.mk.inj (List.cons.inj same).1
  change (seek serialize e.expl name).map _ = _ at found
  cases means : seek serialize e.expl name with
  | error failure =>
    rw [means] at found
    cases found
  | ok o =>
    rw [means] at found
    obtain rfl := Except.ok.inj found
    rcases seek_within (inside_expl inside) means with rfl | within
    · exact Or.inl rfl
    · refine Or.inr ⟨o, within, ?_⟩
      change ((o.getString serialize).map (print · false)).getD [] <:+: _
      cases o.getString serialize with
      | none => exact List.infix_refl _
      | some text => exact (List.takeWhile_prefix _).isInfix

/-- What `apply_mustach` returns for a failure. -/
def reported : Except Failure Bytes → Except Failure Bytes
  | .error (.status _) => .error (.status (-1))
  | result => result

theorem applyMustach_eq (fuel : Nat) (template : Bytes) (root : Json) :
    applyMustach serialize truth fuel template root =
      (process .all (itf serialize truth) fuel (cstr template) (Exploration.start root) [] []).map fun outcome =>
        reported (outcome.map Prod.snd) := by
  rw [applyMustach]
  refine congrArg (Option.map · _) (funext fun outcome => ?_)
  match outcome with
  | .ok _ => rfl
  | .error (.status _) => rfl
  | .error .crash => rfl

/-- The result is the rendering of the template in the context of the root, at a depth where partials end. -/
theorem applyMustach_renders (serialize : Json → Bytes) (truth : Bytes → Bool) (template : Bytes) (root : Json)
    (fixed : ¬[braceOpen, braceOpen, equalSign] <:+: cstr template)
    (values : ∀ o, root.Within o → ¬[braceOpen, braceOpen, equalSign] <:+: (o.getString serialize).getD [])
    (result : Except Failure Bytes) :
    (∃ fuel, applyMustach serialize truth fuel template root = some result) ↔
      ∃ depth, (render .all (view serialize truth) depth (above [] root) (cstr template) [] []).map reported =
        some result := by
  have parses {e : Exploration} {context later levels name content}
      (stands : Shown root e ((context, later) :: levels))
      (found : (view serialize truth).inclusion context name = .ok content) : parseTemplate .all content ≠ none :=
    parseTemplate_fixed fun inside => by
      rcases inclusion_text stands found with rfl | ⟨o, within, part⟩
      · cases List.infix_nil.mp inside
      · exact values o within (inside.trans part)
  have meaning (result : Except Failure Bytes) :=
    process_iff_render .all (itf_shows root) parses [] [] (start_shown root) (parseTemplate_fixed fixed) result
  constructor
  · rintro ⟨fuel, gives⟩
    rw [applyMustach_eq] at gives
    obtain ⟨outcome, ends, rfl⟩ := Option.map_eq_some_iff.mp gives
    obtain ⟨depth, renders⟩ := (meaning (outcome.map Prod.snd)).mp ⟨fuel, outcome, ends, rfl⟩
    exact ⟨depth, by rw [renders]; rfl⟩
  · rintro ⟨depth, renders⟩
    obtain ⟨rendered, known, rfl⟩ := Option.map_eq_some_iff.mp renders
    obtain ⟨fuel, outcome, gives, rfl⟩ := (meaning rendered).mpr ⟨depth, known⟩
    exact ⟨fuel, by rw [applyMustach_eq, gives]; rfl⟩

def sampleRoot : Json :=
  .object [(ascii "name", .string (ascii "radio")), (ascii "ids", .array [.string (ascii "a"), .string (ascii "b")])]

theorem within_sampleRoot {o : Json} (within : sampleRoot.Within o) :
    o = sampleRoot ∨ o = .string (ascii "radio") ∨ o = .array [.string (ascii "a"), .string (ascii "b")] ∨
      o = .string (ascii "a") ∨ o = .string (ascii "b") := by
  induction within with
  | root => exact Or.inl rfl
  | item _ member ih =>
    rcases ih with rfl | rfl | rfl | rfl | rfl
    · cases member
    · cases member
    · rcases List.mem_pair.mp member with rfl | rfl
      · exact Or.inr (Or.inr (Or.inr (Or.inl rfl)))
      · exact Or.inr (Or.inr (Or.inr (Or.inr rfl)))
    · cases member
    · cases member
  | member _ found ih =>
    rcases ih with rfl | rfl | rfl | rfl | rfl
    · obtain ⟨member, here, rfl⟩ := Option.map_eq_some_iff.mp found
      rcases List.mem_pair.mp (List.mem_of_find?_eq_some here) with rfl | rfl
      · exact Or.inr (Or.inl rfl)
      · exact Or.inr (Or.inr (Or.inl rfl))
    all_goals cases found

/-- The instance of a line for a name, and of a section for two items. -/
theorem applyMustach_renders_sample :
    ∃ fuel, applyMustach (fun _ => []) (fun _ => true) fuel
        (ascii "name=\x7b\x7bname\x7d\x7d\n\x7b\x7b#ids\x7d\x7d\nid=\x7b\x7b.\x7d\x7d\n\x7b\x7b/ids\x7d\x7d\n")
        sampleRoot =
      some (.ok (ascii "name=radio\nid=a\nid=b\n")) := by
  refine (applyMustach_renders (fun _ => []) (fun _ => true) _ sampleRoot ?_ ?_ _).mpr ⟨1, ?_⟩
  · decide +kernel
  · intro o within
    rcases within_sampleRoot within with rfl | rfl | rfl | rfl | rfl <;> decide
  · decide +kernel

theorem waits_text {root : Json} {base : List (Expl × List Expl)} {state callee : State Exploration}
    {remains : Multiset ℕ} (before : Remains (Shown root) base state remains)
    (waits : Waits (turn .all (itf serialize truth)) state callee) :
    (∃ o, root.Within o ∧ callee.template <:+: (o.getString serialize).getD []) ∧ callee.delims = .initial ∧
      callee.stack = [] ∧ ∃ base remains, Remains (Shown root) base callee remains := by
  obtain ⟨context, later, shown, name, content, e, file, outer, rfl, stands, found⟩ :=
    waits_content (itf_shows root) before waits
  refine ⟨?_, rfl, rfl, _, _, Remains.start stands content file outer⟩
  rcases inclusion_text stands found with rfl | inside
  · exact ⟨root, Json.Within.root, List.nil_infix⟩
  · exact inside

/-- Only values of the object that include each other without end keep `apply_mustach` from ending. -/
theorem applyMustach_endless_iff (serialize : Json → Bytes) (truth : Bytes → Bool) (template : Bytes) (root : Json) :
    (∀ fuel, applyMustach serialize truth fuel template root = none) ↔
      ∃ chain : ℕ → State Exploration, chain 0 = State.start (cstr template) (Exploration.start root) [] [] ∧
        ∀ n, Waits (turn .all (itf serialize truth)) (chain n) (chain (n + 1)) ∧
          ∃ o, root.Within o ∧ (chain (n + 1)).template <:+: (o.getString serialize).getD [] := by
  have endless : (∀ fuel, applyMustach serialize truth fuel template root = none) ↔
      ∀ fuel, process .all (itf serialize truth) fuel (cstr template) (Exploration.start root) [] [] = none := by
    simp only [applyMustach_eq, Option.map_eq_none_iff]
  rw [endless, process_endless_iff (itf_shows root) (start_shown root)]
  constructor
  · intro ⟨chain, start, waits⟩
    have remains (n : ℕ) : ∃ base remains, Remains (Shown root) base (chain n) remains := by
      induction n with
      | zero =>
        rw [start]
        exact ⟨_, _, Remains.start (start_shown root) _ _ _⟩
      | succ n ih =>
        obtain ⟨base, remains, before⟩ := ih
        exact (waits_text before (waits n)).2.2.2
    refine ⟨chain, start, fun n => ⟨waits n, ?_⟩⟩
    obtain ⟨base, remains, before⟩ := remains n
    exact (waits_text before (waits n)).1
  · intro ⟨chain, start, waits⟩
    exact ⟨chain, start, fun n => (waits n).1⟩

/-- Without angle brackets in the object, `apply_mustach` ends for every template. -/
theorem applyMustach_ends (serialize : Json → Bytes) (truth : Bytes → Bool) (template : Bytes) (root : Json)
    (values : ∀ o, root.Within o → angle ∉ (o.getString serialize).getD []) :
    ∃ fuel result, applyMustach serialize truth fuel template root = some result := by
  have founded : Acc (fun callee caller => Waits (turn .all (itf serialize truth)) caller callee)
      (State.start (cstr template) (Exploration.start root) [] []) := by
    refine Acc.intro _ fun callee waits => Acc.intro _ fun callee' waits' => (plain_waits ?_ waits').elim
    obtain ⟨⟨o, within, part⟩, delims, stack, -⟩ :=
      waits_text (Remains.start (start_shown root) (cstr template) [] []) waits
    refine ⟨fun inside => values o within (part.subset inside), ?_, ?_⟩
    · rw [delims]
      decide
    · rw [stack]
      nofun
  obtain ⟨outcome, fuel, gives⟩ := (process_ends_iff (itf_shows root) (start_shown root) _ _ _).mpr founded
  refine ⟨fuel, reported (outcome.map Prod.snd), ?_⟩
  rw [applyMustach_eq, process, gives, Option.map_some]

/-- Partials that end, in a section that does not. -/
theorem applyMustach_ends_sample :
    ∃ fuel result, applyMustach (fun _ => []) (fun _ => true) fuel
      (ascii "\x7b\x7b>name\x7d\x7d\x7b\x7b#ids\x7d\x7d\x7b\x7b>.\x7d\x7d") sampleRoot = some result := by
  refine applyMustach_ends (fun _ => []) (fun _ => true) _ sampleRoot ?_
  intro o within
  rcases within_sampleRoot within with rfl | rfl | rfl | rfl | rfl <;> decide

end
end AppManager.Units
