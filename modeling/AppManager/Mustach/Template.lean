import AppManager.Mustach.Process
import AppManager.Lib.Outcome

/-! What a template is made of. The tags are the same at each passage in a section, unless its end
has other delimiters than its start: such a template is not parsed. -/

namespace AppManager.Mustach
open AppManager.Lib AppManager.Lib.Calls

namespace Layout

/-- The effect of a character that is before the next tag. -/
def read (enabled : Bool) (outer : List Bytes) (layout : Layout) (c : Byte) : Layout :=
  if c = newline then layout.nextLine enabled outer
  else if isspace c then layout.push c
  else { layout.wake enabled with stdalone := .no }.push c

def readAll (enabled : Bool) (outer : List Bytes) (chunk : Bytes) (layout : Layout) : Layout :=
  chunk.foldl (Layout.read enabled outer) layout

def tag (enabled inline : Bool) (layout : Layout) : Layout := (layout.wake enabled).atTag enabled inline

end Layout

/-- What is next in a template: the end, something that is not a tag, or a tag after other characters. -/
inductive Lexeme where
  | last (chunk : Bytes)
  | bad (chunk : Bytes) (rc : Int)
  | tag (chunk : Bytes) (tag : Tag) (rest : Bytes)

def lex (flags : Flags) (delims : Delimiters) (text : Bytes) : Lexeme :=
  match searchDelimiter delims.opstr text with
  | none => .last text
  | some (chunk, beg) =>
    match searchDelimiter delims.clstr (beg.drop delims.opstr.length) with
    | none => .bad chunk MUSTACH_ERROR_UNEXPECTED_END
    | some (content, term) =>
      match readTag flags delims.clstr content (term.drop delims.clstr.length) with
      | .error rc => .bad chunk rc
      | .ok (tag, rest) => .tag chunk tag rest

inductive Node where
  | text (chunk : Bytes)
  | mark
  | value (name : Bytes) (escape : Bool)
  | inclusion (name : Bytes)
  | block (inverted : Bool) (name : Bytes) (body : List Node)
  | fail (rc : Int)

/-- Nodes, with what is after them when they are ended by a closing tag. -/
abbrev Parsed := List Node × Option (Bytes × Delimiters)

def Parsed.follow (front : List Node) (parsed : Parsed) : Parsed := (front ++ parsed.1, parsed.2)

/-- The nodes of a text in sections of these names, the innermost first. -/
def parse (flags : Flags) : Nat → List Bytes → Delimiters → Bytes → Option Parsed
  | 0, _, _, _ => none
  | fuel + 1, names, delims, text =>
    match lex flags delims text with
    | .last chunk => some (.text chunk :: if names = [] then [] else [.fail MUSTACH_ERROR_UNEXPECTED_END], none)
    | .bad chunk rc => some ([.text chunk, .fail rc], none)
    | .tag chunk tag rest =>
      match tag with
      | .comment => (parse flags fuel names delims rest).map (.follow [.text chunk, .mark])
      | .delimiters delims => (parse flags fuel names delims rest).map (.follow [.text chunk, .mark])
      | .value name escape => (parse flags fuel names delims rest).map (.follow [.text chunk, .value name escape])
      | .inclusion name => (parse flags fuel names delims rest).map (.follow [.text chunk, .inclusion name])
      | .opens inverted name =>
        if names.length = MUSTACH_MAX_DEPTH then some ([.text chunk, .fail MUSTACH_ERROR_TOO_DEEP], none)
        else (parse flags fuel (name :: names) delims rest).bind fun
          | (body, none) => some ([.text chunk, .block inverted name body], none)
          | (body, some (rest, after)) =>
            if after = delims then
              (parse flags fuel names delims rest).map (.follow [.text chunk, .block inverted name body])
            else none
      | .closes name =>
        match names with
        | [] => some ([.text chunk, .fail MUSTACH_ERROR_CLOSING], none)
        | opened :: _ =>
          if name = opened then some ([.text chunk, .mark], some (rest, delims))
          else some ([.text chunk, .fail MUSTACH_ERROR_CLOSING], none)

def parseTemplate (flags : Flags) (template : Bytes) : Option (List Node) :=
  (parse flags (template.length + 1) [] .initial template).map Prod.fst

theorem searchOpening_eq (delims : Delimiters) (enabled : Bool) (outer : List Bytes) (text : Bytes) (layout : Layout) :
    searchOpening delims.opstr enabled outer text layout =
      (searchDelimiter delims.opstr text).elim (.inl ((layout.readAll enabled outer text).flush enabled []))
        fun found => .inr (found.2, (layout.readAll enabled outer found.1).wake enabled) := by
  obtain ⟨first, others, opening, plain⟩ := delims.starts
  induction text generalizing layout with
  | nil => rfl
  | cons c rest ih =>
    rw [searchOpening, searchDelimiter]
    have goOn (next : Layout) (here : Layout.read enabled outer layout c = next)
        (away : ¬delims.opstr <+: c :: rest) :
        searchOpening delims.opstr enabled outer rest next =
          (if delims.opstr <+: c :: rest then some ([], c :: rest)
            else (searchDelimiter delims.opstr rest).map fun found => (c :: found.1, found.2)).elim
            (.inl ((layout.readAll enabled outer (c :: rest)).flush enabled []))
            fun found => .inr (found.2, (layout.readAll enabled outer found.1).wake enabled) := by
      rw [ih, if_neg away]
      cases searchDelimiter delims.opstr rest with
      | none => rw [Option.map_none, Option.elim_none, Option.elim_none, Layout.readAll, Layout.readAll, List.foldl_cons, here]
      | some found => simp only [Option.map_some, Option.elim_some, Layout.readAll, List.foldl_cons, here]
    have blankAway (blank : isspace c = true) : ¬delims.opstr <+: c :: rest := by
      intro starts
      rw [opening, List.cons_prefix_cons] at starts
      rw [← starts.1, plain] at blank
      cases blank
    by_cases ends : c = newline
    · rw [if_pos ends]
      exact goOn _ (if_pos ends) (blankAway (ends ▸ rfl))
    rw [if_neg ends]
    by_cases blank : isspace c = true
    · rw [if_pos blank]
      exact goOn _ ((if_neg ends).trans (if_pos blank)) (blankAway blank)
    rw [if_neg blank]
    by_cases starts : delims.opstr <+: c :: rest
    · rw [if_pos starts, if_pos starts]
      rfl
    · rw [if_neg starts]
      exact goOn _ ((if_neg ends).trans (if_neg blank)) starts

theorem searchDelimiter_some {delimiter text before found : Bytes}
    (finds : searchDelimiter delimiter text = some (before, found)) :
    text = before ++ found ∧ delimiter <+: found ∧ found ≠ [] := by
  induction text generalizing before with
  | nil => cases finds
  | cons c rest ih =>
    rw [searchDelimiter] at finds
    split_ifs at finds with starts
    · obtain ⟨rfl, rfl⟩ := Prod.mk.inj (Option.some.inj finds)
      exact ⟨rfl, starts, nofun⟩
    · obtain ⟨⟨before', found'⟩, finds', same⟩ := Option.map_eq_some_iff.mp finds
      obtain ⟨rfl, rfl⟩ := Prod.mk.inj same
      obtain ⟨rfl, starts', some⟩ := ih finds'
      exact ⟨rfl, starts', some⟩

theorem readDelimiters_meets (content : Bytes) :
    Meets (fun delims => delims.clstr ⊆ content) (fun _ => True) (readDelimiters content) := by
  rw [readDelimiters]
  split_ifs
  · trivial
  · dsimp only
    split_ifs
    any_goals trivial
    refine List.Subset.trans (List.Sublist.subset (List.dropWhile_sublist _)) ?_
    refine List.Subset.trans (List.Sublist.subset (List.dropWhile_sublist _)) ?_
    refine List.Subset.trans (List.Sublist.subset (trim_sublist _ _)) ?_
    exact List.Subset.trans (List.dropLast_subset _) (List.tail_sublist _).subset

theorem readTag_meets (flags : Flags) (clstr content template : Bytes) :
    Meets (fun (tag, rest) => (rest = template ∨ rest = template.tail) ∧
        (∀ delims, tag = Tag.delimiters delims → (content ++ clstr).head? = some equalSign ∧ delims.clstr ⊆ content) ∧
        ∀ name, tag = Tag.inclusion name → (content ++ clstr).head? = some angle)
      (fun _ => True) (readTag flags clstr content template) := by
  rw [readTag]
  cases first : content ++ clstr with
  | nil => trivial
  | cons c more =>
    have named {name : Except Int Bytes} {make : Bytes → Tag} {rest : Bytes}
        (behind : rest = template ∨ rest = template.tail) (other : ∀ name delims, make name ≠ .delimiters delims)
        (inside : c = angle ∨ ∀ name name', make name ≠ .inclusion name') :
        Meets (fun (tag, rest) => (rest = template ∨ rest = template.tail) ∧
            (∀ delims, tag = Tag.delimiters delims →
              (c :: more).head? = some equalSign ∧ delims.clstr ⊆ content) ∧
            ∀ name, tag = Tag.inclusion name → (c :: more).head? = some angle)
          (fun _ => True) (name.map fun name => (make name, rest)) :=
      Meets.map (Meets.any name) fun name _ => ⟨behind, fun delims same => (other name delims same).elim,
        fun name' same => congrArg some (inside.resolve_right fun outside => outside name name' same)⟩
    dsimp only
    split_ifs
    any_goals first
      | exact named (Or.inl rfl) nofun (Or.inl ‹c = angle›)
      | exact named (Or.inl rfl) nofun (Or.inr nofun)
      | trivial
    · exact ⟨Or.inl rfl, nofun, nofun⟩
    · refine Meets.map (readDelimiters_meets content) fun delims within => ⟨Or.inl rfl, ?_, nofun⟩
      rintro _ ⟨⟩
      exact ⟨congrArg some ‹c = equalSign›, within⟩
    · exact named (Or.inr rfl) nofun (Or.inr nofun)

theorem lex_tag {flags : Flags} {delims : Delimiters} {text chunk rest : Bytes} {tag : Tag}
    (reads : lex flags delims text = .tag chunk tag rest) :
    rest <:+ text ∧ rest.length < text.length ∧ ∃ before content behind,
      text = before ++ delims.opstr ++ content ++ delims.clstr ++ behind ∧
      (∀ delims', tag = .delimiters delims' →
        (content ++ delims.clstr).head? = some equalSign ∧ delims'.clstr ⊆ content) ∧
      ∀ name, tag = .inclusion name → (content ++ delims.clstr).head? = some angle := by
  rw [lex] at reads
  match opening : searchDelimiter delims.opstr text with
  | none => simp only [opening, reduceCtorEq] at reads
  | some (before, beg) =>
    simp only [opening] at reads
    obtain ⟨rfl, ⟨inner, rfl⟩, _⟩ := searchDelimiter_some opening
    rw [List.drop_left] at reads
    match closing : searchDelimiter delims.clstr inner with
    | none => simp only [closing, reduceCtorEq] at reads
    | some (content, term) =>
      simp only [closing] at reads
      obtain ⟨rfl, ⟨template, rfl⟩, _⟩ := searchDelimiter_some closing
      rw [List.drop_left] at reads
      have meets := readTag_meets flags delims.clstr content template
      match tagged : readTag flags delims.clstr content template with
      | .error rc => simp only [tagged, reduceCtorEq] at reads
      | .ok (tag', rest') =>
        simp only [tagged, Lexeme.tag.injEq] at reads
        obtain ⟨rfl, rfl, rfl⟩ := reads
        rw [tagged] at meets
        obtain ⟨behind, first⟩ := meets
        have suffix : rest' <:+ template := by
          rcases behind with rfl | rfl
          · exact List.suffix_refl _
          · exact List.tail_suffix _
        refine ⟨?_, ?_, before, content, template, by simp, first⟩
        · refine suffix.trans ?_
          simp only [← List.append_assoc]
          exact List.suffix_append _ _
        · obtain ⟨c, others, opstr, _⟩ := delims.starts
          have := suffix.length_le
          simp only [opstr, List.length_append, List.length_cons]
          omega

theorem parse_fixed (flags : Flags) {fuel : Nat} (names : List Bytes) {text : Bytes} (enough : text.length < fuel)
    (fixed : ¬[braceOpen, braceOpen, equalSign] <:+: text) :
    ∃ nodes ending, parse flags fuel names .initial text = some (nodes, ending) ∧
      ∀ {rest after}, ending = some (rest, after) → after = .initial ∧ rest <:+ text ∧ rest.length < text.length := by
  induction fuel generalizing names text with
  | zero => omega
  | succ fuel ih =>
    have next {front : List Node} {rest : Bytes} (suffix : rest <:+ text) (shorter : rest.length < text.length) :
        ∃ nodes ending, (parse flags fuel names .initial rest).map (Parsed.follow front) = some (nodes, ending) ∧
          ∀ {rest after}, ending = some (rest, after) →
            after = .initial ∧ rest <:+ text ∧ rest.length < text.length := by
      obtain ⟨nodes, ending, parsed, ended⟩ := ih names (by omega : rest.length < fuel)
        fun inside => fixed (inside.trans suffix.isInfix)
      refine ⟨front ++ nodes, ending, by rw [parsed]; rfl, fun known => ?_⟩
      obtain ⟨same, suffix', shorter'⟩ := ended known
      exact ⟨same, suffix'.trans suffix, by omega⟩
    rw [parse]
    cases read : lex flags .initial text with
    | last chunk => exact ⟨_, none, rfl, nofun⟩
    | bad chunk rc => exact ⟨_, none, rfl, nofun⟩
    | tag chunk tag rest =>
      obtain ⟨suffix, shorter, sets⟩ := lex_tag read
      cases tag with
      | comment => exact next suffix shorter
      | value name escape => exact next suffix shorter
      | inclusion name => exact next suffix shorter
      | delimiters delims =>
        refine (fixed ?_).elim
        obtain ⟨before, content, behind, rfl, sets, -⟩ := sets
        have starts := (sets delims rfl).1
        cases content with
        | nil => exact absurd (Option.some.inj starts) (by decide)
        | cons c content =>
          obtain rfl := Option.some.inj starts
          exact ⟨before, content ++ Delimiters.initial.clstr ++ behind, by simp [Delimiters.initial]⟩
      | opens inverted name =>
        dsimp only
        split_ifs with deep
        · exact ⟨_, none, rfl, nofun⟩
        · obtain ⟨body, ending, parsed, ended⟩ := ih (name :: names) (by omega : rest.length < fuel)
            fun inside => fixed (inside.trans suffix.isInfix)
          rw [parsed, Option.bind_some]
          cases ending with
          | none => exact ⟨_, none, rfl, nofun⟩
          | some place =>
            obtain ⟨template, delims⟩ := place
            obtain ⟨rfl, suffix', shorter'⟩ := ended rfl
            dsimp only
            rw [if_pos rfl]
            exact next (suffix'.trans suffix) (by omega)
      | closes name =>
        dsimp only
        cases names with
        | nil => exact ⟨_, none, rfl, nofun⟩
        | cons opened names =>
          dsimp only
          split_ifs with same
          · refine ⟨_, _, rfl, ?_⟩
            rintro _ _ ⟨⟩
            exact ⟨rfl, suffix, shorter⟩
          · exact ⟨_, none, rfl, nofun⟩

theorem parseTemplate_fixed {flags : Flags} {template : Bytes}
    (fixed : ¬[braceOpen, braceOpen, equalSign] <:+: template) : parseTemplate flags template ≠ none := by
  obtain ⟨nodes, ending, parsed, -⟩ := parse_fixed flags [] (Nat.lt_succ_self _) fixed
  rw [parseTemplate, parsed]
  nofun

variable {Closure : Type}

theorem turn_lex (flags : Flags) (itf : Interface Closure) (state : State Closure) :
    turn flags itf state =
      match lex flags state.delims state.template with
      | .last chunk =>
        if state.stack = [] then
          .ended (.ok (state.closure, (state.layout.readAll state.enabled state.outer chunk).flush state.enabled []))
        else .ended (.error (.status MUSTACH_ERROR_UNEXPECTED_END))
      | .bad _ rc => .ended (.error (.status rc))
      | .tag chunk tag rest =>
        act itf { state with
          template := rest
          layout := (state.layout.readAll state.enabled state.outer chunk).tag state.enabled tag.inline } tag := by
  rw [turn, searchOpening_eq, lex]
  cases searchDelimiter state.delims.opstr state.template with
  | none => rfl
  | some found =>
    simp only [Option.elim_some]
    cases searchDelimiter state.delims.clstr (found.2.drop state.delims.opstr.length) with
    | none => rfl
    | some found' =>
      simp only
      cases readTag flags state.delims.clstr found'.1 (found'.2.drop state.delims.clstr.length) with
      | error rc => rfl
      | ok read => rfl

end AppManager.Mustach
