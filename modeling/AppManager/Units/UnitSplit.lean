import AppManager.Units.UnitProcess

/-! The blocks of an instance of the template, told from its lines, are the units that
are split from it. A tag that has no place in their sequence cancels all of them. -/

namespace AppManager.Units
open AppManager.Lib AppManager.Lib.Libc

def blanks (text : Bytes) : Option Bytes :=
  if text.head?.any isblank then some (text.dropWhile isblank) else none

def tagged (tag line : Bytes) : Option Bytes := (tag.isPrefixOf? line).bind blanks

def isJust (text line : Bytes) : Bool := (text.isPrefixOf? line).any fun rest => rest.all isblank

inductive Tag where
  | opens
  | closes
  deriving DecidableEq, Repr

def tagOf (line : Bytes) : Option (Tag × Bytes) :=
  match tagged (ascii "%begin") line with
  | some name => some (.opens, name)
  | none => (tagged (ascii "%end") line).map fun name => (.closes, name)

def tagsIn (lines : List Bytes) : List (Tag × Bytes) := lines.filterMap tagOf

/-- The tags strictly alternate and all have the right name. -/
def Alternates : List (Tag × Bytes) → Bool
  | [] => true
  | (.opens, first) :: (.closes, last) :: rest =>
    isJust (ascii "systemd-unit") first && isJust (ascii "systemd-unit") last && Alternates rest
  | _ => false

def blocksFrom : Option (List Bytes) → List Bytes → List (List Bytes)
  | _, [] => []
  | within, line :: rest =>
    match tagOf line, within with
    | some (.opens, _), _ => blocksFrom (some []) rest
    | some (.closes, _), some block => block :: blocksFrom none rest
    | none, some block => blocksFrom (some (block ++ [line])) rest
    | _, none => blocksFrom none rest

theorem blocksFrom_cons (within : Option (List Bytes)) (line : Bytes) (rest : List Bytes) :
    blocksFrom within (line :: rest) =
      match tagOf line, within with
      | some (.opens, _), _ => blocksFrom (some []) rest
      | some (.closes, _), some block => block :: blocksFrom none rest
      | none, some block => blocksFrom (some (block ++ [line])) rest
      | _, none => blocksFrom none rest := by
  rw [blocksFrom.eq_def]

def blocks (lines : List Bytes) : List (List Bytes) := blocksFrom none lines

def ended (lines : List Bytes) : Bytes := lines.flatMap (· ++ [newline])

def directive (line : Bytes) : Option Bytes := tagged (ascii "%systemd-unit") line

/-- The value of the first directive of some kind. -/
def valueOf (key : Bytes) (block : List Bytes) : Option Bytes :=
  (block.findSome? fun line => (directive line).bind (tagged key)).map word

def flagged (key : Bytes) (block : List Bytes) : Bool := block.any fun line => (directive line).any (isJust key)

def describe (block : List Bytes) : UnitDesc where
  scope :=
    match flagged (ascii "user") block, flagged (ascii "system") block with
    | true, false => .user
    | false, true => .system
    | _, _ => .unknown
  type :=
    match valueOf (ascii "socket") block, valueOf (ascii "service") block with
    | some _, none => .socket
    | none, some _ => .service
    | _, _ => .unknown
  name :=
    match valueOf (ascii "socket") block, valueOf (ascii "service") block with
    | some name, none => some name
    | none, some name => some name
    | _, _ => none
  content := pack (ended block) percent
  wantedBy := valueOf (ascii "wanted-by") block

theorem matchesPattern_append (first second text : Bytes) :
    matchesPattern (first ++ second) text = (matchesPattern first text).bind (matchesPattern second) := by
  induction first generalizing text with
  | nil => rfl
  | cons p first ih =>
    rw [List.cons_append, matchesPattern_cons, matchesPattern_cons]
    split
    · split
      · exact ih []
      · split
        · exact ih _
        · rfl
    · split
      · rfl
      · split
        · split
          · exact ih _
          · rfl
        · split
          · exact ih _
          · rfl

/-- The bytes of a pattern that stand for themselves. -/
def Literal (text : Bytes) : Prop := newline ∉ text ∧ (32 : Byte) ∉ text

instance (text : Bytes) : Decidable (Literal text) := inferInstanceAs (Decidable (_ ∧ _))

theorem matchesPattern_literal (text line : Bytes) (literal : Literal text) :
    matchesPattern text line = text.isPrefixOf? line := by
  induction text generalizing line with
  | nil => cases line <;> rfl
  | cons byte text ih =>
    obtain ⟨ended, spaced⟩ := literal
    rw [List.mem_cons, not_or] at ended spaced
    rw [matchesPattern_cons, if_neg (Ne.symm ended.1)]
    cases line with
    | nil => rfl
    | cons first rest =>
      simp only [if_neg (Ne.symm spaced.1), List.isPrefixOf?]
      rw [ih rest ⟨ended.2, spaced.2⟩]
      by_cases same : first = byte
      · simp [same]
      · simp [same, Ne.symm same]

theorem matchesPattern_space (line : Bytes) : matchesPattern [32] line = blanks line := by
  rw [matchesPattern_cons, if_neg (by decide)]
  cases line with
  | nil => rfl
  | cons first rest =>
    by_cases blank : isblank first = true
    · simp [blanks, blank, matchesPattern]
    · simp [blanks, blank]

theorem matchesPattern_tag (tag line : Bytes) (literal : Literal tag) :
    matchesPattern (tag ++ [32]) line = tagged tag line := by
  rw [matchesPattern_append, matchesPattern_literal tag line literal, tagged]
  congr 1
  funext rest
  exact matchesPattern_space rest

theorem matchesPattern_newline (line rest : Bytes) (plain : newline ∉ line) :
    matchesPattern [newline] (line ++ newline :: rest) = (if line.all isblank then some rest else none) ∧
      matchesPattern [newline] line = (if line.all isblank then some [] else none) := by
  induction line with
  | nil => simp [matchesPattern, isblank, newline]
  | cons byte line ih =>
    rw [List.mem_cons, not_or] at plain
    have inner := ih plain.2
    rw [matchesPattern_cons, if_pos rfl] at inner ⊢
    by_cases blank : isblank byte = true
    · rw [matchesPattern_cons, if_pos rfl] at inner ⊢
      simpa [List.dropWhile_cons, blank] using inner
    · rw [matchesPattern_cons, if_pos rfl]
      simp [blank, Ne.symm plain.1]

theorem dropWhile_blanks (line rest : Bytes) :
    (line ++ newline :: rest).dropWhile isblank = line.dropWhile isblank ++ newline :: rest := by
  have stop : isblank newline = false := by decide
  induction line with
  | nil => simp [stop]
  | cons byte line ih => by_cases blank : isblank byte = true <;> simp [blank, ih]

theorem matchesPattern_line (pattern line rest : Bytes) (plain : newline ∉ pattern) :
    matchesPattern pattern (line ++ newline :: rest) =
      (matchesPattern pattern line).map (· ++ newline :: rest) := by
  induction pattern generalizing line with
  | nil => rfl
  | cons p pattern ih =>
    rw [List.mem_cons, not_or] at plain
    rw [matchesPattern_cons, matchesPattern_cons, if_neg (Ne.symm plain.1), if_neg (Ne.symm plain.1)]
    cases line with
    | nil =>
      have stop : isblank newline = false := by decide
      simp [stop, plain.1]
    | cons byte line =>
      simp only [List.cons_append]
      split
      · split
        · rw [dropWhile_blanks]
          exact ih _ plain.2
        · rfl
      · split
        · exact ih line plain.2
        · rfl

theorem plain_of_matches {pattern line after : Bytes} (found : matchesPattern pattern line = some after)
    (plain : newline ∉ line) : newline ∉ after :=
  fun inside => plain ((matchesPattern_suffix _ _ _ found).subset inside)

theorem matchesPattern_ended (text line rest : Bytes) (literal : Literal text) (plain : newline ∉ line) :
    matchesPattern (text ++ [newline]) (line ++ newline :: rest) = if isJust text line then some rest else none := by
  rw [matchesPattern_append, matchesPattern_line text line rest literal.1, isJust]
  rw [← matchesPattern_literal text line literal]
  cases found : matchesPattern text line with
  | none => rfl
  | some after => exact (matchesPattern_newline after rest (plain_of_matches found plain)).1

theorem matchesPattern_last (text line : Bytes) (literal : Literal text) (plain : newline ∉ line) :
    matchesPattern (text ++ [newline]) line = if isJust text line then some [] else none := by
  rw [matchesPattern_append, isJust, ← matchesPattern_literal text line literal]
  cases found : matchesPattern text line with
  | none => rfl
  | some after => exact (matchesPattern_newline after [] (plain_of_matches found plain)).2

theorem offsetBelow_open (pattern text : Bytes) (plain : newline ∉ text) : offsetBelow pattern text = none := by
  induction text with
  | nil => rfl
  | cons byte text ih =>
    rw [List.mem_cons, not_or] at plain
    rw [offsetBelow, if_neg (Ne.symm plain.1), ih plain.2]

theorem offsetBelow_line (pattern line rest : Bytes) (plain : newline ∉ line) :
    offsetBelow pattern (line ++ newline :: rest) = offset pattern rest := by
  induction line with
  | nil =>
    rw [List.nil_append, offsetBelow, if_pos rfl, offset]
  | cons byte line ih =>
    rw [List.mem_cons, not_or] at plain
    rw [List.cons_append, offsetBelow, if_neg (Ne.symm plain.1), ih plain.2]

def unlines (lines : List Bytes) : Bytes := [newline].intercalate lines

def below : List Bytes → Bytes
  | [] => []
  | next :: rest => newline :: unlines (next :: rest)

theorem unlines_cons (line : Bytes) (rest : List Bytes) : unlines (line :: rest) = line ++ below rest := by
  cases rest with
  | nil => simp [unlines, below]
  | cons next rest => simp [unlines, below, List.intercalate_cons_cons]

theorem unlines_append (first : List Bytes) (line : Bytes) (rest : List Bytes) :
    unlines (first ++ line :: rest) = ended first ++ unlines (line :: rest) := by
  induction first with
  | nil => rfl
  | cons head first ih =>
    have more : below (first ++ line :: rest) = newline :: unlines (first ++ line :: rest) := by
      cases first <;> rfl
    rw [List.cons_append, unlines_cons, more, ih]
    simp [ended]

section
variable (pattern : Bytes) (plain : newline ∉ pattern)
include plain

theorem offset_here {line args : Bytes} (rest : List Bytes) (found : matchesPattern pattern line = some args) :
    offset pattern (unlines (line :: rest)) = some (unlines (line :: rest), args ++ below rest) := by
  rw [unlines_cons]
  have whole : matchesPattern pattern (line ++ below rest) = some (args ++ below rest) := by
    cases rest with
    | nil =>
      simp only [below, List.append_nil]
      exact found
    | cons next rest => rw [below, matchesPattern_line pattern line _ plain, found, Option.map_some]
  rw [offset, whole]

theorem offset_skip (first rest : List Bytes) (more : rest ≠ [])
    (open_ : ∀ line ∈ first, newline ∉ line ∧ matchesPattern pattern line = none) :
    offset pattern (unlines (first ++ rest)) = offset pattern (unlines rest) := by
  induction first with
  | nil => rfl
  | cons line first ih =>
    obtain ⟨lined, missing⟩ := open_ line (by simp)
    obtain ⟨next, others, same⟩ := List.exists_cons_of_ne_nil (List.append_ne_nil_of_right_ne_nil first more)
    have whole := matchesPattern_line pattern line (unlines (next :: others)) plain
    rw [missing, Option.map_none] at whole
    rw [List.cons_append, unlines_cons, same, below, offset, whole]
    simp only
    rw [offsetBelow_line pattern line _ lined, ← same]
    exact ih fun other member => open_ other (List.mem_cons_of_mem line member)

theorem offset_nowhere (lines : List Bytes) (empty : matchesPattern pattern [] = none)
    (open_ : ∀ line ∈ lines, newline ∉ line ∧ matchesPattern pattern line = none) :
    offset pattern (unlines lines) = none := by
  rcases List.eq_nil_or_concat lines with none | ⟨first, last, same⟩
  · rw [none]
    change offset pattern [] = _
    rw [offset, empty]
    exact offsetBelow_open pattern [] (by simp)
  · rw [List.concat_eq_append] at same
    obtain ⟨lined, missing⟩ := open_ last (by simp [same])
    rw [same, offset_skip pattern plain first [last] (by simp) fun line member => open_ line (by simp [same, member])]
    rw [unlines_cons, below, List.append_nil, offset, missing]
    exact offsetBelow_open pattern last lined

end

theorem opens_iff (line name : Bytes) :
    tagOf line = some (.opens, name) ↔ matchesPattern (ascii "%begin ") line = some name := by
  rw [show ascii "%begin " = ascii "%begin" ++ [32] by decide, matchesPattern_tag _ _ (by decide), tagOf]
  cases tagged (ascii "%begin") line with
  | some other => simp
  | none => simp

theorem not_both {line name : Bytes} (opened : tagged (ascii "%begin") line = some name) :
    tagged (ascii "%end") line = none := by
  unfold tagged at opened ⊢
  have second : ascii "%begin" = [37, 98, 101, 103, 105, 110] := by decide
  have first : ascii "%end" = [37, 101, 110, 100] := by decide
  rw [second] at opened
  rw [first]
  rcases line with _ | ⟨byte, _ | ⟨next, rest⟩⟩
  · rfl
  · simp only [List.isPrefixOf?]
    split <;> rfl
  · simp only [List.isPrefixOf?] at opened ⊢
    split at opened
    · split at opened
      · next same =>
        have other : ((101 : Byte) == next) = false := by
          rw [← eq_of_beq same]
          decide
        simp [other]
      · cases opened
    · cases opened

theorem closes_iff (line name : Bytes) :
    tagOf line = some (.closes, name) ↔ matchesPattern (ascii "%end ") line = some name := by
  rw [show ascii "%end " = ascii "%end" ++ [32] by decide, matchesPattern_tag _ _ (by decide), tagOf]
  cases opened : tagged (ascii "%begin") line with
  | some other => simp [not_both opened]
  | none => simp

theorem untagged_iff (line : Bytes) : tagOf line = none ↔
    matchesPattern (ascii "%begin ") line = none ∧ matchesPattern (ascii "%end ") line = none := by
  rw [show ascii "%begin " = ascii "%begin" ++ [32] by decide, matchesPattern_tag _ _ (by decide),
    show ascii "%end " = ascii "%end" ++ [32] by decide, matchesPattern_tag _ _ (by decide), tagOf]
  cases tagged (ascii "%begin") line with
  | some other => simp
  | none => simp

theorem opens_no_end {line name : Bytes} (opened : tagOf line = some (.opens, name)) :
    matchesPattern (ascii "%end ") line = none := by
  cases closed : matchesPattern (ascii "%end ") line with
  | none => rfl
  | some other =>
    rw [(closes_iff line other).mpr closed] at opened
    cases opened

theorem closes_no_begin {line name : Bytes} (closed : tagOf line = some (.closes, name)) :
    matchesPattern (ascii "%begin ") line = none := by
  cases opened : matchesPattern (ascii "%begin ") line with
  | none => rfl
  | some other =>
    rw [(opens_iff line other).mpr opened] at closed
    cases closed

theorem first_of (test : Bytes → Bool) (lines : List Bytes) : (∀ line ∈ lines, test line = false) ∨
    ∃ before line after, lines = before ++ line :: after ∧ test line = true ∧ ∀ other ∈ before, test other = false := by
  cases found : lines.find? test with
  | none => exact Or.inl fun line member => by simpa using List.find?_eq_none.mp found line member
  | some line =>
    obtain ⟨passes, before, after, same, others⟩ := List.find?_eq_some_iff_append.mp found
    exact Or.inr ⟨before, line, after, same, passes, fun other member => by simpa using others other member⟩

theorem splitStep_untagged (lines : List Bytes) (plain : ∀ line ∈ lines, newline ∉ line)
    (untagged : ∀ line ∈ lines, tagOf line = none) : splitStep (unlines lines) = (none, .ok none) := by
  have noBegin := offset_nowhere (ascii "%begin ") (by decide) lines (by decide)
    fun line member => ⟨plain line member, ((untagged_iff line).mp (untagged line member)).1⟩
  have noEnd := offset_nowhere (ascii "%end ") (by decide) lines (by decide)
    fun line member => ⟨plain line member, ((untagged_iff line).mp (untagged line member)).2⟩
  rw [splitStep, noBegin, noEnd]

theorem splitStep_closes (before : List Bytes) (line name : Bytes) (after : List Bytes)
    (plain : ∀ other ∈ before ++ line :: after, newline ∉ other) (untagged : ∀ other ∈ before, tagOf other = none)
    (closed : tagOf line = some (.closes, name)) :
    (splitStep (unlines (before ++ line :: after))).2 = .error ⟨-EINVAL, EINVAL_failure⟩ := by
  have lineEnd := offset_skip (ascii "%end ") (by decide) before (line :: after) (by simp)
    fun other member => ⟨plain other (by simp [member]), ((untagged_iff other).mp (untagged other member)).2⟩
  rw [offset_here (ascii "%end ") (by decide) after ((closes_iff line name).mp closed)] at lineEnd
  have noBegin := offset_skip (ascii "%begin ") (by decide) before (line :: after) (by simp)
    fun other member => ⟨plain other (by simp [member]), ((untagged_iff other).mp (untagged other member)).1⟩
  rw [splitStep, lineEnd]
  cases found : offset (ascii "%begin ") (unlines (before ++ line :: after)) with
  | none => rfl
  | some opened =>
    obtain ⟨befbeg, beg⟩ := opened
    have shorter : befbeg.length < (unlines (line :: after)).length := by
      rw [found] at noBegin
      cases after with
      | nil =>
        have nowhere := offset_nowhere (ascii "%begin ") (by decide) [line] (by decide)
          fun other member => ⟨plain other (by simp [List.mem_singleton.mp member]),
            by rw [List.mem_singleton.mp member]; exact closes_no_begin closed⟩
        rw [nowhere] at noBegin
        cases noBegin
      | cons next rest =>
        have later := offset_skip (ascii "%begin ") (by decide) [line] (next :: rest) (by simp)
          fun other member => ⟨plain other (by simp [List.mem_singleton.mp member]),
            by rw [List.mem_singleton.mp member]; exact closes_no_begin closed⟩
        rw [List.singleton_append, ← noBegin] at later
        have bound := (offset_found _ _ later.symm).1.length_le
        rw [unlines_cons line, below, List.length_append, List.length_cons]
        omega
    simp only
    rw [if_pos shorter]

theorem splitStep_unclosed (before : List Bytes) (line name : Bytes) (after : List Bytes)
    (plain : ∀ other ∈ before ++ line :: after, newline ∉ other) (untagged : ∀ other ∈ before, tagOf other = none)
    (opened : tagOf line = some (.opens, name)) (unclosed : ∀ other ∈ after, matchesPattern (ascii "%end ") other = none) :
    (splitStep (unlines (before ++ line :: after))).2 = .error ⟨-EINVAL, EINVAL_failure⟩ := by
  have lineBegin := offset_skip (ascii "%begin ") (by decide) before (line :: after) (by simp)
    fun other member => ⟨plain other (by simp [member]), ((untagged_iff other).mp (untagged other member)).1⟩
  rw [offset_here (ascii "%begin ") (by decide) after ((opens_iff line name).mp opened)] at lineBegin
  have noEnd := offset_nowhere (ascii "%end ") (by decide) (before ++ line :: after) (by decide) (by
    intro other member
    refine ⟨plain other member, ?_⟩
    rcases List.mem_append.mp member with early | late
    · exact ((untagged_iff other).mp (untagged other early)).2
    · rcases List.mem_cons.mp late with same | rest
      · rw [same]
        exact opens_no_end opened
      · exact unclosed other rest)
  rw [splitStep, lineBegin, noEnd]

/-- The tags of a block: where it opens and where it closes. -/
structure Block (before : List Bytes) (line name : Bytes) (inside : List Bytes) (last label : Bytes)
    (after : List Bytes) : Prop where
  plain : ∀ other ∈ before ++ line :: (inside ++ last :: after), newline ∉ other
  untagged : ∀ other ∈ before, tagOf other = none
  opened : tagOf line = some (.opens, name)
  unclosed : ∀ other ∈ inside, matchesPattern (ascii "%end ") other = none
  closed : tagOf last = some (.closes, label)

namespace Block
variable {before : List Bytes} {line name : Bytes} {inside : List Bytes} {last label : Bytes} {after : List Bytes}
  (block : Block before line name inside last label after)
include block

theorem begins : offset (ascii "%begin ") (unlines (before ++ line :: (inside ++ last :: after))) =
    some (unlines (line :: (inside ++ last :: after)), unlines (name :: (inside ++ last :: after))) := by
  rw [offset_skip (ascii "%begin ") (by decide) before _ (by simp) fun other member =>
      ⟨block.plain other (by simp [member]), ((untagged_iff other).mp (block.untagged other member)).1⟩,
    offset_here (ascii "%begin ") (by decide) _ ((opens_iff line name).mp block.opened), unlines_cons name]

theorem ends : offset (ascii "%end ") (unlines (before ++ line :: (inside ++ last :: after))) =
    some (unlines (last :: after), label ++ below after) := by
  rw [List.append_cons before line, ← List.append_assoc, offset_skip (ascii "%end ") (by decide) _ _ (by simp),
    offset_here (ascii "%end ") (by decide) _ ((closes_iff last label).mp block.closed)]
  intro other member
  refine ⟨block.plain other (by simp only [List.mem_append, List.mem_cons] at member ⊢; tauto), ?_⟩
  rcases List.mem_append.mp member with early | within
  · rcases List.mem_append.mp early with early | own
    · exact ((untagged_iff other).mp (block.untagged other early)).2
    · rw [List.mem_singleton.mp own]
      exact opens_no_end block.opened
  · exact block.unclosed other within

/-- What is found when the opening of another block is looked for after this one. -/
theorem again (fresh : matchesPattern (ascii "%begin ") name = none)
    (single : ∀ other ∈ inside, matchesPattern (ascii "%begin ") other = none) :
    (offset (ascii "%begin ") (unlines (name :: (inside ++ last :: after)))).any
      (fun again => decide ((unlines (last :: after)).length < again.1.length)) = false := by
  have named : newline ∉ name :=
    plain_of_matches ((opens_iff line name).mp block.opened) (block.plain line (by simp))
  have skipped : ∀ other ∈ name :: (inside ++ [last]),
      newline ∉ other ∧ matchesPattern (ascii "%begin ") other = none := by
    intro other member
    rcases List.mem_cons.mp member with same | others
    · rw [same]
      exact ⟨named, fresh⟩
    · rcases List.mem_append.mp others with within | own
      · exact ⟨block.plain other (by simp [within]), single other within⟩
      · rw [List.mem_singleton.mp own]
        exact ⟨block.plain last (by simp), closes_no_begin block.closed⟩
  have parts : name :: (inside ++ last :: after) = name :: (inside ++ [last]) ++ after := by simp
  rw [parts]
  cases after with
  | nil =>
    rw [List.append_nil, offset_nowhere (ascii "%begin ") (by decide) _ (by decide) skipped]
    rfl
  | cons next rest =>
    rw [offset_skip (ascii "%begin ") (by decide) _ (next :: rest) (by simp) skipped]
    cases found : offset (ascii "%begin ") (unlines (next :: rest)) with
    | none => rfl
    | some again =>
      have bound := (offset_found _ _ found).1.length_le
      simp only [Option.any_some, decide_eq_false_iff_not, not_lt]
      rw [unlines_cons last, below, List.length_append, List.length_cons]
      omega

/-- Another opening before the end is an error. -/
theorem nested (nested : matchesPattern (ascii "%begin ") name ≠ none ∨
      ∃ other ∈ inside, matchesPattern (ascii "%begin ") other ≠ none) :
    (offset (ascii "%begin ") (unlines (name :: (inside ++ last :: after)))).any
      (fun again => decide ((unlines (last :: after)).length < again.1.length)) = true := by
  have named : newline ∉ name :=
    plain_of_matches ((opens_iff line name).mp block.opened) (block.plain line (by simp))
  have found : ∃ other ∈ name :: inside, (matchesPattern (ascii "%begin ") other).isSome = true := by
    rcases nested with own | ⟨other, member, matched⟩
    · exact ⟨name, by simp, Option.isSome_iff_ne_none.mpr own⟩
    · exact ⟨other, by simp [member], Option.isSome_iff_ne_none.mpr matched⟩
  rcases first_of (fun other => (matchesPattern (ascii "%begin ") other).isSome) (name :: inside) with
    nowhere | ⟨first, other, rest, parts, matched, skipped⟩
  · obtain ⟨other, member, matched⟩ := found
    rw [nowhere other member] at matched
    cases matched
  · have plain : ∀ line ∈ name :: inside, newline ∉ line := by
      intro line member
      rcases List.mem_cons.mp member with same | within
      · rw [same]
        exact named
      · exact block.plain line (by simp [within])
    obtain ⟨args, args'⟩ := Option.isSome_iff_exists.mp matched
    rw [← List.cons_append, parts, List.append_assoc, List.cons_append,
      offset_skip (ascii "%begin ") (by decide) first _ (by simp) fun line member =>
        ⟨plain line (by rw [parts]; simp [member]), by simpa using skipped line member⟩,
      offset_here (ascii "%begin ") (by decide) _ args']
    simp only [Option.any_some, decide_eq_true_eq]
    rw [← List.cons_append, unlines_append, List.length_append, ended, List.flatMap_cons]
    simp only [List.length_append, List.length_singleton]
    omega

/-- The names of the two tags, as they are matched. -/
theorem names : matchesPattern (ascii "systemd-unit\n") (ended (name :: inside)) =
      (if isJust (ascii "systemd-unit") name then some (ended inside) else none) ∧
    matchesPattern (ascii "systemd-unit\n") (label ++ below after) =
      (if isJust (ascii "systemd-unit") label then some (unlines after) else none) := by
  have split : ascii "systemd-unit\n" = ascii "systemd-unit" ++ [newline] := by decide
  have named : newline ∉ name :=
    plain_of_matches ((opens_iff line name).mp block.opened) (block.plain line (by simp))
  have labelled : newline ∉ label :=
    plain_of_matches ((closes_iff last label).mp block.closed) (block.plain last (by simp))
  refine ⟨?_, ?_⟩
  · rw [ended, List.flatMap_cons, List.append_assoc, List.singleton_append, split]
    exact matchesPattern_ended _ name _ (by decide) named
  · rw [split]
    cases after with
    | nil =>
      rw [below, List.append_nil]
      exact matchesPattern_last _ label (by decide) labelled
    | cons next rest => exact matchesPattern_ended _ label _ (by decide) labelled

theorem step : splitStep (unlines (before ++ line :: (inside ++ last :: after))) =
    if (offset (ascii "%begin ") (unlines (name :: (inside ++ last :: after)))).any
      (fun again => decide ((unlines (last :: after)).length < again.1.length)) then
      (none, .error ⟨-EINVAL, EINVAL_failure⟩)
    else if isJust (ascii "systemd-unit") name ∧ isJust (ascii "systemd-unit") label then
      (some (unlines after), .ok (some (processOneUnit (ended inside))))
    else (some (label ++ below after), .error ⟨-EINVAL, EINVAL_failure⟩) := by
  obtain ⟨first, second⟩ := block.names
  have longer : ¬(unlines (line :: (inside ++ last :: after))).length < (unlines (last :: after)).length := by
    rw [← List.cons_append, unlines_append, List.length_append]
    omega
  have cut : (unlines (name :: (inside ++ last :: after))).take
      ((unlines (name :: (inside ++ last :: after))).length - (unlines (last :: after)).length) =
        ended (name :: inside) := by
    rw [← List.cons_append, unlines_append, List.length_append, Nat.add_sub_cancel, List.take_left]
  rw [splitStep, block.begins, block.ends]
  simp only
  rw [if_neg longer, cut, first, second]
  split
  · rfl
  · by_cases named : isJust (ascii "systemd-unit") name = true
    · by_cases labelled : isJust (ascii "systemd-unit") label = true
      · simp [named, labelled]
      · simp [named, labelled]
    · simp [named]

end Block

theorem just_no_begin {name : Bytes} (just : isJust (ascii "systemd-unit") name = true) :
    matchesPattern (ascii "%begin ") name = none := by
  have first : ascii "systemd-unit" = 115 :: ascii "ystemd-unit" := by decide
  have tag : ascii "%begin " = 37 :: ascii "begin " := by decide
  rw [isJust, first] at just
  cases name with
  | nil => cases just
  | cons byte rest =>
    simp only [List.isPrefixOf?] at just
    split at just
    · next same =>
      rw [tag, matchesPattern_cons, if_neg (by decide), ← eq_of_beq same]
      rfl
    · cases just

theorem tagsIn_skip (first rest : List Bytes) (untagged : ∀ line ∈ first, tagOf line = none) :
    tagsIn (first ++ rest) = tagsIn rest := by
  rw [tagsIn, List.filterMap_append, List.filterMap_eq_nil_iff.mpr untagged, List.nil_append, tagsIn]

theorem blocksFrom_skip (first rest : List Bytes) (untagged : ∀ line ∈ first, tagOf line = none) :
    blocksFrom none (first ++ rest) = blocksFrom none rest := by
  induction first with
  | nil => rfl
  | cons line first ih =>
    rw [List.cons_append, blocksFrom_cons, untagged line (by simp)]
    exact ih fun other member => untagged other (List.mem_cons_of_mem line member)

theorem blocksFrom_inside (block inside rest : List Bytes) (untagged : ∀ line ∈ inside, tagOf line = none) :
    blocksFrom (some block) (inside ++ rest) = blocksFrom (some (block ++ inside)) rest := by
  induction inside generalizing block with
  | nil => rw [List.nil_append, List.append_nil]
  | cons line inside ih =>
    rw [List.cons_append, blocksFrom_cons, untagged line (by simp)]
    simp only
    rw [ih _ fun other member => untagged other (List.mem_cons_of_mem line member), List.append_assoc,
      List.singleton_append]

theorem splitFrom_negative (corpus : Bytes) (units : List UnitDesc) (rc : Int) (negative : rc < 0) :
    splitFrom corpus units rc = (rc, []) := by
  induction size : corpus.length using Nat.strong_induction_on generalizing corpus units with
  | _ size' ih =>
    have kept : firstError rc (splitStep corpus).2 = rc := by
      cases (splitStep corpus).2 with
      | ok _ => rfl
      | error failure => exact if_neg negative.ne
    rw [splitFrom, kept]
    split
    · next next more =>
      have shorter := splitStep_shorter corpus next (splitStep corpus).2 (Prod.ext more rfl)
      exact ih _ (size ▸ shorter) next _ rfl
    · rw [if_neg (not_le.mpr negative)]

theorem splitFrom_error (corpus : Bytes) (units : List UnitDesc) (failure : Failure)
    (failed : (splitStep corpus).2 = .error failure) : splitFrom corpus units 0 = (failure.val, []) := by
  have first : firstError 0 (splitStep corpus).2 = failure.val := by
    rw [failed]
    rfl
  rw [splitFrom, first]
  split
  · exact splitFrom_negative _ _ _ failure.property
  · rw [if_neg (not_le.mpr failure.property)]

theorem splitFrom_more (corpus next : Bytes) (units : List UnitDesc) (unit : UnitDesc)
    (step : splitStep corpus = (some next, .ok (some unit))) :
    splitFrom corpus units 0 = splitFrom next (units ++ [unit]) 0 := by
  rw [splitFrom]
  split
  · next other more =>
    rw [step, Option.some.injEq] at more
    rw [step, ← more]
    rfl
  · next none =>
    rw [step] at none
    cases none

theorem splitFrom_last (corpus : Bytes) (units : List UnitDesc) (step : splitStep corpus = (none, .ok none)) :
    splitFrom corpus units 0 = ((units.length : Int), units) := by
  rw [splitFrom]
  split
  · next other more =>
    rw [step] at more
    cases more
  · rw [step]
    rfl

theorem tagsIn_unclosed (lines : List Bytes)
    (unclosed : ∀ line ∈ lines, matchesPattern (ascii "%end ") line = none) :
    (∀ line ∈ lines, tagOf line = none) ∨
      ∃ line ∈ lines, matchesPattern (ascii "%begin ") line ≠ none ∧ ∃ name more, tagsIn lines = (.opens, name) :: more := by
  rcases first_of (fun line => (tagOf line).isSome) lines with none | ⟨before, line, rest, parts, tag, skipped⟩
  · exact Or.inl fun line member => by simpa using none line member
  · right
    have member : line ∈ lines := by simp [parts]
    have untagged : ∀ other ∈ before, tagOf other = none := fun other member => by simpa using skipped other member
    obtain ⟨⟨kind, name⟩, tagged⟩ := Option.isSome_iff_exists.mp tag
    cases kind with
    | closes =>
      have closed := (closes_iff line name).mp tagged
      rw [unclosed line member] at closed
      cases closed
    | opens =>
      refine ⟨line, member, ?_, name, tagsIn rest, ?_⟩
      · rw [(opens_iff line name).mp tagged]
        simp
      · rw [parts, tagsIn_skip before _ untagged, tagsIn, List.filterMap_cons, tagged]
        rfl

theorem tagsIn_tag (line : Bytes) (rest : List Bytes) {tag : Tag × Bytes} (tagged : tagOf line = some tag) :
    tagsIn (line :: rest) = tag :: tagsIn rest := by
  rw [tagsIn, List.filterMap_cons, tagged]
  rfl

theorem tagsIn_nothing (lines : List Bytes) (untagged : ∀ line ∈ lines, tagOf line = none) : tagsIn lines = [] :=
  List.filterMap_eq_nil_iff.mpr untagged

theorem alternates_unclosed (name : Bytes) (lines : List Bytes)
    (unclosed : ∀ line ∈ lines, matchesPattern (ascii "%end ") line = none) :
    Alternates ((.opens, name) :: tagsIn lines) = false := by
  rcases tagsIn_unclosed lines unclosed with nothing | ⟨-, -, -, name', more, first⟩
  · rw [tagsIn_nothing lines nothing]
    rfl
  · rw [first]
    rfl

namespace Block
variable {before : List Bytes} {line name : Bytes} {inside : List Bytes} {last label : Bytes} {after : List Bytes}
  (block : Block before line name inside last label after)
include block

theorem tags (nothing : ∀ other ∈ inside, tagOf other = none) :
    tagsIn (before ++ line :: (inside ++ last :: after)) = (.opens, name) :: (.closes, label) :: tagsIn after := by
  rw [tagsIn_skip before _ block.untagged, tagsIn_tag line _ block.opened, tagsIn_skip inside _ nothing,
    tagsIn_tag last _ block.closed]

theorem blocks (nothing : ∀ other ∈ inside, tagOf other = none) :
    Units.blocks (before ++ line :: (inside ++ last :: after)) = inside :: Units.blocks after := by
  rw [Units.blocks, blocksFrom_skip before _ block.untagged, blocksFrom_cons, block.opened]
  simp only
  rw [blocksFrom_inside [] inside _ nothing, blocksFrom_cons, block.closed]
  rfl

/-- A proper block gives its unit. -/
theorem unit (nothing : ∀ other ∈ inside, tagOf other = none) (named : isJust (ascii "systemd-unit") name = true)
    (labelled : isJust (ascii "systemd-unit") label = true) (units : List UnitDesc) :
    splitFrom (unlines (before ++ line :: (inside ++ last :: after))) units 0 =
      splitFrom (unlines after) (units ++ [processOneUnit (ended inside)]) 0 := by
  have single := block.again (just_no_begin named) fun other member =>
    ((untagged_iff other).mp (nothing other member)).1
  apply splitFrom_more
  rw [block.step, single, if_neg (by simp), if_pos ⟨named, labelled⟩]

/-- Another one is an error, and its tags do not alternate. -/
theorem wrong (improper : (∀ other ∈ inside, tagOf other = none) →
      ¬(isJust (ascii "systemd-unit") name = true ∧ isJust (ascii "systemd-unit") label = true))
    (units : List UnitDesc) :
    splitFrom (unlines (before ++ line :: (inside ++ last :: after))) units 0 = (-EINVAL, []) ∧
      Alternates (tagsIn (before ++ line :: (inside ++ last :: after))) = false := by
  rcases tagsIn_unclosed inside block.unclosed with nothing | ⟨other, member, opened, name', more, first⟩
  · have unnamed := improper nothing
    refine ⟨splitFrom_error _ _ ⟨-EINVAL, EINVAL_failure⟩ ?_, ?_⟩
    · rw [block.step, if_neg unnamed]
      split <;> rfl
    · rw [block.tags nothing, Alternates, Bool.and_eq_false_iff]
      left
      rw [← Bool.not_eq_true, Bool.and_eq_true]
      exact unnamed
  · refine ⟨splitFrom_error _ _ ⟨-EINVAL, EINVAL_failure⟩ ?_, ?_⟩
    · rw [block.step, block.nested (Or.inr ⟨other, member, opened⟩), if_pos rfl]
    · rw [tagsIn_skip before _ block.untagged, tagsIn_tag line _ block.opened, tagsIn, List.filterMap_append,
        ← tagsIn, first]
      rfl

end Block

theorem splitFrom_lines (lines : List Bytes) (plain : ∀ line ∈ lines, newline ∉ line) (units : List UnitDesc) :
    splitFrom (unlines lines) units 0 =
      if Alternates (tagsIn lines) then
        (((units ++ (blocks lines).map fun block => processOneUnit (ended block)).length : Int),
          units ++ (blocks lines).map fun block => processOneUnit (ended block))
      else (-EINVAL, []) := by
  induction size : lines.length using Nat.strong_induction_on generalizing lines units with
  | _ size' ih =>
    rcases first_of (fun line => (tagOf line).isSome) lines with none | ⟨before, line, rest, parts, tag, skipped⟩
    · have untagged : ∀ line ∈ lines, tagOf line = .none := fun line member => by simpa using none line member
      have inside := blocksFrom_skip lines [] untagged
      rw [List.append_nil] at inside
      rw [splitFrom_last _ _ (splitStep_untagged lines plain untagged), tagsIn_nothing lines untagged, blocks, inside]
      simp [Alternates, blocksFrom]
    · have untagged : ∀ other ∈ before, tagOf other = none := fun other member => by simpa using skipped other member
      rw [parts] at plain ⊢
      obtain ⟨⟨kind, name⟩, tagged⟩ := Option.isSome_iff_exists.mp tag
      cases kind with
      | closes =>
        rw [splitFrom_error _ _ _ (splitStep_closes before line name rest plain untagged tagged),
          tagsIn_skip before _ untagged, tagsIn_tag line _ tagged, if_neg]
        simp [Alternates]
      | opens =>
        rcases first_of (fun other => (matchesPattern (ascii "%end ") other).isSome) rest with
          unclosed | ⟨inside, last, after, parts', closed, unclosed⟩
        · have unclosed : ∀ other ∈ rest, matchesPattern (ascii "%end ") other = none :=
            fun other member => by simpa using unclosed other member
          rw [splitFrom_error _ _ _ (splitStep_unclosed before line name rest plain untagged tagged unclosed),
            tagsIn_skip before _ untagged, tagsIn_tag line _ tagged, alternates_unclosed name rest unclosed,
            if_neg (by simp)]
        · obtain ⟨label, found⟩ := Option.isSome_iff_exists.mp closed
          rw [parts'] at plain ⊢
          have block : Block before line name inside last label after :=
            ⟨plain, untagged, tagged, fun other member => by simpa using unclosed other member,
              (closes_iff last label).mpr found⟩
          by_cases proper : (∀ other ∈ inside, tagOf other = none) ∧
              isJust (ascii "systemd-unit") name = true ∧ isJust (ascii "systemd-unit") label = true
          · obtain ⟨nothing, named, labelled⟩ := proper
            have shorter : after.length < size' := by
              rw [← size, parts, parts']
              simp only [List.length_append, List.length_cons]
              omega
            rw [block.unit nothing named labelled, block.tags nothing, block.blocks nothing, Alternates, named,
              labelled, ih _ shorter after (fun other member => plain other (by simp [member])) _ rfl]
            simp
          · obtain ⟨failed, wrong⟩ := block.wrong (fun nothing both => proper ⟨nothing, both⟩) units
            rw [failed, wrong, if_neg (by simp)]

theorem ended_cons (line : Bytes) (block : List Bytes) : ended (line :: block) = line ++ newline :: ended block := by
  simp [ended]

theorem word_line (text rest : Bytes) : word (text ++ newline :: rest) = word text := by
  unfold word
  induction text with
  | nil => simp [isblank, newline]
  | cons byte text ih =>
    by_cases stops : (isblank byte || byte == newline) = true
    · simp only [List.cons_append, List.takeWhile_cons, stops, Bool.not_true, Bool.false_eq_true, ↓reduceIte]
    · simp only [List.cons_append, List.takeWhile_cons, stops, Bool.not_false, ↓reduceIte, ih]

theorem offset_value (key : Bytes) (literal : Literal key) (block : List Bytes)
    (plain : ∀ line ∈ block, newline ∉ line) :
    (offset (ascii "%systemd-unit" ++ [32] ++ (key ++ [32])) (ended block)).map (fun found => word found.2) =
      valueOf key block := by
  have keyed : newline ∉ ascii "%systemd-unit" ++ [32] ++ (key ++ [32]) := by
    simp only [List.mem_append, not_or]
    exact ⟨by decide, literal.1, by decide⟩
  have pattern : ∀ line, matchesPattern (ascii "%systemd-unit" ++ [32] ++ (key ++ [32])) line =
      (directive line).bind (tagged key) := by
    intro line
    rw [matchesPattern_append, matchesPattern_tag _ _ (by decide), directive]
    congr 1
    funext rest
    exact matchesPattern_tag key rest literal
  unfold valueOf
  induction block with
  | nil =>
    rw [ended, List.flatMap_nil, offset, pattern]
    rfl
  | cons line block ih =>
    rw [ended_cons, offset, matchesPattern_line _ _ _ keyed, pattern, List.findSome?_cons]
    cases (directive line).bind (tagged key) with
    | some value => simp [word_line]
    | none =>
      simp only [Option.map_none]
      rw [offsetBelow_line _ _ _ (plain line (by simp))]
      exact ih fun other member => plain other (List.mem_cons_of_mem line member)

theorem offset_flag (key : Bytes) (literal : Literal key) (block : List Bytes)
    (plain : ∀ line ∈ block, newline ∉ line) :
    (offset (ascii "%systemd-unit" ++ [32] ++ (key ++ [newline])) (ended block)).isSome = flagged key block := by
  have pattern : ∀ line rest, newline ∉ line →
      (matchesPattern (ascii "%systemd-unit" ++ [32] ++ (key ++ [newline])) (line ++ newline :: rest)).isSome =
        (directive line).any (isJust key) := by
    intro line rest lined
    rw [matchesPattern_append, matchesPattern_line _ _ _ (by decide)]
    cases found : matchesPattern (ascii "%systemd-unit" ++ [32]) line with
    | none =>
      rw [matchesPattern_tag _ _ (by decide)] at found
      rw [directive, found]
      rfl
    | some value =>
      have valued := plain_of_matches found lined
      rw [matchesPattern_tag _ _ (by decide)] at found
      rw [directive, found, Option.map_some, Option.bind_some, matchesPattern_ended key value _ literal valued]
      split
      · next just => simp [just]
      · next other => simp [other]
  unfold flagged
  induction block with
  | nil =>
    rw [ended, List.flatMap_nil, offset, matchesPattern_append, matchesPattern_tag _ _ (by decide)]
    rfl
  | cons line block ih =>
    have here := pattern line (ended block) (plain line (by simp))
    rw [ended_cons, offset, List.any_cons, ← here]
    cases matchesPattern (ascii "%systemd-unit" ++ [32] ++ (key ++ [newline])) (line ++ newline :: ended block) with
    | some rest => rfl
    | none =>
      simp only [Option.isSome_none, Bool.false_or]
      rw [offsetBelow_line _ _ _ (plain line (by simp))]
      exact ih fun other member => plain other (List.mem_cons_of_mem line member)

theorem processOneUnit_eq (block : List Bytes) (plain : ∀ line ∈ block, newline ∉ line) :
    processOneUnit (ended block) = describe block := by
  have user := offset_flag (ascii "user") (by decide) block plain
  have system := offset_flag (ascii "system") (by decide) block plain
  have socket := offset_value (ascii "socket") (by decide) block plain
  have service := offset_value (ascii "service") (by decide) block plain
  have wanted := offset_value (ascii "wanted-by") (by decide) block plain
  unfold processOneUnit describe
  rw [← user, ← system, ← socket, ← service, ← wanted]
  have texts : ascii "%systemd-unit user\n" = ascii "%systemd-unit" ++ [32] ++ (ascii "user" ++ [newline]) ∧
      ascii "%systemd-unit system\n" = ascii "%systemd-unit" ++ [32] ++ (ascii "system" ++ [newline]) ∧
      ascii "%systemd-unit socket " = ascii "%systemd-unit" ++ [32] ++ (ascii "socket" ++ [32]) ∧
      ascii "%systemd-unit service " = ascii "%systemd-unit" ++ [32] ++ (ascii "service" ++ [32]) ∧
      ascii "%systemd-unit wanted-by " = ascii "%systemd-unit" ++ [32] ++ (ascii "wanted-by" ++ [32]) := by decide
  rw [texts.1, texts.2.1, texts.2.2.1, texts.2.2.2.1, texts.2.2.2.2]
  generalize offset (ascii "%systemd-unit" ++ [32] ++ (ascii "user" ++ [newline])) (ended block) = isuser
  generalize offset (ascii "%systemd-unit" ++ [32] ++ (ascii "system" ++ [newline])) (ended block) = issystem
  generalize offset (ascii "%systemd-unit" ++ [32] ++ (ascii "socket" ++ [32])) (ended block) = nsoc
  generalize offset (ascii "%systemd-unit" ++ [32] ++ (ascii "service" ++ [32])) (ended block) = nsrv
  generalize offset (ascii "%systemd-unit" ++ [32] ++ (ascii "wanted-by" ++ [32])) (ended block) = wanted
  cases isuser <;> cases issystem <;> cases nsoc <;> cases nsrv <;> simp [Function.comp_def]

def linesOf (text : Bytes) : List Bytes := text.splitOn newline

theorem linesOf_plain (text : Bytes) : ∀ line ∈ linesOf text, newline ∉ line := by
  unfold linesOf
  induction text using lines_induction newline with
  | unfinished text plain =>
    intro line member
    rw [List.splitOn_eq_singleton plain, List.mem_singleton] at member
    rw [member]
    exact plain
  | line first rest plain ih =>
    intro line member
    rw [List.splitOn_append_cons_self_of_not_mem plain, List.mem_cons] at member
    rcases member with same | later
    · rw [same]
      exact plain
    · exact ih line later

theorem unlines_linesOf (text : Bytes) : unlines (linesOf text) = text := List.intercalate_splitOn ..

theorem blocksFrom_lines (within : Option (List Bytes)) (lines : List Bytes) :
    ∀ block ∈ blocksFrom within lines, ∀ line ∈ block, line ∈ lines ∨ ∃ start, within = some start ∧ line ∈ start := by
  induction lines generalizing within with
  | nil => simp [blocksFrom]
  | cons first rest ih =>
    intro block member line inside
    rw [blocksFrom_cons] at member
    split at member
    · rcases ih _ block member line inside with later | ⟨start, same, early⟩
      · exact Or.inl (List.mem_cons_of_mem first later)
      · rw [← Option.some.inj same] at early
        cases early
    · rcases List.mem_cons.mp member with own | others
      · exact Or.inr ⟨_, rfl, own ▸ inside⟩
      · rcases ih _ block others line inside with later | ⟨other, same, -⟩
        · exact Or.inl (List.mem_cons_of_mem first later)
        · cases same
    · rcases ih _ block member line inside with later | ⟨other, same, early⟩
      · exact Or.inl (List.mem_cons_of_mem first later)
      · rw [← Option.some.inj same, List.mem_append, List.mem_singleton] at early
        rcases early with early | own
        · exact Or.inr ⟨_, rfl, early⟩
        · exact Or.inl (by simp [own])
    · rcases ih _ block member line inside with later | ⟨other, same, -⟩
      · exact Or.inl (List.mem_cons_of_mem first later)
      · cases same

theorem corpusSplit_eq (text : Bytes) :
    corpusSplit text = if Alternates (tagsIn (linesOf text)) then
      (((blocks (linesOf text)).length : Int), (blocks (linesOf text)).map describe) else (-EINVAL, []) := by
  have whole := splitFrom_lines (linesOf text) (linesOf_plain text) []
  have same : (blocks (linesOf text)).map (fun block => processOneUnit (ended block)) =
      (blocks (linesOf text)).map describe := by
    apply List.map_congr_left
    intro block member
    apply processOneUnit_eq
    intro line inside
    rcases blocksFrom_lines none (linesOf text) block member line inside with known | ⟨start, none, -⟩
    · exact linesOf_plain text line known
    · cases none
  rw [unlines_linesOf, same] at whole
  rw [corpusSplit, whole]
  simp

def twoUnits : Bytes := ascii
  "%begin systemd-unit\n%systemd-unit user\n%systemd-unit service a@ x\n\n [Unit]\n%nl\nA=1 \\\n\n%end systemd-unit \n
%begin \tsystemd-unit\n%systemd-unit system\n%systemd-unit socket b\n%systemd-unit wanted-by c\n%end systemd-unit"

theorem linesOf_twoUnits : linesOf twoUnits = [ascii "%begin systemd-unit", ascii "%systemd-unit user",
    ascii "%systemd-unit service a@ x", [], ascii " [Unit]", ascii "%nl", ascii "A=1 \\", [],
    ascii "%end systemd-unit ", [], ascii "%begin \tsystemd-unit", ascii "%systemd-unit system",
    ascii "%systemd-unit socket b", ascii "%systemd-unit wanted-by c", ascii "%end systemd-unit"] := by
  unfold twoUnits
  rw [ascii_ofList]
  decide +kernel

end AppManager.Units
