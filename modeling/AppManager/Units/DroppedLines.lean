import AppManager.Units.DedupSlashes
import AppManager.Units.LogicalLines
import Mathlib.Data.List.Forall2

/-! The logical lines of a text whose empty lines are removed: an empty line that ends a
logical line is removed like the others, and the next one is joined to what it ended. -/

namespace AppManager.Units
open AppManager.Lib

namespace Dedup

def shortenStep (state : Dedup) (c : Byte) : Dedup :=
  if c = newline then ⟨state.written ++ [c], true, none⟩ else state.step c

end Dedup

def shortenSlashes (text : Bytes) : Bytes := (text.foldl Dedup.shortenStep .initial).written

def blankLine (line : Bytes) : Bool := line.all isblank

def nonBlank (lines : List Bytes) : List Bytes := lines.filter fun line => !blankLine line

/-- The logical lines of a text that are not blank: a line that ends with a backslash is joined to the
next one. -/
def nonBlankLines (text : Bytes) : List Bytes := nonBlank (joinLines (text.splitOn newline))

/-- The empty lines are dropped, but what follows the last end of line is kept. -/
def dropEmpty : List Bytes → List Bytes
  | [] => []
  | line :: rest => if line = [] ∧ rest ≠ [] then dropEmpty rest else line :: dropEmpty rest

/-- The first logical line after the empty lines is blank. -/
def FirstBlank (lines : List Bytes) : Prop :=
  ∀ first ∈ (joinLines (lines.dropWhile (· = []))).head?, blankLine first = true

instance (lines : List Bytes) : Decidable (FirstBlank lines) := inferInstanceAs (Decidable (∀ _ ∈ _, _))

/-- Where an empty line ends a logical line of two lines or more, either only empty lines follow, or that
logical line and the next one are blank. `pending` tells whether the line goes on from the ones
before, and whether these are blank. -/
def LinesApart : Option Bool → List Bytes → Prop
  | _, [] => True
  | pending, line :: rest =>
    rest = [] ∨
      if line = [] then
        match pending with
        | none => LinesApart none rest
        | some blank => (∀ other ∈ rest, other = []) ∨ (blank = true ∧ FirstBlank rest ∧ LinesApart none rest)
      else if Continued line then LinesApart (some (pending.getD true && blankLine line.dropLast)) rest
      else LinesApart none rest

instance decidableLinesApart : (pending : Option Bool) → (lines : List Bytes) → Decidable (LinesApart pending lines)
  | _, [] => isTrue trivial
  | none, line :: rest =>
    letI := fun pending => decidableLinesApart pending rest
    inferInstanceAs (Decidable (rest = [] ∨ if line = [] then LinesApart none rest
      else if Continued line then LinesApart (some (true && blankLine line.dropLast)) rest else LinesApart none rest))
  | some blank, line :: rest =>
    letI := fun pending => decidableLinesApart pending rest
    inferInstanceAs (Decidable (rest = [] ∨ if line = [] then
        (∀ other ∈ rest, other = []) ∨ (blank = true ∧ FirstBlank rest ∧ LinesApart none rest)
      else if Continued line then LinesApart (some (blank && blankLine line.dropLast)) rest else LinesApart none rest))

theorem linesApart_empty (pending : Option Bool) {rest : List Bytes} (proper : rest ≠ []) :
    LinesApart pending ([] :: rest) ↔ match pending with
      | none => LinesApart none rest
      | some blank => (∀ other ∈ rest, other = []) ∨ (blank = true ∧ FirstBlank rest ∧ LinesApart none rest) :=
  (or_iff_right proper).trans (by rw [if_pos rfl])

theorem linesApart_continued (pending : Option Bool) {line : Bytes} (real : line ≠ []) (continued : Continued line)
    {rest : List Bytes} (proper : rest ≠ []) :
    LinesApart pending (line :: rest) ↔ LinesApart (some (pending.getD true && blankLine line.dropLast)) rest :=
  (or_iff_right proper).trans (by rw [if_neg real, if_pos continued])

theorem linesApart_ended (pending : Option Bool) {line : Bytes} (real : line ≠ []) (ended : ¬Continued line)
    {rest : List Bytes} (proper : rest ≠ []) : LinesApart pending (line :: rest) ↔ LinesApart none rest :=
  (or_iff_right proper).trans (by rw [if_neg real, if_neg ended])

def joinTo (text : Bytes) : List Bytes → List Bytes
  | [] => []
  | line :: rest => (text ++ line) :: rest

theorem joinLines_continued {line : Bytes} (continued : Continued line) {rest : List Bytes} (more : rest ≠ []) :
    joinLines (line :: rest) = joinTo (line.dropLast ++ [32]) (joinLines rest) := by
  rw [joinLines, if_pos continued]
  cases joined : joinLines rest with
  | nil => exact absurd ((joinLines_eq_nil rest).mp joined) more
  | cons next others => rw [joinTo, List.append_assoc, List.singleton_append]

theorem joinLines_ended {line : Bytes} (ended : ¬Continued line) (rest : List Bytes) :
    joinLines (line :: rest) = line :: joinLines rest := by
  rw [joinLines, if_neg ended]

theorem joinLines_last (line : Bytes) : joinLines [line] = [line] := by
  by_cases continued : Continued line
  · rw [joinLines, if_pos continued]
    rfl
  · rw [joinLines_ended continued]
    rfl

theorem not_continued_nil : ¬Continued [] := by decide

theorem dropEmpty_ne_nil {lines : List Bytes} (some : lines ≠ []) : dropEmpty lines ≠ [] := by
  induction lines with
  | nil => exact absurd rfl some
  | cons line rest ih =>
    rw [dropEmpty]
    split
    · next both => exact ih both.2
    · exact List.cons_ne_nil _ _

theorem dropEmpty_empty {rest : List Bytes} (more : rest ≠ []) : dropEmpty ([] :: rest) = dropEmpty rest := by
  rw [dropEmpty, if_pos ⟨rfl, more⟩]

theorem dropEmpty_kept {line : Bytes} (proper : line ≠ []) (rest : List Bytes) :
    dropEmpty (line :: rest) = line :: dropEmpty rest := by
  rw [dropEmpty, if_neg fun both => proper both.1]

theorem joinTo_joinTo (text more : Bytes) (lines : List Bytes) :
    joinTo text (joinTo more lines) = joinTo (text ++ more) lines := by
  cases lines with
  | nil => rfl
  | cons line rest => rw [joinTo, joinTo, joinTo, List.append_assoc]

theorem pieces_induction {motive : (lines : List Bytes) → lines ≠ [] → Prop}
    (last : ∀ line, motive [line] (List.cons_ne_nil _ _))
    (empty : ∀ rest (more : rest ≠ []), motive rest more → motive ([] :: rest) (List.cons_ne_nil _ _))
    (continued : ∀ line rest (more : rest ≠ []), line ≠ [] → Continued line → motive rest more →
      motive (line :: rest) (List.cons_ne_nil _ _))
    (ended : ∀ line rest (more : rest ≠ []), line ≠ [] → ¬Continued line → motive rest more →
      motive (line :: rest) (List.cons_ne_nil _ _))
    (lines : List Bytes) (some : lines ≠ []) : motive lines some := by
  induction lines with
  | nil => exact absurd rfl some
  | cons line rest ih =>
    cases rest with
    | nil => exact last line
    | cons next rest =>
      have more : next :: rest ≠ [] := List.cons_ne_nil next rest
      by_cases proper : line = []
      · subst proper
        exact empty _ more (ih more)
      · by_cases goesOn : Continued line
        · exact continued line _ more proper goesOn (ih more)
        · exact ended line _ more proper goesOn (ih more)

theorem joinLines_some {lines : List Bytes} (some : lines ≠ []) :
    ∃ first others, joinLines lines = first :: others := by
  cases joined : joinLines lines with
  | nil => exact absurd ((joinLines_eq_nil lines).mp joined) some
  | cons first others => exact ⟨first, others, rfl⟩

theorem blankLine_append (first last : Bytes) : blankLine (first ++ last) = (blankLine first && blankLine last) :=
  List.all_append

theorem nonBlank_blank {line : Bytes} (blank : blankLine line = true) (rest : List Bytes) :
    nonBlank (line :: rest) = nonBlank rest := List.filter_cons_of_neg (by rw [blank]; decide)

theorem nonBlank_text {line : Bytes} (text : blankLine line = false) (rest : List Bytes) :
    nonBlank (line :: rest) = line :: nonBlank rest := List.filter_cons_of_pos (by rw [text]; decide)

theorem firstBlank_empty (rest : List Bytes) : FirstBlank ([] :: rest) ↔ FirstBlank rest := by
  rw [FirstBlank, FirstBlank, List.dropWhile_cons_of_pos (by decide)]

theorem firstBlank_proper {line : Bytes} (proper : line ≠ []) {rest : List Bytes} {first : Bytes}
    {others : List Bytes} (joined : joinLines (line :: rest) = first :: others) :
    FirstBlank (line :: rest) ↔ blankLine first = true := by
  rw [FirstBlank, List.dropWhile_cons_of_neg (by simpa using proper), joined, List.head?_cons]
  exact ⟨fun all => all first rfl, fun blank other same => Option.some.inj same ▸ blank⟩

theorem firstBlank_last (line : Bytes) : FirstBlank [line] ↔ blankLine line = true := by
  by_cases empty : line = []
  · rw [empty]
    exact iff_of_true (by decide) rfl
  · exact firstBlank_proper empty (joinLines_last line)

/-- The first logical line of some lines, beside the one that the dropped empty lines leave first. -/
structure Heads (lines : List Bytes) (first : Bytes) (others : List Bytes) (glued : Bytes) : Prop where
  short : first.length ≤ glued.length
  blank : blankLine glued = true → blankLine first = true
  skipped : blankLine glued = true → FirstBlank lines
  empty : glued = [] → ∀ line ∈ lines, line = []
  found : blankLine glued = false → ∃ text more, nonBlank (first :: others) = text :: more ∧
    text.length ≤ glued.length

theorem Heads.longer {rest : List Bytes} {first glued : Bytes} {others : List Bytes}
    (heads : Heads rest first others glued) (part : Bytes) : (part ++ first).length ≤ (part ++ glued).length := by
  rw [List.length_append, List.length_append]
  exact Nat.add_le_add_left heads.short _

/-- The first text of what a line continues in, the line being blank or not. -/
theorem Heads.foundAfter {rest : List Bytes} {first glued : Bytes} {others : List Bytes}
    (heads : Heads rest first others glued) (part : Bytes) (text : blankLine (part ++ glued) = false) :
    ∃ found more, nonBlank ((part ++ first) :: others) = found :: more ∧ found.length ≤ (part ++ glued).length := by
  cases starts : blankLine (part ++ first) with
  | false => exact ⟨_, _, nonBlank_text starts others, heads.longer part⟩
  | true =>
    rw [nonBlank_blank starts]
    rw [blankLine_append, Bool.and_eq_true] at starts
    rw [blankLine_append, starts.1, Bool.true_and] at text
    obtain ⟨found, more, same, fits⟩ := heads.found text
    rw [nonBlank_blank starts.2] at same
    refine ⟨found, more, same, fits.trans ?_⟩
    rw [List.length_append]
    exact Nat.le_add_left _ _

theorem heads_spec {lines : List Bytes} (some : lines ≠ []) : ∀ {first others glued more},
    joinLines lines = first :: others → joinLines (dropEmpty lines) = glued :: more →
      Heads lines first others glued := by
  induction lines, some using pieces_induction with
  | last line =>
    intro first others glued more joined joined'
    have kept : dropEmpty [line] = [line] := by
      rw [dropEmpty, if_neg fun both => both.2 rfl]
      rfl
    rw [kept, joinLines_last] at joined'
    rw [joinLines_last] at joined
    cases joined
    cases joined'
    refine ⟨Nat.le_refl _, id, (firstBlank_last line).mpr, fun empty other member => ?_, fun text => ?_⟩
    · rw [List.mem_singleton.mp member, empty]
    · exact ⟨line, [], nonBlank_text text [], Nat.le_refl _⟩
  | empty rest proper ih =>
    intro first others glued more joined joined'
    obtain ⟨next, after, rest'⟩ := joinLines_some proper
    rw [joinLines_ended not_continued_nil, rest', List.cons.injEq] at joined
    rw [dropEmpty_empty proper] at joined'
    have heads := ih rest' joined'
    rw [← joined.1, ← joined.2]
    refine ⟨Nat.zero_le _, fun _ => rfl, fun blank => (firstBlank_empty rest).mpr (heads.skipped blank), ?_, ?_⟩
    · intro empty line member
      rcases List.mem_cons.mp member with same | member
      · exact same
      · exact heads.empty empty line member
    · intro text
      rw [nonBlank_blank rfl]
      exact heads.found text
  | continued line rest proper real goesOn ih =>
    intro first others glued more joined joined'
    obtain ⟨next, after, rest'⟩ := joinLines_some proper
    obtain ⟨next', after', rest''⟩ := joinLines_some (dropEmpty_ne_nil proper)
    have heads := ih rest' rest''
    have whole := joined
    rw [joinLines_continued goesOn proper, rest', joinTo, List.cons.injEq] at joined
    rw [dropEmpty_kept real, joinLines_continued goesOn (dropEmpty_ne_nil proper), rest'', joinTo,
      List.cons.injEq] at joined'
    obtain ⟨rfl, rfl⟩ := joined
    obtain ⟨rfl, rfl⟩ := joined'
    have blank : blankLine (line.dropLast ++ [32] ++ next') = true →
        blankLine (line.dropLast ++ [32] ++ next) = true := by
      rw [blankLine_append _ next', blankLine_append _ next, Bool.and_eq_true, Bool.and_eq_true]
      exact fun both => ⟨both.1, heads.blank both.2⟩
    refine ⟨heads.longer _, blank, fun all => (firstBlank_proper real whole).mpr (blank all), fun empty => ?_,
      heads.foundAfter _⟩
    exact absurd empty (by simp)
  | ended line rest proper real ends ih =>
    intro first others glued more joined joined'
    have whole := joined
    rw [joinLines_ended ends, List.cons.injEq] at joined
    rw [dropEmpty_kept real, joinLines_ended ends, List.cons.injEq] at joined'
    rw [← joined.1] at whole ⊢
    rw [← joined'.1]
    refine ⟨Nat.le_refl _, id, (firstBlank_proper real whole).mpr, fun empty => absurd empty real, fun text => ?_⟩
    exact ⟨line, nonBlank others, nonBlank_text text others, Nat.le_refl _⟩

theorem dropEmpty_all {lines : List Bytes} (some : lines ≠ []) (empty : ∀ line ∈ lines, line = []) :
    dropEmpty lines = [[]] := by
  induction lines with
  | nil => exact absurd rfl some
  | cons line rest ih =>
    rw [empty line List.mem_cons_self]
    by_cases more : rest = []
    · rw [more]
      rfl
    · rw [dropEmpty_empty more, ih more fun line member => empty line (List.mem_cons_of_mem _ member)]

theorem nonBlank_all {lines : List Bytes} (empty : ∀ line ∈ lines, line = []) : nonBlank (joinLines lines) = [] := by
  induction lines with
  | nil => rfl
  | cons line rest ih =>
    rw [empty line List.mem_cons_self, joinLines_ended not_continued_nil, nonBlank_blank rfl,
      ih fun line member => empty line (List.mem_cons_of_mem _ member)]

theorem joinTo_nil (lines : List Bytes) : joinTo [] lines = lines := by
  cases lines <;> rfl

theorem glued_blank {lines : List Bytes} (some : lines ≠ []) : ∀ {pending : Option Bool} {first others glued more},
    joinLines lines = first :: others → joinLines (dropEmpty lines) = glued :: more → LinesApart pending lines →
      (pending = none → FirstBlank lines) → (∀ blank, pending = Option.some blank →
        blank = true ∧ blankLine first = true) → blankLine glued = true := by
  induction lines, some using pieces_induction with
  | last line =>
    intro pending first others glued more joined joined' _ blank blank'
    have kept : dropEmpty [line] = [line] := by
      rw [dropEmpty, if_neg fun both => both.2 rfl]
      rfl
    rw [kept, joinLines_last] at joined'
    rw [joinLines_last] at joined
    cases joined
    cases joined'
    cases pending with
    | none => exact (firstBlank_last line).mp (blank rfl)
    | some pending => exact (blank' pending rfl).2
  | empty rest proper ih =>
    intro pending first others glued more _ joined' apart blank blank'
    obtain ⟨next, after, rest'⟩ := joinLines_some proper
    rw [dropEmpty_empty proper] at joined'
    have inner := (linesApart_empty pending proper).mp apart
    cases pending with
    | none =>
      exact ih rest' joined' inner (fun _ => (firstBlank_empty rest).mp (blank rfl)) (fun _ none => by cases none)
    | some pending =>
      rcases inner with all | ⟨-, starts, apart'⟩
      · rw [dropEmpty_all proper all, joinLines_last] at joined'
        cases joined'
        rfl
      · exact ih rest' joined' apart' (fun _ => starts) (fun _ none => by cases none)
  | continued line rest proper real goesOn ih =>
    intro pending first others glued more joined joined' apart blank blank'
    obtain ⟨next, after, rest'⟩ := joinLines_some proper
    obtain ⟨next', after', rest''⟩ := joinLines_some (dropEmpty_ne_nil proper)
    have inner := (linesApart_continued pending real goesOn proper).mp apart
    have starts : blankLine first = true ∧ pending.getD true = true := by
      cases pending with
      | none => exact ⟨(firstBlank_proper real joined).mp (blank rfl), rfl⟩
      | some pending => exact ⟨(blank' pending rfl).2, (blank' pending rfl).1⟩
    rw [joinLines_continued goesOn proper, rest', joinTo, List.cons.injEq] at joined
    rw [dropEmpty_kept real, joinLines_continued goesOn (dropEmpty_ne_nil proper), rest'', joinTo,
      List.cons.injEq] at joined'
    obtain ⟨rfl, rfl⟩ := joined
    obtain ⟨rfl, rfl⟩ := joined'
    obtain ⟨text, pending'⟩ := starts
    rw [blankLine_append, blankLine_append, Bool.and_eq_true, Bool.and_eq_true] at text
    obtain ⟨⟨lead, space⟩, next_blank⟩ := text
    have glued := ih rest' rest'' inner (fun none => by cases none) (fun blank same => by
      rw [← Option.some.inj same, pending', lead]
      exact ⟨rfl, next_blank⟩)
    rw [blankLine_append, blankLine_append, lead, space, glued]
    rfl
  | ended line rest proper real ends ih =>
    intro pending first others glued more joined joined' _ blank blank'
    have starts : blankLine first = true := by
      cases pending with
      | none => exact (firstBlank_proper real joined).mp (blank rfl)
      | some pending => exact (blank' pending rfl).2
    rw [joinLines_ended ends, List.cons.injEq] at joined
    rw [dropEmpty_kept real, joinLines_ended ends, List.cons.injEq] at joined'
    rw [← joined'.1, joined.1]
    exact starts

/-- An empty line ends a text, and is dropped: nothing changes only when nothing follows that is not empty,
or when the text and the next logical line are blank. -/
theorem glue_iff {text : Bytes} (proper : text ≠ []) {rest : List Bytes} (some : rest ≠ [])
    (same : nonBlank (joinLines (dropEmpty rest)) = nonBlank (joinLines rest) ↔ LinesApart none rest) :
    nonBlank (joinTo text (joinLines (dropEmpty rest))) = nonBlank (text :: joinLines rest) ↔
      (∀ other ∈ rest, other = []) ∨ (blankLine text = true ∧ FirstBlank rest ∧ LinesApart none rest) := by
  obtain ⟨first, others, joined⟩ := joinLines_some some
  obtain ⟨glued, more, joined'⟩ := joinLines_some (dropEmpty_ne_nil some)
  have heads := heads_spec some joined joined'
  constructor
  · intro equal
    rw [joined', joinTo] at equal
    cases blank : blankLine text with
    | false =>
      left
      have blank' : blankLine (text ++ glued) = false := by
        rw [blankLine_append, blank]
        rfl
      rw [nonBlank_text blank, nonBlank_text blank', List.cons.injEq] at equal
      exact heads.empty (by simpa using equal.1)
    | true =>
      right
      rw [nonBlank_blank blank] at equal
      cases next : blankLine glued with
      | true =>
        rw [nonBlank_blank (by rw [blankLine_append, blank, next]; rfl)] at equal
        refine ⟨rfl, heads.skipped next, same.mp ?_⟩
        rw [joined', nonBlank_blank next, equal]
      | false =>
        obtain ⟨found, more', starts, fits⟩ := heads.found next
        have blank' : blankLine (text ++ glued) = false := by
          rw [blankLine_append, next, Bool.and_false]
        rw [nonBlank_text blank', joined, starts, List.cons.injEq] at equal
        have size := congrArg List.length equal.1
        rw [List.length_append] at size
        have none := List.length_pos_iff.mpr proper
        omega
  · rintro (empty | ⟨blank, starts, apart⟩)
    · rw [dropEmpty_all some empty, joinLines_last, joinTo, List.append_nil]
      cases blank : blankLine text with
      | true => rw [nonBlank_blank blank, nonBlank_blank blank, nonBlank_all empty, nonBlank]; rfl
      | false => rw [nonBlank_text blank, nonBlank_text blank, nonBlank_all empty, nonBlank]; rfl
    · have next := glued_blank some joined joined' apart (fun _ => starts) (fun _ none => by cases none)
      rw [nonBlank_blank blank, ← same.mpr apart, joined', joinTo, nonBlank_blank next,
        nonBlank_blank (by rw [blankLine_append, blank, next]; rfl)]

def pendingOf (text : Bytes) : Option Bool := if text = [] then none else some (blankLine text)

theorem linesApart_iff {lines : List Bytes} (some : lines ≠ []) : ∀ text : Bytes,
    nonBlank (joinTo text (joinLines (dropEmpty lines))) = nonBlank (joinTo text (joinLines lines)) ↔
      LinesApart (pendingOf text) lines := by
  induction lines, some using pieces_induction with
  | last line =>
    intro text
    have kept : dropEmpty [line] = [line] := by
      rw [dropEmpty, if_neg fun both => both.2 rfl]
      rfl
    rw [kept]
    exact iff_of_true rfl (Or.inl rfl)
  | empty rest proper ih =>
    intro text
    have same := ih []
    rw [joinTo_nil, joinTo_nil] at same
    rw [dropEmpty_empty proper, joinLines_ended not_continued_nil, joinTo.eq_2, List.append_nil,
      linesApart_empty _ proper, pendingOf]
    by_cases start : text = []
    · rw [start, joinTo_nil, nonBlank_blank rfl, if_pos rfl]
      exact same
    · rw [if_neg start]
      exact glue_iff start proper same
  | continued line rest proper real goesOn ih =>
    intro text
    have grown : pendingOf (text ++ (line.dropLast ++ [32])) =
        Option.some ((pendingOf text).getD true && blankLine line.dropLast) := by
      rw [pendingOf, if_neg (by simp), blankLine_append, blankLine_append, pendingOf]
      by_cases start : text = []
      · rw [start, if_pos rfl]
        simp [blankLine, isblank]
      · rw [if_neg start]
        simp [blankLine, isblank]
    rw [dropEmpty_kept real, joinLines_continued goesOn proper, joinLines_continued goesOn (dropEmpty_ne_nil proper),
      joinTo_joinTo, joinTo_joinTo, ih, grown, linesApart_continued _ real goesOn proper]
  | ended line rest proper real ends ih =>
    intro text
    have same := ih []
    rw [joinTo_nil, joinTo_nil] at same
    rw [dropEmpty_kept real, joinLines_ended ends, joinLines_ended ends, joinTo, joinTo,
      linesApart_ended _ real ends proper]
    refine Iff.trans ?_ same
    cases blank : blankLine (text ++ line) with
    | true => rw [nonBlank_blank blank, nonBlank_blank blank]
    | false => rw [nonBlank_text blank, nonBlank_text blank, List.cons.injEq, and_iff_right rfl]

/-- A line beside another that the passes tell from it in nothing. -/
structure Alike (line other : Bytes) : Prop where
  empty : other = [] ↔ line = []
  continued : Continued other ↔ Continued line
  blank : blankLine other = blankLine line
  lead : Continued line → blankLine other.dropLast = blankLine line.dropLast

theorem alike_first {lines others : List Bytes} (alike : List.Forall₂ Alike lines others) :
    (joinLines others).head?.all blankLine = (joinLines lines).head?.all blankLine := by
  induction alike with
  | nil => rfl
  | @cons line other rest rest' same alike ih =>
    by_cases goesOn : Continued line
    · have goesOn' := same.continued.mpr goesOn
      by_cases last : rest = []
      · rw [last] at alike
        cases alike
        rw [last, joinLines_last, joinLines_last]
        exact same.blank
      · have last' : rest' ≠ [] := fun none => by
          rw [none] at alike
          cases alike
          exact last rfl
        obtain ⟨next, after, joined⟩ := joinLines_some last
        obtain ⟨next', after', joined'⟩ := joinLines_some last'
        rw [joined, joined'] at ih
        have next_same : blankLine next' = blankLine next := ih
        rw [joinLines_continued goesOn last, joinLines_continued goesOn' last', joined, joined', joinTo, joinTo,
          List.head?_cons, List.head?_cons, Option.all_some, Option.all_some, blankLine_append, blankLine_append,
          blankLine_append, blankLine_append, same.lead goesOn, next_same]
    · rw [joinLines_ended goesOn, joinLines_ended (mt same.continued.mp goesOn)]
      exact same.blank

theorem firstBlank_iff (lines : List Bytes) :
    FirstBlank lines ↔ (joinLines (lines.dropWhile (· = []))).head?.all blankLine = true := by
  rw [FirstBlank]
  cases (joinLines (lines.dropWhile (· = []))).head? with
  | none => simp
  | some first => simp

theorem alike_firstBlank {lines others : List Bytes} (alike : List.Forall₂ Alike lines others) :
    FirstBlank others ↔ FirstBlank lines := by
  have dropped : List.Forall₂ Alike (lines.dropWhile (· = [])) (others.dropWhile (· = [])) := by
    induction alike with
    | nil => exact List.Forall₂.nil
    | @cons line other rest rest' same alike ih =>
      by_cases empty : line = []
      · rw [List.dropWhile_cons_of_pos (by simpa using empty),
          List.dropWhile_cons_of_pos (by simpa using same.empty.mpr empty)]
        exact ih
      · rw [List.dropWhile_cons_of_neg (by simpa using empty),
          List.dropWhile_cons_of_neg (by simpa using mt same.empty.mp empty)]
        exact List.Forall₂.cons same alike
  rw [firstBlank_iff, firstBlank_iff, alike_first dropped]

theorem alike_apart {lines others : List Bytes} (alike : List.Forall₂ Alike lines others) (pending : Option Bool) :
    LinesApart pending others ↔ LinesApart pending lines := by
  induction alike generalizing pending with
  | nil => exact Iff.rfl
  | @cons line other rest rest' same alike ih =>
    by_cases last : rest = []
    · rw [last] at alike ⊢
      cases alike
      exact iff_of_true (Or.inl rfl) (Or.inl rfl)
    · have last' : rest' ≠ [] := fun none => by
        rw [none] at alike
        cases alike
        exact last rfl
      by_cases empty : line = []
      · have all : (∀ other ∈ rest', other = []) ↔ ∀ other ∈ rest, other = [] := by
          clear ih last last'
          induction alike with
          | nil => exact Iff.rfl
          | cons same _ ih => rw [List.forall_mem_cons, List.forall_mem_cons, same.empty, ih]
        rw [empty, same.empty.mpr empty, linesApart_empty pending last, linesApart_empty pending last']
        cases pending with
        | none => exact ih none
        | some blank => rw [all, alike_firstBlank alike, ih none]
      · by_cases goesOn : Continued line
        · rw [linesApart_continued pending empty goesOn last,
            linesApart_continued pending (mt same.empty.mp empty) (same.continued.mpr goesOn) last',
            same.lead goesOn, ih]
        · rw [linesApart_ended pending empty goesOn last,
            linesApart_ended pending (mt same.empty.mp empty) (mt same.continued.mp goesOn) last', ih]

theorem step_line {state : Dedup} (tracks : Tracks state) {c : Byte} (visible : c ≠ newline) :
    (∀ byte, byte ∈ (state.step c).written ↔ byte ∈ state.written ∨ byte = c) ∧
      (state.step c).written.getLast? = some c ∧ (state.step c).blank = false := by
  by_cases isSlash : c = slash
  · cases more : state.left.getD (allowed state.written) with
    | zero =>
      have step : state.step c = ⟨state.written, false, some 0⟩ := by
        rw [Dedup.step, if_neg visible, if_neg (not_not.mpr isSlash), more]
      obtain ⟨-, full⟩ := tracks.slash_dropped more
      obtain ⟨before, count, -, written, -⟩ := tracks.inside 0 full
      have last : state.written.getLast? = some slash := by
        rw [written, List.replicate_succ', ← List.append_assoc, List.getLast?_concat]
      rw [step, isSlash]
      refine ⟨fun byte => (or_iff_left_of_imp fun same => ?_).symm, last, rfl⟩
      exact same ▸ List.mem_of_getLast? last
    | succ more' =>
      have step : state.step c = ⟨state.written ++ [c], false, some more'⟩ := by
        rw [Dedup.step, if_neg visible, if_neg (not_not.mpr isSlash), more]
      rw [step]
      exact ⟨fun byte => by rw [List.mem_append, List.mem_singleton], List.getLast?_concat, rfl⟩
  · have step : state.step c = ⟨state.written ++ [c], false, none⟩ := by
      rw [Dedup.step, if_neg visible, if_pos isSlash]
    rw [step]
    exact ⟨fun byte => by rw [List.mem_append, List.mem_singleton], List.getLast?_concat, rfl⟩

theorem foldl_tracks {state : Dedup} (tracks : Tracks state) (text : Bytes) : Tracks (text.foldl Dedup.step state) := by
  induction text generalizing state with
  | nil => exact tracks
  | cons c rest ih => exact ih (step_spec tracks c).tracks

theorem foldl_mem {state : Dedup} (tracks : Tracks state) {line : Bytes} (plain : newline ∉ line) (byte : Byte) :
    byte ∈ (line.foldl Dedup.step state).written ↔ byte ∈ state.written ∨ byte ∈ line := by
  induction line generalizing state with
  | nil => simp
  | cons c rest ih =>
    have visible : c ≠ newline := fun same => plain (same ▸ List.mem_cons_self)
    rw [List.foldl_cons, ih (step_spec tracks c).tracks fun member => plain (List.mem_cons_of_mem _ member),
      (step_line tracks visible).1, List.mem_cons, or_assoc]

theorem mem_dedupSlashes {line : Bytes} (plain : newline ∉ line) (byte : Byte) :
    byte ∈ dedupSlashes line ↔ byte ∈ line := by
  rw [dedupSlashes, foldl_mem Tracks.initial plain]
  exact or_iff_right List.not_mem_nil

theorem blankLine_congr {line other : Bytes} (same : ∀ byte, byte ∈ other ↔ byte ∈ line) :
    blankLine other = blankLine line := by
  rw [blankLine, blankLine, Bool.eq_iff_iff, List.all_eq_true, List.all_eq_true]
  exact forall_congr' fun byte => by rw [same byte]

theorem alike_dedupSlashes {line : Bytes} (plain : newline ∉ line) : Alike line (dedupSlashes line) := by
  have members := mem_dedupSlashes plain
  have last : ∀ lead c, line = lead ++ [c] → (dedupSlashes line).getLast? = some c := fun lead c whole => by
    have visible : c ≠ newline := fun same => plain (by rw [whole, same]; simp)
    rw [whole, dedupSlashes, List.foldl_append]
    exact (step_line (foldl_tracks Tracks.initial lead) visible).2.1
  have empty : dedupSlashes line = [] ↔ line = [] := by
    rw [List.eq_nil_iff_forall_not_mem, List.eq_nil_iff_forall_not_mem]
    exact forall_congr' fun byte => not_congr (members byte)
  have ends : (dedupSlashes line).getLast? = line.getLast? := by
    rcases List.eq_nil_or_concat' line with none | ⟨lead, c, whole⟩
    · rw [none]
      rfl
    · rw [last lead c whole, whole, List.getLast?_concat]
  refine ⟨empty, by rw [Continued, Continued, ends], blankLine_congr members, fun continued => ?_⟩
  obtain ⟨lead, whole⟩ := List.getLast?_eq_some_iff.mp continued
  have plain' : newline ∉ lead := fun member => plain (by rw [whole]; exact List.mem_append_left _ member)
  have kept : dedupSlashes (lead ++ [backslash]) = dedupSlashes lead ++ [backslash] := by
    rw [dedupSlashes, List.foldl_append]
    rfl
  rw [whole, kept, List.dropLast_concat, List.dropLast_concat]
  exact blankLine_congr (mem_dedupSlashes plain')

theorem allowed_line {out : Bytes} (ended : ∀ c ∈ out.getLast?, c = newline) (line : Bytes) :
    allowed (out ++ line) = allowed line := by
  have inside : ∀ txt : Bytes, newline ∉ txt → (txt <:+ out ++ line ↔ txt <:+ line) := by
    intro txt single
    refine ⟨fun ends => ?_, fun ends => ends.trans (List.suffix_append out line)⟩
    rcases List.suffix_or_suffix_of_suffix ends (List.suffix_append out line) with inner | ⟨lead, whole⟩
    · exact inner
    · obtain ⟨before, same⟩ := ends
      rw [← whole, ← List.append_assoc] at same
      have starts := List.append_cancel_right same
      rcases List.eq_nil_or_concat' lead with none | ⟨lead', c, last⟩
      · rw [← whole, none]
        exact List.suffix_refl _
      · have isNewline : c = newline := ended c (by rw [← starts, last, ← List.append_assoc, List.getLast?_concat]; rfl)
        exact absurd (by rw [← whole, last, isNewline]; simp) single
  have http := inside (ascii "http:") (by decide)
  have https := inside (ascii "https:") (by decide)
  have file := inside (ascii "file:") (by decide)
  rw [allowed, allowed]
  simp only [http, https, file]

def Dedup.after (out : Bytes) (state : Dedup) : Dedup := { state with written := out ++ state.written }

theorem step_after {out : Bytes} (ended : ∀ c ∈ out.getLast?, c = newline) (state : Dedup) {c : Byte}
    (visible : c ≠ newline) : (state.after out).step c = (state.step c).after out := by
  have counts := allowed_line ended state.written
  rw [Dedup.step, Dedup.step, if_neg visible, if_neg visible]
  simp only [Dedup.after, counts]
  by_cases isSlash : c = slash
  · rw [if_neg (not_not.mpr isSlash), if_neg (not_not.mpr isSlash)]
    cases state.left.getD (allowed state.written) with
    | zero => rfl
    | succ more => simp only [List.append_assoc]
  · rw [if_pos isSlash, if_pos isSlash]
    simp only [List.append_assoc]

theorem foldl_after {out : Bytes} (ended : ∀ c ∈ out.getLast?, c = newline) {line : Bytes} (single : newline ∉ line)
    (state : Dedup) : line.foldl Dedup.step (state.after out) = (line.foldl Dedup.step state).after out := by
  induction line generalizing state with
  | nil => rfl
  | cons c rest ih =>
    have visible : c ≠ newline := fun same => single (same ▸ List.mem_cons_self)
    rw [List.foldl_cons, step_after ended state visible, List.foldl_cons,
      ih fun member => single (List.mem_cons_of_mem _ member)]

theorem foldl_line {out : Bytes} (ended : ∀ c ∈ out.getLast?, c = newline) {line : Bytes} (single : newline ∉ line) :
    ∃ left, line.foldl Dedup.step ⟨out, true, none⟩ = ⟨out ++ dedupSlashes line, decide (line = []), left⟩ := by
  have start : (⟨out, true, none⟩ : Dedup) = Dedup.initial.after out := by
    rw [Dedup.after, Dedup.initial, List.append_nil]
  rw [start, foldl_after ended single]
  refine ⟨(line.foldl Dedup.step .initial).left, ?_⟩
  rcases List.eq_nil_or_concat' line with none | ⟨lead, c, whole⟩
  · rw [none]
    rfl
  · have visible : c ≠ newline := fun same => single (by rw [whole, same]; simp)
    have fresh : (line.foldl Dedup.step .initial).blank = false := by
      rw [whole, List.foldl_append]
      exact (step_line (foldl_tracks Tracks.initial lead) visible).2.2
    have proper : decide (line = []) = false := by
      rw [whole]
      simp
    rw [Dedup.after, fresh, proper]
    rfl

theorem shorten_line {line : Bytes} (single : newline ∉ line) (state : Dedup) :
    line.foldl Dedup.shortenStep state = line.foldl Dedup.step state := by
  induction line generalizing state with
  | nil => rfl
  | cons c rest ih =>
    have visible : c ≠ newline := fun same => single (same ▸ List.mem_cons_self)
    rw [List.foldl_cons, List.foldl_cons, Dedup.shortenStep, if_neg visible,
      ih fun member => single (List.mem_cons_of_mem _ member)]

theorem ended_concat (text : Bytes) : ∀ c ∈ (text ++ [newline]).getLast?, c = newline := by
  intro c member
  rw [List.getLast?_concat] at member
  exact (Option.some.inj member).symm

theorem dedupSlashes_single {line : Bytes} (single : newline ∉ line) : newline ∉ dedupSlashes line :=
  fun member => single ((mem_dedupSlashes single newline).mp member)

theorem foldl_lines (text out : Bytes) (ended : ∀ c ∈ out.getLast?, c = newline) :
    (∃ dropped, (text.foldl Dedup.step ⟨out, true, none⟩).written = out ++ dropped ∧
      dropped.splitOn newline = dropEmpty ((text.splitOn newline).map dedupSlashes)) ∧
    ∃ short, (text.foldl Dedup.shortenStep ⟨out, true, none⟩).written = out ++ short ∧
      short.splitOn newline = (text.splitOn newline).map dedupSlashes := by
  induction text using lines_induction newline generalizing out with
  | unfinished text single =>
    obtain ⟨left, run⟩ := foldl_line ended single
    have last : (dedupSlashes text).splitOn newline = [dedupSlashes text] :=
      List.splitOn_eq_singleton (dedupSlashes_single single)
    rw [shorten_line single, run, List.splitOn_eq_singleton single, List.map_singleton]
    refine ⟨⟨dedupSlashes text, rfl, ?_⟩, dedupSlashes text, rfl, last⟩
    rw [last, dropEmpty, if_neg fun both => both.2 rfl]
    rfl
  | line line rest single ih =>
    obtain ⟨left, run⟩ := foldl_line ended single
    have proper : (rest.splitOn newline).map dedupSlashes ≠ [] := fun none =>
      List.splitOn_ne_nil newline rest (List.map_eq_nil_iff.mp none)
    have plain := dedupSlashes_single single
    obtain ⟨-, short, run'', pieces'⟩ := ih (out ++ dedupSlashes line ++ [newline]) (ended_concat _)
    have shortened : Dedup.shortenStep ⟨out ++ dedupSlashes line, decide (line = []), left⟩ newline =
        ⟨out ++ dedupSlashes line ++ [newline], true, none⟩ := rfl
    rw [List.splitOn_append_cons_self_of_not_mem single, List.map_cons, List.foldl_append, List.foldl_append, run,
      shorten_line single, run, List.foldl_cons, List.foldl_cons, shortened, run'']
    refine ⟨?_, dedupSlashes line ++ newline :: short, ?_, ?_⟩
    · by_cases empty : line = []
      · have stays : Dedup.step ⟨out ++ dedupSlashes line, decide (line = []), left⟩ newline = ⟨out, true, none⟩ := by
          rw [empty, Dedup.step, if_pos rfl]
          simp [dedupSlashes, Dedup.initial]
        have nothing : dedupSlashes line = [] := by rw [empty]; rfl
        obtain ⟨⟨dropped, run', pieces⟩, -⟩ := ih out ended
        refine ⟨dropped, ?_, ?_⟩
        · rw [stays, run']
        · rw [pieces, nothing, dropEmpty_empty proper]
      · have writes : Dedup.step ⟨out ++ dedupSlashes line, decide (line = []), left⟩ newline =
            ⟨out ++ dedupSlashes line ++ [newline], true, none⟩ := by
          rw [decide_eq_false empty]
          rfl
        have real : dedupSlashes line ≠ [] := mt (alike_dedupSlashes single).empty.mp empty
        obtain ⟨⟨dropped, run', pieces⟩, -⟩ := ih (out ++ dedupSlashes line ++ [newline]) (ended_concat _)
        refine ⟨dedupSlashes line ++ newline :: dropped, ?_, ?_⟩
        · rw [writes, run', List.append_assoc, List.append_assoc]
          rfl
        · rw [List.splitOn_append_cons_self_of_not_mem plain, pieces, dropEmpty_kept real]
    · rw [List.append_assoc, List.append_assoc]
      rfl
    · rw [List.splitOn_append_cons_self_of_not_mem plain, pieces']

theorem dedupSlashes_lines (text : Bytes) :
    (dedupSlashes text).splitOn newline = dropEmpty ((text.splitOn newline).map dedupSlashes) := by
  obtain ⟨⟨dropped, run, pieces⟩, -⟩ := foldl_lines text [] nofun
  have same : dedupSlashes text = dropped := run
  rw [same, pieces]

theorem shortenSlashes_lines (text : Bytes) :
    (shortenSlashes text).splitOn newline = (text.splitOn newline).map dedupSlashes := by
  obtain ⟨-, short, run, pieces⟩ := foldl_lines text [] nofun
  have same : shortenSlashes text = short := run
  rw [same, pieces]

theorem alike_lines (text : Bytes) :
    List.Forall₂ Alike (text.splitOn newline) ((text.splitOn newline).map dedupSlashes) := by
  rw [List.forall₂_map_right_iff, List.forall₂_same]
  intro line member
  exact alike_dedupSlashes (single_lines newline text line member)

end AppManager.Units
