import AppManager.Binding.CropInPlace
import AppManager.Lib.Trim
import AppManager.Units.NormalizeInPlace
import AppManager.Units.PackedLines

/-! The two readers of unit files on one text. They give the same logical lines as long as no
line that goes on from another one starts with a blank or a comment character or is blank, and
no comment is indented. -/

namespace AppManager.Binding
open AppManager.Lib AppManager.Units

/-- The lines of a text that was read, up to the blanks at their ends, without the blank ones. -/
def readLines (text : Bytes) : List Bytes := ((text.splitOn newline).map (trim isblank)).filter (· ≠ [])

/-- What both readers hold at the begin of a line. For the binding, it starts a logical line, or goes on
from blanks, or from a text that ends with the same blanks for both readers, or with more blanks for the
binding. -/
inductive Joining where
  | fresh
  | blank
  | level
  | wide
  deriving DecidableEq, Repr

def commentLine (line : Bytes) : Bool := line.head?.any startsComment

/-- Nothing is read in some lines, when a logical line is pending for the units. -/
def Void : Bool → List Bytes → Prop
  | _, [] => True
  | continued, line :: rest =>
    if line.dropWhile isblank = [] then Void false rest
    else if line.dropWhile isblank = [backslash] then Void true rest
    else continued = false ∧ commentLine line = true ∧ Void false rest

def Joining.goesOn (indented : Bool) : Joining → Joining
  | .fresh => .blank
  | .blank => .blank
  | .level => if indented then .wide else .level
  | .wide => .wide

/-- No line makes the readers differ: a blank line ends a text only when nothing is read after it, comments
start lines of their own in the first column, and no text goes on in a line that is indented. -/
def Agree : Joining → List Bytes → Prop
  | _, [] => True
  | joining, line :: rest =>
    let text := line.dropWhile isblank
    if text = [] then
      if joining = .level ∨ joining = .wide then Void false rest else Agree .fresh rest
    else if commentLine text then joining = .fresh ∧ text = line ∧ Agree .fresh rest
    else if text = [backslash] then Agree (joining.goesOn (text ≠ line)) rest
    else (joining = .level → text = line) ∧ joining ≠ .wide ∧ Agree (if Continued text then .level else .fresh) rest

instance decidableVoid : (continued : Bool) → (lines : List Bytes) → Decidable (Void continued lines)
  | _, [] => isTrue trivial
  | continued, line :: rest =>
    letI := fun continued => decidableVoid continued rest
    inferInstanceAs (Decidable (if line.dropWhile isblank = [] then Void false rest
      else if line.dropWhile isblank = [backslash] then Void true rest
      else continued = false ∧ commentLine line = true ∧ Void false rest))

instance decidableAgree : (joining : Joining) → (lines : List Bytes) → Decidable (Agree joining lines)
  | _, [] => isTrue trivial
  | joining, line :: rest =>
    letI := fun joining => decidableAgree joining rest
    inferInstanceAs (Decidable (if line.dropWhile isblank = [] then
        if joining = .level ∨ joining = .wide then Void false rest else Agree .fresh rest
      else if commentLine (line.dropWhile isblank) then
        joining = .fresh ∧ line.dropWhile isblank = line ∧ Agree .fresh rest
      else if line.dropWhile isblank = [backslash] then
        Agree (joining.goesOn (line.dropWhile isblank ≠ line)) rest
      else (joining = .level → line.dropWhile isblank = line) ∧ joining ≠ .wide ∧
        Agree (if Continued (line.dropWhile isblank) then .level else .fresh) rest))

def lineOf (text : Bytes) : List Bytes := if trim isblank text = [] then [] else [trim isblank text]

def normalizedLines : Bytes → List Bytes → List Bytes
  | pending, [] => lineOf pending
  | pending, line :: rest =>
    let text := line.dropWhile isblank
    if text = [] ∨ commentLine text then normalizedLines pending rest
    else if Continued text then normalizedLines (pending ++ (text.dropLast ++ [32])) rest
    else lineOf (pending ++ text) ++ normalizedLines [] rest

def croppedLines : Option Bytes → List Bytes → List Bytes
  | pending, [] => lineOf (pending.getD [])
  | pending, line :: rest =>
    if pending = none ∧ commentLine line then croppedLines none rest
    else if Continued line then croppedLines (some (pending.getD [] ++ (line.dropLast ++ [32]))) rest
    else lineOf (pending.getD [] ++ line) ++ croppedLines none rest

/-- What a line can be, after its indentation. -/
inductive LineKind (line : Bytes) : Prop
  | blank (blanks : Blanks isblank line)
  | comment (indent : Bytes) (c : Byte) (text : Bytes) (whole : line = indent ++ c :: text)
      (blanks : Blanks isblank indent) (comment : startsComment c = true)
  | lone (indent : Bytes) (whole : line = indent ++ [backslash]) (blanks : Blanks isblank indent)
  | goesOn (indent : Bytes) (c : Byte) (body : Bytes) (whole : line = indent ++ c :: (body ++ [backslash]))
      (blanks : Blanks isblank indent) (stops : ¬isblank c = true) (plain : startsComment c = false)
  | ends (indent : Bytes) (c : Byte) (text : Bytes) (whole : line = indent ++ c :: text)
      (blanks : Blanks isblank indent) (stops : ¬isblank c = true) (plain : startsComment c = false)
      (ended : ¬Continued (c :: text))

theorem lineKind (line : Bytes) : LineKind line := by
  have whole := (List.takeWhile_append_dropWhile (p := isblank) (l := line)).symm
  have blanks : Blanks isblank (line.takeWhile isblank) := fun byte member => List.mem_takeWhile_imp member
  cases text : line.dropWhile isblank with
  | nil => exact .blank (List.dropWhile_eq_nil_iff.mp text)
  | cons c rest =>
    have stops : ¬isblank c = true := by
      have starts := List.head?_dropWhile_not isblank line
      rw [text] at starts
      have starts : isblank c = false := starts
      rw [starts]
      decide
    rw [text] at whole
    cases comment : startsComment c with
    | true => exact .comment _ c rest whole blanks comment
    | false =>
      by_cases continued : Continued (c :: rest)
      · obtain ⟨body, split⟩ := List.getLast?_eq_some_iff.mp continued
        cases body with
        | nil =>
          rw [split] at whole
          exact .lone _ whole blanks
        | cons first body =>
          rw [List.cons_append, List.cons.injEq] at split
          rw [split.2] at whole
          exact .goesOn _ c body whole blanks stops comment
      · exact .ends _ c rest whole blanks stops comment continued

section Kinds
variable {indent : Bytes} {c : Byte} {text body : Bytes}

theorem comment_stops (comment : startsComment c = true) : ¬isblank c = true := by
  rw [startsComment, Bool.or_eq_true, beq_iff_eq, beq_iff_eq] at comment
  rcases comment with rfl | rfl <;> decide

theorem dropWhile_indent (blanks : Blanks isblank indent) (stops : ¬isblank c = true) (text : Bytes) :
    (indent ++ c :: text).dropWhile isblank = c :: text := by
  rw [List.dropWhile_append_of_pos blanks, List.dropWhile_cons_of_neg stops]

theorem commentLine_indent (blanks : Blanks isblank indent) (c : Byte) (text : Bytes) :
    commentLine (indent ++ c :: text) = true ↔ indent = [] ∧ startsComment c = true := by
  cases indent with
  | nil => exact ⟨fun comment => ⟨rfl, comment⟩, fun both => both.2⟩
  | cons first rest =>
    refine iff_of_false (fun comment => ?_) fun both => List.cons_ne_nil _ _ both.1
    exact comment_stops comment (blanks first List.mem_cons_self)

theorem commentLine_blanks {line : Bytes} (blanks : Blanks isblank line) : ¬commentLine line = true := by
  cases line with
  | nil => decide
  | cons first rest => exact fun comment => comment_stops comment (blanks first List.mem_cons_self)

theorem space_blanks : Blanks isblank [32] := fun _ member => List.mem_singleton.mp member ▸ rfl

theorem backslash_stops : ¬isblank backslash = true := by decide

theorem continued_concat (front : Bytes) : Continued (front ++ [backslash]) := List.getLast?_concat

theorem continued_indent (indent : Bytes) (c : Byte) (text : Bytes) :
    Continued (indent ++ c :: text) ↔ Continued (c :: text) := by
  rw [Continued, Continued, List.getLast?_append, List.getLast?_cons, Option.some_or]

theorem not_continued_blanks {line : Bytes} (blanks : Blanks isblank line) : ¬Continued line :=
  fun continued => backslash_stops (blanks backslash (List.mem_of_getLast? continued))

theorem normalized_blank {line : Bytes} (blanks : Blanks isblank line) (pending : Bytes) (rest : List Bytes) :
    normalizedLines pending (line :: rest) = normalizedLines pending rest := by
  rw [normalizedLines]
  exact if_pos (Or.inl (List.dropWhile_eq_nil_iff.mpr blanks))

theorem normalized_comment (blanks : Blanks isblank indent) (comment : startsComment c = true) (text pending : Bytes)
    (rest : List Bytes) : normalizedLines pending ((indent ++ c :: text) :: rest) = normalizedLines pending rest := by
  rw [normalizedLines, dropWhile_indent blanks (comment_stops comment)]
  exact if_pos (Or.inr comment)

theorem normalized_goesOn (blanks : Blanks isblank indent) (stops : ¬isblank c = true)
    (plain : startsComment c = false) (continued : Continued (c :: text)) (pending : Bytes) (rest : List Bytes) :
    normalizedLines pending ((indent ++ c :: text) :: rest) =
      normalizedLines (pending ++ ((c :: text).dropLast ++ [32])) rest := by
  have text' : ¬(c :: text = [] ∨ commentLine (c :: text) = true) :=
    fun either => either.elim (List.cons_ne_nil c text) fun comment => Bool.false_ne_true (plain.symm.trans comment)
  rw [normalizedLines, dropWhile_indent blanks stops]
  simp only [if_neg text', if_pos continued]

theorem normalized_lone (blanks : Blanks isblank indent) (pending : Bytes) (rest : List Bytes) :
    normalizedLines pending ((indent ++ [backslash]) :: rest) = normalizedLines (pending ++ [32]) rest := by
  have continued : Continued [backslash] := rfl
  exact normalized_goesOn blanks backslash_stops rfl continued pending rest

theorem normalized_continued (blanks : Blanks isblank indent) (stops : ¬isblank c = true)
    (plain : startsComment c = false) (body pending : Bytes) (rest : List Bytes) :
    normalizedLines pending ((indent ++ c :: (body ++ [backslash])) :: rest) =
      normalizedLines (pending ++ c :: (body ++ [32])) rest := by
  have continued : Continued (c :: (body ++ [backslash])) := continued_concat (c :: body)
  have front : (c :: (body ++ [backslash])).dropLast = c :: body := by rw [← List.cons_append, List.dropLast_concat]
  rw [normalized_goesOn blanks stops plain continued, front, List.cons_append]

theorem normalized_ends (blanks : Blanks isblank indent) (stops : ¬isblank c = true) (plain : startsComment c = false)
    (ended : ¬Continued (c :: text)) (pending : Bytes) (rest : List Bytes) :
    normalizedLines pending ((indent ++ c :: text) :: rest) =
      lineOf (pending ++ c :: text) ++ normalizedLines [] rest := by
  have text' : ¬(c :: text = [] ∨ commentLine (c :: text) = true) :=
    fun either => either.elim (List.cons_ne_nil c text) fun comment => Bool.false_ne_true (plain.symm.trans comment)
  rw [normalizedLines, dropWhile_indent blanks stops]
  simp only [if_neg text', if_neg ended]

theorem cropped_comment (comment : startsComment c = true) (text : Bytes) (rest : List Bytes) :
    croppedLines none ((c :: text) :: rest) = croppedLines none rest := by
  rw [croppedLines]
  exact if_pos ⟨rfl, comment⟩

theorem cropped_some (pending line : Bytes) (rest : List Bytes) :
    croppedLines (some pending) (line :: rest) =
      if Continued line then croppedLines (some (pending ++ (line.dropLast ++ [32]))) rest
      else lineOf (pending ++ line) ++ croppedLines none rest := by
  have kept : ¬(some pending = none ∧ commentLine line = true) := fun both => Option.some_ne_none pending both.1
  rw [croppedLines, if_neg kept, Option.getD_some]

theorem cropped_none {line : Bytes} (kept : ¬commentLine line = true) (rest : List Bytes) :
    croppedLines none (line :: rest) = croppedLines (some []) (line :: rest) := by
  rw [cropped_some, croppedLines, if_neg fun both => kept both.2]
  rfl

theorem lineOf_blanks {text : Bytes} (blanks : Blanks isblank text) : lineOf text = [] :=
  if_pos (trim_eq_nil.mpr blanks)

theorem lineOf_solid {lead text : Bytes} (blanks : Blanks isblank lead) (solid : Solid isblank text) (rest : Bytes) :
    lineOf (lead ++ text ++ rest) = [text ++ rest.rdropWhile isblank] := by
  have proper : text ++ rest.rdropWhile isblank ≠ [] := by
    obtain ⟨first, others, rfl, -⟩ := solid.starts
    exact List.cons_ne_nil _ _
  rw [lineOf, trim_solid blanks solid, if_neg proper]

theorem cropped_blank {line : Bytes} (blanks : Blanks isblank line) (pending : Bytes) (rest : List Bytes) :
    croppedLines (some pending) (line :: rest) = lineOf (pending ++ line) ++ croppedLines none rest := by
  rw [cropped_some, if_neg (not_continued_blanks blanks)]

theorem cropped_lone (indent pending : Bytes) (rest : List Bytes) :
    croppedLines (some pending) ((indent ++ [backslash]) :: rest) =
      croppedLines (some (pending ++ (indent ++ [32]))) rest := by
  rw [cropped_some, if_pos (continued_concat indent), List.dropLast_concat]

theorem cropped_continued (indent body pending : Bytes) (c : Byte) (rest : List Bytes) :
    croppedLines (some pending) ((indent ++ c :: (body ++ [backslash])) :: rest) =
      croppedLines (some (pending ++ (indent ++ c :: (body ++ [32])))) rest := by
  have whole : indent ++ c :: (body ++ [backslash]) = indent ++ c :: body ++ [backslash] := by simp
  have whole' : indent ++ c :: body ++ [32] = indent ++ c :: (body ++ [32]) := by simp
  rw [whole, cropped_lone, whole']

theorem cropped_ends (indent pending : Bytes) (ended : ¬Continued (c :: text)) (rest : List Bytes) :
    croppedLines (some pending) ((indent ++ c :: text) :: rest) =
      lineOf (pending ++ (indent ++ c :: text)) ++ croppedLines none rest := by
  rw [cropped_some, if_neg (mt (continued_indent indent c text).mp ended)]

end Kinds

theorem cropped_holds (pending : Bytes) (lines : List Bytes) :
    ∃ more others, croppedLines (some pending) lines = lineOf (pending ++ more) ++ others := by
  induction lines generalizing pending with
  | nil => exact ⟨[], [], by rw [croppedLines, Option.getD_some, List.append_nil, List.append_nil]⟩
  | cons line rest ih =>
    rw [cropped_some]
    split
    · obtain ⟨more, others, same⟩ := ih (pending ++ (line.dropLast ++ [32]))
      exact ⟨line.dropLast ++ [32] ++ more, others, by rw [same, List.append_assoc]⟩
    · exact ⟨line, croppedLines none rest, rfl⟩

theorem cropped_holds_line (indent : Bytes) {c : Byte} {text : Bytes} (other : c :: text ≠ [backslash])
    (pending : Bytes) (rest : List Bytes) : ∃ more others,
      croppedLines (some pending) ((indent ++ c :: text) :: rest) =
        lineOf (pending ++ (indent ++ c :: more)) ++ others := by
  by_cases continued : Continued (c :: text)
  · obtain ⟨front, whole⟩ := List.getLast?_eq_some_iff.mp continued
    cases front with
    | nil => exact absurd whole other
    | cons first body =>
      rw [List.cons_append, List.cons.injEq] at whole
      obtain ⟨more, others, same⟩ := cropped_holds (pending ++ (indent ++ c :: (body ++ [32]))) rest
      refine ⟨body ++ [32] ++ more, others, ?_⟩
      rw [whole.2, cropped_continued, same]
      simp
  · exact ⟨text, croppedLines none rest, cropped_ends indent pending continued rest⟩

/-- What is read of a text does not start with a comment character. -/
def NoComment (text : Bytes) : Prop := ∀ c ∈ (text.dropWhile isblank).head?, startsComment c = false

theorem noComment_append {first second : Bytes} (start : NoComment first) (last : NoComment second) :
    NoComment (first ++ second) := by
  rw [NoComment, List.dropWhile_append]
  split
  · exact last
  · next some =>
    cases text : first.dropWhile isblank with
    | nil =>
      rw [text] at some
      exact absurd rfl some
    | cons c rest =>
      intro c' member
      exact start c' (by rw [text]; exact member)

theorem noComment_blanks {text : Bytes} (blanks : Blanks isblank text) : NoComment text := by
  rw [NoComment, List.dropWhile_eq_nil_iff.mpr blanks]
  nofun

theorem noComment_text {c : Byte} (stops : ¬isblank c = true) (plain : startsComment c = false) (text : Bytes) :
    NoComment (c :: text) := by
  rw [NoComment, List.dropWhile_cons_of_neg stops]
  exact fun c' same => Option.some.inj same ▸ plain

theorem normalized_holds (pending : Bytes) (lines : List Bytes) : ∃ more others, NoComment more ∧
    normalizedLines pending lines = lineOf (pending ++ more) ++ others := by
  induction lines generalizing pending with
  | nil =>
    exact ⟨[], [], noComment_blanks Blanks.nil, by rw [normalizedLines, List.append_nil, List.append_nil]⟩
  | cons line rest ih =>
    cases lineKind line with
    | blank blanks =>
      rw [normalized_blank blanks]
      exact ih pending
    | comment indent c part whole blanks comment =>
      rw [whole, normalized_comment blanks comment]
      exact ih pending
    | lone indent whole blanks =>
      obtain ⟨more, others, no, same⟩ := ih (pending ++ [32])
      refine ⟨[32] ++ more, others, noComment_append (noComment_blanks space_blanks) no, ?_⟩
      rw [whole, normalized_lone blanks, same, List.append_assoc]
    | goesOn indent c body whole blanks stops plain =>
      obtain ⟨more, others, no, same⟩ := ih (pending ++ c :: (body ++ [32]))
      refine ⟨c :: (body ++ [32]) ++ more, others, noComment_append (noComment_text stops plain _) no, ?_⟩
      rw [whole, normalized_continued blanks stops plain, same, List.append_assoc]
    | ends indent c part whole blanks stops plain ended =>
      exact ⟨c :: part, normalizedLines [] rest, noComment_text stops plain part,
        whole ▸ normalized_ends blanks stops plain ended pending rest⟩

theorem lineOf_head {text : Bytes} (no : NoComment text) : ∀ line ∈ lineOf text, ¬commentLine line = true := by
  intro line member
  rw [lineOf] at member
  split at member
  · cases member
  · rw [List.mem_singleton] at member
    intro comment
    rw [commentLine, Option.any_eq_true] at comment
    obtain ⟨c, head, starts⟩ := comment
    obtain ⟨rest, whole⟩ : trim isblank text <+: text.dropWhile isblank := List.rdropWhile_prefix isblank _
    rw [member] at head
    have head' : (text.dropWhile isblank).head? = some c := by
      rw [← whole, List.head?_append, head]
      rfl
    exact Bool.false_ne_true ((no c head').symm.trans starts)

theorem normalized_plain {pending : Bytes} (no : NoComment pending) (lines : List Bytes) :
    ∀ line ∈ normalizedLines pending lines, ¬commentLine line = true := by
  induction lines generalizing pending with
  | nil =>
    rw [normalizedLines]
    exact lineOf_head no
  | cons line rest ih =>
    cases lineKind line with
    | blank blanks' =>
      rw [normalized_blank blanks']
      exact ih no
    | comment indent c part whole blanks' comment =>
      rw [whole, normalized_comment blanks' comment]
      exact ih no
    | lone indent whole blanks' =>
      rw [whole, normalized_lone blanks']
      exact ih (noComment_append no (noComment_blanks space_blanks))
    | goesOn indent c body whole blanks' stops plain =>
      rw [whole, normalized_continued blanks' stops plain]
      exact ih (noComment_append no (noComment_text stops plain _))
    | ends indent c part whole blanks' stops plain ended =>
      rw [whole, normalized_ends blanks' stops plain ended]
      intro other member
      rcases List.mem_append.mp member with first | later
      · exact lineOf_head (noComment_append no (noComment_text stops plain part)) other first
      · exact ih (noComment_blanks Blanks.nil) other later

theorem lineOf_grows {lead text gap : Bytes} (blanks : Blanks isblank lead) (solid : Solid isblank text) {c : Byte}
    (stops : ¬isblank c = true) (more : Bytes) :
    lineOf (lead ++ text ++ gap ++ c :: more) = [text ++ (gap ++ c :: more.rdropWhile isblank)] := by
  rw [List.append_assoc _ gap, lineOf_solid blanks solid, rdropWhile_append stops]

theorem lineOf_starts {lead : Bytes} (blanks : Blanks isblank lead) {c : Byte} (stops : ¬isblank c = true)
    (more : Bytes) : lineOf (lead ++ c :: more) = [c :: more.rdropWhile isblank] := by
  have starts := lineOf_solid blanks (Solid.single stops) more
  rwa [List.append_assoc, List.singleton_append, List.singleton_append] at starts

section Void
variable {lead text : Bytes} (blanks : Blanks isblank lead) (solid : Solid isblank text)
  (plain : NoComment (lead ++ text))

theorem void_cons (continued : Bool) (line : Bytes) (rest : List Bytes) :
    Void continued (line :: rest) ↔
      if line.dropWhile isblank = [] then Void false rest
      else if line.dropWhile isblank = [backslash] then Void true rest
      else continued = false ∧ commentLine line = true ∧ Void false rest := Iff.rfl

theorem void_blank {line : Bytes} (blanks : Blanks isblank line) (continued : Bool) (rest : List Bytes) :
    Void continued (line :: rest) ↔ Void false rest := by
  rw [void_cons, if_pos (List.dropWhile_eq_nil_iff.mpr blanks)]

theorem void_lone {indent : Bytes} (blanks : Blanks isblank indent) (continued : Bool) (rest : List Bytes) :
    Void continued ((indent ++ [backslash]) :: rest) ↔ Void true rest := by
  rw [void_cons, dropWhile_indent blanks backslash_stops, if_neg (List.cons_ne_nil _ _), if_pos rfl]

theorem void_other {indent : Bytes} (blanks : Blanks isblank indent) {c : Byte} (stops : ¬isblank c = true)
    {part : Bytes} (other : c :: part ≠ [backslash]) (continued : Bool) (rest : List Bytes) :
    Void continued ((indent ++ c :: part) :: rest) ↔
      continued = false ∧ indent = [] ∧ startsComment c = true ∧ Void false rest := by
  rw [void_cons, dropWhile_indent blanks stops, if_neg (List.cons_ne_nil _ _), if_neg other,
    commentLine_indent blanks, and_assoc]

theorem comment_other {c : Byte} (comment : startsComment c = true) (part : Bytes) : c :: part ≠ [backslash] := by
  intro same
  rw [(List.cons.inj same).1] at comment
  exact absurd comment (by decide)

theorem cropped_reads_comment {held indent : Bytes} (heldBlanks : Blanks isblank held) (blanks : Blanks isblank indent)
    {c : Byte} (comment : startsComment c = true) (part : Bytes) (rest : List Bytes) :
    ∃ more others, croppedLines (some held) ((indent ++ c :: part) :: rest) = (c :: more) :: others := by
  obtain ⟨more, others, same⟩ := cropped_holds_line indent (comment_other comment part) held rest
  refine ⟨more.rdropWhile isblank, others, ?_⟩
  rw [same, ← List.append_assoc, lineOf_starts (heldBlanks.append blanks) (comment_stops comment)]
  rfl

theorem normalized_not_comment {pending : Bytes} (no : NoComment pending) (lines : List Bytes) {c : Byte}
    (comment : startsComment c = true) (before : List Bytes) (more : Bytes) (others : List Bytes) :
    normalizedLines pending lines ≠ before ++ (c :: more) :: others := by
  intro same
  have member : c :: more ∈ normalizedLines pending lines := by
    rw [same]
    exact List.mem_append_right _ List.mem_cons_self
  exact normalized_plain no lines _ member comment

theorem longer_ne (text gap : Bytes) (c : Byte) (more : Bytes) : text ++ (gap ++ c :: more) ≠ text := by
  intro same
  have empty := List.append_right_eq_self.mp same
  exact List.cons_ne_nil c more (List.append_eq_nil_iff.mp empty).2

theorem cropped_keeps_lone {pending : Option Bytes} (pendingBlanks : ∀ held ∈ pending, Blanks isblank held)
    {indent : Bytes} (blanks : Blanks isblank indent) (rest : List Bytes) :
    ∃ held, Blanks isblank held ∧
      croppedLines pending ((indent ++ [backslash]) :: rest) = croppedLines (some held) rest := by
  cases pending with
  | none =>
    have kept : ¬commentLine (indent ++ [backslash]) = true := by
      rw [commentLine_indent blanks]
      exact fun both => absurd both.2 (by decide)
    refine ⟨indent ++ [32], blanks.append space_blanks, ?_⟩
    rw [cropped_none kept, cropped_lone, List.nil_append]
  | some held =>
    exact ⟨held ++ (indent ++ [32]), (pendingBlanks held rfl).append (blanks.append space_blanks),
      cropped_lone indent held rest⟩

theorem cropped_drops_blank {pending : Option Bytes} (pendingBlanks : ∀ held ∈ pending, Blanks isblank held)
    {line : Bytes} (blanks : Blanks isblank line) (rest : List Bytes) :
    croppedLines pending (line :: rest) = croppedLines none rest := by
  cases pending with
  | none =>
    rw [cropped_none (commentLine_blanks blanks), cropped_blank blanks, List.nil_append, lineOf_blanks blanks,
      List.nil_append]
  | some held => rw [cropped_blank blanks, lineOf_blanks ((pendingBlanks held rfl).append blanks), List.nil_append]

/-- The binding drops a comment of its first column, the units drop them all. -/
theorem void_comment {pending : Option Bytes} (pendingBlanks : ∀ held ∈ pending, Blanks isblank held) {written : Bytes}
    (no : NoComment written) {indent : Bytes} (blanks : Blanks isblank indent) {c : Byte}
    (comment : startsComment c = true) (part text : Bytes) {rest : List Bytes}
    (inner : normalizedLines written rest = text :: croppedLines none rest ↔ Void false rest) :
    normalizedLines written ((indent ++ c :: part) :: rest) = text :: croppedLines pending ((indent ++ c :: part) :: rest) ↔
      Void pending.isSome ((indent ++ c :: part) :: rest) := by
  rw [void_other blanks (comment_stops comment) (comment_other comment part), normalized_comment blanks comment]
  cases pending with
  | none =>
    by_cases first : indent = []
    · rw [first, List.nil_append, cropped_comment comment, inner]
      simp [comment]
    · have kept : ¬commentLine (indent ++ c :: part) = true := by
        rw [commentLine_indent blanks]
        exact fun both => first both.1
      obtain ⟨more, others, same⟩ := cropped_reads_comment Blanks.nil blanks comment part rest
      rw [cropped_none kept, same]
      exact iff_of_false (normalized_not_comment no rest comment [text] more others) fun all => first all.2.1
  | some held =>
    obtain ⟨more, others, same⟩ := cropped_reads_comment (pendingBlanks held rfl) blanks comment part rest
    rw [same]
    exact iff_of_false (normalized_not_comment no rest comment [text] more others)
      fun all => Bool.false_ne_true all.1.symm

include blanks solid plain in
theorem void_iff {gap : Bytes} (gapBlanks : Blanks isblank gap) (pending : Option Bytes)
    (pendingBlanks : ∀ held ∈ pending, Blanks isblank held) (lines : List Bytes) :
    normalizedLines (lead ++ text ++ gap) lines = text :: croppedLines pending lines ↔ Void pending.isSome lines := by
  induction lines generalizing gap pending with
  | nil =>
    have held : Blanks isblank (pending.getD []) := by
      cases pending with
      | none => exact Blanks.nil
      | some held => exact pendingBlanks held rfl
    rw [normalizedLines, croppedLines, lineOf_solid blanks solid, lineOf_blanks held, rdropWhile_blanks gapBlanks,
      List.append_nil]
    exact iff_of_true rfl trivial
  | cons line rest ih =>
    cases lineKind line with
    | blank lineBlanks =>
      rw [normalized_blank lineBlanks, cropped_drops_blank pendingBlanks lineBlanks, void_blank lineBlanks]
      exact ih gapBlanks none nofun
    | comment indent c part whole lineBlanks comment =>
      rw [whole]
      exact void_comment pendingBlanks (noComment_append plain (noComment_blanks gapBlanks)) lineBlanks comment part text
        (ih gapBlanks none nofun)
    | lone indent whole lineBlanks =>
      obtain ⟨held, heldBlanks, cropped⟩ := cropped_keeps_lone pendingBlanks lineBlanks rest
      rw [whole, cropped, normalized_lone lineBlanks, void_lone lineBlanks, List.append_assoc _ gap]
      exact ih (gapBlanks.append space_blanks) (some held) fun _ same => Option.some.inj same ▸ heldBlanks
    | goesOn indent c body whole lineBlanks stops plain' =>
      have other : c :: (body ++ [backslash]) ≠ [backslash] := by simp
      obtain ⟨more, others, -, same⟩ := normalized_holds (lead ++ text ++ gap ++ c :: (body ++ [32])) rest
      rw [List.append_assoc _ (c :: _), List.cons_append, lineOf_grows blanks solid stops] at same
      rw [whole, void_other lineBlanks stops other, normalized_continued lineBlanks stops plain', same]
      refine iff_of_false (fun equal => ?_) fun all => Bool.false_ne_true (plain'.symm.trans all.2.2.1)
      exact longer_ne text gap c _ (List.cons.inj equal).1
    | ends indent c part whole lineBlanks stops plain' ended =>
      have other : c :: part ≠ [backslash] := fun same => ended (same ▸ rfl)
      rw [whole, void_other lineBlanks stops other, normalized_ends lineBlanks stops plain' ended,
        lineOf_grows blanks solid stops]
      refine iff_of_false (fun equal => ?_) fun all => Bool.false_ne_true (plain'.symm.trans all.2.2.1)
      exact longer_ne text gap c _ (List.cons.inj equal).1

end Void

theorem normalized_holds_line {indent : Bytes} (blanks : Blanks isblank indent) {c : Byte} (stops : ¬isblank c = true)
    (plain : startsComment c = false) {text : Bytes} (other : c :: text ≠ [backslash]) (pending : Bytes)
    (rest : List Bytes) : ∃ more others,
      normalizedLines pending ((indent ++ c :: text) :: rest) = lineOf (pending ++ c :: more) ++ others := by
  by_cases continued : Continued (c :: text)
  · obtain ⟨front, whole⟩ := List.getLast?_eq_some_iff.mp continued
    cases front with
    | nil => exact absurd whole other
    | cons first body =>
      rw [List.cons_append, List.cons.injEq] at whole
      obtain ⟨more, others, -, same⟩ := normalized_holds (pending ++ c :: (body ++ [32])) rest
      refine ⟨body ++ [32] ++ more, others, ?_⟩
      rw [whole.2, normalized_continued blanks stops plain, same]
      simp
  · exact ⟨text, normalizedLines [] rest, normalized_ends blanks stops plain continued pending rest⟩

/-- What is pending for the two readers. -/
inductive Together : Joining → Bytes → Option Bytes → Prop
  | fresh {pending : Bytes} (blanks : Blanks isblank pending) : Together .fresh pending none
  | blank {pending pending' : Bytes} (blanks : Blanks isblank pending) (blanks' : Blanks isblank pending') :
    Together .blank pending (some pending')
  | level {lead lead' text gap : Bytes} (blanks : Blanks isblank lead) (blanks' : Blanks isblank lead')
    (solid : Solid isblank text) (plain : NoComment (lead ++ text)) (gapBlanks : Blanks isblank gap) :
    Together .level (lead ++ text ++ gap) (some (lead' ++ text ++ gap))
  | wide {lead lead' text gap gap' : Bytes} (blanks : Blanks isblank lead) (blanks' : Blanks isblank lead')
    (solid : Solid isblank text) (plain : NoComment (lead ++ text)) (gapBlanks : Blanks isblank gap)
    (gapBlanks' : Blanks isblank gap') (more : gap.length < gap'.length) :
    Together .wide (lead ++ text ++ gap) (some (lead' ++ text ++ gap'))

section Agree

theorem agree_cons (joining : Joining) (line : Bytes) (rest : List Bytes) :
    Agree joining (line :: rest) ↔
      if line.dropWhile isblank = [] then
        if joining = .level ∨ joining = .wide then Void false rest else Agree .fresh rest
      else if commentLine (line.dropWhile isblank) then
        joining = .fresh ∧ line.dropWhile isblank = line ∧ Agree .fresh rest
      else if line.dropWhile isblank = [backslash] then
        Agree (joining.goesOn (line.dropWhile isblank ≠ line)) rest
      else (joining = .level → line.dropWhile isblank = line) ∧ joining ≠ .wide ∧
        Agree (if Continued (line.dropWhile isblank) then .level else .fresh) rest := Iff.rfl

theorem indent_iff (indent : Bytes) (c : Byte) (text : Bytes) : c :: text = indent ++ c :: text ↔ indent = [] :=
  ⟨fun same => List.append_left_eq_self.mp same.symm, fun none => by rw [none, List.nil_append]⟩

theorem agree_blank {line : Bytes} (blanks : Blanks isblank line) (joining : Joining) (rest : List Bytes) :
    Agree joining (line :: rest) ↔
      if joining = .level ∨ joining = .wide then Void false rest else Agree .fresh rest := by
  rw [agree_cons, if_pos (List.dropWhile_eq_nil_iff.mpr blanks)]

variable {indent : Bytes} (blanks : Blanks isblank indent) {c : Byte} {text : Bytes}
include blanks

theorem agree_comment (comment : startsComment c = true) (joining : Joining) (rest : List Bytes) :
    Agree joining ((indent ++ c :: text) :: rest) ↔ joining = .fresh ∧ indent = [] ∧ Agree .fresh rest := by
  have starts : commentLine (c :: text) = true := comment
  rw [agree_cons, dropWhile_indent blanks (comment_stops comment), if_neg (List.cons_ne_nil _ _), if_pos starts,
    indent_iff]

theorem agree_lone (joining : Joining) (rest : List Bytes) :
    Agree joining ((indent ++ [backslash]) :: rest) ↔ Agree (joining.goesOn (indent ≠ [])) rest := by
  have plain : ¬commentLine [backslash] = true := by decide
  rw [agree_cons, dropWhile_indent blanks backslash_stops, if_neg (List.cons_ne_nil _ _), if_neg plain, if_pos rfl]
  simp only [ne_eq, indent_iff]

theorem agree_text (stops : ¬isblank c = true) (plain : startsComment c = false) (other : c :: text ≠ [backslash])
    (joining : Joining) (rest : List Bytes) :
    Agree joining ((indent ++ c :: text) :: rest) ↔ (joining = .level → indent = []) ∧ joining ≠ .wide ∧
      Agree (if Continued (c :: text) then .level else .fresh) rest := by
  have plain' : ¬commentLine (c :: text) = true := fun comment => Bool.false_ne_true (plain.symm.trans comment)
  rw [agree_cons, dropWhile_indent blanks stops, if_neg (List.cons_ne_nil _ _), if_neg plain', if_neg other, indent_iff]

end Agree

theorem blanks_or (text : Bytes) : Blanks isblank text ∨ ∃ lead c rest, text = lead ++ c :: rest ∧
    Blanks isblank lead ∧ ¬isblank c = true ∧ text.dropWhile isblank = c :: rest := by
  cases lineKind text with
  | blank blanks => exact Or.inl blanks
  | comment indent c part whole blanks comment =>
    exact Or.inr ⟨indent, c, part, whole, blanks, comment_stops comment,
      whole ▸ dropWhile_indent blanks (comment_stops comment) part⟩
  | lone indent whole blanks =>
    exact Or.inr ⟨indent, backslash, [], whole, blanks, backslash_stops,
      whole ▸ dropWhile_indent blanks backslash_stops []⟩
  | goesOn indent c body whole blanks stops _ =>
    exact Or.inr ⟨indent, c, _, whole, blanks, stops, whole ▸ dropWhile_indent blanks stops _⟩
  | ends indent c part whole blanks stops _ _ =>
    exact Or.inr ⟨indent, c, part, whole, blanks, stops, whole ▸ dropWhile_indent blanks stops part⟩

section Apart
variable {lead lead' text gap gap' : Bytes} (blanks : Blanks isblank lead) (blanks' : Blanks isblank lead')
  (solid : Solid isblank text) (gapBlanks : Blanks isblank gap) (gapBlanks' : Blanks isblank gap')
  {indent : Bytes} (indentBlanks : Blanks isblank indent) {c : Byte}
include blanks blanks' solid gapBlanks gapBlanks' indentBlanks

theorem comment_apart (comment : startsComment c = true) (part : Bytes) (rest : List Bytes) :
    normalizedLines (lead ++ text ++ gap) rest ≠
      croppedLines (some (lead' ++ text ++ gap')) ((indent ++ c :: part) :: rest) := by
  intro same
  obtain ⟨more, others, no, left⟩ := normalized_holds (lead ++ text ++ gap) rest
  obtain ⟨more', others', right⟩ :=
    cropped_holds_line indent (comment_other comment part) (lead' ++ text ++ gap') rest
  have grown : lead' ++ text ++ gap' ++ (indent ++ c :: more') = lead' ++ text ++ (gap' ++ indent) ++ c :: more' := by
    simp only [List.append_assoc]
  rw [left, right, grown, lineOf_grows blanks' solid (comment_stops comment), List.append_assoc _ gap,
    lineOf_solid blanks solid, List.singleton_append, List.singleton_append, List.cons.injEq,
    List.append_cancel_left_eq] at same
  rcases blanks_or more with none | ⟨front, c', tail, whole, frontBlanks, stops, starts⟩
  · rw [rdropWhile_blanks (gapBlanks.append none)] at same
    exact absurd same.1.symm (by simp)
  · have inner := same.1
    rw [whole, ← List.append_assoc, rdropWhile_append stops] at inner
    have equal := (blanks_unique (gapBlanks.append frontBlanks) (gapBlanks'.append indentBlanks) stops
      (comment_stops comment) inner).2
    have plain := no c' (by rw [starts]; rfl)
    rw [equal, comment] at plain
    cases plain

theorem gap_apart (stops : ¬isblank c = true) (plain : startsComment c = false) {part : Bytes}
    (other : c :: part ≠ [backslash]) (differ : gap ≠ gap' ++ indent) (rest : List Bytes) :
    normalizedLines (lead ++ text ++ gap) ((indent ++ c :: part) :: rest) ≠
      croppedLines (some (lead' ++ text ++ gap')) ((indent ++ c :: part) :: rest) := by
  intro same
  obtain ⟨more, others, left⟩ := normalized_holds_line indentBlanks stops plain other (lead ++ text ++ gap) rest
  obtain ⟨more', others', right⟩ := cropped_holds_line indent other (lead' ++ text ++ gap') rest
  have grown : lead' ++ text ++ gap' ++ (indent ++ c :: more') = lead' ++ text ++ (gap' ++ indent) ++ c :: more' := by
    simp only [List.append_assoc]
  rw [left, right, grown, lineOf_grows blanks' solid stops, lineOf_grows blanks solid stops, List.singleton_append,
    List.singleton_append, List.cons.injEq, List.append_cancel_left_eq] at same
  exact differ (blanks_unique gapBlanks (gapBlanks'.append indentBlanks) stops stops same.1).1

end Apart

theorem continued_body {c : Byte} {text : Bytes} (continued : Continued (c :: text)) (other : c :: text ≠ [backslash]) :
    ∃ body, text = body ++ [backslash] := by
  obtain ⟨front, whole⟩ := List.getLast?_eq_some_iff.mp continued
  cases front with
  | nil => exact absurd whole other
  | cons first body => exact ⟨body, (List.cons.inj whole).2⟩

theorem text_parts {c : Byte} (stops : ¬isblank c = true) (plain : startsComment c = false) (body : Bytes) :
    ∃ inner gap, c :: (body ++ [32]) = inner ++ gap ∧ Solid isblank inner ∧ Blanks isblank gap ∧ NoComment inner := by
  have proper : ¬Blanks isblank (c :: (body ++ [32])) := fun blanks => stops (blanks c List.mem_cons_self)
  obtain ⟨lead, inner, gap, whole, leadBlanks, solid, gapBlanks⟩ := solid_parts proper
  obtain rfl : lead = [] := by
    cases lead with
    | nil => rfl
    | cons first others =>
      have same : c = first := (List.cons.inj whole).1
      exact absurd (leadBlanks first List.mem_cons_self) (same ▸ stops)
  obtain ⟨first, others, starts, -⟩ := solid.starts
  rw [List.nil_append, starts, List.cons_append, List.cons.injEq] at whole
  refine ⟨inner, gap, ?_, solid, gapBlanks, ?_⟩
  · rw [whole.1, whole.2, starts, List.cons_append]
  · rw [starts, ← whole.1]
    exact noComment_text stops plain others

section Run

variable {rest : List Bytes} (ih : ∀ {joining : Joining} {pending : Bytes} {pending' : Option Bytes},
  Together joining pending pending' →
    (normalizedLines pending rest = croppedLines pending' rest ↔ Agree joining rest))
  {joining : Joining} {pending : Bytes} {pending' : Option Bytes} (together : Together joining pending pending')
include ih together

theorem run_blank {line : Bytes} (blanks : Blanks isblank line) :
    normalizedLines pending (line :: rest) = croppedLines pending' (line :: rest) ↔ Agree joining (line :: rest) := by
  rw [normalized_blank blanks, agree_blank blanks]
  cases together with
  | fresh pendingBlanks =>
    rw [cropped_none (commentLine_blanks blanks), cropped_blank blanks, List.nil_append, lineOf_blanks blanks,
      List.nil_append, if_neg (by decide)]
    exact ih (.fresh pendingBlanks)
  | blank pendingBlanks pendingBlanks' =>
    rw [cropped_blank blanks, lineOf_blanks (pendingBlanks'.append blanks), List.nil_append, if_neg (by decide)]
    exact ih (.fresh pendingBlanks)
  | level leadBlanks leadBlanks' solid plain gapBlanks =>
    rw [cropped_blank blanks, List.append_assoc _ _ line, lineOf_solid leadBlanks' solid,
      rdropWhile_blanks (gapBlanks.append blanks), List.append_nil, if_pos (Or.inl rfl)]
    exact void_iff leadBlanks solid plain gapBlanks none nofun rest
  | wide leadBlanks leadBlanks' solid plain gapBlanks gapBlanks' more =>
    rw [cropped_blank blanks, List.append_assoc _ _ line, lineOf_solid leadBlanks' solid,
      rdropWhile_blanks (gapBlanks'.append blanks), List.append_nil, if_pos (Or.inr rfl)]
    exact void_iff leadBlanks solid plain gapBlanks none nofun rest

theorem run_lone {indent : Bytes} (blanks : Blanks isblank indent) :
    normalizedLines pending ((indent ++ [backslash]) :: rest) =
        croppedLines pending' ((indent ++ [backslash]) :: rest) ↔
      Agree joining ((indent ++ [backslash]) :: rest) := by
  have kept : ¬commentLine (indent ++ [backslash]) = true := by
    rw [commentLine_indent blanks]
    exact fun both => absurd both.2 (by decide)
  rw [normalized_lone blanks, agree_lone blanks]
  cases together with
  | fresh pendingBlanks =>
    rw [cropped_none kept, cropped_lone]
    exact ih (.blank (pendingBlanks.append space_blanks) (Blanks.nil.append (blanks.append space_blanks)))
  | blank pendingBlanks pendingBlanks' =>
    rw [cropped_lone]
    exact ih (.blank (pendingBlanks.append space_blanks) (pendingBlanks'.append (blanks.append space_blanks)))
  | level leadBlanks leadBlanks' solid plain gapBlanks =>
    rw [cropped_lone, List.append_assoc _ _ [32], List.append_assoc _ _ (indent ++ [32])]
    by_cases first : indent = []
    · rw [first, decide_eq_false (not_not.mpr rfl)]
      exact ih (.level leadBlanks leadBlanks' solid plain (gapBlanks.append space_blanks))
    · rw [decide_eq_true first]
      refine ih (.wide leadBlanks leadBlanks' solid plain (gapBlanks.append space_blanks)
        (gapBlanks.append (blanks.append space_blanks)) ?_)
      have size := List.length_pos_of_ne_nil first
      simp only [List.length_append]
      omega
  | wide leadBlanks leadBlanks' solid plain gapBlanks gapBlanks' more =>
    rw [cropped_lone, List.append_assoc _ _ [32], List.append_assoc _ _ (indent ++ [32])]
    refine ih (.wide leadBlanks leadBlanks' solid plain (gapBlanks.append space_blanks)
      (gapBlanks'.append (blanks.append space_blanks)) ?_)
    simp only [List.length_append]
    omega

theorem run_comment {indent : Bytes} (blanks : Blanks isblank indent) {c : Byte} (comment : startsComment c = true)
    (text : Bytes) : normalizedLines pending ((indent ++ c :: text) :: rest) =
      croppedLines pending' ((indent ++ c :: text) :: rest) ↔ Agree joining ((indent ++ c :: text) :: rest) := by
  rw [normalized_comment blanks comment, agree_comment blanks comment]
  cases together with
  | fresh pendingBlanks =>
    by_cases first : indent = []
    · rw [first, List.nil_append, cropped_comment comment, ih (.fresh pendingBlanks)]
      simp
    · have kept : ¬commentLine (indent ++ c :: text) = true := by
        rw [commentLine_indent blanks]
        exact fun both => first both.1
      obtain ⟨more, others, same⟩ := cropped_reads_comment Blanks.nil blanks comment text rest
      rw [cropped_none kept, same]
      exact iff_of_false (normalized_not_comment (noComment_blanks pendingBlanks) rest comment [] more others)
        fun all => first all.2.1
  | blank pendingBlanks pendingBlanks' =>
    obtain ⟨more, others, same⟩ := cropped_reads_comment pendingBlanks' blanks comment text rest
    rw [same]
    exact iff_of_false (normalized_not_comment (noComment_blanks pendingBlanks) rest comment [] more others)
      fun all => Joining.noConfusion all.1
  | level leadBlanks leadBlanks' solid plain gapBlanks =>
    exact iff_of_false (comment_apart leadBlanks leadBlanks' solid gapBlanks gapBlanks blanks comment text rest)
      fun all => Joining.noConfusion all.1
  | wide leadBlanks leadBlanks' solid plain gapBlanks gapBlanks' more =>
    exact iff_of_false (comment_apart leadBlanks leadBlanks' solid gapBlanks gapBlanks' blanks comment text rest)
      fun all => Joining.noConfusion all.1

omit together in
theorem run_start {held indent : Bytes} (pendingBlanks : Blanks isblank pending) (heldBlanks : Blanks isblank held)
    (blanks : Blanks isblank indent) {c : Byte} (stops : ¬isblank c = true) (plain : startsComment c = false)
    {text : Bytes} (other : c :: text ≠ [backslash]) :
    normalizedLines pending ((indent ++ c :: text) :: rest) = croppedLines (some held) ((indent ++ c :: text) :: rest) ↔
      Agree (if Continued (c :: text) then .level else .fresh) rest := by
  by_cases continued : Continued (c :: text)
  · obtain ⟨body, rfl⟩ := continued_body continued other
    obtain ⟨inner, gap, whole, solid, gapBlanks, no⟩ := text_parts stops plain body
    have left : pending ++ c :: (body ++ [32]) = pending ++ inner ++ gap := by rw [whole, List.append_assoc]
    have right : held ++ (indent ++ c :: (body ++ [32])) = held ++ indent ++ inner ++ gap := by
      rw [whole]
      simp only [List.append_assoc]
    rw [normalized_continued blanks stops plain, cropped_continued, if_pos continued, left, right]
    exact ih (.level pendingBlanks (heldBlanks.append blanks) solid
      (noComment_append (noComment_blanks pendingBlanks) no) gapBlanks)
  · rw [normalized_ends blanks stops plain continued, cropped_ends indent held continued, if_neg continued,
      lineOf_starts pendingBlanks stops, ← List.append_assoc held, lineOf_starts (heldBlanks.append blanks) stops,
      List.append_cancel_left_eq]
    exact ih (.fresh Blanks.nil)

omit together in
theorem run_level {lead lead' held gap : Bytes} (leadBlanks : Blanks isblank lead) (leadBlanks' : Blanks isblank lead')
    (solid : Solid isblank held) (no : NoComment (lead ++ held)) (gapBlanks : Blanks isblank gap) {c : Byte}
    (stops : ¬isblank c = true) (plain : startsComment c = false) {text : Bytes} (other : c :: text ≠ [backslash]) :
    normalizedLines (lead ++ held ++ gap) (([] ++ c :: text) :: rest) =
        croppedLines (some (lead' ++ held ++ gap)) (([] ++ c :: text) :: rest) ↔
      Agree (if Continued (c :: text) then .level else .fresh) rest := by
  by_cases continued : Continued (c :: text)
  · obtain ⟨body, rfl⟩ := continued_body continued other
    obtain ⟨inner, gap', whole, solid', gapBlanks', no'⟩ := text_parts stops plain body
    have left (lead : Bytes) : lead ++ held ++ gap ++ c :: (body ++ [32]) = lead ++ (held ++ gap ++ inner) ++ gap' := by
      rw [whole]
      simp only [List.append_assoc]
    have no'' : NoComment (lead ++ (held ++ gap ++ inner)) := by
      rw [← List.append_assoc, ← List.append_assoc]
      exact noComment_append (noComment_append no (noComment_blanks gapBlanks)) no'
    rw [normalized_continued Blanks.nil stops plain, cropped_continued, List.nil_append, if_pos continued, left, left]
    exact ih (.level leadBlanks leadBlanks' (solid.append solid' gap) no'' gapBlanks')
  · rw [normalized_ends Blanks.nil stops plain continued, cropped_ends [] _ continued, List.nil_append,
      if_neg continued, lineOf_grows leadBlanks solid stops, lineOf_grows leadBlanks' solid stops,
      List.append_cancel_left_eq]
    exact ih (.fresh Blanks.nil)

theorem run_text {indent : Bytes} (blanks : Blanks isblank indent) {c : Byte} (stops : ¬isblank c = true)
    (plain : startsComment c = false) {text : Bytes} (other : c :: text ≠ [backslash]) :
    normalizedLines pending ((indent ++ c :: text) :: rest) = croppedLines pending' ((indent ++ c :: text) :: rest) ↔
      Agree joining ((indent ++ c :: text) :: rest) := by
  have kept : ¬commentLine (indent ++ c :: text) = true := by
    rw [commentLine_indent blanks]
    exact fun both => Bool.false_ne_true (plain.symm.trans both.2)
  rw [agree_text blanks stops plain other]
  cases together with
  | fresh pendingBlanks =>
    rw [cropped_none kept, run_start ih pendingBlanks Blanks.nil blanks stops plain other]
    simp
  | blank pendingBlanks pendingBlanks' =>
    rw [run_start ih pendingBlanks pendingBlanks' blanks stops plain other]
    simp
  | level leadBlanks leadBlanks' solid no gapBlanks =>
    by_cases first : indent = []
    · rw [first, run_level ih leadBlanks leadBlanks' solid no gapBlanks stops plain other]
      simp
    · have differ : ∀ gap : Bytes, gap ≠ gap ++ indent := fun gap same => first (List.append_right_eq_self.mp same.symm)
      exact iff_of_false (gap_apart leadBlanks leadBlanks' solid gapBlanks gapBlanks blanks stops plain other
        (differ _) rest) fun all => first (all.1 rfl)
  | wide leadBlanks leadBlanks' solid no gapBlanks gapBlanks' more =>
    refine iff_of_false (gap_apart leadBlanks leadBlanks' solid gapBlanks gapBlanks' blanks stops plain other
      (fun same => ?_) rest) fun all => all.2.1 rfl
    rw [same, List.length_append] at more
    omega

end Run

theorem agree_iff {joining : Joining} {pending : Bytes} {pending' : Option Bytes}
    (together : Together joining pending pending') (lines : List Bytes) :
    normalizedLines pending lines = croppedLines pending' lines ↔ Agree joining lines := by
  induction lines generalizing joining pending pending' with
  | nil =>
    refine iff_of_true ?_ trivial
    rw [normalizedLines, croppedLines]
    cases together with
    | fresh blanks => rw [lineOf_blanks blanks, Option.getD_none, lineOf_blanks Blanks.nil]
    | blank blanks blanks' => rw [lineOf_blanks blanks, Option.getD_some, lineOf_blanks blanks']
    | level blanks blanks' solid plain gapBlanks =>
      rw [Option.getD_some, lineOf_solid blanks solid, lineOf_solid blanks' solid]
    | wide blanks blanks' solid plain gapBlanks gapBlanks' more =>
      rw [Option.getD_some, lineOf_solid blanks solid, lineOf_solid blanks' solid, rdropWhile_blanks gapBlanks,
        rdropWhile_blanks gapBlanks']
  | cons line rest ih =>
    cases lineKind line with
    | blank blanks => exact run_blank ih together blanks
    | comment indent c part whole blanks comment => exact whole ▸ run_comment ih together blanks comment part
    | lone indent whole blanks => exact whole ▸ run_lone ih together blanks
    | goesOn indent c body whole blanks stops plain =>
      have other : c :: (body ++ [backslash]) ≠ [backslash] := by simp
      exact whole ▸ run_text ih together blanks stops plain other
    | ends indent c part whole blanks stops plain ended =>
      have other : c :: part ≠ [backslash] := fun same => ended (same ▸ rfl)
      exact whole ▸ run_text ih together blanks stops plain other

theorem readLines_open {text : Bytes} (single : newline ∉ text) : readLines text = lineOf text := by
  rw [readLines, List.splitOn_eq_singleton single, List.map_singleton, List.filter_cons, List.filter_nil, lineOf]
  by_cases empty : trim isblank text = []
  · rw [if_pos empty, if_neg (by simpa using empty)]
  · rw [if_neg empty, if_pos (by simpa using empty)]

theorem readLines_line {line : Bytes} (single : newline ∉ line) (rest : Bytes) :
    readLines (line ++ newline :: rest) = lineOf line ++ readLines rest := by
  have first := readLines_open single
  rw [readLines, List.splitOn_eq_singleton single] at first
  rw [readLines, List.splitOn_append_cons_self_of_not_mem single, ← List.singleton_append, List.map_append,
    List.filter_append, first, readLines]

theorem startsComment_iff (c : Byte) : c ∈ ascii ";#" ↔ startsComment c = true := by
  rw [startsComment, Bool.or_eq_true, beq_iff_eq, beq_iff_eq]
  simp [ascii]

theorem not_mem_append {first second : Bytes} {byte : Byte} (start : byte ∉ first) (last : byte ∉ second) :
    byte ∉ first ++ second := fun member => (List.mem_append.mp member).elim start last

theorem normalized_reads {text : Bytes} (closed : unended newline text = []) {pending : Bytes}
    (single : newline ∉ pending) :
    readLines (pending ++ normalizeFrom (ascii ";#") .begin text) =
      normalizedLines pending (terminated newline text) := by
  induction text using lines_induction newline generalizing pending with
  | unfinished text plain =>
    rw [unended_open newline text plain] at closed
    rw [closed, terminated_open newline [] List.not_mem_nil, normalizeFrom, List.append_nil, readLines_open single,
      normalizedLines]
  | line line rest plain ih =>
    rw [unended_line newline line rest plain] at closed
    rw [terminated_line newline line rest plain, (normalizeFrom_line (ascii ";#") plain).2, normalizeLine]
    cases lineKind line with
    | blank blanks =>
      rw [normalized_blank blanks, List.dropWhile_eq_nil_iff.mpr blanks]
      exact ih closed single
    | comment indent c part whole blanks comment =>
      rw [whole, normalized_comment blanks comment, dropWhile_indent blanks (comment_stops comment)]
      simp only
      rw [if_pos ((startsComment_iff c).mpr comment), List.nil_append]
      exact ih closed single
    | lone indent whole blanks =>
      have plain' : backslash ∉ ascii ";#" := by decide
      rw [whole, normalized_lone blanks, dropWhile_indent blanks backslash_stops]
      simp only
      have continued : [backslash].getLast? = some backslash := rfl
      rw [if_neg plain', endLine, if_pos continued, ← List.append_assoc]
      exact ih closed (not_mem_append single (by decide))
    | goesOn indent c body whole blanks stops plain' =>
      have kept : c ∉ ascii ";#" := fun comment =>
        Bool.false_ne_true (plain'.symm.trans ((startsComment_iff c).mp comment))
      have continued : (c :: (body ++ [backslash])).getLast? = some backslash := continued_concat (c :: body)
      have front : (c :: (body ++ [backslash])).dropLast ++ [32] = c :: (body ++ [32]) := by
        rw [← List.cons_append, List.dropLast_concat, List.cons_append]
      have single' : newline ∉ c :: (body ++ [32]) := by
        rw [whole] at plain
        simp only [List.mem_append, List.mem_cons, List.not_mem_nil, or_false, not_or] at plain ⊢
        exact ⟨plain.2.1, plain.2.2.1, by decide⟩
      rw [whole, normalized_continued blanks stops plain', dropWhile_indent blanks stops]
      simp only
      rw [if_neg kept, endLine, if_pos continued, front, ← List.append_assoc]
      exact ih closed (not_mem_append single single')
    | ends indent c part whole blanks stops plain' ended =>
      have kept : c ∉ ascii ";#" := fun comment =>
        Bool.false_ne_true (plain'.symm.trans ((startsComment_iff c).mp comment))
      have single' : newline ∉ c :: part := fun member => plain (whole ▸ List.mem_append_right indent member)
      have ended' : ¬(c :: part).getLast? = some backslash := ended
      rw [whole, normalized_ends blanks stops plain' ended, dropWhile_indent blanks stops]
      simp only
      rw [if_neg kept, endLine, if_neg ended', List.append_assoc, ← List.append_assoc, List.singleton_append,
        readLines_line (not_mem_append single single')]
      exact congrArg _ (ih closed List.not_mem_nil)

theorem cropped_reads {text : Bytes} (closed : unended newline text = []) (clean : carriage ∉ text) :
    readLines (cropFrom .begin text) = croppedLines none (terminated newline text) ∧
      ∀ {pending : Bytes}, newline ∉ pending →
        readLines (pending ++ cropFrom .line text) = croppedLines (some pending) (terminated newline text) := by
  induction text using lines_induction newline with
  | unfinished text plain =>
    rw [unended_open newline text plain] at closed
    rw [closed, terminated_open newline [] List.not_mem_nil]
    refine ⟨rfl, fun {pending} single => ?_⟩
    have ends : cropFrom .line [] = [newline] := rfl
    rw [ends, readLines_line single, croppedLines, Option.getD_some]
    exact List.append_nil _
  | line line rest plain ih =>
    rw [unended_line newline line rest plain] at closed
    have clean' : carriage ∉ line := fun member => clean (List.mem_append_left _ member)
    obtain ⟨fresh, goesOn⟩ := ih closed fun member => clean (by simp [member])
    have second : ∀ {pending : Bytes}, newline ∉ pending →
        readLines (pending ++ cropFrom .line (line ++ newline :: rest)) =
          croppedLines (some pending) (line :: terminated newline rest) := by
      intro pending single
      rw [cropFrom_line line _ plain clean', cropped_some]
      by_cases continued : Continued line
      · have single' : newline ∉ line.dropLast ++ [32] :=
          not_mem_append (fun member => plain (List.dropLast_subset line member)) (by decide)
        have last : line.getLast? = some backslash := continued
        rw [if_pos last, if_pos continued, cropFrom_escaped_newline, ← goesOn (not_mem_append single single')]
        simp only [List.append_assoc, List.singleton_append]
      · have last : ¬line.getLast? = some backslash := continued
        rw [if_neg last, if_neg continued, cropFrom_line_cons newline rest (by decide), if_neg (by decide),
          if_pos rfl, ← List.append_assoc, readLines_line (not_mem_append single plain), fresh]
    rw [terminated_line newline line rest plain]
    refine ⟨?_, second⟩
    cases line with
    | nil =>
      rw [List.nil_append, cropFrom, if_neg (by decide), if_neg (by decide), if_neg (by decide), if_pos ⟨rfl, rfl⟩,
        fresh, cropped_none (by decide), cropped_blank Blanks.nil]
      rfl
    | cons c part =>
      simp only [List.mem_cons, not_or] at plain clean'
      cases comment : startsComment c with
      | true =>
        rw [List.cons_append, cropFrom, if_neg (Ne.symm clean'.1), if_neg (by decide), if_pos ⟨rfl, comment⟩,
          cropFrom_comment part rest plain.2, fresh, cropped_comment comment]
      | false =>
        have kept : ¬commentLine (c :: part) = true := fun starts => Bool.false_ne_true (comment.symm.trans starts)
        rw [List.cons_append, cropFrom_begin_cons c _ (Ne.symm clean'.1) (Ne.symm plain.1) comment, cropped_none kept,
          ← second List.not_mem_nil]
        rfl

theorem unended_newline {text : Bytes} (ended : text.getLast? = some newline) : unended newline text = [] := by
  obtain ⟨front, rfl⟩ := List.getLast?_eq_some_iff.mp ended
  rw [unended, List.splitOn_append_cons_self]
  simp

/-- The two readers of a file give the same logical lines exactly when no line makes them differ. -/
theorem readers_agree (content : Bytes) (clean : (0 : Byte) ∉ content) (plain : carriage ∉ content)
    (ended : content.getLast? = some newline) :
    (∃ units binding, Leaves units (normalizeUnitFileCmtchrs content (some (ascii ";#"))) ∧
        Leaves binding (cropAndTrimInPlace content) ∧ readLines units = readLines binding) ↔
      Agree .fresh (terminated newline content) := by
  have closed := unended_newline ended
  have written : Leaves (normalizeFrom (ascii ";#") .begin content)
      (normalizeUnitFileCmtchrs content (some (ascii ";#"))) :=
    normalizeUnitFileCmtchrs_closed clean (some (ascii ";#")) (Or.inl (by rw [closed]; rfl))
  have cut : ¬Uncut content := by
    intro uncut
    have last : [] ∈ content.splitOn newline := by
      obtain ⟨front, same⟩ := List.getLast?_eq_some_iff.mp ended
      rw [same, List.splitOn_append_cons_self]
      exact List.mem_append_right _ (List.mem_singleton.mpr rfl)
    exact Bool.false_ne_true (uncut.2.2 [] last).1
  have cropped : Leaves (cropFrom .begin content) (cropAndTrimInPlace content) := by
    have run := cropAndTrimInPlace_eq content
    rw [if_neg cut, cropAndTrimUnitContent, cstr_of_no_nul content clean] at run
    obtain ⟨after, run, -⟩ := run
    exact ⟨after, run⟩
  have reads := normalized_reads closed (List.not_mem_nil (a := newline))
  have reads' := (cropped_reads closed plain).1
  rw [← agree_iff (.fresh Blanks.nil), ← reads, ← reads', List.nil_append]
  constructor
  · rintro ⟨units, binding, left, left', same⟩
    rwa [left.unique written, left'.unique cropped] at same
  · exact fun same => ⟨_, _, written, cropped, same⟩

/-- A comment, a command on two lines and a last line that nothing continues. -/
theorem readers_agree_unit :
    ∃ units binding,
      Leaves units (normalizeUnitFileCmtchrs (ascii "#c\n\n[U]\n A=/x \\\n--y\nB=2 \\\n  \n#d\n") (some (ascii ";#"))) ∧
        Leaves binding (cropAndTrimInPlace (ascii "#c\n\n[U]\n A=/x \\\n--y\nB=2 \\\n  \n#d\n")) ∧
        readLines units = readLines binding :=
  (readers_agree (ascii "#c\n\n[U]\n A=/x \\\n--y\nB=2 \\\n  \n#d\n") (by decide) (by decide) (by decide)).mpr
    (by decide)

/-- An indented comment, and one that follows a continued line: the binding reads both as texts. -/
theorem readers_differ :
    readLines (normalizeUnitFile (ascii "  ;off\nA=1 \\\n# note\nB=2\n")) = [ascii "A=1  B=2"] ∧
      readLines (cropAndTrimUnitContent (ascii "  ;off\nA=1 \\\n# note\nB=2\n")) =
        [ascii ";off", ascii "A=1  # note", ascii "B=2"] ∧
      ¬∀ content, (0 : Byte) ∉ content → carriage ∉ content → content.getLast? = some newline →
        ∃ units binding, Leaves units (normalizeUnitFileCmtchrs content (some (ascii ";#"))) ∧
          Leaves binding (cropAndTrimInPlace content) ∧ readLines units = readLines binding := by
  refine ⟨by decide, by decide, fun agree => ?_⟩
  obtain ⟨units, binding, left, left', same⟩ :=
    agree (ascii "  ;off\nA=1 \\\n# note\nB=2\n") (by decide) (by decide) (by decide)
  have run : Leaves (ascii "A=1  B=2\n")
      (normalizeUnitFileCmtchrs (ascii "  ;off\nA=1 \\\n# note\nB=2\n") (some (ascii ";#"))) :=
    ⟨ascii " \\\n# note\nB=2\n" ++ [0], by decide⟩
  have run' : Leaves (ascii "  ;off\nA=1  # note\nB=2\n")
      (cropAndTrimInPlace (ascii "  ;off\nA=1 \\\n# note\nB=2\n")) := ⟨[0], by decide⟩
  rw [left.unique run, left'.unique run'] at same
  exact absurd same (by decide)

end AppManager.Binding
