import AppManager.Lib.Bytes

/-! Fields and lines of a text, each ended by a byte that it does not hold. -/

namespace AppManager.Lib

theorem takeWhile_stop (stop : Byte) (field rest : Bytes) (plain : stop ∉ field) :
    (field ++ stop :: rest).takeWhile (· != stop) = field := by
  rw [List.takeWhile_append_of_pos, List.takeWhile_cons_of_neg (by simp), List.append_nil]
  intro byte member
  rw [bne_iff_ne]
  exact fun same => plain (same ▸ member)

theorem dropWhile_stop (stop : Byte) (field rest : Bytes) (plain : stop ∉ field) :
    (field ++ stop :: rest).dropWhile (· != stop) = stop :: rest := by
  rw [List.dropWhile_append_of_pos, List.dropWhile_cons_of_neg (by simp)]
  intro byte member
  rw [bne_iff_ne]
  exact fun same => plain (same ▸ member)

/-- The pieces of a text that are followed by the byte that ends them. -/
def terminated (stop : Byte) (text : Bytes) : List Bytes := (text.splitOn stop).dropLast

theorem terminated_open (stop : Byte) (text : Bytes) (plain : stop ∉ text) :
    terminated stop text = [] := by
  rw [terminated, List.splitOn_eq_singleton plain, List.dropLast_singleton]

theorem terminated_line (stop : Byte) (line rest : Bytes) (plain : stop ∉ line) :
    terminated stop (line ++ stop :: rest) = line :: terminated stop rest := by
  rw [terminated, terminated, List.splitOn_append_cons_self_of_not_mem plain,
    List.dropLast_cons_of_ne_nil (List.splitOn_ne_nil _ _)]

def unended (stop : Byte) (text : Bytes) : Bytes := ((text.splitOn stop).getLast?).getD []

theorem unended_open (stop : Byte) (text : Bytes) (plain : stop ∉ text) : unended stop text = text := by
  rw [unended, List.splitOn_eq_singleton plain]
  rfl

theorem unended_line (stop : Byte) (line rest : Bytes) (plain : stop ∉ line) :
    unended stop (line ++ stop :: rest) = unended stop rest := by
  rw [unended, unended, List.splitOn_append_cons_self_of_not_mem plain]
  cases pieces : rest.splitOn stop with
  | nil => exact absurd pieces (List.splitOn_ne_nil _ _)
  | cons piece others => rw [List.getLast?_cons_cons]

/-- A text is an unfinished line, or starts with a line. -/
theorem first_line (stop : Byte) (text : Bytes) :
    stop ∉ text ∨ ∃ line rest, stop ∉ line ∧ text = line ++ stop :: rest := by
  by_cases inside : stop ∈ text
  · right
    obtain ⟨line, rest, same, plain⟩ := List.eq_append_cons_of_mem inside
    exact ⟨line, rest, plain, same⟩
  · exact Or.inl inside

/-- Induction over the lines of a text. -/
theorem lines_induction (stop : Byte) {motive : Bytes → Prop}
    (unfinished : ∀ text, stop ∉ text → motive text)
    (line : ∀ line rest, stop ∉ line → motive rest → motive (line ++ stop :: rest)) (text : Bytes) :
    motive text := by
  induction size : text.length using Nat.strong_induction_on generalizing text with
  | _ size' ih =>
    rcases first_line stop text with plain | ⟨first, rest, plain, same⟩
    · exact unfinished text plain
    · rw [same]
      apply line first rest plain
      apply ih rest.length _ rest rfl
      rw [← size, same, List.length_append, List.length_cons]
      omega

theorem single_lines (stop : Byte) (text : Bytes) : ∀ line ∈ text.splitOn stop, stop ∉ line := by
  induction text using lines_induction stop with
  | unfinished text plain =>
    rw [List.splitOn_eq_singleton plain]
    simpa using plain
  | line line rest plain ih =>
    rw [List.splitOn_append_cons_self_of_not_mem plain, List.forall_mem_cons]
    exact ⟨plain, ih⟩

def wholeLines (stop : Byte) (text : Bytes) : List Bytes := (terminated stop text).filter (· ≠ [])

theorem wholeLines_open (stop : Byte) (text : Bytes) (plain : stop ∉ text) :
    wholeLines stop text = [] := by
  rw [wholeLines, terminated_open stop text plain, List.filter_nil]

theorem wholeLines_empty (stop : Byte) (rest : Bytes) :
    wholeLines stop (stop :: rest) = wholeLines stop rest := by
  have split := terminated_line stop [] rest (by simp)
  rw [List.nil_append] at split
  rw [wholeLines, split, List.filter_cons_of_neg (by simp), wholeLines]

theorem wholeLines_line (stop : Byte) (line rest : Bytes) (plain : stop ∉ line) (text : line ≠ []) :
    wholeLines stop (line ++ stop :: rest) = line :: wholeLines stop rest := by
  rw [wholeLines, terminated_line stop line rest plain, List.filter_cons_of_pos (by simpa using text),
    wholeLines]

theorem wholeLines_append (stop : Byte) (text more : Bytes) :
    ∃ others, wholeLines stop (text ++ more) = wholeLines stop text ++ others := by
  induction text using lines_induction stop with
  | unfinished text plain => exact ⟨_, by rw [wholeLines_open stop text plain, List.nil_append]⟩
  | line line rest plain ih =>
    obtain ⟨others, same⟩ := ih
    refine ⟨others, ?_⟩
    rw [List.append_assoc, List.cons_append]
    by_cases empty : line = []
    · rw [empty, List.nil_append, List.nil_append, wholeLines_empty, wholeLines_empty, same]
    · rw [wholeLines_line stop line _ plain empty, wholeLines_line stop line _ plain empty, same,
        List.cons_append]

theorem wholeLines_joined (stop : Byte) (lines : List Bytes) (proper : ∀ line ∈ lines, stop ∉ line ∧ line ≠ []) :
    wholeLines stop (lines.map (· ++ [stop])).flatten = lines := by
  induction lines with
  | nil => exact wholeLines_open stop [] (by simp)
  | cons line rest ih =>
    obtain ⟨plain, text⟩ := proper line List.mem_cons_self
    rw [List.map_cons, List.flatten_cons, List.append_assoc, List.singleton_append,
      wholeLines_line stop line _ plain text, ih fun other member => proper other (List.mem_cons_of_mem line member)]

/-- Only ends of lines come before an end of line. -/
def Blank (stop : Byte) (text : Bytes) : Prop :=
  ∀ before after, text = before ++ stop :: after → ∀ byte ∈ before, byte = stop

theorem blank_open (stop : Byte) (text : Bytes) (plain : stop ∉ text) : Blank stop text := by
  intro before after same
  exact absurd (by rw [same]; simp) plain

theorem blank_cons (stop : Byte) (rest : Bytes) : Blank stop (stop :: rest) ↔ Blank stop rest := by
  constructor
  · intro blank before after same byte member
    apply blank (stop :: before) after (by rw [same, List.cons_append])
    exact List.mem_cons_of_mem stop member
  · intro blank before after same byte member
    cases before with
    | nil => cases member
    | cons first others =>
      rw [List.cons_append, List.cons.injEq] at same
      rcases List.mem_cons.mp member with isFirst | other
      · rw [isFirst, same.1]
      · exact blank others after same.2 byte other

theorem blank_suffix (stop : Byte) (before text : Bytes) (blank : Blank stop (before ++ text)) :
    Blank stop text := by
  intro front after same byte member
  apply blank (before ++ front) after (by rw [same, List.append_assoc])
  exact List.mem_append_right before member

theorem blank_tail (stop : Byte) (before text : Bytes) (blank : Blank stop (before ++ text))
    (byte : Byte) (member : byte ∈ before) (other : byte ≠ stop) : stop ∉ text := by
  intro inside
  obtain ⟨front, after, same, _⟩ := List.eq_append_cons_of_mem inside
  apply other
  apply blank (before ++ front) after (by rw [same, List.append_assoc])
  exact List.mem_append_left front member

theorem wholeLines_eq_nil (stop : Byte) (text : Bytes) : wholeLines stop text = [] ↔ Blank stop text := by
  induction text using lines_induction stop with
  | unfinished text plain => exact iff_of_true (wholeLines_open stop text plain) (blank_open stop text plain)
  | line line rest plain ih =>
    by_cases empty : line = []
    · rw [empty, List.nil_append, wholeLines_empty, blank_cons, ih]
    · rw [wholeLines_line stop line rest plain empty]
      apply iff_of_false
      · simp
      · intro blank
        obtain ⟨byte, member⟩ := List.exists_mem_of_ne_nil line empty
        exact plain (blank line rest rfl byte member ▸ member)

end AppManager.Lib
