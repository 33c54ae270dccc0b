import AppManager.Lib.Lines

/-! The search of an entry in the text of `/etc/passwd` or `/etc/group`: lines of fields that are
separated by colons. A pointer in a text is what the text has from there to its end. -/

namespace AppManager.Setup
open AppManager.Lib

def colon : Byte := ':'.toUInt8
def newline : Byte := '\n'.toUInt8

def nextcol : Bytes → Option Bytes
  | [] => none
  | byte :: text => if byte = newline then none else if byte = colon then some text else nextcol text

def colatFrom (text : Bytes) : Nat → Option Bytes
  | 0 => some text
  | col + 1 => (nextcol text).bind (colatFrom · col)

def colat (text : Bytes) (col : Int) : Option Bytes := colatFrom text col.toNat

/-- The loop that compares, with what it leaves of the key and of the text. -/
def compareKey : Bytes → Bytes → Bytes × Bytes
  | ik :: key, cur :: text =>
    if cur ≠ newline ∧ ik = cur then compareKey key text else (ik :: key, cur :: text)
  | key, text => (key, text)

def skipLine : Bytes → Bytes
  | [] => []
  | cur :: text => if cur = newline then text else skipLine text

def endsField : Bytes → Bool
  | [] => true
  | cur :: _ => decide (cur = newline ∨ cur = colon)

/-- Whether the line has the key at the column, and where `cur` is after that. -/
def searchLine (listart key : Bytes) (column : Int) : Bool × Bytes :=
  match colat listart column with
  | none => (false, listart)
  | some cur => (decide ((compareKey key cur).1 = []) && endsField (compareKey key cur).2, (compareKey key cur).2)

theorem skipLine_length {text : Bytes} (some : text ≠ []) : (skipLine text).length < text.length := by
  induction text with
  | nil => exact absurd rfl some
  | cons cur rest ih =>
    rw [skipLine]
    split
    · exact Nat.lt_succ_self _
    · by_cases last : rest = []
      · rw [last]
        exact Nat.one_pos
      · exact Nat.lt_succ_of_lt (ih last)

theorem nextcol_length {text rest : Bytes} (found : nextcol text = some rest) : rest.length ≤ text.length := by
  induction text with
  | nil => cases found
  | cons byte text ih =>
    rw [nextcol] at found
    split at found
    · cases found
    · split at found
      · cases found
        exact Nat.le_succ _
      · exact Nat.le_succ_of_le (ih found)

theorem colatFrom_length {text rest : Bytes} {col : Nat} (found : colatFrom text col = some rest) :
    rest.length ≤ text.length := by
  induction col generalizing text with
  | zero => exact (Option.some.inj found) ▸ Nat.le_refl _
  | succ col ih =>
    obtain ⟨next, here, later⟩ := Option.bind_eq_some_iff.mp found
    exact le_trans (ih later) (nextcol_length here)

theorem compareKey_length (key text : Bytes) : (compareKey key text).2.length ≤ text.length := by
  induction key, text using compareKey.induct with
  | case1 ik key cur text same ih =>
    rw [compareKey, if_pos same]
    exact Nat.le_succ_of_le ih
  | case2 ik key cur text differ =>
    rw [compareKey, if_neg differ]
  | case3 key text some =>
    rw [compareKey]
    exact some

theorem searchLine_length (listart key : Bytes) (column : Int) :
    (searchLine listart key column).2.length ≤ listart.length := by
  unfold searchLine
  cases found : colat listart column with
  | none => exact Nat.le_refl _
  | some cur => exact le_trans (compareKey_length key cur) (colatFrom_length found)

def searchEntry (listart key : Bytes) (column : Int) : Option Bytes :=
  if listart = [] then none
  else if (searchLine listart key column).1 then some listart
  else searchEntry (skipLine (searchLine listart key column).2) key column
termination_by listart.length
decreasing_by
  next some _ =>
    have left := searchLine_length listart key column
    by_cases last : (searchLine listart key column).2 = []
    · rw [last]
      exact List.length_pos_of_ne_nil some
    · exact lt_of_lt_of_le (skipLine_length last) left

/-- A line starts there, up to an end of line or to the end of the text. -/
def IsLine (text entry : Bytes) : Prop :=
  entry ≠ [] ∧ ∃ before, text = before ++ entry ∧ (before = [] ∨ before.getLast? = some newline)

/-- The field at a column of the line that starts there. -/
def field (entry : Bytes) (column : Int) : Option Bytes :=
  ((entry.takeWhile (· != newline)).splitOn colon)[column.toNat]?

/-- What is after a line that holds no end of line. -/
def Ended (ending : Bytes) : Prop := ending = [] ∨ ∃ rest, ending = newline :: rest

theorem split_line (text : Bytes) : ∃ line ending, text = line ++ ending ∧ newline ∉ line ∧ Ended ending ∧
    text.takeWhile (· != newline) = line := by
  rcases first_line newline text with plain | ⟨line, rest, plain, rfl⟩
  · refine ⟨text, [], (List.append_nil _).symm, plain, Or.inl rfl, List.takeWhile_eq_self_iff.mpr fun byte member => ?_⟩
    rw [bne_iff_ne]
    exact fun same => plain (same ▸ member)
  · exact ⟨line, newline :: rest, rfl, plain, Or.inr ⟨rest, rfl⟩, takeWhile_stop newline line rest plain⟩

theorem nextcol_last {line ending : Bytes} (plain : newline ∉ line) (single : colon ∉ line) (ended : Ended ending) :
    nextcol (line ++ ending) = none := by
  induction line with
  | nil =>
    rcases ended with rfl | ⟨rest, rfl⟩
    · rfl
    · exact if_pos rfl
  | cons byte line ih =>
    obtain ⟨line', plain⟩ := not_or.mp (List.mem_cons.not.mp plain)
    obtain ⟨column', single⟩ := not_or.mp (List.mem_cons.not.mp single)
    rw [List.cons_append, nextcol, if_neg (Ne.symm line'), if_neg (Ne.symm column')]
    exact ih plain single

theorem nextcol_field {first : Bytes} (plain : newline ∉ first) (single : colon ∉ first) (others : Bytes) :
    nextcol (first ++ colon :: others) = some others := by
  induction first with
  | nil =>
    rw [List.nil_append, nextcol, if_neg (by decide), if_pos rfl]
  | cons byte first ih =>
    obtain ⟨line', plain⟩ := not_or.mp (List.mem_cons.not.mp plain)
    obtain ⟨column', single⟩ := not_or.mp (List.mem_cons.not.mp single)
    rw [List.cons_append, nextcol, if_neg (Ne.symm line'), if_neg (Ne.symm column')]
    exact ih plain single

theorem colatFrom_spec {line ending : Bytes} (plain : newline ∉ line) (ended : Ended ending) (col : Nat) :
    ((line.splitOn colon)[col]? = none ∧ colatFrom (line ++ ending) col = none) ∨
    ∃ before text after, line = before ++ (text ++ after) ∧ (line.splitOn colon)[col]? = some text ∧ colon ∉ text ∧
      (after = [] ∨ ∃ rest, after = colon :: rest) ∧
      colatFrom (line ++ ending) col = some (text ++ (after ++ ending)) := by
  induction col generalizing line with
  | zero =>
    refine Or.inr ?_
    rcases first_line colon line with single | ⟨first, others, single, rfl⟩
    · refine ⟨[], line, [], by simp, ?_, single, Or.inl rfl, rfl⟩
      rw [List.splitOn_eq_singleton single]
      rfl
    · refine ⟨[], first, colon :: others, rfl, ?_, single, Or.inr ⟨others, rfl⟩, ?_⟩
      · rw [List.splitOn_append_cons_self_of_not_mem single]
        rfl
      · rw [colatFrom, List.append_assoc]
  | succ col ih =>
    rcases first_line colon line with single | ⟨first, others, single, rfl⟩
    · refine Or.inl ⟨?_, ?_⟩
      · rw [List.splitOn_eq_singleton single]
        rfl
      · rw [colatFrom, nextcol_last plain single ended, Option.bind_none]
    · obtain ⟨plain, later⟩ := not_or.mp (List.mem_append.not.mp plain)
      have split : (first ++ colon :: others).splitOn colon = first :: others.splitOn colon :=
        List.splitOn_append_cons_self_of_not_mem single others
      have next := nextcol_field plain single (others ++ ending)
      rw [← List.cons_append, ← List.append_assoc] at next
      rw [split, List.getElem?_cons_succ, colatFrom, next, Option.bind_some]
      rcases ih fun member => later (List.mem_cons_of_mem _ member) with
        none | ⟨before, text, after, whole, found, rest⟩
      · exact Or.inl none
      · refine Or.inr ⟨first ++ colon :: before, text, after, ?_, found, rest⟩
        rw [whole, List.append_assoc, List.cons_append]

theorem compareKey_nil (text : Bytes) : compareKey [] text = ([], text) := by rw [compareKey]; simp

theorem compareKey_stop {ik : Byte} {key text : Bytes}
    (differ : ∀ cur after, text = cur :: after → cur = newline ∨ ik ≠ cur) :
    compareKey (ik :: key) text = (ik :: key, text) := by
  cases text with
  | nil => rw [compareKey]; simp
  | cons cur after =>
    rw [compareKey, if_neg]
    exact fun same => (differ cur after rfl).elim same.1 fun other => other same.2

theorem compareKey_spec {key text rest : Bytes} (line : newline ∉ key) (single : colon ∉ key) (plain : newline ∉ text)
    (single' : colon ∉ text) (ends : endsField rest = true) :
    (((compareKey key (text ++ rest)).1 = [] ∧ endsField (compareKey key (text ++ rest)).2 = true) ↔ text = key) ∧
      ∃ passed, text ++ rest = passed ++ (compareKey key (text ++ rest)).2 ∧ newline ∉ passed := by
  induction key generalizing text with
  | nil =>
    rw [compareKey_nil]
    refine ⟨?_, [], rfl, List.not_mem_nil⟩
    cases text with
    | nil => exact iff_of_true ⟨rfl, ends⟩ rfl
    | cons cur text =>
      refine iff_of_false (fun both => ?_) (List.cons_ne_nil cur text)
      rcases of_decide_eq_true both.2 with here | here
      · exact plain (here ▸ List.mem_cons_self)
      · exact single' (here ▸ List.mem_cons_self)
  | cons ik key ih =>
    obtain ⟨line', line⟩ := not_or.mp (List.mem_cons.not.mp line)
    obtain ⟨column', single⟩ := not_or.mp (List.mem_cons.not.mp single)
    cases text with
    | nil =>
      rw [List.nil_append, compareKey_stop]
      · exact ⟨iff_of_false (fun both => List.cons_ne_nil ik key both.1) (List.cons_ne_nil ik key).symm, [], rfl,
          List.not_mem_nil⟩
      · rintro cur after rfl
        exact (of_decide_eq_true ends).imp_right fun here same => column' (here.symm.trans same.symm)
    | cons cur text =>
      obtain ⟨here, plain⟩ := not_or.mp (List.mem_cons.not.mp plain)
      obtain ⟨-, single'⟩ := not_or.mp (List.mem_cons.not.mp single')
      by_cases same : ik = cur
      · obtain ⟨full, passed, went, clean⟩ := ih line single plain single'
        rw [List.cons_append, compareKey, if_pos ⟨Ne.symm here, same⟩, full, same]
        refine ⟨by simp, cur :: passed, ?_, ?_⟩
        · rw [List.cons_append, ← went]
        · exact List.mem_cons.not.mpr (not_or.mpr ⟨here, clean⟩)
      · rw [List.cons_append, compareKey_stop]
        · refine ⟨iff_of_false (fun both => List.cons_ne_nil ik key both.1) fun equal => ?_, [], rfl, List.not_mem_nil⟩
          exact same (List.head_eq_of_cons_eq equal).symm
        · intro cur' after equal
          exact Or.inr (List.head_eq_of_cons_eq equal ▸ same)

theorem skipLine_passed {passed : Bytes} (plain : newline ∉ passed) (text : Bytes) :
    skipLine (passed ++ text) = skipLine text := by
  induction passed with
  | nil => rfl
  | cons byte passed ih =>
    obtain ⟨here, plain⟩ := not_or.mp (List.mem_cons.not.mp plain)
    rw [List.cons_append, skipLine, if_neg (Ne.symm here), ih plain]

theorem searchLine_spec {key : Bytes} (line : newline ∉ key) (single : colon ∉ key) (listart : Bytes) (column : Int) :
    ((searchLine listart key column).1 = true ↔ field listart column = some key) ∧
      skipLine (searchLine listart key column).2 = skipLine listart := by
  obtain ⟨text, ending, rfl, plain, ended, same⟩ := split_line listart
  rw [field, same, searchLine, colat]
  rcases colatFrom_spec plain ended column.toNat with
    ⟨none, found⟩ | ⟨before, name, after, rfl, here, single', ends, found⟩
  · rw [none, found]
    simp
  · rw [found, here]
    obtain ⟨plain', rest⟩ := not_or.mp (List.mem_append.not.mp plain)
    obtain ⟨plain'', _⟩ := not_or.mp (List.mem_append.not.mp rest)
    have stops : endsField (after ++ ending) = true := by
      rcases ends with rfl | ⟨others, rfl⟩
      · rcases ended with rfl | ⟨others, rfl⟩
        · rfl
        · simp [endsField]
      · simp [endsField]
    obtain ⟨full, passed, went, clean⟩ := compareKey_spec line single plain'' single' stops
    constructor
    · rw [Bool.and_eq_true, decide_eq_true_iff, full, Option.some.injEq]
    · change skipLine (compareKey key (name ++ (after ++ ending))).2 = _
      conv_rhs => rw [List.append_assoc, List.append_assoc, skipLine_passed plain', went, skipLine_passed clean]

theorem skipLine_ended {line : Bytes} (plain : newline ∉ line) (rest : Bytes) :
    skipLine (line ++ newline :: rest) = rest := by
  rw [skipLine_passed plain, skipLine, if_pos rfl]

theorem skipLine_last {line : Bytes} (plain : newline ∉ line) : skipLine line = [] := by
  have whole := skipLine_passed plain []
  rw [List.append_nil] at whole
  exact whole

theorem isLine_iff (text entry : Bytes) :
    IsLine text entry ↔ (entry ≠ [] ∧ entry = text) ∨ IsLine (skipLine text) entry := by
  constructor
  · rintro ⟨some, before, whole, rfl | ends⟩
    · exact Or.inl ⟨some, whole.symm⟩
    · obtain ⟨front, rfl⟩ := List.getLast?_eq_some_iff.mp ends
      refine Or.inr ⟨some, ?_⟩
      rw [List.append_assoc, List.singleton_append] at whole
      rcases first_line newline text with plain | ⟨line, rest, plain, rfl⟩
      · exact absurd (whole ▸ List.mem_append_right front List.mem_cons_self) plain
      · rw [skipLine_ended plain]
        rcases List.append_eq_append_iff.mp whole with ⟨more, rfl, same⟩ | ⟨more, rfl, same⟩
        · cases more with
          | nil => exact ⟨[], (List.cons.inj same).2, Or.inl rfl⟩
          | cons first more =>
            refine ⟨more ++ [newline], ?_, Or.inr List.getLast?_concat⟩
            rw [List.append_assoc, List.singleton_append]
            exact (List.cons.inj same).2
        · cases more with
          | nil => exact ⟨[], (List.cons.inj same).2.symm, Or.inl rfl⟩
          | cons first more =>
            refine absurd (List.mem_append_right front ?_) plain
            exact (List.cons.inj same).1 ▸ List.mem_cons_self
  · rintro (⟨some, rfl⟩ | ⟨some, before, whole, starts⟩)
    · exact ⟨some, [], rfl, Or.inl rfl⟩
    · rcases first_line newline text with plain | ⟨line, rest, plain, rfl⟩
      · rw [skipLine_last plain] at whole
        exact absurd (List.append_eq_nil_iff.mp whole.symm).2 some
      · rw [skipLine_ended plain] at whole
        refine ⟨some, line ++ newline :: before, ?_, Or.inr ?_⟩
        · rw [whole, List.append_assoc, List.cons_append]
        · rcases starts with rfl | ends
          · exact List.getLast?_concat
          · rw [List.getLast?_append, List.getLast?_cons, ends]
            rfl

theorem IsLine.length_le {text entry : Bytes} (line : IsLine text entry) : entry.length ≤ text.length := by
  obtain ⟨-, before, rfl, -⟩ := line
  rw [List.length_append]
  exact Nat.le_add_left _ _

/-- The search gives the first line that has the key at the column, if there is one. -/
theorem searchEntry_first (text : Bytes) {key : Bytes} (line : newline ∉ key) (single : colon ∉ key) (column : Int) :
    (∀ entry, searchEntry text key column = some entry → IsLine text entry ∧ field entry column = some key ∧
      ∀ other, IsLine text other → field other column = some key → other.length ≤ entry.length) ∧
    (searchEntry text key column = none → ∀ other, IsLine text other → field other column ≠ some key) := by
  induction size : text.length using Nat.strong_induction_on generalizing text with
  | _ size' ih =>
    subst size
    obtain ⟨found, next⟩ := searchLine_spec line single text column
    by_cases last : text = []
    · rw [searchEntry, if_pos last]
      refine ⟨fun _ none => absurd none nofun, fun _ other line => ?_⟩
      have none := line.length_le
      rw [last] at none
      exact absurd (List.length_eq_zero_iff.mp (Nat.le_zero.mp none)) line.1
    · have shorter := skipLine_length last
      obtain ⟨first, none⟩ := ih _ shorter (skipLine text) rfl
      rw [searchEntry, if_neg last, next]
      by_cases here : field text column = some key
      · rw [if_pos (found.mpr here)]
        refine ⟨?_, fun none => absurd none nofun⟩
        rintro entry same
        cases same
        exact ⟨(isLine_iff text text).mpr (Or.inl ⟨last, rfl⟩), here, fun other line _ => line.length_le⟩
      · rw [if_neg fun yes => here (found.mp yes)]
        constructor
        · intro entry later
          obtain ⟨line, same, least⟩ := first entry later
          refine ⟨(isLine_iff text entry).mpr (Or.inr line), same, fun other line' same' => ?_⟩
          rcases (isLine_iff text other).mp line' with ⟨-, rfl⟩ | after
          · exact absurd same' here
          · exact least other after same'
        · intro none' other line' same'
          rcases (isLine_iff text other).mp line' with ⟨-, rfl⟩ | after
          · exact here same'
          · exact none none' other after same'

/-- A line starts with the name of a longer one, and the last line is not ended. -/
theorem searchEntry_first_last : ∃ entry, searchEntry (ascii "afmx:x:7\n\nbad\nafm:x:8") (ascii "afm") 0 = some entry ∧
    IsLine (ascii "afmx:x:7\n\nbad\nafm:x:8") entry ∧ field entry 0 = some (ascii "afm") := by
  obtain ⟨first, none⟩ := searchEntry_first (ascii "afmx:x:7\n\nbad\nafm:x:8")
    (by decide : newline ∉ ascii "afm") (by decide) 0
  cases found : searchEntry (ascii "afmx:x:7\n\nbad\nafm:x:8") (ascii "afm") 0 with
  | some entry =>
    obtain ⟨line, same, -⟩ := first entry found
    exact ⟨entry, rfl, line, same⟩
  | none =>
    have line : IsLine (ascii "afmx:x:7\n\nbad\nafm:x:8") (ascii "afm:x:8") :=
      ⟨by decide, ascii "afmx:x:7\n\nbad\n", by decide, Or.inr (by decide)⟩
    exact absurd (by decide +kernel) (none found (ascii "afm:x:8") line)

end AppManager.Setup
