import AppManager.Lib.Decimal
import AppManager.Lib.Walk
import AppManager.Units.ManageAfid
import AppManager.Units.NormalizeInPlace

/-! The scan of a unit file for its identifiers. A search that goes on in the middle of a line
misses none of them, whatever stands before and after the line that says it. -/

namespace AppManager.Units
open AppManager.Lib AppManager.Lib.Libc Relation

/-- The line of a unit file that says the identifier, from its value on. -/
def afidLine (private' : Bool) (value : Bytes) : Bytes :=
  keyAfmPrefix ++ (if private' then [dash] else []) ++ keyAfid ++ equalSign :: value

def afidKey (private' : Bool) (gap value : Bytes) : Bytes :=
  keyAfmPrefix ++ (if private' then [dash] else []) ++ keyAfid ++ (gap ++ equalSign :: value)

theorem afidKey_line (private' : Bool) (value : Bytes) : afidKey private' [] value = afidLine private' value := rfl

/-- What stands before a line in the normalized text: nothing, or an end of line, or the blank of a continuation. -/
def Bordered (before : Bytes) : Prop := before = [] ∨ ∃ stop, before.getLast? = some stop ∧ (stop = newline ∨ stop = 32)

/-- Where the search goes on once the key and its optional dash are read. -/
def afterKey (found : Bytes) : Bytes :=
  let iter := found.drop keyAfmPrefix.length
  if iter.head? = some dash then iter.tail else iter

/-- One turn of the loop of `get_afid_cb`: the place where the search goes on, and the array. -/
def scanTurn : Bytes × AfidsArray → Option (Bytes × AfidsArray)
  | (text, array) => (strstr keyAfmPrefix text).map fun found =>
    if keyAfid <+: afterKey found then
      let iter := afidValue ((afterKey found).drop keyAfid.length)
      if iter.head? = some equalSign then
        (iter.tail.dropWhile (· == 32), mark array (atoi (iter.tail.dropWhile (· == 32))))
      else (iter, array)
    else (afterKey found, array)

/-- `get_afid_cb` on the memory of the content, which is normalized where it is. -/
def getAfidInPlace (content : Bytes) (array : AfidsArray) : Option (Int × AfidsArray) :=
  (normalizeUnitFileCmtchrs content (some (ascii ";#"))).map fun (_, cells) =>
    (0, (afidsOf (cstr cells)).foldl mark array)

theorem afidsFrom_succ (fuel : Nat) (text : Bytes) :
    afidsFrom (fuel + 1) text =
      match strstr keyAfmPrefix text with
      | none => []
      | some found =>
        if keyAfid <+: afterKey found then
          let iter := afidValue ((afterKey found).drop keyAfid.length)
          if iter.head? = some equalSign then
            atoi (iter.tail.dropWhile (· == 32)) :: afidsFrom fuel (iter.tail.dropWhile (· == 32))
          else afidsFrom fuel iter
        else afidsFrom fuel (afterKey found) := rfl

theorem afterKey_length {found : Bytes} (starts : keyAfmPrefix <+: found) : (afterKey found).length < found.length := by
  have size := starts.length_le
  have positive : 0 < keyAfmPrefix.length := by decide
  rw [afterKey]
  split
  · rw [List.length_tail, List.length_drop]
    omega
  · rw [List.length_drop]
    omega

theorem scanTurn_shorter (state next : Bytes × AfidsArray) (turn : scanTurn state = some next) :
    next.1.length < state.1.length := by
  obtain ⟨text, array⟩ := state
  obtain ⟨found, searched, same⟩ := Option.map_eq_some_iff.mp turn
  have shorter := (afterKey_length (strstr_some _ _ _ searched).1).trans_le (strstr_length _ _ _ searched)
  have value : (afidValue ((afterKey found).drop keyAfid.length)).length ≤ (afterKey found).length :=
    (List.dropWhile_sublist _).length_le.trans (List.drop_sublist _ _).length_le
  rw [← same]
  split
  · simp only
    split
    · refine lt_of_le_of_lt ?_ shorter
      refine (List.dropWhile_sublist _).length_le.trans (le_trans ?_ value)
      rw [List.length_tail]
      exact Nat.sub_le _ _
    · exact value.trans_lt shorter
  · exact shorter

theorem scanTurn_halts (state : Bytes × AfidsArray) : Walk.Halts scanTurn state :=
  Walk.halts_of_measure (fun state => state.1.length) scanTurn_shorter state

theorem scanTurn_run (fuel : Nat) (text : Bytes) (array : AfidsArray) (enough : text.length < fuel) :
    ∃ rest, ReflTransGen (Walk.Step scanTurn) (text, array) (rest, (afidsFrom fuel text).foldl mark array) ∧
      scanTurn (rest, (afidsFrom fuel text).foldl mark array) = none := by
  induction fuel generalizing text array with
  | zero => exact absurd enough (Nat.not_lt_zero _)
  | succ fuel ih =>
    rw [afidsFrom_succ]
    cases searched : strstr keyAfmPrefix text with
    | none =>
      refine ⟨text, ReflTransGen.refl, ?_⟩
      simp only [scanTurn, searched]
      rfl
    | some found =>
      -- The turn is the one of the list, and the rest of the loop is that of the rest of the list.
      have goOn (text' : Bytes) (array' : AfidsArray) (turn : scanTurn (text, array) = some (text', array')) :
          ∃ rest, ReflTransGen (Walk.Step scanTurn) (text, array) (rest, (afidsFrom fuel text').foldl mark array') ∧
            scanTurn (rest, (afidsFrom fuel text').foldl mark array') = none := by
        have shorter : text'.length < text.length := scanTurn_shorter _ _ turn
        obtain ⟨rest, reach, stops⟩ := ih text' array' (by omega)
        exact ⟨rest, ReflTransGen.head turn reach, stops⟩
      by_cases key : keyAfid <+: afterKey found
      · by_cases sign : (afidValue ((afterKey found).drop keyAfid.length)).head? = some equalSign
        · simp only [if_pos key, if_pos sign, List.foldl_cons]
          apply goOn
          rw [scanTurn, searched, Option.map_some, if_pos key, if_pos sign]
        · simp only [if_pos key, if_neg sign]
          apply goOn
          rw [scanTurn, searched, Option.map_some, if_pos key, if_neg sign]
      · simp only [if_neg key]
        apply goOn
        rw [scanTurn, searched, Option.map_some, if_neg key]

theorem prefix_before {stop : Byte} (key body rest : Bytes) (plain : stop ∉ key)
    (starts : key <+: body ++ stop :: rest) :
    ∃ body', (body ++ stop :: rest).drop key.length = body' ++ stop :: rest ∧
      body.length = key.length + body'.length := by
  induction key generalizing body with
  | nil => exact ⟨body, rfl, by simp⟩
  | cons byte key ih =>
    rw [List.mem_cons, not_or] at plain
    cases body with
    | nil =>
      rw [List.nil_append, List.cons_prefix_cons] at starts
      exact absurd starts.1.symm plain.1
    | cons head body =>
      rw [List.cons_append, List.cons_prefix_cons] at starts
      obtain ⟨body', same, size⟩ := ih body plain.2 starts.2
      exact ⟨body', same, by rw [List.length_cons, List.length_cons, size]; omega⟩

theorem tail_before {stop byte : Byte} (body rest : Bytes) (other : byte ≠ stop)
    (head : (body ++ stop :: rest).head? = some byte) :
    ∃ body', (body ++ stop :: rest).tail = body' ++ stop :: rest ∧ body'.length ≤ body.length := by
  cases body with
  | nil => exact absurd (Option.some.inj head).symm other
  | cons first body => exact ⟨body, rfl, by simp⟩

theorem drop_before (drops : Byte → Bool) (stop : Byte) (body rest : Bytes) :
    (∃ body', (body ++ stop :: rest).dropWhile drops = body' ++ stop :: rest ∧ body'.length ≤ body.length) ∨
      (drops stop = true ∧ (body ++ stop :: rest).dropWhile drops = rest.dropWhile drops) := by
  rw [List.dropWhile_append]
  cases left : body.dropWhile drops with
  | nil =>
    by_cases dropped : drops stop = true
    · refine Or.inr ⟨dropped, ?_⟩
      rw [List.isEmpty_nil, if_pos rfl, List.dropWhile_cons_of_pos dropped]
    · refine Or.inl ⟨[], ?_, Nat.zero_le _⟩
      rw [List.isEmpty_nil, if_pos rfl, List.dropWhile_cons_of_neg dropped]
      rfl
  | cons byte others =>
    refine Or.inl ⟨byte :: others, rfl, ?_⟩
    rw [← left]
    exact (List.dropWhile_sublist _).length_le

theorem afterKey_key (private' : Bool) (gap value : Bytes) :
    afterKey (afidKey private' gap value) = keyAfid ++ (gap ++ equalSign :: value) := by
  cases private' with
  | false => rfl
  | true => rfl

theorem afterKey_before {stop : Byte} (body rest : Bytes) (plain : stop ∉ keyAfmPrefix) (other : dash ≠ stop)
    (starts : keyAfmPrefix <+: body ++ stop :: rest) :
    ∃ body', afterKey (body ++ stop :: rest) = body' ++ stop :: rest ∧ body'.length < body.length := by
  obtain ⟨kept, same, size⟩ := prefix_before keyAfmPrefix body rest plain starts
  have positive : 0 < keyAfmPrefix.length := by decide
  rw [afterKey, same]
  split
  · next head =>
    obtain ⟨body', tail, shorter⟩ := tail_before kept rest other head
    exact ⟨body', tail, by omega⟩
  · exact ⟨kept, rfl, by omega⟩

theorem afidValue_plain {text : Bytes} (sign : equalSign ∉ text) (line : newline ∉ text) (value : Bytes) :
    afidValue (text ++ equalSign :: value) = equalSign :: value := by
  have skipped : ∀ byte ∈ text, (byte != equalSign && byte != newline) = true := by
    intro byte member
    rw [Bool.and_eq_true, bne_iff_ne, bne_iff_ne]
    exact ⟨fun same => sign (same ▸ member), fun same => line (same ▸ member)⟩
  rw [afidValue, List.dropWhile_append_of_pos skipped]
  rfl

theorem afidValue_key (private' : Bool) {gap : Bytes} (value : Bytes) (sign : equalSign ∉ gap) (line : newline ∉ gap) :
    afidValue (afidKey private' gap value) = equalSign :: value := by
  have key : equalSign ∉ keyAfmPrefix ++ (if private' then [dash] else []) ++ keyAfid ++ gap := by
    cases private' <;> simp [sign] <;> decide
  have key' : newline ∉ keyAfmPrefix ++ (if private' then [dash] else []) ++ keyAfid ++ gap := by
    cases private' <;> simp [line] <;> decide
  rw [afidKey, ← List.append_assoc _ gap]
  exact afidValue_plain key key' value

/-- Another key before a key does not hide it: the search goes on before the key or at it, or the
other key has no equal sign and takes that of the key. -/
theorem afidsFrom_earlier {fuel : Nat} {text body gap value : Bytes} {stop : Byte} (private' : Bool)
    (sign : equalSign ∉ gap) (line : newline ∉ gap) (blank : stop = newline ∨ stop = 32)
    (found : strstr keyAfmPrefix text = some (body ++ stop :: afidKey private' gap value))
    (later : ∀ body' : Bytes, body'.length < body.length →
      atoi (value.dropWhile (· == 32)) ∈ afidsFrom fuel (body' ++ stop :: afidKey private' gap value))
    (here : atoi (value.dropWhile (· == 32)) ∈ afidsFrom fuel (afidKey private' gap value)) :
    atoi (value.dropWhile (· == 32)) ∈ afidsFrom (fuel + 1) text := by
  have plain : stop ∉ keyAfmPrefix ∧ dash ≠ stop ∧ stop ∉ keyAfid ∧ equalSign ≠ stop := by
    rcases blank with rfl | rfl <;> decide
  have begins := (strstr_some _ _ _ found).1
  rw [afidsFrom_succ, found]
  simp only
  obtain ⟨body₁, same₁, shorter₁⟩ := afterKey_before body _ plain.1 plain.2.1 begins
  rw [same₁]
  by_cases key : keyAfid <+: body₁ ++ stop :: afidKey private' gap value
  · obtain ⟨body₂, same₂, size₂⟩ := prefix_before keyAfid body₁ _ plain.2.2.1 key
    rw [if_pos key, same₂]
    rcases drop_before (fun byte => byte != equalSign && byte != newline) stop body₂ (afidKey private' gap value)
      with ⟨body₃, same₃, shorter₃⟩ | ⟨-, same₃⟩
    · rw [afidValue, same₃]
      by_cases equal : (body₃ ++ stop :: afidKey private' gap value).head? = some equalSign
      · obtain ⟨body₄, same₄, shorter₄⟩ := tail_before body₃ _ plain.2.2.2 equal
        rw [if_pos equal, same₄]
        apply List.mem_cons_of_mem
        rcases drop_before (· == 32) stop body₄ (afidKey private' gap value) with ⟨body₅, same₅, shorter₅⟩ | ⟨-, same₅⟩
        · rw [same₅]
          exact later body₅ (by omega)
        · rw [same₅]
          exact here
      · rw [if_neg equal]
        exact later body₃ (by omega)
    · rw [afidValue, same₃, ← afidValue, afidValue_key private' value sign line, if_pos (by rfl)]
      exact List.mem_cons_self
  · rw [if_neg key]
    exact later body₁ shorter₁

/-- The identifier of a key is found, whatever stands before it, even where a key before it has no value. -/
theorem afidsFrom_key (fuel : Nat) (before : Bytes) (private' : Bool) {gap : Bytes} (value : Bytes)
    (sign : equalSign ∉ gap) (line : newline ∉ gap) (apart : Bordered before)
    (enough : (before ++ afidKey private' gap value).length < fuel) :
    atoi (value.dropWhile (· == 32)) ∈ afidsFrom fuel (before ++ afidKey private' gap value) := by
  induction fuel generalizing before with
  | zero => omega
  | succ fuel ih =>
    have starts : keyAfmPrefix <+: afidKey private' gap value := by
      rw [afidKey, List.append_assoc, List.append_assoc]
      exact List.prefix_append ..
    obtain ⟨first, second, split, found⟩ := strstr_at keyAfmPrefix before _ (by decide) starts
    rcases List.eq_nil_or_concat second with none | ⟨body, stop, some⟩
    · rw [afidsFrom_succ, found]
      simp only
      rw [none, List.nil_append, afterKey_key, if_pos (List.prefix_append ..), List.drop_left,
        afidValue_plain sign line, if_pos (by rfl)]
      exact List.mem_cons_self
    rw [List.concat_eq_append] at some
    have blank : stop = newline ∨ stop = 32 := by
      rcases apart with empty | ⟨stop', last, blank⟩
      · rw [empty, some] at split
        simp at split
      · rw [split, some, ← List.append_assoc, List.getLast?_concat] at last
        exact Option.some.inj last ▸ blank
    have size : body.length < before.length := by
      rw [split, some]
      simp only [List.length_append, List.length_singleton]
      omega
    rw [some, List.append_assoc, List.singleton_append] at found
    apply afidsFrom_earlier private' sign line blank found
    · intro body' shorter
      have again := ih (body' ++ [stop]) (Or.inr ⟨stop, List.getLast?_concat, blank⟩) (by
        simp only [List.length_append, List.length_singleton] at enough ⊢
        omega)
      rwa [List.append_assoc, List.singleton_append] at again
    · apply ih [] (Or.inl rfl)
      simp only [List.length_append, List.length_nil] at enough ⊢
      omega

/-- A line that says an identifier. -/
inductive SaysAfid : Bytes → Nat → Prop
  | line (blanks gap spaces digits tail : Bytes) (private' : Bool) (leading : ∀ byte ∈ blanks, isblank byte = true)
    (before : ∀ byte ∈ gap, isblank byte = true) (after : ∀ byte ∈ spaces, isblank byte = true) (some : digits ≠ [])
    (number : ∀ byte ∈ digits, isDigit byte = true) (ended : ∀ byte ∈ tail.head?, isblank byte = true) :
    SaysAfid (blanks ++ afidKey private' gap (spaces ++ (digits ++ tail))) (decimal digits)

theorem Bordered.append {first second : Bytes} (one : Bordered first) (other : Bordered second) :
    Bordered (first ++ second) := by
  rcases other with rfl | ⟨stop, last, blank⟩
  · rwa [List.append_nil]
  · refine Or.inr ⟨stop, ?_, blank⟩
    rw [List.getLast?_append, last]
    rfl

theorem normalizeLine_bordered (line : Bytes) : Bordered (normalizeLine (ascii ";#") [newline] line) := by
  unfold normalizeLine
  cases line.dropWhile isblank with
  | nil => exact Or.inl rfl
  | cons c rest =>
    by_cases comment : c ∈ ascii ";#"
    · exact Or.inl (if_pos comment)
    · simp only [if_neg comment, endLine]
      split
      · exact Or.inr ⟨32, List.getLast?_concat, Or.inr rfl⟩
      · exact Or.inr ⟨newline, List.getLast?_concat, Or.inl rfl⟩

theorem normalizeUnitFile_lines (before : Bytes) (ends : before = [] ∨ before.getLast? = some newline) :
    ∃ front, Bordered front ∧ ∀ rest, normalizeUnitFile (before ++ rest) = front ++ normalizeUnitFile rest := by
  induction before using lines_induction newline with
  | unfinished text plain =>
    rcases ends with rfl | last
    · exact ⟨[], Or.inl rfl, fun rest => rfl⟩
    · exact absurd (List.mem_of_getLast? last) plain
  | line line rest plain ih =>
    have ends' : rest = [] ∨ rest.getLast? = some newline := by
      cases rest with
      | nil => exact Or.inl rfl
      | cons byte rest =>
        rcases ends with empty | last
        · simp at empty
        · rw [List.getLast?_append, List.getLast?_cons_cons] at last
          exact Or.inr (by simpa using last)
    obtain ⟨front, apart, same⟩ := ih ends'
    refine ⟨normalizeLine (ascii ";#") [newline] line ++ front, (normalizeLine_bordered line).append apart,
      fun more => ?_⟩
    rw [List.append_assoc, List.cons_append, normalizeUnitFile, (normalizeFrom_line (ascii ";#") plain).2,
      ← normalizeUnitFile, same, List.append_assoc]

theorem isDigit_blank {byte : Byte} (blank : isblank byte = true) : isDigit byte = false ∧ byte ≠ backslash := by
  rcases Bool.or_eq_true_iff.mp blank with same | same <;> rw [eq_of_beq same] <;> decide

theorem endLine_number (front digits tail : Bytes) (some : digits ≠ []) (number : ∀ byte ∈ digits, isDigit byte = true)
    (ended : ∀ byte ∈ tail.head?, isblank byte = true) : ∃ stop more, isDigit stop = false ∧
      endLine [newline] (front ++ (digits ++ tail)) = front ++ (digits ++ stop :: more) := by
  have kept (notLast : (front ++ (digits ++ tail)).getLast? ≠ .some backslash) :
      endLine [newline] (front ++ (digits ++ tail)) = front ++ (digits ++ (tail ++ [newline])) := by
    rw [endLine, if_neg notLast, List.append_assoc, List.append_assoc]
  cases tail with
  | nil =>
    refine ⟨newline, [], by decide, kept fun last => ?_⟩
    rw [List.append_nil, List.getLast?_append_of_ne_nil _ some] at last
    have digit := number backslash (List.mem_of_getLast? last)
    revert digit
    decide
  | cons stop rest =>
    obtain ⟨other, plain⟩ := isDigit_blank (ended stop rfl)
    have split : front ++ (digits ++ stop :: rest) = front ++ digits ++ [stop] ++ rest := by simp
    by_cases last : (front ++ (digits ++ stop :: rest)).getLast? = .some backslash
    · cases rest with
      | nil =>
        rw [split, List.append_nil, List.getLast?_concat, Option.some.injEq] at last
        exact absurd last plain
      | cons next rest =>
        refine ⟨stop, (next :: rest).dropLast ++ [32], other, ?_⟩
        rw [endLine, if_pos last, split, List.dropLast_append_of_ne_nil (List.cons_ne_nil next rest)]
        simp
    · exact ⟨stop, rest ++ [newline], other, kept last⟩

theorem atoi_number {spaces digits : Bytes} {stop : Byte} (more : Bytes)
    (blank : ∀ byte ∈ spaces, isblank byte = true) (some : digits ≠ []) (number : ∀ byte ∈ digits, isDigit byte = true)
    (other : isDigit stop = false) (valid : decimal digits ≤ AFID_MAX) :
    atoi ((spaces ++ (digits ++ stop :: more)).dropWhile (· == 32)) = decimal digits := by
  obtain ⟨left, blank', same⟩ : ∃ left : Bytes, (∀ byte ∈ left, isSpace byte = true) ∧
      (spaces ++ (digits ++ stop :: more)).dropWhile (· == 32) = left ++ (digits ++ stop :: more) := by
    induction spaces with
    | nil =>
      obtain ⟨first, others, same⟩ := List.exists_cons_of_ne_nil some
      obtain ⟨space, -⟩ := digit_kinds (number first (by rw [same]; exact List.mem_cons_self))
      have kept : ¬(first == 32) = true := by
        intro blank
        rw [eq_of_beq blank] at space
        cases space
      refine ⟨[], by simp, ?_⟩
      simp only [List.nil_append, same, List.cons_append, List.dropWhile_cons, if_neg kept]
    | cons space spaces ih =>
      by_cases dropped : (space == 32) = true
      · simp only [List.cons_append, List.dropWhile_cons, if_pos dropped]
        exact ih fun byte member => blank byte (List.mem_cons_of_mem _ member)
      · refine ⟨space :: spaces, fun byte member => ?_, ?_⟩
        · rcases Bool.or_eq_true_iff.mp (blank byte member) with here | here <;> rw [eq_of_beq here] <;> rfl
        · simp only [List.cons_append, List.dropWhile_cons, if_neg dropped]
  have small : decimal digits < 2 ^ 31 := lt_of_le_of_lt valid (by decide)
  have read : strtol (left ++ (digits ++ stop :: more)) = ⟨decimal digits, stop :: more, false⟩ :=
    strtol_number blank' some number (by simpa using other) (by unfold LONG_MAX; omega)
  rw [same, atoi, read]
  simp only
  omega

theorem normalizeUnitFile_key {before line after : Bytes} {afid : Nat}
    (ends : before = [] ∨ before.getLast? = some newline)
    (said : SaysAfid line afid) (plain : newline ∉ line) (valid : AFID_IS_VALID afid) :
    ∃ front private' gap value, normalizeUnitFile (before ++ (line ++ newline :: after)) =
        front ++ afidKey private' gap value ∧ Bordered front ∧ equalSign ∉ gap ∧ newline ∉ gap ∧
      atoi (value.dropWhile (· == 32)) = afid := by
  obtain ⟨front, apart, same⟩ := normalizeUnitFile_lines before ends
  cases said with
  | line blanks gap spaces digits tail private' leading between later some number ended =>
    have starts : (blanks ++ afidKey private' gap (spaces ++ (digits ++ tail))).dropWhile isblank =
        afidKey private' gap (spaces ++ (digits ++ tail)) := by
      rw [List.dropWhile_append_of_pos leading]
      rfl
    have written : normalizeLine (ascii ";#") [newline] (blanks ++ afidKey private' gap (spaces ++ (digits ++ tail))) =
        endLine [newline] (afidKey private' gap (spaces ++ (digits ++ tail))) := by
      rw [normalizeLine, starts]
      exact if_neg (by decide)
    have split (value : Bytes) : afidKey private' gap (spaces ++ value) = afidKey private' gap spaces ++ value := by
      simp [afidKey]
    obtain ⟨stop, more, other, kept⟩ := endLine_number (afidKey private' gap spaces) digits tail some number ended
    refine ⟨front, private', gap, spaces ++ (digits ++ stop :: (more ++ normalizeUnitFile after)), ?_, apart,
      ?_, ?_, ?_⟩
    · rw [same, normalizeUnitFile, (normalizeFrom_line (ascii ";#") plain).2, ← normalizeUnitFile, written, split, kept,
        split]
      simp
    · intro inside
      exact absurd (between equalSign inside) (by decide)
    · intro inside
      exact absurd (between newline inside) (by decide)
    · exact atoi_number _ later some number other (by exact_mod_cast valid.2)

/-- The scan of a file ends, and each identifier that a line says is marked, whatever the other lines are. -/
theorem getAfidCb_complete {before line after : Bytes} {afid : Nat} (array : AfidsArray)
    (text : (0 : Byte) ∉ before ++ (line ++ newline :: after))
    (closed : (before ++ (line ++ newline :: after)).getLast? = some newline)
    (ends : before = [] ∨ before.getLast? = some newline) (plain : newline ∉ line) (said : SaysAfid line afid)
    (valid : AFID_IS_VALID afid) :
    ∃ array', getAfidInPlace (before ++ (line ++ newline :: after)) array = some (0, array') ∧
      getAfidCb (.ok (before ++ (line ++ newline :: after))) array = (0, array') ∧
      Walk.Halts scanTurn (normalizeUnitFile (before ++ (line ++ newline :: after)), array) ∧
      (∃ rest, ReflTransGen (Walk.Step scanTurn) (normalizeUnitFile (before ++ (line ++ newline :: after)), array)
        (rest, array')) ∧
      afidTest array' afid = true := by
  generalize whole : before ++ (line ++ newline :: after) = content at text closed ⊢
  have unended_nil : unended newline content = [] := by
    obtain ⟨front, rfl⟩ := List.getLast?_eq_some_iff.mp closed
    rw [unended, List.splitOn_append_cons_self]
    simp
  have closedEnd : ClosedEnd (ascii ";#") content := by
    refine Or.inl ?_
    rw [unended_nil]
    rfl
  obtain ⟨rest, run⟩ := normalizeUnitFileCmtchrs_closed text (some (ascii ";#")) closedEnd
  have read : cstr (normalizeUnitFile content ++ 0 :: rest) = normalizeUnitFile content :=
    cstr_terminated (normalizeFrom_clean _ .begin text) rest
  obtain ⟨stop, reach, -⟩ := scanTurn_run _ (normalizeUnitFile content) array (Nat.lt_succ_self _)
  refine ⟨(afidsOf (normalizeUnitFile content)).foldl mark array, ?_, ?_, scanTurn_halts _, ⟨stop, reach⟩, ?_⟩
  · rw [getAfidInPlace, run, Option.map_some]
    exact congrArg (fun cells => some (0, (afidsOf cells).foldl mark array)) read
  · rw [getAfidCb, cstr_of_no_nul content text]
  · obtain ⟨front, private', gap, value, same, apart, sign, line', number⟩ :=
      normalizeUnitFile_key ends said plain valid
    have found := afidsFrom_key _ front private' value sign line' apart (Nat.lt_succ_self _)
    rw [whole] at same
    rw [marks_test _ _ afid valid, Bool.or_eq_true, decide_eq_true_iff]
    rw [number, ← same] at found
    exact Or.inl found

/-- A line after a blank one that follows a continued one, whose key has no value. -/
def afterContinued : Bytes :=
  ascii "X-AFM-ID \\\n\n" ++ ((ascii " \t" ++ afidKey true (ascii " ") (ascii " " ++ (ascii "7" ++ ascii " \\"))) ++
    newline :: ascii "A=1\n")

theorem getAfidCb_complete_continued :
    ∃ array', getAfidInPlace afterContinued (fun _ => 0) = some (0, array') ∧
      getAfidCb (.ok afterContinued) (fun _ => 0) = (0, array') ∧
      Walk.Halts scanTurn (normalizeUnitFile afterContinued, fun _ => 0) ∧
      (∃ rest, ReflTransGen (Walk.Step scanTurn) (normalizeUnitFile afterContinued, fun _ => 0) (rest, array')) ∧
      afidTest array' (decimal (ascii "7")) = true := by
  apply getAfidCb_complete (fun _ => 0)
  · decide
  · decide
  · decide
  · decide
  · exact SaysAfid.line _ _ _ _ _ _ (by decide +kernel) (by decide +kernel) (by decide +kernel)
      (by decide +kernel) (by decide +kernel) (by decide +kernel)
  · decide

end AppManager.Units
