import AppManager.Binding.UnitLines

/-! The data of an application through the unit files: a value of the manifest that is
printed in a field, and what the binding records for that field. -/

namespace AppManager.Binding
open AppManager.Lib AppManager.Lib.Libc AppManager.Units

def keyOf (name : Bytes) : Bytes := if name.head? = some dash then name.tail else name

/-- A name that a template can give to a field. -/
structure FieldName (name : Bytes) : Prop where
  terminated : (0 : Byte) ∉ name
  single : newline ∉ name
  clean : carriage ∉ name
  ends : equalSign ∉ name

def stripped (line : Bytes) : Bytes := line.filter (· != carriage)

/-- A complete line of a unit file that is not for the field of that name. -/
structure Ordinary (name line : Bytes) : Prop where
  terminated : (0 : Byte) ∉ line
  complete : Complete (stripped line)
  plain : keptLine (stripped line) → Plain (stripped line)
  other : ∀ field, lineField (stripped line) = some field → keyOf field.name ≠ keyOf name

def unitFile (before : List Bytes) (name value : Bytes) (after : List Bytes) : Bytes :=
  unitText before ++ (keyAfmPrefix ++ name ++ equalSign :: print value true) ++ newline :: unitText after

theorem print_clean (text : Bytes) (clean : carriage ∉ text) : carriage ∉ text.flatMap printByte := by
  intro inside
  rcases (mem_print _ text inside).2 with own | escape | letter
  · exact clean own
  · exact absurd escape (by decide)
  · exact absurd letter (by decide)

section
variable (head : Bytes) (value : Bytes) (lines : List Bytes)

theorem cropFrom_value (opened : ∃ byte rest, head = byte :: rest ∧ startsComment byte = false)
    (ended : Complete head) (complete : ∀ line ∈ lines, Complete line ∧ (0 : Byte) ∉ line) :
    ∃ more later written, newline ∉ more ∧ carriage ∉ more ∧ (0 : Byte) ∉ more ∧ later ⊆ lines ∧
      Complete (head ++ written) ∧ (decodeValue written).1 = readValue value more ∧
      cropFrom .begin (head ++ ((cstr value).filter (· != carriage)).flatMap printByte ++ newline :: unitText lines) =
        head ++ written ++ newline :: unitText (later.filter keptLine) := by
  obtain ⟨first, tail, same, normal⟩ := opened
  have started (rest : Bytes) : cropFrom .begin (head ++ rest) = cropFrom .line (head ++ rest) := by
    have single := ended.single
    have clean := ended.clean
    rw [same, List.mem_cons, not_or] at single clean
    rw [same, List.cons_append]
    exact cropFrom_begin_cons first _ (Ne.symm clean.1) (Ne.symm single.1) normal
  have kept (text : Bytes) (part : text ⊆ (cstr value).filter (· != carriage)) : carriage ∉ text :=
    fun inside => absurd (List.of_mem_filter (part inside)) (by decide)
  by_cases ends : ((cstr value).filter (· != carriage)).getLast? = some backslash
  · obtain ⟨front, split⟩ := List.getLast?_eq_some_iff.mp ends
    have own := kept front (by rw [split]; exact List.subset_append_left _ _)
    have joined : Complete (front.flatMap printByte ++ [32]) := by
      refine ⟨?_, ?_, by simp [backslash]⟩
      · simp only [List.mem_append, not_or]
        exact ⟨print_single front, by decide⟩
      · simp only [List.mem_append, not_or]
        exact ⟨print_clean front own, by decide⟩
    have cropped (rest : Bytes) : cropFrom .begin
        (head ++ ((cstr value).filter (· != carriage)).flatMap printByte ++ newline :: rest) =
          head ++ (front.flatMap printByte ++ [32]) ++ cropFrom .line rest := by
      have single : newline ∉ head ++ (front.flatMap printByte ++ [backslash]) := by
        simp only [List.mem_append, not_or]
        exact ⟨ended.single, print_single front, by decide⟩
      have clean : carriage ∉ head ++ (front.flatMap printByte ++ [backslash]) := by
        simp only [List.mem_append, not_or]
        exact ⟨ended.clean, print_clean front own, by decide⟩
      rw [split, List.flatMap_append, List.flatMap_singleton, printByte_backslash, List.append_assoc, started,
        ← List.append_assoc, cropFrom_line _ _ single clean, ← List.append_assoc head, List.getLast?_concat,
        if_pos rfl, List.dropLast_concat, cropFrom_escaped_newline]
      simp only [List.append_assoc, List.singleton_append]
    rw [cropped]
    cases lines with
    | nil =>
      refine ⟨[], [], _, by simp, by simp, by simp, List.Subset.refl _, ended.append joined, ?_, rfl⟩
      rw [readValue, if_pos ends, split, List.dropLast_concat]
    | cons line rest =>
      obtain ⟨whole, terminated⟩ := complete line List.mem_cons_self
      refine ⟨line, rest, front.flatMap printByte ++ 32 :: line, whole.single, whole.clean, terminated,
        List.subset_cons_self _ _, ?_, ?_, ?_⟩
      · have all := (ended.append joined).append whole
        rwa [List.append_assoc, List.append_assoc, List.singleton_append] at all
      · rw [readValue, if_pos ends, split, List.dropLast_concat]
      · rw [unitText_cons, cropFrom_line_end line _ whole, ← List.append_nil (unitText rest), cropFrom_lines rest []
          fun other member => (complete other (List.mem_cons_of_mem line member)).1]
        simp only [cropFrom, reduceCtorEq, if_false, List.append_nil, List.append_assoc, List.nil_append,
          List.cons_append]
  · have whole : Complete (((cstr value).filter (· != carriage)).flatMap printByte) :=
      ⟨print_single _, print_clean _ (kept _ (List.Subset.refl _)), fun last => ends ((print_ends _).mp last)⟩
    refine ⟨[], lines, _, by simp, by simp, by simp, List.Subset.refl _, ended.append whole, ?_, ?_⟩
    · rw [readValue, if_neg ends]
    · rw [List.append_assoc, started, ← List.append_assoc, cropFrom_line_end _ _ (ended.append whole),
        ← List.append_nil (unitText lines), cropFrom_lines lines [] fun line member => (complete line member).1]
      simp [cropFrom]

end

theorem stripped_unitText (lines : List Bytes) : stripped (unitText lines) = unitText (lines.map stripped) := by
  induction lines with
  | nil => rfl
  | cons line lines ih =>
    rw [List.map_cons, unitText_cons, unitText_cons, ← ih, stripped, List.filter_append,
      List.filter_cons_of_pos (by decide)]
    rfl

theorem stripped_print (text : Bytes) : stripped (text.flatMap printByte) = (stripped text).flatMap printByte := by
  induction text with
  | nil => rfl
  | cons byte rest ih =>
    rw [List.flatMap_cons, stripped, List.filter_append, ← stripped, ← stripped, ih]
    by_cases same : byte = carriage
    · have gone : stripped (byte :: rest) = stripped rest := List.filter_cons_of_neg (by simp [same])
      rw [gone, same]
      rfl
    · have own : stripped (printByte byte) = printByte byte := by
        rw [stripped, List.filter_eq_self]
        intro other member
        rw [bne_iff_ne]
        intro equal
        have inside : other ∈ [byte].flatMap printByte := by rwa [List.flatMap_singleton]
        subst equal
        exact print_clean [byte] (by simpa using Ne.symm same) inside
      rw [own, stripped, stripped, List.filter_cons_of_pos (by simpa using same), List.flatMap_cons]

theorem unitText_terminated (lines : List Bytes) (terminated : ∀ line ∈ lines, (0 : Byte) ∉ line) :
    (0 : Byte) ∉ unitText lines := by
  intro inside
  obtain ⟨line, member, here⟩ := List.mem_flatMap.mp inside
  rcases List.mem_append.mp here with own | ended
  · exact terminated line member own
  · exact absurd ended (by decide)

theorem print_terminated (value : Bytes) : (0 : Byte) ∉ print value true := by
  intro inside
  rcases (mem_print 0 (cstr value) inside).2 with own | escape | letter
  · exact absurd (List.mem_takeWhile_imp own) (by decide)
  · exact absurd escape (by decide)
  · exact absurd letter (by decide)

theorem fieldHead_complete (name : Bytes) (named : FieldName name) :
    Complete (keyAfmPrefix ++ name ++ [equalSign]) := by
  refine ⟨?_, ?_, by rw [List.getLast?_concat]; decide⟩
  · simp only [List.mem_append, not_or]
    exact ⟨⟨by decide, named.single⟩, by decide⟩
  · simp only [List.mem_append, not_or]
    exact ⟨⟨by decide, named.clean⟩, by decide⟩

theorem fieldHead_field (name written : Bytes) (named : FieldName name) :
    Plain (keyAfmPrefix ++ name ++ [equalSign] ++ written) ∧
      lineField (keyAfmPrefix ++ name ++ [equalSign] ++ written) = some ⟨name, (decodeValue written).1⟩ := by
  have field : IsField (keyAfmPrefix ++ name ++ [equalSign] ++ written) := by
    refine ⟨?_, by simp⟩
    rw [List.append_assoc, List.append_assoc]
    exact List.prefix_append _ _
  have after : (keyAfmPrefix ++ name ++ [equalSign] ++ written).drop keyAfmPrefix.length =
      name ++ equalSign :: written := by
    rw [List.append_assoc, List.append_assoc, List.drop_left, List.singleton_append]
  refine ⟨fun found result => field, ?_⟩
  rw [lineField, if_pos field, fieldAt, after, takeWhile_stop _ _ _ named.ends, dropWhile_stop _ _ _ named.ends]
  rfl

theorem stripped_append (first second : Bytes) : stripped (first ++ second) = stripped first ++ stripped second :=
  List.filter_append _ _

theorem stripped_same (text : Bytes) (clean : carriage ∉ text) : stripped text = text := by
  rw [stripped, List.filter_eq_self]
  intro byte member
  rw [bne_iff_ne]
  exact fun same => clean (same ▸ member)

theorem stripped_unitFile (name value : Bytes) (before after : List Bytes) (named : FieldName name) :
    stripped (unitFile before name value after) =
      unitText (before.map stripped) ++ (keyAfmPrefix ++ name ++ [equalSign] ++
        (stripped (cstr value)).flatMap printByte ++ newline :: unitText (after.map stripped)) := by
  have head := stripped_same _ (fieldHead_complete name named).clean
  have ended : stripped (newline :: unitText after) = newline :: stripped (unitText after) :=
    List.filter_cons_of_pos (by decide)
  have shape : unitFile before name value after = unitText before ++ (keyAfmPrefix ++ name ++ [equalSign] ++
      (cstr value).flatMap printByte ++ newline :: unitText after) := by
    simp only [unitFile, print, if_true, List.append_assoc, List.nil_append, List.cons_append]
  rw [shape, stripped_append, stripped_append, stripped_append, head, stripped_print, ended, stripped_unitText,
    stripped_unitText]

theorem unitFile_terminated (name value : Bytes) (before after : List Bytes) (named : FieldName name)
    (first : ∀ line ∈ before, Ordinary name line) (last : ∀ line ∈ after, Ordinary name line) :
    (0 : Byte) ∉ unitFile before name value after := by
  simp only [unitFile, List.mem_append, List.mem_cons, not_or]
  exact ⟨⟨unitText_terminated before fun line member => (first line member).terminated,
    ⟨by decide, named.terminated⟩, by decide, print_terminated value⟩, by decide,
    unitText_terminated after fun line member => (last line member).terminated⟩

theorem ordinary_kept (name : Bytes) (lines : List Bytes) (ordinary : ∀ line ∈ lines, Ordinary name line)
    (part : List Bytes) (subset : part ⊆ lines.map stripped) :
    (∀ line ∈ part.filter keptLine, Complete line ∧ Plain line) ∧
      ∀ field ∈ (part.filter keptLine).filterMap lineField, keyOf field.name ≠ keyOf name := by
  constructor
  · intro line member
    obtain ⟨inside, kept⟩ := List.mem_filter.mp member
    obtain ⟨source, here, same⟩ := List.mem_map.mp (subset inside)
    have own := ordinary source here
    rw [← same] at kept ⊢
    exact ⟨own.complete, own.plain kept⟩
  · intro field member
    obtain ⟨line, inside, found⟩ := List.mem_filterMap.mp member
    obtain ⟨source, here, same⟩ := List.mem_map.mp (subset (List.mem_of_mem_filter inside))
    exact (ordinary source here).other field (by rw [same]; exact found)

theorem ordinary_complete (name : Bytes) (lines : List Bytes) (ordinary : ∀ line ∈ lines, Ordinary name line) :
    ∀ line ∈ lines.map stripped, Complete line ∧ (0 : Byte) ∉ line := by
  intro line member
  obtain ⟨source, here, same⟩ := List.mem_map.mp member
  rw [← same]
  exact ⟨(ordinary source here).complete, fun inside => (ordinary source here).terminated (List.mem_of_mem_filter inside)⟩

theorem fieldsOf_unitFile (name value : Bytes) (before after : List Bytes) (named : FieldName name)
    (first : ∀ line ∈ before, Ordinary name line) (last : ∀ line ∈ after, Ordinary name line) :
    ∃ more fields later, newline ∉ more ∧ carriage ∉ more ∧ (0 : Byte) ∉ more ∧
      (∀ field ∈ fields ++ later, keyOf field.name ≠ keyOf name) ∧
      fieldsOf (cropAndTrimUnitContent (unitFile before name value after)) =
        fields ++ ⟨name, readValue value more⟩ :: later := by
  obtain ⟨more, later, written, single, clean, terminated, subset, complete, decoded, cropped⟩ :=
    cropFrom_value (keyAfmPrefix ++ name ++ [equalSign]) value (after.map stripped)
      ⟨'X'.toUInt8, ascii "-AFM-" ++ name ++ [equalSign], rfl, by decide⟩ (fieldHead_complete name named)
      (ordinary_complete name after last)
  obtain ⟨proper, others⟩ := ordinary_kept name before first (before.map stripped) (List.Subset.refl _)
  obtain ⟨properAfter, othersAfter⟩ := ordinary_kept name after last later subset
  obtain ⟨plain, field⟩ := fieldHead_field name written named
  refine ⟨more, ((before.map stripped).filter keptLine).filterMap lineField,
    (later.filter keptLine).filterMap lineField, single, clean, terminated, fun field member =>
    (List.mem_append.mp member).elim (others field) (othersAfter field), ?_⟩
  have none : fieldsOf [] = [] := rfl
  have ended := fieldsOf_lines_append (later.filter keptLine) [] properAfter
  rw [List.append_nil, none, List.append_nil] at ended
  rw [cropAndTrimUnitContent, cstr_of_no_nul _ (unitFile_terminated name value before after named first last),
    cropFrom_carriage, ← stripped, stripped_unitFile name value before after named,
    cropFrom_lines _ _ fun line member => (ordinary_complete name before first line member).1,
    stripped, cropped, fieldsOf_lines_append _ _ proper, fieldsOf_line _ _ complete plain, field, ended, decoded]
  rfl

theorem appendField_get (object : Json) (name key : Bytes) (data : Json) (differs : key ≠ name) :
    (appendField object name data).get key = object.get key := by
  rw [appendField]
  split <;> exact Json.get_add object name key _ differs

theorem appendField_new (object : Json) (name : Bytes) (data : Json) (shape : object.isObject = true)
    (absent : object.get name = none) : (appendField object name data).get name = some data := by
  rw [appendField, absent]
  exact Json.get_add_same object name data shape

theorem appendField_isObject (object : Json) (name : Bytes) (data : Json) :
    (appendField object name data).isObject = object.isObject := by
  rw [appendField]
  split <;> exact Json.isObject_add object name _

theorem addField_get (records : Records) (field : Field) (key : Bytes) (differs : keyOf field.name ≠ key) :
    (addField records field).priv.get key = records.priv.get key ∧
      (addField records field).pub.get key = records.pub.get key := by
  rw [keyOf] at differs
  rw [addField]
  split
  · next isPrivate =>
    rw [if_pos isPrivate] at differs
    exact ⟨appendField_get _ _ _ _ (Ne.symm differs), rfl⟩
  · next isPublic =>
    rw [if_neg isPublic] at differs
    exact ⟨appendField_get _ _ _ _ (Ne.symm differs), appendField_get _ _ _ _ (Ne.symm differs)⟩

theorem addFields_get (fields : List Field) (records : Records) (key : Bytes)
    (differ : ∀ field ∈ fields, keyOf field.name ≠ key) :
    (fields.foldl addField records).priv.get key = records.priv.get key ∧
      (fields.foldl addField records).pub.get key = records.pub.get key := by
  induction fields generalizing records with
  | nil => exact ⟨rfl, rfl⟩
  | cons field fields ih =>
    obtain ⟨priv, pub⟩ := addField_get records field key (differ field List.mem_cons_self)
    rw [List.foldl_cons, ← priv, ← pub]
    exact ih _ fun other member => differ other (List.mem_cons_of_mem field member)

theorem addFields_isObject (fields : List Field) (records : Records) :
    (fields.foldl addField records).priv.isObject = records.priv.isObject ∧
      (fields.foldl addField records).pub.isObject = records.pub.isObject := by
  induction fields generalizing records with
  | nil => exact ⟨rfl, rfl⟩
  | cons field fields ih =>
    obtain ⟨priv, pub⟩ := ih (addField records field)
    rw [List.foldl_cons, priv, pub, addField]
    split
    · exact ⟨appendField_isObject _ _ _, rfl⟩
    · exact ⟨appendField_isObject _ _ _, appendField_isObject _ _ _⟩

theorem addField_new (records : Records) (field : Field) (priv : records.priv.isObject = true)
    (pub : records.pub.isObject = true) (absent : records.priv.get (keyOf field.name) = none)
    (absent' : records.pub.get (keyOf field.name) = none) :
    (addField records field).priv.get (keyOf field.name) = some (valueOf field.value) ∧
      (field.name.head? ≠ some dash → (addField records field).pub.get field.name = some (valueOf field.value)) := by
  rw [keyOf] at absent absent' ⊢
  rw [addField]
  split
  · next isPrivate =>
    rw [if_pos isPrivate] at absent
    exact ⟨appendField_new _ _ _ priv absent, fun isPublic => absurd isPrivate isPublic⟩
  · next isPublic =>
    rw [if_neg isPublic] at absent absent'
    exact ⟨appendField_new _ _ _ priv absent, fun _ => appendField_new _ _ _ pub absent'⟩

/-- The data that `addunit` starts from. -/
def newRecords : Records := ⟨.object [], .object []⟩

/-- A printed value is recorded for its field exactly where it is an integer or intact. -/
theorem field_round_trip (name value : Bytes) (before after : List Bytes) (named : FieldName name)
    (first : ∀ line ∈ before, Ordinary name line) (last : ∀ line ∈ after, Ordinary name line) :
    let content := cropAndTrimUnitContent (unitFile before name value after)
    let records := addFieldsOfContent newRecords content
    (records.priv.get (keyOf name) = some (valueOf value) ∧
      (name.head? ≠ some dash → records.pub.get name = some (valueOf value))) ↔
        spells value ≠ none ∨ Intact value := by
  intro content records
  obtain ⟨more, fields, later, single, clean, terminated, others, same⟩ :=
    fieldsOf_unitFile name value before after named first last
  rw [List.forall_mem_append] at others
  obtain ⟨isPriv, isPub⟩ := addFields_isObject fields newRecords
  obtain ⟨priv, pub⟩ := addFields_get fields newRecords (keyOf name) others.1
  obtain ⟨recorded, published⟩ := addField_new (fields.foldl addField newRecords) ⟨name, readValue value more⟩ isPriv
    isPub priv pub
  obtain ⟨privLater, pubLater⟩ := addFields_get later
    (addField (fields.foldl addField newRecords) ⟨name, readValue value more⟩) (keyOf name) others.2
  have whole : records = later.foldl addField
      (addField (fields.foldl addField newRecords) ⟨name, readValue value more⟩) := by
    rw [show records = (fieldsOf content).foldl addField newRecords from rfl, same, List.foldl_append, List.foldl_cons]
  rw [whole, privLater, recorded, Option.some.injEq, valueOf_readValue value more single terminated clean]
  refine and_iff_left_of_imp fun held isPublic => ?_
  have key : keyOf name = name := if_neg isPublic
  rw [key] at pubLater
  rw [pubLater, published isPublic, (valueOf_readValue value more single terminated clean).mpr held]

theorem field_round_trip_name :
    let content := cropAndTrimUnitContent (unitFile [ascii "[Unit]"] (ascii "name") (ascii "App\n1") [])
    let records := addFieldsOfContent newRecords content
    records.priv.get (keyOf (ascii "name")) = some (valueOf (ascii "App\n1")) ∧
      ((ascii "name").head? ≠ some dash → records.pub.get (ascii "name") = some (valueOf (ascii "App\n1"))) := by
  refine (field_round_trip (ascii "name") (ascii "App\n1") [ascii "[Unit]"] [] ?_ ?_ ?_).mpr (Or.inr ?_)
  · exact ⟨by decide, by decide, by decide, by decide⟩
  · intro line member
    rw [List.mem_singleton] at member
    subst member
    have absent : strstr keyAfmPrefix (stripped (ascii "[Unit]")) = none := by decide
    have plain : lineField (stripped (ascii "[Unit]")) = none := by decide
    refine ⟨by decide, ⟨by decide, by decide, by decide⟩, fun _ found result => ?_, fun field found => ?_⟩
    · rw [absent] at result
      cases result
    · rw [plain] at found
      cases found
  · intro line member
    cases member
  · exact ⟨by decide, by decide, by decide, by decide, plainEscapes_of_none _ (by decide)⟩

/-- A percent sign is recorded twice. -/
theorem field_round_trip_percent :
    let content := cropAndTrimUnitContent (unitFile [] (ascii "name") (ascii "50%") [])
    let records := addFieldsOfContent newRecords content
    ¬(records.priv.get (keyOf (ascii "name")) = some (valueOf (ascii "50%")) ∧
      ((ascii "name").head? ≠ some dash → records.pub.get (ascii "name") = some (valueOf (ascii "50%")))) := by
  intro content records both
  have texts := congrArg (Option.map (Json.getString fun _ => [])) both.1
  exact absurd texts (by decide +kernel)

end AppManager.Binding
