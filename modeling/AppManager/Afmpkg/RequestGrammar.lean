import AppManager.Afmpkg.RequestSteps

/-! The lines that make a complete request: one line of status, or a package request
whose body has its lines in any order. -/

namespace AppManager.Afmpkg
open AppManager.Lib AppManager.Lib.Libc AppManager.Utils

abbrev Field := Key × Bytes

def Field.line (field : Field) : Bytes := keyLine field.1 field.2

structure Body (fields : List Field) : Prop where
  keys : ∀ field ∈ fields, isBodyKey field.1 = true
  once : ∀ key, key ≠ .FILE → (fields.filter fun field => field.1 = key).length ≤ 1
  numbers : ∀ field ∈ fields, field.1 = .COUNT ∨ field.1 = .INDEX → ∃ number, Numbered field.2 number
  order : ∀ count index, (.COUNT, count) ∈ fields → (.INDEX, index) ∈ fields →
    (strtol index).value ≤ (strtol count).value

def operations : List Bytes :=
  [OPERATION_ADD, OPERATION_REMOVE, OPERATION_CHECK_ADD, OPERATION_CHECK_REMOVE]

def PackageRequest (lines : List Bytes) : Prop :=
  ∃ operation ∈ operations, ∃ fields, Body fields ∧
    lines = keyLine .BEGIN operation :: fields.map Field.line ++ [keyLine .END operation]

def StatusRequest (lines : List Bytes) : Prop := ∃ transid, lines = [keyLine .STATUS transid]

def Absent (fields : List Field) (key : Key) : Prop := ∀ value, (key, value) ∉ fields

theorem absent_iff (fields : List Field) (key : Key) :
    Absent fields key ↔ fields.filter (fun field => field.1 = key) = [] := by
  rw [List.filter_eq_nil_iff]
  constructor
  · intro absent field member
    rw [decide_eq_true_iff]
    intro same
    apply absent field.2
    rw [← same]
    exact member
  · intro none value member
    exact none (key, value) member (by simp)

structure Fits (fields : List Field) (field : Field) : Prop where
  key : isBodyKey field.1 = true
  once : field.1 ≠ .FILE → Absent fields field.1
  number : field.1 = .COUNT ∨ field.1 = .INDEX → ∃ number, Numbered field.2 number
  above : field.1 = .COUNT → ∀ index, (.INDEX, index) ∈ fields →
    (strtol index).value ≤ (strtol field.2).value
  below : field.1 = .INDEX → ∀ count, (.COUNT, count) ∈ fields →
    (strtol field.2).value ≤ (strtol count).value

theorem body_nil : Body [] := ⟨by simp, by simp, by simp, by simp⟩

theorem body_of_snoc (fields : List Field) (field : Field) (body : Body (fields ++ [field])) :
    Body fields ∧ Fits fields field := by
  obtain ⟨keys, once, numbers, order⟩ := body
  have last : field ∈ fields ++ [field] := by simp
  have part : ∀ {other}, other ∈ fields → other ∈ fields ++ [field] := by
    intro other member
    exact List.mem_append_left [field] member
  constructor
  · refine ⟨fun other member => keys other (part member), fun key proper => ?_,
      fun other member => numbers other (part member),
      fun count index first second => order count index (part first) (part second)⟩
    have bound := once key proper
    rw [List.filter_append, List.length_append] at bound
    omega
  · refine ⟨keys field last, fun proper => ?_, numbers field last, fun same index member => ?_,
      fun same count member => ?_⟩
    · have bound := once field.1 proper
      rw [List.filter_append, List.length_append] at bound
      rw [absent_iff, ← List.length_eq_zero_iff]
      simp only [List.filter_cons, List.filter_nil, decide_true, ↓reduceIte,
        List.length_singleton] at bound
      omega
    · apply order field.2 index _ (part member)
      rw [← same]
      exact last
    · apply order count field.2 (part member)
      rw [← same]
      exact last

theorem mem_snoc {fields : List Field} {field other : Field} (member : other ∈ fields ++ [field]) :
    other ∈ fields ∨ other = field :=
  (List.mem_append.mp member).imp_right List.mem_singleton.mp

theorem body_add (fields : List Field) (field : Field) (body : Body fields) (fits : Fits fields field) :
    Body (fields ++ [field]) := by
  constructor
  · intro other member
    rcases mem_snoc member with before | same
    · exact body.keys other before
    · rw [same]
      exact fits.key
  · intro other proper
    rw [List.filter_append, List.length_append]
    by_cases same : field.1 = other
    · have none := (absent_iff fields field.1).mp (fits.once (same ▸ proper))
      rw [← same, none]
      simp
    · have bound := body.once other proper
      simpa [same] using bound
  · intro other member
    rcases mem_snoc member with before | same
    · exact body.numbers other before
    · rw [same]
      exact fits.number
  · intro count index first second
    rcases mem_snoc first with before | same
    · rcases mem_snoc second with before' | same'
      · exact body.order count index before before'
      · have bound := fits.below (by rw [← same']) count before
        rw [← same'] at bound
        exact bound
    · rcases mem_snoc second with before' | same'
      · have bound := fits.above (by rw [← same]) index before'
        rw [← same] at bound
        exact bound
      · rw [← same] at same'
        exact absurd (congrArg Prod.fst same') (by simp)

def given (fields : List Field) (key : Key) : Option Bytes :=
  (fields.find? fun field => field.1 = key).map Prod.snd

theorem given_snoc (fields : List Field) (field : Field) (key : Key) :
    given (fields ++ [field]) key =
      (given fields key).or (if field.1 = key then some field.2 else none) := by
  unfold given
  rw [List.find?_append]
  cases fields.find? (fun field => field.1 = key) with
  | some found => simp
  | none =>
    by_cases same : field.1 = key
    · simp [same]
    · simp [same]

theorem given_eq_none (fields : List Field) (key : Key) : given fields key = none ↔ Absent fields key := by
  unfold given
  rw [Option.map_eq_none_iff, List.find?_eq_none]
  constructor
  · intro none value member
    exact none (key, value) member (by simp)
  · intro absent field member
    rw [decide_eq_true_iff]
    intro same
    exact absent field.2 (same ▸ member)

theorem given_member {fields : List Field} {key : Key} {value : Bytes}
    (found : given fields key = some value) : (key, value) ∈ fields := by
  unfold given at found
  rw [Option.map_eq_some_iff] at found
  obtain ⟨field, search, same⟩ := found
  have equal := List.find?_some search
  rw [decide_eq_true_iff] at equal
  rw [← equal, ← same]
  exact List.mem_of_find?_eq_some search

theorem given_unique {fields : List Field} (body : Body fields) {key : Key} (proper : key ≠ .FILE)
    {value : Bytes} (member : (key, value) ∈ fields) : given fields key = some value := by
  cases found : given fields key with
  | none => exact absurd member ((given_eq_none fields key).mp found value)
  | some other =>
    have bound := body.once key proper
    have first : (key, value) ∈ fields.filter fun field => field.1 = key :=
      List.mem_filter.mpr ⟨member, by simp⟩
    have second : (key, other) ∈ fields.filter fun field => field.1 = key :=
      List.mem_filter.mpr ⟨given_member found, by simp⟩
    generalize fields.filter (fun field => field.1 = key) = all at bound first second
    match all, bound with
    | [], _ => cases first
    | [only], _ =>
      rw [List.mem_singleton] at first second
      rw [(Prod.mk.inj (second.trans first.symm)).2]
    | _ :: _ :: _, long => simp at long

def numberOf (fields : List Field) (key : Key) : Nat :=
  match given fields key with
  | none => 0
  | some value => (strtol value).value.toNat

theorem numberOf_eq_zero {fields : List Field} (body : Body fields) {key : Key}
    (number : key = .COUNT ∨ key = .INDEX) : numberOf fields key = 0 ↔ Absent fields key := by
  unfold numberOf
  rw [← given_eq_none]
  cases found : given fields key with
  | none => simp
  | some value =>
    obtain ⟨count, -, same, positive, -⟩ := body.numbers _ (given_member found) number
    have natural : (strtol value).value.toNat = count := by
      rw [same]
      rfl
    simp only [natural, reduceCtorEq, iff_false]
    omega

theorem given_other (fields : List Field) (field : Field) (key : Key) (other : field.1 ≠ key) :
    given (fields ++ [field]) key = given fields key := by
  rw [given_snoc, if_neg other, Option.or_none]

theorem numberOf_other (fields : List Field) (field : Field) (key : Key) (other : field.1 ≠ key) :
    numberOf (fields ++ [field]) key = numberOf fields key := by
  unfold numberOf
  rw [given_other fields field key other]

theorem given_last (fields : List Field) (field : Field) :
    (given (fields ++ [field]) field.1).isSome = true := by
  rw [given_snoc, if_pos rfl]
  simp

theorem numberOf_last (fields : List Field) (key : Key) (value : Bytes) (number : Nat)
    (absent : Absent fields key) (numbered : Numbered value number) :
    numberOf (fields ++ [(key, value)]) key = number := by
  unfold numberOf
  rw [given_snoc, (given_eq_none fields key).mpr absent, if_pos rfl, Option.none_or]
  simp only [numbered.2.1]
  rfl

theorem forall_number {fields : List Field} (body : Body fields) {key : Key}
    (number : key = .COUNT ∨ key = .INDEX) (holds : Int → Prop) :
    (∀ value, (key, value) ∈ fields → holds (strtol value).value) ↔
      (numberOf fields key ≠ 0 → holds (numberOf fields key)) := by
  have proper : key ≠ .FILE := by
    intro same
    rw [same] at number
    exact absurd number (by decide)
  cases found : given fields key with
  | none =>
    have absent := (given_eq_none fields key).mp found
    have zero := (numberOf_eq_zero body number).mpr absent
    exact iff_of_true (fun value member => absurd member (absent value)) (fun nonzero => absurd zero nonzero)
  | some value =>
    obtain ⟨count, -, same, positive, -⟩ := body.numbers _ (given_member found) number
    have natural : numberOf fields key = count := by
      rw [numberOf, found]
      simp only [same]
      rfl
    rw [natural]
    constructor
    · intro all _
      rw [← same]
      exact all value (given_member found)
    · intro bound other member
      have equal := Option.some.inj ((given_unique body proper member).symm.trans found)
      subst equal
      simp only at same
      rw [same]
      exact bound (by omega)

/-- The texts and the numbers of a request, by the keys that give them. -/
def Request.text (req : Request) : Key → Option Bytes
  | .PACKAGE => req.apkg.package
  | .REDPAKID => req.apkg.redpakid
  | .ROOT => req.apkg.root
  | .TRANSID => req.transid
  | _ => none

def Request.number (req : Request) : Key → Nat
  | .COUNT => req.count
  | .INDEX => req.index
  | _ => 0

def isTextKey : Key → Bool
  | .PACKAGE | .REDPAKID | .ROOT | .TRANSID => true
  | _ => false

/-- The request after the begin line of that kind and these lines of its body. -/
structure Filled (req : Request) (kind : RequestKind) (fields : List Field) : Prop where
  state : req.state = .pending
  kind : req.kind = kind
  number : ∀ key, key = .COUNT ∨ key = .INDEX → req.number key = numberOf fields key
  text : ∀ key, isTextKey key = true → (req.text key).isSome = (given fields key).isSome

theorem filled_begin (kind : RequestKind) : Filled { afmpkgRequestInit.2 with kind := kind } kind [] := by
  refine ⟨rfl, rfl, fun key number => ?_, fun key text => ?_⟩
  · rcases number with count | index
    · rw [count]
      rfl
    · rw [index]
      rfl
  · cases key with
    | PACKAGE | REDPAKID | ROOT | TRANSID => rfl
    | _ => cases text

theorem filled_snoc {req next : Request} {kind : RequestKind} {fields : List Field} (field : Field)
    (filled : Filled req kind fields) (state : next.state = .pending) (same : next.kind = req.kind)
    (others : ∀ key, key ≠ field.1 → next.number key = req.number key ∧ next.text key = req.text key)
    (number : field.1 = .COUNT ∨ field.1 = .INDEX →
      next.number field.1 = numberOf (fields ++ [field]) field.1)
    (text : isTextKey field.1 = true → (next.text field.1).isSome = true) :
    Filled next kind (fields ++ [field]) := by
  refine ⟨state, same.trans filled.kind, fun key isNumber => ?_, fun key isText => ?_⟩
  · by_cases this : key = field.1
    · rw [this]
      exact number (this ▸ isNumber)
    · rw [(others key this).1, numberOf_other _ _ _ (Ne.symm this)]
      exact filled.number key isNumber
  · by_cases this : key = field.1
    · rw [this, given_last]
      exact text (this ▸ isText)
    · rw [(others key this).2, given_other _ _ _ (Ne.symm this)]
      exact filled.text key isText

/-- A line of the body is taken when it fits the lines before it. -/
def Taken (req : Request) (kind : RequestKind) (fields : List Field) (field : Field) : Prop :=
  (Fits fields field ∧ (afmpkgRequestAddLine req field.line).1 = 0 ∧
    Filled (afmpkgRequestAddLine req field.line).2 kind (fields ++ [field])) ∨
  (¬Fits fields field ∧ Rejects req (afmpkgRequestAddLine req field.line))

theorem fits_text (fields : List Field) (field : Field) (key : isBodyKey field.1 = true)
    (count : field.1 ≠ .COUNT) (index : field.1 ≠ .INDEX) :
    Fits fields field ↔ (field.1 ≠ .FILE → Absent fields field.1) := by
  constructor
  · exact fun fits => fits.once
  · exact fun once => ⟨key, once, fun number => (number.elim count index).elim,
      fun same => absurd same count, fun same => absurd same index⟩

section
variable {req : Request} {kind : RequestKind} {fields : List Field}
  (filled : Filled req kind fields) (set : kind ≠ .unset)
include filled set

theorem taken_file (value : Bytes) : Taken req kind fields (.FILE, value) := by
  have known : req.kind ≠ .unset := filled.kind ▸ set
  have result : afmpkgRequestAddLine req (Field.line (.FILE, value)) =
      (0, { req with apkg := { req.apkg with
        files := (pathEntryAddLength req.apkg.files value value.length).2 } }) := by
    rw [Field.line, addLine_key req filled.state, addFile, if_neg known]
    rfl
  left
  rw [result]
  refine ⟨(fits_text fields _ rfl (by simp) (by simp)).mpr (fun proper => absurd rfl proper), rfl, ?_⟩
  apply filled_snoc (.FILE, value) filled
  · exact filled.state
  · rfl
  · intro key _
    exact ⟨by cases key <;> rfl, by cases key <;> rfl⟩
  · simp
  · simp [isTextKey]

theorem taken_text (key : Key) (value : Bytes) (isText : isTextKey key = true) (scode : Int) (msg : Bytes)
    (setter : Bytes → Request)
    (code : afmpkgRequestAddLine req (keyLine key value) = addText req scode msg (req.text key) setter value)
    (negative : scode < 0) (next : ∀ text, (setter text).state = req.state ∧ (setter text).kind = req.kind ∧
      (setter text).text key = some text ∧
      ∀ other, other ≠ key → (setter text).number other = req.number other ∧
        (setter text).text other = req.text other) :
    Taken req kind fields (key, value) := by
  have known : req.kind ≠ .unset := filled.kind ▸ set
  have proper : isBodyKey key = true ∧ key ≠ .COUNT ∧ key ≠ .INDEX ∧ key ≠ .FILE := by
    cases key with
    | PACKAGE | REDPAKID | ROOT | TRANSID => decide
    | _ => cases isText
  have fits := fits_text fields (key, value) proper.1 proper.2.1 proper.2.2.1
  have free : req.text key = none ↔ Absent fields key := by
    rw [← given_eq_none, ← Option.isSome_eq_false_iff.trans Option.isNone_iff_eq_none,
      ← Option.isSome_eq_false_iff.trans Option.isNone_iff_eq_none, filled.text key isText]
  unfold Taken
  rw [Field.line, code]
  rcases addText_cases req scode msg (req.text key) setter value negative with
    ⟨_, first, result⟩ | ⟨again, rejects⟩
  · obtain ⟨state, sameKind, text, others⟩ := next (cstr value)
    rw [result]
    refine Or.inl ⟨fits.mpr fun _ => free.mp first, rfl, ?_⟩
    apply filled_snoc _ filled (state.trans filled.state) sameKind others
    · intro number
      exact absurd number (not_or.mpr ⟨proper.2.1, proper.2.2.1⟩)
    · intro _
      rw [text]
      rfl
  · exact Or.inr ⟨fun fitting => again known (free.mpr (fits.mp fitting proper.2.2.2)), rejects⟩

theorem taken_number (body : Body fields) (key : Key) (value : Bytes) (clean : 0 ∉ value)
    (isNumber : key = .COUNT ∨ key = .INDEX) (errors : NumberErrors) (disorder : Nat → Bool)
    (setter : Nat → Request)
    (code : afmpkgRequestAddLine req (keyLine key value) =
      addNumber req errors (req.number key) disorder setter value)
    (negative : errors.unexpected.1 < 0 ∧ errors.invalid.1 < 0 ∧ errors.range.1 < 0 ∧ errors.order.1 < 0)
    (ordered : ∀ number : Nat, (strtol value).value = number → (disorder number = false ↔
      (key = .COUNT → ∀ index, (.INDEX, index) ∈ fields → (strtol index).value ≤ (strtol value).value) ∧
      (key = .INDEX → ∀ count, (.COUNT, count) ∈ fields → (strtol value).value ≤ (strtol count).value)))
    (next : ∀ number, (setter number).state = req.state ∧ (setter number).kind = req.kind ∧
      (setter number).number key = number ∧
      ∀ other, other ≠ key → (setter number).number other = req.number other ∧
        (setter number).text other = req.text other) :
    Taken req kind fields (key, value) := by
  have known : req.kind ≠ .unset := filled.kind ▸ set
  have text : cstr value = value := cstr_of_no_nul value clean
  have proper : isBodyKey key = true ∧ key ≠ .FILE ∧ isTextKey key = false := by
    rcases isNumber with count | index
    · rw [count]
      decide
    · rw [index]
      decide
  have free : req.number key = 0 ↔ Absent fields key := by
    rw [filled.number key isNumber]
    exact numberOf_eq_zero body isNumber
  unfold Taken
  rw [Field.line, code]
  rcases addNumber_cases req errors (req.number key) disorder setter value negative with
    ⟨number, _, first, numbered, order, result⟩ | ⟨refused, rejects⟩
  · rw [text] at numbered
    obtain ⟨state, sameKind, given, others⟩ := next number
    obtain ⟨above, below⟩ := (ordered number numbered.2.1).mp order
    rw [result]
    refine Or.inl ⟨⟨proper.1, fun _ => free.mp first, fun _ => ⟨number, numbered⟩, above, below⟩, rfl, ?_⟩
    apply filled_snoc _ filled (state.trans filled.state) sameKind others
    · intro _
      rw [given, numberOf_last _ _ _ _ (free.mp first) numbered]
    · intro isText
      rw [proper.2.2] at isText
      cases isText
  · refine Or.inr ⟨fun fits => ?_, rejects⟩
    obtain ⟨number, numbered⟩ := fits.number isNumber
    rw [text] at refused
    have disordered := refused number known (free.mpr (fits.once proper.2.1)) numbered
    rw [(ordered number numbered.2.1).mpr ⟨fits.above, fits.below⟩] at disordered
    cases disordered

theorem taken_count (body : Body fields) (value : Bytes) (clean : 0 ∉ value) :
    Taken req kind fields (.COUNT, value) := by
  apply taken_number filled set body .COUNT value clean (Or.inl rfl) _ _ _
    (addLine_key req filled.state .COUNT value) (by decide)
  · intro number same
    rw [forall_number body (Or.inr rfl) (· ≤ (strtol value).value), ← filled.number .INDEX (Or.inr rfl), same]
    simp only [Request.number, decide_eq_false_iff_not, forall_const, reduceCtorEq, false_implies, and_true]
    omega
  · intro number
    refine ⟨rfl, rfl, rfl, fun other different => ?_⟩
    cases other with
    | COUNT => exact absurd rfl different
    | _ => exact ⟨rfl, rfl⟩

theorem taken_index (body : Body fields) (value : Bytes) (clean : 0 ∉ value) :
    Taken req kind fields (.INDEX, value) := by
  apply taken_number filled set body .INDEX value clean (Or.inr rfl) _ _ _
    (addLine_key req filled.state .INDEX value) (by decide)
  · intro number same
    rw [forall_number body (Or.inl rfl) ((strtol value).value ≤ ·), ← filled.number .COUNT (Or.inl rfl), same]
    simp only [Request.number, decide_eq_false_iff_not, forall_const, reduceCtorEq, false_implies, true_and]
    omega
  · intro number
    refine ⟨rfl, rfl, rfl, fun other different => ?_⟩
    cases other with
    | INDEX => exact absurd rfl different
    | _ => exact ⟨rfl, rfl⟩

theorem taken_field (body : Body fields) (field : Field) (key : isBodyKey field.1 = true)
    (clean : 0 ∉ field.2) : Taken req kind fields field := by
  obtain ⟨name, value⟩ := field
  cases name with
  | BEGIN | END | STATUS => cases key
  | COUNT => exact taken_count filled set body value clean
  | INDEX => exact taken_index filled set body value clean
  | FILE => exact taken_file filled set value
  | PACKAGE | REDPAKID | ROOT | TRANSID =>
    apply taken_text filled set _ value rfl _ _ _ (addLine_key req filled.state _ value) (by decide)
    intro text
    refine ⟨rfl, rfl, rfl, fun other different => ?_⟩
    cases other <;> first | exact absurd rfl different | exact ⟨rfl, rfl⟩

end

/-- The lines that are left of a request: the rest of its body and its end line. -/
def Remaining (kind : RequestKind) (fields : List Field) (lines : List Bytes) : Prop :=
  ∃ more last, Body (fields ++ more) ∧ getOperationKind last = kind ∧
    lines = more.map Field.line ++ [keyLine .END last]

theorem body_of_append (fields more : List Field) (body : Body (fields ++ more)) : Body fields := by
  induction more using List.reverseRecOn with
  | nil => simpa using body
  | append_singleton more field ih =>
    rw [← List.append_assoc] at body
    exact ih (body_of_snoc _ _ body).1

theorem remaining_nil (kind : RequestKind) (fields : List Field) : ¬Remaining kind fields [] := by
  intro remaining
  obtain ⟨more, last, _, _, same⟩ := remaining
  exact absurd same.symm (List.append_ne_nil_of_right_ne_nil _ (List.cons_ne_nil _ _))

theorem remaining_cons (kind : RequestKind) (fields : List Field) (body : Body fields) (line : Bytes)
    (rest : List Bytes) :
    Remaining kind fields (line :: rest) ↔
      (∃ last, line = keyLine .END last ∧ getOperationKind last = kind ∧ rest = []) ∨
      ∃ field, line = Field.line field ∧ Fits fields field ∧ Remaining kind (fields ++ [field]) rest := by
  constructor
  · intro remaining
    obtain ⟨more, last, whole, operation, same⟩ := remaining
    cases more with
    | nil =>
      rw [List.map_nil, List.nil_append, List.cons.injEq] at same
      exact Or.inl ⟨last, same.1, operation, same.2⟩
    | cons field others =>
      rw [List.map_cons, List.cons_append, List.cons.injEq] at same
      rw [← List.singleton_append, ← List.append_assoc] at whole
      have fits := (body_of_snoc fields field (body_of_append _ others whole)).2
      exact Or.inr ⟨field, same.1, fits, others, last, whole, operation, same.2⟩
  · intro shape
    rcases shape with ⟨last, isEnd, operation, empty⟩ | ⟨field, isField, _, others, last, whole, operation, same⟩
    · exact ⟨[], last, by rw [List.append_nil]; exact body, operation, by rw [isEnd, empty]; rfl⟩
    · refine ⟨field :: others, last, ?_, operation, by rw [isField, same]; rfl⟩
      rw [← List.singleton_append, ← List.append_assoc]
      exact whole

theorem remaining_step {req : Request} {kind : RequestKind} {fields : List Field}
    (filled : Filled req kind fields) (set : kind ≠ .unset) (body : Body fields) (line : Bytes)
    (clean : (0 : Byte) ∉ line) :
    (∃ field, line = Field.line field ∧ Fits fields field ∧ (afmpkgRequestAddLine req line).1 = 0 ∧
      Filled (afmpkgRequestAddLine req line).2 kind (fields ++ [field])) ∨
    (∃ last, line = keyLine .END last ∧ getOperationKind last = kind ∧
      afmpkgRequestAddLine req line = (0, { req with state := .ready })) ∨
    ((afmpkgRequestAddLine req line).1 ≠ 0 ∧ (∀ field, line = Field.line field → ¬Fits fields field) ∧
      ∀ last, line = keyLine .END last → getOperationKind last ≠ kind) := by
  by_cases zero : (afmpkgRequestAddLine req line).1 = 0
  · cases (addLine_effect req line zero).2 with
    | begins value same first => exact absurd (filled.kind.symm.trans first) set
    | status value same first => exact absurd (filled.kind.symm.trans first) set
    | ends value same operation result =>
      exact Or.inr (Or.inl ⟨value, same, operation.symm.trans filled.kind, Prod.ext zero result⟩)
    | body key value same isBody =>
      have pure : (0 : Byte) ∉ value := by
        intro inside
        exact clean (by rw [same]; simp [keyLine, inside])
      subst same
      rcases taken_field filled set body (key, value) isBody pure with taken | ⟨_, rejects⟩
      · exact Or.inl ⟨(key, value), rfl, taken⟩
      · exact absurd zero (rejects_not_zero rejects)
  · refine Or.inr (Or.inr ⟨zero, fun field same fits => ?_, fun last same operation => ?_⟩)
    · have pure : (0 : Byte) ∉ field.2 := by
        intro inside
        exact clean (by rw [same]; simp [Field.line, keyLine, inside])
      subst same
      rcases taken_field filled set body field fits.key pure with ⟨_, accepted, _⟩ | ⟨unfit, _⟩
      · exact zero accepted
      · exact unfit fits
    · apply zero
      rw [same, end_accepted filled.state (filled.kind.trans operation.symm)]

theorem remaining_iff (kind : RequestKind) (set : kind ≠ .unset) (lines : List Bytes)
    (clean : ∀ line ∈ lines, (0 : Byte) ∉ line) (req : Request) (fields : List Field)
    (filled : Filled req kind fields) (body : Body fields) :
    Accepted req lines ∧ (addLines req lines).2.state = .ready ↔ Remaining kind fields lines := by
  induction lines generalizing req fields with
  | nil =>
    apply iff_of_false _ (remaining_nil kind fields)
    intro done
    rw [addLines, filled.state] at done
    exact absurd done.2 (by decide)
  | cons line rest ih =>
    have later : ∀ other ∈ rest, (0 : Byte) ∉ other :=
      fun other member => clean other (List.mem_cons_of_mem line member)
    rw [remaining_cons kind fields body, accepted_cons, addLines]
    rcases remaining_step filled set body line (clean line List.mem_cons_self) with
      ⟨field, same, fits, zero, next⟩ | ⟨last, same, operation, result⟩ | ⟨refused, noField, noEnd⟩
    · have tail := ih later _ (fields ++ [field]) next (body_add fields field body fits)
      rw [and_assoc, tail]
      constructor
      · intro done
        exact Or.inr ⟨field, same, fits, done.2⟩
      · intro shape
        rcases shape with ⟨last, isEnd, _⟩ | ⟨other, isField, _, remaining⟩
        · have isKey := (keyLine_injective (same.symm.trans isEnd)).1
          have key := fits.key
          rw [isKey] at key
          cases key
        · obtain ⟨sameKey, sameValue⟩ := keyLine_injective (same.symm.trans isField)
          exact ⟨zero, by rw [show field = other from Prod.ext sameKey sameValue]; exact remaining⟩
    · rw [result]
      have only := accepted_late { req with state := .ready } (by simp) rest
      constructor
      · intro done
        exact Or.inl ⟨last, same, operation, only.mp done.1.2⟩
      · intro shape
        rcases shape with ⟨_, _, _, empty⟩ | ⟨field, isField, fits, _⟩
        · rw [empty]
          exact ⟨⟨rfl, accepted_nil _⟩, rfl⟩
        · have isKey := (keyLine_injective (isField.symm.trans same)).1
          have key := fits.key
          rw [isKey] at key
          cases key
    · apply iff_of_false
      · intro done
        exact refused done.1.1
      · intro shape
        rcases shape with ⟨last, isEnd, operation, _⟩ | ⟨field, isField, fits, _⟩
        · exact noEnd last isEnd operation
        · exact noField field isField fits

theorem accepted_kind (req : Request) (lines : List Bytes) (begun : req.kind ≠ .unset)
    (accepted : Accepted req lines) : (addLines req lines).2.kind = req.kind := by
  induction lines generalizing req with
  | nil => rfl
  | cons line rest ih =>
    obtain ⟨zero, later⟩ := (accepted_cons req line rest).mp accepted
    have kind : (afmpkgRequestAddLine req line).2.kind = req.kind := by
      cases (addLine_effect req line zero).2 with
      | begins value same first => exact absurd first begun
      | status value same first => exact absurd first begun
      | ends value same operation result => rw [result]
      | body key value same isBody begun kind => exact kind
    rw [addLines, ← kind]
    exact ih _ (by rw [kind]; exact begun) later

theorem operation_kind : ∀ operation ∈ operations, getOperationKind operation ≠ .unset := by decide

theorem getOperationKind_member (value : Bytes) (clean : 0 ∉ value) :
    getOperationKind value ≠ .unset ↔ value ∈ operations := by
  constructor
  · intro known
    contrapose! known
    simp only [operations, List.mem_cons, List.not_mem_nil, or_false, not_or] at known
    obtain ⟨add, remove, checkAdd, checkRemove⟩ := known
    rw [getOperationKind, cstr_of_no_nul value clean, if_neg add, if_neg remove, if_neg checkAdd,
      if_neg checkRemove]
  · exact operation_kind value

theorem getOperationKind_injective (first second : Bytes) (known : first ∈ operations)
    (known' : second ∈ operations) (same : getOperationKind first = getOperationKind second) :
    first = second := by
  have all : ∀ first ∈ operations, ∀ second ∈ operations,
      getOperationKind first = getOperationKind second → first = second := by decide
  exact all first known second known' same

theorem begin_accepted (operation : Bytes) (known : operation ∈ operations) :
    afmpkgRequestAddLine afmpkgRequestInit.2 (keyLine .BEGIN operation) =
      (0, { afmpkgRequestInit.2 with kind := getOperationKind operation }) := by
  rw [addLine_key _ rfl]
  simp only [addBegin]
  rw [if_neg (by decide), if_neg (operation_kind operation known)]

theorem complete_iff (lines : List Bytes) (clean : ∀ line ∈ lines, (0 : Byte) ∉ line) :
    Accepted afmpkgRequestInit.2 lines ∧ (addLines afmpkgRequestInit.2 lines).2.state = .ready ∧
      (addLines afmpkgRequestInit.2 lines).2.kind ≠ .unset ↔
    StatusRequest lines ∨ PackageRequest lines := by
  constructor
  · intro done
    obtain ⟨accepted, ready, known⟩ := done
    cases lines with
    | nil => exact absurd ready (by decide)
    | cons line rest =>
      have later : ∀ other ∈ rest, (0 : Byte) ∉ other :=
        fun other member => clean other (List.mem_cons_of_mem line member)
      obtain ⟨zero, tail⟩ := (accepted_cons _ line rest).mp accepted
      rw [addLines] at ready known
      cases (addLine_effect _ line zero).2 with
      | begins value same first kind result =>
        rw [result] at tail ready
        obtain ⟨fields, last, body, operation, shape⟩ := (remaining_iff (getOperationKind value) kind rest later _ []
          (filled_begin _) body_nil).mp ⟨tail, ready⟩
        have pure : (0 : Byte) ∉ value := by
          intro inside
          exact clean line List.mem_cons_self (by rw [same]; simp [keyLine, inside])
        have final : (0 : Byte) ∉ last := by
          intro inside
          exact later (keyLine .END last) (by rw [shape]; simp) (by simp [keyLine, inside])
        have opens := (getOperationKind_member value pure).mp kind
        have closes := (getOperationKind_member last final).mp (by rw [operation]; exact kind)
        rw [getOperationKind_injective last value closes opens operation] at shape
        exact Or.inr ⟨value, opens, fields, body, by rw [same, shape, List.cons_append]⟩
      | ends value same operation result =>
        rw [result] at tail known
        rw [(accepted_late _ (by simp) rest).mp tail] at known
        exact absurd rfl known
      | status value same first kind state =>
        have only := (accepted_late _ (by rw [state]; decide) rest).mp tail
        exact Or.inl ⟨value, by rw [same, only]⟩
      | body key value same isBody begun => exact absurd rfl begun
  · intro request
    rcases request with ⟨transid, same⟩ | ⟨operation, known, fields, body, same⟩
    · have result : afmpkgRequestAddLine afmpkgRequestInit.2 (keyLine .STATUS transid) =
          (0, { afmpkgRequestInit.2 with transid := some (cstr transid), kind := .getStatus, state := .ready }) :=
        addLine_key afmpkgRequestInit.2 rfl .STATUS transid
      rw [same, accepted_cons, addLines, addLines, result]
      exact ⟨⟨rfl, accepted_nil _⟩, rfl, by simp⟩
    · rw [same, List.cons_append]
      have kind := operation_kind operation known
      have later : ∀ line ∈ fields.map Field.line ++ [keyLine .END operation], (0 : Byte) ∉ line := by
        intro line member
        exact clean line (by rw [same]; exact List.mem_cons_of_mem _ member)
      obtain ⟨accepted, ready⟩ := (remaining_iff (getOperationKind operation) kind _ later _ []
        (filled_begin _) body_nil).mpr ⟨fields, operation, body, rfl, rfl⟩
      rw [accepted_cons, addLines, begin_accepted operation known]
      refine ⟨⟨rfl, accepted⟩, ready, ?_⟩
      have kept := accepted_kind _ _ (by exact kind) accepted
      simp only at kept ⊢
      rw [kept]
      exact kind

def sampleRequest : List Bytes :=
  [ascii "BEGIN ADD", ascii "INDEX 1", ascii "FILE /a", ascii "COUNT 2", ascii "END ADD"]

end AppManager.Afmpkg
