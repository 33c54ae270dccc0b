import AppManager.Afmpkg.ClientDraft
import AppManager.Afmpkg.RequestGrammar
import AppManager.Lib.Decimal
import AppManager.Utils.PathAdding

/-! The message of a client, its lines, and the request that a server makes of them. -/

namespace AppManager.Afmpkg
open AppManager.Lib AppManager.Lib.Libc AppManager.Utils

/-- A call between the beginning and the end of a message. -/
inductive Put where
  | file (value : CString)
  | rootdir (value : CString)
  | transid (value : CString)
  | redpakid (value : CString)

def Put.call : Put → Call
  | .file value => .putFile value
  | .rootdir value => .putRootdir value
  | .transid value => .putTransid value
  | .redpakid value => .putRedpakid value

def Put.field : Put → Field
  | .file value => (.FILE, value.bytes)
  | .rootdir value => (.ROOT, value.bytes)
  | .transid value => (.TRANSID, value.bytes)
  | .redpakid value => (.REDPAKID, value.bytes)

def linesText (lines : List Bytes) : Bytes := (lines.map (· ++ [newline])).flatten

def messageFields (packageName : CString) (index count : CInt) (puts : List Put) : List Field :=
  [(.PACKAGE, packageName.bytes), (.INDEX, itoa index.1), (.COUNT, itoa count.1)] ++ puts.map Put.field

def messageLines (operation : Int) (fields : List Field) : List Bytes :=
  keyLine .BEGIN (operationName operation) :: fields.map Field.line ++ [keyLine .END (operationName operation)]

/-- What a client has to say of a package, in the order of its calls. The root, the
transaction and the redpak are given at most once, no text has a newline, and the whole
is an object in memory. -/
structure Message where
  operation : Int
  known : 0 ≤ operation ∧ operation ≤ 3
  packageName : CString
  index : CInt
  count : CInt
  positive : 1 ≤ index.1
  ordered : index.1 ≤ count.1
  puts : List Put
  once : ∀ key, key ≠ .FILE → ((puts.map Put.field).filter fun field => field.1 = key).length ≤ 1
  plainName : newline ∉ packageName.bytes
  plain : ∀ put ∈ puts, newline ∉ put.field.2
  inMemory : (linesText (messageLines operation (messageFields packageName index count puts))).length < 2 ^ 63

namespace Message

def fields (message : Message) : List Field :=
  messageFields message.packageName message.index message.count message.puts

def lines (message : Message) : List Bytes := messageLines message.operation message.fields

def text (message : Message) : Bytes := linesText message.lines

def calls (message : Message) : List Call :=
  .opening message.operation message.packageName message.index message.count ::
    message.puts.map Put.call ++ [.ending]

def paths (message : Message) : List Bytes :=
  message.puts.filterMap fun put => match put with
    | .file value => some value.bytes
    | _ => none

end Message

def operationKind (operation : Int) : RequestKind :=
  if operation = 0 then .addPackage
  else if operation = 1 then .removePackage
  else if operation = 2 then .checkAddPackage
  else .checkRemovePackage

/-- The request of the lines is the one of the message. -/
structure Rebuilt (message : Message) (lines : List Bytes) : Prop where
  accepted : Accepted afmpkgRequestInit.2 lines
  state : (addLines afmpkgRequestInit.2 lines).2.state = .ready
  kind : (addLines afmpkgRequestInit.2 lines).2.kind = operationKind message.operation
  package : (addLines afmpkgRequestInit.2 lines).2.apkg.package = some message.packageName.bytes
  index : ((addLines afmpkgRequestInit.2 lines).2.index : Int) = message.index.1
  count : ((addLines afmpkgRequestInit.2 lines).2.count : Int) = message.count.1
  root : (addLines afmpkgRequestInit.2 lines).2.apkg.root = given (message.puts.map Put.field) .ROOT
  transid : (addLines afmpkgRequestInit.2 lines).2.transid = given (message.puts.map Put.field) .TRANSID
  redpakid : (addLines afmpkgRequestInit.2 lines).2.apkg.redpakid = given (message.puts.map Put.field) .REDPAKID
  files : ∀ ref, (addLines afmpkgRequestInit.2 lines).2.apkg.files.Added ref ↔
    ∃ path ∈ message.paths, ref = components path path.length

theorem itoa_natCast (number : Nat) : itoa (number : Int) = decimalText (number : Int) := by
  induction number using Nat.strong_induction_on with
  | _ number ih =>
    have last : UInt8.ofNat (48 + (number : Int).tmod 10).toNat = digitByte (number % 10) := by
      rw [Int.tmod_eq_emod_of_nonneg (Int.natCast_nonneg number), digitByte]
      rfl
    have rest : (number : Int).tdiv 10 = ((number / 10 : Nat) : Int) := by
      rw [Int.tdiv_eq_ediv_of_nonneg (Int.natCast_nonneg number)]
      rfl
    rw [itoa, decimalText_step]
    simp only [last, rest]
    by_cases small : number < 10
    · rw [if_pos small, if_pos (by omega), Nat.mod_eq_of_lt small]
    · rw [if_neg small, if_neg (by omega), ih (number / 10) (by omega)]

theorem itoa_numbered (value : CInt) (positive : 1 ≤ value.1) :
    Numbered (itoa value.1) value.1.toNat ∧ newline ∉ itoa value.1 ∧ (0 : Byte) ∉ itoa value.1 := by
  obtain ⟨number, same⟩ := Int.eq_ofNat_of_zero_le (by omega : 0 ≤ value.1)
  have bound := value.2.2
  rw [same] at positive bound ⊢
  rw [itoa_natCast]
  refine ⟨?_, not_mem_decimalText _ (by decide) (by decide) _, not_mem_decimalText _ (by decide) (by decide) _⟩
  unfold Numbered
  rw [strtol_decimalText number (by unfold LONG_MAX; omega)]
  refine ⟨rfl, rfl, by omega, ?_⟩
  unfold UINT_MAX
  rw [Int.toNat_natCast]
  omega

theorem put_body (put : Put) : isBodyKey put.field.1 = true ∧ isTextKey put.field.1 = decide (put.field.1 ≠ .FILE) ∧
    put.field.1 ≠ .PACKAGE ∧ put.field.1 ≠ .INDEX ∧ put.field.1 ≠ .COUNT := by
  cases put with
  | _ => exact ⟨rfl, rfl, by simp [Put.field], by simp [Put.field], by simp [Put.field]⟩

theorem put_clean (put : Put) : (0 : Byte) ∉ put.field.2 := by
  cases put with
  | _ value => exact value.clean

theorem filter_puts (message : Message) (key : Key) (other : key = .PACKAGE ∨ key = .INDEX ∨ key = .COUNT) :
    (message.puts.map Put.field).filter (fun field => field.1 = key) = [] := by
  rw [List.filter_eq_nil_iff]
  intro field member
  obtain ⟨put, _, same⟩ := List.mem_map.mp member
  obtain ⟨_, _, package, index, count⟩ := put_body put
  rw [decide_eq_true_iff, ← same]
  rcases other with first | second | third
  · rw [first]
    exact package
  · rw [second]
    exact index
  · rw [third]
    exact count

theorem message_body (message : Message) : Body message.fields := by
  obtain ⟨index, _, _⟩ := itoa_numbered message.index message.positive
  obtain ⟨count, _, _⟩ := itoa_numbered message.count (message.positive.trans message.ordered)
  have later : ∀ field ∈ message.puts.map Put.field, isBodyKey field.1 = true ∧ field.1 ≠ .INDEX ∧ field.1 ≠ .COUNT := by
    intro field member
    obtain ⟨put, _, same⟩ := List.mem_map.mp member
    obtain ⟨body, _, _, noIndex, noCount⟩ := put_body put
    rw [← same]
    exact ⟨body, noIndex, noCount⟩
  have members : ∀ field ∈ message.fields, field = (.PACKAGE, message.packageName.bytes) ∨
      field = (.INDEX, itoa message.index.1) ∨ field = (.COUNT, itoa message.count.1) ∨
      field ∈ message.puts.map Put.field := by
    intro field member
    simpa only [Message.fields, messageFields, List.mem_append, List.mem_cons, List.not_mem_nil, or_false, or_assoc] using member
  refine ⟨?_, ?_, ?_, ?_⟩
  · intro field member
    rcases members field member with first | second | third | put
    · rw [first]
      rfl
    · rw [second]
      rfl
    · rw [third]
      rfl
    · exact (later field put).1
  · intro key proper
    by_cases named : key = .PACKAGE ∨ key = .INDEX ∨ key = .COUNT
    · rw [Message.fields, messageFields, List.filter_append, filter_puts message key named]
      rcases named with first | second | third
      · rw [first]
        exact le_refl 1
      · rw [second]
        exact le_refl 1
      · rw [third]
        exact le_refl 1
    · rw [not_or, not_or] at named
      have once := message.once key proper
      simpa [Message.fields, messageFields, Ne.symm named.1, Ne.symm named.2.1, Ne.symm named.2.2] using once
  · intro field member number
    rcases members field member with first | second | third | put
    · rw [first] at number
      exact absurd number (by simp)
    · rw [second]
      exact ⟨_, index⟩
    · rw [third]
      exact ⟨_, count⟩
    · exact absurd number (not_or.mpr ⟨(later field put).2.2, (later field put).2.1⟩)
  · intro countText indexText isCount isIndex
    have sameCount : countText = itoa message.count.1 := by
      rcases members _ isCount with first | second | third | put
      · cases first
      · cases second
      · exact congrArg Prod.snd third
      · exact absurd rfl (later _ put).2.2
    have sameIndex : indexText = itoa message.index.1 := by
      rcases members _ isIndex with first | second | third | put
      · cases first
      · exact congrArg Prod.snd second
      · cases third
      · exact absurd rfl (later _ put).2.1
    have ordered := message.ordered
    rw [sameCount, sameIndex, count.2.1, index.2.1]
    omega

def fileTree (fields : List Field) : PathTree :=
  fields.foldl (fun tree field =>
    if field.1 = .FILE then (pathEntryAddLength tree field.2 field.2.length).2 else tree) pathEntryCreateRoot

theorem fileTree_snoc (fields : List Field) (field : Field) :
    fileTree (fields ++ [field]) =
      if field.1 = .FILE then (pathEntryAddLength (fileTree fields) field.2 field.2.length).2
      else fileTree fields := by
  rw [fileTree, List.foldl_concat]
  rfl

/-- The request has the texts and the files of these lines. -/
structure Carries (req : Request) (fields : List Field) : Prop where
  text : ∀ key, isTextKey key = true → req.text key = given fields key
  files : req.apkg.files = fileTree fields

theorem addText_first {req : Request} {scode : Int} {msg : Bytes} {present : Option Bytes}
    {set : Bytes → Request} {line : Bytes} (negative : scode < 0)
    (zero : (addText req scode msg present set line).1 = 0) :
    present = none ∧ addText req scode msg present set line = (0, set (cstr line)) := by
  rcases addText_cases req scode msg present set line negative with ⟨_, first, result⟩ | ⟨_, rejects⟩
  · exact ⟨first, result⟩
  · exact absurd zero (rejects_not_zero rejects)

theorem carries_snoc {req : Request} {fields : List Field} (carries : Carries req fields) (pending : req.state = .pending)
    (field : Field) (key : isBodyKey field.1 = true) (clean : (0 : Byte) ∉ field.2)
    (accepted : (afmpkgRequestAddLine req field.line).1 = 0) :
    Carries (afmpkgRequestAddLine req field.line).2 (fields ++ [field]) := by
  obtain ⟨name, value⟩ := field
  have code := addLine_key req pending name value
  change afmpkgRequestAddLine req (Field.line (name, value)) = _ at code
  have kept : ∀ next : Request, next.apkg.files = req.apkg.files → (∀ other, next.text other = req.text other) →
      isTextKey name = false → name ≠ .FILE → Carries next (fields ++ [(name, value)]) := by
    intro next files texts noText noFile
    refine ⟨fun other isText => ?_, ?_⟩
    · rw [texts, given_other _ _ _ (by rintro rfl; exact absurd isText (by simp [noText]))]
      exact carries.text other isText
    · rw [files, fileTree_snoc, if_neg noFile]
      exact carries.files
  have taken : ∀ next : Request, next.apkg.files = req.apkg.files → req.text name = none →
      (∀ other, next.text other = if other = name then some (cstr value) else req.text other) →
      isTextKey name = true → name ≠ .FILE → Carries next (fields ++ [(name, value)]) := by
    intro next files first texts isText noFile
    refine ⟨fun other text => ?_, ?_⟩
    · rw [texts]
      by_cases same : other = name
      · rw [if_pos same, same, given_snoc, ← carries.text name isText, first, Option.none_or, if_pos rfl,
          cstr_of_no_nul value clean]
      · rw [if_neg same, given_other _ _ _ (Ne.symm same)]
        exact carries.text other text
    · rw [files, fileTree_snoc, if_neg noFile]
      exact carries.files
  cases name with
  | BEGIN | END | STATUS => cases key
  | COUNT | INDEX =>
    simp only [addCount, addIndex] at code
    rw [code] at accepted ⊢
    obtain ⟨_, number, result⟩ := addNumber_zero (by decide) accepted
    rw [result]
    exact kept _ rfl (fun other => by cases other <;> rfl) rfl (by decide)
  | FILE =>
    simp only [addFile] at code
    rw [code] at accepted ⊢
    by_cases early : req.kind = .unset
    · rw [if_pos early] at accepted
      exact absurd accepted (error_not_zero (by decide))
    · rw [if_neg early, if_neg (by simp [pathEntryAddLength])]
      refine ⟨fun other isText => ?_, ?_⟩
      · rw [given_other _ _ _ (by rintro rfl; cases isText), ← carries.text other isText]
        cases other <;> rfl
      · rw [fileTree_snoc, if_pos rfl, ← carries.files]
  | PACKAGE | REDPAKID | ROOT | TRANSID =>
    simp only [addPackage, addRedpakid, addRoot, addTransid] at code
    rw [code] at accepted ⊢
    obtain ⟨first, result⟩ := addText_first (by decide) accepted
    rw [result]
    exact taken _ rfl first (fun other => by cases other <;> rfl) rfl (by decide)

theorem body_carried (kind : RequestKind) (set : kind ≠ .unset) (fields : List Field) (body : Body fields)
    (clean : ∀ field ∈ fields, (0 : Byte) ∉ field.2) :
    Accepted { afmpkgRequestInit.2 with kind := kind } (fields.map Field.line) ∧
      Filled (addLines { afmpkgRequestInit.2 with kind := kind } (fields.map Field.line)).2 kind fields ∧
      Carries (addLines { afmpkgRequestInit.2 with kind := kind } (fields.map Field.line)).2 fields := by
  induction fields using List.reverseRecOn with
  | nil =>
    refine ⟨accepted_nil _, filled_begin kind, ⟨fun key isText => ?_, rfl⟩⟩
    cases key with
    | PACKAGE | REDPAKID | ROOT | TRANSID => rfl
    | _ => cases isText
  | append_singleton fields field ih =>
    obtain ⟨before, fits⟩ := body_of_snoc fields field body
    obtain ⟨accepted, filled, carries⟩ := ih before (fun other member => clean other (List.mem_append_left _ member))
    have pure := clean field (by simp)
    obtain ⟨request, iff⟩ := addLines_snoc { afmpkgRequestInit.2 with kind := kind } (fields.map Field.line) field.line
    rw [List.map_append, List.map_singleton, request, iff]
    rcases taken_field filled set before field fits.key pure with ⟨_, zero, next⟩ | ⟨unfit, _⟩
    · exact ⟨⟨accepted, zero⟩, next, carries_snoc carries filled.state field fits.key pure zero⟩
    · exact absurd fits unfit

theorem added_fileTree (fields : List Field) (small : ∀ field ∈ fields, field.1 = .FILE → field.2.length < 2 ^ 32)
    (ref : Ref) : (fileTree fields).Added ref ↔
      ∃ field ∈ fields, field.1 = .FILE ∧ ref = components field.2 field.2.length := by
  induction fields using List.reverseRecOn with
  | nil => exact iff_of_false (not_added_root ref) (by simp)
  | append_singleton fields field ih =>
    have before := ih fun other member => small other (List.mem_append_left _ member)
    rw [fileTree_snoc]
    by_cases file : field.1 = .FILE
    · rw [if_pos file, added_addLength, Nat.mod_eq_of_lt (small field (by simp) file), before]
      simp only [List.mem_append, List.mem_singleton, or_and_right, exists_or, exists_eq_left, file, true_and]
      exact or_comm
    · rw [if_neg file, before]
      simp only [List.mem_append, List.mem_singleton, or_and_right, exists_or, exists_eq_left, file, false_and, or_false]

theorem mem_paths (message : Message) (path : Bytes) :
    path ∈ message.paths ↔ (.FILE, path) ∈ message.fields := by
  simp only [Message.paths, Message.fields, messageFields, List.mem_filterMap, List.mem_append, List.mem_cons, Prod.mk.injEq,
    reduceCtorEq, false_and, List.not_mem_nil, or_false, false_or, List.mem_map]
  constructor
  · intro found
    obtain ⟨put, member, same⟩ := found
    refine ⟨put, member, ?_⟩
    cases put with
    | file value => rw [Put.field, Option.some.inj same]
    | _ => cases same
  · intro found
    obtain ⟨put, member, same⟩ := found
    refine ⟨put, member, ?_⟩
    cases put with
    | file value => exact congrArg some (Prod.mk.inj same).2
    | _ => cases same

theorem given_puts (message : Message) (key : Key) (other : key ≠ .PACKAGE ∧ key ≠ .INDEX ∧ key ≠ .COUNT) :
    given message.fields key = given (message.puts.map Put.field) key := by
  simp only [given, Message.fields, messageFields, messageFields, List.cons_append, List.nil_append, List.find?_cons,
    decide_eq_false other.1.symm,
    decide_eq_false other.2.1.symm, decide_eq_false other.2.2.symm]

theorem operation_named (message : Message) : operationName message.operation ∈ operations ∧
    getOperationKind (operationName message.operation) = operationKind message.operation := by
  have range := message.known
  have cases : message.operation = 0 ∨ message.operation = 1 ∨ message.operation = 2 ∨ message.operation = 3 := by
    omega
  rcases cases with add | remove | checkAdd | checkRemove
  · rw [add]
    decide
  · rw [remove]
    decide
  · rw [checkAdd]
    decide
  · rw [checkRemove]
    decide

theorem message_clean (message : Message) : ∀ field ∈ message.fields, (0 : Byte) ∉ field.2 := by
  intro field member
  simp only [Message.fields, messageFields, List.mem_append, List.mem_cons, List.not_mem_nil, or_false, List.mem_map] at member
  rcases member with (first | second | third) | ⟨put, _, same⟩
  · rw [first]
    exact message.packageName.clean
  · rw [second]
    exact (itoa_numbered message.index message.positive).2.2
  · rw [third]
    exact (itoa_numbered message.count (message.positive.trans message.ordered)).2.2
  · rw [← same]
    exact put_clean put

theorem numberOf_given {fields : List Field} {key : Key} {value : CInt} (positive : 1 ≤ value.1)
    (found : given fields key = some (itoa value.1)) : (numberOf fields key : Int) = value.1 := by
  obtain ⟨numbered, -, -⟩ := itoa_numbered value positive
  rw [numberOf, found]
  simp only [numbered.2.1]
  omega

theorem carried_files {message : Message} {req : Request} (carries : Carries req message.fields)
    (small : ∀ path ∈ message.paths, path.length < 2 ^ 32) (ref : Ref) :
    req.apkg.files.Added ref ↔ ∃ path ∈ message.paths, ref = components path path.length := by
  have short : ∀ field ∈ message.fields, field.1 = .FILE → field.2.length < 2 ^ 32 := by
    intro field member file
    apply small
    rw [mem_paths, ← file]
    exact member
  rw [carries.files, added_fileTree message.fields short]
  constructor
  · intro found
    obtain ⟨field, member, file, same⟩ := found
    refine ⟨field.2, ?_, same⟩
    rw [mem_paths, ← file]
    exact member
  · intro found
    obtain ⟨path, member, same⟩ := found
    exact ⟨(.FILE, path), (mem_paths message path).mp member, rfl, same⟩

theorem rebuilt_lines (message : Message) (small : ∀ path ∈ message.paths, path.length < 2 ^ 32) :
    Rebuilt message message.lines := by
  obtain ⟨known, kind⟩ := operation_named message
  have set : operationKind message.operation ≠ .unset := kind ▸ operation_kind _ known
  obtain ⟨accepted, filled, carries⟩ := body_carried (operationKind message.operation) set message.fields
    (message_body message) (message_clean message)
  have begins := begin_accepted (operationName message.operation) known
  rw [kind] at begins
  obtain ⟨request, iff⟩ := addLines_snoc { afmpkgRequestInit.2 with kind := operationKind message.operation }
    (message.fields.map Field.line) (keyLine .END (operationName message.operation))
  have ends : afmpkgRequestAddLine (addLines { afmpkgRequestInit.2 with kind := operationKind message.operation }
      (message.fields.map Field.line)).2 (keyLine .END (operationName message.operation)) =
      (0, { (addLines { afmpkgRequestInit.2 with kind := operationKind message.operation }
        (message.fields.map Field.line)).2 with state := .ready }) :=
    end_accepted filled.state (filled.kind.trans kind.symm)
  have whole : (addLines afmpkgRequestInit.2 message.lines).2 =
      { (addLines { afmpkgRequestInit.2 with kind := operationKind message.operation }
        (message.fields.map Field.line)).2 with state := .ready } := by
    rw [Message.lines, messageLines, List.cons_append, addLines, begins]
    simp only
    rw [request, ends]
  refine ⟨?_, ?_, ?_, ?_, ?_, ?_, ?_, ?_, ?_, ?_⟩
  · rw [Message.lines, messageLines, List.cons_append, accepted_cons, begins, iff, ends]
    exact ⟨rfl, accepted, rfl⟩
  · rw [whole]
  · rw [whole]
    exact filled.kind
  · rw [whole]
    exact carries.text .PACKAGE rfl
  · rw [whole]
    change ((addLines _ _).2.number .INDEX : Int) = _
    rw [filled.number .INDEX (Or.inr rfl)]
    exact numberOf_given message.positive rfl
  · rw [whole]
    change ((addLines _ _).2.number .COUNT : Int) = _
    rw [filled.number .COUNT (Or.inl rfl)]
    exact numberOf_given (message.positive.trans message.ordered) rfl
  · rw [whole, ← given_puts message .ROOT (by decide)]
    exact carries.text .ROOT rfl
  · rw [whole, ← given_puts message .TRANSID (by decide)]
    exact carries.text .TRANSID rfl
  · rw [whole, ← given_puts message .REDPAKID (by decide)]
    exact carries.text .REDPAKID rfl
  · have carried := carried_files carries small
    rw [whole]
    exact carried

end AppManager.Afmpkg
