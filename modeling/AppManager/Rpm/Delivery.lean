import AppManager.Afmpkg.Connections
import AppManager.Afmpkg.RoundTrip
import AppManager.Rpm.Sets

/-! The messages of the plugin: what it sends for the record of a package, and the request
that the server makes of it. -/

namespace AppManager.Rpm
open AppManager.Lib AppManager.Lib.Libc AppManager.Afmpkg AppManager.Utils

/-- The texts of a package have no newline, and its message fits in the first buffer of
the client, whatever its numbers are. -/
structure Sendable (setting : Setting) (te : Element) : Prop where
  plainName : newline ∉ te.name.bytes
  plain : ∀ put ∈ putsOf setting te.files, newline ∉ put.field.2
  short : ∀ operation (index count : CInt), (linesText (messageLines operation
    (messageFields te.name index count (putsOf setting te.files)))).length < AFMPKG_CLIENT_BUFFER0_SIZE

theorem putsOf_given (setting : Setting) (files : List CString) :
    given ((putsOf setting files).map Put.field) .ROOT = setting.rootdir.map (·.bytes) ∧
      given ((putsOf setting files).map Put.field) .TRANSID = setting.transid.map (·.bytes) ∧
      given ((putsOf setting files).map Put.field) .REDPAKID = setting.redpakid.map (·.bytes) := by
  have none (key : Key) (other : key ≠ .FILE) :
      ((files.map Put.file).map Put.field).find? (fun field => field.1 = key) = none := by
    rw [List.find?_eq_none]
    intro field member
    obtain ⟨put, inside, rfl⟩ := List.mem_map.mp member
    obtain ⟨file, -, rfl⟩ := List.mem_map.mp inside
    exact fun same => other (of_decide_eq_true same).symm
  simp only [given, putsOf, List.map_append, List.find?_append, none .ROOT (by decide), none .TRANSID (by decide),
    none .REDPAKID (by decide)]
  cases setting.rootdir <;> cases setting.transid <;> cases setting.redpakid <;> simp [Put.field]

theorem itoa_digits (value : Int) (digits : Nat) (small : value.natAbs < 10 ^ (digits + 1)) :
    (itoa value).length ≤ digits + 1 := by
  induction digits generalizing value with
  | zero =>
    rw [itoa, if_pos (by rw [← Int.natAbs_eq_zero, Int.natAbs_tdiv]; exact Nat.div_eq_of_lt (by simpa using small))]
    exact le_rfl
  | succ digits ih =>
    rw [itoa]
    split_ifs
    · exact Nat.le_add_left 1 _
    · have rest := ih (value.tdiv 10) (by
        rw [Int.natAbs_tdiv]
        exact Nat.div_lt_of_lt_mul (by rw [Nat.pow_succ] at small; exact (Nat.mul_comm _ _) ▸ small))
      rw [List.length_append, List.length_singleton]
      omega

theorem cint_digits (value : CInt) : (itoa value.1).length ≤ 10 := by
  have low := value.2.1
  have high := value.2.2
  exact itoa_digits value.1 9 (by omega)

theorem sendable_of_length {setting : Setting} {te : Element} (plainName : newline ∉ te.name.bytes)
    (plain : ∀ put ∈ putsOf setting te.files, newline ∉ put.field.2)
    (few : te.name.bytes.length + ((putsOf setting te.files).map fun put => put.field.2.length + 10).sum ≤ 3900) :
    Sendable setting te := by
  refine ⟨plainName, plain, fun operation index count => ?_⟩
  have indexed := cint_digits index
  have counted := cint_digits count
  have named : (operationName operation).length ≤ 20 := by
    unfold operationName
    split_ifs <;> decide
  have keys (key : Key) : key.text.length ≤ 8 := by
    cases key <;> decide
  have lines (puts : List Put) : (linesText ((puts.map Put.field).map Field.line)).length ≤
      (puts.map fun put => put.field.2.length + 10).sum := by
    induction puts with
    | nil => exact le_rfl
    | cons put puts ih =>
      have key := keys put.field.1
      simp only [linesText, List.map_cons, List.flatten_cons, List.length_append, List.sum_cons, Field.line,
        keyLine, List.length_cons, List.length_nil] at ih ⊢
      omega
  have puts := lines (putsOf setting te.files)
  have one := keys .BEGIN
  have two := keys .PACKAGE
  have three := keys .INDEX
  have four := keys .COUNT
  have five := keys .END
  simp only [linesText, messageLines, messageFields, List.map_cons, List.map_append, List.cons_append, List.nil_append,
    List.flatten_cons, List.flatten_append, List.flatten_nil, List.length_append, List.length_cons, List.length_nil,
    List.map_nil, Field.line, keyLine] at puts ⊢
  unfold AFMPKG_CLIENT_BUFFER0_SIZE
  omega

section
variable {Ts : Type}

/-- A record that is numbered in its set. -/
structure Ready (record : Record Ts) : Prop where
  positive : 1 ≤ record.index
  ordered : record.index ≤ record.count
  small : record.count < 2 ^ 31
  filed : record.files = record.te.files

theorem cint_val {value : Nat} (small : value < 2 ^ 31) : (cint value).1 = value := toInt_of_small value small

def messageOf (setting : Setting) (operation : Int) (known : 0 ≤ operation ∧ operation ≤ 3) (record : Record Ts)
    (ready : Ready record) (sendable : Sendable setting record.te) : Message where
  operation := operation
  known := known
  packageName := record.te.name
  index := cint record.index
  count := cint record.count
  positive := by
    have positive := ready.positive
    rw [cint_val (ready.ordered.trans_lt ready.small)]
    omega
  ordered := by
    have ordered := ready.ordered
    rw [cint_val (ready.ordered.trans_lt ready.small), cint_val ready.small]
    omega
  puts := putsOf setting record.te.files
  once := putsOf_once setting record.te.files
  plainName := sendable.plainName
  plain := sendable.plain
  inMemory := (sendable.short _ _ _).trans (by decide)

theorem messageOf_paths (setting : Setting) (operation : Int) (known : 0 ≤ operation ∧ operation ≤ 3)
    (record : Record Ts) (ready : Ready record) (sendable : Sendable setting record.te) :
    (messageOf setting operation known record ready sendable).paths = record.te.files.map (·.bytes) := by
  have listed (path : Put → Option Bytes) (own : ∀ file, path (.file file) = some file.bytes) :
      (record.te.files.map Put.file).filterMap path = record.te.files.map (·.bytes) := by
    rw [List.filterMap_map, ← List.filterMap_eq_map]
    exact List.filterMap_congr fun file _ => own file
  rw [Message.paths, show (messageOf setting operation known record ready sendable).puts = putsOf setting record.te.files
    from rfl, putsOf, List.filterMap_append, listed _ fun _ => rfl]
  cases setting.rootdir <;> cases setting.transid <;> cases setting.redpakid <;> rfl

end

section
variable {Ts : Type}

/-- The request is that for a record. -/
structure Tells (setting : Setting) (operation : Int) (record : Record Ts) (req : Request) : Prop where
  state : req.state = .ready
  clear : req.scode = 0
  kind : req.kind = operationKind operation
  package : req.apkg.package = some record.te.name.bytes
  index : req.index = record.index
  count : req.count = record.count
  root : req.apkg.root = setting.rootdir.map (·.bytes)
  transid : req.transid = setting.transid.map (·.bytes)
  redpakid : req.apkg.redpakid = setting.redpakid.map (·.bytes)
  files : ∀ ref, req.apkg.files.Added ref ↔
    ∃ file ∈ record.te.files, ref = components file.bytes file.bytes.length

theorem performed_text (setting : Setting) {type : ElementType} (known : type ≠ .other) (onlycheck : Bool)
    {record : Record Ts} (ready : Ready record) (sendable : Sendable setting record.te) :
    (performedOn setting type onlycheck record).message = some (messageOf setting (getOperation type onlycheck)
      (getOperation_known type known onlycheck) record ready sendable).text := by
  have same : (messageOf setting (getOperation type onlycheck) (getOperation_known type known onlycheck) record ready
      sendable).text = recordText setting (getOperation type onlycheck) record := by
    rw [recordText, ready.filed]
    rfl
  have short : (recordText setting (getOperation type onlycheck) record).length < AFMPKG_CLIENT_BUFFER0_SIZE := by
    rw [← same]
    exact sendable.short _ _ _
  obtain ⟨text, sent, -, whole⟩ := performed_sent setting known onlycheck record (short.trans (by decide))
  rw [sent, whole short, same]
  rfl

theorem performed_told (setting : Setting) {type : ElementType} (known : type ≠ .other) (onlycheck : Bool)
    {record : Record Ts} (ready : Ready record) (sendable : Sendable setting record.te) :
    ∃ text, (performedOn setting type onlycheck record).message = some text ∧ text ≠ [] ∧
      ∀ connection : Connection, connection.Carries text →
        ∃ req, connection.turn = some ⟨connection.operations, connection.clock, req⟩ ∧
          Tells setting (getOperation type onlycheck) record req := by
  have operation := getOperation_known type known onlycheck
  let message := messageOf setting (getOperation type onlycheck) operation record ready sendable
  have short : message.text.length < AFMPKG_CLIENT_BUFFER0_SIZE := sendable.short _ _ _
  have plain := wholeLines_joined newline message.lines (message_plain message)
  have small : ∀ path ∈ message.paths, path.length < 2 ^ 32 := by
    intro path member
    have bound := paths_short message path member
    unfold AFMPKG_CLIENT_BUFFER0_SIZE at short
    omega
  have rebuilt := rebuilt_lines message small
  refine ⟨message.text, performed_text setting known onlycheck ready sendable, ?_, ?_⟩
  · rw [Message.text, Message.lines, messageLines, linesText]
    exact List.cons_ne_nil _ _
  · intro connection carries
    have turn := carries_turn carries (short.le.trans (by decide))
      (by rw [Message.text, linesText, plain]; exact rebuilt.accepted)
    rw [Message.text, linesText, plain] at turn
    obtain ⟨root, transid, redpakid⟩ := putsOf_given setting record.te.files
    have index := rebuilt.index
    have count := rebuilt.count
    rw [show message.index = cint record.index from rfl, cint_val (ready.ordered.trans_lt ready.small)] at index
    rw [show message.count = cint record.count from rfl, cint_val ready.small] at count
    refine ⟨_, turn, rebuilt.state, accepted_scode _ _ rebuilt.accepted, rebuilt.kind, rebuilt.package,
      Int.ofNat_inj.mp index, Int.ofNat_inj.mp count, rebuilt.root.trans root, rebuilt.transid.trans transid,
      rebuilt.redpakid.trans redpakid, ?_⟩
    intro ref
    rw [rebuilt.files, messageOf_paths setting _ operation record ready sendable]
    simp only [List.mem_map, exists_exists_and_eq_and]

end

end AppManager.Rpm
