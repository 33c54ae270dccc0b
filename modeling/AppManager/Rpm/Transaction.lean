import AppManager.Rpm.Delivery
import Mathlib.Data.List.Forall2

/-! A whole transaction of packages, from the calls of the plugin to the operations of the
server and the status that it reports. The calls for other sets of the plugin and the
requests of other clients come in between. -/

namespace AppManager.Rpm
open AppManager.Lib AppManager.Lib.Libc AppManager.Afmpkg AppManager.Utils

section
variable {Ts State : Type} [DecidableEq Ts] (ts : Ts)

theorem forEachRecord_all {P : Record Ts → Prop} (callback : Record Ts → State → (Bool × Record Ts) × State)
    (keeps : ∀ record closure, P record → P (callback record closure).1.2) {records : List (Record Ts)}
    (all : ∀ record ∈ records, P record) (closure : State) :
    ∀ record ∈ (forEachRecord ts (some callback) records closure).1, P record := by
  induction records generalizing closure with
  | nil => exact all
  | cons it next ih =>
    obtain ⟨here, rest⟩ := List.forall_mem_cons.mp all
    rw [forEachRecord]
    split_ifs
    · exact List.forall_mem_cons.mpr ⟨here, ih rest closure⟩
    · dsimp only
      split_ifs
      · exact ih rest _
      · exact List.forall_mem_cons.mpr ⟨keeps it closure here, ih rest _⟩

end

section
variable {Ts : Type}

def Filed (record : Record Ts) : Prop := record.files = record.te.files

theorem number_filed (type : ElementType) (record : Record Ts) (idx : Nat) (filed : Filed record) :
    Filed (numberType type record idx).1.2 := by
  unfold numberType
  split_ifs <;> exact filed

theorem perform_filed (setting : Setting) (type : ElementType) (onlycheck : Bool) (record : Record Ts)
    (progress : Progress Ts) (filed : Filed record) : Filed (perform setting type onlycheck record progress).1.2 := by
  unfold perform
  dsimp only
  split_ifs <;> exact filed

variable [DecidableEq Ts] (ts : Ts)

theorem numberedRecords_filed (garbage : Nat) (elements : List Element) {records : List (Record Ts)}
    (filed : ∀ record ∈ records, Filed record) : ∀ record ∈ numberedRecords ts garbage elements records, Filed record := by
  have added : ∀ record ∈ (addRecords ts garbage elements (records, 0)).1, Filed record := by
    rw [addRecords_eq]
    intro record member
    rcases List.mem_append.mp member with new | old
    · obtain ⟨te, -, rfl⟩ := List.mem_map.mp (List.mem_reverse.mp new)
      exact rfl
    · exact filed record old
  have counted := forEachRecord_all ts numberCount (fun record count here => here) added
    (addRecords ts garbage elements (records, 0)).2
  have removes := forEachRecord_all ts (@numberRemoves Ts) (number_filed .removed) counted 0
  exact forEachRecord_all ts (@numberAdds Ts) (number_filed .added) removes _

theorem tsmStep_filed {records : List (Record Ts)} (filed : ∀ record ∈ records, Filed record) (call : TsmCall Ts) :
    ∀ record ∈ (tsmStep records call).1, Filed record := by
  cases call with
  | pre ts setting elements =>
    have numbered := numberedRecords_filed ts setting.garbage elements filed
    have performs (onlycheck : Bool) := forEachRecord_all ts (perform setting .removed onlycheck)
      (perform_filed setting .removed onlycheck) numbered ⟨[], RPMRC_OK⟩
    rw [tsmStep, tsmPreCb]
    cases setting.flags.test <;> cases setting.flags.nopreun
    · exact performs false
    · exact numbered
    · exact performs true
    · exact performs true
  | post ts setting res =>
    have performs (onlycheck : Bool) := forEachRecord_all ts (perform setting .added onlycheck)
      (perform_filed setting .added onlycheck) filed ⟨[], RPMRC_OK⟩
    intro record member
    rw [tsmStep, tsmPostCb, forEachRecord_none] at member
    have inside := List.mem_of_mem_filter member
    clear member
    split_ifs at inside
    · revert inside
      cases setting.flags.test <;> cases setting.flags.nopost
      · exact performs false record
      · exact filed record
      · exact performs true record
      · exact performs true record
    · exact filed record inside

theorem recordsAfter_filed (calls : List (TsmCall Ts)) : ∀ record ∈ recordsAfter calls, Filed record := by
  induction calls using List.reverseRecOn with
  | nil => exact fun record member => (List.not_mem_nil member).elim
  | append_singleton calls call ih =>
    rw [recordsAfter_snoc]
    exact tsmStep_filed ih call

theorem recordsAfter_apart {calls middle : List (TsmCall Ts)} (alternating : Alternating (calls ++ middle))
    (apart : ∀ call ∈ middle, call.ts ≠ ts) : ofSet ts (recordsAfter (calls ++ middle)) = ofSet ts (recordsAfter calls) := by
  induction middle using List.reverseRecOn with
  | nil => rw [List.append_nil]
  | append_singleton middle call ih =>
    have shorter : Alternating (calls ++ middle) := by
      intro before other after split
      exact alternating before other (after ++ [call]) (by rw [← List.append_assoc, split, List.append_assoc, List.cons_append])
    have away : ts ≠ call.ts := (apart call (by simp)).symm
    have turn : InTurn (calls ++ middle) call := alternating _ call [] (by rw [List.append_assoc])
    have kept := (call_kept (calls ++ middle) call (recorded_run _ shorter) turn).1
    have isolated : Isolated call.ts (recordsAfter (calls ++ middle)) (tsmStep (recordsAfter (calls ++ middle)) call) := by
      cases call with
      | pre other setting elements => exact kept.isolated
      | post other setting res =>
        obtain ⟨elements, -, post⟩ := kept
        exact post.isolated
    rw [← List.append_assoc, recordsAfter_snoc, ofSet_isolated call.ts ts away _ _ isolated]
    exact ih shorter fun other member => apart other (List.mem_append_left _ member)

/-- The packages of the set are all processed: neither the transaction nor its steps are only tested. -/
structure Whole (elements : List Element) (pre post : Setting) (before middle : List (TsmCall Ts)) : Prop where
  alternating : Alternating (before ++ .pre ts pre elements :: (middle ++ [.post ts post RPMRC_OK]))
  apart : ∀ call ∈ middle, call.ts ≠ ts
  removes : pre.flags.test = false ∧ pre.flags.nopreun = false
  adds : post.flags.test = false ∧ post.flags.nopost = false
  few : elements.length < 2 ^ 31

def performedBy (elements : List Element) (pre post : Setting) (before middle : List (TsmCall Ts)) : List (Performed Ts) :=
  (tsmStep (recordsAfter before) (.pre ts pre elements)).2 ++
    (tsmStep (recordsAfter (before ++ .pre ts pre elements :: middle)) (.post ts post RPMRC_OK)).2

/-- The records of a set are those of its packages, numbered from one on. -/
structure Enumerates (elements : List Element) (removed added : List (Record Ts)) : Prop where
  kinds : (∀ record ∈ removed, record.type = .removed) ∧ ∀ record ∈ added, record.type = .added
  removes : removed.map Record.te = (elementsOf .removed elements).reverse
  adds : added.map Record.te = (elementsOf .added elements).reverse
  indexed : ((removed ++ added).map Record.index).Perm (List.range' 1 (removed ++ added).length)
  ordered : ∀ first ∈ removed, ∀ second ∈ added, first.index < second.index
  counted : ∀ record ∈ removed ++ added, record.count = (removed ++ added).length
  filed : ∀ record ∈ removed ++ added, Filed record

theorem numbered_enumerates {elements : List Element} {records : List (Record Ts)} (numbered : Numbered ts elements records)
    (filed : ∀ record ∈ records, Filed record) :
    Enumerates elements ((ofSet ts records).filter (hasType .removed)) ((ofSet ts records).filter (hasType .added)) := by
  have kinds : ∀ record ∈ ofSet ts records, record.type = .removed ∨ record.type = .added := by
    intro record member
    have inside := List.mem_map_of_mem (f := fun record : Record Ts => (record.type, record.te)) member
    rw [numbered.packages, List.mem_reverse] at inside
    obtain ⟨te, package, same⟩ := List.mem_map.mp inside
    have kind : isPackage te = true := List.of_mem_filter package
    rw [← (Prod.mk.inj same).1]
    cases type : te.type with
    | added => exact Or.inr rfl
    | removed => exact Or.inl rfl
    | other => simp [isPackage, type] at kind
  have rest : ((ofSet ts records).filter fun record => !hasType .removed record) =
      (ofSet ts records).filter (hasType .added) := by
    apply List.filter_congr
    intro record member
    rcases kinds record member with removed | added
    · simp [hasType, removed]
    · simp [hasType, added]
  have split := List.filter_append_perm (hasType .removed) (ofSet ts records)
  rw [rest] at split
  have typed (type : ElementType) (record : Record Ts) (member : record ∈ (ofSet ts records).filter (hasType type)) :
      record.type = type := of_decide_eq_true (List.mem_filter.mp member).2
  refine ⟨⟨typed .removed, typed .added⟩, numbered_te ts elements records numbered .removed (by decide),
    numbered_te ts elements records numbered .added (by decide), ?_, ?_, ?_, ?_⟩
  · rw [split.length_eq]
    exact (split.map Record.index).trans numbered.indexed
  · intro first member second member'
    exact numbered.ordered first (List.mem_of_mem_filter member) second (List.mem_of_mem_filter member')
      (typed .removed first member) (typed .added second member')
  · intro record member
    rw [split.length_eq]
    exact numbered.counted record (split.mem_iff.mp member)
  · intro record member
    exact filed record (List.mem_of_mem_filter (split.mem_iff.mp member))

theorem performedBy_records {elements : List Element} {pre post : Setting} {before middle : List (TsmCall Ts)}
    (whole : Whole ts elements pre post before middle) :
    ∃ removed added, Enumerates elements removed added ∧
      performedBy ts elements pre post before middle =
        removed.map (performedOn pre .removed false) ++ added.map (performedOn post .added false) := by
  have earlier {calls call after} (split : before ++ .pre ts pre elements :: (middle ++ [.post ts post RPMRC_OK]) =
      calls ++ call :: after) : Alternating calls := by
    intro first other rest same
    exact whole.alternating first other (rest ++ call :: after) (by rw [split, same, List.append_assoc, List.cons_append])
  have empty : ofSet ts (recordsAfter before) = [] :=
    (recorded_run before (earlier rfl) ts).2 (whole.alternating before _ _ rfl)
  have numbered := numberedRecords_spec ts pre.garbage elements (recordsAfter before) empty
  have filed := numberedRecords_filed ts pre.garbage elements (recordsAfter_filed before)
  refine ⟨_, _, numbered_enumerates ts numbered filed, ?_⟩
  obtain ⟨left, -, performed⟩ := forEachRecord_perform ts pre .removed false
    (numberedRecords ts pre.garbage elements (recordsAfter before)) ⟨[], RPMRC_OK⟩
  have first : tsmStep (recordsAfter before) (.pre ts pre elements) =
      ((forEachRecord ts (some (perform pre .removed false))
        (numberedRecords ts pre.garbage elements (recordsAfter before)) ⟨[], RPMRC_OK⟩).1,
        ((ofSet ts (numberedRecords ts pre.garbage elements (recordsAfter before))).filter
          (hasType .removed)).map (performedOn pre .removed false)) := by
    rw [tsmStep, tsmPreCb, whole.removes.1, whole.removes.2]
    exact congrArg (Prod.mk _) performed
  have waiting : ofSet ts (recordsAfter (before ++ .pre ts pre elements :: middle)) =
      (ofSet ts (numberedRecords ts pre.garbage elements (recordsAfter before))).filter
        fun record => !hasType .removed record := by
    have split : before ++ .pre ts pre elements :: middle = (before ++ [.pre ts pre elements]) ++ middle := by simp
    have shorter : Alternating ((before ++ [.pre ts pre elements]) ++ middle) :=
      earlier (by rw [← split, List.append_assoc, List.cons_append])
    rw [split, recordsAfter_apart ts shorter whole.apart, recordsAfter_snoc, first]
    exact left
  obtain ⟨-, -, last⟩ := forEachRecord_perform ts post .added false
    (recordsAfter (before ++ .pre ts pre elements :: middle)) ⟨[], RPMRC_OK⟩
  have second : (tsmStep (recordsAfter (before ++ .pre ts pre elements :: middle)) (.post ts post RPMRC_OK)).2 =
      ((ofSet ts (numberedRecords ts pre.garbage elements (recordsAfter before))).filter (hasType .added)).map
        (performedOn post .added false) := by
    rw [tsmStep, tsmPostCb, if_pos rfl, whole.adds.1, whole.adds.2]
    refine last.trans ?_
    rw [waiting, List.nil_append, List.filter_filter]
    congr 1
    apply List.filter_congr
    intro record _
    by_cases added : record.type = .added
    · simp [hasType, added]
    · simp [hasType, added]
  rw [performedBy, first, second]

end

section
variable {Ts : Type}

/-- Each record of a transaction, with what the call that performs it meets. -/
def owners (pre post : Setting) (removed added : List (Record Ts)) : List (Setting × Record Ts) :=
  removed.map (Prod.mk pre) ++ added.map (Prod.mk post)

/-- The server does the operation of a record, whatever its table is. -/
def Fulfils (setting : Setting) (record : Record Ts) (connection : Connection) : Prop :=
  ∃ req, Tells setting (getOperation record.type false) record req ∧
    connection.turn = some ⟨connection.operations, connection.clock, req⟩ ∧
    ∀ transactions, (connection.serve transactions).actions =
      [if record.type = .added then .install req.apkg else .uninstall req.apkg, .sighupAll]

theorem packages_length (elements : List Element) :
    (elementsOf .removed elements).length + (elementsOf .added elements).length = (elements.filter isPackage).length := by
  induction elements with
  | nil => rfl
  | cons te elements ih =>
    obtain ⟨type, name, files⟩ := te
    simp only [elementsOf, ← List.countP_eq_length_filter, List.countP_cons] at ih ⊢
    cases type <;> simp only [isPackage, reduceCtorEq, decide_false, decide_true, ne_eq, not_true_eq_false,
      not_false_eq_true, Bool.false_eq_true, if_false, if_true] at ih ⊢ <;> omega

theorem Enumerates.length {elements : List Element} {removed added : List (Record Ts)}
    (enumerates : Enumerates elements removed added) : (removed ++ added).length = (elements.filter isPackage).length := by
  have removes := congrArg List.length enumerates.removes
  have adds := congrArg List.length enumerates.adds
  rw [List.length_map, List.length_reverse] at removes adds
  rw [List.length_append, removes, adds, packages_length]

theorem Enumerates.ready {elements : List Element} {removed added : List (Record Ts)}
    (enumerates : Enumerates elements removed added) (few : elements.length < 2 ^ 31) {record : Record Ts}
    (member : record ∈ removed ++ added) : Ready record := by
  have index := enumerates.indexed.mem_iff.mp (List.mem_map_of_mem (f := Record.index) member)
  have count := enumerates.counted record member
  have bound : (elements.filter isPackage).length ≤ elements.length := List.length_filter_le _ _
  rw [← enumerates.length] at bound
  rw [List.mem_range'_1] at index
  exact ⟨index.1, by omega, by omega, enumerates.filed record member⟩

theorem told_operation {setting : Setting} {record : Record Ts} (known : record.type ≠ .other) {req : Request}
    (tells : Tells setting (getOperation record.type false) record req) : isOperation req.kind := by
  rw [tells.kind]
  cases type : record.type with
  | other => exact (known type).elim
  | added => exact Or.inl rfl
  | removed => exact Or.inr rfl

theorem told_fulfils {setting : Setting} {record : Record Ts} (known : record.type ≠ .other) {connection : Connection}
    {req : Request} (turn : connection.turn = some ⟨connection.operations, connection.clock, req⟩)
    (tells : Tells setting (getOperation record.type false) record req) : Fulfils setting record connection := by
  refine ⟨req, tells, turn, fun transactions => ?_⟩
  have going : 0 ≤ connection.received.rc ∧ connection.received.req = req := by
    rw [Connection.turn] at turn
    split_ifs at turn with going
    exact ⟨going, congrArg Turn.req (Option.some.inj turn)⟩
  obtain ⟨going, rfl⟩ := going
  have kept : (afmpkgRequestProcess connection.operations connection.clock transactions connection.received.req).req.kind =
      connection.received.req.kind := process_kind _ _ _ _ (told_operation known tells)
  unfold Connection.serve afmpkgServe
  rw [← Connection.received]
  dsimp only
  rw [if_pos going]
  dsimp only
  rw [process_actions, kept, tells.kind]
  cases type : record.type with
  | other => exact (known type).elim
  | added => rfl
  | removed => rfl

def performedFor (owner : Setting × Record Ts) : Performed Ts := performedOn owner.1 owner.2.type false owner.2

/-- The packages of a set can be told in messages. -/
structure AllSendable (elements : List Element) (pre post : Setting) : Prop where
  removes : ∀ te ∈ elementsOf .removed elements, Sendable pre te
  adds : ∀ te ∈ elementsOf .added elements, Sendable post te

theorem mem_owners {elements : List Element} {pre post : Setting} {removed added : List (Record Ts)}
    (enumerates : Enumerates elements removed added) {owner : Setting × Record Ts}
    (member : owner ∈ owners pre post removed added) :
    owner.2.type ≠ .other ∧ owner.2 ∈ removed ++ added ∧
      (owner.1 = pre ∧ owner.2.te ∈ elementsOf .removed elements ∨
        owner.1 = post ∧ owner.2.te ∈ elementsOf .added elements) := by
  rcases List.mem_append.mp member with inside | inside
  · obtain ⟨record, here, rfl⟩ := List.mem_map.mp inside
    have te := List.mem_map_of_mem (f := Record.te) here
    rw [enumerates.removes, List.mem_reverse] at te
    exact ⟨by rw [enumerates.kinds.1 record here]; decide, List.mem_append_left _ here, Or.inl ⟨rfl, te⟩⟩
  · obtain ⟨record, here, rfl⟩ := List.mem_map.mp inside
    have te := List.mem_map_of_mem (f := Record.te) here
    rw [enumerates.adds, List.mem_reverse] at te
    exact ⟨by rw [enumerates.kinds.2 record here]; decide, List.mem_append_right _ here, Or.inr ⟨rfl, te⟩⟩

theorem owner_told {elements : List Element} {pre post : Setting} (sendable : AllSendable elements pre post)
    (few : elements.length < 2 ^ 31) {removed added : List (Record Ts)} (enumerates : Enumerates elements removed added)
    {owner : Setting × Record Ts} (member : owner ∈ owners pre post removed added) :
    ∃ text, (performedFor owner).message = some text ∧ text ≠ [] ∧
      ∀ connection : Connection, connection.Carries text → Fulfils owner.1 owner.2 connection := by
  obtain ⟨kind, inside, origin⟩ := mem_owners enumerates member
  have fits : Sendable owner.1 owner.2.te := by
    rcases origin with ⟨setting, te⟩ | ⟨setting, te⟩
    · exact setting ▸ sendable.removes _ te
    · exact setting ▸ sendable.adds _ te
  obtain ⟨text, made, filled, served⟩ := performed_told owner.1 kind false (enumerates.ready few inside) fits
  refine ⟨text, made, filled, fun connection carries => ?_⟩
  obtain ⟨req, turn, tells⟩ := served connection carries
  exact told_fulfils kind turn tells

/-- A connection that the message of a record comes through. -/
def Through (connection : Connection) (performed : Performed Ts) : Prop :=
  ∃ text, performed.message = some text ∧ connection.Carries text

/-- What comes through for a package is an operation of its transaction, with the count of the packages. -/
theorem owner_operates {elements : List Element} {pre post : Setting} (sendable : AllSendable elements pre post)
    (few : elements.length < 2 ^ 31) {removed added : List (Record Ts)} (enumerates : Enumerates elements removed added)
    {transid : CString} (named : pre.transid = some transid ∧ post.transid = some transid)
    {owner : Setting × Record Ts} (member : owner ∈ owners pre post removed added) {connection : Connection}
    (through : Through connection (performedFor owner)) :
    ∃ turn, connection.turn = some turn ∧ turn.operates transid.bytes = true ∧
      turn.req.count = (elements.filter isPackage).length := by
  obtain ⟨text, made, carries⟩ := through
  obtain ⟨text', made', -, served⟩ := owner_told sendable few enumerates member
  obtain rfl := Option.some.inj (made.symm.trans made')
  obtain ⟨req, tells, turn, -⟩ := served connection carries
  obtain ⟨kind, record, origin⟩ := mem_owners enumerates member
  have given : owner.1.transid = some transid := by
    rcases origin with ⟨setting, -⟩ | ⟨setting, -⟩
    · exact setting ▸ named.1
    · exact setting ▸ named.2
  have count := enumerates.counted owner.2 record
  rw [enumerates.length] at count
  refine ⟨_, turn, (operates_iff _ _).mpr ⟨told_operation kind tells, tells.transid.trans ?_⟩, ?_⟩
  · rw [given]
    rfl
  · exact tells.count.trans count

variable [DecidableEq Ts] (ts : Ts)

theorem performedBy_owners {elements : List Element} {pre post : Setting} {before middle : List (TsmCall Ts)}
    (whole : Whole ts elements pre post before middle) :
    ∃ removed added, Enumerates elements removed added ∧
      performedBy ts elements pre post before middle = (owners pre post removed added).map performedFor := by
  obtain ⟨removed, added, enumerates, performed⟩ := performedBy_records ts whole
  refine ⟨removed, added, enumerates, ?_⟩
  rw [performed, owners, List.map_append, List.map_map, List.map_map]
  congr 1
  · exact List.map_congr_left fun record member => by rw [Function.comp_apply, performedFor, enumerates.kinds.1 record member]
  · exact List.map_congr_left fun record member => by rw [Function.comp_apply, performedFor, enumerates.kinds.2 record member]

end

def namedQuiet : Setting := { quiet with transid := some ⟨ascii "t", by decide, by decide⟩ }

def sampleElements : List Element := [element .removed, element .added]

def sampleMiddle : List (TsmCall Nat) := [.pre 1 quiet [element .added]]

theorem sample_whole : Whole 0 sampleElements namedQuiet namedQuiet [] sampleMiddle := by
  have none (ts : Nat) (elements : List Element) : ¬Pending ts elements [] := since_nil _ _
  refine ⟨?_, by decide, ⟨rfl, rfl⟩, ⟨rfl, rfl⟩, by decide⟩
  refine alternating_snoc [_, _] _ (alternating_snoc [_] _ (alternating_snoc [] _ alternating_nil ?_) ?_) ?_
  · rintro ⟨elements, pending⟩
    exact none 0 elements pending
  · rintro ⟨elements, pending⟩
    rcases (pending_snoc 1 elements [] _).mp pending with ⟨setting, same⟩ | ⟨before, -⟩
    · cases same
    · exact none 1 elements before
  · exact ⟨_, [], _, [_], rfl, ⟨namedQuiet, rfl⟩, by simp [TsmCall.ts]⟩

theorem sample_sendable : AllSendable sampleElements namedQuiet namedQuiet := by
  have each (type : ElementType) : Sendable namedQuiet (element type) :=
    sendable_of_length (show newline ∉ (element .added).name.bytes by decide)
      (show ∀ put ∈ putsOf namedQuiet (element .added).files, newline ∉ put.field.2 by decide)
      (show (element .added).name.bytes.length +
        ((putsOf namedQuiet (element .added).files).map fun put => put.field.2.length + 10).sum ≤ 3900 by decide)
  constructor
  · intro te member
    obtain rfl := List.mem_singleton.mp (show te ∈ [element .removed] from member)
    exact each .removed
  · intro te member
    obtain rfl := List.mem_singleton.mp (show te ∈ [element .added] from member)
    exact each .added

section
variable {Ts : Type} [DecidableEq Ts] (ts : Ts)

/-- Each package of a transaction is removed or added by the server, once, in the order of the messages. -/
theorem transaction_delivered {elements : List Element} {pre post : Setting} {before middle : List (TsmCall Ts)}
    (whole : Whole ts elements pre post before middle) (sendable : AllSendable elements pre post) :
    ∃ removed added : List (Record Ts), Enumerates elements removed added ∧
      List.Forall₂ (fun performed owner => ∃ text, performed.message = some text ∧ text ≠ [] ∧
        ∀ connection : Connection, connection.Carries text → Fulfils owner.1 owner.2 connection)
        (performedBy ts elements pre post before middle) (owners pre post removed added) := by
  obtain ⟨removed, added, enumerates, performed⟩ := performedBy_owners ts whole
  refine ⟨removed, added, enumerates, ?_⟩
  rw [performed, List.forall₂_map_left_iff, List.forall₂_same]
  exact fun owner member => owner_told sendable whole.few enumerates member

end

theorem transaction_delivered_two :
    ∃ removed added : List (Record Nat), Enumerates sampleElements removed added ∧
      List.Forall₂ (fun performed owner => ∃ text, performed.message = some text ∧ text ≠ [] ∧
        ∀ connection : Connection, connection.Carries text → Fulfils owner.1 owner.2 connection)
        (performedBy 0 sampleElements namedQuiet namedQuiet [] sampleMiddle)
        (owners namedQuiet namedQuiet removed added) :=
  transaction_delivered 0 sample_whole sample_sendable

section
variable {Ts : Type} [DecidableEq Ts] (ts : Ts)

theorem exists_of_forall₂ {α β : Type} {R : α → β → Prop} {as : List α} {bs : List β} (related : List.Forall₂ R as bs)
    {a : α} (member : a ∈ as) : ∃ b ∈ bs, R a b := by
  induction related with
  | nil => cases member
  | cons here _ ih =>
    rcases List.mem_cons.mp member with rfl | later
    · exact ⟨_, List.mem_cons_self, here⟩
    · obtain ⟨b, inside, there⟩ := ih later
      exact ⟨b, List.mem_cons_of_mem _ inside, there⟩

/-- Among connections that all take an operation, each one succeeds or fails. -/
theorem turns_counted {own : List Connection} (taken : ∀ connection ∈ own, ∃ turn, connection.turn = some turn) :
    (own.filterMap Connection.turn).length = own.length ∧
      own.countP Connection.succeeds + own.countP Connection.fails = own.length := by
  have length : (own.filterMap Connection.turn).length = own.length := by
    rw [List.length_filterMap_eq_countP, List.countP_eq_length]
    intro connection member
    obtain ⟨turn, taken⟩ := taken connection member
    rw [taken]
    rfl
  obtain ⟨wins, losses⟩ := verdicts_filterMap own
  refine ⟨length, ?_⟩
  rw [← wins, ← losses, ← length, List.length_eq_countP_add_countP (fun turn : Turn => decide (0 ≤ turn.rc))]
  simp [successes, failures]

/-- The status of a transaction whose operations all have the count of its connections. -/
theorem operations_reported {transid : Bytes} (connections : List Connection) {status : Connection} {turn : Turn}
    (taken : status.turn = some turn) (asks : turn.asks transid = true) (clear : turn.req.scode = 0)
    (fulfilled : ∀ connection ∈ connections.filter (Connection.concerns transid), ∃ turn, connection.turn = some turn ∧
      turn.operates transid = true ∧ turn.req.count = (connections.filter (Connection.concerns transid)).length)
    (present : connections.filter (Connection.concerns transid) ≠ [])
    (few : (connections.filter (Connection.concerns transid)).length < 2 ^ 31)
    (unexpired : Unexpired transid ((connections ++ [status]).filterMap Connection.turn)) :
    let own := connections.filter (Connection.concerns transid)
    (status.serve (servedTable connections)).sent = KEY_OK ++ space :: (decimalText own.length ++
        space :: decimalText (own.countP Connection.succeeds) ++
        space :: decimalText (-(own.countP Connection.fails : Int))) ++ [newline] ∧
      recordOf (servedTable (connections ++ [status])) transid = none := by
  intro own
  have operate : ∀ connection ∈ own, ∀ turn ∈ connection.turn, turn.operates transid = true := by
    intro connection member turn' inside
    obtain ⟨turn'', taken', operates, -⟩ := fulfilled connection member
    obtain rfl := Option.some.inj (inside.symm.trans taken')
    exact operates
  have counted : ∀ turn' ∈ connections.filterMap Connection.turn, turn'.operates transid = true →
      turn'.req.count = own.length := by
    intro turn' member operates
    obtain ⟨connection, inside, taken'⟩ := List.mem_filterMap.mp member
    have concerned : connection ∈ own :=
      List.mem_filter.mpr ⟨inside, by rw [Connection.concerns, taken', Option.any_some, operates, Bool.true_or]⟩
    obtain ⟨turn'', taken'', -, count⟩ := fulfilled connection concerned
    obtain rfl := Option.some.inj (taken'.symm.trans taken'')
    exact count
  have history := since_connections operate
  have length : (own.filterMap Connection.turn).length = own.length :=
    (turns_counted fun connection member => (fulfilled connection member).imp fun _ taken => taken.1).1
  obtain ⟨wins, losses⟩ := verdicts_filterMap own
  have positive : 1 ≤ own.length := List.length_pos_of_ne_nil present
  cases operations : own.filterMap Connection.turn with
  | nil =>
    rw [operations, List.length_nil] at length
    omega
  | cons first rest =>
    rw [List.filterMap_append, List.filterMap_cons, taken, List.filterMap_nil] at unexpired
    have own' : first ∈ own.filterMap Connection.turn := by rw [operations]; exact List.mem_cons_self
    obtain ⟨connection, inside, taken'⟩ := List.mem_filterMap.mp own'
    have count : first.req.count = own.length :=
      counted first (List.mem_filterMap.mpr ⟨connection, List.mem_of_mem_filter inside, taken'⟩)
        (operate connection inside first taken')
    rw [operations] at wins losses length history
    obtain ⟨replied, removed⟩ := status_replied unexpired (fun turn' member operates => by
      rw [counted turn' member operates]
      exact positive) asks clear history (by rw [length]; exact few) (by rw [count]; exact few) status.replyBuffer
    refine ⟨?_, ?_⟩
    · rw [serve_sent taken, servedTable_turns, replied, count, wins, losses]
    · rw [servedTable_turns, List.filterMap_append, List.filterMap_cons, taken]
      exact removed

/-- The status of a transaction, asked for after it, counts all its packages and the ones of
them that succeeded, whatever the server does for others in between. -/
theorem transaction_reported {elements : List Element} {pre post : Setting} {before middle : List (TsmCall Ts)}
    (whole : Whole ts elements pre post before middle) (sendable : AllSendable elements pre post)
    (packaged : elements.filter isPackage ≠ []) {transid : CString}
    (named : pre.transid = some transid ∧ post.transid = some transid)
    (connections : List Connection) (status : Connection) (turn : Turn) (taken : status.turn = some turn)
    (asks : turn.asks transid.bytes = true) (clear : turn.req.scode = 0)
    (through : List.Forall₂ Through (connections.filter (Connection.concerns transid.bytes))
      (performedBy ts elements pre post before middle))
    (unexpired : Unexpired transid.bytes ((connections ++ [status]).filterMap Connection.turn)) :
    let own := connections.filter (Connection.concerns transid.bytes)
    own.length = (elements.filter isPackage).length ∧
      own.countP Connection.succeeds + own.countP Connection.fails = own.length ∧
      (status.serve (servedTable connections)).sent = KEY_OK ++ space :: (decimalText own.length ++
        space :: decimalText (own.countP Connection.succeeds) ++
        space :: decimalText (-(own.countP Connection.fails : Int))) ++ [newline] ∧
      recordOf (servedTable (connections ++ [status])) transid.bytes = none := by
  intro own
  obtain ⟨removed, added, enumerates, performed⟩ := performedBy_owners ts whole
  rw [performed, List.forall₂_map_right_iff] at through
  have size : own.length = (elements.filter isPackage).length := by
    rw [through.length_eq, ← enumerates.length, owners, List.length_append, List.length_map, List.length_map,
      List.length_append]
  have fulfilled : ∀ connection ∈ own, ∃ turn, connection.turn = some turn ∧ turn.operates transid.bytes = true ∧
      turn.req.count = own.length := by
    intro connection member
    obtain ⟨owner, inside, comes⟩ := exists_of_forall₂ through member
    rw [size]
    exact owner_operates sendable whole.few enumerates named inside comes
  obtain ⟨-, split⟩ := turns_counted fun connection member => (fulfilled connection member).imp fun _ taken => taken.1
  have present : own ≠ [] := by
    intro none
    rw [none, List.length_nil] at size
    exact packaged (List.length_eq_zero_iff.mp size.symm)
  have few : own.length < 2 ^ 31 := by
    rw [size]
    exact (List.length_filter_le _ _).trans_lt whole.few
  exact ⟨size, split, operations_reported connections taken asks clear fulfilled present few unexpired⟩

end

def delivering (text : Bytes) : Connection where
  operations := ⟨fun _ => 0, fun _ => 0⟩
  clock := ⟨0, 0⟩
  buffer := zeroBuffer
  replyBuffer := zeroReply
  results := if filled : text = [] then [] else [.data ⟨text, filled⟩]
  ending := .closed

theorem delivering_carries {text : Bytes} (filled : text ≠ []) : (delivering text).Carries text :=
  ⟨⟨text, filled⟩, rfl, dif_neg filled, rfl⟩

/-- The two messages of the transaction, each one in its connection. -/
def sampleConnections : List Connection :=
  (performedBy 0 sampleElements namedQuiet namedQuiet [] sampleMiddle).map fun performed =>
    delivering (performed.message.getD [])

def sampleAsking : Connection := delivering (ascii "STATUS t\n")

theorem sampleConnections_spec :
    (∀ connection ∈ sampleConnections, connection.concerns (ascii "t") = true ∧ connection.succeeds = true ∧
      connection.fails = false ∧ connection.clock = ⟨0, 0⟩) ∧
    List.Forall₂ Through sampleConnections (performedBy 0 sampleElements namedQuiet namedQuiet [] sampleMiddle) := by
  obtain ⟨removed, added, enumerates, performed⟩ := performedBy_owners 0 sample_whole
  rw [sampleConnections, performed, List.map_map]
  constructor
  · intro connection member
    obtain ⟨owner, inside, rfl⟩ := List.mem_map.mp member
    obtain ⟨text, made, filled, served⟩ := owner_told sample_sendable sample_whole.few enumerates inside
    obtain ⟨kind, -, origin⟩ := mem_owners enumerates inside
    have setting : owner.1 = namedQuiet := by rcases origin with ⟨same, -⟩ | ⟨same, -⟩ <;> exact same
    rw [Function.comp_apply, made, Option.getD_some]
    obtain ⟨req, tells, turn, -⟩ := served (delivering text) (delivering_carries filled)
    have operates : Turn.operates (ascii "t") ⟨(delivering text).operations, (delivering text).clock, req⟩ = true :=
      (operates_iff _ _).mpr ⟨told_operation kind tells, by rw [tells.transid, setting]; rfl⟩
    have zero : Turn.rc ⟨(delivering text).operations, (delivering text).clock, req⟩ = 0 := by
      rw [Turn.rc, Operations.result]
      exact ite_self 0
    refine ⟨?_, ?_, ?_, rfl⟩
    · rw [Connection.concerns, turn, Option.any_some, operates, Bool.true_or]
    · rw [Connection.succeeds, turn, Option.any_some, zero]
      rfl
    · rw [Connection.fails, turn, Option.any_some, zero]
      rfl
  · rw [List.forall₂_map_left_iff, List.forall₂_map_right_iff, List.forall₂_same]
    intro owner inside
    obtain ⟨text, made, filled, -⟩ := owner_told sample_sendable sample_whole.few enumerates inside
    refine ⟨text, made, ?_⟩
    rw [Function.comp_apply, made]
    exact delivering_carries filled

/-- Both packages were processed: the one that is removed and the one that is added. -/
theorem transaction_reported_two :
    (sampleAsking.serve (servedTable sampleConnections)).sent = ascii "OK 2 2 0\n" := by
  obtain ⟨all, through⟩ := sampleConnections_spec
  have own : sampleConnections.filter (Connection.concerns (ascii "t")) = sampleConnections :=
    List.filter_eq_self.mpr fun connection member => (all connection member).1
  have turn := carries_turn (delivering_carries (show ascii "STATUS t\n" ≠ [] by decide)) (by decide +kernel)
    (by unfold Accepted; decide +kernel)
  have times : ∀ turn ∈ (sampleConnections ++ [sampleAsking]).filterMap Connection.turn, turn.clock = ⟨0, 0⟩ := by
    intro turn' member
    obtain ⟨connection, inside, taken⟩ := List.mem_filterMap.mp member
    have clock : connection.clock = ⟨0, 0⟩ := by
      rcases List.mem_append.mp inside with here | last
      · exact (all connection here).2.2.2
      · rw [List.mem_singleton.mp last]
        rfl
    unfold Connection.turn at taken
    split_ifs at taken
    rw [← Option.some.inj taken, ← clock]
  have unexpired : Unexpired (ascii "t") ((sampleConnections ++ [sampleAsking]).filterMap Connection.turn) :=
    List.pairwise_of_forall_mem_list fun earlier before later after _ => by
      rw [times earlier before, times later after]
      decide
  obtain ⟨size, -, sent, -⟩ := transaction_reported 0 sample_whole sample_sendable (by decide) ⟨rfl, rfl⟩ sampleConnections
    sampleAsking _ turn (by decide +kernel) (by decide +kernel) (by rw [own]; exact through) unexpired
  have wins : sampleConnections.countP Connection.succeeds = sampleConnections.length :=
    List.countP_eq_length.mpr fun connection member => (all connection member).2.1
  have losses : sampleConnections.countP Connection.fails = 0 :=
    List.countP_eq_zero.mpr fun connection member => by
      rw [(all connection member).2.2.1]
      exact Bool.false_ne_true
  rw [own] at size sent
  rw [sent, wins, losses, size]
  decide +kernel

end AppManager.Rpm
