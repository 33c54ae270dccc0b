import AppManager.Lib.Lines
import AppManager.Cert.DigestDescriptors

/-! A digest that was created is accepted by the check, as long as the files are
readable and do not change. -/

namespace AppManager.Cert
open AppManager.Lib AppManager.Lib.Libc AppManager.Utils

theorem nextRecord_recordOf (record : Record) (rest : Bytes) (hash : fieldSeparator ∉ record.hash)
    (name : recordTerminator ∉ record.name) :
    nextRecord (recordOf record.hash record.name ++ rest) = (record, rest) := by
  have apart : recordOf record.hash record.name ++ rest =
      record.hash ++ fieldSeparator :: (record.name ++ recordTerminator :: rest) := by
    simp [recordOf]
  unfold nextRecord
  simp only [apart, takeWhile_stop _ _ _ hash, dropWhile_stop _ _ _ hash, List.drop_one, List.tail_cons,
    takeWhile_stop _ _ _ name, dropWhile_stop _ _ _ name]

theorem nextRecord_shorter (byte : Byte) (buffer : Bytes) :
    (nextRecord (byte :: buffer)).2.length ≤ buffer.length := by
  have first := (List.dropWhile_suffix (l := byte :: buffer) (· != fieldSeparator)).length_le
  have second := (List.dropWhile_suffix
    (l := ((byte :: buffer).dropWhile (· != fieldSeparator)).drop 1) (· != recordTerminator)).length_le
  simp only [nextRecord, List.length_drop, List.length_cons] at first second ⊢
  omega

theorem recordsLoop_fuel (fuel : Nat) (buffer : Bytes) (enough : buffer.length ≤ fuel) :
    recordsLoop fuel buffer = digestRecords buffer := by
  suffices same : ∀ fuel fuel' (buffer : Bytes), buffer.length ≤ fuel → buffer.length ≤ fuel' →
      recordsLoop fuel buffer = recordsLoop fuel' buffer from same _ _ _ enough le_rfl
  intro fuel
  induction fuel with
  | zero =>
    intro fuel' buffer none _
    cases buffer with
    | nil => cases fuel' <;> rfl
    | cons byte rest => simp at none
  | succ fuel ih =>
    intro fuel' buffer enough enough'
    cases buffer with
    | nil => cases fuel' <;> rfl
    | cons byte rest =>
      cases fuel' with
      | zero => simp at enough'
      | succ fuel' =>
        have shorter := nextRecord_shorter byte rest
        rw [List.length_cons] at enough enough'
        unfold recordsLoop
        rw [ih fuel' _ (by omega) (by omega)]

theorem digestRecords_step (buffer : Bytes) (more : buffer ≠ []) :
    digestRecords buffer = (nextRecord buffer).1 :: digestRecords (nextRecord buffer).2 := by
  cases buffer with
  | nil => exact absurd rfl more
  | cons byte rest =>
    rw [digestRecords, List.length_cons, recordsLoop,
      recordsLoop_fuel _ _ (nextRecord_shorter byte rest)]
    exact more

theorem digestRecords_flatMap (records : List Record)
    (plain : ∀ record ∈ records, fieldSeparator ∉ record.hash ∧ recordTerminator ∉ record.name) :
    digestRecords (records.flatMap fun record => recordOf record.hash record.name) = records := by
  induction records with
  | nil => rfl
  | cons record rest ih =>
    obtain ⟨hash, name⟩ := plain record (by simp)
    have later := ih fun other member => plain other (List.mem_cons_of_mem record member)
    have more : recordOf record.hash record.name ++
        (rest.flatMap fun record => recordOf record.hash record.name) ≠ [] := by
      simp [recordOf]
    rw [List.flatMap_cons, digestRecords_step _ more, nextRecord_recordOf record _ hash name, later]

section
variable {hashing : Hashing}

/-- The four algorithms that the check deduces from the length of a hash. -/
def Deduced (algorithm : DigestAlgorithm) : Prop :=
  algorithm = .sha224 ∨ algorithm = .sha256 ∨ algorithm = .sha384 ∨ algorithm = .sha512

theorem algorithmOfLength_deduced (hashing : Hashing) (algorithm : DigestAlgorithm)
    (deduced : Deduced algorithm) :
    algorithmOfLength (2 * hashing.hashGetLen algorithm) = some algorithm := by
  rcases deduced with same | same | same | same
  · rw [same, hashing.sha224]
    rfl
  · rw [same, hashing.sha256]
    rfl
  · rw [same, hashing.sha384]
    rfl
  · rw [same, hashing.sha512]
    rfl

/-- A record of an added entry below the root, with the hash of its file. -/
def Genuine (hashing : Hashing) (files : Files) (tree : PathTree) (algorithm : DigestAlgorithm)
    (record : Record) : Prop :=
  ∃ entry ∈ tree.root.entries, entry.ref ≠ [] ∧ record.name = pathOf entry.lineage ∧
    (pathOf entry.lineage).length < PATH_MAX ∧
    ∃ content, files.fopen (cstr (pathOf entry.lineage)) = .ok content ∧
      record.hash = (hashFile hashing algorithm content).value

theorem entryHash_readable (files : Files) (tree : PathTree) (vars : DigestVars hashing)
    (sound : CacheSound files tree vars) (entry : PathEntry) (member : entry ∈ tree.root.entries)
    (below : entry.ref ≠ []) (algorithm : DigestAlgorithm) (path content : Bytes)
    (same : cstr path = cstr (pathOf entry.lineage))
    (opened : files.fopen (cstr (pathOf entry.lineage)) = .ok content) :
    (entryHash files vars entry.ref algorithm path).1 = .ok (hashFile hashing algorithm content) := by
  cases got : (entryHash files vars entry.ref algorithm path).1 with
  | ok hash =>
    obtain ⟨content', opened', value⟩ := entryHash_value files tree vars sound entry member below
      algorithm path (by rw [same]; exact fun _ opens => opens) hash got
    rw [opened] at opened'
    rw [value, Except.ok.inj opened']
  | error failure =>
    rcases entryHash_cases files vars entry.ref algorithm path with
      ⟨hash, _, _, result⟩ | ⟨failure', refused, result⟩ | ⟨content', _, result⟩
    · simp [result] at got
    · rw [same, opened] at refused
      cases refused
    · simp [result] at got

theorem checkRecord_genuine (files : Files) (tree : PathTree) (algorithm : DigestAlgorithm)
    (deduced : Deduced algorithm) (state : Checking hashing) (size : state.path.length = PATH_MAX + 1)
    (sound : CacheSound files tree state.vars) (record : Record)
    (genuine : Genuine hashing files tree algorithm record) :
    (checkRecord files tree.root state record).1 = 0 ∧
    (checkRecord files tree.root state record).2.path.length = PATH_MAX + 1 ∧
    CacheSound files tree (checkRecord files tree.root state record).2.vars := by
  obtain ⟨entry, member, below, name, short, content, opened, value⟩ := genuine
  have named := pathOf_named tree entry member below
  have kind := algorithmOfLength_deduced hashing algorithm deduced
  have length : record.hash.length = 2 * hashing.hashGetLen algorithm := by
    rw [value]
    exact (hashFile hashing algorithm content).size
  rw [← length] at kind
  have filled : ¬(record.hash.length = 0 ∨ record.name.length = 0) := by
    intro empty
    rcases empty with empty | empty
    · rw [empty] at kind
      exact absurd kind (by simp [algorithmOfLength])
    · rw [name, List.length_eq_zero_iff] at empty
      exact named empty
  have found : pathEntryGetLength tree.root record.name record.name.length = some entry := by
    rw [name]
    apply pathEntryGetLength_pathOf tree entry member
    unfold PATH_MAX at short
    omega
  have same := cstr_writtenPath entry state.path size named short.le
  have got := entryHash_readable files tree state.vars sound entry member below algorithm _ content
    same opened
  have kept := cacheSound_entryHash files tree state.vars sound entry member algorithm
    (writtenPath entry state.path) (fun _ => by rw [same]; exact fun _ opens => opens)
  unfold checkRecord
  simp only [if_neg filled, found, kind]
  cases result : entryHash files state.vars entry.ref algorithm (writtenPath entry state.path) with
  | mk answer vars =>
    rw [result] at got kept
    simp only at got
    rw [got]
    simp only [value, List.take_length, ne_eq, not_true_eq_false, or_self, ↓reduceIte, true_and]
    exact ⟨writtenPath_length entry state.path size, cacheSound_mark files tree vars kept _ _ _⟩

theorem checkRecords_genuine (files : Files) (tree : PathTree) (algorithm : DigestAlgorithm)
    (deduced : Deduced algorithm) (records : List Record)
    (genuine : ∀ record ∈ records, Genuine hashing files tree algorithm record)
    (state : Checking hashing) (size : state.path.length = PATH_MAX + 1)
    (sound : CacheSound files tree state.vars) :
    (iterate (checkRecord files tree.root) records state).1 = 0 := by
  induction records generalizing state with
  | nil => rfl
  | cons record rest ih =>
    obtain ⟨zero, size', sound'⟩ := checkRecord_genuine files tree algorithm deduced state size sound
      record (genuine record (by simp))
    unfold iterate
    rw [if_pos zero]
    exact ih (fun other member => genuine other (List.mem_cons_of_mem record member)) _ size' sound'

theorem below_of_nonempty (tree : PathTree) (visit : Visit) (added : visit ∈ addedVisits tree)
    (nonempty : visit.path ≠ []) : visit.entry.ref ≠ [] := by
  intro top
  obtain ⟨member, -, path⟩ := (mem_addedVisits tree visit).mp added
  have same : visit.entry = tree.root := entry_unique tree member (by simp [PathEntry.entries]) top
  apply nonempty
  rw [path, same]
  simp [PathEntry.lineage, PathTree.root, PathTree.label, pathOf]

def recordFor (made : Visit × Bytes) : Record := ⟨made.2, made.1.path⟩

/-- Entries that the traversal meets, with the hashes of their files. -/
def AllGenuine (hashing : Hashing) (files : Files) (tree : PathTree) (algorithm : DigestAlgorithm)
    (records : List (Visit × Bytes)) : Prop :=
  ∀ made ∈ records, made.1 ∈ reached tree ∧
    ∃ content, files.fopen (cstr made.1.path) = .ok content ∧ made.2 = (hashFile hashing algorithm content).value

section
variable {files : Files} {tree : PathTree} {algorithm : DigestAlgorithm}

theorem AllGenuine.genuine {records : List (Visit × Bytes)} (all : AllGenuine hashing files tree algorithm records)
    (nonempty : ∀ visit ∈ addedVisits tree, visit.path ≠ []) {made : Visit × Bytes} (member : made ∈ records) :
    Genuine hashing files tree algorithm (recordFor made) := by
  obtain ⟨arrived, content, opened, value⟩ := all made member
  have added := (reached_of_added tree).subset arrived
  obtain ⟨inside, -, path⟩ := (mem_addedVisits tree made.1).mp added
  have short := reached_short tree made.1 arrived
  rw [path] at opened short
  exact ⟨made.1.entry, inside, below_of_nonempty tree made.1 added (nonempty made.1 added), path, short, content,
    opened, value⟩

theorem digestRecords_textOf {records : List (Visit × Bytes)} (all : AllGenuine hashing files tree algorithm records)
    (oneLine : ∀ visit ∈ addedVisits tree, recordTerminator ∉ visit.path) :
    digestRecords (textOf records) = records.map recordFor := by
  have text : textOf records = (records.map recordFor).flatMap fun record => recordOf record.hash record.name := by
    rw [textOf, List.flatMap_map]
    rfl
  rw [text]
  apply digestRecords_flatMap
  intro record member
  obtain ⟨made, known, same⟩ := List.mem_map.mp member
  obtain ⟨arrived, content, -, value⟩ := all made known
  rw [← same]
  refine ⟨?_, oneLine made.1 ((reached_of_added tree).subset arrived)⟩
  change fieldSeparator ∉ made.2
  rw [value]
  simp only [hashFile, hashText_eq]
  exact blank_not_mem_hexString _

theorem reached_path {visit : Visit} (arrived : visit ∈ reached tree) :
    pathEntryGetLength tree.root visit.path visit.path.length = some visit.entry := by
  obtain ⟨inside, -, path⟩ := (mem_addedVisits tree visit).mp ((reached_of_added tree).subset arrived)
  have short := reached_short tree visit arrived
  rw [path] at short ⊢
  exact pathEntryGetLength_pathOf tree visit.entry inside (by unfold PATH_MAX at short; omega)

theorem visit_unique {first second : Visit} (known : first ∈ reached tree) (known' : second ∈ reached tree)
    (same : first.entry.ref = second.entry.ref) : first = second := by
  obtain ⟨inside, -, path⟩ := (mem_addedVisits tree first).mp ((reached_of_added tree).subset known)
  obtain ⟨inside', -, path'⟩ := (mem_addedVisits tree second).mp ((reached_of_added tree).subset known')
  have entries := entry_unique tree inside inside' same
  cases first
  cases second
  simp only at entries path path'
  rw [Visit.mk.injEq]
  exact ⟨entries, by rw [path, path', entries]⟩

/-- What the creation has done with some entries. -/
structure Recorded (files : Files) (tree : PathTree) (algorithm : DigestAlgorithm) (visits : List Visit)
    (before : Process hashing) (records : List (Visit × Bytes)) (after : Process hashing) : Prop where
  part : (records.map Prod.fst).Sublist visits
  genuine : AllGenuine hashing files tree algorithm records
  sound : CacheSound files tree after.vars
  other : ∀ ref, (∀ visit ∈ visits, visit.entry.ref ≠ ref) → hashNodes after.vars ref = hashNodes before.vars ref
  whole : records.map Prod.fst = visits ↔ prices before.vars algorithm visits ≤ before.free
  paid : prices before.vars algorithm visits ≤ before.free → prices after.vars algorithm visits = 0

theorem entryHash_reached (algorithm : DigestAlgorithm) {vars : DigestVars hashing} (sound : CacheSound files tree vars)
    (nonempty : ∀ visit ∈ addedVisits tree, visit.path ≠ []) {visit : Visit} (arrived : visit ∈ reached tree)
    {content : Bytes} (opened : files.fopen (cstr visit.path) = .ok content) :
    (entryHash files vars visit.entry.ref algorithm visit.path).1 = .ok (hashFile hashing algorithm content) ∧
      CacheSound files tree (entryHash files vars visit.entry.ref algorithm visit.path).2 := by
  have added := (reached_of_added tree).subset arrived
  obtain ⟨inside, -, path⟩ := (mem_addedVisits tree visit).mp added
  have below := below_of_nonempty tree visit added (nonempty visit added)
  constructor
  · exact entryHash_readable files tree vars sound visit.entry inside below algorithm visit.path content (by rw [path])
      (by rw [← path]; exact opened)
  · refine cacheSound_entryHash files tree vars sound visit.entry inside algorithm visit.path fun _ content opened => ?_
    rw [← path]
    exact opened

/-- An entry for which no descriptor is left gets no record. -/
theorem Recorded.skip {visit : Visit} {rest : List Visit} {before after : Process hashing}
    {records : List (Visit × Bytes)} (recorded : Recorded files tree algorithm rest before records after)
    (poor : before.free < price before.vars algorithm visit.entry.ref) :
    Recorded files tree algorithm (visit :: rest) before records after := by
  have sum : prices before.vars algorithm (visit :: rest) =
      price before.vars algorithm visit.entry.ref + prices before.vars algorithm rest := rfl
  refine ⟨recorded.part.trans (List.sublist_cons_self visit rest), recorded.genuine, recorded.sound,
    fun ref elsewhere => recorded.other ref fun other member => elsewhere other (List.mem_cons_of_mem _ member), ?_,
    fun fits => ?_⟩
  · refine iff_of_false (fun same => ?_) (by omega)
    have size := recorded.part.length_le
    rw [same, List.length_cons] at size
    omega
  · omega

/-- An entry that is hashed gets its record, and is paid. -/
theorem Recorded.hash {visit : Visit} {rest : List Visit} {before next after : Process hashing}
    {records : List (Visit × Bytes)} {value : Bytes} (recorded : Recorded files tree algorithm rest next records after)
    (genuine : AllGenuine hashing files tree algorithm [(visit, value)])
    (apart : ∀ other ∈ rest, other.entry.ref ≠ visit.entry.ref)
    (kept : ∀ ref, ref ≠ visit.entry.ref → hashNodes next.vars ref = hashNodes before.vars ref)
    (hashed : price next.vars algorithm visit.entry.ref = 0)
    (enough : price before.vars algorithm visit.entry.ref ≤ before.free)
    (left : next.free = before.free - price before.vars algorithm visit.entry.ref) :
    Recorded files tree algorithm (visit :: rest) before ((visit, value) :: records) after := by
  have sum : prices before.vars algorithm (visit :: rest) =
      price before.vars algorithm visit.entry.ref + prices before.vars algorithm rest := rfl
  have same : prices next.vars algorithm rest = prices before.vars algorithm rest :=
    prices_congr algorithm fun other member => kept _ (apart other member)
  refine ⟨recorded.part.cons_cons visit, fun made member => ?_, recorded.sound, fun ref elsewhere => ?_, ?_,
    fun fits => ?_⟩
  · rcases List.mem_cons.mp member with here | there
    · exact genuine made (List.mem_singleton.mpr here)
    · exact recorded.genuine made there
  · rw [recorded.other ref fun other member => elsewhere other (List.mem_cons_of_mem _ member)]
    exact kept ref (Ne.symm (elsewhere visit List.mem_cons_self))
  · have count := recorded.whole
    rw [same] at count
    rw [List.map_cons, List.cons.injEq, count, sum]
    simp only [true_and]
    omega
  · have others := recorded.paid (by rw [same]; omega)
    have own : price after.vars algorithm visit.entry.ref = 0 :=
      (price_congr algorithm (recorded.other visit.entry.ref apart)).trans hashed
    exact Nat.add_eq_zero_iff.mpr ⟨own, others⟩

theorem recordsOf_recorded (algorithm : DigestAlgorithm) (nonempty : ∀ visit ∈ addedVisits tree, visit.path ≠ [])
    (readable : ∀ visit ∈ addedVisits tree, ∃ content, files.fopen (cstr visit.path) = .ok content)
    (visits : List Visit) (known : ∀ visit ∈ visits, visit ∈ reached tree)
    (distinct : (visits.map (·.entry.ref)).Nodup) (process : Process hashing)
    (sound : CacheSound files tree process.vars) :
    Recorded files tree algorithm visits process (Process.recordsOf files algorithm visits process).1
      (Process.recordsOf files algorithm visits process).2 := by
  induction visits generalizing process with
  | nil =>
    have nothing : prices process.vars algorithm [] = 0 := rfl
    exact ⟨List.Sublist.slnil, fun made member => (by cases member), sound, fun _ _ => rfl,
      iff_of_true rfl (by omega), fun _ => nothing⟩
  | cons visit rest ih =>
    rw [List.map_cons, List.nodup_cons] at distinct
    obtain ⟨fresh, distinct⟩ := distinct
    have later : ∀ other ∈ rest, other ∈ reached tree := fun other member => known other (List.mem_cons_of_mem _ member)
    have apart : ∀ other ∈ rest, other.entry.ref ≠ visit.entry.ref := fun other member same =>
      fresh (List.mem_map.mpr ⟨other, member, same⟩)
    have arrived := known visit List.mem_cons_self
    obtain ⟨content, opened⟩ := readable visit ((reached_of_added tree).subset arrived)
    obtain ⟨got, sound'⟩ := entryHash_reached algorithm sound nonempty arrived opened
    obtain ⟨paid, refused⟩ := Process.entryHash_spec files process visit.entry.ref algorithm visit.path opened
    rcases Nat.lt_or_ge process.free (price process.vars algorithm visit.entry.ref) with poor | enough
    · obtain ⟨failure, none⟩ := refused poor
      rw [Process.recordsOf, none]
      exact (ih later distinct process sound).skip poor
    · have hashed := price_entryHash files process.vars visit.entry.ref algorithm visit.path _ got
      have after := ih later distinct ⟨(entryHash files process.vars visit.entry.ref algorithm visit.path).2,
        process.free - price process.vars algorithm visit.entry.ref⟩ sound'
      have genuine : AllGenuine hashing files tree algorithm [(visit, (hashFile hashing algorithm content).value)] := by
        intro made member
        rw [List.mem_singleton.mp member]
        exact ⟨arrived, content, opened, rfl⟩
      rw [got] at paid
      rw [Process.recordsOf, paid enough]
      exact after.hash genuine apart (fun ref differs => hashNodes_entryHash files process.vars _ _ _ _ differs)
        hashed enough rfl

namespace Process

theorem checkRecord_spec (deduced : Deduced algorithm) (nonempty : ∀ visit ∈ addedVisits tree, visit.path ≠ [])
    {made : Visit × Bytes} (genuine : AllGenuine hashing files tree algorithm [made]) (state : Checking hashing)
    (size : state.path.length = PATH_MAX + 1) (sound : CacheSound files tree state.process.vars) :
    let simple := Cert.checkRecord files tree.root ⟨state.path, state.process.vars⟩ (recordFor made)
    (price state.process.vars algorithm made.1.entry.ref ≤ state.process.free →
      checkRecord files tree.root state (recordFor made) = (0, ⟨simple.2.path, ⟨simple.2.vars,
        state.process.free - price state.process.vars algorithm made.1.entry.ref⟩⟩)) ∧
    (state.process.free < price state.process.vars algorithm made.1.entry.ref →
      (checkRecord files tree.root state (recordFor made)).1 ≠ 0) := by
  intro simple
  obtain ⟨arrived, content, opened, value⟩ := genuine made (List.mem_singleton_self made)
  have found := reached_path arrived
  obtain ⟨inside, -, path⟩ := (mem_addedVisits tree made.1).mp ((reached_of_added tree).subset arrived)
  have below := below_of_nonempty tree made.1 ((reached_of_added tree).subset arrived)
    (nonempty made.1 ((reached_of_added tree).subset arrived))
  have short := reached_short tree made.1 arrived
  rw [path] at opened short
  have same := cstr_writtenPath made.1.entry state.path size (pathOf_named tree made.1.entry inside below) short.le
  have opens : files.fopen (cstr (writtenPath made.1.entry state.path)) = .ok content := by rw [same]; exact opened
  have got := entryHash_readable files tree state.process.vars sound made.1.entry inside below algorithm _ content
    same opened
  have kind := algorithmOfLength_deduced hashing algorithm deduced
  have length : made.2.length = 2 * hashing.hashGetLen algorithm := by
    rw [value]
    exact (hashFile hashing algorithm content).size
  rw [← length] at kind
  have filled : ¬(made.2.length = 0 ∨ made.1.path.length = 0) := by
    rintro (empty | empty)
    · rw [empty] at kind
      exact absurd kind (by simp [algorithmOfLength])
    · exact nonempty made.1 ((reached_of_added tree).subset arrived) (List.length_eq_zero_iff.mp empty)
  obtain ⟨paid, refused⟩ := entryHash_spec files state.process made.1.entry.ref algorithm _ opens
  simp only [simple, checkRecord, Cert.checkRecord, recordFor, if_neg filled, found, kind]
  constructor
  · intro enough
    rw [paid enough]
    cases result : Cert.entryHash files state.process.vars made.1.entry.ref algorithm
        (writtenPath made.1.entry state.path) with
    | mk answer vars =>
      rw [result] at got
      simp only at got
      rw [got]
      simp [value]
  · intro poor
    obtain ⟨failure, none⟩ := refused poor
    rw [none]
    have negative := failure.2
    simp only
    omega

theorem checkRecords_spec (deduced : Deduced algorithm) (nonempty : ∀ visit ∈ addedVisits tree, visit.path ≠ [])
    (records : List (Visit × Bytes)) (genuine : AllGenuine hashing files tree algorithm records)
    (distinct : ((records.map Prod.fst).map (·.entry.ref)).Nodup) (state : Checking hashing)
    (size : state.path.length = PATH_MAX + 1) (sound : CacheSound files tree state.process.vars) :
    ((iterate (checkRecord files tree.root) (records.map recordFor) state).1 = 0 ↔
      prices state.process.vars algorithm (records.map Prod.fst) ≤ state.process.free) ∧
    ((iterate (checkRecord files tree.root) (records.map recordFor) state).1 = 0 →
      (iterate (checkRecord files tree.root) (records.map recordFor) state).2.process.vars =
        (iterate (Cert.checkRecord files tree.root) (records.map recordFor)
          ⟨state.path, state.process.vars⟩).2.vars) := by
  induction records generalizing state with
  | nil => exact ⟨iff_of_true rfl (Nat.zero_le _), fun _ => rfl⟩
  | cons made rest ih =>
    rw [List.map_cons, List.map_cons, List.nodup_cons] at distinct
    obtain ⟨fresh, distinct⟩ := distinct
    have own : AllGenuine hashing files tree algorithm [made] := fun other member =>
      genuine other (by rw [List.mem_singleton.mp member]; exact List.mem_cons_self)
    obtain ⟨accepted, refused⟩ := checkRecord_spec deduced nonempty own state size sound
    obtain ⟨zero, size', sound'⟩ := checkRecord_genuine files tree algorithm deduced
      ⟨state.path, state.process.vars⟩ size sound (recordFor made) (genuine.genuine nonempty List.mem_cons_self)
    have sum : prices state.process.vars algorithm ((made :: rest).map Prod.fst) =
        price state.process.vars algorithm made.1.entry.ref +
          prices state.process.vars algorithm (rest.map Prod.fst) := rfl
    rw [List.map_cons, sum]
    rcases Nat.lt_or_ge state.process.free (price state.process.vars algorithm made.1.entry.ref) with poor | enough
    · have stops := refused poor
      rw [iterate, if_neg stops]
      exact ⟨iff_of_false stops (by omega), fun zero => absurd zero stops⟩
    · obtain ⟨entry, other, hash, found, -, -, -, next⟩ := checkRecord_zero files tree.root
        ⟨state.path, state.process.vars⟩ (recordFor made) zero
      obtain rfl : made.1.entry = entry :=
        Option.some.inj ((reached_path (genuine made List.mem_cons_self).1).symm.trans found)
      have kept : ∀ ref, ref ≠ made.1.entry.ref → hashNodes (Cert.checkRecord files tree.root
          ⟨state.path, state.process.vars⟩ (recordFor made)).2.vars ref = hashNodes state.process.vars ref := by
        intro ref differs
        rw [next, hashNodes_setMark, hashNodes_entryHash _ _ _ _ _ _ differs]
      have same : prices (Cert.checkRecord files tree.root ⟨state.path, state.process.vars⟩
          (recordFor made)).2.vars algorithm (rest.map Prod.fst) =
            prices state.process.vars algorithm (rest.map Prod.fst) := by
        refine prices_congr algorithm fun visit member => kept _ fun located => fresh ?_
        exact List.mem_map.mpr ⟨visit, member, located⟩
      have step := accepted enough
      obtain ⟨count, vars⟩ := ih (fun other member => genuine other (List.mem_cons_of_mem _ member)) distinct
        (checkRecord files tree.root state (recordFor made)).2 (by rw [step]; exact size') (by rw [step]; exact sound')
      rw [iterate, if_pos (by rw [step])]
      constructor
      · rw [count, step]
        simp only [same]
        omega
      · intro done
        rw [vars done, iterate, if_pos zero, step]

theorem checkDigest_zero_iff (process : Process hashing) (tree : PathTree) (buffer : Bytes) (isdistributor : Bool)
    (scratch : PathBuffer) :
    (process.checkDigest files tree.root buffer isdistributor scratch).1 = 0 ↔
      (iterate (checkRecord files tree.root) (digestRecords buffer)
        ⟨scratch.1, ⟨resetVars tree process.vars, process.free⟩⟩).1 = 0 ∧
      ∀ visit ∈ reached tree, marked (iterate (checkRecord files tree.root) (digestRecords buffer)
        ⟨scratch.1, ⟨resetVars tree process.vars, process.free⟩⟩).2.process.vars visit.entry.ref =
          wantsNode isdistributor visit.path visit.path.length := by
  unfold checkDigest
  rw [pathEntryForEach_noPath resetIdata tree process.vars]
  simp only [pathEntryForEach_reached _ tree false]
  have reset : (tree.root.entries.filter (·.label.added)).foldl (fun vars entry => resetIdata vars ⟨entry, []⟩)
      process.vars = resetVars tree process.vars := rfl
  rw [reset]
  generalize iterate (checkRecord files tree.root) (digestRecords buffer)
    ⟨scratch.1, ⟨resetVars tree process.vars, process.free⟩⟩ = checked
  by_cases zero : checked.1 = 0
  · have counted := foldl_checkSigned isdistributor checked.2.process.vars (reached tree) 0
    rw [eq_self_iff_true, true_and] at counted
    simp only [zero, ne_eq, not_true_eq_false, ↓reduceIte, true_and]
    rw [← counted]
    split
    · next none => simp [none]
    · next some => simp [some, EBADF]
  · simp only [zero, ne_eq, not_false_eq_true, ↓reduceIte, false_and]

end Process

theorem marks_iff (deduced : Deduced algorithm) (nonempty : ∀ visit ∈ addedVisits tree, visit.path ≠ [])
    (isdistributor : Bool) {records : List (Visit × Bytes)} (genuine : AllGenuine hashing files tree algorithm records)
    (part : (records.map Prod.fst).Sublist (wantedVisits tree isdistributor)) (scratch : PathBuffer)
    {vars : DigestVars hashing} (sound : CacheSound files tree vars) :
    (∀ visit ∈ reached tree, marked (iterate (checkRecord files tree.root) (records.map recordFor)
      ⟨scratch.1, resetVars tree vars⟩).2.vars visit.entry.ref = wantsNode isdistributor visit.path visit.path.length) ↔
      records.map Prod.fst = wantedVisits tree isdistributor := by
  have reset := cacheSound_resetVars files tree vars sound
  have zero := checkRecords_genuine files tree algorithm deduced (records.map recordFor) (fun record member => by
    obtain ⟨made, known, same⟩ := List.mem_map.mp member
    exact same ▸ genuine.genuine nonempty known) ⟨scratch.1, resetVars tree vars⟩ scratch.2 reset
  have marks := (checkRecords_zero files tree _ ⟨scratch.1, resetVars tree vars⟩ scratch.2 reset zero).2
  have named : ∀ visit ∈ reached tree, (marked (iterate (checkRecord files tree.root) (records.map recordFor)
      ⟨scratch.1, resetVars tree vars⟩).2.vars visit.entry.ref = true ↔ visit ∈ records.map Prod.fst) := by
    intro visit arrived
    rw [marks, marked_resetVars tree vars visit ((reached_of_added tree).subset arrived)]
    constructor
    · rintro (never | ⟨record, known, entry, lookup, located⟩)
      · exact absurd never (by decide)
      · obtain ⟨made, member, rfl⟩ := List.mem_map.mp known
        have there := (genuine made member).1
        obtain rfl : made.1.entry = entry := Option.some.inj ((reached_path there).symm.trans lookup)
        rw [← visit_unique there arrived located]
        exact List.mem_map_of_mem member
    · intro member
      obtain ⟨made, known, rfl⟩ := List.mem_map.mp member
      exact Or.inr ⟨recordFor made, List.mem_map_of_mem known, made.1.entry, reached_path arrived, rfl⟩
  constructor
  · intro right
    apply part.eq_of_length_le
    have distinct : (wantedVisits tree isdistributor).Nodup :=
      (List.Nodup.of_map _ (nodup_reached tree)).sublist List.filter_sublist
    apply (distinct.subperm ?_).length_le
    intro visit member
    obtain ⟨arrived, wanted⟩ := List.mem_filter.mp member
    rw [← named visit arrived, right visit arrived]
    exact wanted
  · intro whole visit arrived
    rw [Bool.eq_iff_iff, named visit arrived, whole]
    exact ⟨fun member => (List.mem_filter.mp member).2, fun wanted => List.mem_filter.mpr ⟨arrived, wanted⟩⟩

/-- The text of recorded entries is accepted when all are, by a process that can hash them. -/
theorem checkDigest_textOf (deduced : Deduced algorithm) (nonempty : ∀ visit ∈ addedVisits tree, visit.path ≠ [])
    (oneLine : ∀ visit ∈ addedVisits tree, recordTerminator ∉ visit.path) {isdistributor : Bool}
    {process after : Process hashing} {records : List (Visit × Bytes)}
    (made : Recorded files tree algorithm (wantedVisits tree isdistributor) process records after)
    (distinct : ((wantedVisits tree isdistributor).map (·.entry.ref)).Nodup) (checking : Process hashing)
    (sound : CacheSound files tree checking.vars) (scratch : PathBuffer) :
    (checking.checkDigest files tree.root (textOf records) isdistributor scratch).1 = 0 ↔
      prices process.vars algorithm (wantedVisits tree isdistributor) ≤ process.free ∧
        prices checking.vars algorithm (wantedVisits tree isdistributor) ≤ checking.free := by
  have reset := cacheSound_resetVars files tree checking.vars sound
  have apart : ((records.map Prod.fst).map (·.entry.ref)).Nodup := distinct.sublist (made.part.map _)
  obtain ⟨count, vars⟩ := Process.checkRecords_spec deduced nonempty records made.genuine apart
    ⟨scratch.1, ⟨resetVars tree checking.vars, checking.free⟩⟩ scratch.2 reset
  have marks := marks_iff deduced nonempty isdistributor made.genuine made.part scratch sound
  have nodes : ∀ visits, prices (resetVars tree checking.vars) algorithm visits =
      prices checking.vars algorithm visits := fun visits =>
    prices_congr algorithm fun visit _ => (foldl_resetIdata _ checking.vars []).1 visit.entry.ref
  rw [Process.checkDigest_zero_iff, digestRecords_textOf made.genuine oneLine]
  constructor
  · rintro ⟨zero, marked⟩
    rw [vars zero] at marked
    have whole := marks.mp marked
    rw [count, whole, nodes] at zero
    exact ⟨made.whole.mp whole, zero⟩
  · rintro ⟨created, checked⟩
    have whole := made.whole.mpr created
    have zero := count.mpr (by rw [whole, nodes]; exact checked)
    refine ⟨zero, ?_⟩
    rw [vars zero]
    exact marks.mpr whole

/-- The created text is accepted if and only if there were descriptors for all the hashes
of its creation, and there are for those of the check. -/
theorem digest_round_trip_iff (files : Files) (process checking : Process hashing) (tree : PathTree)
    (algorithm : DigestAlgorithm) (isdistributor : Bool) (buffer : Bytes) (scratch : PathBuffer)
    (deduced : Deduced algorithm) (sound : CacheSound files tree process.vars)
    (sound' : CacheSound files tree checking.vars)
    (nonempty : ∀ visit ∈ addedVisits tree, visit.path ≠ [])
    (oneLine : ∀ visit ∈ addedVisits tree, recordTerminator ∉ visit.path)
    (readable : ∀ visit ∈ addedVisits tree, ∃ content, files.fopen (cstr visit.path) = .ok content)
    (returned : (process.createDigest files tree.root algorithm buffer isdistributor).1 =
      (textOf (Process.recordsOf files algorithm (wantedVisits tree isdistributor) process).1).length)
    (room : (process.createDigest files tree.root algorithm buffer isdistributor).1 ≤ buffer.length) :
    let created := process.createDigest files tree.root algorithm buffer isdistributor
    ((checking.checkDigest files tree.root (created.2.1.take created.1.toNat) isdistributor scratch).1 = 0 ↔
      prices process.vars algorithm (wantedVisits tree isdistributor) ≤ process.free ∧
        prices checking.vars algorithm (wantedVisits tree isdistributor) ≤ checking.free) ∧
    ((created.2.2.checkDigest files tree.root (created.2.1.take created.1.toNat) isdistributor scratch).1 = 0 ↔
      prices process.vars algorithm (wantedVisits tree isdistributor) ≤ process.free) := by
  intro created
  have known : ∀ visit ∈ wantedVisits tree isdistributor, visit ∈ reached tree := fun visit member =>
    (List.mem_filter.mp member).1
  have distinct : ((wantedVisits tree isdistributor).map (·.entry.ref)).Nodup :=
    (nodup_reached tree).sublist (List.filter_sublist.map _)
  have made := recordsOf_recorded algorithm nonempty readable _ known distinct process sound
  have result := Process.createDigest_spec files process tree algorithm buffer isdistributor
  simp only at result
  generalize Process.recordsOf files algorithm (wantedVisits tree isdistributor) process = records at *
  have text : created.2.1.take created.1.toNat = textOf records.1 := by
    have fits : (textOf records.1).length ≤ buffer.length := by omega
    have written := take_store_end buffer (textOf records.1) 0 (Nat.zero_le _)
    rw [Nat.zero_add, List.take_zero, List.nil_append] at written
    have bytes : created.2.1 = store buffer 0 ((textOf records.1).take buffer.length) := by
      rw [show created = _ from result]
    rw [returned, Int.toNat_natCast, bytes, List.take_of_length_le fits, written]
  have check := fun checking sound => checkDigest_textOf deduced nonempty oneLine made distinct checking sound scratch
  rw [text]
  refine ⟨check checking sound', ?_⟩
  have after : created.2.2 = records.2 := by rw [show created = _ from result]
  rw [after, check records.2 made.sound]
  exact ⟨And.left, fun enough => ⟨enough, by rw [made.paid enough]; exact Nat.zero_le _⟩⟩

end
end

def lastDescriptor : Process zeroHashing := ⟨fun _ => [], 1⟩

theorem oneFile_round_trip :
    (lastDescriptor.checkDigest oneReadable oneFile.root
      ((lastDescriptor.createDigest oneReadable oneFile.root .sha256 (List.replicate 67 0) false).2.1.take
        (lastDescriptor.createDigest oneReadable oneFile.root .sha256 (List.replicate 67 0) false).1.toNat)
      false zeroPath).1 = 0 := by
  have paths : ∀ visit ∈ addedVisits oneFile, visit.path = ascii "a" := by decide +kernel
  refine (digest_round_trip_iff oneReadable lastDescriptor lastDescriptor oneFile .sha256 false
    (List.replicate 67 0) zeroPath (by simp [Deduced]) (cacheSound_empty oneReadable oneFile)
    (cacheSound_empty oneReadable oneFile) ?_ ?_ ?_ (by decide +kernel) (by decide +kernel)).1.mpr
      ⟨by decide +kernel, by decide +kernel⟩
  · decide +kernel
  · decide +kernel
  · intro visit member
    rw [paths visit member]
    exact ⟨[], by decide +kernel⟩

def twoFiles : PathTree := (pathEntryAddLength oneFile (ascii "b") 1).2

/-- The empty files `a` and `b`. -/
def twoReadable : Files where
  fopen path := if path = ascii "a" ∨ path = ascii "b" then .ok [] else noFiles.fopen path
  fopen_empty := rfl
  fopen_long path long := by
    rw [if_neg]
    · exact noFiles.fopen_long path long
    · rintro (same | same)
      all_goals
        rw [same] at long
        exact absurd long (by decide)

/-- The second file is left out of the text, which a process with all its descriptors then refuses. -/
theorem twoFiles_refused :
    (∀ visit ∈ addedVisits twoFiles, visit.path ≠ [] ∧ recordTerminator ∉ visit.path ∧
      ∃ content, twoReadable.fopen (cstr visit.path) = .ok content) ∧
    (lastDescriptor.createDigest twoReadable twoFiles.root .sha256 (List.replicate 67 0) false).1 = 67 ∧
    (Process.checkDigest twoReadable (⟨fun _ => [], 1024⟩ : Process zeroHashing) twoFiles.root
      ((lastDescriptor.createDigest twoReadable twoFiles.root .sha256 (List.replicate 67 0) false).2.1.take 67)
      false zeroPath).1 = -EBADF := by
  refine ⟨fun visit member => ?_, by decide +kernel, by decide +kernel⟩
  have names : ∀ visit ∈ addedVisits twoFiles,
      visit.path ≠ [] ∧ recordTerminator ∉ visit.path ∧
        (cstr visit.path = ascii "a" ∨ cstr visit.path = ascii "b") := by decide +kernel
  obtain ⟨named, oneLine, known⟩ := names visit member
  exact ⟨named, oneLine, [], if_pos known⟩

end AppManager.Cert
