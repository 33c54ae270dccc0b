import AppManager.Cert.DigestText

/-! The check of a digest. Each record marks the entry that it names once its hash is
the one of the file, and a traversal then looks at the marks. -/

namespace AppManager.Cert
open AppManager.Lib AppManager.Lib.Libc AppManager.Utils

structure Record where
  hash : Bytes
  name : Bytes
  deriving DecidableEq, Repr

/-- The two fields at the start of a text, and the text after them. -/
def nextRecord (buffer : Bytes) : Record × Bytes :=
  let named := (buffer.dropWhile (· != fieldSeparator)).drop 1
  (⟨buffer.takeWhile (· != fieldSeparator), named.takeWhile (· != recordTerminator)⟩,
    (named.dropWhile (· != recordTerminator)).drop 1)

def recordsLoop : Nat → Bytes → List Record
  | 0, _ => []
  | _ + 1, [] => []
  | fuel + 1, buffer => (nextRecord buffer).1 :: recordsLoop fuel (nextRecord buffer).2

/-- The records that the loop of `check_digest` meets. Each takes one byte at least. -/
def digestRecords (buffer : Bytes) : List Record := recordsLoop buffer.length buffer

def algorithmOfLength (lenh : Nat) : Option DigestAlgorithm :=
  if lenh = 56 then some .sha224
  else if lenh = 64 then some .sha256
  else if lenh = 96 then some .sha384
  else if lenh = 128 then some .sha512
  else none

/-- `char path[PATH_MAX + 1]`, with any content at first. -/
abbrev PathBuffer := { bytes : Bytes // bytes.length = PATH_MAX + 1 }

structure Checking (hashing : Hashing) where
  path : Bytes
  vars : DigestVars hashing

section
variable {hashing : Hashing}

/-- The path of the entry, in a buffer that keeps its content when the entry is the root. -/
def writtenPath (entry : PathEntry) (path : Bytes) : Bytes :=
  let path := ((pathEntryGetPath entry.lineage path).map Prod.snd).getD path
  store path (path.length - 1) [0]

/-- One turn of the loop of `check_digest`, on the fields of the record. -/
def checkRecord (files : Files) (root : PathEntry) (state : Checking hashing) (record : Record) :
    Int × Checking hashing :=
  if record.hash.length = 0 ∨ record.name.length = 0 then (-EINVAL, state)
  else match pathEntryGetLength root record.name record.name.length with
    | none => (-ENOENT, state)
    | some entry =>
      match algorithmOfLength record.hash.length with
      | none => (-EINVAL, state)
      | some algorithm =>
        let path := writtenPath entry state.path
        match entryHash files state.vars entry.ref algorithm path with
        | (.error failure, vars) => (failure, ⟨path, vars⟩)
        | (.ok hash, vars) =>
          if record.hash.length ≠ hash.value.length ∨
              record.hash ≠ hash.value.take record.hash.length then (-EBADF, ⟨path, vars⟩)
          else (0, ⟨path, pathEntryVarSet vars entry.ref .resetIdata (some .resetIdata) false⟩)

def resetIdata (vars : DigestVars hashing) (visit : Visit) : DigestVars hashing :=
  pathEntryVarSet vars visit.entry.ref .resetIdata none false

def checkSigned (isdistributor : Bool) (vars : DigestVars hashing) (nrerrors : Nat) (visit : Visit) : Nat :=
  let issigned := marked vars visit.entry.ref
  nrerrors + match signatureNameTypeLength visit.path visit.path.length with
    | .none => if !issigned then 1 else 0
    | .author => if (!issigned) != (!isdistributor) then 1 else 0
    | .distributor => if issigned then 1 else 0

def checkDigest (files : Files) (vars : DigestVars hashing) (root : PathEntry) (buffer : Bytes)
    (isdistributor : Bool) (scratch : PathBuffer) : Int × DigestVars hashing :=
  let reset := (pathEntryForEach (fun vars visit => (0, resetIdata vars visit))
    { onlyAdded := true, noPath := true } root vars).2
  let checked := iterate (checkRecord files root) (digestRecords buffer) ⟨scratch.1, reset⟩
  if checked.1 ≠ 0 then (checked.1, checked.2.vars)
  else
    let nrerrors := (pathEntryForEach
      (fun nrerrors visit => (0, checkSigned isdistributor checked.2.vars nrerrors visit))
      { onlyAdded := true } root 0).2
    (if nrerrors = 0 then 0 else -EBADF, checked.2.vars)

/-- The hashes kept for the entries, but the root, are the ones of their files. -/
def CacheSound (files : Files) (tree : PathTree) (vars : DigestVars hashing) : Prop :=
  ∀ entry ∈ tree.root.entries, entry.ref ≠ [] → ∀ hash ∈ hashNodes vars entry.ref,
    ∃ content, files.fopen (cstr (pathOf entry.lineage)) = .ok content ∧
      hash = hashFile hashing hash.algorithm content

def Names (tree : PathTree) (record : Record) (visit : Visit) : Prop :=
  pathEntryGetLength tree.root record.name record.name.length = some visit.entry

/-- The record names the entry and has the hash of its file. -/
def Attests (hashing : Hashing) (files : Files) (tree : PathTree) (record : Record) (visit : Visit) : Prop :=
  Names tree record visit ∧ ∃ algorithm content,
    algorithmOfLength record.hash.length = some algorithm ∧
    files.fopen (cstr visit.path) = .ok content ∧
    record.hash = (hashFile hashing algorithm content).value

/-- What the acceptance of a digest should mean. -/
structure DigestSound (hashing : Hashing) (files : Files) (tree : PathTree) (buffer : Bytes)
    (isdistributor : Bool) : Prop where
  signed : ∀ visit ∈ addedVisits tree,
    signatureNameTypeLength visit.path visit.path.length = .none ∨
      (signatureNameTypeLength visit.path visit.path.length = .author ∧ isdistributor = true) →
    ∃ record ∈ digestRecords buffer, Attests hashing files tree record visit
  unsigned : ∀ visit ∈ addedVisits tree,
    signatureNameTypeLength visit.path visit.path.length = .distributor ∨
      (signatureNameTypeLength visit.path visit.path.length = .author ∧ isdistributor = false) →
    ∀ record ∈ digestRecords buffer, ¬Names tree record visit

theorem writtenPath_length (entry : PathEntry) (path : Bytes) (size : path.length = PATH_MAX + 1) :
    (writtenPath entry path).length = PATH_MAX + 1 := by
  have kept : (((pathEntryGetPath entry.lineage path).map Prod.snd).getD path).length = path.length := by
    rw [pathEntryGetPath_spec]
    simp only [Option.map_some, Option.getD_some]
    split
    · rfl
    · exact store_length _ _ _ (by simp only [clipped, List.length_take]; omega)
  unfold writtenPath
  rw [store_length _ _ _ (by rw [kept, size]; simp), kept, size]

theorem store_last (buffer : Bytes) (length : Nat) (size : buffer.length = length + 1) (byte : Byte) :
    store buffer length [byte] = buffer.take length ++ [byte] := by
  rw [store, List.length_singleton, List.drop_eq_nil_of_le size.le, List.append_nil]

theorem clipped_string (length : Nat) (path rest : Bytes) :
    ∃ more, (clipped (length + 1) path ++ rest).take length ++ [0] = path.take length ++ 0 :: more := by
  by_cases short : path.length < length
  · have fits : clipped (length + 1) path = path ++ [0] :=
      List.take_of_length_le (by simp only [List.length_append, List.length_singleton]; omega)
    refine ⟨rest.take (length - path.length - 1) ++ [0], ?_⟩
    rw [fits, List.append_assoc, List.take_append, List.singleton_append,
      show length - path.length = length - path.length - 1 + 1 by omega, List.take_succ_cons]
    simp
  · refine ⟨[], ?_⟩
    rw [clipped, List.take_append_of_le_length
        (by simp only [List.length_take, List.length_append, List.length_singleton]; omega),
      List.take_take, Nat.min_eq_left (by omega), List.take_append_of_le_length (by omega)]

theorem writtenPath_spec (entry : PathEntry) (path : Bytes) (size : path.length = PATH_MAX + 1)
    (named : pathOf entry.lineage ≠ []) :
    ∃ rest, writtenPath entry path = (pathOf entry.lineage).take PATH_MAX ++ 0 :: rest := by
  have whole : (store path 0 (clipped path.length (pathOf entry.lineage))).length = PATH_MAX + 1 := by
    rw [store_length _ _ _ (by simp only [clipped, List.length_take]; omega), size]
  obtain ⟨rest, same⟩ := clipped_string PATH_MAX (pathOf entry.lineage)
    (path.drop (clipped (PATH_MAX + 1) (pathOf entry.lineage)).length)
  refine ⟨rest, ?_⟩
  unfold writtenPath
  rw [pathEntryGetPath_spec, if_neg named]
  simp only [Option.map_some, Option.getD_some]
  rw [whole, Nat.add_sub_cancel, store_last _ _ whole, store_zero, size, same]

theorem opens_writtenPath (files : Files) (entry : PathEntry) (path : Bytes)
    (size : path.length = PATH_MAX + 1) (named : pathOf entry.lineage ≠ []) (content : Bytes)
    (opened : files.fopen (cstr (writtenPath entry path)) = .ok content) :
    files.fopen (cstr (pathOf entry.lineage)) = .ok content := by
  obtain ⟨rest, written⟩ := writtenPath_spec entry path size named
  rw [written, cstr_append_nul, cstr_take] at opened
  by_cases short : (cstr (pathOf entry.lineage)).length ≤ PATH_MAX
  · rw [List.take_of_length_le short] at opened
    exact opened
  · have refused := files.fopen_long ((cstr (pathOf entry.lineage)).take PATH_MAX)
      (by rw [List.length_take]; omega)
    rw [opened] at refused
    cases refused

theorem cstr_writtenPath (entry : PathEntry) (path : Bytes) (size : path.length = PATH_MAX + 1)
    (named : pathOf entry.lineage ≠ []) (short : (pathOf entry.lineage).length ≤ PATH_MAX) :
    cstr (writtenPath entry path) = cstr (pathOf entry.lineage) := by
  obtain ⟨rest, written⟩ := writtenPath_spec entry path size named
  rw [written, cstr_append_nul, List.take_of_length_le short]

theorem pathOf_named (tree : PathTree) (entry : PathEntry) (member : entry ∈ tree.root.entries)
    (below : entry.ref ≠ []) : pathOf entry.lineage ≠ [] := by
  intro empty
  have located := components_pathOf tree entry member
  rw [empty] at located
  exact below located.symm

theorem entryHash_value (files : Files) (tree : PathTree) (vars : DigestVars hashing)
    (sound : CacheSound files tree vars) (entry : PathEntry) (member : entry ∈ tree.root.entries)
    (below : entry.ref ≠ []) (algorithm : DigestAlgorithm) (path : Bytes)
    (opens : ∀ content, files.fopen (cstr path) = .ok content →
      files.fopen (cstr (pathOf entry.lineage)) = .ok content)
    (hash : HashNode hashing) (got : (entryHash files vars entry.ref algorithm path).1 = .ok hash) :
    ∃ content, files.fopen (cstr (pathOf entry.lineage)) = .ok content ∧
      hash = hashFile hashing algorithm content := by
  rcases entryHash_cases files vars entry.ref algorithm path with
    ⟨cached, known, same, result⟩ | ⟨failure, _, result⟩ | ⟨content, opened, result⟩
  · rw [result] at got
    obtain rfl := Except.ok.inj got
    obtain ⟨content, opened, value⟩ := sound entry member below cached known
    exact ⟨content, opened, by rw [← same]; exact value⟩
  · simp [result] at got
  · rw [result] at got
    exact ⟨content, opens content opened, (Except.ok.inj got).symm⟩

theorem cacheSound_entryHash (files : Files) (tree : PathTree) (vars : DigestVars hashing)
    (sound : CacheSound files tree vars) (entry : PathEntry) (member : entry ∈ tree.root.entries)
    (algorithm : DigestAlgorithm) (path : Bytes)
    (opens : entry.ref ≠ [] → ∀ content, files.fopen (cstr path) = .ok content →
      files.fopen (cstr (pathOf entry.lineage)) = .ok content) :
    CacheSound files tree (entryHash files vars entry.ref algorithm path).2 := by
  intro other known below hash inside
  by_cases same : other.ref = entry.ref
  · obtain rfl := entry_unique tree known member same
    rcases entryHash_cases files vars other.ref algorithm path with
      ⟨cached, _, _, result⟩ | ⟨failure, _, result⟩ | ⟨content, opened, result⟩
    · rw [result] at inside
      exact sound other known below hash inside
    · rw [result] at inside
      exact sound other known below hash inside
    · rw [result, hashNodes_setHash, if_pos rfl, List.mem_append, List.mem_singleton] at inside
      rcases inside with old | new
      · exact sound other known below hash old
      · exact ⟨content, opens below content opened, by rw [new]; rfl⟩
  · rw [hashNodes_entryHash _ _ _ _ _ _ same] at inside
    exact sound other known below hash inside

theorem cacheSound_mark (files : Files) (tree : PathTree) (vars : DigestVars hashing)
    (sound : CacheSound files tree vars) (entry : Ref) (value : Option (DigestValue hashing))
    (dispose : Bool) :
    CacheSound files tree (pathEntryVarSet vars entry .resetIdata value dispose) := by
  intro other known below hash inside
  rw [hashNodes_setMark] at inside
  exact sound other known below hash inside

theorem checkRecord_zero (files : Files) (root : PathEntry) (state : Checking hashing) (record : Record)
    (zero : (checkRecord files root state record).1 = 0) :
    ∃ entry algorithm hash,
      pathEntryGetLength root record.name record.name.length = some entry ∧
      algorithmOfLength record.hash.length = some algorithm ∧
      (entryHash files state.vars entry.ref algorithm (writtenPath entry state.path)).1 = .ok hash ∧
      record.hash = hash.value ∧
      (checkRecord files root state record).2 = ⟨writtenPath entry state.path, pathEntryVarSet
        (entryHash files state.vars entry.ref algorithm (writtenPath entry state.path)).2
          entry.ref .resetIdata (some .resetIdata) false⟩ := by
  unfold checkRecord at zero ⊢
  split at zero
  · exact absurd zero (by decide : ¬-EINVAL = 0)
  · next proper =>
    rw [if_neg proper]
    cases found : pathEntryGetLength root record.name record.name.length with
    | none => exact absurd zero (by simp [found, ENOENT])
    | some entry =>
      cases kind : algorithmOfLength record.hash.length with
      | none => exact absurd zero (by simp [found, kind, EINVAL])
      | some algorithm =>
        simp only [found, kind] at zero ⊢
        cases got : entryHash files state.vars entry.ref algorithm (writtenPath entry state.path) with
        | mk answer vars =>
          cases answer with
          | error failure =>
            simp only [got] at zero
            exact absurd zero (by have := failure.2; omega)
          | ok hash =>
            simp only [got] at zero ⊢
            split at zero
            · exact absurd zero (by decide : ¬-EBADF = 0)
            · next equal =>
              rw [not_or, not_not, not_not] at equal
              refine ⟨entry, algorithm, hash, rfl, rfl, by rw [got], ?_, ?_⟩
              · rw [equal.2, equal.1, List.take_length]
              · rw [if_neg (by rw [not_or, not_not, not_not]; exact equal), got]

theorem found_member (tree : PathTree) (path : Bytes) (entry : PathEntry)
    (found : pathEntryGetLength tree.root path path.length = some entry) :
    entry ∈ tree.root.entries :=
  ((descend_root_iff tree _ entry).mp found).1

theorem checkRecords_zero (files : Files) (tree : PathTree) (records : List Record)
    (state : Checking hashing) (size : state.path.length = PATH_MAX + 1)
    (sound : CacheSound files tree state.vars)
    (zero : (iterate (checkRecord files tree.root) records state).1 = 0) :
    (∀ record ∈ records, ∀ visit ∈ addedVisits tree, visit.entry.ref ≠ [] →
      Names tree record visit → Attests hashing files tree record visit) ∧
    ∀ ref, marked (iterate (checkRecord files tree.root) records state).2.vars ref = true ↔
      marked state.vars ref = true ∨ ∃ record ∈ records, ∃ entry,
        pathEntryGetLength tree.root record.name record.name.length = some entry ∧ entry.ref = ref := by
  induction records generalizing state with
  | nil => simp [iterate]
  | cons record rest ih =>
    unfold iterate at zero ⊢
    by_cases goes : (checkRecord files tree.root state record).1 = 0
    · rw [if_pos goes] at zero ⊢
      obtain ⟨entry, algorithm, hash, found, kind, got, value, next⟩ :=
        checkRecord_zero files tree.root state record goes
      have member := found_member tree record.name entry found
      have opens : entry.ref ≠ [] → ∀ content,
          files.fopen (cstr (writtenPath entry state.path)) = .ok content →
          files.fopen (cstr (pathOf entry.lineage)) = .ok content :=
        fun below => opens_writtenPath files entry state.path size (pathOf_named tree entry member below)
      rw [next] at zero ⊢
      obtain ⟨attested, marks⟩ := ih
        ⟨writtenPath entry state.path, pathEntryVarSet
          (entryHash files state.vars entry.ref algorithm (writtenPath entry state.path)).2
            entry.ref .resetIdata (some .resetIdata) false⟩
        (writtenPath_length entry state.path size)
        (cacheSound_mark files tree _ (cacheSound_entryHash files tree state.vars sound entry member
          algorithm _ opens) entry.ref _ false) zero
      constructor
      · intro other known visit added below names
        rcases List.mem_cons.mp known with same | later
        · subst same
          have equal : visit.entry = entry := Option.some.inj (names.symm.trans found)
          have path := ((mem_addedVisits tree visit).mp added).2.2
          obtain ⟨content, opened, hashed⟩ := entryHash_value files tree state.vars sound entry member
            (equal ▸ below) algorithm _ (opens (equal ▸ below)) hash got
          refine ⟨names, algorithm, content, kind, ?_, by rw [value, hashed]⟩
          rw [path, equal]
          exact opened
        · exact attested other later visit added below names
      · intro ref
        rw [marks, marked_setMark, marked_entryHash]
        by_cases same : ref = entry.ref
        · simp only [same, ↓reduceIte, Option.isSome_some, true_or, true_iff]
          exact Or.inr ⟨record, by simp, entry, found, rfl⟩
        · rw [if_neg same]
          constructor
          · intro before
            rcases before with before | ⟨other, later, named, lookup, located⟩
            · exact Or.inl before
            · exact Or.inr ⟨other, List.mem_cons_of_mem record later, named, lookup, located⟩
          · intro after
            rcases after with before | ⟨other, known, named, lookup, located⟩
            · exact Or.inl before
            · rcases List.mem_cons.mp known with here | later
              · subst here
                have equal : named = entry := Option.some.inj (lookup.symm.trans found)
                exact absurd (equal ▸ located.symm) same
              · exact Or.inr ⟨other, later, named, lookup, located⟩
    · rw [if_neg goes] at zero
      exact absurd zero goes

theorem foldl_resetIdata (entries : List PathEntry) (vars : DigestVars hashing) (path : Bytes) :
    (∀ ref, hashNodes (entries.foldl (fun vars entry => resetIdata vars ⟨entry, path⟩) vars) ref =
      hashNodes vars ref) ∧
    ∀ ref, marked (entries.foldl (fun vars entry => resetIdata vars ⟨entry, path⟩) vars) ref = true ↔
      marked vars ref = true ∧ ∀ entry ∈ entries, entry.ref ≠ ref := by
  induction entries generalizing vars with
  | nil => simp
  | cons entry rest ih =>
    obtain ⟨nodes, marks⟩ := ih (resetIdata vars ⟨entry, path⟩)
    refine ⟨fun ref => ?_, fun ref => ?_⟩
    · rw [List.foldl_cons, nodes]
      exact hashNodes_setMark _ _ _ _ _
    · rw [List.foldl_cons, marks, resetIdata, marked_setMark, List.forall_mem_cons]
      by_cases same : ref = entry.ref
      · simp [same]
      · simp [same, Ne.symm same]

theorem foldl_checkSigned (isdistributor : Bool) (vars : DigestVars hashing) (visits : List Visit)
    (nrerrors : Nat) : visits.foldl (checkSigned isdistributor vars) nrerrors = 0 ↔
      nrerrors = 0 ∧ ∀ visit ∈ visits,
        marked vars visit.entry.ref = wantsNode isdistributor visit.path visit.path.length := by
  induction visits generalizing nrerrors with
  | nil => simp
  | cons visit rest ih =>
    rw [List.foldl_cons, ih, List.forall_mem_cons]
    have here : checkSigned isdistributor vars nrerrors visit = 0 ↔ nrerrors = 0 ∧
        marked vars visit.entry.ref = wantsNode isdistributor visit.path visit.path.length := by
      unfold checkSigned wantsNode
      cases isdistributor <;> cases marked vars visit.entry.ref <;>
        cases kind : signatureNameTypeLength visit.path visit.path.length <;>
        simp [filterForAuthor, filterForDistributor, kind]
    rw [here, and_assoc]

/-- The variables once the marks of the added entries are reset. -/
def resetVars (tree : PathTree) (vars : DigestVars hashing) : DigestVars hashing :=
  (tree.root.entries.filter (·.label.added)).foldl (fun vars entry => resetIdata vars ⟨entry, []⟩) vars

theorem cacheSound_resetVars (files : Files) (tree : PathTree) (vars : DigestVars hashing)
    (sound : CacheSound files tree vars) : CacheSound files tree (resetVars tree vars) := by
  intro entry member below hash inside
  unfold resetVars at inside
  rw [(foldl_resetIdata _ vars []).1] at inside
  exact sound entry member below hash inside

theorem marked_resetVars (tree : PathTree) (vars : DigestVars hashing) (visit : Visit)
    (added : visit ∈ addedVisits tree) : marked (resetVars tree vars) visit.entry.ref = false := by
  obtain ⟨member, isAdded, -⟩ := (mem_addedVisits tree visit).mp added
  rw [← Bool.not_eq_true]
  intro kept
  unfold resetVars at kept
  rw [(foldl_resetIdata _ vars []).2] at kept
  exact kept.2 visit.entry (List.mem_filter.mpr ⟨member, isAdded⟩) rfl

theorem checkDigest_zero_iff (files : Files) (vars : DigestVars hashing) (tree : PathTree)
    (buffer : Bytes) (isdistributor : Bool) (scratch : PathBuffer) :
    (checkDigest files vars tree.root buffer isdistributor scratch).1 = 0 ↔
      (iterate (checkRecord files tree.root) (digestRecords buffer)
        ⟨scratch.1, resetVars tree vars⟩).1 = 0 ∧
      ∀ visit ∈ reached tree,
        marked (iterate (checkRecord files tree.root) (digestRecords buffer)
          ⟨scratch.1, resetVars tree vars⟩).2.vars visit.entry.ref =
            wantsNode isdistributor visit.path visit.path.length := by
  unfold checkDigest
  rw [pathEntryForEach_noPath resetIdata tree vars]
  simp only [pathEntryForEach_reached _ tree false]
  by_cases zero : (iterate (checkRecord files tree.root) (digestRecords buffer)
      ⟨scratch.1, resetVars tree vars⟩).1 = 0
  · have counted := foldl_checkSigned isdistributor (iterate (checkRecord files tree.root)
      (digestRecords buffer) ⟨scratch.1, resetVars tree vars⟩).2.vars (reached tree) 0
    unfold resetVars at zero counted ⊢
    simp only [zero, ne_eq, not_true_eq_false, ↓reduceIte, true_and]
    rw [eq_self_iff_true, true_and] at counted
    rw [← counted]
    split
    · next none => simp [none]
    · next some => simp [some, EBADF]
  · unfold resetVars at zero ⊢
    simp only [zero, ne_eq, not_false_eq_true, ↓reduceIte, false_and]

theorem wantsNode_iff (isdistributor : Bool) (visit : Visit) :
    (wantsNode isdistributor visit.path visit.path.length = true ↔
      signatureNameTypeLength visit.path visit.path.length = .none ∨
      (signatureNameTypeLength visit.path visit.path.length = .author ∧ isdistributor = true)) ∧
    (wantsNode isdistributor visit.path visit.path.length = false ↔
      signatureNameTypeLength visit.path visit.path.length = .distributor ∨
      (signatureNameTypeLength visit.path visit.path.length = .author ∧ isdistributor = false)) := by
  unfold wantsNode
  cases isdistributor <;> cases kind : signatureNameTypeLength visit.path visit.path.length <;>
    simp [filterForAuthor, filterForDistributor, kind]

theorem below_of_added (tree : PathTree) (rootless : tree.added = false) (visit : Visit)
    (added : visit ∈ addedVisits tree) : visit.entry.ref ≠ [] := by
  intro top
  obtain ⟨member, isAdded, -⟩ := (mem_addedVisits tree visit).mp added
  have root : tree.root ∈ tree.root.entries := by simp [PathEntry.entries]
  have same : visit.entry = tree.root := entry_unique tree member root top
  rw [same] at isAdded
  exact absurd isAdded (by simp [PathTree.root, PathTree.label, rootless])

/-- What an accepted digest says of the added entries: a record that names one of them
attests it, unless it is the root, and the reached ones are named when they should. -/
theorem accepted_records (files : Files) (vars : DigestVars hashing) (tree : PathTree) (buffer : Bytes)
    (isdistributor : Bool) (scratch : PathBuffer) (sound : CacheSound files tree vars)
    (accepted : (checkDigest files vars tree.root buffer isdistributor scratch).1 = 0) :
    (∀ record ∈ digestRecords buffer, ∀ visit ∈ addedVisits tree, visit.entry.ref ≠ [] →
      Names tree record visit → Attests hashing files tree record visit) ∧
    ∀ visit ∈ reached tree, (wantsNode isdistributor visit.path visit.path.length = true ↔
      ∃ record ∈ digestRecords buffer, Names tree record visit) := by
  obtain ⟨zero, marks⟩ := (checkDigest_zero_iff files vars tree buffer isdistributor scratch).mp accepted
  obtain ⟨attested, named⟩ := checkRecords_zero files tree (digestRecords buffer)
    ⟨scratch.1, resetVars tree vars⟩ scratch.2 (cacheSound_resetVars files tree vars sound) zero
  refine ⟨attested, fun visit member => ?_⟩
  have added := (reached_of_added tree).subset member
  rw [← marks visit member, named, marked_resetVars tree vars visit added]
  constructor
  · intro found
    rcases found with never | ⟨record, known, entry, lookup, located⟩
    · exact absurd never (by decide)
    · refine ⟨record, known, ?_⟩
      have same := entry_unique tree (found_member tree _ entry lookup)
        ((mem_addedVisits tree visit).mp added).1 located
      rw [Names, lookup, same]
  · intro ⟨record, known, names⟩
    exact Or.inr ⟨record, known, visit.entry, names, rfl⟩

/-- An accepted digest is sound unless the root is added or the traversal misses an
entry that is not recorded as it should. -/
theorem checkDigest_sound_iff (files : Files) (vars : DigestVars hashing) (tree : PathTree)
    (buffer : Bytes) (isdistributor : Bool) (scratch : PathBuffer) (sound : CacheSound files tree vars)
    (accepted : (checkDigest files vars tree.root buffer isdistributor scratch).1 = 0) :
    DigestSound hashing files tree buffer isdistributor ↔
      tree.added = false ∧ ∀ visit ∈ addedVisits tree, visit ∉ reached tree →
        (wantsNode isdistributor visit.path visit.path.length = true ↔
          ∃ record ∈ digestRecords buffer, Names tree record visit) := by
  obtain ⟨attested, named⟩ :=
    accepted_records files vars tree buffer isdistributor scratch sound accepted
  constructor
  · intro digest
    constructor
    · rw [← Bool.not_eq_true]
      intro rootAdded
      have added : (⟨tree.root, []⟩ : Visit) ∈ addedVisits tree := by
        rw [mem_addedVisits]
        simp [PathEntry.entries, PathTree.root, PathTree.label, rootAdded, PathEntry.lineage, pathOf]
      obtain ⟨record, -, -, _, content, -, opened, -⟩ := digest.signed _ added
        (Or.inl (by decide : signatureNameTypeLength [] 0 = .none))
      have refused := files.fopen_empty
      rw [show cstr [] = [] from rfl] at opened
      rw [opened] at refused
      cases refused
    · intro visit added _
      cases wanted : wantsNode isdistributor visit.path visit.path.length with
      | true =>
        obtain ⟨record, known, attests⟩ :=
          digest.signed visit added ((wantsNode_iff isdistributor visit).1.mp wanted)
        exact iff_of_true rfl ⟨record, known, attests.1⟩
      | false =>
        have free := digest.unsigned visit added ((wantsNode_iff isdistributor visit).2.mp wanted)
        apply iff_of_false (by decide)
        intro found
        obtain ⟨record, known, names⟩ := found
        exact free record known names
  · intro holds
    obtain ⟨rootless, missed⟩ := holds
    have whole : ∀ visit ∈ addedVisits tree,
        (wantsNode isdistributor visit.path visit.path.length = true ↔
          ∃ record ∈ digestRecords buffer, Names tree record visit) := by
      intro visit added
      by_cases known : visit ∈ reached tree
      · exact named visit known
      · exact missed visit added known
    constructor
    · intro visit added kind
      have wanted := (wantsNode_iff isdistributor visit).1.mpr kind
      obtain ⟨record, known, names⟩ := (whole visit added).mp wanted
      exact ⟨record, known, attested record known visit added
        (below_of_added tree rootless visit added) names⟩
    · intro visit added kind record known names
      have unwanted := (wantsNode_iff isdistributor visit).2.mpr kind
      rw [(whole visit added).mpr ⟨record, known, names⟩] at unwanted
      exact absurd unwanted (by decide)

end
def zeroPath : PathBuffer := ⟨List.replicate (PATH_MAX + 1) 0, List.length_replicate⟩

theorem cacheSound_empty {hashing : Hashing} (files : Files) (tree : PathTree) :
    CacheSound files tree (fun _ => [] : DigestVars hashing) := by
  intro entry _ _ hash inside
  cases inside

theorem oneFile_digest_sound :
    (checkDigest oneReadable (fun _ => [] : DigestVars zeroHashing) oneFile.root
      (recordOf (List.replicate 56 48) (ascii "a")) false zeroPath).1 = 0 ∧
    DigestSound zeroHashing oneReadable oneFile (recordOf (List.replicate 56 48) (ascii "a")) false := by
  have accepted : (checkDigest oneReadable (fun _ => [] : DigestVars zeroHashing) oneFile.root
      (recordOf (List.replicate 56 48) (ascii "a")) false zeroPath).1 = 0 := by decide +kernel
  have complete : ∀ visit ∈ addedVisits oneFile, visit ∈ reached oneFile := by decide +kernel
  exact ⟨accepted, (checkDigest_sound_iff oneReadable _ oneFile _ false zeroPath
    (cacheSound_empty oneReadable oneFile) accepted).mpr
      ⟨by decide +kernel, fun visit added missed => absurd (complete visit added) missed⟩⟩

/-- A name without slash, too long by one byte for the buffer of the traversals. -/
def longName : Bytes := List.replicate 4095 97

theorem longName_length : longName.length = 4095 := List.length_replicate

def longTree : PathTree := (pathEntryAddLength pathEntryCreateRoot longName longName.length).2

theorem longTree_eq : longTree.added = false ∧
    longTree.children = .node ⟨longName, true, false⟩ .null .null := by
  apply addLength_single
  · exact List.ne_nil_of_length_pos (by rw [longName_length]; decide)
  · intro inside
    exact absurd (List.eq_of_mem_replicate inside) (by decide)
  · rw [longName_length]
    decide

theorem longName_type : signatureNameTypeLength longName longName.length = .none := by
  have extension : isEqAt longName (longName.length - signatureExtension.length) signatureExtension =
      false := by
    rw [longName_length]
    simp only [isEqAt, longName, List.drop_replicate, List.take_replicate]
    decide
  simp [signatureNameTypeLength, extension]

theorem long_name_unchecked :
    (checkDigest oneReadable (fun _ => [] : DigestVars zeroHashing) longTree.root [] false zeroPath).1 = 0 ∧
    ¬DigestSound zeroHashing oneReadable longTree [] false := by
  have tooLong : enterPath { onlyAdded := true, after := true } PATH_MAX ⟨longName, true, false⟩ [] =
      none := by
    simp [enterPath, longName_length, PATH_MAX]
  have missed : reached longTree = [] := by
    rw [reached, tourFrom_root _ _ _ rfl, longTree_eq.2, tourChildren, tooLong]
    simp [around, emits, PathTree.label, longTree_eq.1, Tour.of, Tour.andThen]
  constructor
  · rw [checkDigest_zero_iff, missed]
    exact ⟨rfl, by simp⟩
  · intro sound
    have added : (⟨longTree.root.child ⟨longName, true, false⟩ .null, longName⟩ : Visit) ∈
        addedVisits longTree := by
      rw [mem_addedVisits]
      refine ⟨?_, rfl, ?_⟩
      · simp [PathEntry.entries, PathTree.root, longTree_eq.2, entriesBelow, PathEntry.child,
          PathEntry.lineage]
      · have proper : longName ≠ [] := List.ne_nil_of_length_pos (by rw [longName_length]; decide)
        simp [PathEntry.lineage, PathEntry.child, PathTree.root, PathTree.label, pathOf, proper]
    obtain ⟨record, known, -⟩ := sound.signed _ added (Or.inl longName_type)
    cases known

end AppManager.Cert
