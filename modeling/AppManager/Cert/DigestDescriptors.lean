import AppManager.Cert.DigestCheck
import AppManager.Cert.DigestCreate

/-! The descriptors that digests take. A file is never closed once it is hashed, and when
no descriptor is left no other file can be opened. -/

namespace AppManager.Cert
open AppManager.Lib AppManager.Lib.Libc AppManager.Utils

def EMFILE : Int := 24

/-- The variables of the entries, and how many descriptors are still free. -/
structure Process (hashing : Hashing) where
  vars : DigestVars hashing
  free : Nat

namespace Process
variable {hashing : Hashing} (files : Files)

/-- `entry_hash`, which leaves the file open. -/
def entryHash (process : Process hashing) (entry : Ref) (algorithm : DigestAlgorithm) (path : Bytes) :
    Except Failure (HashNode hashing) × Process hashing :=
  match (hashNodes process.vars entry).find? (fun hash => hash.algorithm = algorithm) with
  | some hash => (.ok hash, process)
  | none =>
    if process.free = 0 then (.error ⟨-EMFILE, by decide⟩, process)
    else
      match files.fopen (cstr path) with
      | .error failure => (.error failure, process)
      | .ok content =>
        let hash := hashFile hashing algorithm content
        (.ok hash, ⟨pathEntryVarSet process.vars entry .entryHash
          (some (.hashes (hashNodes process.vars entry ++ [hash]))) true, process.free - 1⟩)

structure Making (hashing : Hashing) where
  maker : DigestMaker hashing
  free : Nat

def digestMakerStep (algorithm : DigestAlgorithm) (start : Nat) (wantsNode : Bytes → Nat → Bool)
    (making : Making hashing) (visit : Visit) : Making hashing :=
  let maker := making.maker
  if wantsNode visit.path visit.path.length then
    match entryHash files ⟨maker.vars, making.free⟩ visit.entry.ref algorithm visit.path with
    | (.error failure, process) =>
      ⟨{ maker with vars := process.vars, rc := if maker.rc = 0 then failure else maker.rc }, process.free⟩
    | (.ok hash, process) =>
      ⟨putRecord { maker with vars := process.vars } hash.value (visit.path.drop start), process.free⟩
  else making

def createDigest (process : Process hashing) (root : PathEntry) (algorithm : DigestAlgorithm) (buffer : Bytes)
    (isdistributor : Bool) : Int × Bytes × Process hashing :=
  let start := ((pathEntryGetPath root.lineage []).map Prod.fst).getD 0
  let wants := if isdistributor then filterForDistributor else filterForAuthor
  let making := (pathEntryForEach (fun making visit => (0, digestMakerStep files algorithm start wants making visit))
    { onlyAdded := true, absolute := true } root ⟨⟨0, buffer, 0, process.vars⟩, process.free⟩).2
  (toInt making.maker.pos, making.maker.buffer, ⟨making.maker.vars, making.free⟩)

structure Checking (hashing : Hashing) where
  path : Bytes
  process : Process hashing

def checkRecord (root : PathEntry) (state : Checking hashing) (record : Record) : Int × Checking hashing :=
  if record.hash.length = 0 ∨ record.name.length = 0 then (-EINVAL, state)
  else match pathEntryGetLength root record.name record.name.length with
    | none => (-ENOENT, state)
    | some entry =>
      match algorithmOfLength record.hash.length with
      | none => (-EINVAL, state)
      | some algorithm =>
        let path := writtenPath entry state.path
        match entryHash files state.process entry.ref algorithm path with
        | (.error failure, process) => (failure, ⟨path, process⟩)
        | (.ok hash, process) =>
          if record.hash.length ≠ hash.value.length ∨
              record.hash ≠ hash.value.take record.hash.length then (-EBADF, ⟨path, process⟩)
          else (0, ⟨path, { process with
            vars := pathEntryVarSet process.vars entry.ref .resetIdata (some .resetIdata) false }⟩)

def checkDigest (process : Process hashing) (root : PathEntry) (buffer : Bytes) (isdistributor : Bool)
    (scratch : PathBuffer) : Int × Process hashing :=
  let reset := (pathEntryForEach (fun vars visit => (0, resetIdata vars visit))
    { onlyAdded := true, noPath := true } root process.vars).2
  let checked := iterate (checkRecord files root) (digestRecords buffer)
    ⟨scratch.1, { process with vars := reset }⟩
  if checked.1 ≠ 0 then (checked.1, checked.2.process)
  else
    let nrerrors := (pathEntryForEach
      (fun nrerrors visit => (0, checkSigned isdistributor checked.2.process.vars nrerrors visit))
      { onlyAdded := true } root 0).2
    (if nrerrors = 0 then 0 else -EBADF, checked.2.process)

end Process

section
variable {hashing : Hashing} (files : Files)

/-- How many descriptors the hash of an entry takes. -/
def price (vars : DigestVars hashing) (algorithm : DigestAlgorithm) (entry : Ref) : Nat :=
  if ((hashNodes vars entry).find? (fun hash => hash.algorithm = algorithm)).isNone then 1 else 0

def prices (vars : DigestVars hashing) (algorithm : DigestAlgorithm) (visits : List Visit) : Nat :=
  (visits.map fun visit => price vars algorithm visit.entry.ref).sum

theorem price_congr {vars vars' : DigestVars hashing} (algorithm : DigestAlgorithm) {entry : Ref}
    (same : hashNodes vars entry = hashNodes vars' entry) :
    price vars algorithm entry = price vars' algorithm entry := by
  unfold price
  rw [same]

theorem prices_congr {vars vars' : DigestVars hashing} (algorithm : DigestAlgorithm) {visits : List Visit}
    (same : ∀ visit ∈ visits, hashNodes vars visit.entry.ref = hashNodes vars' visit.entry.ref) :
    prices vars algorithm visits = prices vars' algorithm visits :=
  congrArg List.sum (List.map_congr_left fun visit member => price_congr algorithm (same visit member))

theorem price_entryHash (vars : DigestVars hashing) (entry : Ref) (algorithm : DigestAlgorithm) (path : Bytes)
    (hash : HashNode hashing) (got : (entryHash files vars entry algorithm path).1 = .ok hash) :
    price (entryHash files vars entry algorithm path).2 algorithm entry = 0 := by
  have again := entryHash_again files noFiles vars entry algorithm path [] hash got
  generalize (entryHash files vars entry algorithm path).2 = after at again
  unfold price
  rw [if_neg]
  intro missing
  unfold entryHash at again
  rw [Option.isNone_iff_eq_none.mp missing] at again
  cases again

namespace Process

theorem entryHash_spec (process : Process hashing) (entry : Ref) (algorithm : DigestAlgorithm) (path : Bytes)
    {content : Bytes} (opened : files.fopen (cstr path) = .ok content) :
    (price process.vars algorithm entry ≤ process.free → entryHash files process entry algorithm path =
      ((Cert.entryHash files process.vars entry algorithm path).1,
        ⟨(Cert.entryHash files process.vars entry algorithm path).2,
          process.free - price process.vars algorithm entry⟩)) ∧
    (process.free < price process.vars algorithm entry →
      ∃ failure, entryHash files process entry algorithm path = (.error failure, process)) := by
  unfold entryHash Cert.entryHash price
  cases (hashNodes process.vars entry).find? (fun hash => hash.algorithm = algorithm) with
  | some hash => simp
  | none =>
    rw [opened]
    by_cases none : process.free = 0
    · simp [none]
    · simp [none, Nat.one_le_iff_ne_zero]

/-- The entries that get a record, with their hashes. -/
def recordsOf (algorithm : DigestAlgorithm) : List Visit → Process hashing → List (Visit × Bytes) × Process hashing
  | [], process => ([], process)
  | visit :: rest, process =>
    match entryHash files process visit.entry.ref algorithm visit.path with
    | (.error _, process) => recordsOf algorithm rest process
    | (.ok hash, process) =>
      ((visit, hash.value) :: (recordsOf algorithm rest process).1, (recordsOf algorithm rest process).2)

end Process

def textOf (records : List (Visit × Bytes)) : Bytes := records.flatMap fun record => recordOf record.2 record.1.path

/-- The added entries that the traversal meets and that the digest of that mode records. -/
def wantedVisits (tree : PathTree) (isdistributor : Bool) : List Visit :=
  (reached tree).filter fun visit => wantsNode isdistributor visit.path visit.path.length

namespace Process

theorem foldl_digestMaker (algorithm : DigestAlgorithm) (wants : Bytes → Nat → Bool) (visits : List Visit)
    (making : Making hashing) (buffer text : Bytes)
    (written : making.maker.buffer = store buffer 0 (text.take buffer.length))
    (place : making.maker.pos = text.length) :
    let made := recordsOf files algorithm (visits.filter fun visit => wants visit.path visit.path.length)
      ⟨making.maker.vars, making.free⟩
    ∃ rc, visits.foldl (digestMakerStep files algorithm 0 wants) making =
      ⟨⟨(text ++ textOf made.1).length, store buffer 0 ((text ++ textOf made.1).take buffer.length), rc,
        made.2.vars⟩, made.2.free⟩ := by
  induction visits generalizing making text with
  | nil => exact ⟨making.maker.rc, by simp [recordsOf, textOf, ← written, ← place]⟩
  | cons visit rest ih =>
    rw [List.foldl_cons]
    by_cases wanted : wants visit.path visit.path.length = true
    · rw [List.filter_cons_of_pos (by exact wanted), recordsOf]
      cases got : entryHash files ⟨making.maker.vars, making.free⟩ visit.entry.ref algorithm visit.path with
      | mk answer process =>
        cases answer with
        | error failure =>
          have step : digestMakerStep files algorithm 0 wants making visit =
              ⟨{ making.maker with vars := process.vars, rc := if making.maker.rc = 0 then failure.1 else making.maker.rc },
                process.free⟩ := by
            simp only [digestMakerStep, if_pos wanted, got]
          rw [step]
          exact ih _ text written place
        | ok hash =>
          have step : digestMakerStep files algorithm 0 wants making visit =
              ⟨⟨(text ++ recordOf hash.value visit.path).length, store buffer 0
                ((text ++ recordOf hash.value visit.path).take buffer.length), making.maker.rc, process.vars⟩,
                process.free⟩ := by
            simp only [digestMakerStep, if_pos wanted, got, List.drop_zero]
            rw [putRecord_spec { making.maker with vars := process.vars } buffer text hash.value visit.path written place]
          obtain ⟨rc, later⟩ := ih (digestMakerStep files algorithm 0 wants making visit)
            (text ++ recordOf hash.value visit.path) (by rw [step]) (by rw [step])
          refine ⟨rc, ?_⟩
          rw [later, step]
          simp [textOf]
    · rw [List.filter_cons_of_neg (by exact wanted)]
      have step : digestMakerStep files algorithm 0 wants making visit = making := by
        simp only [digestMakerStep, if_neg wanted]
      rw [step]
      exact ih making text written place

/-- The text is the one of the records, written from the start of the buffer and cut at its end. -/
theorem createDigest_spec (process : Process hashing) (tree : PathTree) (algorithm : DigestAlgorithm)
    (buffer : Bytes) (isdistributor : Bool) :
    let made := recordsOf files algorithm (wantedVisits tree isdistributor) process
    process.createDigest files tree.root algorithm buffer isdistributor =
      (toInt (textOf made.1).length, store buffer 0 ((textOf made.1).take buffer.length), made.2) := by
  have start : ((pathEntryGetPath tree.root.lineage []).map Prod.fst).getD 0 = 0 := by
    rw [pathEntryGetPath_spec]
    simp [PathEntry.lineage, PathTree.root, PathTree.label, pathOf]
  obtain ⟨rc, result⟩ := foldl_digestMaker files algorithm (wantsNode isdistributor) (reached tree)
    (⟨⟨0, buffer, 0, process.vars⟩, process.free⟩ : Making hashing) buffer [] (by simp [store]) rfl
  have traversal := pathEntryForEach_reached (digestMakerStep files algorithm 0 (wantsNode isdistributor))
    tree true (⟨⟨0, buffer, 0, process.vars⟩, process.free⟩ : Making hashing)
  unfold createDigest
  rw [start]
  simp only [wantsNode] at traversal result
  simp only [traversal, result, wantedVisits, wantsNode, List.nil_append]

end Process
end

end AppManager.Cert
