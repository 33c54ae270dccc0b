import AppManager.Lib.Hex
import AppManager.Cert.SignatureName
import AppManager.Utils.PathLookup

/-! The digest of the files of a tree: one record `HASH NAME` on a line of its own
for each file. Hashes of files are kept in variables of the entries, and so are
the marks of the check. -/

namespace AppManager.Cert
open AppManager.Lib AppManager.Lib.Libc AppManager.Utils

def fieldSeparator : Byte := ' '.toUInt8
def recordTerminator : Byte := '\n'.toUInt8

inductive DigestAlgorithm where
  | sha224
  | sha256
  | sha384
  | sha512
  | other (code : Nat)
  deriving DecidableEq, Repr

structure Hashing where
  hashGetLen : DigestAlgorithm → Nat
  hash : DigestAlgorithm → Bytes → Bytes
  hash_length : ∀ algorithm content, (hash algorithm content).length = hashGetLen algorithm
  sha224 : hashGetLen .sha224 = 28
  sha256 : hashGetLen .sha256 = 32
  sha384 : hashGetLen .sha384 = 48
  sha512 : hashGetLen .sha512 = 64

/-- Hash functions with the right lengths, enough for the samples. -/
def zeroHashing : Hashing where
  hashGetLen
    | .sha224 => 28
    | .sha256 => 32
    | .sha384 => 48
    | .sha512 => 64
    | .other _ => 0
  hash algorithm _ := List.replicate (match algorithm with
    | .sha224 => 28
    | .sha256 => 32
    | .sha384 => 48
    | .sha512 => 64
    | .other _ => 0) 0
  hash_length algorithm _ := by cases algorithm <;> exact List.length_replicate
  sha224 := rfl
  sha256 := rfl
  sha384 := rfl
  sha512 := rfl

/-- What reading a file up to its end gives. No file has an empty path, nor a path
that the system refuses for its length. An error is that of `fopen`, for want of a
descriptor too, or that of the allocation of the hash. -/
structure Files where
  fopen : Bytes → Except Failure Bytes
  fopen_empty : (fopen []).toOption = none
  fopen_long : ∀ path, PATH_MAX ≤ path.length → (fopen path).toOption = none

structure HashNode (hashing : Hashing) where
  algorithm : DigestAlgorithm
  value : Bytes
  size : value.length = 2 * hashing.hashGetLen algorithm

inductive DigestKey where
  | entryHash
  | resetIdata
  deriving DecidableEq, Repr

/-- The values of the variables: a chain of hashes, or the mark of the check. -/
inductive DigestValue (hashing : Hashing) where
  | hashes (nodes : List (HashNode hashing))
  | resetIdata

abbrev DigestVars (hashing : Hashing) := Vars DigestKey (DigestValue hashing)

section
variable {hashing : Hashing}

def hashText (digest : Bytes) : Bytes :=
  hexInPlace digest.length (digest ++ List.replicate digest.length 0)

theorem hashText_eq (digest : Bytes) : hashText digest = hexString digest := by
  unfold hashText
  rw [hexInPlace_spec _ _ (by simp), List.drop_eq_nil_of_le (by simp), List.append_nil]

def hashFile (hashing : Hashing) (algorithm : DigestAlgorithm) (content : Bytes) : HashNode hashing where
  algorithm := algorithm
  value := hashText (hashing.hash algorithm content)
  size := by rw [hashText_eq, hexString_length, hashing.hash_length]

def hashNodes (vars : DigestVars hashing) (entry : Ref) : List (HashNode hashing) :=
  match pathEntryVar vars entry .entryHash with
  | some (.hashes nodes) => nodes
  | _ => []

def entryHash (files : Files) (vars : DigestVars hashing) (entry : Ref) (algorithm : DigestAlgorithm)
    (path : Bytes) : Except Failure (HashNode hashing) × DigestVars hashing :=
  match (hashNodes vars entry).find? (fun hash => hash.algorithm = algorithm) with
  | some hash => (.ok hash, vars)
  | none =>
    match files.fopen (cstr path) with
    | .error failure => (.error failure, vars)
    | .ok content =>
      let hash := hashFile hashing algorithm content
      (.ok hash, pathEntryVarSet vars entry .entryHash
        (some (.hashes (hashNodes vars entry ++ [hash]))) true)

structure DigestMaker (hashing : Hashing) where
  pos : Nat
  buffer : Bytes
  rc : Int
  vars : DigestVars hashing

/-- The fields of a record, each cut at the end of the buffer. -/
def putRecord (maker : DigestMaker hashing) (hash name : Bytes) : DigestMaker hashing :=
  let value := copyOut maker.buffer maker.pos hash
  let separator := copyOut value.1 value.2 [fieldSeparator]
  let named := copyOut separator.1 separator.2 name
  let terminator := copyOut named.1 named.2 [recordTerminator]
  { maker with buffer := terminator.1, pos := terminator.2 }

def digestMakerStep (files : Files) (algorithm : DigestAlgorithm) (start : Nat)
    (wantsNode : Bytes → Nat → Bool) (maker : DigestMaker hashing) (visit : Visit) :
    DigestMaker hashing :=
  if wantsNode visit.path visit.path.length then
    match entryHash files maker.vars visit.entry.ref algorithm visit.path with
    | (.error failure, vars) =>
      { maker with vars := vars, rc := if maker.rc = 0 then failure else maker.rc }
    | (.ok hash, vars) => putRecord { maker with vars := vars } hash.value (visit.path.drop start)
  else maker

def digestMakerCb (files : Files) (algorithm : DigestAlgorithm) (start : Nat)
    (wantsNode : Bytes → Nat → Bool) (maker : DigestMaker hashing) (visit : Visit) :
    Int × DigestMaker hashing :=
  (0, digestMakerStep files algorithm start wantsNode maker visit)

/-- The status of the maker and the one of the traversal are not looked at. -/
def makeFileListDigest (files : Files) (vars : DigestVars hashing) (root : PathEntry)
    (algorithm : DigestAlgorithm) (buffer : Bytes) (wantsNode : Bytes → Nat → Bool) :
    Int × Bytes × DigestVars hashing :=
  let maker := (pathEntryForEach
    (digestMakerCb files algorithm (((pathEntryGetPath root.lineage []).map Prod.fst).getD 0) wantsNode)
    { onlyAdded := true, absolute := true } root ⟨0, buffer, 0, vars⟩).2
  (toInt maker.pos, maker.buffer, maker.vars)

def filterForAuthor (path : Bytes) (length : Nat) : Bool :=
  signatureNameTypeLength path length = .none

def filterForDistributor (path : Bytes) (length : Nat) : Bool :=
  signatureNameTypeLength path length ≠ .distributor

def createDigest (files : Files) (vars : DigestVars hashing) (root : PathEntry)
    (algorithm : DigestAlgorithm) (buffer : Bytes) (isdistributor : Bool) :
    Int × Bytes × DigestVars hashing :=
  makeFileListDigest files vars root algorithm buffer
    (if isdistributor then filterForDistributor else filterForAuthor)

def createAuthorDigest (files : Files) (vars : DigestVars hashing) (root : PathEntry)
    (algorithm : DigestAlgorithm) (buffer : Bytes) : Int × Bytes × DigestVars hashing :=
  makeFileListDigest files vars root algorithm buffer filterForAuthor

def createDistributorDigest (files : Files) (vars : DigestVars hashing) (root : PathEntry)
    (algorithm : DigestAlgorithm) (buffer : Bytes) : Int × Bytes × DigestVars hashing :=
  makeFileListDigest files vars root algorithm buffer filterForDistributor

/-- The three ways in which the hash of an entry is got. -/
theorem entryHash_cases (files : Files) (vars : DigestVars hashing) (entry : Ref)
    (algorithm : DigestAlgorithm) (path : Bytes) :
    (∃ hash ∈ hashNodes vars entry, hash.algorithm = algorithm ∧
      entryHash files vars entry algorithm path = (.ok hash, vars)) ∨
    (∃ failure, files.fopen (cstr path) = .error failure ∧
      entryHash files vars entry algorithm path = (.error failure, vars)) ∨
    (∃ content, files.fopen (cstr path) = .ok content ∧
      entryHash files vars entry algorithm path = (.ok (hashFile hashing algorithm content),
        pathEntryVarSet vars entry .entryHash
          (some (.hashes (hashNodes vars entry ++ [hashFile hashing algorithm content]))) true)) := by
  unfold entryHash
  cases found : (hashNodes vars entry).find? (fun hash => hash.algorithm = algorithm) with
  | some hash =>
    have same := List.find?_some found
    exact Or.inl ⟨hash, List.mem_of_find?_eq_some found, by simpa using same, rfl⟩
  | none =>
    cases opened : files.fopen (cstr path) with
    | error failure => exact Or.inr (Or.inl ⟨failure, rfl, rfl⟩)
    | ok content => exact Or.inr (Or.inr ⟨content, rfl, rfl⟩)

def marked (vars : DigestVars hashing) (entry : Ref) : Bool :=
  (pathEntryVar vars entry .resetIdata).isSome

theorem hashNodes_setHash (vars : DigestVars hashing) (entry other : Ref)
    (nodes : List (HashNode hashing)) (dispose : Bool) :
    hashNodes (pathEntryVarSet vars entry .entryHash (some (.hashes nodes)) dispose) other =
      if other = entry then nodes else hashNodes vars other := by
  unfold hashNodes
  rw [pathEntryVar_set]
  by_cases same : other = entry
  · simp [same]
  · simp [same]

theorem hashNodes_setMark (vars : DigestVars hashing) (entry other : Ref)
    (value : Option (DigestValue hashing)) (dispose : Bool) :
    hashNodes (pathEntryVarSet vars entry .resetIdata value dispose) other = hashNodes vars other := by
  unfold hashNodes
  rw [pathEntryVar_set]
  simp

theorem marked_setHash (vars : DigestVars hashing) (entry other : Ref)
    (value : Option (DigestValue hashing)) (dispose : Bool) :
    marked (pathEntryVarSet vars entry .entryHash value dispose) other = marked vars other := by
  unfold marked
  rw [pathEntryVar_set]
  simp

theorem marked_setMark (vars : DigestVars hashing) (entry other : Ref)
    (value : Option (DigestValue hashing)) (dispose : Bool) :
    marked (pathEntryVarSet vars entry .resetIdata value dispose) other =
      if other = entry then value.isSome else marked vars other := by
  unfold marked
  rw [pathEntryVar_set]
  by_cases same : other = entry
  · simp [same]
  · simp [same]

theorem marked_entryHash (files : Files) (vars : DigestVars hashing) (entry other : Ref)
    (algorithm : DigestAlgorithm) (path : Bytes) :
    marked (entryHash files vars entry algorithm path).2 other = marked vars other := by
  rcases entryHash_cases files vars entry algorithm path with
    ⟨hash, _, _, result⟩ | ⟨failure, _, result⟩ | ⟨content, _, result⟩
  · rw [result]
  · rw [result]
  · rw [result, marked_setHash]

theorem hashNodes_entryHash (files : Files) (vars : DigestVars hashing) (entry other : Ref)
    (algorithm : DigestAlgorithm) (path : Bytes) (apart : other ≠ entry) :
    hashNodes (entryHash files vars entry algorithm path).2 other = hashNodes vars other := by
  rcases entryHash_cases files vars entry algorithm path with
    ⟨hash, _, _, result⟩ | ⟨failure, _, result⟩ | ⟨content, _, result⟩
  · rw [result]
  · rw [result]
  · rw [result, hashNodes_setHash, if_neg apart]

theorem entryHash_congr (files : Files) {vars vars' : DigestVars hashing} {entry : Ref}
    (algorithm : DigestAlgorithm) (path : Bytes) (same : hashNodes vars entry = hashNodes vars' entry) :
    (entryHash files vars entry algorithm path).1 = (entryHash files vars' entry algorithm path).1 ∧
    hashNodes (entryHash files vars entry algorithm path).2 entry =
      hashNodes (entryHash files vars' entry algorithm path).2 entry := by
  unfold entryHash
  rw [same]
  cases (hashNodes vars' entry).find? (fun hash => hash.algorithm = algorithm) with
  | some hash => exact ⟨rfl, same⟩
  | none =>
    cases files.fopen (cstr path) with
    | error failure => exact ⟨rfl, same⟩
    | ok content => exact ⟨rfl, by rw [hashNodes_setHash, hashNodes_setHash, same]⟩

theorem entryHash_again (files files' : Files) (vars : DigestVars hashing) (entry : Ref)
    (algorithm : DigestAlgorithm) (path path' : Bytes) (hash : HashNode hashing)
    (got : (entryHash files vars entry algorithm path).1 = .ok hash) :
    (entryHash files' (entryHash files vars entry algorithm path).2 entry algorithm path').1 = .ok hash := by
  unfold entryHash at got ⊢
  cases found : (hashNodes vars entry).find? (fun hash => hash.algorithm = algorithm) with
  | some cached =>
    simp only [found] at got ⊢
    exact got
  | none =>
    cases opened : files.fopen (cstr path) with
    | error failure => simp [found, opened] at got
    | ok content =>
      simp only [found, opened] at got ⊢
      rw [hashNodes_setHash, if_pos rfl, List.find?_append, found]
      simpa [hashFile] using got

end
end AppManager.Cert
