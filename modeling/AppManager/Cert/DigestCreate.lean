import AppManager.Cert.DigestText
import Mathlib.Algebra.BigOperators.Group.List.Basic
import Mathlib.Data.List.Nodup
import Mathlib.Data.List.Perm.Subperm

/-! Which digests are complete. A file that cannot be hashed, or an entry that the
traversal does not reach, is left out of the text without any sign of it. -/

namespace AppManager.Cert
open AppManager.Lib AppManager.Lib.Libc AppManager.Utils

section
variable {hashing : Hashing}

/-- The allocation of a buffer, with any content. The two passes may see different files. -/
def makeSignedDigest (files files' : Files) (vars : DigestVars hashing) (root : PathEntry)
    (isdistributor : Bool) (algorithm : DigestAlgorithm)
    (malloc : (size : Nat) → Option { buffer : Bytes // buffer.length = size })
    (makeSignature : Bytes → Int) : Int × Option Bytes :=
  let sizing := createDigest files vars root algorithm [] isdistributor
  if sizing.1 < 0 then (sizing.1, none)
  else match malloc sizing.1.toNat with
    | none => (-ENOMEM, none)
    | some buffer =>
      let writing := createDigest files' sizing.2.2 root algorithm buffer.1 isdistributor
      if writing.1 < 0 then (writing.1, none)
      else (makeSignature writing.2.1, some writing.2.1)

/-- The added entries that a digest of that mode has to record. -/
def selected (tree : PathTree) (isdistributor : Bool) : List Visit :=
  (addedVisits tree).filter fun visit => wantsNode isdistributor visit.path visit.path.length

/-- Exactly one record for each selected entry, with some text for its hash. -/
def Complete (hashing : Hashing) (tree : PathTree) (algorithm : DigestAlgorithm) (isdistributor : Bool)
    (text : Bytes) : Prop :=
  ∃ hash : Visit → Bytes, (∀ visit, (hash visit).length = 2 * hashing.hashGetLen algorithm) ∧
    ∃ order : List Visit, order.Perm (selected tree isdistributor) ∧
      text = order.flatMap fun visit => recordOf (hash visit) visit.path

def hashable (files : Files) (vars : DigestVars hashing) (algorithm : DigestAlgorithm) (visit : Visit) :
    Bool :=
  (entryHash files vars visit.entry.ref algorithm visit.path).1.isOk

def recorded (tree : PathTree) (isdistributor : Bool) (hashed : Visit → Bool) : List Visit :=
  (reached tree).filter fun visit => wantsNode isdistributor visit.path visit.path.length && hashed visit

def recordLength (hashing : Hashing) (algorithm : DigestAlgorithm) (visit : Visit) : Nat :=
  2 * hashing.hashGetLen algorithm + visit.path.length + 2

def recordsLength (hashing : Hashing) (algorithm : DigestAlgorithm) (visits : List Visit) : Nat :=
  (visits.map (recordLength hashing algorithm)).sum

theorem recordsLength_sublist (hashing : Hashing) (algorithm : DigestAlgorithm) {first second : List Visit}
    (part : first.Sublist second) :
    recordsLength hashing algorithm first ≤ recordsLength hashing algorithm second ∧
      (recordsLength hashing algorithm first = recordsLength hashing algorithm second → first = second) := by
  induction part with
  | slnil => exact ⟨le_rfl, fun _ => rfl⟩
  | cons visit _ ih =>
    have positive : 0 < recordLength hashing algorithm visit := by
      unfold recordLength
      omega
    simp only [recordsLength, List.map_cons, List.sum_cons] at ih ⊢
    constructor
    · omega
    · intro same
      omega
  | cons_cons visit _ ih =>
    simp only [recordsLength, List.map_cons, List.sum_cons] at ih ⊢
    constructor
    · omega
    · intro same
      rw [ih.2 (by omega)]

def hashOf (files : Files) (vars : DigestVars hashing) (algorithm : DigestAlgorithm) (visit : Visit) :
    Bytes :=
  match (entryHash files vars visit.entry.ref algorithm visit.path).1 with
  | .ok hash => hash.value
  | .error _ => List.replicate (2 * hashing.hashGetLen algorithm) 0

theorem entryHash_algorithm (files : Files) (vars : DigestVars hashing) (entry : Ref)
    (algorithm : DigestAlgorithm) (path : Bytes) (hash : HashNode hashing)
    (got : (entryHash files vars entry algorithm path).1 = .ok hash) : hash.algorithm = algorithm := by
  rcases entryHash_cases files vars entry algorithm path with
    ⟨cached, _, same, result⟩ | ⟨failure, _, result⟩ | ⟨content, _, result⟩
  · rw [result] at got
    rw [← Except.ok.inj got, same]
  · simp [result] at got
  · rw [result] at got
    rw [← Except.ok.inj got]
    rfl

theorem hashOf_length (files : Files) (vars : DigestVars hashing) (algorithm : DigestAlgorithm)
    (visit : Visit) : (hashOf files vars algorithm visit).length = 2 * hashing.hashGetLen algorithm := by
  unfold hashOf
  cases got : (entryHash files vars visit.entry.ref algorithm visit.path).1 with
  | error failure => exact List.length_replicate
  | ok hash =>
    rw [← entryHash_algorithm files vars _ _ _ hash got]
    exact hash.size

theorem flatMap_recordText (files : Files) (vars : DigestVars hashing) (algorithm : DigestAlgorithm)
    (isdistributor : Bool) (visits : List Visit) :
    visits.flatMap (recordText files vars algorithm (wantsNode isdistributor)) =
      (visits.filter fun visit => wantsNode isdistributor visit.path visit.path.length &&
        hashable files vars algorithm visit).flatMap
          fun visit => recordOf (hashOf files vars algorithm visit) visit.path := by
  induction visits with
  | nil => rfl
  | cons visit rest ih =>
    rw [List.flatMap_cons, ih, List.filter_cons]
    unfold recordText hashable
    cases wantsNode isdistributor visit.path visit.path.length with
    | false => simp
    | true =>
      cases got : (entryHash files vars visit.entry.ref algorithm visit.path).1 with
      | error failure => simp [Except.isOk, Except.toBool]
      | ok hash => simp [Except.isOk, Except.toBool, hashOf, got]

theorem flatMap_recordOf_length (algorithm : DigestAlgorithm) (hash : Visit → Bytes)
    (sized : ∀ visit, (hash visit).length = 2 * hashing.hashGetLen algorithm) (visits : List Visit) :
    (visits.flatMap fun visit => recordOf (hash visit) visit.path).length =
      recordsLength hashing algorithm visits := by
  induction visits with
  | nil => rfl
  | cons visit rest ih =>
    rw [List.flatMap_cons, List.length_append, ih, recordOf_length, sized]
    simp only [recordsLength, recordLength, List.map_cons, List.sum_cons]

theorem digestText_length (files : Files) (vars : DigestVars hashing) (tree : PathTree)
    (algorithm : DigestAlgorithm) (isdistributor : Bool) :
    (digestText files vars tree algorithm isdistributor).length =
      recordsLength hashing algorithm (recorded tree isdistributor (hashable files vars algorithm)) := by
  unfold digestText recorded
  rw [flatMap_recordText]
  exact flatMap_recordOf_length algorithm _ (hashOf_length files vars algorithm) _

theorem complete_length (tree : PathTree) (algorithm : DigestAlgorithm) (isdistributor : Bool)
    (text : Bytes) (complete : Complete hashing tree algorithm isdistributor text) :
    text.length = recordsLength hashing algorithm (selected tree isdistributor) := by
  obtain ⟨hash, sized, order, perm, same⟩ := complete
  rw [same, flatMap_recordOf_length algorithm hash sized]
  exact (perm.map _).sum_eq

theorem recorded_sublist (tree : PathTree) (isdistributor : Bool) (hashed : Visit → Bool) :
    (recorded tree isdistributor hashed).Sublist (selected tree isdistributor) := by
  have split : recorded tree isdistributor hashed = ((reached tree).filter fun visit =>
      wantsNode isdistributor visit.path visit.path.length).filter hashed := by
    rw [List.filter_filter]
    unfold recorded
    congr 1
    funext visit
    exact Bool.and_comm _ _
  rw [split]
  exact List.filter_sublist.trans ((reached_of_added tree).sublist.filter _)

/-- Every selected entry is reached and hashed. -/
def AllRecorded (tree : PathTree) (isdistributor : Bool) (hashed : Visit → Bool) : Prop :=
  ∀ visit ∈ selected tree isdistributor, visit ∈ reached tree ∧ hashed visit = true

theorem allRecorded_iff (tree : PathTree) (isdistributor : Bool) (hashed : Visit → Bool) :
    AllRecorded tree isdistributor hashed ↔
      recorded tree isdistributor hashed = selected tree isdistributor := by
  constructor
  · intro all
    apply (recorded_sublist tree isdistributor hashed).eq_of_length_le
    have distinct : (selected tree isdistributor).Nodup :=
      (List.Nodup.of_map _ (nodup_addedVisits tree)).sublist List.filter_sublist
    apply (distinct.subperm ?_).length_le
    intro visit member
    have wanted := (List.mem_filter.mp member).2
    obtain ⟨known, hashes⟩ := all visit member
    exact List.mem_filter.mpr ⟨known, by rw [wanted, hashes]; rfl⟩
  · intro same visit member
    rw [← same] at member
    obtain ⟨known, both⟩ := List.mem_filter.mp member
    exact ⟨known, (Bool.and_eq_true_iff.mp both).2⟩

theorem complete_of_allRecorded (files : Files) (vars : DigestVars hashing) (tree : PathTree)
    (algorithm : DigestAlgorithm) (isdistributor : Bool)
    (all : AllRecorded tree isdistributor (hashable files vars algorithm)) :
    Complete hashing tree algorithm isdistributor (digestText files vars tree algorithm isdistributor) := by
  refine ⟨hashOf files vars algorithm, hashOf_length files vars algorithm,
    selected tree isdistributor, List.Perm.refl _, ?_⟩
  rw [← (allRecorded_iff tree isdistributor _).mp all]
  exact flatMap_recordText files vars algorithm isdistributor (reached tree)

theorem allRecorded_of_length (files : Files) (vars : DigestVars hashing) (tree : PathTree)
    (algorithm : DigestAlgorithm) (isdistributor : Bool) (text : Bytes)
    (complete : Complete hashing tree algorithm isdistributor text)
    (returned : (text.length : Int) = toInt (digestText files vars tree algorithm isdistributor).length) :
    recordsLength hashing algorithm (recorded tree isdistributor (hashable files vars algorithm)) < 2 ^ 31 ∧
      AllRecorded tree isdistributor (hashable files vars algorithm) := by
  have whole := complete_length tree algorithm isdistributor text complete
  have below := toInt_le (digestText files vars tree algorithm isdistributor).length
  have bounded := toInt_lt (digestText files vars tree algorithm isdistributor).length
  have part := recordsLength_sublist hashing algorithm
    (recorded_sublist tree isdistributor (hashable files vars algorithm))
  rw [digestText_length] at returned below bounded
  constructor
  · omega
  · apply (allRecorded_iff tree isdistributor _).mpr
    apply part.2
    omega

/-- Success of the creation means a complete text, whatever the buffer. -/
def CreatesComplete (files : Files) (vars : DigestVars hashing) (tree : PathTree)
    (algorithm : DigestAlgorithm) (isdistributor : Bool) : Prop :=
  ∀ buffer : Bytes,
    (createDigest files vars tree.root algorithm buffer isdistributor).1 < 0 ∨
    ((createDigest files vars tree.root algorithm buffer isdistributor).1 ≤ buffer.length →
      Complete hashing tree algorithm isdistributor
        ((createDigest files vars tree.root algorithm buffer isdistributor).2.1.take
          (createDigest files vars tree.root algorithm buffer isdistributor).1.toNat))

/-- Success of the signature means that a complete text was signed. -/
def SignsComplete (files files' : Files) (vars : DigestVars hashing) (tree : PathTree)
    (algorithm : DigestAlgorithm) (isdistributor : Bool) : Prop :=
  ∀ malloc makeSignature,
    (makeSignedDigest files files' vars tree.root isdistributor algorithm malloc makeSignature).1 < 0 ∨
    ∃ text, (makeSignedDigest files files' vars tree.root isdistributor algorithm malloc
      makeSignature).2 = some text ∧ Complete hashing tree algorithm isdistributor text

theorem createsComplete_iff (files : Files) (vars : DigestVars hashing) (tree : PathTree)
    (algorithm : DigestAlgorithm) (isdistributor : Bool) :
    CreatesComplete files vars tree algorithm isdistributor ↔
      toInt (recordsLength hashing algorithm
        (recorded tree isdistributor (hashable files vars algorithm))) < 0 ∨
      (recordsLength hashing algorithm
        (recorded tree isdistributor (hashable files vars algorithm)) < 2 ^ 31 ∧
        AllRecorded tree isdistributor (hashable files vars algorithm)) := by
  rw [← digestText_length]
  constructor
  · intro creates
    by_cases negative : toInt (digestText files vars tree algorithm isdistributor).length < 0
    · exact Or.inl negative
    · right
      rw [digestText_length]
      let buffer : Bytes := List.replicate
        (toInt (digestText files vars tree algorithm isdistributor).length).toNat 0
      obtain ⟨after, result, -⟩ := createDigest_spec files vars tree algorithm buffer isdistributor
      have size : buffer.length =
          (toInt (digestText files vars tree algorithm isdistributor).length).toNat :=
        List.length_replicate
      have complete := (creates buffer).resolve_left (by rw [result]; exact negative)
      rw [result] at complete
      have filled := complete (by rw [size]; omega)
      apply allRecorded_of_length files vars tree algorithm isdistributor _ filled
      rw [List.length_take, store_length _ _ _ (by rw [List.length_take]; omega), size]
      omega
  · intro condition buffer
    obtain ⟨after, result, -⟩ := createDigest_spec files vars tree algorithm buffer isdistributor
    rw [result]
    rcases condition with negative | ⟨small, all⟩
    · exact Or.inl negative
    · right
      rw [toInt_of_small _ small]
      intro fits
      have room : (digestText files vars tree algorithm isdistributor).length ≤ buffer.length := by
        omega
      have written := take_store_end buffer (digestText files vars tree algorithm isdistributor) 0
        (Nat.zero_le _)
      rw [Nat.zero_add, List.take_zero, List.nil_append] at written
      rw [List.take_of_length_le room, Int.toNat_natCast, written]
      exact complete_of_allRecorded files vars tree algorithm isdistributor all

theorem hashable_again (files files' : Files) (vars after : DigestVars hashing)
    (algorithm : DigestAlgorithm) (visit : Visit)
    (kept : hashNodes after visit.entry.ref =
      hashNodes (entryHash files vars visit.entry.ref algorithm visit.path).2 visit.entry.ref) :
    hashable files' after algorithm visit =
      (hashable files vars algorithm visit || hashable files' vars algorithm visit) := by
  unfold hashable
  rw [(entryHash_congr files' algorithm visit.path kept).1]
  cases got : (entryHash files vars visit.entry.ref algorithm visit.path).1 with
  | ok hash =>
    rw [entryHash_again files files' vars _ _ _ visit.path hash got]
    rfl
  | error failure =>
    rcases entryHash_cases files vars visit.entry.ref algorithm visit.path with
      ⟨hash, _, _, result⟩ | ⟨failure, _, result⟩ | ⟨content, _, result⟩
    · simp [result] at got
    · rw [result]
      rfl
    · simp [result] at got

theorem recorded_again (files files' : Files) (vars after : DigestVars hashing) (tree : PathTree)
    (algorithm : DigestAlgorithm) (isdistributor : Bool)
    (hashed : Hashed files algorithm (wantsNode isdistributor) (reached tree) vars after) :
    recorded tree isdistributor (hashable files' after algorithm) =
      recorded tree isdistributor fun visit =>
        hashable files vars algorithm visit || hashable files' vars algorithm visit := by
  unfold recorded
  apply List.filter_congr
  intro visit member
  cases wanted : wantsNode isdistributor visit.path visit.path.length with
  | false => rfl
  | true =>
    have kept := hashed.visited visit member
    rw [if_pos wanted] at kept
    rw [hashable_again files files' vars after algorithm visit kept]

theorem signsComplete_iff (files files' : Files) (vars : DigestVars hashing) (tree : PathTree)
    (algorithm : DigestAlgorithm) (isdistributor : Bool) :
    SignsComplete files files' vars tree algorithm isdistributor ↔
      toInt (recordsLength hashing algorithm
        (recorded tree isdistributor (hashable files vars algorithm))) < 0 ∨
      toInt (recordsLength hashing algorithm (recorded tree isdistributor fun visit =>
        hashable files vars algorithm visit || hashable files' vars algorithm visit)) < 0 ∨
      (recordsLength hashing algorithm
        (recorded tree isdistributor (hashable files vars algorithm)) < 2 ^ 31 ∧
        AllRecorded tree isdistributor (hashable files vars algorithm)) := by
  obtain ⟨after, sizing, hashed⟩ := createDigest_spec files vars tree algorithm [] isdistributor
  have again := recorded_again files files' vars after tree algorithm isdistributor hashed
  rw [← again, ← digestText_length files vars, ← digestText_length files' after]
  constructor
  · intro signs
    by_cases negative : toInt (digestText files vars tree algorithm isdistributor).length < 0
    · exact Or.inl negative
    by_cases negative' : toInt (digestText files' after tree algorithm isdistributor).length < 0
    · exact Or.inr (Or.inl negative')
    right
    right
    obtain ⟨last, writing, -⟩ := createDigest_spec files' after tree algorithm (List.replicate
      (toInt (digestText files vars tree algorithm isdistributor).length).toNat 0) isdistributor
    have signed := signs (fun size => some ⟨List.replicate size 0, List.length_replicate⟩) (fun _ => 0)
    simp only [makeSignedDigest, sizing, if_neg negative, writing, if_neg negative'] at signed
    obtain ⟨text, same, complete⟩ := signed.resolve_left (by decide)
    rw [digestText_length]
    apply allRecorded_of_length files vars tree algorithm isdistributor text complete
    rw [← Option.some.inj same, store_length _ _ _ (by rw [List.length_take]; omega),
      List.length_replicate]
    omega
  · intro condition malloc makeSignature
    unfold makeSignedDigest
    simp only [sizing]
    split
    · next negative => exact Or.inl negative
    · next positive =>
      cases malloc (createDigest files vars tree.root algorithm [] isdistributor).1.toNat with
      | none => exact Or.inl (by decide : -ENOMEM < 0)
      | some buffer =>
        obtain ⟨last, writing, -⟩ :=
          createDigest_spec files' after tree algorithm buffer.1 isdistributor
        simp only [writing]
        split
        · next negative => exact Or.inl negative
        · next positive' =>
          right
          obtain ⟨small, all⟩ := (condition.resolve_left positive).resolve_left positive'
          have all' : AllRecorded tree isdistributor (hashable files' after algorithm) := by
            intro visit member
            have wanted := (List.mem_filter.mp member).2
            have kept := hashed.visited visit (all visit member).1
            rw [if_pos wanted] at kept
            rw [hashable_again files files' vars after algorithm visit kept, (all visit member).2]
            exact ⟨(all visit member).1, rfl⟩
          have same : (digestText files' after tree algorithm isdistributor).length =
              (digestText files vars tree algorithm isdistributor).length := by
            rw [digestText_length, digestText_length, (allRecorded_iff tree isdistributor _).mp all,
              (allRecorded_iff tree isdistributor _).mp all']
          have room : buffer.1.length = (digestText files' after tree algorithm isdistributor).length := by
            rw [buffer.2, sizing, toInt_of_small _ small, same]
            rfl
          refine ⟨_, rfl, ?_⟩
          rw [store_zero, room, List.take_length, List.drop_eq_nil_of_le room.le, List.append_nil]
          exact complete_of_allRecorded files' after tree algorithm isdistributor all'

/-- Both are complete exactly when nothing is left out of the first pass, or when the
length of a text is taken for an error code. -/
theorem digest_complete_iff (files files' : Files) (vars : DigestVars hashing) (tree : PathTree)
    (algorithm : DigestAlgorithm) (isdistributor : Bool) :
    (CreatesComplete files vars tree algorithm isdistributor ↔
      toInt (recordsLength hashing algorithm
        (recorded tree isdistributor (hashable files vars algorithm))) < 0 ∨
      (recordsLength hashing algorithm
        (recorded tree isdistributor (hashable files vars algorithm)) < 2 ^ 31 ∧
        AllRecorded tree isdistributor (hashable files vars algorithm))) ∧
    (SignsComplete files files' vars tree algorithm isdistributor ↔
      toInt (recordsLength hashing algorithm
        (recorded tree isdistributor (hashable files vars algorithm))) < 0 ∨
      toInt (recordsLength hashing algorithm (recorded tree isdistributor fun visit =>
        hashable files vars algorithm visit || hashable files' vars algorithm visit)) < 0 ∨
      (recordsLength hashing algorithm
        (recorded tree isdistributor (hashable files vars algorithm)) < 2 ^ 31 ∧
        AllRecorded tree isdistributor (hashable files vars algorithm))) :=
  ⟨createsComplete_iff files vars tree algorithm isdistributor,
    signsComplete_iff files files' vars tree algorithm isdistributor⟩

end

def noFiles : Files where
  fopen _ := .error ⟨-ENOENT, ENOENT_failure⟩
  fopen_empty := rfl
  fopen_long _ _ := rfl

theorem unreadable_file_omitted :
    ¬CreatesComplete noFiles (fun _ => [] : DigestVars zeroHashing) oneFile .sha256 false ∧
    ¬SignsComplete noFiles noFiles (fun _ => [] : DigestVars zeroHashing) oneFile .sha256 false := by
  have missing : ¬Complete zeroHashing oneFile .sha256 false [] := by
    intro complete
    have length := complete_length oneFile .sha256 false [] complete
    exact absurd length (by decide +kernel)
  constructor
  · intro creates
    have result : (createDigest noFiles (fun _ => [] : DigestVars zeroHashing) oneFile.root .sha256 []
        false).1 = 0 := by decide +kernel
    have silent := (creates []).resolve_left (by rw [result]; decide)
    rw [result] at silent
    exact missing (silent (by decide))
  · intro signs
    obtain ⟨text, same, complete⟩ := (signs (fun size => some ⟨List.replicate size 0, List.length_replicate⟩)
      (fun _ => 0)).resolve_left (by decide +kernel)
    have empty : (makeSignedDigest noFiles noFiles (fun _ => [] : DigestVars zeroHashing) oneFile.root
        false .sha256 (fun size => some ⟨List.replicate size 0, List.length_replicate⟩) (fun _ => 0)).2 =
        some [] := by decide +kernel
    rw [empty] at same
    exact missing (Option.some.inj same ▸ complete)

end AppManager.Cert
