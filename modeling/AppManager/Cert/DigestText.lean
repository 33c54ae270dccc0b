import AppManager.Cert.Digest

/-! The text that the creation of a digest writes: the records of the entries that
are reached, selected and hashed, in the order of the traversal. -/

namespace AppManager.Cert
open AppManager.Lib AppManager.Lib.Libc AppManager.Utils

def recordOf (hash name : Bytes) : Bytes :=
  hash ++ fieldSeparator :: name ++ [recordTerminator]

theorem recordOf_length (hash name : Bytes) : (recordOf hash name).length = hash.length + name.length + 2 := by
  simp only [recordOf, List.length_append, List.length_cons, List.length_nil]
  omega

section
variable {hashing : Hashing}

theorem putRecord_spec (maker : DigestMaker hashing) (buffer text hash name : Bytes)
    (written : maker.buffer = store buffer 0 (text.take buffer.length)) (place : maker.pos = text.length) :
    putRecord maker hash name = ⟨(text ++ recordOf hash name).length,
      store buffer 0 ((text ++ recordOf hash name).take buffer.length), maker.rc, maker.vars⟩ := by
  unfold putRecord
  simp only [written, place, copyOut_spec]
  simp [recordOf]

def recordText (files : Files) (vars : DigestVars hashing) (algorithm : DigestAlgorithm)
    (wantsNode : Bytes → Nat → Bool) (visit : Visit) : Bytes :=
  if wantsNode visit.path visit.path.length then
    match (entryHash files vars visit.entry.ref algorithm visit.path).1 with
    | .error _ => []
    | .ok hash => recordOf hash.value visit.path
  else []

theorem recordText_congr (files : Files) {vars vars' : DigestVars hashing} (algorithm : DigestAlgorithm)
    (wantsNode : Bytes → Nat → Bool) (visit : Visit)
    (same : hashNodes vars visit.entry.ref = hashNodes vars' visit.entry.ref) :
    recordText files vars algorithm wantsNode visit = recordText files vars' algorithm wantsNode visit := by
  unfold recordText
  rw [(entryHash_congr files algorithm visit.path same).1]

theorem digestMakerStep_spec (files : Files) (algorithm : DigestAlgorithm)
    (wantsNode : Bytes → Nat → Bool) (maker : DigestMaker hashing) (visit : Visit) (buffer text : Bytes)
    (written : maker.buffer = store buffer 0 (text.take buffer.length)) (place : maker.pos = text.length) :
    ∃ rc, digestMakerStep files algorithm 0 wantsNode maker visit =
      ⟨(text ++ recordText files maker.vars algorithm wantsNode visit).length,
        store buffer 0 ((text ++ recordText files maker.vars algorithm wantsNode visit).take buffer.length),
        rc, if wantsNode visit.path visit.path.length then
          (entryHash files maker.vars visit.entry.ref algorithm visit.path).2 else maker.vars⟩ := by
  unfold digestMakerStep recordText
  by_cases wanted : wantsNode visit.path visit.path.length = true
  · simp only [if_pos wanted]
    rcases entryHash_cases files maker.vars visit.entry.ref algorithm visit.path with
      ⟨hash, _, _, result⟩ | ⟨failure, _, result⟩ | ⟨content, _, result⟩
    · rw [result]
      exact ⟨maker.rc, putRecord_spec _ buffer text hash.value visit.path written place⟩
    · rw [result]
      simp [written, place]
    · rw [result]
      exact ⟨maker.rc, putRecord_spec { maker with vars := _ } buffer text _ visit.path written place⟩
  · simp only [if_neg wanted, List.append_nil]
    exact ⟨maker.rc, by rw [← written, ← place]⟩

/-- The variables after the creation of a digest, as far as one pass is concerned. -/
structure Hashed (files : Files) (algorithm : DigestAlgorithm) (wantsNode : Bytes → Nat → Bool)
    (visits : List Visit) (before after : DigestVars hashing) : Prop where
  visited : ∀ visit ∈ visits, hashNodes after visit.entry.ref =
    if wantsNode visit.path visit.path.length then
      hashNodes (entryHash files before visit.entry.ref algorithm visit.path).2 visit.entry.ref
    else hashNodes before visit.entry.ref
  other : ∀ ref, (∀ visit ∈ visits, visit.entry.ref ≠ ref) → hashNodes after ref = hashNodes before ref

theorem foldl_digestMaker (files : Files) (algorithm : DigestAlgorithm)
    (wantsNode : Bytes → Nat → Bool) (visits : List Visit)
    (distinct : (visits.map (·.entry.ref)).Nodup) (maker : DigestMaker hashing) (buffer text : Bytes)
    (written : maker.buffer = store buffer 0 (text.take buffer.length)) (place : maker.pos = text.length) :
    ∃ rc vars, visits.foldl (digestMakerStep files algorithm 0 wantsNode) maker =
      ⟨(text ++ visits.flatMap (recordText files maker.vars algorithm wantsNode)).length,
        store buffer 0 ((text ++ visits.flatMap
          (recordText files maker.vars algorithm wantsNode)).take buffer.length), rc, vars⟩ ∧
      Hashed files algorithm wantsNode visits maker.vars vars := by
  induction visits generalizing maker text with
  | nil =>
    refine ⟨maker.rc, maker.vars, ?_, ?_⟩
    · simp [← written, ← place]
    · exact ⟨by simp, fun _ _ => rfl⟩
  | cons visit rest ih =>
    rw [List.map_cons, List.nodup_cons] at distinct
    obtain ⟨fresh, distinct⟩ := distinct
    obtain ⟨rc, first⟩ := digestMakerStep_spec files algorithm wantsNode maker visit buffer text
      written place
    have apart : ∀ other ∈ rest, other.entry.ref ≠ visit.entry.ref := by
      intro other member same
      exact fresh (List.mem_map.mpr ⟨other, member, same⟩)
    have kept : ∀ ref, ref ≠ visit.entry.ref → hashNodes
        (digestMakerStep files algorithm 0 wantsNode maker visit).vars ref = hashNodes maker.vars ref := by
      intro ref different
      rw [first]
      split
      · exact hashNodes_entryHash files maker.vars _ _ _ _ different
      · rfl
    have records : rest.flatMap (recordText files
        (digestMakerStep files algorithm 0 wantsNode maker visit).vars algorithm wantsNode) =
          rest.flatMap (recordText files maker.vars algorithm wantsNode) := by
      apply List.flatMap_congr
      intro other member
      exact recordText_congr files algorithm wantsNode other (kept _ (apart other member))
    obtain ⟨rc', vars, result, hashed⟩ := ih distinct
      (digestMakerStep files algorithm 0 wantsNode maker visit)
      (text ++ recordText files maker.vars algorithm wantsNode visit) (by rw [first]) (by rw [first])
    refine ⟨rc', vars, ?_, ?_, ?_⟩
    · rw [List.foldl_cons, result, records, List.flatMap_cons, List.append_assoc]
    · intro other member
      rcases List.mem_cons.mp member with same | later
      · rw [hashed.other other.entry.ref (fun earlier inside => same ▸ apart earlier inside), first, same]
        split <;> rfl
      · have same := kept _ (apart other later)
        rw [hashed.visited other later, same, (entryHash_congr files algorithm other.path same).2]
    · intro ref elsewhere
      rw [hashed.other ref (fun other member => elsewhere other (List.mem_cons_of_mem visit member)),
        kept ref (fun same => elsewhere visit (by simp) same.symm)]

def wantsNode (isdistributor : Bool) : Bytes → Nat → Bool :=
  if isdistributor then filterForDistributor else filterForAuthor

def digestText (files : Files) (vars : DigestVars hashing) (tree : PathTree)
    (algorithm : DigestAlgorithm) (isdistributor : Bool) : Bytes :=
  (reached tree).flatMap (recordText files vars algorithm (wantsNode isdistributor))

/-- The text is written from the start of the buffer, cut at its end, and the returned
value is its length as an `int`. -/
theorem createDigest_spec (files : Files) (vars : DigestVars hashing) (tree : PathTree)
    (algorithm : DigestAlgorithm) (buffer : Bytes) (isdistributor : Bool) :
    ∃ after, createDigest files vars tree.root algorithm buffer isdistributor =
      (toInt (digestText files vars tree algorithm isdistributor).length,
        store buffer 0 ((digestText files vars tree algorithm isdistributor).take buffer.length), after) ∧
      Hashed files algorithm (wantsNode isdistributor) (reached tree) vars after := by
  have start : ((pathEntryGetPath tree.root.lineage []).map Prod.fst).getD 0 = 0 := by
    rw [pathEntryGetPath_spec]
    simp [PathEntry.lineage, PathTree.root, PathTree.label, pathOf]
  obtain ⟨rc, after, result, hashed⟩ := foldl_digestMaker files algorithm (wantsNode isdistributor)
    (reached tree) (nodup_reached tree) (⟨0, buffer, 0, vars⟩ : DigestMaker hashing) buffer []
    (by simp [store]) rfl
  have traversal := pathEntryForEach_reached (digestMakerStep files algorithm 0 (wantsNode isdistributor))
    tree true (⟨0, buffer, 0, vars⟩ : DigestMaker hashing)
  refine ⟨after, ?_, hashed⟩
  unfold createDigest makeFileListDigest digestMakerCb
  rw [start]
  simp only [wantsNode] at traversal result
  simp only [traversal, result, digestText, wantsNode, List.nil_append]

end
def oneFile : PathTree := (pathEntryAddLength pathEntryCreateRoot (ascii "a") 1).2

/-- The only file is the empty file `a`. -/
def oneReadable : Files where
  fopen path := if path = ascii "a" then .ok [] else .error ⟨-ENOENT, by decide⟩
  fopen_empty := rfl
  fopen_long path long := by
    rw [if_neg]
    · rfl
    · intro same
      rw [same] at long
      exact absurd long (by decide)

end AppManager.Cert
