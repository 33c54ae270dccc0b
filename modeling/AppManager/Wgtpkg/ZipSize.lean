import AppManager.Wgtpkg.Zip

/-! The size of what an archive extracts. The declared sizes are added with 64 bits, and compared
once with the greatest size that is allowed. -/

namespace AppManager.Wgtpkg
open AppManager.Lib AppManager.Lib.Libc

def total : List ZipStat → Nat
  | [] => 0
  | zstat :: rest => (if zstat.name.getLast? = some slash then 0 else zstat.size.toNat) + total rest

/-- The entries are recorded and the check of their size is passed. -/
def PassesSize (archive : List ZipStat) (maxsize : UInt64) : Prop :=
  archive.length ≤ UINT_MAX ∧ ∃ files esize, recordFiles archive = some (files, esize) ∧
    ¬(maxsize ≠ 0 ∧ maxsize < esize)

/-- A name that `zread` does not refuse by itself. -/
def ProperName (name : Bytes) : Prop := isValidFilename name = true ∧ name.head? ≠ some slash ∧ name ≠ []

/-- An archive of which no entry is refused. -/
structure Acceptable (archive : List ZipStat) : Prop where
  few : archive.length ≤ UINT_MAX
  proper : ∀ zstat ∈ archive, ProperName zstat.name
  distinct : (archive.map ZipStat.name).Nodup

theorem Fdb.Tidy.nodup {files : Fdb} (tidy : files.Tidy) : (files.map FileDesc.name).Nodup := by
  rw [List.Nodup, List.pairwise_map]
  refine tidy.ascending.imp fun {first second} less same => ?_
  rw [same] at less
  exact List.lt_irrefl _ less

def counted (zstat : ZipStat) : UInt64 := if zstat.name.getLast? = some slash then 0 else zstat.size

theorem recordEntry_cases {state : Fdb × UInt64} (tidy : state.1.Tidy) (entry : ZipStat × Nat) :
    (¬(ProperName entry.1.name ∧ entry.1.name ∉ state.1.map FileDesc.name) ∧ recordEntry state entry = none) ∨
    ((ProperName entry.1.name ∧ entry.1.name ∉ state.1.map FileDesc.name) ∧ ∃ files,
      recordEntry state entry = some (files, state.2 + counted entry.1) ∧
      (files.map FileDesc.name).Perm (entry.1.name :: state.1.map FileDesc.name) ∧ files.Tidy) := by
  obtain ⟨zstat, index⟩ := entry
  by_cases proper : ProperName zstat.name
  · obtain ⟨valid, relative, named⟩ := proper
    have run : recordEntry state (zstat, index) = (state.1.fileAdd zstat.name
        (if zstat.name.getLast? = some slash then .directory else .file)).map fun added =>
          (added.1.setZindex added.2 index, state.2 + counted zstat) := by
      simp only [recordEntry, valid, Bool.not_true, Bool.false_eq_true, if_false, if_neg relative, if_neg named,
        counted]
      split_ifs
      · simp only [Fdb.fileAddDirectory, UInt64.add_zero]
      · rfl
    rw [run]
    rcases Fdb.fileAdd_tidy tidy zstat.name (if zstat.name.getLast? = some slash then .directory else .file)
      (by split_ifs <;> decide) index with ⟨known, refused⟩ | ⟨files, place, added, perm, tidy'⟩
    · exact Or.inl ⟨fun both => both.2 known, by rw [refused]; rfl⟩
    · have names := perm.map FileDesc.name
      have fresh := (List.nodup_cons.mp (names.nodup_iff.mp tidy'.nodup)).1
      exact Or.inr ⟨⟨⟨valid, relative, named⟩, fresh⟩, _, by rw [added]; rfl, names, tidy'⟩
  · refine Or.inl ⟨fun both => proper both.1, ?_⟩
    unfold recordEntry
    simp only
    split_ifs with invalid absolute empty
    · rfl
    · rfl
    · rfl
    · exact absurd ⟨by simpa using invalid, absolute, empty⟩ proper
    · exact absurd ⟨by simpa using invalid, absolute, empty⟩ proper

/-- Entries of which none is refused after these names. -/
def Fresh (entries : List (ZipStat × Nat)) (names : List Bytes) : Prop :=
  (∀ entry ∈ entries, ProperName entry.1.name ∧ entry.1.name ∉ names) ∧ (entries.map fun entry => entry.1.name).Nodup

theorem fresh_cons (entry : ZipStat × Nat) (rest : List (ZipStat × Nat)) {names names' : List Bytes}
    (more : names'.Perm (entry.1.name :: names)) :
    Fresh (entry :: rest) names ↔ (ProperName entry.1.name ∧ entry.1.name ∉ names) ∧ Fresh rest names' := by
  unfold Fresh
  rw [List.forall_mem_cons, List.map_cons, List.nodup_cons]
  simp only [more.mem_iff, List.mem_cons, not_or]
  constructor
  · rintro ⟨⟨first, others⟩, new, distinct⟩
    refine ⟨first, fun other member => ⟨(others other member).1, fun same => new ?_, (others other member).2⟩, distinct⟩
    exact same ▸ List.mem_map_of_mem member
  · rintro ⟨first, others, distinct⟩
    refine ⟨⟨first, fun other member => ⟨(others other member).1, (others other member).2.2⟩⟩, fun known => ?_,
      distinct⟩
    obtain ⟨other, member, same⟩ := List.mem_map.mp known
    exact (others other member).2.1 same

theorem foldl_counted {entries : List (ZipStat × Nat)} {state : Fdb × UInt64} (tidy : state.1.Tidy) :
    (¬Fresh entries (state.1.map FileDesc.name) ∧ entries.foldlM recordEntry state = none) ∨
    (Fresh entries (state.1.map FileDesc.name) ∧ ∃ files esize,
      entries.foldlM recordEntry state = some (files, esize) ∧
        esize.toNat = (state.2.toNat + total (entries.map Prod.fst)) % 2 ^ 64) := by
  induction entries generalizing state with
  | nil =>
    refine Or.inr ⟨⟨fun _ => nofun, List.nodup_nil⟩, state.1, state.2, rfl, ?_⟩
    exact (Nat.mod_eq_of_lt state.2.toNat_lt).symm
  | cons entry rest ih =>
    rw [List.foldlM_cons]
    rcases recordEntry_cases tidy entry with ⟨bad, refused⟩ | ⟨good, files, recorded, perm, tidy'⟩
    · rw [refused]
      refine Or.inl ⟨fun fresh => bad ?_, rfl⟩
      exact ((fresh_cons entry rest (List.Perm.refl _)).mp fresh).1
    · have size : total ((entry :: rest).map Prod.fst) = (counted entry.1).toNat + total (rest.map Prod.fst) := by
        rw [List.map_cons, total, counted]
        split_ifs <;> rfl
      rw [recorded, fresh_cons entry rest perm, and_iff_right good, size]
      rcases @ih (files, state.2 + counted entry.1) tidy' with ⟨bad, refused⟩ | ⟨fresh, files', esize, recorded', sum⟩
      · exact Or.inl ⟨bad, refused⟩
      · refine Or.inr ⟨fresh, files', esize, recorded', ?_⟩
        rw [sum, UInt64.toNat_add]
        omega

theorem recordFiles_cases (archive : List ZipStat) :
    (¬((∀ zstat ∈ archive, ProperName zstat.name) ∧ (archive.map ZipStat.name).Nodup) ∧ recordFiles archive = none) ∨
    (((∀ zstat ∈ archive, ProperName zstat.name) ∧ (archive.map ZipStat.name).Nodup) ∧ ∃ files esize,
      recordFiles archive = some (files, esize) ∧ esize.toNat = total archive % 2 ^ 64) := by
  have firsts : archive.zipIdx.map Prod.fst = archive := List.zipIdx_map_fst 0 archive
  have names : archive.zipIdx.map (fun entry => entry.1.name) = archive.map ZipStat.name := by
    conv_rhs => rw [← firsts]
    rw [List.map_map]
    rfl
  have fresh : Fresh archive.zipIdx [] ↔
      (∀ zstat ∈ archive, ProperName zstat.name) ∧ (archive.map ZipStat.name).Nodup := by
    rw [Fresh, names]
    refine and_congr_left fun _ => ?_
    conv_rhs => rw [← firsts]
    rw [List.forall_mem_map]
    exact forall₂_congr fun _ _ => and_iff_left List.not_mem_nil
  rw [← fresh]
  rcases @foldl_counted archive.zipIdx ([], 0) Fdb.Tidy.empty with refused | ⟨good, files, esize, recorded, sum⟩
  · exact Or.inl refused
  · refine Or.inr ⟨good, files, esize, recorded, ?_⟩
    rw [sum, firsts]
    exact congrArg (· % 2 ^ 64) (Nat.zero_add _)

theorem Acceptable.recorded {archive : List ZipStat} (acceptable : Acceptable archive) :
    ∃ files esize, recordFiles archive = some (files, esize) ∧ esize.toNat = total archive % 2 ^ 64 := by
  rcases recordFiles_cases archive with ⟨refused, -⟩ | ⟨-, recorded⟩
  · exact absurd ⟨acceptable.proper, acceptable.distinct⟩ refused
  · exact recorded

theorem PassesSize.acceptable {archive : List ZipStat} {maxsize : UInt64} (passes : PassesSize archive maxsize) :
    Acceptable archive := by
  obtain ⟨few, files, esize, recorded, -⟩ := passes
  rcases recordFiles_cases archive with ⟨-, refused⟩ | ⟨⟨proper, distinct⟩, -⟩
  · rw [refused] at recorded
    cases recorded
  · exact ⟨few, proper, distinct⟩

theorem zread_passes (host : Host) (archive : List ZipStat) (maxsize : UInt64) :
    (PassesSize archive maxsize ∧ ∃ files, zread host archive maxsize = unpack host archive files []) ∨
      (¬PassesSize archive maxsize ∧ zread host archive maxsize = ⟨some (-1), []⟩) := by
  by_cases few : archive.length ≤ UINT_MAX
  · rw [zread, if_neg (not_lt.mpr few)]
    cases recorded : recordFiles archive with
    | none =>
      refine Or.inr ⟨?_, rfl⟩
      rintro ⟨-, files, esize, recorded', -⟩
      rw [recorded] at recorded'
      cases recorded'
    | some state =>
      obtain ⟨files, esize⟩ := state
      have count : archive.length = files.length := by
        rw [(recordFiles_some recorded).2.length_eq, List.length_map, List.length_zipIdx]
      simp only
      by_cases big : maxsize ≠ 0 ∧ maxsize < esize
      · refine Or.inr ⟨?_, if_pos big⟩
        rintro ⟨-, files', esize', recorded', small⟩
        rw [recorded] at recorded'
        cases recorded'
        exact small big
      · rw [if_neg big, if_neg (not_not.mpr count)]
        exact Or.inl ⟨⟨few, files, esize, recorded, big⟩, files, rfl⟩
  · rw [zread, if_pos (not_le.mp few)]
    exact Or.inr ⟨fun passes => few passes.1, rfl⟩

/-- The sum of an archive that passes the check is bounded exactly when some entry is refused, or the sum is bounded
indeed, or what 64 bits keep of it is not. -/
theorem zread_bounded (archive : List ZipStat) {maxsize : UInt64} (limited : maxsize ≠ 0) :
    (PassesSize archive maxsize → total archive ≤ maxsize.toNat) ↔
      ¬Acceptable archive ∨ total archive ≤ maxsize.toNat ∨ maxsize.toNat < total archive % 2 ^ 64 := by
  constructor
  · intro bounded
    by_contra kept
    obtain ⟨acceptable, kept⟩ := not_or.mp kept
    obtain ⟨large, under⟩ := not_or.mp kept
    obtain ⟨files, esize, recorded, sum⟩ := (not_not.mp acceptable).recorded
    refine large (bounded ⟨(not_not.mp acceptable).few, files, esize, recorded, fun big => under ?_⟩)
    rw [← sum]
    exact UInt64.lt_iff_toNat_lt.mp big.2
  · rintro (refused | small | seen) passes
    · exact absurd passes.acceptable refused
    · exact small
    · obtain ⟨files', esize', recorded', sum⟩ := passes.acceptable.recorded
      obtain ⟨-, files, esize, recorded, passed⟩ := passes
      rw [recorded] at recorded'
      cases recorded'
      rw [← sum] at seen
      exact absurd ⟨limited, UInt64.lt_iff_toNat_lt.mpr seen⟩ passed

theorem zread_bounded_sample : (PassesSize sampleArchive 2 → total sampleArchive ≤ (2 : UInt64).toNat) ↔
    ¬Acceptable sampleArchive ∨ total sampleArchive ≤ (2 : UInt64).toNat ∨
      (2 : UInt64).toNat < total sampleArchive % 2 ^ 64 :=
  zread_bounded sampleArchive (by decide)

/-- Two files of 2^63 bytes are unpacked where one byte is allowed. -/
theorem zread_unbounded : ¬∀ (archive : List ZipStat) (maxsize : UInt64), maxsize ≠ 0 → PassesSize archive maxsize →
    total archive ≤ maxsize.toNat := by
  intro bounded
  have small := bounded [⟨ascii "a", 0x8000000000000000⟩, ⟨ascii "b", 0x8000000000000000⟩] 1 (by decide)
    ⟨by decide, [⟨ascii "a", .file, 0⟩, ⟨ascii "b", .file, 1⟩], 0, by decide +kernel, by decide⟩
  exact absurd small (by decide)

end AppManager.Wgtpkg
