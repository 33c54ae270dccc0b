import AppManager.Wgtpkg.Files
import AppManager.Wgtpkg.Subpath

/-! The extraction of an archive. Its entries are checked and recorded first, then created
under the working directory in the order of their names. -/

namespace AppManager.Wgtpkg
open AppManager.Lib AppManager.Lib.Libc

def forbiddenBytes : Bytes := [0x7f, 0x3c, 0x3e, 0x3a, 0x22, 0x5c, 0x7c, 0x3f, 0x2a, 0x5e, 0x60, 0x7b, 0x7d, 0x21]

def isValidFilenameFrom (first lastsp : Bool) : Bytes → Bool
  | [] => !lastsp
  | c :: rest =>
    if c < 0x1f ∨ (c = 0x20 ∧ first) ∨ c ∈ forbiddenBytes then false
    else isValidFilenameFrom false (c = 0x20) rest

def isValidFilename (filename : Bytes) : Bool := isValidFilenameFrom true false filename

/-- What `zip_stat_index` tells of an entry. -/
structure ZipStat where
  name : Bytes
  size : UInt64

/-- An entry is recorded with the sum of the sizes, or the archive is refused. -/
def recordEntry (state : Fdb × UInt64) (entry : ZipStat × Nat) : Option (Fdb × UInt64) :=
  let (zstat, index) := entry
  if !isValidFilename zstat.name then none
  else if zstat.name.head? = some slash then none
  else if zstat.name = [] then none
  else if zstat.name.getLast? = some slash then
    (state.1.fileAddDirectory zstat.name).map fun (files, place) => (files.setZindex place index, state.2)
  else
    (state.1.fileAddFile zstat.name).map fun (files, place) => (files.setZindex place index, state.2 + zstat.size)

def recordFiles (archive : List ZipStat) : Option (Fdb × UInt64) := archive.zipIdx.foldlM recordEntry ([], 0)

/-- The paths that the extraction gives to `create_directory` and to `create_file`. -/
inductive Given where
  | directory (path : Bytes)
  | file (path : Bytes)
  deriving DecidableEq, Repr

def Given.path : Given → Bytes
  | directory path => path
  | file path => path

/-- What the system and the library answer, after what was given so far. -/
structure Host where
  createDirectory : List Given → Bytes → Bool
  zipFopenIndex : List Given → Nat → Bool
  createFile : List Given → Bytes → Bool
  extract : List Given → Nat → Bool

/-- The result of `zread`, which is missing where an assertion fails. -/
structure Extraction where
  rc : Option Int
  given : List Given

section
variable (host : Host) (archive : List ZipStat)

def unpack : Fdb → List Given → Extraction
  | [], given => ⟨some 0, given⟩
  | fdesc :: rest, given =>
    match archive[fdesc.zindex]? with
    | none => ⟨none, given⟩
    | some zstat =>
      if zstat.name.head? = some slash ∨ zstat.name = [] then ⟨none, given⟩
      else if zstat.name.getLast? = some slash then
        if host.createDirectory given zstat.name then unpack rest (given ++ [.directory zstat.name])
        else ⟨some (-1), given ++ [.directory zstat.name]⟩
      else if !host.zipFopenIndex given fdesc.zindex then ⟨some (-1), given⟩
      else if host.createFile given zstat.name ∧ host.extract given fdesc.zindex then
        unpack rest (given ++ [.file zstat.name])
      else ⟨some (-1), given ++ [.file zstat.name]⟩

def zread (maxsize : UInt64) : Extraction :=
  if UINT_MAX < archive.length then ⟨some (-1), []⟩
  else match recordFiles archive with
    | none => ⟨some (-1), []⟩
    | some (files, esize) =>
      if maxsize ≠ 0 ∧ maxsize < esize then ⟨some (-1), []⟩
      else if archive.length ≠ files.length then ⟨none, []⟩
      else unpack host archive files []

end

def described (entry : ZipStat × Nat) : FileDesc :=
  ⟨entry.1.name, if entry.1.name.getLast? = some slash then .directory else .file, entry.2⟩

theorem recordEntry_some {state state' : Fdb × UInt64} {entry : ZipStat × Nat} (tidy : state.1.Tidy)
    (recorded : recordEntry state entry = some state') :
    ¬Absolute entry.1.name ∧ entry.1.name ≠ [] ∧ state'.1.Perm (described entry :: state.1) ∧ state'.1.Tidy := by
  obtain ⟨zstat, index⟩ := entry
  unfold recordEntry at recorded
  simp only at recorded
  split at recorded
  · cases recorded
  split at recorded
  · cases recorded
  next relative =>
    split at recorded
    · cases recorded
    next named =>
      refine ⟨relative, named, ?_⟩
      split at recorded
      · next directory =>
        rcases Fdb.fileAdd_tidy tidy zstat.name .directory (by decide) index with ⟨-, refused⟩ | added
        · rw [Fdb.fileAddDirectory, refused] at recorded
          cases recorded
        · obtain ⟨files, place, added, perm, tidy'⟩ := added
          rw [Fdb.fileAddDirectory, added] at recorded
          cases recorded
          rw [described, if_pos directory]
          exact ⟨perm, tidy'⟩
      · next file =>
        rcases Fdb.fileAdd_tidy tidy zstat.name .file (by decide) index with ⟨-, refused⟩ | added
        · rw [Fdb.fileAddFile, refused] at recorded
          cases recorded
        · obtain ⟨files, place, added, perm, tidy'⟩ := added
          rw [Fdb.fileAddFile, added] at recorded
          cases recorded
          rw [described, if_neg file]
          exact ⟨perm, tidy'⟩

theorem foldl_recorded {entries : List (ZipStat × Nat)} {state state' : Fdb × UInt64} (tidy : state.1.Tidy)
    (recorded : entries.foldlM recordEntry state = some state') :
    (∀ entry ∈ entries, ¬Absolute entry.1.name ∧ entry.1.name ≠ []) ∧
      state'.1.Perm (entries.map described ++ state.1) := by
  induction entries generalizing state with
  | nil =>
    cases recorded
    exact ⟨fun _ => nofun, List.Perm.refl _⟩
  | cons entry rest ih =>
    rw [List.foldlM_cons, Option.bind_eq_bind, Option.bind_eq_some_iff] at recorded
    obtain ⟨middle, first, later⟩ := recorded
    obtain ⟨relative, named, perm, tidy'⟩ := recordEntry_some tidy first
    obtain ⟨others, perm'⟩ := ih tidy' later
    refine ⟨List.forall_mem_cons.mpr ⟨⟨relative, named⟩, others⟩, ?_⟩
    exact perm'.trans ((perm.append_left _).trans List.perm_middle)

theorem recordFiles_some {archive : List ZipStat} {files : Fdb} {esize : UInt64}
    (recorded : recordFiles archive = some (files, esize)) :
    (∀ zstat ∈ archive, ¬Absolute zstat.name ∧ zstat.name ≠ []) ∧ files.Perm (archive.zipIdx.map described) := by
  obtain ⟨proper, perm⟩ := foldl_recorded Fdb.Tidy.empty recorded
  rw [List.append_nil] at perm
  refine ⟨fun zstat member => ?_, perm⟩
  obtain ⟨index, inside, rfl⟩ := List.mem_iff_getElem.mp member
  exact proper (archive[index], index) (List.mem_zipIdx_iff_getElem?.mpr (List.getElem?_eq_getElem inside))

theorem unpack_given {host : Host} {archive : List ZipStat} (files : Fdb) (before : List Given) :
    ∀ given ∈ (unpack host archive files before).given,
      given ∈ before ∨ ∃ zstat ∈ archive, given.path = zstat.name := by
  induction files generalizing before with
  | nil => exact fun given member => Or.inl member
  | cons fdesc rest ih =>
    have grown {zstat : ZipStat} (found : archive[fdesc.zindex]? = some zstat) (last : Given)
        (path : last.path = zstat.name) (given : Given) (member : given ∈ before ++ [last]) :
        given ∈ before ∨ ∃ zstat ∈ archive, given.path = zstat.name := by
      rcases List.mem_append.mp member with earlier | here
      · exact Or.inl earlier
      · rw [List.mem_singleton.mp here]
        exact Or.inr ⟨zstat, List.mem_of_getElem? found, path⟩
    have later {zstat : ZipStat} (found : archive[fdesc.zindex]? = some zstat) (last : Given)
        (path : last.path = zstat.name) (given : Given)
        (member : given ∈ (unpack host archive rest (before ++ [last])).given) :
        given ∈ before ∨ ∃ zstat ∈ archive, given.path = zstat.name := by
      rcases ih (before ++ [last]) given member with earlier | entry
      · exact grown found last path given earlier
      · exact Or.inr entry
    intro given member
    rw [unpack] at member
    split at member
    · exact Or.inl member
    next zstat found =>
      split at member
      · exact Or.inl member
      · split at member
        · split at member
          · exact later found (.directory zstat.name) rfl given member
          · exact grown found (.directory zstat.name) rfl given member
        · split at member
          · exact Or.inl member
          · split at member
            · exact later found (.file zstat.name) rfl given member
            · exact grown found (.file zstat.name) rfl given member

def Host.ready : Host := ⟨fun _ _ => true, fun _ _ => true, fun _ _ => true, fun _ _ => true⟩

theorem unpack_ready {archive : List ZipStat} (proper : ∀ zstat ∈ archive, ¬Absolute zstat.name ∧ zstat.name ≠ [])
    (files : Fdb) (known : ∀ fdesc ∈ files, ∃ zstat, archive[fdesc.zindex]? = some zstat ∧ zstat.name = fdesc.name)
    (before : List Given) :
    (unpack .ready archive files before).given.map Given.path = before.map Given.path ++ files.map FileDesc.name := by
  induction files generalizing before with
  | nil => exact (List.append_nil _).symm
  | cons fdesc rest ih =>
    obtain ⟨⟨zstat, found, same⟩, others⟩ := List.forall_mem_cons.mp known
    have allowed : ¬(zstat.name.head? = some slash ∨ zstat.name = []) :=
      not_or.mpr (proper zstat (List.mem_of_getElem? found))
    have next (last : Given) (path : last.path = zstat.name) :
        (unpack .ready archive rest (before ++ [last])).given.map Given.path =
          before.map Given.path ++ (fdesc :: rest).map FileDesc.name := by
      rw [ih others, List.map_append, List.map_singleton, path, same, List.map_cons, List.append_assoc,
        List.singleton_append]
    rw [unpack, found]
    simp only
    rw [if_neg allowed]
    split
    · exact next (.directory zstat.name) rfl
    · exact next (.file zstat.name) rfl

/-- What an archive makes the extraction create stays in the working directory, whatever the system answers, exactly
when the archive is too big to be extracted or its names would all be accepted as paths of a widget. -/
theorem zread_confined (archive : List ZipStat) (maxsize : UInt64) (files : Fdb) (esize : UInt64)
    (few : archive.length ≤ UINT_MAX) (recorded : recordFiles archive = some (files, esize)) :
    (∀ host, ∀ given ∈ (zread host archive maxsize).given, Confined given.path) ↔
      (maxsize ≠ 0 ∧ maxsize < esize) ∨ ∀ zstat ∈ archive, validsubpath zstat.name = 1 := by
  obtain ⟨proper, perm⟩ := recordFiles_some recorded
  have count : archive.length = files.length := by rw [perm.length_eq, List.length_map, List.length_zipIdx]
  have run (host : Host) : zread host archive maxsize =
      if maxsize ≠ 0 ∧ maxsize < esize then ⟨some (-1), []⟩ else unpack host archive files [] := by
    rw [zread, if_neg (not_lt.mpr few), recorded]
    simp only
    rw [if_neg (not_not.mpr count)]
  by_cases big : maxsize ≠ 0 ∧ maxsize < esize
  · refine iff_of_true (fun host given member => ?_) (Or.inl big)
    rw [run, if_pos big] at member
    cases member
  rw [or_iff_right big]
  constructor
  · intro confined zstat member
    obtain ⟨index, inside, rfl⟩ := List.mem_iff_getElem.mp member
    have known : ∀ fdesc ∈ files, ∃ zstat, archive[fdesc.zindex]? = some zstat ∧ zstat.name = fdesc.name := by
      intro fdesc member
      obtain ⟨entry, member', rfl⟩ := List.mem_map.mp (perm.mem_iff.mp member)
      exact ⟨entry.1, List.mem_zipIdx_iff_getElem?.mp member', rfl⟩
    have names := unpack_ready proper files known []
    have named : archive[index].name ∈ files.map FileDesc.name := by
      rw [(perm.map FileDesc.name).mem_iff]
      exact List.mem_map.mpr ⟨_, List.mem_map.mpr ⟨(archive[index], index),
        List.mem_zipIdx_iff_getElem?.mpr (List.getElem?_eq_getElem inside), rfl⟩, rfl⟩
    rw [List.map_nil, List.nil_append] at names
    rw [← names] at named
    obtain ⟨given, member', path⟩ := List.mem_map.mp named
    have whole := run .ready
    rw [if_neg big] at whole
    rw [← path, validsubpath_iff]
    exact confined .ready given (whole ▸ member')
  · intro valid host given member
    rw [run, if_neg big] at member
    rcases unpack_given files [] given member with earlier | ⟨zstat, entry, path⟩
    · cases earlier
    · rw [path, ← validsubpath_iff]
      exact valid zstat entry

def sampleArchive : List ZipStat := [⟨ascii "a/", 0⟩, ⟨ascii "a/b", 3⟩]

theorem zread_confined_sample :
    (∀ host, ∀ given ∈ (zread host sampleArchive 0).given, Confined given.path) ↔
      ((0 : UInt64) ≠ 0 ∧ (0 : UInt64) < 3) ∨ ∀ zstat ∈ sampleArchive, validsubpath zstat.name = 1 :=
  zread_confined sampleArchive 0 [⟨ascii "a/", .directory, 0⟩, ⟨ascii "a/b", .file, 1⟩] 3 (by decide)
    (by decide +kernel)

/-- The file of an archive is created beside the working directory. -/
theorem zread_escapes : ¬∀ (archive : List ZipStat) (maxsize : UInt64) (files : Fdb) (esize : UInt64) (host : Host),
    archive.length ≤ UINT_MAX → recordFiles archive = some (files, esize) →
      ∀ given ∈ (zread host archive maxsize).given, Confined given.path := by
  intro confined
  have outside := confined [⟨ascii "../x", 3⟩] 0 [⟨ascii "../x", .file, 0⟩] 3 .ready (by decide) (by decide +kernel)
    (.file (ascii "../x")) (by decide +kernel)
  exact absurd outside (by decide)

end AppManager.Wgtpkg
