import AppManager.Cert.Digest
import AppManager.Utils.PathAbsolute

/-! The names of the records of a digest. They are the paths of a traversal without
their first bytes, as many as the path of the start entry has. -/

namespace AppManager.Cert
open AppManager.Lib AppManager.Lib.Libc AppManager.Utils

def digestFlags : ForallFlags := { onlyAdded := true, absolute := true }

/-- The entries that the maker of a digest can record, with their names. -/
def recordNames (start : PathEntry) : List (PathEntry × Bytes) :=
  (traversedFrom digestFlags start PATH_MAX).2.map fun visit =>
    (visit.entry, visit.path.drop (((pathEntryGetPath start.lineage []).map Prod.fst).getD 0))

/-- A text that leads from the path of the start entry to the one of an entry. -/
def Relative (start entry : PathEntry) (text : Bytes) : Prop :=
  ∃ path, HasPath start path ∧ HasPath entry (path ++ text)

def RecordsRight (start : PathEntry) : Prop :=
  ∀ record ∈ recordNames start, Relative start record.1 record.2

theorem recordsRight_iff (start : PathEntry) (fits : (traversedFrom digestFlags start PATH_MAX).1 = 0) :
    RecordsRight start ↔ PathsRight digestFlags start PATH_MAX := by
  have length : ((pathEntryGetPath start.lineage []).map Prod.fst).getD 0 = (pathOf start.lineage).length := by
    rw [pathEntryGetPath_spec]
    rfl
  have first : firstPath digestFlags start = pathOf start.lineage := rfl
  simp only [RecordsRight, recordNames, PathsRight, List.forall_mem_map, Relative, hasPath_iff, length,
    visits_of_fitting digestFlags start PATH_MAX fits, exists_eq_left, first]
  have whole (visit : Visit) (member : visit ∈ visitsFrom digestFlags.ordered start (pathOf start.lineage)) :
      pathOf start.lineage ++ visit.path.drop (pathOf start.lineage).length = visit.path := by
    obtain ⟨rest, same⟩ := visitsFrom_extends digestFlags.ordered start _ visit member
    rw [← same, List.drop_left]
  constructor
  · intro right visit member
    rw [← right visit member, whole visit member]
  · intro right visit member
    rw [whole visit member, right visit member]

/-- Without `PATH_ENTRY_FORALL_NO_PATH`, the paths are right, and so are the names of the
records, from the root of the tree, with a silent start entry, or when nothing is visited. -/
theorem absolutePaths_iff (tree : PathTree) (start : PathEntry) (known : start ∈ tree.root.entries)
    (flags : ForallFlags) (absolute : flags.absolute = true) (size : Nat)
    (fits : (traversedFrom flags start size).1 = 0) :
    (PathsRight flags start size ↔ Undoubled flags start) ∧
      ((traversedFrom digestFlags start PATH_MAX).1 = 0 →
        (RecordsRight start ↔ start.ref = [] ∨ ∀ entry ∈ start.entries, entry.label.added = false)) := by
  refine ⟨pathsRight_iff tree start known flags absolute size fits, fun short => ?_⟩
  rw [recordsRight_iff start short, pathsRight_iff tree start known digestFlags rfl PATH_MAX short]
  simp [Undoubled, emitted, digestFlags, emits, List.filter_eq_nil_iff]

def nested : PathEntry := oneEntry.root.child ⟨ascii "a", true, true⟩ .null

theorem absolutePaths_iff_root : PathsRight digestFlags oneEntry.root PATH_MAX ∧ RecordsRight oneEntry.root :=
  have right := absolutePaths_iff oneEntry oneEntry.root (by decide) digestFlags rfl PATH_MAX (by decide)
  ⟨right.1.mpr (Or.inl rfl), (right.2 (by decide)).mpr (Or.inl rfl)⟩

/-- From the entry `/a`, the path of that entry is given as `/a/a`, and recorded as `/a`. -/
theorem nested_doubled : ¬∀ (tree : PathTree) (start : PathEntry) (flags : ForallFlags) (size : Nat),
    start ∈ tree.root.entries → flags.absolute = true → (traversedFrom flags start size).1 = 0 →
      (traversedFrom digestFlags start PATH_MAX).1 = 0 → PathsRight flags start size ∧ RecordsRight start := by
  intro all
  have right := all oneEntry nested digestFlags PATH_MAX (by decide) rfl (by decide) (by decide)
  have visits : (traversedFrom digestFlags nested PATH_MAX).2 = [⟨nested, ascii "/a/a"⟩] := by decide
  have path := (hasPath_iff _ _).mp (right.1 ⟨nested, ascii "/a/a"⟩ (visits ▸ List.mem_singleton_self _))
  exact absurd path (by decide)

end AppManager.Cert
