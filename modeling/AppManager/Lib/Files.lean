import AppManager.Lib.Libc

/-! Files and symbolic links at the entries that paths name, and calls that change them
and can fail. -/

namespace AppManager.Lib
open Libc

inductive Node where
  | file (content : Bytes)
  | link (target : Bytes)
  deriving DecidableEq, Repr

/-- What is at each entry, how many calls were made, and the entries that were written. -/
structure Disk where
  files : Bytes → Option Node
  count : Nat
  written : List Bytes

/-- How the calls end, each told by its rank. A write that fails leaves anything at
its entry. The entry of a path is found by `place`, through the names `.` and `..` and
the links to directories: several paths can name one entry. A link at the end of a path
is not followed. -/
structure Outcomes where
  place : Bytes → Bytes
  put : Nat → Option (Failure × Option Node)
  symlink : Nat → Bool
  unlink : Nat → Bool
  access : Nat → Bool

namespace Disk

def tick (disk : Disk) : Disk := { disk with count := disk.count + 1 }

def set (disk : Disk) (path : Bytes) (node : Option Node) : Disk :=
  { disk.tick with files := fun other => if other = path then node else disk.files other }

def write (disk : Disk) (path : Bytes) (node : Option Node) : Disk :=
  { disk.set path node with written := disk.written ++ [path] }

def Present (disk : Disk) (path : Bytes) : Prop := (disk.files path).isSome = true

instance (disk : Disk) (path : Bytes) : Decidable (disk.Present path) := inferInstanceAs (Decidable (_ = true))

/-- Only the count of calls differs. -/
structure Same (disk other : Disk) : Prop where
  files : disk.files = other.files
  written : disk.written = other.written

theorem Same.trans {disk middle other : Disk} (first : disk.Same middle) (second : middle.Same other) :
    disk.Same other :=
  ⟨first.files.trans second.files, first.written.trans second.written⟩

theorem Same.present {disk other : Disk} (same : disk.Same other) (path : Bytes) :
    disk.Present path ↔ other.Present path := by
  unfold Present
  rw [same.files]

end Disk

namespace Outcomes
variable (outcomes : Outcomes)

def filePut (path content : Bytes) (disk : Disk) : Int × Disk :=
  match outcomes.put disk.count with
  | none => (0, disk.write (outcomes.place path) (some (.file content)))
  | some (rc, left) => (rc, disk.write (outcomes.place path) left)

def makeLink (target path : Bytes) (disk : Disk) : Int × Disk :=
  if disk.Present (outcomes.place path) ∨ outcomes.symlink disk.count = false then (-1, disk.tick)
  else (0, disk.write (outcomes.place path) (some (.link target)))

def remove (path : Bytes) (disk : Disk) : Int × Disk :=
  if disk.Present (outcomes.place path) ∧ outcomes.unlink disk.count = true then
    (0, disk.set (outcomes.place path) none)
  else (-1, disk.tick)

def accessible (path : Bytes) (disk : Disk) : Int × Disk :=
  (if disk.Present (outcomes.place path) ∧ outcomes.access disk.count = true then 0 else -1, disk.tick)

/-- A path is seen if and only if something is there. -/
def AccessExact : Prop := ∀ count, outcomes.access count = true

def UnlinkSucceeds : Prop := ∀ count, outcomes.unlink count = true

end Outcomes

/-- Only the given entries can have changed or have been written. -/
structure Within (paths : Bytes → Prop) (before after : Disk) : Prop where
  same : ∀ path, ¬paths path → after.files path = before.files path
  written : ∀ path ∈ after.written, path ∈ before.written ∨ paths path

namespace Within
variable {paths paths' : Bytes → Prop} {before middle after : Disk}

theorem refl (paths : Bytes → Prop) (disk : Disk) : Within paths disk disk :=
  ⟨fun _ _ => rfl, fun _ => Or.inl⟩

theorem tick (paths : Bytes → Prop) (disk : Disk) : Within paths disk disk.tick :=
  ⟨fun _ _ => rfl, fun _ => Or.inl⟩

theorem trans (first : Within paths before middle) (second : Within paths middle after) :
    Within paths before after := by
  refine ⟨fun path aside => (second.same path aside).trans (first.same path aside), fun path member => ?_⟩
  rcases second.written path member with early | inside
  · exact first.written path early
  · exact Or.inr inside

theorem mono (within : Within paths before after) (wider : ∀ path, paths path → paths' path) :
    Within paths' before after :=
  ⟨fun path aside => within.same path fun inside => aside (wider path inside),
    fun path member => (within.written path member).imp_right (wider path)⟩

theorem set (disk : Disk) {path : Bytes} (node : Option Node) (inside : paths path) :
    Within paths disk (disk.set path node) := by
  refine ⟨fun other aside => ?_, fun _ => Or.inl⟩
  have differs : other ≠ path := fun same => aside (same ▸ inside)
  simp only [Disk.set, if_neg differs]

theorem write (disk : Disk) {path : Bytes} (node : Option Node) (inside : paths path) :
    Within paths disk (disk.write path node) := by
  refine ⟨(set disk node inside).same, fun other member => ?_⟩
  rcases List.mem_append.mp member with early | last
  · exact Or.inl early
  · rw [List.mem_singleton.mp last]
    exact Or.inr inside

theorem filePut (outcomes : Outcomes) (content : Bytes) (disk : Disk) {path : Bytes}
    (inside : paths (outcomes.place path)) : Within paths disk (outcomes.filePut path content disk).2 := by
  unfold Outcomes.filePut
  split
  · exact write disk _ inside
  · exact write disk _ inside

theorem makeLink (outcomes : Outcomes) (target : Bytes) (disk : Disk) {path : Bytes}
    (inside : paths (outcomes.place path)) : Within paths disk (outcomes.makeLink target path disk).2 := by
  unfold Outcomes.makeLink
  split
  · exact tick paths disk
  · exact write disk _ inside

theorem remove (outcomes : Outcomes) (disk : Disk) {path : Bytes}
    (inside : paths (outcomes.place path)) : Within paths disk (outcomes.remove path disk).2 := by
  unfold Outcomes.remove
  split
  · exact set disk _ inside
  · exact tick paths disk

end Within

theorem not_present_remove {outcomes : Outcomes} (succeeds : outcomes.UnlinkSucceeds) (path : Bytes)
    (disk : Disk) : ¬(outcomes.remove path disk).2.Present (outcomes.place path) := by
  unfold Outcomes.remove Disk.Present
  split
  · simp [Disk.set]
  · next kept =>
    intro here
    exact kept ⟨here, succeeds _⟩

theorem not_present_of_remove (outcomes : Outcomes) (path other : Bytes) (disk : Disk)
    (missing : ¬disk.Present other) : ¬(outcomes.remove path disk).2.Present other := by
  unfold Outcomes.remove
  split
  · unfold Disk.Present Disk.set Disk.tick at *
    by_cases same : other = outcomes.place path
    · simp [same]
    · simpa [same] using missing
  · exact missing

/-- What was written, apart from some entries, is still there. -/
def Disk.KeptBut (disk : Disk) (aside : Bytes → Prop) : Prop :=
  ∀ path ∈ disk.written, ¬aside path → disk.Present path

def Disk.Kept (disk : Disk) : Prop := ∀ path ∈ disk.written, disk.Present path

namespace Disk.Kept
variable {disk : Disk}

theorem write {path : Bytes} {node : Node} (kept : disk.KeptBut (· = path)) :
    (disk.write path (some node)).Kept := by
  intro other member
  unfold Disk.Present Disk.write Disk.set
  by_cases same : other = path
  · simp [same]
  · rcases List.mem_append.mp member with early | last
    · simp only [if_neg same]
      exact kept other early same
    · exact absurd (List.mem_singleton.mp last) same

theorem filePut (outcomes : Outcomes) {path content : Bytes} (kept : disk.Kept)
    (fine : 0 ≤ (outcomes.filePut path content disk).1) : (outcomes.filePut path content disk).2.Kept := by
  unfold Outcomes.filePut at fine ⊢
  split
  · exact write fun other member _ => kept other member
  · next rc left failed =>
    rw [failed] at fine
    exact absurd rc.property (not_lt.mpr fine)

theorem replaceLink (outcomes : Outcomes) {target path : Bytes} (kept : disk.Kept)
    (fine : 0 ≤ (outcomes.makeLink target path (outcomes.remove path disk).2).1) :
    (outcomes.makeLink target path (outcomes.remove path disk).2).2.Kept := by
  have others : (outcomes.remove path disk).2.KeptBut (· = outcomes.place path) := by
    intro other member differs
    have within : Within (· = outcomes.place path) disk (outcomes.remove path disk).2 :=
      Within.remove outcomes disk rfl
    unfold Disk.Present
    rw [within.same other differs]
    rcases within.written other member with early | same
    · exact kept other early
    · exact absurd same differs
  unfold Outcomes.makeLink at fine ⊢
  split
  · next refused =>
    rw [if_pos refused] at fine
    simp at fine
  · exact write others

end Disk.Kept
end AppManager.Lib
