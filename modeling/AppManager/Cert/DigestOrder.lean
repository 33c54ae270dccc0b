import AppManager.Cert.Digest
import AppManager.Utils.PathOrder

/-! The digest of a list of files depends on the order of the list when, and only when,
the tree of their paths does. -/

namespace AppManager.Cert
open AppManager.Lib AppManager.Lib.Libc AppManager.Utils

/-- Two trees that show the same traversals, in the order of names, and the same digests. -/
structure Alike (hashing : Hashing) (first second : PathTree) : Prop where
  traversals : ∀ flags size, listing flags size first = listing flags size second
  sorted : first.children.Sorted ∧ second.children.Sorted
  digests : ∀ (files : Files) (vars : DigestVars hashing) algorithm buffer isdistributor,
    createDigest files vars first.root algorithm buffer isdistributor =
      createDigest files vars second.root algorithm buffer isdistributor

def dashed : List Bytes := ["a-".toUTF8.toList, "a/b".toUTF8.toList]

def emptyFiles : Files where
  fopen path := if path = [] ∨ PATH_MAX ≤ path.length then .error ⟨-ENOENT, ENOENT_failure⟩ else .ok []
  fopen_empty := by simp [Except.toOption]
  fopen_long path long := by rw [if_pos (Or.inr long)]; rfl

def noVars : DigestVars zeroHashing := fun _ => []

end AppManager.Cert
