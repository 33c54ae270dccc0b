import Mathlib.Data.List.Induction
import AppManager.Cert.SignatureName

/-! The names of signature files as they are made. Those that are made are those that are
recognized, in any directory. -/

namespace AppManager.Cert
open AppManager.Lib AppManager.Utils

/-- `make_signature_name_length` on a buffer of its size, with what is needed and the buffer. -/
def makeSignatureNameLength (name : Bytes) (length : Nat) (buffer : Bytes) : Nat × Bytes :=
  let (buffer, pos) := copyOut buffer 0 signaturePrefix
  let (buffer, pos) := copyOut buffer pos (name.take length)
  let (buffer, pos) := copyOut buffer pos signatureExtension
  (pos, if pos < buffer.length then buffer.set pos 0 else buffer)

def signatureName (name : Bytes) : Bytes := signaturePrefix ++ name ++ signatureExtension

def IsDirectory (directory : Bytes) : Prop := directory = [] ∨ directory.getLast? = some slash

theorem set_end (text buffer : Bytes) :
    (if text.length < buffer.length then (store buffer 0 (text.take buffer.length)).set text.length 0
      else store buffer 0 (text.take buffer.length)) = store buffer 0 ((text ++ [0]).take buffer.length) := by
  split
  · next room =>
    rw [List.take_of_length_le room.le, List.take_of_length_le (by rw [List.length_append]; exact room),
      store_zero, store_zero, List.set_append_right _ _ (Nat.le_refl _), Nat.sub_self,
      List.drop_eq_getElem_cons room, List.append_assoc, List.length_append, List.length_singleton]
    rfl
  · next full => rw [List.take_append_of_le_length (not_lt.mp full)]

theorem makeSignatureNameLength_eq (name : Bytes) (length : Nat) (buffer : Bytes) :
    makeSignatureNameLength name length buffer = ((signatureName (name.take length)).length,
      store buffer 0 ((signatureName (name.take length) ++ [0]).take buffer.length)) := by
  have start := copyOut_spec buffer [] signaturePrefix
  rw [List.take_nil, store_zero, List.nil_append, List.length_nil, List.drop_zero, List.nil_append] at start
  have size (text : Bytes) : (store buffer 0 (text.take buffer.length)).length = buffer.length :=
    store_length _ _ _ (by simp only [List.length_take]; omega)
  unfold makeSignatureNameLength signatureName
  rw [start]
  simp only [copyOut_spec, size, set_end]

theorem startOfName_spec (path : Bytes) (position : Nat) :
    startOfName path position ≤ position ∧ IsDirectory (path.take (startOfName path position)) ∧
      slash ∉ (path.take position).drop (startOfName path position) := by
  induction position with
  | zero => exact ⟨Nat.le_refl _, Or.inl rfl, List.not_mem_nil⟩
  | succ position ih =>
    obtain ⟨low, directory, plain⟩ := ih
    rw [startOfName, List.take_add_one]
    by_cases here : path[position]? = some slash
    · rw [if_pos here, List.take_add_one, here]
      refine ⟨Nat.le_refl _, Or.inr List.getLast?_concat, ?_⟩
      have size := List.length_take_le position path
      rw [List.drop_eq_nil_of_le]
      · exact List.not_mem_nil
      · rw [List.length_append]
        exact Nat.succ_le_succ size
    · rw [if_neg here, List.drop_append]
      refine ⟨Nat.le_succ_of_le low, directory, fun member => ?_⟩
      rcases List.mem_append.mp member with before | last
      · exact plain before
      · exact here (Option.mem_toList.mp (List.mem_of_mem_drop last))

theorem startOfName_name {directory name : Bytes} (before : IsDirectory directory) (plain : slash ∉ name)
    (after : Bytes) :
    startOfName (directory ++ (name ++ after)) (directory.length + name.length) = directory.length := by
  induction name using List.reverseRecOn generalizing after with
  | nil =>
    rcases before with rfl | last
    · rfl
    · obtain ⟨front, rfl⟩ := List.getLast?_eq_some_iff.mp last
      have here : (front ++ [slash] ++ ([] ++ after))[front.length]? = some slash := by simp
      rw [List.length_nil, Nat.add_zero, List.length_append, List.length_singleton, startOfName, if_pos here]
  | append_singleton name byte ih =>
    obtain ⟨plain', other⟩ := not_or.mp (List.mem_append.not.mp plain)
    have cell : (directory ++ (name ++ ([byte] ++ after)))[directory.length + name.length]? = some byte := by simp
    rw [List.length_append, List.length_singleton, ← Nat.add_assoc, startOfName, List.append_assoc name, cell, if_neg]
    · exact ih plain' _
    · exact fun same => other (List.mem_singleton.mpr (Option.some.inj same).symm)

theorem isEqAt_iff (path : Bytes) (position : Nat) (text : Bytes) :
    isEqAt path position text = true ↔ text <+: path.drop position := by
  rw [isEqAt, decide_eq_true_iff, List.prefix_iff_eq_take, eq_comm]

theorem isEqAt_append (before text after : Bytes) : isEqAt (before ++ (text ++ after)) before.length text = true := by
  rw [isEqAt_iff, List.drop_left]
  exact List.prefix_append text after

theorem signatureNameTypeLength_made {directory name : Bytes} (before : IsDirectory directory) (plain : slash ∉ name)
    (after : Bytes) :
    signatureNameTypeLength (directory ++ (signatureName name ++ after)) (directory ++ signatureName name).length =
      if name = authorName then .author else .distributor := by
  have body : slash ∉ signaturePrefix ++ name := by
    rw [List.mem_append, not_or]
    exact ⟨by decide, plain⟩
  have posext : (directory ++ signatureName name).length - signatureExtension.length =
      directory.length + (signaturePrefix ++ name).length := by
    simp only [signatureName, List.length_append]
    omega
  have starts := startOfName_name before body (signatureExtension ++ after)
  have len : directory.length + (signaturePrefix ++ name).length - directory.length - signaturePrefix.length =
      name.length := by
    rw [List.length_append]
    omega
  have path : directory ++ (signatureName name ++ after) = directory ++ (signaturePrefix ++ name ++
      (signatureExtension ++ after)) := by
    rw [signatureName, List.append_assoc]
  have ends : isEqAt (directory ++ (signaturePrefix ++ name ++ (signatureExtension ++ after)))
      (directory.length + (signaturePrefix ++ name).length) signatureExtension = true := by
    rw [← List.append_assoc, ← List.length_append]
    exact isEqAt_append _ _ _
  have begins : isEqAt (directory ++ (signaturePrefix ++ name ++ (signatureExtension ++ after))) directory.length
      signaturePrefix = true := by
    rw [List.append_assoc]
    exact isEqAt_append _ _ _
  have author : (name.length = authorName.length ∧ isEqAt (directory ++ (signaturePrefix ++ name ++
      (signatureExtension ++ after))) (directory.length + signaturePrefix.length) authorName = true) ↔
        name = authorName := by
    rw [isEqAt_iff, List.append_assoc, ← List.append_assoc, ← List.length_append, List.drop_left]
    constructor
    · rintro ⟨size, starts⟩
      obtain ⟨rest, whole⟩ := starts
      exact (List.append_inj_left whole size.symm).symm
    · rintro rfl
      exact ⟨rfl, List.prefix_append _ _⟩
  have long : signaturePrefix.length ≤ directory.length + (signaturePrefix ++ name).length - directory.length := by
    rw [List.length_append]
    omega
  have fits : signatureExtension.length ≤ (directory ++ signatureName name).length := by
    simp only [signatureName, List.length_append]
    omega
  unfold signatureNameTypeLength
  rw [if_pos fits]
  simp only [posext, path, starts, ends, begins, len, long, and_self, if_true, author]

theorem made_of_signatureNameTypeLength {path : Bytes} {length : Nat}
    (recognized : signatureNameTypeLength path length ≠ .none) :
    ∃ directory name, path.take length = directory ++ signatureName name ∧ IsDirectory directory ∧ slash ∉ name := by
  unfold signatureNameTypeLength at recognized
  split at recognized
  · next fits =>
    simp only at recognized
    split at recognized
    · next ends =>
      split at recognized
      · next begins =>
        obtain ⟨low, directory, plain⟩ := startOfName_spec path (length - signatureExtension.length)
        generalize startOfName path (length - signatureExtension.length) = posbeg at low directory plain begins
        obtain ⟨long, starts⟩ := begins
        rw [isEqAt_iff] at ends starts
        obtain ⟨after, extension⟩ := ends
        obtain ⟨rest, name⟩ := starts
        have middle : (path.take (length - signatureExtension.length)).drop posbeg = signaturePrefix ++
            rest.take (length - signatureExtension.length - posbeg - signaturePrefix.length) := by
          rw [List.drop_take, ← name, List.take_append, List.take_of_length_le long]
        have front : path.take (length - signatureExtension.length) = path.take posbeg ++ (signaturePrefix ++
            rest.take (length - signatureExtension.length - posbeg - signaturePrefix.length)) := by
          have halves := List.take_append_drop posbeg (path.take (length - signatureExtension.length))
          rw [List.take_take, Nat.min_eq_left low, middle] at halves
          exact halves.symm
        refine ⟨path.take posbeg, rest.take (length - signatureExtension.length - posbeg - signaturePrefix.length), ?_,
          directory, fun member => plain (middle ▸ List.mem_append_right _ member)⟩
        calc path.take length = path.take (length - signatureExtension.length + signatureExtension.length) := by
              rw [Nat.sub_add_cancel fits]
          _ = path.take (length - signatureExtension.length) ++ signatureExtension := by
              rw [List.take_add, ← extension, List.take_left]
          _ = _ := by rw [front, signatureName, List.append_assoc]
      · exact absurd rfl recognized
    · exact absurd rfl recognized
  · exact absurd rfl recognized

/-- The names that are made are those that are recognized, whatever the buffer, the name and the directory. -/
theorem signatureName_recognized :
    (∀ name length buffer, makeSignatureNameLength name length buffer =
      ((signatureName (name.take length)).length,
        store buffer 0 ((signatureName (name.take length) ++ [0]).take buffer.length))) ∧
    (∀ directory name after, IsDirectory directory → slash ∉ name →
      signatureNameTypeLength (directory ++ (signatureName name ++ after)) (directory ++ signatureName name).length =
        if name = authorName then .author else .distributor) ∧
    ∀ path length, signatureNameTypeLength path length ≠ .none →
      ∃ directory name, path.take length = directory ++ signatureName name ∧ IsDirectory directory ∧ slash ∉ name :=
  ⟨makeSignatureNameLength_eq, fun _ _ after before plain => signatureNameTypeLength_made before plain after,
    fun _ _ => made_of_signatureNameTypeLength⟩

/-- A name that does not fit is cut, and is the one of a distributor in a directory. -/
theorem signatureName_recognized_cut :
    makeSignatureNameLength (ascii "a.p7/") 4 (List.replicate 12 1) = (17, ascii "signature-a.") ∧
    signatureNameTypeLength (ascii "x/signature-a.p7.p7") 19 = .distributor ∧
    ∃ directory name, ascii "x/signature-a.p7.p7" = directory ++ signatureName name ∧ IsDirectory directory ∧
      slash ∉ name := by
  obtain ⟨makes, recognizes, only⟩ := signatureName_recognized
  refine ⟨(makes _ _ _).trans (by decide +kernel), ?_, ?_⟩
  · have types := recognizes (ascii "x/") (ascii "a.p7") [] (Or.inr (by decide +kernel)) (by decide +kernel)
    exact types.trans (if_neg (by decide +kernel))
  · exact only (ascii "x/signature-a.p7.p7") 19 (by decide +kernel)

end AppManager.Cert
