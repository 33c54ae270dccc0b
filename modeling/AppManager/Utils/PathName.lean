import AppManager.Utils.PathEntry

/-! The full path of an entry. `path_entry_relpath` writes it in a buffer of any
length, from the top ancestor to the entry, and returns the length it would need. -/

namespace AppManager.Utils
open AppManager.Lib AppManager.Lib.Libc

/-- Nothing is named between the entry and its relative root, whose depth is given
(zero for a null one). -/
def isTop (root : Nat) : List Label → Bool
  | [] => true
  | parent :: above =>
    if above.length + 1 = root then true
    else if parent.name = [] then isTop root above
    else false

structure RelpathFlags where
  noLeadingSlash : Bool := false
  forceLeadingSlash : Bool := false

/-- One entry of `path_entry_relpath`, after what its ancestors wrote. -/
def appendName (entry : Label) (hasSlash : Bool) (offset : Nat) (buffer : Bytes) : Nat × Bytes :=
  let result := offset + entry.name.length + (if hasSlash then 1 else 0)
  let start := if hasSlash ∧ offset < buffer.length then offset + 1 else offset
  let buffer := if hasSlash ∧ offset < buffer.length then store buffer offset [slash] else buffer
  if start < buffer.length then
    if result < buffer.length then (result, store buffer start (entry.name ++ [0]))
    else (result, store buffer start (entry.name.take (buffer.length - start)))
  else (result, buffer)

/-- The entry and its ancestors come first in the lineage. `none` is the read of a
field through a null entry. -/
def pathEntryRelpath (root : Nat) (flags : RelpathFlags) : List Label → Bytes → Option (Nat × Bytes)
  | [], buffer => if flags.forceLeadingSlash then none else some (0, buffer)
  | entry :: above, buffer =>
    if above.length + 1 = root then
      if flags.forceLeadingSlash then
        some (1, if 0 < entry.name.length then store buffer 0 [slash] else buffer)
      else some (0, buffer)
    else if entry.name = [] then pathEntryRelpath root flags above buffer
    else if isTop root above then
      some (appendName entry
        (flags.forceLeadingSlash || (!flags.noLeadingSlash && entry.slash)) 0 buffer)
    else (pathEntryRelpath root flags above buffer).map fun (offset, buffer) =>
      appendName entry true offset buffer

def pathEntryGetPath (lineage : List Label) (buffer : Bytes) : Option (Nat × Bytes) :=
  pathEntryRelpath 0 {} lineage buffer

/-- The full path: names joined by slashes, after a slash when the first one has it. -/
def pathOf : List Label → Bytes
  | [] => []
  | entry :: above =>
    if entry.name = [] then pathOf above
    else if pathOf above = [] then (if entry.slash then [slash] else []) ++ entry.name
    else pathOf above ++ slash :: entry.name

theorem isTop_iff (above : List Label) : isTop 0 above = true ↔ pathOf above = [] := by
  induction above with
  | nil => simp [isTop, pathOf]
  | cons parent above ih =>
    by_cases unnamed : parent.name = []
    · simp [isTop, pathOf, unnamed, ih]
    · simp only [isTop, pathOf, if_neg unnamed, if_neg (Nat.succ_ne_zero above.length),
        Bool.false_eq_true, false_iff]
      split <;> simp [unnamed]

/-- What a buffer of that length keeps of a path and of its terminator. -/
def clipped (length : Nat) (path : Bytes) : Bytes := (path ++ [0]).take length

theorem store_name (buffer written before name : Bytes) (room : written.length ≤ buffer.length)
    (start : before.length < buffer.length) (prefixed : written.take before.length = before)
    (short : written.length ≤ before.length + 1) :
    (if before.length + name.length < buffer.length then
      store (store buffer 0 written) before.length (name ++ [0])
    else store (store buffer 0 written) before.length (name.take (buffer.length - before.length))) =
      store buffer 0 (clipped buffer.length (before ++ name)) := by
  have inside : before.length ≤ written.length := by
    have sizes := congrArg List.length prefixed
    rw [List.length_take] at sizes
    omega
  split
  · next fits =>
    rw [store_store _ _ _ _ inside (by simp only [List.length_append, List.length_singleton]; omega),
      prefixed, clipped, List.take_of_length_le (by simp only [List.length_append, List.length_singleton]; omega),
      List.append_assoc]
  · next overflow =>
    have size : (name.take (buffer.length - before.length)).length = buffer.length - before.length := by
      rw [List.length_take]
      omega
    rw [store_store _ _ _ _ inside (by rw [size]; omega), prefixed, clipped, List.append_assoc,
      List.take_append, List.take_of_length_le (by omega : before.length ≤ buffer.length),
      List.take_append_of_le_length (by omega : buffer.length - before.length ≤ name.length)]

theorem appendName_length (entry : Label) (hasSlash : Bool) (offset : Nat) (buffer : Bytes) :
    (appendName entry hasSlash offset buffer).2.length = buffer.length := by
  have rest : ∀ (buffer : Bytes) (start result : Nat), start + entry.name.length ≤ result →
      (if start < buffer.length then
        if result < buffer.length then (result, store buffer start (entry.name ++ [0]))
        else (result, store buffer start (entry.name.take (buffer.length - start)))
      else (result, buffer)).2.length = buffer.length := by
    intro buffer start result ends
    split
    · split
      · exact store_length _ _ _ (by rw [List.length_append, List.length_singleton]; omega)
      · exact store_length _ _ _ (by rw [List.length_take]; omega)
    · rfl
  unfold appendName
  by_cases first : hasSlash = true ∧ offset < buffer.length
  · simp only [if_pos first]
    rw [rest _ _ _ (by rw [if_pos first.1]; omega)]
    exact store_length _ _ _ (by rw [List.length_singleton]; omega)
  · simp only [if_neg first]
    exact rest _ _ _ (by omega)

theorem pathEntryRelpath_length (root : Nat) (flags : RelpathFlags) (lineage : List Label)
    (buffer written : Bytes) (length : Nat) (room : 0 < buffer.length)
    (found : pathEntryRelpath root flags lineage buffer = some (length, written)) :
    written.length = buffer.length := by
  induction lineage generalizing length written with
  | nil =>
    unfold pathEntryRelpath at found
    split at found
    · cases found
    · exact congrArg (fun result => result.2.length) (Option.some.inj found).symm
  | cons entry above ih =>
    unfold pathEntryRelpath at found
    split at found
    · split at found
      · have same := congrArg (fun result => result.2.length) (Option.some.inj found).symm
        simp only at same
        rw [same]
        split
        · exact store_length _ _ _ (by rw [List.length_singleton]; omega)
        · rfl
      · exact congrArg (fun result => result.2.length) (Option.some.inj found).symm
    · split at found
      · exact ih _ _ found
      · split at found
        · have same := congrArg (fun result => result.2.length) (Option.some.inj found).symm
          simp only at same
          rw [same, appendName_length]
        · obtain ⟨before, inner, same⟩ := Option.map_eq_some_iff.mp found
          have size := congrArg (fun result => result.2.length) same.symm
          simp only at size
          rw [size, appendName_length, ih before.2 before.1 inner]

theorem appendName_spec (entry : Label) (hasSlash : Bool) (before written buffer : Bytes)
    (room : written.length ≤ buffer.length)
    (prefixed : written.take before.length = before.take buffer.length)
    (short : written.length ≤ before.length + 1) :
    appendName entry hasSlash before.length (store buffer 0 written) =
      ((before ++ (if hasSlash then [slash] else []) ++ entry.name).length,
        store buffer 0
          (clipped buffer.length (before ++ (if hasSlash then [slash] else []) ++ entry.name))) := by
  have size : (store buffer 0 written).length = buffer.length := store_length _ _ _ (by omega)
  unfold appendName
  by_cases start : before.length < buffer.length
  · rw [List.take_of_length_le start.le] at prefixed
    cases hasSlash with
    | false =>
      simp only [Bool.false_eq_true, false_and, ↓reduceIte, size, start, Nat.add_zero,
        List.append_nil, List.length_append]
      rw [← store_name buffer written before entry.name room start prefixed short]
      split <;> rfl
    | true =>
      have inside : before.length ≤ written.length := by
        have sizes := congrArg List.length prefixed
        rw [List.length_take] at sizes
        omega
      have first : store (store buffer 0 written) before.length [slash] =
          store buffer 0 (before ++ [slash]) := by
        rw [store_store _ _ _ _ inside (by simpa using short), prefixed]
      have size' : (store buffer 0 (before ++ [slash])).length = buffer.length :=
        store_length _ _ _ (by simp only [List.length_append, List.length_singleton]; omega)
      simp only [size, start, and_self, ↓reduceIte, first, size', List.length_append,
        List.length_singleton]
      by_cases more : before.length + 1 < buffer.length
      · have rest := store_name buffer (before ++ [slash]) (before ++ [slash]) entry.name
          (by simp only [List.length_append, List.length_singleton]; omega)
          (by simpa using more) (by simp) (by omega)
        rw [if_pos more, ← rest]
        simp only [List.length_append, List.length_singleton,
          show before.length + entry.name.length + 1 = before.length + 1 + entry.name.length by omega]
        split <;> rfl
      · rw [if_neg more, clipped, List.append_assoc,
          List.take_append_of_le_length (by simp only [List.length_append, List.length_singleton]; omega),
          List.take_of_length_le (by simp only [List.length_append, List.length_singleton]; omega)]
        congr 1
        omega
  · have whole : written = before.take buffer.length := by
      rw [← prefixed, List.take_of_length_le]
      omega
    have cut : clipped buffer.length (before ++ (if hasSlash then [slash] else []) ++ entry.name) =
        before.take buffer.length := by
      rw [clipped, List.append_assoc, List.append_assoc,
        List.take_append_of_le_length (by omega)]
    simp only [size, start, and_false, ↓reduceIte, cut, ← whole, List.length_append]
    congr 1
    cases hasSlash with
    | false => simp
    | true =>
      simp only [↓reduceIte, List.length_singleton]
      omega

/-- The full path is written with its terminator, as far as the buffer allows, and
the returned length is always its own. Only the unnamed root writes nothing. -/
theorem pathEntryGetPath_spec (lineage : List Label) (buffer : Bytes) :
    pathEntryGetPath lineage buffer = some ((pathOf lineage).length,
      if pathOf lineage = [] then buffer else store buffer 0 (clipped buffer.length (pathOf lineage))) := by
  unfold pathEntryGetPath
  induction lineage with
  | nil => simp [pathEntryRelpath, pathOf]
  | cons entry above ih =>
    unfold pathEntryRelpath pathOf
    rw [if_neg (Nat.succ_ne_zero above.length)]
    by_cases unnamed : entry.name = []
    · rw [if_pos unnamed, if_pos unnamed, ih]
    · rw [if_neg unnamed, if_neg unnamed]
      by_cases top : pathOf above = []
      · have named : (if entry.slash then [slash] else []) ++ entry.name ≠ [] := by simp [unnamed]
        have first := appendName_spec entry entry.slash [] [] buffer (by simp) (by simp) (by simp)
        rw [if_pos ((isTop_iff above).mpr top), if_pos top, if_neg named]
        simpa [store_zero] using first
      · have isNotTop : isTop 0 above = false := by
          rw [← Bool.not_eq_true, isTop_iff]
          exact top
        have rest := appendName_spec entry true (pathOf above) (clipped buffer.length (pathOf above)) buffer
          (by simp only [clipped, List.length_take]; omega)
          (by rw [clipped, List.take_take, Nat.min_comm, ← List.take_take, List.take_left])
          (by simp only [clipped, List.length_take, List.length_append, List.length_singleton]; omega)
        rw [isNotTop, if_neg (by simp), if_neg top, ih, if_neg top]
        simpa using rest

end AppManager.Utils
