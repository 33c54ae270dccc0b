import AppManager.Install.PackagePath
import Mathlib.Data.List.Find
import Mathlib.Data.List.Infix

/-! The search of the redpak of a package: the marker is looked for in the directory of
the package, then in those above it, up to the root and not further. -/

namespace AppManager.Install
open AppManager.Lib AppManager.Lib.Libc AppManager.Utils

theorem getD_of_take {path text : Bytes} {index : Nat} (starts : path.take text.length = text)
    (inside : index < text.length) : path.getD index 0 = text.getD index 0 := by
  conv_rhs => rw [← starts]
  rw [List.getD_eq_getElem?_getD, List.getD_eq_getElem?_getD, List.getElem?_take_of_lt inside]

theorem stepBack_run (offsetRoot : Nat) (path : Bytes) (test : Byte → Bool) (lead run : Bytes)
    (starts : path.take (lead ++ run).length = lead ++ run) (all : ∀ byte ∈ run, test byte = true)
    (stops : ∀ byte ∈ lead.getLast?, test byte = false) (inside : offsetRoot ≤ lead.length + 1) :
    stepBack offsetRoot path test (lead ++ run).length = lead.length := by
  induction run using List.reverseRecOn with
  | nil =>
    rw [List.append_nil] at starts ⊢
    cases lead using List.reverseRecOn with
    | nil => rfl
    | append_singleton above last _ =>
      have read : path.getD above.length 0 = last := by
        rw [getD_of_take starts (by simp)]
        simp
      have stop := stops last (by simp)
      rw [List.length_append, List.length_singleton, stepBack, read, if_neg (by simp [stop])]
  | append_singleton run last ih =>
    have read : path.getD (lead ++ run).length 0 = last := by
      rw [getD_of_take starts (by simp)]
      simp [← List.append_assoc]
    have size : (lead ++ (run ++ [last])).length = (lead ++ run).length + 1 := by simp; omega
    have before : path.take (lead ++ run).length = lead ++ run := by
      have cut := congrArg (List.take (lead ++ run).length) starts
      rw [List.take_take, size, Nat.min_eq_left (Nat.le_succ _), ← List.append_assoc, List.take_left] at cut
      exact cut
    rw [size, stepBack, read, if_pos ⟨by simp; omega, all last (by simp)⟩]
    exact ih before (fun byte member => all byte (List.mem_append_left _ member))

def directory (root : Bytes) (names : Ref) : Bytes := root ++ slashed names

/-- The directory of a package and those above it up to the root, the nearest first. -/
def directories (root : Bytes) (names : Ref) : List Bytes := names.inits.reverse.map (directory root)

theorem directories_snoc (root : Bytes) (above : Ref) (name : Bytes) :
    directories root (above ++ [name]) = directory root (above ++ [name]) :: directories root above := by
  simp [directories, List.inits_append]

def isRegular (world : World) (path : Bytes) : Bool :=
  match access world.fstatat path with
  | .ok .regular => true
  | _ => false

/-- The buffer holds a directory up to a position, with a slash after it or not. -/
structure StandsAt (directory path : Bytes) (lpa : Nat) : Prop where
  size : path.length = PATH_MAX
  ends : (path.take lpa = directory ++ [slash] ∧ lpa = directory.length + 1) ∨
    (path.take lpa = directory ∧ lpa = directory.length ∧ ∃ byte ∈ directory.getLast?, byte ≠ slash)

theorem endedBySlash_spec {directory path : Bytes} {lpa : Nat} (stands : StandsAt directory path lpa)
    (room : directory.length < PATH_MAX) : (endedBySlash path lpa).1 = directory.length + 1 ∧
      (endedBySlash path lpa).2.length = PATH_MAX ∧
      (endedBySlash path lpa).2.take (directory.length + 1) = directory ++ [slash] := by
  obtain ⟨size, ⟨starts, rfl⟩ | ⟨starts, rfl, last, ends, other⟩⟩ := stands
  · have length : directory.length + 1 = (directory ++ [slash]).length := by simp
    have read : path.getD directory.length 0 = slash := by
      rw [length] at starts
      rw [getD_of_take starts (by simp)]
      simp
    rw [endedBySlash, Nat.add_sub_cancel, read, if_neg (by simp)]
    exact ⟨rfl, size, starts⟩
  · obtain ⟨above, rfl⟩ : ∃ above, directory = above ++ [last] := List.getLast?_eq_some_iff.mp ends
    have read : path.getD ((above ++ [last]).length - 1) 0 = last := by
      rw [getD_of_take starts (by simp)]
      simp
    rw [endedBySlash, read, if_pos ⟨by simp, other⟩]
    refine ⟨rfl, ?_, ?_⟩
    · rw [store_length _ _ _ (by rw [size, List.length_singleton]; omega), size]
    · have written := take_store_end path [slash] (above ++ [last]).length (by omega)
      rw [starts] at written
      exact written

theorem markerAt_spec {directory path : Bytes} {lpa : Nat} (marker : Bytes) (stands : StandsAt directory path lpa)
    (clean : (0 : Byte) ∉ directory) (clean' : (0 : Byte) ∉ marker)
    (room : directory.length + 1 + marker.length + 1 ≤ PATH_MAX) :
    (markerAt path marker lpa).1 = directory.length + 1 ∧ (markerAt path marker lpa).2.length = PATH_MAX ∧
      (markerAt path marker lpa).2.take (directory.length + 1) = directory ++ [slash] ∧
      cstr (markerAt path marker lpa).2 = directory ++ slash :: marker := by
  obtain ⟨ended, size, starts⟩ := endedBySlash_spec stands (by omega)
  unfold markerAt
  simp only [ended]
  generalize (endedBySlash path lpa).2 = text at size starts ⊢
  have length : (marker ++ [(0 : Byte)]).length = marker.length + 1 := by simp
  have written := take_store_end text (marker ++ [0]) (directory.length + 1) (by omega)
  refine ⟨trivial, ?_, ?_, ?_⟩
  · rw [store_length _ _ _ (by omega), size]
  · rw [take_store _ _ _ _ le_rfl (by omega), starts]
  · rw [starts] at written
    rw [← List.take_append_drop (directory.length + 1 + (marker ++ [(0 : Byte)]).length)
      (store text (directory.length + 1) (marker ++ [0])), written]
    have shape : directory ++ [slash] ++ (marker ++ [0]) ++ (store text (directory.length + 1) (marker ++ [0])).drop
        (directory.length + 1 + (marker ++ [(0 : Byte)]).length) = (directory ++ slash :: marker) ++
          0 :: (store text (directory.length + 1) (marker ++ [0])).drop
            (directory.length + 1 + (marker ++ [(0 : Byte)]).length) := by simp
    rw [shape, cstr_append_nul, cstr_of_no_nul]
    rw [List.mem_append, List.mem_cons, not_or, not_or]
    exact ⟨clean, by decide, clean'⟩

theorem directory_snoc (root : Bytes) (above : Ref) (name : Bytes) :
    directory root (above ++ [name]) = directory root above ++ slash :: name := by
  rw [directory, slashed_append, ← List.append_assoc]
  rfl

theorem directory_getLast {root : Bytes} (bare : root.getLast? ≠ some slash) (names : Ref)
    (proper : ∀ name ∈ names, name ≠ [] ∧ slash ∉ name) : (directory root names).getLast? ≠ some slash := by
  cases names using List.reverseRecOn with
  | nil => simpa [directory, slashed] using bare
  | append_singleton above name _ =>
    obtain ⟨named, plain⟩ := proper name (by simp)
    rw [directory_snoc, List.getLast?_append, List.getLast?_cons, Option.some_or]
    cases last : name.getLast? with
    | none => exact absurd (List.getLast?_eq_none_iff.mp last) named
    | some byte =>
      rw [Option.getD_some, ne_eq, Option.some.injEq]
      exact fun same => plain (same ▸ List.mem_of_getLast? last)

theorem cstr_closed {directory text : Bytes} (starts : text.take (directory.length + 1) = directory ++ [slash])
    (clean : (0 : Byte) ∉ directory) : cstr (text.set directory.length 0) = directory := by
  have whole : text = directory ++ slash :: text.drop (directory.length + 1) := by
    conv_lhs => rw [← List.take_append_drop (directory.length + 1) text, starts]
    rw [List.append_assoc, List.singleton_append]
  rw [whole, List.set_append_right _ _ le_rfl, Nat.sub_self, List.set_cons_zero, cstr_append_nul,
    cstr_of_no_nul _ clean]

theorem searchRedpak_turn (world : World) (offsetRoot : Nat) {directory marker path : Bytes} {lpa : Nat}
    (stands : StandsAt directory path lpa) (bare : directory.getLast? ≠ some slash) (clean : (0 : Byte) ∉ directory)
    (clean' : (0 : Byte) ∉ marker) (room : directory.length + 1 + marker.length + 1 ≤ PATH_MAX)
    (below : offsetRoot ≤ directory.length) :
    ∃ text : Bytes, text.length = PATH_MAX ∧ text.take (directory.length + 1) = directory ++ [slash] ∧
      searchRedpak world offsetRoot marker path lpa =
        if isRegular world (directory ++ slash :: marker) then .ok (some directory)
        else if offsetRoot < directory.length then
          searchRedpak world offsetRoot marker text (trimName offsetRoot text directory.length)
        else .ok none := by
  obtain ⟨ended, size, starts, looked⟩ := markerAt_spec marker stands clean clean' room
  refine ⟨(markerAt path marker lpa).2, size, starts, ?_⟩
  have above : offsetRoot ≤ lpa := by
    obtain ⟨-, rfl⟩ | ⟨-, rfl, -⟩ := stands.ends <;> omega
  have fits : (markerAt path marker lpa).1 + marker.length + 1 ≤ path.length := by
    rw [ended, stands.size]
    exact room
  have trimmed : trimSlashes offsetRoot (markerAt path marker lpa).2 (markerAt path marker lpa).1 =
      directory.length := by
    have length : (directory ++ [slash]).length = directory.length + 1 := by simp
    rw [ended, ← length]
    apply stepBack_run
    · rw [length]
      exact starts
    · simp
    · intro byte member
      rw [beq_eq_false_iff_ne]
      exact fun same => bare (same ▸ member)
    · omega
  have closed : cstr ((markerAt path marker lpa).2.set ((markerAt path marker lpa).1 - 1) 0) = directory := by
    rw [ended, Nat.add_sub_cancel]
    exact cstr_closed starts clean
  rw [searchRedpak, dif_pos above, dif_pos fits, isRegular, closed, trimmed, looked]
  cases access world.fstatat (directory ++ slash :: marker) with
  | error failure => simp
  | ok kind => cases kind <;> simp

theorem searchRedpak_spec (world : World) {root marker : Bytes} (bare : root.getLast? ≠ some slash)
    (clean : (0 : Byte) ∉ marker) (names : Ref) (proper : ∀ name ∈ names, name ≠ [] ∧ slash ∉ name)
    (clean' : (0 : Byte) ∉ directory root names)
    (room : (directory root names).length + 1 + marker.length + 1 ≤ PATH_MAX) (path : Bytes) (lpa : Nat)
    (stands : StandsAt (directory root names) path lpa) :
    searchRedpak world root.length marker path lpa =
      .ok ((directories root names).find? fun directory => isRegular world (directory ++ slash :: marker)) := by
  have below : ∀ names, root.length ≤ (directory root names).length := fun names => by simp [directory]
  induction names using List.reverseRecOn generalizing path lpa with
  | nil =>
    obtain ⟨text, -, -, turn⟩ := searchRedpak_turn world root.length stands
      (directory_getLast bare [] proper) clean' clean room (below [])
    have top : directory root [] = root := by simp [directory, slashed]
    have only : directories root [] = [root] := by simp [directories, top]
    rw [turn, top, only, if_neg (lt_irrefl _), List.find?_singleton]
    split <;> rfl
  | append_singleton above name ih =>
    obtain ⟨text, size, starts, turn⟩ := searchRedpak_turn world root.length stands
      (directory_getLast bare _ proper) clean' clean room (below _)
    obtain ⟨-, plain⟩ := proper name (by simp)
    have outer : ∀ name ∈ above, name ≠ [] ∧ slash ∉ name :=
      fun name member => proper name (List.mem_append_left _ member)
    have parts : directory root (above ++ [name]) = (directory root above ++ [slash]) ++ name := by
      rw [directory_snoc, List.append_assoc, List.singleton_append]
    have length : (directory root (above ++ [name])).length = (directory root above).length + 1 + name.length := by
      rw [parts, List.length_append, List.length_append, List.length_singleton]
    have above_le := below above
    have deeper : root.length < (directory root (above ++ [name])).length := by omega
    rw [turn, directories_snoc, List.find?_cons, if_pos deeper]
    cases isRegular world (directory root (above ++ [name]) ++ slash :: marker) with
    | true => rfl
    | false =>
      rw [parts] at starts
      have lead : text.take ((directory root above ++ [slash]) ++ name).length =
          (directory root above ++ [slash]) ++ name := by
        have cut := congrArg (List.take ((directory root above ++ [slash]) ++ name).length) starts
        rw [List.take_take, Nat.min_eq_left (Nat.le_succ _), List.take_left] at cut
        exact cut
      have trimmed : trimName root.length text (directory root (above ++ [name])).length =
          (directory root above ++ [slash]).length := by
        rw [parts]
        apply stepBack_run _ _ _ _ _ lead
        · intro byte member
          rw [bne_iff_ne]
          exact fun same => plain (same ▸ member)
        · simp
        · rw [List.length_append]
          omega
      have stands' : StandsAt (directory root above) text (directory root above ++ [slash]).length := by
        refine ⟨size, Or.inl ⟨?_, by simp⟩⟩
        have cut := congrArg (List.take (directory root above ++ [slash]).length) lead
        rw [List.take_take, List.take_left, Nat.min_eq_left (by simp)] at cut
        exact cut
      simp only [Bool.false_eq_true, if_false, trimmed]
      apply ih outer _ (by omega) _ _ stands'
      intro member
      apply clean'
      rw [directory_snoc]
      exact List.mem_append_left _ member

theorem cstr_installDir {root path : Bytes} (names : Ref) (clean : (0 : Byte) ∉ directory root names)
    (holds : Holds (directory root names) path) (room : (directory root names).length < PATH_MAX) :
    cstr (installDir root.length (directory root names).length path) =
      if names = [] then root ++ [slash] else directory root names := by
  have starts := holds.starts
  split
  · next top =>
    have same : directory root names = root := by simp [top, directory, slashed]
    rw [same] at clean starts ⊢
    have shape : store path root.length [slash, 0] = (root ++ [slash]) ++ 0 :: path.drop (root.length + 2) := by
      rw [store, starts]
      simp
    rw [installDir, if_neg (by simp), shape, cstr_append_nul, cstr_of_no_nul]
    rw [List.mem_append, List.mem_singleton, not_or]
    exact ⟨clean, by decide⟩
  · next below =>
    have slashes : 0 < (slashed names).length := List.length_pos_iff.mpr (by rwa [ne_eq, slashed_eq_nil])
    have deeper : root.length < (directory root names).length := by
      rw [directory, List.length_append]
      omega
    rw [(holds_installDir holds deeper room).2, cstr_of_no_nul _ clean]

theorem copy_spec (memory : { bytes : Bytes // bytes.length = PATH_MAX }) (text : Bytes)
    (short : text.length < PATH_MAX) : (store memory.val 0 (text ++ [0])).length = PATH_MAX ∧
      (store memory.val 0 (text ++ [0])).take text.length = text := by
  refine ⟨?_, by rw [store_zero, List.append_assoc, List.take_left]⟩
  rw [store_length, memory.property]
  rw [memory.property, List.length_append, List.length_singleton, Nat.zero_add]
  exact short

theorem standsAt_copy (memory : { bytes : Bytes // bytes.length = PATH_MAX }) {root : Bytes} (names : Ref)
    (bare : (directory root names).getLast? ≠ some slash) (room : (directory root names).length + 2 ≤ PATH_MAX)
    (text : Bytes) (copied : text = if names = [] then root ++ [slash] else directory root names) :
    StandsAt (directory root names) (store memory.val 0 (text ++ [0])) text.length := by
  have short : text.length ≤ (directory root names).length + 1 := by
    subst copied
    split <;> simp [directory]
  obtain ⟨size, starts⟩ := copy_spec memory text (by omega)
  refine ⟨size, ?_⟩
  rw [starts]
  subst copied
  split
  · next top => simp [top, directory, slashed]
  · next below =>
    right
    have nonempty : directory root names ≠ [] := by
      rw [directory, ne_eq, List.append_eq_nil_iff, slashed_eq_nil]
      exact fun both => below both.2
    refine ⟨rfl, rfl, (directory root names).getLast nonempty, List.getLast?_eq_getLast_of_ne_nil nonempty, ?_⟩
    rw [List.getLast?_eq_getLast_of_ne_nil nonempty, ne_eq, Option.some.injEq] at bare
    exact bare

theorem stripped_getLast (root : Option Bytes) : (stripped root).getLast? ≠ some slash := by
  intro last
  obtain ⟨front, whole⟩ := List.getLast?_eq_some_iff.mp last
  have kept := List.rdropWhile_last_not (fun byte : Byte => decide (byte = slash)) (root.getD [])
    (fun none => by rw [stripped, none] at whole; simp at whole)
  apply kept
  rw [decide_eq_true_iff]
  have same : (root.getD []).rdropWhile (fun byte : Byte => decide (byte = slash)) = front ++ [slash] := whole
  simp only [same, List.getLast_append_singleton]

theorem mem_directories {root : Bytes} (bare : root.getLast? ≠ some slash) (names : Ref)
    (proper : ∀ name ∈ names, name ≠ [] ∧ slash ∉ name) (found : Bytes) (member : found ∈ directories root names) :
    root <+: found ∧ found <+: directory root names ∧ found.getLast? ≠ some slash := by
  rw [directories, List.mem_map] at member
  obtain ⟨above, shorter, rfl⟩ := member
  rw [List.mem_reverse, List.mem_inits] at shorter
  obtain ⟨below, rfl⟩ := shorter
  refine ⟨List.prefix_append _ _, ?_, ?_⟩
  · refine ⟨slashed below, ?_⟩
    rw [directory, directory, List.append_assoc, slashed, slashed, slashed, List.flatMap_append]
  · exact directory_getLast bare above fun name inside => proper name (List.mem_append_left _ inside)

theorem getRedpakid_auto (world : World) (apkg : Description) (implicit : apkg.redpakid = none) (marker : Bytes)
    (auto : apkg.redpakAuto = some marker) (names : Ref) (proper : ∀ name ∈ names, name ≠ [] ∧ slash ∉ name)
    (clean : (0 : Byte) ∉ packagePath apkg names) (clean' : (0 : Byte) ∉ marker)
    (room : (packagePath apkg names).length + 1 + marker.length < PATH_MAX) (path : Bytes)
    (holds : Holds (packagePath apkg names) path) :
    getRedpakid world apkg (stripped apkg.root).length
        (installDir (stripped apkg.root).length (packagePath apkg names).length path) =
      .ok ((directories (stripped apkg.root) names).find? fun directory =>
        isRegular world (directory ++ slash :: marker)) := by
  have same : packagePath apkg names = directory (stripped apkg.root) names := rfl
  rw [same] at clean room holds ⊢
  have copied := cstr_installDir names clean holds (by omega)
  have stands := standsAt_copy world.memory names
    (directory_getLast (stripped_getLast apkg.root) names proper) (by omega) _ copied
  simp only [getRedpakid, implicit, auto]
  exact searchRedpak_spec world (stripped_getLast apkg.root) clean' names proper clean room _ _ stands

/-- The redpak of a package is the nearest directory that has the marker, from the one of
the package up to the root, and no other path is looked at. -/
theorem getRedpakid_nearest (world : World) (apkg : Description) (implicit : apkg.redpakid = none) (marker : Bytes)
    (auto : apkg.redpakAuto = some marker) (names : Ref) (proper : ∀ name ∈ names, name ≠ [] ∧ slash ∉ name)
    (clean : (0 : Byte) ∉ packagePath apkg names) (clean' : (0 : Byte) ∉ marker)
    (room : (packagePath apkg names).length + 1 + marker.length < PATH_MAX) (path : Bytes)
    (holds : Holds (packagePath apkg names) path) :
    getRedpakid world apkg (stripped apkg.root).length
        (installDir (stripped apkg.root).length (packagePath apkg names).length path) =
      .ok ((directories (stripped apkg.root) names).find? fun directory =>
        isRegular world (directory ++ slash :: marker)) ∧
      (∀ directory ∈ directories (stripped apkg.root) names, stripped apkg.root <+: directory ∧
        directory <+: packagePath apkg names ∧ directory.getLast? ≠ some slash) ∧
      ∀ world' : World, (∀ directory ∈ directories (stripped apkg.root) names,
          world'.fstatat (directory ++ slash :: marker) = world.fstatat (directory ++ slash :: marker)) →
        getRedpakid world' apkg (stripped apkg.root).length
            (installDir (stripped apkg.root).length (packagePath apkg names).length path) =
          getRedpakid world apkg (stripped apkg.root).length
            (installDir (stripped apkg.root).length (packagePath apkg names).length path) := by
  refine ⟨getRedpakid_auto world apkg implicit marker auto names proper clean clean' room path holds,
    mem_directories (stripped_getLast apkg.root) names proper, ?_⟩
  intro world' same
  rw [getRedpakid_auto world apkg implicit marker auto names proper clean clean' room path holds,
    getRedpakid_auto world' apkg implicit marker auto names proper clean clean' room path holds]
  congr 1
  apply List.find?_congr
  intro directory member
  rw [isRegular, isRegular, access, access, same directory member]

/-- A system whose only regular file is the marker in its root directory. -/
def markedWorld : World :=
  { plainWorld (.object []) with
    fstatat := fun path => if path = ascii "/.redpak" then .ok .regular else .error ⟨-ENOENT, ENOENT_failure⟩ }

def markedRequest : Description := { request (some (ascii "/")) [] with redpakAuto := some (ascii ".redpak") }

theorem getRedpakid_nearest_root : getRedpakid markedWorld markedRequest 0
    (installDir 0 4 (ascii "/a/b" ++ List.replicate 4092 0)) = .ok (some []) := by
  have holds : Holds (packagePath markedRequest [ascii "a", ascii "b"]) (ascii "/a/b" ++ List.replicate 4092 0) := by
    have path : packagePath markedRequest [ascii "a", ascii "b"] = ascii "/a/b" := by decide
    rw [path]
    exact ⟨by rw [List.length_append, List.length_replicate]; decide, List.take_left⟩
  exact (getRedpakid_nearest markedWorld markedRequest rfl (ascii ".redpak") rfl [ascii "a", ascii "b"] (by decide)
    (by decide) (by decide) (by decide) _ holds).1

end AppManager.Install
