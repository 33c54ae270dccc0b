import AppManager.Install.State

/-! The metadata added to a manifest before its units are made, among them the redpak
that is searched from the package directory up to the root. -/

namespace AppManager.Install
open AppManager.Lib AppManager.Lib.Libc AppManager.Utils

/-- The position before the trailing bytes of a path that satisfy a test, not further
than just before the root. -/
def stepBack (offsetRoot : Nat) (path : Bytes) (test : Byte → Bool) : Nat → Nat
  | 0 => 0
  | lpa + 1 =>
    if offsetRoot ≤ lpa + 1 ∧ test (path.getD lpa 0) then stepBack offsetRoot path test lpa else lpa + 1

theorem stepBack_le (offsetRoot : Nat) (path : Bytes) (test : Byte → Bool) (lpa : Nat) :
    stepBack offsetRoot path test lpa ≤ lpa := by
  induction lpa with
  | zero => exact le_rfl
  | succ lpa ih =>
    unfold stepBack
    split
    · omega
    · exact le_rfl

theorem stepBack_succ_of (offsetRoot : Nat) (path : Bytes) (test : Byte → Bool) (lpa : Nat)
    (inside : offsetRoot ≤ lpa + 1) (holds : test (path.getD lpa 0) = true) :
    stepBack offsetRoot path test (lpa + 1) ≤ lpa := by
  rw [stepBack, if_pos ⟨inside, holds⟩]
  exact stepBack_le offsetRoot path test lpa

theorem stepBack_stop (offsetRoot : Nat) (path : Bytes) (test : Byte → Bool) (lpa stop : Nat)
    (stops : stepBack offsetRoot path test lpa = stop + 1) (inside : offsetRoot ≤ stop + 1) :
    test (path.getD stop 0) = false := by
  induction lpa with
  | zero => simp [stepBack] at stops
  | succ lpa ih =>
    unfold stepBack at stops
    split at stops
    · exact ih stops
    · next ends =>
      have same : lpa = stop := by omega
      subst same
      rw [not_and, Bool.not_eq_true] at ends
      exact ends inside

/-- The marker is looked for at the end of a path that is ended by a slash if it was
not yet: the position and the path. -/
def endedBySlash (path : Bytes) (lpa : Nat) : Nat × Bytes :=
  if 0 < lpa ∧ path.getD (lpa - 1) 0 ≠ slash then (lpa + 1, store path lpa [slash]) else (lpa, path)

theorem getD_store_slash (path : Bytes) (lpa : Nat) (inside : lpa < path.length) :
    (store path lpa [slash]).getD lpa 0 = slash := by
  have size : (path.take lpa).length = lpa := by rw [List.length_take]; omega
  rw [store, List.append_assoc, List.getD_eq_getElem?_getD, List.getElem?_append_right (by omega), size]
  simp

theorem getD_store_before (path data : Bytes) (position index : Nat) (before : index < position)
    (inside : position ≤ path.length) : (store path position data).getD index 0 = path.getD index 0 := by
  have size : (path.take position).length = position := by rw [List.length_take]; omega
  rw [store, List.append_assoc, List.getD_eq_getElem?_getD, List.getElem?_append_left (by omega),
    List.getElem?_take_of_lt before, ← List.getD_eq_getElem?_getD]

/-- The marker below the directory that ends at a position: where its name starts, and
the buffer that holds its path. -/
def markerAt (path marker : Bytes) (lpa : Nat) : Nat × Bytes :=
  ((endedBySlash path lpa).1, store (endedBySlash path lpa).2 (endedBySlash path lpa).1 (marker ++ [0]))

/-- The end of a directory, and the start of its name. -/
def trimSlashes (offsetRoot : Nat) (path : Bytes) (lpa : Nat) : Nat :=
  stepBack offsetRoot path (· == slash) lpa

def trimName (offsetRoot : Nat) (path : Bytes) (lpa : Nat) : Nat :=
  stepBack offsetRoot path (· != slash) lpa

/-- One turn of the search goes to a shorter path. -/
theorem trimName_lt (offsetRoot : Nat) (path marker : Bytes) (lpa : Nat) (inside : lpa < path.length)
    (above : offsetRoot ≤ lpa)
    (more : offsetRoot < trimSlashes offsetRoot (markerAt path marker lpa).2 (markerAt path marker lpa).1) :
    trimName offsetRoot (markerAt path marker lpa).2
      (trimSlashes offsetRoot (markerAt path marker lpa).2 (markerAt path marker lpa).1) < lpa := by
  generalize buffer : (markerAt path marker lpa).2 = text at more ⊢
  generalize ended : trimSlashes offsetRoot text (markerAt path marker lpa).1 = position at more ⊢
  obtain ⟨stop, same⟩ : ∃ stop, position = stop + 1 := ⟨position - 1, by omega⟩
  have short : position ≤ lpa := by
    rw [← ended]
    by_cases appended : 0 < lpa ∧ path.getD (lpa - 1) 0 ≠ slash
    · rw [markerAt, endedBySlash, if_pos appended] at buffer ⊢
      apply stepBack_succ_of _ _ _ _ (by omega)
      simp only at buffer
      rw [← buffer, getD_store_before _ _ _ _ (by omega)
        (by rw [store_length _ _ _ (by simp; omega)]; omega), getD_store_slash path lpa inside]
      rfl
    · rw [markerAt, endedBySlash, if_neg appended]
      exact stepBack_le _ _ _ _
  have name : (fun byte => byte == slash) (text.getD stop 0) = false :=
    stepBack_stop offsetRoot text _ _ stop (ended.trans same) (by omega)
  rw [trimName, same]
  have lower := stepBack_succ_of offsetRoot text (· != slash) stop (by omega) (by simpa [bne] using name)
  omega

theorem le_markerAt (path marker : Bytes) (lpa : Nat) : lpa ≤ (markerAt path marker lpa).1 := by
  unfold markerAt endedBySlash
  split <;> simp

/-- The loop of `get_redpakid`. The space that the marker needs is not compared with
the size of the buffer. -/
def searchRedpak (world : World) (offsetRoot : Nat) (marker path : Bytes) (lpa : Nat) :
    Except Crash (Option Bytes) :=
  if _above : offsetRoot ≤ lpa then
    if _fits : (markerAt path marker lpa).1 + marker.length + 1 ≤ path.length then
      match access world.fstatat (cstr (markerAt path marker lpa).2) with
      | .ok .regular =>
        .ok (some (cstr ((markerAt path marker lpa).2.set ((markerAt path marker lpa).1 - 1) 0)))
      | _ =>
        if _more : offsetRoot < trimSlashes offsetRoot (markerAt path marker lpa).2
            (markerAt path marker lpa).1 then
          searchRedpak world offsetRoot marker (markerAt path marker lpa).2
            (trimName offsetRoot (markerAt path marker lpa).2
              (trimSlashes offsetRoot (markerAt path marker lpa).2 (markerAt path marker lpa).1))
        else .ok none
    else .error .overflow
  else .ok none
termination_by lpa
decreasing_by
  have start := le_markerAt path marker lpa
  exact trimName_lt offsetRoot path marker lpa (by omega) _above _more

def getRedpakid (world : World) (apkg : Description) (offsetRoot : Nat) (path : Bytes) :
    Except Crash (Option Bytes) :=
  match apkg.redpakid with
  | some redpakid => .ok (some redpakid)
  | none =>
    match apkg.redpakAuto with
    | none => .ok none
    | some marker =>
      searchRedpak world offsetRoot marker (store world.memory.val 0 (cstr path ++ [0])) (cstr path).length

def DEFAULT_TCP_PORT_BASE : Int := 29000

/-- The number of identifiers asked so far, the error met, and the target with its metadata. -/
def addMetaToTarget (world : World) (mode : Mode) (afids : Nat) (target : Json) : Nat × Int × Json :=
  let metadata (afid port : Int) : Json :=
    .object [(ascii "afid", .literal (ascii (toString afid))), (ascii "http-port", .literal (ascii (toString port)))]
  if mode ≠ .install then (afids, 0, target.add (ascii "#metatarget") (metadata 0 0))
  else if world.getNewAfid afids < 0 then (afids + 1, -EADDRNOTAVAIL, target)
  else (afids + 1, 0, target.add (ascii "#metatarget")
    (metadata (world.getNewAfid afids) (DEFAULT_TCP_PORT_BASE + world.getNewAfid afids)))

def addMetaToTargets (world : World) (mode : Mode) (afids : Nat) : List Json → Nat × Int × List Json
  | [] => (afids, 0, [])
  | target :: rest =>
    let first := addMetaToTarget world mode afids target
    let others := addMetaToTargets world mode first.1 rest
    (others.1, if others.2.1 < 0 then others.2.1 else first.2.1, first.2.2 :: others.2.2)

/-- The directory of the package in the path buffer. -/
def installDir (offsetRoot offsetPack : Nat) (path : Bytes) : Bytes :=
  if offsetRoot ≠ offsetPack then store path offsetPack [0] else store path offsetRoot [slash, 0]

def metadataOf (world : World) (apkg : Description) (redpakid : Option Bytes) (path : Bytes) : Json :=
  let root := if redpakid.isSome ∧ apkg.redpakAuto.isSome then redpakid.getD [] else apkg.root.getD []
  let optional := match redpakid with
    | some redpakid => [(ascii "redpak-id", Json.string redpakid)]
    | none => []
  .object ([(ascii "install-dir", .string (cstr (path.drop root.length))),
      (ascii "icons-dir", .string world.iconDir),
      (ascii "redpak", .literal (ascii (if redpakid.isSome then "true" else "false")))] ++
    optional ++ [(ascii "root-dir", .string root)])

/-- The answer, the number of identifiers asked so far, the path buffer and the manifest. -/
structure Described where
  rc : Int
  afids : Nat
  path : Bytes
  manifest : Json

def addMetaToManifest (world : World) (apkg : Description) (mode : Mode) (offsetRoot offsetPack : Nat)
    (afids : Nat) (path : Bytes) (manifest : Json) : Except Crash Described := do
  let path := installDir offsetRoot offsetPack path
  let redpakid ← getRedpakid world apkg offsetRoot path
  let manifest := manifest.add (ascii "#metadata") (metadataOf world apkg redpakid path)
  match manifest.get MANIFEST_TARGETS with
  | some (.array targets) =>
    let result := addMetaToTargets world mode afids targets
    return ⟨result.2.1, result.1, path, manifest.add MANIFEST_TARGETS (.array result.2.2)⟩
  | _ => return ⟨0, afids, path, manifest⟩

end AppManager.Install
