import AppManager.Install.TagPaths
import AppManager.Install.Redpak
import AppManager.Utils.PathRelative

/-! The paths of a package that fit in the path buffers. The path of its directory and that
of the marker of redpaks are written without a check of their lengths. -/

namespace AppManager.Install
open AppManager.Lib AppManager.Lib.Libc AppManager.Utils

def markerPath (directory marker : Bytes) : Bytes :=
  directory ++ (if directory = [] ∨ directory.getLast? = some slash then [] else [slash]) ++ marker

section
variable (apkg : Description)

/-- The path of an entry and its end fit in the path buffer. -/
def PathFits (ref : Ref) : Prop := (packagePath apkg ref).length < PATH_MAX

/-- When the redpak of a package is searched, the path of the first marker and its end fit. -/
def MarkerFits (root : Ref) : Prop :=
  apkg.redpakid = none → ∀ marker, apkg.redpakAuto = some marker →
    (stripped apkg.root).length ≤ (cstr (packagePath apkg root)).length →
      (markerPath (cstr (packagePath apkg root)) marker).length < PATH_MAX

end

theorem markerAt_le (path marker : Bytes) (lpa : Nat) : (markerAt path marker lpa).1 ≤ lpa + 1 := by
  unfold markerAt endedBySlash
  split
  · exact le_rfl
  · exact Nat.le_succ lpa

theorem markerAt_length (path marker : Bytes) (lpa : Nat)
    (fits : (markerAt path marker lpa).1 + marker.length + 1 ≤ path.length) :
    (markerAt path marker lpa).2.length = path.length := by
  have start := le_markerAt path marker lpa
  have slashed : (endedBySlash path lpa).2.length = path.length := by
    unfold endedBySlash
    split
    · exact store_length _ _ _ (by rw [List.length_singleton]; omega)
    · rfl
  rw [markerAt, store_length, slashed]
  rw [slashed, List.length_append, List.length_singleton]
  exact fits

theorem searchRedpak_fits (world : World) (offsetRoot : Nat) (marker path : Bytes) (lpa : Nat)
    (fits : (markerAt path marker lpa).1 + marker.length + 1 ≤ path.length) (crash : Crash) :
    searchRedpak world offsetRoot marker path lpa ≠ .error crash := by
  induction lpa using Nat.strong_induction_on generalizing path with
  | _ lpa ih =>
    intro failed
    unfold searchRedpak at failed
    split at failed
    · next above =>
      split at failed
      · cases failed
      · split at failed
        · next more =>
          have start := le_markerAt path marker lpa
          have shorter := trimName_lt offsetRoot path marker lpa (by omega) above more
          refine ih _ shorter _ ?_ failed
          have next := markerAt_le (markerAt path marker lpa).2 marker
            (trimName offsetRoot (markerAt path marker lpa).2
              (trimSlashes offsetRoot (markerAt path marker lpa).2 (markerAt path marker lpa).1))
          rw [markerAt_length path marker lpa fits]
          omega
        · cases failed
    · cases failed

theorem markerAt_first {directory path : Bytes} (starts : path.take directory.length = directory) (marker : Bytes) :
    (markerAt path marker directory.length).1 + marker.length = (markerPath directory marker).length := by
  have ended : (markerAt path marker directory.length).1 = (endedBySlash path directory.length).1 := rfl
  rw [ended, markerPath, endedBySlash]
  cases directory using List.reverseRecOn with
  | nil => simp
  | append_singleton above last _ =>
    have read : path.getD ((above ++ [last]).length - 1) 0 = last := by
      rw [getD_of_take starts (by simp)]
      simp
    rw [read]
    by_cases slashed : last = slash
    · simp [slashed]
      omega
    · simp [slashed]
      omega

theorem getRedpakid_inside (world : World) (apkg : Description) {root : Ref} (short : PathFits apkg root) :
    MarkerFits apkg root ↔
      ∀ crash, getRedpakid world apkg (stripped apkg.root).length (packagePath apkg root) ≠ .error crash := by
  unfold MarkerFits getRedpakid
  cases apkg.redpakid with
  | some redpakid => simp
  | none =>
    cases apkg.redpakAuto with
    | none => simp
    | some marker =>
      have copied : (cstr (packagePath apkg root)).length < PATH_MAX :=
        lt_of_le_of_lt (cstr_length_le _) short
      obtain ⟨size, starts⟩ := copy_spec world.memory _ copied
      have first := markerAt_first starts marker
      generalize store world.memory.val 0 (cstr (packagePath apkg root) ++ [0]) = path at size first
      simp only [forall_const, Option.some.injEq, forall_eq']
      constructor
      · intro fits crash
        by_cases above : (stripped apkg.root).length ≤ (cstr (packagePath apkg root)).length
        · have inside := fits above
          exact searchRedpak_fits world _ marker path _ (by omega) crash
        · intro failed
          rw [searchRedpak, dif_neg above] at failed
          cases failed
      · intro never above
        by_contra long
        apply never .overflow
        rw [searchRedpak, dif_pos above, dif_neg (by omega)]

theorem pathEntryGet_descend {start entry : PathEntry} {path : Option Bytes}
    (found : pathEntryGet start path = some entry) : ∃ names, descend names start = some entry := ⟨_, found⟩

section
variable (pack : Package)

/-- A file that the check of a target looks at, for its content or one of its configurations. -/
def LooksAt (target : Json) (entry : PathEntry) : Prop :=
  (∃ members src type, target.get (ascii "content") = some (.object members) ∧
    (Json.object members).get (ascii "src") = some (.string src) ∧
    (Json.object members).get (ascii "type") = some (.string type) ∧
    findContent pack.packdir (cstr src) = some entry) ∨
  ∃ configs text, target.get MANIFEST_REQUIRED_CONFIGS = some configs ∧ Json.string text ∈ configs.optarrayItems ∧
    pathEntryGet pack.packdir (some (cstr text)) = some entry

def Looked (entry : PathEntry) : Prop := ∃ target ∈ pack.targets, LooksAt pack target entry

/-- The length that is compared with the size of the buffer counts the path of the root and
that of the file from the package, but not the path in between. -/
def Refused (entry : PathEntry) : Prop :=
  PATH_MAX < (slashed (entry.ref.drop pack.packdir.ref.length)).length + pack.offsetRoot

theorem findContent_descend {packdir entry : PathEntry} {src : Bytes} (found : findContent packdir src = some entry) :
    ∃ names, descend names packdir = some entry := by
  unfold findContent at found
  split at found
  · next direct =>
    rw [found] at direct
    exact pathEntryGet_descend direct
  · obtain ⟨web, located, inside⟩ := Option.bind_eq_some_iff.mp found
    obtain ⟨names, first⟩ := pathEntryGet_descend located
    obtain ⟨names', second⟩ := pathEntryGet_descend inside
    refine ⟨names ++ names', ?_⟩
    rw [descend_append, first]
    exact second

theorem LooksAt.descend {target : Json} {entry : PathEntry} (looks : LooksAt pack target entry) :
    ∃ names, descend names pack.packdir = some entry := by
  rcases looks with ⟨_, src, _, -, -, -, found⟩ | ⟨_, _, -, -, found⟩
  · exact findContent_descend found
  · exact pathEntryGet_descend found

/-- No file that is looked at is refused, when the package is installed. -/
def Unrefused (mode : Mode) : Prop := mode = .install → ∀ entry, Looked pack entry → ¬Refused pack entry

/-- The directories of a plug fit in their buffers. -/
def PlugFits (world : World) (apkg : Description) (name value : Json) : Prop :=
  pack.offsetPack + (exportText world name).length < PATH_MAX ∧
    (importPath world (cstr (stripped apkg.root)) value).length ≤ PATH_MAX

/-- What is looked at fits or is refused. When nothing is refused, all the entries and the
plugs of the package fit. -/
structure PackFits (world : World) (apkg : Description) (mode : Mode) : Prop where
  looked : mode = .install → ∀ entry, Looked pack entry → PathFits apkg entry.ref ∨ Refused pack entry
  entries : Unrefused pack mode → ∀ entry ∈ pack.packdir.entries, PathFits apkg entry.ref
  plugs : Unrefused pack mode → ∀ name value, PlugOf pack.manifest name value → PlugFits pack world apkg name value

theorem relpathAt_below {tree : PathTree} (inTree : pack.packdir ∈ tree.root.entries) {names : Ref}
    (below : names ≠ []) {entry : PathEntry} (found : descend names pack.packdir = some entry) (path : Bytes) :
    relpathAt pack entry path = ((slashed names).length, store path pack.offsetPack
      (store (path.drop pack.offsetPack) 0 (clipped (path.drop pack.offsetPack).length (slashed names)))) := by
  obtain ⟨located, member⟩ := descend_sound names pack.packdir entry found
  have known : entry ∈ tree.root.entries := by
    have whole : descend (pack.packdir.ref ++ names) tree.root = some entry := by
      rw [descend_append, (descend_root_iff tree _ _).mpr ⟨inTree, rfl⟩]
      exact found
    exact ((descend_root_iff tree _ _).mp whole).1
  have labels := labelsFrom_below tree pack.packdir entry inTree known names located
  have named : labelsFrom pack.packdir.lineage.length entry.lineage ≠ [] := by
    intro none
    rw [none] at labels
    exact below labels.symm
  have path' : relativePath pack.packdir.lineage.length ⟨false, true⟩ entry.lineage = slashed names := by
    obtain ⟨first, rest, rfl⟩ := List.exists_cons_of_ne_nil below
    rw [relativePath, joined, labels, ← slash_intercalate]
    simp [leads]
  rw [relpathAt, pathEntryRelpath_spec _ _ _ _ named, path']
  rfl

theorem store_behind {path data : Bytes} {position : Nat} (size : path.length = PATH_MAX)
    (inside : position < PATH_MAX) (same : data.length = (path.drop position).length) :
    store path position data = path.take position ++ data := by
  rw [List.length_drop, size] at same
  rw [store_tail _ _ _ (by rw [same, size]; omega)]

theorem relpathAt_clipped {tree : PathTree} (inTree : pack.packdir ∈ tree.root.entries) {names : Ref}
    (below : names ≠ []) {entry : PathEntry} (found : descend names pack.packdir = some entry) {path : Bytes}
    (size : path.length = PATH_MAX) (inside : pack.offsetPack < PATH_MAX) :
    (relpathAt pack entry path).2 = path.take pack.offsetPack ++
      (clipped (PATH_MAX - pack.offsetPack) (slashed names) ++
        (path.drop pack.offsetPack).drop ((slashed names).length + 1)) := by
  have left : (path.drop pack.offsetPack).length = PATH_MAX - pack.offsetPack := by rw [List.length_drop, size]
  have data : (store (path.drop pack.offsetPack) 0
      (clipped (path.drop pack.offsetPack).length (slashed names))).length = (path.drop pack.offsetPack).length := by
    rw [store_length]
    rw [clipped, List.length_take]
    omega
  rw [relpathAt_below pack inTree below found path, store_behind size inside data, store_clipped, left]

theorem relpathAt_self (named : pack.packdir.label.name ≠ []) {path : Bytes} (size : path.length = PATH_MAX)
    (inside : pack.offsetPack < PATH_MAX) : (relpathAt pack pack.packdir path).2 =
      path.take pack.offsetPack ++ slash :: path.drop (pack.offsetPack + 1) := by
  have data : (slash :: (path.drop pack.offsetPack).drop 1).length = (path.drop pack.offsetPack).length := by
    simp only [List.length_cons, List.length_drop, size]
    omega
  rw [relpathAt, pathEntryRelpath_self, if_pos rfl, if_pos named, Option.getD_some, store_behind size inside data,
    List.drop_drop]

section
variable {Closure : Type} (world : World) {tree : PathTree} (inTree : pack.packdir ∈ tree.root.entries)
  (room : pack.offsetRoot < PATH_MAX)
include inTree room

theorem checkInstalled_refuses {entry : PathEntry} (inside : ∃ names, descend names pack.packdir = some entry)
    (refused : Refused pack entry) (allowed : FileKind → Bool) (state : State Closure) :
    (checkInstalled world pack (some entry) allowed state).1 < 0 := by
  obtain ⟨names, found⟩ := inside
  rw [Refused, (descend_sound names pack.packdir entry found).1, List.drop_left] at refused
  have below : names ≠ [] := by
    rintro rfl
    exact absurd refused (by simp only [slashed, List.flatMap_nil, List.length_nil]; omega)
  simp only [checkInstalled, relpathAt_below pack inTree below found, if_pos refused]
  decide

theorem checkTargetCb_refuses {target : Json} {entry : PathEntry} (looks : LooksAt pack target entry)
    (refused : Refused pack entry) (state : State Closure) : (checkTargetCb world pack state target).rc < 0 := by
  have inside := looks.descend
  unfold checkTargetCb
  rcases looks with ⟨members, src, type, located, sourced, typed, found⟩ | ⟨configs, text, located, member, found⟩
  · apply checkTargetConfig_rc
    simp only [checkTargetContent, located, sourced, typed, checkSrcTypeDefinition, found]
    exact ((put_rc _ _).1).mpr (Or.inr (checkInstalled_refuses pack world inTree room inside refused _ state))
  · simp only [checkTargetConfig, located]
    apply foldl_makes (fun state : State Closure => state.rc < 0) member
    · intro state'
      simp only [checkOneTargetConfigCb, checkConfigFile, found]
      exact ((put_rc _ _).1).mpr (Or.inr (checkInstalled_refuses pack world inTree room inside refused _ state'))
    · exact fun state' negative jso => checkOneTargetConfigCb_rc world pack state' negative jso

theorem checkContents_refuses {entry : PathEntry} (looked : Looked pack entry) (refused : Refused pack entry)
    (state : State Closure) : (checkContents world pack state).rc < 0 := by
  obtain ⟨target, member, looks⟩ := looked
  apply foldl_makes (fun state : State Closure => state.rc < 0) member
  · exact checkTargetCb_refuses pack world inTree room looks refused
  · intro state' negative other
    by_contra fine
    exact absurd (checkTargetCb_fine world pack state' other (not_lt.mp fine)).1 (not_le.mpr negative)

end

theorem looked_described {manifest described : Json} (whole : WithMetadata manifest described) (packdir : PathEntry)
    (offsetRoot offsetPack : Nat) (entry : PathEntry) :
    Looked ⟨packdir, offsetRoot, offsetPack, described⟩ entry ↔
      Looked ⟨packdir, offsetRoot, offsetPack, manifest⟩ entry := by
  have same : ∀ {target item}, Completes target item →
      (LooksAt ⟨packdir, offsetRoot, offsetPack, described⟩ item entry ↔
        LooksAt ⟨packdir, offsetRoot, offsetPack, manifest⟩ target entry) := by
    intro target item completes
    unfold LooksAt
    rw [completes.get (by decide), completes.get (by decide)]
  constructor
  · rintro ⟨item, member, looks⟩
    obtain ⟨target, inside, completes⟩ := whole.targets.known item member
    exact ⟨target, inside, (same completes).mp looks⟩
  · rintro ⟨target, member, looks⟩
    obtain ⟨item, inside, completes⟩ := whole.targets.all target member
    exact ⟨item, inside, (same completes).mpr looks⟩

end

end AppManager.Install
