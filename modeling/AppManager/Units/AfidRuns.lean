import AppManager.Lib.History
import AppManager.Units.AfidLines

/-! The identifiers that are given during a run of the process, while unit files come
and go and the scans of the disk can fail at any point. -/

namespace AppManager.Units
open AppManager.Lib AppManager.Lib.Libc

/-- A line of the unit file, as normalized, says that its identifier is this number. -/
def Carries (content : Bytes) (afid : Int) : Prop :=
  ∃ before private' value, normalizeUnitFile (cstr content) = before ++ afidLine private' value ∧
    (before = [] ∨ before.getLast? = some newline) ∧ atoi (value.dropWhile (· == 32)) = afid

theorem afidsOf_carried (content : Bytes) (afid : Int) (carries : Carries content afid) :
    afid ∈ afidsOf (normalizeUnitFile (cstr content)) := by
  obtain ⟨before, private', value, text, ends, same⟩ := carries
  have apart : Bordered before := ends.imp_right fun last => ⟨newline, last, Or.inl rfl⟩
  rw [text, ← same, ← afidKey_line]
  exact afidsFrom_key _ before private' value List.not_mem_nil List.not_mem_nil apart (Nat.lt_succ_self _)

theorem listEntries_marks (ended : Bool) (entries : List Dirent) (array : AfidsArray)
    (zero : (listEntries (fun _ => getAfidCb) ended entries array).1 = 0) :
    ended = true ∧ ∀ afid : Nat, AFID_IS_VALID afid →
      (afidTest array afid = true → afidTest (listEntries (fun _ => getAfidCb) ended entries array).2 afid = true) ∧
      ∀ name read, Dirent.file name read ∈ entries → ∃ content, read = .ok content ∧
        (Carries content afid → afidTest (listEntries (fun _ => getAfidCb) ended entries array).2 afid = true) := by
  induction entries generalizing array with
  | nil =>
    rw [listEntries] at zero ⊢
    refine ⟨?_, fun afid valid => ⟨id, by simp⟩⟩
    cases ended with
    | true => rfl
    | false => cases zero
  | cons entry rest ih =>
    cases entry with
    | other =>
      rw [listEntries] at zero ⊢
      obtain ⟨finished, marks⟩ := ih array zero
      refine ⟨finished, fun afid valid => ⟨(marks afid valid).1, fun name read member => ?_⟩⟩
      exact (marks afid valid).2 name read (by simpa using member)
    | failing => cases zero
    | file name read =>
      cases read with
      | error failure =>
        rw [listEntries, getAfidCb] at zero
        simp only [if_neg (Int.ne_of_lt failure.2)] at zero
        exact absurd zero (Int.ne_of_lt failure.2)
      | ok content =>
        have goes : listEntries (fun _ => getAfidCb) ended (.file name (.ok content) :: rest) array =
            listEntries (fun _ => getAfidCb) ended rest
              ((afidsOf (normalizeUnitFile (cstr content))).foldl mark array) := rfl
        rw [goes] at zero ⊢
        obtain ⟨finished, marks⟩ := ih _ zero
        refine ⟨finished, fun afid valid => ⟨fun set => (marks afid valid).1 ?_, fun other read member => ?_⟩⟩
        · rw [marks_test _ _ afid valid, set, Bool.or_true]
        · rcases List.mem_cons.mp member with here | later
          · rw [Dirent.file.injEq] at here
            refine ⟨content, here.2, fun carries => (marks afid valid).1 ?_⟩
            rw [marks_test _ _ afid valid, decide_eq_true (afidsOf_carried content afid carries), Bool.true_or]
          · exact (marks afid valid).2 other read later

theorem listEntries_nonpos (ended : Bool) (entries : List Dirent) (array : AfidsArray) :
    (listEntries (fun _ => getAfidCb) ended entries array).1 ≤ 0 := by
  induction entries generalizing array with
  | nil => cases ended <;> simp [listEntries]
  | cons entry rest ih =>
    cases entry with
    | other => exact ih array
    | failing => simp [listEntries]
    | file name read =>
      rw [listEntries]
      split
      · exact ih _
      · cases read with
        | error failure => exact Int.le_of_lt failure.2
        | ok content => exact Int.le_refl 0

theorem unitsFsList_nonpos (directory : Directory) (relax : Bool) (array : AfidsArray) :
    (unitsFsList (fun _ => getAfidCb) directory relax array).1 ≤ 0 := by
  unfold unitsFsList
  split
  · dsimp only
    split <;> omega
  · exact listEntries_nonpos _ _ _

/-- What a traversal of a directory can meet, by the regular files that it holds. -/
structure Shows (files : Bytes → Option Bytes) (directory : Directory) : Prop where
  missing : directory.opened = some ENOENT → ∀ name, files name = none
  complete : directory.opened = none → directory.ended = true → ∀ name content, files name = some content →
    ∃ read, Dirent.file name read ∈ directory.entries
  reads : ∀ name content, Dirent.file name (.ok content) ∈ directory.entries → files name = some content

theorem unitsFsList_marks (files : Bytes → Option Bytes) (directory : Directory) (shows : Shows files directory)
    (array : AfidsArray) (fine : 0 ≤ (unitsFsList (fun _ => getAfidCb) directory true array).1) (afid : Nat)
    (valid : AFID_IS_VALID afid) :
    (afidTest array afid = true →
      afidTest (unitsFsList (fun _ => getAfidCb) directory true array).2 afid = true) ∧
    ∀ name content, files name = some content → Carries content afid →
      afidTest (unitsFsList (fun _ => getAfidCb) directory true array).2 afid = true := by
  cases opened : directory.opened with
  | some errno =>
    simp only [unitsFsList, opened] at fine ⊢
    refine ⟨id, fun name content known => ?_⟩
    split at fine
    · next relaxed =>
      rw [shows.missing (by rw [opened, relaxed.2]) name] at known
      cases known
    · omega
  | none =>
    have zero := le_antisymm (unitsFsList_nonpos directory true array) fine
    simp only [unitsFsList, opened] at zero ⊢
    obtain ⟨finished, marks⟩ := listEntries_marks _ _ _ zero
    obtain ⟨kept, found⟩ := marks afid valid
    refine ⟨kept, fun name content known carries => ?_⟩
    obtain ⟨read, member⟩ := shows.complete opened finished name content known
    obtain ⟨content', same, set⟩ := found name read member
    subst same
    rw [shows.reads name content' member, Option.some.injEq] at known
    exact set (known ▸ carries)

/-- The unit files on the disk, the state of the process, and whether its last scan succeeded. -/
structure AfidWorld where
  system : Bytes → Option Bytes
  user : Bytes → Option Bytes
  state : AfidState
  trusted : Bool

namespace AfidWorld

def Installed (world : AfidWorld) (afid : Int) : Prop :=
  ∃ name content, (world.system name = some content ∨ world.user name = some content) ∧ Carries content afid

def ShownBy (world : AfidWorld) (scan : Scan) : Prop := Shows world.system scan.system ∧ Shows world.user scan.user

end AfidWorld

theorem updateAfids_covers (world : AfidWorld) (scan : Scan) (shown : world.ShownBy scan)
    (fine : 0 ≤ (updateAfids true scan).1) (afid : Nat) (valid : AFID_IS_VALID afid)
    (installed : world.Installed afid) : afidTest (updateAfids true scan).2 afid = true := by
  obtain ⟨system, user⟩ := shown
  obtain ⟨name, content, place, carries⟩ := installed
  simp only [updateAfids, Bool.not_true, Bool.false_eq_true, ↓reduceIte] at fine ⊢
  split at fine
  · omega
  · next fine' =>
    have first := unitsFsList_marks world.system scan.system system (fun _ => 0) (not_lt.mp fine') afid valid
    have second := unitsFsList_marks world.user scan.user user _ fine afid valid
    rcases place with here | here
    · exact second.1 (first.2 name content here carries)
    · exact second.2 name content here carries

/-- The code of the last scan that a call makes, if it makes one. -/
def lastScan (first again : Scan) (state : AfidState) : Option Int :=
  if state.initDone then
    if firstFreeAfid state.array < 0 then some (updateAfids true again).1 else none
  else if (updateAfids true first).1 < 0 then some (updateAfids true first).1
  else if firstFreeAfid (updateAfids true first).2 < 0 then some (updateAfids true again).1
  else some (updateAfids true first).1

theorem getNewAfid_cases (first again : Scan) (state : AfidState) :
    (∃ rc, rc < 0 ∧ lastScan first again state = some rc ∧ (getNewAfid first again state).1 = rc ∧
      (getNewAfid first again state).2.initDone = true) ∨
    (∃ scan, (scan = first ∨ scan = again) ∧ lastScan first again state = some (updateAfids true scan).1 ∧
      0 ≤ (updateAfids true scan).1 ∧
      getNewAfid first again state = recordAfid (firstFreeAfid (updateAfids true scan).2) (updateAfids true scan).2 ∧
      (state.initDone = true → firstFreeAfid state.array < 0 ∧ 0 ≤ (updateAfids true again).1)) ∨
    (state.initDone = true ∧ lastScan first again state = none ∧ 0 ≤ firstFreeAfid state.array ∧
      getNewAfid first again state = recordAfid (firstFreeAfid state.array) state.array) := by
  cases done : state.initDone with
  | true =>
    simp only [getNewAfid, initAfidManager, lastScan, done, ↓reduceIte, lt_irrefl]
    by_cases full : firstFreeAfid state.array < 0
    · simp only [full, ↓reduceIte]
      by_cases failed : (updateAfids true again).1 < 0
      · simp only [failed, ↓reduceIte]
        exact Or.inl ⟨_, failed, rfl, rfl, trivial⟩
      · simp only [failed, ↓reduceIte]
        exact Or.inr (Or.inl ⟨again, Or.inr rfl, rfl, not_lt.mp failed, rfl, fun _ => ⟨trivial, not_lt.mp failed⟩⟩)
    · simp only [full, ↓reduceIte]
      exact Or.inr (Or.inr ⟨trivial, trivial, not_lt.mp full, trivial⟩)
  | false =>
    simp only [getNewAfid, initAfidManager, lastScan, done, Bool.false_eq_true, ↓reduceIte]
    by_cases failed : (updateAfids true first).1 < 0
    · simp only [failed, ↓reduceIte]
      exact Or.inl ⟨_, failed, rfl, rfl, trivial⟩
    · simp only [failed, ↓reduceIte]
      by_cases full : firstFreeAfid (updateAfids true first).2 < 0
      · simp only [full, ↓reduceIte]
        by_cases failed' : (updateAfids true again).1 < 0
        · simp only [failed', ↓reduceIte]
          exact Or.inl ⟨_, failed', rfl, rfl, trivial⟩
        · simp only [failed', ↓reduceIte]
          exact Or.inr (Or.inl ⟨again, Or.inr rfl, rfl, not_lt.mp failed', rfl, fun impossible => by cases impossible⟩)
      · simp only [full, ↓reduceIte]
        exact Or.inr (Or.inl ⟨first, Or.inl rfl, rfl, not_lt.mp failed, rfl, fun impossible => by cases impossible⟩)

theorem recordAfid_spec (array : AfidsArray) :
    ((recordAfid (firstFreeAfid array) array).1 = -1 ∧ (recordAfid (firstFreeAfid array) array).2 = ⟨true, array⟩) ∨
      ∃ afid : Nat, AFID_IS_VALID afid ∧ afidTest array afid = false ∧
        (recordAfid (firstFreeAfid array) array).1 = afid ∧
        (recordAfid (firstFreeAfid array) array).2 = ⟨true, afidSet array afid⟩ := by
  rcases firstFreeAfid_spec array with ⟨none, -⟩ | ⟨afid, found, valid, free⟩
  · rw [none]
    exact Or.inl ⟨rfl, rfl⟩
  · refine Or.inr ⟨afid, valid, free, ?_, ?_⟩
    · rw [found, recordAfid]
    · rw [found, recordAfid, if_pos (Int.natCast_nonneg afid), Int.toNat_natCast]

/-- What happens: a call, with what its two scans meet, a unit file that is installed, in
place of the one of its name, or one that is removed. -/
inductive AfidStep where
  | call (first again : Scan)
  | install (isuser : Bool) (name content : Bytes)
  | remove (isuser : Bool) (name : Bytes)

inductive AfidEvent where
  | called (world : AfidWorld) (first again : Scan) (rc : Int)
  | installed (content : Bytes)
  | removed

namespace AfidWorld

def withFile (world : AfidWorld) (isuser : Bool) (name : Bytes) (content : Option Bytes) : AfidWorld :=
  if isuser then { world with user := Function.update world.user name content }
  else { world with system := Function.update world.system name content }

def next (world : AfidWorld) : AfidStep → AfidWorld
  | .call first again =>
    { world with
      state := (getNewAfid first again world.state).2
      trusted := ((lastScan first again world.state).map fun rc => decide (0 ≤ rc)).getD world.trusted }
  | .install isuser name content => world.withFile isuser name (some content)
  | .remove isuser name => world.withFile isuser name none

def event (world : AfidWorld) : AfidStep → AfidEvent
  | .call first again => .called world first again (getNewAfid first again world.state).1
  | .install _ _ content => .installed content
  | .remove _ _ => .removed

/-- Scans meet what is on the disk, where they do not fail. -/
def Possible (world : AfidWorld) : AfidStep → Prop
  | .call first again => world.ShownBy first ∧ world.ShownBy again
  | _ => True

end AfidWorld

/-- The identifier was given by a call, and no unit file that carries it was installed since. -/
def Pending (history : List AfidEvent) (afid : Int) : Prop :=
  Since (fun event => 0 ≤ afid ∧ ∃ world first again, event = .called world first again afid)
    (fun event => ∃ content, event = .installed content ∧ Carries content afid) history

/-- The runs of a process whose steps are all allowed. -/
inductive AfidRun (Allowed : AfidWorld → List AfidEvent → AfidStep → Prop) : AfidWorld → List AfidEvent → Prop
  | start (system user : Bytes → Option Bytes) (array : AfidsArray) :
      AfidRun Allowed ⟨system, user, ⟨false, array⟩, false⟩ []
  | step {world history} (step : AfidStep) (possible : world.Possible step) (allowed : Allowed world history step) :
      AfidRun Allowed world history → AfidRun Allowed (world.next step) (history ++ [world.event step])

/-- A call made once the last scan succeeded, or that scans again; a new scan of an exhausted
array only when nothing is pending; and installations of marked identifiers only. -/
def Safe (world : AfidWorld) (history : List AfidEvent) : AfidStep → Prop
  | .call _ again => world.state.initDone = true →
      (world.trusted = true ∨ firstFreeAfid world.state.array < 0) ∧
      (firstFreeAfid world.state.array < 0 → 0 ≤ (updateAfids true again).1 → ∀ afid, ¬Pending history afid)
  | .install _ _ content => world.state.initDone = true → ∀ afid : Nat, AFID_IS_VALID afid →
      Carries content afid → afidTest world.state.array afid = true
  | .remove _ _ => True

structure WellGiven (before : List AfidEvent) (world : AfidWorld) (first again : Scan) (rc : Int) : Prop where
  unique : 0 ≤ rc → AFID_IS_VALID rc ∧ ¬world.Installed rc ∧ ¬Pending before rc
  none : (∀ afid, AFID_IS_VALID afid → world.Installed afid ∨ Pending before afid) → rc < 0
  failed : (lastScan first again world.state).any (· < 0) = true → rc < 0

/-- The marks cover what is installed and what is pending, once a scan succeeded. -/
structure Covered (world : AfidWorld) (history : List AfidEvent) : Prop where
  before : world.state.initDone = false → ∀ afid, ¬Pending history afid
  marks : world.state.initDone = true → world.trusted = true → ∀ afid : Nat, AFID_IS_VALID afid →
    world.Installed afid ∨ Pending history afid → afidTest world.state.array afid = true

theorem pending_called (history : List AfidEvent) (world : AfidWorld) (first again : Scan) (rc afid : Int) :
    Pending (history ++ [.called world first again rc]) afid ↔ (0 ≤ afid ∧ rc = afid) ∨ Pending history afid := by
  simp only [Pending, since_snoc, AfidEvent.called.injEq, reduceCtorEq, false_and, exists_false, not_false_eq_true,
    and_true]
  constructor
  · rintro (⟨positive, world', first', again', -, -, -, same⟩ | before)
    · exact Or.inl ⟨positive, same⟩
    · exact Or.inr before
  · rintro (⟨positive, same⟩ | before)
    · exact Or.inl ⟨positive, world, first, again, rfl, rfl, rfl, same⟩
    · exact Or.inr before

theorem pending_installed (history : List AfidEvent) (content : Bytes) (afid : Int) :
    Pending (history ++ [.installed content]) afid ↔ Pending history afid ∧ ¬Carries content afid := by
  simp [Pending, since_snoc]

theorem pending_removed (history : List AfidEvent) (afid : Int) :
    Pending (history ++ [.removed]) afid ↔ Pending history afid := by
  simp [Pending, since_snoc]

theorem installed_withFile (world : AfidWorld) (isuser : Bool) (name : Bytes) (content : Option Bytes) (afid : Int)
    (installed : (world.withFile isuser name content).Installed afid) :
    world.Installed afid ∨ ∃ new, content = some new ∧ Carries new afid := by
  obtain ⟨other, there, place, carries⟩ := installed
  have update : ∀ files : Bytes → Option Bytes, Function.update files name content other = some there →
      files other = some there ∨ content = some there := by
    intro files found
    by_cases same : other = name
    · rw [same, Function.update_self] at found
      exact Or.inr found
    · rw [Function.update_of_ne same] at found
      exact Or.inl found
  cases isuser with
  | true =>
    rcases place with place | place
    · exact Or.inl ⟨other, there, Or.inl place, carries⟩
    · rcases update _ place with old | new
      · exact Or.inl ⟨other, there, Or.inr old, carries⟩
      · exact Or.inr ⟨there, new, carries⟩
  | false =>
    rcases place with place | place
    · rcases update _ place with old | new
      · exact Or.inl ⟨other, there, Or.inl old, carries⟩
      · exact Or.inr ⟨there, new, carries⟩
    · exact Or.inl ⟨other, there, Or.inr place, carries⟩

theorem withFile_state (world : AfidWorld) (isuser : Bool) (name : Bytes) (content : Option Bytes) :
    (world.withFile isuser name content).state = world.state ∧
      (world.withFile isuser name content).trusted = world.trusted := by
  cases isuser <;> exact ⟨rfl, rfl⟩

theorem given_covered (history : List AfidEvent) (world : AfidWorld) (first again : Scan) (array : AfidsArray)
    (covers : ∀ afid : Nat, AFID_IS_VALID afid → world.Installed afid ∨ Pending history afid →
      afidTest array afid = true)
    (result : getNewAfid first again world.state = recordAfid (firstFreeAfid array) array)
    (fine : (lastScan first again world.state).any (· < 0) = false) (trusted : Bool) :
    WellGiven history world first again (getNewAfid first again world.state).1 ∧
      Covered { world with state := (getNewAfid first again world.state).2, trusted := trusted }
        (history ++ [.called world first again (getNewAfid first again world.state).1]) := by
  rw [result]
  have quiet : (lastScan first again world.state).any (· < 0) = true → ∀ rc : Int, rc < 0 := by
    intro failed
    rw [fine] at failed
    cases failed
  rcases recordAfid_spec array with ⟨none, same⟩ | ⟨afid, valid, free, given, same⟩
  · rw [none, same]
    refine ⟨⟨fun positive => by omega, fun _ => by omega, fun failed => quiet failed _⟩,
      ⟨fun impossible => (by cases impossible), fun _ _ afid valid there => ?_⟩⟩
    refine covers afid valid (there.imp id fun pending => ?_)
    exact ((pending_called ..).mp pending).resolve_left (fun both => by omega)
  · have apart : ¬(world.Installed afid ∨ Pending history afid) := by
      intro there
      rw [covers afid valid there] at free
      cases free
    rw [given, same]
    refine ⟨⟨fun _ => ⟨valid, not_or.mp apart⟩, fun all => absurd (all afid valid) apart,
      fun failed => quiet failed _⟩, ⟨fun impossible => (by cases impossible), fun _ _ other valid' there => ?_⟩⟩
    rw [afidTest_set array afid other (by exact_mod_cast valid.1) (by exact_mod_cast valid'.1)]
    by_cases equal : other = afid
    · rw [decide_eq_true equal, Bool.true_or]
    · rw [decide_eq_false equal, Bool.false_or]
      refine covers other valid' (there.imp id fun pending => ?_)
      exact ((pending_called ..).mp pending).resolve_left fun both => equal (by exact_mod_cast both.2.symm)

theorem step_covered (world : AfidWorld) (history : List AfidEvent) (step : AfidStep) (possible : world.Possible step)
    (safe : Safe world history step) (covered : Covered world history) :
    Covered (world.next step) (history ++ [world.event step]) ∧ ∀ first again rc,
      world.event step = .called world first again rc → WellGiven history world first again rc := by
  cases step with
  | install isuser name content =>
    obtain ⟨state, trust⟩ := withFile_state world isuser name (some content)
    refine ⟨⟨fun fresh afid pending => ?_, fun done trusted afid valid there => ?_⟩, fun _ _ _ other => by cases other⟩
    · rw [AfidWorld.next, state] at fresh
      exact covered.before fresh afid ((pending_installed ..).mp pending).1
    · rw [AfidWorld.next, state] at done ⊢
      rw [AfidWorld.next, trust] at trusted
      rcases there with installed | pending
      · rcases installed_withFile world isuser name _ afid installed with old | ⟨new, same, carries⟩
        · exact covered.marks done trusted afid valid (Or.inl old)
        · exact safe done afid valid (Option.some.inj same ▸ carries)
      · exact covered.marks done trusted afid valid (Or.inr ((pending_installed ..).mp pending).1)
  | remove isuser name =>
    obtain ⟨state, trust⟩ := withFile_state world isuser name none
    refine ⟨⟨fun fresh afid pending => ?_, fun done trusted afid valid there => ?_⟩, fun _ _ _ other => by cases other⟩
    · rw [AfidWorld.next, state] at fresh
      exact covered.before fresh afid ((pending_removed ..).mp pending)
    · rw [AfidWorld.next, state] at done ⊢
      rw [AfidWorld.next, trust] at trusted
      rcases there with installed | pending
      · rcases installed_withFile world isuser name _ afid installed with old | ⟨new, same, -⟩
        · exact covered.marks done trusted afid valid (Or.inl old)
        · cases same
      · exact covered.marks done trusted afid valid (Or.inr ((pending_removed ..).mp pending))
  | call first again =>
    have given : WellGiven history world first again (getNewAfid first again world.state).1 ∧
        Covered (world.next (.call first again)) (history ++ [world.event (.call first again)]) := by
      rcases getNewAfid_cases first again world.state with
        ⟨rc, negative, last, same, done⟩ | ⟨scan, either, last, fine, result, rescans⟩ | ⟨done, last, fine, result⟩
      · refine ⟨⟨fun positive => by omega, fun _ => by omega, fun _ => by omega⟩, fun fresh => ?_, fun _ trusted => ?_⟩
        · rw [AfidWorld.next, done] at fresh
          cases fresh
        · rw [AfidWorld.next, last] at trusted
          simp only [Option.map_some, Option.getD_some, decide_eq_true_eq] at trusted
          omega
      · refine given_covered history world first again _ ?_ result ?_ _
        · intro afid valid there
          have none : ∀ afid, ¬Pending history afid := by
            cases done : world.state.initDone with
            | false => exact covered.before done
            | true => exact (safe done).2 (rescans done).1 (rescans done).2
          refine updateAfids_covers world scan ?_ fine afid valid (there.resolve_right (none afid))
          rcases either with same | same
          · exact same ▸ possible.1
          · exact same ▸ possible.2
        · rw [last, Option.any_some, decide_eq_false (not_lt.mpr fine)]
      · refine given_covered history world first again _ ?_ result ?_ _
        · exact covered.marks done ((safe done).1.resolve_right (not_lt.mpr fine))
        · rw [last]
          rfl
    refine ⟨given.2, fun first' again' rc same => ?_⟩
    rw [AfidWorld.event, AfidEvent.called.injEq] at same
    obtain ⟨-, same₁, same₂, same₃⟩ := same
    rw [← same₁, ← same₂, ← same₃]
    exact given.1

def oneUnit : Bytes → Option Bytes := fun name => if name = ascii "a" then some (ascii "X-AFM--ID=1\n") else none

def oneUnitWorld : AfidWorld := ⟨oneUnit, fun _ => none, ⟨false, fun _ => 0⟩, false⟩

def oneUnitScan (read : Except Failure Bytes) : Scan :=
  ⟨⟨none, [.file (ascii "a") read], true⟩, ⟨some ENOENT, [], true⟩⟩

theorem oneUnitScan_shown (world : AfidWorld) (system : world.system = oneUnit) (user : world.user = fun _ => none)
    (read : Except Failure Bytes) (whole : ∀ content, read = .ok content → content = ascii "X-AFM--ID=1\n") :
    world.ShownBy (oneUnitScan read) := by
  refine ⟨⟨fun missing => (by cases missing), fun _ _ name content known => ?_, fun name content member => ?_⟩,
    ⟨fun _ name => (by rw [user]), fun present => (by cases present), fun name content member => (by cases member)⟩⟩
  · rw [system, oneUnit] at known
    split at known
    · next same => exact ⟨read, by rw [same]; exact List.mem_singleton.mpr rfl⟩
    · cases known
  · have same := List.mem_singleton.mp member
    rw [Dirent.file.injEq] at same
    rw [system, oneUnit, if_pos same.1, whole content same.2.symm]

theorem oneUnit_installed (world : AfidWorld) (system : world.system = oneUnit) : world.Installed 1 := by
  refine ⟨ascii "a", ascii "X-AFM--ID=1\n", Or.inl (by rw [system]; rfl), [], true, ascii "1\n", ?_, Or.inl rfl, ?_⟩
  · decide +kernel
  · decide +kernel

end AppManager.Units
