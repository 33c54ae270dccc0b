import AppManager.Lib.Files
import AppManager.Units.UnitDesc

/-! The installation of units writes their files and links, after a check that none of
them is there. When it fails it removes all of them. -/

namespace AppManager.Units
open AppManager.Lib AppManager.Lib.Libc

variable (outcomes : Outcomes) (root : Bytes)

def checkFile (path : Bytes) (shouldExist : Bool) (disk : Disk) : Int × Disk :=
  let found := outcomes.accessible path disk
  if shouldExist then found else (if found.1 ≠ 0 then 0 else -1, found.2)

def checkPath (path : Option Bytes) (shouldExist : Bool) (disk : Disk) : Int × Disk :=
  match path with
  | none => (-1, disk)
  | some path => checkFile outcomes path shouldExist disk

def unitOperCheckFiles (unit : UnitDesc) (shouldExist : Bool) (disk : Disk) : Int × Disk :=
  match unit.check with
  | none => (-1, disk)
  | some name =>
    let own := checkPath outcomes (unit.getPath root name PATH_MAX) shouldExist disk
    match unit.wantedBy with
    | none => own
    | some wanter =>
      let wants := checkPath outcomes (unit.getWantsPath root wanter name PATH_MAX) shouldExist own.2
      (if wants.1 < 0 then wants.1 else own.1, wants.2)

def unitOperInstall (unit : UnitDesc) (disk : Disk) : Int × Disk :=
  match unit.check with
  | none => (-1, disk)
  | some name =>
    match unit.getPath root name (PATH_MAX + 1) with
    | none => (-1, disk)
    | some path =>
      let written := outcomes.filePut path unit.content disk
      if written.1 < 0 then written
      else match unit.wantedBy with
        | none => written
        | some wanter =>
          match unit.getWantsPath root wanter name (PATH_MAX + 1),
            unit.getWantsTarget name (PATH_MAX + 1) with
          | some path, some target => outcomes.makeLink target path (outcomes.remove path written.2).2
          | _, _ => (-1, written.2)

def removePath (path : Option Bytes) (disk : Disk) : Int × Disk :=
  match path with
  | none => (-1, disk)
  | some path => outcomes.remove path disk

def unitOperUninstall (unit : UnitDesc) (disk : Disk) : Int × Disk :=
  match unit.check with
  | none => (-1, disk)
  | some name =>
    let own := removePath outcomes (unit.getPath root name PATH_MAX) disk
    match unit.wantedBy with
    | none => own
    | some wanter =>
      let wants := removePath outcomes (unit.getWantsPath root wanter name PATH_MAX) own.2
      (if wants.1 < 0 ∧ own.1 = 0 then wants.1 else own.1, wants.2)

def doUninstallUnits (units : List UnitDesc) (disk : Disk) : Int × Disk :=
  units.foldl (fun result unit =>
    let removed := unitOperUninstall outcomes root unit result.2
    (if removed.1 < 0 then removed.1 else result.1, removed.2)) (0, disk)

def uninstallUnits (units : List UnitDesc) (disk : Disk) : Int × Disk :=
  doUninstallUnits outcomes root units disk

def eachUnit (step : UnitDesc → Disk → Int × Disk) : List UnitDesc → Disk → Int × Disk
  | [], disk => (0, disk)
  | unit :: rest, disk => if (step unit disk).1 < 0 then step unit disk else eachUnit step rest (step unit disk).2

def installUnits (units : List UnitDesc) (disk : Disk) : Int × Disk :=
  let checked := eachUnit (unitOperCheckFiles outcomes root · false) units disk
  if checked.1 < 0 then checked
  else
    let installed := eachUnit (unitOperInstall outcomes root) units checked.2
    if installed.1 < 0 then (installed.1, (doUninstallUnits outcomes root units installed.2).2)
    else (0, installed.2)

/-- The path of the file or of the link of a unit. -/
inductive Owns (unit : UnitDesc) : Bytes → Prop where
  | file {name : Bytes} (named : unit.check = some name) : Owns unit (unit.pathText root name)
  | wants {name wanter : Bytes} (named : unit.check = some name) (wanted : unit.wantedBy = some wanter) :
      Owns unit (unit.wantsText root wanter name)

/-- The entry of the file or of the link of a unit. -/
def OwnsEntry (unit : UnitDesc) (entry : Bytes) : Prop := ∃ path, Owns root unit path ∧ outcomes.place path = entry

/-- The paths of a unit all fit in the buffers. -/
def Fits (unit : UnitDesc) : Prop :=
  (unit.check).isSome = true ∧ ∀ path, Owns root unit path → path.length < PATH_MAX

theorem checkPath_same (path : Option Bytes) (shouldExist : Bool) (disk : Disk) :
    (checkPath outcomes path shouldExist disk).2.Same disk := by
  unfold checkPath
  split
  · exact ⟨rfl, rfl⟩
  · unfold checkFile
    simp only
    split
    · exact ⟨rfl, rfl⟩
    · exact ⟨rfl, rfl⟩

theorem unitOperCheckFiles_same (unit : UnitDesc) (shouldExist : Bool) (disk : Disk) :
    (unitOperCheckFiles outcomes root unit shouldExist disk).2.Same disk := by
  unfold unitOperCheckFiles
  split
  · exact ⟨rfl, rfl⟩
  · simp only
    split
    · exact checkPath_same outcomes _ _ _
    · exact (checkPath_same outcomes _ _ _).trans (checkPath_same outcomes _ _ _)

theorem checkPath_free {text : Bytes} {disk : Disk}
    (fine : 0 ≤ (checkPath outcomes (UnitDesc.fitting PATH_MAX text) false disk).1) :
    text.length < PATH_MAX ∧ (outcomes.AccessExact → ¬disk.Present (outcomes.place text)) := by
  unfold checkPath at fine
  cases fits : UnitDesc.fitting PATH_MAX text with
  | none => simp [fits] at fine
  | some path =>
    obtain ⟨short, same⟩ := UnitDesc.fitting_eq_some.mp fits
    refine ⟨short, fun precise here => ?_⟩
    rw [fits, same] at fine
    simp [checkFile, Outcomes.accessible, here, precise disk.count] at fine

theorem unitOperCheckFiles_free {unit : UnitDesc} {disk : Disk}
    (fine : 0 ≤ (unitOperCheckFiles outcomes root unit false disk).1) :
    Fits root unit ∧ (outcomes.AccessExact → ∀ entry, OwnsEntry outcomes root unit entry → ¬disk.Present entry) := by
  unfold unitOperCheckFiles at fine
  cases named : unit.check with
  | none => simp [named] at fine
  | some name =>
    simp only [named] at fine
    have same := checkPath_same outcomes (unit.getPath root name PATH_MAX) false disk
    have own : 0 ≤ (checkPath outcomes (unit.getPath root name PATH_MAX) false disk).1 ∧
        ∀ wanter, unit.wantedBy = some wanter → 0 ≤ (checkPath outcomes
          (unit.getWantsPath root wanter name PATH_MAX) false
            (checkPath outcomes (unit.getPath root name PATH_MAX) false disk).2).1 := by
      cases wanted : unit.wantedBy with
      | none =>
        rw [wanted] at fine
        exact ⟨fine, by simp⟩
      | some wanter =>
        simp only [wanted] at fine
        split at fine
        · omega
        · refine ⟨fine, fun other same => ?_⟩
          rw [← Option.some.inj same]
          omega
    have file := checkPath_free outcomes own.1
    have each : ∀ path, Owns root unit path →
        path.length < PATH_MAX ∧ (outcomes.AccessExact → ¬disk.Present (outcomes.place path)) := by
      intro path owned
      cases owned with
      | file named' =>
        rw [named, Option.some.injEq] at named'
        rw [← named']
        exact file
      | wants named' wanted =>
        rw [named, Option.some.injEq] at named'
        have link := checkPath_free outcomes (own.2 _ wanted)
        rw [same.present] at link
        rw [← named']
        exact link
    refine ⟨⟨by rw [named]; rfl, fun path owned => (each path owned).1⟩, ?_⟩
    rintro precise entry ⟨path, owned, rfl⟩
    exact (each path owned).2 precise

theorem unitOperInstall_within (unit : UnitDesc) (disk : Disk) :
    Within (OwnsEntry outcomes root unit) disk (unitOperInstall outcomes root unit disk).2 := by
  unfold unitOperInstall
  split
  · exact Within.refl _ _
  · next name named =>
    split
    · exact Within.refl _ _
    · next path fits =>
      obtain ⟨-, same⟩ := UnitDesc.fitting_eq_some.mp fits
      have written : Within (OwnsEntry outcomes root unit) disk (outcomes.filePut path unit.content disk).2 :=
        Within.filePut outcomes _ disk ⟨path, same ▸ Owns.file named, rfl⟩
      simp only
      split
      · exact written
      · split
        · exact written
        · next wanter wanted =>
          split
          · next link target fitting _ =>
            obtain ⟨-, equal⟩ := UnitDesc.fitting_eq_some.mp fitting
            have inside : OwnsEntry outcomes root unit (outcomes.place link) :=
              ⟨link, equal ▸ Owns.wants named wanted, rfl⟩
            exact (written.trans (Within.remove outcomes _ inside)).trans (Within.makeLink outcomes _ _ inside)
          · exact written

theorem removePath_within (unit : UnitDesc) {path : Option Bytes} (disk : Disk)
    (inside : ∀ text, path = some text → Owns root unit text) :
    Within (OwnsEntry outcomes root unit) disk (removePath outcomes path disk).2 := by
  unfold removePath
  split
  · exact Within.refl _ _
  · exact Within.remove outcomes disk ⟨_, inside _ rfl, rfl⟩

theorem removePath_missing (path : Option Bytes) (other : Bytes) (disk : Disk)
    (missing : ¬disk.Present other) : ¬(removePath outcomes path disk).2.Present other := by
  unfold removePath
  split
  · exact missing
  · exact not_present_of_remove outcomes _ other disk missing

theorem removePath_fitting (succeeds : outcomes.UnlinkSucceeds) {text : Bytes} (short : text.length < PATH_MAX)
    (disk : Disk) :
    ¬(removePath outcomes (UnitDesc.fitting PATH_MAX text) disk).2.Present (outcomes.place text) := by
  rw [UnitDesc.fitting_eq_some.mpr ⟨short, rfl⟩]
  exact not_present_remove succeeds text disk

/-- What the removal of a unit does to the files. -/
structure Removed (paths : Bytes → Prop) (before after : Disk) : Prop where
  within : Within paths before after
  missing : ∀ path, ¬before.Present path → ¬after.Present path
  gone : ∀ path, paths path → ¬after.Present path

theorem unitOperUninstall_removed (succeeds : outcomes.UnlinkSucceeds) {unit : UnitDesc} (fits : Fits root unit)
    (disk : Disk) : Removed (OwnsEntry outcomes root unit) disk (unitOperUninstall outcomes root unit disk).2 := by
  obtain ⟨known, short⟩ := fits
  obtain ⟨name, named⟩ := Option.isSome_iff_exists.mp known
  have ownFile : ∀ text, unit.getPath root name PATH_MAX = some text → Owns root unit text := by
    intro text fitting
    rw [(UnitDesc.fitting_eq_some.mp fitting).2]
    exact Owns.file named
  have file := removePath_within outcomes root unit disk ownFile
  have fileGone : ¬(removePath outcomes (unit.getPath root name PATH_MAX) disk).2.Present
      (outcomes.place (unit.pathText root name)) := removePath_fitting outcomes succeeds (short _ (Owns.file named)) disk
  simp only [unitOperUninstall, named]
  cases wanted : unit.wantedBy with
  | none =>
    refine ⟨file, fun path => removePath_missing outcomes _ path disk, ?_⟩
    rintro entry ⟨path, owned, rfl⟩
    cases owned with
    | file named' =>
      rw [named, Option.some.injEq] at named'
      rw [← named']
      exact fileGone
    | wants _ wanted' => simp [wanted] at wanted'
  | some wanter =>
    have ownLink : ∀ text, unit.getWantsPath root wanter name PATH_MAX = some text → Owns root unit text := by
      intro text fitting
      rw [(UnitDesc.fitting_eq_some.mp fitting).2]
      exact Owns.wants named wanted
    refine ⟨file.trans (removePath_within outcomes root unit _ ownLink), ?_, ?_⟩
    · intro path missing
      exact removePath_missing outcomes _ path _ (removePath_missing outcomes _ path disk missing)
    · rintro entry ⟨path, owned, rfl⟩
      cases owned with
      | file named' =>
        rw [named, Option.some.injEq] at named'
        rw [← named']
        exact removePath_missing outcomes _ _ _ fileGone
      | wants named' wanted' =>
        rw [named, Option.some.injEq] at named'
        rw [wanted, Option.some.injEq] at wanted'
        rw [← named', ← wanted']
        exact removePath_fitting outcomes succeeds (short _ (Owns.wants named wanted)) _

def AllOwn (units : List UnitDesc) (entry : Bytes) : Prop := ∃ unit ∈ units, OwnsEntry outcomes root unit entry

theorem doUninstallUnits_removed (succeeds : outcomes.UnlinkSucceeds) (units : List UnitDesc)
    (fits : ∀ unit ∈ units, Fits root unit) (disk : Disk) :
    Removed (AllOwn outcomes root units) disk (doUninstallUnits outcomes root units disk).2 := by
  have whole : ∀ (units : List UnitDesc) (result : Int × Disk), (∀ unit ∈ units, Fits root unit) →
      Removed (AllOwn outcomes root units) result.2 (units.foldl (fun result unit =>
        (if (unitOperUninstall outcomes root unit result.2).1 < 0 then
          (unitOperUninstall outcomes root unit result.2).1 else result.1,
          (unitOperUninstall outcomes root unit result.2).2)) result).2 := by
    intro units
    induction units with
    | nil => exact fun result _ => ⟨Within.refl _ _, fun _ => id, by rintro path ⟨unit, member, -⟩; simp at member⟩
    | cons unit rest ih =>
      intro result fits
      have here := unitOperUninstall_removed outcomes root succeeds (fits unit (by simp)) result.2
      have later := ih (if (unitOperUninstall outcomes root unit result.2).1 < 0 then
        (unitOperUninstall outcomes root unit result.2).1 else result.1,
        (unitOperUninstall outcomes root unit result.2).2)
        fun other member => fits other (List.mem_cons_of_mem _ member)
      rw [List.foldl_cons]
      refine ⟨?_, fun path missing => later.missing path (here.missing path missing), ?_⟩
      · refine (here.within.mono fun path owned => ?_).trans (later.within.mono fun path owned => ?_)
        · exact ⟨unit, by simp, owned⟩
        · obtain ⟨other, member, owns⟩ := owned
          exact ⟨other, List.mem_cons_of_mem _ member, owns⟩
      · rintro path ⟨other, member, owns⟩
        rcases List.mem_cons.mp member with same | inside
        · rw [same] at owns
          exact later.missing path (here.gone path owns)
        · exact later.gone path ⟨other, inside, owns⟩
  exact whole units (0, disk) fits

theorem eachUnit_within {step : UnitDesc → Disk → Int × Disk} (units : List UnitDesc) (disk : Disk)
    (each : ∀ unit disk, Within (OwnsEntry outcomes root unit) disk (step unit disk).2) :
    Within (AllOwn outcomes root units) disk (eachUnit step units disk).2 := by
  induction units generalizing disk with
  | nil => exact Within.refl _ _
  | cons unit rest ih =>
    have here : Within (AllOwn outcomes root (unit :: rest)) disk (step unit disk).2 :=
      (each unit disk).mono fun path owned => ⟨unit, by simp, owned⟩
    unfold eachUnit
    split
    · exact here
    · refine here.trans ((ih _).mono fun path owned => ?_)
      obtain ⟨other, member, owns⟩ := owned
      exact ⟨other, List.mem_cons_of_mem _ member, owns⟩

theorem eachUnit_check (units : List UnitDesc) (disk : Disk) :
    (eachUnit (unitOperCheckFiles outcomes root · false) units disk).2.Same disk ∧
      (0 ≤ (eachUnit (unitOperCheckFiles outcomes root · false) units disk).1 →
        (∀ unit ∈ units, Fits root unit) ∧
        (outcomes.AccessExact → ∀ path, AllOwn outcomes root units path → ¬disk.Present path)) := by
  induction units generalizing disk with
  | nil => exact ⟨⟨rfl, rfl⟩, fun _ => ⟨by simp, by rintro - path ⟨unit, member, -⟩; simp at member⟩⟩
  | cons unit rest ih =>
    have first := unitOperCheckFiles_same outcomes root unit false disk
    unfold eachUnit
    split
    · exact ⟨first, fun fine => by omega⟩
    · next positive =>
      obtain ⟨same, free⟩ := ih (unitOperCheckFiles outcomes root unit false disk).2
      obtain ⟨fits, missing⟩ := unitOperCheckFiles_free outcomes root (not_lt.mp positive)
      refine ⟨same.trans first, fun fine => ?_⟩
      obtain ⟨others, absent⟩ := free fine
      refine ⟨?_, ?_⟩
      · intro other member
        rcases List.mem_cons.mp member with here | inside
        · rw [here]
          exact fits
        · exact others other inside
      · rintro precise path ⟨other, member, owns⟩
        rcases List.mem_cons.mp member with here | inside
        · rw [here] at owns
          exact missing precise path owns
        · rw [← first.present]
          exact absent precise path ⟨other, inside, owns⟩

theorem unitOperInstall_kept (unit : UnitDesc) (disk : Disk) (kept : disk.Kept)
    (fine : 0 ≤ (unitOperInstall outcomes root unit disk).1) :
    (unitOperInstall outcomes root unit disk).2.Kept := by
  unfold unitOperInstall at fine ⊢
  split
  · exact kept
  · next name named =>
    simp only [named] at fine
    split
    · exact kept
    · next path fits =>
      simp only [fits] at fine ⊢
      split
      · next negative =>
        rw [if_pos negative] at fine
        omega
      · next positive =>
        have written := kept.filePut outcomes (not_lt.mp positive)
        rw [if_neg positive] at fine
        split
        · exact written
        · next wanter wanted =>
          simp only [wanted] at fine
          split
          · next link target fitting fitting' =>
            simp only [fitting, fitting'] at fine
            exact written.replaceLink outcomes fine
          · exact written

theorem eachUnit_kept {step : UnitDesc → Disk → Int × Disk} (units : List UnitDesc) (disk : Disk)
    (each : ∀ unit disk, disk.Kept → 0 ≤ (step unit disk).1 → (step unit disk).2.Kept) (kept : disk.Kept)
    (fine : 0 ≤ (eachUnit step units disk).1) : (eachUnit step units disk).2.Kept := by
  induction units generalizing disk with
  | nil => exact kept
  | cons unit rest ih =>
    unfold eachUnit at fine ⊢
    split
    · next negative =>
      rw [if_pos negative] at fine
      omega
    · next positive =>
      rw [if_neg positive] at fine
      exact ih _ (each unit disk kept (not_lt.mp positive)) fine

theorem installUnits_cases (units : List UnitDesc) (disk : Disk) :
    ((installUnits outcomes root units disk).1 < 0 ∧ (installUnits outcomes root units disk).2.Same disk) ∨
    (∃ checked installed, checked.Same disk ∧ (∀ unit ∈ units, Fits root unit) ∧
      (outcomes.AccessExact → ∀ path, AllOwn outcomes root units path → ¬disk.Present path) ∧
      Within (AllOwn outcomes root units) checked installed ∧
      (((installUnits outcomes root units disk).1 < 0 ∧
          (installUnits outcomes root units disk).2 = (doUninstallUnits outcomes root units installed).2) ∨
        ((installUnits outcomes root units disk).1 = 0 ∧ (installUnits outcomes root units disk).2 = installed ∧
          (checked.Kept → installed.Kept)))) := by
  obtain ⟨same, free⟩ := eachUnit_check outcomes root units disk
  unfold installUnits
  simp only
  generalize eachUnit (unitOperCheckFiles outcomes root · false) units disk = checked at *
  split
  · next stopped => exact Or.inl ⟨stopped, same⟩
  · next passed =>
    obtain ⟨fits, missing⟩ := free (not_lt.mp passed)
    have written := eachUnit_within outcomes root units checked.2 (unitOperInstall_within outcomes root)
    have kept := eachUnit_kept units checked.2 (unitOperInstall_kept outcomes root)
    refine Or.inr ⟨checked.2, (eachUnit (unitOperInstall outcomes root) units checked.2).2, same, fits, missing,
      written, ?_⟩
    split
    · next negative => exact Or.inl ⟨negative, rfl⟩
    · next positive => exact Or.inr ⟨rfl, rfl, fun before => kept before (not_lt.mp positive)⟩

def withoutLinks : Outcomes := ⟨id, fun _ => none, fun _ => false, fun _ => true, fun _ => true⟩

def wantedUnit : UnitDesc :=
  ⟨.system, .service, some (ascii "app"), ascii "[Service]", some (ascii "default.target")⟩

/-- After units are installed all that was written is there, and after a failure
nothing of it is. -/
theorem installUnits_settles (succeeds : outcomes.UnlinkSucceeds) (units : List UnitDesc) (disk : Disk)
    (start : disk.written = []) :
    ((installUnits outcomes root units disk).1 = 0 ∧ (installUnits outcomes root units disk).2.Kept) ∨
    ((installUnits outcomes root units disk).1 < 0 ∧
      ∀ path ∈ (installUnits outcomes root units disk).2.written,
        ¬(installUnits outcomes root units disk).2.Present path) := by
  rcases installUnits_cases outcomes root units disk with ⟨negative, same⟩ |
    ⟨checked, installed, same, fits, -, written, ⟨negative, undone⟩ | ⟨zero, done, kept⟩⟩
  · refine Or.inr ⟨negative, ?_⟩
    rw [same.written, start]
    simp
  · have removed := doUninstallUnits_removed outcomes root succeeds units fits installed
    refine Or.inr ⟨negative, ?_⟩
    rw [undone]
    intro path member
    apply removed.gone path
    rcases removed.within.written path member with early | owned
    · rcases written.written path early with before | owned
      · rw [same.written, start] at before
        cases before
      · exact owned
    · exact owned
  · refine Or.inl ⟨zero, ?_⟩
    rw [done]
    apply kept
    intro path member
    rw [same.written, start] at member
    cases member

end AppManager.Units
