import AppManager.Units.UnitOper
import AppManager.Units.UnitSplit
import AppManager.Wgtpkg.Subpath
import Mathlib.Data.List.DropRight
import Mathlib.Data.List.Nodup

/-! A batch of units that is installed. The check that precedes sees the files that were
there before, but not those of the other units of the batch. -/

namespace AppManager.Units
open AppManager.Lib AppManager.Lib.Libc

def parentDir (path : Bytes) : Bytes := (path.rdropWhile (· ≠ UnitDesc.slash)).dropLast

/-- The path that a link leads to, its target being looked for from its directory. -/
def followed (link target : Bytes) : Bytes := parentDir link ++ UnitDesc.slash :: target

def plainPlace (path : Bytes) : Bytes := (Move.walk [] (Wgtpkg.moves path)).flatMap (UnitDesc.slash :: ·)

variable (place : Bytes → Bytes) (outcomes : Outcomes) (root : Bytes)

/-- The file of a unit holds its content, and the link of the unit leads to its file. -/
def Installed (unit : UnitDesc) (disk : Disk) : Prop :=
  ∃ name, unit.check = some name ∧ disk.files (place (unit.pathText root name)) = some (.file unit.content) ∧
    ∀ wanter, unit.wantedBy = some wanter → ∃ target,
      disk.files (place (unit.wantsText root wanter name)) = some (.link target) ∧
      place (followed (unit.wantsText root wanter name) target) = place (unit.pathText root name)

/-- Each unit is installed, and nothing is written twice. -/
structure Faithful (units : List UnitDesc) (disk : Disk) : Prop where
  installed : ∀ unit ∈ units, Installed place root unit disk
  once : disk.written.Nodup

def ownPaths (unit : UnitDesc) : List Bytes :=
  match unit.check with
  | none => []
  | some name => unit.pathText root name :: (unit.wantedBy.map fun wanter => unit.wantsText root wanter name).toList

/-- The paths of the units name different entries. -/
def Apart (units : List UnitDesc) : Prop := ((units.flatMap (ownPaths root)).map place).Nodup

/-- The link that is made for a unit that is wanted leads to the entry of its file. -/
def Linkable (unit : UnitDesc) : Prop :=
  ∀ name wanter, unit.check = some name → unit.wantedBy = some wanter →
    place (followed (unit.wantsText root wanter name) (unit.targetText name)) = place (unit.pathText root name)

theorem parentDir_slash (directory base : Bytes) (plain : UnitDesc.slash ∉ base) :
    parentDir (directory ++ UnitDesc.slash :: base) = directory := by
  have kept : (directory ++ UnitDesc.slash :: base).rdropWhile (· ≠ UnitDesc.slash) =
      directory ++ [UnitDesc.slash] := by
    rw [List.append_cons, List.rdropWhile, List.reverse_append, List.dropWhile_append_of_pos]
    · simp
    · intro byte member
      simp only [ne_eq, decide_eq_true_eq]
      exact fun same => plain (same ▸ List.mem_reverse.mp member)
  rw [parentDir, kept, List.dropLast_concat]

theorem ext_plain (unit : UnitDesc) : UnitDesc.slash ∉ unit.ext ∧ UnitDesc.slash ≠ UnitDesc.dot := by
  unfold UnitDesc.ext
  split
  · decide
  · decide

theorem plainPlace_back (above directory below : Bytes) (single : UnitDesc.slash ∉ directory)
    (down : Wgtpkg.componentMove directory = .down directory) :
    plainPlace (above ++ UnitDesc.slash :: directory ++ UnitDesc.slash :: ascii "../" ++ below) =
      plainPlace (above ++ UnitDesc.slash :: below) := by
  have up : Wgtpkg.moves (ascii ".." ++ UnitDesc.slash :: below) = .up :: Wgtpkg.moves below := by
    have dots : UnitDesc.slash ∉ ascii ".." := by decide
    rw [Wgtpkg.moves, show Wgtpkg.slash = UnitDesc.slash from rfl,
      List.splitOn_append_cons_self_of_not_mem dots, List.map_cons]
    rfl
  have parts : Wgtpkg.moves (above ++ UnitDesc.slash :: directory ++ UnitDesc.slash :: ascii "../" ++ below) =
      Wgtpkg.moves above ++ .down directory :: .up :: Wgtpkg.moves below := by
    have regroup : above ++ UnitDesc.slash :: directory ++ UnitDesc.slash :: ascii "../" ++ below =
        above ++ UnitDesc.slash :: (directory ++ UnitDesc.slash :: (ascii ".." ++ UnitDesc.slash :: below)) := by
      have target : ascii "../" = ascii ".." ++ [UnitDesc.slash] := by decide
      rw [target]
      simp
    rw [regroup, ← up, ← down]
    simp only [Wgtpkg.moves, show Wgtpkg.slash = UnitDesc.slash from rfl]
    rw [List.splitOn_append_cons_self, List.splitOn_append_cons_self_of_not_mem single, List.map_append,
      List.map_cons]
  have straight : Wgtpkg.moves (above ++ UnitDesc.slash :: below) = Wgtpkg.moves above ++ Wgtpkg.moves below := by
    simp only [Wgtpkg.moves, show Wgtpkg.slash = UnitDesc.slash from rfl]
    rw [List.splitOn_append_cons_self, List.map_append]
  rw [plainPlace, plainPlace, parts, straight]
  simp [Move.walk, Move.apply]

theorem linkable_plain {unit : UnitDesc} (named : ∀ name, unit.check = some name → UnitDesc.slash ∉ name)
    (wanted : ∀ wanter, unit.wantedBy = some wanter → UnitDesc.slash ∉ wanter) :
    Linkable plainPlace root unit := by
  intro name wanter checked wants
  obtain ⟨extension, dotted⟩ := ext_plain unit
  have base : UnitDesc.slash ∉ name ++ UnitDesc.dot :: unit.ext := by
    simp only [List.mem_append, List.mem_cons, not_or]
    exact ⟨named name checked, dotted, extension⟩
  have single : UnitDesc.slash ∉ wanter ++ ascii ".wants" := by
    rw [List.mem_append, not_or]
    exact ⟨wanted wanter wants, by decide⟩
  have down : Wgtpkg.componentMove (wanter ++ ascii ".wants") = .down (wanter ++ ascii ".wants") := by
    have long : 6 ≤ (wanter ++ ascii ".wants").length := by
      simp [ascii]
    rw [Wgtpkg.componentMove, if_neg, if_neg]
    · intro same
      rw [same] at long
      simp at long
    · rintro (same | same)
      · rw [same] at long
        simp at long
      · rw [same] at long
        simp at long
  have link : unit.wantsText root wanter name = (root ++ UnitDesc.slash :: unit.scopeDir ++
      UnitDesc.slash :: (wanter ++ ascii ".wants")) ++ UnitDesc.slash :: (name ++ UnitDesc.dot :: unit.ext) := by
    have parts : ascii ".wants/" = ascii ".wants" ++ [UnitDesc.slash] := by decide
    rw [UnitDesc.wantsText, parts]
    simp
  have back := plainPlace_back (root ++ UnitDesc.slash :: unit.scopeDir) (wanter ++ ascii ".wants")
    (name ++ UnitDesc.dot :: unit.ext) single down
  rw [followed, link, parentDir_slash _ _ base]
  have target : UnitDesc.slash :: unit.targetText name =
      UnitDesc.slash :: ascii "../" ++ (name ++ UnitDesc.dot :: unit.ext) := by
    simp [UnitDesc.targetText]
  have file : unit.pathText root name =
      root ++ UnitDesc.slash :: unit.scopeDir ++ UnitDesc.slash :: (name ++ UnitDesc.dot :: unit.ext) := by
    simp [UnitDesc.pathText]
  rw [target, file, ← back]
  simp

/-- A name can be written in several ways. -/
example : plainPlace (ascii "/units/system/./app.service") = plainPlace (ascii "/units/system/app.service") := by
  decide +kernel

theorem mem_ownPaths (unit : UnitDesc) (path : Bytes) : path ∈ ownPaths root unit ↔ Owns root unit path := by
  unfold ownPaths
  constructor
  · intro member
    split at member
    · cases member
    · next name named =>
      rcases List.mem_cons.mp member with same | wants
      · rw [same]
        exact Owns.file named
      · rw [Option.mem_toList, Option.map_eq_some_iff] at wants
        obtain ⟨wanter, wanted, same⟩ := wants
        rw [← same]
        exact Owns.wants named wanted
  · intro owns
    cases owns with
    | file named => simp [named]
    | wants named wanted => simp [named, wanted]

theorem filePut_done {path content : Bytes} {disk : Disk} (fine : 0 ≤ (outcomes.filePut path content disk).1) :
    (outcomes.filePut path content disk).2 = disk.write (outcomes.place path) (some (.file content)) := by
  unfold Outcomes.filePut at fine ⊢
  split
  · rfl
  · next rc left failed =>
    rw [failed] at fine
    exact absurd rc.property (not_lt.mpr fine)

theorem makeLink_done {path target : Bytes} {disk : Disk} (fine : 0 ≤ (outcomes.makeLink target path disk).1) :
    (outcomes.makeLink target path disk).2 = disk.write (outcomes.place path) (some (.link target)) := by
  unfold Outcomes.makeLink at fine ⊢
  split
  · next refused =>
    rw [if_pos refused] at fine
    simp at fine
  · rfl

theorem write_files (disk : Disk) (path other : Bytes) (node : Option Node) :
    (disk.write path node).files other = if other = path then node else disk.files other := rfl

theorem remove_written (path : Bytes) (disk : Disk) : (outcomes.remove path disk).2.written = disk.written := by
  unfold Outcomes.remove
  split
  · rfl
  · rfl

theorem mem_ownEntries (unit : UnitDesc) (entry : Bytes) :
    entry ∈ (ownPaths root unit).map outcomes.place ↔ OwnsEntry outcomes root unit entry := by
  simp only [List.mem_map, mem_ownPaths, OwnsEntry]

/-- The nodes of a unit are as they are written for it. -/
def Laid (unit : UnitDesc) (disk : Disk) : Prop :=
  ∃ name, unit.check = some name ∧ disk.files (place (unit.pathText root name)) = some (.file unit.content) ∧
    ∀ wanter, unit.wantedBy = some wanter →
      disk.files (place (unit.wantsText root wanter name)) = some (.link (unit.targetText name))

theorem Laid.within {unit : UnitDesc} {disk disk' : Disk} {entries : Bytes → Prop}
    (laid : Laid outcomes.place root unit disk) (within : Within entries disk disk')
    (aside : ∀ entry, OwnsEntry outcomes root unit entry → ¬entries entry) :
    Laid outcomes.place root unit disk' := by
  obtain ⟨name, named, file, link⟩ := laid
  refine ⟨name, named, ?_, fun wanter wanted => ?_⟩
  · rw [within.same _ (aside _ ⟨_, Owns.file named, rfl⟩)]
    exact file
  · rw [within.same _ (aside _ ⟨_, Owns.wants named wanted, rfl⟩)]
    exact link wanter wanted

theorem Laid.installed_iff {unit : UnitDesc} {disk : Disk} (laid : Laid place root unit disk) :
    Installed place root unit disk ↔ Linkable place root unit := by
  obtain ⟨name, named, file, link⟩ := laid
  constructor
  · rintro ⟨name', named', -, linked⟩ other wanter named'' wanted
    rw [named, Option.some.injEq] at named' named''
    rw [← named'] at linked
    obtain ⟨target, here, leads⟩ := linked wanter wanted
    rw [link wanter wanted, Option.some.injEq, Node.link.injEq] at here
    rw [← here] at leads
    rw [← named'']
    exact leads
  · intro linkable
    exact ⟨name, named, file, fun wanter wanted => ⟨_, link wanter wanted, linkable name wanter named wanted⟩⟩

/-- A link over what was removed leaves the unit file that was written before it. -/
theorem linked_laid {unit : UnitDesc} {name wanter : Bytes} (named : unit.check = some name)
    (wanted : unit.wantedBy = some wanter) {disk written : Disk}
    (file : written = disk.write (outcomes.place (unit.pathText root name)) (some (.file unit.content)))
    (fine : 0 ≤ (outcomes.makeLink (unit.targetText name) (unit.wantsText root wanter name)
      (outcomes.remove (unit.wantsText root wanter name) written).2).1) :
    let linked := (outcomes.makeLink (unit.targetText name) (unit.wantsText root wanter name)
      (outcomes.remove (unit.wantsText root wanter name) written).2).2
    (((ownPaths root unit).map outcomes.place).Nodup → Laid outcomes.place root unit linked) ∧
      linked.written = disk.written ++ (ownPaths root unit).map outcomes.place := by
  have kept : Within (· = outcomes.place (unit.wantsText root wanter name)) written
      (outcomes.remove (unit.wantsText root wanter name) written).2 := Within.remove outcomes _ rfl
  rw [makeLink_done outcomes fine]
  refine ⟨fun distinct => ⟨name, named, ?_, ?_⟩, ?_⟩
  · have apart : outcomes.place (unit.pathText root name) ≠ outcomes.place (unit.wantsText root wanter name) := by
      simpa [ownPaths, named, wanted] using distinct
    rw [write_files, if_neg apart, kept.same _ apart, file, write_files, if_pos rfl]
  · intro other again
    rw [← Option.some.inj (wanted.symm.trans again), write_files, if_pos rfl]
  · change (outcomes.remove (unit.wantsText root wanter name) written).2.written ++
      [outcomes.place (unit.wantsText root wanter name)] = _
    rw [remove_written, file]
    simp [ownPaths, named, wanted, Disk.write]

theorem unitOperInstall_done {unit : UnitDesc} {disk : Disk}
    (fine : 0 ≤ (unitOperInstall outcomes root unit disk).1) :
    (((ownPaths root unit).map outcomes.place).Nodup →
      Laid outcomes.place root unit (unitOperInstall outcomes root unit disk).2) ∧
      (unitOperInstall outcomes root unit disk).2.written =
        disk.written ++ (ownPaths root unit).map outcomes.place := by
  unfold unitOperInstall at fine ⊢
  split
  · next unchecked =>
    simp [unchecked] at fine
  · next name named =>
    simp only [named] at fine
    split
    · next long =>
      simp [long] at fine
    · next path fits =>
      simp only [fits] at fine ⊢
      obtain rfl : path = unit.pathText root name := (UnitDesc.fitting_eq_some.mp fits).2
      split
      · next negative =>
        rw [if_pos negative] at fine
        omega
      · next positive =>
        rw [if_neg positive] at fine
        have written := filePut_done outcomes (not_lt.mp positive)
        cases wanted : unit.wantedBy with
        | none =>
          simp only
          rw [written]
          exact ⟨fun _ => ⟨name, named, by rw [write_files, if_pos rfl], by simp [wanted]⟩,
            by simp [ownPaths, named, wanted, Disk.write]⟩
        | some wanter =>
          simp only [wanted] at fine ⊢
          split
          · next link target fitting fitting' =>
            simp only [fitting, fitting'] at fine
            obtain rfl : link = unit.wantsText root wanter name := (UnitDesc.fitting_eq_some.mp fitting).2
            obtain rfl : target = unit.targetText name := (UnitDesc.fitting_eq_some.mp fitting').2
            exact linked_laid outcomes root named wanted written fine
          · next long =>
            split at fine
            · next link target fitting fitting' => exact absurd fitting' (long link target fitting)
            · simp at fine

theorem eachUnit_written (units : List UnitDesc) (disk : Disk)
    (fine : 0 ≤ (eachUnit (unitOperInstall outcomes root) units disk).1) :
    (eachUnit (unitOperInstall outcomes root) units disk).2.written =
      disk.written ++ (units.flatMap (ownPaths root)).map outcomes.place := by
  induction units generalizing disk with
  | nil => simp [eachUnit]
  | cons unit rest ih =>
    unfold eachUnit at fine ⊢
    split
    · next negative =>
      rw [if_pos negative] at fine
      omega
    · next positive =>
      rw [if_neg positive] at fine
      rw [ih _ fine, (unitOperInstall_done outcomes root (not_lt.mp positive)).2]
      simp

theorem eachUnit_laid (units : List UnitDesc) (apart : Apart outcomes.place root units) (disk : Disk)
    (fine : 0 ≤ (eachUnit (unitOperInstall outcomes root) units disk).1) :
    ∀ unit ∈ units, Laid outcomes.place root unit (eachUnit (unitOperInstall outcomes root) units disk).2 := by
  induction units generalizing disk with
  | nil => simp
  | cons unit rest ih =>
    rw [Apart, List.flatMap_cons, List.map_append] at apart
    obtain ⟨first, others, disjoint⟩ := List.nodup_append'.mp apart
    unfold eachUnit at fine ⊢
    split
    · next negative =>
      rw [if_pos negative] at fine
      omega
    · next positive =>
      rw [if_neg positive] at fine
      intro other member
      rcases List.mem_cons.mp member with same | inside
      · have within := eachUnit_within outcomes root rest (unitOperInstall outcomes root unit disk).2
          (unitOperInstall_within outcomes root)
        rw [same]
        refine ((unitOperInstall_done outcomes root (not_lt.mp positive)).1 first).within outcomes root within ?_
        rintro entry owns ⟨later, there, owns'⟩
        refine disjoint ((mem_ownEntries outcomes root unit entry).mpr owns) ?_
        obtain ⟨path, owned, named⟩ := owns'
        exact List.mem_map.mpr ⟨path, List.mem_flatMap.mpr ⟨later, there, (mem_ownPaths root later path).mpr owned⟩, named⟩
      · exact ih others _ fine other inside

theorem installUnits_done (units : List UnitDesc) (disk : Disk)
    (zero : (installUnits outcomes root units disk).1 = 0) :
    (∀ unit ∈ units, Fits root unit) ∧ ∃ checked : Disk, checked.written = disk.written ∧
      0 ≤ (eachUnit (unitOperInstall outcomes root) units checked).1 ∧
      (installUnits outcomes root units disk).2 = (eachUnit (unitOperInstall outcomes root) units checked).2 := by
  obtain ⟨same, free⟩ := eachUnit_check outcomes root units disk
  unfold installUnits at zero ⊢
  simp only at zero ⊢
  generalize eachUnit (unitOperCheckFiles outcomes root · false) units disk = checked at *
  split at zero
  · omega
  · next passed =>
    rw [if_neg passed]
    refine ⟨(free (not_lt.mp passed)).1, checked.2, same.written, ?_⟩
    split at zero
    · next negative =>
      change (eachUnit (unitOperInstall outcomes root) units checked.2).1 = 0 at zero
      omega
    · next positive =>
      rw [if_neg positive]
      exact ⟨not_lt.mp positive, rfl⟩

def smooth : Outcomes := ⟨place, fun _ => none, fun _ => true, fun _ => true, fun _ => true⟩

theorem unitOperCheckFiles_smooth {unit : UnitDesc} (fits : Fits root unit) (disk : Disk)
    (nothing : ∀ path, disk.files path = none) : (unitOperCheckFiles (smooth place) root unit false disk).1 = 0 := by
  obtain ⟨known, short⟩ := fits
  obtain ⟨name, named⟩ := Option.isSome_iff_exists.mp known
  have free : ∀ (text : Bytes) (other : Disk), text.length < PATH_MAX → other.files = disk.files →
      (checkPath (smooth place) (UnitDesc.fitting PATH_MAX text) false other).1 = 0 := by
    intro text other fitting same
    rw [UnitDesc.fitting_eq_some.mpr ⟨fitting, rfl⟩]
    simp [checkPath, checkFile, Outcomes.accessible, Disk.Present, same, nothing]
  have own := free (unit.pathText root name) disk (short _ (Owns.file named)) rfl
  unfold unitOperCheckFiles
  simp only [named]
  cases wanted : unit.wantedBy with
  | none => exact own
  | some wanter =>
    have link := free (unit.wantsText root wanter name)
      (checkPath (smooth place) (unit.getPath root name PATH_MAX) false disk).2 (short _ (Owns.wants named wanted))
      (checkPath_same (smooth place) _ _ _).files
    simp only
    split
    · exact link
    · exact own

theorem unitOperInstall_smooth {unit : UnitDesc} (fits : Fits root unit) (disk : Disk) :
    (unitOperInstall (smooth place) root unit disk).1 = 0 := by
  obtain ⟨known, short⟩ := fits
  obtain ⟨name, named⟩ := Option.isSome_iff_exists.mp known
  have file := short _ (Owns.file named)
  unfold unitOperInstall
  simp only [named]
  rw [UnitDesc.getPath, UnitDesc.fitting_eq_some.mpr ⟨by omega, rfl⟩]
  have written : ((smooth place).filePut (unit.pathText root name) unit.content disk).1 = 0 := rfl
  simp only
  rw [if_neg (by rw [written]; decide)]
  cases wanted : unit.wantedBy with
  | none => exact written
  | some wanter =>
    have link := short _ (Owns.wants named wanted)
    have target : (unit.targetText name).length < PATH_MAX + 1 := by
      simp only [UnitDesc.wantsText, List.length_append, List.length_cons, ascii, List.length_map] at link
      simp only [UnitDesc.targetText, List.length_append, List.length_cons, ascii, List.length_map]
      have wants : ".wants/".toList.length = 7 := by decide
      have up : "../".toList.length = 3 := by decide
      omega
    simp only
    rw [UnitDesc.getWantsPath, UnitDesc.getWantsTarget, UnitDesc.fitting_eq_some.mpr ⟨by omega, rfl⟩,
      UnitDesc.fitting_eq_some.mpr ⟨target, rfl⟩]
    have gone := not_present_remove (show (smooth place).UnlinkSucceeds from fun _ => rfl)
      (unit.wantsText root wanter name) ((smooth place).filePut (unit.pathText root name) unit.content disk).2
    simp only [Outcomes.makeLink]
    rw [if_neg]
    rintro (here | refused)
    · exact gone here
    · cases refused

theorem installUnits_smooth (units : List UnitDesc) (fits : ∀ unit ∈ units, Fits root unit) :
    (installUnits (smooth place) root units ⟨fun _ => none, 0, []⟩).1 = 0 := by
  have checks : ∀ (units : List UnitDesc) (disk : Disk), (∀ unit ∈ units, Fits root unit) →
      (∀ path, disk.files path = none) → (eachUnit (unitOperCheckFiles (smooth place) root · false) units disk).1 = 0 := by
    intro units
    induction units with
    | nil => exact fun _ _ _ => rfl
    | cons unit rest ih =>
      intro disk fits nothing
      have zero := unitOperCheckFiles_smooth place root (fits unit (by simp)) disk nothing
      rw [eachUnit, if_neg (by rw [zero]; decide)]
      apply ih _ fun other member => fits other (List.mem_cons_of_mem unit member)
      intro path
      rw [(unitOperCheckFiles_same (smooth place) root unit false disk).files]
      exact nothing path
  have installs : ∀ (units : List UnitDesc) (disk : Disk), (∀ unit ∈ units, Fits root unit) →
      (eachUnit (unitOperInstall (smooth place) root) units disk).1 = 0 := by
    intro units
    induction units with
    | nil => exact fun _ _ => rfl
    | cons unit rest ih =>
      intro disk fits
      have zero := unitOperInstall_smooth place root (fits unit (by simp)) disk
      rw [eachUnit, if_neg (by rw [zero]; decide)]
      exact ih _ fun other member => fits other (List.mem_cons_of_mem unit member)
  have checked := checks units ⟨fun _ => none, 0, []⟩ fits fun _ => rfl
  unfold installUnits
  simp only
  rw [if_neg (by rw [checked]; decide), if_neg (by rw [installs units _ fits]; decide)]

/-- The units of a text are installed faithfully by every run that succeeds if and only
if, when they all can be written, their paths name different entries and the links lead
to the entries of the files. -/
theorem installUnits_faithful_iff (text : Bytes) :
    (∀ outcomes files, outcomes.place = place →
      (installUnits outcomes root (corpusSplit text).2 ⟨files, 0, []⟩).1 = 0 →
      Faithful place root (corpusSplit text).2
        (installUnits outcomes root (corpusSplit text).2 ⟨files, 0, []⟩).2) ↔
    ((∀ unit ∈ (corpusSplit text).2, Fits root unit) →
      Apart place root (corpusSplit text).2 ∧ ∀ unit ∈ (corpusSplit text).2, Linkable place root unit) := by
  generalize (corpusSplit text).2 = units
  constructor
  · intro faithful fits
    have zero := installUnits_smooth place root units fits
    obtain ⟨installed, once⟩ := faithful (smooth place) (fun _ => none) rfl zero
    obtain ⟨-, checked, empty, fine, done⟩ := installUnits_done (smooth place) root units _ zero
    rw [done, eachUnit_written (smooth place) root units checked fine, empty, List.nil_append] at once
    refine ⟨once, fun unit member => ?_⟩
    have laid := eachUnit_laid (smooth place) root units once checked fine unit member
    rw [← done] at laid
    exact (laid.installed_iff place root).mp (installed unit member)
  · rintro condition outcomes files rfl zero
    obtain ⟨fits, checked, empty, fine, done⟩ := installUnits_done outcomes root units _ zero
    obtain ⟨apart, linkable⟩ := condition fits
    rw [done]
    refine ⟨fun unit member => ?_, ?_⟩
    · have laid := eachUnit_laid outcomes root units apart checked fine unit member
      exact (laid.installed_iff outcomes.place root).mpr (linkable unit member)
    · rw [eachUnit_written outcomes root units checked fine, empty, List.nil_append]
      exact apart

def sameNames : Bytes := ascii
  "%begin systemd-unit\n%systemd-unit system\n%systemd-unit service app\nA\n%end systemd-unit
%begin systemd-unit\n%systemd-unit system\n%systemd-unit service app\nB\n%end systemd-unit\n"

/-- The file of the first unit is overwritten by the second one. -/
theorem installUnits_overwritten :
    (installUnits (smooth plainPlace) (ascii "/units") (corpusSplit sameNames).2 ⟨fun _ => none, 0, []⟩).1 = 0 ∧
    ¬Faithful plainPlace (ascii "/units") (corpusSplit sameNames).2
      (installUnits (smooth plainPlace) (ascii "/units") (corpusSplit sameNames).2 ⟨fun _ => none, 0, []⟩).2 := by
  have units : (corpusSplit sameNames).2 = [⟨.system, .service, some (ascii "app"), ascii "A\n", none⟩,
      ⟨.system, .service, some (ascii "app"), ascii "B\n", none⟩] := by
    rw [corpusSplit_eq, sameNames, ascii_ofList]
    decide +kernel
  rw [units]
  refine ⟨by decide +kernel, fun faithful => ?_⟩
  obtain ⟨name, named, file, -⟩ := faithful.installed _ List.mem_cons_self
  have same : name = ascii "app" := by
    have known : UnitDesc.check ⟨.system, .service, some (ascii "app"), ascii "A\n", none⟩ = some (ascii "app") := by
      decide
    exact Option.some.inj (named.symm.trans known)
  rw [same] at file
  exact absurd file (by decide +kernel)

end AppManager.Units
