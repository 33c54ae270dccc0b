import AppManager.Binding.Privacy
import AppManager.Lib.Members
import AppManager.Units.AfidRuns

/-! The database of the applications. An update scans the unit files again, and its result takes the
place of what there was, all at once, when the scan meets no error. -/

namespace AppManager.Binding
open AppManager.Lib AppManager.Lib.Libc AppManager.Units

def serviceExtension : Bytes := ascii ".service"

/-- `struct afm_udb`, without its counter of references. -/
structure AfmUdb where
  applications : AfmApps
  system : Bool
  user : Bool
  filter : Bytes

/-- `units_fs_get_afm_units_dir`. -/
def unitsDir (root : Bytes) (isuser : Bool) : Bytes :=
  root ++ UnitDesc.slash :: ascii (if isuser then "user" else "system")

/-- The unit that `update_cb` gives to `addunit`, if the file is a service with the prefix that can be read. -/
def unitOf (root : Bytes) (udb : AfmUdb) (isuser : Bool) (name : Bytes) (read : Except Failure Bytes) :
    Option UnitFile :=
  if udb.filter ≠ [] ∧ ¬udb.filter <+: name then none
  else if ¬serviceExtension <:+ name then none
  else
    match read with
    | .error _ => none
    | .ok content =>
      some ⟨isuser, unitsDir root isuser ++ UnitDesc.slash :: name, name, cropAndTrimUnitContent content⟩

section
variable (serialize : Json → Bytes) (root : Bytes)

/-- What `addunit` returns is not read. -/
def updateCb (udb : AfmUdb) (isuser : Bool) (name : Bytes) (read : Except Failure Bytes) (apps : AfmApps) :
    Int × AfmApps :=
  match unitOf root udb isuser name read with
  | none => (0, apps)
  | some unit => (0, (addunit serialize apps unit).2)

def afmUdbUpdate (scan : Units.Scan) (udb : AfmUdb) : Int × AfmUdb :=
  let user := if udb.user then unitsFsList (updateCb serialize root udb true) scan.user true .init else (0, .init)
  if user.1 < 0 then (-1, udb)
  else
    let system := if udb.system then unitsFsList (updateCb serialize root udb false) scan.system true user.2
      else (0, user.2)
    if system.1 < 0 then (-1, udb) else (0, { udb with applications := system.2 })

def afmUdbCreate (sys usr : Bool) (filter : Bytes) (scan : Units.Scan) : Option AfmUdb :=
  let update := afmUdbUpdate serialize root scan ⟨.init, sys, usr, filter⟩
  if update.1 < 0 then none else some update.2

end

/-- The search of an identifier, whose case is not looked at when it is found in no other way. -/
def getNoCase (object : Json) (id : Bytes) : Option Json :=
  match object.get (cstr id) with
  | some result => some result
  | none => (object.objectMembers.find? fun member => Utils.sameIgnoringCase member.1 id).map Prod.snd

namespace AfmUdb

def applicationsPrivate (udb : AfmUdb) (all : Bool) : List Json :=
  if all then udb.applications.privates.all else udb.applications.privates.visibles

def applicationsPublic (udb : AfmUdb) (all : Bool) : List Json :=
  if all then udb.applications.publics.all else udb.applications.publics.visibles

def getApplicationPrivate (udb : AfmUdb) (id : Bytes) : Option Json := getNoCase udb.applications.privates.byname id

def getApplicationPublic (udb : AfmUdb) (id : Bytes) : Option Json := getNoCase udb.applications.publics.byname id

end AfmUdb

/-- A directory whose entries can all be met, or that does not exist. -/
def Readable (directory : Directory) : Prop :=
  match directory.opened with
  | some errno => errno = ENOENT
  | none => directory.ended = true ∧ ∀ entry ∈ directory.entries, entry ≠ .failing

def entryUnit (root : Bytes) (udb : AfmUdb) (isuser : Bool) : Dirent → Option UnitFile
  | .file name read => unitOf root udb isuser name read
  | _ => none

def unitsOf (root : Bytes) (udb : AfmUdb) (isuser : Bool) (directory : Directory) : List UnitFile :=
  if directory.opened.isSome then [] else directory.entries.filterMap (entryUnit root udb isuser)

def WholeScan (udb : AfmUdb) (scan : Units.Scan) : Prop :=
  (udb.user = true → Readable scan.user) ∧ (udb.system = true → Readable scan.system)

def unitFiles (root : Bytes) (udb : AfmUdb) (scan : Units.Scan) : List UnitFile :=
  (if udb.user then unitsOf root udb true scan.user else []) ++
    if udb.system then unitsOf root udb false scan.system else []

section
variable (serialize : Json → Bytes)

def addUnits (units : List UnitFile) (apps : AfmApps) : AfmApps :=
  units.foldl (fun apps unit => (addunit serialize apps unit).2) apps

theorem listEntries_updateCb (root : Bytes) (udb : AfmUdb) (isuser ended : Bool) (entries : List Dirent)
    (apps : AfmApps) :
    ((listEntries (updateCb serialize root udb isuser) ended entries apps).1 < 0 ↔
      ¬(ended = true ∧ ∀ entry ∈ entries, entry ≠ .failing)) ∧
    ((∀ entry ∈ entries, entry ≠ .failing) →
      (listEntries (updateCb serialize root udb isuser) ended entries apps).2 =
        addUnits serialize (entries.filterMap (entryUnit root udb isuser)) apps) := by
  induction entries generalizing apps with
  | nil => cases ended <;> simp [listEntries, addUnits]
  | cons entry rest ih =>
    cases entry with
    | other => simpa [listEntries, List.filterMap_cons, entryUnit] using ih apps
    | failing => simp [listEntries]
    | file name read =>
      have goesOn : (updateCb serialize root udb isuser name read apps).1 = 0 := by
        unfold updateCb
        split <;> rfl
      rw [listEntries, if_pos goesOn]
      obtain ⟨fails, ends⟩ := ih (updateCb serialize root udb isuser name read apps).2
      refine ⟨fails.trans (by simp), fun fine => ?_⟩
      rw [ends fun entry member => fine entry (List.mem_cons_of_mem _ member), updateCb]
      cases found : unitOf root udb isuser name read with
      | none => rw [List.filterMap_cons_none (by exact found)]
      | some unit => rw [List.filterMap_cons_some (by exact found), addUnits, addUnits, List.foldl_cons]

theorem unitsFsList_updateCb (root : Bytes) (udb : AfmUdb) (isuser : Bool) (directory : Directory) (apps : AfmApps) :
    ((unitsFsList (updateCb serialize root udb isuser) directory true apps).1 < 0 ↔ ¬Readable directory) ∧
    (Readable directory → (unitsFsList (updateCb serialize root udb isuser) directory true apps).2 =
      addUnits serialize (unitsOf root udb isuser directory) apps) := by
  unfold unitsFsList Readable unitsOf
  cases directory.opened with
  | some errno => by_cases missing : errno = ENOENT <;> simp [missing, addUnits]
  | none =>
    obtain ⟨fails, ends⟩ :=
      listEntries_updateCb serialize root udb isuser directory.ended directory.entries apps
    exact ⟨fails, fun fine => ends fine.2⟩

theorem pass_updateCb (root : Bytes) (udb : AfmUdb) (isuser asked : Bool) (directory : Directory) (apps : AfmApps) :
    ((if asked then unitsFsList (updateCb serialize root udb isuser) directory true apps else (0, apps)).1 < 0 ↔
      ¬(asked = true → Readable directory)) ∧
    ((asked = true → Readable directory) →
      (if asked then unitsFsList (updateCb serialize root udb isuser) directory true apps else (0, apps)).2 =
        addUnits serialize (if asked then unitsOf root udb isuser directory else []) apps) := by
  cases asked with
  | false => simp [addUnits]
  | true => simpa using unitsFsList_updateCb serialize root udb isuser directory apps

theorem passes_updateCb (root : Bytes) (udb : AfmUdb) (scan : Units.Scan) (apps : AfmApps) :
    let user := if udb.user then unitsFsList (updateCb serialize root udb true) scan.user true apps else (0, apps)
    let system := if udb.system then unitsFsList (updateCb serialize root udb false) scan.system true user.2
      else (0, user.2)
    (WholeScan udb scan ↔ ¬user.1 < 0 ∧ ¬system.1 < 0) ∧
      (WholeScan udb scan → system.2 = addUnits serialize (unitFiles root udb scan) apps) := by
  intro user system
  obtain ⟨userFails, userEnds⟩ := pass_updateCb serialize root udb true udb.user scan.user apps
  obtain ⟨systemFails, systemEnds⟩ := pass_updateCb serialize root udb false udb.system scan.system user.2
  constructor
  · unfold WholeScan
    rw [userFails, systemFails, not_not, not_not]
  · rintro ⟨users, systems⟩
    rw [systemEnds systems, userEnds users, unitFiles, addUnits, addUnits, addUnits, List.foldl_append]

end

theorem afmUdbUpdate_eq (serialize : Json → Bytes) (root : Bytes) (scan : Units.Scan) (udb : AfmUdb) :
    (¬WholeScan udb scan → afmUdbUpdate serialize root scan udb = (-1, udb)) ∧
    (WholeScan udb scan → afmUdbUpdate serialize root scan udb =
      (0, { udb with applications := scanUnits serialize (unitFiles root udb scan) })) := by
  obtain ⟨fine, ends⟩ := passes_updateCb serialize root udb scan .init
  unfold afmUdbUpdate
  simp only
  constructor
  · intro broken
    rw [fine, not_and_or, not_not, not_not] at broken
    rcases broken with user | system
    · rw [if_pos user]
    · rw [if_pos system, ite_self]
  · intro whole
    rw [if_neg (fine.mp whole).1, if_neg (fine.mp whole).2, ends whole]
    rfl

section
variable (serialize : Json → Bytes)

def identifier (unit : UnitFile) : Option Bytes := (unit.records.pub.get keyId).map (stringOf serialize)

def identified (units : List UnitFile) : List (Bytes × UnitFile) :=
  units.filterMap fun unit => (identifier serialize unit).map fun id => (id, unit)

/-- The lists that are made of a part of the records of some units. -/
def listsOf (part : Records → Json) (named : List (Bytes × UnitFile)) : AppLists where
  visibles := (named.filter fun unit => isVisible serialize unit.2.records.priv).map fun unit => part unit.2.records
  all := named.map fun unit => part unit.2.records
  byname := .object (Json.gather (named.map fun unit => (unit.1, part unit.2.records)))

end

theorem listsOf_concat (serialize : Json → Bytes) (part : Records → Json) (named : List (Bytes × UnitFile)) (id : Bytes)
    (unit : UnitFile) :
    listsOf serialize part (named ++ [(id, unit)]) =
      record (listsOf serialize part named) id (part unit.records) (isVisible serialize unit.records.priv) := by
  unfold listsOf record
  rw [List.filter_append, List.map_append, List.map_append, List.map_append, List.map_singleton, List.map_singleton,
    Json.gather_concat]
  cases visible : isVisible serialize unit.records.priv <;> simp [visible, Json.add]

theorem scanUnits_eq (serialize : Json → Bytes) (units : List UnitFile) :
    scanUnits serialize units =
      ⟨listsOf serialize Records.priv (identified serialize units), listsOf serialize Records.pub (identified serialize units)⟩ := by
  induction units using List.reverseRecOn with
  | nil => rfl
  | append_singleton units unit ih =>
    have run : scanUnits serialize (units ++ [unit]) = (addunit serialize (scanUnits serialize units) unit).2 := by
      unfold scanUnits
      rw [List.foldl_append, List.foldl_cons, List.foldl_nil]
    have more : identified serialize (units ++ [unit]) =
        identified serialize units ++ ((identifier serialize unit).map fun id => (id, unit)).toList := by
      rw [identified, List.filterMap_append]
      cases found : identifier serialize unit <;> simp [identified, found]
    rw [run, ih, more, addunit]
    cases found : unit.records.pub.get keyId with
    | none =>
      have unnamed : identifier serialize unit = none := by rw [identifier, found]; rfl
      rw [unnamed, Option.map_none, Option.toList_none, List.append_nil]
    | some id =>
      have named : identifier serialize unit = some (stringOf serialize id) := by rw [identifier, found]; rfl
      rw [named, Option.map_some, Option.toList_some, listsOf_concat, listsOf_concat]

/-- The identifier that answers to an asked one: itself, or the first one of the same letters. -/
def chosen (ids : List Bytes) (id : Bytes) : Option Bytes :=
  (ids.find? fun other => decide (other = cstr id)).or (ids.find? fun other => Utils.sameIgnoringCase other id)

theorem getNoCase_gather (named : List (Bytes × UnitFile)) (part : UnitFile → Json) (id : Bytes) :
    getNoCase (.object (Json.gather (named.map fun unit => (unit.1, part unit.2)))) id =
      ((chosen (named.map Prod.fst) id).bind (latest named)).map part := by
  have keys : (named.map fun unit => (unit.1, part unit.2)).map Prod.fst = named.map Prod.fst := by
    rw [List.map_map]
    rfl
  unfold getNoCase chosen
  rw [Json.get_gather, latest_map]
  cases present : (named.map Prod.fst).find? fun other => decide (other = cstr id) with
  | some other =>
    have same : other = cstr id := by simpa using List.find?_some present
    subst same
    rw [Option.some_or, Option.bind_some]
    cases found : latest named (cstr id) with
    | none => exact (latest_eq_none.mp found (List.mem_of_find?_eq_some present)).elim
    | some unit => rfl
  | none =>
    have absent : cstr id ∉ named.map Prod.fst := fun member =>
      List.find?_eq_none.mp present (cstr id) member (decide_eq_true rfl)
    rw [Option.none_or, latest_eq_none.mpr absent]
    change ((Json.gather _).find? _).map Prod.snd = _
    rw [Json.find_gather _ fun other => Utils.sameIgnoringCase other id, keys, Option.map_bind]
    exact congrArg (Option.bind _) (funext fun key => latest_map part named key)

def afmUdbRun (serialize : Json → Bytes) (root : Bytes) (scans : List Units.Scan) (udb : AfmUdb) : AfmUdb :=
  scans.foldl (fun udb scan => (afmUdbUpdate serialize root scan udb).2) udb

theorem afmUdbRun_last (serialize : Json → Bytes) (root : Bytes) (first : Units.Scan) (scans : List Units.Scan) (udb : AfmUdb)
    (whole : WholeScan udb first) (holds : udb.applications = scanUnits serialize (unitFiles root udb first)) :
    ∃ before scan after, first :: scans = before ++ scan :: after ∧ WholeScan udb scan ∧
      (∀ later ∈ after, ¬WholeScan udb later) ∧ afmUdbRun serialize root scans udb =
        { udb with applications := scanUnits serialize (unitFiles root udb scan) } := by
  induction scans using List.reverseRecOn with
  | nil => exact ⟨[], first, [], rfl, whole, nofun, by rw [← holds]; rfl⟩
  | append_singleton scans last ih =>
    obtain ⟨before, scan, after, split, whole', fail, final⟩ := ih
    have run : afmUdbRun serialize root (scans ++ [last]) udb =
        (afmUdbUpdate serialize root last (afmUdbRun serialize root scans udb)).2 := by
      unfold afmUdbRun
      rw [List.foldl_append, List.foldl_cons, List.foldl_nil]
    rw [run, final]
    obtain ⟨fails, ends⟩ := afmUdbUpdate_eq serialize root last
      { udb with applications := scanUnits serialize (unitFiles root udb scan) }
    by_cases fine : WholeScan udb last
    · exact ⟨first :: scans, last, [], rfl, fine, nofun, congrArg Prod.snd (ends fine)⟩
    · refine ⟨before, scan, after ++ [last], ?_, whole', ?_, congrArg Prod.snd (fails fine)⟩
      · rw [← List.cons_append, split, List.append_assoc, List.cons_append]
      · intro later member
        rcases List.mem_append.mp member with there | here
        · exact fail later there
        · exact List.mem_singleton.mp here ▸ fine

/-- After a creation and any updates, each query is answered from the units of the last scan that met no error: an
identifier gives the last unit that has it, and its private and its public data are those of the same unit. -/
theorem udb_answers (serialize : Json → Bytes) (root : Bytes) (sys usr : Bool) (filter : Bytes) (first : Units.Scan)
    (scans : List Units.Scan) (udb : AfmUdb) (created : afmUdbCreate serialize root sys usr filter first = some udb) :
    ∃ before scan after, first :: scans = before ++ scan :: after ∧ WholeScan udb scan ∧
      (∀ later ∈ after, ¬WholeScan udb later) ∧
      let named := identified serialize (unitFiles root udb scan)
      let final := afmUdbRun serialize root scans udb
      (∀ id, final.getApplicationPrivate id =
          ((chosen (named.map Prod.fst) id).bind (latest named)).map (·.records.priv) ∧
        final.getApplicationPublic id =
          ((chosen (named.map Prod.fst) id).bind (latest named)).map (·.records.pub)) ∧
      ∀ all, let shown := named.filter fun unit => all || isVisible serialize unit.2.records.priv
        final.applicationsPrivate all = shown.map (·.2.records.priv) ∧
        final.applicationsPublic all = shown.map (·.2.records.pub) := by
  obtain ⟨fails, ends⟩ := afmUdbUpdate_eq serialize root first ⟨.init, sys, usr, filter⟩
  have whole : WholeScan ⟨.init, sys, usr, filter⟩ first := by
    by_contra bad
    rw [afmUdbCreate, fails bad] at created
    cases created
  rw [afmUdbCreate, ends whole] at created
  obtain rfl := Option.some.inj created
  obtain ⟨before, scan, after, split, whole', fail, final⟩ := afmUdbRun_last serialize root first scans
    ⟨scanUnits serialize (unitFiles root ⟨.init, sys, usr, filter⟩ first), sys, usr, filter⟩ whole rfl
  refine ⟨before, scan, after, split, whole', fail, ?_⟩
  dsimp only
  rw [final, scanUnits_eq]
  refine ⟨fun id => ⟨?_, ?_⟩, fun all => ?_⟩
  · exact getNoCase_gather _ (fun unit => unit.records.priv) id
  · exact getNoCase_gather _ (fun unit => unit.records.pub) id
  · cases all with
    | false => exact ⟨rfl, rfl⟩
    | true => simp [AfmUdb.applicationsPrivate, AfmUdb.applicationsPublic, listsOf]

/-- A service, an entry that is not one, and a file of another kind. -/
def sampleScan : Units.Scan where
  system := ⟨none, [.file (ascii "radio.service") (.ok (ascii "X-AFM-id=Radio\nX-AFM--visibility=visible\n")),
    .file (ascii "radio.socket") (.ok (ascii "X-AFM-id=Other\n")), .other], true⟩
  user := ⟨some 13, [], false⟩

def sampleBroken : Units.Scan where
  system := ⟨none, [], false⟩
  user := ⟨some 13, [], false⟩

def sampleUdb : AfmUdb :=
  ⟨scanUnits (fun _ => []) (unitFiles (ascii "/lib") ⟨.init, true, false, []⟩ sampleScan), true, false, []⟩

theorem sampleUdb_created : afmUdbCreate (fun _ => []) (ascii "/lib") true false [] sampleScan = some sampleUdb := by
  have whole : WholeScan ⟨.init, true, false, []⟩ sampleScan := ⟨nofun, fun _ => ⟨rfl, by simp [sampleScan]⟩⟩
  rw [afmUdbCreate, (afmUdbUpdate_eq (fun _ => []) (ascii "/lib") sampleScan ⟨.init, true, false, []⟩).2 whole]
  rfl

theorem udb_answers_sample :
    ∃ scan ∈ [sampleScan, sampleBroken], WholeScan sampleUdb scan ∧ ∀ id,
      (afmUdbRun (fun _ => []) (ascii "/lib") [sampleBroken] sampleUdb).getApplicationPublic id =
        ((chosen ((identified (fun _ => []) (unitFiles (ascii "/lib") sampleUdb scan)).map Prod.fst) id).bind
          (latest (identified (fun _ => []) (unitFiles (ascii "/lib") sampleUdb scan)))).map (·.records.pub) := by
  obtain ⟨before, scan, after, split, whole, -, answers, -⟩ := udb_answers (fun _ => []) (ascii "/lib") true false []
    sampleScan [sampleBroken] sampleUdb sampleUdb_created
  exact ⟨scan, by rw [split]; simp, whole, fun id => (answers id).2⟩

end AppManager.Binding
