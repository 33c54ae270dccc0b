import AppManager.Install.ManifestNormal
import AppManager.Install.Stages

/-! The nulls of a manifest that are used as strings, from its check to that of its
permissions. -/

namespace AppManager.Install.Manifest
open AppManager.Lib AppManager.Lib.Libc AppManager.Utils

section
variable (serialize : Json → Bytes)

def Marked (manifest : Json) : Prop :=
  ∃ jval, manifest.get MANIFEST_RP_MANIFEST = some jval ∧ jval.getString serialize = some (ascii "1")

def ValidString (manifest : Json) (key : Bytes) : Prop :=
  ∃ jval text, manifest.get key = some jval ∧ jval.getString serialize = some text ∧ text ≠ [] ∧
    text.all validChar = true

/-- What the check of a manifest accepts. -/
structure Checked (manifest : Json) : Prop where
  marked : Marked serialize manifest
  id : ValidString serialize manifest MANIFEST_ID
  version : ValidString serialize manifest MANIFEST_VERSION

/-- The targets are objects that tell their names. -/
def Targeted (manifest : Json) : Prop :=
  ∃ items, manifest.get MANIFEST_TARGETS = some (.array items) ∧ ∀ item ∈ items, item.isObject = true ∧
    ((item.get MANIFEST_SHARP_TARGET).isSome = true ∨ (item.get MANIFEST_TARGET).isSome = true)

def owners (manifest : Json) : List Json := manifest :: manifest.itemsAt MANIFEST_TARGETS

def Part.Declares (part : Part) : Prop := (part.declares serialize).isSome = true

/-- The required permissions have one of the forms and each part declares one. -/
def Accepted (owner : Json) : Prop :=
  ∀ input, owner.get MANIFEST_REQUIRED_PERMISSIONS = some input →
    ∃ parts, partsOf input = some parts ∧ ∀ part ∈ parts, part.Declares serialize

/-- No null name is met before a part that declares nothing. -/
def NamesGiven (owner : Json) : Prop :=
  ∀ input, owner.get MANIFEST_REQUIRED_PERMISSIONS = some input → ∀ parts, partsOf input = some parts →
    Reached (Part.Declares serialize) (fun part => part.nameless = false) parts

/-- No permission has a null for its last value. -/
def ValuesGiven (owner : Json) : Prop :=
  ∀ input, owner.get MANIFEST_REQUIRED_PERMISSIONS = some input → ∀ name, denote serialize input name ≠ some .null

/-- The nulls that are met are not used as strings. -/
structure NullSafe (manifest : Json) : Prop where
  mark : manifest.get MANIFEST_RP_MANIFEST ≠ some .null
  id : Marked serialize manifest → manifest.get MANIFEST_ID ≠ some .null
  version : Marked serialize manifest → ValidString serialize manifest MANIFEST_ID →
    manifest.get MANIFEST_VERSION ≠ some .null
  names : Checked serialize manifest → Targeted manifest →
    Reached (Accepted serialize) (NamesGiven serialize) (owners manifest)
  values : Checked serialize manifest → Targeted manifest → (∀ owner ∈ owners manifest, Accepted serialize owner) →
    ∀ owner ∈ owners manifest, ValuesGiven serialize owner

theorem checkValidString_judged (manifest : Json) (key : Bytes) :
    Judged id (ValidString serialize manifest key) (manifest.get key ≠ some .null)
      (checkValidString serialize manifest key) := by
  have negative : (-EINVAL : Int) < 0 := by decide
  unfold checkValidString ValidString
  cases found : manifest.get key with
  | none => exact ⟨nofun, negative.le, by simp [negative.ne]⟩
  | some jval =>
    cases given : jval.getString serialize with
    | none =>
      obtain rfl := (Json.getString_eq_none serialize jval).mp given
      exact fun whole => whole rfl
    | some text =>
      have notNull : jval ≠ .null := by
        rintro rfl
        cases given
      by_cases valid : text ≠ [] ∧ text.all validChar = true
      · simp only [useString, given, bind, Except.bind, if_pos valid]
        exact ⟨by simp [notNull], le_rfl, by simpa [given] using valid⟩
      · simp only [useString, given, bind, Except.bind, if_neg valid]
        exact ⟨by simp [notNull], negative.le, by simpa [given, negative.ne] using valid⟩

theorem check_judged (manifest : Json) :
    Judged id (Checked serialize manifest)
      (manifest.get MANIFEST_RP_MANIFEST ≠ some .null ∧ (Marked serialize manifest →
        manifest.get MANIFEST_ID ≠ some .null ∧ (ValidString serialize manifest MANIFEST_ID →
          manifest.get MANIFEST_VERSION ≠ some .null)))
      (check serialize manifest) := by
  have negative : (-EINVAL : Int) < 0 := by decide
  have checked : Checked serialize manifest ↔ Marked serialize manifest ∧
      ValidString serialize manifest MANIFEST_ID ∧ ValidString serialize manifest MANIFEST_VERSION :=
    ⟨fun all => ⟨all.marked, all.id, all.version⟩, fun all => ⟨all.1, all.2.1, all.2.2⟩⟩
  unfold check
  cases found : manifest.get MANIFEST_RP_MANIFEST with
  | none =>
    have unmarked : ¬Marked serialize manifest := by simp [Marked, found]
    exact ⟨⟨nofun, fun marked => absurd marked unmarked⟩, negative.le, by simp [checked, unmarked, negative.ne]⟩
  | some jval =>
    cases given : jval.getString serialize with
    | none =>
      obtain rfl := (Json.getString_eq_none serialize jval).mp given
      exact fun whole => whole.1 rfl
    | some mark =>
      have notNull : jval ≠ .null := by
        rintro rfl
        cases given
      simp only [useString, given, bind, Except.bind]
      by_cases one : mark = ascii "1"
      · have marked : Marked serialize manifest := ⟨jval, found, by rw [given, one]⟩
        rw [if_pos one]
        have both : Judged id
            (ValidString serialize manifest MANIFEST_ID ∧ ValidString serialize manifest MANIFEST_VERSION)
            (manifest.get MANIFEST_ID ≠ some .null ∧ (ValidString serialize manifest MANIFEST_ID →
              manifest.get MANIFEST_VERSION ≠ some .null))
            (checkValidString serialize manifest MANIFEST_ID >>= fun rc =>
              if rc = 0 then checkValidString serialize manifest MANIFEST_VERSION else .ok rc) := by
          refine (checkValidString_judged serialize manifest MANIFEST_ID).andThen ?_ ?_
          · intro rc done fails
            exact ⟨rc, if_neg fails.ne, fails⟩
          · intro rc done zero valid
            rw [if_pos (show rc = 0 from zero)]
            exact checkValidString_judged serialize manifest MANIFEST_VERSION
        exact both.congr (by simp [checked, marked]) (by simp [notNull, marked])
      · have unmarked : ¬Marked serialize manifest := by
          rintro ⟨jval', found', given'⟩
          rw [found] at found'
          cases found'
          rw [given] at given'
          exact one (Option.some.inj given')
        rw [if_neg one]
        exact ⟨⟨by simp [notNull], fun marked => absurd marked unmarked⟩, negative.le,
          by simp [checked, unmarked, negative.ne]⟩

theorem Part.read_judged (part : Part) :
    Judged foundCode (part.Declares serialize) (part.nameless = false) (part.read serialize) := by
  unfold Part.read Part.Declares
  by_cases nameless : part.nameless = true
  · rw [if_pos nameless]
    exact fun given => by simp [given] at nameless
  · rw [if_neg nameless]
    exact ⟨by simpa using nameless, foundCode_le _, by simp [foundCode, Option.isSome_iff_ne_none]⟩

theorem adaptPermissions_judged (input : Json) : Judged Prod.fst
    (∃ parts, partsOf input = some parts ∧ ∀ part ∈ parts, part.Declares serialize)
    (∀ parts, partsOf input = some parts → Reached (Part.Declares serialize) (fun part => part.nameless = false) parts)
    (adaptPermissions serialize input) := by
  have negative : (-EINVAL : Int) < 0 := by decide
  cases given : partsOf input with
  | none =>
    rw [adaptPermissions_of_no_parts serialize given]
    exact ⟨nofun, negative.le, by simp [negative.ne]⟩
  | some parts =>
    obtain ⟨partly, run⟩ := adaptPermissions_of_parts serialize given
    have read := readAll_judged fun part (_ : part ∈ parts) => Part.read_judged serialize part
    rw [run]
    refine (read.map fun found _ => ?_).congr (by simp) (by simp)
    cases found with
    | none => exact ⟨negative.le, by simp [foundCode, negative.ne]⟩
    | some members => exact ⟨le_rfl, by simp [foundCode]⟩

theorem adaptPermissionsOf_judged {owner : Json} (object : owner.isObject = true) :
    Judged Prod.fst (Accepted serialize owner) (NamesGiven serialize owner) (adaptPermissionsOf serialize owner) := by
  unfold Accepted NamesGiven
  cases owner with
  | object members =>
    simp only [adaptPermissionsOf]
    cases required : (Json.object members).get MANIFEST_REQUIRED_PERMISSIONS with
    | none => exact ⟨by simp, le_rfl, by simp⟩
    | some input =>
      refine ((adaptPermissions_judged serialize input).keep ?_ ?_).congr (by simp) (by simp)
      · exact fun answer _ fails => ⟨_, if_pos fails, fails⟩
      · exact fun answer _ zero => ⟨_, if_neg zero.not_lt, zero⟩
  | _ => cases object

theorem adaptTargets_judged {items : List Json} (objects : ∀ item ∈ items, item.isObject = true) :
    Judged Prod.fst (∀ item ∈ items, Accepted serialize item)
      (Reached (Accepted serialize) (NamesGiven serialize) items)
      (adaptTargets serialize items) := by
  induction items with
  | nil => exact ⟨reached_nil _ _, le_rfl, by simp⟩
  | cons item rest ih =>
    obtain ⟨object, others⟩ := List.forall_mem_cons.mp objects
    rw [adaptTargets]
    refine ((adaptPermissionsOf_judged serialize object).andThen ?_ ?_).congr
      List.forall_mem_cons.symm reached_cons.symm
    · intro first done fails
      exact ⟨_, if_neg fails.ne, fails⟩
    · intro first done zero accepted
      rw [if_pos zero]
      refine (ih others).keep ?_ ?_
      · exact fun answer _ fails => ⟨_, rfl, fails⟩
      · exact fun answer _ zero => ⟨_, rfl, zero⟩

theorem adaptAllPermissions_judged {jso : Json} {items : List Json} (object : jso.isObject = true)
    (found : jso.get MANIFEST_TARGETS = some (.array items)) (objects : ∀ item ∈ items, item.isObject = true) :
    Judged Prod.fst (∀ owner ∈ jso :: items, Accepted serialize owner)
      (Reached (Accepted serialize) (NamesGiven serialize) (jso :: items)) (adaptAllPermissions serialize jso) := by
  refine ((adaptPermissionsOf_judged serialize object).andThen ?_ ?_).congr List.forall_mem_cons.symm reached_cons.symm
  · exact fun own _ fails => ⟨_, if_pos fails, fails⟩
  · intro own done zero accepted
    have kept := (adaptPermissionsOf_done done zero.ge).2.others MANIFEST_TARGETS (by decide)
    rw [if_neg zero.not_lt, kept, found]
    refine (adaptTargets_judged serialize objects).keep ?_ ?_
    · exact fun answer _ fails => ⟨_, rfl, fails⟩
    · exact fun answer _ zero => ⟨_, rfl, zero⟩

theorem fulfill_of_checked {manifest : Json} (checked : Checked serialize manifest) (distinctVersions : Bool) :
    ∃ filled, fulfill serialize distinctVersions manifest = .ok (0, filled) := by
  obtain ⟨jid, id, foundId, givenId, -⟩ := checked.id
  obtain ⟨jversion, version, foundVersion, givenVersion, -⟩ := checked.version
  obtain ⟨ver, made⟩ : ∃ ver, mkver (some version) = some ver := by
    simp only [mkver]
    split
    · exact ⟨_, rfl⟩
    · exact ⟨_, rfl⟩
  simp only [fulfill, foundId, foundVersion, useString, givenId, givenVersion, made, bind, Except.bind]
  exact ⟨_, rfl⟩

theorem retarget_code (item : Json) : (retarget item).1 = 0 ↔ item.isObject = true ∧
    ((item.get MANIFEST_SHARP_TARGET).isSome = true ∨ (item.get MANIFEST_TARGET).isSome = true) := by
  have fails : (-EINVAL : Int) ≠ 0 := by decide
  unfold retarget
  by_cases object : item.isObject = true
  · rw [if_pos object]
    cases sharp : item.get MANIFEST_SHARP_TARGET with
    | some targ => simp [object]
    | none =>
      cases target : item.get MANIFEST_TARGET with
      | none => simp [fails]
      | some targ => simp [object]
  · rw [if_neg object]
    simp [object, fails]

theorem retargets_code (jso : Json) : (retargets jso).1 ≤ 0 ∧ ((retargets jso).1 = 0 ↔ Targeted jso) := by
  have negative : (-EINVAL : Int) < 0 := by decide
  unfold retargets Targeted
  split
  · next items found =>
    have all : ((items.map retarget).all fun answer => answer.1 = 0) = true ↔ ∀ item ∈ items, item.isObject = true ∧
        ((item.get MANIFEST_SHARP_TARGET).isSome = true ∨ (item.get MANIFEST_TARGET).isSome = true) := by
      simp [retarget_code]
    split
    · next yes => simpa [found] using all.mp yes
    · next no =>
      refine ⟨negative.le, ?_⟩
      rw [all] at no
      simpa [found, negative.ne] using no
  · next other => exact ⟨negative.le, by simpa [negative.ne] using fun items found => absurd found (other items)⟩

/-- Both require the same permissions, written in the same way. -/
def SameRequired (owner owner' : Json) : Prop :=
  owner.get MANIFEST_REQUIRED_PERMISSIONS = owner'.get MANIFEST_REQUIRED_PERMISSIONS

theorem SameRequired.accepted {owner owner' : Json} (same : SameRequired owner owner') :
    Accepted serialize owner ↔ Accepted serialize owner' := by
  unfold Accepted
  rw [same]

theorem SameRequired.namesGiven {owner owner' : Json} (same : SameRequired owner owner') :
    NamesGiven serialize owner ↔ NamesGiven serialize owner' := by
  unfold NamesGiven
  rw [same]

theorem sameRequired_retarget {items : List Json} (accepted : ∀ item ∈ items, (retarget item).1 = 0) :
    List.Forall₂ SameRequired (items.map fun item => (retarget item).2) items := by
  rw [List.forall₂_map_left_iff, List.forall₂_same]
  intro item there
  exact (retarget_done (accepted item there)).2.2.2.2 _ (by decide)

theorem normalize_judged {manifest : Json} (checked : Checked serialize manifest) (distinctVersions : Bool) :
    Judged Prod.fst (Targeted manifest ∧ ∀ owner ∈ owners manifest, Accepted serialize owner)
      (Targeted manifest → Reached (Accepted serialize) (NamesGiven serialize) (owners manifest))
      (normalize serialize distinctVersions manifest) := by
  obtain ⟨filled, fulfilled⟩ := fulfill_of_checked serialize checked distinctVersions
  obtain ⟨-, -, kept⟩ := fulfill_done fulfilled le_rfl
  have targeted : Targeted filled ↔ Targeted manifest := by
    unfold Targeted
    rw [kept _ (by decide)]
  obtain ⟨bound, code⟩ := retargets_code filled
  rw [targeted] at code
  simp only [normalize, fulfilled, bind, Except.bind, lt_irrefl, ↓reduceIte]
  by_cases yes : Targeted manifest
  · have zero := code.mpr yes
    obtain ⟨items, found, accepted, same⟩ := retargets_done zero.ge
    rw [if_neg zero.not_lt, same]
    have object := Json.isObject_of_get found
    have objects : ∀ item ∈ items.map (fun item => (retarget item).2), item.isObject = true := by
      rw [List.forall_mem_map]
      exact fun item there => (retarget_done (accepted item there)).2.1
    have judged := adaptAllPermissions_judged serialize ((Json.isObject_add filled MANIFEST_TARGETS _).trans object)
      (Json.get_add_same filled MANIFEST_TARGETS _ object) objects
    have owned : owners manifest = manifest :: items := by
      rw [owners, Json.itemsAt, ← kept MANIFEST_TARGETS (by decide), found]
      rfl
    have each : List.Forall₂ SameRequired
        (filled.add MANIFEST_TARGETS (.array (items.map fun item => (retarget item).2)) ::
          items.map fun item => (retarget item).2) (owners manifest) := by
      rw [owned]
      refine .cons ?_ (sameRequired_retarget accepted)
      rw [SameRequired, Json.get_add _ _ _ _ (by decide), kept _ (by decide)]
    refine judged.congr ?_ ?_
    · have transfer := forall_mem_iff_of_forall₂ each fun _ _ same => same.accepted serialize
      simpa [yes] using transfer
    · have transfer := reached_iff_of_forall₂ each fun _ _ same =>
        ⟨same.accepted serialize, same.namesGiven serialize⟩
      simpa [yes] using transfer
  · have fails : (retargets filled).1 < 0 := lt_of_le_of_ne bound fun zero => yes (code.mp zero)
    rw [if_pos fails]
    exact ⟨fun targeted => absurd targeted yes, bound, by simp [yes, fails.ne]⟩

section
variable {serialize}

theorem permissionsGiven_iff {before after : Json} (same : SamePermissions serialize before after) :
    ValuesGiven serialize before ↔ PermissionsGiven after := by
  unfold ValuesGiven PermissionsGiven
  cases required : before.get MANIFEST_REQUIRED_PERMISSIONS with
  | none => simp [Json.membersAt, same.absent required]
  | some input =>
    obtain ⟨out, found, canonical, denoted⟩ := same.present input required
    rw [Json.membersAt, found]
    simp only [Option.some.injEq, forall_eq', Option.map_some, Option.getD_some, ← denoted, canonical.denote]
    cases out with
    | object members =>
      have once : (members.map Prod.fst).Nodup := canonical.once
      have latest : ∀ name, (Json.object members).get name = latest members name := by
        intro name
        rw [← Json.get_gather, canonical.gather]
      constructor
      · intro given member there null
        apply given member.1
        rw [latest, latest_of_mem once there, Option.map_some, valueOf, null]
        rfl
      · intro given name null
        rw [latest, Option.map_eq_some_iff] at null
        obtain ⟨item, last, value⟩ := null
        have there := mem_of_latest last
        obtain ⟨jvalue, describes⟩ := canonical.each _ there
        rw [describes.valueOf] at value
        exact given _ there (by rw [describes.valued, value])
    | _ => cases canonical.object

end

end

section
variable {Closure : Type} (world : World)

theorem checkOnePermissionCb_ok {state after : State Closure} {jso : Json}
    (done : checkOnePermissionCb world state jso = .ok after) : jso.get MANIFEST_VALUE ≠ some .null := by
  intro null
  cases jso with
  | object members =>
    simp only [checkOnePermissionCb, null, Json.getString] at done
    cases done
  | _ => cases null

theorem checkPermissionsCb_ok {state after : State Closure} {jso : Json}
    (done : checkPermissionsCb world state jso = .ok after) : PermissionsGiven jso := by
  intro member there
  obtain ⟨before, after, one⟩ := foldlM_ok done member there
  exact checkOnePermissionCb_ok world one

theorem checkPermissions_ok (pack : Package) (state : State Closure) :
    (∃ after, checkPermissions world pack state = .ok after) ↔ AllPermissionsGiven pack := by
  constructor
  · rintro ⟨after, done⟩
    obtain ⟨middle, first, others⟩ := bind_ok done
    refine ⟨checkPermissionsCb_ok world first, fun target there => ?_⟩
    obtain ⟨before, after, one⟩ := foldlM_ok others target there
    exact checkPermissionsCb_ok world one
  · intro given
    have meets := checkPermissions_meets world pack state
    cases answer : checkPermissions world pack state with
    | ok after => exact ⟨after, rfl⟩
    | error crashed =>
      rw [answer] at meets
      exact absurd given meets.2

/-- The check of a manifest, its normalization and then the check of its permissions, each
when what comes before succeeds. -/
def checkThrough (distinctVersions : Bool) (pack : Package) (state : State Closure) : Except Crash Int := do
  let rc ← check world.serialize pack.manifest
  if rc < 0 then .ok rc
  else
    let normalized ← normalize world.serialize distinctVersions pack.manifest
    if normalized.1 < 0 then .ok normalized.1
    else
      match checkPermissions world { pack with manifest := normalized.2 } state with
      | .error crashed => .error crashed.crash
      | .ok _ => .ok 0

theorem allPermissionsGiven_iff {manifest result : Json} (pack : Package)
    (normalized : Normalized world.serialize manifest result) :
    AllPermissionsGiven { pack with manifest := result } ↔
      ∀ owner ∈ owners manifest, ValuesGiven world.serialize owner := by
  obtain ⟨items, items', before, after, each⟩ := normalized.targets
  have owned : owners manifest = manifest :: items := by
    rw [owners, Json.itemsAt, before]
    rfl
  have targets : ({ pack with manifest := result } : Package).targets = items' := by
    rw [Package.targets, Json.itemsAt, after]
    rfl
  have transfer := forall_mem_iff_of_forall₂ each fun item item' same => permissionsGiven_iff same.permissions
  rw [owned, List.forall_mem_cons, permissionsGiven_iff normalized.permissions, transfer, AllPermissionsGiven, targets]

theorem checkThrough_judged (distinctVersions : Bool) (pack : Package) (state : State Closure) :
    Judged id
      (Checked world.serialize pack.manifest ∧ (Targeted pack.manifest ∧
        ∀ owner ∈ owners pack.manifest, Accepted world.serialize owner) ∧ True)
      (NullSafe world.serialize pack.manifest) (checkThrough world distinctVersions pack state) := by
  have stages : NullSafe world.serialize pack.manifest ↔
      (pack.manifest.get MANIFEST_RP_MANIFEST ≠ some .null ∧ (Marked world.serialize pack.manifest →
        pack.manifest.get MANIFEST_ID ≠ some .null ∧ (ValidString world.serialize pack.manifest MANIFEST_ID →
          pack.manifest.get MANIFEST_VERSION ≠ some .null))) ∧
      (Checked world.serialize pack.manifest →
        (Targeted pack.manifest →
          Reached (Accepted world.serialize) (NamesGiven world.serialize) (owners pack.manifest)) ∧
        (Targeted pack.manifest ∧ (∀ owner ∈ owners pack.manifest, Accepted world.serialize owner) →
          ∀ owner ∈ owners pack.manifest, ValuesGiven world.serialize owner)) := by
    constructor
    · intro safe
      exact ⟨⟨safe.mark, fun marked => ⟨safe.id marked, safe.version marked⟩⟩,
        fun checked => ⟨safe.names checked, fun all => safe.values checked all.1 all.2⟩⟩
    · rintro ⟨⟨mark, identity⟩, permissions⟩
      exact ⟨mark, fun marked => (identity marked).1, fun marked => (identity marked).2,
        fun checked => (permissions checked).1, fun checked targeted accepted =>
          (permissions checked).2 ⟨targeted, accepted⟩⟩
  rw [stages]
  refine (check_judged world.serialize pack.manifest).andThen ?_ ?_
  · exact fun rc _ fails => ⟨rc, if_pos fails, fails⟩
  · intro rc _ zero checked
    rw [if_neg (show ¬rc < 0 from zero.not_lt)]
    refine (normalize_judged world.serialize checked distinctVersions).andThen ?_ ?_
    · exact fun normalized _ fails => ⟨normalized.1, if_pos fails, fails⟩
    · intro normalized done zero accepted
      rw [if_neg zero.not_lt]
      have given := allPermissionsGiven_iff world pack (normalize_normal done zero.ge).1
      rw [← given, ← checkPermissions_ok world _ state]
      cases answer : checkPermissions world { pack with manifest := normalized.2 } state with
      | ok after => exact ⟨⟨after, rfl⟩, le_rfl, by simp⟩
      | error crashed =>
        rintro ⟨after, done⟩
        cases done

/-- A manifest is checked, normalized and its permissions are checked without the use of a
null as a string, exactly when it is safe. -/
theorem checkThrough_returns (distinctVersions : Bool) (pack : Package) (state : State Closure) :
    (∃ rc, checkThrough world distinctVersions pack state = .ok rc ∧ rc ≤ 0) ↔ NullSafe world.serialize pack.manifest :=
  (checkThrough_judged world distinctVersions pack state).returns

def unidentified : Json := .object [
  (MANIFEST_RP_MANIFEST, .string (ascii "1")),
  (MANIFEST_ID, .null),
  (MANIFEST_VERSION, .string (ascii "1.0")),
  (MANIFEST_TARGETS, .array [])]

theorem checkThrough_unidentified : ¬∃ rc, checkThrough (plainWorld unidentified) false
    ⟨(filesOf []).root, 0, 1, unidentified⟩ (startState () [slash, 0]) = .ok rc ∧ rc ≤ 0 := by
  rintro ⟨rc, done, -⟩
  cases done

end
end AppManager.Install.Manifest
