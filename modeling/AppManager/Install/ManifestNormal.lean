import AppManager.Install.ManifestForms

/-! What the normalization of a manifest changes and what it keeps. -/

namespace AppManager.Install.Manifest
open AppManager.Lib AppManager.Lib.Libc AppManager.Utils

section
variable (serialize : Json → Bytes)

/-- The permissions that an object requires have the last form, if it has any, and they
are the same. -/
structure SamePermissions (before after : Json) : Prop where
  absent : before.get MANIFEST_REQUIRED_PERMISSIONS = none → after.get MANIFEST_REQUIRED_PERMISSIONS = none
  present : ∀ input, before.get MANIFEST_REQUIRED_PERMISSIONS = some input → ∃ out,
    after.get MANIFEST_REQUIRED_PERMISSIONS = some out ∧ Canonical serialize out ∧
      denote serialize out = denote serialize input

/-- A target gets the member that tells its name, when it has it not. -/
structure NormalizedTarget (before after : Json) : Prop where
  permissions : SamePermissions serialize before after
  sharp : after.get MANIFEST_SHARP_TARGET =
    (before.get MANIFEST_SHARP_TARGET).or (before.get MANIFEST_TARGET)
  others : ∀ key, key ≠ MANIFEST_SHARP_TARGET → key ≠ MANIFEST_REQUIRED_PERMISSIONS → after.get key = before.get key

/-- The identifier and what is derived from it and from the version. -/
def identityKeys : List Bytes := [MANIFEST_ID, MANIFEST_ID_UNDERSCORE, MANIFEST_IDAVER, MANIFEST_VER]

structure Normalized (before after : Json) : Prop where
  permissions : SamePermissions serialize before after
  targets : ∃ items items', before.get MANIFEST_TARGETS = some (.array items) ∧
    after.get MANIFEST_TARGETS = some (.array items') ∧ List.Forall₂ (NormalizedTarget serialize) items items'
  others : ∀ key, key ∉ identityKeys → key ≠ MANIFEST_TARGETS → key ≠ MANIFEST_REQUIRED_PERMISSIONS →
    after.get key = before.get key

/-- The object requires no permission, or its permissions have the last form. -/
structure Tidy (owner : Json) : Prop where
  object : owner.isObject = true
  canonical : ∀ out, owner.get MANIFEST_REQUIRED_PERMISSIONS = some out → Canonical serialize out

structure Adapted (before after : Json) : Prop where
  permissions : SamePermissions serialize before after
  tidy : Tidy serialize after
  others : ∀ key, key ≠ MANIFEST_REQUIRED_PERMISSIONS → after.get key = before.get key

end

section
variable {serialize : Json → Bytes}

theorem adaptPermissionsOf_done {owner after : Json} {rc : Int}
    (done : adaptPermissionsOf serialize owner = .ok (rc, after)) (success : 0 ≤ rc) :
    rc = 0 ∧ Adapted serialize owner after := by
  cases owner with
  | object members =>
    simp only [adaptPermissionsOf] at done
    cases required : (Json.object members).get MANIFEST_REQUIRED_PERMISSIONS with
    | none =>
      simp only [required] at done
      cases done
      refine ⟨rfl, ⟨fun _ => required, fun input given => ?_⟩, ⟨rfl, fun out given => ?_⟩, fun _ _ => rfl⟩
      · rw [required] at given
        cases given
      · rw [required] at given
        cases given
    | some input =>
      simp only [required] at done
      obtain ⟨⟨rc', out⟩, adapted, rest⟩ := bind_ok done
      simp only at rest
      split at rest
      · next fails =>
        cases rest
        exact absurd success (not_le.mpr fails)
      · next fine =>
        cases rest
        obtain ⟨zero, canonical, same⟩ := adaptPermissions_done adapted (not_lt.mp fine)
        have there := Json.get_add_same (.object members) MANIFEST_REQUIRED_PERMISSIONS out rfl
        refine ⟨zero, ⟨fun absent => ?_, fun given' given => ?_⟩, ⟨rfl, fun out' given => ?_⟩, fun key other => ?_⟩
        · rw [required] at absent
          cases absent
        · rw [required] at given
          cases given
          exact ⟨out, there, canonical, same⟩
        · rw [there] at given
          cases given
          exact canonical
        · exact Json.get_add _ _ _ _ other
  | _ =>
    cases done
    exact absurd success (by decide)

theorem Tidy.adaptPermissionsOf {owner : Json} (tidy : Tidy serialize owner) :
    adaptPermissionsOf serialize owner = .ok (0, owner) := by
  cases owner with
  | object members =>
    simp only [Manifest.adaptPermissionsOf]
    cases required : (Json.object members).get MANIFEST_REQUIRED_PERMISSIONS with
    | none => rfl
    | some out =>
      simp only [(tidy.canonical out required).adaptPermissions]
      change Except.ok ((0 : Int), (Json.object members).add MANIFEST_REQUIRED_PERMISSIONS out) = _
      rw [Json.add_of_get required]
  | _ => cases tidy.object

theorem adaptTargets_done {items after : List Json} {rc : Int}
    (done : adaptTargets serialize items = .ok (rc, after)) (success : 0 ≤ rc) :
    rc = 0 ∧ List.Forall₂ (Adapted serialize) items after := by
  induction items generalizing rc after with
  | nil =>
    cases done
    exact ⟨rfl, .nil⟩
  | cons item rest ih =>
    rw [adaptTargets] at done
    obtain ⟨⟨rc', item'⟩, first, others⟩ := bind_ok done
    simp only at others
    split at others
    · next zero =>
      obtain ⟨⟨rc'', rest'⟩, others', same⟩ := bind_ok others
      cases same
      obtain ⟨zero', each⟩ := ih others' success
      exact ⟨zero', .cons (adaptPermissionsOf_done first zero.ge).2 each⟩
    · next stops =>
      cases others
      exact absurd (adaptPermissionsOf_done first success).1 stops

theorem adaptTargets_tidy {items : List Json} (tidy : ∀ item ∈ items, Tidy serialize item) :
    adaptTargets serialize items = .ok (0, items) := by
  induction items with
  | nil => rfl
  | cons item rest ih =>
    rw [adaptTargets, (tidy item List.mem_cons_self).adaptPermissionsOf]
    have others := ih fun other member => tidy other (List.mem_cons_of_mem _ member)
    simp [bind, Except.bind, others]

theorem adaptAllPermissions_done {jso after : Json} {rc : Int}
    (done : adaptAllPermissions serialize jso = .ok (rc, after)) (success : 0 ≤ rc) :
    rc = 0 ∧ ∃ own items items', Adapted serialize jso own ∧ jso.get MANIFEST_TARGETS = some (.array items) ∧
      List.Forall₂ (Adapted serialize) items items' ∧ after = own.add MANIFEST_TARGETS (.array items') := by
  obtain ⟨⟨rc', own⟩, first, rest⟩ := bind_ok done
  simp only at rest
  split at rest
  · next fails =>
    cases rest
    exact absurd success (not_le.mpr fails)
  · next fine =>
    have adapted := (adaptPermissionsOf_done first (not_lt.mp fine)).2
    split at rest
    · next items found =>
      obtain ⟨⟨rc'', items'⟩, targets, same⟩ := bind_ok rest
      cases same
      obtain ⟨zero, each⟩ := adaptTargets_done targets success
      rw [adapted.others _ (by decide)] at found
      exact ⟨zero, own, items, items', adapted, found, each, rfl⟩
    · cases rest
      exact absurd success (by decide)

theorem retarget_done {item : Json} (done : (retarget item).1 = 0) : item.isObject = true ∧
    (retarget item).2.isObject = true ∧ ((retarget item).2.get MANIFEST_SHARP_TARGET).isSome = true ∧
    (retarget item).2.get MANIFEST_SHARP_TARGET = (item.get MANIFEST_SHARP_TARGET).or (item.get MANIFEST_TARGET) ∧
    ∀ key, key ≠ MANIFEST_SHARP_TARGET → (retarget item).2.get key = item.get key := by
  unfold retarget at done ⊢
  by_cases object : item.isObject = true
  · rw [if_pos object] at done ⊢
    cases sharp : item.get MANIFEST_SHARP_TARGET with
    | some targ => simp [sharp, object]
    | none =>
      cases target : item.get MANIFEST_TARGET with
      | none =>
        simp only [sharp, target] at done
        exact absurd done (by decide : (-EINVAL : Int) ≠ 0)
      | some targ =>
        have there := Json.get_add_same item MANIFEST_SHARP_TARGET targ object
        refine ⟨object, (Json.isObject_add _ _ _).trans object, ?_, there, fun key other => ?_⟩
        · exact Option.isSome_of_eq_some there
        · exact Json.get_add item _ key targ other
  · rw [if_neg object] at done
    exact absurd done (by decide : (-EINVAL : Int) ≠ 0)

theorem retarget_of_sharp {item : Json} (object : item.isObject = true)
    (sharp : (item.get MANIFEST_SHARP_TARGET).isSome = true) : retarget item = (0, item) := by
  obtain ⟨targ, found⟩ := Option.isSome_iff_exists.mp sharp
  rw [retarget, if_pos object, found]

theorem retargets_done {jso : Json} (success : 0 ≤ (retargets jso).1) :
    ∃ items, jso.get MANIFEST_TARGETS = some (.array items) ∧ (∀ item ∈ items, (retarget item).1 = 0) ∧
      (retargets jso).2 = jso.add MANIFEST_TARGETS (.array (items.map fun item => (retarget item).2)) := by
  have fails : ¬(0 : Int) ≤ -EINVAL := by decide
  unfold retargets at success ⊢
  split at success
  · next items found =>
    rw [found]
    split at success
    · next all =>
      refine ⟨items, rfl, fun item there => ?_, ?_⟩
      · exact of_decide_eq_true (List.all_eq_true.mp all _ (List.mem_map_of_mem there))
      · rw [List.map_map]
        rfl
    · exact absurd success fails
  · exact absurd success fails

theorem retargets_of_sharp {jso : Json} {items : List Json} (found : jso.get MANIFEST_TARGETS = some (.array items))
    (sharp : ∀ item ∈ items, retarget item = (0, item)) : retargets jso = (0, jso) := by
  have same : items.map retarget = items.map fun item => (0, item) := List.map_congr_left sharp
  simp only [retargets, found, same, List.map_map, Function.comp_def, List.map_id', Json.add_of_get found]
  simp

/-- The identifier is in lower case and the members derived from it and from the version
are there. -/
structure Fulfilled (serialize : Json → Bytes) (distinctVersions : Bool) (jso : Json) : Prop where
  derived : ∃ low version ver, cstr low = low ∧ makeLowercase low = low ∧
    jso.get MANIFEST_VERSION = some version ∧ mkver (version.getString serialize) = some ver ∧
    jso.get MANIFEST_ID = some (.string low) ∧
    jso.get MANIFEST_ID_UNDERSCORE = some (.string (dashToUnderscore low)) ∧
    jso.get MANIFEST_IDAVER = some (.string (mkidaver distinctVersions low ver)) ∧
    jso.get MANIFEST_VER = some (.string ver)

theorem Fulfilled.fulfill {distinctVersions : Bool} {jso : Json}
    (fulfilled : Fulfilled serialize distinctVersions jso) :
    fulfill serialize distinctVersions jso = .ok (0, jso) := by
  obtain ⟨low, version, ver, clean, lower, given, made, id, underscore, idaver, short⟩ := fulfilled.derived
  have used : useString serialize (.string low) = .ok low := congrArg Except.ok clean
  simp only [Manifest.fulfill, id, given, used, bind, Except.bind, lower, made, add]
  rw [Json.add_of_get id, Json.add_of_get underscore, Json.add_of_get idaver, Json.add_of_get short]

theorem Fulfilled.congr {distinctVersions : Bool} {jso after : Json}
    (fulfilled : Fulfilled serialize distinctVersions jso)
    (same : ∀ key, key ≠ MANIFEST_TARGETS → key ≠ MANIFEST_REQUIRED_PERMISSIONS → after.get key = jso.get key) :
    Fulfilled serialize distinctVersions after := by
  obtain ⟨low, version, ver, clean, lower, given, made, id, underscore, idaver, short⟩ := fulfilled.derived
  refine ⟨low, version, ver, clean, lower, ?_, made, ?_, ?_, ?_, ?_⟩
  · rw [same _ (by decide) (by decide), given]
  · rw [same _ (by decide) (by decide), id]
  · rw [same _ (by decide) (by decide), underscore]
  · rw [same _ (by decide) (by decide), idaver]
  · rw [same _ (by decide) (by decide), short]

theorem toLower_ne_zero {byte : Byte} (other : byte ≠ 0) : toLower byte ≠ 0 := by
  unfold toLower
  split
  · next upper =>
    simp only [UInt8.le_iff_toNat_le, ne_eq, ← UInt8.toNat_inj, UInt8.toNat_add, UInt8.reduceToNat] at upper ⊢
    omega
  · exact other

theorem makeLowercase_makeLowercase (text : Bytes) : makeLowercase (makeLowercase text) = makeLowercase text := by
  rw [makeLowercase, makeLowercase, List.map_map]
  exact List.map_congr_left fun byte _ => toLower_toLower byte

theorem cstr_makeLowercase (text : Bytes) : cstr (makeLowercase (cstr text)) = makeLowercase (cstr text) := by
  apply cstr_of_no_nul
  intro zero
  obtain ⟨byte, there, same⟩ := List.mem_map.mp zero
  refine toLower_ne_zero ?_ same
  rintro rfl
  exact cstr_clean text there

theorem useString_clean {json : Json} {text : Bytes} (used : useString serialize json = .ok text) :
    cstr text = text := by
  cases json with
  | null => cases used
  | _ =>
    cases used
    exact cstr_of_no_nul _ (cstr_clean _)

theorem fulfill_done {distinctVersions : Bool} {jso after : Json} {rc : Int}
    (done : fulfill serialize distinctVersions jso = .ok (rc, after)) (success : 0 ≤ rc) :
    rc = 0 ∧ Fulfilled serialize distinctVersions after ∧ ∀ key, key ∉ identityKeys → after.get key = jso.get key := by
  unfold fulfill at done
  cases id : jso.get MANIFEST_ID with
  | none =>
    rw [id] at done
    cases done
    exact absurd success (by decide)
  | some jid =>
    cases given : jso.get MANIFEST_VERSION with
    | none =>
      rw [id, given] at done
      cases done
      exact absurd success (by decide)
    | some version =>
      rw [id, given] at done
      obtain ⟨text, used, rest⟩ := bind_ok done
      cases made : mkver (version.getString serialize) with
      | none =>
        simp only [made] at rest
        cases rest
        exact absurd success (by decide)
      | some ver =>
        simp only [made, add] at rest
        cases rest
        have clean : cstr (makeLowercase text) = makeLowercase text := by
          rw [← useString_clean used]
          exact cstr_makeLowercase text
        have object := Json.isObject_of_get id
        have lower := makeLowercase_makeLowercase text
        refine ⟨rfl, ⟨makeLowercase text, version, ver, clean, lower, ?_, made, ?_, ?_, ?_, ?_⟩,
          fun key other => ?_⟩
        · rw [Json.get_add _ _ _ _ (by decide), Json.get_add _ _ _ _ (by decide), Json.get_add _ _ _ _ (by decide),
            Json.get_add _ _ _ _ (by decide), given]
        · rw [Json.get_add _ _ _ _ (by decide), Json.get_add _ _ _ _ (by decide), Json.get_add _ _ _ _ (by decide),
            Json.get_add_same _ _ _ object]
        · rw [Json.get_add _ _ _ _ (by decide), Json.get_add _ _ _ _ (by decide),
            Json.get_add_same _ _ _ (by simpa only [Json.isObject_add] using object)]
        · rw [Json.get_add _ _ _ _ (by decide),
            Json.get_add_same _ _ _ (by simpa only [Json.isObject_add] using object)]
        · rw [Json.get_add_same _ _ _ (by simpa only [Json.isObject_add] using object)]
        · simp only [identityKeys, List.mem_cons, List.not_mem_nil, or_false, not_or] at other
          rw [Json.get_add _ _ _ _ other.2.2.2, Json.get_add _ _ _ _ other.2.2.1, Json.get_add _ _ _ _ other.2.1,
            Json.get_add _ _ _ _ other.1]

/-- The manifests that are left as they are. -/
structure Normal (serialize : Json → Bytes) (distinctVersions : Bool) (jso : Json) : Prop where
  fulfilled : Fulfilled serialize distinctVersions jso
  tidy : Tidy serialize jso
  targets : ∃ items, jso.get MANIFEST_TARGETS = some (.array items) ∧
    ∀ item ∈ items, Tidy serialize item ∧ (item.get MANIFEST_SHARP_TARGET).isSome = true

theorem Normal.normalize {distinctVersions : Bool} {jso : Json} (normal : Normal serialize distinctVersions jso) :
    normalize serialize distinctVersions jso = .ok (0, jso) := by
  obtain ⟨items, found, each⟩ := normal.targets
  have retargeted : retargets jso = (0, jso) :=
    retargets_of_sharp found fun item there => retarget_of_sharp (each item there).1.object (each item there).2
  have targets := adaptTargets_tidy fun item there => (each item there).1
  simp [Manifest.normalize, normal.fulfilled.fulfill, retargeted, adaptAllPermissions, normal.tidy.adaptPermissionsOf,
    found, targets, Json.add_of_get found, bind, Except.bind]

theorem SamePermissions.congr {before before' after after' : Json} (same : SamePermissions serialize before after)
    (given : before'.get MANIFEST_REQUIRED_PERMISSIONS = before.get MANIFEST_REQUIRED_PERMISSIONS)
    (left : after'.get MANIFEST_REQUIRED_PERMISSIONS = after.get MANIFEST_REQUIRED_PERMISSIONS) :
    SamePermissions serialize before' after' := by
  refine ⟨?_, ?_⟩
  · rw [given, left]
    exact same.absent
  · rw [given, left]
    exact same.present

theorem normalizedTarget {item after : Json} (done : (retarget item).1 = 0)
    (adapted : Adapted serialize (retarget item).2 after) :
    NormalizedTarget serialize item after ∧ Tidy serialize after ∧ (after.get MANIFEST_SHARP_TARGET).isSome = true := by
  obtain ⟨-, -, isSome, sharp, others⟩ := retarget_done done
  have kept := adapted.others MANIFEST_SHARP_TARGET (by decide)
  refine ⟨⟨?_, kept.trans sharp, fun key notSharp notPermissions => ?_⟩, adapted.tidy, kept ▸ isSome⟩
  · exact adapted.permissions.congr (others _ (by decide)).symm rfl
  · rw [adapted.others key notPermissions, others key notSharp]

theorem normalizedTargets {items after : List Json} (done : ∀ item ∈ items, (retarget item).1 = 0)
    (adapted : List.Forall₂ (Adapted serialize) (items.map fun item => (retarget item).2) after) :
    List.Forall₂ (NormalizedTarget serialize) items after ∧
      ∀ item ∈ after, Tidy serialize item ∧ (item.get MANIFEST_SHARP_TARGET).isSome = true := by
  induction items generalizing after with
  | nil =>
    cases adapted
    exact ⟨.nil, fun item there => by cases there⟩
  | cons item rest ih =>
    cases adapted with
    | cons first others =>
      obtain ⟨target, tidy⟩ := normalizedTarget (done item List.mem_cons_self) first
      obtain ⟨targets, each⟩ := ih (fun other there => done other (List.mem_cons_of_mem _ there)) others
      exact ⟨.cons target targets, List.forall_mem_cons.mpr ⟨tidy, each⟩⟩

theorem normalize_normal {distinctVersions : Bool} {manifest result : Json} {rc : Int}
    (done : normalize serialize distinctVersions manifest = .ok (rc, result)) (success : 0 ≤ rc) :
    Normalized serialize manifest result ∧ Normal serialize distinctVersions result := by
  obtain ⟨⟨rc', filled⟩, first, rest⟩ := bind_ok done
  simp only at rest
  split at rest
  · next fails =>
    cases rest
    exact absurd success (not_le.mpr fails)
  next fine =>
  obtain ⟨-, fulfilled, kept⟩ := fulfill_done first (not_lt.mp fine)
  split at rest
  · next fails =>
    rw [Except.ok.inj rest] at fails
    exact absurd success (not_le.mpr fails)
  next fine' =>
  obtain ⟨items, found, accepted, same⟩ := retargets_done (not_lt.mp fine')
  obtain ⟨-, own, given, items', adapted, found', each, rfl⟩ := adaptAllPermissions_done rest success
  rw [same, Json.get_add_same _ _ _ (Json.isObject_of_get found)] at found'
  cases found'
  obtain ⟨targets, tidy⟩ := normalizedTargets accepted each
  have there := Json.get_add_same own MANIFEST_TARGETS (.array items') adapted.tidy.object
  -- The steps change the identity, the targets and the permissions one after the other.
  have others : ∀ key, key ≠ MANIFEST_TARGETS → key ≠ MANIFEST_REQUIRED_PERMISSIONS →
      (own.add MANIFEST_TARGETS (.array items')).get key = filled.get key := by
    intro key notTargets notPermissions
    rw [Json.get_add _ _ _ _ notTargets, adapted.others key notPermissions, same, Json.get_add _ _ _ _ notTargets]
  have permissions := Json.get_add own MANIFEST_TARGETS MANIFEST_REQUIRED_PERMISSIONS (.array items') (by decide)
  refine ⟨⟨?_, ⟨items, items', ?_, there, targets⟩, fun key notIdentity notTargets notPermissions => ?_⟩,
    ⟨fulfilled.congr others, ⟨?_, fun out required => ?_⟩, ⟨items', there, tidy⟩⟩⟩
  · refine adapted.permissions.congr ?_ permissions
    rw [same, Json.get_add _ _ _ _ (by decide), kept _ (by decide)]
  · rw [← kept _ (by decide), found]
  · rw [others key notTargets notPermissions, kept key notIdentity]
  · rw [Json.isObject_add]
    exact adapted.tidy.object
  · rw [permissions] at required
    exact adapted.tidy.canonical out required

/-- Normalizing a manifest keeps what it says and gives a manifest that is normal. -/
theorem normalize_once {distinctVersions : Bool} {manifest result : Json} {rc : Int}
    (done : normalize serialize distinctVersions manifest = .ok (rc, result)) (success : 0 ≤ rc) :
    Normalized serialize manifest result ∧ normalize serialize distinctVersions result = .ok (0, result) :=
  ⟨(normalize_normal done success).1, (normalize_normal done success).2.normalize⟩

/-- Permissions in all their forms, with one that is declared twice. -/
def formsManifest : Json :=
  let text := fun content => Json.string (ascii content)
  let target := fun permissions => Json.object [
    (MANIFEST_TARGET, text "main"),
    (MANIFEST_REQUIRED_PERMISSIONS, permissions)]
  .object [
    (MANIFEST_ID, text "My-App"),
    (MANIFEST_VERSION, text "1.2.3"),
    (MANIFEST_REQUIRED_PERMISSIONS, .array [text "p:a", permission (text "p:a") (text "optional")]),
    (MANIFEST_TARGETS, .array [
      target (text "p:b"),
      target (.object [(ascii "p:c", text "optional"), (ascii "p:d", permission (text "p:d") (text "required"))])])]

theorem normalize_once_forms : ∃ result, Normalized (fun _ => []) formsManifest result ∧
    normalize (fun _ => []) false result = .ok (0, result) :=
  ⟨_, normalize_once (rfl : normalize (fun _ => []) false formsManifest = .ok (0, _)) le_rfl⟩

end
end AppManager.Install.Manifest
