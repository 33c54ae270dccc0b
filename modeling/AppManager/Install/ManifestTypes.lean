import AppManager.Install.FileProperties
import AppManager.Lib.Outcome
import Mathlib.Data.List.Induction

/-! The types that a manifest gives to the entries of its package: by its plugs, then by
its bindings, then by its file properties, then by its executable targets. -/

namespace AppManager.Install
open AppManager.Lib AppManager.Lib.Libc AppManager.Utils

variable {Closure : Type} (world : World) (pack : Package)

def namedRef (key : Bytes) (item : Json) : Option Ref :=
  (item.get key).bind fun name =>
    (pathEntryGet pack.packdir (name.getString world.serialize)).map PathEntry.ref

def propertyOf (item : Json) : Option (Ref × PathType) :=
  (namedRef world pack (ascii "name") item).bind fun ref =>
    ((item.get (ascii "value")).bind (Json.getString world.serialize)).map fun strval =>
      (ref, pathTypeOfPropertyKey strval)

/-- The entry of a target whose content is executable. -/
def executableRef (target : Json) : Option Ref :=
  (target.get (ascii "content")).bind fun content =>
    if ((content.get (ascii "type")).bind (Json.getString world.serialize)).any mimeTypeIsExecutable then
      namedRef world pack (ascii "src") content
    else none

def pluggedRefs : List Ref :=
  (pack.manifest.itemsAt MANIFEST_PLUGS).filterMap (namedRef world pack (ascii "name"))

def boundRefs : List Ref :=
  (pack.manifest.itemsAt MANIFEST_PROVIDED_BINDING).filterMap (namedRef world pack (ascii "value"))

def properties : List (Ref × PathType) :=
  (pack.manifest.itemsAt MANIFEST_FILE_PROPERTIES).filterMap (propertyOf world pack)

def executableRefs : List Ref := pack.targets.filterMap (executableRef world pack)

def propertyType (properties : List (Ref × PathType)) (ref : Ref) : PathType :=
  ((properties.find? fun property => property.1 = ref).map Prod.snd).getD .Unset

def orElse (first second : PathType) : PathType := if first = .Unset then second else first

theorem orElse_unset (type : PathType) : orElse type .Unset = type := by
  unfold orElse
  split
  · next unset => exact unset.symm
  · rfl

theorem orElse_assoc (first second third : PathType) :
    orElse (orElse first second) third = orElse first (orElse second third) := by
  unfold orElse
  by_cases unset : first = .Unset
  · simp [unset]
  · simp [unset]

/-- The type that the manifest gives to an entry. The package directory has its own. -/
def manifestType (ref : Ref) : PathType :=
  if ref ∈ boundRefs world pack then .Public_Lib
  else if ref ∈ pluggedRefs world pack then .Plug
  else if ref = pack.packdir.ref then .Id
  else orElse (propertyType (properties world pack) ref)
    (if ref ∈ executableRefs world pack then .Exec else .Unset)

def Fails (state state' : State Closure) : Prop := ∃ rc, rc < 0 ∧ state' = state.put rc

theorem put_negative {state : State Closure} {rc : Int} (negative : rc < 0) : (state.put rc).rc < 0 := by
  unfold State.put
  split
  · exact negative
  · next kept =>
    rw [not_and, not_le] at kept
    exact kept negative

def Retyped (state state' : State Closure) : Prop := state' = { state with types := state'.types }

theorem Retyped.trans {state state' state'' : State Closure} (first : Retyped state state')
    (second : Retyped state' state'') : Retyped state state'' := by
  unfold Retyped at *
  rw [second, first]

theorem Retyped.rc {state state' : State Closure} (retyped : Retyped state state') : state'.rc = state.rc := by
  rw [retyped]

theorem Retyped.path {state state' : State Closure} (retyped : Retyped state state') :
    state'.path = state.path := by
  rw [retyped]

theorem foldlM_fine {Item : Type} {step : State Closure → Item → Run Closure (State Closure)}
    (next : State Closure → Item → State Closure → Prop) (items : List Item)
    (cases : ∀ state item state', step state item = .ok state' →
      Fails state state' ∨ (Retyped state state' ∧ next state item state'))
    (inv : List Item → State Closure → Prop)
    (each : ∀ done item state state', inv done state → next state item state' → inv (done ++ [item]) state')
    {state state' : State Closure} (start : inv [] state) (done : items.foldlM step state = .ok state')
    (fine : 0 ≤ state'.rc) : inv items state' ∧ Retyped state state' := by
  induction items using List.reverseRecOn generalizing state' with
  | nil =>
    have same : state = state' := Except.ok.inj done
    rw [← same]
    exact ⟨start, rfl⟩
  | append_singleton items item ih =>
    rw [List.foldlM_append] at done
    cases before : items.foldlM step state with
    | error crashed =>
      rw [before] at done
      cases done
    | ok middle =>
      rw [before] at done
      have last : step middle item = .ok state' := by
        change (step middle item >>= pure) = .ok state' at done
        rwa [bind_pure] at done
      rcases cases middle item state' last with ⟨rc, negative, put⟩ | ⟨kept, moved⟩
      · have bad : (middle.put rc).rc < 0 := put_negative negative
        rw [put] at fine
        omega
      · obtain ⟨earlier, same⟩ := ih before (by rw [← kept.rc]; exact fine)
        exact ⟨each items item middle state' earlier moved, same.trans kept⟩

theorem setType_type (state : State Closure) (entry ref : Ref) (type : PathType) :
    getEntryType (state.setType entry type).types ref =
      if ref = entry then type else getEntryType state.types ref := getEntryType_set _ _ _ _

theorem computeNamedProperty_cases (key : Bytes) (type : PathType) (state : State Closure) (item : Json) :
    Fails state (computeNamedProperty world pack key type state item) ∨
      ∃ ref, namedRef world pack key item = some ref ∧
        computeNamedProperty world pack key type state item = state.setType ref type := by
  unfold computeNamedProperty namedRef
  cases item.get key with
  | none => exact Or.inl ⟨_, by decide, rfl⟩
  | some name =>
    simp only [Option.bind_some]
    cases pathEntryGet pack.packdir (name.getString world.serialize) with
    | none => exact Or.inl ⟨_, by decide, rfl⟩
    | some entry => exact Or.inr ⟨entry.ref, rfl, rfl⟩

theorem computeNamedProperty_types (key : Bytes) (type : PathType) (items : List Json) (state : State Closure)
    (fine : 0 ≤ (items.foldl (computeNamedProperty world pack key type) state).rc) :
    Retyped state (items.foldl (computeNamedProperty world pack key type) state) ∧
    ∀ ref, getEntryType (items.foldl (computeNamedProperty world pack key type) state).types ref =
      if ref ∈ items.filterMap (namedRef world pack key) then type else getEntryType state.types ref := by
  have done : items.foldlM (fun state item => (.ok (computeNamedProperty world pack key type state item) :
      Run Closure (State Closure))) state = .ok (items.foldl (computeNamedProperty world pack key type) state) :=
    List.foldlM_pure
  have cases : ∀ (state : State Closure) (item : Json) (state' : State Closure),
      (.ok (computeNamedProperty world pack key type state item) : Run Closure (State Closure)) = .ok state' →
      Fails state state' ∨ (Retyped state state' ∧
        ∃ ref, namedRef world pack key item = some ref ∧ state' = state.setType ref type) := by
    intro state item state' made
    rw [← Except.ok.inj made]
    rcases computeNamedProperty_cases world pack key type state item with fails | ⟨ref, named, set⟩
    · exact Or.inl fails
    · rw [set]
      exact Or.inr ⟨rfl, ref, named, rfl⟩
  obtain ⟨types, same⟩ := foldlM_fine _ items cases
    (fun done state' => ∀ ref, getEntryType state'.types ref =
      if ref ∈ done.filterMap (namedRef world pack key) then type else getEntryType state.types ref)
    (by
      rintro done item state' state'' before ⟨ref, named, moved⟩ other
      rw [moved, setType_type, before, List.filterMap_append]
      by_cases same : other = ref
      · simp [same, named]
      · simp [same, named])
    (by simp) done fine
  exact ⟨same, types⟩

theorem computeExplicitFilePropertiesCb_cases (state : State Closure) (item : Json) (state' : State Closure)
    (made : computeExplicitFilePropertiesCb world pack state item = .ok state') :
    Fails state state' ∨ (Retyped state state' ∧ ∃ ref type, propertyOf world pack item = some (ref, type) ∧
      type ≠ .Unset ∧ (getEntryType state.types ref = .Unset ∨ getEntryType state.types ref = type) ∧
      ∀ other, getEntryType state'.types other =
        if other = ref then type else getEntryType state.types other) := by
  unfold computeExplicitFilePropertiesCb at made
  unfold propertyOf namedRef
  split at made
  · next name value named valued =>
    rw [named, valued, Option.bind_some, Option.bind_some]
    split at made
    · exact Or.inl ⟨_, by decide, (Except.ok.inj made).symm⟩
    · next entry found =>
      rw [found]
      split at made
      · cases made
      · next strval given =>
        rw [given]
        simp only at made
        split at made
        · exact Or.inl ⟨_, by decide, (Except.ok.inj made).symm⟩
        · next known =>
          split at made
          · next unset =>
            refine Or.inr ⟨by rw [← Except.ok.inj made]; rfl, entry.ref, _, rfl, known, Or.inl unset, ?_⟩
            intro other
            rw [← Except.ok.inj made, setType_type]
          · split at made
            · exact Or.inl ⟨_, by decide, (Except.ok.inj made).symm⟩
            · next agrees =>
              have equal := not_not.mp agrees
              refine Or.inr ⟨by rw [← Except.ok.inj made]; rfl, entry.ref, _, rfl, known, Or.inr equal, ?_⟩
              intro other
              rw [← Except.ok.inj made]
              by_cases same : other = entry.ref
              · rw [if_pos same, same, equal]
              · rw [if_neg same]
  · exact Or.inl ⟨_, by decide, (Except.ok.inj made).symm⟩

theorem propertyType_append (properties : List (Ref × PathType)) (property : Ref × PathType) (ref : Ref) :
    propertyType (properties ++ [property]) ref =
      if (properties.find? fun known => known.1 = ref).isSome then propertyType properties ref
      else if property.1 = ref then property.2 else .Unset := by
  unfold propertyType
  rw [List.find?_append]
  cases properties.find? fun known => decide (known.1 = ref) with
  | none =>
    by_cases here : property.1 = ref
    · simp [here]
    · simp [here]
  | some known => simp

theorem extended_type (properties : List (Ref × PathType)) (ref : Ref) (type : PathType)
    (set : ∀ property ∈ properties, property.2 ≠ .Unset) {start : Ref → PathType}
    (agrees : orElse (start ref) (propertyType properties ref) = .Unset ∨
      orElse (start ref) (propertyType properties ref) = type) (other : Ref) {own : PathType}
    (before : own = orElse (start other) (propertyType properties other)) :
    (if other = ref then type else own) = orElse (start other)
      (if (properties.find? fun known => known.1 = other).isSome then propertyType properties other
      else if ref = other then type else .Unset) := by
  cases found : properties.find? fun known => decide (known.1 = other) with
  | none =>
    have none : propertyType properties other = .Unset := by rw [propertyType, found]; rfl
    by_cases same : other = ref
    · rw [← same, none] at agrees
      rw [if_pos same, if_pos same.symm]
      unfold orElse at agrees ⊢
      by_cases unset : start other = .Unset
      · simp [unset]
      · simpa [unset, eq_comm] using agrees
    · rw [if_neg same, if_neg (Ne.symm same), before, none]
      rfl
  | some property =>
    have given : propertyType properties other = property.2 := by rw [propertyType, found]; rfl
    have known := set property (List.mem_of_find?_eq_some found)
    rw [Option.isSome_some, if_pos rfl]
    by_cases same : other = ref
    · rw [← same] at agrees
      rw [if_pos same]
      rcases agrees with unset | equal
      · unfold orElse at unset
        split at unset
        · rw [given] at unset
          exact absurd unset known
        · next set' => exact absurd unset set'
      · exact equal.symm
    · rw [if_neg same, before]

theorem computeExplicit_types (items : List Json) (state state' : State Closure)
    (done : items.foldlM (computeExplicitFilePropertiesCb world pack) state = .ok state') (fine : 0 ≤ state'.rc) :
    Retyped state state' ∧ ∀ ref, getEntryType state'.types ref =
      orElse (getEntryType state.types ref) (propertyType (items.filterMap (propertyOf world pack)) ref) := by
  obtain ⟨⟨-, types⟩, same⟩ := foldlM_fine _ items (computeExplicitFilePropertiesCb_cases world pack)
    (fun done state' => (∀ property ∈ done.filterMap (propertyOf world pack), property.2 ≠ .Unset) ∧
      ∀ ref, getEntryType state'.types ref = orElse (getEntryType state.types ref)
        (propertyType (done.filterMap (propertyOf world pack)) ref))
    (by
      rintro done item state' state'' ⟨set, before⟩ ⟨ref, type, property, known, agrees, moved⟩
      have more : (done ++ [item]).filterMap (propertyOf world pack) =
          done.filterMap (propertyOf world pack) ++ [(ref, type)] := by
        rw [List.filterMap_append, List.filterMap_cons, property, List.filterMap_nil]
      rw [more]
      refine ⟨?_, fun other => ?_⟩
      · intro given member
        rcases List.mem_append.mp member with early | last
        · exact set given early
        · rw [List.mem_singleton.mp last]
          exact known
      · rw [moved, propertyType_append]
        rw [before] at agrees
        exact extended_type _ ref type set agrees other (before other))
    ⟨by simp, by simp [propertyType, orElse]⟩ done fine
  exact ⟨same, types⟩

theorem computeTargetFilePropertiesCb_cases (state : State Closure) (item : Json) (state' : State Closure)
    (made : computeTargetFilePropertiesCb world pack state item = .ok state') :
    Fails state state' ∨ (Retyped state state' ∧ ∀ other, getEntryType state'.types other =
      orElse (getEntryType state.types other)
        (if executableRef world pack item = some other then .Exec else .Unset)) := by
  have unchanged : ∀ ref : Option Ref, (∀ known, ref = some known → getEntryType state.types known ≠ .Unset) →
      ∀ other, getEntryType state.types other =
        orElse (getEntryType state.types other) (if ref = some other then .Exec else .Unset) := by
    intro ref set other
    by_cases here : ref = some other
    · rw [orElse, if_neg (set other here)]
    · rw [if_neg here, orElse_unset]
  unfold computeTargetFilePropertiesCb at made
  unfold executableRef namedRef
  cases located : item.get (ascii "content") with
  | none =>
    rw [located] at made
    rw [← Except.ok.inj made]
    exact Or.inr ⟨rfl, unchanged _ (by simp)⟩
  | some content =>
    simp only [located] at made
    rw [Option.bind_some]
    split at made
    · next src type sourced typed =>
      rw [sourced, typed, Option.bind_some, Option.bind_some]
      split at made
      · exact Or.inl ⟨_, by decide, (Except.ok.inj made).symm⟩
      · next entry found =>
        rw [found]
        split at made
        · next unset =>
          split at made
          · cases made
          · next mime given =>
            rw [given, Option.any_some]
            split at made
            · next executable =>
              rw [← Except.ok.inj made, if_pos executable]
              refine Or.inr ⟨rfl, fun other => ?_⟩
              rw [setType_type]
              by_cases same : other = entry.ref
              · simp [same, orElse, unset]
              · simp [same, orElse_unset, Ne.symm same]
            · next plain =>
              rw [← Except.ok.inj made, if_neg plain]
              exact Or.inr ⟨rfl, unchanged _ (by simp)⟩
        · next set =>
          rw [← Except.ok.inj made]
          refine Or.inr ⟨rfl, unchanged _ ?_⟩
          intro known same
          split at same
          · rw [← Option.some.inj same]
            exact set
          · cases same
    · next missing =>
      rw [← Except.ok.inj made]
      refine Or.inr ⟨rfl, unchanged _ ?_⟩
      intro known same
      split at same
      · next executable =>
        cases typed : content.get (ascii "type") with
        | none => simp [typed] at executable
        | some type =>
          cases sourced : content.get (ascii "src") with
          | none => simp [sourced] at same
          | some src => exact absurd typed (missing src type sourced)
      · cases same

theorem computeTarget_types (items : List Json) (state state' : State Closure)
    (done : items.foldlM (computeTargetFilePropertiesCb world pack) state = .ok state') (fine : 0 ≤ state'.rc) :
    Retyped state state' ∧ ∀ ref, getEntryType state'.types ref = orElse (getEntryType state.types ref)
      (if ref ∈ items.filterMap (executableRef world pack) then .Exec else .Unset) := by
  obtain ⟨types, same⟩ := foldlM_fine _ items (computeTargetFilePropertiesCb_cases world pack)
    (fun done state' => ∀ ref, getEntryType state'.types ref = orElse (getEntryType state.types ref)
      (if ref ∈ done.filterMap (executableRef world pack) then .Exec else .Unset))
    (by
      intro done item state' state'' before moved ref
      rw [moved, before, orElse_assoc]
      congr 1
      by_cases early : ref ∈ done.filterMap (executableRef world pack)
      · simp [early, orElse]
      · cases own : executableRef world pack item with
        | none => simp [early, orElse, own]
        | some other => simp [early, orElse, own, eq_comm])
    (by simp [orElse_unset]) done fine
  exact ⟨same, types⟩

def manifestStages (state : State Closure) : Run Closure (State Closure) := do
  let state ← whenFine (fun state =>
    .ok ((pack.manifest.itemsAt MANIFEST_PLUGS).foldl (computeImplicitPlugPropertyCb world pack) state)) state
  let state ← whenFine (fun state =>
    .ok ((pack.manifest.itemsAt MANIFEST_PROVIDED_BINDING).foldl
      (computeProvidedBindingPropertyCb world pack) state)) state
  let state ← whenFine (fun state =>
    (pack.manifest.itemsAt MANIFEST_FILE_PROPERTIES).foldlM
      (computeExplicitFilePropertiesCb world pack) state) state
  whenFine (fun state => pack.targets.foldlM (computeTargetFilePropertiesCb world pack) state) state

theorem whenFine_fine {stage : State Closure → Run Closure (State Closure)} {state state' : State Closure}
    (done : whenFine stage state = .ok state') (fine : 0 ≤ state'.rc) :
    0 ≤ state.rc ∧ stage state = .ok state' := by
  unfold whenFine at done
  split at done
  · next start => exact ⟨start, done⟩
  · next negative =>
    rw [← Except.ok.inj done] at fine
    exact absurd fine negative

theorem manifestStages_types (state state' : State Closure)
    (done : manifestStages world pack state = .ok state') (fine : 0 ≤ state'.rc) :
    Retyped state state' ∧ ∀ ref,
      getEntryType state.types ref = (if ref = pack.packdir.ref then .Id else .Unset) →
        getEntryType state'.types ref = manifestType world pack ref := by
  obtain ⟨state₁, plugs, done⟩ := bind_ok done
  obtain ⟨state₂, bindings, done⟩ := bind_ok done
  obtain ⟨state₃, explicits, targets⟩ := bind_ok done
  obtain ⟨fine₃, targets⟩ := whenFine_fine targets fine
  obtain ⟨fine₂, explicits⟩ := whenFine_fine explicits fine₃
  obtain ⟨fine₁, bindings⟩ := whenFine_fine bindings fine₂
  obtain ⟨fine₀, plugs⟩ := whenFine_fine plugs fine₁
  rw [← Except.ok.inj bindings] at fine₂ explicits
  rw [← Except.ok.inj plugs] at fine₁ fine₂ explicits
  obtain ⟨kept₁, types₁⟩ := computeNamedProperty_types world pack _ _ _ state fine₁
  obtain ⟨kept₂, types₂⟩ := computeNamedProperty_types world pack _ _ _ _ fine₂
  obtain ⟨kept₃, types₃⟩ := computeExplicit_types world pack _ _ _ explicits fine₃
  obtain ⟨kept₄, types₄⟩ := computeTarget_types world pack _ _ _ targets fine
  refine ⟨((kept₁.trans kept₂).trans kept₃).trans kept₄, fun ref start => ?_⟩
  have named : getEntryType ((pack.manifest.itemsAt MANIFEST_PROVIDED_BINDING).foldl
      (computeProvidedBindingPropertyCb world pack) ((pack.manifest.itemsAt MANIFEST_PLUGS).foldl
        (computeImplicitPlugPropertyCb world pack) state)).types ref =
      if ref ∈ boundRefs world pack then .Public_Lib
      else if ref ∈ pluggedRefs world pack then .Plug
      else if ref = pack.packdir.ref then .Id else .Unset := by
    have plugged : getEntryType ((pack.manifest.itemsAt MANIFEST_PLUGS).foldl
        (computeImplicitPlugPropertyCb world pack) state).types ref = _ := types₁ ref
    refine (types₂ ref).trans ?_
    rw [plugged, start]
    rfl
  rw [types₄, types₃, named, orElse_assoc, manifestType]
  split
  · rfl
  · split
    · rfl
    · split
      · rfl
      · rfl

end AppManager.Install
