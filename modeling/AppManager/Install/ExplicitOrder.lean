import AppManager.Install.ManifestTypes
import AppManager.Install.Process

/-! The file properties of a manifest are accepted or refused together, whatever their
order, and give the same types. -/

namespace AppManager.Install
open AppManager.Lib AppManager.Lib.Libc AppManager.Utils

variable {Closure : Type} (world : World) (pack : Package)

/-- The items of a list are met by `compute_explicit_file_properties_cb` without an error. -/
def Accepted (items : List Json) (state : State Closure) : Prop :=
  ∃ state', items.foldlM (computeExplicitFilePropertiesCb world pack) state = .ok state' ∧ 0 ≤ state'.rc

/-- Every item names an entry and a known property, and the types requested for one
entry are equal, its previous type included. -/
structure Consistent (items : List Json) (types : Vars VarKey PathType) : Prop where
  named : ∀ item ∈ items, ∃ property, propertyOf world pack item = some property ∧ property.2 ≠ .Unset
  equal : ∀ first ∈ items.filterMap (propertyOf world pack), ∀ second ∈ items.filterMap (propertyOf world pack),
    first.1 = second.1 → first.2 = second.2
  previous : ∀ property ∈ items.filterMap (propertyOf world pack),
    getEntryType types property.1 = .Unset ∨ getEntryType types property.1 = property.2

theorem explicit_agrees (state : State Closure) (item : Json) (property : Ref × PathType)
    (given : propertyOf world pack item = some property) (known : property.2 ≠ .Unset)
    (previous : getEntryType state.types property.1 = .Unset ∨ getEntryType state.types property.1 = property.2) :
    ∃ state', computeExplicitFilePropertiesCb world pack state item = .ok state' ∧ state'.rc = state.rc := by
  unfold propertyOf namedRef at given
  simp only [Option.bind_eq_some_iff, Option.map_eq_some_iff] at given
  obtain ⟨ref, ⟨name, named, entry, found, rfl⟩, strval, ⟨value, valued, text⟩, rfl⟩ := given
  unfold computeExplicitFilePropertiesCb
  rw [named, valued]
  simp only [found, text, if_neg known]
  rcases previous with unset | equal
  · rw [if_pos unset]
    exact ⟨_, rfl, rfl⟩
  · rw [if_neg (by rw [equal]; exact known), if_neg (not_not.mpr equal)]
    exact ⟨_, rfl, rfl⟩

theorem explicit_fine (state state' : State Closure) (item : Json)
    (made : computeExplicitFilePropertiesCb world pack state item = .ok state') (fine : 0 ≤ state'.rc) :
    ∃ property, propertyOf world pack item = some property ∧ property.2 ≠ .Unset ∧
      (getEntryType state.types property.1 = .Unset ∨ getEntryType state.types property.1 = property.2) ∧
      ∀ other, getEntryType state'.types other =
        if other = property.1 then property.2 else getEntryType state.types other := by
  rcases computeExplicitFilePropertiesCb_cases world pack state item state' made with
    ⟨rc, negative, put⟩ | ⟨-, ref, type, given, known, previous, set⟩
  · have bad : (state.put rc).rc < 0 := put_negative negative
    rw [put] at fine
    omega
  · exact ⟨(ref, type), given, known, previous, set⟩

theorem explicit_fails (items : List Json) (state state' : State Closure) (failed : state.rc < 0)
    (done : items.foldlM (computeExplicitFilePropertiesCb world pack) state = .ok state') : state'.rc < 0 := by
  induction items generalizing state with
  | nil => exact Except.ok.inj done ▸ failed
  | cons item rest ih =>
    rw [List.foldlM_cons] at done
    obtain ⟨middle, first, later⟩ := bind_ok done
    refine ih middle ?_ later
    rcases computeExplicitFilePropertiesCb_cases world pack state item middle first with
      ⟨rc, negative, put⟩ | ⟨kept, -⟩
    · rw [put]
      exact put_negative negative
    · rw [kept.rc]
      exact failed

theorem accepted_cons (item : Json) (rest : List Json) (state : State Closure) :
    Accepted world pack (item :: rest) state ↔ ∃ middle,
      computeExplicitFilePropertiesCb world pack state item = .ok middle ∧ 0 ≤ middle.rc ∧
        Accepted world pack rest middle := by
  constructor
  · rintro ⟨state', done, fine⟩
    rw [List.foldlM_cons] at done
    obtain ⟨middle, first, later⟩ := bind_ok done
    refine ⟨middle, first, ?_, state', later, fine⟩
    by_contra failed
    have bad := explicit_fails world pack rest middle state' (by omega) later
    omega
  · rintro ⟨middle, first, -, state', later, fine⟩
    refine ⟨state', ?_, fine⟩
    rw [List.foldlM_cons, first]
    exact later

theorem consistent_cons (item : Json) (rest : List Json) (property : Ref × PathType)
    (given : propertyOf world pack item = some property) (known : property.2 ≠ .Unset)
    (types types' : Vars VarKey PathType)
    (set : ∀ other, getEntryType types' other = if other = property.1 then property.2 else getEntryType types other) :
    Consistent world pack (item :: rest) types ↔
      (getEntryType types property.1 = .Unset ∨ getEntryType types property.1 = property.2) ∧
        Consistent world pack rest types' := by
  have first : (item :: rest).filterMap (propertyOf world pack) =
      property :: rest.filterMap (propertyOf world pack) := by
    rw [List.filterMap_cons, given]
  constructor
  · rintro ⟨named, equal, previous⟩
    rw [first] at equal previous
    refine ⟨previous property List.mem_cons_self, fun other member => named other (List.mem_cons_of_mem item member),
      fun one member two member' => equal one (List.mem_cons_of_mem _ member) two (List.mem_cons_of_mem _ member'), ?_⟩
    intro other member
    rw [set]
    split
    · next same => exact Or.inr (equal property List.mem_cons_self other (List.mem_cons_of_mem _ member) same.symm)
    · exact previous other (List.mem_cons_of_mem _ member)
  · rintro ⟨here, named, equal, previous⟩
    have agreeing : ∀ other ∈ rest.filterMap (propertyOf world pack), other.1 = property.1 → other.2 = property.2 := by
      intro other member same
      have after := previous other member
      rw [set, if_pos same] at after
      exact (after.resolve_left known).symm
    refine ⟨?_, ?_, ?_⟩
    · intro other member
      rcases List.mem_cons.mp member with same | later
      · exact ⟨property, same ▸ given, known⟩
      · exact named other later
    · rw [first]
      intro one member two member' same
      rcases List.mem_cons.mp member with own | early <;> rcases List.mem_cons.mp member' with own' | early'
      · rw [own, own']
      · rw [own] at same ⊢
        exact (agreeing two early' same.symm).symm
      · rw [own'] at same ⊢
        exact agreeing one early same
      · exact equal one early two early' same
    · rw [first]
      intro other member
      rcases List.mem_cons.mp member with own | later
      · exact own ▸ here
      · have after := previous other later
        rw [set] at after
        split at after
        · next same =>
          rw [same, agreeing other later same]
          exact here
        · exact after

theorem accepted_iff (items : List Json) (state : State Closure) (fine : 0 ≤ state.rc) :
    Accepted world pack items state ↔ Consistent world pack items state.types := by
  induction items generalizing state with
  | nil => exact iff_of_true ⟨state, rfl, fine⟩ ⟨by simp, by simp, by simp⟩
  | cons item rest ih =>
    rw [accepted_cons]
    constructor
    · rintro ⟨middle, first, still, later⟩
      obtain ⟨property, given, known, previous, set⟩ := explicit_fine world pack state middle item first still
      exact (consistent_cons world pack item rest property given known _ _ set).mpr
        ⟨previous, (ih middle still).mp later⟩
    · intro consistent
      obtain ⟨property, given, known⟩ := consistent.named item List.mem_cons_self
      have previous := consistent.previous property (by rw [List.filterMap_cons, given]; exact List.mem_cons_self)
      obtain ⟨middle, first, same⟩ := explicit_agrees world pack state item property given known previous
      have still : 0 ≤ middle.rc := same ▸ fine
      obtain ⟨property', given', -, -, set⟩ := explicit_fine world pack state middle item first still
      obtain rfl := Option.some.inj (given.symm.trans given')
      exact ⟨middle, first, still, (ih middle still).mpr
        ((consistent_cons world pack item rest property given known _ _ set).mp consistent).2⟩

theorem consistent_perm {items items' : List Json} (perm : items.Perm items') (types : Vars VarKey PathType)
    (consistent : Consistent world pack items types) : Consistent world pack items' types := by
  have same : ∀ property, property ∈ items'.filterMap (propertyOf world pack) ↔
      property ∈ items.filterMap (propertyOf world pack) :=
    fun property => (perm.filterMap (propertyOf world pack)).symm.mem_iff
  refine ⟨fun item member => consistent.named item (perm.symm.subset member), ?_, ?_⟩
  · simp only [same]
    exact consistent.equal
  · simp only [same]
    exact consistent.previous

theorem propertyType_perm {properties properties' : List (Ref × PathType)} (perm : properties.Perm properties')
    (equal : ∀ first ∈ properties, ∀ second ∈ properties, first.1 = second.1 → first.2 = second.2) (ref : Ref) :
    propertyType properties ref = propertyType properties' ref := by
  have found (given : List (Ref × PathType)) : (∀ property ∈ given, property.1 ≠ ref) ∧ propertyType given ref = .Unset ∨
      ∃ property ∈ given, property.1 = ref ∧ propertyType given ref = property.2 := by
    unfold propertyType
    cases first : given.find? fun property => decide (property.1 = ref) with
    | none =>
      rw [List.find?_eq_none] at first
      exact Or.inl ⟨fun property member same => first property member (decide_eq_true same), rfl⟩
    | some property =>
      exact Or.inr ⟨property, List.mem_of_find?_eq_some first, by simpa using List.find?_some first, rfl⟩
  rcases found properties with ⟨none, unset⟩ | ⟨property, member, here, type⟩ <;>
    rcases found properties' with ⟨none', unset'⟩ | ⟨property', member', here', type'⟩
  · rw [unset, unset']
  · exact absurd here' (none property' (perm.symm.subset member'))
  · exact absurd here (none' property (perm.subset member))
  · rw [type, type', equal property member property' (perm.symm.subset member') (here.trans here'.symm)]

/-- File properties are accepted in every order or in none, and give the same types. -/
theorem explicit_order (items items' : List Json) (perm : items.Perm items') (state : State Closure)
    (fine : 0 ≤ state.rc) :
    (Accepted world pack items state ↔ Accepted world pack items' state) ∧
    (Accepted world pack items state ↔ Consistent world pack items state.types) ∧
    ∀ first second,
      items.foldlM (computeExplicitFilePropertiesCb world pack) state = .ok first → 0 ≤ first.rc →
      items'.foldlM (computeExplicitFilePropertiesCb world pack) state = .ok second → 0 ≤ second.rc →
      ∀ entry, getEntryType first.types entry = getEntryType second.types entry := by
  have iff := accepted_iff world pack items state fine
  have iff' := accepted_iff world pack items' state fine
  refine ⟨?_, iff, ?_⟩
  · rw [iff, iff']
    exact ⟨consistent_perm world pack perm state.types, consistent_perm world pack perm.symm state.types⟩
  · intro first second done fine₁ done' fine₂ entry
    have consistent := iff.mp ⟨first, done, fine₁⟩
    rw [(computeExplicit_types world pack items state first done fine₁).2,
      (computeExplicit_types world pack items' state second done' fine₂).2,
      propertyType_perm (perm.filterMap _) consistent.equal]

def dataFile (name : Bytes) : Json :=
  .object [(ascii "name", .string name), (ascii "value", .string (ascii "data"))]

def smallPackage : Package := ⟨(filesOf [ascii "a"]).root, 0, 0, .object []⟩

theorem smallPackage_accepted : Accepted (plainWorld (.object [])) smallPackage
    [dataFile (ascii "a"), dataFile (ascii "/a")] (startState () []) :=
  ⟨_, rfl, le_refl 0⟩

theorem explicit_order_small : Accepted (plainWorld (.object [])) smallPackage
    [dataFile (ascii "/a"), dataFile (ascii "a")] (startState () []) :=
  (explicit_order (plainWorld (.object [])) smallPackage [dataFile (ascii "a"), dataFile (ascii "/a")] _
    (List.Perm.swap _ _ []) (startState () []) (le_refl 0)).1.mp smallPackage_accepted

end AppManager.Install
