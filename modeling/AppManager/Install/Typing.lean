import AppManager.Install.ManifestTypes
import AppManager.Install.PackagePath
import AppManager.Install.Propagation

/-! The types of the files of a package: those of the manifest, completed from the
directories down to their contents, then propagated from the files up. -/

namespace AppManager.Install
open AppManager.Lib AppManager.Lib.Libc AppManager.Utils

/-- The labels of an entry from the package directory on, nearest first. -/
def Package.within (pack : Package) (entry : PathEntry) : List Label :=
  entry.lineage.take (entry.lineage.length - pack.packdir.lineage.length)

def dirnameType (kind : Except Failure FileKind) (name : Bytes) : PathType :=
  match kind with
  | .ok .directory => pathTypeOfDirname name
  | _ => .Unset

def accepted : Except Failure FileKind → Bool
  | .ok .regular => true
  | .ok .directory => true
  | _ => false

section
variable {Closure : Type} (world : World) (pack : Package) (lead : Bytes)

def kindAt (labels : List Label) : Except Failure FileKind := access world.fstatat (cstr (lead ++ pathOf labels))

/-- The type of an entry before the propagation: that of the manifest, else for a
directory that of its name, else that of its parent. -/
def preType : List Label → PathType
  | [] => manifestType world pack pack.packdir.ref
  | label :: above =>
    orElse (manifestType world pack (pack.packdir.ref ++ ((label :: above).map Label.name).reverse))
      (orElse (dirnameType (kindAt world lead (label :: above)) label.name) (preType above))

theorem orElse_set (first second : PathType) (set : second ≠ .Unset) : orElse first second ≠ .Unset := by
  unfold orElse
  split
  · exact set
  · next known => exact known

theorem preType_set (labels : List Label) : preType world pack lead labels ≠ .Unset := by
  induction labels with
  | nil =>
    rw [preType, manifestType]
    split
    · decide
    · split
      · decide
      · rw [if_pos rfl]
        decide
  | cons label above ih => exact orElse_set _ _ (orElse_set _ _ ih)

theorem within_child (parent : PathEntry) (label : Label) (children : Entry)
    (deep : pack.packdir.lineage.length ≤ parent.lineage.length) :
    pack.within (parent.child label children) = label :: pack.within parent := by
  have lineage : (parent.child label children).lineage = label :: parent.lineage := rfl
  rw [Package.within, lineage, List.length_cons, Nat.succ_sub deep, List.take_succ_cons, Package.within]

theorem within_self : pack.within pack.packdir = [] := by
  rw [Package.within, Nat.sub_self, List.take_zero]

theorem computeDefault_accepted (state : State Closure) (path : Bytes) (entry : PathEntry)
    (readable : accepted (access world.fstatat path) = true) :
    (computeDefaultFilesPropertiesCb world state path entry).1 = 0 ∧
    Retyped state (computeDefaultFilesPropertiesCb world state path entry).2 ∧
    ∀ ref, getEntryType (computeDefaultFilesPropertiesCb world state path entry).2.types ref =
      if ref = entry.ref then
        orElse (getEntryType state.types entry.ref) (orElse (dirnameType (access world.fstatat path) entry.label.name)
          (orElse (getEntryType state.types entry.ref.dropLast) .Id))
      else getEntryType state.types ref := by
  have typed : ∀ kind, defaultType state.types kind entry = orElse (dirnameType (.ok kind) entry.label.name)
      (orElse (getEntryType state.types entry.ref.dropLast) .Id) := by
    intro kind
    rw [← orElse_assoc]
    cases kind <;> rfl
  have done : ∀ kind, (if getEntryType state.types entry.ref ≠ .Unset then ((0 : Int), state)
      else (0, state.setType entry.ref (defaultType state.types kind entry))).1 = 0 ∧
      Retyped state (if getEntryType state.types entry.ref ≠ .Unset then ((0 : Int), state)
        else (0, state.setType entry.ref (defaultType state.types kind entry))).2 ∧
      ∀ ref, getEntryType (if getEntryType state.types entry.ref ≠ .Unset then ((0 : Int), state)
        else (0, state.setType entry.ref (defaultType state.types kind entry))).2.types ref =
          if ref = entry.ref then orElse (getEntryType state.types entry.ref) (orElse (dirnameType (.ok kind)
            entry.label.name) (orElse (getEntryType state.types entry.ref.dropLast) .Id))
          else getEntryType state.types ref := by
    intro kind
    by_cases set : getEntryType state.types entry.ref = .Unset
    · rw [if_neg (not_not.mpr set)]
      refine ⟨rfl, rfl, fun ref => ?_⟩
      rw [setType_type, typed, set]
      rfl
    · rw [if_pos set]
      refine ⟨rfl, rfl, fun ref => ?_⟩
      by_cases same : ref = entry.ref
      · rw [if_pos same, same, orElse, if_neg set]
      · rw [if_neg same]
  unfold computeDefaultFilesPropertiesCb
  generalize access world.fstatat path = kind at readable
  cases kind with
  | error rc => cases readable
  | ok kind =>
    cases kind with
    | regular => exact done .regular
    | directory => exact done .directory
    | other => cases readable

theorem computeDefault_refused (state : State Closure) (path : Bytes) (entry : PathEntry)
    (refused : accepted (access world.fstatat path) = false) :
    (computeDefaultFilesPropertiesCb world state path entry).1 ≠ 0 ∧
      (computeDefaultFilesPropertiesCb world state path entry).2.rc < 0 := by
  unfold computeDefaultFilesPropertiesCb
  generalize access world.fstatat path = kind at refused
  cases kind with
  | error rc => exact ⟨rc.property.ne, put_negative rc.property⟩
  | ok kind =>
    cases kind with
    | regular => cases refused
    | directory => cases refused
    | other => exact ⟨(by decide : -EINVAL ≠ 0), put_negative (by decide)⟩

def completed (state : State Closure) (visits : List Visit) : State Closure :=
  visits.foldl (fun state visit => (onString (computeDefaultFilesPropertiesCb world) lead state visit).2) state

theorem iterate_accepted (visits : List Visit) (state : State Closure)
    (readable : ∀ visit ∈ visits, accepted (access world.fstatat (cstr (lead ++ visit.path))) = true) :
    iterate (onString (computeDefaultFilesPropertiesCb world) lead) visits state =
      (0, completed world lead state visits) := by
  induction visits generalizing state with
  | nil => rfl
  | cons visit rest ih =>
    have here := (computeDefault_accepted world state _ visit.entry (readable visit (by simp))).1
    rw [iterate, if_pos (show (onString (computeDefaultFilesPropertiesCb world) lead state visit).1 = 0 from here),
      ih _ fun other member => readable other (List.mem_cons_of_mem _ member)]
    rfl

theorem iterate_readable (visits : List Visit) (state : State Closure)
    (fine : 0 ≤ (iterate (onString (computeDefaultFilesPropertiesCb world) lead) visits state).2.rc) :
    ∀ visit ∈ visits, accepted (access world.fstatat (cstr (lead ++ visit.path))) = true := by
  induction visits generalizing state with
  | nil => simp
  | cons visit rest ih =>
    cases readable : accepted (access world.fstatat (cstr (lead ++ visit.path))) with
    | false =>
      obtain ⟨stops, negative⟩ := computeDefault_refused world state _ visit.entry readable
      rw [iterate, if_neg (show (onString (computeDefaultFilesPropertiesCb world) lead state visit).1 ≠ 0
        from stops)] at fine
      exact absurd fine (not_le.mpr negative)
    | true =>
      have here := (computeDefault_accepted world state _ visit.entry readable).1
      rw [iterate, if_pos (show (onString (computeDefaultFilesPropertiesCb world) lead state visit).1 = 0
        from here)] at fine
      intro other member
      rcases List.mem_cons.mp member with same | later
      · rw [same]
        exact readable
      · exact ih _ fine other later

def contents : ForallFlags := { before := true, silentRoot := true }

theorem underPath_contents (label : Label) (labels : List Label) (proper : label.name ≠ []) :
    underPath contents label (pathOf labels) = pathOf (label :: labels) := by
  rw [pathOf_cons label labels proper]
  simp [underPath, contents, proper]

theorem visitsBelow_within (parent : PathEntry) (siblings : Entry) (wf : siblings.WellFormed)
    (deep : pack.packdir.lineage.length ≤ parent.lineage.length) :
    ∀ visit ∈ visitsBelow contents parent (pathOf (pack.within parent)) siblings,
      visit.path = pathOf (pack.within visit.entry) := by
  induction siblings generalizing parent with
  | null => simp [visitsBelow]
  | node label children sibling inner rest =>
    obtain ⟨proper, -, -, below, after⟩ := wf
    have child := within_child pack parent label children deep
    have path := underPath_contents label (pack.within parent) proper
    rw [← child] at path
    apply visitsBelow_forall
    · exact path
    · rw [path]
      exact inner _ below (Nat.le_succ_of_le deep)
    · exact rest parent after deep

/-- Where entries are in their package. -/
structure InPackage (entry : PathEntry) : Prop where
  deep : pack.packdir.lineage.length ≤ entry.lineage.length
  ref : entry.ref = pack.packdir.ref ++ ((pack.within entry).map Label.name).reverse

theorem InPackage.child {pack : Package} {parent : PathEntry} (inside : InPackage pack parent) (label : Label)
    (children : Entry) : InPackage pack (parent.child label children) := by
  refine ⟨Nat.le_succ_of_le inside.deep, ?_⟩
  rw [within_child pack parent label children inside.deep, List.map_cons, List.reverse_cons, ← List.append_assoc,
    ← inside.ref]
  rfl

theorem inPackage_self : InPackage pack pack.packdir := by
  refine ⟨le_rfl, ?_⟩
  rw [within_self]
  simp

theorem completed_append (state : State Closure) (first second : List Visit) :
    completed world lead state (first ++ second) =
      completed world lead (completed world lead state first) second := List.foldl_append

theorem visitsBelow_contents {parent : PathEntry} (inside : InPackage pack parent) (label : Label)
    (children sibling : Entry) (proper : label.name ≠ []) :
    visitsBelow contents parent (pathOf (pack.within parent)) (.node label children sibling) =
      [⟨parent.child label children, pathOf (pack.within (parent.child label children))⟩] ++
        visitsBelow contents (parent.child label children)
          (pathOf (pack.within (parent.child label children))) children ++
        visitsBelow contents parent (pathOf (pack.within parent)) sibling := by
  have shown := underPath_contents label (pack.within parent) proper
  rw [← within_child pack parent label children inside.deep] at shown
  have first : contents.before = true := rfl
  have early : contents.after = false := rfl
  have all : emits contents label = true := rfl
  simp [visitsBelow, shown, first, early, all]

theorem completed_child {parent : PathEntry} (inside : InPackage pack parent) (label : Label) (children : Entry)
    (state : State Closure)
    (readable : accepted (access world.fstatat
      (cstr (lead ++ pathOf (pack.within (parent.child label children))))) = true)
    (own : getEntryType state.types parent.ref = preType world pack lead (pack.within parent))
    (start : getEntryType state.types (parent.child label children).ref =
      manifestType world pack (parent.child label children).ref) :
    Retyped state (completed world lead state
      [⟨parent.child label children, pathOf (pack.within (parent.child label children))⟩]) ∧
    getEntryType (completed world lead state
      [⟨parent.child label children, pathOf (pack.within (parent.child label children))⟩]).types
        (parent.child label children).ref = preType world pack lead (pack.within (parent.child label children)) ∧
    ∀ ref, ref ≠ (parent.child label children).ref → getEntryType (completed world lead state
      [⟨parent.child label children, pathOf (pack.within (parent.child label children))⟩]).types ref =
        getEntryType state.types ref := by
  obtain ⟨kept, types⟩ := (computeDefault_accepted world state _ (parent.child label children) readable).2
  refine ⟨kept, (types _).trans ?_, fun ref other => (types ref).trans (if_neg other)⟩
  have within := within_child pack parent label children inside.deep
  have above : (parent.child label children).ref.dropLast = parent.ref := List.dropLast_concat
  have set := preType_set world pack lead (pack.within parent)
  rw [if_pos rfl, above, own, start, within, preType, (inside.child label children).ref, within]
  congr 2
  rw [orElse, if_neg set]

theorem completed_below (parent : PathEntry) (siblings : Entry) (wf : siblings.WellFormed)
    (inside : InPackage pack parent) (state : State Closure)
    (readable : ∀ visit ∈ visitsBelow contents parent (pathOf (pack.within parent)) siblings,
      accepted (access world.fstatat (cstr (lead ++ visit.path))) = true)
    (own : getEntryType state.types parent.ref = preType world pack lead (pack.within parent))
    (start : ∀ entry ∈ entriesBelow parent siblings,
      getEntryType state.types entry.ref = manifestType world pack entry.ref) :
    Retyped state (completed world lead state
      (visitsBelow contents parent (pathOf (pack.within parent)) siblings)) ∧
    (∀ entry ∈ entriesBelow parent siblings, getEntryType (completed world lead state
      (visitsBelow contents parent (pathOf (pack.within parent)) siblings)).types entry.ref =
        preType world pack lead (pack.within entry)) ∧
    ∀ ref, ref ∉ (entriesBelow parent siblings).map PathEntry.ref → getEntryType (completed world lead state
      (visitsBelow contents parent (pathOf (pack.within parent)) siblings)).types ref =
        getEntryType state.types ref := by
  induction siblings generalizing parent state with
  | null => exact ⟨rfl, by simp [entriesBelow], fun _ _ => rfl⟩
  | node label children sibling inner rest =>
    have nodup : ((entriesBelow parent (.node label children sibling)).map PathEntry.ref).Nodup :=
      nodup_below parent _ wf
    obtain ⟨proper, plain, fresh, below, after⟩ := wf
    have child := inside.child label children
    rw [visitsBelow_contents pack inside label children sibling proper] at readable ⊢
    rw [completed_append, completed_append]
    have here := readable ⟨parent.child label children, pathOf (pack.within (parent.child label children))⟩
      (by simp)
    obtain ⟨kept₁, childType, unchanged⟩ := completed_child world pack lead inside label children state here own
      (start _ (by simp [entriesBelow]))
    generalize completed world lead state
      [⟨parent.child label children, pathOf (pack.within (parent.child label children))⟩] = state₁
      at kept₁ childType unchanged ⊢
    simp only [entriesBelow, List.map_append, List.map_cons, List.nodup_append, List.nodup_cons] at nodup
    obtain ⟨-, ⟨last, -⟩, apart⟩ := nodup
    obtain ⟨kept₂, types₂, same₂⟩ := inner (parent.child label children) below child state₁
      (fun visit member => readable visit (by simp [member])) childType (by
        intro entry member
        rw [unchanged entry.ref (apart _ (List.mem_map_of_mem member) _ (by simp))]
        exact start entry (by simp [entriesBelow, member]))
    generalize completed world lead state₁ (visitsBelow contents (parent.child label children)
      (pathOf (pack.within (parent.child label children))) children) = state₂ at kept₂ types₂ same₂ ⊢
    have whole := parent_not_below parent (.node label children sibling) ⟨proper, plain, fresh, below, after⟩
    simp only [entriesBelow, List.map_append, List.map_cons, List.mem_append, List.mem_cons, not_or] at whole
    obtain ⟨kept₃, types₃, same₃⟩ := rest parent after inside state₂
      (fun visit member => readable visit (by simp [member]))
      (by rw [same₂ _ whole.1, unchanged _ whole.2.1, own])
      (by
        intro entry member
        rw [same₂, unchanged]
        · exact start entry (by simp [entriesBelow, member])
        · intro same
          exact last (same ▸ List.mem_map_of_mem member)
        · intro early
          exact apart _ early _ (List.mem_cons_of_mem _ (List.mem_map_of_mem member)) rfl)
    refine ⟨(kept₁.trans kept₂).trans kept₃, ?_, ?_⟩
    · intro entry member
      rcases List.mem_append.mp member with early | others
      · rw [same₃]
        · exact types₂ entry early
        · intro late
          exact apart _ (List.mem_map_of_mem early) _ (List.mem_cons_of_mem _ late) rfl
      · rcases List.mem_cons.mp others with here | later
        · rw [here, same₃ _ last, same₂ _ (parent_not_below _ children below)]
          exact childType
        · exact types₃ entry later
    · intro ref outside
      simp only [entriesBelow, List.map_append, List.map_cons, List.mem_append, List.mem_cons, not_or] at outside
      rw [same₃ _ outside.2.2, same₂ _ outside.1, unchanged _ outside.2.1]

theorem inPackage_below (parent : PathEntry) (siblings : Entry) (inside : InPackage pack parent) :
    ∀ entry ∈ entriesBelow parent siblings, InPackage pack entry := by
  induction siblings generalizing parent with
  | null => simp [entriesBelow]
  | node label children sibling inner rest =>
    have child := inside.child label children
    intro entry member
    rcases List.mem_append.mp member with early | others
    · exact inner _ child entry early
    · rcases List.mem_cons.mp others with here | later
      · rw [here]
        exact child
      · exact rest parent inside entry later

theorem inPackage_entries : ∀ entry ∈ pack.packdir.entries, InPackage pack entry := by
  intro entry member
  rcases List.mem_append.mp member with below | own
  · exact inPackage_below pack pack.packdir _ (inPackage_self pack) entry below
  · rw [List.mem_singleton.mp own]
    exact inPackage_self pack

/-- The paths of the entries fit in the path buffer, with a slash before each name. -/
def Fit : Prop := ∀ entry ∈ pack.packdir.entries,
  (lead ++ slashed ((pack.within entry).map Label.name).reverse).length < PATH_MAX

/-- All the contents of a package are visited when their paths fit. -/
theorem contents_whole {path : Bytes} (holds : Holds lead path) (offset : lead.length = pack.offsetPack)
    (fit : Fit pack lead) :
    pack.entryOffset contents < path.length ∧ pack.tour contents (path.length - pack.entryOffset contents) =
      Tour.of (visitsBelow contents pack.packdir [] pack.packdir.children) := by
  constructor
  · have short := fit pack.packdir (by simp [PathEntry.entries])
    rw [within_self, List.length_append] at short
    change pack.offsetPack < _
    rw [holds.size, ← offset]
    omega
  · apply tourFrom_silent contents _ (slashed pack.packdir.ref).length pack.packdir [] rfl (by simp)
    intro _ other member
    have entry : other ∈ pack.packdir.entries := List.mem_append.mpr (Or.inl member)
    have short := fit other entry
    rw [List.length_append] at short
    rw [(inPackage_entries pack other entry).ref, slashed, List.flatMap_append, List.length_append]
    change _ < path.length - pack.offsetPack + _
    rw [holds.size, ← offset]
    simp only [slashed] at short ⊢
    omega

theorem contents_readable (wf : pack.packdir.children.WellFormed) :
    (∀ visit ∈ visitsBelow contents pack.packdir [] pack.packdir.children,
      accepted (access world.fstatat (cstr (lead ++ visit.path))) = true) ↔
      ∀ entry ∈ entriesBelow pack.packdir pack.packdir.children,
        accepted (kindAt world lead (pack.within entry)) = true := by
  have paths := visitsBelow_within pack pack.packdir pack.packdir.children wf le_rfl
  rw [show pathOf (pack.within pack.packdir) = [] by rw [within_self]; rfl] at paths
  have perm := visitsBelow_before contents rfl rfl pack.packdir [] pack.packdir.children
  have members : ∀ entry, entry ∈ entriesBelow pack.packdir pack.packdir.children ↔
      ∃ visit ∈ visitsBelow contents pack.packdir [] pack.packdir.children, visit.entry = entry := by
    intro entry
    rw [← List.mem_map, perm.mem_iff, List.mem_filter]
    exact ⟨fun member => ⟨member, rfl⟩, fun both => both.1⟩
  constructor
  · intro all entry member
    obtain ⟨visit, visited, same⟩ := (members entry).mp member
    have here := all visit visited
    rw [paths visit visited, same] at here
    exact here
  · intro all visit visited
    rw [paths visit visited]
    exact all visit.entry ((members visit.entry).mpr ⟨visit, visited, rfl⟩)

theorem computeDefault_stage (wf : pack.packdir.children.WellFormed) (state : State Closure)
    (holds : Holds lead state.path) (offset : lead.length = pack.offsetPack) (fit : Fit pack lead)
    (types : ∀ entry ∈ pack.packdir.entries,
      getEntryType state.types entry.ref = manifestType world pack entry.ref) :
    (0 ≤ (pack.forEachContentEntry { before := true } (computeDefaultFilesPropertiesCb world) state).2.rc →
      ∀ entry ∈ entriesBelow pack.packdir pack.packdir.children,
        accepted (kindAt world lead (pack.within entry)) = true) ∧
    ((∀ entry ∈ entriesBelow pack.packdir pack.packdir.children,
        accepted (kindAt world lead (pack.within entry)) = true) →
      (pack.forEachContentEntry { before := true } (computeDefaultFilesPropertiesCb world) state).2.rc = state.rc ∧
      ∀ entry ∈ pack.packdir.entries, getEntryType (pack.forEachContentEntry { before := true }
        (computeDefaultFilesPropertiesCb world) state).2.types entry.ref =
          preType world pack lead (pack.within entry)) := by
  have own := types pack.packdir (by simp [PathEntry.entries])
  have self : preType world pack lead (pack.within pack.packdir) = manifestType world pack pack.packdir.ref := by
    rw [within_self, preType]
  have starts : pathOf (pack.within pack.packdir) = [] := by rw [within_self]; rfl
  obtain ⟨room, whole⟩ := contents_whole pack lead holds offset fit
  obtain ⟨path', -, run⟩ := forEachEntry_visible pack contents rfl rfl
    (computeDefaultFilesPropertiesCb world) state room
  have lead' : state.path.take (pack.entryOffset contents) = lead := by
    change state.path.take pack.offsetPack = lead
    rw [← offset]
    exact holds.starts
  rw [whole, Tour.run_of, lead'] at run
  have stage : pack.forEachContentEntry { before := true } (computeDefaultFilesPropertiesCb world) state =
      pack.forEachEntry contents (computeDefaultFilesPropertiesCb world) state := rfl
  have readable := contents_readable world pack lead wf
  rw [stage, run, ← readable]
  constructor
  · intro fine
    exact iterate_readable world lead _ state fine
  · intro all
    have below := completed_below world pack lead pack.packdir pack.packdir.children wf (inPackage_self pack) state
      (by rw [starts]; exact all) (by rw [self]; exact own)
      (fun entry member => types entry (List.mem_append.mpr (Or.inl member)))
    rw [starts] at below
    rw [iterate_accepted world lead _ state all]
    refine ⟨below.1.rc, fun entry member => ?_⟩
    rcases List.mem_append.mp member with inside | top
    · exact below.2.1 entry inside
    · rw [List.mem_singleton.mp top]
      exact (below.2.2 _ (parent_not_below _ _ wf)).trans (own.trans self.symm)

theorem computePublic_types (state : State Closure) (path : Bytes) (entry : PathEntry) :
    (computePublicFilesPropertiesCb pack state path entry).1 = 0 ∧
    Retyped state (computePublicFilesPropertiesCb pack state path entry).2 ∧
    getEntryType (computePublicFilesPropertiesCb pack state path entry).2.types =
      propagate pack.packdir.ref (getEntryType state.types) entry.ref := by
  have set : ∀ type, getEntryType (state.setType entry.ref.dropLast type).types =
      Function.update (getEntryType state.types) entry.ref.dropLast type := by
    intro type
    funext ref
    rw [setType_type, Function.update_apply]
  simp only [computePublicFilesPropertiesCb, propagate]
  split
  · exact ⟨rfl, rfl, rfl⟩
  · split
    · next plug =>
      split
      · next other =>
        refine ⟨rfl, rfl, ?_⟩
        rw [set, raised, if_pos plug, if_neg other]
      · next isPublic =>
        refine ⟨rfl, rfl, ?_⟩
        rw [raised, if_pos plug, not_not.mp isPublic, if_pos rfl, ← not_not.mp isPublic, Function.update_eq_self]
    · next other =>
      split
      · next isPublic =>
        refine ⟨rfl, rfl, ?_⟩
        rw [set, raised, if_neg other, if_pos isPublic]
      · next private_ =>
        refine ⟨rfl, rfl, ?_⟩
        rw [raised, if_neg other, if_neg private_, Function.update_eq_self]

theorem computePublic_stage (state : State Closure) :
    Retyped state (pack.forEachEntry { after := true, noPath := true } (computePublicFilesPropertiesCb pack)
      state).2 ∧
    getEntryType (pack.forEachEntry { after := true, noPath := true } (computePublicFilesPropertiesCb pack)
      state).2.types =
        (pack.packdir.entries.map PathEntry.ref).foldl (propagate pack.packdir.ref) (getEntryType state.types) := by
  have whole : ∀ size, pack.tour { after := true, noPath := true } size =
      Tour.of (visitsFrom { after := true, noPath := true } pack.packdir []) := by
    intro size
    exact tourFrom_loud { after := true, noPath := true } size 0 pack.packdir [] rfl (by simp [underPath])
      (by simp) (by simp)
  have entries := visitsFrom_after { after := true, noPath := true } rfl rfl rfl pack.packdir []
  have all : pack.packdir.entries.filter (emits { after := true, noPath := true } ·.label) = pack.packdir.entries :=
    List.filter_eq_self.mpr fun _ _ => rfl
  rw [all] at entries
  have zero : (fun (state' : State Closure) (visit : Visit) =>
      computePublicFilesPropertiesCb pack state' (cstr state.path) visit.entry) = fun state' visit =>
        (0, (computePublicFilesPropertiesCb pack state' (cstr state.path) visit.entry).2) := by
    funext state' visit
    exact Prod.ext (computePublic_types pack state' _ visit.entry).1 rfl
  have folded : ∀ (visits : List Visit) (state' : State Closure), Retyped state' (visits.foldl (fun state' visit =>
      (computePublicFilesPropertiesCb pack state' (cstr state.path) visit.entry).2) state') ∧
      getEntryType (visits.foldl (fun state' visit =>
        (computePublicFilesPropertiesCb pack state' (cstr state.path) visit.entry).2) state').types =
        ((visits.map Visit.entry).map PathEntry.ref).foldl (propagate pack.packdir.ref)
          (getEntryType state'.types) := by
    intro visits
    induction visits with
    | nil => exact fun _ => ⟨rfl, rfl⟩
    | cons visit rest ih =>
      intro state'
      obtain ⟨-, kept, types⟩ := computePublic_types pack state' (cstr state.path) visit.entry
      obtain ⟨later, rest'⟩ := ih (computePublicFilesPropertiesCb pack state' (cstr state.path) visit.entry).2
      exact ⟨kept.trans later, by rw [List.foldl_cons, rest', types]; rfl⟩
  obtain ⟨kept, types⟩ := folded (visitsFrom { after := true, noPath := true } pack.packdir []) state
  rw [entries] at types
  rw [forEachEntry_hidden pack _ rfl rfl, whole, Tour.run_of, zero, iterate_eq_foldl]
  simp only [State.withPath]
  refine ⟨?_, types⟩
  unfold Retyped at kept ⊢
  rw [kept]

/-- The package directory has its own type, the entries below have none. -/
def resetTypes (state : State Closure) : State Closure :=
  (pack.forEachContentEntry { noPath := true } resetTypeCb { state.setType pack.packdir.ref .Id with rc := 0 }).2

theorem resetTypes_eq (state : State Closure) :
    resetTypes pack state = ((entriesBelow pack.packdir pack.packdir.children).map PathEntry.ref).foldl
      (fun state ref => state.setType ref .Unset) { state.setType pack.packdir.ref .Id with rc := 0 } := by
  unfold resetTypes
  generalize { state.setType pack.packdir.ref .Id with rc := 0 } = start
  have whole : ∀ size, pack.tour { noPath := true, silentRoot := true } size =
      Tour.of (visitsBelow { noPath := true, silentRoot := true, after := true } pack.packdir []
        pack.packdir.children) := by
    intro size
    exact tourFrom_silent { noPath := true, silentRoot := true, after := true } size 0 pack.packdir [] rfl
      (by simp) (by simp)
  have entries := visitsBelow_after { noPath := true, silentRoot := true, after := true } rfl rfl pack.packdir []
    pack.packdir.children
  have all : (entriesBelow pack.packdir pack.packdir.children).filter
      (emits { noPath := true, silentRoot := true, after := true } ·.label) =
        entriesBelow pack.packdir pack.packdir.children := List.filter_eq_self.mpr fun _ _ => rfl
  rw [all] at entries
  have folded : ∀ (refs : List Ref) (state' : State Closure),
      (refs.foldl (fun state ref => state.setType ref .Unset) state').path = state'.path := by
    intro refs
    induction refs with
    | nil => exact fun _ => rfl
    | cons ref rest ih => exact fun state' => ih (state'.setType ref .Unset)
  have stage : pack.forEachContentEntry { noPath := true } resetTypeCb start =
      pack.forEachEntry { noPath := true, silentRoot := true } resetTypeCb start := rfl
  have callback : (fun (state' : State Closure) (visit : Visit) =>
      resetTypeCb state' (cstr start.path) visit.entry) =
        fun state' visit => (0, state'.setType visit.entry.ref .Unset) := rfl
  rw [stage, forEachEntry_hidden pack _ rfl rfl, whole, Tour.run_of, callback, iterate_eq_foldl, ← entries,
    List.map_map, List.foldl_map]
  have path := folded (((visitsBelow { noPath := true, silentRoot := true, after := true } pack.packdir []
    pack.packdir.children).map (PathEntry.ref ∘ Visit.entry))) start
  rw [List.foldl_map] at path
  simp only [State.withPath]
  rw [← path]
  rfl

theorem foldl_reset (refs : List Ref) (state : State Closure) :
    Retyped state (refs.foldl (fun state ref => state.setType ref .Unset) state) ∧
    ∀ ref, getEntryType (refs.foldl (fun state ref => state.setType ref .Unset) state).types ref =
      if ref ∈ refs then .Unset else getEntryType state.types ref := by
  induction refs generalizing state with
  | nil => exact ⟨rfl, fun _ => rfl⟩
  | cons first rest ih =>
    obtain ⟨kept, types⟩ := ih (state.setType first .Unset)
    refine ⟨Retyped.trans (rfl : Retyped state (state.setType first .Unset)) kept, fun ref => ?_⟩
    rw [List.foldl_cons, types, setType_type]
    by_cases later : ref ∈ rest
    · simp [later]
    · simp [later]

theorem resetTypes_types (wf : pack.packdir.children.WellFormed) (state : State Closure) :
    (resetTypes pack state).rc = 0 ∧ (resetTypes pack state).path = state.path ∧
    ∀ entry ∈ pack.packdir.entries, getEntryType (resetTypes pack state).types entry.ref =
      if entry.ref = pack.packdir.ref then .Id else .Unset := by
  rw [resetTypes_eq]
  obtain ⟨kept, types⟩ := foldl_reset ((entriesBelow pack.packdir pack.packdir.children).map PathEntry.ref)
    { state.setType pack.packdir.ref .Id with rc := 0 }
  refine ⟨kept.rc, kept.path, fun entry member => ?_⟩
  have aside := parent_not_below pack.packdir _ wf
  rw [types]
  rcases List.mem_append.mp member with below | top
  · have inside : entry.ref ∈ (entriesBelow pack.packdir pack.packdir.children).map PathEntry.ref :=
      List.mem_map_of_mem below
    have other : entry.ref ≠ pack.packdir.ref := by
      intro same
      rw [same] at inside
      exact aside inside
    rw [if_pos inside, if_neg other]
  · rw [List.mem_singleton.mp top, if_neg aside, if_pos rfl]
    exact (setType_type state _ _ _).trans (if_pos rfl)

theorem computeFilesProperties_eq (state : State Closure) :
    computeFilesProperties world pack state = manifestStages world pack (resetTypes pack state) >>= fun state =>
      whenFine (fun state => .ok (pack.forEachContentEntry { before := true }
        (computeDefaultFilesPropertiesCb world) state).2) state >>= fun state =>
      whenFine (fun state => .ok (pack.forEachEntry { after := true, noPath := true }
        (computePublicFilesPropertiesCb pack) state).2) state := by
  have first : whenFine (fun state => (.ok (pack.forEachContentEntry { noPath := true } resetTypeCb state).2 :
      Run Closure (State Closure))) { state.setType pack.packdir.ref .Id with rc := 0 } =
        .ok (resetTypes pack state) := if_pos le_rfl
  unfold computeFilesProperties manifestStages
  simp only [bind_assoc]
  rw [first]
  rfl

/-- The types of a package are those before the propagation, propagated. -/
def Computed (types : Ref → PathType) : Prop :=
  ∃ before, Propagated pack.packdir.ref (pack.packdir.entries.map PathEntry.ref) before types ∧
    ∀ entry ∈ pack.packdir.entries, before entry.ref = preType world pack lead (pack.within entry)

theorem refs_order (wf : pack.packdir.children.WellFormed) :
    (pack.packdir.entries.map PathEntry.ref).Pairwise fun first second => ¬first <+: second :=
  List.pairwise_map.mpr (entries_order pack.packdir wf)

theorem refs_inside : ∀ ref ∈ pack.packdir.entries.map PathEntry.ref, pack.packdir.ref <+: ref := by
  intro ref member
  obtain ⟨entry, inside, same⟩ := List.mem_map.mp member
  rw [← same, (inPackage_entries pack entry inside).ref]
  exact List.prefix_append _ _

theorem refs_proper : ∀ ref ∈ pack.packdir.entries.map PathEntry.ref, ref ≠ pack.packdir.ref → ref ≠ [] := by
  intro ref member other empty
  have inside := refs_inside pack ref member
  rw [empty, List.prefix_nil] at inside
  exact other (empty.trans inside.symm)

theorem computeFilesProperties_completes (wf : pack.packdir.children.WellFormed) (state state₅ : State Closure)
    (holds : Holds lead state.path) (offset : lead.length = pack.offsetPack) (fit : Fit pack lead)
    (read : manifestStages world pack (resetTypes pack state) = .ok state₅) (fine : 0 ≤ state₅.rc) :
    (∀ state', computeFilesProperties world pack state = .ok state' → 0 ≤ state'.rc →
      ∀ entry ∈ entriesBelow pack.packdir pack.packdir.children,
        accepted (kindAt world lead (pack.within entry)) = true) ∧
    ((∀ entry ∈ entriesBelow pack.packdir pack.packdir.children,
        accepted (kindAt world lead (pack.within entry)) = true) →
      ∃ state', computeFilesProperties world pack state = .ok state' ∧ 0 ≤ state'.rc ∧
        Computed world pack lead (getEntryType state'.types)) := by
  obtain ⟨-, path, reset⟩ := resetTypes_types pack wf state
  obtain ⟨kept, types⟩ := manifestStages_types world pack _ _ read fine
  obtain ⟨necessary, sufficient⟩ := computeDefault_stage world pack lead wf state₅
    (by rw [kept.path, path]; exact holds) offset fit
    (fun entry member => types entry.ref (reset entry member))
  have run : computeFilesProperties world pack state = whenFine (fun state => .ok (pack.forEachEntry
      { after := true, noPath := true } (computePublicFilesPropertiesCb pack) state).2)
        (pack.forEachContentEntry { before := true } (computeDefaultFilesPropertiesCb world) state₅).2 := by
    have default : whenFine (fun state => (.ok (pack.forEachContentEntry { before := true }
        (computeDefaultFilesPropertiesCb world) state).2 : Run Closure (State Closure))) state₅ =
        .ok (pack.forEachContentEntry { before := true } (computeDefaultFilesPropertiesCb world) state₅).2 :=
      if_pos fine
    have next : ∀ (value : State Closure) (stage : State Closure → Run Closure (State Closure)),
        (Except.ok value >>= stage) = stage value := fun _ _ => rfl
    rw [computeFilesProperties_eq, read, next, default, next]
  generalize (pack.forEachContentEntry { before := true } (computeDefaultFilesPropertiesCb world) state₅).2 = state₆
    at run necessary sufficient
  constructor
  · intro state' computed done
    rw [run] at computed
    exact necessary (whenFine_fine computed done).1
  · intro readable
    obtain ⟨same, before⟩ := sufficient readable
    obtain ⟨kept', after⟩ := computePublic_stage pack state₆
    rw [← same] at fine
    refine ⟨_, run.trans (if_pos fine), by rw [kept'.rc]; exact fine, getEntryType state₆.types, ?_, before⟩
    rw [after]
    exact propagated_foldl _ _ _ (refs_order pack wf) (refs_proper pack)

theorem computeFilesProperties_fine (wf : pack.packdir.children.WellFormed) (state state' : State Closure)
    (holds : Holds lead state.path) (offset : lead.length = pack.offsetPack) (fit : Fit pack lead)
    (computed : computeFilesProperties world pack state = .ok state') (fine : 0 ≤ state'.rc) :
    ∃ state₅, manifestStages world pack (resetTypes pack state) = .ok state₅ ∧ 0 ≤ state₅.rc ∧
      (∀ entry ∈ entriesBelow pack.packdir pack.packdir.children,
        accepted (kindAt world lead (pack.within entry)) = true) ∧
      Computed world pack lead (getEntryType state'.types) := by
  have run := computed
  rw [computeFilesProperties_eq] at run
  obtain ⟨state₅, read, next⟩ := bind_ok run
  obtain ⟨state₆, default, last⟩ := bind_ok next
  have fine₅ := (whenFine_fine default (whenFine_fine last fine).1).1
  obtain ⟨necessary, sufficient⟩ := computeFilesProperties_completes world pack lead wf state state₅ holds offset
    fit read fine₅
  have readable := necessary state' computed fine
  obtain ⟨state'', again, -, types⟩ := sufficient readable
  rw [computed] at again
  rw [Except.ok.inj again]
  exact ⟨state₅, read, fine₅, readable, types⟩

/-- The laws of the types of a package. -/
structure Typed (types : Ref → PathType) : Prop where
  set : ∀ entry ∈ pack.packdir.entries, types entry.ref ≠ .Unset
  publicAbove : ∀ entry ∈ pack.packdir.entries, (types entry.ref).isPublic = true →
    ∀ above ∈ pack.packdir.entries, above.ref <+: entry.ref → above.ref ≠ entry.ref → types above.ref = .Public
  plugAbove : ∀ entry ∈ pack.packdir.entries, entry.ref ≠ pack.packdir.ref → types entry.ref = .Plug →
    types entry.ref.dropLast = .Plug ∨ types entry.ref.dropLast = .Public
  kept : ∀ entry ∈ pack.packdir.entries, (∀ below ∈ pack.packdir.entries, entry.ref <+: below.ref →
      below.ref ≠ entry.ref → spreads (preType world pack lead (pack.within below)) = false) →
    types entry.ref = preType world pack lead (pack.within entry)

theorem raised_set (own : PathType) (types : List PathType) (set : own ≠ .Unset) :
    types.foldl raised own ≠ .Unset := by
  apply List.foldlRecOn (motive := fun type => type ≠ .Unset) types raised set
  intro type known child _
  unfold raised
  split
  · split <;> decide
  · split
    · decide
    · exact known

theorem refs_closed :
    ∀ ref ∈ pack.packdir.entries.map PathEntry.ref, ref ≠ pack.packdir.ref →
      ref.dropLast ∈ pack.packdir.entries.map PathEntry.ref := by
  intro ref member below
  obtain ⟨entry, inside, same⟩ := List.mem_map.mp member
  rw [PathEntry.entries, List.map_append, List.mem_append]
  rcases List.mem_append.mp inside with under | top
  · rw [← same]
    rcases parent_below pack.packdir pack.packdir.children entry under with first | deeper
    · exact Or.inr (by simp [first])
    · exact Or.inl deeper
  · rw [List.mem_singleton.mp top] at same
    exact absurd same.symm below

theorem Computed.typed {world : World} {pack : Package} {lead : Bytes} {types : Ref → PathType}
    (computed : Computed world pack lead types) : Typed world pack lead types := by
  obtain ⟨before, propagated, start⟩ := computed
  have known : ∀ entry ∈ pack.packdir.entries, entry.ref ∈ pack.packdir.entries.map PathEntry.ref :=
    fun entry => List.mem_map_of_mem
  refine ⟨?_, ?_, ?_, ?_⟩
  · intro entry member
    rw [propagated entry.ref]
    apply raised_set
    rw [start entry member]
    exact preType_set world pack lead _
  · intro entry member isPublic above inside longer other
    exact propagated.above_public (refs_closed pack) (refs_inside pack) (known above inside)
      (known entry member) longer other isPublic
  · intro entry member below plug
    exact propagated.parent_plug (known entry member) below plug
  · intro entry member quiet
    rw [← start entry member]
    apply propagated.kept (known entry member) ?_ (refs_proper pack)
    intro ref inside longer other
    obtain ⟨below, member', same⟩ := List.mem_map.mp inside
    rw [← same, start below member']
    exact quiet below member' (same ▸ longer) (same ▸ other)

/-- Two packages whose entries differ by the order of siblings only. -/
structure Reordered (pack pack' : Package) : Prop where
  rest : pack' = { pack with packdir := pack'.packdir }
  top : pack'.packdir.mark = pack.packdir.mark
  entries : (pack'.packdir.entries.map PathEntry.mark).Perm (pack.packdir.entries.map PathEntry.mark)

/-- The same entries are found in two packages. -/
def FoundAlike (pack pack' : Package) : Prop := ∀ path,
  (pathEntryGet pack'.packdir path = none ∧ pathEntryGet pack.packdir path = none) ∨
  ∃ entry' entry, pathEntryGet pack'.packdir path = some entry' ∧ pathEntryGet pack.packdir path = some entry ∧
    entry'.ref = entry.ref

section
variable {pack} {pack' : Package} (reordered : Reordered pack pack')
include reordered

theorem Reordered.refs : (pack'.packdir.entries.map PathEntry.ref).Perm (pack.packdir.entries.map PathEntry.ref) := by
  have perm := reordered.entries.map Prod.fst
  rwa [List.map_map, List.map_map] at perm

theorem Reordered.ref : pack'.packdir.ref = pack.packdir.ref := congrArg Prod.fst reordered.top

theorem Reordered.below : ((entriesBelow pack'.packdir pack'.packdir.children).map PathEntry.ref).Perm
    ((entriesBelow pack.packdir pack.packdir.children).map PathEntry.ref) := by
  have perm := reordered.refs
  rw [PathEntry.entries, PathEntry.entries, List.map_append, List.map_append, List.map_singleton,
    List.map_singleton, reordered.ref, List.perm_append_right_iff] at perm
  exact perm

/-- Each entry of the second package is in the first one, with the same labels. -/
theorem Reordered.entry {entry' : PathEntry} (member : entry' ∈ pack'.packdir.entries) :
    ∃ entry ∈ pack.packdir.entries, entry.ref = entry'.ref ∧ pack.within entry = pack'.within entry' := by
  have mark := reordered.entries.mem_iff.mp (List.mem_map_of_mem (f := PathEntry.mark) member)
  obtain ⟨entry, inside, same⟩ := List.mem_map.mp mark
  have lineage : entry.lineage = entry'.lineage := congrArg Prod.snd same
  have top : pack'.packdir.lineage = pack.packdir.lineage := congrArg Prod.snd reordered.top
  refine ⟨entry, inside, congrArg Prod.fst same, ?_⟩
  rw [Package.within, Package.within, lineage, top]

theorem Reordered.found (wf : pack.packdir.children.WellFormed) (wf' : pack'.packdir.children.WellFormed) :
    FoundAlike pack pack' := by
  intro path
  have here := descend_ref pack.packdir wf
    (components (path.getD []) ((path.getD []).length % 2 ^ 32))
  have there := descend_ref pack'.packdir wf'
    (components (path.getD []) ((path.getD []).length % 2 ^ 32))
  rw [reordered.ref] at there
  change (pathEntryGet pack.packdir path).map _ = _ at here
  change (pathEntryGet pack'.packdir path).map _ = _ at there
  have same : (pathEntryGet pack'.packdir path).map PathEntry.ref =
      (pathEntryGet pack.packdir path).map PathEntry.ref := by
    rw [here, there]
    congr 1
    exact propext reordered.refs.mem_iff
  cases first : pathEntryGet pack'.packdir path with
  | none =>
    rw [first, Option.map_none, eq_comm, Option.map_eq_none_iff] at same
    exact Or.inl ⟨rfl, same⟩
  | some entry' =>
    rw [first, Option.map_some, eq_comm, Option.map_eq_some_iff] at same
    obtain ⟨entry, second, equal⟩ := same
    exact Or.inr ⟨entry', entry, rfl, second, equal.symm⟩

end

section
variable {pack} {pack' : Package} (found : FoundAlike pack pack')
include found

theorem FoundAlike.namedRef (key : Bytes) (item : Json) :
    namedRef world pack' key item = namedRef world pack key item := by
  unfold Install.namedRef
  congr 1
  funext name
  rcases found (name.getString world.serialize) with ⟨none', none⟩ | ⟨entry', entry, some', some, same⟩
  · rw [none', none]
  · rw [some', some, Option.map_some, Option.map_some, same]

theorem FoundAlike.computeNamedProperty (key : Bytes) (type : PathType) :
    (computeNamedProperty world pack' key type : State Closure → Json → State Closure) =
      computeNamedProperty world pack key type := by
  funext state item
  unfold Install.computeNamedProperty
  split
  · rfl
  · next name _ =>
    rcases found (name.getString world.serialize) with ⟨none', none⟩ | ⟨entry', entry, some', some, same⟩
    · rw [none', none]
    · rw [some', some]
      simp only [same]

theorem FoundAlike.computeExplicit :
    (computeExplicitFilePropertiesCb world pack' : State Closure → Json → Run Closure (State Closure)) =
      computeExplicitFilePropertiesCb world pack := by
  funext state item
  unfold computeExplicitFilePropertiesCb
  split
  · next name _ _ _ =>
    rcases found (name.getString world.serialize) with ⟨none', none⟩ | ⟨entry', entry, some', some, same⟩
    · rw [none', none]
    · rw [some', some]
      simp only [same]
  · rfl

theorem FoundAlike.computeTarget :
    (computeTargetFilePropertiesCb world pack' : State Closure → Json → Run Closure (State Closure)) =
      computeTargetFilePropertiesCb world pack := by
  funext state item
  unfold computeTargetFilePropertiesCb
  split
  · rfl
  · split
    · next src _ _ _ =>
      rcases found (src.getString world.serialize) with ⟨none', none⟩ | ⟨entry', entry, some', some, same⟩
      · rw [none', none]
      · rw [some', some]
        simp only [same]
    · rfl

theorem FoundAlike.manifestStages (manifest : pack'.manifest = pack.manifest) :
    (manifestStages world pack' : State Closure → Run Closure (State Closure)) = manifestStages world pack := by
  have plugs : (computeImplicitPlugPropertyCb world pack' : State Closure → Json → State Closure) =
      computeImplicitPlugPropertyCb world pack := found.computeNamedProperty world _ _
  have bindings : (computeProvidedBindingPropertyCb world pack' : State Closure → Json → State Closure) =
      computeProvidedBindingPropertyCb world pack := found.computeNamedProperty world _ _
  have targets : pack'.targets = pack.targets := by rw [Package.targets, manifest, Package.targets]
  funext state
  unfold Install.manifestStages
  rw [plugs, bindings, found.computeExplicit, found.computeTarget, manifest, targets]

theorem FoundAlike.manifestType (manifest : pack'.manifest = pack.manifest)
    (top : pack'.packdir.ref = pack.packdir.ref) : manifestType world pack' = manifestType world pack := by
  have named := fun key => funext (found.namedRef world key)
  have property : propertyOf world pack' = propertyOf world pack := by
    funext item
    rw [propertyOf, propertyOf, named]
  have executable : executableRef world pack' = executableRef world pack := by
    funext target
    simp only [executableRef, named]
  have bound : boundRefs world pack' = boundRefs world pack := by
    rw [boundRefs, boundRefs, named, manifest]
  have plugged : pluggedRefs world pack' = pluggedRefs world pack := by
    rw [pluggedRefs, pluggedRefs, named, manifest]
  have given : properties world pack' = properties world pack := by
    rw [properties, properties, property, manifest]
  have executables : executableRefs world pack' = executableRefs world pack := by
    rw [executableRefs, executableRefs, executable, Package.targets, manifest, Package.targets]
  funext ref
  simp only [Install.manifestType, bound, plugged, given, executables, top]

theorem FoundAlike.preType (manifest : pack'.manifest = pack.manifest)
    (top : pack'.packdir.ref = pack.packdir.ref) (labels : List Label) :
    preType world pack' lead labels = preType world pack lead labels := by
  have types := found.manifestType world manifest top
  induction labels with
  | nil => rw [Install.preType, Install.preType, types, top]
  | cons label above ih => rw [Install.preType, Install.preType, types, top, ih]

end

theorem computeFilesProperties_reordered {pack' : Package} (reordered : Reordered pack pack')
    (wf : pack.packdir.children.WellFormed) (wf' : pack'.packdir.children.WellFormed) (state state' : State Closure)
    (holds : Holds lead state.path) (offset : lead.length = pack.offsetPack) (fit : Fit pack lead)
    (computed : computeFilesProperties world pack state = .ok state') (fine : 0 ≤ state'.rc) :
    ∃ state'', computeFilesProperties world pack' state = .ok state'' ∧ 0 ≤ state''.rc ∧
      ∀ entry ∈ pack.packdir.entries, getEntryType state''.types entry.ref = getEntryType state'.types entry.ref := by
  have found := reordered.found wf wf'
  have manifest : pack'.manifest = pack.manifest := by rw [reordered.rest]
  have offset' : lead.length = pack'.offsetPack := by
    rw [reordered.rest]
    exact offset
  obtain ⟨state₅, read, fine₅, readable, before, propagated, start⟩ := computeFilesProperties_fine world pack lead wf
    state state' holds offset fit computed fine
  have reset : resetTypes pack' state = resetTypes pack state := by
    rw [resetTypes_eq, resetTypes_eq, reordered.ref]
    refine reordered.below.foldl_eq' (fun first _ second _ other => ?_) _
    by_cases same : first = second
    · rw [same]
    · simp only [State.setType, setEntryType_comm _ same]
  have read' : manifestStages world pack' (resetTypes pack' state) = .ok state₅ := by
    rw [reset, found.manifestStages world manifest]
    exact read
  have fit' : Fit pack' lead := by
    intro entry' member
    obtain ⟨entry, inside, -, within⟩ := reordered.entry member
    rw [← within]
    exact fit entry inside
  have readable' : ∀ entry' ∈ entriesBelow pack'.packdir pack'.packdir.children,
      accepted (kindAt world lead (pack'.within entry')) = true := by
    intro entry' member
    obtain ⟨entry, inside, same, within⟩ := reordered.entry (List.mem_append.mpr (Or.inl member))
    rw [← within]
    rcases List.mem_append.mp inside with below | top
    · exact readable entry below
    · have ref : entry'.ref = pack'.packdir.ref := by
        rw [← same, List.mem_singleton.mp top, reordered.ref]
      have inside' := List.mem_map_of_mem (f := PathEntry.ref) member
      rw [ref] at inside'
      exact absurd inside' (parent_not_below _ _ wf')
  obtain ⟨state'', again, fine', before', propagated', start'⟩ := (computeFilesProperties_completes world pack' lead wf'
    state state₅ holds offset' fit' read' fine₅).2 readable'
  refine ⟨state'', again, fine', fun entry member => ?_⟩
  rw [reordered.ref] at propagated'
  refine propagated.unique propagated' reordered.refs ?_ (refs_proper pack) entry.ref (List.mem_map_of_mem member)
  intro ref known
  obtain ⟨entry', inside', same'⟩ := List.mem_map.mp (reordered.refs.mem_iff.mpr known)
  obtain ⟨entry, inside, same, within⟩ := reordered.entry inside'
  rw [← same', start' entry' inside', ← within, found.preType world lead manifest reordered.ref, ← same,
    start entry inside]

/-- The types of the files of a package, when they are computed without an error. -/
theorem computeFilesProperties_typed {tree : PathTree} (inTree : pack.packdir ∈ tree.root.entries)
    (state state' : State Closure) (holds : Holds lead state.path) (offset : lead.length = pack.offsetPack)
    (fit : Fit pack lead) (computed : computeFilesProperties world pack state = .ok state') (fine : 0 ≤ state'.rc) :
    Typed world pack lead (getEntryType state'.types) ∧
    ∀ (pack' : Package) (tree' : PathTree), pack'.packdir ∈ tree'.root.entries → Reordered pack pack' →
      ∃ state'', computeFilesProperties world pack' state = .ok state'' ∧ 0 ≤ state''.rc ∧
        ∀ entry ∈ pack.packdir.entries,
          getEntryType state''.types entry.ref = getEntryType state'.types entry.ref := by
  have wellFormed : ∀ (tree : PathTree) (entry : PathEntry), entry ∈ tree.root.entries →
      entry.children.WellFormed := by
    intro tree entry member
    have found := (descend_root_iff tree entry.ref entry).mpr ⟨member, rfl⟩
    exact (entries_descend entry.ref tree.root entry tree.wf found).1
  have wf := wellFormed tree pack.packdir inTree
  obtain ⟨_, -, -, -, types⟩ := computeFilesProperties_fine world pack lead wf state state' holds offset fit
    computed fine
  refine ⟨types.typed, fun pack' tree' inTree' reordered => ?_⟩
  exact computeFilesProperties_reordered world pack lead reordered wf (wellFormed tree' pack'.packdir inTree')
    state state' holds offset fit computed fine

end

/-- A package with a library, a plug, and a public file in a directory of settings. -/
def mixedTree : PathTree :=
  filesOf [ascii "/p/config.xml", ascii "/p/lib/a", ascii "/p/etc/public/b", ascii "/p/plug/c"]

def mixedPackage : Package where
  packdir := (descend [ascii "p"] mixedTree.root).getD mixedTree.root
  offsetRoot := 0
  offsetPack := 2
  manifest := .object [(MANIFEST_PLUGS, .array [.object [(MANIFEST_NAME, .string (ascii "plug"))]])]

def mixedWorld : World :=
  { plainWorld (.object []) with
    fstatat := fun path =>
      .ok (if path ∈ [ascii "/p/lib", ascii "/p/etc", ascii "/p/etc/public", ascii "/p/plug"] then .directory
        else .regular) }

def mixedState : State Unit := startState () (store (List.replicate PATH_MAX 0) 0 (ascii "/p"))

theorem computeFilesProperties_typed_mixed :
    ∃ state', computeFilesProperties mixedWorld mixedPackage mixedState = .ok state' ∧
      mixedPackage.packdir.entries.map (fun entry => getEntryType state'.types entry.ref) =
        [.Id, .Public, .Public, .Public, .Lib, .Lib, .Plug, .Plug, .Public] ∧
      Typed mixedWorld mixedPackage (ascii "/p") (getEntryType state'.types) := by
  have run : (match computeFilesProperties mixedWorld mixedPackage mixedState with
    | .ok state' => some (state'.rc, mixedPackage.packdir.entries.map fun entry =>
        getEntryType state'.types entry.ref)
    | .error _ => none) = some (0, [.Id, .Public, .Public, .Public, .Lib, .Lib, .Plug, .Plug, .Public]) := by
    decide +kernel
  have inTree : mixedPackage.packdir ∈ mixedTree.root.entries := by decide +kernel
  have holds : Holds (ascii "/p") mixedState.path := ⟨by decide +kernel, by decide +kernel⟩
  have fit : Fit mixedPackage (ascii "/p") := by
    unfold Fit
    decide +kernel
  have offset : (ascii "/p").length = mixedPackage.offsetPack := by decide
  cases computed : computeFilesProperties mixedWorld mixedPackage mixedState with
  | error crashed => simp [computed] at run
  | ok state' =>
    rw [computed] at run
    obtain ⟨code, types⟩ := Prod.mk.inj (Option.some.inj run)
    exact ⟨state', rfl, types, (computeFilesProperties_typed mixedWorld mixedPackage (ascii "/p") inTree mixedState
      state' holds offset fit computed code.ge).1⟩

end AppManager.Install
