import Mathlib.Data.List.Induction
import AppManager.Utils.PathEntry
import AppManager.Utils.PathType

/-! The propagation of public and plug types to the directories above. The types after
it do not depend on the order in which siblings come. -/

namespace AppManager.Install
open AppManager.Lib AppManager.Utils

/-- The types that change those of the directories above. -/
def spreads (type : PathType) : Bool := type = .Plug || type.isPublic

/-- What an entry makes of the type of its parent. -/
def raised (own child : PathType) : PathType :=
  if child = .Plug then if own = .Public then .Public else .Plug
  else if child.isPublic then .Public
  else own

def propagate (top : Ref) (types : Ref → PathType) (ref : Ref) : Ref → PathType :=
  if ref = top then types else Function.update types ref.dropLast (raised (types ref.dropLast) (types ref))

def childrenOf (top : Ref) (refs : List Ref) (parent : Ref) : List Ref :=
  refs.filter fun child => child ≠ top ∧ child.dropLast = parent

/-- The types after the propagation: each entry is raised by its children. -/
def Propagated (top : Ref) (refs : List Ref) (before after : Ref → PathType) : Prop :=
  ∀ parent, after parent = ((childrenOf top refs parent).map after).foldl raised (before parent)

theorem raised_comm (own first second : PathType) :
    raised (raised own first) second = raised (raised own second) first := by
  cases own <;> cases first <;> cases second <;> decide

theorem dropLast_ne (ref : Ref) (below : ref ≠ []) : ref.dropLast ≠ ref := by
  intro same
  have size := congrArg List.length same
  have positive := List.length_pos_iff.mpr below
  rw [List.length_dropLast] at size
  omega

theorem propagated_foldl (top : Ref) (refs : List Ref) (before : Ref → PathType)
    (order : refs.Pairwise fun first second => ¬first <+: second) (below : ∀ ref ∈ refs, ref ≠ top → ref ≠ []) :
    Propagated top refs before (refs.foldl (propagate top) before) := by
  induction refs using List.reverseRecOn with
  | nil => exact fun _ => rfl
  | append_singleton done last ih =>
    rw [List.pairwise_append] at order
    have earlier := ih order.1 fun ref member => below ref (List.mem_append.mpr (Or.inl member))
    rw [List.foldl_append, List.foldl_cons, List.foldl_nil]
    generalize done.foldl (propagate top) before = types at earlier ⊢
    have split : ∀ parent, childrenOf top (done ++ [last]) parent = childrenOf top done parent ++
        if last ≠ top ∧ last.dropLast = parent then [last] else [] := by
      intro parent
      simp only [childrenOf, List.filter_append, List.filter_cons, List.filter_nil, decide_eq_true_eq]
    intro parent
    by_cases isTop : last = top
    · rw [split, if_neg (fun child => child.1 isTop), List.append_nil, propagate, if_pos isTop]
      exact earlier parent
    · have named := below last (by simp) isTop
      have kept : ∀ child ∈ childrenOf top done parent,
          Function.update types last.dropLast (raised (types last.dropLast) (types last)) child = types child := by
        intro child member
        have inside := (List.mem_filter.mp member).1
        have apart := order.2.2 child inside last (by simp)
        refine Function.update_of_ne (fun same => apart ?_) _ _
        rw [same]
        exact List.dropLast_prefix last
      rw [split, propagate, if_neg isTop, List.map_append, List.foldl_append, List.map_congr_left kept,
        ← earlier parent]
      by_cases here : last.dropLast = parent
      · rw [if_pos ⟨isTop, here⟩, ← here, Function.update_self, List.map_cons, List.map_nil,
          Function.update_of_ne (dropLast_ne last named).symm]
        rfl
      · rw [if_neg (fun child => here child.2), Function.update_of_ne (Ne.symm here)]
        rfl

theorem foldl_raised_public (own : PathType) (types : List PathType) (isPublic : own = .Public ∨
    ∃ type ∈ types, type.isPublic = true) : types.foldl raised own = .Public := by
  induction types generalizing own with
  | nil => simpa using isPublic
  | cons type rest ih =>
    have keeps : ∀ type, raised .Public type = .Public := by
      intro type
      cases type <;> rfl
    have raises : ∀ own type, type.isPublic = true → raised own type = .Public := by
      intro own type
      cases own <;> cases type <;> decide
    apply ih
    rcases isPublic with same | ⟨other, member, shown⟩
    · exact Or.inl (same ▸ keeps type)
    · rcases List.mem_cons.mp member with here | later
      · exact Or.inl (raises own type (here ▸ shown))
      · exact Or.inr ⟨other, later, shown⟩

theorem foldl_raised_plug (own : PathType) (types : List PathType) (plug : own = .Plug ∨ own = .Public ∨
    .Plug ∈ types) : types.foldl raised own = .Plug ∨ types.foldl raised own = .Public := by
  induction types generalizing own with
  | nil => simpa using plug
  | cons type rest ih =>
    have keeps : ∀ own type, own = .Plug ∨ own = .Public ∨ type = .Plug →
        raised own type = .Plug ∨ raised own type = .Public := by
      intro own type
      cases own <;> cases type <;> decide
    have next : raised own type = .Plug ∨ raised own type = .Public ∨ .Plug ∈ rest := by
      rcases plug with same | same | member
      · exact (keeps own type (Or.inl same)).imp_right Or.inl
      · exact (keeps own type (Or.inr (Or.inl same))).imp_right Or.inl
      · rcases List.mem_cons.mp member with here | later
        · exact (keeps own type (Or.inr (Or.inr here.symm))).imp_right Or.inl
        · exact Or.inr (Or.inr later)
    exact ih _ next

theorem foldl_raised_same (own : PathType) (types : List PathType) (quiet : ∀ type ∈ types, spreads type = false) :
    types.foldl raised own = own := by
  induction types with
  | nil => rfl
  | cons type rest ih =>
    have keeps : ∀ own type, spreads type = false → raised own type = own := by
      intro own type
      cases own <;> cases type <;> decide
    rw [List.foldl_cons, keeps own type (quiet type (by simp))]
    exact ih fun other member => quiet other (List.mem_cons_of_mem _ member)

theorem below_induction {motive : Ref → Prop} (refs : List Ref)
    (step : ∀ ref ∈ refs, (∀ other ∈ refs, ref <+: other → other ≠ ref → motive other) → motive ref) :
    ∀ ref ∈ refs, motive ref := by
  obtain ⟨bound, longest⟩ : ∃ bound, ∀ ref ∈ refs, ref.length ≤ bound :=
    ⟨refs.flatten.length, fun ref member => (List.sublist_flatten_of_mem member).length_le⟩
  intro ref member
  generalize left : bound - ref.length = distance
  induction distance using Nat.strong_induction_on generalizing ref with
  | _ distance ih =>
    apply step ref member
    intro other inside longer different
    have grown : ref.length < other.length := by
      rcases Nat.lt_or_ge ref.length other.length with less | more
      · exact less
      · exact absurd (longer.eq_of_length_le more).symm different
    have short := longest other inside
    exact ih (bound - other.length) (by omega) other inside rfl

section
variable {top : Ref} {refs : List Ref} {before after : Ref → PathType}

theorem mem_childrenOf {parent child : Ref} :
    child ∈ childrenOf top refs parent ↔ child ∈ refs ∧ child ≠ top ∧ child.dropLast = parent := by
  rw [childrenOf, List.mem_filter, decide_eq_true_eq]

theorem Propagated.parent_public (propagated : Propagated top refs before after) {child : Ref}
    (member : child ∈ refs) (below : child ≠ top) (isPublic : (after child).isPublic = true) :
    after child.dropLast = .Public := by
  rw [propagated child.dropLast]
  apply foldl_raised_public
  exact Or.inr ⟨after child, List.mem_map_of_mem (mem_childrenOf.mpr ⟨member, below, rfl⟩), isPublic⟩

theorem Propagated.parent_plug (propagated : Propagated top refs before after) {child : Ref}
    (member : child ∈ refs) (below : child ≠ top) (plug : after child = .Plug) :
    after child.dropLast = .Plug ∨ after child.dropLast = .Public := by
  rw [propagated child.dropLast]
  apply foldl_raised_plug
  refine Or.inr (Or.inr ?_)
  rw [← plug]
  exact List.mem_map_of_mem (mem_childrenOf.mpr ⟨member, below, rfl⟩)

theorem Propagated.above_public (propagated : Propagated top refs before after)
    (closed : ∀ ref ∈ refs, ref ≠ top → ref.dropLast ∈ refs) (inside : ∀ ref ∈ refs, top <+: ref) {ref above : Ref}
    (known : above ∈ refs) (member : ref ∈ refs) (longer : above <+: ref) (strict : above ≠ ref)
    (isPublic : (after ref).isPublic = true) : after above = .Public := by
  obtain ⟨rest, parts⟩ := longer
  induction rest using List.reverseRecOn generalizing ref with
  | nil => exact absurd (by simpa using parts) strict
  | append_singleton rest name ih =>
    have below : ref ≠ top := by
      intro same
      have size := (inside above known).length_le
      rw [← same, ← parts] at size
      simp only [List.length_append, List.length_singleton] at size
      omega
    have parent : ref.dropLast = above ++ rest := by
      rw [← parts, ← List.append_assoc, List.dropLast_concat]
    have raisedParent := propagated.parent_public member below isPublic
    have next := closed ref member below
    rw [parent] at raisedParent next
    by_cases direct : above = above ++ rest
    · rw [← direct] at raisedParent
      exact raisedParent
    · exact ih next direct (by rw [raisedParent]; rfl) rfl

/-- Entries above no type that spreads keep theirs. -/
theorem Propagated.kept (propagated : Propagated top refs before after) {ref : Ref} (known : ref ∈ refs)
    (quiet : ∀ below ∈ refs, ref <+: below → below ≠ ref → spreads (before below) = false)
    (proper : ∀ ref ∈ refs, ref ≠ top → ref ≠ []) : after ref = before ref := by
  revert quiet
  apply below_induction (motive := fun ref => (∀ below ∈ refs, ref <+: below → below ≠ ref →
    spreads (before below) = false) → after ref = before ref) refs ?_ ref known
  intro ref _ ih quiet
  rw [propagated ref]
  apply foldl_raised_same
  intro type member
  obtain ⟨child, isChild, same⟩ := List.mem_map.mp member
  obtain ⟨inside, below, parent⟩ := mem_childrenOf.mp isChild
  have under : ref <+: child := parent ▸ List.dropLast_prefix child
  have other : child ≠ ref := by
    rw [← parent]
    exact (dropLast_ne child (proper child inside below)).symm
  rw [← same, ih child inside under other ?_]
  · exact quiet child inside under other
  · intro deeper member' longer different
    refine quiet deeper member' (under.trans longer) ?_
    intro equal
    rw [equal] at longer
    exact other (longer.eq_of_length_le under.length_le)

/-- The types do not depend on the order of the entries. -/
theorem Propagated.unique (propagated : Propagated top refs before after) {refs' : List Ref}
    {before' after' : Ref → PathType} (propagated' : Propagated top refs' before' after') (perm : refs'.Perm refs)
    (start : ∀ ref ∈ refs, before' ref = before ref) (proper : ∀ ref ∈ refs, ref ≠ top → ref ≠ []) :
    ∀ ref ∈ refs, after' ref = after ref := by
  apply below_induction
  intro ref known ih
  have children : (childrenOf top refs' ref).Perm (childrenOf top refs ref) := perm.filter _
  have same : (childrenOf top refs ref).map after' = (childrenOf top refs ref).map after := by
    apply List.map_congr_left
    intro child isChild
    obtain ⟨inside, below, parent⟩ := mem_childrenOf.mp isChild
    refine ih child inside (parent ▸ List.dropLast_prefix child) ?_
    rw [← parent]
    exact (dropLast_ne child (proper child inside below)).symm
  rw [propagated ref, propagated' ref, start ref known, ← same]
  exact (children.map after').foldl_eq' (fun first _ second _ own => raised_comm own first second) _

end
end AppManager.Install
