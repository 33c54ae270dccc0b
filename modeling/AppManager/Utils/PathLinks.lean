import AppManager.Utils.PathDestroy
import Mathlib.Data.List.Nodup

/-! The tree of paths as it stands in memory: each entry has an address, and a link to
its parent that `make_child` sets and that `path_entry_destroy` follows. Without its
addresses and links it is a tree of `PathEntry`, and its operations are those of the
tree. -/

namespace AppManager.Utils
open AppManager.Lib AppManager.Lib.Libc

/-- A pointer to an entry in memory, with the entries that it leads to. -/
inductive Linked where
  | null
  | node (address : Nat) (parent : Option Nat) (label : Label) (children sibling : Linked)
  deriving DecidableEq, Repr

namespace Linked

def erase : Linked → Entry
  | .null => .null
  | .node _ _ label children sibling => .node label children.erase sibling.erase

def addresses : Linked → List Nat
  | .null => []
  | .node address _ _ children sibling => address :: (children.addresses ++ sibling.addresses)

/-- Siblings of one parent whose links lead to it, and so on below them. -/
def LinksTo (parent : Nat) : Linked → Prop
  | .null => True
  | .node address link _ children sibling =>
    link = some parent ∧ children.LinksTo address ∧ sibling.LinksTo parent

def makeChild (address parent : Nat) (name text : Bytes) (hasSlash : Bool) : Linked → Linked
  | .null => .node address (some parent) ⟨name, false, hasSlash⟩ .null .null
  | .node other link label children sibling =>
    if cstr label.name < cstr text then
      .node other link label children (makeChild address parent name text hasSlash sibling)
    else .node address (some parent) ⟨name, false, hasSlash⟩ .null (.node other link label children sibling)

def getChild (address parent : Nat) (name text : Bytes) (hasSlash : Bool) (children : Linked) : Linked :=
  if searchChild name children.erase = .null then makeChild address parent name text hasSlash children
  else children

def updateChild (name : Bytes) (change : Nat → Label → Linked → Label × Linked) : Linked → Linked
  | .null => .null
  | .node address link label children sibling =>
    if label.name = name then
      .node address link (change address label children).1 (change address label children).2 sibling
    else .node address link label children (updateChild name change sibling)

/-- `process` with `get_child` from the entry at an address. The supply gives the
addresses of the entries that are made. -/
def addSegments : List Segment → (Nat → Nat) → Nat → Label → Linked → Label × Linked
  | [], _, _, label, children => ({ label with added := true }, children)
  | segment :: rest, supply, parent, label, children =>
    (label, updateChild segment.name (addSegments rest fun index => supply (index + 1))
      (getChild (supply 0) parent segment.name segment.text segment.hasSlash children))

def linkOf (address : Nat) : Linked → Option (Option Nat)
  | .null => none
  | .node own link _ children sibling =>
    if own = address then some link else (children.linkOf address).or (sibling.linkOf address)

/-- Takes the entry at an address out of its siblings. -/
def unlink (address : Nat) : Linked → Linked
  | .null => .null
  | .node own link label children sibling =>
    if own = address then sibling else .node own link label children (sibling.unlink address)

/-- Takes an entry out of the children of the one at the address of its parent. -/
def unlinkFrom (parent address : Nat) : Linked → Linked
  | .null => .null
  | .node own link label children sibling =>
    if own = parent then .node own link label (children.unlink address) sibling
    else .node own link label (children.unlinkFrom parent address) (sibling.unlinkFrom parent address)

/-- The components that lead to the entry at an address. -/
def locate (address : Nat) : Linked → Option Ref
  | .null => none
  | .node own _ label children sibling =>
    if own = address then some [label.name]
    else ((children.locate address).map (label.name :: ·)).or (sibling.locate address)

theorem erase_makeChild (address parent : Nat) (name text : Bytes) (hasSlash : Bool) (children : Linked) :
    (children.makeChild address parent name text hasSlash).erase =
      Utils.makeChild name text hasSlash children.erase := by
  induction children with
  | null => rfl
  | node other link label children sibling _ rest =>
    rw [makeChild, erase, Utils.makeChild]
    split
    · rw [erase, rest]
    · rfl

theorem erase_getChild (address parent : Nat) (name text : Bytes) (hasSlash : Bool) (children : Linked) :
    (children.getChild address parent name text hasSlash).erase =
      Utils.getChild name text hasSlash children.erase := by
  unfold getChild Utils.getChild
  split
  · exact erase_makeChild address parent name text hasSlash children
  · rfl

theorem erase_updateChild (name : Bytes) (change : Nat → Label → Linked → Label × Linked)
    (change' : Label → Entry → Label × Entry)
    (same : ∀ address label children, change' label children.erase =
      ((change address label children).1, (change address label children).2.erase)) (children : Linked) :
    (children.updateChild name change).erase = Utils.updateChild name change' children.erase := by
  induction children with
  | null => rfl
  | node address link label children sibling _ rest =>
    rw [updateChild, erase, Utils.updateChild, same address label children]
    split
    · rfl
    · rw [erase, rest]

theorem erase_addSegments (path : List Segment) (supply : Nat → Nat) (parent : Nat) (label : Label)
    (children : Linked) : Utils.addSegments path label children.erase =
      ((addSegments path supply parent label children).1,
        (addSegments path supply parent label children).2.erase) := by
  induction path generalizing supply parent label children with
  | nil => rfl
  | cons segment rest ih =>
    rw [Utils.addSegments, addSegments]
    simp only
    rw [erase_updateChild _ _ (Utils.addSegments rest), erase_getChild]
    exact fun address label children => ih _ address label children

theorem linksTo_getChild (address parent : Nat) (name text : Bytes) (hasSlash : Bool) (children : Linked)
    (linked : children.LinksTo parent) :
    (children.getChild address parent name text hasSlash).LinksTo parent := by
  unfold getChild
  split
  · induction children with
    | null => exact ⟨rfl, trivial, trivial⟩
    | node other link label children sibling _ rest =>
      obtain ⟨own, below, after⟩ := linked
      rw [makeChild]
      split
      · next missing _ =>
        refine ⟨own, below, rest after ?_⟩
        rw [searchChild_eq_null] at missing ⊢
        exact fun known => missing (List.mem_cons_of_mem _ known)
      · exact ⟨rfl, trivial, own, below, after⟩
  · exact linked

theorem linksTo_updateChild (name : Bytes) (change : Nat → Label → Linked → Label × Linked)
    (safe : ∀ address label children, children.LinksTo address →
      (change address label children).2.LinksTo address) (parent : Nat) (children : Linked)
    (linked : children.LinksTo parent) : (children.updateChild name change).LinksTo parent := by
  induction children with
  | null => trivial
  | node address link label children sibling _ rest =>
    obtain ⟨own, below, after⟩ := linked
    rw [updateChild]
    split
    · exact ⟨own, safe address label children below, after⟩
    · exact ⟨own, below, rest after⟩

theorem linksTo_addSegments (path : List Segment) (supply : Nat → Nat) (parent : Nat) (label : Label)
    (children : Linked) (linked : children.LinksTo parent) :
    (addSegments path supply parent label children).2.LinksTo parent := by
  induction path generalizing supply parent label children with
  | nil => exact linked
  | cons segment rest ih =>
    exact linksTo_updateChild _ _ (fun address label children => ih _ address label children) parent _
      (linksTo_getChild _ _ _ _ _ children linked)

/-- The new addresses are distinct ones of the supply. -/
def Grown (supply : Nat → Nat) (old new : List Nat) : Prop :=
  ∃ indices : List Nat, indices.Nodup ∧ new.Perm (indices.map supply ++ old)

theorem Grown.refl (supply : Nat → Nat) (old : List Nat) : Grown supply old old :=
  ⟨[], List.nodup_nil, List.Perm.refl _⟩

theorem addresses_makeChild (address parent : Nat) (name text : Bytes) (hasSlash : Bool) (children : Linked) :
    (children.makeChild address parent name text hasSlash).addresses.Perm (address :: children.addresses) := by
  induction children with
  | null => exact List.Perm.refl _
  | node other link label children sibling _ rest =>
    rw [makeChild]
    split
    · rw [addresses, addresses]
      exact (((rest.append_left children.addresses).trans List.perm_middle).cons other).trans
        (List.Perm.swap _ _ _)
    · exact List.Perm.refl _

theorem addresses_updateChild (name : Bytes) (change : Nat → Label → Linked → Label × Linked)
    (supply : Nat → Nat) (grows : ∀ address label children,
      Grown supply children.addresses (change address label children).2.addresses) (children : Linked) :
    Grown supply children.addresses (children.updateChild name change).addresses := by
  induction children with
  | null => exact Grown.refl supply _
  | node address link label children sibling _ rest =>
    rw [updateChild]
    split
    · obtain ⟨indices, distinct, same⟩ := grows address label children
      refine ⟨indices, distinct, ?_⟩
      rw [addresses, addresses]
      refine List.Perm.trans ((same.append_right sibling.addresses).cons address) ?_
      rw [List.append_assoc]
      exact List.perm_middle.symm
    · obtain ⟨indices, distinct, same⟩ := rest
      refine ⟨indices, distinct, ?_⟩
      rw [addresses, addresses]
      refine List.Perm.trans ((same.append_left children.addresses).cons address) ?_
      refine List.Perm.trans (List.Perm.cons address ?_) List.perm_middle.symm
      rw [← List.append_assoc, ← List.append_assoc]
      exact List.perm_append_comm.append_right sibling.addresses

theorem addresses_addSegments (path : List Segment) (supply : Nat → Nat) (parent : Nat) (label : Label)
    (children : Linked) :
    Grown supply children.addresses (addSegments path supply parent label children).2.addresses := by
  induction path generalizing supply parent label children with
  | nil => exact Grown.refl supply _
  | cons segment rest ih =>
    obtain ⟨indices, distinct, same⟩ := addresses_updateChild segment.name _ (fun index => supply (index + 1))
      (fun address label children => ih _ address label children)
      (getChild (supply 0) parent segment.name segment.text segment.hasSlash children)
    have shifted : indices.map (fun index => supply (index + 1)) = (indices.map (· + 1)).map supply := by
      rw [List.map_map]
      rfl
    have later : (indices.map (· + 1)).Nodup := List.Nodup.map (fun _ _ equal => Nat.succ.inj equal) distinct
    rw [shifted] at same
    rw [addSegments]
    unfold getChild at same ⊢
    split at same
    · next missing =>
      rw [if_pos missing]
      refine ⟨0 :: indices.map (· + 1), ?_, ?_⟩
      · rw [List.nodup_cons]
        exact ⟨by simp, later⟩
      · refine same.trans (((addresses_makeChild _ _ _ _ _ children).append_left _).trans ?_)
        exact List.perm_middle
    · next known =>
      rw [if_neg known]
      exact ⟨indices.map (· + 1), later, same⟩

theorem addresses_unlink (address : Nat) (children : Linked) :
    (children.unlink address).addresses.Sublist children.addresses := by
  induction children with
  | null => exact List.Sublist.refl _
  | node own link label children sibling _ rest =>
    rw [unlink]
    split
    · exact (List.sublist_append_right _ _).trans (List.sublist_cons_self _ _)
    · exact ((List.Sublist.refl _).append rest).cons_cons own

theorem addresses_unlinkFrom (parent address : Nat) (children : Linked) :
    (children.unlinkFrom parent address).addresses.Sublist children.addresses := by
  induction children with
  | null => exact List.Sublist.refl _
  | node own link label children sibling inner rest =>
    rw [unlinkFrom]
    split
    · exact ((addresses_unlink address children).append (List.Sublist.refl _)).cons_cons own
    · exact (inner.append rest).cons_cons own

theorem linksTo_unlink (address parent : Nat) (children : Linked) (linked : children.LinksTo parent) :
    (children.unlink address).LinksTo parent := by
  induction children with
  | null => trivial
  | node own link label children sibling _ rest =>
    obtain ⟨here, below, after⟩ := linked
    rw [unlink]
    split
    · exact after
    · exact ⟨here, below, rest after⟩

theorem linksTo_unlinkFrom (from' address parent : Nat) (children : Linked) (linked : children.LinksTo parent) :
    (children.unlinkFrom from' address).LinksTo parent := by
  induction children generalizing parent with
  | null => trivial
  | node own link label children sibling inner rest =>
    obtain ⟨here, below, after⟩ := linked
    rw [unlinkFrom]
    split
    · exact ⟨here, linksTo_unlink address own children below, after⟩
    · exact ⟨here, inner own below, rest parent after⟩

theorem linkOf_eq_none (address : Nat) (children : Linked) :
    children.linkOf address = none ↔ address ∉ children.addresses := by
  induction children with
  | null => simp [linkOf, addresses]
  | node own link label children sibling inner rest =>
    rw [linkOf, addresses, List.mem_cons, List.mem_append, not_or, not_or, ← inner, ← rest]
    by_cases here : own = address
    · simp [here]
    · simp [here, Ne.symm here]

theorem locate_eq_none (address : Nat) (children : Linked) :
    children.locate address = none ↔ address ∉ children.addresses := by
  induction children with
  | null => simp [locate, addresses]
  | node own link label children sibling inner rest =>
    rw [locate, addresses, List.mem_cons, List.mem_append, not_or, not_or, ← inner, ← rest]
    by_cases here : own = address
    · simp [here]
    · simp [here, Ne.symm here]

theorem unlinkFrom_absent (parent address : Nat) (children : Linked) (absent : parent ∉ children.addresses) :
    children.unlinkFrom parent address = children := by
  induction children with
  | null => rfl
  | node own link label children sibling inner rest =>
    rw [addresses, List.mem_cons, List.mem_append, not_or, not_or] at absent
    rw [unlinkFrom, if_neg (Ne.symm absent.1), inner absent.2.1, rest absent.2.2]

theorem unlink_located (address parent : Nat) (children : Linked) (ref : Ref)
    (wf : children.erase.WellFormed) (linked : children.LinksTo parent)
    (distinct : children.addresses.Nodup) (located : children.locate address = some ref) :
    (∃ name, ref = [name] ∧ name ∈ children.erase.names ∧ children.linkOf address = some (some parent) ∧
      (children.unlink address).erase = removeChild name children.erase) ∨
    ∃ above name rest, ref = name :: rest ∧ rest ≠ [] ∧ name ∈ children.erase.names ∧
      above ∈ children.addresses ∧ children.linkOf address = some (some above) ∧
      (children.unlinkFrom above address).erase = destroyBelow ref children.erase := by
  induction children generalizing parent ref with
  | null => simp [locate] at located
  | node own link label children sibling inner rest =>
    obtain ⟨-, -, fresh, below, after⟩ := wf
    obtain ⟨here, deeper, beside⟩ := linked
    rw [addresses, List.nodup_cons, List.nodup_append, List.mem_append, not_or] at distinct
    obtain ⟨alone, first, second, apart⟩ := distinct
    rw [locate] at located
    by_cases same : own = address
    · rw [if_pos same, Option.some.injEq] at located
      refine Or.inl ⟨label.name, located.symm, by simp [erase, Entry.names], ?_, ?_⟩
      · rw [linkOf, if_pos same, here]
      · rw [unlink, if_pos same, erase, removeChild, if_pos rfl]
    · rw [if_neg same] at located
      cases found : children.locate address with
      | some path =>
        rw [found] at located
        simp only [Option.map_some, Option.some_or, Option.some.injEq] at located
        subst located
        right
        rcases inner own path below deeper first found with
          ⟨name, single, known, leads, done⟩ | ⟨above, name, tail, split, longer, known, inside, leads, done⟩
        · refine ⟨own, label.name, path, rfl, by simp [single], by simp [erase, Entry.names],
            List.mem_cons_self, ?_, ?_⟩
          · rw [linkOf, if_neg same, leads, Option.some_or]
          · rw [unlinkFrom, if_pos rfl, erase, erase, done, single, destroyBelow, Utils.updateChild,
              if_pos rfl]
            rfl
        · have other : own ≠ above := fun equal => alone.1 (equal ▸ inside)
          have away : above ∉ sibling.addresses := fun too => apart above inside above too rfl
          refine ⟨above, label.name, path, rfl, by simp [split], by simp [erase, Entry.names],
            List.mem_cons_of_mem _ (List.mem_append_left _ inside), ?_, ?_⟩
          · rw [linkOf, if_neg same, leads, Option.some_or]
          · rw [unlinkFrom, if_neg other, unlinkFrom_absent above address sibling away, erase, erase, done,
              split, destroyBelow, Utils.updateChild, if_pos rfl]
      | none =>
        rw [found] at located
        simp only [Option.map_none, Option.none_or] at located
        have absent : children.linkOf address = none :=
          (linkOf_eq_none address children).mpr ((locate_eq_none address children).mp found)
        rcases rest parent ref after beside second located with
          ⟨name, single, known, leads, done⟩ | ⟨above, name, tail, split, longer, known, inside, leads, done⟩
        · have other : label.name ≠ name := fun equal => fresh (equal ▸ known)
          refine Or.inl ⟨name, single, List.mem_cons_of_mem _ known, ?_, ?_⟩
          · rw [linkOf, if_neg same, absent, Option.none_or, leads]
          · rw [unlink, if_neg same, erase, erase, done, removeChild, if_neg other]
        · have other : label.name ≠ name := fun equal => fresh (equal ▸ known)
          have differs : own ≠ above := fun equal => alone.2 (equal ▸ inside)
          have away : above ∉ children.addresses := fun too => apart above too above inside rfl
          refine Or.inr ⟨above, name, tail, split, longer, List.mem_cons_of_mem _ known,
            List.mem_cons_of_mem _ (List.mem_append_right _ inside), ?_, ?_⟩
          · rw [linkOf, if_neg same, absent, Option.none_or, leads]
          · rw [unlinkFrom, if_neg differs, unlinkFrom_absent above address children away, erase, erase, done,
              split]
            cases tail with
            | nil => exact absurd rfl longer
            | cons next tail => rw [destroyBelow, destroyBelow, Utils.updateChild, if_neg other]

theorem names_unlink (address : Nat) (children : Linked) :
    ∀ name ∈ (children.unlink address).erase.names, name ∈ children.erase.names := by
  induction children with
  | null => simp [unlink]
  | node own link label children sibling _ rest =>
    intro name member
    rw [unlink] at member
    split at member
    · exact List.mem_cons_of_mem _ member
    · rcases List.mem_cons.mp member with same | later
      · exact List.mem_cons.mpr (Or.inl same)
      · exact List.mem_cons_of_mem _ (rest name later)

theorem wellFormed_unlink (address : Nat) (children : Linked) (wf : children.erase.WellFormed) :
    (children.unlink address).erase.WellFormed := by
  induction children with
  | null => trivial
  | node own link label children sibling _ rest =>
    obtain ⟨proper, plain, fresh, below, after⟩ := wf
    rw [unlink]
    split
    · exact after
    · exact ⟨proper, plain, fun known => fresh (names_unlink address sibling _ known), below, rest after⟩

theorem names_unlinkFrom (parent address : Nat) (children : Linked) :
    (children.unlinkFrom parent address).erase.names = children.erase.names := by
  induction children with
  | null => rfl
  | node own link label children sibling _ rest =>
    rw [unlinkFrom]
    split
    · rfl
    · rw [erase, Entry.names, rest, erase, Entry.names]

theorem wellFormed_unlinkFrom (parent address : Nat) (children : Linked) (wf : children.erase.WellFormed) :
    (children.unlinkFrom parent address).erase.WellFormed := by
  induction children with
  | null => trivial
  | node own link label children sibling inner rest =>
    obtain ⟨proper, plain, fresh, below, after⟩ := wf
    rw [unlinkFrom]
    split
    · exact ⟨proper, plain, fresh, wellFormed_unlink address children below, after⟩
    · exact ⟨proper, plain, by rw [names_unlinkFrom]; exact fresh, inner below, rest after⟩

end Linked

/-- The entries of one tree in memory, from the address of its root. Names are proper and
differ among siblings, links lead to the parents, no two entries have one address. -/
structure Memory where
  root : Nat
  added : Bool
  children : Linked
  wf : children.erase.WellFormed
  linked : children.LinksTo root
  distinct : (root :: children.addresses).Nodup

namespace Memory

def tree (memory : Memory) : PathTree := ⟨memory.added, memory.children.erase, memory.wf⟩

def createRoot (address : Nat) : Memory := ⟨address, false, .null, trivial, trivial, by simp [Linked.addresses]⟩

/-- The addresses that `malloc` gives next: distinct ones, none of which is in use. -/
structure Supply (memory : Memory) where
  next : Nat → Nat
  injective : Function.Injective next
  fresh : ∀ index, next index ∉ memory.root :: memory.children.addresses

theorem distinct_grown (memory : Memory) (supply : Supply memory) (addresses : List Nat)
    (grown : Linked.Grown supply.next memory.children.addresses addresses) :
    (memory.root :: addresses).Nodup := by
  obtain ⟨indices, apart, same⟩ := grown
  have both := List.nodup_cons.mp memory.distinct
  have away : ∀ address ∈ indices.map supply.next, address ∉ memory.root :: memory.children.addresses := by
    intro address member
    obtain ⟨index, -, given⟩ := List.mem_map.mp member
    exact given ▸ supply.fresh index
  rw [List.nodup_cons, same.nodup_iff, same.mem_iff, List.mem_append, not_or, List.nodup_append]
  refine ⟨⟨fun given => away _ given List.mem_cons_self, both.1⟩, List.Nodup.map supply.injective apart,
    both.2, ?_⟩
  intro address given other used equal
  exact away address given (List.mem_cons_of_mem _ (equal ▸ used))

def addLength (memory : Memory) (path : Bytes) (length : Nat) (supply : Supply memory) : Memory :=
  let path := segments true false path (length % 2 ^ 32)
  let added := Linked.addSegments path supply.next memory.root memory.tree.label memory.children
  { root := memory.root
    added := added.1.added
    children := added.2
    wf := by
      have same := Linked.erase_addSegments path supply.next memory.root memory.tree.label memory.children
      have safe := wellFormed_addSegments path (segment_proper _ _ _ _) memory.tree.label memory.tree.children
        memory.tree.wf
      rw [show memory.tree.children = memory.children.erase from rfl, same] at safe
      exact safe
    linked := Linked.linksTo_addSegments path supply.next memory.root memory.tree.label memory.children
      memory.linked
    distinct := memory.distinct_grown supply _
      (Linked.addresses_addSegments path supply.next memory.root memory.tree.label memory.children) }

/-- The root has no parent, and its destruction leaves no tree. -/
def destroy (memory : Memory) (address : Nat) : Option Memory :=
  match memory.children.linkOf address with
  | some (some parent) =>
    some (if parent = memory.root then
      { memory with
        children := memory.children.unlink address
        wf := Linked.wellFormed_unlink address memory.children memory.wf
        linked := Linked.linksTo_unlink address memory.root memory.children memory.linked
        distinct := memory.distinct.sublist ((Linked.addresses_unlink address memory.children).cons_cons _) }
    else
      { memory with
        children := memory.children.unlinkFrom parent address
        wf := Linked.wellFormed_unlinkFrom parent address memory.children memory.wf
        linked := Linked.linksTo_unlinkFrom parent address memory.root memory.children memory.linked
        distinct := memory.distinct.sublist
          ((Linked.addresses_unlinkFrom parent address memory.children).cons_cons _) })
  | _ => none

theorem tree_addLength (memory : Memory) (path : Bytes) (length : Nat) (supply : Supply memory) :
    (memory.addLength path length supply).tree = (pathEntryAddLength memory.tree path length).2 := by
  have same := Linked.erase_addSegments (segments true false path (length % 2 ^ 32)) supply.next memory.root
    memory.tree.label memory.children
  unfold addLength tree pathEntryAddLength
  simp only [PathTree.mk.injEq]
  exact ⟨(congrArg (fun pair => pair.1.added) same).symm, (congrArg Prod.snd same).symm⟩

theorem tree_destroy (memory : Memory) (address : Nat) (ref : Ref)
    (located : memory.children.locate address = some ref) :
    ∃ rest, memory.destroy address = some rest ∧ pathEntryDestroy memory.tree ref = some rest.tree := by
  have both := List.nodup_cons.mp memory.distinct
  rcases Linked.unlink_located address memory.root memory.children ref memory.wf memory.linked both.2 located with
    ⟨name, single, -, leads, done⟩ | ⟨above, name, rest, split, -, -, inside, leads, done⟩
  · refine ⟨_, by rw [destroy, leads], ?_⟩
    rw [pathEntryDestroy, if_neg (by simp [single]), if_pos rfl]
    simp only [tree, done, single, destroyBelow]
  · have other : above ≠ memory.root := fun equal => both.1 (equal ▸ inside)
    refine ⟨_, by rw [destroy, leads], ?_⟩
    rw [pathEntryDestroy, if_neg (by simp [split]), if_neg other]
    simp only [tree, done]

end Memory
end AppManager.Utils
