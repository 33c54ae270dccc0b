import AppManager.Utils.PathLinks

/-! Prepending a path to the root of a tree. The children of the root are detached, the
entries of the path are made, and the children are attached again to the last of them. -/

namespace AppManager.Utils
open AppManager.Lib AppManager.Lib.Libc

/-- An entry at its address, with its children. -/
structure Place where
  address : Nat
  label : Label
  children : Linked
  deriving DecidableEq, Repr

/-- The variables of the entries at their addresses. -/
abbrev AddressVars (Key Value : Type) := Nat → List (Var Key Value)

namespace Linked

def childAt (name : Bytes) : Linked → Option Place
  | .null => none
  | .node address _ label children sibling =>
    if label.name = name then some ⟨address, label, children⟩ else sibling.childAt name

/-- `process` with `search_child`. -/
def lookup : Ref → Place → Option Place
  | [], place => some place
  | name :: rest, place => (place.children.childAt name).bind (lookup rest)

section
variable {Key Value : Type}

/-- `process` with `get_child`, from the entry at an address: the entry at its end, unless
memory ran out, and the entries and their variables that are left in both cases. -/
def process : List Segment → (Nat → Option Nat) → Nat → Linked → AddressVars Key Value →
    Option Nat × Linked × AddressVars Key Value
  | [], _, parent, children, vars => (some parent, children, vars)
  | segment :: rest, malloc, parent, children, vars =>
    match children.childAt segment.name with
    | some child =>
      let inner := process rest malloc child.address child.children vars
      (inner.1, children.updateChild segment.name (fun _ label _ => (label, inner.2.1)), inner.2.2)
    | none =>
      match malloc 0 with
      | none => (none, children, vars)
      | some address =>
        let made := children.makeChild address parent segment.name segment.text segment.hasSlash
        let inner := process rest (fun index => malloc (index + 1)) address .null (Function.update vars address [])
        (inner.1, made.updateChild segment.name (fun _ label _ => (label, inner.2.1)), inner.2.2)

end

def relink (parent : Nat) : Linked → Linked
  | .null => .null
  | .node address _ label children sibling => .node address (some parent) label children (sibling.relink parent)

def attach (tail : Nat) (attached : Linked) : Linked → Linked
  | .null => .null
  | .node address link label children sibling =>
    if address = tail then .node address link label attached sibling
    else .node address link label (attach tail attached children) (attach tail attached sibling)

/-- Siblings below the entries of a path that are made one below the other. -/
def hang : List Segment → (Nat → Option Nat) → Nat → Linked → Option Linked
  | [], _, parent, hung => some (hung.relink parent)
  | segment :: rest, malloc, parent, hung =>
    (malloc 0).bind fun address => (hang rest (fun index => malloc (index + 1)) address hung).map fun inner =>
      .node address (some parent) ⟨segment.name, false, segment.hasSlash⟩ inner .null

section
variable {Key Value : Type}

theorem process_cons_null (segment : Segment) (rest : List Segment) (malloc : Nat → Option Nat) (parent address : Nat)
    (vars : AddressVars Key Value) (given : malloc 0 = some address) :
    let inner := process rest (fun index => malloc (index + 1)) address .null (Function.update vars address [])
    process (segment :: rest) malloc parent .null vars =
      (inner.1, .node address (some parent) ⟨segment.name, false, segment.hasSlash⟩ inner.2.1 .null, inner.2.2) := by
  simp only [process, childAt, given, makeChild, updateChild, if_true]

theorem process_tail (path : List Segment) (malloc : Nat → Option Nat) (parent tail : Nat)
    (vars : AddressVars Key Value) (ends : (process path malloc parent .null vars).1 = some tail) :
    tail = parent ∨ ∃ index, malloc index = some tail := by
  induction path generalizing malloc parent vars with
  | nil => exact Or.inl (Option.some.inj ends).symm
  | cons segment rest ih =>
    cases given : malloc 0 with
    | none => simp [process, childAt, given] at ends
    | some address =>
      rw [process_cons_null segment rest malloc parent address vars given] at ends
      rcases ih _ _ _ ends with here | ⟨index, later⟩
      · exact Or.inr ⟨0, by rw [given, here]⟩
      · exact Or.inr ⟨index + 1, later⟩

theorem process_reaches (path : List Segment) (malloc : Nat → Option Nat) (given : ∀ index, (malloc index).isSome)
    (parent : Nat) (children : Linked) (vars : AddressVars Key Value) :
    (process path malloc parent children vars).1.isSome := by
  induction path generalizing malloc parent children vars with
  | nil => rfl
  | cons segment rest ih =>
    rw [process]
    cases children.childAt segment.name with
    | some child => exact ih malloc given _ _ _
    | none =>
      obtain ⟨address, first⟩ := Option.isSome_iff_exists.mp (given 0)
      rw [first]
      exact ih _ (fun index => given (index + 1)) _ _ _

theorem hang_process (path : List Segment) (malloc : Nat → Option Nat) (parent tail : Nat) (hung : Linked)
    (vars : AddressVars Key Value) (fresh : ∀ index, malloc index ≠ some parent)
    (apart : ∀ first second address, malloc first = some address → malloc second = some address → first = second)
    (ends : (process path malloc parent .null vars).1 = some tail) :
    hang path malloc parent hung = some (if tail = parent then hung.relink tail
      else attach tail (hung.relink tail) (process path malloc parent .null vars).2.1) := by
  induction path generalizing malloc parent vars with
  | nil =>
    have same : parent = tail := Option.some.inj ends
    rw [hang, if_pos same.symm, same]
  | cons segment rest ih =>
    cases given : malloc 0 with
    | none => simp [process, childAt, given] at ends
    | some address =>
      have below := process_cons_null segment rest malloc parent address vars given
      rw [below] at ends ⊢
      have later : ∀ index, malloc (index + 1) ≠ some address := by
        intro index again
        exact absurd (apart _ _ _ again given) (by simp)
      have away : tail ≠ parent := by
        rintro rfl
        rcases process_tail _ _ _ _ _ ends with here | ⟨index, taken⟩
        · exact fresh 0 (by rw [given, here])
        · exact fresh (index + 1) taken
      rw [hang, given, Option.bind_some, ih _ address _ later
        (fun first second other one two => Nat.succ.inj (apart _ _ other one two)) ends, Option.map_some,
        if_neg away, attach]
      by_cases here : address = tail
      · rw [if_pos here.symm, if_pos here]
      · rw [if_neg (Ne.symm here), if_neg here]
        rfl

theorem process_vars (path : List Segment) (malloc : Nat → Option Nat) (parent : Nat) (children : Linked)
    (vars : AddressVars Key Value) (address : Nat) (used : ∀ index, malloc index ≠ some address) :
    (process path malloc parent children vars).2.2 address = vars address := by
  induction path generalizing malloc parent children vars with
  | nil => rfl
  | cons segment rest ih =>
    rw [process]
    cases children.childAt segment.name with
    | some child => exact ih malloc _ _ vars used
    | none =>
      cases given : malloc 0 with
      | none => rfl
      | some made =>
        have other : address ≠ made := fun same => used 0 (same ▸ given)
        exact (ih _ _ _ _ fun index => used (index + 1)).trans (Function.update_of_ne other _ _)

end

theorem erase_relink (parent : Nat) (children : Linked) : (children.relink parent).erase = children.erase := by
  induction children with
  | null => rfl
  | node address link label children sibling _ rest => rw [relink, erase, erase, rest]

theorem addresses_relink (parent : Nat) (children : Linked) :
    (children.relink parent).addresses = children.addresses := by
  induction children with
  | null => rfl
  | node address link label children sibling _ rest => rw [relink, addresses, addresses, rest]

theorem linksTo_relink (old parent : Nat) (children : Linked) (linked : children.LinksTo old) :
    (children.relink parent).LinksTo parent := by
  induction children with
  | null => trivial
  | node address link label children sibling _ rest =>
    obtain ⟨-, below, after⟩ := linked
    exact ⟨rfl, below, rest after⟩

theorem childAt_relink (parent : Nat) (name : Bytes) (children : Linked) :
    (children.relink parent).childAt name = children.childAt name := by
  induction children with
  | null => rfl
  | node address link label children sibling _ rest => rw [relink, childAt, childAt, rest]

section
variable (path : List Segment) (malloc : Nat → Option Nat) (parent : Nat) (hung spine : Linked)

theorem hang_cons (segment : Segment) (rest : List Segment)
    (made : hang (segment :: rest) malloc parent hung = some spine) :
    ∃ address inner, malloc 0 = some address ∧ hang rest (fun index => malloc (index + 1)) address hung = some inner ∧
      spine = .node address (some parent) ⟨segment.name, false, segment.hasSlash⟩ inner .null := by
  rw [hang, Option.bind_eq_some_iff] at made
  obtain ⟨address, given, below⟩ := made
  rw [Option.map_eq_some_iff] at below
  obtain ⟨inner, deeper, same⟩ := below
  exact ⟨address, inner, given, deeper, same.symm⟩

theorem linksTo_hang (old : Nat) (linked : hung.LinksTo old) (made : hang path malloc parent hung = some spine) :
    spine.LinksTo parent := by
  induction path generalizing malloc parent spine with
  | nil =>
    rw [← Option.some.inj made]
    exact linksTo_relink old parent hung linked
  | cons segment rest ih =>
    obtain ⟨address, inner, -, deeper, rfl⟩ := hang_cons malloc parent hung spine segment rest made
    exact ⟨rfl, ih _ _ _ deeper, trivial⟩

theorem wellFormed_hang (proper : ∀ segment ∈ path, segment.name ≠ [] ∧ slash ∉ segment.name)
    (wf : hung.erase.WellFormed) (made : hang path malloc parent hung = some spine) : spine.erase.WellFormed := by
  induction path generalizing malloc parent spine with
  | nil =>
    rw [← Option.some.inj made, erase_relink]
    exact wf
  | cons segment rest ih =>
    obtain ⟨address, inner, -, deeper, rfl⟩ := hang_cons malloc parent hung spine segment rest made
    have here := proper segment List.mem_cons_self
    exact ⟨here.1, here.2, by simp [erase, Entry.names],
      ih _ _ _ (fun other member => proper other (List.mem_cons_of_mem segment member)) deeper, trivial⟩

theorem addresses_hang
    (apart : ∀ first second address, malloc first = some address → malloc second = some address → first = second)
    (made : hang path malloc parent hung = some spine) : ∃ new : List Nat, new.Nodup ∧
      (∀ address ∈ new, ∃ index, malloc index = some address) ∧ spine.addresses = new ++ hung.addresses := by
  induction path generalizing malloc parent spine with
  | nil =>
    rw [← Option.some.inj made]
    exact ⟨[], List.nodup_nil, by simp, addresses_relink parent hung⟩
  | cons segment rest ih =>
    obtain ⟨address, inner, given, deeper, rfl⟩ := hang_cons malloc parent hung spine segment rest made
    obtain ⟨new, distinct, taken, same⟩ := ih _ _ _
      (fun first second other one two => Nat.succ.inj (apart _ _ other one two)) deeper
    refine ⟨address :: new, List.nodup_cons.mpr ⟨?_, distinct⟩, ?_, by simp [addresses, same]⟩
    · intro again
      obtain ⟨index, later⟩ := taken address again
      exact absurd (apart _ _ _ later given) (by simp)
    · intro other member
      rcases List.mem_cons.mp member with here | later
      · exact ⟨0, here ▸ given⟩
      · obtain ⟨index, from'⟩ := taken other later
        exact ⟨index + 1, from'⟩

theorem lookup_hang (label first : Label) (start : Nat) (below : Ref) (inner : below ≠ [])
    (made : hang path malloc parent hung = some spine) :
    lookup (path.map Segment.name ++ below) ⟨parent, label, spine⟩ = lookup below ⟨start, first, hung⟩ := by
  induction path generalizing malloc parent spine label with
  | nil =>
    obtain ⟨name, rest, rfl⟩ := List.exists_cons_of_ne_nil inner
    rw [← Option.some.inj made, List.map_nil, List.nil_append, lookup, lookup, childAt_relink]
  | cons segment rest ih =>
    obtain ⟨address, inside, -, deeper, rfl⟩ := hang_cons malloc parent hung spine segment rest made
    rw [List.map_cons, List.cons_append, lookup, childAt, if_pos rfl, Option.bind_some]
    exact ih _ _ _ _ deeper

theorem lookup_hung (label first : Label) (start : Nat) (ref : Ref) (place : Place)
    (made : hang path malloc parent hung = some spine)
    (found : lookup ref ⟨parent, label, spine⟩ = some place) :
    (∃ below, below ≠ [] ∧ ref = path.map Segment.name ++ below ∧
      lookup below ⟨start, first, hung⟩ = some place) ∨
    ref <+: path.map Segment.name ∧ if ref = [] then place.label = label else place.label.added = false := by
  induction path generalizing malloc parent spine label ref with
  | nil =>
    cases ref with
    | nil =>
      rw [lookup, Option.some.injEq] at found
      exact Or.inr ⟨List.nil_prefix, by rw [if_pos rfl, ← found]⟩
    | cons name rest =>
      rw [← Option.some.inj made, lookup, childAt_relink] at found
      exact Or.inl ⟨name :: rest, by simp, rfl, found⟩
  | cons segment rest ih =>
    obtain ⟨address, inside, -, deeper, rfl⟩ := hang_cons malloc parent hung spine segment rest made
    cases ref with
    | nil =>
      rw [lookup, Option.some.injEq] at found
      exact Or.inr ⟨List.nil_prefix, by rw [if_pos rfl, ← found]⟩
    | cons name more =>
      by_cases same : segment.name = name
      · subst same
        rw [lookup, childAt, if_pos rfl, Option.bind_some] at found
        rcases ih _ _ _ _ _ deeper found with ⟨below, longer, split, there⟩ | ⟨starts, flag⟩
        · exact Or.inl ⟨below, longer, by rw [split, List.map_cons, List.cons_append], there⟩
        · refine Or.inr ⟨by rw [List.map_cons, List.cons_prefix_cons]; exact ⟨rfl, starts⟩, ?_⟩
          rw [if_neg (by simp)]
          split at flag
          · rw [flag]
          · exact flag
      · rw [lookup, childAt, if_neg same, childAt] at found
        cases found

end

theorem childAt_address (name : Bytes) (children : Linked) (child : Place) (found : children.childAt name = some child) :
    child.address :: child.children.addresses ⊆ children.addresses := by
  induction children with
  | null => cases found
  | node address link label children sibling _ rest =>
    rw [childAt] at found
    rw [addresses]
    split at found
    · rw [← Option.some.inj found]
      exact List.cons_subset_cons address (List.subset_append_left _ _)
    · exact List.Subset.trans (rest found)
        (List.Subset.trans (List.subset_append_right _ _) (List.subset_cons_self _ _))

theorem lookup_address (ref : Ref) (place found : Place) (reached : lookup ref place = some found) :
    found.address ∈ place.address :: place.children.addresses := by
  induction ref generalizing place with
  | nil =>
    rw [lookup, Option.some.injEq] at reached
    rw [← reached]
    exact List.mem_cons_self
  | cons name rest ih =>
    rw [lookup, Option.bind_eq_some_iff] at reached
    obtain ⟨child, first, later⟩ := reached
    exact List.mem_cons_of_mem _ (childAt_address name place.children child first (ih child later))

theorem lookup_erase (ref : Ref) (place : Place) (entry : PathEntry) (same : entry.label = place.label)
    (below : entry.children = place.children.erase) :
    (descend ref entry).map (fun found => (found.label, found.children)) =
      (lookup ref place).map fun found => (found.label, found.children.erase) := by
  induction ref generalizing place entry with
  | nil => simp [descend, lookup, same, below]
  | cons name rest ih =>
    have child (children : Linked) : (entry.findChild name children.erase = none ∧ children.childAt name = none) ∨
        ∃ found other, entry.findChild name children.erase = some found ∧ children.childAt name = some other ∧
          found.label = other.label ∧ found.children = other.children.erase := by
      induction children with
      | null => exact Or.inl ⟨rfl, rfl⟩
      | node address link label children sibling _ later =>
        by_cases here : label.name = name
        · subst here
          exact Or.inr ⟨_, _, findChild_here entry label children.erase sibling.erase, if_pos rfl, rfl, rfl⟩
        · rw [erase, findChild_later _ _ _ _ _ here, childAt, if_neg here]
          exact later
    rw [descend, lookup, below]
    rcases child place.children with ⟨none, none'⟩ | ⟨found, other, first, first', label, children⟩
    · rw [none, none']
      rfl
    · rw [first, first', Option.bind_some, Option.bind_some]
      exact ih other found label children

end Linked

namespace Memory

def place (memory : Memory) : Place := ⟨memory.root, memory.tree.label, memory.children⟩

def getLength (memory : Memory) (path : Bytes) (length : Nat) : Option Place :=
  Linked.lookup (components path (length % 2 ^ 32)) memory.place

/-- `path_entry_parent`. -/
def parent (memory : Memory) (address : Nat) : Option Nat :=
  if address = memory.root then none else (memory.children.linkOf address).join

/-- What `malloc` answers next, as far as it goes: distinct addresses, none of which is in use. -/
structure Malloc (memory : Memory) where
  next : Nat → Option Nat
  apart : ∀ first second address, next first = some address → next second = some address → first = second
  fresh : ∀ index, ∀ address ∈ memory.root :: memory.children.addresses, next index ≠ some address

structure Prepended (Key Value : Type) where
  status : Int
  entry : Option Nat
  memory : Memory
  vars : AddressVars Key Value

/-- The children of the root once its former ones are attached to the last new entry. -/
def attached (memory : Memory) (tail : Nat) (made : Linked) : Linked :=
  if tail = memory.root then memory.children.relink tail
  else Linked.attach tail (memory.children.relink tail) made

section
variable {Key Value : Type}

theorem attached_hang (memory : Memory) (vars : AddressVars Key Value) (path : List Segment) (malloc : Malloc memory)
    (tail : Nat) (ends : (Linked.process path malloc.next memory.root .null vars).1 = some tail) :
    Linked.hang path malloc.next memory.root memory.children =
      some (memory.attached tail (Linked.process path malloc.next memory.root .null vars).2.1) :=
  Linked.hang_process path malloc.next memory.root tail memory.children vars
    (fun index => malloc.fresh index memory.root List.mem_cons_self) malloc.apart ends

theorem distinct_hang (memory : Memory) (path : List Segment) (malloc : Malloc memory) (spine : Linked)
    (made : Linked.hang path malloc.next memory.root memory.children = some spine) :
    (memory.root :: spine.addresses).Nodup := by
  obtain ⟨new, distinct, taken, same⟩ :=
    Linked.addresses_hang path malloc.next memory.root memory.children spine malloc.apart made
  have both := List.nodup_cons.mp memory.distinct
  have away : ∀ address ∈ new, address ∉ memory.root :: memory.children.addresses := by
    intro address member used
    obtain ⟨index, given⟩ := taken address member
    exact malloc.fresh index address used given
  rw [same, List.nodup_cons, List.mem_append, not_or, List.nodup_append]
  refine ⟨⟨fun given => away _ given List.mem_cons_self, both.1⟩, distinct, both.2, ?_⟩
  intro address given other used equal
  exact away address given (List.mem_cons_of_mem _ (equal ▸ used))

/-- The path is one whose names fit in their blocks. When memory runs out, the children are
attached to the root again. -/
def rootPrependLength (memory : Memory) (vars : AddressVars Key Value) (root : Nat) (path : Bytes) (length : Nat)
    (_fits : NamesFit path length) (malloc : Malloc memory) : Prepended Key Value :=
  if (memory.parent root).isSome then ⟨-EINVAL, none, memory, vars⟩
  else
    let path := segments true false path (length % 2 ^ 32)
    let made := Linked.process path malloc.next memory.root .null vars
    match ends : made.1 with
    | none => ⟨-ENOMEM, none, memory, made.2.2⟩
    | some tail =>
      { status := 0
        entry := some tail
        memory := { memory with
          children := memory.attached tail made.2.1
          wf := Linked.wellFormed_hang path _ _ _ _ (segment_proper _ _ _ _) memory.wf
            (memory.attached_hang vars path malloc tail ends)
          linked := Linked.linksTo_hang path _ _ _ _ memory.root memory.linked
            (memory.attached_hang vars path malloc tail ends)
          distinct := memory.distinct_hang path malloc _ (memory.attached_hang vars path malloc tail ends) }
        vars := made.2.2 }

theorem rootPrependLength_cases (memory : Memory) (vars : AddressVars Key Value) (root : Nat) (path : Bytes)
    (length : Nat) (fits : NamesFit path length) (malloc : Malloc memory) :
    let result := memory.rootPrependLength vars root path length fits malloc
    (∀ address ∈ memory.root :: memory.children.addresses, result.vars address = vars address) ∧
      (result.status < 0 ∧ result.memory = memory ∨
        result.status = 0 ∧ result.memory.root = memory.root ∧ result.memory.added = memory.added ∧
          Linked.hang (segments true false path (length % 2 ^ 32)) malloc.next memory.root memory.children =
            some result.memory.children) := by
  unfold rootPrependLength
  split
  · exact ⟨fun _ _ => rfl, Or.inl ⟨EINVAL_failure, rfl⟩⟩
  · have kept (address : Nat) (used : address ∈ memory.root :: memory.children.addresses) :=
      Linked.process_vars (segments true false path (length % 2 ^ 32)) malloc.next memory.root .null vars address
        (fun index => malloc.fresh index address used)
    simp only
    split
    · exact ⟨kept, Or.inl ⟨ENOMEM_failure, rfl⟩⟩
    · next tail ends => exact ⟨kept, Or.inr ⟨rfl, rfl, rfl, memory.attached_hang vars _ malloc tail ends⟩⟩

theorem rootPrependLength_succeeds (memory : Memory) (vars : AddressVars Key Value) (path : Bytes) (length : Nat)
    (fits : NamesFit path length) (malloc : Malloc memory) (given : ∀ index, (malloc.next index).isSome) :
    (memory.rootPrependLength vars memory.root path length fits malloc).status = 0 := by
  have reaches := Linked.process_reaches (segments true false path (length % 2 ^ 32)) malloc.next given memory.root
    .null vars
  have top : (memory.parent memory.root).isSome = false := by rw [parent, if_pos rfl]; rfl
  unfold rootPrependLength
  rw [if_neg (by simp [top])]
  simp only
  split
  · next none => rw [none] at reaches; cases reaches
  · rfl

/-- What prepending a path does: the entries are below the path with their variables and
subtrees, and the others are those of the path. -/
structure Moved (memory memory' : Memory) (vars vars' : AddressVars Key Value) (path : Ref) : Prop where
  kept : ∀ below place, below ≠ [] → Linked.lookup below memory.place = some place →
    Linked.lookup (path ++ below) memory'.place = some place ∧ vars' place.address = vars place.address
  linked : memory'.children.LinksTo memory'.root
  others : ∀ ref place, Linked.lookup ref memory'.place = some place →
    (∃ below, below ≠ [] ∧ ref = path ++ below ∧ Linked.lookup below memory.place = some place) ∨
    ref <+: path ∧ (place.label.added = true → ref = [] ∧ memory.added = true)

theorem rootPrependLength_moved (memory : Memory) (vars : AddressVars Key Value) (root : Nat) (path : Bytes)
    (length : Nat) (fits : NamesFit path length) (malloc : Malloc memory)
    (done : (memory.rootPrependLength vars root path length fits malloc).status = 0) :
    Moved memory (memory.rootPrependLength vars root path length fits malloc).memory vars
      (memory.rootPrependLength vars root path length fits malloc).vars (components path (length % 2 ^ 32)) := by
  obtain ⟨kept, ⟨failed, -⟩ | ⟨-, sameRoot, sameAdded, made⟩⟩ :=
    memory.rootPrependLength_cases vars root path length fits malloc
  · omega
  · generalize memory.rootPrependLength vars root path length fits malloc = result at *
    have place : result.memory.place = ⟨memory.root, memory.tree.label, result.memory.children⟩ := by
      rw [Memory.place, sameRoot, tree, PathTree.label, sameAdded]
      rfl
    refine ⟨?_, result.memory.linked, ?_⟩
    · intro below found inner reached
      refine ⟨?_, kept found.address (Linked.lookup_address below memory.place found reached)⟩
      rw [place, ← reached]
      exact Linked.lookup_hang _ _ _ _ _ _ _ _ below inner made
    · intro ref found reached
      rw [place] at reached
      rcases Linked.lookup_hung _ _ _ _ _ memory.tree.label memory.tree.label memory.root ref found made reached with
        old | ⟨starts, flag⟩
      · exact Or.inl old
      · refine Or.inr ⟨starts, fun added => ?_⟩
        split at flag
        · next top =>
          rw [flag] at added
          exact ⟨top, added⟩
        · rw [flag] at added
          cases added

end

/-- Prepending a path shorter than 2^32 bytes, whose names fit in their blocks, moves the entries
below it, or changes nothing. -/
theorem rootPrependLength_moves {Key Value : Type} (memory : Memory) (vars : AddressVars Key Value) (root : Nat)
    (path : Bytes) (short : path.length < 2 ^ 32) (fits : NamesFit path path.length) (malloc : Malloc memory) :
    let result := memory.rootPrependLength vars root path path.length fits malloc
    (result.status = 0 → Moved memory result.memory vars result.vars (components path path.length) ∧
      ∀ below place, memory.getLength below below.length = some place → place.address ≠ memory.root →
        (path ++ slash :: below).length < 2 ^ 32 →
        result.memory.getLength (path ++ slash :: below) (path ++ slash :: below).length = some place) ∧
    (result.status ≠ 0 → result.memory = memory ∧
      ∀ address ∈ memory.root :: memory.children.addresses, result.vars address = vars address) := by
  intro result
  constructor
  · intro done
    have moved := memory.rootPrependLength_moved vars root path path.length fits malloc done
    rw [Nat.mod_eq_of_lt short] at moved
    refine ⟨moved, fun below place found inner room => ?_⟩
    rw [List.length_append, List.length_cons] at room
    rw [getLength, Nat.mod_eq_of_lt (by omega)] at found
    have named : components below below.length ≠ [] := by
      intro none
      rw [none, Linked.lookup, Option.some.injEq] at found
      exact inner (found ▸ rfl)
    rw [getLength, Nat.mod_eq_of_lt (by rw [List.length_append, List.length_cons]; omega), components_eq, names_join,
      ← components_eq, ← components_eq]
    exact (moved.kept _ place named found).1
  · intro failed
    obtain ⟨kept, ⟨-, same⟩ | ⟨done, -⟩⟩ := memory.rootPrependLength_cases vars root path path.length fits malloc
    · exact ⟨same, kept⟩
    · exact absurd done failed

/-- One entry `b` at the address 1. -/
def child : Linked := .node 1 (some 0) ⟨ascii "b", true, false⟩ .null .null

theorem child_wellFormed : child.erase.WellFormed := ⟨by decide, by decide, by decide, trivial, trivial⟩

theorem child_linked : child.LinksTo 0 := ⟨rfl, trivial, trivial⟩

theorem child_distinct : (0 :: child.addresses).Nodup := by decide

def single : Memory := ⟨0, false, child, child_wellFormed, child_linked, child_distinct⟩

def malloc (index : Nat) : Option Nat := some (index + 2)

theorem malloc_apart (first second address : Nat) (one : malloc first = some address)
    (two : malloc second = some address) : first = second := by
  rw [malloc, Option.some.injEq] at one two
  omega

theorem malloc_fresh (index : Nat) : ∀ address ∈ single.root :: single.children.addresses,
    malloc index ≠ some address := by
  intro address used given
  rw [malloc, Option.some.injEq] at given
  simp [single, child, Linked.addresses] at used
  omega

def endless : Malloc single := ⟨malloc, malloc_apart, malloc_fresh⟩

theorem rootPrependLength_moves_single :
    (single.rootPrependLength (fun _ => ([] : List (Var Nat Nat))) 0 (ascii "a") 1 (by decide) endless).memory.getLength
      (ascii "a/b") 3 = some ⟨1, ⟨ascii "b", true, false⟩, .null⟩ :=
  ((single.rootPrependLength_moves (fun _ => ([] : List (Var Nat Nat))) 0 (ascii "a") (by decide) (by decide) endless).1
    (by decide)).2 (ascii "b") ⟨1, ⟨ascii "b", true, false⟩, .null⟩ (by decide) (by decide) (by decide)

/-- The path `aaa…` of 2^32 bytes is cut to an empty one, and the one below it to `aa`. -/
theorem vast_prefix_lost : ¬∀ (memory : Memory) (vars : AddressVars Nat Nat) (path : Bytes)
    (fits : NamesFit path path.length) (malloc : Malloc memory),
    let result := memory.rootPrependLength vars memory.root path path.length fits malloc
    result.status = 0 → ∀ below place, memory.getLength below below.length = some place →
      place.address ≠ memory.root →
      result.memory.getLength (path ++ slash :: below) (path ++ slash :: below).length = some place := by
  intro all
  obtain ⟨rest, size⟩ : ∃ rest : Bytes, rest.length = 2 ^ 32 - 2 :=
    ⟨List.replicate (2 ^ 32 - 2) 0, List.length_replicate⟩
  let path : Bytes := 'a'.toUInt8 :: 'a'.toUInt8 :: rest
  have long : path.length = 2 ^ 32 := by
    rw [List.length_cons, List.length_cons, size]
    decide
  have longer : (path ++ slash :: ascii "b").length % 2 ^ 32 = 2 := by
    rw [List.length_append, long]
    decide
  have cut : path.length % 2 ^ 32 = 0 := by rw [long]; decide
  have fits : NamesFit path path.length := by
    rw [NamesFit, cut]
    exact fun segment member => by cases member
  have done := single.rootPrependLength_succeeds (fun _ => ([] : List (Var Nat Nat))) path path.length fits endless
    fun _ => rfl
  have lost := all single (fun _ => []) path fits endless done (ascii "b") ⟨1, ⟨ascii "b", true, false⟩, .null⟩ (by decide)
    (by decide)
  obtain ⟨-, ⟨failed, -⟩ | ⟨-, -, -, made⟩⟩ :=
    single.rootPrependLength_cases (fun _ => ([] : List (Var Nat Nat))) single.root path path.length fits endless
  · omega
  · rw [cut] at made
    rw [getLength, longer, place, ← Option.some.inj made] at lost
    cases lost

end Memory
end AppManager.Utils
