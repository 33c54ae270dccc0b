import AppManager.Utils.PathDestroy

/-! The visits of a whole traversal from any entry: which entries they are for, in which
order, with which paths, and when the buffer is long enough for all of them. -/

namespace AppManager.Utils
open AppManager.Lib AppManager.Lib.Libc

def slashed (ref : Ref) : Bytes := ref.flatMap (slash :: ·)

theorem slashed_append (ref : Ref) (name : Bytes) : slashed (ref ++ [name]) = slashed ref ++ slash :: name := by
  simp [slashed]

theorem slashed_cons (name : Bytes) (ref : Ref) : slashed (name :: ref) = slash :: name ++ slashed ref := by
  simp [slashed]

theorem slashed_eq_nil (ref : Ref) : slashed ref = [] ↔ ref = [] := by
  cases ref <;> simp [slashed]

/-- The slash before the first name of a path, as it was given. -/
def leading (label : Label) : Bytes := if label.slash then [slash] else []

/-- The path of an entry after that of its parent. -/
def underPath (flags : ForallFlags) (label : Label) (path : Bytes) : Bytes :=
  if flags.noPath = true ∨ label.name = [] then path
  else path ++ (if 0 < path.length ∨ label.slash then [slash] else []) ++ label.name

theorem enterPath_eq (flags : ForallFlags) (size : Nat) (label : Label) (path : Bytes) :
    enterPath flags size label path =
      if (flags.noPath = false ∧ label.name ≠ []) ∧ size < path.length + label.name.length + 2 then none
      else some (underPath flags label path) := by
  unfold enterPath underPath
  cases hidden : flags.noPath with
  | true => simp
  | false =>
    by_cases unnamed : label.name = []
    · simp [unnamed]
    · have positive : 0 < label.name.length := List.length_pos_iff.mpr unnamed
      simp [unnamed, positive]

theorem underPath_length (flags : ForallFlags) (label : Label) (path : Bytes) :
    (underPath flags label path).length ≤ path.length + 1 + label.name.length := by
  unfold underPath
  split
  · omega
  · split <;> simp only [List.length_append, List.length_singleton, List.length_nil] <;> omega

def visitsBelow (flags : ForallFlags) (parent : PathEntry) (path : Bytes) : Entry → List Visit
  | .null => []
  | .node label children sibling =>
    let visit : Visit := ⟨parent.child label children, underPath flags label path⟩
    (if emits flags label && flags.before then [visit] else []) ++
      visitsBelow flags visit.entry visit.path children ++
      (if emits flags label && flags.after then [visit] else []) ++ visitsBelow flags parent path sibling

def visitsFrom (flags : ForallFlags) (entry : PathEntry) (path : Bytes) : List Visit :=
  if flags.silentRoot then visitsBelow flags entry path entry.children
  else
    let visit : Visit := ⟨entry, underPath flags entry.label path⟩
    (if emits flags entry.label && flags.before then [visit] else []) ++
      visitsBelow flags entry visit.path entry.children ++
      (if emits flags entry.label && flags.after then [visit] else [])

section
variable (flags : ForallFlags)

theorem tourChildren_visits (size : Nat) (parent : PathEntry) (path : Bytes) (siblings : Entry) :
    (tourChildren flags size parent path siblings).Follows (visitsBelow flags parent path siblings) := by
  induction siblings generalizing parent path with
  | null => exact Tour.follows_of []
  | node label children sibling inner rest =>
    unfold tourChildren
    rw [enterPath_eq]
    by_cases long : (flags.noPath = false ∧ label.name ≠ []) ∧ size < path.length + label.name.length + 2
    · rw [if_pos long]
      exact ⟨List.nil_prefix, by simp⟩
    · rw [if_neg long]
      exact Tour.follows_andThen (Tour.follows_andThen (Tour.follows_andThen (Tour.follows_of _) (inner _ _))
        (Tour.follows_of _)) (rest parent path)

theorem tourFrom_visits (size : Nat) (entry : PathEntry) (path : Bytes) :
    (tourFrom flags size entry path).Follows (visitsFrom flags entry path) := by
  unfold tourFrom visitsFrom
  split
  · have whole := Tour.follows_andThen (Tour.follows_andThen (Tour.follows_of ([] : List Visit))
      (tourChildren_visits flags size entry path entry.children)) (Tour.follows_of [])
    simpa [around] using whole
  · rw [enterPath_eq]
    by_cases long : (flags.noPath = false ∧ entry.label.name ≠ []) ∧
        size < path.length + entry.label.name.length + 2
    · rw [if_pos long]
      exact ⟨List.nil_prefix, by simp⟩
    · rw [if_neg long]
      exact Tour.follows_andThen (Tour.follows_andThen (Tour.follows_of _)
        (tourChildren_visits flags size entry _ entry.children)) (Tour.follows_of _)

theorem tourChildren_completes (size start : Nat) (parent : PathEntry) (path : Bytes) (siblings : Entry)
    (short : path.length + start ≤ (slashed parent.ref).length)
    (fits : flags.noPath = false →
      ∀ entry ∈ entriesBelow parent siblings, (slashed entry.ref).length < size + start) :
    (tourChildren flags size parent path siblings).completed = true := by
  induction siblings generalizing parent path with
  | null => rfl
  | node label children sibling inner rest =>
    have grown : (slashed (parent.child label children).ref).length =
        (slashed parent.ref).length + (label.name.length + 1) := by
      rw [PathEntry.child, slashed_append, List.length_append, List.length_cons]
    have longer := underPath_length flags label path
    unfold tourChildren
    rw [enterPath_eq, if_neg]
    · rw [Tour.completed_andThen, around, Tour.completed_andThen, Tour.completed_andThen,
        inner _ _ (by rw [grown]; omega) (fun visible entry member => fits visible entry (by
          rw [entriesBelow]
          exact List.mem_append.mpr (Or.inl member))),
        rest parent path short (fun visible entry member => fits visible entry (by
          rw [entriesBelow]
          exact List.mem_append.mpr (Or.inr (List.mem_cons_of_mem _ member))))]
      rfl
    · rintro ⟨⟨visible, -⟩, long⟩
      have here := fits visible (parent.child label children) (by simp [entriesBelow])
      rw [grown] at here
      omega

theorem tourFrom_silent (size start : Nat) (entry : PathEntry) (path : Bytes) (silent : flags.silentRoot = true)
    (short : path.length + start ≤ (slashed entry.ref).length)
    (fits : flags.noPath = false →
      ∀ other ∈ entriesBelow entry entry.children, (slashed other.ref).length < size + start) :
    tourFrom flags size entry path = Tour.of (visitsFrom flags entry path) := by
  have done := tourChildren_completes flags size start entry path entry.children short fits
  have whole : (tourFrom flags size entry path).completed = true := by
    rw [tourFrom, if_pos silent, around, Tour.completed_andThen, Tour.completed_andThen, done]
    rfl
  exact Tour.eq_of_completed (tourFrom_visits flags size entry path) whole

theorem tourFrom_loud (size start : Nat) (entry : PathEntry) (path : Bytes) (loud : flags.silentRoot = false)
    (short : (underPath flags entry.label path).length + start ≤ (slashed entry.ref).length)
    (enters : flags.noPath = false → entry.label.name ≠ [] → path.length + entry.label.name.length + 2 ≤ size)
    (fits : flags.noPath = false →
      ∀ other ∈ entriesBelow entry entry.children, (slashed other.ref).length < size + start) :
    tourFrom flags size entry path = Tour.of (visitsFrom flags entry path) := by
  have done := tourChildren_completes flags size start entry _ entry.children short fits
  have whole : (tourFrom flags size entry path).completed = true := by
    rw [tourFrom, if_neg (by simp [loud]), enterPath_eq, if_neg]
    · simp only [around, Tour.completed_andThen, done]
      rfl
    · rintro ⟨⟨visible, named⟩, long⟩
      have room := enters visible named
      omega
  exact Tour.eq_of_completed (tourFrom_visits flags size entry path) whole

theorem visitsBelow_after (late : flags.before = false) (last : flags.after = true) (parent : PathEntry)
    (path : Bytes) (siblings : Entry) :
    (visitsBelow flags parent path siblings).map Visit.entry =
      (entriesBelow parent siblings).filter (emits flags ·.label) := by
  induction siblings generalizing parent path with
  | null => rfl
  | node label children sibling inner rest =>
    have own : emits flags (parent.child label children).label = emits flags label := rfl
    simp only [visitsBelow, entriesBelow, List.map_append, List.filter_append, List.filter_cons, own, inner, rest,
      late, last]
    cases emits flags label <;> simp

theorem visitsBelow_before (first : flags.before = true) (early : flags.after = false) (parent : PathEntry)
    (path : Bytes) (siblings : Entry) :
    ((visitsBelow flags parent path siblings).map Visit.entry).Perm
      ((entriesBelow parent siblings).filter (emits flags ·.label)) := by
  induction siblings generalizing parent path with
  | null => exact List.Perm.refl _
  | node label children sibling inner rest =>
    have below := inner (parent.child label children) (underPath flags label path)
    have after := rest parent path
    have own : emits flags (parent.child label children).label = emits flags label := rfl
    simp only [visitsBelow, entriesBelow, List.map_append, List.filter_append, List.filter_cons, own, first, early]
    cases shown : emits flags label with
    | false => simpa using below.append after
    | true =>
      have whole := (below.append after).cons (parent.child label children)
      simpa using whole.trans List.perm_middle.symm

theorem visitsFrom_after (late : flags.before = false) (last : flags.after = true)
    (loud : flags.silentRoot = false) (entry : PathEntry) (path : Bytes) :
    (visitsFrom flags entry path).map Visit.entry = entry.entries.filter (emits flags ·.label) := by
  have below := visitsBelow_after flags late last entry (underPath flags entry.label path) entry.children
  simp only [visitsFrom, loud, PathEntry.entries, List.filter_append, List.filter_cons, List.filter_nil, late, last]
  cases emits flags entry.label with
  | false => simpa using below
  | true => simpa using below

theorem visitsFrom_before (first : flags.before = true) (early : flags.after = false)
    (loud : flags.silentRoot = false) (entry : PathEntry) (path : Bytes) :
    ((visitsFrom flags entry path).map Visit.entry).Perm (entry.entries.filter (emits flags ·.label)) := by
  have below := visitsBelow_before flags first early entry (underPath flags entry.label path) entry.children
  simp only [visitsFrom, loud, PathEntry.entries, List.filter_append, List.filter_cons, List.filter_nil, first,
    early]
  cases shown : emits flags entry.label with
  | false => simpa using below
  | true => simpa using (below.cons entry).trans (List.perm_append_singleton _ _).symm

theorem forall_shown {holds : Visit → Prop} {visit : Visit} (own : holds visit) (shown : Bool) :
    ∀ visit' ∈ if shown then [visit] else [], holds visit' := by
  intro visit' member
  cases shown with
  | false => simp at member
  | true =>
    rw [if_pos rfl, List.mem_singleton] at member
    rw [member]
    exact own

theorem visitsBelow_forall {holds : Visit → Prop} {parent : PathEntry} {path : Bytes} {label : Label}
    {children sibling : Entry} (own : holds ⟨parent.child label children, underPath flags label path⟩)
    (inside : ∀ visit ∈ visitsBelow flags (parent.child label children) (underPath flags label path) children,
      holds visit) (later : ∀ visit ∈ visitsBelow flags parent path sibling, holds visit) :
    ∀ visit ∈ visitsBelow flags parent path (.node label children sibling), holds visit := by
  intro visit member
  simp only [visitsBelow, List.mem_append] at member
  rcases member with ((before | below) | last) | after
  · exact forall_shown own _ visit before
  · exact inside visit below
  · exact forall_shown own _ visit last
  · exact later visit after

theorem visitsFrom_forall (start : PathEntry) (path : Bytes) (holds : Visit → Prop)
    (own : flags.silentRoot = false → holds ⟨start, underPath flags start.label path⟩)
    (below : ∀ visit ∈ visitsBelow flags start (if flags.silentRoot then path else underPath flags start.label path)
      start.children, holds visit) : ∀ visit ∈ visitsFrom flags start path, holds visit := by
  unfold visitsFrom
  cases silent : flags.silentRoot with
  | true =>
    rw [silent] at below
    exact below
  | false =>
    rw [silent] at below
    intro visit member
    simp only [Bool.false_eq_true, if_false, List.mem_append] at member
    rcases member with (before | inside) | last
    · exact forall_shown (own silent) _ visit before
    · exact below visit inside
    · exact forall_shown (own silent) _ visit last

theorem visitsBelow_path (visible : flags.noPath = false) (parent : PathEntry) (path : Bytes)
    (started : path ≠ []) (siblings : Entry) (wf : siblings.WellFormed) :
    ∀ visit ∈ visitsBelow flags parent path siblings, ∃ rest, visit.entry.ref = parent.ref ++ rest ∧
      visit.path = path ++ slashed rest := by
  induction siblings generalizing parent path with
  | null => simp [visitsBelow]
  | node label children sibling inner rest =>
    obtain ⟨proper, -, -, below, after⟩ := wf
    have under : underPath flags label path = path ++ slashed [label.name] := by
      simp [underPath, visible, proper, List.length_pos_iff.mpr started, slashed]
    apply visitsBelow_forall
    · exact ⟨[label.name], rfl, under⟩
    · intro visit inside
      obtain ⟨names, located, shown⟩ := inner _ _ (by rw [under]; simp [slashed]) below visit inside
      refine ⟨label.name :: names, ?_, ?_⟩
      · rw [located]
        simp [PathEntry.child]
      · rw [shown, under]
        simp [slashed]
    · exact rest parent path started after

theorem visitsFrom_path (visible : flags.noPath = false) (loud : flags.silentRoot = false) (entry : PathEntry)
    (named : entry.label.name ≠ []) (wf : entry.children.WellFormed) :
    ∀ visit ∈ visitsFrom flags entry [], ∃ rest, visit.entry.ref = entry.ref ++ rest ∧
      visit.path = leading entry.label ++ entry.label.name ++ slashed rest := by
  have under : underPath flags entry.label [] = leading entry.label ++ entry.label.name := by
    simp [underPath, visible, named, leading]
  apply visitsFrom_forall
  · exact fun _ => ⟨[], by simp, by simp [under, slashed]⟩
  · rw [loud, if_neg Bool.false_ne_true, ← under]
    exact visitsBelow_path flags visible entry _ (by rw [under]; simp [named]) entry.children wf

/-- The visited paths below an entry without a path start at one of its children. -/
theorem visitsBelow_top (visible : flags.noPath = false) (parent : PathEntry) (siblings : Entry)
    (wf : siblings.WellFormed) :
    ∀ visit ∈ visitsBelow flags parent [] siblings, ∃ child ∈ entriesBelow parent siblings, ∃ rest,
      child.ref = parent.ref ++ [child.label.name] ∧ visit.entry.ref = child.ref ++ rest ∧
      visit.path = leading child.label ++ child.label.name ++ slashed rest := by
  induction siblings with
  | null => simp [visitsBelow]
  | node label children sibling _ later =>
    obtain ⟨proper, -, -, below, after⟩ := wf
    have under : underPath flags label [] = leading label ++ label.name := by
      simp [underPath, visible, proper, leading]
    apply visitsBelow_forall
    · refine ⟨parent.child label children, by simp [entriesBelow], [], rfl, by simp, ?_⟩
      simp [under, slashed, PathEntry.child]
    · intro visit inside
      obtain ⟨rest, located, shown⟩ := visitsBelow_path flags visible (parent.child label children) _
        (by rw [under]; simp [proper]) children below visit inside
      exact ⟨parent.child label children, by simp [entriesBelow], rest, rfl, located, under ▸ shown⟩
    · intro visit there
      obtain ⟨child, inside, rest, top, located, shown⟩ := later after visit there
      refine ⟨child, ?_, rest, top, located, shown⟩
      rw [entriesBelow]
      exact List.mem_append.mpr (Or.inr (List.mem_cons_of_mem _ inside))

end

theorem entriesBelow_order (parent : PathEntry) (siblings : Entry) (wf : siblings.WellFormed) :
    (entriesBelow parent siblings).Pairwise (fun first second => ¬first.ref <+: second.ref) := by
  induction siblings generalizing parent with
  | null => exact List.Pairwise.nil
  | node label children sibling inner rest =>
    obtain ⟨-, -, fresh, below, after⟩ := wf
    have childRef : (parent.child label children).ref = parent.ref ++ [label.name] := rfl
    have aside : ∀ (path : Ref), ∀ entry ∈ entriesBelow parent sibling,
        ¬parent.ref ++ label.name :: path <+: entry.ref := by
      intro path entry member
      obtain ⟨name, more, located, known, -⟩ := descend_of_mem parent sibling after entry member
      rw [located, prefix_append_cons]
      exact fun both => fresh (both.1 ▸ known)
    rw [entriesBelow, List.pairwise_append, List.pairwise_cons]
    refine ⟨inner _ below, ⟨aside [], rest parent after⟩, ?_⟩
    intro entry member other follows
    obtain ⟨name, more, located, -, -⟩ := descend_of_mem _ children below entry member
    rw [located, childRef, List.append_assoc, List.singleton_append]
    rcases List.mem_cons.mp follows with same | later
    · rw [same, childRef, prefix_append_cons]
      simp
    · exact aside _ other later

theorem entries_order (entry : PathEntry) (wf : entry.children.WellFormed) :
    entry.entries.Pairwise (fun first second => ¬first.ref <+: second.ref) := by
  rw [PathEntry.entries, List.pairwise_append]
  refine ⟨entriesBelow_order entry entry.children wf, List.pairwise_singleton _ _, ?_⟩
  intro below member other last
  obtain ⟨name, more, located, -, -⟩ := descend_of_mem entry entry.children wf below member
  rw [List.mem_singleton.mp last, located]
  intro longer
  have size := longer.length_le
  rw [List.length_append, List.length_cons] at size
  omega

theorem parent_not_below (parent : PathEntry) (siblings : Entry) (wf : siblings.WellFormed) :
    parent.ref ∉ (entriesBelow parent siblings).map PathEntry.ref := by
  intro member
  obtain ⟨entry, inside, same⟩ := List.mem_map.mp member
  obtain ⟨name, rest, located, -, -⟩ := descend_of_mem parent siblings wf entry inside
  rw [located] at same
  have size := congrArg List.length same
  rw [List.length_append, List.length_cons] at size
  omega

theorem parent_below (parent : PathEntry) (siblings : Entry) :
    ∀ entry ∈ entriesBelow parent siblings, entry.ref.dropLast = parent.ref ∨
      entry.ref.dropLast ∈ (entriesBelow parent siblings).map PathEntry.ref := by
  induction siblings generalizing parent with
  | null => simp [entriesBelow]
  | node label children sibling inner rest =>
    intro entry member
    simp only [entriesBelow, List.map_append, List.map_cons, List.mem_append, List.mem_cons] at member ⊢
    rcases member with inside | here | later
    · rcases inner _ entry inside with first | deeper
      · exact Or.inr (Or.inr (Or.inl first))
      · exact Or.inr (Or.inl deeper)
    · rw [here]
      exact Or.inl List.dropLast_concat
    · rcases rest parent entry later with first | deeper
      · exact Or.inl first
      · exact Or.inr (Or.inr (Or.inr deeper))

theorem descend_ref (start : PathEntry) (wf : start.children.WellFormed) (path : Ref) :
    (descend path start).map PathEntry.ref =
      if start.ref ++ path ∈ start.entries.map PathEntry.ref then some (start.ref ++ path) else none := by
  cases found : descend path start with
  | some entry =>
    obtain ⟨located, member⟩ := descend_sound path start entry found
    rw [if_pos (by rw [← located]; exact List.mem_map_of_mem member), Option.map_some, located]
  | none =>
    rw [if_neg]
    · rfl
    · intro known
      obtain ⟨entry, member, same⟩ := List.mem_map.mp known
      rcases List.mem_append.mp member with below | own
      · obtain ⟨name, rest, located, -, reached⟩ := descend_of_mem start start.children wf entry below
        rw [located, List.append_cancel_left_eq] at same
        rw [← same, descend, reached] at found
        cases found
      · rw [List.mem_singleton.mp own, eq_comm, List.append_right_eq_self] at same
        rw [same] at found
        cases found

theorem nodup_from (entry : PathEntry) (wf : entry.children.WellFormed) :
    (entry.entries.map PathEntry.ref).Nodup := by
  refine List.pairwise_map.mpr ((entries_order entry wf).imp ?_)
  intro first second apart same
  rw [same] at apart
  exact apart (List.prefix_refl _)

end AppManager.Utils
