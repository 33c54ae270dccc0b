import AppManager.Utils.PathHistory
import Mathlib.Data.List.Induction

/-! The order of siblings. A new entry is placed by comparing the names of its siblings
with the text of the path from its name on. When that gives another order than its name
does, the tree depends on which path was added first. -/

namespace AppManager.Utils
open AppManager.Lib AppManager.Lib.Libc

/-- The components of a string given to `path_entry_add`. -/
def stringSegments (path : Bytes) : List Segment :=
  segments true false (cstr path) ((cstr path).length % 2 ^ 32)

def pathEntryAdd (tree : PathTree) (path : Bytes) : Int × PathTree :=
  pathEntryAddLength tree (cstr path) (cstr path).length

def buildTree (paths : List Bytes) : PathTree :=
  paths.foldl (fun tree path => (pathEntryAdd tree path).2) pathEntryCreateRoot

/-- Siblings are in the order of their names, at all levels. -/
def Entry.Sorted : Entry → Prop
  | .null => True
  | .node label children sibling =>
    (∀ name ∈ sibling.names, label.name < name) ∧ children.Sorted ∧ sibling.Sorted

/-- The path has this component after the ones of a reference. -/
def Meets (path : List Segment) (above : Ref) (segment : Segment) : Prop :=
  ∃ before after, path = before ++ segment :: after ∧ before.map Segment.name = above

theorem meets_nil (above : Ref) (segment : Segment) : ¬Meets [] above segment := by
  rintro ⟨before, after, split, -⟩
  simp at split

theorem meets_cons (first : Segment) (rest : List Segment) (above : Ref) (segment : Segment) :
    Meets (first :: rest) above segment ↔
      (above = [] ∧ segment = first) ∨ ∃ below, above = first.name :: below ∧ Meets rest below segment := by
  constructor
  · rintro ⟨before, after, split, same⟩
    cases before with
    | nil =>
      rw [List.nil_append, List.cons.injEq] at split
      exact Or.inl ⟨same.symm, split.1.symm⟩
    | cons head tail =>
      rw [List.cons_append, List.cons.injEq] at split
      exact Or.inr ⟨tail.map Segment.name, by rw [← same, ← split.1]; rfl, tail, after, split.2, rfl⟩
  · rintro (⟨top, same⟩ | ⟨below, split, before, after, rest', same⟩)
    · exact ⟨[], rest, by rw [same]; rfl, top.symm⟩
    · exact ⟨first :: before, after, by rw [rest']; rfl, by rw [split, ← same]; rfl⟩

theorem meets_prefix (path : List Segment) (above : Ref) (segment : Segment) (met : Meets path above segment) :
    above ++ [segment.name] <+: path.map Segment.name := by
  obtain ⟨before, after, split, same⟩ := met
  exact ⟨after.map Segment.name, by rw [split, ← same]; simp⟩

/-- A label is the one that a path gives to the entry of a reference. -/
def Labels (path : List Segment) (ref : Ref) (label : Label) : Prop :=
  ∃ above segment, Meets path above segment ∧ ref = above ++ [segment.name] ∧
    label.name = segment.name ∧ label.slash = segment.hasSlash

theorem labels_cons (first : Segment) (rest : List Segment) (ref : Ref) (label : Label)
    (labels : Labels rest ref label) : Labels (first :: rest) (first.name :: ref) label := by
  obtain ⟨above, segment, met, split, name, same⟩ := labels
  exact ⟨first.name :: above, segment, (meets_cons ..).mpr (Or.inr ⟨above, rfl, met⟩), by rw [split]; rfl,
    name, same⟩

theorem labelAt_addSegments_some (path : List Segment) (label : Label) (children : Entry) (ref : Ref)
    (found : Label) (known : labelAt ref (addSegments path label children).1
      (addSegments path label children).2 = some found) :
    (∃ before, labelAt ref label children = some before ∧ found.name = before.name ∧
      found.slash = before.slash) ∨ (labelAt ref label children = none ∧ Labels path ref found) := by
  induction path generalizing label children ref with
  | nil =>
    left
    cases ref with
    | nil =>
      refine ⟨label, rfl, ?_⟩
      simp only [labelAt, addSegments, Option.some.injEq] at known
      exact ⟨by rw [← known], by rw [← known]⟩
    | cons name rest => exact ⟨found, known, rfl, rfl⟩
  | cons segment rest ih =>
    cases ref with
    | nil => exact Or.inl ⟨label, rfl, by simp_all [labelAt, addSegments], by simp_all [labelAt, addSegments]⟩
    | cons name others =>
      rw [addSegments] at known
      simp only [labelAt] at known ⊢
      rw [childAt_updateChild _ _ _ (addSegments_name rest), childAt_getChild, childAt_getChild, if_pos rfl] at known
      by_cases same : name = segment.name
      · rw [if_pos same, Option.map_some, Option.bind_some] at known
        rw [same]
        cases there : childAt segment.name children with
        | some child =>
          rw [there, Option.getD_some] at known
          rcases ih _ _ _ known with ⟨before, located, equal, slash⟩ | ⟨none, labels⟩
          · exact Or.inl ⟨before, located, equal, slash⟩
          · exact Or.inr ⟨none, labels_cons segment rest others found labels⟩
        | none =>
          rw [there, Option.getD_none] at known
          refine Or.inr ⟨rfl, ?_⟩
          rcases ih _ _ _ known with ⟨before, located, equal, slash⟩ | ⟨-, labels⟩
          · cases others with
            | nil =>
              rw [labelAt, Option.some.injEq] at located
              refine ⟨[], segment, (meets_cons ..).mpr (Or.inl ⟨rfl, rfl⟩), rfl, ?_, ?_⟩
              · rw [equal, ← located]
              · rw [slash, ← located]
            | cons next tail => cases located
          · exact labels_cons segment rest others found labels
      · rw [if_neg same, if_neg same] at known
        exact Or.inl ⟨found, known, rfl, rfl⟩

theorem lt_of_lt_start {name text : Bytes} (other : Bytes) (starts : name <+: text) (less : other < name) :
    other < text := Std.lt_of_lt_of_le less starts.le

theorem segment_text (begins hasSlash : Bool) (path : Bytes) (length : Nat) :
    ∀ segment ∈ segments begins hasSlash path length,
      segment.name <+: segment.text ∧ segment.text <:+ path := by
  induction path generalizing begins hasSlash length with
  | nil => cases length <;> simp [segments]
  | cons byte rest ih =>
    cases length with
    | zero => simp [segments]
    | succ length =>
      have later : ∀ begins, ∀ segment ∈ segments begins true rest length,
          segment.name <+: segment.text ∧ segment.text <:+ byte :: rest := by
        intro begins segment member
        obtain ⟨starts, ends⟩ := ih begins true length segment member
        exact ⟨starts, ends.trans (List.suffix_cons byte rest)⟩
      unfold segments
      split
      · exact later true
      · split
        · intro segment member
          rcases List.mem_cons.mp member with same | member
          · subst same
            exact ⟨(List.takeWhile_prefix _).trans (List.take_prefix _ _), List.suffix_refl _⟩
          · exact later false segment member
        · exact later false

theorem stringSegments_clean (path : Bytes) (segment : Segment) (member : segment ∈ stringSegments path) :
    segment.name <+: segment.text ∧ cstr segment.text = segment.text ∧ cstr segment.name = segment.name := by
  obtain ⟨starts, ends⟩ := segment_text _ _ _ _ segment member
  have clean : (0 : Byte) ∉ segment.text := fun inside => cstr_clean path (ends.subset inside)
  exact ⟨starts, cstr_of_no_nul _ clean, cstr_of_no_nul _ fun inside => clean (starts.subset inside)⟩

theorem sorted_makeChild (name text : Bytes) (hasSlash : Bool) (children : Entry) (starts : name <+: text)
    (clean : cstr text = text) (plain : ∀ other ∈ children.names, cstr other = other)
    (fresh : name ∉ children.names)
    (agrees : ∀ other ∈ children.names, other < text → other < name) (sorted : children.Sorted) :
    (makeChild name text hasSlash children).Sorted := by
  induction children with
  | null => exact ⟨by simp [Entry.names], trivial, trivial⟩
  | node label children sibling _ rest =>
    obtain ⟨least, below, after⟩ := sorted
    rw [Entry.names, List.mem_cons, not_or] at fresh
    have own : label.name ∈ (Entry.node label children sibling).names := List.mem_cons_self
    rw [makeChild, clean, plain _ own]
    split
    · next before =>
      refine ⟨?_, below, rest (fun other member => plain other (List.mem_cons_of_mem _ member)) fresh.2
        (fun other member => agrees other (List.mem_cons_of_mem _ member)) after⟩
      intro other member
      rcases (names_makeChild ..).mp member with same | known
      · exact same ▸ agrees _ own before
      · exact least other known
    · next after' =>
      have first : name < label.name :=
        lt_of_not_lt (Ne.symm fresh.1) fun less => after' (lt_of_lt_start _ starts less)
      refine ⟨?_, trivial, least, below, after⟩
      intro other member
      rcases List.mem_cons.mp member with same | known
      · exact same ▸ first
      · exact List.lt_trans first (least other known)

theorem sorted_updateChild (name : Bytes) (change : Label → Entry → Label × Entry)
    (keeps : ∀ label children, (change label children).1.name = label.name) (children : Entry)
    (safe : ∀ child, childAt name children = some child → child.2.Sorted → (change child.1 child.2).2.Sorted)
    (sorted : children.Sorted) : (updateChild name change children).Sorted := by
  induction children with
  | null => trivial
  | node label children sibling _ rest =>
    obtain ⟨least, below, after⟩ := sorted
    rw [updateChild]
    by_cases same : label.name = name
    · rw [if_pos same]
      refine ⟨by rw [keeps]; exact least, safe (label, children) ?_ below, after⟩
      rw [childAt_node, if_pos same]
    · rw [if_neg same]
      refine ⟨by rw [names_updateChild name change keeps]; exact least, below, rest ?_ after⟩
      intro child found
      exact safe child (by rw [childAt_node, if_neg same]; exact found)

/-- The labels of the siblings after some references, and the segments of a path at the
same place, are in the same order by name and by text. -/
def SameOrder (path : List Segment) (label : Label) (children : Entry) : Prop :=
  ∀ above name, (labelAt (above ++ [name]) label children).isSome = true →
    cstr name = name ∧ ∀ segment, Meets path above segment → name ≠ segment.name → name < segment.text →
      name < segment.name

theorem mem_names_iff (name : Bytes) (label : Label) (children : Entry) :
    name ∈ children.names ↔ (labelAt [name] label children).isSome = true := by
  rw [← not_iff_not, ← childAt_eq_none, labelAt, Bool.not_eq_true, Option.isSome_eq_false_iff,
    Option.isNone_iff_eq_none]
  cases childAt name children <;> simp [labelAt]

theorem sorted_addSegments (path : List Segment)
    (clean : ∀ segment ∈ path, segment.name <+: segment.text ∧ cstr segment.text = segment.text)
    (label : Label) (children : Entry) (agrees : SameOrder path label children) (sorted : children.Sorted) :
    (addSegments path label children).2.Sorted := by
  induction path generalizing label children with
  | nil => exact sorted
  | cons segment rest ih =>
    obtain ⟨starts, whole⟩ := clean segment List.mem_cons_self
    have met : Meets (segment :: rest) [] segment := (meets_cons ..).mpr (Or.inl ⟨rfl, rfl⟩)
    rw [addSegments]
    refine sorted_updateChild _ _ (addSegments_name rest) _ ?_ ?_
    · intro child found inner
      refine ih (fun other member => clean other (List.mem_cons_of_mem _ member)) child.1 child.2 ?_ inner
      rw [childAt_getChild, if_pos rfl, Option.some.injEq] at found
      cases known : childAt segment.name children with
      | some old =>
        rw [known, Option.getD_some] at found
        intro above name there
        obtain ⟨plain, order⟩ := agrees (segment.name :: above) name (by
          rw [List.cons_append, labelAt, known, Option.bind_some, found]
          exact there)
        exact ⟨plain, fun other deeper => order other ((meets_cons ..).mpr (Or.inr ⟨above, rfl, deeper⟩))⟩
      | none =>
        rw [known, Option.getD_none] at found
        intro above name there
        rw [← found, labelAt_null_isSome] at there
        simp at there
    · unfold getChild
      split
      · next missing =>
        have inside : ∀ other ∈ children.names, cstr other = other ∧ (other ≠ segment.name →
            other < segment.text → other < segment.name) := by
          intro other member
          obtain ⟨plain, order⟩ := agrees [] other ((mem_names_iff other label children).mp member)
          exact ⟨plain, order segment met⟩
        have fresh := (searchChild_eq_null _ _).mp missing
        exact sorted_makeChild _ _ _ _ starts whole (fun other member => (inside other member).1) fresh
          (fun other member => (inside other member).2 fun same => fresh (same ▸ member)) sorted
      · exact sorted

theorem names_of_labels (label : Label) (first second : Entry)
    (same : ∀ name rest, labelAt (name :: rest) label first = labelAt (name :: rest) label second) (name : Bytes) :
    name ∈ first.names ↔ name ∈ second.names := by
  rw [mem_names_iff name label, mem_names_iff name label, same]

theorem entry_ext (label : Label) (first second : Entry) (sorted : first.Sorted) (sorted' : second.Sorted)
    (same : ∀ name rest, labelAt (name :: rest) label first = labelAt (name :: rest) label second) :
    first = second := by
  induction first generalizing label second with
  | null =>
    cases second with
    | null => rfl
    | node other children sibling =>
      have known := (names_of_labels label _ _ same other.name).mpr List.mem_cons_self
      simp [Entry.names] at known
  | node own children sibling inner rest =>
    have names := names_of_labels label _ _ same
    cases second with
    | null => exact absurd ((names own.name).mp List.mem_cons_self) (by simp [Entry.names])
    | node own' children' sibling' =>
      obtain ⟨least, below, after⟩ := sorted
      obtain ⟨least', below', after'⟩ := sorted'
      have head : own.name = own'.name := by
        rcases List.mem_cons.mp ((names own.name).mp List.mem_cons_self) with equal | later
        · exact equal
        · rcases List.mem_cons.mp ((names own'.name).mpr List.mem_cons_self) with equal | later'
          · exact equal.symm
          · exact absurd (List.lt_trans (least _ later') (least' _ later)) (List.lt_irrefl _)
      have here : ∀ rest, labelAt rest own children = labelAt rest own' children' := by
        intro rest
        have both := same own.name rest
        rw [labelAt, labelAt, childAt_node, childAt_node, if_pos rfl, if_pos head.symm, Option.bind_some,
          Option.bind_some] at both
        exact both
      have labels : own = own' := Option.some.inj (here [])
      subst labels
      have absent : ∀ name rest, name = own.name → ∀ siblings : Entry,
          (∀ other ∈ siblings.names, own.name < other) → labelAt (name :: rest) label siblings = none := by
        intro name rest equal siblings greater
        rw [labelAt, (childAt_eq_none name siblings).mpr]
        · rfl
        · exact fun member => List.lt_irrefl _ (greater _ (equal ▸ member))
      have later : ∀ name rest, labelAt (name :: rest) label sibling = labelAt (name :: rest) label sibling' := by
        intro name rest
        by_cases equal : name = own.name
        · rw [absent name rest equal sibling least, absent name rest equal sibling' least']
        · have both := same name rest
          rw [labelAt, labelAt, childAt_node, childAt_node, if_neg (Ne.symm equal), if_neg (Ne.symm equal)] at both
          exact both
      rw [inner own children' below below' fun name rest => here (name :: rest),
        rest label sibling' after after' later]

theorem segments_slash (begins : Bool) (path : Bytes) (length : Nat) :
    ∀ segment ∈ segments begins true path length, segment.hasSlash = true := by
  induction path generalizing begins length with
  | nil => cases length <;> simp [segments]
  | cons byte rest ih =>
    cases length with
    | zero => simp [segments]
    | succ length =>
      unfold segments
      split
      · exact ih true length
      · split
        · intro segment member
          rcases List.mem_cons.mp member with same | later
          · rw [same]
          · exact ih false length segment later
        · exact ih false length

theorem meets_slash (path : Bytes) (above : Ref) (segment : Segment) (inner : above ≠ [])
    (met : Meets (stringSegments path) above segment) : segment.hasSlash = true := by
  obtain ⟨before, after, split, same⟩ := met
  have started : before ≠ [] := fun none => inner (by rw [← same, none, List.map_nil])
  obtain ⟨head, tail, before'⟩ := List.exists_cons_of_ne_nil started
  subst before'
  unfold stringSegments at split
  generalize (cstr path).length % 2 ^ 32 = length at split
  generalize cstr path = text at split
  cases text with
  | nil => cases length <;> simp [segments] at split
  | cons byte rest =>
    cases length with
    | zero => simp [segments] at split
    | succ length =>
      have member : segment ∈ tail ++ segment :: after := by simp
      unfold segments at split
      split at split
      · exact segments_slash true rest length segment (by rw [split]; simp)
      · rw [if_pos rfl, List.cons_append, List.cons.injEq] at split
        exact segments_slash false rest length segment (by rw [split.2]; exact member)

theorem buildTree_snoc (paths : List Bytes) (path : Bytes) :
    buildTree (paths ++ [path]) = (pathEntryAdd (buildTree paths) path).2 := by
  simp [buildTree]

theorem buildTree_added (paths : List Bytes) (ref : Ref) :
    (buildTree paths).Added ref ↔ ∃ path ∈ paths, ref = (stringSegments path).map Segment.name := by
  induction paths using List.reverseRecOn with
  | nil => exact iff_of_false (not_added_root ref) (by simp)
  | append_singleton paths path ih =>
    rw [buildTree_snoc, pathEntryAdd, added_addLength, ih]
    simp only [List.mem_append, List.mem_singleton, or_and_right, exists_or, exists_eq_left]
    exact or_comm

theorem buildTree_refs (paths : List Bytes) (ref : Ref) :
    ref ∈ (buildTree paths).refs ↔ ref = [] ∨ ∃ path ∈ paths, ref <+: (stringSegments path).map Segment.name := by
  induction paths using List.reverseRecOn with
  | nil => simp [buildTree, mem_refs_iff, pathEntryCreateRoot, labelAt_null_isSome]
  | append_singleton paths path ih =>
    rw [buildTree_snoc, pathEntryAdd, refs_addLength, ih]
    simp only [List.mem_append, List.mem_singleton, or_and_right, exists_or, exists_eq_left]
    rw [or_left_comm]
    exact or_congr_right or_comm

theorem labelAt_add (tree : PathTree) (path : Bytes) (ref : Ref) :
    labelAt ref (pathEntryAdd tree path).2.label (pathEntryAdd tree path).2.children =
      labelAt ref (addSegments (stringSegments path) tree.label tree.children).1
        (addSegments (stringSegments path) tree.label tree.children).2 := by
  have name : (addSegments (stringSegments path) tree.label tree.children).1 = (pathEntryAdd tree path).2.label :=
    addSegments_label _ tree.label tree.children
  rw [name]
  rfl

theorem buildTree_labels (paths : List Bytes) (ref : Ref) (label : Label) (inner : ref ≠ [])
    (known : labelAt ref (buildTree paths).label (buildTree paths).children = some label) :
    ∃ path ∈ paths, Labels (stringSegments path) ref label := by
  induction paths using List.reverseRecOn generalizing label with
  | nil =>
    cases ref with
    | nil => exact absurd rfl inner
    | cons name rest => cases known
  | append_singleton paths path ih =>
    rw [buildTree_snoc, labelAt_add] at known
    rcases labelAt_addSegments_some _ _ _ ref label known with ⟨before, there, name, slash⟩ | ⟨-, labels⟩
    · obtain ⟨other, member, above, segment, met, split, name', slash'⟩ := ih before there
      exact ⟨other, List.mem_append_left _ member, above, segment, met, split, name.trans name',
        slash.trans slash'⟩
    · exact ⟨path, by simp, labels⟩

/-- No name at the place of a component lies between that component and the text that
starts with it. -/
def Ordered (paths : List Bytes) : Prop :=
  ∀ first ∈ paths, ∀ second ∈ paths, ∀ above segment other, Meets (stringSegments first) above segment →
    Meets (stringSegments second) above other → ¬(segment.name < other.name ∧ other.name < segment.text)

/-- Paths with the same first component all have a slash before it, or all have none. -/
def SameLead (paths : List Bytes) : Prop :=
  ∀ first ∈ paths, ∀ second ∈ paths, ∀ segment other, Meets (stringSegments first) [] segment →
    Meets (stringSegments second) [] other → segment.name = other.name → segment.hasSlash = other.hasSlash

theorem buildTree_sorted (paths : List Bytes) (ordered : Ordered paths) : (buildTree paths).children.Sorted := by
  induction paths using List.reverseRecOn with
  | nil => trivial
  | append_singleton paths path ih =>
    rw [buildTree_snoc]
    refine sorted_addSegments (stringSegments path) (fun segment member => ?_) _ _ ?_
      (ih fun first member second member' => ordered first (List.mem_append_left _ member) second
        (List.mem_append_left _ member'))
    · obtain ⟨starts, clean, -⟩ := stringSegments_clean path segment member
      exact ⟨starts, clean⟩
    · intro above name there
      obtain ⟨label, known⟩ := Option.isSome_iff_exists.mp there
      obtain ⟨other, member, above', segment', met', split, -⟩ := buildTree_labels paths _ label (by simp) known
      obtain ⟨same, last⟩ := List.append_inj' split rfl
      rw [List.singleton_inj] at last
      subst same
      refine ⟨?_, fun segment met differ before => ?_⟩
      · obtain ⟨front, back, whole, -⟩ := met'
        rw [last]
        exact (stringSegments_clean other segment' (by rw [whole]; simp)).2.2
      · by_contra after
        refine ordered path (by simp) other (List.mem_append_left _ member) above segment segment' met met' ?_
        rw [← last]
        exact ⟨lt_of_not_lt differ after, before⟩

theorem buildTree_perm (paths other : List Bytes) (perm : paths.Perm other) (ordered : Ordered paths)
    (lead : SameLead paths) : buildTree paths = buildTree other := by
  have ordered' : Ordered other := fun first member second member' =>
    ordered first (perm.mem_iff.mpr member) second (perm.mem_iff.mpr member')
  have added : ∀ ref, (buildTree paths).Added ref ↔ (buildTree other).Added ref := by
    intro ref
    rw [buildTree_added, buildTree_added]
    simp only [perm.mem_iff]
  have refs : ∀ ref, ref ∈ (buildTree paths).refs ↔ ref ∈ (buildTree other).refs := by
    intro ref
    rw [buildTree_refs, buildTree_refs]
    simp only [perm.mem_iff]
  have marks : ∀ ref, (labelAt ref (buildTree paths).label (buildTree paths).children).any (·.added) =
      (labelAt ref (buildTree other).label (buildTree other).children).any (·.added) := by
    intro ref
    rw [Bool.eq_iff_iff, ← added_iff, ← added_iff, added]
  have top : (buildTree paths).added = (buildTree other).added := marks []
  have same : (buildTree paths).children = (buildTree other).children := by
    refine entry_ext (buildTree paths).label _ _ (buildTree_sorted paths ordered) (buildTree_sorted other ordered')
      fun name rest => ?_
    have label : (buildTree other).label = (buildTree paths).label := by rw [PathTree.label, ← top, PathTree.label]
    have mark := marks (name :: rest)
    have there := refs (name :: rest)
    rw [mem_refs_iff, mem_refs_iff, ← Bool.eq_iff_iff] at there
    rw [label] at mark there
    cases known : labelAt (name :: rest) (buildTree paths).label (buildTree paths).children with
    | none =>
      rw [known, eq_comm, Option.isSome_none, Option.isSome_eq_false_iff, Option.isNone_iff_eq_none] at there
      exact there.symm
    | some first =>
      rw [known, eq_comm, Option.isSome_some] at there
      obtain ⟨second, known'⟩ := Option.isSome_iff_exists.mp there
      rw [known, known'] at mark
      rw [known', Option.some.injEq]
      rw [← label] at known'
      obtain ⟨path, member, above, segment, met, split, nameOf, slash⟩ :=
        buildTree_labels paths _ first (by simp) known
      obtain ⟨path', member', above', segment', met', split', nameOf', slash'⟩ :=
        buildTree_labels other _ second (by simp) known'
      obtain ⟨equal, last⟩ := List.append_inj' (split.symm.trans split') rfl
      rw [List.singleton_inj] at last
      subst equal
      have slashes : segment.hasSlash = segment'.hasSlash := by
        cases above with
        | nil => exact lead path member path' (perm.mem_iff.mpr member') segment segment' met met' last
        | cons head tail =>
          rw [meets_slash path _ segment (by simp) met, meets_slash path' _ segment' (by simp) met']
      cases first with
      | mk name₁ added₁ slash₁ =>
        cases second with
        | mk name₂ added₂ slash₂ =>
          simp only [Option.any_some] at mark nameOf nameOf' slash slash'
          rw [nameOf, nameOf', slash, slash', last, slashes, mark]
  cases built : buildTree paths with
  | mk added₁ children₁ wf₁ =>
    cases built' : buildTree other with
    | mk added₂ children₂ wf₂ =>
      rw [built, built'] at top same
      simp only at top same
      subst top same
      rfl

def refsBelow (ref : Ref) : Entry → List Ref
  | .null => []
  | .node label children sibling =>
    refsBelow (ref ++ [label.name]) children ++ (ref ++ [label.name]) :: refsBelow ref sibling

theorem refs_entriesBelow (parent : PathEntry) (siblings : Entry) :
    (entriesBelow parent siblings).map PathEntry.ref = refsBelow parent.ref siblings := by
  induction siblings generalizing parent with
  | null => rfl
  | node label children sibling inner rest =>
    rw [entriesBelow, List.map_append, List.map_cons, inner, rest]
    rfl

theorem refs_eq (tree : PathTree) : tree.refs = refsBelow [] tree.children ++ [[]] := by
  rw [PathTree.refs, PathEntry.entries, List.map_append, refs_entriesBelow]
  rfl

theorem refsBelow_getChild (name text : Bytes) (hasSlash : Bool) (ref : Ref) (children : Entry) :
    (refsBelow ref children).Sublist (refsBelow ref (getChild name text hasSlash children)) := by
  unfold getChild
  split
  · next missing =>
    clear missing
    induction children with
    | null => exact List.nil_sublist _
    | node label children sibling _ rest =>
      rw [makeChild]
      split
      · exact (List.Sublist.refl _).append (rest.cons_cons _)
      · exact List.sublist_cons_self _ _
  · exact List.Sublist.refl _

theorem refsBelow_updateChild (name : Bytes) (change : Label → Entry → Label × Entry)
    (keeps : ∀ label children, (change label children).1.name = label.name)
    (grows : ∀ ref label children, (refsBelow ref children).Sublist (refsBelow ref (change label children).2))
    (ref : Ref) (children : Entry) :
    (refsBelow ref children).Sublist (refsBelow ref (updateChild name change children)) := by
  induction children with
  | null => exact List.Sublist.refl _
  | node label children sibling _ rest =>
    rw [updateChild]
    split
    · rw [refsBelow, refsBelow, keeps]
      exact (grows _ label children).append (List.Sublist.refl _)
    · exact (List.Sublist.refl _).append (rest.cons_cons _)

theorem refsBelow_addSegments (path : List Segment) (ref : Ref) (label : Label) (children : Entry) :
    (refsBelow ref children).Sublist (refsBelow ref (addSegments path label children).2) := by
  induction path generalizing ref label children with
  | nil => exact List.Sublist.refl _
  | cons segment rest ih =>
    exact (refsBelow_getChild ..).trans (refsBelow_updateChild _ _ (addSegments_name rest) ih ref _)

theorem refs_sublist_add (tree : PathTree) (path : Bytes) : tree.refs.Sublist (pathEntryAdd tree path).2.refs := by
  rw [refs_eq, refs_eq]
  exact (refsBelow_addSegments (stringSegments path) [] tree.label tree.children).append (List.Sublist.refl _)

theorem refs_sublist_build (paths more : List Bytes) :
    (buildTree paths).refs.Sublist (buildTree (paths ++ more)).refs := by
  induction more using List.reverseRecOn with
  | nil => rw [List.append_nil]
  | append_singleton more path ih =>
    rw [← List.append_assoc, buildTree_snoc]
    exact ih.trans (refs_sublist_add _ path)

theorem addSegments_null (segment : Segment) (rest : List Segment) (label : Label) :
    ∃ own : Label, own.name = segment.name ∧ (addSegments (segment :: rest) label .null).2 =
      .node own (addSegments rest ⟨segment.name, false, segment.hasSlash⟩ .null).2 .null := by
  refine ⟨(addSegments rest ⟨segment.name, false, segment.hasSlash⟩ .null).1, addSegments_name rest _ _, ?_⟩
  simp [addSegments, getChild, searchChild, makeChild, updateChild]

/-- Of two paths that part at some place, the one added last is put before or after the
other by the text that starts with its component. -/
theorem refsBelow_twice (above : Ref) (first second : List Segment) (segment other : Segment)
    (met : Meets first above segment) (met' : Meets second above other) (differ : segment.name ≠ other.name)
    (ref : Ref) (label label' : Label) :
    (if cstr segment.name < cstr other.text then [ref ++ above ++ [segment.name], ref ++ above ++ [other.name]]
      else [ref ++ above ++ [other.name], ref ++ above ++ [segment.name]]).Sublist
      (refsBelow ref (addSegments second label' (addSegments first label .null).2).2) := by
  induction above generalizing first second ref label label' with
  | nil =>
    cases first with
    | nil => exact absurd met (meets_nil _ _)
    | cons head rest =>
      cases second with
      | nil => exact absurd met' (meets_nil _ _)
      | cons head' rest' =>
        have here : segment = head := by simpa using (meets_cons ..).mp met
        have here' : other = head' := by simpa using (meets_cons ..).mp met'
        subst here here'
        obtain ⟨own, name, made⟩ := addSegments_null segment rest label
        have absent : searchChild other.name (.node own
            (addSegments rest ⟨segment.name, false, segment.hasSlash⟩ .null).2 .null) = .null := by
          rw [searchChild, if_neg (by rw [name]; exact differ), searchChild]
        rw [made, addSegments]
        simp only
        refine List.Sublist.trans ?_
          (refsBelow_updateChild _ _ (addSegments_name rest') (refsBelow_addSegments rest') ref _)
        rw [getChild, if_pos absent, makeChild, name]
        split
        · simp [refsBelow, makeChild, name]
        · simp [refsBelow, name]
  | cons head above ih =>
    cases first with
    | nil => exact absurd met (meets_nil _ _)
    | cons start rest =>
      cases second with
      | nil => exact absurd met' (meets_nil _ _)
      | cons start' rest' =>
        obtain ⟨name, deeper⟩ : head = start.name ∧ Meets rest above segment := by
          simpa using (meets_cons ..).mp met
        obtain ⟨name', deeper'⟩ : head = start'.name ∧ Meets rest' above other := by
          simpa using (meets_cons ..).mp met'
        obtain ⟨own, same, made⟩ := addSegments_null start rest label
        have present : own.name = start'.name := by rw [same, ← name, name']
        have inner := ih rest rest' deeper deeper' (ref ++ [head]) ⟨start.name, false, start.hasSlash⟩ own
        have kept : ∀ children, getChild start'.name start'.text start'.hasSlash (.node own children .null) =
            .node own children .null := by
          intro children
          rw [getChild, searchChild, if_pos present, if_neg (by simp)]
        rw [made, addSegments, kept]
        simp only
        rw [updateChild, if_pos present, refsBelow, addSegments_name, present, ← name']
        simp only [List.append_assoc, List.singleton_append] at inner ⊢
        exact inner.trans (List.sublist_append_left _ _)

/-- The entries and paths that the callback of a traversal from the root is given. -/
def listing (flags : ForallFlags) (size : Nat) (tree : PathTree) : Int × List (Ref × Bytes) :=
  let result := pathEntryForEachInBuffer collect flags tree.root size []
  (result.1, result.2.map fun visit => (visit.entry.ref, visit.path))

theorem listing_eq (flags : ForallFlags) (size : Nat) (tree : PathTree) (relative : flags.absolute = false)
    (last : flags.after = true) : listing flags size tree =
      (if (tourFrom flags size tree.root []).completed then 0 else -ENAMETOOLONG,
        (tourFrom flags size tree.root []).items.map fun visit => (visit.entry.ref, visit.path)) := by
  have collected := (doForeach_eq collect flags size tree.root [] []).trans (run_collect _ _)
  simp only [listing, pathEntryForEachInBuffer, last, relative, Bool.not_true, Bool.and_false, Bool.false_and,
    Bool.false_eq_true, ↓reduceIte, collected]

theorem listing_noPath (tree : PathTree) :
    (listing { noPath := true, after := true } 0 tree).2.map Prod.fst = tree.refs := by
  have follows := tourFrom_root_follows tree { noPath := true, after := true } 0 rfl rfl rfl
  have completed : (tourFrom { noPath := true, after := true } 0 tree.root []).completed = true := by
    rw [tourFrom_root _ _ _ rfl, around, Tour.completed_andThen, Tour.completed_andThen,
      tourChildren_noPath _ _ rfl]
    rfl
  rw [listing_eq _ _ _ rfl rfl, follows.2 completed, List.map_map, List.map_map, PathTree.refs]
  congr 1
  rw [List.filter_eq_self]
  exact fun entry _ => rfl

def lengthBound (tree : PathTree) : Nat := (tree.refs.map fun ref => (slashed ref).length + 1).sum

theorem listing_full (tree : PathTree) (size : Nat) (large : lengthBound tree ≤ size) :
    listing { after := true } size tree = (0, (visitsFrom { after := true } tree.root []).map
      fun visit => (visit.entry.ref, visit.path)) := by
  have whole : tourFrom { after := true } size tree.root [] =
      Tour.of (visitsFrom { after := true } tree.root []) := by
    refine tourFrom_loud _ size 0 tree.root [] rfl (by simp [underPath, PathTree.root, PathTree.label])
      (fun _ named => absurd rfl named) fun _ other member => ?_
    have known : other.ref ∈ tree.refs := List.mem_map_of_mem (List.mem_append_left _ member)
    obtain ⟨before, after, split⟩ := List.append_of_mem known
    rw [lengthBound, split, List.map_append, List.map_cons, List.sum_append, List.sum_cons] at large
    omega
  rw [listing_eq _ _ _ rfl rfl, whole]
  rfl

theorem not_sublist_both {Item : Type} {first second : Item} (items : List Item) (distinct : items.Nodup)
    (one : [first, second].Sublist items) (two : [second, first].Sublist items) : False := by
  induction items with
  | nil => cases one
  | cons item rest ih =>
    obtain ⟨fresh, distinct⟩ := List.nodup_cons.mp distinct
    cases one with
    | cons _ one =>
      cases two with
      | cons _ two => exact ih distinct one two
      | cons_cons _ two => exact fresh (one.subset (by simp))
    | cons_cons _ one =>
      cases two with
      | cons _ two => exact fresh (two.subset (by simp))
      | cons_cons _ two => exact fresh (one.subset (by simp))

theorem ordered_of_listing (paths : List Bytes) (free : ∀ other, paths.Perm other → ∀ flags size,
    listing flags size (buildTree paths) = listing flags size (buildTree other)) : Ordered paths := by
  rintro first member second member' above segment other met met' ⟨less, between⟩
  have differ : segment.name ≠ other.name := fun same => List.lt_irrefl _ (same ▸ less)
  have apart : second ≠ first := by
    intro same
    subst same
    obtain ⟨before, after, split, names⟩ := met
    obtain ⟨before', after', split', names'⟩ := met'
    have sizes : before.length = before'.length := by
      rw [← List.length_map Segment.name, names, ← names', List.length_map]
    obtain ⟨-, rest⟩ := List.append_inj (split.symm.trans split') sizes
    rw [List.cons.injEq] at rest
    exact differ (congrArg Segment.name rest.1)
  obtain ⟨rest, perm⟩ : ∃ rest, paths.Perm (first :: second :: rest) := by
    refine ⟨(paths.erase first).erase second, (List.perm_cons_erase member).trans ?_⟩
    exact (List.perm_cons_erase ((List.mem_erase_of_ne apart).mpr member')).cons first
  have inside : segment ∈ stringSegments first := by
    obtain ⟨before, after, split, -⟩ := met
    rw [split]
    simp
  have inside' : other ∈ stringSegments second := by
    obtain ⟨before, after, split, -⟩ := met'
    rw [split]
    simp
  obtain ⟨-, text, name⟩ := stringSegments_clean first segment inside
  obtain ⟨starts', text', name'⟩ := stringSegments_clean second other inside'
  have one := refsBelow_twice above _ _ segment other met met' differ [] ⟨[], false, false⟩
    (buildTree [first]).label
  have two := refsBelow_twice above _ _ other segment met' met (Ne.symm differ) [] ⟨[], false, false⟩
    (buildTree [second]).label
  rw [name, text', if_pos (lt_of_lt_start _ starts' less)] at one
  rw [name', text, if_pos between] at two
  have grown : ∀ paths : List Bytes, (refsBelow [] (buildTree paths).children).Sublist (buildTree paths).refs := by
    intro paths
    rw [refs_eq]
    exact List.sublist_append_left _ _
  have start := (one.trans (grown [first, second])).trans (refs_sublist_build [first, second] rest)
  have start' := (two.trans (grown [second, first])).trans (refs_sublist_build [second, first] rest)
  have same := free _ perm { noPath := true, after := true } 0
  rw [free _ (perm.trans (List.Perm.swap ..)) { noPath := true, after := true } 0] at same
  have refs := congrArg (fun result => result.2.map Prod.fst) same
  simp only [listing_noPath] at refs
  simp only [List.cons_append, List.nil_append] at start start'
  rw [refs] at start'
  exact not_sublist_both _ (nodup_entries _) start start'

theorem labels_top (path : List Segment) (segment : Segment) (label : Label) (met : Meets path [] segment)
    (labels : Labels path [segment.name] label) : label.slash = segment.hasSlash := by
  obtain ⟨above, other, met', split, -, slash⟩ := labels
  obtain ⟨top, -⟩ := List.append_inj' (show [] ++ [segment.name] = above ++ [other.name] from split) rfl
  subst top
  cases path with
  | nil => exact absurd met (meets_nil _ _)
  | cons first rest =>
    have here : segment = first := by simpa using (meets_cons ..).mp met
    have here' : other = first := by simpa using (meets_cons ..).mp met'
    rw [slash, here', here]

theorem buildTree_lead (path : Bytes) (more : List Bytes) (segment : Segment)
    (met : Meets (stringSegments path) [] segment) : ∃ label,
    labelAt [segment.name] (buildTree (path :: more)).label (buildTree (path :: more)).children = some label ∧
      label.name = segment.name ∧ label.slash = segment.hasSlash := by
  have starts : [segment.name] <+: (stringSegments path).map Segment.name := meets_prefix _ [] segment met
  induction more using List.reverseRecOn with
  | nil =>
    have there := (buildTree_refs [path] [segment.name]).mpr (Or.inr ⟨path, by simp, starts⟩)
    rw [mem_refs_iff] at there
    obtain ⟨label, known⟩ := Option.isSome_iff_exists.mp there
    obtain ⟨other, member, labels⟩ := buildTree_labels [path] _ label (by simp) known
    rw [List.mem_singleton.mp member] at labels
    refine ⟨label, known, ?_, labels_top _ segment label met labels⟩
    obtain ⟨above, other, -, split, name, -⟩ := labels
    obtain ⟨-, last⟩ := List.append_inj' (show [] ++ [segment.name] = above ++ [other.name] from split) rfl
    rw [name, List.singleton_inj.mp last]
  | append_singleton more added ih =>
    obtain ⟨label, known, name, slash⟩ := ih
    have there := (buildTree_refs (path :: (more ++ [added])) [segment.name]).mpr (Or.inr ⟨path, by simp, starts⟩)
    rw [mem_refs_iff] at there
    obtain ⟨label', known'⟩ := Option.isSome_iff_exists.mp there
    refine ⟨label', known', ?_⟩
    rw [← List.cons_append, buildTree_snoc, labelAt_add] at known'
    rcases labelAt_addSegments_some _ _ _ _ label' known' with ⟨before, same, name', slash'⟩ | ⟨none, -⟩
    · rw [known, Option.some.injEq] at same
      exact ⟨by rw [name', ← same, name], by rw [slash', ← same, slash]⟩
    · rw [known] at none
      cases none

theorem shown_path (tree : PathTree) (name : Bytes) (label : Label)
    (known : labelAt [name] tree.label tree.children = some label) :
    ∀ visit ∈ visitsFrom { after := true } tree.root [], visit.entry.ref = [name] →
      visit.path = leading label ++ name := by
  intro visit member located
  simp only [visitsFrom, Bool.false_eq_true, ↓reduceIte, Bool.and_false, List.nil_append, List.mem_append] at member
  rcases member with below | own
  · have top : underPath { after := true } tree.root.label [] = [] := by
      simp [underPath, PathTree.root, PathTree.label]
    rw [top] at below
    obtain ⟨child, inside, rest, place, under, path⟩ :=
      visitsBelow_top { after := true } rfl tree.root tree.root.children tree.wf visit below
    have rootRef : tree.root.ref = [] := rfl
    rw [rootRef, List.nil_append] at place
    rw [located, place, List.singleton_append, List.cons.injEq, eq_comm (a := [])] at under
    have found := (descend_root_iff tree child.ref child).mpr ⟨List.mem_append_left _ inside, rfl⟩
    have labels := descend_label child.ref tree.root
    change _ = labelAt child.ref tree.label tree.children at labels
    rw [found, place, ← under.1, known, Option.map_some, Option.some.injEq] at labels
    rw [path, under.2, ← under.1, labels]
    simp [slashed]
  · split at own
    · rw [List.mem_singleton.mp own] at located
      cases located
    · cases own

theorem shown_top (tree : PathTree) (name : Bytes) (label : Label)
    (known : labelAt [name] tree.label tree.children = some label) (path : Bytes) :
    ([name], path) ∈ (visitsFrom { after := true } tree.root []).map (fun visit => (visit.entry.ref, visit.path)) ↔
      path = leading label ++ name := by
  have shown := shown_path tree name label known
  rw [List.mem_map]
  constructor
  · rintro ⟨visit, member, same⟩
    rw [Prod.mk.injEq] at same
    rw [← same.2]
    exact shown visit member same.1
  · intro same
    have there := (mem_refs_iff tree [name]).mpr (by rw [known]; rfl)
    obtain ⟨entry, member, located⟩ := List.mem_map.mp there
    have visited : entry ∈ (visitsFrom { after := true } tree.root []).map Visit.entry := by
      rw [visitsFrom_after _ rfl rfl rfl, List.mem_filter]
      exact ⟨member, rfl⟩
    obtain ⟨visit, inside, same'⟩ := List.mem_map.mp visited
    refine ⟨visit, inside, ?_⟩
    rw [same', located, shown visit inside (by rw [same', located]), same]

theorem lead_of_listing (paths : List Bytes) (free : ∀ other, paths.Perm other → ∀ flags size,
    listing flags size (buildTree paths) = listing flags size (buildTree other)) : SameLead paths := by
  intro first member second member' segment other met met' same
  obtain ⟨label, known, name, slash⟩ := buildTree_lead first (paths.erase first) segment met
  obtain ⟨label', known', name', slash'⟩ := buildTree_lead second (paths.erase second) other met'
  have perm := List.perm_cons_erase member
  have perm' := List.perm_cons_erase member'
  have equal := free _ perm { after := true }
    (lengthBound (buildTree (first :: paths.erase first)) + lengthBound (buildTree (second :: paths.erase second)))
  rw [free _ perm', listing_full _ _ (Nat.le_add_left ..), listing_full _ _ (Nat.le_add_right ..)] at equal
  have shown := (shown_top _ _ label known (leading label ++ segment.name)).mpr rfl
  rw [Prod.mk.injEq] at equal
  rw [← equal.2, same, shown_top _ _ label' known'] at shown
  have leads := List.append_cancel_right shown
  unfold leading at leads
  rw [← slash, ← slash']
  cases one : label.slash <;> cases two : label'.slash <;> simp_all

end AppManager.Utils
