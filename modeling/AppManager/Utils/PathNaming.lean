import AppManager.Utils.PathOrder
import AppManager.Utils.PathRelative

/-! Looking up the path of an entry finds that entry, and the path of an entry that is
found is the one that was looked up, without its empty components. -/

namespace AppManager.Utils
open AppManager.Lib AppManager.Lib.Libc

/-- `path_entry_get`. -/
def pathEntryGetString (root : PathEntry) (path : Bytes) : Option PathEntry :=
  pathEntryGetLength root (cstr path) (cstr path).length

/-- The path that `path_entry_relpath` writes, with the length that it returns. -/
def relpathText (root : Nat) (flags : RelpathFlags) (lineage : List Label) (buffer : Bytes) : Option Bytes :=
  (pathEntryRelpath root flags lineage buffer).map fun written => written.2.take written.1

/-- The components of a path between its slashes, without the empty ones. -/
def parts (path : Bytes) : Ref := (path.splitOn slash).filter (· ≠ [])

theorem names_parts (path : Bytes) : names true path = parts path ∧
    names false path = (path.splitOn slash).tail.filter (· ≠ []) ∧
    (path.splitOn slash).head? = some (path.takeWhile (· != slash)) := by
  unfold parts
  induction path with
  | nil => simp [names_nil]
  | cons byte rest ih =>
    obtain ⟨begins, goes, head⟩ := ih
    rw [names_cons, names_cons, List.splitOn_cons_eq_if_modifyHead]
    by_cases here : byte = slash
    · simp [here, begins]
    · obtain ⟨first, more, split⟩ := List.exists_cons_of_ne_nil (List.splitOn_ne_nil slash rest)
      rw [split] at goes head ⊢
      simp only [List.head?_cons, Option.some.injEq] at head
      simp [here, goes, head]

theorem parts_lead (lead : Bool) (ref : Ref) (proper : ∀ name ∈ ref, name ≠ [] ∧ slash ∉ name) :
    parts ((if lead then [slash] else []) ++ List.intercalate [slash] ref) = ref := by
  have plain : parts (List.intercalate [slash] ref) = ref := by
    by_cases none : ref = []
    · subst none
      simp [parts]
    · rw [parts, List.splitOn_intercalate slash (fun name member => (proper name member).2) none,
        List.filter_eq_self]
      simpa using fun name member => (proper name member).1
  cases lead with
  | false => simpa using plain
  | true =>
    rw [if_pos rfl, List.singleton_append, ← (names_parts _).1, names_cons, if_pos rfl, (names_parts _).1, plain]

theorem pathEntryGetString_eq (root : PathEntry) (path : Bytes) (small : (cstr path).length < 2 ^ 32) :
    pathEntryGetString root path = descend (parts (cstr path)) root := by
  rw [pathEntryGetString, pathEntryGetLength, Nat.mod_eq_of_lt small, components_eq, (names_parts _).1]

theorem relpathText_named (root : Nat) (flags : RelpathFlags) (lineage : List Label) (buffer : Bytes)
    (named : labelsFrom root lineage ≠ []) (room : (relativePath root flags lineage).length ≤ buffer.length) :
    relpathText root flags lineage buffer = some (relativePath root flags lineage) := by
  rw [relpathText, pathEntryRelpath_spec root flags lineage buffer named, Option.map_some, store_clipped, clipped]
  congr 1
  rw [List.take_append_of_le_length (by rw [List.length_take, List.length_append, List.length_singleton]; omega),
    List.take_take, Nat.min_eq_left room, List.take_left]

theorem relpathText_self (flags : RelpathFlags) (entry : PathEntry) (buffer : Bytes)
    (free : flags.forceLeadingSlash = false) :
    relpathText entry.lineage.length flags entry.lineage buffer = some [] := by
  rw [relpathText, pathEntryRelpath_self, free]
  rfl

theorem relativePath_below (tree : PathTree) (start entry : PathEntry) (known : start ∈ tree.root.entries)
    (member : entry ∈ tree.root.entries) (path : Ref) (below : entry.ref = start.ref ++ path)
    (flags : RelpathFlags) : relativePath start.lineage.length flags entry.lineage =
      (if leads flags (labelsFrom start.lineage.length entry.lineage) then [slash] else []) ++
        List.intercalate [slash] path := by
  rw [relativePath, joined, labelsFrom_below tree start entry known member path below]

theorem ref_clean (paths : List Bytes) (entry : PathEntry) (member : entry ∈ (buildTree paths).root.entries) :
    ∀ name ∈ entry.ref, (0 : Byte) ∉ name := by
  intro name inside
  rcases (buildTree_refs paths entry.ref).mp (List.mem_map_of_mem member) with top | ⟨path, -, starts⟩
  · rw [top] at inside
    cases inside
  · obtain ⟨segment, part, same⟩ := List.mem_map.mp (starts.subset inside)
    rw [← same, ← (stringSegments_clean path segment part).2.2]
    exact cstr_clean segment.name

theorem intercalate_clean (ref : Ref) (clean : ∀ name ∈ ref, (0 : Byte) ∉ name) :
    (0 : Byte) ∉ List.intercalate [slash] ref := by
  induction ref with
  | nil => simp
  | cons first rest ih =>
    cases rest with
    | nil => simpa using clean
    | cons second rest =>
      rw [List.intercalate_cons_cons, List.mem_append, List.mem_append, not_or, not_or]
      exact ⟨⟨clean first (by simp), by decide⟩,
        ih fun name member => clean name (List.mem_cons_of_mem first member)⟩

theorem relativePath_clean (paths : List Bytes) (start entry : PathEntry)
    (known : start ∈ (buildTree paths).root.entries) (member : entry ∈ (buildTree paths).root.entries) (path : Ref)
    (below : entry.ref = start.ref ++ path) (flags : RelpathFlags) :
    cstr (relativePath start.lineage.length flags entry.lineage) =
      relativePath start.lineage.length flags entry.lineage := by
  apply cstr_of_no_nul
  have names := intercalate_clean path fun name inside =>
    ref_clean paths entry member name (by rw [below]; exact List.mem_append_right _ inside)
  rw [relativePath_below _ start entry known member path below, List.mem_append, not_or]
  refine ⟨?_, names⟩
  split
  · decide
  · simp

/-- The trees that `path_entry_add` makes, of paths whose names fit in their blocks. -/
inductive Built : PathTree → Prop
  | root : Built pathEntryCreateRoot
  | add {tree : PathTree} (path : Bytes) (fits : NamesFit (cstr path) (cstr path).length) : Built tree →
      Built (pathEntryAdd tree path).2

theorem Built.paths {tree : PathTree} (built : Built tree) : ∃ paths, tree = buildTree paths := by
  induction built with
  | root => exact ⟨[], rfl⟩
  | add path _ _ ih =>
    obtain ⟨paths, rfl⟩ := ih
    exact ⟨paths ++ [path], (buildTree_snoc paths path).symm⟩

/-- Looking up the path of an entry finds it, and the path of what is found is the one
that was looked up, when these paths are not cut to the length of an `unsigned`. -/
theorem lookup_naming {tree : PathTree} (built : Built tree) (start entry : PathEntry)
    (known : start ∈ tree.root.entries) (member : entry ∈ tree.root.entries) :
    (start.ref <+: entry.ref → ∀ (flags : RelpathFlags) (buffer : Bytes),
      (flags.forceLeadingSlash = true → entry ≠ start) →
      (relativePath start.lineage.length flags entry.lineage).length ≤ buffer.length →
      (relativePath start.lineage.length flags entry.lineage).length < 2 ^ 32 →
      ∃ text, relpathText start.lineage.length flags entry.lineage buffer = some text ∧
        pathEntryGetString start text = some entry) ∧
    ∀ path buffer : Bytes, (cstr path).length < 2 ^ 32 →
      (relativePath start.lineage.length ⟨true, false⟩ entry.lineage).length ≤ buffer.length →
      pathEntryGetString start path = some entry →
        relpathText start.lineage.length ⟨true, false⟩ entry.lineage buffer =
          some (List.intercalate [slash] (parts (cstr path))) := by
  obtain ⟨paths, rfl⟩ := built.paths
  have labelled (path : Ref) (below : start.ref ++ path = entry.ref) (apart : entry ≠ start) :
      labelsFrom start.lineage.length entry.lineage ≠ [] := by
    intro none
    have names := labelsFrom_below _ start entry known member path below.symm
    rw [none] at names
    rw [← names, List.map_nil, List.append_nil] at below
    exact apart (entry_unique _ member known below.symm)
  constructor
  · rintro ⟨path, below⟩ flags buffer apart room small
    by_cases itself : entry = start
    · subst itself
      have free : flags.forceLeadingSlash = false := by
        rw [← Bool.not_eq_true]
        exact fun forced => apart forced rfl
      exact ⟨[], relpathText_self flags entry buffer free, pathEntryGetString_eq entry [] (by decide)⟩
    · refine ⟨_, relpathText_named _ flags _ buffer (labelled path below itself) room, ?_⟩
      have clean := relativePath_clean paths start entry known member path below.symm flags
      rw [pathEntryGetString_eq _ _ (by rwa [clean]), clean,
        relativePath_below _ start entry known member path below.symm, parts_lead _ path fun name inside =>
          ref_proper _ entry member name (by rw [← below]; exact List.mem_append_right _ inside)]
      exact descend_below _ start entry known member path below.symm
  · intro path buffer small room found
    rw [pathEntryGetString_eq start path small] at found
    have below := (descend_sound _ start entry found).1
    by_cases itself : entry = start
    · subst itself
      have none : parts (cstr path) = [] := List.self_eq_append_right.mp below
      rw [none]
      exact relpathText_self _ entry buffer rfl
    · rw [relpathText_named _ _ _ buffer (labelled _ below.symm itself) room,
        relativePath_below _ start entry known member _ below]
      rfl

theorem lookup_naming_two : ∃ text,
    relpathText 1 ⟨false, true⟩ [⟨ascii "b", true, true⟩, ⟨ascii "a", false, false⟩, ⟨[], false, false⟩]
      (List.replicate 5 0) = some text ∧
    pathEntryGetString (buildTree [ascii "a/b"]).root text = some
      ⟨[ascii "a", ascii "b"], [⟨ascii "a", false, false⟩, ⟨[], false, false⟩], ⟨ascii "b", true, true⟩, .null⟩ :=
  (lookup_naming (.add (ascii "a/b") (namesFit_short _ _ (by decide)) .root) (buildTree [ascii "a/b"]).root
    ⟨[ascii "a", ascii "b"], [⟨ascii "a", false, false⟩, ⟨[], false, false⟩], ⟨ascii "b", true, true⟩, .null⟩
    (by decide) (by decide)).1 (by decide) ⟨false, true⟩ (List.replicate 5 0) (by decide) (by decide) (by decide)

theorem parts_pair {first second : Bytes} (proper : first ≠ []) (proper' : second ≠ []) (plain : slash ∉ first)
    (plain' : slash ∉ second) : parts (first ++ slash :: second) = [first, second] := by
  have cut : (first ++ slash :: second).splitOn slash = [first, second] := by
    rw [List.splitOn_append_cons_self_of_not_mem plain, List.splitOn_eq_singleton plain']
  rw [parts, cut]
  simp [proper, proper']

/-- A tree of one path, whose names fit in their entries. -/
theorem buildTree_single {path : Bytes} (clean : (0 : Byte) ∉ path) (short : path.length < 2 ^ 32)
    (fit : ∀ part ∈ parts path, part.length < nameRoom part.length) :
    Built (buildTree [path]) ∧ parts path ∈ (buildTree [path]).refs := by
  have whole := cstr_of_no_nul path clean
  have segmented : (segments true false path (path.length % 2 ^ 32)).map Segment.name = parts path := by
    rw [Nat.mod_eq_of_lt short]
    exact (components_eq path).trans (names_parts path).1
  constructor
  · refine .add path ?_ .root
    rw [whole]
    intro segment member
    exact fit _ (segmented ▸ List.mem_map_of_mem member)
  · refine (buildTree_refs [path] _).mpr (Or.inr ⟨path, List.mem_singleton_self path, ?_⟩)
    have names : (stringSegments path).map Segment.name = parts path := by rw [stringSegments, whole, segmented]
    exact names ▸ List.prefix_rfl

/-- The path `/b/aaa…` of 2^32 bytes is cut to an empty one, which leads to where it starts. -/
theorem vast_not_found : ¬∀ tree, Built tree → ∀ start entry : PathEntry,
    start ∈ tree.root.entries → entry ∈ tree.root.entries →
    start.ref <+: entry.ref → ∀ (flags : RelpathFlags) (buffer : Bytes),
      (flags.forceLeadingSlash = true → entry ≠ start) →
      (relativePath start.lineage.length flags entry.lineage).length ≤ buffer.length →
      ∃ text, relpathText start.lineage.length flags entry.lineage buffer = some text ∧
        pathEntryGetString start text = some entry := by
  intro all
  obtain ⟨name, size, bytes⟩ : ∃ name : Bytes, name.length = 2 ^ 32 - 3 ∧ ∀ byte ∈ name, byte = 'a'.toUInt8 :=
    ⟨List.replicate (2 ^ 32 - 3) 'a'.toUInt8, List.length_replicate, fun _ => List.eq_of_mem_replicate⟩
  have plain : slash ∉ name := fun member => absurd (bytes _ member) (by decide)
  have clean : (0 : Byte) ∉ name := fun member => absurd (bytes _ member) (by decide)
  let path : Bytes := ['b'.toUInt8] ++ slash :: name
  have long : path.length = 2 ^ 32 - 1 := by
    rw [List.length_append, List.length_singleton, List.length_cons, size]
    rfl
  have inside : (0 : Byte) ∉ path := by
    rw [List.mem_append, List.mem_singleton, List.mem_cons, not_or, not_or]
    exact ⟨by decide, by decide, clean⟩
  have absolute : (0 : Byte) ∉ slash :: path := by
    rw [List.mem_cons, not_or]
    exact ⟨by decide, inside⟩
  have named : parts path = [['b'.toUInt8], name] :=
    parts_pair (by decide) (List.ne_nil_of_length_pos (by rw [size]; decide)) (by decide) plain
  -- the two names of the path are shorter than it is
  obtain ⟨built, known⟩ := buildTree_single inside (by rw [long]; decide) (by
    rw [named, List.forall_mem_cons, List.forall_mem_singleton, size]
    decide)
  obtain ⟨entry, member, ref⟩ := List.mem_map.mp known
  have start : (buildTree [path]).root ∈ (buildTree [path]).root.entries :=
    List.mem_append_right _ (List.mem_singleton_self _)
  have apart : entry ≠ (buildTree [path]).root := by
    rintro rfl
    rw [named] at ref
    cases ref
  have text : relativePath (buildTree [path]).root.lineage.length ⟨false, true⟩ entry.lineage = slash :: path := by
    rw [relativePath_below _ _ entry start member (parts path) ref, named, leads, Bool.true_or, if_pos rfl,
      List.intercalate_cons_cons, List.intercalate_singleton]
    rfl
  obtain ⟨found, written, reached⟩ := all _ built _ entry start member List.nil_prefix ⟨false, true⟩ (slash :: path)
    (fun _ => apart) (le_of_eq (congrArg List.length text))
  have inner : labelsFrom (buildTree [path]).root.lineage.length entry.lineage ≠ [] := by
    intro none
    have names := labelsFrom_below _ _ entry start member (parts path) ref
    rw [none, named] at names
    cases names
  have same := relpathText_named _ ⟨false, true⟩ _ (slash :: path) inner (le_of_eq (congrArg List.length text))
  rw [text] at same
  rw [← Option.some.inj (same.symm.trans written), pathEntryGetString, cstr_of_no_nul _ absolute, pathEntryGetLength,
    List.length_cons, long] at reached
  exact apart (Option.some.inj reached).symm

end AppManager.Utils
