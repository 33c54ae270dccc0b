import AppManager.Install.Installing

/-! The two lookups of the content of a target. The check of the contents also searches
in `htdocs`, and the computation of the types does not. -/

namespace AppManager.Install
open AppManager.Lib AppManager.Lib.Libc AppManager.Utils

variable {Closure : Type} (world : World) (pack : Package)

/-- The entry that `check_src_type_definition` finds for the content of a target. -/
def checkedEntry (target : Json) : Option PathEntry :=
  (target.get (ascii "content")).bind fun content =>
    match content.get (ascii "src") with
    | some (.string src) => findContent pack.packdir (cstr src)
    | _ => none

/-- The entry that `compute_target_file_properties_cb` finds for it. -/
def computedEntry (target : Json) : Option PathEntry :=
  (target.get (ascii "content")).bind fun content =>
    (content.get (ascii "src")).bind fun src => pathEntryGet pack.packdir (src.getString world.serialize)

/-- No target is refused once the check has accepted them, and both find the same entry. -/
def StagesAgree (Closure : Type) : Prop :=
  ∀ target ∈ pack.targets,
    (∀ state : State Closure, 0 ≤ state.rc →
      ∃ state', computeTargetFilePropertiesCb world pack state target = .ok state' ∧ 0 ≤ state'.rc) ∧
    ∃ entry, checkedEntry pack target = some entry ∧ computedEntry world pack target = some entry

/-- The contents are found from the package directory itself. -/
def Direct : Prop :=
  ∀ target ∈ pack.targets, ∀ content src, target.get (ascii "content") = some content →
    content.get (ascii "src") = some (.string src) → (pathEntryGet pack.packdir (some (cstr src))).isSome

theorem computeTarget_direct (members : List (Bytes × Json)) (src type : Bytes) (entry : PathEntry) (target : Json)
    (located : target.get (ascii "content") = some (.object members))
    (sourced : (Json.object members).get (ascii "src") = some (.string src))
    (typed : (Json.object members).get (ascii "type") = some (.string type))
    (found : pathEntryGet pack.packdir (some (cstr src)) = some entry) (state : State Closure) :
    ∃ state', computeTargetFilePropertiesCb world pack state target = .ok state' ∧ state'.rc = state.rc := by
  unfold computeTargetFilePropertiesCb
  simp only [located, sourced, typed, Json.getString, found]
  split
  · split
    · exact ⟨_, rfl, rfl⟩
    · exact ⟨_, rfl, rfl⟩
  · exact ⟨_, rfl, rfl⟩

/-- After the check, the stages agree when all the contents are found directly, and only then. -/
theorem stagesAgree_iff (state : State Closure) (accepted : 0 ≤ (checkContents world pack state).rc) :
    StagesAgree world pack Closure ↔ Direct pack := by
  have checked := checkContents_checked world pack state accepted
  constructor
  · intro agree target member content src located sourced
    obtain ⟨-, entry, -, computed⟩ := agree target member
    rw [computedEntry, located, Option.bind_some, sourced, Option.bind_some] at computed
    exact Option.isSome_iff_exists.mpr ⟨entry, computed⟩
  · intro direct target member
    obtain ⟨members, src, type, entry, located, sourced, typed, -⟩ := checked target member
    obtain ⟨entry, found⟩ := Option.isSome_iff_exists.mp (direct target member _ src located sourced)
    refine ⟨fun state fine => ?_, entry, ?_, ?_⟩
    · obtain ⟨state', made, same⟩ := computeTarget_direct world pack members src type entry target located sourced
        typed found state
      exact ⟨state', made, same ▸ fine⟩
    · rw [checkedEntry, located, Option.bind_some, sourced]
      simp only [findContent, found]
    · rw [computedEntry, located, Option.bind_some, sourced, Option.bind_some]
      exact found

def pageTarget : Json :=
  .object [(ascii "content", .object [(ascii "src", .string (ascii "index.html")),
    (ascii "type", .string (ascii "text/html"))])]

def pagePackage (path : Bytes) : Package where
  packdir := (descend [ascii "p"] (filesOf [path]).root).getD pathEntryCreateRoot.root
  offsetRoot := 0
  offsetPack := 2
  manifest := .object [(MANIFEST_TARGETS, .array [pageTarget])]

def pageState : State Unit := startState () (store (List.replicate PATH_MAX 0) 0 (ascii "/p"))

theorem stagesAgree_iff_page : StagesAgree (plainWorld (.object [])) (pagePackage (ascii "/p/index.html")) Unit :=
  (stagesAgree_iff _ _ pageState (by decide +kernel)).mpr (by
    intro target member content src located sourced
    obtain rfl := List.mem_singleton.mp member
    obtain rfl := Option.some.inj located
    obtain rfl := Json.string.inj (Option.some.inj sourced)
    decide +kernel)

/-- A page that is only in `htdocs` is accepted, and then is not found. -/
theorem page_lost : ¬∀ (world : World) (pack : Package) (state : State Unit),
    0 ≤ (checkContents world pack state).rc → StagesAgree world pack Unit := by
  intro all
  have agree := all (plainWorld (.object [])) (pagePackage (ascii "/p/htdocs/index.html")) pageState
    (by decide +kernel)
  obtain ⟨-, entry, -, computed⟩ := agree pageTarget (List.mem_singleton_self _)
  have lost : computedEntry (plainWorld (.object [])) (pagePackage (ascii "/p/htdocs/index.html")) pageTarget =
      none := by decide +kernel
  rw [lost] at computed
  cases computed

end AppManager.Install
