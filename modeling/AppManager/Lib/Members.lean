import AppManager.Lib.Json
import Mathlib.Data.List.Induction
import Mathlib.Data.List.Nodup

/-! Entries that are given one after the other, where a later one replaces those of the
same key, and the members of an object that is made of them. -/

namespace AppManager.Lib

section
variable {Key Value Value' : Type} [DecidableEq Key]

def latest (entries : List (Key × Value)) : Key → Option Value :=
  entries.foldl (fun map entry => Function.update map entry.1 (some entry.2)) fun _ => none

theorem latest_concat (entries : List (Key × Value)) (entry : Key × Value) :
    latest (entries ++ [entry]) = Function.update (latest entries) entry.1 (some entry.2) := by
  rw [latest, List.foldl_append]
  rfl

theorem latest_map (change : Value → Value') (entries : List (Key × Value)) (key : Key) :
    latest (entries.map fun entry => (entry.1, change entry.2)) key = (latest entries key).map change := by
  induction entries using List.reverseRecOn with
  | nil => rfl
  | append_singleton before entry ih =>
    rw [List.map_append, List.map_singleton, latest_concat, latest_concat]
    by_cases here : key = entry.1
    · rw [here, Function.update_self, Function.update_self, Option.map_some]
    · rw [Function.update_of_ne here, Function.update_of_ne here, ih]

theorem mem_of_latest {entries : List (Key × Value)} {key : Key} {value : Value}
    (found : latest entries key = some value) : (key, value) ∈ entries := by
  induction entries using List.reverseRecOn with
  | nil => cases found
  | append_singleton before entry ih =>
    rw [latest_concat] at found
    rw [List.mem_append, List.mem_singleton]
    by_cases here : key = entry.1
    · rw [here, Function.update_self, Option.some.injEq] at found
      exact Or.inr (Prod.ext here found.symm)
    · rw [Function.update_of_ne here] at found
      exact Or.inl (ih found)

theorem latest_eq_none {entries : List (Key × Value)} {key : Key} :
    latest entries key = none ↔ key ∉ entries.map Prod.fst := by
  induction entries using List.reverseRecOn with
  | nil => simp [latest]
  | append_singleton before entry ih =>
    rw [latest_concat, List.map_append, List.map_singleton, List.mem_append, List.mem_singleton]
    by_cases here : key = entry.1
    · rw [here, Function.update_self]
      simp
    · rw [Function.update_of_ne here, ih]
      simp [here]

theorem latest_of_mem {entries : List (Key × Value)} {key : Key} {value : Value}
    (once : (entries.map Prod.fst).Nodup) (given : (key, value) ∈ entries) : latest entries key = some value := by
  induction entries using List.reverseRecOn with
  | nil => cases given
  | append_singleton before entry ih =>
    rw [List.map_append, List.map_singleton, List.nodup_append] at once
    rw [List.mem_append, List.mem_singleton] at given
    rw [latest_concat]
    rcases given with earlier | same
    · have other : key ≠ entry.1 := once.2.2 key (List.mem_map_of_mem earlier) entry.1 (List.mem_singleton_self _)
      rw [Function.update_of_ne other, ih once.1 earlier]
    · rw [← same, Function.update_self]

end

namespace Json

variable {key : Bytes} {value : Json} {members : List (Bytes × Json)}

theorem mem_setMember {member : Bytes × Json} (there : member ∈ setMember key value members) :
    member = (key, value) ∨ member ∈ members := by
  induction members with
  | nil => exact Or.inl (List.mem_singleton.mp there)
  | cons first rest ih =>
    unfold setMember at there
    split at there
    · rcases List.mem_cons.mp there with same | later
      · exact Or.inl same
      · exact Or.inr (List.mem_cons_of_mem _ later)
    · rcases List.mem_cons.mp there with same | later
      · exact Or.inr (same ▸ List.mem_cons_self)
      · exact (ih later).imp_right (List.mem_cons_of_mem _)

theorem setMember_absent (absent : key ∉ members.map Prod.fst) :
    setMember key value members = members ++ [(key, value)] := by
  induction members with
  | nil => rfl
  | cons first rest ih =>
    rw [List.map_cons, List.mem_cons, not_or] at absent
    rw [setMember, if_neg (Ne.symm absent.1), ih absent.2, List.cons_append]

theorem keys_setMember (present : key ∈ members.map Prod.fst) :
    (setMember key value members).map Prod.fst = members.map Prod.fst := by
  induction members with
  | nil => cases present
  | cons first rest ih =>
    unfold setMember
    split
    · next here => rw [List.map_cons, List.map_cons, here]
    · next other =>
      rw [List.map_cons, List.mem_cons] at present
      rw [List.map_cons, List.map_cons, ih (present.resolve_left (Ne.symm other))]

theorem nodup_setMember (once : (members.map Prod.fst).Nodup) :
    ((setMember key value members).map Prod.fst).Nodup := by
  by_cases present : key ∈ members.map Prod.fst
  · rw [keys_setMember present]
    exact once
  · rw [setMember_absent present, List.map_append, List.map_singleton, List.nodup_append]
    refine ⟨once, List.nodup_singleton key, fun first there second last => ?_⟩
    rw [List.mem_singleton.mp last]
    rintro rfl
    exact present there

/-- The members that are left of those that are added in turn to an empty object. -/
def gather (given : List (Bytes × Json)) : List (Bytes × Json) :=
  given.foldl (fun members member => setMember member.1 member.2 members) []

theorem gather_concat (given : List (Bytes × Json)) (member : Bytes × Json) :
    gather (given ++ [member]) = setMember member.1 member.2 (gather given) := by
  rw [gather, List.foldl_append]
  rfl

theorem nodup_gather (given : List (Bytes × Json)) : ((gather given).map Prod.fst).Nodup := by
  induction given using List.reverseRecOn with
  | nil => exact List.nodup_nil
  | append_singleton before member ih =>
    rw [gather_concat]
    exact nodup_setMember ih

theorem mem_gather {given : List (Bytes × Json)} {member : Bytes × Json} (there : member ∈ gather given) :
    member ∈ given := by
  induction given using List.reverseRecOn with
  | nil => cases there
  | append_singleton before last ih =>
    rw [gather_concat] at there
    rw [List.mem_append, List.mem_singleton]
    exact (mem_setMember there).symm.imp_left ih

theorem gather_of_nodup {given : List (Bytes × Json)} (once : (given.map Prod.fst).Nodup) : gather given = given := by
  induction given using List.reverseRecOn with
  | nil => rfl
  | append_singleton before member ih =>
    rw [List.map_append, List.map_singleton, List.nodup_append] at once
    rw [gather_concat, ih once.1, setMember_absent]
    exact fun present => once.2.2 member.1 present member.1 (List.mem_singleton_self _) rfl

theorem get_gather (given : List (Bytes × Json)) (key : Bytes) :
    (Json.object (gather given)).get key = latest given key := by
  induction given using List.reverseRecOn with
  | nil => rfl
  | append_singleton before member ih =>
    rw [gather_concat, latest_concat]
    by_cases here : key = member.1
    · rw [here, Function.update_self]
      exact get_add_same (.object (gather before)) member.1 member.2 rfl
    · rw [Function.update_of_ne here, ← ih]
      exact get_add (.object (gather before)) member.1 key member.2 here

theorem latest_of_gather {given : List (Bytes × Json)} {key : Bytes} {value : Json}
    (there : (key, value) ∈ gather given) : latest given key = some value := by
  have once := nodup_gather given
  rw [← get_gather, ← gather_of_nodup once, get_gather]
  exact latest_of_mem once there

theorem keys_gather (given : List (Bytes × Json)) (holds : Bytes → Bool) :
    ((gather given).map Prod.fst).find? holds = (given.map Prod.fst).find? holds := by
  induction given using List.reverseRecOn with
  | nil => rfl
  | append_singleton before member ih =>
    rw [gather_concat, List.map_append, List.map_singleton, List.find?_append, ← ih]
    by_cases present : member.1 ∈ (gather before).map Prod.fst
    · rw [keys_setMember present]
      cases found : ((gather before).map Prod.fst).find? holds with
      | some key => rfl
      | none =>
        have fails : ¬holds member.1 = true := List.find?_eq_none.mp found member.1 present
        rw [Option.none_or, List.find?_cons_of_neg fails, List.find?_nil]
    · rw [setMember_absent present, List.map_append, List.map_singleton, List.find?_append]

/-- The first member whose key holds has the first key that was given and holds, with its last value. -/
theorem find_gather (given : List (Bytes × Json)) (holds : Bytes → Bool) :
    ((gather given).find? fun member => holds member.1).map Prod.snd =
      ((given.map Prod.fst).find? holds).bind (latest given) := by
  have same : ((gather given).find? fun member => holds member.1).map Prod.fst = (given.map Prod.fst).find? holds := by
    rw [← keys_gather, List.find?_map]
    rfl
  rw [← same]
  cases found : (gather given).find? fun member => holds member.1 with
  | none => rfl
  | some member =>
    have there : (member.1, member.2) ∈ gather given := List.mem_of_find?_eq_some found
    rw [Option.map_some, Option.map_some, Option.bind_some, latest_of_gather there]

theorem foldl_add (given members : List (Bytes × Json)) :
    given.foldl (fun json member => json.add member.1 member.2) (Json.object members) =
      .object (given.foldl (fun members member => setMember member.1 member.2 members) members) := by
  induction given generalizing members with
  | nil => rfl
  | cons member rest ih => rw [List.foldl_cons, List.foldl_cons, ← ih, add]

theorem add_of_get {json : Json} (there : json.get key = some value) : json.add key value = json := by
  cases json with
  | object members =>
    change Json.object (setMember key value members) = .object members
    congr 1
    induction members with
    | nil => cases there
    | cons first rest ih =>
      unfold setMember
      split
      · next here =>
        simp only [get, List.find?_cons, here, decide_true, Option.map_some, Option.some.injEq] at there
        rw [← there, ← here]
      · next other =>
        simp only [get, List.find?_cons, other, decide_false] at there
        rw [ih there]
  | _ => rfl

end Json
end AppManager.Lib
