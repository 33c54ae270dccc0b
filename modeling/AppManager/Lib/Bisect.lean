import Mathlib.Data.List.Basic
import Mathlib.Data.List.TakeDrop

/-! The search by bisection in a list whose keys ascend. -/

namespace AppManager.Lib

section
variable {Item Key : Type*} [LT Key] (key : Item → Key)

def Ascending (items : List Item) : Prop := items.Pairwise fun first second => key first < key second

section
variable [DecidableEq Key] [DecidableLT Key]

/-- Where the item of a key is, or where it must be inserted. -/
def bisect (items : List Item) (wanted : Key) (low up : Nat) (inside : up ≤ items.length) : Nat ⊕ Nat :=
  if more : low < up then
    have middle : (low + up) / 2 < items.length := by omega
    if key items[(low + up) / 2] = wanted then .inl ((low + up) / 2)
    else if wanted < key items[(low + up) / 2] then bisect items wanted low ((low + up) / 2) (by omega)
    else bisect items wanted ((low + up) / 2 + 1) up inside
  else .inr low
termination_by up - low

theorem bisect_found {items : List Item} {wanted : Key} {low up : Nat} {inside : up ≤ items.length} {place : Nat}
    (found : bisect key items wanted low up inside = .inl place) :
    ∃ item, items[place]? = some item ∧ key item = wanted := by
  fun_induction bisect with
  | case1 low up inside more middle same =>
    cases found
    exact ⟨items[(low + up) / 2], List.getElem?_eq_getElem middle, same⟩
  | case2 low up inside more middle other less ih => exact ih found
  | case3 low up inside more middle other later ih => exact ih found
  | case4 low up inside ended => cases found

theorem bisect_absent (trans : ∀ {a b c : Key}, a < b → b < c → a < c)
    (total : ∀ {a b : Key}, a ≠ b → ¬a < b → b < a) {items : List Item} {wanted : Key} {low up : Nat}
    {inside : up ≤ items.length} {place : Nat} (ascending : Ascending key items) (ordered : low ≤ up)
    (before : ∀ item ∈ items.take low, key item < wanted) (after : ∀ item ∈ items.drop up, wanted < key item)
    (absent : bisect key items wanted low up inside = .inr place) :
    place ≤ items.length ∧ (∀ item ∈ items.take place, key item < wanted) ∧
      ∀ item ∈ items.drop place, wanted < key item := by
  fun_induction bisect with
  | case1 low up inside more middle same => cases absent
  | case2 low up inside more middle other less ih =>
    refine ih (by omega) before (fun item member => ?_) absent
    have split := ascending
    rw [Ascending, ← List.take_append_drop ((low + up) / 2) items, List.drop_eq_getElem_cons middle] at split
    rw [List.drop_eq_getElem_cons middle] at member
    rcases List.mem_cons.mp member with rfl | later
    · exact less
    · exact trans less ((List.pairwise_cons.mp (List.pairwise_append.mp split).2.1).1 item later)
  | case3 low up inside more middle other later ih =>
    have less : key items[(low + up) / 2] < wanted := total (Ne.symm other) later
    refine ih (by omega) (fun item member => ?_) after absent
    have split := ascending
    rw [Ascending, ← List.take_append_drop ((low + up) / 2) items, List.drop_eq_getElem_cons middle] at split
    rw [List.take_add_one, List.getElem?_eq_getElem middle] at member
    rcases List.mem_append.mp member with earlier | last
    · exact trans ((List.pairwise_append.mp split).2.2 item earlier _ List.mem_cons_self) less
    · rw [List.mem_singleton.mp last]
      exact less
  | case4 low up inside ended =>
    obtain rfl : low = up := by omega
    rw [Sum.inr.injEq] at absent
    subst absent
    exact ⟨inside, before, after⟩

end

theorem Ascending.insert {items : List Item} (ascending : Ascending key items) (item : Item) (place : Nat)
    (before : ∀ lower ∈ items.take place, key lower < key item)
    (after : ∀ greater ∈ items.drop place, key item < key greater) :
    Ascending key (items.take place ++ item :: items.drop place) := by
  have split := ascending
  rw [Ascending, ← List.take_append_drop place items] at split
  obtain ⟨front, back, across⟩ := List.pairwise_append.mp split
  refine List.pairwise_append.mpr ⟨front, List.pairwise_cons.mpr ⟨after, back⟩, fun lower member greater member' => ?_⟩
  rcases List.mem_cons.mp member' with rfl | member'
  · exact before lower member
  · exact across lower member greater member'

end
end AppManager.Lib
