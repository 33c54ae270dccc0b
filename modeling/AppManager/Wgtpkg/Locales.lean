import AppManager.Lib.Lines
import AppManager.Utils.PathType
import AppManager.Wgtpkg.Subpath
import Mathlib.Data.List.Nodup

/-! The locales of a widget, in the order of their priority. A string is given by its bytes
before its NUL, and no allocation fails. -/

namespace AppManager.Wgtpkg
open AppManager.Lib AppManager.Lib.Libc

def comma : Byte := ','.toUInt8
def dash : Byte := '-'.toUInt8

def wgtCreate : Wgt := ⟨-1, []⟩

def locadd (wgt : Wgt) (locstr : Bytes) (length : Nat) : Wgt :=
  let item := (locstr.take length).map Utils.toLower
  if wgt.locales.any (· = item) then wgt else { wgt with locales := wgt.locales ++ [item] }

/-- The `do` loop that moves `stop`, counted from the start of the item, back to a dash. -/
def previousDash (locstr : Bytes) : Nat → Nat
  | 0 => 0
  | stop + 1 => if 0 < stop ∧ locstr[stop]? ≠ some dash then previousDash locstr stop else stop

theorem previousDash_lt (locstr : Bytes) (stop : Nat) (inside : 0 < stop) : previousDash locstr stop < stop := by
  induction stop with
  | zero => exact absurd inside (lt_irrefl 0)
  | succ stop ih =>
    rw [previousDash]
    split
    · next before => exact (ih before.1).trans (Nat.lt_succ_self stop)
    · exact Nat.lt_succ_self stop

def addVariants (wgt : Wgt) (locstr : Bytes) (stop : Nat) : Wgt :=
  if _inside : 0 < stop then addVariants (locadd wgt locstr stop) locstr (previousDash locstr stop) else wgt
termination_by stop
decreasing_by exact previousDash_lt locstr stop _inside

def wgtLocalesAdd (wgt : Wgt) (locstr : Bytes) : Wgt :=
  if more : locstr ≠ [] then
    let stop := (locstr.takeWhile (· != comma)).length
    let next := stop + if locstr.drop stop = [] then 0 else 1
    wgtLocalesAdd (addVariants wgt locstr stop) (locstr.drop next)
  else wgt
termination_by locstr.length
decreasing_by
  have some := List.length_pos_iff.mpr more
  rw [List.length_drop]
  split
  · next ended =>
    have := List.drop_eq_nil_iff.mp ended
    omega
  · omega

/-- `strcasecmp` on the locales, one after the other. -/
def scoreFrom (lang : Bytes) : List Bytes → Nat → Int
  | [], _ => UINT_MAX
  | locale :: rest, i => if lang.map Utils.toLower = locale.map Utils.toLower then i else scoreFrom lang rest (i + 1)

def wgtLocalesScore (wgt : Wgt) (lang : Option Bytes) : Int :=
  match lang with
  | none => UINT_MAX
  | some lang => scoreFrom lang wgt.locales 0

/-- The positions of the dashes that are not first, from the last one. -/
def dashesBelow (item : Bytes) (stop : Nat) : List Nat :=
  ((List.range stop).filter fun i => 0 < i ∧ item[i]? = some dash).reverse

/-- An item, and its prefixes that end before its dashes, the longest first. -/
def withVariants (item : Bytes) : List Bytes := item :: (dashesBelow item item.length).map item.take

def expansion (item : Bytes) : List Bytes := if item = [] then [] else withVariants item

def expansions (locstr : Bytes) : List Bytes :=
  ((locstr.splitOn comma).flatMap expansion).map fun locale => locale.map Utils.toLower

theorem dashesBelow_succ (item : Bytes) (stop : Nat) : dashesBelow item (stop + 1) =
    if 0 < previousDash item (stop + 1) then
      previousDash item (stop + 1) :: dashesBelow item (previousDash item (stop + 1))
    else [] := by
  induction stop with
  | zero => rfl
  | succ stop ih =>
    rw [previousDash]
    unfold dashesBelow at ih ⊢
    rw [List.range_succ, List.filter_append, List.reverse_append]
    split
    · next other =>
      rw [← ih, List.filter_singleton, decide_eq_false fun both => other.2 both.2]
      rfl
    · next here =>
      have found : item[stop + 1]? = some dash := by
        by_contra missing
        exact here ⟨Nat.succ_pos stop, missing⟩
      rw [if_pos (Nat.succ_pos stop), List.filter_singleton, decide_eq_true ⟨Nat.succ_pos stop, found⟩]
      rfl

theorem addVariants_eq (wgt : Wgt) (locstr : Bytes) (stop : Nat) (inside : 0 < stop) :
    addVariants wgt locstr stop =
      (dashesBelow locstr stop).foldl (fun wgt length => locadd wgt locstr length) (locadd wgt locstr stop) := by
  induction stop using Nat.strong_induction_on generalizing wgt with
  | _ stop ih =>
    obtain ⟨stop, rfl⟩ := Nat.exists_eq_succ_of_ne_zero (Nat.ne_of_gt inside)
    rw [addVariants, dif_pos inside, dashesBelow_succ]
    split
    · next again => rw [ih _ (previousDash_lt locstr _ inside) _ again, List.foldl_cons]
    · next ended => rw [addVariants, dif_neg ended, List.foldl_nil]

def addLocale (locales : List Bytes) (locale : Bytes) : List Bytes :=
  if locales.any (· = locale) then locales else locales ++ [locale]

theorem locadd_locales (wgt : Wgt) (locstr : Bytes) (length : Nat) :
    (locadd wgt locstr length).locales = addLocale wgt.locales ((locstr.take length).map Utils.toLower) := by
  rw [locadd, addLocale]
  split <;> rfl

theorem addVariants_item (wgt : Wgt) (item after : Bytes) : (addVariants wgt (item ++ after) item.length).locales =
    ((expansion item).map fun locale => locale.map Utils.toLower).foldl addLocale wgt.locales := by
  by_cases empty : item = []
  · subst empty
    rw [expansion, if_pos rfl, addVariants, dif_neg (by simp)]
    rfl
  have same : dashesBelow (item ++ after) item.length = dashesBelow item item.length := by
    unfold dashesBelow
    congr 1
    apply List.filter_congr
    intro i member
    rw [List.getElem?_append_left (List.mem_range.mp member)]
  have below : ∀ length ∈ dashesBelow item item.length, length ≤ item.length := by
    intro length member
    exact le_of_lt (List.mem_range.mp (List.mem_filter.mp (List.mem_reverse.mp member)).1)
  have folded (lengths : List Nat) (short : ∀ length ∈ lengths, length ≤ item.length) (wgt : Wgt) :
      (lengths.foldl (fun wgt length => locadd wgt (item ++ after) length) wgt).locales =
        ((lengths.map item.take).map fun locale => locale.map Utils.toLower).foldl addLocale wgt.locales := by
    induction lengths generalizing wgt with
    | nil => rfl
    | cons length rest ih =>
      obtain ⟨here, others⟩ := List.forall_mem_cons.mp short
      rw [List.foldl_cons, ih others, locadd_locales, List.take_append_of_le_length here]
      rfl
  rw [addVariants_eq wgt _ _ (List.length_pos_iff.mpr empty), same, folded _ below, locadd_locales, List.take_left,
    expansion, if_neg empty, withVariants]
  rfl

theorem wgtLocalesAdd_locales (wgt : Wgt) (locstr : Bytes) :
    (wgtLocalesAdd wgt locstr).locales = (expansions locstr).foldl addLocale wgt.locales := by
  have ended (wgt : Wgt) : wgtLocalesAdd wgt [] = wgt := by rw [wgtLocalesAdd, dif_neg (not_not.mpr rfl)]
  induction locstr using lines_induction comma generalizing wgt with
  | unfinished item single =>
    have whole : item.takeWhile (· != comma) = item := by
      rw [List.takeWhile_eq_self_iff]
      intro byte member
      rw [bne_iff_ne]
      exact fun same => single (same ▸ member)
    have variants := addVariants_item wgt item []
    rw [List.append_nil] at variants
    rw [expansions, List.splitOn_eq_singleton single, List.flatMap_singleton, ← variants]
    by_cases empty : item = []
    · rw [empty, ended, List.length_nil, addVariants, dif_neg (lt_irrefl 0)]
    · rw [wgtLocalesAdd, dif_pos empty]
      simp only [whole, List.drop_length, if_true, add_zero]
      rw [ended]
  | line item rest single ih =>
    rw [wgtLocalesAdd, dif_pos (by simp), takeWhile_stop comma item rest single]
    simp only [List.drop_left]
    rw [if_neg (by simp), ← List.drop_drop, List.drop_left, List.drop_one, List.tail_cons, ih, addVariants_item,
      expansions, expansions,
      List.splitOn_append_cons_self_of_not_mem single, List.flatMap_cons, List.map_append, List.foldl_append]

theorem foldl_addLocale (done items : List Bytes) :
    items.foldl addLocale done.eraseDups = (done ++ items).eraseDups := by
  induction items generalizing done with
  | nil => rw [List.append_nil, List.foldl_nil]
  | cons item rest ih =>
    have next : addLocale done.eraseDups item = (done ++ [item]).eraseDups := by
      rw [addLocale, List.eraseDups_append, List.cons_removeAll, List.nil_removeAll]
      by_cases member : item ∈ done
      · rw [if_pos (by simpa using member), if_neg (by simpa using member)]
        exact (List.append_nil _).symm
      · rw [if_neg (by simpa using member), if_pos (by simpa using member)]
        rfl
    rw [List.foldl_cons, next, ih, List.append_assoc, List.singleton_append]

theorem locales_run (calls : List Bytes) :
    (calls.foldl wgtLocalesAdd wgtCreate).locales = (calls.flatMap expansions).eraseDups := by
  have run (wgt : Wgt) :
      (calls.foldl wgtLocalesAdd wgt).locales = (calls.flatMap expansions).foldl addLocale wgt.locales := by
    induction calls generalizing wgt with
    | nil => rfl
    | cons locstr rest ih =>
      rw [List.foldl_cons, ih, wgtLocalesAdd_locales, List.flatMap_cons, List.foldl_append]
  rw [run]
  exact foldl_addLocale [] _

theorem nodup_addLocales (locales items : List Bytes) (once : locales.Nodup) :
    (items.foldl addLocale locales).Nodup := by
  induction items generalizing locales with
  | nil => exact once
  | cons item rest ih =>
    apply ih
    rw [addLocale]
    split
    · exact once
    · next fresh =>
      refine List.nodup_append.mpr ⟨once, List.nodup_singleton item, fun locale known other last => ?_⟩
      rw [List.mem_singleton.mp last]
      rintro rfl
      exact fresh (List.any_eq_true.mpr ⟨locale, known, decide_eq_true rfl⟩)

theorem expansions_lower (locstr : Bytes) : ∀ locale ∈ expansions locstr, locale.map Utils.toLower = locale := by
  intro locale member
  obtain ⟨given, -, rfl⟩ := List.mem_map.mp member
  rw [List.map_map]
  exact List.map_congr_left fun byte _ => Utils.toLower_toLower byte

theorem scoreFrom_found (lang : Bytes) (locales : List Bytes) (i index : Nat) (locale : Bytes)
    (found : locales[index]? = some locale) (same : lang.map Utils.toLower = locale.map Utils.toLower)
    (first : ∀ earlier < index, ∀ other, locales[earlier]? = some other →
      lang.map Utils.toLower ≠ other.map Utils.toLower) : scoreFrom lang locales i = (i + index : Nat) := by
  induction locales generalizing i index with
  | nil => cases found
  | cons head rest ih =>
    rw [scoreFrom]
    cases index with
    | zero =>
      cases found
      rw [if_pos same]
      rfl
    | succ index =>
      rw [if_neg (first 0 (Nat.succ_pos index) head rfl), ih (i + 1) index found fun earlier less other given =>
        first (earlier + 1) (Nat.succ_lt_succ less) other given]
      congr 1
      omega

theorem scoreFrom_absent (lang : Bytes) (locales : List Bytes) (i : Nat)
    (absent : ∀ locale ∈ locales, lang.map Utils.toLower ≠ locale.map Utils.toLower) :
    scoreFrom lang locales i = UINT_MAX := by
  induction locales generalizing i with
  | nil => rfl
  | cons head rest ih =>
    obtain ⟨here, others⟩ := List.forall_mem_cons.mp absent
    rw [scoreFrom, if_neg here, ih (i + 1) others]

example : (wgtLocalesAdd wgtCreate (ascii "fr-CH,en-GB")).locales =
    [ascii "fr-ch", ascii "fr", ascii "en-gb", ascii "en"] := by
  rw [wgtLocalesAdd_locales]
  decide

end AppManager.Wgtpkg
