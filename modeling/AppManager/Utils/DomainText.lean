import AppManager.Lib.Lines
import AppManager.Utils.DomainMap

/-! The text of a specification, written and read by positions: which texts are read, what
they denote, and that what is written is read back. -/

namespace AppManager.Utils
open AppManager.Lib AppManager.Lib.Libc

def comma : Byte := ','.toUInt8

def DomainPermission.tag : DomainPermission → Byte
  | .none => 0
  | .grants => '+'.toUInt8
  | .auth => '#'.toUInt8
  | .root => '@'.toUInt8

/-- A byte of a string, whose terminator is the last one that can be read. -/
def charAt (str : Bytes) (position : Nat) : Option Byte := (str ++ [0])[position]?

namespace DomainText

/-- The loop, with `stop` for the variable `end`. It has no value before the first item:
the step of the loop reads the string there even when the item is rejected. -/
def readItems (str : Bytes) : Nat → Nat → Nat → DomainSpec → Option (Int × DomainSpec)
  | 0, _, _, _ => none
  | fuel + 1, pos, stop, spec =>
    (charAt str pos).bind fun op =>
      if op = 0 then some (0, spec)
      else match domainPermissionOfTag op with
        | none => (charAt str stop).map fun _ => (-ENOKEY, spec)
        | some pe =>
          let pos := pos + 1
          let len := ((str.drop pos).takeWhile (· != comma)).length
          (charAt str (pos + len)).bind fun next =>
            if len = 0 then some (-ENODATA, spec)
            else if (getDomainLen spec (str.drop pos) len).isSome then some (-EEXIST, spec)
            else readItems str fuel (if next = 0 then pos + len else pos + len + 1) (pos + len)
              (addDomainLen spec pe (str.drop pos) len).2

/-- `stale` is what the variable `end` holds when the function is called. -/
def getDomainSpecOfString (stale : Nat) (str : Bytes) (spec : DomainSpec) : Option (Int × DomainSpec) :=
  if spec ≠ [] then some (-ENOTEMPTY, spec)
  else (readItems str (str.length + 1) 0 stale spec).map fun (rc, spec) =>
    if rc ≠ 0 then (rc, .initial) else (rc, spec)

def size : DomainSpec → Nat
  | [] => 0
  | dom :: rest => (if dom.permission = .none then 0 else dom.name.length + 2) + size rest

def print : DomainSpec → Bytes → Bytes
  | [], str => str
  | dom :: rest, str =>
    if dom.permission = .none then print rest str
    else print rest (str ++ (if str = [] then [] else [comma]) ++ dom.permission.tag :: dom.name)

/-- The terminator is the last byte written, in an allocation of the size computed first. -/
def getStringOfDomainSpec (spec : DomainSpec) : Option (Int × Bytes) :=
  let str := print spec []
  if str.length < size spec then some (toInt str.length, str) else none

def itemText (dom : Domain) : Bytes := dom.permission.tag :: dom.name

def itemsText : List Domain → Bytes
  | [] => []
  | [dom] => itemText dom
  | dom :: rest => itemText dom ++ comma :: itemsText rest

structure ProperItem (dom : Domain) : Prop where
  given : dom.permission ≠ .none
  named : dom.name ≠ []
  whole : comma ∉ dom.name
  clean : (0 : Byte) ∉ dom.name

/-- One optional comma may follow the last item. -/
def Written (str : Bytes) (items : List Domain) : Prop :=
  str = itemsText items ∨ items ≠ [] ∧ str = itemsText items ++ [comma]

structure Spells (str : Bytes) (items : List Domain) : Prop where
  proper : ∀ dom ∈ items, ProperItem dom
  distinct : DomainSpec.Distinct items
  text : Written str items

/-- The text is accepted exactly when it is a list of items, which the specification then denotes. -/
structure Classified (str : Bytes) (rc : Int) (spec : DomainSpec) : Prop where
  accepted : rc = 0 ↔ ∃ items, Spells str items
  denotes : ∀ items, Spells str items → permissionOf spec = permissionOf items
  refused : rc ≠ 0 → rc < 0 ∧ spec = []

def StartsWithTag (str : Bytes) : Prop := ∀ op ∈ str.head?, (domainPermissionOfTag op).isSome

instance (str : Bytes) : Decidable (StartsWithTag str) := Option.decidableForallMem str.head?

theorem tag_of_given {permission : DomainPermission} (given : permission ≠ .none) :
    domainPermissionOfTag permission.tag = some permission ∧ permission.tag ≠ 0 ∧ permission.tag ≠ comma := by
  cases permission with
  | none => exact absurd rfl given
  | grants => decide
  | auth => decide
  | root => decide

theorem given_of_tag {op : Byte} {permission : DomainPermission} (found : domainPermissionOfTag op = some permission) :
    permission ≠ .none ∧ permission.tag = op := by
  unfold domainPermissionOfTag at found
  split at found
  · next same =>
    cases found
    exact ⟨by decide, same.symm⟩
  · split at found
    · next same =>
      cases found
      exact ⟨by decide, same.symm⟩
    · split at found
      · next same =>
        cases found
        exact ⟨by decide, same.symm⟩
      · cases found

theorem written_cons (str : Bytes) (dom : Domain) (rest : List Domain) :
    Written str (dom :: rest) ↔ (str = itemText dom ∧ rest = []) ∨
      ∃ more, str = itemText dom ++ comma :: more ∧ Written more rest := by
  cases rest with
  | nil =>
    simp only [Written, itemsText, ne_eq, not_true_eq_false, false_and, or_false, and_true, reduceCtorEq,
      not_false_eq_true, true_and, exists_eq_right]
  | cons next rest =>
    simp only [Written, itemsText, ne_eq, reduceCtorEq, not_false_eq_true, true_and, and_false, false_or,
      List.append_assoc, List.cons_append]
    constructor
    · rintro (same | same)
      · exact ⟨_, same, Or.inl rfl⟩
      · exact ⟨_, same, Or.inr rfl⟩
    · rintro ⟨more, same, rfl | rfl⟩
      · exact Or.inl same
      · exact Or.inr same

theorem charAt_inside {str : Bytes} {position : Nat} {op : Byte} {rest : Bytes}
    (there : str.drop position = op :: rest) : charAt str position = some op := by
  have here : str[position]? = some op := by
    rw [← List.head?_drop, there, List.head?_cons]
  rw [charAt, List.getElem?_append_left (List.getElem?_eq_some_iff.mp here).choose]
  exact here

theorem charAt_end (str : Bytes) : charAt str str.length = some 0 := by
  rw [charAt, List.getElem?_append_right (Nat.le_refl _), Nat.sub_self]
  rfl

theorem charAt_outside {str : Bytes} {position : Nat} (outside : str.length < position) :
    charAt str position = none := by
  rw [charAt, List.getElem?_eq_none_iff, List.length_append, List.length_singleton]
  exact outside

theorem charAt_spec {str : Bytes} (clean : (0 : Byte) ∉ str) {position : Nat} (inside : position ≤ str.length) :
    (str.drop position = [] ∧ position = str.length ∧ charAt str position = some 0) ∨
      ∃ op rest, str.drop position = op :: rest ∧ op ≠ 0 ∧ charAt str position = some op := by
  cases there : str.drop position with
  | nil =>
    have last : position = str.length := Nat.le_antisymm inside (List.drop_eq_nil_iff.mp there)
    exact Or.inl ⟨rfl, last, by rw [last, charAt_end]⟩
  | cons op rest =>
    refine Or.inr ⟨op, rest, rfl, fun zero => clean ?_, charAt_inside there⟩
    rw [← zero]
    exact List.mem_of_mem_drop (there ▸ List.mem_cons_self)

theorem readItems_eq {str : Bytes} (clean : (0 : Byte) ∉ str) (fuel pos stop : Nat) (spec : DomainSpec)
    (inside : pos ≤ str.length) (room : str.length ≤ pos + fuel)
    (known : stop ≤ str.length ∨ StartsWithTag (str.drop pos)) :
    readItems str (fuel + 1) pos stop spec = some (getDomainSpecOfStringLoop fuel (str.drop pos) spec) := by
  induction fuel generalizing pos stop spec with
  | zero =>
    have last : pos = str.length := Nat.le_antisymm inside room
    rw [readItems, last, charAt_end]
    rfl
  | succ fuel ih =>
    rw [readItems]
    rcases charAt_spec clean inside with ⟨left, -, byte⟩ | ⟨op, rest, left, real, byte⟩
    · rw [byte, left]
      rfl
    · rw [byte, Option.bind_some, if_neg real, left, getDomainSpecOfStringLoop]
      have behind : str.drop (pos + 1) = rest := by rw [← List.tail_drop, left, List.tail_cons]
      cases found : domainPermissionOfTag op with
      | none =>
        have read : stop ≤ str.length := by
          rcases known with read | tagged
          · exact read
          · have some := tagged op (by rw [left]; rfl)
            rw [found] at some
            exact absurd some Bool.false_ne_true
        rcases charAt_spec clean read with ⟨-, -, byte'⟩ | ⟨_, _, -, -, byte'⟩
        · rw [byte']
          rfl
        · rw [byte']
          rfl
      | some pe =>
        simp only [behind]
        rw [← comma]
        have short := (List.takeWhile_sublist (l := rest) (· != comma)).length_le
        generalize (rest.takeWhile (· != comma)).length = len at short ⊢
        have total : str.length = pos + 1 + rest.length := by
          have sizes := congrArg List.length left
          rw [List.length_drop, List.length_cons] at sizes
          omega
        have further : ∀ count, str.drop (pos + 1 + count) = rest.drop count := fun count => by
          rw [← behind, List.drop_drop]
        rcases charAt_spec clean (by omega : pos + 1 + len ≤ str.length) with
          ⟨-, last, byte'⟩ | ⟨next, _, -, real', byte'⟩
        · rw [byte', Option.bind_some, if_pos rfl,
            ih (pos + 1 + len) (pos + 1 + len) _ (by omega) (by omega) (Or.inl (by omega)), further,
            List.drop_eq_nil_of_le (by omega : rest.length ≤ len),
            List.drop_eq_nil_of_le (by omega : rest.length ≤ len + 1)]
          split
          · rfl
          · split <;> rfl
        · have more : pos + 1 + len < str.length := by
            by_contra none
            have last : pos + 1 + len = str.length := by omega
            rw [last, charAt_end] at byte'
            exact real' (Option.some.inj byte').symm
          rw [byte', Option.bind_some, if_neg real',
            ih (pos + 1 + len + 1) (pos + 1 + len) _ (by omega) (by omega) (Or.inl (by omega)), Nat.add_assoc,
            further]
          split
          · rfl
          · split <;> rfl

theorem getDomainSpecOfString_known {str : Bytes} (clean : (0 : Byte) ∉ str) {stale : Nat}
    (known : stale ≤ str.length ∨ StartsWithTag str) :
    getDomainSpecOfString stale str [] = some (Utils.getDomainSpecOfString str []) := by
  rw [getDomainSpecOfString, if_neg (fun other => other rfl),
    readItems_eq clean str.length 0 stale [] (Nat.zero_le _) (by omega) known, List.drop_zero, Option.map_some,
    Utils.getDomainSpecOfString, if_neg (fun other => other rfl)]

theorem getDomainSpecOfString_stale {str : Bytes} (clean : (0 : Byte) ∉ str) (other : ¬StartsWithTag str)
    {stale : Nat} (outside : str.length < stale) : getDomainSpecOfString stale str [] = none := by
  cases str with
  | nil => exact absurd (fun op first => by cases first) other
  | cons op rest =>
    have untagged : domainPermissionOfTag op = none := by
      cases found : domainPermissionOfTag op with
      | none => rfl
      | some pe =>
        refine absurd (fun op' first => ?_) other
        rw [← Option.some.inj first, found]
        rfl
    have real : op ≠ 0 := fun zero => clean (zero ▸ List.mem_cons_self)
    rw [getDomainSpecOfString, if_neg (fun other => other rfl), readItems,
      charAt_inside (List.drop_zero (l := op :: rest)), Option.bind_some, if_neg real, untagged,
      charAt_outside outside]
    rfl

theorem fresh_of_distinct {items : List Domain} {dom : Domain} {spec : DomainSpec}
    (distinct : DomainSpec.Distinct (items ++ dom :: spec)) : permissionOf spec dom.name = none := by
  apply permissionOf_none
  rw [DomainSpec.Distinct, List.map_append, List.map_cons, List.nodup_append] at distinct
  exact (List.nodup_cons.mp distinct.2.1).1

theorem loop_tagged {op : Byte} {pe : DomainPermission} (found : domainPermissionOfTag op = some pe) (fuel : Nat)
    (rest : Bytes) (spec : DomainSpec) :
    getDomainSpecOfStringLoop (fuel + 1) (op :: rest) spec =
      if (rest.takeWhile (· != comma)).length = 0 then (-ENODATA, spec)
      else if (getDomainLen spec rest (rest.takeWhile (· != comma)).length).isSome then (-EEXIST, spec)
      else getDomainSpecOfStringLoop fuel (rest.drop ((rest.takeWhile (· != comma)).length + 1))
        (addDomainLen spec pe rest (rest.takeWhile (· != comma)).length).2 := by
  rw [getDomainSpecOfStringLoop, found]
  rfl

theorem loop_untagged {op : Byte} (found : domainPermissionOfTag op = none) (fuel : Nat) (rest : Bytes)
    (spec : DomainSpec) : getDomainSpecOfStringLoop (fuel + 1) (op :: rest) spec = (-ENOKEY, spec) := by
  rw [getDomainSpecOfStringLoop, found]

theorem loop_item {dom : Domain} (proper : ProperItem dom) {spec : DomainSpec}
    (fresh : permissionOf spec dom.name = none) (fuel : Nat) {rest : Bytes}
    (ends : rest = [] ∨ ∃ more, rest = comma :: more) :
    getDomainSpecOfStringLoop (fuel + 1) (itemText dom ++ rest) spec =
      getDomainSpecOfStringLoop fuel (rest.drop 1) (dom :: spec) := by
  have field : (dom.name ++ rest).takeWhile (· != comma) = dom.name := by
    rcases ends with rfl | ⟨more, rfl⟩
    · rw [List.append_nil, List.takeWhile_eq_self_iff]
      intro byte member
      rw [bne_iff_ne]
      exact fun same => proper.whole (same ▸ member)
    · exact takeWhile_stop comma dom.name more proper.whole
  have named : dom.name.length ≠ 0 := fun none => proper.named (List.length_eq_zero_iff.mp none)
  rw [itemText, List.cons_append, loop_tagged (tag_of_given proper.given).1, field, if_neg named,
    getDomainLen_isSome, List.take_left, fresh, if_neg (by decide), addDomainLen,
    List.take_left, Nat.add_comm, Nat.add_comm 1, List.drop_append, List.drop_of_length_le (by omega),
    List.nil_append, Nat.add_sub_cancel_left]

theorem loop_accepts {items : List Domain} (proper : ∀ dom ∈ items, ProperItem dom) {spec : DomainSpec}
    (distinct : DomainSpec.Distinct (items.reverse ++ spec)) {str : Bytes} (text : Written str items) (fuel : Nat)
    (room : str.length ≤ fuel) : getDomainSpecOfStringLoop fuel str spec = (0, items.reverse ++ spec) := by
  induction items generalizing str spec fuel with
  | nil =>
    have empty : str = [] := by simpa [Written, itemsText] using text
    rw [empty]
    cases fuel <;> rfl
  | cons dom rest ih =>
    rw [List.reverse_cons, List.append_assoc, List.singleton_append] at distinct ⊢
    have first := proper dom List.mem_cons_self
    have others : ∀ dom ∈ rest, ProperItem dom := fun dom member => proper dom (List.mem_cons_of_mem _ member)
    have fresh := fresh_of_distinct distinct
    cases fuel with
    | zero =>
      rcases (written_cons str dom rest).mp text with ⟨same, -⟩ | ⟨more, same, -⟩
      · rw [same] at room
        exact absurd room (by simp [itemText])
      · rw [same] at room
        exact absurd room (by simp [itemText])
    | succ fuel =>
      rcases (written_cons str dom rest).mp text with ⟨same, last⟩ | ⟨more, same, text'⟩
      · rw [same, ← List.append_nil (itemText dom), loop_item first fresh fuel (Or.inl rfl)]
        exact ih others distinct (last ▸ Or.inl rfl) fuel (Nat.zero_le _)
      · rw [same, loop_item first fresh fuel (Or.inr ⟨more, rfl⟩)]
        refine ih others distinct text' fuel ?_
        rw [same, List.length_append, List.length_cons] at room
        omega

theorem comma_parts (rest : Bytes) : ∃ name tail, rest.takeWhile (· != comma) = name ∧ rest = name ++ tail ∧
    comma ∉ name ∧ (tail = [] ∨ ∃ more, tail = comma :: more) := by
  refine ⟨_, _, rfl, List.takeWhile_append_dropWhile.symm, fun member => ?_, ?_⟩
  · simpa using List.mem_takeWhile_imp member
  · cases tail : rest.dropWhile (· != comma) with
    | nil => exact Or.inl rfl
    | cons byte more =>
      have stopped := List.head?_dropWhile_not (· != comma) rest
      rw [tail] at stopped
      exact Or.inr ⟨more, by rw [← (by simpa using stopped : byte = comma)]⟩

theorem written_nil {items : List Domain} (text : Written [] items) : items = [] := by
  cases items with
  | nil => rfl
  | cons next items =>
    rcases (written_cons _ next items).mp text with ⟨same, -⟩ | ⟨more, same, -⟩
    · exact absurd same (by simp [itemText])
    · exact absurd same (by simp [itemText])

theorem written_first (dom : Domain) {tail : Bytes} (ends : tail = [] ∨ ∃ more, tail = comma :: more)
    {items : List Domain} (text : Written (tail.drop 1) items) : Written (itemText dom ++ tail) (dom :: items) := by
  rw [written_cons]
  rcases ends with rfl | ⟨more, rfl⟩
  · exact Or.inl ⟨List.append_nil _, written_nil text⟩
  · exact Or.inr ⟨more, rfl, text⟩

theorem loop_sound {str : Bytes} (clean : (0 : Byte) ∉ str) {spec : DomainSpec} (distinct : spec.Distinct)
    (fuel : Nat) (room : str.length ≤ fuel) (success : (getDomainSpecOfStringLoop fuel str spec).1 = 0) :
    ∃ items, (∀ dom ∈ items, ProperItem dom) ∧ DomainSpec.Distinct (items.reverse ++ spec) ∧ Written str items := by
  induction fuel generalizing str spec with
  | zero =>
    have empty := List.length_eq_zero_iff.mp (Nat.le_zero.mp room)
    exact ⟨[], fun _ none => absurd none List.not_mem_nil, distinct, Or.inl empty⟩
  | succ fuel ih =>
    cases str with
    | nil => exact ⟨[], fun _ none => absurd none List.not_mem_nil, distinct, Or.inl rfl⟩
    | cons op rest =>
      cases found : domainPermissionOfTag op with
      | none =>
        rw [loop_untagged found] at success
        exact absurd success (by decide : -ENOKEY ≠ 0)
      | some pe =>
        rw [loop_tagged found] at success
        obtain ⟨given, tagged⟩ := given_of_tag found
        obtain ⟨name, tail, first, rfl, whole, ends⟩ := comma_parts rest
        rw [first] at success
        have item : op :: (name ++ tail) = itemText ⟨pe, name⟩ ++ tail := by
          rw [itemText, tagged, List.cons_append]
        by_cases named : name.length = 0
        · rw [if_pos named] at success
          exact absurd success (by decide : -ENODATA ≠ 0)
        · rw [if_neg named, getDomainLen_isSome, List.take_left] at success
          by_cases known : (permissionOf spec name).isSome
          · rw [if_pos known] at success
            exact absurd success (by decide : -EEXIST ≠ 0)
          · have proper : ProperItem ⟨pe, name⟩ := by
              refine ⟨given, fun none => named (congrArg List.length none), whole, fun zero => clean ?_⟩
              exact List.mem_cons_of_mem _ (List.mem_append_left tail zero)
            have after : (name ++ tail).drop (name.length + 1) = tail.drop 1 := by
              rw [← List.drop_drop, List.drop_left]
            rw [if_neg known, addDomainLen, List.take_left, after] at success
            have distinct' := distinct_push distinct pe (Bool.eq_false_of_not_eq_true known)
            have clean' : (0 : Byte) ∉ tail.drop 1 := fun zero =>
              clean (List.mem_cons_of_mem _ (List.mem_append_right name (List.mem_of_mem_drop zero)))
            have room' : (tail.drop 1).length ≤ fuel := by
              rw [List.length_cons, List.length_append] at room
              rw [List.length_drop]
              omega
            obtain ⟨items, others, distinct'', text⟩ := ih clean' distinct' room' success
            refine ⟨⟨pe, name⟩ :: items, ?_, ?_, ?_⟩
            · intro dom member
              rcases List.mem_cons.mp member with rfl | member
              · exact proper
              · exact others dom member
            · rw [List.reverse_cons, List.append_assoc]
              exact distinct''
            · rw [item]
              exact written_first ⟨pe, name⟩ ends text

theorem loop_rc (fuel : Nat) (str : Bytes) (spec : DomainSpec) :
    (getDomainSpecOfStringLoop fuel str spec).1 = 0 ∨ (getDomainSpecOfStringLoop fuel str spec).1 < 0 := by
  induction fuel generalizing str spec with
  | zero => exact Or.inl rfl
  | succ fuel ih =>
    cases str with
    | nil => exact Or.inl rfl
    | cons op rest =>
      cases found : domainPermissionOfTag op with
      | none =>
        rw [loop_untagged found]
        exact Or.inr (by decide : -ENOKEY < 0)
      | some pe =>
        rw [loop_tagged found]
        split
        · exact Or.inr (by decide : -ENODATA < 0)
        · split
          · exact Or.inr (by decide : -EEXIST < 0)
          · exact ih _ _

theorem permissionOf_perm {spec spec' : DomainSpec} (distinct : spec.Distinct) (perm : spec.Perm spec') :
    permissionOf spec' = permissionOf spec := by
  have distinct' : spec'.Distinct := (perm.map Domain.name).nodup_iff.mp distinct
  funext name
  apply Option.ext
  intro permission
  rw [← granted_mem distinct', ← granted_mem distinct]
  exact (perm.mem_iff).symm

theorem getDomainSpecOfString_classified {str : Bytes} (clean : (0 : Byte) ∉ str) :
    Classified str (Utils.getDomainSpecOfString str []).1 (Utils.getDomainSpecOfString str []).2 := by
  rw [Utils.getDomainSpecOfString, if_neg (fun other => other rfl)]
  have accepts : ∀ items, Spells str items →
      getDomainSpecOfStringLoop str.length str [] = (0, items.reverse) := fun items spells => by
    have distinct : DomainSpec.Distinct (items.reverse ++ []) := by
      rw [List.append_nil]
      exact (items.reverse_perm.map Domain.name).nodup_iff.mpr spells.distinct
    rw [loop_accepts spells.proper distinct spells.text str.length (Nat.le_refl _), List.append_nil]
  by_cases success : (getDomainSpecOfStringLoop str.length str []).1 = 0
  · have none : DomainSpec.Distinct [] := List.nodup_nil
    simp only [success, ne_eq, not_true_eq_false, if_false]
    refine ⟨iff_of_true rfl ?_, fun items spells => ?_, fun failed => absurd rfl failed⟩
    · obtain ⟨items, proper, distinct, text⟩ := loop_sound clean none str.length (Nat.le_refl _) success
      rw [List.append_nil] at distinct
      exact ⟨items, proper, (items.reverse_perm.map Domain.name).nodup_iff.mp distinct, text⟩
    · rw [accepts items spells]
      exact permissionOf_perm spells.distinct items.reverse_perm.symm
  · simp only [ne_eq, success, not_false_eq_true, if_true]
    have refused : ¬∃ items, Spells str items := by
      rintro ⟨items, spells⟩
      rw [accepts items spells] at success
      exact success rfl
    refine ⟨iff_of_false success refused, fun items spells => absurd ⟨items, spells⟩ refused, fun _ => ⟨?_, rfl⟩⟩
    rcases loop_rc str.length str [] with zero | negative
    · exact absurd zero success
    · exact negative

theorem print_items {items : List Domain} (given : ∀ dom ∈ items, dom.permission ≠ .none) (str : Bytes) :
    print items str =
      if items = [] then str else if str = [] then itemsText items else str ++ comma :: itemsText items := by
  induction items generalizing str with
  | nil => rfl
  | cons dom rest ih =>
    have others : ∀ dom ∈ rest, dom.permission ≠ .none := fun dom member => given dom (List.mem_cons_of_mem _ member)
    rw [print, if_neg (given dom List.mem_cons_self), ih others, if_neg (List.cons_ne_nil dom rest)]
    cases rest with
    | nil =>
      by_cases empty : str = []
      · simp [empty, itemsText, itemText]
      · simp [empty, itemsText, itemText]
    | cons next rest =>
      by_cases empty : str = []
      · simp [empty, itemsText, itemText]
      · simp [empty, itemsText, itemText]

theorem size_items {items : List Domain} (given : ∀ dom ∈ items, dom.permission ≠ .none) (some : items ≠ []) :
    size items = (itemsText items).length + 1 := by
  induction items with
  | nil => exact absurd rfl some
  | cons dom rest ih =>
    have others : ∀ dom ∈ rest, dom.permission ≠ .none := fun dom member => given dom (List.mem_cons_of_mem _ member)
    rw [size, if_neg (given dom List.mem_cons_self)]
    cases rest with
    | nil => simp [itemsText, itemText, size]
    | cons next rest =>
      have joined : itemsText (dom :: next :: rest) = itemText dom ++ comma :: itemsText (next :: rest) := rfl
      rw [ih others (List.cons_ne_nil next rest), joined, List.length_append, List.length_cons, itemText,
        List.length_cons]
      omega

theorem getStringOfDomainSpec_eq {spec : DomainSpec} (given : ∀ dom ∈ spec, dom.permission ≠ .none)
    (some : spec ≠ []) :
    getStringOfDomainSpec spec = Option.some (toInt (itemsText spec).length, itemsText spec) := by
  have text : print spec [] = itemsText spec := by rw [print_items given, if_neg some, if_pos rfl]
  rw [getStringOfDomainSpec, text, size_items given some]
  exact if_pos (Nat.lt_succ_self _)

theorem itemsText_clean {items : List Domain} (proper : ∀ dom ∈ items, ProperItem dom) :
    (0 : Byte) ∉ itemsText items := by
  have item : ∀ dom, ProperItem dom → (0 : Byte) ∉ itemText dom := fun dom proper member => by
    rcases List.mem_cons.mp member with zero | inside
    · exact (tag_of_given proper.given).2.1 zero.symm
    · exact proper.clean inside
  induction items with
  | nil => exact List.not_mem_nil
  | cons dom rest ih =>
    have first := item dom (proper dom List.mem_cons_self)
    have others : ∀ dom ∈ rest, ProperItem dom := fun dom member => proper dom (List.mem_cons_of_mem _ member)
    cases rest with
    | nil => exact first
    | cons next rest =>
      intro member
      rcases List.mem_append.mp member with inside | behind
      · exact first inside
      · rcases List.mem_cons.mp behind with zero | later
        · exact absurd zero (by decide)
        · exact ih others later

theorem startsWithTag_items {items : List Domain} (proper : ∀ dom ∈ items, ProperItem dom) :
    StartsWithTag (itemsText items) := by
  cases items with
  | nil => exact fun op first => by cases first
  | cons dom rest =>
    have tagged := (tag_of_given (proper dom List.mem_cons_self).given).1
    intro op first
    cases rest with
    | nil =>
      rw [← Option.some.inj first, tagged]
      rfl
    | cons next rest =>
      rw [← Option.some.inj first, tagged]
      rfl

theorem getDomainSpecOfString_print {spec : DomainSpec} (proper : ∀ dom ∈ spec, ProperItem dom)
    (distinct : spec.Distinct) (stale : Nat) :
    ∃ spec', getDomainSpecOfString stale (itemsText spec) [] = some (0, spec') ∧
      permissionOf spec' = permissionOf spec := by
  have clean := itemsText_clean proper
  have classified := getDomainSpecOfString_classified clean
  have spells : Spells (itemsText spec) spec := ⟨proper, distinct, Or.inl rfl⟩
  rw [getDomainSpecOfString_known clean (Or.inr (startsWithTag_items proper))]
  exact ⟨_, congrArg some (Prod.ext (classified.accepted.mpr ⟨spec, spells⟩) rfl), classified.denotes spec spells⟩

/-- Whatever the variable `end` holds, the text is read as it must be exactly when it is empty or its
first byte is a tag; and a specification is read back from what is written of it. -/
theorem getDomainSpecOfString_correct (str : Bytes) (clean : (0 : Byte) ∉ str) :
    ((∀ stale, ∃ rc spec, getDomainSpecOfString stale str [] = some (rc, spec) ∧ Classified str rc spec) ↔
      StartsWithTag str) ∧
    ∀ spec : DomainSpec, spec ≠ [] → (∀ dom ∈ spec, ProperItem dom) → spec.Distinct →
      ∃ length str, getStringOfDomainSpec spec = some (length, str) ∧
        ∀ stale, ∃ spec', getDomainSpecOfString stale str [] = some (0, spec') ∧
          permissionOf spec' = permissionOf spec := by
  constructor
  · constructor
    · intro correct
      by_contra other
      obtain ⟨rc, spec, read, -⟩ := correct (str.length + 1)
      rw [getDomainSpecOfString_stale clean other (Nat.lt_succ_self _)] at read
      cases read
    · intro tagged stale
      exact ⟨_, _, getDomainSpecOfString_known clean (Or.inr tagged), getDomainSpecOfString_classified clean⟩
  · intro spec some proper distinct
    refine ⟨_, _, getStringOfDomainSpec_eq (fun dom member => (proper dom member).given) some, fun stale => ?_⟩
    exact getDomainSpecOfString_print proper distinct stale

/-- The grants of a certificate, written with a comma behind, are read and written again. -/
theorem getDomainSpecOfString_correct_grants :
    (∀ stale, ∃ rc spec, getDomainSpecOfString stale (ascii "+app,@sys,") [] = some (rc, spec) ∧
      Classified (ascii "+app,@sys,") rc spec) ∧
    ∃ length str, getStringOfDomainSpec [⟨.root, ascii "sys"⟩, ⟨.grants, ascii "app"⟩] = some (length, str) ∧
      ∀ stale, ∃ spec', getDomainSpecOfString stale str [] = some (0, spec') ∧
        permissionOf spec' = permissionOf [⟨.root, ascii "sys"⟩, ⟨.grants, ascii "app"⟩] :=
  ⟨(getDomainSpecOfString_correct (ascii "+app,@sys,") (by decide)).1.mpr (by decide),
    (getDomainSpecOfString_correct [] (by decide)).2 [⟨.root, ascii "sys"⟩, ⟨.grants, ascii "app"⟩]
      (List.cons_ne_nil _ _)
      (by
        intro dom member
        rcases List.mem_cons.mp member with rfl | member
        · exact ⟨by decide, by decide, by decide, by decide⟩
        · rw [List.mem_singleton.mp member]
          exact ⟨by decide, by decide, by decide, by decide⟩)
      (by decide)⟩

/-- A text without tag: the string is read where the variable `end` happens to point. -/
theorem getDomainSpecOfString_lost :
    getDomainSpecOfString 5 (ascii "app") [] = none ∧
      ¬∀ str, (0 : Byte) ∉ str → ∀ stale, ∃ rc spec,
        getDomainSpecOfString stale str [] = some (rc, spec) ∧ Classified str rc spec := by
  have lost : getDomainSpecOfString 5 (ascii "app") [] = none := by decide
  refine ⟨lost, fun correct => ?_⟩
  obtain ⟨rc, spec, read, -⟩ := correct (ascii "app") (by decide) 5
  rw [lost] at read
  cases read

end DomainText

end AppManager.Utils
