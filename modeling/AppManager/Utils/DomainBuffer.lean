import AppManager.Lib.Tape
import AppManager.Utils.DomainText

/-! The text of a specification in the memory that is allocated for it. The size is computed by
one loop and the bytes are put by another one. -/

namespace AppManager.Utils.DomainBuffer
open AppManager.Lib AppManager.Lib.Libc DomainText

/-- Bytes that are put from some index on. There is no result where one of them is after the memory. -/
def put (cells : Bytes) (index : Nat) (data : Bytes) : Option Bytes :=
  if index + data.length ≤ cells.length then some (store cells index data) else none

/-- The second loop, where `sz` is the index of the next byte. -/
def writeDomains : DomainSpec → Bytes → Nat → Option (Bytes × Nat)
  | [], cells, sz => some (cells, sz)
  | dom :: rest, cells, sz =>
    if dom.permission = .none then writeDomains rest cells sz
    else (if sz = 0 then some cells else put cells sz [comma]).bind fun cells =>
      let sz := if sz = 0 then sz else sz + 1
      (put cells sz [dom.permission.tag]).bind fun cells =>
        (put cells (sz + 1) dom.name).bind fun cells => writeDomains rest cells (sz + 1 + dom.name.length)

/-- `block` is what `malloc` gives for the computed size. -/
def getStringOfDomainSpec (spec : DomainSpec) (block : Option Bytes) : Option (Int × Option Bytes) :=
  match block with
  | none => some (-ENOMEM, none)
  | some cells => (writeDomains spec cells 0).bind fun (cells, sz) =>
    (put cells sz [0]).map fun cells => (toInt sz, some cells)

def given (spec : DomainSpec) : List Domain := spec.filter fun dom => dom.permission ≠ .none

theorem print_given (spec : DomainSpec) (text : Bytes) : print (given spec) text = print spec text := by
  induction spec generalizing text with
  | nil => rfl
  | cons dom rest ih =>
    by_cases none : dom.permission = .none
    · rw [given, List.filter_cons_of_neg (by simpa using none), ← given, ih, print, if_pos none]
    · rw [given, List.filter_cons_of_pos (by simpa using none), ← given, print, if_neg none, ih, print, if_neg none]

theorem size_given (spec : DomainSpec) : size (given spec) = size spec := by
  induction spec with
  | nil => rfl
  | cons dom rest ih =>
    by_cases none : dom.permission = .none
    · rw [given, List.filter_cons_of_neg (by simpa using none), ← given, ih, size, if_pos none, Nat.zero_add]
    · rw [given, List.filter_cons_of_pos (by simpa using none), ← given, size, if_neg none, ih, size, if_neg none]

theorem permission_given (spec : DomainSpec) : ∀ dom ∈ given spec, dom.permission ≠ .none :=
  fun _ member => of_decide_eq_true (List.mem_filter.mp member).2

theorem size_print {spec : DomainSpec} (some : given spec ≠ []) : size spec = (print spec []).length + 1 := by
  rw [← size_given, ← print_given, size_items (permission_given spec) some, print_items (permission_given spec),
    if_neg some, if_pos rfl]

theorem put_end (text junk data : Bytes) : put (text ++ junk) text.length data =
    if data.length ≤ junk.length then some (text ++ data ++ junk.drop data.length) else none := by
  rw [put, List.length_append]
  by_cases room : data.length ≤ junk.length
  · rw [if_pos (Nat.add_le_add_left room _), if_pos room, store, List.take_left, List.drop_append]
    simp
  · rw [if_neg fun fits => room (Nat.le_of_add_le_add_left fits), if_neg room]

theorem put_after {Result : Type} (text junk first second : Bytes) (next : Bytes → Option Result) :
    ((put (text ++ junk) text.length first).bind fun cells =>
        (put cells (text.length + first.length) second).bind next) =
      (put (text ++ junk) text.length (first ++ second)).bind next := by
  rw [put_end, put_end, List.length_append]
  by_cases fits : first.length ≤ junk.length
  · rw [if_pos fits, Option.bind_some, ← List.length_append, put_end, List.length_drop]
    by_cases fits' : second.length ≤ junk.length - first.length
    · rw [if_pos fits', if_pos (by omega), List.drop_drop, List.append_assoc text]
    · rw [if_neg fits', if_neg (by omega)]
  · rw [if_neg fits, if_neg (by omega)]
    rfl

def piece (text : Bytes) (dom : Domain) : Bytes := (if text = [] then [] else [comma]) ++ dom.permission.tag :: dom.name

theorem writeDomains_cons {dom : Domain} (kept : dom.permission ≠ .none) (rest : DomainSpec) (text junk : Bytes) :
    writeDomains (dom :: rest) (text ++ junk) text.length =
      if (piece text dom).length ≤ junk.length then
        writeDomains rest (text ++ piece text dom ++ junk.drop (piece text dom).length) (text ++ piece text dom).length
      else none := by
  have end' : writeDomains (dom :: rest) (text ++ junk) text.length =
      (put (text ++ junk) text.length (piece text dom)).bind fun cells =>
        writeDomains rest cells (text ++ piece text dom).length := by
    rw [writeDomains, if_neg kept, piece]
    cases text with
    | nil =>
      have size : ([] ++ ([] ++ dom.permission.tag :: dom.name) : Bytes).length = 0 + 1 + dom.name.length := by
        simp only [List.nil_append, List.length_cons]
        omega
      rw [if_pos List.length_nil, if_pos rfl, Option.bind_some, size]
      exact put_after [] junk [dom.permission.tag] dom.name _
    | cons byte text =>
      have later : ¬(byte :: text).length = 0 := by simp
      have size : (byte :: text ++ ([comma] ++ dom.permission.tag :: dom.name)).length =
          (byte :: text).length + 1 + 1 + dom.name.length := by
        simp only [List.length_append, List.length_cons, List.length_nil]
        omega
      rw [if_neg later, if_neg (List.cons_ne_nil byte text), size]
      simp only [if_neg later]
      have named := put_after (byte :: text) junk ([comma] ++ [dom.permission.tag]) dom.name fun cells =>
        writeDomains rest cells ((byte :: text).length + 1 + 1 + dom.name.length)
      have tagged := put_after (byte :: text) junk [comma] [dom.permission.tag] fun cells =>
        (put cells ((byte :: text).length + 1 + 1) dom.name).bind fun cells =>
          writeDomains rest cells ((byte :: text).length + 1 + 1 + dom.name.length)
      exact tagged.trans named
  rw [end', put_end]
  split_ifs <;> rfl

theorem print_cons {dom : Domain} (kept : dom.permission ≠ .none) (rest : DomainSpec) (text : Bytes) :
    print (dom :: rest) text = print rest (text ++ piece text dom) := by
  rw [print, if_neg kept, piece, List.append_assoc]

theorem print_longer (spec : DomainSpec) (text : Bytes) : text.length ≤ (print spec text).length := by
  induction spec generalizing text with
  | nil => exact Nat.le_refl _
  | cons dom rest ih =>
    by_cases none : dom.permission = .none
    · rw [print, if_pos none]
      exact ih text
    · rw [print_cons none]
      refine le_trans ?_ (ih _)
      rw [List.length_append]
      exact Nat.le_add_right _ _

theorem writeDomains_spec (spec : DomainSpec) (text junk : Bytes) :
    writeDomains spec (text ++ junk) text.length =
      if (print spec text).length ≤ text.length + junk.length then
        some (print spec text ++ junk.drop ((print spec text).length - text.length), (print spec text).length)
      else none := by
  induction spec generalizing text junk with
  | nil =>
    rw [writeDomains, print, if_pos (Nat.le_add_right _ _), Nat.sub_self]
    rfl
  | cons dom rest ih =>
    by_cases none : dom.permission = .none
    · rw [writeDomains, if_pos none, ih, print, if_pos none]
    · have longer := print_longer rest (text ++ piece text dom)
      rw [List.length_append] at longer
      rw [writeDomains_cons none, print_cons none]
      by_cases fits : (piece text dom).length ≤ junk.length
      · rw [if_pos fits, ih, List.length_drop, List.length_append, List.drop_drop]
        have room : text.length + (piece text dom).length + (junk.length - (piece text dom).length) =
            text.length + junk.length := by omega
        have dropped : (piece text dom).length +
            ((print rest (text ++ piece text dom)).length - (text.length + (piece text dom).length)) =
              (print rest (text ++ piece text dom)).length - text.length := by omega
        rw [room, dropped]
      · rw [if_neg fits, if_neg (by omega)]

theorem getStringOfDomainSpec_block (spec : DomainSpec) (block : Bytes) :
    getStringOfDomainSpec spec (some block) =
      if (print spec []).length < block.length then
        some (toInt (print spec []).length,
          some (print spec [] ++ 0 :: block.drop ((print spec []).length + 1)))
      else none := by
  have written := writeDomains_spec spec [] block
  rw [List.nil_append, List.length_nil, Nat.zero_add, Nat.sub_zero] at written
  rw [getStringOfDomainSpec, written]
  by_cases fits : (print spec []).length ≤ block.length
  · rw [if_pos fits, Option.bind_some]
    simp only [put_end, List.length_singleton, List.length_drop, List.drop_drop]
    by_cases room : (print spec []).length < block.length
    · rw [if_pos room, if_pos (by omega), Option.map_some, List.append_assoc]
      rfl
    · rw [if_neg room, if_neg (by omega)]
      rfl
  · rw [if_neg fits, if_neg (by omega)]
    rfl

theorem print_clean {spec : DomainSpec} (clean : ∀ dom ∈ spec, (0 : Byte) ∉ dom.name) (text : Bytes)
    (clean' : (0 : Byte) ∉ text) : (0 : Byte) ∉ print spec text := by
  induction spec generalizing text with
  | nil => exact clean'
  | cons dom rest ih =>
    have others : ∀ dom ∈ rest, (0 : Byte) ∉ dom.name := fun dom member => clean dom (List.mem_cons_of_mem _ member)
    by_cases none : dom.permission = .none
    · rw [print, if_pos none]
      exact ih others text clean'
    · rw [print_cons none]
      apply ih others
      have tagged : (0 : Byte) ≠ dom.permission.tag := by
        cases permission : dom.permission with
        | none => exact absurd permission none
        | _ => decide
      intro member
      rcases List.mem_append.mp member with before | inside
      · exact clean' before
      · rw [piece] at inside
        rcases List.mem_append.mp inside with separator | item
        · split at separator
          · cases separator
          · exact absurd (List.mem_singleton.mp separator) (by decide)
        · rcases List.mem_cons.mp item with zero | name
          · exact tagged zero
          · exact clean dom List.mem_cons_self name

theorem toInt_eq_iff (value : Nat) : toInt value = value ↔ value < 2 ^ 31 := by
  constructor
  · intro same
    have small := toInt_lt value
    omega
  · exact toInt_of_small value

theorem getStringOfDomainSpec_text {spec : DomainSpec} (clean : ∀ dom ∈ spec, (0 : Byte) ∉ dom.name) {block : Bytes}
    (allocated : block.length = size spec) :
    ((getStringOfDomainSpec spec (some block)).map fun (rc, cells) => (rc, (cells.map cstr).getD [])) =
      DomainText.getStringOfDomainSpec spec := by
  rw [getStringOfDomainSpec_block, DomainText.getStringOfDomainSpec, allocated]
  split_ifs
  · have read := cstr_terminated (print_clean clean [] List.not_mem_nil) (block.drop ((print spec []).length + 1))
    simp only [Option.map_some, Option.getD_some, read]
  · rfl

/-- No byte is put after the allocated memory, and the length of the string is returned, exactly when some domain has
a permission and the text is no longer than an `int` can tell. -/
theorem getStringOfDomainSpec_bounded {spec : DomainSpec} (clean : ∀ dom ∈ spec, (0 : Byte) ∉ dom.name) {block : Bytes}
    (allocated : block.length = size spec) :
    (∃ length cells, getStringOfDomainSpec spec (some block) = some (length, some cells) ∧
      length = (cstr cells).length) ↔
    (∃ dom ∈ spec, dom.permission ≠ .none) ∧ size spec ≤ 2 ^ 31 := by
  have read (after : Bytes) : cstr (print spec [] ++ 0 :: after) = print spec [] :=
    cstr_terminated (print_clean clean [] List.not_mem_nil) after
  have some_given : given spec ≠ [] ↔ ∃ dom ∈ spec, dom.permission ≠ .none := by
    rw [given, ne_eq, List.filter_eq_nil_iff]
    simp
  rw [getStringOfDomainSpec_block, allocated, ← some_given]
  constructor
  · rintro ⟨length, cells, run, same⟩
    split at run
    · next room =>
      rw [Option.some.injEq, Prod.mk.injEq, Option.some.injEq] at run
      obtain ⟨rfl, rfl⟩ := run
      rw [read, toInt_eq_iff] at same
      have some : given spec ≠ [] := by
        intro none
        rw [← size_given, none] at room
        exact absurd room (Nat.not_lt_zero _)
      refine ⟨some, ?_⟩
      rw [size_print some]
      exact same
    · cases run
  · rintro ⟨some, small⟩
    have sized := size_print some
    refine ⟨_, _, if_pos (by omega), ?_⟩
    rw [read, toInt_eq_iff]
    omega

theorem getStringOfDomainSpec_bounded_two :
    (∃ length cells, getStringOfDomainSpec [⟨.auth, ascii "sys"⟩, ⟨.none, ascii "b"⟩, ⟨.grants, ascii "app"⟩]
        (some (List.replicate 10 255)) = some (length, some cells) ∧ length = (cstr cells).length) ↔
      (∃ dom ∈ [(⟨.auth, ascii "sys"⟩ : Domain), ⟨.none, ascii "b"⟩, ⟨.grants, ascii "app"⟩],
        dom.permission ≠ .none) ∧
      size [⟨.auth, ascii "sys"⟩, ⟨.none, ascii "b"⟩, ⟨.grants, ascii "app"⟩] ≤ 2 ^ 31 :=
  getStringOfDomainSpec_bounded (by decide) (by decide)

/-- Nothing is allocated for an empty specification, and the terminator is put after that. -/
theorem getStringOfDomainSpec_empty :
    size [] = 0 ∧ getStringOfDomainSpec [] (some []) = none ∧
      ¬∀ (spec : DomainSpec) (block : Bytes), (∀ dom ∈ spec, (0 : Byte) ∉ dom.name) → block.length = size spec →
        ∃ length cells, getStringOfDomainSpec spec (some block) = some (length, some cells) ∧
          length = (cstr cells).length := by
  refine ⟨rfl, rfl, fun bounded => ?_⟩
  obtain ⟨length, cells, run, -⟩ := bounded [] [] (by simp) rfl
  cases run

end AppManager.Utils.DomainBuffer
