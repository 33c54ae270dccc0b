import AppManager.Lib.Fuel
import AppManager.Lib.Json
import AppManager.Units.MustachKeys

/-! The search of the object that a tag names. A key that is in no context is made more
general, in place, until it is found or no more general. -/

namespace AppManager.Units
open AppManager.Lib

def colon : Byte := ':'.toUInt8
def star : Byte := '*'.toUInt8

/-- The exploration: the objects of the stack, the last one of which is the current one. -/
structure Expl where
  stack : List Json
  some : stack ≠ []

namespace Expl

def depth (e : Expl) : Int := (e.stack.length : Int) - 1

def current (e : Expl) : Json := e.stack.getLast e.some

end Expl

/-- What `strcmp` does not survive. -/
inductive Crash where
  | nullString
  deriving DecidableEq, Repr

/-- The loop of `globalize`: the place of the last colon that is before another byte than a star. -/
def lastColon : Bytes → Nat → Option Nat → Option (Option Nat)
  | [], _, _ => none
  | r :: rest, place, f =>
    if r = 0 then some f
    else rest.head?.bind fun ahead =>
      lastColon rest (place + 1) (if r = colon ∧ ahead ≠ 0 ∧ ahead ≠ star then some place else f)

def globalize (cells : Bytes) (key : Nat) : Option (Option Nat × Bytes) :=
  (lastColon (cells.drop key) key none).bind fun f =>
    match f with
    | none => some (none, cells)
    | some f =>
      if f + 2 < cells.length then some (some key, (cells.set (f + 1) star).set (f + 2) 0) else none

/-- The loop for the first component, from the context of index `i`. -/
def searchFirst (e : Expl) : Nat → Bytes → Option Nat → Int → Option (Option Json × Bytes)
  | 0, _, _, _ => none
  | _ + 1, cells, none, _ => some (none, cells)
  | fuel + 1, cells, some c, i =>
    if i < 0 then (globalize cells c).bind fun (c, cells) => searchFirst e fuel cells c e.depth
    else e.stack[i.toNat]?.bind fun obj =>
      match obj.get (cstr (cells.drop c)) with
      | some o => some (some o, cells)
      | none => searchFirst e fuel cells (some c) (i - 1)

def searchNext (o : Json) : Nat → Bytes → Nat → Option (Option Json × Bytes)
  | 0, _, _ => none
  | fuel + 1, cells, c =>
    match o.get (cstr (cells.drop c)) with
    | some r => some (some r, cells)
    | none => (globalize cells c).bind fun (c, cells) =>
      match c with
      | none => some (none, cells)
      | some c => searchNext o fuel cells c

def descend (isptr : Bool) : Nat → Bytes → Nat → Json → Option (Option Json × Bytes)
  | 0, _, _, _ => none
  | fuel + 1, cells, n, o => (first cells n isptr).bind fun (c, n, cells) =>
    match c with
    | none => some (some o, cells)
    | some c => (searchNext o fuel cells c).bind fun (r, cells) =>
      match r with
      | none => some (none, cells)
      | some r => descend isptr fuel cells n r

def search (e : Expl) (isptr : Bool) (fuel : Nat) (cells : Bytes) (n : Nat) : Option (Option Json × Bytes) :=
  if cells[n]? = some (separator false) ∧ cells[n + 1]? = some 0 then some (some e.current, cells)
  else (first cells n isptr).bind fun (c, n, cells) =>
    (searchFirst e fuel cells c e.depth).bind fun (o, cells) =>
      match o with
      | none => some (none, cells)
      | some o => descend isptr fuel cells n o

/-- The loop over the values, which tells whether it ends on one of them. -/
def compareValues (string : Option Bytes) : Nat → Bytes → Nat → Option (Except Crash Bool)
  | 0, _, _ => none
  | fuel + 1, cells, v => (value cells v).bind fun (c, v, cells) =>
    match c with
    | none => some (.ok false)
    | some c =>
      match string with
      | none => some (.error .nullString)
      | some string =>
        if cstr (cells.drop c) = string then some (.ok true) else compareValues (some string) fuel cells v

def exclamation : Byte := '!'.toUInt8

def testValue (serialize : Json → Bytes) (fuel : Nat) (cells : Bytes) (v : Nat) (o : Json) :
    Option (Except Crash Json) :=
  cells[v]?.bind fun byte =>
    let i := decide (byte = exclamation)
    (compareValues (o.getString serialize) fuel cells (if i then v + 1 else v)).map fun c =>
      c.map fun c => if i ≠ !c then .null else o

/-- The pointer of a null object is `NULL`, which is returned as well when nothing is found. -/
def findin (serialize : Json → Bytes) (e : Expl) (fuel : Nat) (cells : Bytes) (n : Nat) : Option (Except Crash Json) :=
  cells[n]?.bind fun byte =>
    let isptr := decide (byte = separator true)
    let n := if isptr then n + 1 else n
    (keyval cells n isptr).bind fun (v, cells) =>
      (search e isptr fuel cells n).bind fun (o, cells) =>
        match o, v with
        | none, _ => some (.ok .null)
        | some o, none => some (.ok o)
        | some o, some v => testValue serialize fuel cells v o

/-- The key with its last `:x` made `:*`, where there is one. -/
def globalized : Bytes → Option Bytes
  | [] => none
  | byte :: rest =>
    match globalized rest with
    | some later => some (byte :: later)
    | none => if byte = colon ∧ rest ≠ [] ∧ rest.head? ≠ some star then some [colon, star] else none

theorem globalized_narrows {key wider : Bytes} (more : globalized key = some wider) :
    wider.countP (· ≠ star) < key.countP (· ≠ star) := by
  fun_induction globalized key generalizing wider with
  | case1 => cases more
  | case2 byte rest later found ih =>
    cases more
    rw [List.countP_cons, List.countP_cons]
    exact Nat.add_lt_add_right (ih found) _
  | case3 byte rest missing here =>
    cases more
    obtain ⟨isColon, some, plain⟩ := here
    cases rest with
    | nil => exact absurd rfl some
    | cons x rest =>
      have other : x ≠ star := fun same => plain (congrArg Option.some same)
      have one : [colon, star].countP (· ≠ star) = 1 := by decide
      have plainColon : colon ≠ star := by decide
      rw [one, isColon, List.countP_cons, List.countP_cons, if_pos (decide_eq_true other),
        if_pos (decide_eq_true plainColon)]
      omega
  | case4 => cases more

def globalizations (key : Bytes) : List Bytes :=
  key :: match _more : globalized key with
    | none => []
    | some wider => globalizations wider
termination_by key.countP (· ≠ star)
decreasing_by exact globalized_narrows _more

namespace Expl

/-- The first component is searched in all the contexts, from the current one, before it is globalized. -/
def root (e : Expl) (key : Bytes) : Option Json :=
  (globalizations key).findSome? fun key => e.stack.reverse.findSome? (·.get key)

def resolve (e : Expl) : List Bytes → Option Json
  | [] => none
  | key :: keys => (e.root key).bind fun o => keys.foldlM (fun o key => (globalizations key).findSome? o.get) o

end Expl

structure Name where
  isptr : Bool
  key : Bytes
  test : Option Bytes

namespace Name

def ofText (text : Bytes) : Name :=
  let isptr := decide (text.head? = some (separator true))
  let parts := (keyvalEscapes isptr).split (if isptr then text.tail else text)
  ⟨isptr, parts.1, parts.2⟩

def object (name : Name) (e : Expl) : Option Json :=
  if name.key = [separator false] then some e.current else e.resolve ((firstEscapes name.isptr).fields name.key)

def excludes (test : Bytes) : Bool := decide (test.head? = some exclamation)

def values (test : Bytes) : List Bytes := valueEscapes.fields (if excludes test then test.tail else test)

/-- The text of an object is one of the values, or is none of them. -/
def accepts (serialize : Json → Bytes) (o : Json) (test : Bytes) : Bool :=
  (values test).any (fun value => o.getString serialize = some value) != excludes test

def meaning (serialize : Json → Bytes) (name : Name) (e : Expl) : Json :=
  ((name.object e).filter fun o => name.test.all (accepts serialize o)).getD .null

/-- A null object has values to be compared with. -/
def ComparesNull (name : Name) (e : Expl) : Prop :=
  name.object e = some .null ∧ ∃ test, name.test = some test ∧ values test ≠ []

end Name

theorem lastColon_spec (text after : Bytes) (place : Nat) (f : Option Nat) (clean : (0 : Byte) ∉ text) :
    (globalized text = none ∧ lastColon (text ++ 0 :: after) place f = some f) ∨
    ∃ front x rest, text = front ++ colon :: x :: rest ∧ globalized text = some (front ++ [colon, star]) ∧
      lastColon (text ++ 0 :: after) place f = some (some (place + front.length)) := by
  induction text generalizing place f with
  | nil => exact Or.inl ⟨rfl, if_pos rfl⟩
  | cons r rest ih =>
    obtain ⟨differs, clean'⟩ := not_or.mp (List.mem_cons.not.mp clean)
    have ahead : (rest ++ 0 :: after).head? = some (rest.head?.getD 0) := by cases rest <;> rfl
    rw [List.cons_append, lastColon, if_neg (Ne.symm differs), ahead, Option.bind_some, globalized]
    rcases ih (place + 1) (if r = colon ∧ rest.head?.getD 0 ≠ 0 ∧ rest.head?.getD 0 ≠ star then some place else f)
      clean' with ⟨none, run⟩ | ⟨front, x, later, whole, wider, run⟩
    · rw [none, run]
      by_cases here : r = colon ∧ rest ≠ [] ∧ rest.head? ≠ some star
      · refine Or.inr ⟨[], ?_⟩
        obtain ⟨isColon, some, plain⟩ := here
        cases rest with
        | nil => exact absurd rfl some
        | cons x rest =>
          have other : x ≠ star := fun same => plain (congrArg Option.some same)
          have byte : x ≠ 0 := fun zero => clean' (zero ▸ List.mem_cons_self)
          refine ⟨x, rest, by rw [isColon]; rfl, if_pos ⟨isColon, some, plain⟩, ?_⟩
          exact congrArg Option.some (if_pos ⟨isColon, byte, other⟩)
      · refine Or.inl ⟨if_neg here, congrArg Option.some (if_neg fun ⟨isColon, byte, other⟩ => here ⟨isColon, ?_⟩)⟩
        cases rest with
        | nil => exact absurd rfl byte
        | cons x rest => exact ⟨by simp, fun same => other (Option.some.inj same)⟩
    · rw [wider, run]
      refine Or.inr ⟨r :: front, x, later, by rw [whole]; rfl, rfl, ?_⟩
      rw [List.length_cons, Nat.add_assoc, Nat.add_comm 1]

theorem globalize_spec {cells text : Bytes} {key : Nat} (stands : StringAt cells key text) :
    (globalized text = none ∧ globalize cells key = some (none, cells)) ∨
    ∃ wider cells', globalized text = some wider ∧ globalize cells key = some (some key, cells') ∧
      StringAt cells' key wider ∧ wider.length ≤ text.length ∧ Kept cells cells' (key + text.length) := by
  obtain ⟨before, after, rfl, rfl⟩ := stands.split
  unfold globalize
  rw [List.drop_left]
  rcases lastColon_spec text after before.length none stands.1 with
    ⟨none, run⟩ | ⟨front, x, rest, rfl, wider, run⟩
  · exact Or.inl ⟨none, by rw [run]; rfl⟩
  · have size : before.length + front.length + 2 < (before ++ (front ++ colon :: x :: rest ++ 0 :: after)).length := by
      simp only [List.length_append, List.length_cons]
      omega
    -- The cell after the star ends the key, and the one that ended it stays.
    have ended : ∃ junk unread, junk.length = rest.length ∧ junk ++ 0 :: after = 0 :: unread ∧
        (before ++ (front ++ [colon, star]) ++ (rest ++ 0 :: after)).set
          (before ++ (front ++ [colon, star])).length 0 =
            before ++ (front ++ [colon, star]) ++ (junk ++ 0 :: after) := by
      cases rest with
      | nil => exact ⟨[], after, rfl, rfl, Tape.set_parts _ _ _ _⟩
      | cons y rest => exact ⟨0 :: rest, rest ++ 0 :: after, rfl, rfl, Tape.set_parts _ _ _ _⟩
    obtain ⟨junk, unread, same, last, written⟩ := ended
    have starred : (before ++ (front ++ colon :: x :: rest ++ 0 :: after)).set (before.length + front.length + 1) star =
        before ++ (front ++ [colon, star]) ++ (rest ++ 0 :: after) := by
      have place : before.length + front.length + 1 = (before ++ (front ++ [colon])).length := by
        simp only [List.length_append, List.length_singleton, Nat.add_assoc]
      have whole : before ++ (front ++ colon :: x :: rest ++ 0 :: after) =
          before ++ (front ++ [colon]) ++ x :: (rest ++ 0 :: after) := by simp
      rw [place, whole, Tape.set_parts]
      simp
    have place : before.length + front.length + 2 = (before ++ (front ++ [colon, star])).length := by
      simp only [List.length_append, List.length_cons, List.length_nil, Nat.add_assoc]
    refine Or.inr ⟨_, _, wider, by rw [run, Option.bind_some]; exact if_pos size, ?_, ?_, ?_⟩
    · rw [starred, place, written, last, List.append_assoc]
      refine stringAt_append before unread _ ?_ rfl
      intro inside
      have clean := stands.1
      simp only [List.mem_append, List.mem_cons, List.not_mem_nil, or_false, not_or] at inside clean
      rcases inside with here | here | here
      · exact clean.1 here
      · exact clean.2.1 here
      · cases here
    · simp only [List.length_append, List.length_cons, List.length_nil]
      omega
    · have old : (before ++ (front ++ colon :: x :: rest ++ 0 :: after)).drop
          (before.length + (front ++ colon :: x :: rest).length) = 0 :: after := by
        rw [← List.append_assoc]
        exact List.drop_left' List.length_append
      have new : (before ++ (front ++ [colon, star]) ++ (junk ++ 0 :: after)).drop
          (before.length + (front ++ colon :: x :: rest).length) = 0 :: after := by
        rw [← List.append_assoc]
        apply List.drop_left'
        simp only [List.length_append, List.length_cons, List.length_nil]
        omega
      rw [Kept, starred, place, written, old, new]

theorem globalizations_last {key : Bytes} (none : globalized key = none) : globalizations key = [key] := by
  rw [globalizations]
  split
  · rfl
  · next more => cases none.symm.trans more

theorem globalizations_more {key wider : Bytes} (more : globalized key = some wider) :
    globalizations key = key :: globalizations wider := by
  rw [globalizations]
  split
  · next none => cases more.symm.trans none
  · next other => rw [Option.some.inj (more.symm.trans other)]

theorem searchFirst_row (e : Expl) (cells : Bytes) (c n : Nat) (most : n ≤ e.stack.length)
    (result : Option Json × Bytes)
    (found : ∀ o, (e.stack.take n).reverse.findSome? (·.get (cstr (cells.drop c))) = some o → result = (some o, cells))
    (missing : (e.stack.take n).reverse.findSome? (·.get (cstr (cells.drop c))) = none →
      Settles (fun fuel => searchFirst e fuel cells (some c) (-1)) result) :
    Settles (fun fuel => searchFirst e fuel cells (some c) ((n : Int) - 1)) result := by
  induction n with
  | zero => exact missing rfl
  | succ n ih =>
    have inside : n < e.stack.length := most
    have row : (e.stack.take (n + 1)).reverse.findSome? (·.get (cstr (cells.drop c))) =
        ((e.stack[n]).get (cstr (cells.drop c))).or
          ((e.stack.take n).reverse.findSome? (·.get (cstr (cells.drop c)))) := by
      rw [List.take_add_one, List.getElem?_eq_getElem inside, Option.toList_some, List.reverse_append,
        List.reverse_singleton, List.singleton_append, List.findSome?_cons]
      cases (e.stack[n]).get (cstr (cells.drop c)) <;> rfl
    rw [row] at found missing
    have step (fuel : Nat) : searchFirst e (fuel + 1) cells (some c) (((n + 1 : Nat) : Int) - 1) =
        match (e.stack[n]).get (cstr (cells.drop c)) with
        | some o => some (some o, cells)
        | none => searchFirst e fuel cells (some c) ((n : Int) - 1) := by
      have index : ((n + 1 : Nat) : Int) - 1 = n := by omega
      rw [index, searchFirst, if_neg (by omega), Int.toNat_natCast, List.getElem?_eq_getElem inside, Option.bind_some]
    refine Settles.step step ?_
    cases here : (e.stack[n]).get (cstr (cells.drop c)) with
    | some o =>
      rw [found o (by rw [here]; rfl)]
      exact Settles.known _
    | none =>
      rw [here, Option.none_or] at found missing
      exact ih (Nat.le_of_succ_le most) found missing

theorem searchFirst_spec (e : Expl) {cells text : Bytes} {c : Nat} (stands : StringAt cells c text) :
    ∃ cells', Settles (fun fuel => searchFirst e fuel cells (some c) e.depth) (e.root text, cells') ∧
      Kept cells cells' (c + text.length) := by
  induction text using globalizations.induct generalizing cells with
  | case1 text ih =>
    have all : e.stack.take e.stack.length = e.stack := List.take_length
    cases row : e.stack.reverse.findSome? (·.get text) with
    | some o =>
      have root : e.root text = some o := by
        unfold Expl.root
        rw [globalizations, List.findSome?_cons, row]
      refine ⟨cells, ?_, rfl⟩
      rw [root]
      apply searchFirst_row e cells c e.stack.length (Nat.le_refl _)
      · intro other found
        rw [all, stands.read, row] at found
        rw [Option.some.inj found]
      · intro none
        rw [all, stands.read, row] at none
        cases none
    | none =>
      have missing {result : Option Json × Bytes}
          (later : Settles (fun fuel => searchFirst e fuel cells (some c) (-1)) result) :
          Settles (fun fuel => searchFirst e fuel cells (some c) e.depth) result := by
        apply searchFirst_row e cells c e.stack.length (Nat.le_refl _) result
        · intro o found
          rw [all, stands.read, row] at found
          cases found
        · exact fun _ => later
      rcases globalize_spec stands with ⟨last, run⟩ | ⟨wider, cells', more, run, stands', shorter, kept⟩
      · have root : e.root text = none := by
          unfold Expl.root
          rw [globalizations_last last, List.findSome?_cons, row, List.findSome?_nil]
        have nothing : Settles (fun fuel => searchFirst e fuel cells none e.depth) (none, cells) :=
          Settles.step (fun _ => rfl) (Settles.known _)
        refine ⟨cells, ?_, rfl⟩
        rw [root]
        refine missing (Settles.step (fun fuel => ?_) nothing)
        rw [searchFirst, if_pos (by decide), run]
        rfl
      · have root : e.root text = e.root wider := by
          unfold Expl.root
          rw [globalizations_more more, List.findSome?_cons, row]
        obtain ⟨cells'', ends, kept'⟩ := ih wider more stands'
        refine ⟨cells'', ?_, kept.trans (kept'.later (Nat.add_le_add_left shorter c))⟩
        rw [root]
        refine missing (Settles.step (fun fuel => ?_) ends)
        rw [searchFirst, if_pos (by decide), run]
        rfl

theorem searchNext_spec (o : Json) {cells text : Bytes} {c : Nat} (stands : StringAt cells c text) :
    ∃ cells', Settles (fun fuel => searchNext o fuel cells c) ((globalizations text).findSome? o.get, cells') ∧
      Kept cells cells' (c + text.length) := by
  induction text using globalizations.induct generalizing cells with
  | case1 text ih =>
    cases here : o.get text with
    | some r =>
      refine ⟨cells, Settles.step (fun fuel => ?_) (Settles.known _), rfl⟩
      rw [searchNext, stands.read, here, globalizations, List.findSome?_cons, here]
    | none =>
      rcases globalize_spec stands with ⟨last, run⟩ | ⟨wider, cells', more, run, stands', shorter, kept⟩
      · refine ⟨cells, Settles.step (fun fuel => ?_) (Settles.known _), rfl⟩
        rw [searchNext, stands.read, here, run, globalizations_last last, List.findSome?_cons, here, List.findSome?_nil]
        rfl
      · obtain ⟨cells'', ends, kept'⟩ := ih wider more stands'
        refine ⟨cells'', ?_, kept.trans (kept'.later (Nat.add_le_add_left shorter c))⟩
        rw [globalizations_more more, List.findSome?_cons, here]
        refine Settles.step (fun fuel => ?_) ends
        rw [searchNext, stands.read, here, run]
        rfl

theorem descend_spec (isptr : Bool) {cells text : Bytes} {n : Nat} (o : Json) (stands : StringAt cells n text) :
    ∃ cells', Settles (fun fuel => descend isptr fuel cells n o)
        (((firstEscapes isptr).fields text).foldlM (fun o key => (globalizations key).findSome? o.get) o, cells') ∧
      Kept cells cells' (n + text.length) := by
  induction size : text.length using Nat.strong_induction_on generalizing cells text n o with
  | _ length ih =>
    by_cases empty : text = []
    · rw [empty] at stands ⊢
      refine ⟨cells, Settles.step (fun fuel => ?_) (Settles.known _), rfl⟩
      rw [descend, first, component_nil _ stands, Escapes.fields_nil]
      rfl
    obtain ⟨n', cells₁, run, decoded⟩ := component_spec (firstEscapes isptr) stands empty
    obtain ⟨cells₂, next, kept⟩ := searchNext_spec o decoded.field
    have behind : n + ((firstEscapes isptr).split text).1.length ≤ n' := Nat.le_of_add_right_le decoded.below
    have reach := decoded.reach
    rw [(firstEscapes isptr).fields_eq empty, List.foldlM_cons]
    have untouched : Kept cells cells₂ (n + length) := by
      rw [← size, ← reach]
      exact (decoded.kept.later (Nat.le_add_right _ _)).trans (kept.later (Nat.le_trans behind (Nat.le_add_right _ _)))
    have unfolds (fuel : Nat) : descend isptr (fuel + 1) cells n o =
        (searchNext o fuel cells₁ n).bind fun (r, cells) =>
          match r with
          | none => some (none, cells)
          | some r => descend isptr fuel cells n' r := by
      rw [descend, first, run]
      rfl
    cases found : (globalizations ((firstEscapes isptr).split text).1).findSome? o.get with
    | none =>
      rw [found] at next
      refine ⟨cells₂, Settles.step unfolds (next.after (fun fuel run => ?_) (Settles.known _)), untouched⟩
      rw [run]
      rfl
    | some r =>
      rw [found] at next
      have later := kept.string behind decoded.later
      obtain ⟨cells₃, ends, kept'⟩ := ih _ (size ▸ (firstEscapes isptr).rest_shorter empty) r later rfl
      rw [reach, size] at kept'
      refine ⟨cells₃, Settles.step unfolds (next.after (fun fuel run => ?_) ends), untouched.trans kept'⟩
      rw [run]
      rfl

theorem search_spec (e : Expl) (isptr : Bool) {cells text : Bytes} {n : Nat} (stands : StringAt cells n text) :
    ∃ cells', Settles (fun fuel => search e isptr fuel cells n)
        (if text = [separator false] then some e.current else e.resolve ((firstEscapes isptr).fields text), cells') ∧
      Kept cells cells' (n + text.length) := by
  have single : cells[n]? = some (separator false) ∧ cells[n + 1]? = some 0 ↔ text = [separator false] :=
    stands.single (by decide)
  by_cases dot : text = [separator false]
  · rw [if_pos dot]
    exact ⟨cells, ⟨0, fun fuel _ => if_pos (single.mpr dot)⟩, rfl⟩
  have other := mt single.mp dot
  rw [if_neg dot]
  by_cases empty : text = []
  · rw [empty] at stands ⊢
    rw [Escapes.fields_nil]
    have nothing : Settles (fun fuel => searchFirst e fuel cells none e.depth) (none, cells) :=
      Settles.step (fun _ => rfl) (Settles.known _)
    refine ⟨cells, nothing.after (fun fuel run => ?_) (Settles.known _), rfl⟩
    rw [search, if_neg other, first, component_nil _ stands, Option.bind_some]
    change (searchFirst e fuel cells none e.depth).bind _ = _
    rw [run]
    rfl
  obtain ⟨n', cells₁, run, decoded⟩ := component_spec (firstEscapes isptr) stands empty
  obtain ⟨cells₂, root, kept⟩ := searchFirst_spec e decoded.field
  have behind : n + ((firstEscapes isptr).split text).1.length ≤ n' := Nat.le_of_add_right_le decoded.below
  have untouched : Kept cells cells₂ (n + text.length) := by
    rw [← decoded.reach]
    exact (decoded.kept.later (Nat.le_add_right _ _)).trans (kept.later (Nat.le_trans behind (Nat.le_add_right _ _)))
  have unfolds (fuel : Nat) : search e isptr fuel cells n =
      (searchFirst e fuel cells₁ (some n) e.depth).bind fun (o, cells) =>
        match o with
        | none => some (none, cells)
        | some o => descend isptr fuel cells n' o := by
    rw [search, if_neg other, first, run]
    rfl
  rw [(firstEscapes isptr).fields_eq empty, Expl.resolve]
  cases found : e.root ((firstEscapes isptr).split text).1 with
  | none =>
    rw [found] at root
    refine ⟨cells₂, root.after (fun fuel run => ?_) (Settles.known _), untouched⟩
    rw [unfolds, run]
    rfl
  | some o =>
    rw [found] at root
    obtain ⟨cells₃, ends, kept'⟩ := descend_spec isptr o (kept.string behind decoded.later)
    rw [decoded.reach] at kept'
    refine ⟨cells₃, root.after (fun fuel run => ?_) ends, untouched.trans kept'⟩
    rw [unfolds, run]
    rfl

theorem compareValues_spec (string : Option Bytes) {cells text : Bytes} {v : Nat} (stands : StringAt cells v text) :
    Settles (fun fuel => compareValues string fuel cells v)
      (if string = none ∧ valueEscapes.fields text ≠ [] then .error .nullString
        else .ok ((valueEscapes.fields text).any fun value => string = some value)) := by
  induction size : text.length using Nat.strong_induction_on generalizing cells text v with
  | _ length ih =>
    by_cases empty : text = []
    · rw [empty] at stands ⊢
      rw [Escapes.fields_nil, if_neg (fun both => both.2 rfl)]
      refine Settles.step (fun fuel => ?_) (Settles.known _)
      rw [compareValues, value, component_nil _ stands]
      rfl
    obtain ⟨v', cells', run, decoded⟩ := component_spec valueEscapes stands empty
    cases string with
    | none =>
      rw [valueEscapes.fields_eq empty, if_pos ⟨rfl, List.cons_ne_nil _ _⟩]
      refine Settles.step (fun fuel => ?_) (Settles.known _)
      rw [compareValues, value, run]
      rfl
    | some string =>
      rw [if_neg (fun both => by cases both.1), valueEscapes.fields_eq empty, List.any_cons]
      have unfolds (fuel : Nat) : compareValues (some string) (fuel + 1) cells v =
          if (valueEscapes.split text).1 = string then some (.ok true)
          else compareValues (some string) fuel cells' v' := by
        rw [compareValues, value, run]
        exact if_congr (by rw [decoded.field.read]) rfl rfl
      by_cases same : (valueEscapes.split text).1 = string
      · rw [same, decide_eq_true rfl, Bool.true_or]
        exact Settles.step (fun fuel => (unfolds fuel).trans (if_pos same)) (Settles.known _)
      · have differs : some string ≠ some (valueEscapes.split text).1 := fun equal => same (Option.some.inj equal).symm
        rw [decide_eq_false differs, Bool.false_or]
        refine Settles.step (fun fuel => (unfolds fuel).trans (if_neg same)) ?_
        have later := ih _ (size ▸ valueEscapes.rest_shorter empty) decoded.later rfl
        rwa [if_neg (fun both => by cases both.1)] at later

theorem testValue_spec (serialize : Json → Bytes) (o : Json) {cells test : Bytes} {v : Nat}
    (stands : StringAt cells v test) :
    Settles (fun fuel => testValue serialize fuel cells v o)
      (if o.getString serialize = none ∧ Name.values test ≠ [] then .error .nullString
        else .ok (if Name.accepts serialize o test then o else .null)) := by
  obtain ⟨byte, here, excludes, skipped⟩ := stands.skip (by decide : exclamation ≠ 0)
  have ends := compareValues_spec (o.getString serialize) skipped
  change Settles _ (if o.getString serialize = none ∧ Name.values test ≠ [] then Except.error Crash.nullString
    else Except.ok ((Name.values test).any fun value => o.getString serialize = some value)) at ends
  refine ends.after (fun fuel run => ?_) (Settles.known _)
  rw [testValue, here, Option.bind_some, excludes]
  change (compareValues (o.getString serialize) fuel cells _).map _ = _
  rw [run, Option.map_some, Option.some.injEq]
  have kept (i c : Bool) : (if i ≠ !c then Json.null else o) = if c != i then o else .null := by
    cases i <;> cases c <;> rfl
  by_cases null : o.getString serialize = none ∧ Name.values test ≠ []
  · rw [if_pos null, if_pos null]
    rfl
  · rw [if_neg null, if_neg null]
    exact congrArg Except.ok (kept _ _)

theorem findin_ends (serialize : Json → Bytes) (e : Expl) {cells text : Bytes} {n : Nat}
    (stands : StringAt cells n text) :
    ((Name.ofText text).ComparesNull e → Settles (fun fuel => findin serialize e fuel cells n) (.error .nullString)) ∧
    (¬(Name.ofText text).ComparesNull e →
      Settles (fun fuel => findin serialize e fuel cells n) (.ok ((Name.ofText text).meaning serialize e))) := by
  obtain ⟨byte, here, isptr, skipped⟩ := stands.skip (by decide : separator true ≠ 0)
  obtain ⟨v, cells₁, run, key, test⟩ := keyval_spec (decide (text.head? = some (separator true))) skipped
  obtain ⟨cells₂, found, kept⟩ := search_spec e (decide (text.head? = some (separator true))) key
  change Settles _ ((Name.ofText text).object e, cells₂) at found
  have unfolds (fuel : Nat) (searched : search e (decide (text.head? = some (separator true))) fuel cells₁
      (if decide (text.head? = some (separator true)) then n + 1 else n) =
        some ((Name.ofText text).object e, cells₂)) :
      findin serialize e fuel cells n =
        match (Name.ofText text).object e, (Name.ofText text).test.map fun _ => v with
        | none, _ => some (.ok .null)
        | some o, none => some (.ok o)
        | some o, some v => testValue serialize fuel cells₂ v o := by
    rw [findin, here, Option.bind_some, isptr]
    change (keyval cells _ _).bind _ = _
    rw [run, Option.bind_some]
    change (search e _ fuel cells₁ _).bind _ = _
    rw [searched, Option.bind_some]
    rfl
  unfold Name.ComparesNull Name.meaning
  cases object : (Name.ofText text).object e with
  | none =>
    rw [object] at found unfolds
    exact ⟨fun null => (Option.some_ne_none _ null.1.symm).elim, fun _ => found.after unfolds (Settles.known _)⟩
  | some o =>
    rw [object] at found unfolds
    cases asked : (Name.ofText text).test with
    | none =>
      rw [asked] at unfolds
      exact ⟨fun null => (Option.some_ne_none _ null.2.choose_spec.1.symm).elim,
        fun _ => found.after unfolds (Settles.known _)⟩
    | some val =>
      rw [asked] at unfolds
      obtain ⟨there, behind⟩ := test val asked
      have tested := testValue_spec serialize o (kept.string (Nat.le_of_lt behind) there)
      have noString : o.getString serialize = none ↔ o = .null := Json.getString_eq_none serialize o
      constructor
      · rintro ⟨null, test, same, values⟩
        cases same
        rw [if_pos ⟨noString.mpr (Option.some.inj null), values⟩] at tested
        exact found.after unfolds tested
      · intro fine
        rw [if_neg fun both => fine ⟨congrArg some (noString.mp both.1), val, rfl, both.2⟩] at tested
        have meant : ((some o).filter fun o => (some val).all (Name.accepts serialize o)).getD .null =
            if Name.accepts serialize o val then o else .null := by
          rw [Option.filter_some, Option.all_some]
          split_ifs <;> rfl
        rw [meant]
        exact found.after unfolds tested

/-- The search ends always. It gives the object that is meant exactly when it is not a null one that has values to be
compared with. -/
theorem findin_meets (serialize : Json → Bytes) (e : Expl) {cells text : Bytes} {n : Nat}
    (stands : StringAt cells n text) :
    (∃ outcome, Settles (fun fuel => findin serialize e fuel cells n) outcome) ∧
    (Settles (fun fuel => findin serialize e fuel cells n) (.ok ((Name.ofText text).meaning serialize e)) ↔
      ¬(Name.ofText text).ComparesNull e) := by
  obtain ⟨crashes, finds⟩ := findin_ends serialize e stands
  by_cases null : (Name.ofText text).ComparesNull e
  · refine ⟨⟨_, crashes null⟩, iff_of_false (fun found => ?_) (not_not_intro null)⟩
    cases (crashes null).unique found
  · exact ⟨⟨_, finds null⟩, iff_of_true (finds null) null⟩

/-- A context of an application whose access is asked for any host, and the current one in it. -/
def sampleExpl : Expl where
  stack := [.object [(ascii "host:*", .object [(ascii "access", .string (ascii "allow")), (ascii "port", .null)])],
    .object [(ascii "name", .string (ascii "radio"))]]
  some := List.cons_ne_nil _ _

theorem findin_meets_sample :
    (∃ outcome, Settles
      (fun fuel => findin (fun _ => []) sampleExpl fuel (ascii "host:local.access=deny|allow" ++ [0]) 0) outcome) ∧
    (Settles (fun fuel => findin (fun _ => []) sampleExpl fuel (ascii "host:local.access=deny|allow" ++ [0]) 0)
        (.ok ((Name.ofText (ascii "host:local.access=deny|allow")).meaning (fun _ => []) sampleExpl)) ↔
      ¬(Name.ofText (ascii "host:local.access=deny|allow")).ComparesNull sampleExpl) :=
  findin_meets (fun _ => []) sampleExpl (stringAt_append [] [] _ (by decide) rfl)

/-- A port that is null is compared. -/
theorem findin_compares_null :
    Settles (fun fuel => findin (fun _ => []) sampleExpl fuel (ascii "host:local.port=80" ++ [0]) 0)
      (.error .nullString) ∧
    ¬∃ object, Settles (fun fuel => findin (fun _ => []) sampleExpl fuel (ascii "host:local.port=80" ++ [0]) 0)
      (.ok object) := by
  have crashes : Settles (fun fuel => findin (fun _ => []) sampleExpl fuel (ascii "host:local.port=80" ++ [0]) 0)
      (.error .nullString) := by
    refine ⟨7, fun fuel least => ?_⟩
    obtain ⟨fuel, rfl⟩ := Nat.exists_eq_add_of_le' least
    rfl
  refine ⟨crashes, fun ⟨_, found⟩ => ?_⟩
  cases crashes.unique found

end AppManager.Units
