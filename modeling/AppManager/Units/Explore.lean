import AppManager.Mustach.Ending
import AppManager.Mustach.Meaning
import AppManager.Units.ApplyMustach
import AppManager.Units.MustachFind

/-! The instances of templates for JSON objects. -/

namespace AppManager.Units
open AppManager.Lib

instance (name : Name) (e : Expl) : Decidable (name.ComparesNull e) :=
  decidable_of_iff ((name.object e).any Json.isNull = true ∧ name.test.any (fun test => Name.values test ≠ []) = true) <| by
    rw [Option.any_eq_true, Option.any_eq_true]
    simp only [Json.isNull_iff, decide_eq_true_eq]
    exact and_congr (exists_eq_right) Iff.rfl

theorem searchFirst_grows (e : Expl) (cells : Bytes) (c : Option Nat) (i : Int) :
    Grows fun fuel => searchFirst e fuel cells c i := by
  intro fuel result gives
  dsimp only at gives ⊢
  induction fuel generalizing cells c i with
  | zero => cases gives
  | succ fuel ih =>
    cases c with
    | none => exact gives
    | some c =>
      rw [searchFirst] at gives ⊢
      split_ifs at gives ⊢ with below
      · obtain ⟨wider, here, rest⟩ := Option.bind_eq_some_iff.mp gives
        exact Option.bind_eq_some_iff.mpr ⟨wider, here, ih _ _ _ rest⟩
      · obtain ⟨obj, here, rest⟩ := Option.bind_eq_some_iff.mp gives
        refine Option.bind_eq_some_iff.mpr ⟨obj, here, ?_⟩
        cases found : obj.get (cstr (cells.drop c)) with
        | some o =>
          rw [found] at rest
          exact rest
        | none =>
          rw [found] at rest
          exact ih _ _ _ rest

theorem searchNext_grows (o : Json) (cells : Bytes) (c : Nat) : Grows fun fuel => searchNext o fuel cells c := by
  intro fuel result gives
  dsimp only at gives ⊢
  induction fuel generalizing cells c with
  | zero => cases gives
  | succ fuel ih =>
    rw [searchNext] at gives ⊢
    cases found : o.get (cstr (cells.drop c)) with
    | some r =>
      rw [found] at gives
      exact gives
    | none =>
      rw [found] at gives
      obtain ⟨⟨c, cells⟩, here, rest⟩ := Option.bind_eq_some_iff.mp gives
      refine Option.bind_eq_some_iff.mpr ⟨⟨c, cells⟩, here, ?_⟩
      cases c with
      | none => exact rest
      | some c => exact ih _ _ rest

theorem descend_grows (isptr : Bool) (cells : Bytes) (n : Nat) (o : Json) :
    Grows fun fuel => descend isptr fuel cells n o := by
  intro fuel result gives
  dsimp only at gives ⊢
  induction fuel generalizing cells n o with
  | zero => cases gives
  | succ fuel ih =>
    rw [descend] at gives ⊢
    obtain ⟨⟨c, n, cells⟩, here, rest⟩ := Option.bind_eq_some_iff.mp gives
    refine Option.bind_eq_some_iff.mpr ⟨⟨c, n, cells⟩, here, ?_⟩
    cases c with
    | none => exact rest
    | some c =>
      obtain ⟨⟨r, cells⟩, here, rest⟩ := Option.bind_eq_some_iff.mp rest
      refine Option.bind_eq_some_iff.mpr ⟨⟨r, cells⟩, searchNext_grows _ _ _ _ _ here, ?_⟩
      cases r with
      | none => exact rest
      | some r => exact ih _ _ _ rest

theorem compareValues_grows (string : Option Bytes) (cells : Bytes) (v : Nat) :
    Grows fun fuel => compareValues string fuel cells v := by
  intro fuel result gives
  dsimp only at gives ⊢
  induction fuel generalizing cells v with
  | zero => cases gives
  | succ fuel ih =>
    rw [compareValues] at gives ⊢
    obtain ⟨⟨c, v, cells⟩, here, rest⟩ := Option.bind_eq_some_iff.mp gives
    refine Option.bind_eq_some_iff.mpr ⟨⟨c, v, cells⟩, here, ?_⟩
    cases c with
    | none => exact rest
    | some c =>
      cases string with
      | none => exact rest
      | some string =>
        dsimp only at rest ⊢
        split_ifs at rest ⊢ with same
        · exact rest
        · exact ih _ _ rest

theorem search_grows (e : Expl) (isptr : Bool) (cells : Bytes) (n : Nat) :
    Grows fun fuel => search e isptr fuel cells n := by
  intro fuel result gives
  dsimp only [search] at gives ⊢
  split_ifs at gives ⊢ with dot
  · exact gives
  · obtain ⟨⟨c, n, cells⟩, here, rest⟩ := Option.bind_eq_some_iff.mp gives
    refine Option.bind_eq_some_iff.mpr ⟨⟨c, n, cells⟩, here, ?_⟩
    obtain ⟨⟨o, cells⟩, here, rest⟩ := Option.bind_eq_some_iff.mp rest
    refine Option.bind_eq_some_iff.mpr ⟨⟨o, cells⟩, searchFirst_grows _ _ _ _ _ _ here, ?_⟩
    cases o with
    | none => exact rest
    | some o => exact descend_grows _ _ _ _ _ _ rest

theorem findin_grows (serialize : Json → Bytes) (e : Expl) (cells : Bytes) (n : Nat) :
    Grows fun fuel => findin serialize e fuel cells n := by
  refine Grows.bind (Grows.known _) fun byte => Grows.bind (Grows.known _) fun ⟨v, cells⟩ =>
    Grows.bind (search_grows _ _ _ _) fun ⟨o, cells⟩ => ?_
  cases o with
  | none => exact Grows.known _
  | some o =>
    cases v with
    | none => exact Grows.known _
    | some v => exact Grows.bind (Grows.known _) fun byte => Grows.map (compareValues_grows _ _ _) _

theorem findin_settles (serialize : Json → Bytes) (e : Expl) (name : Bytes) :
    Settles (fun fuel => findin serialize e fuel (cstr name ++ [0]) 0)
      (if (Name.ofText (cstr name)).ComparesNull e then .error .nullString
        else .ok ((Name.ofText (cstr name)).meaning serialize e)) := by
  obtain ⟨crashes, finds⟩ := findin_ends serialize e (stringAt_append [] [] (cstr name) (cstr_clean name) rfl)
  split_ifs with null
  · exact crashes null
  · exact finds null

/-- `find`, on a copy of the name. -/
def find (serialize : Json → Bytes) (e : Expl) (name : Bytes) : Except Crash Json :=
  outcome (fun fuel => findin serialize e fuel (cstr name ++ [0]) 0) (findin_settles serialize e name).ends

theorem find_eq (serialize : Json → Bytes) (e : Expl) (name : Bytes) :
    find serialize e name =
      if (Name.ofText (cstr name)).ComparesNull e then .error .nullString
      else .ok ((Name.ofText (cstr name)).meaning serialize e) :=
  (findin_grows serialize e _ 0).outcome_eq (findin_settles serialize e name) _

/-- What is before the first `||`, and after it. -/
def cutOr : Bytes → Bytes × Bytes
  | [] => ([], [])
  | c :: rest =>
    if c = pipe ∧ rest.head? = some pipe then ([], rest.tail)
    else
      let (key, later) := cutOr rest
      (c :: key, later)

theorem cutOr_shorter (n : Bytes) : (cutOr n).2.length ≤ n.length - 1 := by
  induction n with
  | nil => exact Nat.le_refl 0
  | cons c rest ih =>
    rw [cutOr]
    split_ifs
    · simp
    · simp only [List.length_cons]
      omega

/-- The texts between the `||`. -/
def alternatives : Bytes → List Bytes
  | [] => []
  | c :: rest =>
    let cut := cutOr (c :: rest)
    cut.1 :: alternatives cut.2
termination_by n => n.length
decreasing_by exact Nat.lt_succ_of_le (cutOr_shorter (c :: rest))

/-- The loop of `findor`. -/
def findAny (serialize : Json → Bytes) (e : Expl) : List Bytes → Except Crash Json
  | [] => .ok .null
  | n :: later =>
    match find serialize e n with
    | .ok .null => findAny serialize e later
    | found => found

def findor (serialize : Json → Bytes) (e : Expl) (name : Bytes) : Except Crash Json :=
  findAny serialize e (alternatives (cstr name))

def MAX_DEPTH : Nat := 256

/-- A place of the stack. What is not an array counts for one item. -/
structure Place where
  cont : Json
  obj : Json
  index : Nat
  count : Nat
  counted : count = max 1 cont.arrayItems.length

def above (outer : List Place) (obj : Json) : Expl where
  stack := outer.reverse.map Place.obj ++ [obj]
  some := List.append_ne_nil_of_right_ne_nil _ (List.cons_ne_nil _ _)

/-- `struct expl`: the place of the current depth, and the places below it. -/
structure Exploration where
  current : Place
  outer : List Place

namespace Exploration

def expl (e : Exploration) : Expl := above e.outer e.current.obj

def start (root : Json) : Exploration := ⟨⟨.null, root, 0, 1, rfl⟩, []⟩

end Exploration

/-- `json_object_get_boolean`. The truth of a number or of a boolean is the one of its text. -/
def getBoolean (truth : Bytes → Bool) : Json → Bool
  | .literal text => truth text
  | .string text => decide (text ≠ [])
  | _ => false

section
variable (serialize : Json → Bytes) (truth : Bytes → Bool)

def put (e : Exploration) (name : Bytes) (escape : Bool) : Except Mustach.Failure (Exploration × Bytes) :=
  match find serialize e.expl name with
  | .error _ => .error .crash
  | .ok o => .ok (e, ((o.getString serialize).map (print · escape)).getD [])

def enter (e : Exploration) (name : Bytes) : Except Mustach.Failure (Bool × Exploration) :=
  match findor serialize e.expl name with
  | .error _ => .error .crash
  | .ok o =>
    if MAX_DEPTH ≤ e.outer.length + 1 then .error (.status Mustach.MUSTACH_ERROR_TOO_DEEP)
    else
      match o with
      | .array [] => .ok (false, e)
      | .array (item :: items) =>
        .ok (true, ⟨⟨.array (item :: items), item, 0, items.length + 1, (Nat.max_eq_right (Nat.succ_pos _)).symm⟩,
          e.current :: e.outer⟩)
      | o =>
        if o.isObject ∨ getBoolean truth o then .ok (true, ⟨⟨.null, o, 0, 1, rfl⟩, e.current :: e.outer⟩)
        else .ok (false, e)

def next (e : Exploration) : Except Mustach.Failure (Bool × Exploration) :=
  match e.outer with
  | [] => .error (.status Mustach.MUSTACH_ERROR_CLOSING)
  | _ :: _ =>
    let index := e.current.index + 1
    if e.current.count ≤ index then .ok (false, { e with current := { e.current with index := index } })
    else
      .ok (true, { e with
        current := { e.current with index := index, obj := (e.current.cont.arrayItems[index]?).getD .null } })

/-- The status of `leave` is not read. -/
def leave (e : Exploration) : Exploration :=
  match e.outer with
  | [] => e
  | place :: outer => ⟨place, outer⟩

/-- `itf`, and `iwrap_partial` for the partials. -/
def itf : Mustach.Interface Exploration where
  put := put serialize
  enter := enter serialize truth
  next := next
  leave := leave
  inclusion e name := put serialize e name false

/-- `apply_mustach`: the result, or the negative status. -/
def applyMustach (fuel : Nat) (template : Bytes) (root : Json) : Option (Except Mustach.Failure Bytes) :=
  (Mustach.process .all (itf serialize truth) fuel (cstr template) (Exploration.start root) [] []).map fun
    | .ok (_, result) => .ok result
    | .error (.status _) => .error (.status (-1))
    | .error .crash => .error .crash

end

end AppManager.Units
