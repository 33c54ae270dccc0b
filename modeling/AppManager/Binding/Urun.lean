import AppManager.Binding.Auth
import AppManager.Binding.Udb

/-! The process of an application, which is searched by its identifier: the database gives
its unit, and systemd tells the process of that unit. -/

namespace AppManager.Binding
open AppManager.Lib AppManager.Lib.Libc

def ESRCH : Int := 3

def keyUnitDPath : Bytes := ascii "-unit-dpath-"

/-- `j_read_string_at`. -/
def readStringAt (object : Json) (key : Bytes) : Option Bytes :=
  match object.get key with
  | some (.string text) => some (cstr text)
  | _ => none

/-- The name of a unit for a user, when its first `@` is before a dot. -/
def userUnit (uname : Bytes) (uid : Int) : Option Bytes :=
  let before := uname.takeWhile (· != '@'.toUInt8)
  let after := (uname.dropWhile (· != '@'.toUInt8)).drop 1
  if after.head? = some '.'.toUInt8 then some (before ++ '@'.toUInt8 :: decimalText uid ++ after) else none

section
variable {Act : Type} (crash : Dialog Question Answer Act)

/-- The path of a unit is asked, and recorded as a string for the next time. -/
def askDpath (isuser : Bool) (name : Bytes) (callback : Except Int (Bool × Bytes) → Dialog Question Answer Act) :
    Dialog Question Answer Act :=
  .ask (.unitDpathByName isuser name) fun answer : Except Int Bytes =>
    match answer with
    | .error errno => callback (.error errno)
    | .ok dpath => .ask .allocate fun given : Bool =>
      callback (if given then .ok (isuser, cstr dpath) else .error ENOMEM)

/-- The end of `get_basis`, when no path is recorded for the user. -/
def askBasis (appli : Json) (isuser recorded : Bool) (uid : Int)
    (callback : Except Int (Bool × Bytes) → Dialog Question Answer Act) : Dialog Question Answer Act :=
  match readStringAt appli (ascii "unit-name") with
  | none => callback (.error EINVAL)
  | some uname =>
    match userUnit uname uid with
    | none => askDpath isuser uname callback
    | some name =>
      if recorded then askDpath isuser name callback
      else if uid < 0 then callback (.error EINVAL)
      else .ask .allocate fun given : Bool => if given then askDpath isuser name callback else callback (.error ENOMEM)

/-- What is recorded is a path, or an object of the paths of users: an assertion rejects
anything else. -/
def getBasis (appli : Json) (uid : Int) (callback : Except Int (Bool × Bytes) → Dialog Question Answer Act) :
    Dialog Question Answer Act :=
  match readStringAt appli (ascii "unit-scope") with
  | none => callback (.error EINVAL)
  | some uscope =>
    let isuser := decide (uscope ≠ ascii "system")
    match appli.get keyUnitDPath with
    | none => askBasis appli isuser false uid callback
    | some odp =>
      if odp.isString then callback (.ok (isuser, ((readStringAt appli keyUnitDPath).getD [])))
      else if ¬odp.isObject then crash
      else if uid < 0 then callback (.error EINVAL)
      else
        match readStringAt odp (decimalText uid) with
        | some dpath => callback (.ok (isuser, dpath))
        | none => askBasis appli isuser true uid callback

/-- The answer is a process, or -1 with `errno`. The identifier is read even when it is `NULL`. -/
def afmUrunSearchRunid (db : AfmUdb) (id : Option Bytes) (uid : Int)
    (callback : Int × Int → Dialog Question Answer Act) : Dialog Question Answer Act :=
  match id with
  | none => crash
  | some id =>
    match db.getApplicationPrivate id with
    | none => callback (-1, ENOENT)
    | some appli =>
      if appli.isNull then callback (-1, ENOENT)
      else getBasis crash appli uid fun basis =>
        match basis with
        | .error errno => callback (-1, errno)
        | .ok (isuser, udpath) => .ask (.unitPidOfDpath isuser udpath) fun answer : Int × Int =>
          callback (if answer.1 = 0 then (-1, ESRCH) else answer)

end

/-- What is recorded for an application with a scope is neither a path nor an object. -/
def BadPath (appli : Json) : Prop :=
  (readStringAt appli (ascii "unit-scope")).isSome = true ∧
    ∃ odp, appli.get keyUnitDPath = some odp ∧ odp.isString = false ∧ odp.isObject = false

/-- There is no identifier to search, or there is a bad path for its application. -/
def Unsearchable (db : AfmUdb) (id : Option Bytes) : Prop :=
  ∀ known, id = some known → ∃ appli, db.getApplicationPrivate known = some appli ∧ BadPath appli

section
variable {Act : Type} {crash : Dialog Question Answer Act} {wanted : List (Step Question Answer Act) → Prop}
  {holds : List (Step Question Answer Act) → Prop}

theorem afmUrunSearchRunid_crash {db : AfmUdb} {id : Option Bytes} (bad : Unsearchable db id) (uid : Int)
    (callback : Int × Int → Dialog Question Answer Act) : afmUrunSearchRunid crash db id uid callback = crash := by
  cases id with
  | none => rfl
  | some id =>
    obtain ⟨appli, found, scopeKnown, odp, recorded, notString, notObject⟩ := bad id rfl
    have valued : appli.isNull = false := by
      cases appli <;> first | rfl | cases recorded
    obtain ⟨uscope, scope⟩ := Option.isSome_iff_exists.mp scopeKnown
    simp [afmUrunSearchRunid, found, valued, getBasis, scope, recorded, notString, notObject]

theorem askDpath_ensures (asked : ∀ steps question answer, holds steps → holds (steps ++ [.asked question answer]))
    (isuser : Bool) (name : Bytes) {callback : Except Int (Bool × Bytes) → Dialog Question Answer Act}
    (after : ∀ basis steps, holds steps → (callback basis).Ensures steps wanted) {steps : List (Step Question Answer Act)}
    (before : holds steps) : (askDpath isuser name callback).Ensures steps wanted := by
  refine Dialog.ensures_ask fun answer : Except Int Bytes => ?_
  have known := asked steps (.unitDpathByName isuser name) answer before
  cases answer with
  | error errno => exact after _ _ known
  | ok dpath => exact Dialog.ensures_ask fun given => after _ _ (asked _ .allocate given known)

theorem askBasis_ensures (asked : ∀ steps question answer, holds steps → holds (steps ++ [.asked question answer]))
    (appli : Json) (isuser recorded : Bool) (uid : Int)
    {callback : Except Int (Bool × Bytes) → Dialog Question Answer Act}
    (after : ∀ basis steps, holds steps → (callback basis).Ensures steps wanted) {steps : List (Step Question Answer Act)}
    (before : holds steps) : (askBasis appli isuser recorded uid callback).Ensures steps wanted := by
  unfold askBasis
  split
  · exact after _ _ before
  · split
    · exact askDpath_ensures asked isuser _ after before
    · split
      · exact askDpath_ensures asked isuser _ after before
      · split
        · exact after _ _ before
        · refine Dialog.ensures_ask fun given => ?_
          have known := asked steps .allocate given before
          split
          · exact askDpath_ensures asked isuser _ after known
          · exact after _ _ known

theorem getBasis_ensures (asked : ∀ steps question answer, holds steps → holds (steps ++ [.asked question answer]))
    {appli : Json} (good : ¬BadPath appli) (uid : Int)
    {callback : Except Int (Bool × Bytes) → Dialog Question Answer Act}
    (after : ∀ basis steps, holds steps → (callback basis).Ensures steps wanted) {steps : List (Step Question Answer Act)}
    (before : holds steps) : (getBasis crash appli uid callback).Ensures steps wanted := by
  unfold getBasis
  split
  · exact after _ _ before
  · next uscope scope =>
    split
    · exact askBasis_ensures asked appli _ false uid after before
    · next odp recorded =>
      simp only
      split
      · exact after _ _ before
      · next notString =>
        split
        · next notObject =>
          refine absurd ⟨?_, odp, recorded, Bool.not_eq_true _ ▸ notString, Bool.not_eq_true _ ▸ notObject⟩ good
          rw [scope]
          rfl
        · split
          · exact after _ _ before
          · split
            · exact after _ _ before
            · exact askBasis_ensures asked appli _ true uid after before

theorem afmUrunSearchRunid_ensures
    (asked : ∀ steps question answer, holds steps → holds (steps ++ [.asked question answer])) {db : AfmUdb}
    {id : Option Bytes} (good : ¬Unsearchable db id) (uid : Int) {callback : Int × Int → Dialog Question Answer Act}
    (after : ∀ answer steps, holds steps → (callback answer).Ensures steps wanted)
    {steps : List (Step Question Answer Act)} (before : holds steps) :
    (afmUrunSearchRunid crash db id uid callback).Ensures steps wanted := by
  cases id with
  | none => exact absurd (fun known same => by cases same) good
  | some id =>
    simp only [afmUrunSearchRunid]
    split
    · exact after _ _ before
    · next appli found =>
      split
      · exact after _ _ before
      · have path : ¬BadPath appli := by
          intro bad
          refine good fun known same => ⟨appli, ?_, bad⟩
          rw [← Option.some.inj same]
          exact found
        refine getBasis_ensures asked path uid (fun basis steps known => ?_) before
        split
        · exact after _ _ known
        · exact Dialog.ensures_ask fun answer => after _ _ (asked _ _ answer known)

end

end AppManager.Binding
