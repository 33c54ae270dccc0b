import AppManager.Lib.Libc

/-! Domain specifications: which permission a certificate or a signature has on
each named domain. The list order is the order of the chained `domain_t`. -/

namespace AppManager.Utils
open AppManager.Lib AppManager.Lib.Libc

inductive DomainPermission where
  | none
  | grants
  | auth
  | root
  deriving DecidableEq, Repr

def DomainPermission.code : DomainPermission → Int
  | .none => 0
  | .grants => 1
  | .auth => 2
  | .root => 3

def DomainPermission.ofCode (code : Int) : Option DomainPermission :=
  if code = 0 then some .none
  else if code = 1 then some .grants
  else if code = 2 then some .auth
  else if code = 3 then some .root
  else Option.none

structure Domain where
  permission : DomainPermission
  name : Bytes
  deriving DecidableEq, Repr

abbrev DomainSpec := List Domain

def DomainSpec.initial : DomainSpec := []

def getDomainLen (spec : DomainSpec) (domain : Bytes) (length : Nat) : Option Domain :=
  spec.find? (fun dom => dom.name = domain.take length)

def getDomain (spec : DomainSpec) (domain : Bytes) : Option Domain :=
  getDomainLen spec domain domain.length

def addDomainLen (spec : DomainSpec) (perm : DomainPermission) (domain : Bytes) (length : Nat) :
    Int × DomainSpec :=
  (0, ⟨perm, domain.take length⟩ :: spec)

def addDomain (spec : DomainSpec) (perm : DomainPermission) (domain : Bytes) : Int × DomainSpec :=
  addDomainLen spec perm domain domain.length

def setPermission (key : Bytes) (perm : DomainPermission) : DomainSpec → DomainSpec
  | [] => []
  | dom :: rest =>
    if dom.name = key then { dom with permission := perm } :: rest
    else dom :: setPermission key perm rest

/-- The search compares `length` bytes of the domain, and the creation takes all of it. -/
def domainSpecSetLen (spec : DomainSpec) (perm : Int) (domain : Bytes) (length : Nat) :
    Int × DomainSpec :=
  match DomainPermission.ofCode perm with
  | none => (-EINVAL, spec)
  | some .none => (0, spec.eraseP (fun dom => dom.name = domain.take length))
  | some perm =>
    if (getDomainLen spec domain length).isSome then
      (0, setPermission (domain.take length) perm spec)
    else addDomain spec perm domain

def domainSpecSet (spec : DomainSpec) (perm : Int) (domain : Bytes) : Int × DomainSpec :=
  domainSpecSetLen spec perm domain domain.length

def isDomainSpecGranting (spec : DomainSpec) (domain : Bytes) : Bool :=
  match getDomain spec domain with
  | none => false
  | some dom => dom.permission = .grants

def domainPermissionOfTag (op : Byte) : Option DomainPermission :=
  if op = '+'.toUInt8 then some .grants
  else if op = '#'.toUInt8 then some .auth
  else if op = '@'.toUInt8 then some .root
  else Option.none

/-- The items of a specification text. An item takes two bytes at least, so the
length of the text is enough fuel. -/
def getDomainSpecOfStringLoop : Nat → Bytes → DomainSpec → Int × DomainSpec
  | 0, _, spec => (0, spec)
  | _ + 1, [], spec => (0, spec)
  | fuel + 1, op :: rest, spec =>
    match domainPermissionOfTag op with
    | none => (-ENOKEY, spec)
    | some pe =>
      let len := (rest.takeWhile (· != ','.toUInt8)).length
      if len = 0 then (-ENODATA, spec)
      else if (getDomainLen spec rest len).isSome then (-EEXIST, spec)
      else getDomainSpecOfStringLoop fuel (rest.drop (len + 1)) (addDomainLen spec pe rest len).2

def getDomainSpecOfString (str : Bytes) (spec : DomainSpec) : Int × DomainSpec :=
  if spec ≠ [] then (-ENOTEMPTY, spec)
  else
    let (rc, spec) := getDomainSpecOfStringLoop str.length str spec
    if rc ≠ 0 then (rc, .initial) else (rc, spec)

def isDomainSpecAbleToSign (auth target : DomainSpec) : Bool :=
  target.all fun domtar =>
    match getDomain auth domtar.name with
    | none => false
    | some domaut =>
      domtar.permission.code < domaut.permission.code ∨ domaut.permission = .root

def domainSpecAddGrantings (into source : DomainSpec) : Int × DomainSpec :=
  source.foldl (fun (result : Int × DomainSpec) domfr =>
    if result.1 = 0 ∧ domfr.permission = .grants then
      if (getDomain result.2 domfr.name).isSome then
        (0, setPermission domfr.name .grants result.2)
      else addDomain result.2 .grants domfr.name
    else result) (0, into)

def permissionOf (spec : DomainSpec) (name : Bytes) : Option DomainPermission :=
  (getDomain spec name).map Domain.permission

@[simp] theorem permissionOf_nil (name : Bytes) : permissionOf [] name = none := rfl

theorem permissionOf_cons (dom : Domain) (spec : DomainSpec) (name : Bytes) :
    permissionOf (dom :: spec) name =
      if dom.name = name then some dom.permission else permissionOf spec name := by
  simp only [permissionOf, getDomain, getDomainLen, List.take_length, List.find?_cons]
  split
  · next found => simp [of_decide_eq_true found]
  · next missed => simp [of_decide_eq_false missed]

theorem isDomainSpecGranting_iff (spec : DomainSpec) (name : Bytes) :
    isDomainSpecGranting spec name = true ↔ permissionOf spec name = some .grants := by
  unfold isDomainSpecGranting permissionOf
  cases getDomain spec name with
  | none => simp
  | some dom => simp

theorem permissionOf_setPermission (key : Bytes) (perm : DomainPermission) (spec : DomainSpec)
    (name : Bytes) (known : (permissionOf spec key).isSome) :
    permissionOf (setPermission key perm spec) name =
      if key = name then some perm else permissionOf spec name := by
  induction spec with
  | nil => simp at known
  | cons dom rest ih =>
    by_cases same : dom.name = key
    · subst key
      simp only [setPermission, ↓reduceIte, permissionOf_cons]
      split <;> rfl
    · simp only [setPermission, if_neg same, permissionOf_cons] at known ⊢
      rw [ih known]
      by_cases here : dom.name = name
      · have other : key ≠ name := fun equal => same (here.trans equal.symm)
        simp only [if_pos here, if_neg other]
      · simp only [if_neg here]

theorem domainSpecSet_eq (spec : DomainSpec) (perm : DomainPermission) (domain : Bytes)
    (given : perm ≠ .none) :
    domainSpecSet spec perm.code domain =
      if (getDomain spec domain).isSome then (0, setPermission domain perm spec)
      else (0, ⟨perm, domain⟩ :: spec) := by
  cases perm with
  | none => exact absurd rfl given
  | grants =>
    unfold domainSpecSet domainSpecSetLen addDomain addDomainLen getDomain
    rw [List.take_length]
    rfl
  | auth =>
    unfold domainSpecSet domainSpecSetLen addDomain addDomainLen getDomain
    rw [List.take_length]
    rfl
  | root =>
    unfold domainSpecSet domainSpecSetLen addDomain addDomainLen getDomain
    rw [List.take_length]
    rfl

theorem permissionOf_domainSpecSet (spec : DomainSpec) (perm : DomainPermission) (domain name : Bytes)
    (given : perm ≠ .none) :
    permissionOf (domainSpecSet spec perm.code domain).2 name =
      if domain = name then some perm else permissionOf spec name := by
  rw [domainSpecSet_eq spec perm domain given]
  by_cases known : (getDomain spec domain).isSome
  · rw [if_pos known]
    exact permissionOf_setPermission domain perm spec name (by simpa [permissionOf] using known)
  · rw [if_neg known, permissionOf_cons]

theorem domainSpecSet_rc (spec : DomainSpec) (perm : DomainPermission) (domain : Bytes)
    (given : perm ≠ .none) : (domainSpecSet spec perm.code domain).1 = 0 := by
  rw [domainSpecSet_eq spec perm domain given]
  split <;> rfl

end AppManager.Utils
