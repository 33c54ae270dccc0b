import AppManager.Lib.Walk
import AppManager.Utils.DomainSpec

/-! Certificates and their chain of trust, as `common-cert.c` checks it. What
gnutls answers about certificates is a parameter: any issuer relation and any
declared extension can occur. -/

namespace AppManager.Cert
open AppManager.Lib AppManager.Lib.Libc AppManager.Utils

/-- The answer to the request of the domain extension in a scratch of 127 bytes. -/
inductive ExtensionResult where
  | requestedDataNotAvailable
  | failure
  | content (scratch : Bytes)
  deriving DecidableEq, Repr

structure Gnutls (Crt : Type) where
  crtCheckIssuer : Crt → Crt → Bool
  crtVerify : Crt → Crt → Int × Nat
  crtGetExtensionByOid : Crt → ExtensionResult

structure CheckCrt (Crt : Type) where
  certs : List Crt
  trusteds : List Crt

abbrev CheckCrt.Index {Crt : Type} (ckcrt : CheckCrt Crt) := Fin ckcrt.certs.length

section
variable {Crt : Type} (gnutls : Gnutls Crt)

def isIssuer (cert issuer : Crt) (verify : Bool) : Bool :=
  if !gnutls.crtCheckIssuer cert issuer then false
  else if !verify then true
  else (gnutls.crtVerify cert issuer).1 = 0 ∧ (gnutls.crtVerify cert issuer).2 = 0

def getDomainSpecOfCert (cert : Crt) (spec : DomainSpec) : Int × DomainSpec :=
  let result := match gnutls.crtGetExtensionByOid cert with
    | .requestedDataNotAvailable => (-ENOENT, spec)
    | .failure => (-EINVAL, spec)
    | .content scratch => getDomainSpecOfString (cstr scratch) spec
  if result.1 < 0 then (result.1, .initial) else result

/-- The first embedded certificate, other than the target, that issued the target. -/
def CheckCrt.issuerIndex (ckcrt : CheckCrt Crt) (targetidx : ckcrt.Index) : Option ckcrt.Index :=
  (List.finRange ckcrt.certs.length).find? fun idx =>
    idx ≠ targetidx ∧ isIssuer gnutls (ckcrt.certs.get targetidx) (ckcrt.certs.get idx) true

def CheckCrt.trustedIssuer (ckcrt : CheckCrt Crt) (targetidx : ckcrt.Index) : Option Crt :=
  ckcrt.trusteds.find? fun trusted => isIssuer gnutls (ckcrt.certs.get targetidx) trusted true

/-- The recursion has no bound of its own, so the model takes fuel: `none` means
that it is still recursing. Both results of the C function are returned. -/
def checkCrtChain (ckcrt : CheckCrt Crt) :
    Nat → ckcrt.Index → Option DomainSpec → Option (Int × Option DomainSpec)
  | 0, _, _ => none
  | fuel + 1, targetidx, spec =>
    match ckcrt.issuerIndex gnutls targetidx with
    | some idx =>
      match checkCrtChain ckcrt fuel idx (spec.map fun _ => .initial) with
      | none => none
      | some (rc, superspec) =>
        if rc < 0 then some (rc, spec)
        else match spec with
          | none => some (0, none)
          | some spec =>
            let (rc, spec) := getDomainSpecOfCert gnutls (ckcrt.certs.get targetidx) spec
            if rc = -ENOENT then some (0, some spec)
            else if rc = 0 ∧ ¬isDomainSpecAbleToSign (superspec.getD .initial) spec then
              some (-EINVAL, some .initial)
            else some (rc, some spec)
    | none =>
      match ckcrt.trustedIssuer gnutls targetidx, spec with
      | none, spec => some (-ENOENT, spec)
      | some _, none => some (0, none)
      | some trusted, some spec =>
        let (rc, spec) := getDomainSpecOfCert gnutls trusted spec
        some (rc, some spec)

/-- The specification declared in a certificate, empty without extension. -/
def own (cert : Crt) : DomainSpec := (getDomainSpecOfCert gnutls cert .initial).2

theorem getDomainSpecOfStringLoop_rc (fuel : Nat) (str : Bytes) (spec : DomainSpec) :
    (getDomainSpecOfStringLoop fuel str spec).1 ∈ ({0, -ENOKEY, -ENODATA, -EEXIST} : Set Int) := by
  fun_induction getDomainSpecOfStringLoop with
  | case1 => simp
  | case2 => simp
  | case3 => simp
  | case4 => simp
  | case5 => simp
  | case6 _ _ _ _ _ _ _ _ _ ih => exact ih

theorem getDomainSpecOfString_rc (str : Bytes) (spec : DomainSpec) :
    (getDomainSpecOfString str spec).1 ∈
      ({0, -ENOKEY, -ENODATA, -EEXIST, -ENOTEMPTY} : Set Int) := by
  have inner := getDomainSpecOfStringLoop_rc str.length str spec
  unfold getDomainSpecOfString
  split
  · simp
  · simp only [Set.mem_insert_iff, Set.mem_singleton_iff] at inner ⊢
    split <;> tauto

theorem getDomainSpecOfCert_cases (cert : Crt) (spec : DomainSpec) :
    getDomainSpecOfCert gnutls cert spec = (0, own gnutls cert) ∨
    (getDomainSpecOfCert gnutls cert spec = (-ENOENT, []) ∧ own gnutls cert = []) ∨
    ((getDomainSpecOfCert gnutls cert spec).1 < 0 ∧
      (getDomainSpecOfCert gnutls cert spec).1 ≠ -ENOENT) := by
  cases declared : gnutls.crtGetExtensionByOid cert with
  | requestedDataNotAvailable => simp [own, getDomainSpecOfCert, declared, ENOENT,
      DomainSpec.initial]
  | failure => simp [own, getDomainSpecOfCert, declared, ENOENT, EINVAL]
  | content scratch =>
    simp only [own, getDomainSpecOfCert, declared]
    by_cases empty : spec = []
    · subst spec
      have codes := getDomainSpecOfString_rc (cstr scratch) []
      simp only [Set.mem_insert_iff, Set.mem_singleton_iff, ENOKEY, ENODATA, EEXIST, ENOTEMPTY] at codes
      by_cases negative : (getDomainSpecOfString (cstr scratch) []).1 < 0
      · refine Or.inr (Or.inr ?_)
        rw [if_pos negative]
        exact ⟨negative, by simp only [ENOENT]; omega⟩
      · refine Or.inl ?_
        rw [if_neg negative, DomainSpec.initial, if_neg negative]
        exact Prod.ext (by simp only; omega) rfl
    · simp [getDomainSpecOfString, empty, ENOTEMPTY, ENOENT]

end
end AppManager.Cert
