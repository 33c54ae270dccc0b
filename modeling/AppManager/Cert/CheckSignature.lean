import Mathlib.Data.Fintype.EquivFin
import AppManager.Cert.CertChain

/-! The check of a PKCS7 signature: its signer is searched among the embedded
certificates, the content is verified with it, and its chain of trust is then
followed through the embedded certificates, taken as the file gives them. -/

namespace AppManager.Cert
open AppManager.Lib AppManager.Lib.Libc AppManager.Lib.Walk AppManager.Utils
open Relation

structure SignatureInfo where
  signerSerial : Bytes
  issuerKeyid : Bytes
  issuerDn : Bytes
  deriving DecidableEq, Repr

/-- What gnutls gives of a PKCS7 structure. `none` is any answer but success. -/
structure Pkcs7 (Crt : Type) where
  signatureCount : Int
  signatureInfo : Option SignatureInfo
  embeddedData : Option Bytes
  crtCount : Int
  crt : Nat → Option Crt

/-- What gnutls gives of a certificate, in a scratch of 1000 bytes, and its
verification of a signed content. -/
structure GnutlsSigner (Crt : Type) where
  crtGetSerial : Crt → Option Bytes
  crtGetSubjectKeyId : Crt → Option Bytes
  crtGetIssuerDn : Crt → Option Bytes
  pkcs7VerifyDirect : Pkcs7 Crt → Crt → Bytes → Bool

structure CheckPkcs7 (Crt : Type) where
  info : SignatureInfo
  data : Bytes
  certs : List Crt

section
variable {Crt : Type} (gnutls : Gnutls Crt) (signer : GnutlsSigner Crt)

/-- The checks and the copies made before any verification, `none` on failure. -/
def initCheckPkcs7 (pkcs7 : Pkcs7 Crt) : Option (CheckPkcs7 Crt) :=
  if pkcs7.signatureCount ≠ 1 then none
  else match pkcs7.signatureInfo, pkcs7.embeddedData with
    | some info, some data =>
      if pkcs7.crtCount < 0 then none
      else match (List.range pkcs7.crtCount.toNat).mapM pkcs7.crt with
        | some certs => some ⟨info, data, certs⟩
        | none => none
    | _, _ => none

def isSigner (info : SignatureInfo) (cert : Crt) : Bool :=
  let known := if 0 < info.signerSerial.length then
      signer.crtGetSerial cert = some info.signerSerial
    else if 0 < info.issuerKeyid.length then
      signer.crtGetSubjectKeyId cert = some info.issuerKeyid
    else False
  known ∧ signer.crtGetIssuerDn cert = some info.issuerDn

def getSignerCrtIndex (ck7 : CheckPkcs7 Crt) : Option (Fin ck7.certs.length) :=
  (List.finRange ck7.certs.length).reverse.find? fun idx =>
    isSigner signer ck7.info (ck7.certs.get idx)

/-- The signer, once it is found and has verified the content. Each failure is
reported by -1. -/
def verifiedSigner (pkcs7 : Pkcs7 Crt) :
    Option ((ck7 : CheckPkcs7 Crt) × Fin ck7.certs.length) :=
  match initCheckPkcs7 pkcs7 with
  | none => none
  | some ck7 =>
    match getSignerCrtIndex signer ck7 with
    | none => none
    | some signerIdx =>
      if signer.pkcs7VerifyDirect pkcs7 (ck7.certs.get signerIdx) ck7.data then
        some ⟨ck7, signerIdx⟩
      else none

def checkSignatureWithCrl (fuel : Nat) (pkcs7 : Pkcs7 Crt) (spec : Option DomainSpec)
    (trusteds : List Crt) : Option (Int × Option DomainSpec) :=
  match verifiedSigner signer pkcs7 with
  | none => some (-1, spec)
  | some ⟨ck7, signerIdx⟩ => checkCrtChain gnutls ⟨ck7.certs, trusteds⟩ fuel signerIdx spec

def checkSignature (fuel : Nat) (pkcs7 : Pkcs7 Crt) (spec : Option DomainSpec)
    (trusteds : List Crt) : Option (Int × Option DomainSpec) :=
  checkSignatureWithCrl gnutls signer fuel pkcs7 spec trusteds

variable {gnutls}

theorem checkCrtChain_succ_isSome (ckcrt : CheckCrt Crt) (fuel : Nat)
    (targetidx : ckcrt.Index) (spec : Option DomainSpec) :
    (checkCrtChain gnutls ckcrt (fuel + 1) targetidx spec).isSome ↔
      ∀ idx, ckcrt.issuerIndex gnutls targetidx = some idx →
        (checkCrtChain gnutls ckcrt fuel idx (spec.map fun _ => .initial)).isSome := by
  cases issuer : ckcrt.issuerIndex gnutls targetidx with
  | none =>
    simp only [checkCrtChain, issuer, reduceCtorEq, false_implies, implies_true, iff_true]
    split <;> rfl
  | some idx =>
    simp only [checkCrtChain, issuer, Option.some.injEq, forall_eq']
    cases checkCrtChain gnutls ckcrt fuel idx (spec.map fun _ => .initial) with
    | none => simp
    | some pair =>
      rcases pair with ⟨rc, superspec⟩
      simp only [Option.isSome_some, iff_true]
      split
      · rfl
      · cases spec with
        | none => rfl
        | some spec =>
          simp only
          split
          · rfl
          · split <;> rfl

theorem checkCrtChain_returns_iff (ckcrt : CheckCrt Crt) (targetidx : ckcrt.Index)
    (spec : Option DomainSpec) :
    (∃ fuel, (checkCrtChain gnutls ckcrt fuel targetidx spec).isSome) ↔
      Halts (ckcrt.issuerIndex gnutls) targetidx := by
  constructor
  · rintro ⟨fuel, returns⟩
    induction fuel generalizing targetidx spec with
    | zero => simp [checkCrtChain] at returns
    | succ fuel ih =>
      rw [checkCrtChain_succ_isSome] at returns
      cases issuer : ckcrt.issuerIndex gnutls targetidx with
      | none => exact Halts.stop issuer
      | some idx => exact Halts.move issuer (ih idx _ (returns idx issuer))
  · intro halts
    induction halts generalizing spec with
    | stop last =>
      refine ⟨1, (checkCrtChain_succ_isSome ckcrt 0 _ spec).mpr ?_⟩
      intro idx issuer
      rw [last] at issuer
      cases issuer
    | move step _ ih =>
      obtain ⟨fuel, returns⟩ := ih (spec.map fun _ => .initial)
      refine ⟨fuel + 1, (checkCrtChain_succ_isSome ckcrt fuel _ spec).mpr ?_⟩
      intro idx issuer
      rw [step] at issuer
      cases issuer
      exact returns

/-- No cycle of first issuers can be reached from the target. -/
def NoIssuerCycle (gnutls : Gnutls Crt) (ckcrt : CheckCrt Crt) (targetidx : ckcrt.Index) : Prop :=
  ∀ cert, ckcrt.Reach gnutls targetidx cert →
    ¬TransGen (Step (ckcrt.issuerIndex gnutls)) cert cert

theorem checkCrtChain_returns_iff_noIssuerCycle (ckcrt : CheckCrt Crt) (targetidx : ckcrt.Index)
    (spec : Option DomainSpec) :
    (∃ fuel, (checkCrtChain gnutls ckcrt fuel targetidx spec).isSome) ↔
      NoIssuerCycle gnutls ckcrt targetidx :=
  (checkCrtChain_returns_iff ckcrt targetidx spec).trans (halts_iff_no_cycle targetidx)

/-- The check of a signature returns exactly when the embedded certificates of a
verified content have no cycle of first issuers on the way of the signer. -/
theorem checkSignatureWithCrl_returns_iff (gnutls : Gnutls Crt) (signer : GnutlsSigner Crt)
    (pkcs7 : Pkcs7 Crt) (spec : Option DomainSpec) (trusteds : List Crt) :
    (∃ fuel, (checkSignatureWithCrl gnutls signer fuel pkcs7 spec trusteds).isSome) ↔
      ∀ ck7 signerIdx, verifiedSigner signer pkcs7 = some ⟨ck7, signerIdx⟩ →
        NoIssuerCycle gnutls ⟨ck7.certs, trusteds⟩ signerIdx := by
  unfold checkSignatureWithCrl
  cases verified : verifiedSigner signer pkcs7 with
  | none => simp
  | some found =>
    rcases found with ⟨ck7, signerIdx⟩
    simp only
    rw [checkCrtChain_returns_iff_noIssuerCycle]
    constructor
    · intro acyclic ck7' signerIdx' same
      cases same
      exact acyclic
    · intro all
      exact all ck7 signerIdx rfl

end

/-- Two embedded certificates that issued each other; the first one signed. -/
def crossSigned : Pkcs7 SampleCrt where
  signatureCount := 1
  signatureInfo := some ⟨[1], [], [2]⟩
  embeddedData := some []
  crtCount := 2
  crt idx := some (if idx = 0 then ⟨1, 2, "+a"⟩ else ⟨2, 1, "#a"⟩)

def sampleSigner : GnutlsSigner SampleCrt where
  crtGetSerial cert := some [cert.subject.toUInt8]
  crtGetSubjectKeyId _ := none
  crtGetIssuerDn cert := some [cert.issuer.toUInt8]
  pkcs7VerifyDirect _ _ _ := true

def crossChain : CheckCrt SampleCrt := ⟨[⟨1, 2, "+a"⟩, ⟨2, 1, "#a"⟩], [⟨0, 0, "@a"⟩]⟩

theorem crossChain_cycle : TransGen (Step (crossChain.issuerIndex sampleGnutls))
    ⟨0, by decide⟩ ⟨0, by decide⟩ := by
  have forth : crossChain.issuerIndex sampleGnutls ⟨0, by decide⟩ = some ⟨1, by decide⟩ := by decide
  have back : crossChain.issuerIndex sampleGnutls ⟨1, by decide⟩ = some ⟨0, by decide⟩ := by decide
  exact TransGen.tail (TransGen.single forth) back

theorem crossSigned_never_returns :
    ¬∃ fuel, (checkSignatureWithCrl sampleGnutls sampleSigner fuel crossSigned none
      [⟨0, 0, "@a"⟩]).isSome := by
  rintro ⟨fuel, returns⟩
  have start : checkSignatureWithCrl sampleGnutls sampleSigner fuel crossSigned none
      [⟨0, 0, "@a"⟩] = checkCrtChain sampleGnutls crossChain fuel ⟨0, by decide⟩ none := rfl
  rw [start] at returns
  have acyclic := (checkCrtChain_returns_iff_noIssuerCycle crossChain _ none).mp ⟨fuel, returns⟩
  exact acyclic _ .refl crossChain_cycle

end AppManager.Cert
