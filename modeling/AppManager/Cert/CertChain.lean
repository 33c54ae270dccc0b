import AppManager.Cert.CommonCert

/-! Signing rights along a chain of certificates. The recursion follows the first
embedded issuer of each certificate until one has no embedded issuer, and then
takes the first trusted issuer of that last certificate. The rights of this last
certificate are never read: those of the trusted one stand in their place. -/

namespace AppManager.Cert
open AppManager.Lib AppManager.Lib.Libc AppManager.Lib.Walk AppManager.Utils
open Relation

section
variable {Crt : Type} (gnutls : Gnutls Crt) (ckcrt : CheckCrt Crt)

abbrev CheckCrt.issued (cert : ckcrt.Index) (issuer : Crt) : Prop :=
  isIssuer gnutls (ckcrt.certs.get cert) issuer true = true

abbrev CheckCrt.ownAt (cert : ckcrt.Index) : DomainSpec := own gnutls (ckcrt.certs.get cert)

/-- A chain of issuers up to a trusted certificate, each able to sign the
specification of the one it issued, the trusted one included. -/
inductive TrustChain : ckcrt.Index → Prop
  | anchor {cert : ckcrt.Index} {trusted : Crt} (member : trusted ∈ ckcrt.trusteds)
      (issued : ckcrt.issued gnutls cert trusted)
      (able : isDomainSpecAbleToSign (own gnutls trusted) (ckcrt.ownAt gnutls cert)) :
      TrustChain cert
  | link {cert issuer : ckcrt.Index}
      (issued : ckcrt.issued gnutls cert (ckcrt.certs.get issuer))
      (able : isDomainSpecAbleToSign (ckcrt.ownAt gnutls issuer) (ckcrt.ownAt gnutls cert))
      (rest : TrustChain issuer) : TrustChain cert

/-- What an accepted target is expected to have. -/
def Attenuated (targetidx : ckcrt.Index) (spec : DomainSpec) : Prop :=
  ∀ fuel rc result, checkCrtChain gnutls ckcrt fuel targetidx (some spec) = some (rc, result) →
    0 ≤ rc →
    (∃ found, result = some found ∧
      ∀ name, permissionOf found name = permissionOf (ckcrt.ownAt gnutls targetidx) name) ∧
    TrustChain gnutls ckcrt targetidx

abbrev CheckCrt.Reach (first last : ckcrt.Index) : Prop :=
  ReflTransGen (Step (ckcrt.issuerIndex gnutls)) first last

/-- The two links around the last embedded certificate, which the code does not
compare, attenuate; and a target that is itself the last one declares what its
trusted issuer declares. -/
def EndLinksSound (targetidx : ckcrt.Index) : Prop :=
  ∀ last trusted, ckcrt.Reach gnutls targetidx last → ckcrt.issuerIndex gnutls last = none →
    ckcrt.trustedIssuer gnutls last = some trusted →
    isDomainSpecAbleToSign (own gnutls trusted) (ckcrt.ownAt gnutls last) ∧
    (last = targetidx → ∀ name,
      permissionOf (own gnutls trusted) name = permissionOf (ckcrt.ownAt gnutls targetidx) name) ∧
    ∀ previous, ckcrt.Reach gnutls targetidx previous →
      ckcrt.issuerIndex gnutls previous = some last →
      isDomainSpecAbleToSign (ckcrt.ownAt gnutls last) (ckcrt.ownAt gnutls previous)

/-- No cross-signing: a certificate has one issuer at most, embedded or trusted. -/
structure SingleIssuer : Prop where
  embedded : ∀ cert first second, ckcrt.issued gnutls cert (ckcrt.certs.get first) →
    ckcrt.issued gnutls cert (ckcrt.certs.get second) → first = second
  trusted : ∀ cert, ∀ first ∈ ckcrt.trusteds, ∀ second ∈ ckcrt.trusteds,
    ckcrt.issued gnutls cert first → ckcrt.issued gnutls cert second → first = second
  disjoint : ∀ cert issuer, ∀ trusted ∈ ckcrt.trusteds,
    ckcrt.issued gnutls cert (ckcrt.certs.get issuer) → ¬ckcrt.issued gnutls cert trusted

def Accepted (targetidx : ckcrt.Index) (spec : DomainSpec) : Prop :=
  ∃ fuel rc result,
    checkCrtChain gnutls ckcrt fuel targetidx (some spec) = some (rc, result) ∧ 0 ≤ rc

variable {gnutls ckcrt}

theorem issued_of_issuerIndex {cert issuer : ckcrt.Index}
    (found : ckcrt.issuerIndex gnutls cert = some issuer) :
    ckcrt.issued gnutls cert (ckcrt.certs.get issuer) := by
  have holds := List.find?_some found
  simp only [decide_eq_true_eq] at holds
  exact holds.2

theorem issued_of_trustedIssuer {cert : ckcrt.Index} {trusted : Crt}
    (found : ckcrt.trustedIssuer gnutls cert = some trusted) :
    trusted ∈ ckcrt.trusteds ∧ ckcrt.issued gnutls cert trusted := by
  have holds := List.find?_some found
  exact ⟨List.mem_of_find?_eq_some found, holds⟩

theorem isDomainSpecAbleToSign_nil (auth : DomainSpec) : isDomainSpecAbleToSign auth [] = true := rfl

/-- A link followed by the code whose two specifications it did compare. -/
def CheckedLink (gnutls : Gnutls Crt) (ckcrt : CheckCrt Crt) (cert issuer : ckcrt.Index) : Prop :=
  ckcrt.issuerIndex gnutls cert = some issuer ∧
    isDomainSpecAbleToSign (ckcrt.ownAt gnutls issuer) (ckcrt.ownAt gnutls cert)

theorem checkCrtChain_issued {fuel : Nat} {targetidx idx : ckcrt.Index} {spec : DomainSpec}
    {rc : Int} {result : Option DomainSpec}
    (issuer : ckcrt.issuerIndex gnutls targetidx = some idx)
    (run : checkCrtChain gnutls ckcrt (fuel + 1) targetidx (some spec) = some (rc, result))
    (accepted : 0 ≤ rc) :
    ∃ rc' superspec,
      checkCrtChain gnutls ckcrt fuel idx (some .initial) = some (rc', superspec) ∧ 0 ≤ rc' ∧
      isDomainSpecAbleToSign (superspec.getD .initial) (ckcrt.ownAt gnutls targetidx) ∧
      result = some (ckcrt.ownAt gnutls targetidx) := by
  simp only [checkCrtChain, issuer, Option.map_some] at run
  cases inner : checkCrtChain gnutls ckcrt fuel idx (some .initial) with
  | none => simp [inner] at run
  | some pair =>
    rcases pair with ⟨rc', superspec⟩
    simp only [inner] at run
    by_cases negative : rc' < 0
    · simp only [if_pos negative, Option.some.injEq, Prod.mk.injEq] at run
      omega
    · refine ⟨rc', superspec, rfl, by omega, ?_⟩
      simp only [if_neg negative] at run
      rcases getDomainSpecOfCert_cases gnutls (ckcrt.certs.get targetidx) spec with
        read | ⟨absent, nothing⟩ | ⟨failed, other⟩
      · simp only [read, ENOENT, show (0 : Int) ≠ -2 by decide, ↓reduceIte, true_and] at run
        by_cases able : isDomainSpecAbleToSign (superspec.getD .initial)
            (own gnutls (ckcrt.certs.get targetidx)) = true
        · simp only [able, not_true_eq_false, ↓reduceIte, Option.some.injEq, Prod.mk.injEq] at run
          exact ⟨able, run.2.symm⟩
        · simp only [able, not_false_eq_true, ↓reduceIte, Option.some.injEq, Prod.mk.injEq,
            EINVAL, Bool.false_eq_true] at run
          omega
      · simp only [absent, ↓reduceIte, Option.some.injEq, Prod.mk.injEq] at run
        rw [CheckCrt.ownAt, nothing]
        exact ⟨isDomainSpecAbleToSign_nil _, run.2.symm⟩
      · simp only [other, failed.ne, ↓reduceIte, false_and, Option.some.injEq, Prod.mk.injEq] at run
        omega

theorem checkCrtChain_accepted {fuel : Nat} {targetidx : ckcrt.Index} {spec : DomainSpec}
    {rc : Int} {result : Option DomainSpec}
    (run : checkCrtChain gnutls ckcrt fuel targetidx (some spec) = some (rc, result))
    (accepted : 0 ≤ rc) :
    ∃ last trusted, ckcrt.issuerIndex gnutls last = none ∧
      ckcrt.trustedIssuer gnutls last = some trusted ∧
      ((targetidx = last ∧ result = some (own gnutls trusted)) ∨
        ∃ previous, ReflTransGen (CheckedLink gnutls ckcrt) targetidx previous ∧
          ckcrt.issuerIndex gnutls previous = some last ∧
          result = some (ckcrt.ownAt gnutls targetidx)) := by
  induction fuel generalizing targetidx spec rc result with
  | zero => simp [checkCrtChain] at run
  | succ fuel ih =>
    cases issuer : ckcrt.issuerIndex gnutls targetidx with
    | some idx =>
      obtain ⟨rc', superspec, inner, accepted', able, returned⟩ :=
        checkCrtChain_issued issuer run accepted
      obtain ⟨last, trusted, isLast, issues, ⟨here, _⟩ | ⟨previous, path, step, above⟩⟩ :=
        ih inner accepted'
      · subst idx
        exact ⟨last, trusted, isLast, issues, Or.inr ⟨targetidx, .refl, issuer, returned⟩⟩
      · subst superspec
        exact ⟨last, trusted, isLast, issues, Or.inr ⟨previous, .head ⟨issuer, able⟩ path, step, returned⟩⟩
    | none =>
      simp only [checkCrtChain, issuer] at run
      cases issues : ckcrt.trustedIssuer gnutls targetidx with
      | none =>
        simp only [issues, Option.some.injEq, Prod.mk.injEq, ENOENT] at run
        omega
      | some trusted =>
        refine ⟨targetidx, trusted, issuer, issues, Or.inl ⟨rfl, ?_⟩⟩
        simp only [issues, Option.some.injEq, Prod.mk.injEq] at run
        rcases getDomainSpecOfCert_cases gnutls trusted spec with read | ⟨absent, _⟩ | ⟨failed, _⟩
        · rw [read] at run
          exact run.2.symm
        · simp only [absent, ENOENT] at run
          omega
        · omega

theorem reach_of_checked {first last : ckcrt.Index}
    (path : ReflTransGen (CheckedLink gnutls ckcrt) first last) : ckcrt.Reach gnutls first last := by
  induction path with
  | refl => exact .refl
  | tail _ link ih => exact ih.tail link.1

theorem trustChain_of_checked {first last : ckcrt.Index}
    (path : ReflTransGen (CheckedLink gnutls ckcrt) first last)
    (rest : TrustChain gnutls ckcrt last) : TrustChain gnutls ckcrt first := by
  induction path using ReflTransGen.head_induction_on with
  | refl => exact rest
  | head step _ ih => exact TrustChain.link (issued_of_issuerIndex step.1) step.2 ih

theorem attenuated_of_endLinksSound {targetidx : ckcrt.Index} {spec : DomainSpec}
    (sound : EndLinksSound gnutls ckcrt targetidx) : Attenuated gnutls ckcrt targetidx spec := by
  intro fuel rc result run accepted
  obtain ⟨last, trusted, isLast, issues, ⟨here, returned⟩ | ⟨previous, path, step, returned⟩⟩ :=
    checkCrtChain_accepted run accepted
  · subst last
    obtain ⟨able, same, _⟩ := sound targetidx trusted .refl isLast issues
    obtain ⟨member, issued⟩ := issued_of_trustedIssuer issues
    exact ⟨⟨_, returned, same rfl⟩, TrustChain.anchor member issued able⟩
  · have reach := reach_of_checked path
    obtain ⟨able, _, links⟩ := sound last trusted (reach.tail step) isLast issues
    obtain ⟨member, issued⟩ := issued_of_trustedIssuer issues
    refine ⟨⟨_, returned, fun _ => rfl⟩, trustChain_of_checked path ?_⟩
    exact TrustChain.link (issued_of_issuerIndex step) (links previous reach step)
      (TrustChain.anchor member issued able)

theorem TrustChain.follow (single : SingleIssuer gnutls ckcrt) {first last : ckcrt.Index}
    (reach : ckcrt.Reach gnutls first last) (chain : TrustChain gnutls ckcrt first) :
    TrustChain gnutls ckcrt last := by
  induction reach with
  | refl => exact chain
  | tail _ step ih =>
    cases ih with
    | anchor member issued _ =>
      exact absurd issued (single.disjoint _ _ _ member (issued_of_issuerIndex step))
    | link issued _ rest =>
      rw [single.embedded _ _ _ (issued_of_issuerIndex step) issued]
      exact rest

theorem TrustChain.able_anchor (single : SingleIssuer gnutls ckcrt) {last : ckcrt.Index}
    {trusted : Crt} (issues : ckcrt.trustedIssuer gnutls last = some trusted)
    (chain : TrustChain gnutls ckcrt last) :
    isDomainSpecAbleToSign (own gnutls trusted) (ckcrt.ownAt gnutls last) := by
  obtain ⟨member, issued⟩ := issued_of_trustedIssuer issues
  cases chain with
  | anchor member' issued' able =>
    rw [single.trusted _ _ member _ member' issued issued']
    exact able
  | link issued' _ _ => exact absurd issued (single.disjoint _ _ _ member issued')

theorem TrustChain.able_link (single : SingleIssuer gnutls ckcrt) {cert issuer : ckcrt.Index}
    (step : ckcrt.issuerIndex gnutls cert = some issuer)
    (chain : TrustChain gnutls ckcrt cert) :
    isDomainSpecAbleToSign (ckcrt.ownAt gnutls issuer) (ckcrt.ownAt gnutls cert) := by
  cases chain with
  | anchor member issued _ =>
    exact absurd issued (single.disjoint _ _ _ member (issued_of_issuerIndex step))
  | link issued able _ =>
    rw [single.embedded _ _ _ (issued_of_issuerIndex step) issued]
    exact able

theorem endLinksSound_of_attenuated {targetidx : ckcrt.Index} {spec : DomainSpec}
    (single : SingleIssuer gnutls ckcrt) (accepted : Accepted gnutls ckcrt targetidx spec)
    (attenuated : Attenuated gnutls ckcrt targetidx spec) : EndLinksSound gnutls ckcrt targetidx := by
  obtain ⟨fuel, rc, result, run, success⟩ := accepted
  obtain ⟨⟨found, returned, same⟩, chain⟩ := attenuated fuel rc result run success
  intro last trusted reach isLast issues
  refine ⟨(chain.follow single reach).able_anchor single issues, ?_, ?_⟩
  · intro here
    subst last
    obtain ⟨last, trusted', isLast', issues', ⟨here, returned'⟩ | ⟨previous, path, step, _⟩⟩ :=
      checkCrtChain_accepted run success
    · subst last
      have equal : trusted' = trusted := Option.some.inj (issues'.symm.trans issues)
      have result' : found = own gnutls trusted' := Option.some.inj (returned.symm.trans returned')
      intro name
      rw [← equal, ← result']
      exact same name
    · rw [reach_from_end isLast (reach_of_checked path), isLast] at step
      cases step
  · intro previous reach' step
    exact (chain.follow single reach').able_link single step

/-- The rights are attenuated along the whole chain when the two end links are
sound, and only then for a target that is accepted without any cross-signing. -/
theorem attenuated_iff_endLinksSound (gnutls : Gnutls Crt) (ckcrt : CheckCrt Crt)
    (targetidx : ckcrt.Index) (spec : DomainSpec) :
    (EndLinksSound gnutls ckcrt targetidx → Attenuated gnutls ckcrt targetidx spec) ∧
    (SingleIssuer gnutls ckcrt → Accepted gnutls ckcrt targetidx spec →
      Attenuated gnutls ckcrt targetidx spec → EndLinksSound gnutls ckcrt targetidx) :=
  ⟨attenuated_of_endLinksSound, endLinksSound_of_attenuated⟩

end

/-- Certificates reduced to a subject, an issuer and a declared specification. -/
structure SampleCrt where
  subject : Nat
  issuer : Nat
  declared : String

def sampleGnutls : Gnutls SampleCrt where
  crtCheckIssuer cert issuer := cert.issuer == issuer.subject
  crtVerify _ _ := (0, 0)
  crtGetExtensionByOid cert := .content (ascii cert.declared)

/-- A leaf that grants `b`, issued by a trusted certificate with all rights on `a`
only: the leaf is accepted, with the rights of the trusted certificate. -/
theorem trusted_rights_returned :
    ¬Attenuated sampleGnutls ⟨[⟨1, 0, "+b"⟩], [⟨0, 0, "@a"⟩]⟩ ⟨0, by decide⟩ .initial := by
  intro claim
  obtain ⟨⟨found, returned, same⟩, _⟩ :=
    claim 1 0 (some [⟨.root, ascii "a"⟩]) (by decide) (by decide)
  cases returned
  exact absurd (same (ascii "b")) (by decide)

/-- A leaf, an intermediate authority and a trusted root with decreasing rights. -/
def sampleChain : CheckCrt SampleCrt := ⟨[⟨2, 1, "+a"⟩, ⟨1, 0, "#a"⟩], [⟨0, 0, "@a"⟩]⟩

def sampleLeaf : sampleChain.Index := ⟨0, by decide⟩
def sampleAuthority : sampleChain.Index := ⟨1, by decide⟩

theorem sampleChain_last : ∀ idx, sampleChain.issuerIndex sampleGnutls idx = none →
    idx = sampleAuthority := by decide

theorem sampleChain_previous : ∀ idx, sampleChain.issuerIndex sampleGnutls idx = some sampleAuthority →
    idx = sampleLeaf := by decide

theorem sampleChain_endLinksSound : EndLinksSound sampleGnutls sampleChain sampleLeaf := by
  intro last trusted _ isLast issues
  have lastIs := sampleChain_last last isLast
  subst last
  have trustedIs : trusted = ⟨0, 0, "@a"⟩ := (Option.some.inj issues).symm
  subst trusted
  refine ⟨by decide, fun here => absurd here (by decide), ?_⟩
  intro previous _ step
  rw [sampleChain_previous previous step]
  decide

theorem sampleChain_attenuated :
    EndLinksSound sampleGnutls sampleChain sampleLeaf ∧
      Attenuated sampleGnutls sampleChain sampleLeaf .initial :=
  ⟨sampleChain_endLinksSound,
    (attenuated_iff_endLinksSound sampleGnutls sampleChain sampleLeaf .initial).1
      sampleChain_endLinksSound⟩

end AppManager.Cert
