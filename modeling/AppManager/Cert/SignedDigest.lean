import AppManager.Cert.SignatureName
import AppManager.Utils.DomainSpec
import AppManager.Utils.PathLookup

/-! The check of all the signature files of a tree. Each of them is checked by the
callback of a traversal that always goes on, and all of them share one status. -/

namespace AppManager.Cert
open AppManager.Lib AppManager.Lib.Libc AppManager.Utils

/-- What the check of a signature file depends on: the content of files, gnutls, and
the checks of the digest and of the signature for the tree and the trusted
certificates at hand. -/
structure SignatureChecks (Pkcs7 : Type) where
  readFile : Bytes → Except Failure Bytes
  pkcs7Import : Bytes → Option Pkcs7
  embeddedData : Pkcs7 → Option Bytes
  checkDigest : Bytes → Bool → Int
  checkSignature : Pkcs7 → Int × DomainSpec

structure CheckAll where
  spec : Option DomainSpec
  rc : Int

section
variable {Pkcs7 : Type} (checks : SignatureChecks Pkcs7)

def readPkcs7 (file : Bytes) : Except Failure Pkcs7 :=
  match checks.readFile (cstr file) with
  | .error failure => .error failure
  | .ok datum =>
    match checks.pkcs7Import (datum.take (datum.length % 2 ^ 32)) with
    | none => .error ⟨-EINVAL, by decide⟩
    | some pkcs7 => .ok pkcs7

def checkSignedDigest (pkcs7 : Pkcs7) (isdistributor : Bool) : Int × DomainSpec :=
  match checks.embeddedData pkcs7 with
  | none => (-EINVAL, .initial)
  | some data =>
    if checks.checkDigest data isdistributor < 0 then
      (checks.checkDigest data isdistributor, .initial)
    else checks.checkSignature pkcs7

def getDomainsCb (ca : CheckAll) (dom : Domain) : CheckAll :=
  match ca.spec with
  | none => ca
  | some spec =>
    if dom.permission = .grants then
      let result := domainSpecSet spec dom.permission.code dom.name
      ⟨some result.2, result.1⟩
    else ca

/-- The status is first the one of the file, then the one left in `ca` by the grants. -/
def checkOneOfAll (ca : CheckAll) (path : Bytes) (isdistributor : Bool) : CheckAll :=
  match readPkcs7 checks path with
  | .error failure => { ca with rc := failure }
  | .ok pkcs7 =>
    let result := checkSignedDigest checks pkcs7 isdistributor
    if 0 ≤ result.1 ∧ ca.spec.isSome then result.2.foldl getDomainsCb ca
    else { ca with rc := result.1 }

def checkAllStep (ca : CheckAll) (visit : Visit) : CheckAll :=
  match signatureNameTypeLength visit.path visit.path.length with
  | .author => checkOneOfAll checks ca visit.path false
  | .distributor => checkOneOfAll checks ca visit.path true
  | .none => ca

def checkAllCb (ca : CheckAll) (visit : Visit) : Int × CheckAll := (0, checkAllStep checks ca visit)

def checkSignedDigestOfFiles (tree : PathTree) (spec : Option DomainSpec) : CheckAll :=
  (pathEntryForEach (checkAllCb checks) { onlyAdded := true, absolute := true } tree.root ⟨spec, 0⟩).2

/-- The kind of a signature entry: whether it is the one of a distributor. -/
def signatureRole (visit : Visit) : Option Bool :=
  match signatureNameTypeLength visit.path visit.path.length with
  | .author => some false
  | .distributor => some true
  | .none => none

/-- The file of the entry is read, and what it signs is checked, with that specification. -/
def PassesWith (visit : Visit) (isdistributor : Bool) (pkcs7 : Pkcs7) : Prop :=
  signatureRole visit = some isdistributor ∧ readPkcs7 checks visit.path = .ok pkcs7 ∧
    0 ≤ (checkSignedDigest checks pkcs7 isdistributor).1

def Passes (visit : Visit) : Prop := ∃ isdistributor pkcs7, PassesWith checks visit isdistributor pkcs7

def Fails (visit : Visit) : Prop := signatureRole visit ≠ none ∧ ¬Passes checks visit

def Grants (visit : Visit) (domain : Bytes) : Prop :=
  ∃ isdistributor pkcs7, PassesWith checks visit isdistributor pkcs7 ∧
    ⟨.grants, domain⟩ ∈ (checkSignedDigest checks pkcs7 isdistributor).2

/-- A good signature clears the status when no specification is asked for, or when it
grants some domain. -/
def Clears (asked : Bool) (visit : Visit) : Prop :=
  Passes checks visit ∧ (asked = false ∨ ∃ domain, Grants checks visit domain)

def checkInOrder (order : List Visit) (spec : Option DomainSpec) : CheckAll :=
  order.foldl (checkAllStep checks) ⟨spec, 0⟩

theorem checkSignedDigestOfFiles_eq (tree : PathTree) (spec : Option DomainSpec) :
    checkSignedDigestOfFiles checks tree spec = checkInOrder checks (reached tree) spec :=
  pathEntryForEach_reached (checkAllStep checks) tree true ⟨spec, 0⟩

end

theorem getDomainsCb_spec (specs spec : DomainSpec) (rc : Int) :
    ∃ after status, specs.foldl getDomainsCb ⟨some spec, rc⟩ = ⟨some after, status⟩ ∧
      (∀ domain, isDomainSpecGranting after domain = true ↔
        isDomainSpecGranting spec domain = true ∨ ⟨.grants, domain⟩ ∈ specs) ∧
      ((status = 0 ∧ ∃ domain, ⟨.grants, domain⟩ ∈ specs) ∨
        (status = rc ∧ ∀ domain, ⟨.grants, domain⟩ ∉ specs)) := by
  induction specs generalizing spec rc with
  | nil => exact ⟨spec, rc, rfl, by simp, by simp⟩
  | cons dom rest ih =>
    obtain ⟨permission, name⟩ := dom
    by_cases grants : permission = .grants
    · subst grants
      obtain ⟨after, status, result, granted, cleared⟩ :=
        ih (domainSpecSet spec DomainPermission.grants.code name).2
          (domainSpecSet spec DomainPermission.grants.code name).1
      refine ⟨after, status, result, fun domain => ?_, Or.inl ⟨?_, name, by simp⟩⟩
      · rw [granted, isDomainSpecGranting_iff, isDomainSpecGranting_iff,
          permissionOf_domainSpecSet _ _ _ _ (by decide), List.mem_cons, Domain.mk.injEq]
        by_cases same : domain = name
        · simp [same]
        · simp [same, Ne.symm same]
      · rcases cleared with ⟨zero, -⟩ | ⟨kept, -⟩
        · exact zero
        · rw [kept, domainSpecSet_rc _ _ _ (by decide)]
    · obtain ⟨after, status, result, granted, cleared⟩ := ih spec rc
      have first : getDomainsCb ⟨some spec, rc⟩ ⟨permission, name⟩ = ⟨some spec, rc⟩ := by
        simp [getDomainsCb, grants]
      have other : ∀ domain, (⟨.grants, domain⟩ : Domain) ∈ ⟨permission, name⟩ :: rest ↔
          ⟨.grants, domain⟩ ∈ rest := by
        intro domain
        simp [Ne.symm grants]
      refine ⟨after, status, by rw [List.foldl_cons, first, result], ?_, ?_⟩
      · simpa only [other] using granted
      · simpa only [other] using cleared

section
variable {Pkcs7 : Type} (checks : SignatureChecks Pkcs7)

/-- The domains granted by a specification, if it is there. -/
def Granted (spec : Option DomainSpec) (domain : Bytes) : Prop :=
  ∃ granting, spec = some granting ∧ isDomainSpecGranting granting domain = true

theorem passesWith_unique {visit : Visit} {isdistributor other : Bool} {pkcs7 pkcs7' : Pkcs7}
    (first : PassesWith checks visit isdistributor pkcs7) (second : PassesWith checks visit other pkcs7') :
    other = isdistributor ∧ pkcs7' = pkcs7 := by
  refine ⟨?_, ?_⟩
  · exact Option.some.inj (second.1.symm.trans first.1)
  · exact Except.ok.inj (second.2.1.symm.trans first.2.1)

theorem checkAllStep_role (ca : CheckAll) (visit : Visit) : checkAllStep checks ca visit =
    match signatureRole visit with
    | none => ca
    | some isdistributor => checkOneOfAll checks ca visit.path isdistributor := by
  unfold checkAllStep signatureRole
  cases signatureNameTypeLength visit.path visit.path.length <;> rfl

theorem checkAllStep_cases (ca : CheckAll) (visit : Visit) :
    (signatureRole visit = none ∧ checkAllStep checks ca visit = ca) ∨
    (Fails checks visit ∧ ∃ rc < 0, checkAllStep checks ca visit = ⟨ca.spec, rc⟩) ∨
    (∃ isdistributor pkcs7, PassesWith checks visit isdistributor pkcs7 ∧
      checkAllStep checks ca visit = if ca.spec.isSome then
        (checkSignedDigest checks pkcs7 isdistributor).2.foldl getDomainsCb ca
      else ⟨ca.spec, (checkSignedDigest checks pkcs7 isdistributor).1⟩) := by
  rw [checkAllStep_role]
  cases role : signatureRole visit with
  | none => exact Or.inl ⟨rfl, rfl⟩
  | some isdistributor =>
    refine Or.inr ?_
    simp only [checkOneOfAll]
    cases file : readPkcs7 checks visit.path with
    | error failure =>
      refine Or.inl ⟨⟨by simp [role], ?_⟩, failure, failure.2, rfl⟩
      rintro ⟨_, _, _, read, -⟩
      simp [file] at read
    | ok pkcs7 =>
      by_cases good : 0 ≤ (checkSignedDigest checks pkcs7 isdistributor).1
      · refine Or.inr ⟨isdistributor, pkcs7, ⟨role, file, good⟩, ?_⟩
        simp [good]
      · refine Or.inl ⟨⟨by simp [role], ?_⟩, (checkSignedDigest checks pkcs7 isdistributor).1,
          by omega, by simp [good]⟩
        rintro ⟨other, pkcs7', role', read, passed⟩
        rw [role] at role'
        rw [file] at read
        obtain rfl := Option.some.inj role'
        obtain rfl := Except.ok.inj read
        exact good passed

theorem checkAllStep_effect (ca : CheckAll) (visit : Visit) :
    (checkAllStep checks ca visit).spec.isSome = ca.spec.isSome ∧
    (∀ domain, Granted (checkAllStep checks ca visit).spec domain ↔
      Granted ca.spec domain ∨ (ca.spec.isSome = true ∧ Grants checks visit domain)) ∧
    ((Fails checks visit ∧ (checkAllStep checks ca visit).rc < 0) ∨
      (Clears checks ca.spec.isSome visit ∧ 0 ≤ (checkAllStep checks ca visit).rc) ∨
      (¬Fails checks visit ∧ ¬Clears checks ca.spec.isSome visit ∧
        (checkAllStep checks ca visit).rc = ca.rc)) := by
  rcases checkAllStep_cases checks ca visit with ⟨role, same⟩ | ⟨fails, rc, negative, same⟩ |
    ⟨isdistributor, pkcs7, passes, same⟩
  · have silent : ¬Passes checks visit := by
      rintro ⟨other, pkcs7, role', -, -⟩
      simp [role] at role'
    have nothing : ∀ domain, ¬Grants checks visit domain :=
      fun domain ⟨other, pkcs7, passes, _⟩ => silent ⟨other, pkcs7, passes⟩
    rw [same]
    refine ⟨rfl, fun domain => by simp [nothing], Or.inr (Or.inr ⟨?_, ?_, rfl⟩)⟩
    · exact fun fails => fails.1 role
    · exact fun clears => silent clears.1
  · have nothing : ∀ domain, ¬Grants checks visit domain :=
      fun domain ⟨other, pkcs7, passes, _⟩ => fails.2 ⟨other, pkcs7, passes⟩
    rw [same]
    exact ⟨rfl, fun domain => by simp [nothing], Or.inl ⟨fails, negative⟩⟩
  · have passed : Passes checks visit := ⟨isdistributor, pkcs7, passes⟩
    have notFails : ¬Fails checks visit := fun fails => fails.2 passed
    have grants : ∀ domain, Grants checks visit domain ↔
        ⟨.grants, domain⟩ ∈ (checkSignedDigest checks pkcs7 isdistributor).2 := by
      intro domain
      constructor
      · rintro ⟨other, pkcs7', passes', member⟩
        obtain ⟨rfl, rfl⟩ := passesWith_unique checks passes passes'
        exact member
      · exact fun member => ⟨isdistributor, pkcs7, passes, member⟩
    obtain ⟨spec, status⟩ := ca
    rw [same]
    cases spec with
    | none =>
      refine ⟨rfl, fun domain => by simp [Granted], Or.inr (Or.inl ⟨⟨passed, Or.inl rfl⟩, passes.2.2⟩)⟩
    | some spec =>
      obtain ⟨after, rc, result, granted, cleared⟩ :=
        getDomainsCb_spec (checkSignedDigest checks pkcs7 isdistributor).2 spec status
      simp only [Option.isSome_some, ↓reduceIte, result]
      refine ⟨trivial, fun domain => ?_, Or.inr ?_⟩
      · simpa [Granted, grants] using granted domain
      · rcases cleared with ⟨zero, domain, member⟩ | ⟨kept, nothing⟩
        · exact Or.inl ⟨⟨passed, Or.inr ⟨domain, (grants domain).mpr member⟩⟩, by omega⟩
        · refine Or.inr ⟨notFails, ?_, kept⟩
          rintro ⟨-, none | ⟨domain, member⟩⟩
          · simp at none
          · exact nothing domain ((grants domain).mp member)

theorem foldl_granted (order : List Visit) (ca : CheckAll) :
    (order.foldl (checkAllStep checks) ca).spec.isSome = ca.spec.isSome ∧
    ∀ domain, Granted (order.foldl (checkAllStep checks) ca).spec domain ↔
      Granted ca.spec domain ∨
        (ca.spec.isSome = true ∧ ∃ visit ∈ order, Grants checks visit domain) := by
  induction order generalizing ca with
  | nil => simp
  | cons visit rest ih =>
    obtain ⟨asked, granted, -⟩ := checkAllStep_effect checks ca visit
    obtain ⟨asked', granted'⟩ := ih (checkAllStep checks ca visit)
    refine ⟨asked'.trans asked, fun domain => ?_⟩
    rw [List.foldl_cons, granted', granted, asked]
    simp only [List.mem_cons, exists_eq_or_imp]
    tauto

theorem foldl_status_good (order : List Visit) (good : ∀ visit ∈ order, ¬Fails checks visit)
    (ca : CheckAll) (start : 0 ≤ ca.rc) : 0 ≤ (order.foldl (checkAllStep checks) ca).rc := by
  induction order generalizing ca with
  | nil => exact start
  | cons visit rest ih =>
    refine ih (fun other member => good other (List.mem_cons_of_mem visit member)) _ ?_
    rcases (checkAllStep_effect checks ca visit).2.2 with ⟨fails, -⟩ | ⟨-, cleared⟩ | ⟨-, -, kept⟩
    · exact absurd fails (good visit (by simp))
    · exact cleared
    · rw [kept]
      exact start

theorem foldl_status_bad (order : List Visit) (ca : CheckAll)
    (stuck : ∀ visit ∈ order, ¬Clears checks ca.spec.isSome visit)
    (bad : ca.rc < 0 ∨ ∃ visit ∈ order, Fails checks visit) :
    (order.foldl (checkAllStep checks) ca).rc < 0 := by
  induction order generalizing ca with
  | nil => simpa using bad
  | cons visit rest ih =>
    obtain ⟨asked, -, status⟩ := checkAllStep_effect checks ca visit
    have later : ∀ other ∈ rest, ¬Clears checks (checkAllStep checks ca visit).spec.isSome other := by
      rw [asked]
      exact fun other member => stuck other (List.mem_cons_of_mem visit member)
    refine ih _ later ?_
    rcases status with ⟨-, negative⟩ | ⟨cleared, -⟩ | ⟨good, -, kept⟩
    · exact Or.inl negative
    · exact absurd cleared (stuck visit (by simp))
    · rcases bad with negative | ⟨other, member, fails⟩
      · exact Or.inl (kept ▸ negative)
      · rcases List.mem_cons.mp member with same | inside
        · exact absurd (same ▸ fails) good
        · exact Or.inr ⟨other, inside, fails⟩

/-- Success means that all the signatures of the tree passed, the granted domains are
those of all of them, and neither depends on the order of the visits. -/
structure SignaturesAgree (tree : PathTree) (spec : Option DomainSpec) : Prop where
  pass : 0 ≤ (checkSignedDigestOfFiles checks tree spec).rc →
    ∀ visit ∈ addedVisits tree, signatureRole visit ≠ none → Passes checks visit
  union : 0 ≤ (checkSignedDigestOfFiles checks tree spec).rc → spec.isSome = true → ∀ domain,
    Granted (checkSignedDigestOfFiles checks tree spec).spec domain ↔
      Granted spec domain ∨ ∃ visit ∈ addedVisits tree, Grants checks visit domain
  anyOrder : ∀ order, order.Perm (reached tree) →
    (0 ≤ (checkInOrder checks order spec).rc ↔
      0 ≤ (checkSignedDigestOfFiles checks tree spec).rc) ∧
    ∀ domain, Granted (checkInOrder checks order spec).spec domain ↔
      Granted (checkSignedDigestOfFiles checks tree spec).spec domain

theorem checkInOrder_granted (order : List Visit) (spec : Option DomainSpec) (domain : Bytes) :
    Granted (checkInOrder checks order spec).spec domain ↔
      Granted spec domain ∨ (spec.isSome = true ∧ ∃ visit ∈ order, Grants checks visit domain) :=
  (foldl_granted checks order ⟨spec, 0⟩).2 domain

theorem checkInOrder_last (order : List Visit) (visit : Visit) (spec : Option DomainSpec) :
    (Fails checks visit → (checkInOrder checks (order ++ [visit]) spec).rc < 0) ∧
    (Clears checks spec.isSome visit → 0 ≤ (checkInOrder checks (order ++ [visit]) spec).rc) := by
  have asked := (foldl_granted checks order ⟨spec, 0⟩).1
  have status := (checkAllStep_effect checks (order.foldl (checkAllStep checks) ⟨spec, 0⟩) visit).2.2
  have last : checkInOrder checks (order ++ [visit]) spec =
      checkAllStep checks (order.foldl (checkAllStep checks) ⟨spec, 0⟩) visit := by
    simp [checkInOrder]
  rw [asked] at status
  rw [last]
  rcases status with ⟨fails, negative⟩ | ⟨cleared, positive⟩ | ⟨good, stuck, -⟩
  · exact ⟨fun _ => negative, fun cleared => absurd cleared.1 fails.2⟩
  · exact ⟨fun fails => absurd cleared.1 fails.2, fun _ => positive⟩
  · exact ⟨fun fails => absurd fails good, fun cleared => absurd cleared stuck⟩

theorem perm_last {visits : List Visit} {visit : Visit} (member : visit ∈ visits) :
    (visits.erase visit ++ [visit]).Perm visits :=
  (List.perm_append_comm).trans (List.perm_cons_erase member).symm

theorem checkInOrder_success (visits : List Visit) (spec : Option DomainSpec)
    (apart : ¬∃ bad ∈ visits, ∃ good ∈ visits, Fails checks bad ∧ Clears checks spec.isSome good) :
    0 ≤ (checkInOrder checks visits spec).rc ↔ ∀ visit ∈ visits, ¬Fails checks visit := by
  constructor
  · intro success visit member fails
    have stuck : ∀ other ∈ visits, ¬Clears checks spec.isSome other :=
      fun other known clears => apart ⟨visit, member, other, known, fails, clears⟩
    have negative := foldl_status_bad checks visits ⟨spec, 0⟩ stuck (Or.inr ⟨visit, member, fails⟩)
    unfold checkInOrder at success
    omega
  · intro good
    exact foldl_status_good checks visits good ⟨spec, 0⟩ (by simp)

/-- All of it holds when no bad and no clearing signature are both visited, and when
the signatures that the traversal does not reach change nothing. -/
theorem signaturesAgree_iff (tree : PathTree) (spec : Option DomainSpec) :
    SignaturesAgree checks tree spec ↔
      (¬∃ bad ∈ reached tree, ∃ good ∈ reached tree,
        Fails checks bad ∧ Clears checks spec.isSome good) ∧
      ((∀ visit ∈ reached tree, ¬Fails checks visit) →
        ∀ visit ∈ addedVisits tree, visit ∉ reached tree → ¬Fails checks visit ∧
          (spec.isSome = true → ∀ domain, Grants checks visit domain →
            Granted spec domain ∨ ∃ other ∈ reached tree, Grants checks other domain)) := by
  have code := checkSignedDigestOfFiles_eq checks tree spec
  have inside : ∀ visit ∈ reached tree, visit ∈ addedVisits tree :=
    fun visit member => (reached_of_added tree).subset member
  constructor
  · rintro ⟨pass, union, anyOrder⟩
    refine ⟨?_, ?_⟩
    · rintro ⟨bad, badMember, good, goodMember, fails, clears⟩
      have last := (checkInOrder_last checks ((reached tree).erase bad) bad spec).1 fails
      have last' := (checkInOrder_last checks ((reached tree).erase good) good spec).2 clears
      have success := (anyOrder _ (perm_last goodMember)).1.mp last'
      exact absurd ((anyOrder _ (perm_last badMember)).1.mpr success) (by omega)
    · intro allGood visit member missed
      have success : 0 ≤ (checkSignedDigestOfFiles checks tree spec).rc := by
        rw [code, checkInOrder]
        exact foldl_status_good checks (reached tree) allGood ⟨spec, 0⟩ (by simp)
      refine ⟨fun fails => fails.2 (pass success visit member fails.1), fun asked domain grants => ?_⟩
      have granted := (union success asked domain).mpr (Or.inr ⟨visit, member, grants⟩)
      rw [code, checkInOrder_granted] at granted
      exact granted.imp_right And.right
  · rintro ⟨apart, unreached⟩
    have status : 0 ≤ (checkSignedDigestOfFiles checks tree spec).rc ↔
        ∀ visit ∈ reached tree, ¬Fails checks visit := by
      rw [code]
      exact checkInOrder_success checks (reached tree) spec apart
    refine ⟨fun success visit member signature => ?_, fun success asked domain => ?_,
      fun order perm => ⟨?_, fun domain => ?_⟩⟩
    · have allGood := status.mp success
      have good : ¬Fails checks visit := by
        by_cases known : visit ∈ reached tree
        · exact allGood visit known
        · exact (unreached allGood visit member known).1
      by_contra fails
      exact good ⟨signature, fails⟩
    · have allGood := status.mp success
      rw [code, checkInOrder_granted]
      constructor
      · rintro (before | ⟨-, visit, member, grants⟩)
        · exact Or.inl before
        · exact Or.inr ⟨visit, inside visit member, grants⟩
      · rintro (before | ⟨visit, member, grants⟩)
        · exact Or.inl before
        · by_cases known : visit ∈ reached tree
          · exact Or.inr ⟨asked, visit, known, grants⟩
          · exact ((unreached allGood visit member known).2 asked domain grants).imp_right
              fun granted => ⟨asked, granted⟩
    · rw [status, checkInOrder_success checks order spec (by simpa only [perm.mem_iff] using apart)]
      simp only [perm.mem_iff]
    · rw [code, checkInOrder_granted, checkInOrder_granted]
      simp only [perm.mem_iff]

end

/-- A tree of two distributor signatures, the first of which cannot be read. -/
def twoSignatures : PathTree :=
  (pathEntryAddLength (pathEntryAddLength pathEntryCreateRoot (ascii "signature-a.p7") 14).2
    (ascii "signature-b.p7") 14).2

def secondReadable : SignatureChecks Unit where
  readFile file := if file = ascii "signature-b.p7" then .ok [] else .error ⟨-ENOENT, ENOENT_failure⟩
  pkcs7Import _ := some ()
  embeddedData _ := some []
  checkDigest _ _ := 0
  checkSignature _ := (0, [⟨.grants, ascii "d"⟩])

def unreadable : Visit where
  entry := ⟨[ascii "signature-a.p7"], [⟨[], false, false⟩], ⟨ascii "signature-a.p7", true, false⟩, .null⟩
  path := ascii "signature-a.p7"

theorem unreadable_signature_forgotten : ¬SignaturesAgree secondReadable twoSignatures (some .initial) := by
  intro agree
  have success : 0 ≤ (checkSignedDigestOfFiles secondReadable twoSignatures (some .initial)).rc := by
    decide +kernel
  have known : unreadable ∈ addedVisits twoSignatures := by decide +kernel
  obtain ⟨_, _, _, read, _⟩ := agree.pass success unreadable known (by decide +kernel)
  have missing : (readPkcs7 secondReadable unreadable.path).isOk = false := by decide +kernel
  rw [read] at missing
  cases missing

end AppManager.Cert
