import AppManager.Cert.CommonCert
import Mathlib.Data.Fintype.EquivFin
import Mathlib.Data.List.FinRange
import Mathlib.Logic.Equiv.Basic

/-! The sort of certificates. A swap puts at a place the issuer of what was there, so that
the search for one place climbs a chain of issuers. -/

namespace AppManager.Cert
open AppManager.Lib Relation

section
variable {Crt : Type} (gnutls : Gnutls Crt) (verify : Bool) {nrcerts : Nat}

/-- The inner loop. It has no bound of its own, so the model takes fuel: `none` means
that it is still running. -/
def sortPlace : Nat → (Fin nrcerts → Crt) → Fin nrcerts → Nat → Option (Fin nrcerts → Crt)
  | 0, _, _, _ => none
  | fuel + 1, certs, cnt, idx =>
    if inside : idx < nrcerts then
      if !isIssuer gnutls (certs cnt) (certs ⟨idx, inside⟩) verify then sortPlace fuel certs cnt (idx + 1)
      else sortPlace fuel (certs ∘ Equiv.swap cnt ⟨idx, inside⟩) cnt (cnt + 1)
    else some certs

def sortCerts (fuel : Nat) (certs : Fin nrcerts → Crt) : Option (Fin nrcerts → Crt) :=
  (List.finRange nrcerts).foldlM (fun certs cnt => sortPlace gnutls verify fuel certs cnt (cnt + 1)) certs

/-- The certificate at a position is issued by the one at another position. -/
def IssuedBy (certs : Fin nrcerts → Crt) (cert issuer : Fin nrcerts) : Prop :=
  cert ≠ issuer ∧ isIssuer gnutls (certs cert) (certs issuer) verify = true

/-- No certificate at a later position issued the one at this position. -/
def Settled (certs : Fin nrcerts → Crt) (place : Fin nrcerts) : Prop :=
  ∀ later, place < later → isIssuer gnutls (certs place) (certs later) verify = false

variable {gnutls verify}

/-- Where the first places stay, what is behind them stays behind them. -/
theorem Settled.kept {certs : Fin nrcerts → Crt} {places places' : Equiv.Perm (Fin nrcerts)} {place : Fin nrcerts}
    (settled : Settled gnutls verify (certs ∘ places) place) (same : ∀ first ≤ place, places' first = places first) :
    Settled gnutls verify (certs ∘ places') place := by
  intro later behind
  have origin : places (places.symm (places' later)) = places' later := places.apply_symm_apply _
  have after : place < places.symm (places' later) := by
    by_contra before
    have equal := same _ (not_lt.mp before)
    rw [origin] at equal
    rw [places'.injective equal] at before
    exact before behind
  have unissued := settled _ after
  rw [Function.comp_apply, Function.comp_apply, origin] at unissued
  rw [Function.comp_apply, Function.comp_apply, same place le_rfl]
  exact unissued

theorem sortPlace_settles {certs : Fin nrcerts → Crt}
    (acyclic : ∀ cert, ¬TransGen (IssuedBy gnutls verify certs) cert cert) (cnt : Fin nrcerts)
    (places : Equiv.Perm (Fin nrcerts)) :
    ∃ places' : Equiv.Perm (Fin nrcerts), (∃ enough, ∀ fuel ≥ enough,
        sortPlace gnutls verify fuel (certs ∘ places) cnt (cnt + 1) = some (certs ∘ places')) ∧
      (∀ first < cnt, places' first = places first) ∧ Settled gnutls verify (certs ∘ places') cnt := by
  suffices climb : ∀ cert (places : Equiv.Perm (Fin nrcerts)), places cnt = cert → ∀ idx, cnt.val < idx →
      (∀ later : Fin nrcerts, cnt < later → later.val < idx →
        isIssuer gnutls (certs (places cnt)) (certs (places later)) verify = false) →
      ∃ places' : Equiv.Perm (Fin nrcerts), (∃ enough, ∀ fuel ≥ enough,
          sortPlace gnutls verify fuel (certs ∘ places) cnt idx = some (certs ∘ places')) ∧
        (∀ first < cnt, places' first = places first) ∧ Settled gnutls verify (certs ∘ places') cnt by
    refine climb (places cnt) places rfl (cnt + 1) (Nat.lt_succ_self _) fun later behind before => ?_
    exact absurd behind (not_lt.mpr (Fin.le_def.mpr (Nat.lt_succ_iff.mp before)))
  -- A swap moves the place to an issuer, and there is no infinite chain of issuers.
  intro cert
  induction cert using (Walk.founded_of_acyclic acyclic).induction with
  | _ cert climbed =>
    intro places here idx behind passed
    induction remaining : nrcerts - idx generalizing idx with
    | zero =>
      refine ⟨places, ⟨1, fun fuel enough => ?_⟩, fun first _ => rfl, fun later after => ?_⟩
      · obtain ⟨fuel, rfl⟩ := Nat.exists_eq_add_of_le' enough
        rw [sortPlace, dif_neg (by omega)]
      · exact passed later after (by have := later.isLt; omega)
    | succ remaining scanned =>
      have inside : idx < nrcerts := by omega
      cases issued : isIssuer gnutls (certs (places cnt)) (certs (places ⟨idx, inside⟩)) verify with
      | false =>
        obtain ⟨places', ⟨enough, run⟩, kept, settled⟩ := scanned (idx + 1) (by omega) (by
          intro later after before
          rcases Nat.lt_succ_iff_lt_or_eq.mp before with before | equal
          · exact passed later after before
          · rw [show later = ⟨idx, inside⟩ from Fin.ext equal]
            exact issued) (by omega)
        refine ⟨places', ⟨enough + 1, fun fuel more => ?_⟩, kept, settled⟩
        obtain ⟨fuel, rfl⟩ : ∃ previous, fuel = previous + 1 := ⟨fuel - 1, by omega⟩
        rw [sortPlace, dif_pos inside, Function.comp_apply, Function.comp_apply, issued]
        exact run fuel (by omega)
      | true =>
        have apart : places cnt ≠ places ⟨idx, inside⟩ := by
          intro equal
          have same := congrArg Fin.val (places.injective equal)
          simp only at same
          omega
        have first := climbed (places ⟨idx, inside⟩)
          (TransGen.single (by rw [← here]; exact ⟨apart, issued⟩))
          (Equiv.swap cnt ⟨idx, inside⟩ |>.trans places)
          (by rw [Equiv.trans_apply, Equiv.swap_apply_left]) (cnt + 1) (Nat.lt_succ_self _)
          fun later after before => absurd after (not_lt.mpr (Fin.le_def.mpr (Nat.lt_succ_iff.mp before)))
        obtain ⟨places', ⟨enough, run⟩, kept, settled⟩ := first
        refine ⟨places', ⟨enough + 1, fun fuel more => ?_⟩, fun earlier before => ?_, settled⟩
        · obtain ⟨fuel, rfl⟩ : ∃ previous, fuel = previous + 1 := ⟨fuel - 1, by omega⟩
          rw [sortPlace, dif_pos inside, Function.comp_apply, Function.comp_apply, issued]
          exact run fuel (by omega)
        · rw [kept earlier before, Equiv.trans_apply, Equiv.swap_apply_of_ne_of_ne]
          · exact ne_of_lt before
          · intro equal
            rw [equal] at before
            exact absurd (Fin.lt_def.mp before) (by simp only; omega)

theorem sortPlaces_settle {certs : Fin nrcerts → Crt}
    (acyclic : ∀ cert, ¬TransGen (IssuedBy gnutls verify certs) cert cert) (rest done : List (Fin nrcerts))
    (whole : List.finRange nrcerts = done ++ rest) (places : Equiv.Perm (Fin nrcerts))
    (settled : ∀ place ∈ done, Settled gnutls verify (certs ∘ places) place) :
    ∃ places' : Equiv.Perm (Fin nrcerts), (∃ enough, ∀ fuel ≥ enough,
        rest.foldlM (fun certs cnt => sortPlace gnutls verify fuel certs cnt (cnt + 1)) (certs ∘ places) =
          some (certs ∘ places')) ∧
      ∀ place, Settled gnutls verify (certs ∘ places') place := by
  induction rest generalizing done places with
  | nil =>
    refine ⟨places, ⟨0, fun _ _ => rfl⟩, fun place => settled place ?_⟩
    rw [List.append_nil] at whole
    exact whole ▸ List.mem_finRange place
  | cons cnt rest ih =>
    obtain ⟨places', ⟨enough, run⟩, kept, here⟩ := sortPlace_settles acyclic cnt places
    have ordered : (done ++ cnt :: rest).Pairwise (· < ·) := whole ▸ List.pairwise_lt_finRange nrcerts
    obtain ⟨places'', ⟨enough', run'⟩, all⟩ := ih (done ++ [cnt]) (by rw [whole, List.append_assoc]; rfl) places' (by
      intro place member
      rcases List.mem_append.mp member with earlier | last
      · have before : place < cnt := (List.pairwise_append.mp ordered).2.2 place earlier cnt List.mem_cons_self
        exact (settled place earlier).kept fun first least => kept first (lt_of_le_of_lt least before)
      · rw [List.mem_singleton.mp last]
        exact here)
    refine ⟨places'', ⟨max enough enough', fun fuel more => ?_⟩, all⟩
    rw [List.foldlM_cons, run fuel (le_trans (le_max_left _ _) more)]
    exact run' fuel (le_trans (le_max_right _ _) more)

variable (gnutls verify)

/-- Without cycle of issuers, the sort ends on an order of the same certificates in which none issued one that
is before it. -/
theorem sortCerts_sorts (certs : Fin nrcerts → Crt)
    (acyclic : ∀ cert, ¬TransGen (IssuedBy gnutls verify certs) cert cert) :
    ∃ sorted, (∃ enough, ∀ fuel ≥ enough, sortCerts gnutls verify fuel certs = some sorted) ∧
      (∃ places : Equiv.Perm (Fin nrcerts), sorted = certs ∘ places) ∧
      ∀ first later, first < later → isIssuer gnutls (sorted first) (sorted later) verify = false := by
  obtain ⟨places, run, settled⟩ :=
    sortPlaces_settle acyclic (List.finRange nrcerts) [] rfl (Equiv.refl _) (fun _ => nofun)
  exact ⟨certs ∘ places, run, ⟨places, rfl⟩, settled⟩

end

/-- A leaf, the authority that issued it, and the root, which issued the authority and itself. -/
def chainAnswers : Gnutls (Fin 3) where
  crtCheckIssuer cert issuer := issuer.val = cert.val + 1 ∨ (cert = 2 ∧ issuer = 2)
  crtVerify _ _ := (0, 0)
  crtGetExtensionByOid _ := .requestedDataNotAvailable

theorem sortCerts_sorts_chain : ∃ sorted : Fin 3 → Fin 3,
    (∃ enough, ∀ fuel ≥ enough, sortCerts chainAnswers true fuel id = some sorted) ∧
      (∃ places : Equiv.Perm (Fin 3), sorted = id ∘ places) ∧
      ∀ first later, first < later → isIssuer chainAnswers (sorted first) (sorted later) true = false := by
  apply sortCerts_sorts chainAnswers true id
  have step : ∀ cert issuer, IssuedBy chainAnswers true (id : Fin 3 → Fin 3) cert issuer → cert < issuer := by
    unfold IssuedBy
    decide
  have higher : ∀ cert issuer, TransGen (IssuedBy chainAnswers true (id : Fin 3 → Fin 3)) cert issuer →
      cert < issuer := by
    intro cert issuer chain
    induction chain with
    | single issued => exact step _ _ issued
    | tail _ issued less => exact less.trans (step _ _ issued)
  exact fun cert cycle => lt_irrefl cert (higher cert cert cycle)

end AppManager.Cert
