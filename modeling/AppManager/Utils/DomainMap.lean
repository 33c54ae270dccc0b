import AppManager.Utils.DomainSpec
import Mathlib.Data.List.Induction
import Mathlib.Logic.Function.Basic

/-! A specification as a finite map from names to permissions, and what any sequence of
calls on any specifications of a program makes of these maps. -/

namespace AppManager.Utils
open AppManager.Lib AppManager.Lib.Libc

abbrev DomainMap := Bytes → Option DomainPermission

namespace DomainMap

/-- The permission `none` removes the key, and a code that is no permission changes nothing. -/
def set (map : DomainMap) (perm : Int) (key : Bytes) : DomainMap :=
  match DomainPermission.ofCode perm with
  | none => map
  | some .none => Function.update map key none
  | some perm => Function.update map key (some perm)

def addGrantings (map source : DomainMap) : DomainMap :=
  fun name => if source name = some .grants then some .grants else map name

end DomainMap

namespace DomainSpec

def Distinct (spec : DomainSpec) : Prop := (spec.map Domain.name).Nodup

instance (spec : DomainSpec) : Decidable spec.Distinct := inferInstanceAs (Decidable (spec.map Domain.name).Nodup)

end DomainSpec

theorem permissionOf_isSome (spec : DomainSpec) (name : Bytes) :
    (permissionOf spec name).isSome ↔ name ∈ spec.map Domain.name := by
  induction spec with
  | nil => simp
  | cons dom rest ih =>
    rw [permissionOf_cons, List.map_cons, List.mem_cons]
    by_cases here : dom.name = name
    · simp [here]
    · rw [if_neg here, ih]
      exact (or_iff_right fun same => here same.symm).symm

theorem getDomainLen_isSome (spec : DomainSpec) (domain : Bytes) (length : Nat) :
    (getDomainLen spec domain length).isSome = (permissionOf spec (domain.take length)).isSome := by
  rw [permissionOf, Option.isSome_map, getDomain, getDomainLen, getDomainLen, List.take_length]

theorem permissionOf_none {spec : DomainSpec} {name : Bytes} (fresh : name ∉ spec.map Domain.name) :
    permissionOf spec name = none := by
  rw [← permissionOf_isSome, Bool.not_eq_true, Option.isSome_eq_false_iff, Option.isNone_iff_eq_none] at fresh
  exact fresh

theorem names_setPermission (key : Bytes) (perm : DomainPermission) (spec : DomainSpec) :
    (setPermission key perm spec).map Domain.name = spec.map Domain.name := by
  induction spec with
  | nil => rfl
  | cons dom rest ih =>
    rw [setPermission]
    split
    · rfl
    · rw [List.map_cons, ih, List.map_cons]

theorem distinct_push {spec : DomainSpec} (distinct : spec.Distinct) {name : Bytes} (perm : DomainPermission)
    (fresh : (permissionOf spec name).isSome = false) : DomainSpec.Distinct (⟨perm, name⟩ :: spec) := by
  apply List.nodup_cons.mpr
  refine ⟨fun member => ?_, distinct⟩
  rw [← permissionOf_isSome, fresh] at member
  exact absurd member Bool.false_ne_true

theorem permissionOf_erase {spec : DomainSpec} (distinct : spec.Distinct) (key : Bytes) :
    permissionOf (spec.eraseP fun dom => dom.name = key) = Function.update (permissionOf spec) key none := by
  funext name
  rw [Function.update_apply]
  induction spec with
  | nil => simp
  | cons dom rest ih =>
    obtain ⟨fresh, distinct'⟩ := List.nodup_cons.mp distinct
    rw [List.eraseP_cons, permissionOf_cons]
    by_cases here : dom.name = key
    · rw [cond_eq_ite, if_pos (decide_eq_true here)]
      by_cases same : name = key
      · rw [if_pos same, same, ← here]
        exact permissionOf_none fresh
      · rw [if_neg same, if_neg fun equal => same (equal.symm.trans here)]
    · rw [cond_eq_ite, if_neg (by simpa using here), permissionOf_cons, ih distinct']
      by_cases same : name = key
      · rw [if_pos same, if_pos same, if_neg fun equal => here (equal.trans same)]
      · rw [if_neg same, if_neg same]

theorem distinct_erase {spec : DomainSpec} (distinct : spec.Distinct) (key : Bytes) :
    DomainSpec.Distinct (spec.eraseP fun dom => dom.name = key) :=
  distinct.sublist (List.Sublist.map _ List.eraseP_sublist)

theorem distinct_setPermission {spec : DomainSpec} (distinct : spec.Distinct) (key : Bytes)
    (perm : DomainPermission) : DomainSpec.Distinct (setPermission key perm spec) := by
  rw [DomainSpec.Distinct, names_setPermission]
  exact distinct

/-- What a call with a permission to give does: the name that is searched is `length` bytes long
and the name that is inserted is the whole domain. -/
theorem domainSpecSetLen_given (spec : DomainSpec) {perm : Int} {given : DomainPermission} (domain : Bytes)
    (length : Nat) (valid : DomainPermission.ofCode perm = some given) (kept : given ≠ .none) :
    domainSpecSetLen spec perm domain length =
      if (permissionOf spec (domain.take length)).isSome then (0, setPermission (domain.take length) given spec)
      else (0, ⟨given, domain⟩ :: spec) := by
  unfold domainSpecSetLen addDomain addDomainLen
  rw [valid, getDomainLen_isSome, List.take_length]
  cases given with
  | none => exact absurd rfl kept
  | grants => rfl
  | auth => rfl
  | root => rfl

theorem DomainMap.set_given (map : DomainMap) {perm : Int} {given : DomainPermission} (key : Bytes)
    (valid : DomainPermission.ofCode perm = some given) (kept : given ≠ .none) :
    map.set perm key = Function.update map key (some given) := by
  rw [DomainMap.set, valid]
  cases given with
  | none => exact absurd rfl kept
  | grants => rfl
  | auth => rfl
  | root => rfl

/-- A call asks for the key that it would insert, or it inserts nothing. -/
def ExactKey (spec : DomainSpec) (perm : Int) (domain : Bytes) (length : Nat) : Prop :=
  domain.take length = domain ∨ (permissionOf spec (domain.take length)).isSome ∨
    DomainPermission.ofCode perm = none ∨ DomainPermission.ofCode perm = some .none

theorem distinct_domainSpecSetLen {spec : DomainSpec} (distinct : spec.Distinct) {perm : Int} {domain : Bytes}
    {length : Nat} (exact : ExactKey spec perm domain length) :
    (domainSpecSetLen spec perm domain length).2.Distinct := by
  cases valid : DomainPermission.ofCode perm with
  | none =>
    rw [domainSpecSetLen, valid]
    exact distinct
  | some given =>
    by_cases kept : given = .none
    · rw [domainSpecSetLen, valid, kept]
      exact distinct_erase distinct _
    · rw [domainSpecSetLen_given spec domain length valid kept]
      by_cases known : (permissionOf spec (domain.take length)).isSome
      · rw [if_pos known]
        exact distinct_setPermission distinct _ given
      · rw [if_neg known]
        have whole : domain.take length = domain := by
          rcases exact with whole | known' | invalid | removed
          · exact whole
          · exact absurd known' known
          · exact absurd (valid.symm.trans invalid) (Option.some_ne_none given)
          · exact absurd (Option.some.inj (valid.symm.trans removed)) kept
        rw [whole] at known
        exact distinct_push distinct given (Bool.eq_false_of_not_eq_true known)

theorem permissionOf_domainSpecSetLen {spec : DomainSpec} (distinct : spec.Distinct) (perm : Int) (domain : Bytes)
    (length : Nat) :
    permissionOf (domainSpecSetLen spec perm domain length).2 =
      DomainMap.set (permissionOf spec) perm (domain.take length) ↔ ExactKey spec perm domain length := by
  cases valid : DomainPermission.ofCode perm with
  | none =>
    rw [domainSpecSetLen, DomainMap.set, valid]
    exact iff_of_true rfl (Or.inr (Or.inr (Or.inl valid)))
  | some given =>
    by_cases kept : given = .none
    · rw [domainSpecSetLen, DomainMap.set, valid, kept]
      exact iff_of_true (permissionOf_erase distinct _) (Or.inr (Or.inr (Or.inr (valid.trans (by rw [kept])))))
    · rw [domainSpecSetLen_given spec domain length valid kept, DomainMap.set_given _ _ valid kept]
      by_cases known : (permissionOf spec (domain.take length)).isSome
      · rw [if_pos known]
        refine iff_of_true ?_ (Or.inr (Or.inl known))
        funext name
        rw [permissionOf_setPermission _ given spec name known, Function.update_apply]
        simp only [eq_comm]
      · rw [if_neg known]
        constructor
        · intro same
          have there := congrFun same (domain.take length)
          rw [Function.update_self, permissionOf_cons] at there
          by_cases whole : domain = domain.take length
          · exact Or.inl whole.symm
          · rw [if_neg whole] at there
            exact absurd (by rw [there]; rfl) known
        · rintro (whole | known' | invalid | removed)
          · funext name
            rw [whole, permissionOf_cons, Function.update_apply]
            simp only [eq_comm]
          · exact absurd known' known
          · exact absurd (valid.symm.trans invalid) (Option.some_ne_none given)
          · exact absurd (Option.some.inj (valid.symm.trans removed)) kept

theorem domainSpecSetLen_rc (spec : DomainSpec) (perm : Int) (domain : Bytes) (length : Nat) :
    (domainSpecSetLen spec perm domain length).1 =
      if (DomainPermission.ofCode perm).isSome then 0 else -EINVAL := by
  cases valid : DomainPermission.ofCode perm with
  | none =>
    rw [domainSpecSetLen, valid]
    rfl
  | some given =>
    by_cases kept : given = .none
    · rw [domainSpecSetLen, valid, kept]
      rfl
    · rw [domainSpecSetLen_given spec domain length valid kept]
      split <;> rfl

theorem addGrantings_step {spec : DomainSpec} (distinct : spec.Distinct) (name : Bytes) :
    ∃ spec', (if (getDomain spec name).isSome then ((0 : Int), setPermission name .grants spec)
        else addDomain spec .grants name) = (0, spec') ∧
      spec'.Distinct ∧ permissionOf spec' = Function.update (permissionOf spec) name (some .grants) := by
  have given : domainSpecSet spec DomainPermission.grants.code name = _ :=
    domainSpecSet_eq spec .grants name (by decide)
  have exact : ExactKey spec DomainPermission.grants.code name name.length := Or.inl (List.take_length)
  have distinct' := distinct_domainSpecSetLen distinct exact
  have map := (permissionOf_domainSpecSetLen distinct _ _ _).mpr exact
  rw [← domainSpecSet, given] at distinct' map
  rw [addDomain, addDomainLen, List.take_length]
  refine ⟨_, ?_, distinct', ?_⟩
  · split <;> rfl
  · rw [map, List.take_length]
    rfl

theorem addGrantings_fold (source : DomainSpec) {spec : DomainSpec} (distinct : spec.Distinct) :
    ∃ spec', source.foldl (fun (result : Int × DomainSpec) domfr =>
        if result.1 = 0 ∧ domfr.permission = .grants then
          if (getDomain result.2 domfr.name).isSome then (0, setPermission domfr.name .grants result.2)
          else addDomain result.2 .grants domfr.name
        else result) (0, spec) = (0, spec') ∧
      spec'.Distinct ∧ ∀ name, permissionOf spec' name =
        if (⟨.grants, name⟩ : Domain) ∈ source then some .grants else permissionOf spec name := by
  induction source generalizing spec with
  | nil => exact ⟨spec, rfl, distinct, fun name => (if_neg List.not_mem_nil).symm⟩
  | cons dom rest ih =>
    obtain ⟨permission, key⟩ := dom
    rw [List.foldl_cons]
    by_cases granted : permission = .grants
    · obtain ⟨middle, step, distinct', map⟩ := addGrantings_step distinct key
      obtain ⟨spec', run, distinct'', map'⟩ := ih distinct'
      rw [if_pos ⟨rfl, granted⟩, step]
      refine ⟨spec', run, distinct'', fun name => ?_⟩
      rw [map', map, Function.update_apply]
      by_cases later : (⟨.grants, name⟩ : Domain) ∈ rest
      · rw [if_pos later, if_pos (List.mem_cons_of_mem _ later)]
      · by_cases here : name = key
        · rw [if_neg later, if_pos here, if_pos (by simp [here, granted])]
        · rw [if_neg later, if_neg here, if_neg (by simp [here, later])]
    · obtain ⟨spec', run, distinct', map⟩ := ih distinct
      rw [if_neg fun both => granted both.2]
      refine ⟨spec', run, distinct', fun name => ?_⟩
      have other : (⟨.grants, name⟩ : Domain) ≠ ⟨permission, key⟩ :=
        fun same => granted (congrArg Domain.permission same).symm
      rw [map]
      simp only [List.mem_cons, other, false_or]

theorem granted_mem {spec : DomainSpec} (distinct : spec.Distinct) (perm : DomainPermission) (name : Bytes) :
    (⟨perm, name⟩ : Domain) ∈ spec ↔ permissionOf spec name = some perm := by
  induction spec with
  | nil => simp
  | cons dom rest ih =>
    obtain ⟨fresh, distinct'⟩ := List.nodup_cons.mp distinct
    rw [List.mem_cons, permissionOf_cons]
    by_cases here : dom.name = name
    · have elsewhere : (⟨perm, name⟩ : Domain) ∉ rest := fun member =>
        fresh (here ▸ List.mem_map_of_mem (f := Domain.name) member)
      rw [if_pos here, or_iff_left elsewhere, Option.some.injEq]
      exact ⟨fun same => (congrArg Domain.permission same).symm, fun same => by rw [← here, ← same]⟩
    · rw [if_neg here, ← ih distinct']
      exact or_iff_right fun same => here (congrArg Domain.name same).symm

theorem domainSpecAddGrantings_spec {into source : DomainSpec} (distinct : into.Distinct)
    (distinct' : source.Distinct) :
    (domainSpecAddGrantings into source).1 = 0 ∧ (domainSpecAddGrantings into source).2.Distinct ∧
      permissionOf (domainSpecAddGrantings into source).2 =
        DomainMap.addGrantings (permissionOf into) (permissionOf source) := by
  obtain ⟨spec', run, kept, map⟩ := addGrantings_fold source distinct
  rw [domainSpecAddGrantings, run]
  refine ⟨rfl, kept, ?_⟩
  funext name
  rw [map, DomainMap.addGrantings]
  simp only [granted_mem distinct']

/-- A call on the specifications of a program, each known by its number. -/
inductive SpecCall where
  | set (spec : Nat) (perm : Int) (domain : Bytes)
  | setLen (spec : Nat) (perm : Int) (domain : Bytes) (length : Nat)
  | addGrantings (into source : Nat)
  deriving DecidableEq, Repr

namespace SpecCall

def run (specs : Nat → DomainSpec) : SpecCall → Int × (Nat → DomainSpec)
  | set spec perm domain =>
    let (rc, changed) := domainSpecSet (specs spec) perm domain
    (rc, Function.update specs spec changed)
  | setLen spec perm domain length =>
    let (rc, changed) := domainSpecSetLen (specs spec) perm domain length
    (rc, Function.update specs spec changed)
  | addGrantings into source =>
    let (rc, changed) := domainSpecAddGrantings (specs into) (specs source)
    (rc, Function.update specs into changed)

def runAll (specs : Nat → DomainSpec) : List SpecCall → List Int × (Nat → DomainSpec)
  | [] => ([], specs)
  | call :: rest =>
    let (rc, specs) := call.run specs
    let (rcs, specs) := runAll specs rest
    (rc :: rcs, specs)

def answer : SpecCall → Int
  | set _ perm _ => if (DomainPermission.ofCode perm).isSome then 0 else -EINVAL
  | setLen _ perm _ _ => if (DomainPermission.ofCode perm).isSome then 0 else -EINVAL
  | addGrantings _ _ => 0

def update (maps : Nat → DomainMap) : SpecCall → Nat → DomainMap
  | set spec perm domain => Function.update maps spec ((maps spec).set perm domain)
  | setLen spec perm domain length => Function.update maps spec ((maps spec).set perm (domain.take length))
  | addGrantings into source => Function.update maps into ((maps into).addGrantings (maps source))

def Exact (specs : Nat → DomainSpec) : SpecCall → Prop
  | setLen spec perm domain length => ExactKey (specs spec) perm domain length
  | _ => True

def AllExact (specs : Nat → DomainSpec) : List SpecCall → Prop
  | [] => True
  | call :: rest => call.Exact specs ∧ AllExact (call.run specs).2 rest

end SpecCall

def mapsOf (specs : Nat → DomainSpec) : Nat → DomainMap := fun spec => permissionOf (specs spec)

theorem mapsOf_update (specs : Nat → DomainSpec) (spec : Nat) (changed : DomainSpec) :
    mapsOf (Function.update specs spec changed) = Function.update (mapsOf specs) spec (permissionOf changed) := by
  funext other
  rw [mapsOf, Function.update_apply, Function.update_apply]
  split <;> rfl

/-- What the specifications hold after some calls, and what the calls answered. -/
structure Denotes (specs : Nat → DomainSpec) (calls : List SpecCall) : Prop where
  answers : (SpecCall.runAll specs calls).1 = calls.map SpecCall.answer
  distinct : ∀ spec, ((SpecCall.runAll specs calls).2 spec).Distinct
  maps : mapsOf (SpecCall.runAll specs calls).2 = calls.foldl SpecCall.update (mapsOf specs)
  granting : ∀ spec name, isDomainSpecGranting ((SpecCall.runAll specs calls).2 spec) name = true ↔
    calls.foldl SpecCall.update (mapsOf specs) spec name = some .grants

theorem distinct_update {specs : Nat → DomainSpec} (distinct : ∀ spec, (specs spec).Distinct) (spec : Nat)
    {changed : DomainSpec} (kept : changed.Distinct) :
    ∀ other, (Function.update specs spec changed other).Distinct := by
  intro other
  rw [Function.update_apply]
  split
  · exact kept
  · exact distinct other

namespace SpecCall

theorem run_spec {specs : Nat → DomainSpec} (distinct : ∀ spec, (specs spec).Distinct) {call : SpecCall}
    (exact : call.Exact specs) :
    (call.run specs).1 = call.answer ∧ (∀ spec, ((call.run specs).2 spec).Distinct) ∧
      mapsOf (call.run specs).2 = call.update (mapsOf specs) := by
  have lengthwise : ∀ spec perm domain length, ExactKey (specs spec) perm domain length →
      (run specs (setLen spec perm domain length)).1 = answer (setLen spec perm domain length) ∧
      (∀ other, ((run specs (setLen spec perm domain length)).2 other).Distinct) ∧
      mapsOf (run specs (setLen spec perm domain length)).2 =
        update (mapsOf specs) (setLen spec perm domain length) := by
    intro spec perm domain length exact
    refine ⟨domainSpecSetLen_rc _ _ _ _,
      distinct_update distinct spec (distinct_domainSpecSetLen (distinct spec) exact), ?_⟩
    rw [run, mapsOf_update, (permissionOf_domainSpecSetLen (distinct spec) perm domain length).mpr exact]
    rfl
  cases call with
  | set spec perm domain =>
    have whole := lengthwise spec perm domain domain.length (Or.inl List.take_length)
    rw [update, List.take_length] at whole
    exact whole
  | setLen spec perm domain length => exact lengthwise spec perm domain length exact
  | addGrantings into source =>
    obtain ⟨rc, kept, map⟩ := domainSpecAddGrantings_spec (distinct into) (distinct source)
    refine ⟨rc, distinct_update distinct into kept, ?_⟩
    rw [run, mapsOf_update, map]
    rfl

theorem exact_of_maps {specs : Nat → DomainSpec} (distinct : ∀ spec, (specs spec).Distinct) {call : SpecCall}
    (maps : mapsOf (call.run specs).2 = call.update (mapsOf specs)) : call.Exact specs := by
  cases call with
  | set spec perm domain => trivial
  | addGrantings into source => trivial
  | setLen spec perm domain length =>
    rw [run, mapsOf_update, update] at maps
    have there := congrFun maps spec
    rw [Function.update_self, Function.update_self] at there
    exact (permissionOf_domainSpecSetLen (distinct spec) perm domain length).mp there

theorem runAll_spec (calls : List SpecCall) {specs : Nat → DomainSpec} (distinct : ∀ spec, (specs spec).Distinct)
    (exact : AllExact specs calls) :
    (runAll specs calls).1 = calls.map answer ∧ (∀ spec, ((runAll specs calls).2 spec).Distinct) ∧
      mapsOf (runAll specs calls).2 = calls.foldl update (mapsOf specs) := by
  induction calls generalizing specs with
  | nil => exact ⟨rfl, distinct, rfl⟩
  | cons call rest ih =>
    obtain ⟨rc, kept, maps⟩ := run_spec distinct exact.1
    obtain ⟨rcs, kept', maps'⟩ := ih kept exact.2
    refine ⟨?_, kept', ?_⟩
    · rw [runAll, List.map_cons, ← rc, ← rcs]
    · rw [runAll, List.foldl_cons, ← maps]
      exact maps'

theorem runAll_append (calls more : List SpecCall) (specs : Nat → DomainSpec) :
    (runAll specs (calls ++ more)).2 = (runAll (runAll specs calls).2 more).2 := by
  induction calls generalizing specs with
  | nil => rfl
  | cons call rest ih => exact ih (call.run specs).2

theorem allExact_append (calls more : List SpecCall) (specs : Nat → DomainSpec) :
    AllExact specs (calls ++ more) ↔ AllExact specs calls ∧ AllExact (runAll specs calls).2 more := by
  induction calls generalizing specs with
  | nil => exact (and_iff_right trivial).symm
  | cons call rest ih =>
    rw [List.cons_append, AllExact, AllExact, ih, and_assoc]
    rfl

end SpecCall

theorem Denotes.of_allExact {calls : List SpecCall} {specs : Nat → DomainSpec}
    (distinct : ∀ spec, (specs spec).Distinct) (exact : SpecCall.AllExact specs calls) : Denotes specs calls := by
  obtain ⟨answers, kept, maps⟩ := SpecCall.runAll_spec calls distinct exact
  refine ⟨answers, kept, maps, fun spec name => ?_⟩
  rw [isDomainSpecGranting_iff, ← maps]
  rfl

/-- The specifications are the maps that the calls ask for, in every state of a run, exactly when
no call of the run inserts a longer name than its key. -/
theorem specCalls_denote (calls : List SpecCall) (specs : Nat → DomainSpec)
    (distinct : ∀ spec, (specs spec).Distinct) :
    (∀ before, before <+: calls → Denotes specs before) ↔ SpecCall.AllExact specs calls := by
  constructor
  · intro denotes
    induction calls using List.reverseRecOn with
    | nil => trivial
    | append_singleton calls call ih =>
      have exact : SpecCall.AllExact specs calls :=
        ih fun before inside => denotes before (inside.trans (List.prefix_append calls [call]))
      have whole := (denotes _ (List.prefix_refl (calls ++ [call]))).maps
      have sofar := (Denotes.of_allExact distinct exact).maps
      rw [SpecCall.runAll_append, List.foldl_append, ← sofar] at whole
      have kept := (Denotes.of_allExact distinct exact).distinct
      exact (SpecCall.allExact_append calls [call] specs).mpr ⟨exact, SpecCall.exact_of_maps kept whole, trivial⟩
  · rintro exact before ⟨after, rfl⟩
    exact Denotes.of_allExact distinct ((SpecCall.allExact_append before after specs).mp exact).1

/-- A certificate is granted a domain by its length, then another specification takes its grantings. -/
theorem specCalls_denote_granted :
    Denotes (fun _ => []) [.setLen 0 1 (ascii "appfw") 5, .addGrantings 1 0, .setLen 0 0 (ascii "appfw+") 5] :=
  (specCalls_denote [.setLen 0 1 (ascii "appfw") 5, .addGrantings 1 0, .setLen 0 0 (ascii "appfw+") 5]
    (fun _ => []) fun _ => List.nodup_nil).mpr
    ⟨Or.inl rfl, trivial, Or.inr (Or.inr (Or.inr rfl)), trivial⟩ _ (List.prefix_refl _)

/-- The key of one byte is asked twice: the name of two bytes is inserted twice. -/
theorem specCalls_lengthen :
    (SpecCall.runAll (fun _ => []) [.setLen 0 1 (ascii "ab") 1, .setLen 0 1 (ascii "ab") 1]).2 0 =
        [⟨.grants, ascii "ab"⟩, ⟨.grants, ascii "ab"⟩] ∧
      permissionOf ((SpecCall.runAll (fun _ => []) [.setLen 0 1 (ascii "ab") 1]).2 0) (ascii "a") = none ∧
      ¬Denotes (fun _ => []) [.setLen 0 1 (ascii "ab") 1, .setLen 0 1 (ascii "ab") 1] := by
  have twice : (SpecCall.runAll (fun _ => []) [.setLen 0 1 (ascii "ab") 1, .setLen 0 1 (ascii "ab") 1]).2 0 =
      [⟨.grants, ascii "ab"⟩, ⟨.grants, ascii "ab"⟩] := rfl
  refine ⟨twice, rfl, fun denotes => ?_⟩
  have distinct := denotes.distinct 0
  rw [twice] at distinct
  exact absurd distinct (by decide)

end AppManager.Utils
