/-
  Instances of patterns, and what matching finds.

  Under a substitution `θ` of all variables a pattern has its instances, one for each way to
  replace `anonymous` (`Pattern.Instance`). Matching builds a partial substitution: its total
  extensions are those of the one it starts from under which the term is an instance of the
  pattern (`matchTerm_iff`), and it binds the variables of the pattern (`matchTerm_domain`). So a
  term matches if and only if some extension makes it an instance (`matchTerms_eq_none_iff`).
-/
import SmartWarehouse.Lib.Terms
import Mathlib.Data.Set.Basic

namespace SmartWarehouse.Lib

variable {V : Type}

/-! ## Instances -/

mutual
def Pattern.Instance (θ : Nat → GroundTerm V) : Pattern V → GroundTerm V → Prop
  | .anonymous, _ => True
  | .var x, t => θ x = t
  | .atom a, t => .atom a = t
  | .constant v, t => .constant v = t
  | .compound f ps, .compound g ts => f = g ∧ Instances θ ps ts
  | .compound _ _, _ => False
def Instances (θ : Nat → GroundTerm V) : List (Pattern V) → List (GroundTerm V) → Prop
  | [], [] => True
  | p :: ps, t :: ts => p.Instance θ t ∧ Instances θ ps ts
  | _, _ => False
end

mutual
def Pattern.vars : Pattern V → List Nat
  | .var x => [x]
  | .compound _ ps => patternVars ps
  | _ => []
def patternVars : List (Pattern V) → List Nat
  | [] => []
  | p :: ps => p.vars ++ patternVars ps
end

theorem instances_append {θ : Nat → GroundTerm V} {ps qs : List (Pattern V)}
    {ts us : List (GroundTerm V)} (h : ts.length = ps.length) :
    Instances θ (ps ++ qs) (ts ++ us) ↔ Instances θ ps ts ∧ Instances θ qs us := by
  induction ps generalizing ts with
  | nil =>
    rw [List.length_eq_zero_iff.mp h]
    simp [Instances]
  | cons p ps ih =>
    cases ts with
    | nil => cases h
    | cons t ts =>
      rw [List.cons_append, List.cons_append, Instances, Instances, ih (Nat.succ.inj h),
        and_assoc]

theorem instances_vars {θ : Nat → GroundTerm V} {xs : List Nat} {ts : List (GroundTerm V)} :
    Instances θ (xs.map .var) ts ↔ xs.map θ = ts := by
  induction xs generalizing ts with
  | nil => cases ts <;> simp [Instances]
  | cons x xs ih => cases ts <;> simp [Instances, Pattern.Instance, ih]

namespace Substitution

/-- The variables that are bound. -/
def domain (σ : Substitution V) : Set Nat := {x | σ x ≠ none}

/-- `θ` extends `σ` to all variables. -/
def Agrees (σ : Substitution V) (θ : Nat → GroundTerm V) : Prop := ∀ x t, σ x = some t → θ x = t

/-- Some term for the variables that are not bound. -/
def total (σ : Substitution V) : Nat → GroundTerm V := fun x => (σ x).getD (.atom "")

theorem agrees_total (σ : Substitution V) : σ.Agrees σ.total := by
  intro x t hx
  rw [total, hx, Option.getD_some]

theorem agrees_update {σ : Substitution V} {x : Nat} {t : GroundTerm V} (hx : σ x = none)
    {θ : Nat → GroundTerm V} :
    Agrees (Function.update σ x (some t)) θ ↔ σ.Agrees θ ∧ θ x = t := by
  constructor
  · intro h
    refine ⟨fun y u hy => ?_, h x t (Function.update_self ..)⟩
    have hne : y ≠ x := by
      rintro rfl
      rw [hx] at hy
      cases hy
    exact h y u ((Function.update_of_ne hne ..).trans hy)
  · intro ⟨h, hθ⟩ y u hy
    by_cases hyx : y = x
    · subst hyx
      rw [Function.update_self] at hy
      exact hθ.trans (Option.some.inj hy)
    · exact h y u ((Function.update_of_ne hyx ..).symm.trans hy)

theorem domain_update (σ : Substitution V) (x : Nat) (t : GroundTerm V) :
    domain (Function.update σ x (some t)) = σ.domain ∪ {y | y ∈ [x]} := by
  ext y
  by_cases hyx : y = x
  · simp [domain, hyx]
  · simp [domain, hyx]

/-- Extensions of one substitution differ in what it does not bind. -/
theorem Agrees.congr {σ : Substitution V} {θ θ' : Nat → GroundTerm V} (h : σ.Agrees θ) :
    σ.Agrees θ' ↔ ∀ x ∈ σ.domain, θ' x = θ x := by
  constructor
  · intro h' x hx
    obtain ⟨t, ht⟩ := Option.ne_none_iff_exists'.mp hx
    rw [h x t ht, h' x t ht]
  · intro heq x t ht
    rw [heq x (by simp [domain, ht]), h x t ht]

end Substitution

/-! ## Matching -/

variable [DecidableEq V]

mutual
theorem matchTerm_iff (p : Pattern V) (t : GroundTerm V) (σ : Substitution V)
    (θ : Nat → GroundTerm V) :
    (σ.Agrees θ ∧ p.Instance θ t) ↔ ∃ σ', p.matchTerm t σ = some σ' ∧ σ'.Agrees θ := by
  cases p with
  | anonymous => simp [Pattern.Instance, Pattern.matchTerm]
  | var x =>
    rw [Pattern.Instance, Pattern.matchTerm]
    split <;> rename_i hx
    · simp [Substitution.agrees_update hx]
    · split <;> rename_i hxt
      · rw [and_iff_left_of_imp fun h => h x t hxt]
        simp
      · -- `x` is bound to another term
        obtain ⟨u, hu⟩ := Option.ne_none_iff_exists'.mp hx
        have hut : ¬ u = t := fun h => hxt (h ▸ hu)
        refine iff_of_false (fun ⟨h, hθ⟩ => hut ?_) nofun
        rw [← h x u hu, hθ]
  | atom a => cases t <;> simp [Pattern.Instance, Pattern.matchTerm, and_comm]
  | constant v => cases t <;> simp [Pattern.Instance, Pattern.matchTerm, and_comm]
  | compound f ps =>
    cases t with
    | atom b => simp [Pattern.Instance, Pattern.matchTerm]
    | constant w => simp [Pattern.Instance, Pattern.matchTerm]
    | compound g ts =>
      rw [Pattern.Instance, Pattern.matchTerm]
      by_cases hfg : f = g
      · rw [if_pos hfg, ← matchTerms_iff ps ts σ θ]
        simp [hfg]
      · simp [hfg]
theorem matchTerms_iff (ps : List (Pattern V)) (ts : List (GroundTerm V)) (σ : Substitution V)
    (θ : Nat → GroundTerm V) :
    (σ.Agrees θ ∧ Instances θ ps ts) ↔ ∃ σ', matchTerms ps ts σ = some σ' ∧ σ'.Agrees θ := by
  cases ps with
  | nil => cases ts <;> simp [Instances, matchTerms]
  | cons p ps =>
    cases ts with
    | nil => simp [Instances, matchTerms]
    | cons t ts =>
      rw [Instances, matchTerms, ← and_assoc, matchTerm_iff p t σ θ]
      cases hσ' : p.matchTerm t σ with
      | none => simp
      | some σ' =>
        rw [Option.bind_some, ← matchTerms_iff ps ts σ' θ]
        simp
end

mutual
theorem matchTerm_domain (p : Pattern V) (t : GroundTerm V) {σ σ' : Substitution V}
    (h : p.matchTerm t σ = some σ') : σ'.domain = σ.domain ∪ {x | x ∈ p.vars} := by
  cases p with
  | anonymous =>
    rw [Pattern.matchTerm, Option.some.injEq] at h
    simp [Pattern.vars, h]
  | var x =>
    rw [Pattern.matchTerm] at h
    split at h <;> rename_i hx
    · rw [← Option.some.inj h, Substitution.domain_update]
      rfl
    · split at h <;> rename_i hxt
      · rw [← Option.some.inj h, Pattern.vars]
        symm
        apply Set.union_eq_left.mpr
        intro y hy
        rw [List.mem_singleton.mp hy]
        exact hx
      · cases h
  | atom a =>
    cases t <;> simp_all [Pattern.vars, Pattern.matchTerm]
  | constant v =>
    cases t <;> simp_all [Pattern.vars, Pattern.matchTerm]
  | compound f ps =>
    cases t with
    | atom b => simp [Pattern.matchTerm] at h
    | constant w => simp [Pattern.matchTerm] at h
    | compound g ts =>
      rw [Pattern.matchTerm] at h
      split at h
      · rw [Pattern.vars]
        exact matchTerms_domain ps ts h
      · cases h
theorem matchTerms_domain (ps : List (Pattern V)) (ts : List (GroundTerm V))
    {σ σ' : Substitution V} (h : matchTerms ps ts σ = some σ') :
    σ'.domain = σ.domain ∪ {x | x ∈ patternVars ps} := by
  cases ps with
  | nil =>
    cases ts with
    | nil =>
      rw [matchTerms, Option.some.injEq] at h
      simp [patternVars, h]
    | cons t ts => cases h
  | cons p ps =>
    cases ts with
    | nil => cases h
    | cons t ts =>
      obtain ⟨σ₁, h₁, h₂⟩ := Option.bind_eq_some_iff.mp h
      rw [matchTerms_domain ps ts h₂, matchTerm_domain p t h₁, patternVars, Set.union_assoc]
      congr 1
      ext x
      simp
end

/-- Terms match unless no extension makes them instances. -/
theorem matchTerms_eq_none_iff {ps : List (Pattern V)} {ts : List (GroundTerm V)}
    {σ : Substitution V} :
    matchTerms ps ts σ = none ↔ ∀ θ, σ.Agrees θ → ¬ Instances θ ps ts := by
  constructor
  · intro h θ hθ hinst
    obtain ⟨σ', hσ', -⟩ := (matchTerms_iff ps ts σ θ).mp ⟨hθ, hinst⟩
    rw [h] at hσ'
    cases hσ'
  · intro h
    rw [Option.eq_none_iff_forall_ne_some]
    intro σ' hσ'
    obtain ⟨hagrees, hinst⟩ :=
      (matchTerms_iff ps ts σ σ'.total).mpr ⟨σ', hσ', σ'.agrees_total⟩
    exact h σ'.total hagrees hinst

/-- A term matches a pattern if it is an instance. -/
theorem matchesTerm_iff {p : Pattern V} {t : GroundTerm V} :
    p.matchesTerm t = true ↔ ∃ θ, p.Instance θ t := by
  rw [Pattern.matchesTerm, Option.isSome_iff_exists]
  constructor
  · rintro ⟨σ, hσ⟩
    exact ⟨σ.total, ((matchTerm_iff p t _ σ.total).mpr ⟨σ, hσ, σ.agrees_total⟩).2⟩
  · rintro ⟨θ, hθ⟩
    have hagrees : Substitution.Agrees (fun _ => none) θ := fun x u hx => by cases hx
    obtain ⟨σ, hσ, -⟩ := (matchTerm_iff p t _ θ).mp ⟨hagrees, hθ⟩
    exact ⟨σ, hσ⟩

end SmartWarehouse.Lib
