/-
  The meaning of conditions, and what of it the engine finds.

  Read as logic, a condition over atomic goals that Prolog answers has instances: `or/2` those of
  either side, and `not/1` the bindings as they are if its condition has none (`Goal.Instance`).
  The engine cuts `or/2` at its first answer. Whatever it answers is an instance where `not/1` is
  only asked for conditions that are not cut short (`instance_of_mem_solve`), and an instance is
  answered, up to variables that the rest does not use, where every `or/2` shares with the rest
  only variables that are bound when it is called (`exists_mem_solve_of_instance`).
-/
import SmartWarehouse.Kbase.Rules
import Mathlib.Logic.Function.Basic

namespace SmartWarehouse.Kbase

open SmartWarehouse.Lib

/-! ## Bindings and variables -/

/-- The values bound to variables. -/
abbrev Bindings (V : Type) := Nat → Option V

variable {A E D V : Type}

/-- `β'` binds what `β` binds, to the same values. -/
def Extends (β β' : Bindings V) : Prop := ∀ x v, β x = some v → β' x = some v

theorem Extends.refl (β : Bindings V) : Extends β β := fun _ _ h => h

theorem Extends.trans {β β' β'' : Bindings V} (h : Extends β β') (h' : Extends β' β'') :
    Extends β β'' := fun x v hx => h' x v (h x v hx)

theorem Extends.isSome {β β' : Bindings V} (h : Extends β β') {x : Nat} (hx : (β x).isSome) :
    (β' x).isSome := by
  obtain ⟨v, hv⟩ := Option.isSome_iff_exists.mp hx
  rw [h x v hv]
  rfl

theorem Extends.eq_of_isSome {β β' : Bindings V} (h : Extends β β') {x : Nat}
    (hx : (β x).isSome) : β' x = β x := by
  obtain ⟨v, hv⟩ := Option.isSome_iff_exists.mp hx
  rw [h x v hv, hv]

/-- Atomic goals with variables. -/
class HasVars (A : Type) where
  vars : A → List Nat

def Goal.vars [HasVars A] : Goal A → List Nat
  | .atom a => HasVars.vars a
  | .and p q => p.vars ++ q.vars
  | .or p q => p.vars ++ q.vars
  | .not p => p.vars
  | .true => []
  | .false => []

/-- The variables bound by every answer of a condition. -/
def Goal.sure [HasVars A] : Goal A → List Nat
  | .atom a => HasVars.vars a
  | .and p q => p.sure ++ q.sure
  | .or p q => p.sure.filter fun x => x ∈ q.sure
  | _ => []

theorem Goal.mem_sure_or [HasVars A] {p q : Goal A} {x : Nat} :
    x ∈ (Goal.or p q).sure ↔ x ∈ p.sure ∧ x ∈ q.sure := by
  rw [Goal.sure, List.mem_filter]
  simp

/-! ## Instances -/

/-- From the bindings `e`, `e'` is an instance of the condition. -/
def Goal.Instance (P : Prolog A E D) (d : D) : Goal A → E → E → Prop
  | .atom a, e, e' => e' ∈ (P.call d a e).answers
  | .and p q, e, e' => ∃ e₁, p.Instance P d e e₁ ∧ q.Instance P d e₁ e'
  | .or p q, e, e' => p.Instance P d e e' ∨ q.Instance P d e e'
  | .not p, e, e' => e' = e ∧ ∀ e'', ¬ p.Instance P d e e''
  | .true, e, e' => e' = e
  | .false, _, _ => False

mutual

/-- What the engine answers are instances: no `not/1` fails to find one. -/
def Goal.Sound [HasVars A] : Goal A → List Nat → Prop
  | .and p q, bound => p.Sound bound ∧ q.Sound (bound ++ p.sure)
  | .or p q, bound => p.Sound bound ∧ q.Sound bound
  | .not p, bound => p.Reliable [] bound
  | _, _ => True

/-- The engine answers the instances, as far as the variables `outer` tell: with the variables
    `bound` bound, `or/2` stops at its first answer, and shares no other variables with `outer`. -/
def Goal.Reliable [HasVars A] : Goal A → List Nat → List Nat → Prop
  | .and p q, outer, bound => p.Reliable (outer ++ q.vars) bound ∧
      q.Reliable outer (bound ++ p.sure)
  | .or p q, outer, bound => (∀ x ∈ (Goal.or p q).vars, x ∈ outer → x ∈ bound) ∧
      p.Reliable [] bound ∧ q.Reliable [] bound
  | .not p, _, bound => p.Sound bound
  | _, _, _ => True

end

/-- Calls of atomic goals whose facts are ground: no error, and the variables of the goal, and no
    others, get values. -/
structure FactCalls [HasVars A] (P : Prolog A (Bindings V) D) : Prop where
  exhausted : ∀ d a β, (P.call d a β).ending = .exhausted
  extend : ∀ {d a β β'}, β' ∈ (P.call d a β).answers → Extends β β'
  bound : ∀ {d a β β'}, β' ∈ (P.call d a β).answers → ∀ x ∈ HasVars.vars a, (β' x).isSome
  frame : ∀ {d a β β'}, β' ∈ (P.call d a β).answers → ∀ x, x ∉ HasVars.vars a → β' x = β x
  congr : ∀ {d a β₁ β' β₂}, β' ∈ (P.call d a β₁).answers →
    (∀ x ∈ HasVars.vars a, β₁ x = β₂ x) →
      ∃ β₂' ∈ (P.call d a β₂).answers, ∀ x ∈ HasVars.vars a, β₂' x = β' x

section
variable [HasVars A]

/-! ## What is bound -/

/-- What an answer or an instance of a condition does to the bindings. -/
structure Goal.Binds (goal : Goal A) (β β' : Bindings V) : Prop where
  extend : Extends β β'
  bound : ∀ x ∈ goal.sure, (β' x).isSome
  frame : ∀ x, x ∉ goal.vars → β' x = β x

variable {p q : Goal A} {β β₁ β' : Bindings V}

theorem Goal.Binds.and (hp : p.Binds β β₁) (hq : q.Binds β₁ β') : (Goal.and p q).Binds β β' where
  extend := hp.extend.trans hq.extend
  bound x hx := (List.mem_append.mp hx).elim (fun hx => hq.extend.isSome (hp.bound x hx))
    (hq.bound x)
  frame x hx := by
    rw [Goal.vars, List.mem_append, not_or] at hx
    rw [hq.frame x hx.2, hp.frame x hx.1]

theorem Goal.Binds.left (h : p.Binds β β') : (Goal.or p q).Binds β β' where
  extend := h.extend
  bound x hx := h.bound x (Goal.mem_sure_or.mp hx).1
  frame x hx := h.frame x fun hp => hx (List.mem_append_left _ hp)

theorem Goal.Binds.right (h : q.Binds β β') : (Goal.or p q).Binds β β' where
  extend := h.extend
  bound x hx := h.bound x (Goal.mem_sure_or.mp hx).2
  frame x hx := h.frame x fun hq => hx (List.mem_append_right _ hq)

/-- The bindings stay as they are. -/
theorem Goal.Binds.stay {goal : Goal A} (hsure : goal.sure = []) (β : Bindings V) :
    goal.Binds β β where
  extend := .refl β
  bound _ hx := absurd (hsure ▸ hx) List.not_mem_nil
  frame _ _ := rfl

/-- With the variables `bound` bound before, an answer binds its sure variables too. -/
theorem Goal.Binds.bound_append (h : p.Binds β β') {bound : List Nat}
    (hbound : ∀ x ∈ bound, (β x).isSome) : ∀ x ∈ bound ++ p.sure, (β' x).isSome := by
  intro x hx
  rcases List.mem_append.mp hx with hx | hx
  · exact h.extend.isSome (hbound x hx)
  · exact h.bound x hx

/-- Two answers that share with `outer` only variables bound before agree on `outer`. -/
theorem Goal.Binds.agree {goal : Goal A} {β₂ : Bindings V} (h₁ : goal.Binds β β₁)
    (h₂ : goal.Binds β β₂) {outer bound : List Nat} (hbound : ∀ x ∈ bound, (β x).isSome)
    (hshare : ∀ x ∈ goal.vars, x ∈ outer → x ∈ bound) {x : Nat} (hx : x ∈ outer) :
    β₁ x = β₂ x := by
  by_cases hmem : x ∈ goal.vars
  · have hsome := hbound x (hshare x hmem hx)
    rw [h₁.extend.eq_of_isSome hsome, h₂.extend.eq_of_isSome hsome]
  · rw [h₁.frame x hmem, h₂.frame x hmem]

end

/-! ## Answers of the engine -/

theorem mem_solve_or {P : Prolog A E D} {d : D} {p q : Goal A} {e e' : E}
    (h : e' ∈ (P.solve d (.or p q) e).answers) :
    e' ∈ (P.solve d p e).answers ∨ e' ∈ (P.solve d q e).answers := by
  rw [Prolog.solve] at h
  split at h
  · rename_i e₁ _ hp
    rw [List.mem_singleton.mp h, hp]
    exact .inl List.mem_cons_self
  · rcases Search.mem_append.mp h with h | ⟨-, h⟩
    · exact .inl h
    · exact .inr h

theorem mem_solve_not {P : Prolog A E D} {d : D} {p : Goal A} {e e' : E}
    (h : e' ∈ (P.solve d (.not p) e).answers) : e' = e ∧ (P.solve d p e).answers = [] := by
  rw [Prolog.solve] at h
  split at h
  · cases h
  · rename_i hnil
    rcases Search.mem_append.mp h with h | ⟨-, h⟩
    · rw [hnil] at h
      cases h
    · exact ⟨List.mem_singleton.mp h, hnil⟩

namespace FactCalls
variable [HasVars A] {P : Prolog A (Bindings V) D} (hP : FactCalls P) {d : D}
include hP

theorem solve_exhausted (goal : Goal A) (β : Bindings V) :
    (P.solve d goal β).ending = .exhausted := by
  induction goal generalizing β with
  | atom a => exact hP.exhausted d a β
  | and p q ihp ihq =>
    rw [Prolog.solve, Search.bind_exhausted]
    exact ⟨fun β' _ => ihq β', ihp β⟩
  | or p q ihp ihq =>
    rw [Prolog.solve]
    split
    · rfl
    · exact Search.append_exhausted.mpr ⟨ihp β, ihq β⟩
  | not p ihp =>
    rw [Prolog.solve]
    split
    · rfl
    · exact Search.append_exhausted.mpr ⟨ihp β, rfl⟩
  | true => rfl
  | false => rfl

theorem binds_of_call {a : A} {β β' : Bindings V} (h : β' ∈ (P.call d a β).answers) :
    (Goal.atom a).Binds β β' := ⟨hP.extend h, hP.bound h, hP.frame h⟩

theorem binds_of_mem_solve {goal : Goal A} {β β' : Bindings V}
    (h : β' ∈ (P.solve d goal β).answers) : goal.Binds β β' := by
  induction goal generalizing β β' with
  | atom a => exact hP.binds_of_call h
  | and p q ihp ihq =>
    obtain ⟨β₁, h₁, h₂⟩ := Search.mem_bind h
    exact (ihp h₁).and (ihq h₂)
  | or p q ihp ihq => exact (mem_solve_or h).elim (fun h => (ihp h).left) fun h => (ihq h).right
  | not p ih =>
    obtain ⟨rfl, -⟩ := mem_solve_not h
    exact .stay rfl β'
  | true =>
    obtain rfl := List.mem_singleton.mp h
    exact .stay rfl β'
  | false => cases h

theorem binds_of_instance {goal : Goal A} {β β' : Bindings V}
    (h : goal.Instance P d β β') : goal.Binds β β' := by
  induction goal generalizing β β' with
  | atom a => exact hP.binds_of_call h
  | and p q ihp ihq =>
    obtain ⟨β₁, h₁, h₂⟩ := h
    exact (ihp h₁).and (ihq h₂)
  | or p q ihp ihq => exact h.elim (fun h => (ihp h).left) fun h => (ihq h).right
  | not p ih =>
    obtain ⟨rfl, -⟩ := h
    exact .stay rfl β'
  | true =>
    obtain rfl : β' = β := h
    exact .stay rfl β'
  | false => cases h

/-- Only the variables of a condition matter to its instances: from bindings that agree on them
    there are instances that agree wherever the bindings do. -/
theorem instance_congr {goal : Goal A} {β₁ β₁' β₂ : Bindings V}
    (h : goal.Instance P d β₁ β₁') (hsame : ∀ x ∈ goal.vars, β₁ x = β₂ x) :
    ∃ β₂', goal.Instance P d β₂ β₂' ∧ ∀ x, β₁ x = β₂ x → β₁' x = β₂' x := by
  induction goal generalizing β₁ β₁' β₂ with
  | atom a =>
    obtain ⟨β₂', h₂, heq⟩ := hP.congr h hsame
    refine ⟨β₂', h₂, fun x hx => ?_⟩
    by_cases hmem : x ∈ HasVars.vars a
    · exact (heq x hmem).symm
    · rw [hP.frame h x hmem, hP.frame h₂ x hmem, hx]
  | and p q ihp ihq =>
    obtain ⟨γ₁, hp, hq⟩ := h
    obtain ⟨γ₂, hp₂, heqp⟩ := ihp hp fun x hx => hsame x (List.mem_append_left _ hx)
    obtain ⟨β₂', hq₂, heqq⟩ := ihq hq fun x hx => heqp x (hsame x (List.mem_append_right _ hx))
    exact ⟨β₂', ⟨γ₂, hp₂, hq₂⟩, fun x hx => heqq x (heqp x hx)⟩
  | or p q ihp ihq =>
    rcases h with h | h
    · obtain ⟨β₂', h₂, heq⟩ := ihp h fun x hx => hsame x (List.mem_append_left _ hx)
      exact ⟨β₂', .inl h₂, heq⟩
    · obtain ⟨β₂', h₂, heq⟩ := ihq h fun x hx => hsame x (List.mem_append_right _ hx)
      exact ⟨β₂', .inr h₂, heq⟩
  | not p ih =>
    obtain ⟨rfl, hnone⟩ := h
    refine ⟨β₂, ⟨rfl, fun β'' h'' => ?_⟩, fun x hx => hx⟩
    obtain ⟨γ, hγ, -⟩ := ih h'' fun x hx => (hsame x hx).symm
    exact hnone γ hγ
  | true =>
    obtain rfl : β₁' = β₁ := h
    exact ⟨β₂, rfl, fun x hx => hx⟩
  | false => cases h

/-! ## Answers and instances -/

/-- Some answer of a part is enough for one of `or/2`. -/
theorem exists_mem_solve_or {p q : Goal A} {β β₁ : Bindings V}
    (h : β₁ ∈ (P.solve d p β).answers ∨ β₁ ∈ (P.solve d q β).answers) :
    ∃ β'', β'' ∈ (P.solve d (.or p q) β).answers := by
  rw [Prolog.solve]
  split
  · rename_i β'' _ _
    exact ⟨β'', List.mem_singleton_self _⟩
  · rename_i hnil
    rw [hnil] at h
    have hq := h.resolve_left List.not_mem_nil
    exact ⟨β₁, (Search.mem_append_of_exhausted (hP.solve_exhausted p β)).mpr (.inr hq)⟩

theorem mem_solve_not_of_nil {p : Goal A} {β : Bindings V}
    (hnil : (P.solve d p β).answers = []) : β ∈ (P.solve d (.not p) β).answers := by
  rw [Prolog.solve, hnil]
  exact (Search.mem_append_of_exhausted (hP.solve_exhausted p β)).mpr
    (.inr (List.mem_singleton_self _))

/-- For every condition: its answers are instances, and its instances are answered. -/
theorem answers_instances (goal : Goal A) :
    (∀ bound β β', goal.Sound bound → (∀ x ∈ bound, (β x).isSome) →
      β' ∈ (P.solve d goal β).answers → goal.Instance P d β β') ∧
    ∀ outer bound β β', goal.Reliable outer bound → (∀ x ∈ bound, (β x).isSome) →
      goal.Instance P d β β' →
        ∃ β'' ∈ (P.solve d goal β).answers, ∀ x ∈ outer, β'' x = β' x := by
  induction goal with
  | atom a => exact ⟨fun _ _ _ _ _ h => h, fun _ _ _ β' _ _ h => ⟨β', h, fun _ _ => rfl⟩⟩
  | and p q ihp ihq =>
    refine ⟨fun bound β β' hs hbound h => ?_, fun outer bound β β' hr hbound h => ?_⟩
    · obtain ⟨β₁, hp, hq⟩ := Search.mem_bind h
      exact ⟨β₁, ihp.1 _ _ _ hs.1 hbound hp,
        ihq.1 _ _ _ hs.2 ((hP.binds_of_mem_solve hp).bound_append hbound) hq⟩
    · obtain ⟨β₁, hp, hq⟩ := h
      obtain ⟨γ₁, hγ₁, heqp⟩ := ihp.2 _ _ _ _ hr.1 hbound hp
      -- the second part goes on from the answer of the first, which agrees on its variables
      have hsame : ∀ x ∈ q.vars, β₁ x = γ₁ x :=
        fun x hx => (heqp x (List.mem_append_right _ hx)).symm
      obtain ⟨γ', hγ', heq⟩ := hP.instance_congr hq hsame
      obtain ⟨β'', hβ'', heqq⟩ :=
        ihq.2 _ _ _ _ hr.2 ((hP.binds_of_mem_solve hγ₁).bound_append hbound) hγ'
      refine ⟨β'', ?_, fun x hx => ?_⟩
      · exact (Search.mem_bind_of_exhausted fun γ _ => hP.solve_exhausted q γ).mpr
          ⟨γ₁, hγ₁, hβ''⟩
      · rw [heqq x hx, heq x (heqp x (List.mem_append_left _ hx)).symm]
  | or p q ihp ihq =>
    refine ⟨fun bound β β' hs hbound h => ?_, fun outer bound β β' hr hbound h => ?_⟩
    · exact (mem_solve_or h).imp (ihp.1 _ _ _ hs.1 hbound) (ihq.1 _ _ _ hs.2 hbound)
    · have hpart : ∃ β₁, β₁ ∈ (P.solve d p β).answers ∨ β₁ ∈ (P.solve d q β).answers := by
        rcases h with h | h
        · obtain ⟨β₁, h₁, -⟩ := ihp.2 _ _ _ _ hr.2.1 hbound h
          exact ⟨β₁, .inl h₁⟩
        · obtain ⟨β₁, h₁, -⟩ := ihq.2 _ _ _ _ hr.2.2 hbound h
          exact ⟨β₁, .inr h₁⟩
      obtain ⟨β₁, h₁⟩ := hpart
      obtain ⟨β'', h''⟩ := hP.exists_mem_solve_or h₁
      exact ⟨β'', h'', fun x hx =>
        (hP.binds_of_mem_solve h'').agree (hP.binds_of_instance h) hbound hr.1 hx⟩
  | not p ih =>
    refine ⟨fun bound β β' hs hbound h => ?_, fun outer bound β β' hr hbound h => ?_⟩
    · obtain ⟨rfl, hnil⟩ := mem_solve_not h
      refine ⟨rfl, fun β'' h'' => ?_⟩
      obtain ⟨γ, hγ, -⟩ := ih.2 _ _ _ _ hs hbound h''
      rw [hnil] at hγ
      cases hγ
    · obtain ⟨rfl, hnone⟩ := h
      have hnil : (P.solve d p β').answers = [] :=
        List.eq_nil_iff_forall_not_mem.mpr fun γ hγ => hnone γ (ih.1 _ _ _ hr hbound hγ)
      exact ⟨β', hP.mem_solve_not_of_nil hnil, fun x _ => rfl⟩
  | true => exact ⟨fun _ _ _ _ _ h => List.mem_singleton.mp h,
      fun _ _ _ β' _ _ h => ⟨β', List.mem_singleton.mpr h, fun _ _ => rfl⟩⟩
  | false => exact ⟨fun _ _ _ _ _ h => absurd h List.not_mem_nil, fun _ _ _ _ _ _ h => h.elim⟩

theorem instance_of_mem_solve {goal : Goal A} {bound : List Nat} (hs : goal.Sound bound)
    {β β' : Bindings V} (hbound : ∀ x ∈ bound, (β x).isSome)
    (h : β' ∈ (P.solve d goal β).answers) : goal.Instance P d β β' :=
  (hP.answers_instances goal).1 _ _ _ hs hbound h

theorem exists_mem_solve_of_instance {goal : Goal A} {outer bound : List Nat}
    (hr : goal.Reliable outer bound) {β β' : Bindings V} (hbound : ∀ x ∈ bound, (β x).isSome)
    (h : goal.Instance P d β β') :
    ∃ β'' ∈ (P.solve d goal β).answers, ∀ x ∈ outer, β'' x = β' x :=
  (hP.answers_instances goal).2 _ _ _ _ hr hbound h

end FactCalls

end SmartWarehouse.Kbase
