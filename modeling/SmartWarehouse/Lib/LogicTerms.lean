/-
  Terms with variables, and unification as the existence of a unifier.

  Binding variables cannot make terms unify that did not unify before: if two instances of terms
  by one substitution unify, so do the terms (`Unifiable.of_subst`). Ground terms, those that no
  substitution changes, unify only if they are equal.
-/
import Mathlib.Logic.Function.Basic

namespace SmartWarehouse.Lib

/-- A term; the arguments of a compound are a list term. -/
inductive LogicTerm where
  | var (x : Nat)
  | atom (name : String)
  | int (value : Int)
  | nil
  | cons (head tail : LogicTerm)
  | compound (name : String) (args : LogicTerm)

namespace LogicTerm

def subst (σ : Nat → LogicTerm) : LogicTerm → LogicTerm
  | var x => σ x
  | cons head tail => cons (head.subst σ) (tail.subst σ)
  | compound name args => compound name (args.subst σ)
  | t => t

theorem subst_subst (σ τ : Nat → LogicTerm) (t : LogicTerm) :
    (t.subst σ).subst τ = t.subst fun x => (σ x).subst τ := by
  induction t with
  | cons head tail ihhead ihtail => simp only [subst, ihhead, ihtail]
  | compound name args ih => simp only [subst, ih]
  | _ => rfl

/-- No substitution changes the term. -/
def Ground (t : LogicTerm) : Prop := ∀ σ, t.subst σ = t

end LogicTerm

/-- Some substitution makes the lists of terms equal. -/
def Unifiable (ts us : List LogicTerm) : Prop :=
  ∃ σ, ts.map (LogicTerm.subst σ) = us.map (LogicTerm.subst σ)

theorem Unifiable.of_subst {σ : Nat → LogicTerm} {ts us : List LogicTerm}
    (h : Unifiable (ts.map (LogicTerm.subst σ)) (us.map (LogicTerm.subst σ))) :
    Unifiable ts us := by
  obtain ⟨τ, h⟩ := h
  have compose : ∀ l : List LogicTerm, (l.map (LogicTerm.subst σ)).map (LogicTerm.subst τ) =
      l.map (LogicTerm.subst fun x => (σ x).subst τ) := by
    intro l
    rw [List.map_map]
    exact List.map_congr_left fun t _ => t.subst_subst σ τ
  rw [compose, compose] at h
  exact ⟨_, h⟩

theorem Unifiable.refl (ts : List LogicTerm) : Unifiable ts ts := ⟨.var, rfl⟩

theorem map_subst_of_ground {ts : List LogicTerm} (h : ∀ t ∈ ts, t.Ground)
    (σ : Nat → LogicTerm) : ts.map (LogicTerm.subst σ) = ts := by
  rw [List.map_congr_left fun t ht => h t ht σ]
  exact List.map_id ts

/-- Ground terms unify only with themselves. -/
theorem Unifiable.eq_of_ground {ts us : List LogicTerm} (h : Unifiable ts us)
    (hts : ∀ t ∈ ts, t.Ground) (hus : ∀ u ∈ us, u.Ground) : ts = us := by
  obtain ⟨σ, h⟩ := h
  rwa [map_subst_of_ground hts, map_subst_of_ground hus] at h

end SmartWarehouse.Lib
