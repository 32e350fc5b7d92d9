/-
  Planning when nothing is deleted.

  An operator infers each fact that it adds from its precondition. `relaxation ops S` is the
  closure of the world `S` under these inferences and `stage ops S n` what `n` rounds of all
  operators add to it. No plan gets beyond the relaxation (`Executes.subset_relaxation`), and where
  preconditions are finite every fact of it comes up at some stage (`mem_relaxation`), the first
  time by an operator that could not be applied before (`exists_first`).
-/
import SmartWarehouse.Lib.Closure
import SmartWarehouse.Lib.Strips
import Mathlib.Data.Set.Finite.Basic

namespace SmartWarehouse.Lib

variable {F L : Type}

/-- A fact that the operator adds follows from its precondition. -/
def Operator.infers (o : Operator F L) (f : F) : Inference F where
  premise S := o.pre ⊆ S
  conclusion := f
  mono hST hpre := hpre.trans hST

def additions (ops : Set (Operator F L)) : Set (Inference F) :=
  { i | ∃ o ∈ ops, ∃ f ∈ o.add, o.infers f = i }

def relaxation (ops : Set (Operator F L)) (S : Set F) : Set F := leastClosed (additions ops) S

def stage (ops : Set (Operator F L)) (S : Set F) : Nat → Set F
  | 0 => S
  | n + 1 => stage ops S n ∪ { f | ∃ o ∈ ops, o.pre ⊆ stage ops S n ∧ f ∈ o.add }

variable {ops : Set (Operator F L)} {S T : Set F}

theorem closedUnder_additions :
    ClosedUnder (additions ops) T ↔ ∀ o ∈ ops, o.pre ⊆ T → o.add ⊆ T := by
  constructor
  · intro h o ho hpre f hf
    exact h (o.infers f) ⟨o, ho, f, hf, rfl⟩ hpre
  · rintro h i ⟨o, ho, f, hf, rfl⟩ hpre
    exact h o ho hpre hf

theorem subset_relaxation : S ⊆ relaxation ops S := base_subset_leastClosed _ _

theorem add_subset_relaxation {o : Operator F L} (ho : o ∈ ops) (hpre : o.pre ⊆ relaxation ops S) :
    o.add ⊆ relaxation ops S :=
  closedUnder_additions.mp (isLeast_leastClosed _ _).1.2 o ho hpre

/-- No plan reaches a fact outside the relaxation. -/
theorem Executes.subset_relaxation {U : Set F} {plan : List (Operator F L)}
    (h : Executes ops T plan U) (hT : T ⊆ relaxation ops S) : U ⊆ relaxation ops S := by
  induction h with
  | nil => exact hT
  | cons ho hpre _ ih =>
    refine ih (Set.union_subset (Set.sdiff_subset.trans hT) ?_)
    exact add_subset_relaxation ho (hpre.trans hT)

/-! ## Stages -/

theorem stage_mono {m n : Nat} (h : m ≤ n) : stage ops S m ⊆ stage ops S n := by
  induction h with
  | refl => exact Set.Subset.rfl
  | step _ ih => exact ih.trans Set.subset_union_left

theorem stage_subset_relaxation (n : Nat) : stage ops S n ⊆ relaxation ops S := by
  induction n with
  | zero => exact Lib.subset_relaxation
  | succ n ih =>
    rintro f (hf | ⟨o, ho, hpre, hf⟩)
    · exact ih hf
    · exact add_subset_relaxation ho (hpre.trans ih) hf

/-- Finitely many facts that come up at some stage have all come up at one. -/
theorem subset_stage {G : Set F} (hG : G.Finite) (h : ∀ f ∈ G, ∃ n, f ∈ stage ops S n) :
    ∃ n, G ⊆ stage ops S n := by
  choose! level hlevel using h
  obtain ⟨n, hn⟩ := (hG.image level).bddAbove
  exact ⟨n, fun f hf => stage_mono (hn (Set.mem_image_of_mem level hf)) (hlevel f hf)⟩

theorem mem_relaxation (hfinite : ∀ o ∈ ops, o.pre.Finite) {f : F} :
    f ∈ relaxation ops S ↔ ∃ n, f ∈ stage ops S n := by
  constructor
  · intro hf
    have hsub : relaxation ops S ⊆ { f | ∃ n, f ∈ stage ops S n } := by
      refine leastClosed_subset (fun f hf => ⟨0, hf⟩) (closedUnder_additions.mpr ?_)
      intro o ho hpre f hf
      obtain ⟨n, hn⟩ := subset_stage (hfinite o ho) hpre
      exact ⟨n + 1, .inr ⟨o, ho, hn, hf⟩⟩
    exact hsub hf
  · rintro ⟨n, hn⟩
    exact stage_subset_relaxation n hn

/-- Goals are in the relaxation together if they are at one stage. -/
theorem subset_relaxation_iff (hfinite : ∀ o ∈ ops, o.pre.Finite) {G : Set F} (hG : G.Finite) :
    G ⊆ relaxation ops S ↔ ∃ n, G ⊆ stage ops S n := by
  constructor
  · intro h
    exact subset_stage hG fun f hf => (mem_relaxation hfinite).mp (h hf)
  · rintro ⟨n, hn⟩
    exact hn.trans (stage_subset_relaxation n)

/-- A fact that is new at a stage is added by an operator for which the stage before is enough,
    and by none for which an earlier one is. -/
theorem exists_first {n : Nat} {f : F} (hf : f ∈ stage ops S n) (hnew : f ∉ S) :
    ∃ m < n, (∃ o ∈ ops, o.pre ⊆ stage ops S m ∧ f ∈ o.add) ∧
      ∀ i < m, ∀ o ∈ ops, o.pre ⊆ stage ops S i → f ∉ o.add := by
  induction n with
  | zero => exact absurd hf hnew
  | succ n ih =>
    by_cases hbefore : f ∈ stage ops S n
    · obtain ⟨m, hm, hfirst⟩ := ih hbefore
      exact ⟨m, hm.trans (Nat.lt_succ_self n), hfirst⟩
    · refine ⟨n, Nat.lt_succ_self n, hf.resolve_left hbefore, fun i hi o ho hpre hadd => ?_⟩
      exact hbefore (stage_mono (Nat.succ_le_of_lt hi) (.inr ⟨o, ho, hpre, hadd⟩))

end SmartWarehouse.Lib
