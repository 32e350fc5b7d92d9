/-
  Least sets closed under inference rules.

  An inference has a monotone premise and a conclusion. `leastClosed I base` is the least set
  that contains `base` and is closed under the inferences `I` (`isLeast_leastClosed`).
  A relation without cycles that starts in a finite set is well-founded
  (`wellFounded_of_acyclic`).
-/
import Mathlib.Order.FixedPoints
import Mathlib.Order.WellFoundedSet
import Mathlib.Data.Set.Lattice
import Mathlib.Order.CompletePartialOrder

namespace SmartWarehouse.Lib

variable {F : Type}

structure Inference (F : Type) where
  premise : Set F → Prop
  conclusion : F
  mono : ∀ {S T : Set F}, S ⊆ T → premise S → premise T

def ClosedUnder (I : Set (Inference F)) (S : Set F) : Prop :=
  ∀ i ∈ I, i.premise S → i.conclusion ∈ S

/-- What the base and one inference from a set give. -/
def consequences (I : Set (Inference F)) (base : Set F) : Set F →o Set F where
  toFun S := base ∪ { f | ∃ i ∈ I, i.premise S ∧ i.conclusion = f }
  monotone' S T hST := by
    refine Set.union_subset_union_right _ ?_
    rintro f ⟨i, hi, hp, rfl⟩
    exact ⟨i, hi, i.mono hST hp, rfl⟩

def leastClosed (I : Set (Inference F)) (base : Set F) : Set F :=
  OrderHom.lfp (consequences I base)

theorem consequences_le_iff {I : Set (Inference F)} {base S : Set F} :
    consequences I base S ≤ S ↔ base ⊆ S ∧ ClosedUnder I S := by
  constructor
  · intro h
    refine ⟨fun f hf => h (.inl hf), fun i hi hp => h (.inr ⟨i, hi, hp, rfl⟩)⟩
  · rintro ⟨hbase, hclosed⟩ f (hf | ⟨i, hi, hp, rfl⟩)
    · exact hbase hf
    · exact hclosed i hi hp

theorem isLeast_leastClosed (I : Set (Inference F)) (base : Set F) :
    IsLeast { S | base ⊆ S ∧ ClosedUnder I S } (leastClosed I base) := by
  constructor
  · exact consequences_le_iff.mp (consequences I base).map_lfp.le
  · intro S hS
    exact OrderHom.lfp_le _ (consequences_le_iff.mpr hS)

theorem base_subset_leastClosed (I : Set (Inference F)) (base : Set F) :
    base ⊆ leastClosed I base := (isLeast_leastClosed I base).1.1

theorem leastClosed_subset {I : Set (Inference F)} {base S : Set F} (hbase : base ⊆ S)
    (hclosed : ClosedUnder I S) : leastClosed I base ⊆ S :=
  (isLeast_leastClosed I base).2 ⟨hbase, hclosed⟩

/-- A closed set between the base and the least closed set is the least one. -/
theorem eq_leastClosed {I : Set (Inference F)} {base S : Set F} (hbase : base ⊆ S)
    (hclosed : ClosedUnder I S) (hS : S ⊆ leastClosed I base) : S = leastClosed I base :=
  hS.antisymm (leastClosed_subset hbase hclosed)

theorem ClosedUnder.mono {I J : Set (Inference F)} {S : Set F} (h : ClosedUnder J S) (hIJ : I ⊆ J) :
    ClosedUnder I S := fun i hi => h i (hIJ hi)

/-- What fewer inferences have given from a part of the base may be given with it. -/
theorem leastClosed_union_leastClosed {I J : Set (Inference F)} (hIJ : I ⊆ J) (base more : Set F) :
    leastClosed J (leastClosed I base ∪ more) = leastClosed J (base ∪ more) := by
  have hbase := base_subset_leastClosed J (base ∪ more)
  have hclosed := (isLeast_leastClosed J (base ∪ more)).1.2
  apply Set.Subset.antisymm
  · refine leastClosed_subset (Set.union_subset ?_ ?_) hclosed
    · exact leastClosed_subset (Set.subset_union_left.trans hbase) (hclosed.mono hIJ)
    · exact Set.subset_union_right.trans hbase
  · refine leastClosed_subset (Set.union_subset ?_ ?_) (isLeast_leastClosed J _).1.2
    · exact (base_subset_leastClosed I base).trans
        (Set.subset_union_left.trans (base_subset_leastClosed J _))
    · exact Set.subset_union_right.trans (base_subset_leastClosed J _)

/-! ## Acyclic dependencies -/

theorem wellFounded_of_acyclic {r : F → F → Prop} {s : Set F} (hs : s.Finite)
    (hr : ∀ a b, r a b → a ∈ s) (hacyclic : ∀ a, ¬ Relation.TransGen r a a) :
    WellFounded (flip r) := by
  have : IsStrictOrder F (Relation.TransGen (flip r)) :=
    { irrefl := fun a ha => hacyclic a (Relation.transGen_swap.mp ha)
      trans := fun _ _ _ => Relation.TransGen.trans }
  have hwf := Set.wellFoundedOn_iff.mp (hs.wellFoundedOn (r := Relation.TransGen (flip r)))
  refine ⟨fun a => ?_⟩
  induction hwf.apply a with
  | intro a _ ih =>
    refine ⟨a, fun b hb => ?_⟩
    by_cases hbs : b ∈ s
    · exact ih b ⟨.single hb, hbs, hr a b hb⟩
    · exact ⟨b, fun c hc => absurd (hr b c hc) hbs⟩

end SmartWarehouse.Lib
