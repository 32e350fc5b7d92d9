/-
  STRIPS planning over sets of facts.

  An operator has a precondition, adds facts and deletes facts. `Executes ops S plan T` says that
  the operators of `plan` can be executed one after another from the world `S` and end in `T`.
-/
import Mathlib.Data.Set.Lattice

namespace SmartWarehouse.Lib

structure Operator (F L : Type) where
  label : L
  pre : Set F
  add : Set F
  del : Set F

variable {F L : Type}

/-- The world after an operator: without what it deletes, and with what it adds. -/
def Operator.apply (o : Operator F L) (S : Set F) : Set F := S \ o.del ∪ o.add

/-- Every operator is one of `ops`, and its precondition is included in the world where it is
    applied. -/
inductive Executes (ops : Set (Operator F L)) :
    Set F → List (Operator F L) → Set F → Prop where
  | nil {S : Set F} : Executes ops S [] S
  | cons {S T : Set F} {o : Operator F L} {plan : List (Operator F L)} (ho : o ∈ ops)
      (hpre : o.pre ⊆ S) (h : Executes ops (o.apply S) plan T) : Executes ops S (o :: plan) T

variable {ops : Set (Operator F L)} {S T U : Set F}

theorem Executes.append {plan plan' : List (Operator F L)} (h : Executes ops S plan T)
    (h' : Executes ops T plan' U) : Executes ops S (plan ++ plan') U := by
  induction h with
  | nil => exact h'
  | cons ho hpre _ ih => exact .cons ho hpre (ih h')

/-- A plan, then an operator, then a plan. -/
theorem Executes.insert {plan plan' : List (Operator F L)} {o : Operator F L}
    (h : Executes ops S plan T) (ho : o ∈ ops) (hpre : o.pre ⊆ T)
    (h' : Executes ops (o.apply T) plan' U) : Executes ops S (plan ++ o :: plan') U :=
  h.append (.cons ho hpre h')

/-- Where nothing is deleted nothing is lost. -/
theorem Executes.subset {plan : List (Operator F L)} (h : Executes ops S plan T)
    (hdel : ∀ o ∈ ops, o.del = ∅) : S ⊆ T := by
  induction h with
  | nil => exact Set.Subset.rfl
  | cons ho _ _ ih =>
    refine Set.Subset.trans ?_ ih
    rw [Operator.apply, hdel _ ho, Set.sdiff_empty]
    exact Set.subset_union_left

end SmartWarehouse.Lib
