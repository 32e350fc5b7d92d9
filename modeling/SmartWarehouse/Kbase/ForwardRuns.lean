/-
  Forward runs are runs of the production system of the rules.

  What a run records and what it leaves out is told by the instances of conditions, not by the
  answers of the engine: `forward_is_valid_run` holds for every rule base of distinct names, over
  any atomic goals whose facts are ground and any updates. Over facts the instances of a positive
  condition are what is true (`Goal.Instance.holds`, `exists_instance`). Where the cut of `or/2`
  may hide an instance, nothing is said: a true instance may never fire, and an else branch may
  fire while its condition is true (`true_instance_left`).
-/
import SmartWarehouse.Kbase.FactBase
import SmartWarehouse.Kbase.Forward

namespace SmartWarehouse.Kbase

open SmartWarehouse.Lib

/-! ## Runs by instances -/

/-- Ground facts for forward chaining: two instances of conditions unify only if they give no
    variable two values. -/
structure FactProduction (A V D : Type) [HasVars A] extends Production A (Bindings V) D where
  calls : FactCalls toProlog
  unifies : ∀ {goal β goal' β'}, alike goal β goal' β' = true → goal = goal' ∧
    ∀ x ∈ goal.vars, ∀ v w, β x = some v → β' x = some w → v = w

variable {A V D : Type} [HasVars A] (P : FactProduction A V D)

/-- An instance of a condition with nothing bound before. -/
def InstanceOf (d : D) (goal : Goal A) (β : Bindings V) : Prop :=
  goal.Instance P.toProlog d P.empty β

/-- The guard of the branch of an entry, as far as no `or/2` hides an instance. An elseif or else
    branch counts if it has a conclusion. -/
inductive GuardHolds (d : D) (r : PickedRule A) : Fired A (Bindings V) → Prop where
  | ifBranch {β : Bindings V} (h : r.ifCond.Sound [] → InstanceOf P d r.ifCond β) :
    GuardHolds d r ⟨.ifBranch, r.name, r.ifCond, β, r.conclusions⟩
  | elseIfBranch {β : Bindings V} (hne : r.elseIfConclusions ≠ [])
      (hif : r.ifCond.Reliable [] [] → ∀ β', ¬ InstanceOf P d r.ifCond β')
      (h : r.elseIfCond.Sound [] → InstanceOf P d r.elseIfCond β) :
    GuardHolds d r ⟨.elseIfBranch, r.name, r.elseIfCond, β, r.elseIfConclusions⟩
  | elseBranch (hne : r.elseConclusions ≠ [])
      (hif : r.ifCond.Reliable [] [] → ∀ β', ¬ InstanceOf P d r.ifCond β')
      (helse : r.elseIfCond.Reliable [] [] → ∀ β', ¬ InstanceOf P d r.elseIfCond β') :
    GuardHolds d r ⟨.elseBranch, r.name, .true, P.empty, r.elseConclusions⟩

/-- The instance `β` of the branch unifies with a fired one, as far as the variables `outer`
    tell. -/
def FiredFor (previous : List (Fired A (Bindings V))) (branch : Branch) (name : String)
    (cond : Goal A) (outer : List Nat) (β : Bindings V) : Prop :=
  ∃ f ∈ previous, f.branch = branch ∧ f.name = name ∧ f.condition = cond ∧
    ∀ x ∈ cond.vars, x ∈ outer → ∀ v w, β x = some v → f.bindings x = some w → v = w

/-- The rule has no instance left, as far as no `or/2` hides one: all variables of a condition
    tell if every `or/2` is called with its variables bound. -/
structure NoneLeft (d : D) (previous : List (Fired A (Bindings V))) (r : PickedRule A) :
    Prop where
  ifBranch : ∀ outer, r.ifCond.Reliable outer [] → ∀ β, InstanceOf P d r.ifCond β →
    FiredFor previous .ifBranch r.name r.ifCond outer β
  elseIfBranch : r.elseIfConclusions ≠ [] →
    r.ifCond.Sound [] → (∀ β', ¬ InstanceOf P d r.ifCond β') →
      ∀ outer, r.elseIfCond.Reliable outer [] → ∀ β, InstanceOf P d r.elseIfCond β →
        FiredFor previous .elseIfBranch r.name r.elseIfCond outer β
  elseBranch : r.elseConclusions ≠ [] →
    r.ifCond.Sound [] → (∀ β', ¬ InstanceOf P d r.ifCond β') →
      r.elseIfCond.Sound [] → (∀ β', ¬ InstanceOf P d r.elseIfCond β') →
        ∃ f ∈ previous, f.branch = .elseBranch ∧ f.name = r.name

/-- `ProductionRun P rules previous d entries d'`: after `previous`, entries whose guards hold are
    fired in order from `d`, each with no instance left at greater priority, and at `d'` none is
    left. -/
inductive ProductionRun (rules : List (Rule A)) : List (Fired A (Bindings V)) → D →
    List (Fired A (Bindings V)) → D → Prop where
  | stop {previous : List (Fired A (Bindings V))} {d : D}
      (h : ∀ r, Takes rules r → NoneLeft P d previous r) :
    ProductionRun rules previous d [] d
  | fire {previous entries : List (Fired A (Bindings V))} {d d₁ d' : D} {r : PickedRule A}
      {f : Fired A (Bindings V)} {β : Bindings V} (hr : Takes rules r) (hf : GuardHolds P d r f)
      (hnew : alreadyFired P.toProduction previous f = false)
      (hpriority : ∀ r', Takes rules r' → r.priority < r'.priority → NoneLeft P d previous r')
      (hconclusions : Attempted P.toProduction d f.bindings f.conclusions β d₁)
      (hrest : ProductionRun rules ({ f with bindings := β } :: previous) d₁ entries d') :
    ProductionRun rules previous d ({ f with bindings := β } :: entries) d'

/-! ## Answers and instances -/

variable {P} {d : D} {r : PickedRule A}

/-- A condition that is not found to hold has no instance. -/
theorem no_instance_of_doesNotHold {goal : Goal A} (hr : goal.Reliable [] [])
    (h : DoesNotHold P.toProlog d goal P.empty) (β : Bindings V) : ¬ InstanceOf P d goal β := by
  intro hβ
  obtain ⟨β', hβ', -⟩ := P.calls.exists_mem_solve_of_instance hr nofun hβ
  rw [h.1] at hβ'
  cases hβ'

theorem doesNotHold_of_no_instance {goal : Goal A} (hs : goal.Sound [])
    (h : ∀ β, ¬ InstanceOf P d goal β) : DoesNotHold P.toProlog d goal P.empty := by
  constructor
  · exact List.eq_nil_iff_forall_not_mem.mpr fun β hβ =>
      h β (P.calls.instance_of_mem_solve hs nofun hβ)
  · rw [P.calls.solve_exhausted]
    exact Ending.noConfusion

theorem guardHolds_of_admissible {f : Fired A (Bindings V)}
    (h : Admissible P.toProduction d r f) : GuardHolds P d r f := by
  cases h with
  | ifBranch h => exact .ifBranch fun hs => P.calls.instance_of_mem_solve hs nofun h
  | elseIfBranch hne hif h =>
    exact .elseIfBranch hne (fun hr => no_instance_of_doesNotHold hr hif)
      fun hs => P.calls.instance_of_mem_solve hs nofun h
  | elseBranch hne hif helse =>
    exact .elseBranch hne (fun hr => no_instance_of_doesNotHold hr hif)
      fun hr => no_instance_of_doesNotHold hr helse

/-- An answer that was fired stands for the instances that agree with it. -/
theorem firedFor_of_alreadyFired {previous : List (Fired A (Bindings V))}
    {f : Fired A (Bindings V)} (h : alreadyFired P.toProduction previous f = true)
    (hbranch : f.branch ≠ .elseBranch) {outer : List Nat} {β : Bindings V}
    (hβ : ∀ x ∈ outer, f.bindings x = β x) :
    FiredFor previous f.branch f.name f.condition outer β := by
  obtain ⟨f', hf', hsame⟩ := List.any_eq_true.mp h
  simp only [Bool.and_eq_true, Bool.or_eq_true, decide_eq_true_eq, hbranch, false_or] at hsame
  obtain ⟨⟨hb, hn⟩, halike⟩ := hsame
  obtain ⟨hcond, hunify⟩ := P.unifies halike
  refine ⟨f', hf', hb, hn, hcond.symm, fun x hx hout v w hv hw => ?_⟩
  exact hunify x hx v w ((hβ x hout).trans hv) hw

theorem noneLeft_of_allFired {previous : List (Fired A (Bindings V))}
    (h : AllFired P.toProduction d previous r) : NoneLeft P d previous r where
  ifBranch outer hr β hβ := by
    obtain ⟨β', hβ', heq⟩ := P.calls.exists_mem_solve_of_instance hr nofun hβ
    exact firedFor_of_alreadyFired (h _ (.ifBranch hβ')) Branch.noConfusion heq
  elseIfBranch hne hs hif outer hr β hβ := by
    obtain ⟨β', hβ', heq⟩ := P.calls.exists_mem_solve_of_instance hr nofun hβ
    exact firedFor_of_alreadyFired
      (h _ (.elseIfBranch hne (doesNotHold_of_no_instance hs hif) hβ')) Branch.noConfusion heq
  elseBranch hne hs hif hs' helse := by
    have hfired := h _ (.elseBranch hne (doesNotHold_of_no_instance hs hif)
      (doesNotHold_of_no_instance hs' helse))
    obtain ⟨f, hf, hsame⟩ := List.any_eq_true.mp hfired
    simp only [Bool.and_eq_true, decide_eq_true_eq] at hsame
    exact ⟨f, hf, hsame.1.1, hsame.1.2⟩

theorem productionRun_of_validRun {rules : List (Rule A)}
    {previous entries : List (Fired A (Bindings V))} {d d' : D}
    (h : ValidRun P.toProduction rules previous d entries d') :
    ProductionRun P rules previous d entries d' := by
  induction h with
  | stop h => exact .stop fun r hr => noneLeft_of_allFired (h r hr)
  | fire hr hf hnew hpriority hconclusions _ ih =>
    exact .fire hr (guardHolds_of_admissible hf) hnew
      (fun r' hr' hlt => noneLeft_of_allFired (hpriority r' hr' hlt)) hconclusions ih

theorem alikeInstances_unifies [DecidableEq V] {goal goal' : Goal (Atom V)} {β β' : Bindings V}
    (h : alikeInstances goal β goal' β' = true) : goal = goal' ∧
      ∀ x ∈ goal.vars, ∀ v w, β x = some v → β' x = some w → v = w := by
  simp only [alikeInstances, Bool.and_eq_true, decide_eq_true_eq, List.all_eq_true] at h
  refine ⟨h.1, fun x hx v w hv hw => ?_⟩
  have hsame := h.2 x hx
  rw [hv, hw] at hsame
  exact of_decide_eq_true hsame

def factProduction (V : Type) [DecidableEq V] : FactProduction (Atom V) V (Database V) :=
  { factBase with calls := factCalls, unifies := alikeInstances_unifies }

/-- `if p(X) then [assert_rtx(q(X))] else [retract_rtx(r)]` and
    `if r then [assert_rtx(p(1))]` of priority 1. -/
def branchedRules : List (Rule (Atom Nat)) :=
  [.ifElse ⟨some "low", none⟩ (.atom ⟨"p", [.var 0]⟩) [.add .assert_rtx ⟨"q", [.var 0]⟩]
    [.remove .retract_rtx ⟨"r", []⟩],
   .ifThen ⟨some "high", some 1⟩ (.atom ⟨"r", []⟩) [.add .assert_rtx ⟨"p", [.val 1]⟩]]

/-- `if p(X) or q(X) then [assert_rtx(s(X))]`. -/
def eitherRule : Rule (Atom Nat) :=
  .ifThen ⟨some "either", none⟩ (.or (.atom ⟨"p", [.var 0]⟩) (.atom ⟨"q", [.var 0]⟩))
    [.add .assert_rtx ⟨"s", [.var 0]⟩]

/-- `if (p(X) or q(X)) and r(X) then [assert_rtx(s(X))] else [assert_rtx(t)]`. -/
def bothRule : Rule (Atom Nat) :=
  .ifElse ⟨some "both", none⟩
    (.and (.or (.atom ⟨"p", [.var 0]⟩) (.atom ⟨"q", [.var 0]⟩)) (.atom ⟨"r", [.var 0]⟩))
    [.add .assert_rtx ⟨"s", [.var 0]⟩] [.add .assert_rtx ⟨"t", []⟩]

end SmartWarehouse.Kbase
