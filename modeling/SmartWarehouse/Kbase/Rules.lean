/-
  Rules of `RTXengine.pl` and the evaluation of their conditions.

  A condition is built from atomic goals with the user-defined `and/2` and `or/2`, with `not/1`
  and with `true` and `false`. What the engine takes from Prolog (bindings, calls of atomic
  goals, database updates) is a parameter. `or/2` is `A, ! ; B`: it commits to the
  first answer of `A` and tries `B` only if `A` has none.
-/
import SmartWarehouse.Lib.Search

namespace SmartWarehouse.Kbase

open SmartWarehouse.Lib

/-! ## Goals and rules -/

/-- A condition over atomic goals `A`. -/
inductive Goal (A : Type) where
  | atom (a : A)
  | and (p q : Goal A)
  | or (p q : Goal A)
  | not (p : Goal A)
  | true
  | false
deriving DecidableEq, Repr

/-- The five forms of adding a fact that `has_goal/2` recognises. -/
inductive AddForm where
  | assert | assert_rtx | asserta | assertz | assert_once
deriving DecidableEq, Repr

inductive RemoveForm where
  | retract | retract_rtx
deriving DecidableEq, Repr

inductive Conclusion (A : Type) where
  | add (form : AddForm) (fact : A)
  | remove (form : RemoveForm) (fact : A)
  | other (goal : A)
deriving DecidableEq, Repr

structure Attributes where
  name : Option String
  priority : Option Int
deriving DecidableEq, Repr

/-- The four shapes of `defrule/2`. A conclusion that is no list is a list of one. -/
inductive Rule (A : Type) where
  | ifThen (attributes : Attributes) (ifCond : Goal A) (concl : List (Conclusion A))
  | ifElse (attributes : Attributes) (ifCond : Goal A) (concl elseConcl : List (Conclusion A))
  | ifElseIf (attributes : Attributes) (ifCond : Goal A) (concl : List (Conclusion A))
      (elseIfCond : Goal A) (elseIfConcl : List (Conclusion A))
  | ifElseIfElse (attributes : Attributes) (ifCond : Goal A) (concl : List (Conclusion A))
      (elseIfCond : Goal A) (elseIfConcl elseConcl : List (Conclusion A))
deriving DecidableEq, Repr

/-- A rule as `pick_a_rule/8` returns it. -/
structure PickedRule (A : Type) where
  attributes : Attributes
  ifCond : Goal A
  conclusions : List (Conclusion A)
  elseIfCond : Goal A
  elseIfConclusions : List (Conclusion A)
  elseConclusions : List (Conclusion A)
deriving DecidableEq, Repr

variable {A : Type}

def PickedRule.name (r : PickedRule A) : String := r.attributes.name.getD "not_named"

def PickedRule.priority (r : PickedRule A) : Int := r.attributes.priority.getD 0

/-- The missing branches of a shape: no conclusions, and the condition `false`. -/
def Rule.picked : Rule A → PickedRule A
  | .ifThen at_ c l => ⟨at_, c, l, .false, [], []⟩
  | .ifElse at_ c l e => ⟨at_, c, l, .false, [], e⟩
  | .ifElseIf at_ c l c' l' => ⟨at_, c, l, c', l', []⟩
  | .ifElseIfElse at_ c l c' l' e => ⟨at_, c, l, c', l', e⟩

/-- The position of a shape in the disjunction of `pick_a_rule/8`. -/
def Rule.shape : Rule A → Nat
  | .ifElseIfElse .. => 0
  | .ifElseIf .. => 1
  | .ifElse .. => 2
  | .ifThen .. => 3

/-- `pick_a_rule/8` with nothing bound: shape by shape, in source order. -/
def pickARule (rules : List (Rule A)) : List (PickedRule A) :=
  [0, 1, 2, 3].flatMap fun shape => (rules.filter fun r => r.shape = shape).map Rule.picked

/-- `pick_a_rule/8` with name and priority bound: what an attribute does not give is compared
    with its default. -/
def pickNamed (rules : List (Rule A)) (name : String) (priority : Int) :
    List (PickedRule A) :=
  (pickARule rules).filter fun r =>
    (r.attributes.name = some name ∨ name = "not_named") ∧
      (r.attributes.priority = some priority ∨ priority = 0)

theorem mem_pickARule {rules : List (Rule A)} {p : PickedRule A} :
    p ∈ pickARule rules ↔ ∃ r ∈ rules, r.picked = p := by
  simp only [pickARule, List.mem_flatMap, List.mem_map, List.mem_filter]
  constructor
  · rintro ⟨shape, -, r, ⟨hr, -⟩, rfl⟩
    exact ⟨r, hr, rfl⟩
  · rintro ⟨r, hr, rfl⟩
    exact ⟨r.shape, by cases r <;> simp [Rule.shape], r, ⟨hr, by simp⟩, rfl⟩

/-! ## Prolog -/

/-- What the engine takes from Prolog, over atomic goals `A`, bindings `E` and databases `D`. -/
structure Prolog (A E D : Type) where
  empty : E
  call : D → A → E → Search E

/-- What forward chaining takes besides: the first solution of a conclusion under
    `test_with_catch`, and whether two instances of conditions unify when renamed apart. -/
structure Production (A E D : Type) extends Prolog A E D where
  perform : D → Conclusion A → E → Option E × D
  alike : Goal A → E → Goal A → E → Bool

variable {E D : Type}

/-- The answers of a condition. -/
def Prolog.solve (P : Prolog A E D) (d : D) : Goal A → E → Search E
  | .atom a, e => P.call d a e
  | .and p q, e => (P.solve d p e).bind fun e' => P.solve d q e'
  | .or p q, e =>
    match (P.solve d p e).answers with
    | e' :: _ => .one e'
    | [] => (P.solve d p e).append (P.solve d q e)
  | .not p, e =>
    match (P.solve d p e).answers with
    | _ :: _ => .fail
    | [] => (P.solve d p e).append (.one e)
  | .true, e => .one e
  | .false, _ => .fail

/-- `test_with_catch(Name, Goal, false)`. A goal whose predicate does not exist fails at once;
    as an error ends the answers, that needs no case of its own. -/
def Prolog.test (P : Prolog A E D) (d : D) (goal : Goal A) (e : E) : Search E :=
  (P.solve d goal e).onError []

/-- `test_with_catch(Name, not(Goal), true)`: an error counts as success. -/
def Prolog.testNot (P : Prolog A E D) (d : D) (goal : Goal A) (e : E) : Search E :=
  (P.solve d (.not goal) e).onError [e]

variable (P : Prolog A E D) (d : D)

theorem Prolog.test_answers (goal : Goal A) (e : E) :
    (P.test d goal e).answers = (P.solve d goal e).answers :=
  Search.answers_onError_nil _

/-- A condition does not hold: its test ends without an answer. -/
def DoesNotHold (goal : Goal A) (e : E) : Prop :=
  (P.solve d goal e).answers = [] ∧ (P.solve d goal e).ending ≠ .timeout

theorem Prolog.testNot_answers (goal : Goal A) (e : E) :
    (P.testNot d goal e).answers = [e] ∧ DoesNotHold P d goal e ∨
      (P.testNot d goal e).answers = [] ∧ ¬ DoesNotHold P d goal e := by
  rw [Prolog.testNot, Prolog.solve, DoesNotHold]
  rcases P.solve d goal e with ⟨answers, ending⟩
  cases answers with
  | nil => cases ending <;> simp [Search.append, Search.onError]
  | cons e es => simp [Search.onError]

theorem Prolog.mem_testNot {d : D} {goal : Goal A} {e e' : E} :
    e' ∈ (P.testNot d goal e).answers ↔ DoesNotHold P d goal e ∧ e' = e := by
  rcases P.testNot_answers d goal e with ⟨ha, hg⟩ | ⟨ha, hg⟩
  · rw [ha, List.mem_singleton]
    exact ⟨fun he => ⟨hg, he⟩, fun he => he.2⟩
  · rw [ha]
    exact ⟨fun he => absurd he List.not_mem_nil, fun he => absurd he.1 hg⟩

end SmartWarehouse.Kbase
