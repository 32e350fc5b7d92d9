/-
  `evaluate_pre_condition/2` of `RTXmodule.pl`.

  The states of a call are asserted in the module `m121`, recorded in `the_states/1` and taken
  back by the next call. Before a condition is tested the predicates of its subterms are made
  dynamic, unless the module has or inherits them. A call succeeds exactly if some substitution
  satisfies the conditions in its states alone, whatever was evaluated before, when the
  predicates of its conditions are its own (`evaluatePreCondition_iff`): a predicate of `user`
  answers in their place as long as the module has never had one.
-/
import SmartWarehouse.Kbase.FactBase
import SmartWarehouse.Kbase.NestedStates
import SmartWarehouse.Lib.Matching
import SmartWarehouse.Lib.Stateless

namespace SmartWarehouse.Kbase

open SmartWarehouse.Lib

variable {V : Type}

/-! ## Conditions -/

def Fact.functor (f : Fact V) : String × Nat := (f.pred, f.args.length)

structure PatternAtom (V : Type) where
  pred : String
  args : List (Pattern V)

namespace PatternAtom

def functor (a : PatternAtom V) : String × Nat := (a.pred, a.args.length)

/-- The atom `not(A)`. -/
def negated (a : PatternAtom V) : PatternAtom V := ⟨"not", [univ a.pred a.args]⟩

def matchFact [DecidableEq V] (a : PatternAtom V) (f : Fact (GroundTerm V))
    (σ : Substitution V) : Option (Substitution V) :=
  if a.functor = f.functor then matchTerms a.args f.args σ else none

end PatternAtom

inductive Condition (V : Type) where
  | atom (a : PatternAtom V)
  | not (a : PatternAtom V)

def Condition.body : Condition V → PatternAtom V
  | .atom a => a
  | .not a => a

mutual
/-- The functors of the subterms, which are all ground. -/
def groundFunctors : GroundTerm V → List (String × Nat)
  | .atom name => [(name, 0)]
  | .constant _ => []
  | .compound name args => (name, args.length) :: groundFunctorsOf args
def groundFunctorsOf : List (GroundTerm V) → List (String × Nat)
  | [] => []
  | t :: ts => groundFunctors t ++ groundFunctorsOf ts
end

mutual
/-- The functors of the subterms that are compound or ground and have an atom as name. -/
def subFunctors (σ : Substitution V) : Pattern V → List (String × Nat)
  | .anonymous => []
  | .var x => ((σ x).map groundFunctors).getD []
  | .atom name => [(name, 0)]
  | .constant _ => []
  | .compound name args => (name, args.length) :: subFunctorsOf σ args
def subFunctorsOf (σ : Substitution V) : List (Pattern V) → List (String × Nat)
  | [] => []
  | p :: ps => subFunctors σ p ++ subFunctorsOf σ ps
end

def Condition.functors (σ : Substitution V) : Condition V → List (String × Nat)
  | .atom a => a.functor :: subFunctorsOf σ a.args
  | .not a => ("not", 1) :: a.functor :: subFunctorsOf σ a.args

/-! ## The module -/

/-- The facts of `m121`, its predicate `the_states/1`, and the predicates it has itself. -/
structure ModuleState (V : Type) where
  facts : List (Fact (GroundTerm V))
  theStates : List (Fact (GroundTerm V))
  defined : List (String × Nat)

/-- The modules `user` and `system`: the predicates they have, and what these answer. They do
    not change `m121`. -/
structure Inherited (V : Type) where
  defines : String × Nat → Bool
  call : PatternAtom V → Substitution V → Search (Substitution V)

namespace ModuleState

/-- `RTXmodule.pl` has been loaded. -/
def loaded : ModuleState V := ⟨[], [], [("the_states", 1)]⟩

def addToModuleStates (state : Fact (GroundTerm V)) (s : ModuleState V) : ModuleState V :=
  { s with theStates := state :: s.theStates }

def createStates : List (Fact (GroundTerm V)) → ModuleState V → ModuleState V
  | [], s => s
  | state :: states, s =>
    createStates states (addToModuleStates state
      { s with facts := s.facts ++ [state], defined := state.functor :: s.defined })

def resetModuleStates (s : ModuleState V) : ModuleState V := { s with theStates := [] }

/-- `current_predicate` succeeds for what the module has or inherits. -/
def tryDynamizeTestingState (inherited : Inherited V) (functor : String × Nat)
    (s : ModuleState V) : ModuleState V :=
  if functor ∈ s.defined ∨ inherited.defines functor = true then s
  else { s with defined := functor :: s.defined }

def dynaTestingStates (inherited : Inherited V) :
    List (String × Nat) → ModuleState V → ModuleState V
  | [], s => s
  | functor :: functors, s =>
    dynaTestingStates inherited functors (tryDynamizeTestingState inherited functor s)

def dynamizeTestingStates (inherited : Inherited V) (c : Condition V) (σ : Substitution V) :
    ModuleState V → ModuleState V := dynaTestingStates inherited (c.functors σ)

variable [DecidableEq V]

def deleteStates : List (Fact (GroundTerm V)) → ModuleState V → ModuleState V
  | [], s => s
  | state :: states, s =>
    deleteStates states { s with facts := s.facts.filter fun f => f ≠ state }

def deleteStatesModule (s : ModuleState V) : ModuleState V := deleteStates s.theStates s

/-- `m121:A`. -/
def call (inherited : Inherited V) (s : ModuleState V) (a : PatternAtom V)
    (σ : Substitution V) : Search (Substitution V) :=
  if a.functor ∈ s.defined then .ofList (s.facts.filterMap fun f => a.matchFact f σ)
  else if inherited.defines a.functor = true then inherited.call a σ
  else ⟨[], .raised⟩

/-- `m121:(\+A)`. -/
def callNegation (inherited : Inherited V) (s : ModuleState V) (a : PatternAtom V)
    (σ : Substitution V) : Search (Substitution V) :=
  (call inherited s a σ).commit (fun _ => .fail) (.one σ)

/-- `m121:not(A)`, where `not/1` of `system` is negation too. -/
def callNot (inherited : Inherited V) (s : ModuleState V) (a : PatternAtom V)
    (σ : Substitution V) : Search (Substitution V) :=
  if ("not", 1) ∈ s.defined then .ofList (s.facts.filterMap fun f => a.negated.matchFact f σ)
  else callNegation inherited s a σ

/-- When the first clause fails on `not(A)`, the second one calls it again. -/
def testarEstado (inherited : Inherited V) (s : ModuleState V) :
    Condition V → Substitution V → Search (Substitution V)
  | .atom a, σ => call inherited s a σ
  | .not a, σ => (callNegation inherited s a σ).commit .one (callNot inherited s a σ)

def testar (inherited : Inherited V) :
    List (Condition V) → Substitution V → Query (ModuleState V) (Substitution V)
  | [], σ => pure σ
  | c :: conditions, σ => fun s =>
    let s' := dynamizeTestingStates inherited c σ s
    (Query.ofSearch (testarEstado inherited s' c σ) >>= testar inherited conditions) s'

end ModuleState

/-- A call of `evaluate_pre_condition/2`, and what `m121` inherits at the time. The record and
    the negation are not states or atoms of the user. -/
structure EvaluateCall (V : Type) where
  inherited : Inherited V
  states : List (Fact (GroundTerm V))
  conditions : List (Condition V)
  states_user : ∀ f ∈ states, f.functor ≠ ("the_states", 1)
  conditions_user : ∀ c ∈ conditions,
    c.body.functor ≠ ("the_states", 1) ∧ c.body.functor ≠ ("not", 1)

variable [DecidableEq V]

def evaluatePreCondition (c : EvaluateCall V) : Query (ModuleState V) (Substitution V) := fun s =>
  ModuleState.testar c.inherited c.conditions (fun _ => none)
    (s.deleteStatesModule.resetModuleStates.createStates c.states)

/-- The call succeeds in the module as it is. -/
def EvaluateCall.succeeds (c : EvaluateCall V) (s : ModuleState V) : Bool :=
  (evaluatePreCondition c s).first.isSome

/-- The module after calls that have succeeded, failed or raised an error. -/
def afterCalls (calls : List (EvaluateCall V)) : ModuleState V :=
  calls.foldl (fun s c => (evaluatePreCondition c s).stop) .loaded

/-! ## What a call decides -/

omit [DecidableEq V] in
/-- The fact is an instance of the atom. -/
def PatternAtom.Instance (θ : Nat → GroundTerm V) (a : PatternAtom V) (f : Fact (GroundTerm V)) :
    Prop := a.functor = f.functor ∧ Instances θ a.args f.args

/-- `θ` satisfies the conditions from left to right in the states alone. The variables `bound`
    have their values already, the others of a negated atom may have any. -/
def Satisfies (states : List (Fact (GroundTerm V))) (θ : Nat → GroundTerm V) :
    Set Nat → List (Condition V) → Prop
  | _, [] => True
  | bound, .atom a :: conditions =>
    (∃ f ∈ states, a.Instance θ f) ∧
      Satisfies states θ (bound ∪ {x | x ∈ patternVars a.args}) conditions
  | bound, .not a :: conditions =>
    (∀ θ', (∀ x ∈ bound, θ' x = θ x) → ∀ f ∈ states, ¬ a.Instance θ' f) ∧
      Satisfies states θ bound conditions

/-- The substitutions that the states alone give for one condition. -/
def stateAnswers (states : List (Fact (GroundTerm V))) :
    Condition V → Substitution V → List (Substitution V)
  | .atom a, σ => states.filterMap fun f => a.matchFact f σ
  | .not a, σ => if (states.filterMap fun f => a.matchFact f σ) = [] then [σ] else []

def solutions (states : List (Fact (GroundTerm V))) :
    List (Condition V) → Substitution V → List (Substitution V)
  | [], σ => [σ]
  | c :: conditions, σ => (stateAnswers states c σ).flatMap (solutions states conditions)

theorem matchFact_iff (a : PatternAtom V) (f : Fact (GroundTerm V)) (σ : Substitution V)
    (θ : Nat → GroundTerm V) :
    (σ.Agrees θ ∧ a.Instance θ f) ↔ ∃ σ', a.matchFact f σ = some σ' ∧ σ'.Agrees θ := by
  unfold PatternAtom.Instance PatternAtom.matchFact
  by_cases hfunctor : a.functor = f.functor
  · rw [if_pos hfunctor, and_iff_right hfunctor, matchTerms_iff]
  · simp [hfunctor]

theorem matchFact_domain {a : PatternAtom V} {f : Fact (GroundTerm V)} {σ σ' : Substitution V}
    (h : a.matchFact f σ = some σ') : σ'.domain = σ.domain ∪ {x | x ∈ patternVars a.args} := by
  unfold PatternAtom.matchFact at h
  split at h
  · exact matchTerms_domain a.args f.args h
  · cases h

theorem matchFact_eq_none_iff {a : PatternAtom V} {f : Fact (GroundTerm V)}
    {σ : Substitution V} :
    a.matchFact f σ = none ↔ ∀ θ, σ.Agrees θ → ¬ a.Instance θ f := by
  unfold PatternAtom.Instance PatternAtom.matchFact
  by_cases hfunctor : a.functor = f.functor
  · simp [hfunctor, matchTerms_eq_none_iff]
  · simp [hfunctor]

theorem no_match_iff {states : List (Fact (GroundTerm V))} {a : PatternAtom V}
    {σ : Substitution V} :
    (states.filterMap fun f => a.matchFact f σ) = [] ↔
      ∀ θ, σ.Agrees θ → ∀ f ∈ states, ¬ a.Instance θ f := by
  rw [List.filterMap_eq_nil_iff]
  constructor
  · intro h θ hθ f hf
    exact matchFact_eq_none_iff.mp (h f hf) θ hθ
  · intro h f hf
    exact matchFact_eq_none_iff.mpr fun θ hθ => h θ hθ f hf

theorem mem_stateAnswers_not {states : List (Fact (GroundTerm V))} {a : PatternAtom V}
    {σ σ' : Substitution V} :
    σ' ∈ stateAnswers states (.not a) σ ↔
      σ' = σ ∧ (states.filterMap fun f => a.matchFact f σ) = [] := by
  rw [stateAnswers]
  by_cases h : (states.filterMap fun f => a.matchFact f σ) = []
  · rw [if_pos h, List.mem_singleton, and_iff_left h]
  · rw [if_neg h]
    exact iff_of_false List.not_mem_nil fun h' => h h'.2

theorem solutions_cons_ne_nil {states : List (Fact (GroundTerm V))} {c : Condition V}
    {conditions : List (Condition V)} {σ : Substitution V} :
    solutions states (c :: conditions) σ ≠ [] ↔
      ∃ σ' ∈ stateAnswers states c σ, solutions states conditions σ' ≠ [] := by
  rw [solutions, Ne, List.flatMap_eq_nil_iff]
  push Not
  rfl

/-- By induction on the conditions: an answer binds the variables of its atom as some instance
    does, and every instance is found. -/
theorem solutions_ne_nil_iff (states : List (Fact (GroundTerm V)))
    (conditions : List (Condition V)) (σ : Substitution V) :
    solutions states conditions σ ≠ [] ↔
      ∃ θ, σ.Agrees θ ∧ Satisfies states θ σ.domain conditions := by
  induction conditions generalizing σ with
  | nil => exact iff_of_true (List.cons_ne_nil _ _) ⟨σ.total, σ.agrees_total, trivial⟩
  | cons c conditions ih =>
    rw [solutions_cons_ne_nil]
    simp only [ih]
    cases c with
    | atom a =>
      constructor
      · intro ⟨σ', hσ', θ, hθ, hsat⟩
        obtain ⟨f, hf, hmatch⟩ := List.mem_filterMap.mp hσ'
        obtain ⟨hagrees, hinst⟩ := (matchFact_iff a f σ θ).mpr ⟨σ', hmatch, hθ⟩
        rw [matchFact_domain hmatch] at hsat
        exact ⟨θ, hagrees, ⟨f, hf, hinst⟩, hsat⟩
      · intro ⟨θ, hagrees, ⟨f, hf, hinst⟩, hsat⟩
        obtain ⟨σ', hmatch, hθ⟩ := (matchFact_iff a f σ θ).mp ⟨hagrees, hinst⟩
        rw [← matchFact_domain hmatch] at hsat
        exact ⟨σ', List.mem_filterMap.mpr ⟨f, hf, hmatch⟩, θ, hθ, hsat⟩
    | not a =>
      -- what the atom's other variables may be is what the extensions of `σ` differ in
      have hnone : ∀ θ, σ.Agrees θ → ((states.filterMap fun f => a.matchFact f σ) = [] ↔
          ∀ θ', (∀ x ∈ σ.domain, θ' x = θ x) → ∀ f ∈ states, ¬ a.Instance θ' f) := by
        intro θ hθ
        rw [no_match_iff]
        exact forall_congr' fun θ' => imp_congr hθ.congr Iff.rfl
      constructor
      · intro ⟨σ', hσ', θ, hθ, hsat⟩
        obtain ⟨rfl, hmatch⟩ := mem_stateAnswers_not.mp hσ'
        exact ⟨θ, hθ, (hnone θ hθ).mp hmatch, hsat⟩
      · intro ⟨θ, hθ, hinst, hsat⟩
        exact ⟨σ, mem_stateAnswers_not.mpr ⟨rfl, (hnone θ hθ).mpr hinst⟩, θ, hθ, hsat⟩

/-! ## What is in the module -/

namespace ModuleState

/-- Every fact is recorded. -/
def Recorded (s : ModuleState V) : Prop := ∀ f ∈ s.facts, f ∈ s.theStates

/-- The facts are the states, and the module has their predicates. -/
def Holding (states : List (Fact (GroundTerm V))) (s : ModuleState V) : Prop :=
  s.facts = states ∧ ∀ f ∈ states, f.functor ∈ s.defined

section

omit [DecidableEq V]

theorem createStates_facts (states : List (Fact (GroundTerm V))) (s : ModuleState V) :
    (createStates states s).facts = s.facts ++ states := by
  induction states generalizing s with
  | nil => simp [createStates]
  | cons state states ih => simp [createStates, ih, addToModuleStates]

theorem createStates_theStates (states : List (Fact (GroundTerm V))) (s : ModuleState V) :
    (createStates states s).theStates = states.reverse ++ s.theStates := by
  induction states generalizing s with
  | nil => simp [createStates]
  | cons state states ih => simp [createStates, ih, addToModuleStates]

theorem mem_createStates_defined {states : List (Fact (GroundTerm V))} {s : ModuleState V}
    {functor : String × Nat} :
    functor ∈ (createStates states s).defined ↔
      functor ∈ s.defined ∨ ∃ f ∈ states, f.functor = functor := by
  induction states generalizing s with
  | nil => simp [createStates]
  | cons state states ih =>
    rw [createStates, ih]
    simp only [addToModuleStates, List.mem_cons, exists_eq_or_imp, or_assoc]
    rw [eq_comm (a := functor), or_left_comm]

/-- Dynamic predicates are all that a test adds. -/
theorem dynaTestingStates_frame (inherited : Inherited V) (functors : List (String × Nat))
    (s : ModuleState V) :
    (dynaTestingStates inherited functors s).facts = s.facts ∧
      (dynaTestingStates inherited functors s).theStates = s.theStates ∧
      s.defined ⊆ (dynaTestingStates inherited functors s).defined := by
  induction functors generalizing s with
  | nil => exact ⟨rfl, rfl, List.Subset.refl _⟩
  | cons functor functors ih =>
    rw [dynaTestingStates, tryDynamizeTestingState]
    split
    · exact ih s
    · obtain ⟨hfacts, hrecord, hdefined⟩ := ih { s with defined := functor :: s.defined }
      exact ⟨hfacts, hrecord, List.Subset.trans (List.subset_cons_self ..) hdefined⟩

theorem dynaTestingStates_defined {inherited : Inherited V} {functors : List (String × Nat)}
    {s : ModuleState V} {functor : String × Nat} (h : functor ∈ functors)
    (hinherited : inherited.defines functor = false) :
    functor ∈ (dynaTestingStates inherited functors s).defined := by
  induction functors generalizing s with
  | nil => cases h
  | cons g functors ih =>
    rw [dynaTestingStates]
    rcases List.mem_cons.mp h with rfl | h
    · refine (dynaTestingStates_frame inherited functors _).2.2 ?_
      unfold tryDynamizeTestingState
      split <;> rename_i hif
      · exact hif.resolve_right (by simp [hinherited])
      · exact List.mem_cons_self
    · exact ih h

variable {inherited : Inherited V} {c : Condition V} {σ : Substitution V}

theorem Recorded.dynamizeTestingStates {s : ModuleState V} (h : s.Recorded) :
    (dynamizeTestingStates inherited c σ s).Recorded := by
  obtain ⟨hfacts, hrecord, -⟩ := dynaTestingStates_frame inherited (c.functors σ) s
  unfold Recorded ModuleState.dynamizeTestingStates
  rw [hfacts, hrecord]
  exact h

theorem Holding.dynamizeTestingStates {states : List (Fact (GroundTerm V))} {s : ModuleState V}
    (h : s.Holding states) : (dynamizeTestingStates inherited c σ s).Holding states := by
  obtain ⟨hfacts, -, hdefined⟩ := dynaTestingStates_frame inherited (c.functors σ) s
  exact ⟨hfacts.trans h.1, fun f hf => hdefined (h.2 f hf)⟩

end

theorem deleteStates_facts (states : List (Fact (GroundTerm V))) (s : ModuleState V) :
    (deleteStates states s).facts = s.facts.filter fun f => f ∉ states := by
  induction states generalizing s with
  | nil => simp [deleteStates]
  | cons state states ih =>
    rw [deleteStates, ih, List.filter_filter]
    congr 1
    funext f
    simp [Bool.and_comm]

/-- Taking back what is recorded leaves no fact. -/
theorem deleteStatesModule_facts {s : ModuleState V} (h : s.Recorded) :
    s.deleteStatesModule.facts = [] := by
  rw [deleteStatesModule, deleteStates_facts, List.filter_eq_nil_iff]
  intro f hf hnot
  exact of_decide_eq_true hnot (h f hf)

theorem testar_within (inherited : Inherited V) (conditions : List (Condition V))
    (σ : Substitution V) : (testar inherited conditions σ).Within Recorded := by
  induction conditions generalizing σ with
  | nil => exact .pure σ
  | cons c conditions ih =>
    intro s hs
    rw [testar]
    exact Query.Within.bind (.ofSearch _) ih _ hs.dynamizeTestingStates

end ModuleState

/-! ## Histories -/

theorem recorded_create {s : ModuleState V} (h : s.Recorded)
    (states : List (Fact (GroundTerm V))) :
    (s.deleteStatesModule.resetModuleStates.createStates states).Recorded := by
  intro f hf
  rw [ModuleState.createStates_facts] at hf
  rw [ModuleState.createStates_theStates]
  rcases List.mem_append.mp hf with hf | hf
  · rw [ModuleState.resetModuleStates, ModuleState.deleteStatesModule_facts h] at hf
    cases hf
  · exact List.mem_append_left _ (List.mem_reverse.mpr hf)

theorem holding_create {s : ModuleState V} (h : s.Recorded)
    (states : List (Fact (GroundTerm V))) :
    (s.deleteStatesModule.resetModuleStates.createStates states).Holding states := by
  refine ⟨?_, fun f hf => ModuleState.mem_createStates_defined.mpr (.inr ⟨f, hf, rfl⟩)⟩
  rw [ModuleState.createStates_facts, ModuleState.resetModuleStates,
    ModuleState.deleteStatesModule_facts h, List.nil_append]

theorem recorded_evaluatePreCondition (c : EvaluateCall V) {s : ModuleState V}
    (h : s.Recorded) : (evaluatePreCondition c s).stop.Recorded :=
  (ModuleState.testar_within c.inherited c.conditions _ _ (recorded_create h c.states)).stop

/-- After any calls every fact of the module is recorded. -/
theorem recorded_afterCalls (calls : List (EvaluateCall V)) : (afterCalls calls).Recorded := by
  have hrun : ∀ s : ModuleState V, s.Recorded →
      (calls.foldl (fun s c => (evaluatePreCondition c s).stop) s).Recorded := by
    induction calls with
    | nil => exact fun s hs => hs
    | cons c calls ih => exact fun s hs => ih _ (recorded_evaluatePreCondition c hs)
  exact hrun .loaded nofun

/-! ## Tests -/

/-- No state is a negation, and what a condition asks for is a predicate of the states or one
    that `m121` does not inherit. -/
def EvaluateCall.Own (c : EvaluateCall V) : Prop :=
  (∀ f ∈ c.states, f.functor ≠ ("not", 1)) ∧
    ∀ condition ∈ c.conditions, c.inherited.defines condition.body.functor = false ∨
      ∃ f ∈ c.states, f.functor = condition.body.functor

namespace ModuleState

theorem call_eq {inherited : Inherited V} {states : List (Fact (GroundTerm V))}
    {s : ModuleState V} (hs : s.facts = states) {a : PatternAtom V}
    (hdefined : a.functor ∈ s.defined) (σ : Substitution V) :
    s.call inherited a σ = .ofList (stateAnswers states (.atom a) σ) := by
  rw [call, if_pos hdefined, hs]
  rfl

/-- The second clause finds nothing that the first one does not. -/
theorem callNot_fail {inherited : Inherited V} {s : ModuleState V} {a : PatternAtom V}
    {σ : Substitution V} (hnot : ∀ f ∈ s.facts, f.functor ≠ ("not", 1))
    (h : s.callNegation inherited a σ = .fail) : s.callNot inherited a σ = .fail := by
  unfold callNot
  split
  · have hnone : (s.facts.filterMap fun f => a.negated.matchFact f σ) = [] := by
      rw [List.filterMap_eq_nil_iff]
      intro f hf
      exact if_neg fun hfunctor => hnot f hf hfunctor.symm
    rw [hnone]
    rfl
  · exact h

theorem testarEstado_eq {inherited : Inherited V} {states : List (Fact (GroundTerm V))}
    {s : ModuleState V} (hs : s.facts = states) (hnot : ∀ f ∈ states, f.functor ≠ ("not", 1))
    {c : Condition V} (hdefined : c.body.functor ∈ s.defined) (σ : Substitution V) :
    s.testarEstado inherited c σ = .ofList (stateAnswers states c σ) := by
  cases c with
  | atom a => exact call_eq hs hdefined σ
  | not a =>
    have hcall : s.call inherited a σ =
        .ofList (states.filterMap fun f => a.matchFact f σ) := call_eq hs hdefined σ
    rw [testarEstado, stateAnswers]
    by_cases hanswers : (states.filterMap fun f => a.matchFact f σ) = []
    · have hneg : s.callNegation inherited a σ = .one σ := by
        unfold callNegation
        rw [hcall, hanswers]
        rfl
      rw [hneg, if_pos hanswers]
      rfl
    · have hneg : s.callNegation inherited a σ = .fail := by
        obtain ⟨σ', rest, hcons⟩ := List.exists_cons_of_ne_nil hanswers
        unfold callNegation
        rw [hcall, hcons]
        rfl
      rw [hneg, if_neg hanswers, Search.commit_fail]
      exact callNot_fail (hs ▸ hnot) hneg

end ModuleState

omit [DecidableEq V] in
theorem body_functor_mem (c : Condition V) (σ : Substitution V) :
    c.body.functor ∈ c.functors σ := by
  cases c with
  | atom a => exact List.mem_cons_self
  | not a => exact List.mem_cons_of_mem _ List.mem_cons_self

omit [DecidableEq V] in
/-- The predicate of a condition is the module's by the time it is tested. -/
theorem EvaluateCall.Own.defined {c : EvaluateCall V} (hown : c.Own) {s : ModuleState V}
    (hs : s.Holding c.states) {condition : Condition V} (hmem : condition ∈ c.conditions)
    (σ : Substitution V) : condition.body.functor ∈
      (ModuleState.dynamizeTestingStates c.inherited condition σ s).defined := by
  rcases hown.2 condition hmem with hinherited | ⟨f, hf, hfunctor⟩
  · exact ModuleState.dynaTestingStates_defined (body_functor_mem condition σ) hinherited
  · rw [← hfunctor]
    exact hs.dynamizeTestingStates.2 f hf

/-- By induction on the conditions that are left. -/
theorem testar_denotes {c : EvaluateCall V} (hown : c.Own) {conditions : List (Condition V)}
    (hsub : conditions ⊆ c.conditions) (σ : Substitution V) :
    (ModuleState.testar c.inherited conditions σ).Denotes (ModuleState.Holding c.states)
      (fun _ => True) (.ofList (solutions c.states conditions σ)) := by
  induction conditions generalizing σ with
  | nil => exact .pure trivial
  | cons condition conditions ih =>
    intro s hs
    have hdefined := hown.defined hs (hsub List.mem_cons_self) σ
    have hs' : (ModuleState.dynamizeTestingStates c.inherited condition σ s).Holding c.states :=
      hs.dynamizeTestingStates
    rw [ModuleState.testar, solutions]
    dsimp only
    rw [ModuleState.testarEstado_eq hs'.1 hown.1 hdefined σ]
    exact Query.Denotes.flatMap (.ofSearch fun _ _ => trivial)
      (fun σ' _ => ih (fun x hx => hsub (List.mem_cons_of_mem _ hx)) σ') _ hs'

/-- After any calls, a call whose conditions are about its own predicates succeeds if and only if
    some substitution satisfies its conditions in its states. -/
theorem evaluatePreCondition_iff (calls : List (EvaluateCall V)) {c : EvaluateCall V}
    (hown : c.Own) :
    c.succeeds (afterCalls calls) = true ↔ ∃ θ, Satisfies c.states θ ∅ c.conditions := by
  have hholding := holding_create (recorded_afterCalls calls) c.states
  have hfirst := (testar_denotes hown (List.Subset.refl _) fun _ => none).first hholding
  have hiff := solutions_ne_nil_iff c.states c.conditions fun _ => none
  have hdomain : Substitution.domain (fun _ => none : Substitution V) = ∅ := by
    simp [Substitution.domain]
  rw [hdomain] at hiff
  calc c.succeeds (afterCalls calls) = true
      ↔ (solutions c.states c.conditions fun _ => none).head?.isSome = true := by
        rw [← Search.answers_ofList (solutions c.states c.conditions fun _ => none), ← hfirst,
          Option.isSome_map]
        rfl
    _ ↔ solutions c.states c.conditions (fun _ => none) ≠ [] := by
        rw [List.isSome_head?]
    _ ↔ ∃ θ, Satisfies c.states θ ∅ c.conditions := by
        rw [hiff]
        exact exists_congr fun θ => and_iff_right fun x t hx => by cases hx

/-! ## Predicates of other modules -/

/-- The fact `pred(n)`. -/
def numbered (pred : String) (n : Nat) : Fact (GroundTerm Nat) := ⟨pred, [.constant n]⟩

/-- The atom `pred(X)`. -/
def openAtom (pred : String) : PatternAtom Nat := ⟨pred, [.var 0]⟩

/-- The atom `pred(n)`. -/
def closedAtom (pred : String) (n : Nat) : PatternAtom Nat := ⟨pred, [.constant n]⟩

/-- The fact `p(1)` in `user`. -/
def userFact : Inherited Nat where
  defines functor := functor = ("p", 1)
  call a σ := .ofList ([numbered "p" 1].filterMap fun f => a.matchFact f σ)

/-- `evaluate_pre_condition(States, Conditions)` with that fact in `user`. -/
def callWith (states : List (Fact (GroundTerm Nat))) (conditions : List (Condition Nat))
    (states_user : ∀ f ∈ states, f.functor ≠ ("the_states", 1))
    (conditions_user : ∀ c ∈ conditions,
      c.body.functor ≠ ("the_states", 1) ∧ c.body.functor ≠ ("not", 1)) : EvaluateCall Nat :=
  ⟨userFact, states, conditions, states_user, conditions_user⟩

/-- The states `p(2)`, and no conditions. -/
def onlyStates : EvaluateCall Nat := callWith [numbered "p" 2] [] (by decide) nofun

/-- The condition `p(1)`, and no states. -/
def onlyConditions : EvaluateCall Nat :=
  callWith [] [.atom (closedAtom "p" 1)] nofun (by decide)

/-- `p(X), not(q(X))` where `q(1)`, `p(1)` and `p(2)` hold. -/
def sharedVariable : EvaluateCall Nat :=
  callWith [numbered "q" 1, numbered "p" 1, numbered "p" 2]
    [.atom (openAtom "p"), .not (openAtom "q")] (by decide) (by decide)

/-- `not(p(1))` where `p(1)` and `not(p(1))` hold. -/
def negatedState : EvaluateCall Nat :=
  callWith [numbered "p" 1, ⟨"not", [.compound "p" [.constant 1]]⟩]
    [.not (closedAtom "p" 1)] (by decide) (by decide)

/-- The second solution of the atom is the one, after calls that succeeded and failed. -/
theorem evaluatePreCondition_iff_shared :
    sharedVariable.succeeds (afterCalls [onlyConditions, onlyStates, onlyConditions]) = true ↔
      ∃ θ, Satisfies sharedVariable.states θ ∅ sharedVariable.conditions :=
  evaluatePreCondition_iff [onlyConditions, onlyStates, onlyConditions] ⟨by decide, by decide⟩

example : sharedVariable.succeeds .loaded = true := by decide

/-- The fact of `user` satisfies a condition that no state does, until `m121` has had a state of
    its predicate. A negated condition is satisfied by a state that repeats it. -/
theorem user_fact_satisfies :
    (onlyConditions.succeeds (afterCalls []) = true ∧
      onlyConditions.succeeds (afterCalls [onlyStates]) = false ∧
      ¬ ∃ θ, Satisfies onlyConditions.states θ ∅ onlyConditions.conditions) ∧
      negatedState.succeeds (afterCalls []) = true ∧
      ¬ ∃ θ, Satisfies negatedState.states θ ∅ negatedState.conditions := by
  refine ⟨⟨by decide, by decide, ?_⟩, by decide, ?_⟩
  · rintro ⟨θ, ⟨f, hf, -⟩, -⟩
    cases hf
  · rintro ⟨θ, hnone, -⟩
    refine hnone θ (fun _ _ => rfl) (numbered "p" 1) List.mem_cons_self ⟨rfl, ?_⟩
    exact ⟨rfl, trivial⟩

end SmartWarehouse.Kbase
