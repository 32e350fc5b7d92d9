/-
  What `holds/2` of `RTXstrips_planner.pl` leaves in the scratch module `simula`.

  `holds` asserts a world in `simula`, records every state in `asserted_state/1`, tests the goals
  there and takes the recorded states back. The module may have facts already, with variables in
  them, and the goals are any queries that change nothing. Taking back retracts every fact that
  unifies with a recorded state, so `simula` is as before exactly if no fact of it did so before
  (`holds_frame_iff`). The planner's own `holds`, over ground facts, is this one
  (`Kbase/ScratchPlanner`).
-/
import SmartWarehouse.Lib.Search
import SmartWarehouse.Lib.Terms

namespace SmartWarehouse.Kbase

open SmartWarehouse.Lib

variable {V Q E : Type}

/-! ## The scratch module -/

/-- The facts of `simula` and of `asserted_state/1`. -/
structure SimulaState (V : Type) where
  simula : List (Pattern V)
  assertedState : List (GroundTerm V)

namespace SimulaState

/-- `assert_states/1`. Its first clause asks for a predicate whose name is the whole state and
    never applies. -/
def assertStates : List (GroundTerm V) → SimulaState V → SimulaState V
  | [], s => s
  | state :: states, s =>
    assertStates states ⟨s.simula ++ [state.toPattern], s.assertedState ++ [state]⟩

variable [DecidableEq V]

/-- `retract_states/0`: for every recorded state all facts that unify with it. -/
def retractStates (s : SimulaState V) : SimulaState V :=
  ⟨s.assertedState.foldl (fun simula state => simula.filter fun c => !c.matchesTerm state) s.simula,
    []⟩

end SimulaState

/-! ## Goals -/

/-- A goal over queries. A sequence whose arguments are no list is never tested. -/
inductive PlannerGoal (Q : Type) where
  | query (q : Q)
  | list (goals : List (PlannerGoal Q))
  | seqList (goals : List (PlannerGoal Q))
  | seqTerm (goals : List (PlannerGoal Q))

/-- What a query does, over bindings `E`: its answers when it is called in `simula` (`none` if
    there is no such predicate), and what a goal becomes when it is unified with a state. -/
structure PureQueries (V Q E : Type) where
  call : SimulaState V → Q → E → Option (Search E)
  unify : PlannerGoal Q → GroundTerm V → E → Option E

variable (P : PureQueries V Q E)

/-- `test_with_catch(planner, simula:G, false)`. -/
def testQuery (s : SimulaState V) (q : Q) (e : E) : Search E :=
  match P.call s q e with
  | none => .fail
  | some answers => answers.onError []

mutual

/-- `test/1`. -/
def testGoal (s : SimulaState V) : PlannerGoal Q → E → Search E
  | .query q, e => testQuery P s q e
  | .list goals, e => testGoals s goals e
  | .seqList goals, e => (testGoals s goals e).once
  | .seqTerm _, _ => .fail

def testGoals (s : SimulaState V) : List (PlannerGoal Q) → E → Search E
  | [], e => .one e
  | goal :: goals, e => (testGoal s goal e).bind fun e' => testGoals s goals e'

end

/-- `ground_list/3`: an element that is in the world is unified with the first such state. -/
def groundList (w : List (GroundTerm V)) : List (PlannerGoal Q) → E → E
  | [], e => e
  | goal :: goals, e => groundList w goals ((w.findSome? fun state => P.unify goal state e).getD e)

/-- `ground_it/3`. -/
def groundGoal (w : List (GroundTerm V)) : PlannerGoal Q → E → Option E
  | .list goals, e => some (groundList P w goals e)
  | goal, e => w.findSome? fun state => P.unify goal state e

variable [DecidableEq V]

/-- `holds/2`: the bindings it succeeds with, if it does, and the scratch module afterwards. It
    does not return if the test of the goal does not end. -/
def holdsInSimula (goal : PlannerGoal Q) (w : List (GroundTerm V)) (e : E) (s : SimulaState V) :
    Option (Option E × SimulaState V) :=
  let s' := SimulaState.assertStates w { s with assertedState := [] }
  let tests := testGoal P s' goal e
  match tests.answers.findSome? (groundGoal P w goal) with
  | some e' => some (some e', s'.retractStates)
  | none => if tests.ending = .exhausted then some (none, s'.retractStates) else none

/-! ## The frame -/

omit [DecidableEq V] in
theorem assertStates_eq (w : List (GroundTerm V)) (s : SimulaState V) :
    SimulaState.assertStates w s =
      ⟨s.simula ++ w.map GroundTerm.toPattern, s.assertedState ++ w⟩ := by
  induction w generalizing s with
  | nil => simp [SimulaState.assertStates]
  | cons state w ih =>
    rw [SimulaState.assertStates, ih]
    simp

theorem foldl_filter_matches (states : List (GroundTerm V)) (simula : List (Pattern V)) :
    states.foldl (fun simula state => simula.filter fun c => !c.matchesTerm state) simula =
      simula.filter fun c => states.all fun state => !c.matchesTerm state := by
  induction states generalizing simula with
  | nil => simp
  | cons state states ih =>
    rw [List.foldl_cons, ih, List.filter_filter]
    simp only [List.all_cons, Bool.and_comm]

/-- Asserting a world and taking it back leaves the facts that unify with no state of it. -/
theorem retractStates_assertStates (w : List (GroundTerm V)) (s : SimulaState V) :
    (SimulaState.assertStates w { s with assertedState := [] }).retractStates =
      ⟨s.simula.filter fun c => w.all fun state => !c.matchesTerm state, []⟩ := by
  rw [assertStates_eq]
  unfold SimulaState.retractStates
  dsimp only
  rw [List.nil_append, foldl_filter_matches, List.filter_append]
  have hworld : ((w.map GroundTerm.toPattern).filter fun c =>
      w.all fun state => !c.matchesTerm state) = [] := by
    apply List.filter_eq_nil_iff.mpr
    intro c hc hall
    obtain ⟨state, hstate, rfl⟩ := List.mem_map.mp hc
    have hself := List.all_eq_true.mp hall state hstate
    rw [(toPattern_matches state state).mpr rfl] at hself
    cases hself
  rw [hworld, List.append_nil]

/-- Whether `holds` succeeds or fails, it ends with the states taken back. -/
theorem holdsInSimula_returns {goal : PlannerGoal Q} {w : List (GroundTerm V)} {e : E}
    {s s' : SimulaState V} {outcome : Option E}
    (h : holdsInSimula P goal w e s = some (outcome, s')) :
    s' = (SimulaState.assertStates w { s with assertedState := [] }).retractStates := by
  unfold holdsInSimula at h
  dsimp only at h
  split at h
  · exact (Prod.mk.inj (Option.some.inj h)).2.symm
  · split at h
    · exact (Prod.mk.inj (Option.some.inj h)).2.symm
    · cases h

/-- `holds` leaves the facts of `simula` and of `asserted_state/1` as they were, on success and
    on failure, if and only if no fact of `simula` unifies with a state of the world. -/
theorem holds_frame_iff {goal : PlannerGoal Q} {w : List (GroundTerm V)} {e : E}
    {s s' : SimulaState V} {outcome : Option E}
    (h : holdsInSimula P goal w e s = some (outcome, s')) :
    (s'.simula.Perm s.simula ∧ s'.assertedState = []) ↔
      ∀ c ∈ s.simula, ∀ state ∈ w, c.matchesTerm state = false := by
  rw [holdsInSimula_returns P h, retractStates_assertStates]
  dsimp only
  rw [and_iff_left rfl]
  constructor
  · intro hperm c hc state hstate
    -- no fact is missing, so the filter has kept them all
    have hall := List.filter_eq_self.mp
      (List.filter_sublist.eq_of_length hperm.length_eq) c hc
    simpa using List.all_eq_true.mp hall state hstate
  · intro hnone
    rw [List.filter_eq_self.mpr]
    intro c hc
    rw [List.all_eq_true]
    intro state hstate
    simp [hnone c hc state hstate]

/-- Ground facts as queries: a fact of `simula` that unifies with the query is an answer. -/
def factQueries : PureQueries Nat (GroundTerm Nat) Unit where
  call s q _ := some (.ofList ((s.simula.filter fun c => c.matchesTerm q).map fun _ => ()))
  unify
    | .query q, state, e => if q = state then some e else none
    | _, _, _ => none

def onTerm (n : Nat) : GroundTerm Nat := .compound "on" [.constant n]

/-- The facts `on(n)` in `simula`. -/
def onFacts (l : List Nat) : SimulaState Nat := ⟨l.map fun n => (onTerm n).toPattern, []⟩

theorem holdsInSimula_on : holdsInSimula factQueries (.list [.query (onTerm 1), .query (onTerm 2)])
    [onTerm 1, onTerm 1] () (onFacts [2]) = some (some (), onFacts [2]) := rfl

/-- A state twice in the world, and a goal that needs it and the fact that was there. -/
theorem holds_frame_iff_on :
    ((onFacts [2]).simula.Perm (onFacts [2]).simula ∧ (onFacts [2]).assertedState = []) ↔
      ∀ c ∈ (onFacts [2]).simula, ∀ state ∈ [onTerm 1, onTerm 1],
        c.matchesTerm state = false :=
  holds_frame_iff factQueries holdsInSimula_on

/-- The world repeats the fact `on(1)` of `simula`, which is gone after a goal that holds and
    after one that does not. -/
theorem holds_takes_own_fact :
    (holdsInSimula factQueries (.query (onTerm 1)) [onTerm 1] () (onFacts [1]) =
        some (some (), onFacts []) ∧
      holdsInSimula factQueries (.query (onTerm 2)) [onTerm 1] () (onFacts [1]) =
        some (none, onFacts [])) ∧
      ¬ (onFacts []).simula.Perm (onFacts [1]).simula := by
  refine ⟨⟨rfl, rfl⟩, fun h => ?_⟩
  exact absurd h.length_eq (by decide)

end SmartWarehouse.Kbase
