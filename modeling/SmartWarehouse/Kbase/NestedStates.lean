/-
  `assert_state/1` and `retract_state/1` on states with nested terms as arguments.

  `make_most_generic_term/2` keeps the compound subterms of a state and puts a variable for every
  other argument, so the pattern of `f(3)` matches `f(g(2))` but not the other way round. One
  state is moved to `before/3`, while `retractall` takes out all that its pattern matches: a call
  drops no state exactly if it finds the only one that its pattern matches
  (`traced_iff_alone`), and so for whole runs (`no_state_dropped_iff`).
-/
import SmartWarehouse.Kbase.ClauseStore
import SmartWarehouse.Lib.Terms

namespace SmartWarehouse.Kbase

open SmartWarehouse.Lib

/-! ## Most generic terms -/

/-- `GenericTerm =.. [Name | L]`: without arguments an atom. -/
def univ {V : Type} (name : String) : List (Pattern V) → Pattern V
  | [] => .atom name
  | p :: ps => .compound name (p :: ps)

mutual
def makeMostGenericTerm2 {V : Type} : GroundTerm V → Pattern V
  | .compound name args => univ name (subGenerics args)
  | _ => .anonymous
/-- The `findall` over the arguments. -/
def subGenerics {V : Type} : List (GroundTerm V) → List (Pattern V)
  | [] => []
  | t :: ts => makeMostGenericTerm2 t :: subGenerics ts
end

def makeMostGenericTerm {V : Type} : GroundTerm V → Pattern V
  | .compound name args => makeMostGenericTerm2 (.compound name args)
  | t => t.toPattern

/-! ## The store -/

abbrev NestedState (V T : Type) := StateClause (GroundTerm V) T

abbrev NestedBefore (V T : Type) := BeforeClause (GroundTerm V) T

abbrev NestedStore (V T : Type) := ClauseStore (GroundTerm V) T

variable {V T : Type} [DecidableEq V] (clock : Nat → T)

/-- The first answer of `state(Pattern, _)`. -/
def NestedStore.findState (s : NestedStore V T) (pattern : Pattern V) :
    Option (NestedState V T) :=
  ClauseStore.findState Pattern.matchesTerm s pattern

def NestedStore.retractState (s : NestedStore V T) (state : Pattern V) : NestedStore V T :=
  ClauseStore.retractState Pattern.matchesTerm makeMostGenericTerm clock s state

def NestedStore.assertBeforeState (s : NestedStore V T) (newState : GroundTerm V) :
    NestedStore V T :=
  ClauseStore.assertBeforeState Pattern.matchesTerm GroundTerm.toPattern makeMostGenericTerm clock
    s newState

def NestedStore.assertState (s : NestedStore V T) (newState : GroundTerm V) : NestedStore V T :=
  ClauseStore.assertState Pattern.matchesTerm GroundTerm.toPattern makeMostGenericTerm clock s
    newState

/-! ## Runs -/

/-- `retract_state/1` may be called with variables in its argument. -/
abbrev NestedCall (V : Type) := StoreCall (GroundTerm V) (Pattern V)

def NestedStore.step (s : NestedStore V T) : NestedCall V → NestedStore V T
  | .assertState newState => s.assertState clock newState
  | .retractState state => s.retractState clock state

/-- A run from the empty store. -/
def runNested (calls : List (NestedCall V)) : NestedStore V T :=
  calls.foldl (NestedStore.step clock) (ClauseStore.empty (GroundTerm V) T)

/-- The store of a call after its retractions, which `assert_state` has not added to yet. -/
def NestedStore.retracted (s : NestedStore V T) : NestedCall V → NestedStore V T
  | .assertState newState =>
    NestedStore.assertBeforeState clock { s with readings := s.readings + 1 } newState
  | .retractState state => s.retractState clock state

/-- Every state fact that the call removes is there afterwards as a previous state. -/
def NestedStore.Traced (s : NestedStore V T) (call : NestedCall V) : Prop :=
  ∀ x ∈ s.states, x ∉ (s.retracted clock call).states →
    ∃ timeStampEnd, ⟨x.state, x.timeStamp, timeStampEnd⟩ ∈ (s.step clock call).befores

/-- The first state that the call looks for. -/
def NestedStore.target (s : NestedStore V T) : NestedCall V → Option (NestedState V T)
  | .assertState newState => s.findState (makeMostGenericTerm newState)
  | .retractState state => s.findState state

/-- The most generic term of the state that the call finds matches no other state fact. -/
def NestedStore.Alone (s : NestedStore V T) (call : NestedCall V) : Prop :=
  ∀ found, s.target call = some found →
    ∀ x ∈ s.states, (makeMostGenericTerm found.state).matchesTerm x.state = true → x = found

/-! ## One call -/

variable {s : NestedStore V T} {call : NestedCall V}

/-- The states and previous states that a call leaves, before `assert_state` adds the new one. -/
theorem retracted_of_target {found : NestedState V T} (h : s.target call = some found) :
    (s.retracted clock call).states =
        s.states.filter (fun x => !(makeMostGenericTerm found.state).matchesTerm x.state) ∧
      ∃ timeStampEnd, (s.retracted clock call).befores =
        (s.befores.filter fun x => !(makeMostGenericTerm found.state).matchesTerm x.state) ++
          [⟨found.state, found.timeStamp, timeStampEnd⟩] := by
  cases call with
  | assertState newState =>
    have hnew : NestedStore.findState { s with readings := s.readings + 1 }
        (makeMostGenericTerm newState) = some found := h
    rw [NestedStore.retracted, NestedStore.assertBeforeState,
      ClauseStore.assertBeforeState_of_some toPattern_matches hnew]
    exact ⟨rfl, _, rfl⟩
  | retractState state =>
    rw [NestedStore.retracted, NestedStore.retractState, ClauseStore.retractState_of_some h]
    exact ⟨rfl, _, rfl⟩

theorem retracted_of_none (h : s.target call = none) :
    (s.retracted clock call).states = s.states := by
  cases call with
  | assertState newState =>
    have hnew : NestedStore.findState { s with readings := s.readings + 1 }
        (makeMostGenericTerm newState) = none := h
    rw [NestedStore.retracted, NestedStore.assertBeforeState,
      ClauseStore.assertBeforeState_of_none hnew]
  | retractState state =>
    rw [NestedStore.retracted, NestedStore.retractState, ClauseStore.retractState_of_none h]

theorem befores_step (s : NestedStore V T) (call : NestedCall V) :
    (s.step clock call).befores = (s.retracted clock call).befores := by
  cases call <;> rfl

/-- A call leaves a trace of every state it removes exactly if it removes the one it found. -/
theorem traced_iff_alone (s : NestedStore V T) (call : NestedCall V) :
    s.Traced clock call ↔ s.Alone call := by
  unfold NestedStore.Traced NestedStore.Alone
  cases htarget : s.target call with
  | none =>
    rw [retracted_of_none clock htarget]
    constructor
    · intro _ found hfound
      cases hfound
    · intro _ x hx hnot
      exact absurd hx hnot
  | some found =>
    obtain ⟨hstates, timeStampEnd, hbefores⟩ := retracted_of_target clock htarget
    rw [befores_step, hstates, hbefores]
    -- a fact of `before/3` that the pattern matches is the one just added
    have hadded : ∀ x : NestedState V T,
        (makeMostGenericTerm found.state).matchesTerm x.state = true → ∀ t,
        (⟨x.state, x.timeStamp, t⟩ : NestedBefore V T) ∈
          (s.befores.filter fun x => !(makeMostGenericTerm found.state).matchesTerm x.state) ++
            [⟨found.state, found.timeStamp, timeStampEnd⟩] → x = found := by
      intro x hmatch t hmem
      obtain hold | hnew := List.mem_append.mp hmem
      · have hnot := (List.mem_filter.mp hold).2
        simp [hmatch] at hnot
      · obtain ⟨hstate, htime, -⟩ := BeforeClause.mk.inj (List.mem_singleton.mp hnew)
        obtain ⟨state, timeStamp⟩ := x
        obtain rfl : state = found.state := hstate
        obtain rfl : timeStamp = found.timeStamp := htime
        rfl
    constructor
    · intro h found' hfound' x hx hmatch
      obtain rfl := Option.some.inj hfound'
      have hremoved : x ∉ s.states.filter
          fun x => !(makeMostGenericTerm found.state).matchesTerm x.state := by
        intro hmem
        have hnot := (List.mem_filter.mp hmem).2
        simp [hmatch] at hnot
      obtain ⟨t, ht⟩ := h x hx hremoved
      exact hadded x hmatch t ht
    · intro h x hx hremoved
      have hmatch : (makeMostGenericTerm found.state).matchesTerm x.state = true := by
        by_contra hnot
        exact hremoved (List.mem_filter.mpr ⟨hx, by simpa using hnot⟩)
      obtain rfl := h found rfl x hx hmatch
      exact ⟨timeStampEnd, List.mem_append_right _ List.mem_cons_self⟩

/-! ## Runs -/

/-- No call of the run drops a state without a trace. -/
def NoStateDropped (clock : Nat → T) (calls : List (NestedCall V)) : Prop :=
  ∀ pre call post, calls = pre ++ call :: post →
    NestedStore.Traced clock (runNested clock pre) call

/-- Whenever a call of the run finds a state, its pattern matches no other. -/
def ClosesAlone (clock : Nat → T) (calls : List (NestedCall V)) : Prop :=
  ∀ pre call post, calls = pre ++ call :: post →
    NestedStore.Alone (runNested clock pre) call

/-- A run drops no state exactly if every state that a call closes is the only one its most
    generic term matches. -/
theorem no_state_dropped_iff (calls : List (NestedCall V)) :
    NoStateDropped clock calls ↔ ClosesAlone clock calls := by
  constructor
  · intro h pre call post hsplit
    exact (traced_iff_alone clock _ call).mp (h pre call post hsplit)
  · intro h pre call post hsplit
    exact (traced_iff_alone clock _ call).mpr (h pre call post hsplit)

/-- `f(3)`, `f(g(2))` and `f(4)`. -/
def nestedCalls : List (NestedCall Nat) :=
  [.assertState (.compound "f" [.constant 3]),
    .assertState (.compound "f" [.compound "g" [.constant 2]]),
    .assertState (.compound "f" [.constant 4])]

/-- The pattern of `f(3)` also takes out `f(g(2))`, which is never a previous state. -/
theorem nested_state_dropped :
    (runNested id (nestedCalls.take 2)).states =
        [⟨.compound "f" [.constant 3], 0⟩, ⟨.compound "f" [.compound "g" [.constant 2]], 1⟩] ∧
      (runNested id nestedCalls).states = [⟨.compound "f" [.constant 4], 2⟩] ∧
      (runNested id nestedCalls).befores = [⟨.compound "f" [.constant 3], 0, 3⟩] ∧
      ¬ NoStateDropped id nestedCalls := by
  refine ⟨rfl, rfl, rfl, ?_⟩
  intro h
  have htraced : NestedStore.Traced id (runNested id (nestedCalls.take 2))
      (.assertState (.compound "f" [.constant 4])) := h _ _ [] rfl
  have halone := (traced_iff_alone id _ _).mp htraced ⟨.compound "f" [.constant 3], 0⟩ rfl
    ⟨.compound "f" [.compound "g" [.constant 2]], 1⟩ (List.mem_cons_of_mem _ List.mem_cons_self)
    (by decide)
  cases halone

end SmartWarehouse.Kbase
