/-
  The clauses of `state/2` and `before/3` in `warehouse_config.pl`.

  A call of `assert_state/1` or `retract_state/1` looks for a state, moves it to `before/3` and
  takes out what its most generic term unifies with. What a state is, how a pattern unifies with
  it and which its most generic term is are parameters here: `StateStore` has states with atomic
  arguments, `NestedStates` has terms of any depth.
-/
import Mathlib.Data.List.Basic

namespace SmartWarehouse.Kbase

/-- `state(State, TimeStamp)`. -/
structure StateClause (S T : Type) where
  state : S
  timeStamp : T
deriving DecidableEq

/-- `before(State, TimeStamp_ini, TimeStamp_end)`. -/
structure BeforeClause (S T : Type) where
  state : S
  timeStampIni : T
  timeStampEnd : T
deriving DecidableEq

/-- The clauses of `state/2` and `before/3` in order, and how often `get_time` was called. -/
structure ClauseStore (S T : Type) where
  states : List (StateClause S T)
  befores : List (BeforeClause S T)
  readings : Nat
deriving DecidableEq

/-- A call with a new state, or with the state or the pattern to take out. -/
inductive StoreCall (S Q : Type) where
  | assertState (newState : S)
  | retractState (state : Q)

namespace ClauseStore

variable {S P T : Type}

def empty (S T : Type) : ClauseStore S T := ⟨[], [], 0⟩

variable (unifies : P → S → Bool) (toPattern mostGeneric : S → P) (clock : Nat → T)

/-- The first answer of `state(Pattern, _)`. -/
def findState (s : ClauseStore S T) (pattern : P) : Option (StateClause S T) :=
  s.states.find? fun x => unifies pattern x.state

def retractState (s : ClauseStore S T) (state : P) : ClauseStore S T :=
  match s.findState unifies state with
  | none => s
  | some found =>
    -- the call of `state/2` has bound `State` to a ground term
    let genericState := mostGeneric found.state
    { states := s.states.filter fun x => !unifies genericState x.state
      befores := (s.befores.filter fun x => !unifies genericState x.state) ++
        [⟨found.state, found.timeStamp, clock s.readings⟩]
      readings := s.readings + 1 }

/-- The call of `state/2` binds the generic term to the current state, and that is what
    `retract_state/1` gets. -/
def assertBeforeState (s : ClauseStore S T) (newState : S) : ClauseStore S T :=
  match s.findState unifies (mostGeneric newState) with
  | none => s
  | some found => s.retractState unifies mostGeneric clock (toPattern found.state)

def assertState (s : ClauseStore S T) (newState : S) : ClauseStore S T :=
  let timeStamp := clock s.readings
  let s' := assertBeforeState unifies toPattern mostGeneric clock
    { s with readings := s.readings + 1 } newState
  { s' with states := s'.states ++ [⟨newState, timeStamp⟩] }

variable {unifies toPattern mostGeneric clock} {s : ClauseStore S T} {pattern : P} {newState : S}
  {found : StateClause S T}

theorem retractState_of_none (h : s.findState unifies pattern = none) :
    s.retractState unifies mostGeneric clock pattern = s := by
  rw [retractState, h]

theorem retractState_of_some (h : s.findState unifies pattern = some found) :
    s.retractState unifies mostGeneric clock pattern =
      { states := s.states.filter fun x => !unifies (mostGeneric found.state) x.state
        befores := (s.befores.filter fun x => !unifies (mostGeneric found.state) x.state) ++
          [⟨found.state, found.timeStamp, clock s.readings⟩]
        readings := s.readings + 1 } := by
  rw [retractState, h]

theorem assertBeforeState_of_none (h : s.findState unifies (mostGeneric newState) = none) :
    s.assertBeforeState unifies toPattern mostGeneric clock newState = s := by
  rw [assertBeforeState, h]

/-- Looking again for the state that was found first finds the same fact. -/
theorem findState_again (hpattern : ∀ t u : S, unifies (toPattern t) u = true ↔ t = u)
    (h : s.findState unifies pattern = some found) :
    s.findState unifies (toPattern found.state) = some found := by
  unfold findState at h ⊢
  obtain ⟨hfound, pre, post, hsplit, hpre⟩ := List.find?_eq_some_iff_append.mp h
  refine List.find?_eq_some_iff_append.mpr ⟨?_, pre, post, hsplit, ?_⟩
  · exact (hpattern _ _).mpr rfl
  · intro x hx
    have hne := hpre x hx
    cases hmatch : unifies (toPattern found.state) x.state with
    | false => rfl
    | true =>
      rw [(hpattern _ _).mp hmatch] at hfound
      rw [hfound] at hne
      exact absurd hne (by decide)

/-- The state that is looked for with the generic term is moved. -/
theorem assertBeforeState_of_some (hpattern : ∀ t u : S, unifies (toPattern t) u = true ↔ t = u)
    (h : s.findState unifies (mostGeneric newState) = some found) :
    s.assertBeforeState unifies toPattern mostGeneric clock newState =
      { states := s.states.filter fun x => !unifies (mostGeneric found.state) x.state
        befores := (s.befores.filter fun x => !unifies (mostGeneric found.state) x.state) ++
          [⟨found.state, found.timeStamp, clock s.readings⟩]
        readings := s.readings + 1 } := by
  rw [assertBeforeState, h]
  exact retractState_of_some (findState_again hpattern h)

end ClauseStore

end SmartWarehouse.Kbase
