/-
  `warehouse_config.pl`: the current and the previous state of every functor.

  `assert_state/1` reads the clock, moves the current state of the functor to `before/3` and
  asserts the new one; `retract_state/1` moves a current state to `before/3`, closing it with a
  second reading. `stateStep_cases` says what a call may do to the facts of one functor, and
  `state_store_invariant` follows: one state and one previous state for every functor. The
  second reading comes after the first, so the previous state ends no later than the current
  one begins exactly if no update sees the clock move (`chronological_iff`).
-/
import SmartWarehouse.Kbase.ClauseStore
import SmartWarehouse.Kbase.Patterns
import Mathlib.Order.Monotone.Defs
import Mathlib.Data.List.Induction

namespace SmartWarehouse.Kbase

/-! ## The store -/

/-- `state(State, TimeStamp)`. -/
abbrev StateFact (V T : Type) := StateClause (Fact V) T

/-- `before(State, TimeStamp_ini, TimeStamp_end)`. -/
abbrev BeforeFact (V T : Type) := BeforeClause (Fact V) T

abbrev StateStore (V T : Type) := ClauseStore (Fact V) T

variable {V T : Type} [DecidableEq V] (clock : Nat → T)

/-- The first answer of `state(Pattern, _)`. -/
def StateStore.findState (s : StateStore V T) (pattern : Atom V) : Option (StateFact V T) :=
  ClauseStore.findState Atom.matches s pattern

def StateStore.retractState (s : StateStore V T) (state : Atom V) : StateStore V T :=
  ClauseStore.retractState Atom.matches Fact.mostGeneric clock s state

def StateStore.assertBeforeState (s : StateStore V T) (newState : Fact V) : StateStore V T :=
  ClauseStore.assertBeforeState Atom.matches Fact.toAtom Fact.mostGeneric clock s newState

def StateStore.assertState (s : StateStore V T) (newState : Fact V) : StateStore V T :=
  ClauseStore.assertState Atom.matches Fact.toAtom Fact.mostGeneric clock s newState

/-! ## Runs -/

abbrev StateCall (V : Type) := StoreCall (Fact V) (Fact V)

def StateCall.state : StateCall V → Fact V
  | .assertState newState => newState
  | .retractState state => state

def StateStore.step (s : StateStore V T) : StateCall V → StateStore V T
  | .assertState newState => s.assertState clock newState
  | .retractState state => s.retractState clock state.toAtom

/-- A run from the empty store. -/
def runStates (calls : List (StateCall V)) : StateStore V T :=
  calls.foldl (StateStore.step clock) (ClauseStore.empty (Fact V) T)

/-! ## The facts of one functor -/

omit [DecidableEq V] in
def StateStore.statesOf (s : StateStore V T) (f : Fact V) : List (StateFact V T) :=
  s.states.filter fun x => f.sameFunctor x.state

omit [DecidableEq V] in
def StateStore.beforesOf (s : StateStore V T) (f : Fact V) : List (BeforeFact V T) :=
  s.befores.filter fun x => f.sameFunctor x.state

/-- `retractall` with the most generic term of `g` takes out the functor of `g`. -/
theorem filter_retractall {X : Type} (state : X → Fact V) (l : List X) (f g : Fact V) :
    ((l.filter fun x => !g.mostGeneric.matches (state x)).filter fun x =>
      f.sameFunctor (state x)) =
      if f.sameFunctor g then [] else l.filter fun x => f.sameFunctor (state x) := by
  rw [List.filter_filter]
  split
  · rename_i hfg
    apply List.filter_eq_nil_iff.mpr
    intro x _
    rw [mostGeneric_matches]
    intro hx
    have hx' : f.sameFunctor (state x) = true ∧ g.sameFunctor (state x) = false := by
      simpa using hx
    have hg := sameFunctor_trans (sameFunctor_symm hfg) hx'.1
    rw [hg] at hx'
    exact Bool.noConfusion hx'.2
  · rename_i hfg
    apply List.filter_congr
    intro x _
    rw [mostGeneric_matches]
    cases hfx : f.sameFunctor (state x) with
    | false => rfl
    | true =>
      cases hgx : g.sameFunctor (state x) with
      | false => rfl
      | true => exact absurd (sameFunctor_trans hfx (sameFunctor_symm hgx)) hfg

theorem findState_mostGeneric (s : StateStore V T) (f : Fact V) :
    s.findState f.mostGeneric = (s.statesOf f).head? := by
  unfold StateStore.findState ClauseStore.findState StateStore.statesOf
  rw [List.head?_filter]
  simp only [mostGeneric_matches]

/-- Looking again for the state that was found first finds the same fact. -/
theorem findState_again {s : StateStore V T} {pattern : Atom V} {found : StateFact V T}
    (h : s.findState pattern = some found) : s.findState found.state.toAtom = some found :=
  ClauseStore.findState_again toAtom_matches h

variable {clock} {s : StateStore V T} {pattern : Atom V} {found : StateFact V T}

theorem statesOf_retractState (h : s.findState pattern = some found) (f : Fact V) :
    (s.retractState clock pattern).statesOf f =
      if f.sameFunctor found.state then [] else s.statesOf f := by
  rw [StateStore.retractState, ClauseStore.retractState_of_some h]
  exact filter_retractall StateClause.state s.states f found.state

theorem beforesOf_retractState (h : s.findState pattern = some found) (f : Fact V) :
    (s.retractState clock pattern).beforesOf f =
      if f.sameFunctor found.state then [⟨found.state, found.timeStamp, clock s.readings⟩]
      else s.beforesOf f := by
  rw [StateStore.retractState, ClauseStore.retractState_of_some h]
  unfold StateStore.beforesOf
  rw [List.filter_append, filter_retractall BeforeClause.state s.befores f found.state]
  by_cases hf : f.sameFunctor found.state <;> simp [hf]

theorem retractState_of_none (h : s.findState pattern = none) :
    s.retractState clock pattern = s := ClauseStore.retractState_of_none h

theorem sameFunctor_of_findState {new : Fact V} (h : s.findState new.mostGeneric = some found) :
    new.sameFunctor found.state = true := by
  rw [← mostGeneric_matches]
  exact List.find?_some (p := fun x : StateFact V T => new.mostGeneric.matches x.state) h

omit [DecidableEq V] in
theorem statesOf_congr (s : StateStore V T) {f g : Fact V} (h : f.sameFunctor g = true) :
    s.statesOf f = s.statesOf g := by
  apply List.filter_congr
  intro x _
  rw [Bool.eq_iff_iff]
  exact ⟨sameFunctor_trans (sameFunctor_symm h), sameFunctor_trans h⟩

/-- The state that is found stands for the functor of the new one. -/
theorem sameFunctor_found {new : Fact V} (h : s.findState new.mostGeneric = some found)
    (f : Fact V) : f.sameFunctor found.state = f.sameFunctor new := by
  have hfound := sameFunctor_of_findState h
  rw [Bool.eq_iff_iff]
  constructor
  · intro hf
    exact sameFunctor_trans hf (sameFunctor_symm hfound)
  · intro hf
    exact sameFunctor_trans hf hfound

theorem StateStore.assertBeforeState_eq (new : Fact V) :
    s.assertBeforeState clock new = match s.findState new.mostGeneric with
      | none => s
      | some found => s.retractState clock found.state.toAtom := by
  cases hfind : s.findState new.mostGeneric with
  | none => exact ClauseStore.assertBeforeState_of_none hfind
  | some found =>
    have hmoved : s.retractState clock found.state.toAtom = _ :=
      ClauseStore.retractState_of_some (findState_again hfind)
    rw [StateStore.assertBeforeState, ClauseStore.assertBeforeState_of_some toAtom_matches hfind]
    exact hmoved.symm

/-- `assert_before_state` takes out the states of the functor. -/
theorem statesOf_assertBeforeState (new f : Fact V) :
    (s.assertBeforeState clock new).statesOf f =
      if f.sameFunctor new then [] else s.statesOf f := by
  rw [StateStore.assertBeforeState_eq]
  cases hfind : s.findState new.mostGeneric with
  | none =>
    rw [findState_mostGeneric] at hfind
    have hnone : s.statesOf new = [] := List.head?_eq_none_iff.mp hfind
    dsimp only
    split
    · rename_i hf
      exact (statesOf_congr s hf).trans hnone
    · rfl
  | some found =>
    dsimp only
    rw [statesOf_retractState (findState_again hfind), sameFunctor_found hfind]

/-- If there is a state of the functor, `assert_before_state` moves the first one. -/
theorem beforesOf_assertBeforeState (new f : Fact V) :
    (s.assertBeforeState clock new).beforesOf f =
      match s.findState new.mostGeneric with
      | none => s.beforesOf f
      | some found =>
        if f.sameFunctor new then [⟨found.state, found.timeStamp, clock s.readings⟩]
        else s.beforesOf f := by
  rw [StateStore.assertBeforeState_eq]
  cases hfind : s.findState new.mostGeneric with
  | none => rfl
  | some found =>
    dsimp only
    rw [beforesOf_retractState (findState_again hfind), sameFunctor_found hfind]

/-- `assert_state` leaves the new state as the only one of its functor. -/
theorem statesOf_assertState (new f : Fact V) :
    (s.assertState clock new).statesOf f =
      if f.sameFunctor new then [⟨new, clock s.readings⟩] else s.statesOf f := by
  have hbefore : (StateStore.assertBeforeState clock { s with readings := s.readings + 1 }
      new).statesOf f = if f.sameFunctor new then [] else s.statesOf f :=
    statesOf_assertBeforeState new f
  have happend : (s.assertState clock new).statesOf f =
      (StateStore.assertBeforeState clock { s with readings := s.readings + 1 } new).statesOf f ++
        [⟨new, clock s.readings⟩].filter fun x => f.sameFunctor x.state := List.filter_append ..
  rw [happend, hbefore]
  by_cases hf : f.sameFunctor new <;> simp [hf]

theorem beforesOf_assertState (new f : Fact V) :
    (s.assertState clock new).beforesOf f =
      match (s.statesOf new).head? with
      | none => s.beforesOf f
      | some found =>
        if f.sameFunctor new then [⟨found.state, found.timeStamp, clock (s.readings + 1)⟩]
        else s.beforesOf f := by
  rw [← findState_mostGeneric]
  exact beforesOf_assertBeforeState (s := { s with readings := s.readings + 1 }) new f

/-! ## What a call does to the facts of a functor -/

theorem retractState_cases (clock : Nat → T) (s : StateStore V T) (state f : Fact V) :
    ((s.retractState clock state.toAtom).statesOf f = s.statesOf f ∧
      (s.retractState clock state.toAtom).beforesOf f = s.beforesOf f) ∨
    f.sameFunctor state = true ∧ ∃ old ∈ s.statesOf f, state = old.state ∧
      (s.retractState clock state.toAtom).statesOf f = [] ∧
      (s.retractState clock state.toAtom).beforesOf f =
        [⟨old.state, old.timeStamp, clock s.readings⟩] := by
  cases hfind : s.findState state.toAtom with
  | none =>
    rw [retractState_of_none hfind]
    exact .inl ⟨rfl, rfl⟩
  | some found =>
    have hmatch := List.find?_some
      (p := fun x : StateFact V T => state.toAtom.matches x.state) hfind
    have hstate : state = found.state := (toAtom_matches _ _).mp hmatch
    rw [statesOf_retractState hfind, beforesOf_retractState hfind]
    by_cases hf : f.sameFunctor found.state
    · rw [if_pos hf, if_pos hf, hstate]
      have hmem : found ∈ s.statesOf f :=
        List.mem_filter.mpr ⟨List.mem_of_find?_eq_some hfind, hf⟩
      exact .inr ⟨hf, found, hmem, rfl, rfl, rfl⟩
    · rw [if_neg hf, if_neg hf]
      exact .inl ⟨rfl, rfl⟩

theorem assertState_cases (clock : Nat → T) (s : StateStore V T) (new f : Fact V) :
    ((s.assertState clock new).statesOf f = s.statesOf f ∧
      (s.assertState clock new).beforesOf f = s.beforesOf f) ∨
    f.sameFunctor new = true ∧ (s.assertState clock new).statesOf f = [⟨new, clock s.readings⟩] ∧
      ((s.assertState clock new).beforesOf f = s.beforesOf f ∨
        ∃ old ∈ s.statesOf f, (s.assertState clock new).beforesOf f =
          [⟨old.state, old.timeStamp, clock (s.readings + 1)⟩]) := by
  rw [statesOf_assertState, beforesOf_assertState]
  by_cases hf : f.sameFunctor new
  · rw [if_pos hf, ← statesOf_congr s hf]
    refine .inr ⟨hf, rfl, ?_⟩
    cases hhead : (s.statesOf f).head? with
    | none => exact .inl rfl
    | some old => exact .inr ⟨old, List.mem_of_mem_head? hhead, if_pos hf⟩
  · rw [if_neg hf]
    refine .inl ⟨rfl, ?_⟩
    split
    · rfl
    · exact if_neg hf

/-- A call leaves the facts of a functor alone; or it asserts a state, closing the old one, if
    there is one, with a second reading of the clock; or it closes a state. -/
theorem stateStep_cases (clock : Nat → T) (s : StateStore V T) (call : StateCall V) (f : Fact V) :
    ((s.step clock call).statesOf f = s.statesOf f ∧
      (s.step clock call).beforesOf f = s.beforesOf f) ∨
    f.sameFunctor call.state = true ∧
      ((∃ new, call = .assertState new ∧
          (s.step clock call).statesOf f = [⟨new, clock s.readings⟩] ∧
          ((s.step clock call).beforesOf f = s.beforesOf f ∨
            ∃ old ∈ s.statesOf f, (s.step clock call).beforesOf f =
              [⟨old.state, old.timeStamp, clock (s.readings + 1)⟩])) ∨
        ∃ old ∈ s.statesOf f, call = .retractState old.state ∧
          (s.step clock call).statesOf f = [] ∧
          (s.step clock call).beforesOf f =
            [⟨old.state, old.timeStamp, clock s.readings⟩]) := by
  cases call with
  | assertState new =>
    obtain hsame | ⟨hf, hcase⟩ := assertState_cases clock s new f
    · exact .inl hsame
    · exact .inr ⟨hf, .inl ⟨new, rfl, hcase⟩⟩
  | retractState state =>
    obtain hsame | ⟨hf, old, hold, rfl, hcase⟩ := retractState_cases clock s state f
    · exact .inl hsame
    · exact .inr ⟨hf, .inr ⟨old, hold, rfl, hcase⟩⟩

/-- A call changes no fact of another functor. -/
theorem step_frame (s : StateStore V T) {call : StateCall V} {f : Fact V}
    (h : f.sameFunctor call.state = false) :
    (s.step clock call).statesOf f = s.statesOf f ∧
      (s.step clock call).beforesOf f = s.beforesOf f := by
  obtain hsame | ⟨hf, -⟩ := stateStep_cases clock s call f
  · exact hsame
  · rw [h] at hf
    cases hf

/-! ## One state and one previous state -/

/-- At most one state and one previous state of every functor. -/
def StateStore.Single (s : StateStore V T) : Prop :=
  ∀ f, (s.statesOf f).length ≤ 1 ∧ (s.beforesOf f).length ≤ 1

theorem single_step {s : StateStore V T} (h : s.Single) (call : StateCall V) :
    (s.step clock call).Single := by
  intro f
  obtain ⟨hs, hb⟩ | ⟨-, ⟨new, -, hs, hb | ⟨old, -, hb⟩⟩ | ⟨old, -, -, hs, hb⟩⟩ :=
    stateStep_cases clock s call f
  · rw [hs, hb]
    exact h f
  · rw [hs, hb]
    exact ⟨le_refl 1, (h f).2⟩
  · rw [hs, hb]
    exact ⟨le_refl 1, le_refl 1⟩
  · rw [hs, hb]
    exact ⟨Nat.zero_le 1, le_refl 1⟩

omit [DecidableEq V] in
/-- The only state of a functor is the first. -/
theorem head_of_single {s : StateStore V T} (h : s.Single) {f : Fact V} {old : StateFact V T}
    (hold : old ∈ s.statesOf f) : (s.statesOf f).head? = some old := by
  have hlength := (h f).1
  cases hstates : s.statesOf f with
  | nil =>
    rw [hstates] at hold
    cases hold
  | cons first rest =>
    rw [hstates] at hold hlength
    have hrest : rest = [] := by
      apply List.eq_nil_of_length_eq_zero
      rw [List.length_cons] at hlength
      omega
    rw [hrest, List.mem_singleton] at hold
    rw [hold]
    rfl

theorem runStates_concat (calls : List (StateCall V)) (call : StateCall V) :
    runStates clock (calls ++ [call]) = (runStates clock calls).step clock call := by
  unfold runStates
  rw [List.foldl_append]
  rfl

theorem single_run (calls : List (StateCall V)) : (runStates clock calls).Single := by
  induction calls using List.reverseRecOn with
  | nil => intro f; exact ⟨Nat.zero_le 1, Nat.zero_le 1⟩
  | append_singleton calls call ih =>
    rw [runStates_concat]
    exact single_step ih call

/-- After any calls there is at most one state and one previous state of every functor; an
    update of a current state leaves the new state, and the old one as the previous state with
    the time it was asserted at; and no call changes another functor. -/
theorem state_store_invariant (clock : Nat → T) (calls : List (StateCall V)) :
    (∀ f, ((runStates clock calls).statesOf f).length ≤ 1 ∧
      ((runStates clock calls).beforesOf f).length ≤ 1) ∧
    (∀ new old, old ∈ (runStates clock calls).statesOf new →
      ∃ timeStamp timeStampEnd,
        ((runStates clock calls).assertState clock new).statesOf new = [⟨new, timeStamp⟩] ∧
        ((runStates clock calls).assertState clock new).beforesOf new =
          [⟨old.state, old.timeStamp, timeStampEnd⟩]) ∧
    ∀ call f, f.sameFunctor call.state = false →
      ((runStates clock calls).step clock call).statesOf f = (runStates clock calls).statesOf f ∧
      ((runStates clock calls).step clock call).beforesOf f =
        (runStates clock calls).beforesOf f := by
  have hsingle : (runStates clock calls).Single := single_run calls
  refine ⟨hsingle, ?_, fun call f h => step_frame _ h⟩
  intro new old hold
  have hhead := head_of_single hsingle hold
  refine ⟨clock (runStates clock calls).readings, clock ((runStates clock calls).readings + 1),
    ?_, ?_⟩
  · rw [statesOf_assertState, if_pos (sameFunctor_refl new)]
  · rw [beforesOf_assertState, hhead]
    dsimp only
    rw [if_pos (sameFunctor_refl new)]

theorem state_store_invariant_xIsAt :
    let calls : List (StateCall Nat) := [.assertState ⟨"x_is_at", [1]⟩]
    ∃ timeStamp timeStampEnd,
      ((runStates id calls).assertState id ⟨"x_is_at", [2]⟩).statesOf ⟨"x_is_at", [2]⟩ =
        [⟨⟨"x_is_at", [2]⟩, timeStamp⟩] ∧
      ((runStates id calls).assertState id ⟨"x_is_at", [2]⟩).beforesOf ⟨"x_is_at", [2]⟩ =
        [⟨⟨"x_is_at", [1]⟩, 0, timeStampEnd⟩] :=
  (state_store_invariant id [.assertState ⟨"x_is_at", [1]⟩]).2.1 ⟨"x_is_at", [2]⟩
    ⟨⟨"x_is_at", [1]⟩, 0⟩ (by decide)

/-! ## Chronology -/

/-- Of every functor, the previous state ended after it began and no later than the current one
    began. -/
def StateStore.Chronological [LE T] (s : StateStore V T) : Prop :=
  ∀ f, ∀ before ∈ s.beforesOf f, before.timeStampIni ≤ before.timeStampEnd ∧
    ∀ current ∈ s.statesOf f, before.timeStampEnd ≤ current.timeStamp

/-- No time in the store lies ahead of the clock. -/
structure StateStore.Dated [LE T] (clock : Nat → T) (s : StateStore V T) : Prop where
  states : ∀ f, ∀ current ∈ s.statesOf f, current.timeStamp ≤ clock s.readings
  befores : ∀ f, ∀ before ∈ s.beforesOf f, before.timeStampIni ≤ before.timeStampEnd ∧
    before.timeStampEnd ≤ clock s.readings

section Clock

variable [PartialOrder T]

omit [PartialOrder T] in
theorem readings_retractState (s : StateStore V T) (pattern : Atom V) :
    s.readings ≤ (s.retractState clock pattern).readings := by
  cases hfind : s.findState pattern with
  | none => rw [retractState_of_none hfind]
  | some found =>
    rw [StateStore.retractState, ClauseStore.retractState_of_some hfind]
    exact Nat.le_succ _

omit [PartialOrder T] in
theorem readings_assertState (s : StateStore V T) (new : Fact V) :
    s.readings + 1 ≤ (s.assertState clock new).readings := by
  show s.readings + 1 ≤
    (StateStore.assertBeforeState clock { s with readings := s.readings + 1 } new).readings
  rw [StateStore.assertBeforeState_eq]
  split
  · exact le_refl _
  · exact readings_retractState { s with readings := s.readings + 1 } _

omit [PartialOrder T] in
theorem readings_step (s : StateStore V T) (call : StateCall V) :
    s.readings ≤ (s.step clock call).readings := by
  cases call with
  | assertState new => exact (Nat.le_succ _).trans (readings_assertState s new)
  | retractState state => exact readings_retractState s _

theorem dated_step (hclock : Monotone clock) {s : StateStore V T} (h : s.Dated clock)
    (call : StateCall V) : (s.step clock call).Dated clock := by
  have hlater : clock s.readings ≤ clock (s.step clock call).readings :=
    hclock (readings_step s call)
  have hold : ∀ f, ∀ b ∈ s.beforesOf f, b.timeStampIni ≤ b.timeStampEnd ∧
      b.timeStampEnd ≤ clock (s.step clock call).readings := by
    intro f b hb
    obtain ⟨hini, hend⟩ := h.befores f b hb
    exact ⟨hini, le_trans hend hlater⟩
  constructor
  · intro f current hcurrent
    obtain ⟨hs, -⟩ | ⟨-, ⟨new, -, hs, -⟩ | ⟨old, -, -, hs, -⟩⟩ :=
      stateStep_cases clock s call f
    · rw [hs] at hcurrent
      exact le_trans (h.states f current hcurrent) hlater
    · rw [hs, List.mem_singleton] at hcurrent
      rw [hcurrent]
      exact hlater
    · rw [hs] at hcurrent
      cases hcurrent
  · intro f before hbefore
    obtain ⟨-, hb⟩ | ⟨-, ⟨new, hcall, -, hb | ⟨old, hmem, hb⟩⟩ | ⟨old, hmem, -, -, hb⟩⟩ :=
      stateStep_cases clock s call f
    · rw [hb] at hbefore
      exact hold f before hbefore
    · rw [hb] at hbefore
      exact hold f before hbefore
    · -- the old state was asserted before this call, and ends at its second reading
      have hnow : clock s.readings ≤ clock (s.readings + 1) := hclock (Nat.le_succ _)
      rw [hb, List.mem_singleton] at hbefore
      rw [hbefore, hcall]
      exact ⟨le_trans (h.states f old hmem) hnow, hclock (readings_assertState s new)⟩
    · rw [hb, List.mem_singleton] at hbefore
      rw [hbefore]
      exact ⟨h.states f old hmem, hlater⟩

/-- An update that replaces a state sees the clock stand still. -/
def Unmoved (clock : Nat → T) (s : StateStore V T) : StateCall V → Prop
  | .assertState new => s.statesOf new ≠ [] → clock (s.readings + 1) = clock s.readings
  | .retractState _ => True

theorem chronological_step (hclock : Monotone clock) {s : StateStore V T} (hdated : s.Dated clock)
    (h : s.Chronological) {call : StateCall V} (hcall : Unmoved clock s call) :
    (s.step clock call).Chronological := by
  intro f before hbefore
  refine ⟨((dated_step hclock hdated call).befores f before hbefore).1, ?_⟩
  intro current hcurrent
  obtain ⟨hs, hb⟩ | ⟨hf, ⟨new, rfl, hs, hb | ⟨old, hmem, hb⟩⟩ | ⟨old, -, -, hs, -⟩⟩ :=
    stateStep_cases clock s call f
  · rw [hs] at hcurrent
    rw [hb] at hbefore
    exact (h f before hbefore).2 current hcurrent
  · rw [hs, List.mem_singleton] at hcurrent
    rw [hb] at hbefore
    rw [hcurrent]
    exact (hdated.befores f before hbefore).2
  · rw [hs, List.mem_singleton] at hcurrent
    rw [hb, List.mem_singleton] at hbefore
    rw [hcurrent, hbefore]
    have hsame : s.statesOf f = s.statesOf new := statesOf_congr s hf
    refine le_of_eq (hcall ?_)
    rw [← hsame]
    exact List.ne_nil_of_mem hmem
  · rw [hs] at hcurrent
    cases hcurrent

/-- With a clock that never goes back, the history of every functor is chronological throughout
    a run exactly if no update that replaces a state sees the clock move between its two
    readings. -/
theorem chronological_iff (hclock : Monotone clock) (calls : List (StateCall V)) :
    (∀ pre, pre <+: calls → (runStates clock pre).Chronological) ↔
      ∀ pre call, pre ++ [call] <+: calls → Unmoved clock (runStates clock pre) call := by
  constructor
  · intro h pre call hpre
    cases call with
    | retractState state => trivial
    | assertState new =>
      intro hne
      have hchron := h _ hpre new
      rw [runStates_concat] at hchron
      change ∀ before ∈ ((runStates clock pre).assertState clock new).beforesOf new, _ ∧
        ∀ current ∈ ((runStates clock pre).assertState clock new).statesOf new, _ at hchron
      rw [statesOf_assertState, beforesOf_assertState, if_pos (sameFunctor_refl new)] at hchron
      cases hhead : ((runStates clock pre).statesOf new).head? with
      | none => exact absurd (List.head?_eq_none_iff.mp hhead) hne
      | some first =>
        rw [hhead] at hchron
        dsimp only at hchron
        rw [if_pos (sameFunctor_refl new)] at hchron
        obtain ⟨-, hend⟩ := hchron _ (List.mem_singleton.mpr rfl)
        apply le_antisymm
        · exact hend _ (List.mem_singleton.mpr rfl)
        · exact hclock (Nat.le_succ _)
  · intro h
    have hrun : ∀ pre, pre <+: calls →
        (runStates clock pre).Dated clock ∧ (runStates clock pre).Chronological := by
      intro pre
      induction pre using List.reverseRecOn with
      | nil =>
        intro _
        refine ⟨⟨?_, ?_⟩, ?_⟩ <;> intro f x hx <;> cases hx
      | append_singleton pre call ih =>
        intro hpre
        obtain ⟨hdated, hchron⟩ := ih ((List.prefix_append pre [call]).trans hpre)
        rw [runStates_concat]
        exact ⟨dated_step hclock hdated call,
          chronological_step hclock hdated hchron (h pre call hpre)⟩
    exact fun pre hpre => (hrun pre hpre).2

end Clock

/-- Two updates at one time. -/
theorem chronological_iff_steady :
    (runStates (fun _ => (5 : Nat)) [.assertState (⟨"x_is_at", [1]⟩ : Fact Nat),
      .assertState ⟨"x_is_at", [2]⟩]).Chronological := by
  refine (chronological_iff monotone_const _).mpr ?_ _ (List.prefix_refl _)
  intro pre call _
  cases call with
  | assertState new => exact fun _ => rfl
  | retractState state => trivial

/-- The state at 1 ends at reading 2, after the state at 2 began at reading 1. -/
theorem previous_state_outlives :
    Monotone (id : Nat → Nat) ∧
      ¬ (runStates id [.assertState (⟨"x_is_at", [1]⟩ : Fact Nat),
        .assertState ⟨"x_is_at", [2]⟩]).Chronological := by
  refine ⟨monotone_id, fun h => ?_⟩
  have hend := (h ⟨"x_is_at", [2]⟩ ⟨⟨"x_is_at", [1]⟩, 0, 2⟩ (by decide)).2
    ⟨⟨"x_is_at", [2]⟩, 1⟩ (by decide)
  exact absurd hend (by decide)

end SmartWarehouse.Kbase
