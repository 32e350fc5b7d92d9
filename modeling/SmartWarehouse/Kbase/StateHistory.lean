/-
  The store of states against the history of states.

  `history` keeps what the calls of `assert_state/1` and `retract_state/1` have said of every
  functor: its states one after another, each with the readings of the clock between which it was
  current. It never looks at the clock itself. The clauses of `state/2` and `before/3` are a window
  on it, with the times the clock showed: the current state, and the last one that is over
  (`store_refines_history`). Nothing that was asserted is missing in the history, and what the
  window drops it can get from nowhere else.
-/
import SmartWarehouse.Kbase.StateStore
import SmartWarehouse.Kbase.PreConditions
import Mathlib.Data.List.Chain
import Mathlib.Logic.Function.Basic

namespace SmartWarehouse.Kbase

variable {V T : Type}

/-! ## The history -/

/-- The states of a functor that are over, and the current one. The times are readings. -/
structure Timeline (V : Type) where
  past : List (BeforeFact V Nat)
  current : Option (StateFact V Nat)

def StateFact.over (stop : Nat) (x : StateFact V Nat) : BeforeFact V Nat :=
  ⟨x.state, x.timeStamp, stop⟩

/-- The current state is over, if there is one. -/
def Timeline.close (t : Timeline V) (stop : Nat) : Timeline V :=
  ⟨t.past ++ (t.current.map (StateFact.over stop)).toList, none⟩

def Timeline.states (t : Timeline V) : List (Fact V) :=
  t.past.map BeforeClause.state ++ t.current.toList.map StateClause.state

/-- The timeline of every functor, and how often the clock was read. -/
structure History (V : Type) where
  timelines : String × Nat → Timeline V
  readings : Nat

def History.empty (V : Type) : History V := ⟨fun _ => ⟨[], none⟩, 0⟩

def History.assertState (h : History V) (new : Fact V) : History V :=
  let t := h.timelines new.functor
  { timelines := Function.update h.timelines new.functor
      { t.close (h.readings + 1) with current := some ⟨new, h.readings⟩ }
    -- the state before is closed with a reading of its own
    readings := h.readings + 1 + t.current.toList.length }

variable [DecidableEq V]

def History.retractState (h : History V) (state : Fact V) : History V :=
  let t := h.timelines state.functor
  if t.current.map StateClause.state = some state then
    { timelines := Function.update h.timelines state.functor (t.close h.readings)
      readings := h.readings + 1 }
  else h

def History.step (h : History V) : StateCall V → History V
  | .assertState new => h.assertState new
  | .retractState state => h.retractState state

def history (calls : List (StateCall V)) : History V := calls.foldl History.step (.empty V)

/-- The states of a functor that the calls have asserted. -/
def assertedStates (k : String × Nat) (calls : List (StateCall V)) : List (Fact V) :=
  calls.filterMap fun
    | .assertState new => if new.functor = k then some new else none
    | .retractState _ => none

/-! ## The store is a window on it -/

def StateFact.at (clock : Nat → T) (x : StateFact V Nat) : StateFact V T :=
  ⟨x.state, clock x.timeStamp⟩

def BeforeFact.at (clock : Nat → T) (x : BeforeFact V Nat) : BeforeFact V T :=
  ⟨x.state, clock x.timeStampIni, clock x.timeStampEnd⟩

/-- The clauses of a functor are its current state and the last one that is over. -/
structure StateStore.Shows (clock : Nat → T) (s : StateStore V T) (h : History V) : Prop where
  states : ∀ f, s.statesOf f = ((h.timelines f.functor).current.map (.at clock)).toList
  befores : ∀ f, s.beforesOf f = ((h.timelines f.functor).past.getLast?.map (.at clock)).toList
  readings : s.readings = h.readings

omit [DecidableEq V] in
theorem functor_eq_iff {f g : Fact V} : f.sameFunctor g = true ↔ f.functor = g.functor := by
  simp only [sameFunctor_iff, Fact.functor, Prod.mk.injEq]

omit [DecidableEq V] in
/-- After closing, the state that was current is the last one that is over. -/
theorem Timeline.getLast_close (t : Timeline V) (stop : Nat) :
    (t.close stop).past.getLast? =
      (t.current.map (StateFact.over stop)).or t.past.getLast? := by
  unfold Timeline.close
  rw [List.getLast?_append]
  cases t.current <;> rfl

variable {clock : Nat → T} {s : StateStore V T} {h : History V}

theorem findState_shown (hshows : s.Shows clock h) (state : Fact V) :
    s.findState state.toAtom =
      if (h.timelines state.functor).current.map StateClause.state = some state then
        (h.timelines state.functor).current.map (.at clock)
      else none := by
  have hfind : s.findState state.toAtom =
      (s.statesOf state).find? fun x => state.toAtom.matches x.state := by
    unfold StateStore.findState ClauseStore.findState StateStore.statesOf
    rw [List.find?_filter]
    congr 1
    funext x
    rw [Bool.eq_iff_iff, decide_eq_true_iff, toAtom_matches]
    exact ⟨fun heq => ⟨heq ▸ sameFunctor_refl _, heq⟩, fun hboth => hboth.2⟩
  rw [hfind, hshows.states]
  cases (h.timelines state.functor).current with
  | none => rfl
  | some x =>
    rw [Option.map_some, Option.map_some, Option.toList_some, List.find?_cons]
    by_cases heq : state = x.state
    · have hm : state.toAtom.matches (x.at clock).state = true := (toAtom_matches _ _).mpr heq
      rw [if_pos (congrArg some heq.symm), hm]
    · have hne : state.toAtom.matches (x.at clock).state = false :=
        Bool.eq_false_iff.mpr fun hm => heq ((toAtom_matches _ _).mp hm)
      rw [if_neg (fun hsome => heq (Option.some.inj hsome).symm), hne]
      rfl

theorem readings_of_found {pattern : Atom V} {found : StateFact V T}
    (hfind : s.findState pattern = some found) :
    (s.retractState clock pattern).readings = s.readings + 1 := by
  rw [StateStore.retractState, ClauseStore.retractState_of_some hfind]

theorem readings_assert (new : Fact V) :
    (s.assertState clock new).readings =
      s.readings + 1 + (s.statesOf new).head?.toList.length := by
  have hfind : StateStore.findState { s with readings := s.readings + 1 } new.mostGeneric =
      (s.statesOf new).head? :=
    findState_mostGeneric { s with readings := s.readings + 1 } new
  show (StateStore.assertBeforeState clock { s with readings := s.readings + 1 } new).readings = _
  rw [StateStore.assertBeforeState_eq]
  rw [hfind]
  cases hhead : (s.statesOf new).head? with
  | none => rfl
  | some found =>
    rw [hhead] at hfind
    exact readings_of_found (findState_again hfind)

theorem shows_assertState (hshows : s.Shows clock h) (new : Fact V) :
    (s.assertState clock new).Shows clock (h.assertState new) := by
  have hhead : (s.statesOf new).head? = (h.timelines new.functor).current.map (.at clock) := by
    rw [hshows.states]
    cases (h.timelines new.functor).current <;> rfl
  refine ⟨fun f => ?_, fun f => ?_, ?_⟩
  · rw [statesOf_assertState, History.assertState]
    dsimp only
    by_cases hf : f.functor = new.functor
    · rw [if_pos (functor_eq_iff.mpr hf), hf, Function.update_self, hshows.readings]
      rfl
    · rw [if_neg fun hsame => hf (functor_eq_iff.mp hsame), Function.update_of_ne hf,
        hshows.states]
  · rw [beforesOf_assertState, hhead, History.assertState]
    dsimp only
    by_cases hf : f.functor = new.functor
    · rw [hf, Function.update_self, Timeline.getLast_close]
      cases hcurrent : (h.timelines new.functor).current with
      | none =>
        rw [← hf]
        exact hshows.befores f
      | some x =>
        rw [Option.map_some, Option.map_some, Option.some_or, hshows.readings]
        exact if_pos (functor_eq_iff.mpr hf)
    · rw [Function.update_of_ne hf, ← hshows.befores]
      cases (h.timelines new.functor).current with
      | none => rfl
      | some x => exact if_neg fun hsame => hf (functor_eq_iff.mp hsame)
  · rw [readings_assert, hhead, hshows.readings, History.assertState]
    cases (h.timelines new.functor).current <;> rfl

theorem shows_retractState (hshows : s.Shows clock h) (state : Fact V) :
    (s.retractState clock state.toAtom).Shows clock (h.retractState state) := by
  have hfind := findState_shown hshows state
  unfold History.retractState
  dsimp only
  by_cases hstate : (h.timelines state.functor).current.map StateClause.state = some state
  · obtain ⟨x, hcurrent, rfl⟩ := Option.map_eq_some_iff.mp hstate
    rw [if_pos hstate, hcurrent, Option.map_some] at hfind
    rw [if_pos hstate]
    have hfunctor : ∀ f : Fact V, f.sameFunctor (StateFact.at clock x).state = true ↔
        f.functor = x.state.functor := fun _ => functor_eq_iff
    refine ⟨fun f => ?_, fun f => ?_, ?_⟩
    · rw [statesOf_retractState hfind]
      dsimp only
      by_cases hf : f.functor = x.state.functor
      · rw [if_pos ((hfunctor f).mpr hf), hf, Function.update_self]
        rfl
      · rw [if_neg fun hsame => hf ((hfunctor f).mp hsame), Function.update_of_ne hf,
          hshows.states]
    · rw [beforesOf_retractState hfind]
      dsimp only
      by_cases hf : f.functor = x.state.functor
      · rw [if_pos ((hfunctor f).mpr hf), hf, Function.update_self, Timeline.getLast_close,
          hcurrent, hshows.readings]
        rfl
      · rw [if_neg fun hsame => hf ((hfunctor f).mp hsame), Function.update_of_ne hf,
          hshows.befores]
    · rw [readings_of_found hfind, hshows.readings]
  · rw [if_neg hstate] at hfind
    rw [if_neg hstate, retractState_of_none hfind]
    exact hshows

theorem shows_step (hshows : s.Shows clock h) (call : StateCall V) :
    (s.step clock call).Shows clock (h.step call) := by
  cases call with
  | assertState new => exact shows_assertState hshows new
  | retractState state => exact shows_retractState hshows state

theorem history_concat (calls : List (StateCall V)) (call : StateCall V) :
    history (calls ++ [call]) = (history calls).step call := by
  unfold history
  rw [List.foldl_append]
  rfl

theorem shows_run (clock : Nat → T) (calls : List (StateCall V)) :
    (runStates clock calls).Shows clock (history calls) := by
  induction calls using List.reverseRecOn with
  | nil => exact ⟨fun _ => rfl, fun _ => rfl, rfl⟩
  | append_singleton calls call ih =>
    rw [runStates_concat, history_concat]
    exact shows_step ih call

/-! ## What the history says -/

omit [DecidableEq V] in
theorem Timeline.states_close (t : Timeline V) (stop : Nat) : (t.close stop).states = t.states := by
  unfold Timeline.states Timeline.close
  cases t.current <;> simp [StateFact.over]

/-- One state begins after the other, and the other is over at the reading after that at the
    latest. -/
def Follows (a b : BeforeFact V Nat) : Prop :=
  a.timeStampIni < b.timeStampIni ∧ a.timeStampEnd ≤ b.timeStampIni + 1

/-- The states of a functor come one after another, all before the next reading. -/
structure Timeline.Ordered (t : Timeline V) (readings : Nat) : Prop where
  spans : ∀ x ∈ t.past, x.timeStampIni < x.timeStampEnd ∧ x.timeStampEnd < readings
  follows : t.past.IsChain Follows
  current : ∀ x ∈ t.current, x.timeStamp < readings ∧ ∀ stop, ∀ a ∈ t.past.getLast?,
    Follows a (x.over stop)

section Ordered

omit [DecidableEq V]

variable {t : Timeline V} {r : Nat}

theorem Timeline.close_of_none (hnone : t.current = none) (stop : Nat) : t.close stop = t := by
  obtain ⟨past, current⟩ := t
  cases hnone
  exact congrArg (Timeline.mk · none) (List.append_nil past)

theorem Timeline.Ordered.later (ht : t.Ordered r) {r' : Nat} (hle : r ≤ r') : t.Ordered r' := by
  refine ⟨fun x hx => ?_, ht.follows, fun x hx => ?_⟩
  · obtain ⟨hspan, hend⟩ := ht.spans x hx
    exact ⟨hspan, by omega⟩
  · obtain ⟨hbegin, hfollows⟩ := ht.current x hx
    exact ⟨by omega, hfollows⟩

theorem Timeline.Ordered.close (ht : t.Ordered r) {stop : Nat} (hstop : r ≤ stop) :
    (t.close stop).Ordered (stop + 1) := by
  refine ⟨fun x hx => ?_, ?_, fun x hx => nomatch hx⟩
  · obtain hx | hx := List.mem_append.mp hx
    · obtain ⟨hspan, hend⟩ := ht.spans x hx
      exact ⟨hspan, by omega⟩
    · obtain ⟨y, hy, rfl⟩ := Option.map_eq_some_iff.mp (Option.mem_toList.mp hx)
      have hbegin := (ht.current y hy).1
      exact ⟨by show y.timeStamp < stop; omega, Nat.lt_succ_self stop⟩
  · refine ht.follows.append ?_ fun a ha b hb => ?_
    · cases t.current with
      | none => exact .nil
      | some y => exact .singleton _
    · cases hcurrent : t.current with
      | none =>
        rw [hcurrent] at hb
        cases hb
      | some y =>
        rw [hcurrent] at hb
        cases hb
        exact (ht.current y hcurrent).2 stop a ha

/-- An update begins the new state at the first reading and closes the old one at the second. -/
theorem Timeline.Ordered.begin (ht : t.Ordered r) (new : Fact V) :
    Timeline.Ordered { t.close (r + 1) with current := some ⟨new, r⟩ }
      (r + 1 + t.current.toList.length) := by
  cases hcurrent : t.current with
  | none =>
    rw [Timeline.close_of_none hcurrent]
    refine ⟨(ht.later (Nat.le_succ r)).spans, ht.follows, fun x hx => ?_⟩
    cases hx
    refine ⟨Nat.lt_succ_self r, fun stop a ha => ?_⟩
    obtain ⟨hspan, hend⟩ := ht.spans a (List.mem_of_mem_getLast? ha)
    exact ⟨by show a.timeStampIni < r; omega, by show a.timeStampEnd ≤ r + 1; omega⟩
  | some old =>
    have hclose := ht.close (Nat.le_succ r)
    refine ⟨hclose.spans, hclose.follows, fun x hx => ?_⟩
    cases hx
    refine ⟨by show r < r + 1 + 1; omega, fun stop a ha => ?_⟩
    rw [Timeline.getLast_close, hcurrent] at ha
    cases ha
    exact ⟨(ht.current old hcurrent).1, Nat.le_refl (r + 1)⟩

end Ordered

/-- Whatever a call does, the timeline of a functor stays in order and gets the state that the
    call asserts of it. -/
theorem timeline_step {h : History V} (k : String × Nat)
    (hordered : (h.timelines k).Ordered h.readings) (call : StateCall V) :
    ((h.step call).timelines k).Ordered (h.step call).readings ∧
      ((h.step call).timelines k).states = (h.timelines k).states ++ assertedStates k [call] := by
  cases call with
  | assertState new =>
    show ((h.assertState new).timelines k).Ordered (h.assertState new).readings ∧
      ((h.assertState new).timelines k).states = _
    unfold History.assertState assertedStates
    dsimp only
    by_cases hk : k = new.functor
    · subst hk
      rw [Function.update_self]
      refine ⟨hordered.begin new, ?_⟩
      rw [← Timeline.states_close (h.timelines new.functor) (h.readings + 1)]
      simp [Timeline.states, Timeline.close]
    · rw [Function.update_of_ne hk]
      refine ⟨hordered.later (by omega), ?_⟩
      simp [Ne.symm hk]
  | retractState state =>
    have hnone : assertedStates k [.retractState state] = [] := rfl
    rw [hnone, List.append_nil]
    show ((h.retractState state).timelines k).Ordered (h.retractState state).readings ∧
      ((h.retractState state).timelines k).states = _
    unfold History.retractState
    dsimp only
    split
    · by_cases hk : k = state.functor
      · subst hk
        dsimp only
        rw [Function.update_self]
        exact ⟨hordered.close (Nat.le_refl _), Timeline.states_close _ _⟩
      · dsimp only
        rw [Function.update_of_ne hk]
        exact ⟨hordered.later (Nat.le_succ _), rfl⟩
    · exact ⟨hordered, rfl⟩

theorem timeline_run (k : String × Nat) (calls : List (StateCall V)) :
    ((history calls).timelines k).Ordered (history calls).readings ∧
      ((history calls).timelines k).states = assertedStates k calls := by
  induction calls using List.reverseRecOn with
  | nil =>
    refine ⟨⟨?_, List.IsChain.nil, ?_⟩, rfl⟩ <;> intro x hx <;> cases hx
  | append_singleton calls call ih =>
    obtain ⟨hordered, hstates⟩ := ih
    obtain ⟨hordered', hstates'⟩ := timeline_step k hordered call
    rw [history_concat]
    refine ⟨hordered', ?_⟩
    rw [hstates', hstates]
    exact List.filterMap_append.symm

/-- After any calls, whatever the clock shows, the clauses of a functor are its current state and
    the last one that is over in the history, with the times of the readings; the states of the
    history are those that were asserted of the functor, in that order; and each is over, at the
    latest, at the reading after the one the next began with. -/
theorem store_refines_history (clock : Nat → T) (calls : List (StateCall V)) (f : Fact V) :
    let t := (history calls).timelines f.functor
    (runStates clock calls).statesOf f = (t.current.map (.at clock)).toList ∧
      (runStates clock calls).beforesOf f = (t.past.getLast?.map (.at clock)).toList ∧
      t.states = assertedStates f.functor calls ∧
      t.Ordered (runStates clock calls).readings := by
  intro t
  have hshows := shows_run clock calls
  obtain ⟨hordered, hstates⟩ := timeline_run f.functor calls
  refine ⟨hshows.states f, hshows.befores f, hstates, ?_⟩
  rw [hshows.readings]
  exact hordered

end SmartWarehouse.Kbase
