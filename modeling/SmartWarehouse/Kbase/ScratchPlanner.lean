/-
  The scratch module of the planner is the one of `Kbase/ScratchFrame`.

  In `Kbase/Planner` the module `simula` has ground facts only, and it is known which predicates
  are declared there. Its terms are read as ground terms (`Term.toGround`), whose arguments are
  one list, and its goals as `PlannerGoal`s (`Term.toGoal`). Then asserting and taking back a
  world, testing a goal and `holds/2` do the same in both (`holds_toSimula`), so the planner's
  `holds` leaves the facts that equal no state of the world (`holds_leaves`).
-/
import SmartWarehouse.Kbase.FactPlanner
import SmartWarehouse.Kbase.ScratchFrame

namespace SmartWarehouse.Kbase

open SmartWarehouse.Lib

/-! ## Terms and goals -/

/-- The term, with `none` for the empty list. -/
def Term.toGround : Term → GroundTerm (Option Int)
  | .atom name => .atom name
  | .int value => .constant (some value)
  | .nil => .constant none
  | .cons head tail => .compound "." [head.toGround, tail.toGround]
  | .compound name args => .compound name [args.toGround]

@[simp] theorem toGround_inj {t u : Term} : t.toGround = u.toGround ↔ t = u := by
  induction t generalizing u with
  | cons head tail ihHead ihTail => cases u <;> simp [Term.toGround, ihHead, ihTail]
  | compound name args ih => cases u <;> simp [Term.toGround, ih]
  | _ => cases u <;> simp [Term.toGround]

theorem toGround_matches (t u : Term) :
    t.toGround.toPattern.matchesTerm u.toGround = decide (t = u) := by
  rw [Bool.eq_iff_iff, toPattern_matches, toGround_inj, decide_eq_true_iff]

mutual

def Term.toGoal : Term → PlannerGoal Term
  | .nil => .list []
  | .cons goal goals => .list (goal.toGoal :: goals.toGoals)
  | .compound name (.cons l .nil) =>
    if name = "seq" then if l.isList then .seqList l.toGoals else .seqTerm [l.toGoal]
    else .query (.compound name (.cons l .nil))
  | .compound name args =>
    if name = "seq" then .seqTerm args.toGoals else .query (.compound name args)
  | .atom name => if name = "seq" then .seqTerm [] else .query (.atom name)
  | .int value => .query (.int value)
termination_by structural t => t

def Term.toGoals : Term → List (PlannerGoal Term)
  | .cons goal goals => goal.toGoal :: goals.toGoals
  | _ => []
termination_by structural t => t

end

/-- No part of the goal that is tested is a list without an end. -/
def Term.isGoal : Term → Bool
  | .cons goal goals => goal.isGoal && goals.isGoal && goals.isList
  | .compound name (.cons l .nil) => name ≠ "seq" || !l.isList || l.isGoal
  | _ => true

/-! ## The module -/

def Scratch.toSimula (s : Scratch) : SimulaState (Option Int) :=
  ⟨s.simula.map fun t => t.toGround.toPattern, s.asserted.map Term.toGround⟩

variable (out : Outside)

/-- What the planner calls, with the predicates declared so far. `ground_it/3` binds nothing and
    compares the whole goal with the states. -/
def plannerQueries (declared : List Term) (goal : Term) : PureQueries (Option Int) Term Unit where
  call s q _ :=
    if declared.any q.sameFunctor then
      some (.ofList ((s.simula.filter fun c => c.matchesTerm q.toGround).map fun _ => ()))
    else out.call q
  unify _ state e := if state = goal.toGround then some e else none

variable {out}

theorem assertStates_toSimula {w : List Term} (hw : Assertable out w) (s : Scratch) :
    (assertStates out w s).2.toSimula =
      SimulaState.assertStates (w.map Term.toGround) s.toSimula := by
  have hstates := (assertStates_cases w s).resolve_left
    (by rw [assertStates_of_assertable hw]; exact nofun)
  rw [assertStates_eq, Scratch.toSimula, hstates.1, hstates.2]
  simp [Scratch.toSimula]

/-- The facts that match no state of the world. -/
theorem filter_toGround (facts w : List Term) :
    ((facts.map fun t => t.toGround.toPattern).filter fun c =>
        (w.map Term.toGround).all fun state => !c.matchesTerm state) =
      (facts.filter fun t => t ∉ w).map fun t => t.toGround.toPattern := by
  rw [List.filter_map]
  refine congrArg _ (List.filter_congr fun t _ => ?_)
  simp only [Function.comp_def, List.all_map, toGround_matches]
  rw [Bool.eq_iff_iff, decide_eq_true_iff, List.all_eq_true]
  simp only [Bool.not_eq_true', decide_eq_false_iff_not]
  exact ⟨fun h hmem => h t hmem rfl, fun h state hstate heq => h (heq ▸ hstate)⟩

theorem retractStates_toSimula (s : Scratch) :
    (retractStates s).toSimula = s.toSimula.retractStates := by
  unfold Scratch.toSimula SimulaState.retractStates retractStates
  rw [foldl_filter_matches, filter_toGround]
  rfl

/-! ## Tests -/

theorem testQuery_toSimula (s : Scratch) (root q : Term) :
    testQuery (plannerQueries out s.declared root) s.toSimula q () = testSimula out s q := by
  unfold testQuery testSimula plannerQueries Scratch.toSimula
  by_cases hdeclared : s.declared.any q.sameFunctor = true
  · simp only [if_pos hdeclared, List.filter_map, List.map_map, Function.comp_def,
      toGround_matches]
    rfl
  · simp only [if_neg hdeclared]
    cases out.call q <;> rfl

theorem testGoal_toSimula (s : Scratch) (root goal : Term) (h : goal.isGoal = true) :
    testGoal (plannerQueries out s.declared root) s.toSimula goal.toGoal () = test out s goal ∧
      (goal.isList = true →
        testGoals (plannerQueries out s.declared root) s.toSimula goal.toGoals () =
          test out s goal) := by
  fun_induction test out s goal with
  | case1 => exact ⟨rfl, fun _ => rfl⟩
  | case2 goal goals ihGoal ihGoals =>
    simp only [Term.isGoal, Bool.and_eq_true] at h
    obtain ⟨⟨hgoal, hgoals⟩, hlist⟩ := h
    have htests : testGoals (plannerQueries out s.declared root) s.toSimula
        (goal.toGoal :: goals.toGoals) () = (test out s goal).bind fun _ => test out s goals := by
      rw [testGoals, (ihGoal hgoal).1]
      exact congrArg _ (funext fun _ => (ihGoals hgoals).2 hlist)
    have hcons : (Term.cons goal goals).isList = true := hlist
    rw [if_pos hcons, Search.fail_append]
    exact ⟨by rw [Term.toGoal, testGoal, htests], fun _ => by rw [Term.toGoals, htests]⟩
  | case3 l hlist ih =>
    have hl : l.isGoal = true := by simpa [Term.isGoal, hlist] using h
    refine ⟨?_, fun hlist => absurd hlist Bool.false_ne_true⟩
    rw [Term.toGoal, if_pos rfl, if_pos hlist, testGoal, (ih hl).2 hlist]
  | case4 l hlist =>
    refine ⟨?_, fun hlist => absurd hlist Bool.false_ne_true⟩
    rw [Term.toGoal, if_pos rfl, if_neg hlist, testGoal]
  | case5 name l hname =>
    refine ⟨?_, fun hlist => absurd hlist Bool.false_ne_true⟩
    rw [Term.toGoal, if_neg hname, testGoal, testQuery_toSimula]
  | case6 args hargs =>
    refine ⟨?_, fun hlist => absurd hlist Bool.false_ne_true⟩
    rw [Term.toGoal, if_pos rfl, testGoal]
    exact hargs
  | case7 name args hargs hname =>
    refine ⟨?_, fun hlist => absurd hlist Bool.false_ne_true⟩
    rw [Term.toGoal, if_neg hname, testGoal, testQuery_toSimula]
    exact hargs
  | case8 => exact ⟨rfl, fun hlist => absurd hlist Bool.false_ne_true⟩
  | case9 name hname =>
    refine ⟨?_, fun hlist => absurd hlist Bool.false_ne_true⟩
    rw [Term.toGoal, if_neg hname, testGoal, testQuery_toSimula]
  | case10 value =>
    exact ⟨testQuery_toSimula s root _, fun hlist => absurd hlist Bool.false_ne_true⟩

/-! ## Holds -/

/-- What `holds/2` comes to, with the first answer or without one. -/
def returned : Solutions Scratch Unit → Option (Option Unit × SimulaState (Option Int))
  | .answer a s _ => some (some a, s.toSimula)
  | .done s .exhausted => some (none, s.toSimula)
  | .done _ _ => none

theorem findSome_toGround (w : List Term) (goal : Term) :
    ((w.map Term.toGround).findSome? fun state => if state = goal.toGround then some () else none) =
      if goal ∈ w then some () else none := by
  induction w with
  | nil => rfl
  | cons state w ih =>
    rw [List.map_cons, List.findSome?_cons, ih]
    by_cases heq : state = goal
    · simp [heq]
    · simp [heq, Ne.symm heq]

/-- What is read as a list is one. -/
theorem toGoal_list {goal : Term} {goals : List (PlannerGoal Term)} (h : goal.toGoal = .list goals)
    (hgoal : goal.isGoal = true) : goal.isList = true := by
  unfold Term.toGoal at h
  split at h
  · rfl
  · rw [Term.isGoal, Bool.and_eq_true] at hgoal
    exact hgoal.2
  · split at h
    · split at h <;> cases h
    · cases h
  all_goals first | cases h | split at h <;> cases h

theorem groundGoal_toGoal (declared w : List Term) {goal : Term} (hgoal : goal.isGoal = true) :
    groundGoal (plannerQueries out declared goal) (w.map Term.toGround) goal.toGoal () =
      if groundIt w goal = true then some () else none := by
  by_cases hlist : goal.isList = true
  · cases goal with
    | nil => rfl
    | cons => simp [groundIt, hlist, Term.toGoal, groundGoal]
    | _ => cases hlist
  · have hstates : groundGoal (plannerQueries out declared goal) (w.map Term.toGround)
        goal.toGoal () = (w.map Term.toGround).findSome? fun state =>
          if state = goal.toGround then some () else none := by
      cases hform : goal.toGoal with
      | list goals => exact absurd (toGoal_list hform hgoal) hlist
      | _ => rfl
    rw [hstates, findSome_toGround]
    simp [groundIt, hlist]

/-- `holds/2` of the planner is `holds/2` on the module read so. -/
theorem holds_toSimula {w : List Term} (hw : Assertable out w) {goal : Term}
    (hgoal : goal.isGoal = true) (s : Scratch) :
    holdsInSimula (plannerQueries out (s.declared ++ w) goal) goal.toGoal (w.map Term.toGround) ()
      s.toSimula = returned (holds out goal w s) := by
  have hassert := assertStates_of_assertable hw { s with asserted := [] }
  have hdeclared : (assertStates out w { s with asserted := [] }).2.declared = s.declared ++ w :=
    assertStates_declared hassert
  have hsimula : (assertStates out w { s with asserted := [] }).2.toSimula =
      SimulaState.assertStates (w.map Term.toGround) { s.toSimula with assertedState := [] } :=
    assertStates_toSimula hw { s with asserted := [] }
  unfold holdsInSimula holds
  dsimp only
  rw [← hsimula, hassert, if_neg (by simp : ¬ true = false)]
  generalize (assertStates out w { s with asserted := [] }).2 = asserted at *
  have htest : testGoal (plannerQueries out asserted.declared goal) asserted.toSimula
      goal.toGoal () = test out asserted goal := (testGoal_toSimula asserted goal goal hgoal).1
  have hground : groundGoal (plannerQueries out (s.declared ++ w) goal) (w.map Term.toGround)
      goal.toGoal = fun _ => if groundIt w goal = true then some () else none :=
    funext fun _ => groundGoal_toGoal (s.declared ++ w) w hgoal
  rw [hdeclared] at htest
  rw [htest, hground, ← retractStates_toSimula]
  by_cases hfound : (test out asserted goal).answers ≠ [] ∧ groundIt w goal = true
  · rw [if_pos hfound]
    obtain ⟨a, answers, hanswers⟩ := List.exists_cons_of_ne_nil hfound.1
    rw [hanswers, List.findSome?_cons, if_pos hfound.2]
    rfl
  · have hnone : (test out asserted goal).answers.findSome?
        (fun _ => if groundIt w goal = true then some () else none) = none := by
      rw [List.findSome?_eq_none_iff]
      intro a ha
      exact if_neg fun hg => hfound ⟨List.ne_nil_of_mem ha, hg⟩
    rw [if_neg hfound, hnone]
    cases hending : (test out asserted goal).ending <;> rfl

/-- Whether the planner's `holds` succeeds or fails, it leaves the facts that equal no state of
    the world. -/
theorem holds_leaves {w : List Term} (hw : Assertable out w) {goal : Term}
    (hgoal : goal.isGoal = true) {s : Scratch} {outcome : Option Unit}
    {left : SimulaState (Option Int)}
    (h : returned (holds out goal w s) = some (outcome, left)) :
    left = Scratch.toSimula ⟨s.simula.filter fun t => t ∉ w, [], s.declared ++ w⟩ := by
  rw [← holds_toSimula hw hgoal] at h
  rw [holdsInSimula_returns _ h, retractStates_assertStates]
  unfold Scratch.toSimula
  rw [filter_toGround]
  rfl

end SmartWarehouse.Kbase
