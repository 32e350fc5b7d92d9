/-
  The planner without its scratch module.

  Where goals and preconditions call no predicate outside `simula` and all states can be asserted,
  the scratch module only serves to look facts up in a world. Then every query of the planner
  denotes a search without a state, in which a goal holds in a world by its facts alone
  (`solve_denotes`).
-/
import SmartWarehouse.Kbase.PlannerFinite
import SmartWarehouse.Kbase.PlannerLoops
import SmartWarehouse.Lib.Stateless

namespace SmartWarehouse.Kbase

open SmartWarehouse.Lib

/-! ## Goals in a world of facts -/

/-- `test/1` where the facts of the world are all there is. -/
def testIn (w : List Term) : Term → Bool
  | .nil => true
  | .cons goal goals =>
    (!(Term.cons goal goals).isList && decide (Term.cons goal goals ∈ w)) ||
      (testIn w goal && testIn w goals)
  | .compound name (.cons l .nil) =>
    if name = "seq" then l.isList && testIn w l
    else decide (Term.compound name (.cons l .nil) ∈ w)
  | .compound name args => if name = "seq" then false else decide (Term.compound name args ∈ w)
  | .atom name => if name = "seq" then false else decide (Term.atom name ∈ w)
  | .int value => decide (Term.int value ∈ w)

/-- `holds/2`. -/
def holdsIn (w : List Term) (goal : Term) : Bool := testIn w goal && groundIt w goal

/-- Nothing that the goals call is a predicate outside `simula`. -/
def Closed (out : Outside) (goals : List Term) : Prop := ∀ t ∈ calls goals, out.call t = none

/-- A world of facts that can be asserted. -/
def FactWorld (out : Outside) (w : List Term) : Prop :=
  ∀ t ∈ w, t.IsFact ∧ out.assertable t = true

variable {out : Outside}

theorem FactWorld.assertable {w : List Term} (h : FactWorld out w) : Assertable out w :=
  fun t ht => (h t ht).2

theorem sameFunctor_self (t : Term) : t.sameFunctor t = true := by
  cases t <;> simp [Term.sameFunctor]

theorem assertStates_declared {w : List Term} {s : Scratch} (h : (assertStates out w s).1 = true) :
    (assertStates out w s).2.declared = s.declared ++ w := by
  induction w generalizing s with
  | nil => exact (List.append_nil _).symm
  | cons state states ih =>
    unfold assertStates at h ⊢
    split at h <;> rename_i hstate
    · rw [if_pos hstate, ih h, List.append_assoc, List.singleton_append]
    · cases h

/-- A goal without a predicate outside is looked up in the facts. -/
theorem testSimula_closed {s : Scratch} {goal : Term} (hcall : out.call goal = none)
    (hs : s.simula ⊆ s.declared) :
    ((testSimula out s goal).answers ≠ []) ↔ goal ∈ s.simula := by
  unfold testSimula
  split <;> rename_i hdeclared
  · rw [Search.answers_ofList, Ne, List.map_eq_nil_iff, List.filter_eq_nil_iff]
    refine ⟨fun h => ?_, fun hmem h => h goal hmem (by simp)⟩
    by_contra hmem
    refine h fun t ht heq => hmem ?_
    rwa [← of_decide_eq_true heq]
  · rw [hcall]
    refine ⟨fun h => absurd rfl h, fun hmem => absurd ?_ hdeclared⟩
    exact List.any_eq_true.mpr ⟨goal, hs hmem, sameFunctor_self goal⟩

theorem Closed.halting {goals : List Term} (h : Closed out goals) : Halting out goals := by
  intro t ht answers hcall
  rw [h t ht] at hcall
  cases hcall

theorem closed_singleton {t : Term} : Closed out [t] ↔ ∀ c ∈ t.calls, out.call c = none := by
  unfold Closed
  rw [calls_singleton]

theorem ne_nil_iff {α : Type} {l : List α} : l ≠ [] ↔ ∃ a, a ∈ l :=
  ⟨List.exists_mem_of_ne_nil l, fun ⟨_, ha⟩ => List.ne_nil_of_mem ha⟩

theorem test_closed {s : Scratch} {goal : Term} (h : Closed out [goal])
    (hs : s.simula ⊆ s.declared) :
    ((test out s goal).answers ≠ []) ↔ testIn s.simula goal = true := by
  have found : ∀ {t : Term}, out.call t = none →
      (((testSimula out s t).answers ≠ []) ↔ t ∈ s.simula) := fun ht => testSimula_closed ht hs
  rw [closed_singleton] at h
  fun_induction test out s goal with
  | case1 => simp [testIn]
  | case2 goal goals ihgoal ihgoals =>
    have hgoal := fun c hc => h c (goal.calls_head_subset goals hc)
    have hgoals := fun c hc => h c (goal.calls_tail_subset goals hc)
    have hfirst : ((if (Term.cons goal goals).isList then .fail
        else testSimula out s (.cons goal goals) : Search Unit).answers ≠ []) ↔
        (Term.cons goal goals).isList = false ∧ Term.cons goal goals ∈ s.simula := by
      split <;> rename_i hlist
      · simp [hlist]
      · rw [found]
        · simp [hlist]
        · refine h _ ?_
          rw [Term.calls_cons, if_neg hlist]
          exact List.mem_append_left _ (List.mem_append_left _ (List.mem_singleton_self _))
    have halting : Halting out [.cons goal goals] := (closed_singleton.mpr h).halting
    have hends := test_exhausted halting (s := s)
    rw [test, Search.append_exhausted] at hends
    have hends' := (Search.bind_exhausted.mp hends.2).1
    replace hends := hends.1
    rw [ne_nil_iff]
    simp only [Search.mem_append_of_exhausted hends, Search.mem_bind_of_exhausted hends',
      exists_or, exists_and_right]
    rw [← ne_nil_iff, hfirst, ← ne_nil_iff, exists_and_left, ← ne_nil_iff]
    rw [propext (ihgoal hgoal), propext (ihgoals hgoals)]
    simp [testIn]
  | case3 l hlist ih =>
    rw [← calls_singleton, calls_seq_list] at h
    rw [Ne, Search.once_answers_eq_nil]
    refine (ih h).trans ?_
    simp [testIn, hlist]
  | case4 l hlist => simp [testIn, hlist]
  | case5 name l hname =>
    rw [found (h _ (by rw [Term.calls, if_neg hname]; exact List.mem_singleton_self _))]
    simp [testIn, hname]
  | case6 args hargs =>
    unfold testIn
    split <;> simp_all
  | case7 name args hargs hname =>
    rw [found (h _ (by rw [Term.calls, if_neg hname]; exact List.mem_singleton_self _))]
    unfold testIn
    split <;> simp_all
  | case8 => simp [testIn]
  | case9 name hname =>
    rw [found (h _ (List.mem_singleton_self _))]
    simp [testIn, hname]
  | case10 value =>
    rw [found (h _ (List.mem_singleton_self _))]
    simp [testIn]

/-- `holds/2` denotes the look-up in the world. -/
theorem holds_denotes {goal : Term} (hgoal : Closed out [goal]) {w : List Term}
    (hw : Assertable out w) :
    (holds out goal w).Denotes Scratch.Clean (fun _ => holdsIn w goal = true)
      (.ofList (if holdsIn w goal then [()] else [])) := by
  intro s hs
  replace hs : s.simula = [] := hs
  unfold holds
  dsimp only
  rw [hs]
  have hassert := assertStates_of_assertable hw ⟨[], [], s.declared⟩
  have hstates := (assertStates_cases w ⟨[], [], s.declared⟩).resolve_left
    (by rw [hassert]; exact nofun)
  have hdeclared := assertStates_declared hassert
  have hclean := retractStates_clean (hstates.1.trans hstates.2.symm)
  generalize assertStates out w ⟨[], [], s.declared⟩ = asserted at *
  have hsub : asserted.2.simula ⊆ asserted.2.declared := by
    rw [hstates.1, hdeclared]
    exact List.subset_append_right _ _
  have htest := test_closed hgoal hsub
  rw [hstates.1, List.nil_append] at htest
  rw [if_neg (by rw [hassert]; exact nofun), test_exhausted hgoal.halting, if_pos rfl]
  by_cases hholds : holdsIn w goal = true
  · have hboth := hholds
    rw [holdsIn, Bool.and_eq_true] at hboth
    rw [if_pos ⟨htest.mpr hboth.1, hboth.2⟩, if_pos hholds]
    exact .answer hholds hclean fun _ hs' => .done fun _ => hs'
  · rw [if_neg, if_neg hholds]
    · exact .done fun _ => hclean
    · rintro ⟨hanswers, hground⟩
      exact hholds (by rw [holdsIn, htest.mp hanswers, hground]; rfl)

theorem not_holds_denotes {goal : Term} (hgoal : Closed out [goal]) {w : List Term}
    (hw : Assertable out w) :
    (holds out goal w).not.Denotes Scratch.Clean (fun _ => True)
      (.ofList (if holdsIn w goal then [] else [()])) := by
  have hnot := (holds_denotes hgoal hw).commit (Q := fun _ => True) (fun _ _ => .fail)
    (.pure (a := ()) trivial)
  by_cases hholds : holdsIn w goal = true
  · rw [if_pos hholds] at hnot ⊢
    exact hnot
  · rw [if_neg hholds] at hnot ⊢
    exact hnot

/-! ## The planner over facts -/

namespace Facts

variable (actions : List Action)

/-- `achieves/2`: the actions with an add list where the goal holds. -/
def achievers (goal : Term) : List Action :=
  actions.flatMap fun action => action.adds.flatMap fun addList =>
    (if holdsIn addList goal then [()] else []).map fun _ => action

/-- What the last clause of `solve/6` chooses before it plans the preconditions. -/
def openings (goals w0 : List Term) (forbidden : List (List Term)) (dom : Option Term) :
    List Opened :=
  (getNextGoal goals).flatMap fun next =>
    (if holdsIn w0 (.ofList [next.1]) then [] else [()]).flatMap fun _ =>
    (if next.1 ∈ w0 then [] else [()]).flatMap fun _ =>
    (achievers actions next.1).flatMap fun action =>
    (sameDomain action dom).flatMap fun dom =>
    action.acts.flatMap fun operator =>
    action.pres.flatMap fun precList =>
    action.adds.flatMap fun _ =>
    (actions.filter fun a => a = action).flatMap fun _ =>
    (forbiddenCheck operator forbidden).map fun _ => ⟨next, action, dom, operator, precList⟩

/-- The queries of `solve/6`. -/
abbrev Solve :=
  List Term → List Term → List (List Term) → Option Term → Search Solution

/-- The call for the remaining goals, or for all goals after a partial action. -/
def rest (solve6 : Solve) (goals : List Term) (forbidden : List (List Term)) (o : Opened)
    (before : Solution) (w2 : List Term) : Search Solution :=
  if o.action.partials = [] then solve6 o.next.2 w2 forbidden before.domain
  else (Search.ofList o.action.partials).bind fun _ => solve6 goals w2 forbidden before.domain

/-- The re-check of the preconditions after the plan for them, and what comes after it. -/
def recheck (solve6 : Solve) (goals : List Term) (forbidden : List (List Term)) (o : Opened)
    (before : Solution) : Search Solution :=
  (Search.ofList (preconditionsHold o.precList before.world)).bind fun _ =>
  (Search.ofList (doAction o.action before.world)).bind fun w2 =>
  (rest solve6 goals forbidden o before w2).bind fun after =>
  .one ⟨after.world, before.plan ++ o.operator ++ after.plan, after.domain⟩

def solveUnsatisfied (solve6 : Solve) : Solve := fun goals w0 forbidden dom =>
  (Search.ofList (openings actions goals w0 forbidden dom)).bind fun o =>
  (solve6 o.precList w0 (o.operator :: forbidden) o.domain).bind fun before =>
  recheck solve6 goals forbidden o before

def solveSequential (solveWithDomain : List Term → List Term → Option Term → Search Solution) :
    List Term → List Term → Option Term → Search Solution
  | [], wi, dom => .one ⟨wi, [], dom⟩
  | goal :: goals, w1, dom =>
    (solveWithDomain [goal] w1 dom).bind fun first =>
    (solveSequential solveWithDomain goals first.world first.domain).bind fun remaining =>
    .one ⟨remaining.world, flatten first.plan ++ flatten remaining.plan, remaining.domain⟩

/-- The last clause of `solve_with_domain/5`. -/
def solveGoals (solve6 : Solve) (goals w0 : List Term) (dom : Option Term) : Search Solution :=
  (solve6 goals w0 [] dom).bind fun found =>
  (Search.ofList (if holdsIn found.world (.ofList goals) then [()] else [])).bind fun _ =>
  .one ⟨found.world, flatten found.plan, found.domain⟩

/-- The clause of `solve/6` for a sequence. -/
def sequenceClause (solveWithDomain : List Term → List Term → Option Term → Search Solution)
    (goals w0 : List Term) (dom : Option Term) : Search Solution :=
  onSequence goals (fun args => solveSequential solveWithDomain args.flatten w0 dom)
    ⟨[], .raised⟩ .fail

/-- The first clause of `solve_with_domain/5`. -/
def firstClause (solveWithDomain : List Term → List Term → Option Term → Search Solution)
    (goals w0 : List Term) (dom : Option Term) : Search Solution :=
  onSequence goals (fun args => solveSequential solveWithDomain args.elements w0 dom)
    (.one ⟨w0, [], dom⟩) .fail

mutual

/-- `solve/6` with its last clause as a parameter. No goals hold in any world. -/
def solve6With (unsatisfied : Solve → Solve) : Nat → Solve
  | 0, _, _, _, _ => .timeout
  | fuel + 1, goals, w0, forbidden, dom =>
    if holdsIn w0 (.ofList goals) then .one ⟨w0, [], dom⟩
    else
      (sequenceClause (solveWithDomainWith unsatisfied fuel) goals w0 dom).append
        (unsatisfied (solve6With unsatisfied fuel) goals w0 forbidden dom)

/-- `solve_with_domain/5`. -/
def solveWithDomainWith (unsatisfied : Solve → Solve) :
    Nat → List Term → List Term → Option Term → Search Solution
  | 0, _, _, _ => .timeout
  | fuel + 1, goals, w0, dom =>
    (firstClause (solveWithDomainWith unsatisfied fuel) goals w0 dom).commit .one
      (solveGoals (solve6With unsatisfied fuel) goals w0 dom)

end

/-- `solve/6`. -/
def solve6 : Nat → Solve := solve6With (solveUnsatisfied actions)

/-- `solve_with_domain/5`. -/
def solveWithDomain : Nat → List Term → List Term → Option Term → Search Solution :=
  solveWithDomainWith (solveUnsatisfied actions)

theorem solve6_succ (fuel : Nat) (goals w0 : List Term) (forbidden : List (List Term))
    (dom : Option Term) :
    solve6 actions (fuel + 1) goals w0 forbidden dom =
      if holdsIn w0 (.ofList goals) then .one ⟨w0, [], dom⟩
      else
        (sequenceClause (solveWithDomain actions fuel) goals w0 dom).append
          (solveUnsatisfied actions (solve6 actions fuel) goals w0 forbidden dom) := rfl

theorem solveWithDomain_succ (fuel : Nat) (goals w0 : List Term) (dom : Option Term) :
    solveWithDomain actions (fuel + 1) goals w0 dom =
      (firstClause (solveWithDomain actions fuel) goals w0 dom).commit .one
        (solveGoals (solve6 actions fuel) goals w0 dom) := rfl

end Facts

/-! ## The planner denotes it -/

/-- Preconditions without predicates outside, and facts that can be asserted. -/
structure FactDomain (out : Outside) (actions : List Action) : Prop where
  pres : ∀ a ∈ actions, ∀ precList ∈ a.pres, Closed out precList
  adds : ∀ a ∈ actions, ∀ addList ∈ a.adds, FactWorld out addList
  partials : ∀ a ∈ actions, ∀ listPartial ∈ a.partials, FactWorld out listPartial

theorem Closed.mono {goals goals' : List Term} (h : Closed out goals)
    (hsub : calls goals' ⊆ calls goals) : Closed out goals' := fun t ht => h t (hsub ht)

theorem Closed.next {goals : List Term} (h : Closed out goals) {next : Term × List Term}
    (hnext : next ∈ getNextGoal goals) : Closed out [next.1] ∧ Closed out next.2 := by
  obtain ⟨hgoal, hrest⟩ := calls_next hnext
  exact ⟨h.mono (by rwa [calls_singleton]), h.mono hrest⟩

theorem closed_ofList {goals : List Term} (h : Closed out goals) :
    Closed out [.ofList goals] := by
  rwa [Closed, calls_singleton, calls_ofList]

variable {actions : List Action}

/-- The worlds after an action are worlds of facts. -/
theorem FactDomain.after (h : FactDomain out actions) {a : Action} (ha : a ∈ actions)
    {w w' : List Term} (hw : FactWorld out w) (hdo : w' ∈ doAction a w) : FactWorld out w' := by
  obtain ⟨addList, hadd, delList, -, rfl⟩ := mem_doAction hdo
  have hfacts : FactWorld out addList := by
    unfold Action.effects at hadd
    split at hadd
    · exact h.adds a ha addList hadd
    · exact h.partials a ha addList hadd
  intro t ht
  rcases List.mem_append.mp ht with ht | ht
  · exact hw t (List.mem_filter.mp ht).1
  · exact hfacts t ht

theorem achieves_denotes (h : FactDomain out actions) {goal : Term}
    (hgoal : Closed out [goal]) : (achieves out actions goal).Denotes Scratch.Clean
      (fun a => a ∈ actions) (.ofList (Facts.achievers actions goal)) := by
  unfold achieves Facts.achievers
  refine .flatMap (.ofList fun a ha => ha) fun a ha => ?_
  refine .flatMap (.ofList fun addList hadd => hadd) fun addList hadd => ?_
  exact .map (holds_denotes hgoal (h.adds a ha addList hadd).assertable) fun _ _ => ha

theorem opened_denotes (h : FactDomain out actions) {goals w0 : List Term}
    (hgoals : Closed out goals) (hw0 : FactWorld out w0) (forbidden : List (List Term))
    (dom : Option Term) :
    (opened out actions goals w0 forbidden dom).Denotes Scratch.Clean
      (fun o => o.next ∈ getNextGoal goals ∧ o.action ∈ actions ∧ o.precList ∈ o.action.pres)
      (.ofList (Facts.openings actions goals w0 forbidden dom)) := by
  have ofList : ∀ {α : Type} (l : List α), (Query.ofList l : Query Scratch α).Denotes
      Scratch.Clean (fun a => a ∈ l) (.ofList l) := fun l => .ofList fun _ ha => ha
  unfold opened Facts.openings
  refine .flatMap (ofList _) fun next hnext => ?_
  have hgoal := (hgoals.next hnext).1
  refine .flatMap (not_holds_denotes (closed_ofList hgoal) hw0.assertable) fun _ _ => ?_
  refine .flatMap (ofList _) fun _ _ => ?_
  refine .flatMap (achieves_denotes h hgoal) fun action haction => ?_
  refine .flatMap (ofList _) fun dom _ => .flatMap (ofList _) fun operator _ => ?_
  refine .flatMap (ofList _) fun precList hprec => .flatMap (ofList _) fun _ _ => ?_
  refine .flatMap (ofList _) fun _ _ => ?_
  exact .map (ofList _) fun _ _ => ⟨hnext, haction, hprec⟩

/-- One level of `solve/6`. -/
theorem solveUnsatisfied_denotes (h : FactDomain out actions)
    {rec : List Term → List Term → List (List Term) → Option Term → Query Scratch Solution}
    {factRec : List Term → List Term → List (List Term) → Option Term → Search Solution}
    (hrec : ∀ goals w forbidden dom, Closed out goals → FactWorld out w →
      (rec goals w forbidden dom).Denotes Scratch.Clean (fun r => FactWorld out r.world)
        (factRec goals w forbidden dom))
    {goals w0 : List Term} (hgoals : Closed out goals) (hw0 : FactWorld out w0)
    (forbidden : List (List Term)) (dom : Option Term) :
    (solveUnsatisfied out actions rec goals w0 forbidden dom).Denotes Scratch.Clean
      (fun r => FactWorld out r.world)
      (Facts.solveUnsatisfied actions factRec goals w0 forbidden dom) := by
  rw [solveUnsatisfied_eq]
  unfold Facts.solveUnsatisfied
  refine .bind (opened_denotes h hgoals hw0 forbidden dom) fun o ho => ?_
  obtain ⟨hnext, haction, hprec⟩ := ho
  refine .bind (hrec _ _ _ _ (h.pres _ haction _ hprec) hw0) fun before hbefore => ?_
  refine .bind (.ofList (P := fun _ => True) fun _ _ => trivial) fun _ _ => ?_
  refine .bind (.ofList fun w2 hdo => h.after haction hbefore hdo) fun w2 hw2 => ?_
  refine .bind (P := fun r : Solution => FactWorld out r.world) ?_ fun after hafter => .pure hafter
  unfold Facts.rest
  split
  · exact hrec _ _ _ _ (hgoals.next hnext).2 hw2
  · exact .bind (.ofList (P := fun _ => True) fun _ _ => trivial) fun _ _ =>
      hrec _ _ _ _ hgoals hw2

theorem solveSequential_denotes
    {withDomain : List Term → List Term → Option Term → Query Scratch Solution}
    {factWithDomain : List Term → List Term → Option Term → Search Solution}
    (h : ∀ goals w dom, Closed out goals → FactWorld out w →
      (withDomain goals w dom).Denotes Scratch.Clean (fun r => FactWorld out r.world)
        (factWithDomain goals w dom))
    {goals w : List Term} (hgoals : ∀ g ∈ goals, Closed out [g]) (hw : FactWorld out w)
    (dom : Option Term) :
    (solveSequential withDomain goals w dom).Denotes Scratch.Clean (fun r => FactWorld out r.world)
      (Facts.solveSequential factWithDomain goals w dom) := by
  induction goals generalizing w dom with
  | nil => exact .pure hw
  | cons goal goals ih =>
    unfold solveSequential Facts.solveSequential
    refine .bind (h _ _ _ (hgoals goal List.mem_cons_self) hw) fun first hfirst => ?_
    refine .bind (ih (fun g hg => hgoals g (List.mem_cons_of_mem _ hg)) hfirst _)
      fun last hlast => ?_
    exact .pure hlast

theorem Closed.parts {args : Term} (h : Closed out [.compound "seq" args]) {g : Term}
    (hg : g ∈ args.flatten ∨ g ∈ args.elements) : Closed out [g] := h.mono (calls_parts_subset hg)

theorem clauses_denotes {fuel : Nat}
    {factWithDomain : List Term → List Term → Option Term → Search Solution}
    (h : ∀ goals w dom, Closed out goals → FactWorld out w →
      (solveWithDomain out actions fuel goals w dom).Denotes Scratch.Clean
        (fun r => FactWorld out r.world) (factWithDomain goals w dom))
    {goals w : List Term} (hgoals : Closed out goals) (hw : FactWorld out w) (dom : Option Term) :
    ((sequenceClause out actions fuel goals w dom).Denotes Scratch.Clean
      (fun r => FactWorld out r.world) (Facts.sequenceClause factWithDomain goals w dom)) ∧
    (firstClause out actions fuel goals w dom).Denotes Scratch.Clean
      (fun r => FactWorld out r.world) (Facts.firstClause factWithDomain goals w dom) := by
  rcases goals_cases goals with ⟨args, rfl⟩ | rfl | hnoseq
  · have hparts : ∀ g ∈ args.flatten, Closed out [g] := fun g hg => hgoals.parts (.inl hg)
    have helements : ∀ g ∈ args.elements, Closed out [g] := fun g hg => hgoals.parts (.inr hg)
    exact ⟨solveSequential_denotes h hparts hw dom, solveSequential_denotes h helements hw dom⟩
  · exact ⟨.raise, .pure hw⟩
  · unfold sequenceClause Facts.sequenceClause firstClause Facts.firstClause
    simp only [onSequence_other hnoseq]
    exact ⟨.fail, .fail⟩

/-- The planner denotes the planner over facts. -/
theorem solve_denotes (h : FactDomain out actions) (fuel : Nat) :
    (∀ goals w forbidden dom, Closed out goals → FactWorld out w →
      (solve6 out actions fuel goals w forbidden dom).Denotes Scratch.Clean
        (fun r => FactWorld out r.world) (Facts.solve6 actions fuel goals w forbidden dom)) ∧
    ∀ goals w dom, Closed out goals → FactWorld out w →
      (solveWithDomain out actions fuel goals w dom).Denotes Scratch.Clean
        (fun r => FactWorld out r.world) (Facts.solveWithDomain actions fuel goals w dom) := by
  induction fuel with
  | zero => exact ⟨fun _ _ _ _ _ _ => .timeout, fun _ _ _ _ _ => .timeout⟩
  | succ fuel ih =>
    obtain ⟨ihsolve, ihwithDomain⟩ := ih
    refine ⟨fun goals w forbidden dom hgoals hw => ?_, fun goals w dom hgoals hw => ?_⟩
    · have hone : (pure ⟨w, [], dom⟩ : Query Scratch Solution).Denotes Scratch.Clean
          (fun r => FactWorld out r.world) (.one ⟨w, [], dom⟩) := .pure hw
      rw [Facts.solve6_succ]
      by_cases hnil : goals = []
      · subst hnil
        rw [solve6_nil]
        exact hone
      · rw [solve6_succ out actions fuel hnil]
        have hcommit := (holds_denotes (closed_ofList hgoals) hw.assertable).commit
          (fun _ _ => hone) (.orElse (clauses_denotes ihwithDomain hgoals hw dom).1
            (solveUnsatisfied_denotes h ihsolve hgoals hw forbidden dom))
        split <;> rename_i hholds
        · rw [if_pos hholds] at hcommit
          exact hcommit
        · rw [if_neg hholds] at hcommit
          exact hcommit
    · rw [solveWithDomain_succ, Facts.solveWithDomain_succ]
      refine .commit (clauses_denotes ihwithDomain hgoals hw dom).2
        (fun _ hfound => .pure hfound) ?_
      refine .bind (ihsolve _ _ _ _ hgoals hw) fun found hfound => ?_
      exact .bind (holds_denotes (closed_ofList hgoals) hfound.assertable) fun _ _ => .pure hfound

/-! ## More fuel -/

theorem Facts.solve6_extends (h : FactDomain out actions) {goals w : List Term}
    (hgoals : Closed out goals) (hw : FactWorld out w) (forbidden : List (List Term))
    (dom : Option Term) {fuel fuel' : Nat} (hfuel : fuel ≤ fuel') :
    (Facts.solve6 actions fuel goals w forbidden dom).Extends
      (Facts.solve6 actions fuel' goals w forbidden dom) := by
  refine .of_succ (S := fun n => Facts.solve6 actions n goals w forbidden dom) (fun n => ?_) hfuel
  have hdenotes := fun m => (solve_denotes h m).1 goals w forbidden dom hgoals hw
  exact (hdenotes n).extends (hdenotes (n + 1)) ((solve_extends n).1 goals w forbidden dom)
    (rfl : emptyScratch.Clean)

theorem Facts.solveWithDomain_extends (h : FactDomain out actions) {goals w : List Term}
    (hgoals : Closed out goals) (hw : FactWorld out w) (dom : Option Term) {fuel fuel' : Nat}
    (hfuel : fuel ≤ fuel') : (Facts.solveWithDomain actions fuel goals w dom).Extends
      (Facts.solveWithDomain actions fuel' goals w dom) := by
  refine .of_succ (S := fun n => Facts.solveWithDomain actions n goals w dom) (fun n => ?_) hfuel
  have hdenotes := fun m => (solve_denotes h m).2 goals w dom hgoals hw
  exact (hdenotes n).extends (hdenotes (n + 1)) ((solve_extends n).2 goals w dom)
    (rfl : emptyScratch.Clean)

theorem Facts.solveSequential_extends (h : FactDomain out actions) {goals w : List Term}
    (hgoals : ∀ g ∈ goals, Closed out [g]) (hw : FactWorld out w) (dom : Option Term)
    {fuel fuel' : Nat} (hfuel : fuel ≤ fuel') :
    (Facts.solveSequential (Facts.solveWithDomain actions fuel) goals w dom).Extends
      (Facts.solveSequential (Facts.solveWithDomain actions fuel') goals w dom) := by
  refine .of_succ
    (S := fun n => Facts.solveSequential (Facts.solveWithDomain actions n) goals w dom)
    (fun n => ?_) hfuel
  have hdenotes := fun m => solveSequential_denotes (solve_denotes h m).2 hgoals hw dom
  exact (hdenotes n).extends (hdenotes (n + 1))
    (Kbase.solveSequential_extends (solve_extends n).2 goals w dom) (rfl : emptyScratch.Clean)

end SmartWarehouse.Kbase
