/-
  Sequential plans reach their goals in order.

  `solve_sequential/4` plans for one goal after another, each from the world that the plan before
  has led to. Its plan is made of one part for each goal, and each part is executed from the last
  world of the one before and leads to a world where its own goal is satisfied, whatever becomes
  of the goals before it (`sequential_sound`). The same holds of `solve/4` for a sequence.
-/
import SmartWarehouse.Kbase.PlannerSound

namespace SmartWarehouse.Kbase

open SmartWarehouse.Lib

variable (out : Outside) (actions : List Action)

/-- `solve_sequential/4`. -/
def solveSequential4 (fuel : Nat) (goals w0 : List Term) : Query Scratch Solution :=
  solveSequential (solveWithDomain out actions fuel) goals w0 none

/-- `SeqTerm =.. [seq | Goals]`. -/
def seqTerm : List Term → Term
  | [] => .atom "seq"
  | goal :: goals => .compound "seq" (.ofList (goal :: goals))

/-! ## Stages -/

/-- A part of a plan: the flattened operators of a STRIPS plan from one world to the next, where
    the goal is satisfied (it is in the world if it is a fact without a predicate outside). -/
structure Stage (w segment w' : List Term) (goal : Term) : Prop where
  executes : ∃ steps, Executes (operators actions) { t | t ∈ w } steps { t | t ∈ w' } ∧
    segment = flatten (operatorsOf steps) ∧
    ((∀ a ∈ actions, ∀ act ∈ a.acts, ∀ t ∈ act, t.flatten = [t]) → segment = operatorsOf steps)
  satisfied : Satisfied out w' goal
  mem : goal.IsFact → out.call goal = none → goal ∈ w'

/-- A plan from one world to another, in stages for the goals. -/
inductive Stages : List Term → List Term → List Term → List Term → Prop where
  | nil (w : List Term) : Stages w [] [] w
  | cons {w w₁ w₂ segment plan : List Term} {goal : Term} {goals : List Term}
      (first : Stage out actions w segment w₁ goal) (rest : Stages w₁ goals plan w₂) :
      Stages w (goal :: goals) (segment ++ plan) w₂

variable {out actions}

theorem stage_of_reaches {w plan w' : List Term} {goal : Term} (h : Reaches actions w plan w')
    (hgoal : Satisfied out w' goal) : Stage out actions w (flatten plan) w' goal := by
  obtain ⟨steps, hsteps, rfl⟩ := h
  exact ⟨⟨steps, hsteps, rfl, flatten_operatorsOf hsteps⟩, hgoal, hgoal.mem⟩

theorem Stages.flatten {w goals plan w' : List Term} (h : Stages out actions w goals plan w') :
    Kbase.flatten plan = plan := by
  induction h with
  | nil => rfl
  | cons first _ ih =>
    obtain ⟨steps, -, hsegment, -⟩ := first.executes
    rw [flatten_append, hsegment, flatten_flatten, ih]

/-- Every goal of `solve_sequential/5` is a stage. -/
theorem sequential_stages (hactions : ∀ a ∈ actions, ∀ precList ∈ a.pres, NoSeq precList)
    (fuel : Nat) {goals : List Term} (hgoals : NoSeq goals) (w : List Term) (dom : Option Term) :
    (solveSequential (solveWithDomain out actions fuel) goals w dom).Keeps Scratch.Clean
      fun r => Stages out actions w goals r.plan r.world := by
  induction goals generalizing w dom with
  | nil => exact .pure (.nil w)
  | cons goal goals ih =>
    have hgoal : NoSeq [goal] := fun g hg => hgoals g (by simp [List.mem_singleton.mp hg])
    have hrest : NoSeq goals := fun g hg => hgoals g (List.mem_cons_of_mem _ hg)
    unfold solveSequential
    refine .bind (solveWithDomain_keeps hactions fuel hgoal w dom) fun first hfirst => ?_
    refine .bind (ih hrest first.world first.domain) fun remaining hremaining => ?_
    obtain ⟨⟨plan, hreach, hplan⟩, hsat⟩ := hfirst
    have hstage := stage_of_reaches hreach (satisfied_ofList hsat goal (List.mem_singleton_self _))
    refine .pure ?_
    rw [hremaining.flatten, hplan, flatten_flatten]
    exact .cons hstage hremaining

theorem elements_ofList (ts : List Term) : (Term.ofList ts).elements = ts := by
  induction ts with
  | nil => rfl
  | cons t ts ih =>
    rw [Term.ofList, Term.elements, ih]

/-- A sequence is satisfied only as a list of goals, as its one argument. -/
theorem satisfied_seqTerm {w goals : List Term} (h : Satisfied out w (seqTerm goals)) :
    ∃ l, goals = [l] ∧ Satisfied out w l := by
  rcases goals with _ | ⟨goal, _ | ⟨goal', goals⟩⟩
  · cases h.1
  · exact ⟨goal, rfl, h⟩
  · cases h.1

/-- Sequential soundness: from a clean scratch module, for goals that are no sequences and actions
    without sequences as preconditions, the plan of `solve_sequential/4` is made of one stage for
    each goal in turn, from the first world to the last; and so is the plan that `solve/4` finds
    for the sequence of the goals. -/
theorem sequential_sound (out : Outside) (actions : List Action)
    (hactions : ∀ a ∈ actions, ∀ precList ∈ a.pres, NoSeq precList) (fuel : Nat)
    (goals w0 : List Term) (hgoals : NoSeq goals) (s : Scratch) (hs : s.Clean) :
    (∀ r ∈ (solveSequential4 out actions fuel goals w0 s).answers,
      Stages out actions w0 goals r.plan r.world) ∧
    ∀ r ∈ (solve out actions fuel [seqTerm goals] w0 s).answers,
      Stages out actions w0 goals r.plan r.world := by
  refine ⟨(sequential_stages hactions fuel hgoals w0 none).answers hs, ?_⟩
  have hsolve : (solve out actions fuel [seqTerm goals] w0).Keeps Scratch.Clean
      fun r => Stages out actions w0 goals r.plan r.world := by
    cases fuel with
    | zero => exact .timeout
    | succ fuel =>
      have hfirst : firstClause out actions fuel [seqTerm goals] w0 none =
          solveSequential (solveWithDomain out actions fuel) goals w0 none := by
        rcases goals with _ | ⟨g, goals⟩
        · rfl
        · rw [seqTerm, firstClause, onSequence_seq, elements_ofList]
      rw [solve, solveWithDomain_succ, hfirst]
      refine .commit (sequential_stages hactions fuel hgoals w0 none) (fun _ => .pure) ?_
      refine (lastClause_keeps hactions fuel [seqTerm goals] w0 none).imp fun r hr => ?_
      -- the last clause succeeds only for a list of goals in the sequence
      obtain ⟨⟨plan, hreach, hplan⟩, hsat⟩ := hr
      obtain ⟨l, rfl, hl⟩ := satisfied_seqTerm (satisfied_ofList hsat _ (List.mem_singleton_self _))
      rw [hplan, ← List.append_nil (Kbase.flatten plan)]
      exact .cons (stage_of_reaches hreach hl) (.nil _)
  exact hsolve.answers hs

/-- A lamp that is switched on and off again. -/
def lampActions : List Action :=
  [[.act [.atom "switch_on"], .pre [.atom "off"], .add [.atom "on"], .del [.atom "off"]],
    [.act [.atom "switch_off"], .pre [.atom "on"], .add [.atom "off"], .del [.atom "on"]]]

theorem sequential_sound_lamp : Stages onlyTrue lampActions [.atom "off"] [.atom "on", .atom "off"]
    [.atom "switch_on", .atom "switch_off"] [.atom "off"] :=
  (sequential_sound onlyTrue lampActions (by decide) 4 [.atom "on", .atom "off"] [.atom "off"]
    (by decide) emptyScratch rfl).2 ⟨[.atom "off"], [.atom "switch_on", .atom "switch_off"], none⟩
    (by decide +kernel)

end SmartWarehouse.Kbase
