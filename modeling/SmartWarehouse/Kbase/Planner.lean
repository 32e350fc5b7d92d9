/-
  The planner of `RTXstrips_planner.pl`, over ground terms.

  Actions are the clauses of `strips/1` with body `true`. The goals that a world satisfies are
  found by asserting the world in the scratch module `simula` and calling the goals there
  (`holds`). Everything is ground but the domain, which the first action with a domain binds.
  Solutions are found by backtracking and the scratch module is not restored by it, so the
  planner is a `Query` over the scratch state. `solve6`, `solve_sequential` and
  `solve_with_domain` call each other and have fuel for the depth of their calls.
-/
import SmartWarehouse.Lib.Backtrack

namespace SmartWarehouse.Kbase

open SmartWarehouse.Lib

/-! ## Terms -/

/-- A ground term. The arguments of a compound are the list that `=..` gives after its name; a
    list is no compound. -/
inductive Term where
  | atom (name : String)
  | int (value : Int)
  | nil
  | cons (head tail : Term)
  | compound (name : String) (args : Term)
deriving DecidableEq, Repr

def Term.ofList : List Term → Term
  | [] => .nil
  | t :: ts => .cons t (ofList ts)

def Term.isList : Term → Bool
  | .nil => true
  | .cons _ t => t.isList
  | _ => false

def Term.elements : Term → List Term
  | .cons h t => h :: t.elements
  | _ => []

/-- `flatten/2`. -/
def Term.flatten : Term → List Term
  | .nil => []
  | .cons h t => h.flatten ++ t.flatten
  | t => [t]

def flatten (ts : List Term) : List Term := (Term.ofList ts).flatten

/-- `Term =.. [seq | Args]`. -/
def Term.seqArgs : Term → Option Term
  | .atom name => if name = "seq" then some .nil else none
  | .compound name args => if name = "seq" then some args else none
  | _ => none

def Term.isSeq (t : Term) : Bool := t.seqArgs.isSome

/-- The same name and number of arguments. -/
def Term.sameFunctor : Term → Term → Bool
  | .atom a, .atom b => a = b
  | .int a, .int b => a = b
  | .nil, .nil => true
  | .cons _ _, .cons _ _ => true
  | .compound f as, .compound g bs => f = g ∧ as.elements.length = bs.elements.length
  | _, _ => false

mutual

/-- `make_most_generic_term_2/2` and unification with its result: what is no compound becomes a
    variable. -/
def Term.genericMatches : Term → Term → Bool
  | .cons h t, .cons h' t' => h.genericMatches h' && t.genericMatches t'
  | .cons _ _, _ => false
  | .compound f as, .compound g bs => f = g && as.genericArgs bs
  | .compound _ _, _ => false
  | _, _ => true
termination_by structural t => t

/-- The arguments of two compounds. -/
def Term.genericArgs : Term → Term → Bool
  | .cons h t, .cons h' t' => h.genericMatches h' && t.genericArgs t'
  | .nil, .nil => true
  | _, _ => false
termination_by structural t => t

end

/-- `make_most_generic_term/2` and unification with its result. -/
def Term.mostGenericMatches (element t : Term) : Bool :=
  match element with
  | .cons _ _ => element.genericMatches t
  | .compound _ _ => element.genericMatches t
  | _ => element = t

/-- `filter_contradictory_states/3`: the results, one for each way to find the element. -/
def filterContradictoryFrom : List Term → List Term → List (List Term)
  | [], accumulated => [accumulated]
  | element :: tail, accumulated =>
    match accumulated.filter element.mostGenericMatches with
    | [] => filterContradictoryFrom tail (element :: accumulated)
    | found => found.flatMap fun _ => filterContradictoryFrom tail accumulated

/-- `filter_contradictory_states/2`. -/
def filterContradictoryStates (states : List Term) : List (List Term) :=
  filterContradictoryFrom states.reverse []

/-! ## Actions -/

/-- An element of the list of a `strips/1` fact. -/
inductive Entry where
  | act (operator : List Term)
  | pre (precList : List Term)
  | add (addList : List Term)
  | del (delList : List Term)
  | domain (name : Term)
  | listPartial (addList : List Term)
deriving DecidableEq, Repr

/-- `strips(Spec_list)`. -/
abbrev Action := List Entry

def Action.acts (a : Action) : List (List Term) :=
  a.filterMap fun | .act l => some l | _ => none

def Action.pres (a : Action) : List (List Term) :=
  a.filterMap fun | .pre l => some l | _ => none

def Action.adds (a : Action) : List (List Term) :=
  a.filterMap fun | .add l => some l | _ => none

def Action.dels (a : Action) : List (List Term) :=
  a.filterMap fun | .del l => some l | _ => none

def Action.domains (a : Action) : List Term :=
  a.filterMap fun | .domain t => some t | _ => none

def Action.partials (a : Action) : List (List Term) :=
  a.filterMap fun | .listPartial l => some l | _ => none

/-- `subtract_set/3`. -/
def subtractSet (set1 set2 : List Term) : List Term := set1.filter fun t => t ∉ set2

/-- `subset/2`. -/
def subset (set1 set2 : List Term) : Bool := set1.all fun t => t ∈ set2

/-- `do/4`: the worlds after an action. -/
def doAction (a : Action) (w1 : List Term) : List (List Term) :=
  (if a.partials = [] then
    a.adds.flatMap fun addList => a.dels.map fun delList => subtractSet w1 delList ++ addList
  else []) ++
  a.partials.flatMap fun listPartial =>
    a.dels.map fun delList => subtractSet w1 delList ++ listPartial

/-- `same_domain/2`: the domain afterwards. -/
def sameDomain (a : Action) (dom : Option Term) : List (Option Term) :=
  match a.domains.find? fun d => dom = none ∨ dom = some d with
  | some d => [some d]
  | none => if a.domains = [] then [dom] else []

/-- `get_next_goal/3`: the next goals, each with the remaining goals. -/
def getNextGoal (goals : List Term) : List (Term × List Term) :=
  (match goals with
    | [] => []
    | notASequence :: _ =>
      if notASequence.isSeq then []
      else goals.map fun nextGoal => (nextGoal, goals.filter fun g => g ≠ nextGoal)) ++
  match goals with
  | [.compound name args] =>
    if name = "seq" then
      (match args with
        | .cons (.cons nextGoal remaining) .nil =>
          [(nextGoal, if remaining = .nil then []
            else [.compound "seq" (.cons remaining .nil)])]
        | _ => []) ++
      match args with
      | .cons nextGoal remainingList =>
        if nextGoal.isList then []
        else [(nextGoal, if remainingList = .nil then [] else [.compound "seq" remainingList])]
      | _ => []
    else []
  | _ => []

/-- Operators that are planned already, and the ways to pass the check against them. -/
def forbiddenCheck (operator : List Term) (forbidden : List (List Term)) : List Unit :=
  if operator ∉ forbidden then [()]
  else if operator = [] then (forbidden.filter fun o => o = operator).map fun _ => ()
  else []

/-- The ways in which the world after the plan for the preconditions satisfies them. The
    preconditions of a sequence are cleared of what later ones contradict. -/
def preconditionsHold (precList w1 : List Term) : List Unit :=
  (if subset precList w1 then [()] else []) ++
  match precList with
  | [t] =>
    match t.seqArgs with
    | some args =>
      ((filterContradictoryStates args.elements).filter fun l => subset l w1).map fun _ => ()
    | none => []
  | _ => []

/-! ## Scratch module -/

/-- The facts of `simula` and of `asserted_state/1`, and the facts whose predicates have been
    declared in `simula` by asserting them. -/
structure Scratch where
  simula : List Term
  asserted : List Term
  declared : List Term
deriving DecidableEq, Repr

/-- What the predicates outside `simula` are that a goal reaches there (`none`: there is no such
    predicate), and which terms can be asserted. -/
structure Outside where
  call : Term → Option (Search Unit)
  assertable : Term → Bool

variable (out : Outside)

/-- `assert_states/1`: the state, and whether all could be asserted. The first clause asks for a
    predicate whose name is the whole state and never applies. -/
def assertStates : List Term → Scratch → Bool × Scratch
  | [], s => (true, s)
  | state :: states, s =>
    if out.assertable state then
      assertStates states ⟨s.simula ++ [state], s.asserted ++ [state], s.declared ++ [state]⟩
    else (false, s)

/-- `retract_states/0`. Every fact that equals an asserted state is retracted. -/
def retractStates (s : Scratch) : Scratch :=
  ⟨s.simula.filter fun t => t ∉ s.asserted, [], s.declared⟩

/-- `test_with_catch(planner, simula:Goal, false)`. -/
def testSimula (s : Scratch) (goal : Term) : Search Unit :=
  if s.declared.any goal.sameFunctor then
    .ofList ((s.simula.filter fun t => t = goal).map fun _ => ())
  else
    match out.call goal with
    | none => .fail
    | some answers => answers.onError []

/-- `test/1`. -/
def test (s : Scratch) : Term → Search Unit
  | .nil => .one ()
  | .cons goal goals =>
    (if (Term.cons goal goals).isList then .fail else testSimula out s (.cons goal goals)).append
      ((test s goal).bind fun _ => test s goals)
  | .compound name (.cons l .nil) =>
    if name = "seq" then if l.isList then (test s l).once else .fail
    else testSimula out s (.compound name (.cons l .nil))
  | .compound name args =>
    if name = "seq" then .fail else testSimula out s (.compound name args)
  | .atom name => if name = "seq" then .fail else testSimula out s (.atom name)
  | .int value => testSimula out s (.int value)

/-- `ground_it/3` of a ground goal. -/
def groundIt (w : List Term) (goal : Term) : Bool := goal.isList || goal ∈ w

/-- `holds/2`. An answer of the test is kept if the goal can be grounded; the second clause
    retracts the world and fails. -/
def holds (goal : Term) (w : List Term) : Query Scratch Unit := fun s =>
  let asserted := assertStates out w { s with asserted := [] }
  let tests := test out asserted.2 goal
  if asserted.1 = false then .done asserted.2 .raised
  else if tests.answers ≠ [] ∧ groundIt w goal then
    .answer () (retractStates asserted.2) fun s => .done s .exhausted
  else if tests.ending = .exhausted then .done (retractStates asserted.2) .exhausted
  else .done asserted.2 tests.ending

/-! ## Planning -/

variable (actions : List Action)

/-- `achieves/2`. -/
def achieves (goal : Term) : Query Scratch Action := do
  let action ← .ofList actions
  let addList ← .ofList action.adds
  holds out goal addList
  return action

structure Solution where
  world : List Term
  plan : List Term
  domain : Option Term
deriving DecidableEq, Repr

/-- The last clause of `solve/6`: an action for a goal that does not hold yet, a plan for its
    preconditions before it and one for the remaining goals after it. -/
def solveUnsatisfied
    (solve6 : List Term → List Term → List (List Term) → Option Term → Query Scratch Solution)
    (goals w0 : List Term) (forbidden : List (List Term)) (dom : Option Term) :
    Query Scratch Solution := do
  let next ← .ofList (getNextGoal goals)
  (holds out (.ofList [next.1]) w0).not
  let _ ← .ofList (if next.1 ∈ w0 then [] else [()])
  let action ← achieves out actions next.1
  let dom ← .ofList (sameDomain action dom)
  let operator ← .ofList action.acts
  let precList ← .ofList action.pres
  let _ ← .ofList action.adds
  -- the call of the action runs the bodies of the clauses that are equal to it
  let _ ← .ofList (actions.filter fun a => a = action)
  let _ ← .ofList (forbiddenCheck operator forbidden)
  let before ← solve6 precList w0 (operator :: forbidden) dom
  let _ ← .ofList (preconditionsHold precList before.world)
  let w2 ← .ofList (doAction action before.world)
  let after ← (if action.partials = [] then solve6 next.2 w2 forbidden before.domain
    else (Query.ofList action.partials).bind fun _ => solve6 goals w2 forbidden before.domain)
  return ⟨after.world, before.plan ++ operator ++ after.plan, after.domain⟩

/-- `solve_sequential/5`. -/
def solveSequential
    (solveWithDomain : List Term → List Term → Option Term → Query Scratch Solution) :
    List Term → List Term → Option Term → Query Scratch Solution
  | [], wi, dom => return ⟨wi, [], dom⟩
  | goal :: goals, w1, dom => do
    let first ← solveWithDomain [goal] w1 dom
    let remaining ← solveSequential solveWithDomain goals first.world first.domain
    return ⟨remaining.world, flatten first.plan ++ flatten remaining.plan, remaining.domain⟩

mutual

/-- `solve/6`. -/
def solve6 : Nat → List Term → List Term → List (List Term) → Option Term →
    Query Scratch Solution
  | 0, _, _, _, _ => .timeout
  | fuel + 1, goals, w0, forbidden, dom =>
    if goals = [] then return ⟨w0, [], dom⟩
    else (holds out (.ofList goals) w0).commit (fun _ => return ⟨w0, [], dom⟩) <|
      .orElse
        (match goals with
          | [.compound name args] =>
            if name = "seq" then solveSequential (solveWithDomain fuel) args.flatten w0 dom
            else .fail
          -- an atom has no arguments to enumerate
          | [.atom name] => if name = "seq" then .raise else .fail
          | _ => .fail)
        (solveUnsatisfied out actions (solve6 fuel) goals w0 forbidden dom)

/-- `solve_with_domain/5`. -/
def solveWithDomain : Nat → List Term → List Term → Option Term → Query Scratch Solution
  | 0, _, _, _ => .timeout
  | fuel + 1, goals, w0, dom =>
    let solveGoals : Query Scratch Solution := do
      let found ← solve6 fuel goals w0 [] dom
      holds out (.ofList goals) found.world
      return ⟨found.world, flatten found.plan, found.domain⟩
    match goals with
    | [t] =>
      match t.seqArgs with
      | some args =>
        (solveSequential (solveWithDomain fuel) args.elements w0 dom).commit
          (fun found => return found) solveGoals
      | none => solveGoals
    | _ => solveGoals

end

/-- `solve/4`. -/
def solve (fuel : Nat) (goals w0 : List Term) : Query Scratch Solution :=
  solveWithDomain out actions fuel goals w0 none

/-! ## Clauses -/

/-- What a clause for sequences does: with the arguments of a single sequence, with the atom `seq`,
    and with other goals. -/
def onSequence {γ : Type} (goals : List Term) (sequence : Term → γ) (atom other : γ) : γ :=
  match goals with
  | [.compound name args] => if name = "seq" then sequence args else other
  | [.atom name] => if name = "seq" then atom else other
  | _ => other

/-- The clause of `solve/6` for a sequence. -/
def sequenceClause (fuel : Nat) (goals w0 : List Term) (dom : Option Term) :
    Query Scratch Solution :=
  onSequence goals
    (fun args => solveSequential (solveWithDomain out actions fuel) args.flatten w0 dom)
    .raise .fail

/-- The first clause of `solve_with_domain/5`. -/
def firstClause (fuel : Nat) (goals w0 : List Term) (dom : Option Term) : Query Scratch Solution :=
  onSequence goals
    (fun args => solveSequential (solveWithDomain out actions fuel) args.elements w0 dom)
    (return ⟨w0, [], dom⟩) .fail

/-- The last clause of `solve_with_domain/5`. -/
def lastClause (fuel : Nat) (goals w0 : List Term) (dom : Option Term) :
    Query Scratch Solution := do
  let found ← solve6 out actions fuel goals w0 [] dom
  holds out (.ofList goals) found.world
  return ⟨found.world, flatten found.plan, found.domain⟩

/-- The goals are a sequence, or the atom `seq`, or none of them is a sequence on its own. -/
theorem goals_cases (goals : List Term) : (∃ args, goals = [.compound "seq" args]) ∨
    goals = [.atom "seq"] ∨ ∀ t, goals = [t] → t.isSeq = false := by
  by_cases h : ∃ t, goals = [t] ∧ t.isSeq = true
  · obtain ⟨t, rfl, ht⟩ := h
    cases t with
    | atom name =>
      have hname : name = "seq" := by
        by_contra hname
        simp [Term.isSeq, Term.seqArgs, hname] at ht
      exact .inr (.inl (by rw [hname]))
    | compound name args =>
      have hname : name = "seq" := by
        by_contra hname
        simp [Term.isSeq, Term.seqArgs, hname] at ht
      exact .inl ⟨args, by rw [hname]⟩
    | _ => cases ht
  · exact .inr (.inr fun t ht => by simpa using fun hseq => h ⟨t, ht, hseq⟩)

theorem seqArgs_eq_none {t : Term} (h : t.isSeq = false) : t.seqArgs = none := by
  rwa [Term.isSeq, Option.isSome_eq_false_iff, Option.isNone_iff_eq_none] at h

section

variable {γ : Type} {sequence : Term → γ} {atom other : γ}

theorem onSequence_seq {args : Term} :
    onSequence [.compound "seq" args] sequence atom other = sequence args := rfl

theorem onSequence_other {goals : List Term} (h : ∀ t, goals = [t] → t.isSeq = false) :
    onSequence goals sequence atom other = other := by
  unfold onSequence
  split
  · exact if_neg fun hname => by cases hname; cases h _ rfl
  · exact if_neg fun hname => by cases hname; cases h _ rfl
  · rfl

end

theorem solve6_succ (fuel : Nat) {goals : List Term} (hgoals : goals ≠ []) (w0 : List Term)
    (forbidden : List (List Term)) (dom : Option Term) :
    solve6 out actions (fuel + 1) goals w0 forbidden dom =
      (holds out (.ofList goals) w0).commit (fun _ => return ⟨w0, [], dom⟩)
        (.orElse (sequenceClause out actions fuel goals w0 dom)
          (solveUnsatisfied out actions (solve6 out actions fuel) goals w0 forbidden dom)) := by
  rw [solve6.eq_def]
  dsimp only
  rw [if_neg hgoals]
  rfl

theorem solve6_nil (fuel : Nat) (w0 : List Term) (forbidden : List (List Term))
    (dom : Option Term) :
    solve6 out actions (fuel + 1) [] w0 forbidden dom = return ⟨w0, [], dom⟩ := by
  rw [solve6.eq_def]
  rfl

theorem solveWithDomain_succ (fuel : Nat) (goals w0 : List Term) (dom : Option Term) :
    solveWithDomain out actions (fuel + 1) goals w0 dom =
      (firstClause out actions fuel goals w0 dom).commit (fun found => return found)
        (lastClause out actions fuel goals w0 dom) := by
  rw [solveWithDomain.eq_def]
  rcases goals_cases goals with ⟨args, rfl⟩ | rfl | hgoals
  · rfl
  · rfl
  · have hclause : firstClause out actions fuel goals w0 dom = .fail := onSequence_other hgoals
    rw [hclause]
    rcases goals with _ | ⟨t, _ | ⟨t', goals⟩⟩
    · rfl
    · dsimp only
      rw [seqArgs_eq_none (hgoals t rfl)]
      rfl
    · rfl

end SmartWarehouse.Kbase
