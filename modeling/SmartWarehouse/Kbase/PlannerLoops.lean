/-
  The loop check of the planner.

  `solve/6` plans the preconditions of an action with its operator on the list of forbidden ones,
  and plans no action whose operator unifies with a forbidden one. But its clause for sequences
  starts afresh: `solve_sequential/5` and `solve_with_domain/5` have no such list. So the
  operators that are pending in a chain of nested calls do not unify as long as the chain goes
  through no sequence below a pending operator (`loop_check`); below one it can come back to the
  same operator again and again (`loop_through_sequence`).
-/
import SmartWarehouse.Kbase.PlannerSound
import SmartWarehouse.Lib.LogicTerms
import SmartWarehouse.Lib.LoopCheck

namespace SmartWarehouse.Kbase

open SmartWarehouse.Lib

/-! ## Chains of calls

What tests, goals and bodies of actions do is to bind variables or to fail. A chain has any calls
that `solve/6` could make whatever they do; bindings made by calls that have returned count as
bindings of the chain. -/

/-- The `act` and `pre` entries of a `strips/1` clause, with its variables. -/
structure Spec where
  acts : List (List LogicTerm)
  pres : List (List LogicTerm)

/-- A call of `solve/6`. -/
structure SolveCall extends Frame (List LogicTerm) where
  goals : List LogicTerm

def SolveCall.bind (σ : Nat → LogicTerm) (call : SolveCall) : SolveCall where
  toFrame := call.toFrame.map (List.map (LogicTerm.subst σ))
  goals := call.goals.map (LogicTerm.subst σ)

/-- The chains of nested calls, the innermost first. -/
inductive Reached (specs : List Spec) : List SolveCall → Prop where
  | top (goals : List LogicTerm) : Reached specs [⟨⟨.top, []⟩, goals⟩]
  /-- `solve(PrecList, W0, W1, [Operator|Forbidden], Plan_for_Precedences, Domain)` -/
  | precondition {call : SolveCall} {chain : List SolveCall} {spec : Spec}
      {act operator precList : List LogicTerm} (h : Reached specs (call :: chain))
      (hspec : spec ∈ specs) (hact : act ∈ spec.acts) (hprec : precList ∈ spec.pres)
      (σ : Nat → LogicTerm) (hoperator : operator = act.map (LogicTerm.subst σ))
      (check : (∀ o ∈ call.forbidden, ¬ Unifiable operator o) ∨ operator = []) :
      Reached specs (⟨⟨.planning operator, operator :: call.forbidden⟩,
        precList.map (LogicTerm.subst σ)⟩ :: call :: chain)
  /-- `solve(Remaining_goals, W2, W3, Forbidden, Plan_for_remaining_goals, Domain)`, or the same
      for all goals after a partial action -/
  | remaining {call : SolveCall} {chain : List SolveCall} (goals : List LogicTerm)
      (h : Reached specs (call :: chain)) :
      Reached specs (⟨⟨.inheriting, call.forbidden⟩, goals⟩ :: call :: chain)
  /-- `solve_sequential(Goals, W0, W3, Plan, Domain)` and, below it,
      `solve(Goals, W0, W1, [], Plan_nested, Domain)` -/
  | sequence {call : SolveCall} {chain : List SolveCall} {args : LogicTerm}
      (goals : List LogicTerm) (h : Reached specs (call :: chain))
      (hgoals : call.goals = [.compound "seq" args]) :
      Reached specs (⟨⟨.afresh, []⟩, goals⟩ :: call :: chain)
  | bindings {chain : List SolveCall} (σ : Nat → LogicTerm) (h : Reached specs chain) :
      Reached specs (chain.map (SolveCall.bind σ))

def frames (chain : List SolveCall) : List (Frame (List LogicTerm)) :=
  chain.map SolveCall.toFrame

theorem frames_bind (σ : Nat → LogicTerm) (chain : List SolveCall) :
    frames (chain.map (SolveCall.bind σ)) =
      (frames chain).map (Frame.map (List.map (LogicTerm.subst σ))) := by
  unfold frames
  rw [List.map_map, List.map_map]
  rfl

/-- With nonempty operators the calls keep to the loop check. -/
theorem Reached.chain {specs : List Spec}
    (hspecs : ∀ spec ∈ specs, ∀ act ∈ spec.acts, act ≠ []) {chain : List SolveCall}
    (h : Reached specs chain) : Chain Unifiable (frames chain) := by
  induction h with
  | top goals => exact .top
  | precondition _ hspec hact _ σ hoperator check ih =>
    refine .planning ih (check.resolve_right fun hnil => ?_)
    rw [hoperator, List.map_eq_nil_iff] at hnil
    exact hspecs _ hspec _ hact hnil
  | remaining goals _ ih => exact .inheriting ih
  | sequence goals _ _ ih => exact .afresh ih
  | bindings σ _ ih =>
    rw [frames_bind]
    exact .instantiate _ (fun _ _ => Unifiable.of_subst) ih

/-- In every chain of calls of `solve/6` that goes through no sequence below a pending operator,
    the pending operators do not unify with each other. -/
theorem loop_check (specs : List Spec) (hspecs : ∀ spec ∈ specs, ∀ act ∈ spec.acts, act ≠ [])
    (chain : List SolveCall) (h : Reached specs chain) (hseq : AfreshAtTop (frames chain)) :
    (pending (frames chain)).Pairwise fun operator operator' => ¬ Unifiable operator operator' :=
  (h.chain hspecs).pairwise hseq

/-- An action with a variable: it goes where it is free. -/
def go : Spec where
  acts := [[.compound "go" (.cons (.var 0) .nil)]]
  pres := [[.compound "free" (.cons (.var 0) .nil)]]

/-- A call below the plans for going to 1 and, for that, to 2. -/
def goCalls : List SolveCall :=
  let go1 : List LogicTerm := [.compound "go" (.cons (.int 1) .nil)]
  let go2 : List LogicTerm := [.compound "go" (.cons (.int 2) .nil)]
  [⟨⟨.planning go2, [go2, go1]⟩, [.compound "free" (.cons (.int 2) .nil)]⟩,
    ⟨⟨.planning go1, [go1]⟩, [.compound "free" (.cons (.int 1) .nil)]⟩,
    ⟨⟨.top, []⟩, [.atom "goal"]⟩]

theorem goCalls_reached : Reached [go] goCalls := by
  have hgo := List.mem_singleton_self go
  have hact := List.mem_singleton_self [LogicTerm.compound "go" (.cons (.var 0) .nil)]
  have hprec := List.mem_singleton_self [LogicTerm.compound "free" (.cons (.var 0) .nil)]
  have htop : Reached [go] [⟨⟨.top, []⟩, [.atom "goal"]⟩] := .top _
  have hfirst := htop.precondition hgo hact hprec (fun _ => .int 1) rfl (.inl nofun)
  refine hfirst.precondition hgo hact hprec (fun _ => .int 2) rfl (.inl ?_)
  intro l hl hunify
  obtain rfl := List.mem_singleton.mp hl
  obtain ⟨σ, hσ⟩ := hunify
  simp [LogicTerm.subst] at hσ

theorem loop_check_go : (pending (frames goCalls)).Pairwise fun operator operator' =>
    ¬ Unifiable operator operator' :=
  loop_check [go] (by simp [go]) goCalls goCalls_reached ⟨nofun, nofun, nofun, trivial⟩

/-! ## Chains of calls over ground terms -/

/-- What the last clause of `solve/6` has chosen when it plans the preconditions. -/
structure Opened where
  next : Term × List Term
  action : Action
  domain : Option Term
  operator : List Term
  precList : List Term
deriving DecidableEq

variable (out : Outside) (actions : List Action)

def opened (goals w0 : List Term) (forbidden : List (List Term)) (dom : Option Term) :
    Query Scratch Opened := do
  let next ← .ofList (getNextGoal goals)
  (holds out (.ofList [next.1]) w0).not
  let _ ← .ofList (if next.1 ∈ w0 then [] else [()])
  let action ← achieves out actions next.1
  let dom ← .ofList (sameDomain action dom)
  let operator ← .ofList action.acts
  let precList ← .ofList action.pres
  let _ ← .ofList action.adds
  let _ ← .ofList (actions.filter fun a => a = action)
  let _ ← .ofList (forbiddenCheck operator forbidden)
  return ⟨next, action, dom, operator, precList⟩

/-- The last clause opens an action and then calls `solve/6` for its preconditions and, from the
    world after it, for the remaining goals. -/
theorem solveUnsatisfied_eq
    (rec : List Term → List Term → List (List Term) → Option Term → Query Scratch Solution)
    (goals w0 : List Term) (forbidden : List (List Term)) (dom : Option Term) :
    solveUnsatisfied out actions rec goals w0 forbidden dom = (do
      let o ← opened out actions goals w0 forbidden dom
      let before ← rec o.precList w0 (o.operator :: forbidden) o.domain
      let _ ← .ofList (preconditionsHold o.precList before.world)
      let w2 ← .ofList (doAction o.action before.world)
      let after ← (if o.action.partials = [] then rec o.next.2 w2 forbidden before.domain
        else (Query.ofList o.action.partials).bind fun _ => rec goals w2 forbidden before.domain)
      return ⟨after.world, before.plan ++ o.operator ++ after.plan, after.domain⟩) := by
  unfold solveUnsatisfied opened
  simp only [bind_assoc, pure_bind]

/-- Until the last clause of `solve/6` is tried: the goals do not hold, and the clause for a
    sequence has no answer left. -/
def passed (fuel : Nat) (goals w0 : List Term) (dom : Option Term) : Query Scratch Unit :=
  if goals = [] then .fail
  else (holds out (.ofList goals) w0).commit (fun _ => .fail)
    (.orElse (sequenceClause out actions fuel goals w0 dom >>= fun _ => .fail) (pure ()))

/-- The arguments of a call, and the scratch state in which it is made. -/
structure Activation where
  goals : List Term
  world : List Term
  domain : Option Term
  scratch : Scratch

structure GroundCall extends Frame (List Term), Activation

/-- The calls of `solve/6` by `solve_with_domain/5`: for the goals, if the first clause fails, or
    for a part of a sequence, when the parts before it are solved. -/
inductive CallsSolve : Activation → Activation → Prop where
  | goals {a : Activation} {fuel : Nat} {s : Scratch}
      (h : ((firstClause out actions fuel a.goals a.world a.domain).not a.scratch).Finds () s) :
      CallsSolve a ⟨a.goals, a.world, a.domain, s⟩
  | element {a b : Activation} {t args g : Term} {done more : List Term} {fuel : Nat}
      {r : Solution} {s : Scratch} (hgoals : a.goals = [t]) (hargs : t.seqArgs = some args)
      (hparts : args.elements = done ++ g :: more)
      (hdone : (solveSequential (solveWithDomain out actions fuel) done a.world a.domain
        a.scratch).Finds r s)
      (h : CallsSolve ⟨[g], r.world, r.domain, s⟩ b) : CallsSolve a b

/-- The chains of nested calls of `solve/6` that `solve/4` makes for the goals. -/
inductive GroundReached (goals w0 : List Term) (s : Scratch) : List GroundCall → Prop where
  | top {a : Activation} (h : CallsSolve out actions ⟨goals, w0, none, s⟩ a) :
      GroundReached goals w0 s [⟨⟨.top, []⟩, a⟩]
  | precondition {c : GroundCall} {chain : List GroundCall} {fuel : Nat} {o : Opened}
      {s' : Scratch} (h : GroundReached goals w0 s (c :: chain))
      (ho : ((do
        passed out actions fuel c.goals c.world c.domain
        opened out actions c.goals c.world c.forbidden c.domain) c.scratch).Finds o s') :
      GroundReached goals w0 s (⟨⟨.planning o.operator, o.operator :: c.forbidden⟩,
        ⟨o.precList, c.world, o.domain, s'⟩⟩ :: c :: chain)
  | remaining {c : GroundCall} {chain : List GroundCall} {fuel : Nat} {o : Opened}
      {before : Solution} {w2 : List Term} {s' : Scratch}
      (h : GroundReached goals w0 s (c :: chain))
      (ho : ((do
        passed out actions fuel c.goals c.world c.domain
        let o ← opened out actions c.goals c.world c.forbidden c.domain
        let before ← solve6 out actions fuel o.precList c.world (o.operator :: c.forbidden) o.domain
        let _ ← .ofList (preconditionsHold o.precList before.world)
        let w2 ← .ofList (doAction o.action before.world)
        let _ ← .ofList (if o.action.partials = [] then [()] else o.action.partials.map fun _ => ())
        return (o, before, w2)) c.scratch).Finds (o, before, w2) s') :
      GroundReached goals w0 s (⟨⟨.inheriting, c.forbidden⟩,
        ⟨if o.action.partials = [] then o.next.2 else c.goals, w2, before.domain, s'⟩⟩ ::
          c :: chain)
  | sequence {c : GroundCall} {chain : List GroundCall} {fuel : Nat} {args g : Term}
      {done more : List Term} {s' s'' : Scratch} {r : Solution} {a : Activation}
      (h : GroundReached goals w0 s (c :: chain)) (hgoals : c.goals = [.compound "seq" args])
      (hnot : ((holds out (.ofList c.goals) c.world).not c.scratch).Finds () s')
      (hparts : args.flatten = done ++ g :: more)
      (hdone : (solveSequential (solveWithDomain out actions fuel) done c.world c.domain
        s').Finds r s'')
      (ha : CallsSolve out actions ⟨[g], r.world, r.domain, s''⟩ a) :
      GroundReached goals w0 s (⟨⟨.afresh, []⟩, a⟩ :: c :: chain)

def groundFrames (chain : List GroundCall) : List (Frame (List Term)) :=
  chain.map GroundCall.toFrame

/-- In no chain of calls of `solve/6` for the goals an operator is planned that is pending. -/
def LoopChecked (goals w0 : List Term) (s : Scratch) : Prop :=
  ∀ chain, GroundReached out actions goals w0 s chain → (pending (groundFrames chain)).Nodup

/-! ## Ground chains as chains -/

def Term.toLogic : Term → LogicTerm
  | .atom name => .atom name
  | .int value => .int value
  | .nil => .nil
  | .cons head tail => .cons head.toLogic tail.toLogic
  | .compound name args => .compound name args.toLogic

theorem Term.toLogic_ground (t : Term) : t.toLogic.Ground := by
  intro σ
  induction t with
  | cons head tail ihhead ihtail => simp only [toLogic, LogicTerm.subst, ihhead, ihtail]
  | compound name args ih => simp only [toLogic, LogicTerm.subst, ih]
  | _ => rfl

theorem Term.toLogic_injective : Function.Injective Term.toLogic := by
  intro t u h
  induction t generalizing u with
  | cons head tail ihhead ihtail =>
    cases u <;> simp only [toLogic, LogicTerm.cons.injEq, reduceCtorEq] at h
    rw [ihhead h.1, ihtail h.2]
  | compound name args ih =>
    cases u <;> simp only [toLogic, LogicTerm.compound.injEq, reduceCtorEq] at h
    rw [h.1, ih h.2]
  | _ => cases u <;> simp_all [toLogic]

def toLogics : List Term → List LogicTerm := List.map Term.toLogic

theorem toLogics_injective : Function.Injective toLogics :=
  List.map_injective_iff.mpr Term.toLogic_injective

theorem toLogics_ground (ts : List Term) : ∀ t ∈ toLogics ts, t.Ground := by
  intro t ht
  obtain ⟨t', -, rfl⟩ := List.mem_map.mp ht
  exact t'.toLogic_ground

def Action.spec (a : Action) : Spec := ⟨a.acts.map toLogics, a.pres.map toLogics⟩

def GroundCall.toSolveCall (c : GroundCall) : SolveCall :=
  ⟨c.toFrame.map toLogics, toLogics c.goals⟩

variable {out actions}

/-- What the last clause opens is an action of the domain that passes the check. -/
theorem opened_ends (goals w0 : List Term) (forbidden : List (List Term)) (dom : Option Term) :
    (opened out actions goals w0 forbidden dom).Ends (fun _ => True) fun o => o.action ∈ actions ∧
      o.operator ∈ o.action.acts ∧ o.precList ∈ o.action.pres ∧
      (o.operator ∉ forbidden ∨ o.operator = []) := by
  have ofList : ∀ {α : Type} (l : List α),
      (Query.ofList l : Query Scratch α).Ends (fun _ => True) fun a => a ∈ l :=
    fun l => .ofList trivial fun _ ha => ha
  have hachieves : ∀ goal,
      (achieves out actions goal).Ends (fun _ => True) fun a => a ∈ actions := by
    intro goal
    unfold achieves
    refine .bind (ofList _) fun a ha => .bind (ofList _) fun _ _ => ?_
    exact .bind (Query.ends_true _) fun _ _ => .pure trivial ha
  unfold opened
  refine .bind (ofList _) fun next _ => .bind (Query.ends_true _) fun _ _ => ?_
  refine .bind (ofList _) fun _ _ => .bind (hachieves _) fun action haction => ?_
  refine .bind (ofList _) fun _ _ => .bind (ofList _) fun operator hoperator => ?_
  refine .bind (ofList _) fun precList hprec => .bind (ofList _) fun _ _ => ?_
  refine .bind (ofList _) fun _ _ => .bind (ofList _) fun _ hcheck => ?_
  refine .pure trivial ⟨haction, hoperator, hprec, ?_⟩
  unfold forbiddenCheck at hcheck
  split at hcheck <;> rename_i hmem
  · exact .inl hmem
  · split at hcheck <;> rename_i hnil
    · exact .inr hnil
    · cases hcheck

/-- A chain of calls of the planner over ground terms is one of those above. -/
theorem GroundReached.reached {goals w0 : List Term} {s : Scratch} {chain : List GroundCall}
    (h : GroundReached out actions goals w0 s chain) :
    Reached (actions.map Action.spec) (chain.map GroundCall.toSolveCall) := by
  induction h with
  | top _ => exact .top _
  | @precondition c chain fuel o s' _ ho ih =>
    obtain ⟨haction, hact, hprec, hcheck⟩ := Solutions.Ends.finds
      (Query.Ends.bind (Query.ends_true (passed out actions fuel c.goals c.world c.domain))
        (fun _ _ => opened_ends c.goals c.world c.forbidden c.domain) c.scratch) ho
    have hground := map_subst_of_ground (toLogics_ground o.operator) .var
    have hgroundPrec := map_subst_of_ground (toLogics_ground o.precList) .var
    have hreached := Reached.precondition ih (List.mem_map_of_mem haction)
      (List.mem_map_of_mem hact) (List.mem_map_of_mem hprec) .var rfl ?_
    · rw [hground, hgroundPrec] at hreached
      exact hreached
    · rw [hground]
      refine hcheck.imp (fun hnew l hl hunify => hnew ?_) fun hnil => by rw [hnil]; rfl
      obtain ⟨l', hl', rfl⟩ := List.mem_map.mp hl
      rwa [toLogics_injective (hunify.eq_of_ground (toLogics_ground _) (toLogics_ground _))]
  | remaining _ _ ih => exact .remaining _ ih
  | @sequence c chain fuel args g done more s' s'' r a _ hgoals _ _ _ _ ih =>
    have hmap : c.toSolveCall.goals = [.compound "seq" args.toLogic] := by
      show toLogics c.goals = _
      rw [hgoals]
      rfl
    exact .sequence _ ih hmap

theorem frames_toSolveCall (chain : List GroundCall) :
    frames (chain.map GroundCall.toSolveCall) = (groundFrames chain).map (Frame.map toLogics) := by
  unfold frames groundFrames
  rw [List.map_map, List.map_map]
  rfl

/-- Over ground terms: no operator is planned that is pending. -/
theorem GroundReached.nodup (hacts : ∀ a ∈ actions, ∀ operator ∈ a.acts, operator ≠ [])
    {goals w0 : List Term} {s : Scratch} {chain : List GroundCall}
    (h : GroundReached out actions goals w0 s chain) (hseq : AfreshAtTop (groundFrames chain)) :
    (pending (groundFrames chain)).Nodup := by
  have hspecs : ∀ spec ∈ actions.map Action.spec, ∀ act ∈ spec.acts, act ≠ [] := by
    intro spec hspec act hact
    obtain ⟨a, ha, rfl⟩ := List.mem_map.mp hspec
    obtain ⟨operator, hoperator, rfl⟩ := List.mem_map.mp hact
    exact fun hnil => hacts a ha operator hoperator (List.map_eq_nil_iff.mp hnil)
  have hpairwise := (h.reached.chain hspecs).pairwise
  rw [frames_toSolveCall, afreshAtTop_map, pending_map, List.pairwise_map] at hpairwise
  refine (hpairwise hseq).imp fun hunify heq => hunify ?_
  rw [heq]
  exact Unifiable.refl _

/-! ## A sequence on the way -/

theorem callsSolve_self {g : Term} (hg : g.seqArgs = none) (w : List Term) (dom : Option Term)
    (s : Scratch) : CallsSolve out actions ⟨[g], w, dom, s⟩ ⟨[g], w, dom, s⟩ := by
  have hfail : firstClause out actions 0 [g] w dom = .fail := by
    refine onSequence_other fun t ht => ?_
    rw [← (List.cons.inj ht).1, Term.isSeq, hg]
    rfl
  have hnot : ((firstClause out actions 0 [g] w dom).not s).Finds () s := by
    rw [hfail]
    exact .here _ _ _
  exact .goals hnot

theorem GroundReached.first_choice {goals w0 : List Term} {s : Scratch} {c : GroundCall}
    {chain : List GroundCall} (h : GroundReached out actions goals w0 s (c :: chain))
    (fuel : Nat) (o : Opened) (s' : Scratch) (ho : ((do
      passed out actions fuel c.goals c.world c.domain
      opened out actions c.goals c.world c.forbidden c.domain) c.scratch).first = some (o, s')) :
    GroundReached out actions goals w0 s (⟨⟨.planning o.operator, o.operator :: c.forbidden⟩,
      ⟨o.precList, c.world, o.domain, s'⟩⟩ :: c :: chain) :=
  .precondition h (Solutions.finds_of_first ho)

theorem GroundReached.first_part {goals w0 : List Term} {s : Scratch} {c : GroundCall}
    {chain : List GroundCall} (h : GroundReached out actions goals w0 s (c :: chain))
    {args g : Term} {more : List Term} (hgoals : c.goals = [.compound "seq" args])
    (hparts : args.flatten = g :: more) (hg : g.seqArgs = none) (s' : Scratch)
    (hnot : ((holds out (.ofList c.goals) c.world).not c.scratch).first = some ((), s')) :
    GroundReached out actions goals w0 s
      (⟨⟨.afresh, []⟩, ⟨[g], c.world, c.domain, s'⟩⟩ :: c :: chain) := by
  have hdone : (solveSequential (solveWithDomain out actions 0) [] c.world c.domain s').Finds
      ⟨c.world, [], c.domain⟩ s' := .here _ _ _
  exact .sequence h hgoals (Solutions.finds_of_first hnot) hparts hdone (callsSolve_self hg _ _ _)

/-- An action that needs a sequence. -/
def pick : Action :=
  [.act [.atom "pick"], .pre [.compound "seq" (.cons (.atom "at_cell") .nil)],
    .add [.atom "has_part"], .del []]

/-- An action that needs what `pick` adds. -/
def move : Action :=
  [.act [.atom "move"], .pre [.atom "has_part"], .add [.atom "at_cell"], .del []]

/-- The plan for `pick` needs the sequence, which needs `move`, which needs `pick` again. -/
theorem loop_through_sequence :
    ¬ LoopChecked onlyTrue [pick, move] [.atom "has_part"] [] emptyScratch := by
  intro h
  have hpart : GroundReached onlyTrue [pick, move] [.atom "has_part"] [] emptyScratch
      [⟨⟨.top, []⟩, ⟨[.atom "has_part"], [], none, emptyScratch⟩⟩] :=
    .top (callsSolve_self rfl _ _ _)
  have hpick := hpart.first_choice 1 ⟨(.atom "has_part", []), pick, none, [.atom "pick"],
    [.compound "seq" (.cons (.atom "at_cell") .nil)]⟩ ⟨[], [], [.atom "has_part"]⟩
    (by decide +kernel)
  have hcell := hpick.first_part rfl rfl rfl ⟨[], [], [.atom "has_part"]⟩ (by decide +kernel)
  have hmove := hcell.first_choice 1 ⟨(.atom "at_cell", []), move, none, [.atom "move"],
    [.atom "has_part"]⟩ ⟨[], [], [.atom "has_part", .atom "has_part", .atom "at_cell"]⟩
    (by decide +kernel)
  have hagain := hmove.first_choice 1 ⟨(.atom "has_part", []), pick, none, [.atom "pick"],
    [.compound "seq" (.cons (.atom "at_cell") .nil)]⟩
    ⟨[], [], [.atom "has_part", .atom "has_part", .atom "at_cell", .atom "has_part"]⟩
    (by decide +kernel)
  exact absurd (h _ hagain) (by decide)

end SmartWarehouse.Kbase
