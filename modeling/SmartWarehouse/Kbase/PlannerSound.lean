/-
  Plans are sound.

  Without sequences, whenever `solve/4` succeeds there is a STRIPS plan over the actions whose
  operators, concatenated and flattened, are the plan and which leads from the first world to the
  last, where every goal is satisfied (`solve_sound`). A goal is satisfied if it is in the world;
  but a goal that is a list is tested element by element and a goal may call a predicate from
  outside (`satisfied_goal_not_in_world`).
-/
import SmartWarehouse.Kbase.Planner
import SmartWarehouse.Lib.Strips

namespace SmartWarehouse.Kbase

open SmartWarehouse.Lib

variable (out : Outside) (actions : List Action)

/-! ## Actions as operators -/

/-- What an action adds: the list of a partial action instead of its add list. -/
def Action.effects (a : Action) : List (List Term) :=
  if a.partials = [] then a.adds else a.partials

def strip (act precList addList delList : List Term) : Operator Term (List Term) where
  label := act
  pre := { t | t ∈ precList }
  add := { t | t ∈ addList }
  del := { t | t ∈ delList }

/-- The operators of the actions. -/
def operators : Set (Operator Term (List Term)) :=
  { o | ∃ a ∈ actions, ∃ act ∈ a.acts, ∃ precList ∈ a.pres, ∃ addList ∈ a.effects,
    ∃ delList ∈ a.dels, strip act precList addList delList = o }

/-- The operators of a plan one after another. -/
def operatorsOf (plan : List (Operator Term (List Term))) : List Term := plan.flatMap Operator.label

/-- A plan for the actions with the operators `plan` leads from `w` to `w'`. -/
def Reaches (w plan w' : List Term) : Prop :=
  ∃ steps, Executes (operators actions) { t | t ∈ w } steps { t | t ∈ w' } ∧
    operatorsOf steps = plan

/-- The same up to the lists in the operators, which the plan may have flattened already. -/
def ReachesFlat (w plan w' : List Term) : Prop :=
  ∃ plan', Reaches actions w plan' w' ∧ flatten plan' = flatten plan

variable {actions}

theorem mem_doAction {a : Action} {w w' : List Term} (h : w' ∈ doAction a w) :
    ∃ addList ∈ a.effects, ∃ delList ∈ a.dels, w' = subtractSet w delList ++ addList := by
  have worlds : w' ∈ a.effects.flatMap fun addList =>
      a.dels.map fun delList => subtractSet w delList ++ addList := by
    unfold doAction at h
    unfold Action.effects
    by_cases hpartial : a.partials = []
    · rw [if_pos hpartial, hpartial, List.flatMap_nil, List.append_nil] at h
      rw [if_pos hpartial]
      exact h
    · rw [if_neg hpartial, List.nil_append] at h
      rw [if_neg hpartial]
      exact h
  obtain ⟨addList, hadd, h⟩ := List.mem_flatMap.mp worlds
  obtain ⟨delList, hdel, rfl⟩ := List.mem_map.mp h
  exact ⟨addList, hadd, delList, hdel, rfl⟩

theorem apply_strip (act precList addList delList w : List Term) :
    (strip act precList addList delList).apply { t | t ∈ w } =
      { t | t ∈ subtractSet w delList ++ addList } := by
  ext t
  show (t ∈ w ∧ t ∉ delList) ∨ t ∈ addList ↔ t ∈ subtractSet w delList ++ addList
  rw [subtractSet, List.mem_append, List.mem_filter, decide_eq_true_iff]

theorem Reaches.refl (w : List Term) : Reaches actions w [] w := ⟨[], .nil, rfl⟩

/-- A plan for the preconditions, an action, and a plan for the rest. -/
theorem Reaches.action {w w₁ w₂ w₃ before after act precList : List Term} {a : Action}
    (hbefore : Reaches actions w before w₁) (ha : a ∈ actions) (hact : act ∈ a.acts)
    (hprec : precList ∈ a.pres) (hsub : subset precList w₁) (hdo : w₂ ∈ doAction a w₁)
    (hafter : Reaches actions w₂ after w₃) :
    Reaches actions w (before ++ act ++ after) w₃ := by
  obtain ⟨steps, hsteps, rfl⟩ := hbefore
  obtain ⟨steps', hsteps', rfl⟩ := hafter
  obtain ⟨addList, hadd, delList, hdel, rfl⟩ := mem_doAction hdo
  have hpre : (strip act precList addList delList).pre ⊆ { t | t ∈ w₁ } := by
    intro t ht
    exact of_decide_eq_true (List.all_eq_true.mp hsub t ht)
  rw [← apply_strip act precList] at hsteps'
  refine ⟨steps ++ strip act precList addList delList :: steps', ?_, ?_⟩
  · exact hsteps.insert ⟨a, ha, act, hact, precList, hprec, addList, hadd, delList, hdel, rfl⟩
      hpre hsteps'
  · unfold operatorsOf
    rw [List.flatMap_append, List.flatMap_cons, List.append_assoc]
    rfl

theorem flatten_append (ts us : List Term) : flatten (ts ++ us) = flatten ts ++ flatten us := by
  induction ts with
  | nil => rfl
  | cons t ts ih =>
    show t.flatten ++ flatten (ts ++ us) = t.flatten ++ flatten ts ++ flatten us
    rw [ih, List.append_assoc]

theorem flatten_eq_self {ts : List Term} (h : ∀ t ∈ ts, t.flatten = [t]) : flatten ts = ts := by
  induction ts with
  | nil => rfl
  | cons t ts ih =>
    show t.flatten ++ flatten ts = t :: ts
    rw [h t (by simp), ih fun t' ht' => h t' (by simp [ht'])]
    rfl

theorem Term.flatten_of_mem_flatten {t u : Term} (h : t ∈ u.flatten) : t.flatten = [t] := by
  induction u with
  | nil => cases h
  | cons head tail ihhead ihtail =>
    rcases List.mem_append.mp h with h | h
    · exact ihhead h
    · exact ihtail h
  | _ =>
    rw [List.mem_singleton.mp h]
    rfl

theorem flatten_flatten (ts : List Term) : flatten (flatten ts) = flatten ts :=
  flatten_eq_self fun _ ht => Term.flatten_of_mem_flatten ht

theorem ReachesFlat.refl (w : List Term) : ReachesFlat actions w [] w := ⟨[], .refl w, rfl⟩

theorem Reaches.append {w w₁ w₂ first second : List Term} (h : Reaches actions w first w₁)
    (h' : Reaches actions w₁ second w₂) : Reaches actions w (first ++ second) w₂ := by
  obtain ⟨steps, hsteps, rfl⟩ := h
  obtain ⟨steps', hsteps', rfl⟩ := h'
  exact ⟨steps ++ steps', hsteps.append hsteps', List.flatMap_append⟩

theorem ReachesFlat.flatten {w plan w' : List Term} (h : ReachesFlat actions w plan w') :
    ReachesFlat actions w (Kbase.flatten plan) w' := by
  obtain ⟨plan', hreach, hplan⟩ := h
  exact ⟨plan', hreach, by rw [flatten_flatten, hplan]⟩

theorem ReachesFlat.append {w w₁ w₂ first second : List Term}
    (h : ReachesFlat actions w first w₁) (h' : ReachesFlat actions w₁ second w₂) :
    ReachesFlat actions w (first ++ second) w₂ := by
  obtain ⟨plan, hreach, hplan⟩ := h
  obtain ⟨plan', hreach', hplan'⟩ := h'
  exact ⟨plan ++ plan', hreach.append hreach', by
    rw [flatten_append, flatten_append, hplan, hplan']⟩

theorem ReachesFlat.action {w w₁ w₂ w₃ before after act precList : List Term} {a : Action}
    (hbefore : ReachesFlat actions w before w₁) (ha : a ∈ actions) (hact : act ∈ a.acts)
    (hprec : precList ∈ a.pres) (hsub : subset precList w₁) (hdo : w₂ ∈ doAction a w₁)
    (hafter : ReachesFlat actions w₂ after w₃) :
    ReachesFlat actions w (before ++ act ++ after) w₃ := by
  obtain ⟨plan, hreach, hplan⟩ := hbefore
  obtain ⟨plan', hreach', hplan'⟩ := hafter
  refine ⟨plan ++ act ++ plan', hreach.action ha hact hprec hsub hdo hreach', ?_⟩
  rw [flatten_append, flatten_append, flatten_append, flatten_append, hplan, hplan']

/-! ## Goals -/

/-- A fact of the world, or an answer of a predicate from outside. -/
def Found (w : List Term) (t : Term) : Prop :=
  t ∈ w ∨ ∃ answers, out.call t = some answers ∧ answers.answers ≠ []

/-- Neither a list cell nor a sequence. -/
def Term.IsFact : Term → Prop
  | .nil => False
  | .cons _ _ => False
  | t => t.isSeq = false

/-- What a successful test says of a goal in the world `w`. -/
def Satisfied (w : List Term) : Term → Prop
  | .nil => True
  | .cons goal goals =>
    Satisfied w goal ∧ Satisfied w goals ∨
      (Term.cons goal goals).isList = false ∧ Found out w (.cons goal goals)
  | .compound name (.cons l .nil) =>
    if name = "seq" then Satisfied w l else Found out w (.compound name (.cons l .nil))
  | t => t.isSeq = false ∧ Found out w t

variable {out}

theorem found_of_testSimula {s : Scratch} {goal : Term}
    (h : (testSimula out s goal).answers ≠ []) : Found out s.simula goal := by
  unfold testSimula at h
  split at h
  · obtain ⟨_, ha⟩ := List.exists_mem_of_ne_nil _ h
    obtain ⟨t, ht, -⟩ := List.mem_map.mp ha
    obtain ⟨hmem, heq⟩ := List.mem_filter.mp ht
    rw [← of_decide_eq_true heq]
    exact .inl hmem
  · split at h <;> rename_i hcall
    · exact absurd rfl h
    · rw [Search.answers_onError_nil] at h
      exact .inr ⟨_, hcall, h⟩

/-- A goal whose test has an answer is satisfied in the facts of `simula`. -/
theorem satisfied_of_test {s : Scratch} {goal : Term} (h : (test out s goal).answers ≠ []) :
    Satisfied out s.simula goal := by
  fun_induction test out s goal with
  | case1 => trivial
  | case2 goal goals ihgoal ihgoals =>
    obtain ⟨u, hu⟩ := List.exists_mem_of_ne_nil _ h
    rcases Search.mem_append.mp hu with hu | ⟨-, hu⟩
    · split at hu <;> rename_i hlist
      · cases hu
      · exact .inr ⟨by simpa using hlist, found_of_testSimula (List.ne_nil_of_mem hu)⟩
    · obtain ⟨u', hu', hu⟩ := Search.mem_bind hu
      exact .inl ⟨ihgoal (List.ne_nil_of_mem hu'), ihgoals (List.ne_nil_of_mem hu)⟩
  | case3 l hlist ih =>
    rw [Ne, Search.once_answers_eq_nil] at h
    unfold Satisfied
    rw [if_pos rfl]
    exact ih h
  | case4 l hlist => exact absurd rfl h
  | case5 name l hname =>
    unfold Satisfied
    rw [if_neg hname]
    exact found_of_testSimula h
  | case6 args hargs => exact absurd rfl h
  | case7 name args hargs hname =>
    have hseq : (Term.compound name args).isSeq = false := by
      simp [Term.isSeq, Term.seqArgs, hname]
    unfold Satisfied
    split
    · trivial
    · rename_i heq
      cases heq
    · rename_i heq
      cases heq
      exact absurd rfl (hargs _)
    · exact ⟨hseq, found_of_testSimula h⟩
  | case8 => exact absurd rfl h
  | case9 name hname =>
    exact ⟨by simp [Term.isSeq, Term.seqArgs, hname], found_of_testSimula h⟩
  | case10 value => exact ⟨rfl, found_of_testSimula h⟩

/-- A fact that calls no predicate from outside is satisfied only in a world that has it. -/
theorem Satisfied.mem {w : List Term} {goal : Term} (h : Satisfied out w goal)
    (hfact : goal.IsFact) (hcall : out.call goal = none) : goal ∈ w := by
  have found : ∀ {t : Term}, out.call t = none → Found out w t → t ∈ w := by
    rintro t ht (hmem | ⟨answers, hcall, -⟩)
    · exact hmem
    · rw [ht] at hcall
      cases hcall
  unfold Satisfied at h
  split at h
  · exact hfact.elim
  · exact hfact.elim
  · rename_i name l
    split at h <;> rename_i hname
    · subst hname
      cases hfact
    · exact found hcall h
  · exact found hcall h.2

/-! ## The scratch module -/

/-- Between the tests `simula` has no facts. -/
def Scratch.Clean (s : Scratch) : Prop := s.simula = []

theorem assertStates_cases (w : List Term) (s : Scratch) :
    (assertStates out w s).1 = false ∨
      (assertStates out w s).2.simula = s.simula ++ w ∧
        (assertStates out w s).2.asserted = s.asserted ++ w := by
  induction w generalizing s with
  | nil => exact .inr ⟨(List.append_nil _).symm, (List.append_nil _).symm⟩
  | cons state states ih =>
    unfold assertStates
    split
    · rcases ih ⟨s.simula ++ [state], s.asserted ++ [state], s.declared ++ [state]⟩ with h | h
      · exact .inl h
      · refine .inr ?_
        simpa only [List.append_assoc, List.singleton_append] using h
    · exact .inl rfl

theorem retractStates_clean {s : Scratch} (h : s.simula = s.asserted) :
    (retractStates s).Clean := by
  unfold Scratch.Clean retractStates
  rw [h]
  simp

/-- `holds/2` finds its goal satisfied in the world and leaves `simula` clean. -/
theorem holds_keeps (goal : Term) (w : List Term) :
    (holds out goal w).Keeps Scratch.Clean fun _ => Satisfied out w goal := by
  intro s hs
  replace hs : s.simula = [] := hs
  unfold holds
  dsimp only
  rw [hs]
  split <;> rename_i hasserted
  · exact fun h => by cases h
  · have hstates := (assertStates_cases w _).resolve_left hasserted
    have hclean := retractStates_clean (hstates.1.trans hstates.2.symm)
    split <;> rename_i htest
    · refine ⟨?_, hclean, fun _ hs' _ => hs'⟩
      have hsat := satisfied_of_test htest.1
      rw [hstates.1] at hsat
      exact hsat
    · split <;> rename_i hending
      · exact fun _ => hclean
      · exact fun h => absurd h hending

theorem achieves_keeps (goal : Term) :
    (achieves out actions goal).Keeps Scratch.Clean fun a => a ∈ actions := by
  unfold achieves
  refine .bind (.ofList fun a ha => ha) fun a ha => ?_
  refine .bind (.ofList (P := fun _ => True) fun _ _ => trivial) fun addList _ => ?_
  exact .bind (holds_keeps goal addList) fun _ _ => .pure ha

/-! ## Planning -/

/-- No goal is a sequence. -/
def NoSeq (goals : List Term) : Prop := ∀ g ∈ goals, g.isSeq = false

instance (goals : List Term) : Decidable (NoSeq goals) :=
  inferInstanceAs (Decidable (∀ g ∈ goals, g.isSeq = false))

theorem name_ne_of_noSeq {name : String} {args : Term} (h : NoSeq [.compound name args]) :
    name ≠ "seq" := by
  rintro rfl
  have := h _ (List.mem_singleton_self _)
  cases this

/-- The next goal is one of the goals, or the first one of a sequence in either spelling. -/
theorem getNextGoal_cases {goals : List Term} {next : Term × List Term}
    (h : next ∈ getNextGoal goals) :
    (next.1 ∈ goals ∧ next.2 = goals.filter fun g => g ≠ next.1) ∨
      (∃ rest, goals = [.compound "seq" (.cons (.cons next.1 rest) .nil)] ∧
        next.2 = if rest = .nil then [] else [.compound "seq" (.cons rest .nil)]) ∨
      ∃ rest, goals = [.compound "seq" (.cons next.1 rest)] ∧
        next.2 = if rest = .nil then [] else [.compound "seq" rest] := by
  unfold getNextGoal at h
  rcases List.mem_append.mp h with h | h
  · split at h
    · cases h
    · split at h
      · cases h
      · obtain ⟨g, hg, rfl⟩ := List.mem_map.mp h
        exact .inl ⟨hg, rfl⟩
  · split at h
    · split at h
      · rename_i name args hname
        subst hname
        rcases List.mem_append.mp h with h | h
        · split at h
          · obtain rfl := List.mem_singleton.mp h
            exact .inr (.inl ⟨_, rfl, rfl⟩)
          · cases h
        · split at h
          · split at h
            · cases h
            · obtain rfl := List.mem_singleton.mp h
              exact .inr (.inr ⟨_, rfl, rfl⟩)
          · cases h
      · cases h
    · cases h

theorem mem_getNextGoal {goals : List Term} (h : NoSeq goals) {next : Term × List Term}
    (hnext : next ∈ getNextGoal goals) : NoSeq next.2 := by
  rcases getNextGoal_cases hnext with ⟨-, hrest⟩ | ⟨rest, rfl, -⟩ | ⟨rest, rfl, -⟩
  · rw [hrest]
    exact fun g' hg' => h g' (List.mem_filter.mp hg').1
  · exact absurd rfl (name_ne_of_noSeq h)
  · exact absurd rfl (name_ne_of_noSeq h)

theorem mem_preconditionsHold {precList w : List Term} (h : NoSeq precList) {u : Unit}
    (hu : u ∈ preconditionsHold precList w) : subset precList w := by
  unfold preconditionsHold at hu
  rcases List.mem_append.mp hu with hu | hu
  · split at hu <;> rename_i hsub
    · exact hsub
    · cases hu
  · split at hu
    · rename_i t _
      rw [seqArgs_eq_none (h t (List.mem_singleton_self t))] at hu
      cases hu
    · cases hu

/-- One level of `solve/6`: if the calls below find plans, so does the clause for a goal that
    does not hold yet. -/
theorem solveUnsatisfied_keeps (hactions : ∀ a ∈ actions, ∀ precList ∈ a.pres, NoSeq precList)
    {rec : List Term → List Term → List (List Term) → Option Term → Query Scratch Solution}
    (hrec : ∀ goals w forbidden dom, (rec goals w forbidden dom).Keeps Scratch.Clean
      fun r => ReachesFlat actions w r.plan r.world)
    (goals w0 : List Term) (forbidden : List (List Term)) (dom : Option Term) :
    (solveUnsatisfied out actions rec goals w0 forbidden dom).Keeps Scratch.Clean
      fun r => ReachesFlat actions w0 r.plan r.world := by
  have any : ∀ {α : Type} (l : List α),
      (Query.ofList l : Query Scratch α).Keeps Scratch.Clean fun _ => True :=
    fun l => .ofList fun _ _ => trivial
  unfold solveUnsatisfied
  refine .bind (any _) fun next _ => ?_
  refine .bind (holds_keeps _ _).not fun _ _ => ?_
  refine .bind (any _) fun _ _ => ?_
  refine .bind (achieves_keeps _) fun action haction => ?_
  refine .bind (any _) fun dom _ => ?_
  refine .bind (.ofList fun operator hoperator => hoperator) fun operator hoperator => ?_
  refine .bind (.ofList fun precList hprec => hprec) fun precList hprec => ?_
  refine .bind (any _) fun _ _ => ?_
  refine .bind (any _) fun _ _ => ?_
  refine .bind (any _) fun _ _ => ?_
  refine .bind (hrec _ _ _ _) fun before hbefore => ?_
  have hnoseq := hactions action haction precList hprec
  refine .bind (.ofList fun _ h => mem_preconditionsHold hnoseq h) fun _ hsub => ?_
  refine .bind (.ofList fun w2 hdo => hdo) fun w2 hdo => ?_
  refine .bind (P := fun r : Solution => ReachesFlat actions w2 r.plan r.world) ?_
    fun after hafter => ?_
  · split
    · exact hrec _ _ _ _
    · exact .bind (any _) fun _ _ => hrec _ _ _ _
  · exact .pure (hbefore.action haction hoperator hprec hsub hdo hafter)

theorem solveSequential_keeps
    {withDomain : List Term → List Term → Option Term → Query Scratch Solution}
    (h : ∀ goals w dom, (withDomain goals w dom).Keeps Scratch.Clean
      fun r => ReachesFlat actions w r.plan r.world)
    (goals w : List Term) (dom : Option Term) :
    (solveSequential withDomain goals w dom).Keeps Scratch.Clean
      fun r => ReachesFlat actions w r.plan r.world := by
  induction goals generalizing w dom with
  | nil => exact .pure (.refl w)
  | cons goal goals ih =>
    unfold solveSequential
    refine .bind (h _ _ _) fun first hfirst => .bind (ih _ _) fun remaining hremaining => ?_
    exact .pure (hfirst.flatten.append hremaining.flatten)

/-- The clauses for a sequence find plans. -/
theorem clauses_keep {fuel : Nat}
    (h : ∀ goals w dom, (solveWithDomain out actions fuel goals w dom).Keeps Scratch.Clean
      fun r => ReachesFlat actions w r.plan r.world)
    (goals w : List Term) (dom : Option Term) :
    ((sequenceClause out actions fuel goals w dom).Keeps Scratch.Clean
      fun r => ReachesFlat actions w r.plan r.world) ∧
    (firstClause out actions fuel goals w dom).Keeps Scratch.Clean
      fun r => ReachesFlat actions w r.plan r.world := by
  rcases goals_cases goals with ⟨args, rfl⟩ | rfl | hgoals
  · exact ⟨solveSequential_keeps h _ w dom, solveSequential_keeps h _ w dom⟩
  · exact ⟨.raise, .pure (.refl w)⟩
  · unfold sequenceClause firstClause
    rw [onSequence_other hgoals, onSequence_other hgoals]
    exact ⟨.fail, .fail⟩

/-- `solve/6` and `solve_with_domain/5` find plans, also for sequences. -/
theorem solve6_keeps (hactions : ∀ a ∈ actions, ∀ precList ∈ a.pres, NoSeq precList)
    (fuel : Nat) :
    (∀ goals w forbidden dom, (solve6 out actions fuel goals w forbidden dom).Keeps Scratch.Clean
      fun r => ReachesFlat actions w r.plan r.world) ∧
    ∀ goals w dom, (solveWithDomain out actions fuel goals w dom).Keeps Scratch.Clean
      fun r => ReachesFlat actions w r.plan r.world := by
  induction fuel with
  | zero => exact ⟨fun _ _ _ _ => .timeout, fun _ _ _ => .timeout⟩
  | succ fuel ih =>
    obtain ⟨ihsolve, ihwithDomain⟩ := ih
    refine ⟨fun goals w forbidden dom => ?_, fun goals w dom => ?_⟩
    · by_cases hnil : goals = []
      · subst hnil
        rw [solve6_nil]
        exact .pure (.refl w)
      · rw [solve6_succ _ _ _ hnil]
        refine .commit (holds_keeps _ _) (fun _ _ => .pure (.refl w)) ?_
        exact .orElse (clauses_keep ihwithDomain goals w dom).1
          (solveUnsatisfied_keeps hactions ihsolve goals w forbidden dom)
    · rw [solveWithDomain_succ]
      refine .commit (clauses_keep ihwithDomain goals w dom).2 (fun _ => .pure) ?_
      refine .bind (ihsolve goals w [] dom) fun found hfound => ?_
      exact .bind (holds_keeps _ _) fun _ _ => .pure hfound.flatten

/-- The last clause of `solve_with_domain/5` finds a flattened plan, and a last world where the
    goals are satisfied. -/
theorem lastClause_keeps (hactions : ∀ a ∈ actions, ∀ precList ∈ a.pres, NoSeq precList)
    (fuel : Nat) (goals w : List Term) (dom : Option Term) :
    (lastClause out actions fuel goals w dom).Keeps Scratch.Clean fun r =>
      (∃ plan, Reaches actions w plan r.world ∧ r.plan = flatten plan) ∧
        Satisfied out r.world (.ofList goals) := by
  refine .bind ((solve6_keeps hactions fuel).1 goals w [] dom) fun found hfound => ?_
  refine .bind (holds_keeps _ _) fun _ hsat => ?_
  obtain ⟨plan, hreach, hplan⟩ := hfound
  exact .pure ⟨⟨plan, hreach, hplan.symm⟩, hsat⟩

/-- Without a sequence `solve_with_domain/5` has only its last clause. -/
theorem solveWithDomain_keeps (hactions : ∀ a ∈ actions, ∀ precList ∈ a.pres, NoSeq precList)
    (fuel : Nat) {goals : List Term} (hgoals : NoSeq goals) (w : List Term) (dom : Option Term) :
    (solveWithDomain out actions fuel goals w dom).Keeps Scratch.Clean fun r =>
      (∃ plan, Reaches actions w plan r.world ∧ r.plan = flatten plan) ∧
        Satisfied out r.world (.ofList goals) := by
  cases fuel with
  | zero => exact .timeout
  | succ fuel =>
    have hfail : firstClause out actions fuel goals w dom = .fail :=
      onSequence_other fun t ht => hgoals t (by rw [ht]; exact List.mem_singleton_self t)
    rw [solveWithDomain_succ, hfail]
    exact lastClause_keeps hactions fuel goals w dom

theorem Term.isList_ofList (ts : List Term) : (Term.ofList ts).isList = true := by
  induction ts with
  | nil => rfl
  | cons t ts ih => exact ih

theorem satisfied_ofList {w goals : List Term} (h : Satisfied out w (.ofList goals)) :
    ∀ g ∈ goals, Satisfied out w g := by
  induction goals with
  | nil => exact fun g hg => by cases hg
  | cons goal goals ih =>
    rcases h with ⟨hgoal, hgoals⟩ | ⟨hlist, -⟩
    · intro g hg
      rcases List.mem_cons.mp hg with rfl | hg
      · exact hgoal
      · exact ih hgoals g hg
    · have htail := Term.isList_ofList (goal :: goals)
      rw [Term.ofList, hlist] at htail
      cases htail

theorem label_of_executes {S T : Set Term} {steps : List (Operator Term (List Term))}
    (h : Executes (operators actions) S steps T) :
    ∀ o ∈ steps, ∃ a ∈ actions, o.label ∈ a.acts := by
  induction h with
  | nil => exact fun o ho => by cases ho
  | cons ho _ _ ih =>
    intro o' ho'
    rcases List.mem_cons.mp ho' with rfl | ho'
    · obtain ⟨a, ha, act, hact, precList, -, addList, -, delList, -, rfl⟩ := ho
      exact ⟨a, ha, hact⟩
    · exact ih o' ho'

/-- The operators of a plan are those of the actions, so if none has a list in it the plan is
    flat. -/
theorem flatten_operatorsOf {S T : Set Term} {steps : List (Operator Term (List Term))}
    (h : Executes (operators actions) S steps T)
    (hflat : ∀ a ∈ actions, ∀ act ∈ a.acts, ∀ t ∈ act, t.flatten = [t]) :
    flatten (operatorsOf steps) = operatorsOf steps := by
  refine flatten_eq_self fun t ht => ?_
  obtain ⟨o, ho, ht⟩ := List.mem_flatMap.mp ht
  obtain ⟨a, ha, hact⟩ := label_of_executes h o ho
  exact hflat a ha _ hact t ht

/-- Plan soundness: from a clean scratch module, without sequences, the plan of an answer is the
    flattened concatenation of the operators of a STRIPS plan (the concatenation itself if no
    operator has a list in it), which leads from the first world to the last, and there every
    goal is satisfied: it is in the world if it is a fact without a predicate outside. -/
theorem solve_sound (out : Outside) (actions : List Action)
    (hactions : ∀ a ∈ actions, ∀ precList ∈ a.pres, NoSeq precList) (fuel : Nat)
    (goals w0 : List Term) (hgoals : NoSeq goals) (s : Scratch) (hs : s.Clean) :
    ∀ r ∈ (solve out actions fuel goals w0 s).answers, ∃ steps,
      Executes (operators actions) { t | t ∈ w0 } steps { t | t ∈ r.world } ∧
      r.plan = flatten (operatorsOf steps) ∧
      ((∀ a ∈ actions, ∀ act ∈ a.acts, ∀ t ∈ act, t.flatten = [t]) →
        r.plan = operatorsOf steps) ∧
      ∀ g ∈ goals, Satisfied out r.world g ∧
        (g.IsFact → out.call g = none → g ∈ r.world) := by
  intro r hr
  obtain ⟨⟨_, ⟨steps, hsteps, rfl⟩, hplan⟩, hsat⟩ := (solveWithDomain_keeps hactions fuel hgoals w0
    none).answers hs r hr
  refine ⟨steps, hsteps, hplan, fun hflat => ?_, fun g hg => ?_⟩
  · exact hplan.trans (flatten_operatorsOf hsteps hflat)
  · exact ⟨satisfied_ofList hsat g hg, (satisfied_ofList hsat g hg).mem⟩

/-- The predicate `true` is the only one outside `simula`. -/
def onlyTrue : Outside where
  call t := if t = .atom "true" then some (.one ()) else none
  assertable t := t ≠ .atom "true"

def emptyScratch : Scratch := ⟨[], [], []⟩

/-- An action that needs `a`, deletes it and adds `b`. -/
def switch : Action :=
  [.act [.atom "switch"], .pre [.atom "a"], .add [.atom "b"], .del [.atom "a"]]

theorem solve_sound_switch : ∃ steps,
    Executes (operators [switch]) { t | t ∈ [.atom "a"] } steps { t | t ∈ [.atom "b"] } ∧
      operatorsOf steps = [.atom "switch"] := by
  obtain ⟨steps, hsteps, -, hplan, -⟩ := solve_sound onlyTrue [switch] (by decide) 3 [.atom "b"]
    [.atom "a"] (by decide) emptyScratch rfl ⟨[.atom "b"], [.atom "switch"], none⟩
    (by decide +kernel)
  exact ⟨steps, hsteps, (hplan (by decide)).symm⟩

/-- An action with a list in its operator. -/
def grouped : Action :=
  [.act [.cons (.atom "x") .nil], .pre [], .add [.atom "b"], .del []]

/-- The goal `true` and a list of facts are satisfied without being in the world, and the plan of
    an operator with a list in it is not the operator. -/
theorem goals_and_plans_not_literal :
    (∃ r ∈ (solve onlyTrue [] 2 [.atom "true"] [] emptyScratch).answers,
      .atom "true" ∉ r.world) ∧
    (∃ r ∈ (solve onlyTrue [] 2 [.cons (.atom "a") .nil] [.atom "a"] emptyScratch).answers,
      .cons (.atom "a") .nil ∉ r.world) ∧
    ∃ r ∈ (solve onlyTrue [grouped] 3 [.atom "b"] [] emptyScratch).answers,
      ¬ ∃ steps, Executes (operators [grouped]) { t | t ∈ [] } steps { t | t ∈ r.world } ∧
        operatorsOf steps = r.plan := by
  refine ⟨⟨⟨[], [], none⟩, by decide +kernel, by decide⟩,
    ⟨⟨[.atom "a"], [], none⟩, by decide +kernel, by decide⟩,
    ⟨[.atom "b"], [.atom "x"], none⟩, by decide +kernel, ?_⟩
  rintro ⟨steps, hsteps, hplan⟩
  rcases steps with _ | ⟨o, steps⟩
  · cases hplan
  · obtain ⟨a, ha, hact⟩ := label_of_executes hsteps o List.mem_cons_self
    obtain rfl := List.mem_singleton.mp ha
    have hlabel : o.label = [.cons (.atom "x") .nil] := List.mem_singleton.mp hact
    rw [operatorsOf, List.flatMap_cons, hlabel] at hplan
    cases hplan

end SmartWarehouse.Kbase
