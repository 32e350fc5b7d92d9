/-
  The planner is complete where nothing is deleted.

  An operator is not planned for again below its own preconditions, a domain that has been chosen
  is kept, and a goal that has been reached may be lost again, so that the planner misses plans in
  general. Where no action deletes anything it misses none: a fact that comes up at some stage of
  the relaxation is added by an action that was not applicable before, so what its preconditions
  need does not need it (`found_of_stage`). So the planner finds a plan exactly if there is one
  within some domain, and the search decides that (`solve_complete`).
-/
import SmartWarehouse.Kbase.SpellingsAgree
import SmartWarehouse.Lib.Relaxation

namespace SmartWarehouse.Kbase

open SmartWarehouse.Lib

/-! ## Domains -/

/-- The actions that can be used in the domain. -/
def inDomain (d : Term) (actions : List Action) : List Action :=
  actions.filter fun a => a.domains = [] ∨ d ∈ a.domains

/-- The domain is `d`, or open. -/
def Within (dom : Option Term) (d : Term) : Prop := dom = none ∨ dom = some d

instance (dom : Option Term) (d : Term) : Decidable (Within dom d) :=
  inferInstanceAs (Decidable (dom = none ∨ dom = some d))

variable {actions : List Action} {d : Term}

theorem exists_within (dom : Option Term) : ∃ d, Within dom d := by
  cases dom with
  | none => exact ⟨.nil, .inl rfl⟩
  | some d => exact ⟨d, .inr rfl⟩

theorem mem_inDomain {a : Action} :
    a ∈ inDomain d actions ↔ a ∈ actions ∧ (a.domains = [] ∨ d ∈ a.domains) := by
  rw [inDomain, List.mem_filter, decide_eq_true_iff]

/-- An action that keeps the search in the domain belongs to it. -/
theorem within_of_sameDomain {a : Action} {dom dom' : Option Term} (h : dom' ∈ sameDomain a dom)
    (hdom' : Within dom' d) : Within dom d ∧ (a.domains = [] ∨ d ∈ a.domains) := by
  unfold sameDomain at h
  split at h
  · rename_i d' hfind
    obtain rfl := List.mem_singleton.mp h
    obtain rfl : d' = d := Option.some.inj (hdom'.resolve_left nofun)
    have hd' : Within dom d' := by
      simpa [Within] using List.find?_some hfind
    exact ⟨hd', .inr (List.mem_of_find?_eq_some hfind)⟩
  · split at h <;> rename_i hnil
    · obtain rfl := List.mem_singleton.mp h
      exact ⟨hdom', .inl hnil⟩
    · cases h

theorem exists_sameDomain {a : Action} (hone : a.domains.length ≤ 1)
    (hdomain : a.domains = [] ∨ d ∈ a.domains) {dom : Option Term} (hdom : Within dom d) :
    ∃ dom' ∈ sameDomain a dom, Within dom' d := by
  rcases hdomain with hnil | hmem
  · refine ⟨dom, ?_, hdom⟩
    rw [sameDomain, hnil]
    exact List.mem_singleton_self _
  · obtain ⟨d', hsingle⟩ := List.length_eq_one_iff.mp
      (le_antisymm hone (List.length_pos_of_mem hmem))
    rw [hsingle, List.mem_singleton] at hmem
    subst hmem
    refine ⟨some d, ?_, .inr rfl⟩
    have hfind : [d].find? (fun d => decide (dom = none ∨ dom = some d)) = some d :=
      List.find?_cons_of_pos (decide_eq_true hdom)
    rw [sameDomain, hsingle, hfind]
    exact List.mem_singleton_self _

/-! ## What is found can be executed in the domain -/

theorem executes_action {w : List Term} {a : Action} (ha : a ∈ inDomain d actions)
    {act precList : List Term} (hact : act ∈ a.acts) (hprec : precList ∈ a.pres)
    {before : Solution} (hsub : subset precList before.world) {w2 : List Term}
    (hdo : w2 ∈ doAction a before.world) {steps : List (Operator Term (List Term))}
    (hbefore : Executes (operators (inDomain d actions)) { t | t ∈ w } steps
      { t | t ∈ before.world }) :
    ∃ steps, Executes (operators (inDomain d actions)) { t | t ∈ w } steps { t | t ∈ w2 } := by
  obtain ⟨addList, hadd, delList, hdel, rfl⟩ := mem_doAction hdo
  refine ⟨steps ++ [strip act precList addList delList], hbefore.append (.cons ?_ ?_ ?_)⟩
  · exact ⟨a, ha, act, hact, precList, hprec, addList, hadd, delList, hdel, rfl⟩
  · intro t ht
    exact of_decide_eq_true (List.all_eq_true.mp hsub t ht)
  · rw [apply_strip]
    exact .nil

/-- A world that `solve/6` finds is reached by a plan in each domain that the one found allows. -/
theorem executes_of_found (hpres : ∀ a ∈ actions, ∀ precList ∈ a.pres, NoSeq precList)
    (fuel : Nat) {goals w : List Term} (hgoals : NoSeq goals) {forbidden : List (List Term)}
    {dom : Option Term} {r : Solution}
    (hr : r ∈ (Facts.solve6 actions fuel goals w forbidden dom).answers)
    (hdomain : Within r.domain d) : Within dom d ∧
      ∃ steps, Executes (operators (inDomain d actions)) { t | t ∈ w } steps
        { t | t ∈ r.world } := by
  induction fuel generalizing goals w forbidden dom r with
  | zero => cases hr
  | succ fuel ih =>
    rw [Facts.solve6_succ, Facts.sequenceClause, onSequence_other, Search.fail_append] at hr
    · split at hr
      · obtain rfl := List.mem_singleton.mp hr
        exact ⟨hdomain, [], .nil⟩
      · obtain ⟨o, ho, before, hbefore, hpre, w2, hdo, after, hafter, rfl⟩ :=
          mem_solveUnsatisfied hr
        have haction := (mem_achievers.mp ho.action).1
        have hnoseq := hpres _ haction _ ho.precList
        -- the goals that are left are planned for in the domain of the plan before the action
        have hrest : Within before.domain d ∧ ∃ steps,
            Executes (operators (inDomain d actions)) { t | t ∈ w2 } steps
              { t | t ∈ after.world } := by
          unfold Facts.rest at hafter
          split at hafter
          · exact ih (mem_getNextGoal hgoals ho.next) hafter hdomain
          · obtain ⟨_, -, hafter⟩ := Search.mem_bind hafter
            exact ih hgoals hafter hdomain
        obtain ⟨hbeforeDomain, steps', hafterSteps⟩ := hrest
        obtain ⟨hopened, steps, hbeforeSteps⟩ := ih hnoseq hbefore hbeforeDomain
        obtain ⟨hdom, husable⟩ := within_of_sameDomain ho.domain hopened
        obtain ⟨steps'', haction⟩ := executes_action (mem_inDomain.mpr ⟨haction, husable⟩)
          ho.operator ho.precList (mem_preconditionsHold hnoseq hpre) hdo hbeforeSteps
        exact ⟨hdom, steps'' ++ steps', haction.append hafterSteps⟩
    · rintro t rfl
      exact hgoals t (List.mem_singleton_self t)

/-! ## What is reachable is found -/

/-- Actions with nonempty operators that delete nothing, are not partial, need facts, belong to
    at most one domain and are named apart by their operators. -/
structure DeleteFree (actions : List Action) : Prop where
  acts : ∀ a ∈ actions, ∀ operator ∈ a.acts, operator ≠ []
  partials : ∀ a ∈ actions, a.partials = []
  pres : ∀ a ∈ actions, ∀ precList ∈ a.pres, ∀ t ∈ precList, t.IsFact
  dels : ∀ a ∈ actions, ∀ delList ∈ a.dels, delList = []
  domains : ∀ a ∈ actions, a.domains.length ≤ 1
  named : ∀ a ∈ actions, ∀ b ∈ actions, ∀ operator ∈ a.acts, operator ∈ b.acts → a = b

theorem DeleteFree.noSeq (h : DeleteFree actions) : ∀ a ∈ actions, ∀ precList ∈ a.pres,
    NoSeq precList := fun a ha precList hprec t ht => (h.pres a ha precList hprec t ht).isSeq

/-- No operator that can be applied at one of the stages is forbidden. -/
def Free (actions : List Action) (w0 : List Term) (k : Nat) (forbidden : List (List Term)) : Prop :=
  ∀ i < k, ∀ o ∈ operators actions, o.pre ⊆ stage (operators actions) { t | t ∈ w0 } i →
    o.label ∉ forbidden

theorem Free.mono {w0 : List Term} {k k' : Nat} {forbidden : List (List Term)}
    (h : Free actions w0 k forbidden) (hk : k' ≤ k) : Free actions w0 k' forbidden :=
  fun i hi => h i (hi.trans_le hk)

/-- An action that adds a fact at the first stage where it comes up. -/
structure FirstAt (actions : List Action) (w0 : List Term) (m : Nat) (g : Term) (a : Action)
    (act precList addList : List Term) : Prop where
  mem : a ∈ actions
  act : act ∈ a.acts
  prec : precList ∈ a.pres
  add : addList ∈ a.adds
  dels : a.dels ≠ []
  adds : g ∈ addList
  applicable : ∀ t ∈ precList, t ∈ stage (operators actions) { t | t ∈ w0 } m
  first : ∀ i < m, ∀ o ∈ operators actions,
    o.pre ⊆ stage (operators actions) { t | t ∈ w0 } i → g ∉ o.add

theorem exists_firstAt (hplain : ∀ a ∈ actions, a.partials = []) {w0 : List Term} {k : Nat}
    {g : Term} (hg : g ∈ stage (operators actions) { t | t ∈ w0 } k) (hnew : g ∉ w0) :
    ∃ m < k, ∃ a act precList addList, FirstAt actions w0 m g a act precList addList := by
  obtain ⟨m, hm, ⟨o, ho, hpre, hadd⟩, hfirst⟩ := exists_first hg hnew
  obtain ⟨a, ha, act, hact, precList, hprec, addList, heffect, delList, hdel, rfl⟩ := ho
  rw [Action.effects, if_pos (hplain a ha)] at heffect
  exact ⟨m, hm, a, act, precList, addList, ha, hact, hprec, heffect, List.ne_nil_of_mem hdel,
    hadd, hpre, hfirst⟩

/-- Its operator is not needed for its preconditions: the action would have added the fact
    before. -/
theorem FirstAt.free (h : DeleteFree actions) {w0 : List Term} {m : Nat} {g : Term} {a : Action}
    {act precList addList : List Term} (hfirst : FirstAt actions w0 m g a act precList addList)
    {forbidden : List (List Term)} (hfree : Free actions w0 m forbidden) :
    Free actions w0 m (act :: forbidden) := by
  intro i hi o ho hpre hmem
  rcases List.mem_cons.mp hmem with heq | hmem
  · obtain ⟨b, hb, act', hact', precList', hprec', addList', hadd', delList', hdel', rfl⟩ := ho
    obtain rfl : act' = act := heq
    obtain rfl := h.named b hb a hfirst.mem act' hact' hfirst.act
    refine hfirst.first i hi (strip act' precList' addList delList') ?_ hpre hfirst.adds
    refine ⟨b, hb, act', hact', precList', hprec', addList, ?_, delList', hdel', rfl⟩
    rw [Action.effects, if_pos (h.partials b hb)]
    exact hfirst.add
  · exact hfree i hi o ho hpre hmem

theorem FirstAt.not_forbidden {w0 : List Term} {m k : Nat} {g : Term} {a : Action}
    (hplain : ∀ a ∈ actions, a.partials = []) {act precList addList : List Term}
    (hfirst : FirstAt actions w0 m g a act precList addList)
    (hm : m < k) {forbidden : List (List Term)} (hfree : Free actions w0 k forbidden) :
    act ∉ forbidden := by
  obtain ⟨delList, hdel⟩ := List.exists_mem_of_ne_nil _ hfirst.dels
  refine hfree m hm (strip act precList addList delList) ?_ hfirst.applicable
  refine ⟨a, hfirst.mem, act, hfirst.act, precList, hfirst.prec, addList, ?_, delList, hdel, rfl⟩
  rw [Action.effects, if_pos (hplain a hfirst.mem)]
  exact hfirst.add

theorem DeleteFree.inDomain (h : DeleteFree actions) (d : Term) :
    DeleteFree (inDomain d actions) where
  acts a ha := h.acts a (mem_inDomain.mp ha).1
  partials a ha := h.partials a (mem_inDomain.mp ha).1
  pres a ha := h.pres a (mem_inDomain.mp ha).1
  dels a ha := h.dels a (mem_inDomain.mp ha).1
  domains a ha := h.domains a (mem_inDomain.mp ha).1
  named a ha b hb := h.named a (mem_inDomain.mp ha).1 b (mem_inDomain.mp hb).1

/-- The first action for a goal that is new is one that the search can open. -/
theorem FirstAt.opens (h : DeleteFree actions) {w0 : List Term} {m k : Nat} {g : Term}
    {a : Action} {act precList addList : List Term}
    (hfirst : FirstAt (inDomain d actions) w0 m g a act precList addList) (hm : m < k)
    {goals : List Term} (hgoals : ∀ g' ∈ goals, g'.IsFact) (hg : g ∈ goals) {w : List Term}
    (hw : g ∉ w) {forbidden : List (List Term)} (hfree : Free (inDomain d actions) w0 k forbidden)
    {dom dom' : Option Term} (hdom' : dom' ∈ sameDomain a dom) :
    Opens actions goals w forbidden dom
      ⟨(g, goals.filter fun t => t ≠ g), a, dom', act, precList⟩ where
  next := by
    obtain ⟨g', goals', rfl⟩ := List.exists_cons_of_ne_nil (List.ne_nil_of_mem hg)
    unfold getNextGoal
    refine List.mem_append_left _ ?_
    dsimp only
    rw [(hgoals g' List.mem_cons_self).isSeq, if_neg nofun]
    exact List.mem_map.mpr ⟨g, hg, rfl⟩
  unsatisfied := by
    rw [holdsIn_goal, testIn_fact (hgoals g hg), decide_eq_false hw]
  absent := hw
  action := by
    refine mem_achievers.mpr ⟨(mem_inDomain.mp hfirst.mem).1, addList, hfirst.add, ?_⟩
    rw [holdsIn_fact (hgoals g hg), decide_eq_true hfirst.adds]
  domain := hdom'
  operator := hfirst.act
  precList := hfirst.prec
  check := by
    have hnew := hfirst.not_forbidden (h.inDomain d).partials hm hfree
    rw [forbiddenCheck, if_pos hnew]
    exact List.mem_singleton_self _

/-- The action after a plan for its preconditions. -/
theorem FirstAt.after (h : DeleteFree actions) {w0 : List Term} {m : Nat} {g : Term}
    {a : Action} {act precList addList : List Term}
    (hfirst : FirstAt (inDomain d actions) w0 m g a act precList addList) (w : List Term) :
    ∃ w2 ∈ doAction a w, w ⊆ w2 ∧ g ∈ w2 := by
  have ha := (mem_inDomain.mp hfirst.mem).1
  obtain ⟨delList, hdel⟩ := List.exists_mem_of_ne_nil _ hfirst.dels
  have hnil := h.dels a ha delList hdel
  refine ⟨subtractSet w delList ++ addList, ?_, ?_, List.mem_append_right _ hfirst.adds⟩
  · unfold doAction
    rw [if_pos (h.partials a ha)]
    refine List.mem_append_left _ (List.mem_flatMap.mpr ⟨addList, hfirst.add, ?_⟩)
    exact List.mem_map.mpr ⟨delList, hdel, rfl⟩
  · intro t ht
    refine List.mem_append_left _ (List.mem_filter.mpr ⟨ht, ?_⟩)
    rw [hnil]
    exact decide_eq_true List.not_mem_nil

/-- What `solve/6` finds for the goals in a delete-free domain. -/
structure FoundIn (goals w : List Term) (d : Term) (r : Solution) : Prop where
  kept : w ⊆ r.world
  goals : ∀ g ∈ goals, g ∈ r.world
  domain : Within r.domain d

/-- An exhausted search finds the goals that come up at a stage from which no operator is
    forbidden. The induction is on the stage, and for one stage on the number of goals. -/
theorem found_of_stage (h : DeleteFree actions) (w0 : List Term) (k : Nat) :
    ∀ goals : List Term, (∀ g ∈ goals, g.IsFact) →
      (∀ g ∈ goals, g ∈ stage (operators (inDomain d actions)) { t | t ∈ w0 } k) →
      ∀ w, w0 ⊆ w → ∀ forbidden, Free (inDomain d actions) w0 k forbidden →
      ∀ dom, Within dom d → ∀ fuel,
      (Facts.solve6 actions fuel goals w forbidden dom).ending = .exhausted →
      ∃ r ∈ (Facts.solve6 actions fuel goals w forbidden dom).answers, FoundIn goals w d r := by
  induction k using Nat.strongRecOn with
  | ind k ihstage =>
    intro goals
    generalize hn : goals.length = n
    induction n using Nat.strongRecOn generalizing goals with
    | ind n ihlength =>
      intro hgoals hstage w hw forbidden hfree dom hdom fuel hex
      obtain _ | fuel := fuel
      · cases hex
      rw [Facts.solve6_succ] at hex ⊢
      by_cases hheld : ∀ g ∈ goals, g ∈ w
      · rw [if_pos ((holdsIn_facts hgoals w).mpr hheld)]
        exact ⟨⟨w, [], dom⟩, List.mem_singleton_self _, List.Subset.refl w, hheld, hdom⟩
      have hnoseq : ∀ t, goals = [t] → t.isSeq = false := by
        rintro t rfl
        exact (hgoals t (List.mem_singleton_self t)).isSeq
      rw [if_neg (fun hholds => hheld ((holdsIn_facts hgoals w).mp hholds)),
        Facts.sequenceClause, onSequence_other hnoseq, Search.fail_append] at hex ⊢
      -- a goal that does not hold yet and the first action that adds it
      push Not at hheld
      obtain ⟨g, hg, hgw⟩ := hheld
      obtain ⟨m, hm, a, act, precList, addList, hfirst⟩ :=
        exists_firstAt (h.inDomain d).partials (hstage g hg) fun hmem => hgw (hw hmem)
      have ha := mem_inDomain.mp hfirst.mem
      obtain ⟨dom', hdom', hwithin⟩ := exists_sameDomain (h.domains a ha.1) ha.2 hdom
      have ho := hfirst.opens h hm hgoals hg hgw hfree hdom'
      obtain ⟨hexBefore, hfound⟩ := solveUnsatisfied_of_exhausted hex ho
      -- the plan for its preconditions
      obtain ⟨before, hbefore, hreached⟩ := ihstage m hm precList
        (h.pres a ha.1 precList hfirst.prec) hfirst.applicable w hw (act :: forbidden)
        (hfirst.free (h.inDomain d) (hfree.mono hm.le)) dom' hwithin fuel hexBefore
      have hready : subset precList before.world = true :=
        List.all_eq_true.mpr fun t ht => decide_eq_true (hreached.goals t ht)
      have hpre : () ∈ preconditionsHold precList before.world := by
        refine List.mem_append_left _ ?_
        rw [if_pos hready]
        exact List.mem_singleton_self _
      obtain ⟨w2, hdo, hsub, hgw2⟩ := hfirst.after h before.world
      obtain ⟨hexAfter, hafter⟩ := hfound before hbefore hpre w2 hdo
      -- the plan for the remaining goals
      unfold Facts.rest at hexAfter hafter
      rw [if_pos (h.partials a ha.1)] at hexAfter hafter
      have hshort : (goals.filter fun t => t ≠ g).length < n := by
        rw [← hn]
        exact List.length_filter_lt_length_iff_exists.mpr ⟨g, hg, by simp⟩
      obtain ⟨after, hmem, hrest⟩ := ihlength _ hshort _ rfl
        (fun t ht => hgoals t (List.mem_filter.mp ht).1)
        (fun t ht => hstage t (List.mem_filter.mp ht).1) w2
        (List.Subset.trans hw (List.Subset.trans hreached.kept hsub)) forbidden hfree
        before.domain hreached.domain fuel hexAfter
      have hkept : before.world ⊆ after.world := List.Subset.trans hsub hrest.kept
      refine ⟨_, hafter after hmem, List.Subset.trans hreached.kept hkept, ?_, hrest.domain⟩
      intro t ht
      by_cases heq : t = g
      · rw [heq]
        exact hrest.kept hgw2
      · exact hrest.goals t (List.mem_filter.mpr ⟨ht, by simpa using heq⟩)

/-! ## The planner decides whether there is a plan -/

theorem DeleteFree.plain (h : DeleteFree actions) {out : Outside}
    (hfacts : FactDomain out actions) : Plain out actions where
  acts := h.acts
  partials := h.partials
  pres a ha precList hprec :=
    ⟨h.noSeq a ha precList hprec, (hfacts.pres a ha precList hprec).halting⟩

theorem solveWithDomain_noSeq {fuel : Nat} {goals w : List Term} {dom : Option Term}
    (hgoals : NoSeq goals) : Facts.solveWithDomain actions (fuel + 1) goals w dom =
      Facts.solveGoals (Facts.solve6 actions fuel) goals w dom := by
  rw [Facts.solveWithDomain_succ, Facts.firstClause, onSequence_other, Search.commit_fail]
  rintro t rfl
  exact hgoals t (List.mem_singleton_self t)

/-- Goals that a plan leads to are all there at some stage. -/
theorem exists_stage {w0 : List Term} {steps : List (Operator Term (List Term))} {T : Set Term}
    (hsteps : Executes (operators (inDomain d actions)) { t | t ∈ w0 } steps T)
    {goals : List Term} (hT : ∀ g ∈ goals, g ∈ T) :
    ∃ k, ∀ g ∈ goals, g ∈ stage (operators (inDomain d actions)) { t | t ∈ w0 } k := by
  have hfinite : ∀ o ∈ operators (inDomain d actions), o.pre.Finite := by
    rintro o ⟨a, -, act, -, precList, -, addList, -, delList, -, rfl⟩
    exact List.finite_toSet precList
  have hrelaxed : { g | g ∈ goals } ⊆ relaxation (operators (inDomain d actions))
      { t | t ∈ w0 } :=
    fun g hg => hsteps.subset_relaxation subset_relaxation (hT g hg)
  exact (subset_relaxation_iff hfinite (List.finite_toSet goals)).mp hrelaxed

/-- Where the search for facts is exhausted, it has found a plan exactly if there is one within
    some domain. -/
theorem solveWithDomain_complete (h : DeleteFree actions) {goals w0 : List Term}
    (hgoals : ∀ g ∈ goals, g.IsFact) {fuel : Nat}
    (hex : (Facts.solveWithDomain actions fuel goals w0 none).ending = .exhausted) :
    (Facts.solveWithDomain actions fuel goals w0 none).answers ≠ [] ↔
      ∃ d steps T, Executes (operators (inDomain d actions)) { t | t ∈ w0 } steps T ∧
        ∀ g ∈ goals, g ∈ T := by
  have hnoseq : NoSeq goals := fun g hg => (hgoals g hg).isSeq
  obtain _ | fuel := fuel
  · cases hex
  rw [solveWithDomain_noSeq hnoseq] at hex ⊢
  rw [solveGoals_exhausted] at hex
  rw [ne_nil_iff]
  constructor
  · rintro ⟨r, hr⟩
    obtain ⟨found, hfound, hholds, rfl⟩ := mem_solveGoals.mp hr
    obtain ⟨d, hd⟩ := exists_within found.domain
    obtain ⟨-, steps, hsteps⟩ := executes_of_found h.noSeq fuel hnoseq hfound hd
    exact ⟨d, steps, _, hsteps, (holdsIn_facts hgoals found.world).mp hholds⟩
  · rintro ⟨d, steps, T, hsteps, hT⟩
    obtain ⟨k, hk⟩ := exists_stage hsteps hT
    have hfree : Free (inDomain d actions) w0 k [] := fun _ _ _ _ _ => List.not_mem_nil
    obtain ⟨found, hfound, hreached⟩ := found_of_stage h w0 k goals hgoals hk w0
      (List.Subset.refl w0) [] hfree none (.inl rfl) fuel hex
    exact ⟨_, mem_solveGoals.mpr ⟨found, hfound, (holdsIn_facts hgoals _).mpr hreached.goals, rfl⟩⟩

/-- The query has a first solution. -/
def Finds (q : Query Scratch Solution) (s : Scratch) : Prop := ∃ r s', (q s).first = some (r, s')

theorem finds_iff {q : Query Scratch Solution} {S : Search Solution} {P : Solution → Prop}
    (h : q.Denotes Scratch.Clean P S) {s : Scratch} (hs : s.Clean) :
    Finds q s ↔ S.answers ≠ [] := by
  rw [Ne, ← List.head?_eq_none_iff, ← h.first hs, Option.map_eq_none_iff, ← Ne,
    Option.ne_none_iff_exists']
  exact ⟨fun ⟨r, s', h⟩ => ⟨(r, s'), h⟩, fun ⟨x, h⟩ => ⟨x.1, x.2, h⟩⟩

theorem DeleteFree.regular {out : Outside} (h : DeleteFree actions)
    (hfacts : FactDomain out actions) :
    Regular out actions (fun e => .exhausted = e) (Assertable out) (Safe out) :=
  (h.plain hfacts).regular_assertable fun a ha addList hadd =>
    (hfacts.adds a ha addList hadd).assertable

/-- With enough fuel the search for goals that are facts is exhausted. -/
theorem exhausted_eventually {out : Outside} (hfacts : FactDomain out actions)
    (h : DeleteFree actions) {goals : List Term} (hgoals : ∀ g ∈ goals, g.IsFact)
    (hclosed : Closed out goals) : ∀ᶠ fuel in Filter.atTop, ∀ w0, FactWorld out w0 →
      (Facts.solveWithDomain actions fuel goals w0 none).ending = .exhausted := by
  have hnoseq : NoSeq goals := fun g hg => (hgoals g hg).isSeq
  filter_upwards [(endsEventually (h.regular hfacts) _ ⟨hclosed.halting, .inl hnoseq⟩ rfl).2]
    with fuel hfuel
  intro w0 hw0
  have hdenotes := (solve_denotes hfacts fuel).2 goals w0 none hclosed hw0 emptyScratch rfl
  exact (hdenotes.ends (hfuel w0 none hw0.assertable emptyScratch)).symm

/-- On a delete-free domain of facts some depth of calls is enough for any world, and with it
    `solve/4` finds a plan for goals that are facts exactly if the actions that can be used in some
    domain, one after another, lead to a world with all of them. -/
theorem solve_complete (out : Outside) (actions : List Action) (hfacts : FactDomain out actions)
    (h : DeleteFree actions) (goals : List Term) (hgoals : ∀ g ∈ goals, g.IsFact)
    (hclosed : Closed out goals) : ∃ depth, ∀ fuel ≥ depth, ∀ w0, FactWorld out w0 →
      ∀ s : Scratch, s.Clean →
      ((∃ r s', (solve out actions fuel goals w0 s).first = some (r, s')) ↔
        ∃ d steps T, Executes (operators (inDomain d actions)) { t | t ∈ w0 } steps T ∧
          ∀ g ∈ goals, g ∈ T) := by
  obtain ⟨depth, hdepth⟩ :=
    Filter.eventually_atTop.mp (exhausted_eventually hfacts h hgoals hclosed)
  refine ⟨depth, fun fuel hfuel w0 hw0 s hs => ?_⟩
  rw [← solveWithDomain_complete h hgoals (hdepth fuel hfuel w0 hw0)]
  exact finds_iff ((solve_denotes hfacts fuel).2 goals w0 none hclosed hw0) hs

/-- A part that is fetched in the domain of the cage and stored in any domain. -/
def storeActions : List Action :=
  [[.act [.atom "fetch"], .pre [], .add [.atom "part"], .del [], .domain (.atom "cage")],
    [.act [.atom "store"], .pre [.atom "part"], .add [.atom "stored"], .del []]]

theorem solve_complete_store : ∃ depth, ∀ fuel ≥ depth, ∃ r s',
    (solve onlyTrue storeActions fuel [.atom "stored"] [] emptyScratch).first = some (r, s') := by
  obtain ⟨depth, hdepth⟩ := solve_complete onlyTrue storeActions
    ⟨by decide, by decide, by decide⟩
    ⟨by decide, by decide, by decide, by decide, by decide, by decide⟩ [.atom "stored"]
    (by decide) (by decide)
  refine ⟨depth, fun fuel hfuel => (hdepth fuel hfuel [] (by decide) emptyScratch rfl).mpr ?_⟩
  have hfetch : strip [.atom "fetch"] [] [.atom "part"] [] ∈
      operators (inDomain (.atom "cage") storeActions) :=
    ⟨storeActions[0], by decide, _, by decide, _, by decide, _, by decide, _, by decide, rfl⟩
  have hstore : strip [.atom "store"] [.atom "part"] [.atom "stored"] [] ∈
      operators (inDomain (.atom "cage") storeActions) :=
    ⟨storeActions[1], by decide, _, by decide, _, by decide, _, by decide, _, by decide, rfl⟩
  refine ⟨.atom "cage", _, _, .cons hfetch (fun t ht => by cases ht) (.cons hstore ?_ .nil), ?_⟩
  · exact fun t ht => .inr ht
  · exact fun t ht => .inr ht

end SmartWarehouse.Kbase
