/-
  The planner's search is finite.

  On actions with nonempty operators, without partial entries and without sequences as
  preconditions, every call of `solve/6` below another one has a smaller measure: the goals hold
  less of a sequence, or an operator more is forbidden, or there are fewer goals. So some depth of
  calls is enough for any world, and the complete search ends there (`solve_finite`), unless a
  goal calls a predicate outside `simula` that runs for ever (`search_without_end`). It ends by
  failing, except for the errors of a state that cannot be asserted and of the goal `seq`.
-/
import SmartWarehouse.Kbase.PlannerSound
import Mathlib.Order.Filter.AtTopBot.Basic
import Mathlib.Order.Filter.Finite

namespace SmartWarehouse.Kbase

open SmartWarehouse.Lib

/-! ## The measure -/

def Term.size : Term → Nat
  | .cons head tail => head.size + tail.size + 1
  | .compound _ args => args.size + 1
  | _ => 1

/-- The size of the arguments of a sequence; 0 for any other goal. -/
def Term.seqSize : Term → Nat
  | .compound name args => if name = "seq" then args.size + 1 else 0
  | _ => 0

def seqSize : List Term → Nat
  | [] => 0
  | goal :: goals => goal.seqSize + seqSize goals

theorem Term.size_cons (head tail : Term) :
    (Term.cons head tail).size = head.size + tail.size + 1 := rfl

theorem Term.seqSize_le_size (t : Term) : t.seqSize ≤ t.size := by
  cases t with
  | compound name args =>
    show (if name = "seq" then args.size + 1 else 0) ≤ args.size + 1
    split <;> omega
  | _ => exact Nat.zero_le _

theorem seqSize_singleton (g : Term) : seqSize [g] = g.seqSize := rfl

theorem Term.seqSize_seq (args : Term) : (Term.compound "seq" args).seqSize = args.size + 1 := rfl

theorem size_of_mem_flatten {t g : Term} (h : g ∈ t.flatten) : g.size ≤ t.size := by
  induction t with
  | nil => cases h
  | cons head tail ihhead ihtail =>
    rw [Term.size_cons]
    rcases List.mem_append.mp h with h | h
    · have := ihhead h
      omega
    · have := ihtail h
      omega
  | _ =>
    rw [List.mem_singleton.mp h]

theorem size_of_mem_elements {t g : Term} (h : g ∈ t.elements) : g.size ≤ t.size := by
  induction t with
  | cons head tail ihhead ihtail =>
    rw [Term.size_cons]
    rcases List.mem_cons.mp h with rfl | h
    · omega
    · have := ihtail h
      omega
  | _ => cases h

theorem seqSize_of_noSeq {goals : List Term} (h : NoSeq goals) : seqSize goals = 0 := by
  induction goals with
  | nil => rfl
  | cons g gs ih =>
    have hg : g.seqSize = 0 := by
      have hseq := h g List.mem_cons_self
      unfold Term.seqSize
      split
      · rename_i name args
        rw [if_neg]
        rintro rfl
        cases hseq
      · rfl
    rw [seqSize, hg, ih fun g' hg' => h g' (List.mem_cons_of_mem _ hg')]

theorem seqSize_filter_le (p : Term → Bool) (goals : List Term) :
    seqSize (goals.filter p) ≤ seqSize goals := by
  induction goals with
  | nil => exact le_refl _
  | cons g gs ih =>
    have hcons : ∀ l, seqSize (g :: l) = g.seqSize + seqSize l := fun _ => rfl
    rw [List.filter_cons, hcons]
    split
    · rw [hcons]
      omega
    · omega

/-- What is left of the goals holds less of a sequence, or is a shorter list. -/
theorem remaining_smaller {goals : List Term} {next : Term × List Term}
    (h : next ∈ getNextGoal goals) :
    seqSize next.2 < seqSize goals ∨
      seqSize next.2 ≤ seqSize goals ∧ next.2.length < goals.length := by
  rcases getNextGoal_cases h with ⟨hmem, hrest⟩ | ⟨rest, rfl, hrest⟩ | ⟨rest, rfl, hrest⟩ <;>
    rw [hrest]
  · refine .inr ⟨seqSize_filter_le _ _, ?_⟩
    exact List.length_filter_lt_length_iff_exists.mpr ⟨next.1, hmem, by simp⟩
  · left
    rw [seqSize_singleton, Term.seqSize_seq, Term.size_cons, Term.size_cons]
    split
    · exact Nat.succ_pos _
    · rw [seqSize_singleton, Term.seqSize_seq, Term.size_cons]
      omega
  · left
    rw [seqSize_singleton, Term.seqSize_seq, Term.size_cons]
    split
    · exact Nat.succ_pos _
    · rw [seqSize_singleton, Term.seqSize_seq]
      omega

/-- The operators that are not forbidden yet. -/
def openOperators (actions : List Action) (forbidden : List (List Term)) : List (List Term) :=
  (actions.flatMap Action.acts).filter fun o => !forbidden.contains o

theorem length_openOperators_lt {actions : List Action} {a : Action} (ha : a ∈ actions)
    {operator : List Term} (hact : operator ∈ a.acts) {forbidden : List (List Term)}
    (hnew : operator ∉ forbidden) :
    (openOperators actions (operator :: forbidden)).length <
      (openOperators actions forbidden).length := by
  have hfilter : openOperators actions (operator :: forbidden) =
      (openOperators actions forbidden).filter fun o => o ≠ operator := by
    unfold openOperators
    rw [List.filter_filter]
    apply List.filter_congr
    intro o _
    simp
  have hmem : operator ∈ openOperators actions forbidden :=
    List.mem_filter.mpr ⟨List.mem_flatMap.mpr ⟨a, ha, hact⟩, by simpa using hnew⟩
  rw [hfilter]
  exact List.length_filter_lt_length_iff_exists.mpr ⟨operator, hmem, by simp⟩

theorem not_mem_of_forbiddenCheck {operator : List Term} {forbidden : List (List Term)}
    (hne : operator ≠ []) {u : Unit} (h : u ∈ forbiddenCheck operator forbidden) :
    operator ∉ forbidden := by
  by_contra hmem
  unfold forbiddenCheck at h
  rw [if_neg (not_not.mpr hmem), if_neg hne] at h
  cases h

/-! ## One level of the search -/

/-- What the search relies on: how it may end, which worlds it meets and which goals, and that the
    actions are plain. -/
structure Regular (out : Outside) (actions : List Action) (E : Ending → Prop)
    (World Goals : List Term → Prop) : Prop where
  exhausted : E .exhausted
  goal : ∀ goal w, Goals [goal] → World w → (holds out goal w).Ends E fun _ => True
  goals : ∀ goals w, Goals goals → World w → (holds out (.ofList goals) w).Ends E fun _ => True
  adds : ∀ a ∈ actions, ∀ addList ∈ a.adds, World addList
  after : ∀ a ∈ actions, ∀ w, World w → ∀ w' ∈ doAction a w, World w'
  acts : ∀ a ∈ actions, ∀ operator ∈ a.acts, operator ≠ []
  partials : ∀ a ∈ actions, a.partials = []
  pres : ∀ a ∈ actions, ∀ precList ∈ a.pres, NoSeq precList ∧ Goals precList
  next : ∀ goals, Goals goals → ∀ next ∈ getNextGoal goals, Goals [next.1] ∧ Goals next.2
  parts : ∀ args, Goals [.compound "seq" args] →
    ∀ g, g ∈ args.flatten ∨ g ∈ args.elements → Goals [g]
  raise : Goals [.atom "seq"] → E .raised

variable {out : Outside} {actions : List Action} {E : Ending → Prop}
  {World Goals : List Term → Prop}

theorem achieves_ends (h : Regular out actions E World Goals) {goal : Term}
    (hgoal : Goals [goal]) : (achieves out actions goal).Ends E fun a => a ∈ actions := by
  unfold achieves
  refine .bind (.ofList h.exhausted fun a ha => ha) fun a ha => ?_
  refine .bind (.ofList h.exhausted fun addList hadd => hadd) fun addList hadd => ?_
  exact .bind (h.goal goal addList hgoal (h.adds a ha addList hadd)) fun _ _ =>
    .pure h.exhausted ha

/-- The clause for a goal that does not hold yet ends if the calls below it do. -/
theorem solveUnsatisfied_ends (h : Regular out actions E World Goals)
    {rec : List Term → List Term → List (List Term) → Option Term → Query Scratch Solution}
    {goals w0 : List Term} {forbidden : List (List Term)} (dom : Option Term)
    (hgoals : Goals goals) (hw0 : World w0)
    (hpre : ∀ a ∈ actions, ∀ operator ∈ a.acts, operator ∉ forbidden → ∀ precList ∈ a.pres,
      ∀ w dom, World w → (rec precList w (operator :: forbidden) dom).Ends E
        fun r => World r.world)
    (hrest : ∀ next ∈ getNextGoal goals, ∀ w dom, World w →
      (rec next.2 w forbidden dom).Ends E fun r => World r.world) :
    (solveUnsatisfied out actions rec goals w0 forbidden dom).Ends E fun r => World r.world := by
  have any : ∀ {α : Type} (l : List α),
      (Query.ofList l : Query Scratch α).Ends E fun _ => True :=
    fun l => .ofList h.exhausted fun _ _ => trivial
  unfold solveUnsatisfied
  refine .bind (.ofList h.exhausted fun next hnext => hnext) fun next hnext => ?_
  have hgoal := (h.next goals hgoals next hnext).1
  refine .bind ((h.goals _ _ hgoal hw0).not h.exhausted) fun _ _ => ?_
  refine .bind (any _) fun _ _ => ?_
  refine .bind (achieves_ends h hgoal) fun action haction => ?_
  refine .bind (any _) fun dom _ => ?_
  refine .bind (.ofList h.exhausted fun operator hoperator => hoperator)
    fun operator hoperator => ?_
  refine .bind (.ofList h.exhausted fun precList hprec => hprec) fun precList hprec => ?_
  refine .bind (any _) fun _ _ => ?_
  refine .bind (any _) fun _ _ => ?_
  refine .bind (.ofList h.exhausted fun u hu =>
    not_mem_of_forbiddenCheck (h.acts action haction operator hoperator) hu) fun _ hnew => ?_
  refine .bind (hpre action haction operator hoperator hnew precList hprec _ _ hw0)
    fun before hbefore => ?_
  refine .bind (any _) fun _ _ => ?_
  refine .bind (.ofList h.exhausted fun w2 hdo => h.after action haction _ hbefore w2 hdo)
    fun w2 hw2 => ?_
  rw [if_pos (h.partials action haction)]
  exact .bind (hrest next hnext _ _ hw2) fun after hafter => .pure h.exhausted hafter

theorem solve6_ends (h : Regular out actions E World Goals) {fuel : Nat} {goals w0 : List Term}
    {forbidden : List (List Term)} (dom : Option Term) (hgoals : Goals goals) (hw0 : World w0)
    (hseq : ∀ args, goals = [.compound "seq" args] → ∀ w dom, World w →
      (solveSequential (solveWithDomain out actions fuel) args.flatten w dom).Ends E
        fun r => World r.world)
    (hpre : ∀ a ∈ actions, ∀ operator ∈ a.acts, operator ∉ forbidden → ∀ precList ∈ a.pres,
      ∀ w dom, World w → (solve6 out actions fuel precList w (operator :: forbidden) dom).Ends E
        fun r => World r.world)
    (hrest : ∀ next ∈ getNextGoal goals, ∀ w dom, World w →
      (solve6 out actions fuel next.2 w forbidden dom).Ends E fun r => World r.world) :
    (solve6 out actions (fuel + 1) goals w0 forbidden dom).Ends E fun r => World r.world := by
  have hclause : (sequenceClause out actions fuel goals w0 dom).Ends E fun r => World r.world := by
    rcases goals_cases goals with ⟨args, rfl⟩ | rfl | hnoseq
    · exact hseq args rfl w0 dom hw0
    · exact fun _ => h.raise hgoals
    · rw [sequenceClause, onSequence_other hnoseq]
      exact .fail h.exhausted
  by_cases hnil : goals = []
  · subst hnil
    rw [solve6_nil]
    exact .pure h.exhausted hw0
  · rw [solve6_succ _ _ _ hnil]
    refine .commit (h.goals _ _ hgoals hw0) (fun _ _ => .pure h.exhausted hw0) ?_
    exact .orElse hclause (solveUnsatisfied_ends h dom hgoals hw0 hpre hrest)

theorem solveSequential_ends (h : Regular out actions E World Goals)
    {withDomain : List Term → List Term → Option Term → Query Scratch Solution}
    {goals : List Term}
    (hgoals : ∀ g ∈ goals, ∀ w dom, World w → (withDomain [g] w dom).Ends E
      fun r => World r.world) {w : List Term} (dom : Option Term) (hw : World w) :
    (solveSequential withDomain goals w dom).Ends E fun r => World r.world := by
  induction goals generalizing w dom with
  | nil => exact .pure h.exhausted hw
  | cons goal goals ih =>
    unfold solveSequential
    refine .bind (hgoals goal List.mem_cons_self w dom hw) fun first hfirst => ?_
    refine .bind (ih (fun g hg => hgoals g (List.mem_cons_of_mem _ hg)) first.domain hfirst)
      fun remaining hremaining => ?_
    exact .pure h.exhausted hremaining

theorem solveWithDomain_ends (h : Regular out actions E World Goals) {fuel : Nat}
    {goals w : List Term} (dom : Option Term) (hgoals : Goals goals) (hw : World w)
    (hsolve : ∀ w dom, World w → (solve6 out actions fuel goals w [] dom).Ends E
      fun r => World r.world)
    (hseq : ∀ args, goals = [.compound "seq" args] → ∀ w dom, World w →
      (solveSequential (solveWithDomain out actions fuel) args.elements w dom).Ends E
        fun r => World r.world) :
    (solveWithDomain out actions (fuel + 1) goals w dom).Ends E fun r => World r.world := by
  have hclause : (firstClause out actions fuel goals w dom).Ends E fun r => World r.world := by
    rcases goals_cases goals with ⟨args, rfl⟩ | rfl | hnoseq
    · exact hseq args rfl w dom hw
    · exact .pure h.exhausted hw
    · rw [firstClause, onSequence_other hnoseq]
      exact .fail h.exhausted
  rw [solveWithDomain_succ]
  refine .commit hclause (fun _ hfound => .pure h.exhausted hfound) ?_
  refine .bind (hsolve w dom hw) fun found hfound => ?_
  exact .bind (h.goals _ _ hgoals hfound) fun _ _ => .pure h.exhausted hfound

/-! ## Enough fuel -/

open Filter in
/-- With enough fuel the search of `solve/6` for the goals ends, from any world. -/
def EndsEventually (out : Outside) (actions : List Action) (E : Ending → Prop)
    (World : List Term → Prop) (goals : List Term) (forbidden : List (List Term)) : Prop :=
  ∀ᶠ fuel in atTop, ∀ w dom, World w →
    (solve6 out actions fuel goals w forbidden dom).Ends E fun r => World r.world

open Filter in
/-- The same for `solve_with_domain/5`. -/
def EndsEventuallyWithDomain (out : Outside) (actions : List Action) (E : Ending → Prop)
    (World : List Term → Prop) (goals : List Term) : Prop :=
  ∀ᶠ fuel in atTop, ∀ w dom, World w →
    (solveWithDomain out actions fuel goals w dom).Ends E fun r => World r.world

theorem eventually_forall_mem {α : Type} {l : List α} {p : Nat → α → Prop}
    (h : ∀ a ∈ l, ∀ᶠ n in Filter.atTop, p n a) : ∀ᶠ n in Filter.atTop, ∀ a ∈ l, p n a :=
  (Filter.eventually_all_finite (List.finite_toSet l)).mpr h

/-- A property of the calls below holds one level up. -/
theorem eventually_succ {p : Nat → Prop} (h : ∀ᶠ n in Filter.atTop, p n) {q : Nat → Prop}
    (hpq : ∀ n, p n → q (n + 1)) : ∀ᶠ n in Filter.atTop, q n := by
  filter_upwards [(Filter.tendsto_sub_atTop_nat 1).eventually h, Filter.eventually_ge_atTop 1]
    with n hn hone
  obtain ⟨m, rfl⟩ := Nat.exists_eq_add_of_le' hone
  exact hpq m hn

theorem eventually_sequential (h : Regular out actions E World Goals) {goals : List Term}
    (hgoals : ∀ g ∈ goals, EndsEventuallyWithDomain out actions E World [g]) :
    ∀ᶠ fuel in Filter.atTop, ∀ w dom, World w →
      (solveSequential (solveWithDomain out actions fuel) goals w dom).Ends E
        fun r => World r.world := by
  filter_upwards [eventually_forall_mem hgoals] with fuel hfuel
  intro w dom hw
  exact solveSequential_ends h hfuel dom hw

/-- Enough fuel for the parts of a sequence, if the goals are one. -/
theorem eventually_parts (h : Regular out actions E World Goals) {goals : List Term}
    (parts : Term → List Term) (hparts : ∀ args, goals = [.compound "seq" args] →
      ∀ g ∈ parts args, EndsEventuallyWithDomain out actions E World [g]) :
    ∀ᶠ fuel in Filter.atTop, ∀ args, goals = [.compound "seq" args] → ∀ w dom, World w →
      (solveSequential (solveWithDomain out actions fuel) (parts args) w dom).Ends E
        fun r => World r.world := by
  by_cases hterm : ∃ args, goals = [.compound "seq" args]
  · obtain ⟨args, rfl⟩ := hterm
    filter_upwards [eventually_sequential h (hparts args rfl)] with fuel hfuel
    intro args' heq
    obtain rfl : args = args' := (Term.compound.inj (List.cons.inj heq).1).2
    exact hfuel
  · exact Filter.Eventually.of_forall fun _ args heq => absurd ⟨args, heq⟩ hterm

/-- The parts of a sequence are smaller than the sequence. -/
theorem part_smaller {args g : Term} (hg : g ∈ args.flatten ∨ g ∈ args.elements) :
    seqSize [g] < seqSize [.compound "seq" args] := by
  have hsize := hg.elim size_of_mem_flatten size_of_mem_elements
  have hle := g.seqSize_le_size
  rw [seqSize_singleton, seqSize_singleton, Term.seqSize_seq]
  omega

/-- One level of `solve/6`: enough fuel for the calls below and one more. -/
theorem endsEventually_step (h : Regular out actions E World Goals) {goals : List Term}
    {forbidden : List (List Term)} (hgoals : Goals goals)
    (hseq : ∀ args, goals = [.compound "seq" args] → ∀ g ∈ args.flatten,
      EndsEventuallyWithDomain out actions E World [g])
    (hpre : ∀ a ∈ actions, ∀ operator ∈ a.acts, operator ∉ forbidden → ∀ precList ∈ a.pres,
      EndsEventually out actions E World precList (operator :: forbidden))
    (hrest : ∀ next ∈ getNextGoal goals,
      EndsEventually out actions E World next.2 forbidden) :
    EndsEventually out actions E World goals forbidden := by
  have hseq' := eventually_parts h Term.flatten hseq
  have hpre' : ∀ᶠ fuel in Filter.atTop, ∀ a ∈ actions, ∀ operator ∈ a.acts,
      operator ∉ forbidden → ∀ precList ∈ a.pres, ∀ w dom, World w →
        (solve6 out actions fuel precList w (operator :: forbidden) dom).Ends E
          fun r => World r.world := by
    refine eventually_forall_mem fun a ha => eventually_forall_mem fun operator hact => ?_
    by_cases hnew : operator ∈ forbidden
    · exact Filter.Eventually.of_forall fun _ hnot => absurd hnew hnot
    · filter_upwards [eventually_forall_mem (hpre a ha operator hact hnew)] with fuel hfuel
      intro _
      exact hfuel
  have hbelow := (hseq'.and hpre').and (eventually_forall_mem hrest)
  refine eventually_succ hbelow ?_
  intro fuel hfuel w dom hw
  exact solve6_ends h dom hgoals hw hfuel.1.1 hfuel.1.2 hfuel.2

/-- By induction on the measure of the calls: first what the goals hold of a sequence, then the
    operators still open, then the number of goals. -/
theorem endsEventually (h : Regular out actions E World Goals) (n : Nat) {goals : List Term}
    (hgoals : Goals goals) (hn : seqSize goals = n) :
    (∀ forbidden, EndsEventually out actions E World goals forbidden) ∧
      EndsEventuallyWithDomain out actions E World goals := by
  induction n using Nat.strongRecOn generalizing goals with
  | ind n ihseq =>
    have hparts : ∀ goals, Goals goals → seqSize goals = n → ∀ args,
        goals = [.compound "seq" args] → ∀ g, g ∈ args.flatten ∨ g ∈ args.elements →
        EndsEventuallyWithDomain out actions E World [g] := by
      rintro goals hgoals rfl args rfl g hg
      exact (ihseq (seqSize [g]) (part_smaller hg) (h.parts args hgoals g hg) rfl).2
    have hsolve : ∀ k l, ∀ goals forbidden, Goals goals → seqSize goals = n →
        (openOperators actions forbidden).length = k → goals.length = l →
        EndsEventually out actions E World goals forbidden := by
      intro k
      induction k using Nat.strongRecOn with
      | ind k ihopen =>
        intro l
        induction l using Nat.strongRecOn with
        | ind l ihlength =>
          intro goals forbidden hgoals hn hk hl
          refine endsEventually_step h hgoals ?_ ?_ ?_
          · intro args heq g hg
            exact hparts goals hgoals hn args heq g (.inl hg)
          · intro a ha operator hact hnew precList hprec
            obtain ⟨hnoseq, hgoalsPre⟩ := h.pres a ha precList hprec
            have hzero := seqSize_of_noSeq hnoseq
            rcases Nat.eq_zero_or_pos n with rfl | hpos
            · have hlt := length_openOperators_lt ha hact hnew
              rw [hk] at hlt
              exact ihopen _ hlt _ precList _ hgoalsPre hzero rfl rfl
            · exact (ihseq 0 hpos hgoalsPre hzero).1 _
          · intro next hnext
            have hgoalsNext := (h.next goals hgoals next hnext).2
            rcases remaining_smaller hnext with hlt | ⟨hle, hshort⟩
            · rw [hn] at hlt
              exact (ihseq _ hlt hgoalsNext rfl).1 forbidden
            · rw [hn] at hle
              rcases Nat.lt_or_eq_of_le hle with hlt | heq
              · exact (ihseq _ hlt hgoalsNext rfl).1 forbidden
              · rw [hl] at hshort
                exact ihlength _ hshort next.2 forbidden hgoalsNext heq hk rfl
    refine ⟨fun forbidden => hsolve _ _ goals forbidden hgoals hn rfl rfl, ?_⟩
    have hseq := eventually_parts h Term.elements fun args heq g hg =>
      hparts goals hgoals hn args heq g (.inr hg)
    have hbelow := (hsolve _ _ goals [] hgoals hn rfl rfl).and hseq
    refine eventually_succ hbelow ?_
    intro fuel hfuel w dom hw
    exact solveWithDomain_ends h dom hgoals hw hfuel.1 hfuel.2

/-! ## More fuel -/

theorem solveUnsatisfied_extends
    {rec rec' : List Term → List Term → List (List Term) → Option Term → Query Scratch Solution}
    (hrec : ∀ goals w forbidden dom,
      (rec goals w forbidden dom).Extends (rec' goals w forbidden dom))
    (goals w0 : List Term) (forbidden : List (List Term)) (dom : Option Term) :
    (solveUnsatisfied out actions rec goals w0 forbidden dom).Extends
      (solveUnsatisfied out actions rec' goals w0 forbidden dom) := by
  unfold solveUnsatisfied
  -- the choices before and between the calls of `solve/6` do not depend on the fuel
  refine .bind (.refl _) fun next => .bind (.refl _) fun _ => .bind (.refl _) fun _ => ?_
  refine .bind (.refl _) fun action => .bind (.refl _) fun dom => ?_
  refine .bind (.refl _) fun operator => .bind (.refl _) fun precList => ?_
  refine .bind (.refl _) fun _ => .bind (.refl _) fun _ => .bind (.refl _) fun _ => ?_
  refine .bind (hrec _ _ _ _) fun before => ?_
  refine .bind (.refl _) fun _ => .bind (.refl _) fun w2 => ?_
  refine .bind ?_ fun _ => .refl _
  split
  · exact hrec _ _ _ _
  · exact .bind (.refl _) fun _ => hrec _ _ _ _

theorem solveSequential_extends
    {withDomain withDomain' : List Term → List Term → Option Term → Query Scratch Solution}
    (h : ∀ goals w dom, (withDomain goals w dom).Extends (withDomain' goals w dom))
    (goals w : List Term) (dom : Option Term) :
    (solveSequential withDomain goals w dom).Extends (solveSequential withDomain' goals w dom) := by
  induction goals generalizing w dom with
  | nil => exact .refl _
  | cons goal goals ih =>
    unfold solveSequential
    exact .bind (h _ _ _) fun first => .bind (ih _ _) fun _ => .refl _

theorem clauses_extends {fuel : Nat}
    (h : ∀ goals w dom, (solveWithDomain out actions fuel goals w dom).Extends
      (solveWithDomain out actions (fuel + 1) goals w dom))
    (goals w : List Term) (dom : Option Term) :
    (sequenceClause out actions fuel goals w dom).Extends
      (sequenceClause out actions (fuel + 1) goals w dom) ∧
    (firstClause out actions fuel goals w dom).Extends
      (firstClause out actions (fuel + 1) goals w dom) := by
  rcases goals_cases goals with ⟨args, rfl⟩ | rfl | hgoals
  · exact ⟨solveSequential_extends h _ w dom, solveSequential_extends h _ w dom⟩
  · exact ⟨.refl _, .refl _⟩
  · unfold sequenceClause firstClause
    simp only [onSequence_other hgoals]
    exact ⟨.refl _, .refl _⟩

/-- With more fuel the searches go on where they ran out of it and change nothing else. -/
theorem solve_extends (fuel : Nat) :
    (∀ goals w forbidden dom, (solve6 out actions fuel goals w forbidden dom).Extends
      (solve6 out actions (fuel + 1) goals w forbidden dom)) ∧
    ∀ goals w dom, (solveWithDomain out actions fuel goals w dom).Extends
      (solveWithDomain out actions (fuel + 1) goals w dom) := by
  induction fuel with
  | zero => exact ⟨fun _ _ _ _ => .timeout _, fun _ _ _ => .timeout _⟩
  | succ fuel ih =>
    obtain ⟨ihsolve, ihwithDomain⟩ := ih
    refine ⟨fun goals w forbidden dom => ?_, fun goals w dom => ?_⟩
    · by_cases hnil : goals = []
      · subst hnil
        rw [solve6_nil, solve6_nil]
        exact .refl _
      · rw [solve6_succ _ _ _ hnil, solve6_succ _ _ _ hnil]
        refine .commit (.refl _) (fun _ => .refl _) ?_
        exact .orElse (clauses_extends ihwithDomain goals w dom).1
          (solveUnsatisfied_extends ihsolve goals w forbidden dom)
    · rw [solveWithDomain_succ, solveWithDomain_succ]
      refine .commit (clauses_extends ihwithDomain goals w dom).2 (fun _ => .refl _) ?_
      exact .bind (ihsolve goals w [] dom) fun found => .refl _

/-! ## Endings of the tests -/

/-- The goals that are called in `simula` to test a goal or what a sequence is made of. -/
def Term.calls : Term → List Term
  | .nil => []
  | .cons head tail =>
    (if (Term.cons head tail).isList then [] else [.cons head tail]) ++ head.calls ++ tail.calls
  | .compound name args => if name = "seq" then args.calls else [.compound name args]
  | t => [t]

def calls (goals : List Term) : List Term := goals.flatMap Term.calls

theorem Term.calls_cons (head tail : Term) : (Term.cons head tail).calls =
    (if (Term.cons head tail).isList then [] else [.cons head tail]) ++ head.calls ++ tail.calls :=
  rfl

theorem Term.calls_seq (args : Term) : (Term.compound "seq" args).calls = args.calls := by
  rw [calls, if_pos rfl]

theorem Term.calls_head_subset (head tail : Term) : head.calls ⊆ (Term.cons head tail).calls := by
  intro t ht
  rw [calls_cons]
  exact List.mem_append_left _ (List.mem_append_right _ ht)

theorem Term.calls_tail_subset (head tail : Term) : tail.calls ⊆ (Term.cons head tail).calls := by
  intro t ht
  rw [calls_cons]
  exact List.mem_append_right _ ht

theorem calls_of_mem_flatten {t g : Term} (h : g ∈ t.flatten) : g.calls ⊆ t.calls := by
  induction t with
  | nil => cases h
  | cons head tail ihhead ihtail =>
    rcases List.mem_append.mp h with h | h
    · exact List.Subset.trans (ihhead h) (head.calls_head_subset tail)
    · exact List.Subset.trans (ihtail h) (head.calls_tail_subset tail)
  | _ =>
    rw [List.mem_singleton.mp h]
    exact List.Subset.refl _

theorem calls_of_mem_elements {t g : Term} (h : g ∈ t.elements) : g.calls ⊆ t.calls := by
  induction t with
  | cons head tail ihhead ihtail =>
    rcases List.mem_cons.mp h with rfl | h
    · exact g.calls_head_subset tail
    · exact List.Subset.trans (ihtail h) (head.calls_tail_subset tail)
  | _ => cases h

theorem calls_singleton (g : Term) : calls [g] = g.calls := List.append_nil _

theorem calls_subset_of_mem {goals : List Term} {g : Term} (h : g ∈ goals) :
    g.calls ⊆ calls goals :=
  fun _ ht => List.mem_flatMap.mpr ⟨g, h, ht⟩

theorem calls_ofList (goals : List Term) : (Term.ofList goals).calls = calls goals := by
  induction goals with
  | nil => rfl
  | cons g gs ih =>
    have hlist : (Term.cons g (.ofList gs)).isList = true := Term.isList_ofList (g :: gs)
    rw [Term.ofList, Term.calls_cons, ih, if_pos hlist, List.nil_append]
    rfl

theorem calls_seq_list (l : Term) : calls [.compound "seq" (.cons l .nil)] = l.calls := by
  have hlist : (Term.cons l .nil).isList = true := rfl
  rw [calls_singleton, Term.calls_seq, Term.calls_cons, if_pos hlist, List.nil_append]
  exact List.append_nil _

theorem calls_delete_subset {goals : List Term} (p : Term → Bool) :
    calls (goals.filter p) ⊆ calls goals := by
  intro t ht
  obtain ⟨g, hg, ht⟩ := List.mem_flatMap.mp ht
  exact calls_subset_of_mem (List.mem_filter.mp hg).1 ht

/-- The next goal and the remaining goals call nothing new. -/
theorem calls_next {goals : List Term} {next : Term × List Term} (h : next ∈ getNextGoal goals) :
    next.1.calls ⊆ calls goals ∧ calls next.2 ⊆ calls goals := by
  rcases getNextGoal_cases h with ⟨hmem, hrest⟩ | ⟨rest, rfl, hrest⟩ | ⟨rest, rfl, hrest⟩ <;>
    rw [hrest]
  · exact ⟨calls_subset_of_mem hmem, calls_delete_subset _⟩
  · rw [calls_seq_list]
    refine ⟨Term.calls_head_subset _ _, ?_⟩
    split
    · exact List.nil_subset _
    · rw [calls_seq_list]
      exact Term.calls_tail_subset _ _
  · rw [calls_singleton, Term.calls_seq]
    refine ⟨Term.calls_head_subset _ _, ?_⟩
    split
    · exact List.nil_subset _
    · rw [calls_singleton, Term.calls_seq]
      exact Term.calls_tail_subset _ _

/-- No predicate outside that the goals call runs for ever. -/
def Halting (out : Outside) (goals : List Term) : Prop :=
  ∀ t ∈ calls goals, ∀ answers, out.call t = some answers → answers.ending ≠ .timeout

def Assertable (out : Outside) (w : List Term) : Prop := ∀ t ∈ w, out.assertable t = true

instance (out : Outside) (w : List Term) : Decidable (Assertable out w) :=
  inferInstanceAs (Decidable (∀ t ∈ w, out.assertable t = true))

theorem testSimula_exhausted {s : Scratch} {goal : Term}
    (h : ∀ answers, out.call goal = some answers → answers.ending ≠ .timeout) :
    (testSimula out s goal).ending = .exhausted := by
  unfold testSimula
  split
  · rfl
  · split
    · rfl
    · rename_i answers hcall
      have hne := h answers hcall
      unfold Search.onError
      split
      · rfl
      · rename_i hraised
        cases hending : answers.ending with
        | exhausted => rfl
        | raised => exact absurd hending hraised
        | timeout => exact absurd hending hne

theorem Halting.mono {goals goals' : List Term} (h : Halting out goals)
    (hsub : calls goals' ⊆ calls goals) : Halting out goals' := fun t ht => h t (hsub ht)

theorem test_exhausted {s : Scratch} {goal : Term} (h : Halting out [goal]) :
    (test out s goal).ending = .exhausted := by
  unfold Halting at h
  rw [calls_singleton] at h
  fun_induction test out s goal with
  | case1 => rfl
  | case2 goal goals ihgoal ihgoals =>
    have hgoal := ihgoal fun t ht => h t (goal.calls_head_subset goals ht)
    have hgoals := ihgoals fun t ht => h t (goal.calls_tail_subset goals ht)
    refine Search.append_exhausted.mpr ⟨?_, Search.bind_exhausted.mpr ⟨fun _ _ => hgoals, hgoal⟩⟩
    split <;> rename_i hlist
    · rfl
    · refine testSimula_exhausted (h _ ?_)
      rw [Term.calls_cons, if_neg hlist]
      exact List.mem_append_left _ (List.mem_append_left _ (List.mem_singleton_self _))
  | case3 l hlist ih =>
    rw [← calls_singleton, calls_seq_list] at h
    unfold Search.once
    split
    · rfl
    · exact ih h
  | case4 l hlist => rfl
  | case5 name l hname =>
    refine testSimula_exhausted (h _ ?_)
    rw [Term.calls, if_neg hname]
    exact List.mem_singleton_self _
  | case6 args hargs => rfl
  | case7 name args hargs hname =>
    refine testSimula_exhausted (h _ ?_)
    rw [Term.calls, if_neg hname]
    exact List.mem_singleton_self _
  | case8 => rfl
  | case9 name hname => exact testSimula_exhausted (h _ (List.mem_singleton_self _))
  | case10 value => exact testSimula_exhausted (h _ (List.mem_singleton_self _))

theorem assertStates_of_assertable {w : List Term} (h : Assertable out w) (s : Scratch) :
    (assertStates out w s).1 = true := by
  induction w generalizing s with
  | nil => rfl
  | cons state states ih =>
    unfold assertStates
    rw [if_pos (h state List.mem_cons_self)]
    exact ih (fun t ht => h t (List.mem_cons_of_mem _ ht)) _

/-- `holds/2` fails or finds its goal once; an error can only come from asserting the world. -/
theorem holds_ends (hE : E .exhausted) {goal : Term} (hgoal : Halting out [goal]) {w : List Term}
    (hw : E .raised ∨ Assertable out w) : (holds out goal w).Ends E fun _ => True := by
  intro s
  unfold holds
  dsimp only
  rw [test_exhausted hgoal]
  split
  · rename_i hfalse
    rcases hw with hw | hw
    · exact hw
    · rw [assertStates_of_assertable hw] at hfalse
      cases hfalse
  · split
    · exact ⟨trivial, fun _ => hE⟩
    · rw [if_pos rfl]
      exact hE

/-! ## Plain domains -/

/-- Actions with nonempty operators, without partial entries and without sequences as
    preconditions; no predicate that a precondition calls outside `simula` runs for ever. -/
structure Plain (out : Outside) (actions : List Action) : Prop where
  acts : ∀ a ∈ actions, ∀ operator ∈ a.acts, operator ≠ []
  partials : ∀ a ∈ actions, a.partials = []
  pres : ∀ a ∈ actions, ∀ precList ∈ a.pres, NoSeq precList ∧ Halting out precList

theorem Halting.next {goals : List Term} (h : Halting out goals) {next : Term × List Term}
    (hnext : next ∈ getNextGoal goals) : Halting out [next.1] ∧ Halting out next.2 := by
  obtain ⟨hgoal, hrest⟩ := calls_next hnext
  exact ⟨h.mono (by rwa [calls_singleton]), h.mono hrest⟩

theorem calls_parts_subset {args g : Term} (hg : g ∈ args.flatten ∨ g ∈ args.elements) :
    calls [g] ⊆ calls [.compound "seq" args] := by
  rw [calls_singleton, calls_singleton, Term.calls_seq]
  exact hg.elim calls_of_mem_flatten calls_of_mem_elements

/-- From any world the search ends, though maybe by an error. -/
theorem Plain.regular (h : Plain out actions) :
    Regular out actions (fun e => e ≠ .timeout) (fun _ => True) (Halting out) where
  exhausted := nofun
  goal _ _ hgoal _ := holds_ends nofun hgoal (.inl nofun)
  goals goals _ hgoals _ := by
    refine holds_ends nofun ?_ (.inl nofun)
    rwa [Halting, calls_singleton, calls_ofList]
  adds _ _ _ _ := trivial
  after _ _ _ _ _ _ := trivial
  acts := h.acts
  partials := h.partials
  pres := h.pres
  next _ hgoals _ hnext := hgoals.next hnext
  parts _ hgoals _ hg := hgoals.mono (calls_parts_subset hg)
  raise _ := nofun

/-- Goals that halt and among which `seq` cannot come up: they are no sequences, or have no goal
    `seq` in them. -/
def Safe (out : Outside) (goals : List Term) : Prop :=
  Halting out goals ∧ (NoSeq goals ∨ .atom "seq" ∉ calls goals)

theorem Safe.next {goals : List Term} (h : Safe out goals) {next : Term × List Term}
    (hnext : next ∈ getNextGoal goals) : Safe out [next.1] ∧ Safe out next.2 := by
  obtain ⟨hgoal, hrest⟩ := h.1.next hnext
  obtain ⟨hcalls, hcallsRest⟩ := calls_next hnext
  rcases h.2 with hseq | hseq
  · refine ⟨⟨hgoal, .inl ?_⟩, hrest, .inl (mem_getNextGoal hseq hnext)⟩
    rcases getNextGoal_cases hnext with ⟨hmem, -⟩ | ⟨_, rfl, -⟩ | ⟨_, rfl, -⟩
    · intro g hg
      rw [List.mem_singleton.mp hg]
      exact hseq _ hmem
    · exact absurd rfl (name_ne_of_noSeq hseq)
    · exact absurd rfl (name_ne_of_noSeq hseq)
  · rw [← calls_singleton] at hcalls
    exact ⟨⟨hgoal, .inr fun hmem => hseq (hcalls hmem)⟩,
      hrest, .inr fun hmem => hseq (hcallsRest hmem)⟩

/-- From a world that can be asserted the search ends by failing. -/
theorem Plain.regular_assertable (h : Plain out actions)
    (hadds : ∀ a ∈ actions, ∀ addList ∈ a.adds, Assertable out addList) :
    Regular out actions (fun e => .exhausted = e) (Assertable out) (Safe out) where
  exhausted := rfl
  goal _ _ hgoal hw := holds_ends rfl hgoal.1 (.inr hw)
  goals goals _ hgoals hw := by
    refine holds_ends rfl ?_ (.inr hw)
    rw [Halting, calls_singleton, calls_ofList]
    exact hgoals.1
  adds := hadds
  after a ha w hw w' hw' := by
    obtain ⟨addList, hadd, delList, -, rfl⟩ := mem_doAction hw'
    rw [Action.effects, if_pos (h.partials a ha)] at hadd
    intro t ht
    rcases List.mem_append.mp ht with ht | ht
    · exact hw t (List.mem_filter.mp ht).1
    · exact hadds a ha addList hadd t ht
  acts := h.acts
  partials := h.partials
  pres a ha precList hprec :=
    ⟨(h.pres a ha precList hprec).1, (h.pres a ha precList hprec).2,
      .inl (h.pres a ha precList hprec).1⟩
  next _ hgoals _ hnext := hgoals.next hnext
  parts args hgoals g hg := by
    refine ⟨hgoals.1.mono (calls_parts_subset hg), .inr ?_⟩
    rcases hgoals.2 with hseq | hseq
    · exact absurd rfl (name_ne_of_noSeq hseq)
    · exact fun hmem => hseq (calls_parts_subset hg hmem)
  raise hgoals := by
    rcases hgoals.2 with hseq | hseq
    · cases hseq _ (List.mem_singleton_self _)
    · exact absurd (List.mem_singleton_self _) hseq

/-- A search that ends with some fuel is the same with more. -/
theorem solve_eq_of_ends {goals w0 : List Term} {depth fuel : Nat} (hfuel : depth ≤ fuel)
    (h : ∀ n ≥ depth, (solve out actions n goals w0).Ends (fun e => e ≠ .timeout) fun _ => True) :
    solve out actions fuel goals w0 = solve out actions depth goals w0 := by
  induction fuel, hfuel using Nat.le_induction with
  | base => rfl
  | succ n hn ih =>
    rw [← ih]
    exact ((h n hn).eq ((solve_extends n).2 goals w0 none)).symm

/-- On a plain domain every search of `solve/4` is finite: for goals that halt some depth of calls
    is enough for any world, from there on more fuel changes nothing, and from no state does the
    search go on for ever. It ends by failing unless a state of the world or of an add list cannot
    be asserted or the goal `seq` comes up. -/
theorem solve_finite (out : Outside) (actions : List Action) (hactions : Plain out actions)
    (goals : List Term) (hgoals : Halting out goals) : ∃ depth, ∀ fuel ≥ depth, ∀ w0,
      solve out actions fuel goals w0 = solve out actions depth goals w0 ∧
      (solve out actions fuel goals w0).Ends (fun e => e ≠ .timeout) (fun _ => True) ∧
      ((∀ a ∈ actions, ∀ addList ∈ a.adds, Assertable out addList) → Assertable out w0 →
        .atom "seq" ∉ calls goals →
        (solve out actions fuel goals w0).Ends (fun e => e = .exhausted) fun _ => True) := by
  have hends := (endsEventually hactions.regular _ hgoals rfl).2
  have hfails : ∀ᶠ fuel in Filter.atTop,
      (∀ a ∈ actions, ∀ addList ∈ a.adds, Assertable out addList) → .atom "seq" ∉ calls goals →
        ∀ w0 dom, Assertable out w0 → (solveWithDomain out actions fuel goals w0 dom).Ends
          (fun e => .exhausted = e) fun r => Assertable out r.world := by
    by_cases hsafe : (∀ a ∈ actions, ∀ addList ∈ a.adds, Assertable out addList) ∧
        .atom "seq" ∉ calls goals
    · filter_upwards [(endsEventually (hactions.regular_assertable hsafe.1) _
        ⟨hgoals, .inr hsafe.2⟩ rfl).2] with fuel hfuel
      exact fun _ _ => hfuel
    · exact Filter.Eventually.of_forall fun _ hadds hseq => absurd ⟨hadds, hseq⟩ hsafe
  obtain ⟨depth, hdepth⟩ := Filter.eventually_atTop.mp (hends.and hfails)
  have hdepth' : ∀ fuel ≥ depth, ∀ w0,
      (solve out actions fuel goals w0).Ends (fun e => e ≠ .timeout) fun _ => True :=
    fun fuel hfuel w0 s => ((hdepth fuel hfuel).1 w0 none trivial) s
  refine ⟨depth, fun fuel hfuel w0 => ⟨?_, hdepth' fuel hfuel w0, fun hadds hw0 hseq s => ?_⟩⟩
  · exact solve_eq_of_ends hfuel fun n hn => hdepth' n hn w0
  · exact ((hdepth fuel hfuel).2 hadds hseq w0 none hw0 s).imp (fun _ he => he.symm)
      fun _ _ => trivial

theorem onlyTrue_halting (goals : List Term) : Halting onlyTrue goals := by
  intro t _ answers hcall
  unfold onlyTrue at hcall
  dsimp only at hcall
  split at hcall
  · obtain rfl := Option.some.inj hcall
    exact nofun
  · cases hcall

theorem plain_switch : Plain onlyTrue [switch] where
  acts := by decide
  partials := by decide
  pres a ha precList hprec :=
    ⟨(by decide : ∀ a ∈ [switch], ∀ precList ∈ a.pres, NoSeq precList) a ha precList hprec,
      onlyTrue_halting precList⟩

theorem solve_finite_switch : ∃ depth,
    (solve onlyTrue [switch] depth [.atom "b"] [.atom "a"]).Ends (fun e => e = .exhausted)
      fun _ => True := by
  obtain ⟨depth, hdepth⟩ := solve_finite onlyTrue [switch] plain_switch [.atom "b"]
    (onlyTrue_halting _)
  exact ⟨depth, (hdepth depth le_rfl [.atom "a"]).2.2 (by decide) (by decide) (by decide)⟩

/-- However many calls it may nest, the search does not end. -/
def Endless (out : Outside) (actions : List Action) (goals w0 : List Term) : Prop :=
  ∀ fuel, ¬ (solve out actions fuel goals w0 emptyScratch).Ends (fun e => e ≠ .timeout)
    fun _ => True

/-- The predicate `repeat` succeeds again and again. -/
def repeats : Outside where
  call t := if t = .atom "repeat" then some ⟨[()], .timeout⟩ else none
  assertable _ := true

/-- The goal `repeat` before one that fails keeps the test of the goals from ending, and a world
    that cannot be asserted raises an error. -/
theorem search_without_end : Endless repeats [] [.atom "repeat", .atom "a"] [] ∧
    (solve onlyTrue [] 2 [.atom "a"] [.atom "true"] emptyScratch).Ends (fun e => e = .raised)
      fun _ => True := by
  refine ⟨fun fuel => ?_, rfl⟩
  rcases fuel with _ | _ | fuel
  · exact fun h => h rfl
  · exact fun h => h rfl
  · exact fun h => h rfl

end SmartWarehouse.Kbase
