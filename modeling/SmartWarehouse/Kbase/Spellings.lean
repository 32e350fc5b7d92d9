/-
  Sequences that are spelled as a list.

  The goals of `seq(G1, ..., Gn)` are planned for one after another. `seq([G1, ..., Gn])` is tried
  as a single goal first, the list; if no plan is found, `solve/6` plans for the goals one after
  another or for the first goal and what remains, and in the end all of them are tested at once.
  For goals that are facts every clause is evaluated here over `FactPlanner`. Where the search for
  the goals one after another is exhausted without an answer, the other clauses have none either
  (`sequential_found`).
-/
import SmartWarehouse.Kbase.FactPlanner
import SmartWarehouse.Kbase.SequentialSound

namespace SmartWarehouse.Kbase

open SmartWarehouse.Lib

/-- `seq([G1, ..., Gn])`. -/
def seqList (goals : List Term) : Term := .compound "seq" (.cons (.ofList goals) .nil)

/-! ## Goals that are facts -/

theorem Term.IsFact.isSeq {g : Term} (hg : g.IsFact) : g.isSeq = false := by
  cases g <;> first | exact hg | exact hg.elim

theorem Term.IsFact.noSeq {g : Term} (hg : g.IsFact) : ∀ t, [g] = [t] → t.isSeq = false := by
  intro t ht
  rw [← (List.cons.inj ht).1]
  exact hg.isSeq

theorem Term.IsFact.compound_ne {name : String} {args : Term}
    (hg : (Term.compound name args).IsFact) : name ≠ "seq" := by
  rintro rfl
  cases hg

theorem Term.IsFact.atom_ne {name : String} (hg : (Term.atom name).IsFact) : name ≠ "seq" := by
  rintro rfl
  cases hg

theorem testIn_fact {g : Term} (hg : g.IsFact) (w : List Term) :
    testIn w g = decide (g ∈ w) := by
  cases g with
  | nil => exact hg.elim
  | cons head tail => exact hg.elim
  | int value => rfl
  | atom name => rw [testIn, if_neg hg.atom_ne]
  | compound name args =>
    have hname := hg.compound_ne
    unfold testIn
    split <;> simp_all

theorem Term.IsFact.not_isList {g : Term} (hg : g.IsFact) : g.isList = false := by
  cases g <;> first | rfl | exact hg.elim

theorem holdsIn_fact {g : Term} (hg : g.IsFact) (w : List Term) :
    holdsIn w g = decide (g ∈ w) := by
  rw [holdsIn, testIn_fact hg, groundIt, hg.not_isList, Bool.false_or, Bool.and_self]

theorem testIn_cons {goal goals : Term} (hlist : (Term.cons goal goals).isList = true)
    (w : List Term) : testIn w (.cons goal goals) = (testIn w goal && testIn w goals) := by
  rw [testIn, hlist]
  rfl

theorem testIn_goals (w goals : List Term) :
    testIn w (.ofList goals) = goals.all (testIn w) := by
  induction goals with
  | nil => rfl
  | cons g gs ih =>
    rw [List.all_cons, ← ih]
    exact testIn_cons (Term.isList_ofList (g :: gs)) w

theorem holdsIn_goals (w goals : List Term) :
    holdsIn w (.ofList goals) = goals.all (testIn w) := by
  rw [holdsIn, testIn_goals, groundIt, Term.isList_ofList, Bool.true_or, Bool.and_true]

theorem holdsIn_goal (w : List Term) (goal : Term) :
    holdsIn w (.ofList [goal]) = testIn w goal := by
  rw [holdsIn_goals, List.all_cons, List.all_nil, Bool.and_true]

theorem holdsIn_facts {goals : List Term} (hgoals : ∀ g ∈ goals, g.IsFact) (w : List Term) :
    holdsIn w (.ofList goals) = true ↔ ∀ g ∈ goals, g ∈ w := by
  rw [holdsIn_goals, List.all_eq_true]
  refine forall₂_congr fun g hg => ?_
  rw [testIn_fact (hgoals g hg), decide_eq_true_iff]

theorem testIn_ofList {goals : List Term} (hgoals : ∀ g ∈ goals, g.IsFact) (w : List Term) :
    testIn w (.ofList goals) = true ↔ ∀ g ∈ goals, g ∈ w := by
  rw [← holdsIn_facts hgoals, holdsIn_goals, testIn_goals]

theorem testIn_seqList (w goals : List Term) :
    testIn w (seqList goals) = testIn w (.ofList goals) := by
  rw [seqList, testIn, if_pos rfl, Term.isList_ofList, Bool.true_and]

/-- A sequence of facts spelled as a term never holds. -/
theorem testIn_seqTerm {goals : List Term} (hgoals : ∀ g ∈ goals, g.IsFact) (w : List Term) :
    testIn w (seqTerm goals) = false := by
  rcases goals with _ | ⟨g, _ | ⟨g', goals⟩⟩
  · rfl
  · show testIn w (.compound "seq" (.cons g .nil)) = false
    rw [testIn, if_pos rfl, (hgoals g List.mem_cons_self).not_isList, Bool.false_and]
  · rfl

theorem getNextGoal_fact {g : Term} (hg : g.IsFact) : getNextGoal [g] = [(g, [])] := by
  cases g with
  | nil => exact hg.elim
  | cons head tail => exact hg.elim
  | int value => simp [getNextGoal, hg.isSeq]
  | atom name => simp [getNextGoal, hg.isSeq]
  | compound name args => simp [getNextGoal, hg.isSeq, hg.compound_ne]

theorem getNextGoal_list (g : Term) (goals : List Term) :
    getNextGoal [.ofList (g :: goals)] = [(.ofList (g :: goals), [])] := by
  simp [getNextGoal, Term.ofList, Term.isSeq, Term.seqArgs]

theorem getNextGoal_seqList (g : Term) (goals : List Term) :
    getNextGoal [seqList (g :: goals)] = [(g, if goals = [] then [] else [seqList goals])] := by
  have hlist : (Term.cons g (.ofList goals)).isList = true := Term.isList_ofList (g :: goals)
  cases goals <;> simp [getNextGoal, seqList, Term.ofList, Term.isSeq, Term.seqArgs] at hlist ⊢
  all_goals exact hlist

/-! ## Choices -/

variable {out : Outside} {actions : List Action}

theorem mem_achievers {goal : Term} {action : Action} :
    action ∈ Facts.achievers actions goal ↔
      action ∈ actions ∧ ∃ addList ∈ action.adds, holdsIn addList goal = true := by
  unfold Facts.achievers
  constructor
  · intro h
    obtain ⟨a, ha, h⟩ := List.mem_flatMap.mp h
    obtain ⟨addList, hadd, h⟩ := List.mem_flatMap.mp h
    obtain ⟨u, hu, rfl⟩ := List.mem_map.mp h
    split at hu
    · exact ⟨ha, addList, hadd, ‹_›⟩
    · cases hu
  · rintro ⟨ha, addList, hadd, hholds⟩
    refine List.mem_flatMap.mpr ⟨action, ha, List.mem_flatMap.mpr ⟨addList, hadd, ?_⟩⟩
    rw [if_pos hholds]
    exact List.mem_singleton_self action

/-- What an opening satisfies. -/
structure Opens (actions : List Action) (goals w0 : List Term) (forbidden : List (List Term))
    (dom : Option Term) (o : Opened) : Prop where
  next : o.next ∈ getNextGoal goals
  unsatisfied : holdsIn w0 (.ofList [o.next.1]) = false
  absent : o.next.1 ∉ w0
  action : o.action ∈ Facts.achievers actions o.next.1
  domain : o.domain ∈ sameDomain o.action dom
  operator : o.operator ∈ o.action.acts
  precList : o.precList ∈ o.action.pres
  check : () ∈ forbiddenCheck o.operator forbidden

theorem mem_openings {goals w0 : List Term} {forbidden : List (List Term)} {dom : Option Term}
    {o : Opened} : o ∈ Facts.openings actions goals w0 forbidden dom ↔
      Opens actions goals w0 forbidden dom o := by
  unfold Facts.openings
  simp only [List.mem_flatMap, List.mem_map]
  constructor
  · rintro ⟨next, hnext, u, hunsat, u', habsent, action, haction, dom', hdom, operator, hoperator,
      precList, hprec, addList, hadd, a, ha, c, hcheck, rfl⟩
    refine ⟨hnext, ?_, ?_, haction, hdom, hoperator, hprec, hcheck⟩
    · by_contra hholds
      rw [if_pos (by simpa using hholds)] at hunsat
      cases hunsat
    · intro hmem
      rw [if_pos hmem] at habsent
      cases habsent
  · intro h
    obtain ⟨haction, addList, hadd, -⟩ := mem_achievers.mp h.action
    refine ⟨o.next, h.next, (), ?_, (), ?_, o.action, h.action, o.domain, h.domain, o.operator,
      h.operator, o.precList, h.precList, addList, hadd, o.action, ?_, (), h.check, rfl⟩
    · rw [h.unsatisfied]
      exact List.mem_singleton_self ()
    · rw [if_neg h.absent]
      exact List.mem_singleton_self ()
    · exact List.mem_filter.mpr ⟨haction, decide_eq_true rfl⟩

/-! ## One level of the search -/

variable {solve : Facts.Solve} {goals w : List Term} {forbidden : List (List Term)}
  {dom : Option Term}

theorem mem_solveUnsatisfied {r : Solution}
    (hr : r ∈ (Facts.solveUnsatisfied actions solve goals w forbidden dom).answers) :
    ∃ o, Opens actions goals w forbidden dom o ∧
      ∃ before ∈ (solve o.precList w (o.operator :: forbidden) o.domain).answers,
      () ∈ preconditionsHold o.precList before.world ∧ ∃ w2 ∈ doAction o.action before.world,
      ∃ after ∈ (Facts.rest solve goals forbidden o before w2).answers,
      r = ⟨after.world, before.plan ++ o.operator ++ after.plan, after.domain⟩ := by
  obtain ⟨o, ho, hr⟩ := Search.mem_bind hr
  obtain ⟨before, hbefore, hr⟩ := Search.mem_bind hr
  obtain ⟨u, hpre, hr⟩ := Search.mem_bind hr
  obtain ⟨w2, hdo, hr⟩ := Search.mem_bind hr
  obtain ⟨after, hafter, hr⟩ := Search.mem_bind hr
  exact ⟨o, mem_openings.mp ho, before, hbefore, hpre, w2, hdo, after, hafter,
    List.mem_singleton.mp hr⟩

/-- Where a search of the last clause is exhausted, so are the calls in it, and it finds all that
    they find. -/
theorem solveUnsatisfied_of_exhausted
    (hex : (Facts.solveUnsatisfied actions solve goals w forbidden dom).ending = .exhausted)
    {o : Opened} (ho : Opens actions goals w forbidden dom o) :
    (solve o.precList w (o.operator :: forbidden) o.domain).ending = .exhausted ∧
      ∀ before ∈ (solve o.precList w (o.operator :: forbidden) o.domain).answers,
      () ∈ preconditionsHold o.precList before.world → ∀ w2 ∈ doAction o.action before.world,
      (Facts.rest solve goals forbidden o before w2).ending = .exhausted ∧
      ∀ after ∈ (Facts.rest solve goals forbidden o before w2).answers,
      ⟨after.world, before.plan ++ o.operator ++ after.plan, after.domain⟩ ∈
        (Facts.solveUnsatisfied actions solve goals w forbidden dom).answers := by
  unfold Facts.solveUnsatisfied at hex
  have hopen := (Search.bind_exhausted.mp hex).1
  have ho' := hopen o (mem_openings.mpr ho)
  obtain ⟨hbefore, hsolve⟩ := Search.bind_exhausted.mp ho'
  refine ⟨hsolve, fun before hb hpre w2 hdo => ?_⟩
  have hpre' := (Search.bind_exhausted.mp (hbefore before hb)).1
  have hdo' := (Search.bind_exhausted.mp (hpre' () hpre)).1
  obtain ⟨hafter, hrest⟩ := Search.bind_exhausted.mp (hdo' w2 hdo)
  refine ⟨hrest, fun after ha => ?_⟩
  refine (Search.mem_bind_of_exhausted hopen).mpr ⟨o, mem_openings.mpr ho, ?_⟩
  refine (Search.mem_bind_of_exhausted hbefore).mpr ⟨before, hb, ?_⟩
  refine (Search.mem_bind_of_exhausted hpre').mpr ⟨(), hpre, ?_⟩
  refine (Search.mem_bind_of_exhausted hdo').mpr ⟨w2, hdo, ?_⟩
  exact (Search.mem_bind_of_exhausted hafter).mpr ⟨after, ha, List.mem_singleton_self _⟩

/-! ## A goal that is a fact -/

theorem solve6_fact {g : Term} (hg : g.IsFact) (fuel : Nat) :
    Facts.solve6 actions (fuel + 1) [g] w forbidden dom =
      if g ∈ w then .one ⟨w, [], dom⟩
      else Facts.solveUnsatisfied actions (Facts.solve6 actions fuel) [g] w forbidden dom := by
  rw [Facts.solve6_succ, Facts.sequenceClause, onSequence_other hg.noSeq, Search.fail_append,
    holdsIn_goal, testIn_fact hg]
  simp only [decide_eq_true_iff]

theorem solveWithDomain_fact {g : Term} (hg : g.IsFact) (fuel : Nat) :
    Facts.solveWithDomain actions (fuel + 1) [g] w dom =
      Facts.solveGoals (Facts.solve6 actions fuel) [g] w dom := by
  rw [Facts.solveWithDomain_succ, Facts.firstClause, onSequence_other hg.noSeq,
    Search.commit_fail]

/-- The check of the last clause of `solve_with_domain/5` finds at most one answer. -/
theorem check_exhausted (b : Bool) (r : Solution) : ((Search.ofList (if b then [()] else [])).bind
    fun _ => Search.one r).ending = .exhausted := by
  cases b <;> rfl

theorem solveGoals_exhausted : (Facts.solveGoals solve goals w dom).ending = .exhausted ↔
    (solve goals w [] dom).ending = .exhausted := by
  unfold Facts.solveGoals
  rw [Search.bind_exhausted]
  exact ⟨fun h => h.2, fun h => ⟨fun _ _ => check_exhausted _ _, h⟩⟩

theorem mem_solveGoals {r : Solution} : r ∈ (Facts.solveGoals solve goals w dom).answers ↔
    ∃ found ∈ (solve goals w [] dom).answers, holdsIn found.world (.ofList goals) = true ∧
      r = ⟨found.world, flatten found.plan, found.domain⟩ := by
  unfold Facts.solveGoals
  rw [Search.mem_bind_of_exhausted fun _ _ => check_exhausted _ _]
  refine exists_congr fun found => and_congr_right fun _ => ?_
  cases holdsIn found.world (.ofList goals) with
  | false => exact ⟨nofun, nofun⟩
  | true =>
    exact ⟨fun h => ⟨rfl, List.mem_singleton.mp h⟩, fun h => List.mem_singleton.mpr h.2⟩

theorem mem_solveWithDomain_fact {g : Term} (hg : g.IsFact) {fuel : Nat} {r : Solution} :
    r ∈ (Facts.solveWithDomain actions (fuel + 1) [g] w dom).answers ↔
      ∃ found ∈ (Facts.solve6 actions fuel [g] w [] dom).answers, g ∈ found.world ∧
        r = ⟨found.world, flatten found.plan, found.domain⟩ := by
  rw [solveWithDomain_fact hg, mem_solveGoals]
  refine exists_congr fun found => and_congr_right fun _ => ?_
  rw [holdsIn_goal, testIn_fact hg, decide_eq_true_iff]

/-! ## Goals one after another -/

variable {withDomain : List Term → List Term → Option Term → Search Solution}

theorem last_exhausted {S : Search Solution} {f : Solution → Solution} :
    (S.bind fun r => .one (f r)).ending = .exhausted ↔ S.ending = .exhausted := by
  rw [Search.bind_exhausted]
  exact ⟨fun h => h.2, fun h => ⟨fun _ _ => rfl, h⟩⟩

theorem last_nonempty {S : Search Solution} {f : Solution → Solution} :
    (S.bind fun r => .one (f r)).answers ≠ [] ↔ S.answers ≠ [] := by
  rw [ne_nil_iff, ne_nil_iff]
  constructor
  · rintro ⟨r, hr⟩
    obtain ⟨r', hr', -⟩ := Search.mem_bind hr
    exact ⟨r', hr'⟩
  · rintro ⟨r, hr⟩
    exact ⟨f r, (Search.mem_bind_of_exhausted fun _ _ => rfl).mpr
      ⟨r, hr, List.mem_singleton_self _⟩⟩

theorem sequential_exhausted {g : Term} :
    (Facts.solveSequential withDomain (g :: goals) w dom).ending = .exhausted ↔
      (withDomain [g] w dom).ending = .exhausted ∧
      ∀ first ∈ (withDomain [g] w dom).answers,
        (Facts.solveSequential withDomain goals first.world first.domain).ending = .exhausted := by
  rw [Facts.solveSequential, Search.bind_exhausted, and_comm]
  simp only [last_exhausted]

theorem sequential_nonempty {g : Term}
    (hex : (Facts.solveSequential withDomain (g :: goals) w dom).ending = .exhausted) :
    (Facts.solveSequential withDomain (g :: goals) w dom).answers ≠ [] ↔
      ∃ first ∈ (withDomain [g] w dom).answers,
        (Facts.solveSequential withDomain goals first.world first.domain).answers ≠ [] := by
  have hrest := (sequential_exhausted.mp hex).2
  rw [ne_nil_iff, Facts.solveSequential]
  constructor
  · rintro ⟨r, hr⟩
    obtain ⟨first, hfirst, hr⟩ := Search.mem_bind hr
    exact ⟨first, hfirst, last_nonempty.mp (List.ne_nil_of_mem hr)⟩
  · rintro ⟨first, hfirst, hnonempty⟩
    obtain ⟨r, hr⟩ := ne_nil_iff.mp (last_nonempty.mpr hnonempty)
    exact ⟨r, (Search.mem_bind_of_exhausted fun first hfirst =>
      last_exhausted.mpr (hrest first hfirst)).mpr ⟨first, hfirst, hr⟩⟩

/-- Goals that hold already need no plan, whatever the last clause of `solve/6` does. -/
theorem sequentialWith_held {unsatisfied : Facts.Solve → Facts.Solve} {goals : List Term}
    (hfacts : ∀ g ∈ goals, g.IsFact) (hheld : ∀ g ∈ goals, g ∈ w) (fuel : Nat) :
    Facts.solveSequential (Facts.solveWithDomainWith unsatisfied (fuel + 2)) goals w dom =
      .one ⟨w, [], dom⟩ := by
  induction goals with
  | nil => rfl
  | cons g gs ih =>
    have hg := hfacts g List.mem_cons_self
    have hholds : holdsIn w (.ofList [g]) = true := by
      rw [holdsIn_goal, testIn_fact hg, decide_eq_true (hheld g List.mem_cons_self)]
    have hsolve : Facts.solve6With unsatisfied (fuel + 1) [g] w [] dom = .one ⟨w, [], dom⟩ :=
      if_pos hholds
    have hfirst : Facts.solveWithDomainWith unsatisfied (fuel + 2) [g] w dom =
        .one ⟨w, [], dom⟩ := by
      rw [Facts.solveWithDomainWith, Facts.firstClause, onSequence_other hg.noSeq,
        Search.commit_fail, Facts.solveGoals, hsolve, Search.one_bind]
      dsimp only
      rw [if_pos hholds]
      rfl
    rw [Facts.solveSequential, hfirst, Search.one_bind]
    dsimp only
    rw [ih (fun g' hg' => hfacts g' (List.mem_cons_of_mem _ hg'))
      fun g' hg' => hheld g' (List.mem_cons_of_mem _ hg'), Search.one_bind]
    rfl

theorem sequential_held {goals : List Term} (hfacts : ∀ g ∈ goals, g.IsFact)
    (hheld : ∀ g ∈ goals, g ∈ w) (fuel : Nat) :
    Facts.solveSequential (Facts.solveWithDomain actions (fuel + 2)) goals w dom =
      .one ⟨w, [], dom⟩ := sequentialWith_held hfacts hheld fuel

theorem Term.IsFact.flatten_eq {g : Term} (hg : g.IsFact) : g.flatten = [g] := by
  cases g <;> first | rfl | exact hg.elim

theorem flatten_facts {goals : List Term} (hfacts : ∀ g ∈ goals, g.IsFact) :
    (Term.ofList goals).flatten = goals := flatten_eq_self fun g hg => (hfacts g hg).flatten_eq

/-- The clause of `solve/6` for a sequence takes both spellings apart. -/
theorem sequenceClause_seqList {goals : List Term} (hfacts : ∀ g ∈ goals, g.IsFact) :
    Facts.sequenceClause withDomain [seqList goals] w dom =
      Facts.solveSequential withDomain goals w dom := by
  have hflat : (Term.cons (.ofList goals) .nil).flatten = goals := by
    show (Term.ofList goals).flatten ++ [] = goals
    rw [List.append_nil, flatten_facts hfacts]
  rw [seqList, Facts.sequenceClause, onSequence_seq, hflat]

theorem sequenceClause_seqTerm {g : Term} {goals : List Term}
    (hfacts : ∀ g' ∈ g :: goals, g'.IsFact) :
    Facts.sequenceClause withDomain [seqTerm (g :: goals)] w dom =
      Facts.solveSequential withDomain (g :: goals) w dom := by
  rw [seqTerm, Facts.sequenceClause, onSequence_seq, flatten_facts hfacts]

theorem firstClause_seqTerm (goals : List Term) :
    Facts.firstClause withDomain [seqTerm goals] w dom =
      Facts.solveSequential withDomain goals w dom := by
  rcases goals with _ | ⟨g, goals⟩
  · rfl
  · rw [seqTerm, Facts.firstClause, onSequence_seq, elements_ofList]

/-- `solve/6` for a sequence of facts that is spelled as a list. -/
theorem solve6_seqList {goals : List Term} (hfacts : ∀ g ∈ goals, g.IsFact) (fuel : Nat) :
    Facts.solve6 actions (fuel + 1) [seqList goals] w forbidden dom =
      if ∀ g ∈ goals, g ∈ w then .one ⟨w, [], dom⟩
      else
        (Facts.solveSequential (Facts.solveWithDomain actions fuel) goals w dom).append
          (Facts.solveUnsatisfied actions (Facts.solve6 actions fuel) [seqList goals] w forbidden
            dom) := by
  rw [Facts.solve6_succ, sequenceClause_seqList hfacts, holdsIn_goal, testIn_seqList]
  simp only [testIn_ofList hfacts]

/-! ## What is found with more fuel -/

theorem mem_solve6_of_exhausted (h : FactDomain out actions) (hgoals : Closed out goals)
    (hw : FactWorld out w) {fuel fuel' : Nat}
    (hex : (Facts.solve6 actions fuel goals w forbidden dom).ending = .exhausted) {r : Solution}
    (hr : r ∈ (Facts.solve6 actions fuel' goals w forbidden dom).answers) :
    r ∈ (Facts.solve6 actions fuel goals w forbidden dom).answers := by
  rcases Nat.le_total fuel fuel' with hle | hle
  · rw [(Facts.solve6_extends h hgoals hw forbidden dom hle).eq_of_exhausted hex]
    exact hr
  · exact (Facts.solve6_extends h hgoals hw forbidden dom hle).subset hr

theorem mem_sequential_of_exhausted (h : FactDomain out actions)
    (hgoals : ∀ g ∈ goals, Closed out [g]) (hw : FactWorld out w) {fuel fuel' : Nat}
    (hex : (Facts.solveSequential (Facts.solveWithDomain actions fuel) goals w dom).ending =
      .exhausted) {r : Solution}
    (hr : r ∈ (Facts.solveSequential (Facts.solveWithDomain actions fuel') goals w dom).answers) :
    r ∈ (Facts.solveSequential (Facts.solveWithDomain actions fuel) goals w dom).answers := by
  rcases Nat.le_total fuel fuel' with hle | hle
  · rw [(Facts.solveSequential_extends h hgoals hw dom hle).eq_of_exhausted hex]
    exact hr
  · exact (Facts.solveSequential_extends h hgoals hw dom hle).subset hr

theorem factWorld_of_mem (h : FactDomain out actions) (hgoals : Closed out goals)
    (hw : FactWorld out w) {fuel : Nat} {r : Solution}
    (hr : r ∈ (Facts.solve6 actions fuel goals w forbidden dom).answers) :
    FactWorld out r.world :=
  ((solve_denotes h fuel).1 goals w forbidden dom hgoals hw emptyScratch rfl).mem r hr

/-- No action deletes the fact, or adds it in only some of its add lists. -/
structure Steady (actions : List Action) (g : Term) : Prop where
  kept : ∀ a ∈ actions, ∀ delList ∈ a.dels, g ∉ delList
  added : ∀ a ∈ actions, ∀ addList ∈ a.adds, g ∈ addList → ∀ addList' ∈ a.adds, g ∈ addList'

theorem Steady.mem_of_achiever {g : Term} (h : Steady actions g) (hg : g.IsFact)
    {action : Action} (haction : action ∈ Facts.achievers actions g)
    (hplain : action.partials = []) {w w' : List Term} (hdo : w' ∈ doAction action w) :
    g ∈ w' := by
  obtain ⟨hmem, addList, hadd, hholds⟩ := mem_achievers.mp haction
  obtain ⟨addList', hadd', delList, -, rfl⟩ := mem_doAction hdo
  rw [Action.effects, if_pos hplain] at hadd'
  rw [holdsIn_fact hg, decide_eq_true_iff] at hholds
  exact List.mem_append_right _ (h.added action hmem addList hadd hholds addList' hadd')

/-- An opening for the sequence is one for its first goal. -/
theorem Opens.of_seqList {g : Term} {goals : List Term} {o : Opened}
    (h : Opens actions [seqList (g :: goals)] w forbidden dom o) :
    o.next = (g, if goals = [] then [] else [seqList goals]) := by
  have hnext := h.next
  rw [getNextGoal_seqList] at hnext
  exact List.mem_singleton.mp hnext

theorem Opens.fact {g : Term} (hg : g.IsFact) {goals rest : List Term} {o : Opened}
    (h : Opens actions goals w forbidden dom o) (hnext : o.next = (g, rest)) :
    Opens actions [g] w forbidden dom { o with next := (g, []) } where
  next := by
    rw [getNextGoal_fact hg]
    exact List.mem_singleton_self _
  unsatisfied := by
    have hunsat := h.unsatisfied
    rw [hnext] at hunsat
    exact hunsat
  absent := by
    have habsent := h.absent
    rw [hnext] at habsent
    exact habsent
  action := by
    have haction := h.action
    rw [hnext] at haction
    exact haction
  domain := h.domain
  operator := h.operator
  precList := h.precList
  check := h.check

/-- What the exhausted search for a fact finds for an opening and a plan for its preconditions: a
    world with the fact after a plain action, and what there is after a partial one. -/
theorem fact_of_opening (h : FactDomain out actions) {g : Term} (hg : g.IsFact) {fuel fuel' : Nat}
    (hw : FactWorld out w)
    (hex : (Facts.solveWithDomain actions (fuel' + 2) [g] w dom).ending = .exhausted)
    {o : Opened} (ho : Opens actions [g] w [] dom o) {before : Solution}
    (hbefore : before ∈
      (Facts.solve6 actions fuel o.precList w [o.operator] o.domain).answers)
    (hpre : () ∈ preconditionsHold o.precList before.world) {w2 : List Term}
    (hdo : w2 ∈ doAction o.action before.world) :
    (Facts.rest (Facts.solve6 actions fuel') [g] [] o before w2).ending = .exhausted ∧
      ∀ after ∈ (Facts.rest (Facts.solve6 actions fuel') [g] [] o before w2).answers,
      g ∈ after.world → ∃ first ∈ (Facts.solveWithDomain actions (fuel' + 2) [g] w dom).answers,
        first.world = after.world ∧ first.domain = after.domain := by
  have habsent : g ∉ w := by
    have hnext := ho.next
    rw [getNextGoal_fact hg] at hnext
    have habsent := ho.absent
    rwa [List.mem_singleton.mp hnext] at habsent
  have hsolve : Facts.solve6 actions (fuel' + 1) [g] w [] dom =
      Facts.solveUnsatisfied actions (Facts.solve6 actions fuel') [g] w [] dom := by
    rw [solve6_fact hg, if_neg habsent]
  rw [solveWithDomain_fact hg, solveGoals_exhausted, hsolve] at hex
  obtain ⟨hexPre, hfound⟩ := solveUnsatisfied_of_exhausted hex ho
  have haction := (mem_achievers.mp ho.action).1
  have hbefore' := mem_solve6_of_exhausted h (h.pres _ haction _ ho.precList) hw hexPre hbefore
  obtain ⟨hexRest, hafter⟩ := hfound before hbefore' hpre w2 hdo
  refine ⟨hexRest, fun after ha hmem => ?_⟩
  have hplan := hafter after ha
  rw [← hsolve] at hplan
  exact ⟨_, (mem_solveWithDomain_fact hg).mpr ⟨_, hplan, hmem, rfl⟩, rfl, rfl⟩

/-- No goals need no plan. -/
theorem Facts.world_of_nil {fuel : Nat} {r : Solution}
    (hr : r ∈ (Facts.solve6 actions fuel [] w forbidden dom).answers) : r.world = w := by
  cases fuel with
  | zero => cases hr
  | succ fuel =>
    rw [Facts.solve6_succ, holdsIn_goals, List.all_nil, if_pos rfl] at hr
    rw [List.mem_singleton.mp hr]

theorem fuel_of_exhausted {g : Term} (hg : g.IsFact) {fuel : Nat}
    (hex : (Facts.solveWithDomain actions fuel [g] w dom).ending = .exhausted) :
    ∃ n, fuel = n + 2 := by
  rcases fuel with _ | _ | n
  · cases hex
  · rw [solveWithDomain_fact hg, solveGoals_exhausted] at hex
    cases hex
  · exact ⟨n, rfl⟩

/-- After a plain action for the last goal there is nothing left to plan for. -/
theorem mem_rest_of_plain {o : Opened} {before : Solution} {w2 : List Term} {fuel : Nat}
    (hplain : o.action.partials = []) (hnext : o.next.2 = [])
    (hex : (Facts.rest (Facts.solve6 actions fuel) goals forbidden o before w2).ending =
      .exhausted) :
    ⟨w2, [], before.domain⟩ ∈
      (Facts.rest (Facts.solve6 actions fuel) goals forbidden o before w2).answers := by
  unfold Facts.rest at hex ⊢
  rw [if_pos hplain, hnext] at hex ⊢
  cases fuel with
  | zero => cases hex
  | succ n => exact List.mem_singleton_self _

/-- After a partial action the search for the same fact goes on: it is exhausted, and the one from
    before the action finds what it finds. -/
theorem fact_again (h : FactDomain out actions) {g : Term} (hg : g.IsFact)
    (hclosed : Closed out [g]) {o : Opened} {before : Solution} {w2 : List Term}
    (hw2 : FactWorld out w2) (hgoesOn : o.action.partials ≠ []) {fuel : Nat}
    (hex : (Facts.rest (Facts.solve6 actions fuel) [g] [] o before w2).ending = .exhausted) :
    (Facts.solveWithDomain actions (fuel + 2) [g] w2 before.domain).ending = .exhausted ∧
      ∀ first' ∈ (Facts.solveWithDomain actions (fuel + 2) [g] w2 before.domain).answers,
      ∃ after ∈ (Facts.rest (Facts.solve6 actions fuel) [g] [] o before w2).answers,
        g ∈ after.world ∧ first'.world = after.world ∧ first'.domain = after.domain := by
  unfold Facts.rest at hex ⊢
  rw [if_neg hgoesOn] at hex ⊢
  obtain ⟨p, hp⟩ := ne_nil_iff.mp hgoesOn
  have hexEach := (Search.bind_exhausted.mp hex).1
  have hexSolve := hexEach p hp
  have hsame := (Facts.solve6_extends h hclosed hw2 [] before.domain
    (Nat.le_succ fuel)).eq_of_exhausted hexSolve
  refine ⟨?_, fun first' hfirst' => ?_⟩
  · rw [solveWithDomain_fact hg, solveGoals_exhausted, ← hsame]
    exact hexSolve
  · obtain ⟨x, hx, hmem, rfl⟩ := (mem_solveWithDomain_fact hg).mp hfirst'
    rw [← hsame] at hx
    exact ⟨x, (Search.mem_bind_of_exhausted hexEach).mpr ⟨p, hp, hx⟩, hmem, rfl, rfl⟩

/-- Where the first goal is reached in no other way than before, neither are all goals. -/
theorem sequential_again {g : Term} {w2 : List Term} {dom2 : Option Term}
    (hex : (Facts.solveSequential withDomain (g :: goals) w dom).ending = .exhausted)
    (hex2 : (withDomain [g] w2 dom2).ending = .exhausted)
    (hagain : ∀ first' ∈ (withDomain [g] w2 dom2).answers, ∃ first ∈ (withDomain [g] w dom).answers,
      first.world = first'.world ∧ first.domain = first'.domain) :
    (Facts.solveSequential withDomain (g :: goals) w2 dom2).ending = .exhausted ∧
      ((Facts.solveSequential withDomain (g :: goals) w2 dom2).answers ≠ [] →
        (Facts.solveSequential withDomain (g :: goals) w dom).answers ≠ []) := by
  have hexAll : (Facts.solveSequential withDomain (g :: goals) w2 dom2).ending = .exhausted := by
    refine sequential_exhausted.mpr ⟨hex2, fun first' hfirst' => ?_⟩
    obtain ⟨first, hfirst, hworld, hdomain⟩ := hagain first' hfirst'
    rw [← hworld, ← hdomain]
    exact (sequential_exhausted.mp hex).2 first hfirst
  refine ⟨hexAll, fun hnonempty => ?_⟩
  obtain ⟨first', hfirst', hrest⟩ := (sequential_nonempty hexAll).mp hnonempty
  obtain ⟨first, hfirst, hworld, hdomain⟩ := hagain first' hfirst'
  refine (sequential_nonempty hex).mpr ⟨first, hfirst, ?_⟩
  rw [hworld, hdomain]
  exact hrest

/-- Where the search for goals one after another is exhausted and `solve/6` finds a plan for the
    sequence that is spelled as a list, to a world with all goals, the search has found one. -/
theorem sequential_found (h : FactDomain out actions) (fuel : Nat) {goals : List Term}
    (hne : goals ≠ []) (hfacts : ∀ g ∈ goals, g.IsFact) (hclosed : ∀ g ∈ goals, Closed out [g])
    (hsteady : ∀ g ∈ goals.dropLast, Steady actions g) {w : List Term} (hw : FactWorld out w)
    {dom : Option Term} {fuel' : Nat}
    (hex : (Facts.solveSequential (Facts.solveWithDomain actions fuel') goals w dom).ending =
      .exhausted) {r : Solution}
    (hr : r ∈ (Facts.solve6 actions fuel [seqList goals] w [] dom).answers)
    (hall : ∀ g ∈ goals, g ∈ r.world) :
    (Facts.solveSequential (Facts.solveWithDomain actions fuel') goals w dom).answers ≠ [] := by
  induction fuel generalizing goals w dom r with
  | zero => cases hr
  | succ fuel ih =>
    obtain ⟨g, goals, rfl⟩ := List.exists_cons_of_ne_nil hne
    have hg := hfacts g List.mem_cons_self
    obtain ⟨hexFirst, hexRest⟩ := sequential_exhausted.mp hex
    obtain ⟨fuel', rfl⟩ := fuel_of_exhausted hg hexFirst
    rw [solve6_seqList hfacts] at hr
    split at hr <;> rename_i hheld
    · rw [sequential_held hfacts hheld]
      exact List.cons_ne_nil _ _
    rcases Search.mem_append.mp hr with hr | ⟨-, hr⟩
    · exact List.ne_nil_of_mem (mem_sequential_of_exhausted h hclosed hw hex hr)
    obtain ⟨o, ho, before, hbefore, hpre, w2, hdo, after, hafter, rfl⟩ :=
      mem_solveUnsatisfied hr
    have hnext := ho.of_seqList
    have ho' := ho.fact hg hnext
    obtain ⟨hexAfter, hfirst⟩ := fact_of_opening h hg hw hexFirst ho' hbefore hpre hdo
    have haction := (mem_achievers.mp ho.action).1
    have hbeforeWorld := factWorld_of_mem h (h.pres _ haction _ ho.precList) hw hbefore
    have hw2 := h.after haction hbeforeWorld hdo
    by_cases hplain : o.action.partials = []
    · -- a plain action adds the first goal, and the plan goes on with the other goals
      unfold Facts.rest at hafter
      rw [if_pos hplain, hnext] at hafter
      have hmem : g ∈ w2 := by
        by_cases hgoals : goals = []
        · rw [if_pos hgoals] at hafter
          rw [← Facts.world_of_nil hafter]
          exact hall g List.mem_cons_self
        · refine (hsteady g ?_).mem_of_achiever hg ho'.action hplain hdo
          rw [List.dropLast_cons_of_ne_nil hgoals]
          exact List.mem_cons_self
      obtain ⟨first, hfirst, hworld, hdomain⟩ :=
        hfirst _ (mem_rest_of_plain hplain rfl hexAfter) hmem
      refine (sequential_nonempty hex).mpr ⟨first, hfirst, ?_⟩
      have hexGoals := hexRest first hfirst
      dsimp only at hworld hdomain
      rw [hworld, hdomain] at hexGoals ⊢
      by_cases hgoals : goals = []
      · subst hgoals
        exact List.cons_ne_nil _ _
      · rw [if_neg hgoals] at hafter
        refine ih hgoals (fun g' hg' => hfacts g' (List.mem_cons_of_mem _ hg'))
          (fun g' hg' => hclosed g' (List.mem_cons_of_mem _ hg')) (fun g' hg' => hsteady g' ?_) hw2
          hexGoals hafter fun g' hg' => hall g' (List.mem_cons_of_mem _ hg')
        rw [List.dropLast_cons_of_ne_nil hgoals]
        exact List.mem_cons_of_mem _ hg'
    · -- after a partial action the plan goes on with all goals
      unfold Facts.rest at hafter
      rw [if_neg hplain] at hafter
      obtain ⟨_, -, hafter⟩ := Search.mem_bind hafter
      obtain ⟨hexAgain, hagain⟩ := fact_again (o := { o with next := (g, []) }) h hg
        (hclosed g List.mem_cons_self) hw2 hplain hexAfter
      obtain ⟨hexAll, hnonempty⟩ := sequential_again hex hexAgain fun first' hfirst' => by
        obtain ⟨x, hx, hmem, hworld, hdomain⟩ := hagain first' hfirst'
        rw [hworld, hdomain]
        exact hfirst x hx hmem
      exact hnonempty (ih hne hfacts hclosed hsteady hw2 hexAll hafter hall)

end SmartWarehouse.Kbase
