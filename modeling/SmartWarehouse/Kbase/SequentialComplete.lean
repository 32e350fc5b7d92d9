/-
  Sequences of goals where nothing is deleted.

  `solve_sequential` plans for its goals one by one, in one domain, and goes back for other plans
  where a goal cannot be reached. Where nothing is deleted what has been reached stays, so a plan
  for the goals in some order is one for all of them, and each goal can still be reached after
  the ones before it. Hence the planner finds a plan for a sequence exactly if it finds one for
  the set of its goals, in whatever order they stand (`sequences_complete`).
-/
import SmartWarehouse.Kbase.PlannerComplete
import SmartWarehouse.Kbase.SequentialSound

namespace SmartWarehouse.Kbase

open SmartWarehouse.Lib

variable {out : Outside} {actions : List Action} {d : Term}

/-! ## One goal after another -/

theorem del_eq_of_deleteFree (h : DeleteFree actions) :
    ∀ o ∈ operators (inDomain d actions), o.del = ∅ := by
  rintro o ⟨a, ha, act, -, precList, -, addList, -, delList, hdel, rfl⟩
  have hnil := h.dels a (mem_inDomain.mp ha).1 delList hdel
  subst hnil
  exact Set.eq_empty_of_forall_notMem fun t ht => List.not_mem_nil ht

/-- A world that `solve_sequential/5` finds has all goals, and a plan in each domain that the one
    found allows leads to it. -/
theorem executes_of_sequential (h : DeleteFree actions) (fuel : Nat) {goals : List Term}
    (hgoals : ∀ g ∈ goals, g.IsFact) {w : List Term} {dom : Option Term} {r : Solution}
    (hr : r ∈ (Facts.solveSequential (Facts.solveWithDomain actions fuel) goals w dom).answers)
    (hdomain : Within r.domain d) : Within dom d ∧ (∀ g ∈ goals, g ∈ r.world) ∧
      ∃ steps, Executes (operators (inDomain d actions)) { t | t ∈ w } steps
        { t | t ∈ r.world } := by
  induction goals generalizing w dom r with
  | nil =>
    obtain rfl := List.mem_singleton.mp hr
    exact ⟨hdomain, nofun, [], .nil⟩
  | cons goal goals ih =>
    obtain ⟨first, hfirst, last, hlast, rfl⟩ := mem_sequential_cons hr
    obtain ⟨hopened, hrest, steps', hsteps'⟩ :=
      ih (fun g hg => hgoals g (List.mem_cons_of_mem _ hg)) hlast hdomain
    obtain _ | fuel := fuel
    · cases hfirst
    have hgoal := hgoals goal List.mem_cons_self
    obtain ⟨found, hfound, hmem, rfl⟩ := (mem_solveWithDomain_fact hgoal).mp hfirst
    have hnoseq : NoSeq [goal] := fun g hg => List.mem_singleton.mp hg ▸ hgoal.isSeq
    obtain ⟨hdom, steps, hsteps⟩ := executes_of_found h.noSeq fuel hnoseq hfound hopened
    refine ⟨hdom, fun g hg => ?_, steps ++ steps', hsteps.append hsteps'⟩
    obtain rfl | hg := List.mem_cons.mp hg
    · exact hsteps'.subset (del_eq_of_deleteFree h) hmem
    · exact hrest g hg

/-- An exhausted search finds goals one after another that come up at a stage. -/
theorem sequential_of_stage (h : DeleteFree actions) (w0 : List Term) (k : Nat)
    {goals : List Term} (hgoals : ∀ g ∈ goals, g.IsFact)
    (hstage : ∀ g ∈ goals, g ∈ stage (operators (inDomain d actions)) { t | t ∈ w0 } k)
    {w : List Term} (hw : w0 ⊆ w) {dom : Option Term} (hdom : Within dom d) {fuel : Nat}
    (hex : (Facts.solveSequential (Facts.solveWithDomain actions fuel) goals w dom).ending =
      .exhausted) :
    (Facts.solveSequential (Facts.solveWithDomain actions fuel) goals w dom).answers ≠ [] := by
  induction goals generalizing w dom with
  | nil => exact List.cons_ne_nil _ _
  | cons goal goals ih =>
    have hgoal := hgoals goal List.mem_cons_self
    obtain ⟨hexFirst, hexRest⟩ := sequential_exhausted.mp hex
    obtain ⟨fuel, rfl⟩ := fuel_of_exhausted hgoal hexFirst
    have hexFound := hexFirst
    rw [solveWithDomain_fact hgoal, solveGoals_exhausted] at hexFound
    have hfree : Free (inDomain d actions) w0 k [] := fun _ _ _ _ _ => List.not_mem_nil
    obtain ⟨found, hfound, hreached⟩ := found_of_stage h w0 k [goal]
      (fun g hg => List.mem_singleton.mp hg ▸ hgoal)
      (fun g hg => List.mem_singleton.mp hg ▸ hstage goal List.mem_cons_self) w hw [] hfree dom
      hdom _ hexFound
    have hfirst : (⟨found.world, flatten found.plan, found.domain⟩ : Solution) ∈
        (Facts.solveWithDomain actions (fuel + 2) [goal] w dom).answers :=
      (mem_solveWithDomain_fact hgoal).mpr
        ⟨found, hfound, hreached.goals goal (List.mem_singleton_self _), rfl⟩
    refine (sequential_nonempty hex).mpr ⟨_, hfirst, ?_⟩
    exact ih (fun g hg => hgoals g (List.mem_cons_of_mem _ hg))
      (fun g hg => hstage g (List.mem_cons_of_mem _ hg)) (List.Subset.trans hw hreached.kept)
      hreached.domain (hexRest ⟨found.world, flatten found.plan, found.domain⟩ hfirst)

/-- Where the search for a sequence of facts is exhausted, it has found a plan exactly if some
    plan within a domain leads to all of them. -/
theorem sequential_complete (h : DeleteFree actions) {goals w0 : List Term}
    (hgoals : ∀ g ∈ goals, g.IsFact) {fuel : Nat}
    (hex : (Facts.solveSequential (Facts.solveWithDomain actions fuel) goals w0 none).ending =
      .exhausted) :
    (Facts.solveSequential (Facts.solveWithDomain actions fuel) goals w0 none).answers ≠ [] ↔
      ∃ d steps T, Executes (operators (inDomain d actions)) { t | t ∈ w0 } steps T ∧
        ∀ g ∈ goals, g ∈ T := by
  constructor
  · intro hne
    obtain ⟨r, hr⟩ := ne_nil_iff.mp hne
    obtain ⟨d, hd⟩ := exists_within r.domain
    obtain ⟨-, hall, steps, hsteps⟩ := executes_of_sequential h fuel hgoals hr hd
    exact ⟨d, steps, _, hsteps, hall⟩
  · rintro ⟨d, steps, T, hsteps, hT⟩
    obtain ⟨k, hk⟩ := exists_stage hsteps hT
    exact sequential_of_stage h w0 k hgoals hk (List.Subset.refl w0) (.inl rfl) hex

/-! ## The planner -/

theorem closed_seqTerm {goals : List Term} (h : Closed out goals) (hseq : goals ≠ []) :
    Closed out [seqTerm goals] := by
  obtain ⟨goal, goals, rfl⟩ := List.exists_cons_of_ne_nil hseq
  rw [Closed, calls_singleton, seqTerm, Term.calls_seq, calls_ofList]
  exact h

theorem closed_of_mem {goals : List Term} (h : Closed out goals) {g : Term} (hg : g ∈ goals) :
    Closed out [g] := by
  refine h.mono ?_
  rw [calls_singleton]
  exact calls_subset_of_mem hg

/-- With enough fuel the search for a sequence of facts is exhausted. -/
theorem sequential_exhausted_eventually (hfacts : FactDomain out actions) (h : DeleteFree actions)
    {goals : List Term} (hgoals : ∀ g ∈ goals, g.IsFact) (hclosed : Closed out goals) :
    ∀ᶠ fuel in Filter.atTop, ∀ w0, FactWorld out w0 →
      (Facts.solveSequential (Facts.solveWithDomain actions fuel) goals w0 none).ending =
        .exhausted := by
  have hclosed' : ∀ g ∈ goals, Closed out [g] := fun g hg => closed_of_mem hclosed hg
  have hends : ∀ g ∈ goals, EndsEventuallyWithDomain out actions (fun e => .exhausted = e)
      (Assertable out) [g] := fun g hg => by
    have hnoseq : NoSeq [g] := fun g' hg' => List.mem_singleton.mp hg' ▸ (hgoals g hg).isSeq
    exact (endsEventually (h.regular hfacts) _ ⟨(hclosed' g hg).halting, .inl hnoseq⟩ rfl).2
  filter_upwards [eventually_sequential (h.regular hfacts) hends] with fuel hfuel
  intro w0 hw0
  have hdenotes := solveSequential_denotes (solve_denotes hfacts fuel).2 hclosed' hw0 none
    emptyScratch rfl
  exact (hdenotes.ends (hfuel w0 none hw0.assertable emptyScratch)).symm

theorem finds_seqTerm (hfacts : FactDomain out actions) {goals : List Term}
    (hgoals : ∀ g ∈ goals, g.IsFact) (hclosed : Closed out goals) (fuel : Nat) {w0 : List Term}
    (hw0 : FactWorld out w0) {s : Scratch} (hs : s.Clean) :
    Finds (solve out actions (fuel + 1) [seqTerm goals] w0) s ↔
      (Facts.solveSequential (Facts.solveWithDomain actions fuel) goals w0 none).answers ≠ [] := by
  by_cases hnil : goals = []
  · subst hnil
    have hone : solve out actions (fuel + 1) [seqTerm []] w0 s = .one ⟨w0, [], none⟩ s := by
      rw [solve, solveWithDomain_succ, seqTerm]
      exact Query.commit_one rfl _ _
    have hfinds : Finds (solve out actions (fuel + 1) [seqTerm []] w0) s :=
      ⟨_, s, by rw [hone]; rfl⟩
    exact iff_of_true hfinds (List.cons_ne_nil _ _)
  · have hdenotes := (solve_denotes hfacts (fuel + 1)).2 _ w0 none (closed_seqTerm hclosed hnil) hw0
    rw [Ne, ← List.head?_eq_none_iff, ← solveWithDomain_seqTerm hgoals, List.head?_eq_none_iff]
    exact finds_iff hdenotes hs

/-- The actions that can be used in some domain lead from the world to one with all goals. -/
def Reachable (actions : List Action) (w0 goals : List Term) : Prop :=
  ∃ d steps T, Executes (operators (inDomain d actions)) { t | t ∈ w0 } steps T ∧
    ∀ g ∈ goals, g ∈ T

theorem reachable_congr {w0 goals goals' : List Term} (h : ∀ g, g ∈ goals ↔ g ∈ goals') :
    Reachable actions w0 goals ↔ Reachable actions w0 goals' := by
  simp only [Reachable, h]

/-- On a delete-free domain of facts, with enough fuel: from any world the planner finds a plan
    for a sequence of facts, as goals of `solve_sequential/4` or as a sequence for `solve/4`,
    exactly if it finds one for a set of the same facts. -/
theorem sequences_complete (out : Outside) (actions : List Action)
    (hfacts : FactDomain out actions) (h : DeleteFree actions) (goals goals' : List Term)
    (hgoals : ∀ g ∈ goals, g.IsFact) (hclosed : Closed out goals)
    (hsame : ∀ g, g ∈ goals ↔ g ∈ goals') :
    ∃ depth, ∀ fuel ≥ depth, ∀ w0, FactWorld out w0 → ∀ s : Scratch, s.Clean →
      (Finds (solveSequential4 out actions fuel goals w0) s ↔
        Finds (solve out actions fuel goals' w0) s) ∧
      (Finds (solve out actions fuel [seqTerm goals] w0) s ↔
        Finds (solve out actions fuel goals' w0) s) := by
  have hgoals' : ∀ g ∈ goals', g.IsFact := fun g hg => hgoals g ((hsame g).mpr hg)
  have hclosed' : Closed out goals' := by
    refine hclosed.mono fun t ht => ?_
    obtain ⟨g, hg, ht⟩ := List.mem_flatMap.mp ht
    exact List.mem_flatMap.mpr ⟨g, (hsame g).mpr hg, ht⟩
  have hsequential := sequential_exhausted_eventually hfacts h hgoals hclosed
  have hbelow : ∀ᶠ fuel in Filter.atTop, ∃ below, fuel = below + 1 ∧ ∀ w0, FactWorld out w0 →
      (Facts.solveSequential (Facts.solveWithDomain actions below) goals w0 none).ending =
        .exhausted := eventually_succ hsequential fun below hends => ⟨below, rfl, hends⟩
  obtain ⟨depth, hdepth⟩ := Filter.eventually_atTop.mp
    ((exhausted_eventually hfacts h hgoals' hclosed').and (hsequential.and hbelow))
  refine ⟨depth, fun fuel hfuel w0 hw0 s hs => ?_⟩
  obtain ⟨hset, hgoal, below, rfl, hseq⟩ := hdepth fuel hfuel
  have hplanned : Finds (solve out actions (below + 1) goals' w0) s ↔
      Reachable actions w0 goals := by
    rw [reachable_congr hsame, Reachable, ← solveWithDomain_complete h hgoals' (hset w0 hw0)]
    exact finds_iff ((solve_denotes hfacts (below + 1)).2 goals' w0 none hclosed' hw0) hs
  rw [hplanned, Reachable]
  constructor
  · rw [← sequential_complete h hgoals (hgoal w0 hw0)]
    have hparts : ∀ g ∈ goals, Closed out [g] := fun g hg => closed_of_mem hclosed hg
    exact finds_iff (solveSequential_denotes (solve_denotes hfacts (below + 1)).2 hparts hw0 none)
      hs
  · rw [← sequential_complete h hgoals (hseq w0 hw0)]
    exact finds_seqTerm hfacts hgoals hclosed below hw0 hs

/-- The part is still there when it has been stored. -/
theorem sequences_complete_store : ∃ depth, ∀ fuel ≥ depth,
    (Finds (solveSequential4 onlyTrue storeActions fuel [.atom "stored", .atom "part"] [])
      emptyScratch ↔
        Finds (solve onlyTrue storeActions fuel [.atom "part", .atom "stored"] []) emptyScratch) ∧
    (Finds (solve onlyTrue storeActions fuel [seqTerm [.atom "stored", .atom "part"]] [])
      emptyScratch ↔
        Finds (solve onlyTrue storeActions fuel [.atom "part", .atom "stored"] [])
          emptyScratch) := by
  have hsame : ∀ g, g ∈ [Term.atom "stored", .atom "part"] ↔
      g ∈ [Term.atom "part", .atom "stored"] := fun g => by
    rw [List.mem_pair, List.mem_pair, or_comm]
  obtain ⟨depth, hdepth⟩ := sequences_complete onlyTrue storeActions
    ⟨by decide, by decide, by decide⟩
    ⟨by decide, by decide, by decide, by decide, by decide, by decide⟩
    [.atom "stored", .atom "part"] [.atom "part", .atom "stored"] (by decide) (by decide) hsame
  exact ⟨depth, fun fuel hfuel => hdepth fuel hfuel [] (by decide) emptyScratch rfl⟩

end SmartWarehouse.Kbase
