/-
  What backward chaining proves with positive ground rules.

  A `GroundRule` is a named if-then rule whose condition combines ground atoms of declared
  predicates with `and/2` and `or/2`. Backward chaining splits the top of a condition and proves
  the parts with rules; what is nested below is only looked up in the facts, and rules of two
  names are left out. The least set for this reading is `splitModel`: exactly its atoms are
  proved (`succeeds_iff`) when the rules are acyclic, and it is the least set of the rules if no
  rule is left out and no rule concludes an atom of a nested part (`backward_complete`).
-/
import SmartWarehouse.Kbase.Backward
import SmartWarehouse.Kbase.FactBase
import SmartWarehouse.Lib.Closure
import Mathlib.Order.Filter.AtTopBot.Basic
import Mathlib.Order.Filter.Finite

namespace SmartWarehouse.Kbase

open SmartWarehouse.Lib

variable {A : Type}

/-! ## Rules and their least sets -/

structure GroundRule (A : Type) where
  name : String
  priority : Option Int
  cond : Goal A
  positive : cond.Positive
  conclusions : List A

/-- The rule `if Cond then [assert_rtx(Conclusion), ...]`. -/
def GroundRule.toRule (r : GroundRule A) : Rule A :=
  .ifThen ⟨some r.name, r.priority⟩ r.cond (r.conclusions.map (.add .assert_rtx))

/-- Backward chaining does not leave the rule out. -/
def GroundRule.Chained (r : GroundRule A) : Prop :=
  ¬ (r.name = "sequence_not_empty" ∨ r.name = "sequence_empty")

def Goal.TrueIn (S : Set A) : Goal A → Prop
  | .atom a => a ∈ S
  | .and p q => p.TrueIn S ∧ q.TrueIn S
  | .or p q => p.TrueIn S ∨ q.TrueIn S
  | .not p => ¬ p.TrueIn S
  | .true => True
  | .false => False

def Goal.atoms : Goal A → List A
  | .atom a => [a]
  | .and p q => p.atoms ++ q.atoms
  | .or p q => p.atoms ++ q.atoms
  | .not p => p.atoms
  | _ => []

/-- The parts that `backward_condition/3` splits a condition into. -/
def Goal.parts : Goal A → List (Goal A)
  | .and p q => [p, q]
  | .or p q => [p, q]
  | p => [p]

/-- The atoms that are nested in a part. -/
def Goal.nestedAtoms (c : Goal A) : List A :=
  c.parts.flatMap fun p =>
    match p with
    | .atom _ => []
    | p => p.atoms

/-- A part of a condition: an atom of `S`, or a goal that is true in the facts. -/
def Goal.PartTrue (S F : Set A) : Goal A → Prop
  | .atom a => a ∈ S
  | p => p.TrueIn F

/-- A condition split once: its top parts from `S`, what is nested from the facts. -/
def Goal.SplitTrue (S F : Set A) : Goal A → Prop
  | .and p q => p.PartTrue S F ∧ q.PartTrue S F
  | .or p q => p.PartTrue S F ∨ q.PartTrue S F
  | p => p.PartTrue S F

theorem Goal.TrueIn.imp {S T : Set A} {p : Goal A} (hpos : p.Positive)
    (hST : ∀ a ∈ p.atoms, a ∈ S → a ∈ T) (h : p.TrueIn S) : p.TrueIn T := by
  induction p with
  | atom a => exact hST a (List.mem_singleton_self a) h
  | and p q ihp ihq =>
    exact ⟨ihp hpos.1 (fun a ha => hST a (List.mem_append_left _ ha)) h.1,
      ihq hpos.2 (fun a ha => hST a (List.mem_append_right _ ha)) h.2⟩
  | or p q ihp ihq =>
    rcases h with h | h
    · exact .inl (ihp hpos.1 (fun a ha => hST a (List.mem_append_left _ ha)) h)
    · exact .inr (ihq hpos.2 (fun a ha => hST a (List.mem_append_right _ ha)) h)
  | not p => exact hpos.elim
  | true => exact hpos.elim
  | false => exact hpos.elim

theorem Goal.PartTrue.mono {S T F : Set A} (hST : S ⊆ T) {p : Goal A}
    (h : p.PartTrue S F) : p.PartTrue T F := by
  cases p with
  | atom a => exact hST h
  | _ => exact h

theorem Goal.SplitTrue.mono {S T F : Set A} (hST : S ⊆ T) {p : Goal A}
    (h : p.SplitTrue S F) : p.SplitTrue T F := by
  cases p with
  | atom a => exact hST h
  | and p q => exact ⟨h.1.mono hST, h.2.mono hST⟩
  | or p q => exact h.imp (fun h => h.mono hST) (fun h => h.mono hST)
  | _ => exact h

/-- A rule with one of its conclusions. -/
def GroundRule.inference (r : GroundRule A) (a : A) : Inference A where
  premise S := r.cond.TrueIn S
  conclusion := a
  mono hST h := h.imp r.positive fun _ _ ha => hST ha

def GroundRule.splitInference (r : GroundRule A) (F : Set A) (a : A) : Inference A where
  premise S := r.cond.SplitTrue S F
  conclusion := a
  mono hST h := h.mono hST

/-- The least set with the facts `F` that is closed under the rules. -/
def groundModel (rules : List (GroundRule A)) (F : List A) : Set A :=
  leastClosed { i | ∃ r ∈ rules, ∃ a ∈ r.conclusions, r.inference a = i } { f | f ∈ F }

/-- The least set with the facts `F` that is closed under the chained rules, with their
    conditions split once. -/
def splitModel (rules : List (GroundRule A)) (F : List A) : Set A :=
  leastClosed { i | ∃ r ∈ rules, r.Chained ∧ ∃ a ∈ r.conclusions,
    r.splitInference { f | f ∈ F } a = i } { f | f ∈ F }

/-! ## Searches over ground atoms -/

variable [DecidableEq A] {F : List A}

theorem ground_solve (F : List A) (p : Goal A) (e : Unit) :
    ((groundAtoms A).solve F p e).ending = .exhausted ∧
      (e ∈ ((groundAtoms A).solve F p e).answers ↔ p.TrueIn { f | f ∈ F }) := by
  induction p with
  | atom a =>
    show ((if a ∈ F then Search.one () else .fail) : Search Unit).ending = _ ∧ (_ ↔ a ∈ F)
    by_cases h : a ∈ F
    · simp only [Prolog.solve, groundAtoms, if_pos h]
      simp [h]
    · simp only [Prolog.solve, groundAtoms, if_neg h]
      simp [h]
  | and p q ihp ihq =>
    rw [Prolog.solve, Search.bind_exhausted,
      Search.mem_bind_of_exhausted fun _ _ => ihq.1]
    refine ⟨⟨fun _ _ => ihq.1, ihp.1⟩, ?_⟩
    constructor
    · rintro ⟨_, hp, hq⟩
      exact ⟨ihp.2.mp hp, ihq.2.mp hq⟩
    · rintro ⟨hp, hq⟩
      exact ⟨e, ihp.2.mpr hp, ihq.2.mpr hq⟩
  | or p q ihp ihq =>
    rw [Prolog.solve]
    split <;> rename_i hp
    · refine ⟨rfl, fun _ => .inl (ihp.2.mp ?_), fun _ => List.mem_singleton.mpr rfl⟩
      rw [hp]
      exact List.mem_cons_self
    · rw [Search.append_exhausted, Search.mem_append_of_exhausted ihp.1, ihp.2, ihq.2]
      exact ⟨⟨ihp.1, ihq.1⟩, Iff.rfl⟩
  | not p ih =>
    rw [Prolog.solve]
    split <;> rename_i hp
    · refine ⟨rfl, fun h => (by cases h), fun h => absurd (ih.2.mp ?_) h⟩
      rw [hp]
      exact List.mem_cons_self
    · rw [Search.append_exhausted, Search.mem_append_of_exhausted ih.1]
      refine ⟨⟨ih.1, rfl⟩, fun _ h => ?_, fun _ => .inr (List.mem_singleton.mpr rfl)⟩
      have := ih.2.mpr h
      rw [hp] at this
      cases this
  | true => exact ⟨rfl, fun _ => trivial, fun _ => List.mem_singleton.mpr rfl⟩
  | false => exact ⟨rfl, fun h => (by cases h), fun h => h.elim⟩

theorem ground_tested {p : Goal A} {e e' : Unit} :
    Tested (groundAtoms A) F p e e' ↔ p.TrueIn { f | f ∈ F } := by
  have hsolve : ∀ p : Goal A, e' ∈ ((groundAtoms A).solve F p e).answers ↔
      p.TrueIn { f | f ∈ F } := fun p => (ground_solve F p e).2
  rcases tested_cases (groundAtoms A) F p with ⟨p, rfl⟩ | ⟨-, htested⟩
  · show DoesNotHold _ F p e ∧ e' = e ↔ ¬ p.TrueIn _
    rw [DoesNotHold, (ground_solve F p e).1, ← hsolve p, List.eq_nil_iff_forall_not_mem]
    exact ⟨fun h => h.1.1 e', fun h => ⟨⟨fun _ => h, by decide⟩, rfl⟩⟩
  · rw [htested, hsolve]

theorem ground_testGoal_exhausted (p : Goal A) (previous : List (FiredBecause A Unit))
    (e : Unit) : ((groundAtoms A).testGoal F p previous e).ending = .exhausted := by
  have onError : ∀ (p : Goal A) (l : List Unit),
      (((groundAtoms A).solve F p e).onError l).ending = .exhausted := by
    intro p l
    rw [Search.onError, if_neg, (ground_solve F p e).1]
    rw [(ground_solve F p e).1]
    decide
  rcases tested_cases (groundAtoms A) F p with ⟨p, rfl⟩ | ⟨hgoal, -⟩
  · exact Search.bind_exhausted.mpr ⟨fun _ _ => rfl, onError (.not p) _⟩
  · rw [hgoal]
    exact Search.bind_exhausted.mpr ⟨fun _ _ => rfl, onError p _⟩

theorem ground_unify {goal : Goal A} {a : A} {e : Unit} :
    ((groundAtoms A).unify goal a e).isSome ↔ goal = .atom a := by
  cases goal with
  | atom b =>
    show (if b = a then some () else none).isSome = _ ↔ _
    by_cases h : b = a <;> simp [h]
  | _ => exact ⟨fun h => (by cases h), fun h => (by cases h)⟩

/-- A rule is selected for the atoms that it concludes. -/
theorem ground_select {r : GroundRule A} {goal : Goal A} {e : Unit}
    {x : FiredBecause A Unit} :
    (groundAtoms A).select goal r.toRule.picked e = some x ↔
      r.Chained ∧ (∃ a ∈ r.conclusions, goal = .atom a) ∧
        x = ⟨.ifBranch, r.toRule.picked, goal, r.cond, ()⟩ := by
  have hif : ((groundAtoms A).hasGoal goal r.toRule.picked.conclusions e).isSome ↔
      ∃ a ∈ r.conclusions, goal = .atom a := by
    rw [hasGoal_isSome]
    constructor
    · rintro ⟨form, a, ha, hgoal⟩
      obtain ⟨b, hb, heq⟩ := List.mem_map.mp ha
      cases heq
      exact ⟨a, hb, ground_unify.mp hgoal⟩
    · rintro ⟨a, ha, hgoal⟩
      exact ⟨.assert_rtx, a, List.mem_map_of_mem ha, ground_unify.mpr hgoal⟩
  have helse : (groundAtoms A).hasGoal goal [] e = none := rfl
  rw [← hif]
  unfold Backward.select GroundRule.Chained
  rw [show r.toRule.picked.name = r.name from rfl]
  by_cases hname : r.name = "sequence_not_empty" ∨ r.name = "sequence_empty"
  · simp [hname]
  · rw [if_neg hname]
    unfold Backward.selectBranch
    rw [show ((groundAtoms A).copy r.toRule.picked e) = (r.toRule.picked, e) from rfl]
    simp only []
    rcases h : (groundAtoms A).hasGoal goal r.toRule.picked.conclusions e with _ | ⟨⟩
    · rw [show r.toRule.picked.elseIfConclusions = [] from rfl,
        show r.toRule.picked.elseConclusions = [] from rfl, helse]
      simp
    · exact ⟨fun h => ⟨hname, rfl, (Option.some.inj h).symm⟩,
        fun h => congrArg some h.2.2.symm⟩

/-! ## Proofs and the split model -/

variable {rules : List (GroundRule A)}

omit [DecidableEq A] in
theorem mem_ground_rules {r : PickedRule A} :
    r ∈ pickARule (rules.map GroundRule.toRule) ↔ ∃ ρ ∈ rules, ρ.toRule.picked = r := by
  rw [mem_pickARule]
  simp only [List.mem_map, exists_exists_and_eq_and]

omit [DecidableEq A] in
theorem mem_splitModel {ρ : GroundRule A} (hρ : ρ ∈ rules) (hchained : ρ.Chained)
    (h : ρ.cond.SplitTrue (splitModel rules F) { f | f ∈ F }) {a : A}
    (ha : a ∈ ρ.conclusions) : a ∈ splitModel rules F :=
  (isLeast_leastClosed _ _).1.2 (ρ.splitInference _ a) ⟨ρ, hρ, hchained, a, ha, rfl⟩ h

omit [DecidableEq A] in
theorem Goal.PartTrue.split {S T : Set A} {c : Goal A} (hc : c.Unsplit)
    (h : c.PartTrue S T) : c.SplitTrue S T := by
  cases c with
  | and p q => exact hc.elim
  | or p q => exact hc.elim
  | _ => exact h

/-- What is proved is in the split model. -/
theorem partTrue_of_proves {goal : Goal A} {e e' : Unit}
    {fired : List (FiredBecause A Unit)}
    (h : Proves (groundAtoms A) (rules.map GroundRule.toRule) F goal e e' fired) :
    goal.PartTrue (splitModel rules F) { f | f ∈ F } := by
  have conclude : ∀ {goal : Goal A} {e : Unit} {r : PickedRule A} {x : FiredBecause A Unit},
      r ∈ pickARule (rules.map GroundRule.toRule) →
      (groundAtoms A).select goal r e = some x →
      x.because.SplitTrue (splitModel rules F) { f | f ∈ F } →
      goal.PartTrue (splitModel rules F) { f | f ∈ F } := by
    intro goal e r x hr hx hsplit
    obtain ⟨ρ, hρ, rfl⟩ := mem_ground_rules.mp hr
    obtain ⟨hchained, ⟨a, ha, rfl⟩, rfl⟩ := ground_select.mp hx
    exact mem_splitModel hρ hchained hsplit ha
  induction h with
  | @tested goal e e' h =>
    replace h := ground_tested.mp h
    cases goal with
    | atom a => exact base_subset_leastClosed _ _ h
    | _ => exact h
  | rule hr hx hsplit _ ih => exact conclude hr hx (ih.split hsplit)
  | ruleAnd hr hx hsplit _ _ ihp ihq =>
    refine conclude hr hx ?_
    rw [hsplit]
    exact ⟨ihp, ihq⟩
  | ruleOrLeft hr hx hsplit _ ih =>
    refine conclude hr hx ?_
    rw [hsplit]
    exact .inl ih
  | ruleOrRight hr hx hsplit _ ih =>
    refine conclude hr hx ?_
    rw [hsplit]
    exact .inr ih

/-- What is in the split model is proved. -/
theorem proves_of_mem_splitModel {a : A} (h : a ∈ splitModel rules F) :
    ∃ fired, Proves (groundAtoms A) (rules.map GroundRule.toRule) F (.atom a) () () fired := by
  let S : Set A := { a | ∃ fired,
    Proves (groundAtoms A) (rules.map GroundRule.toRule) F (.atom a) () () fired }
  have part : ∀ {p : Goal A}, p.PartTrue S { f | f ∈ F } → ∃ fired,
      Proves (groundAtoms A) (rules.map GroundRule.toRule) F p () () fired := by
    intro p hp
    cases p with
    | atom a => exact hp
    | _ => exact ⟨[], .tested (ground_tested.mpr hp)⟩
  refine leastClosed_subset (S := S) ?_ ?_ h
  · exact fun f hf => ⟨[], .tested (ground_tested.mpr hf)⟩
  · rintro i ⟨ρ, hρ, hchained, a, ha, rfl⟩ hpremise
    replace hpremise : ρ.cond.SplitTrue S { f | f ∈ F } := hpremise
    have hr := mem_ground_rules.mpr ⟨ρ, hρ, rfl⟩
    have hx : (groundAtoms A).select (.atom a) ρ.toRule.picked () = some _ :=
      ground_select.mpr ⟨hchained, ⟨a, ha, rfl⟩, rfl⟩
    show ∃ fired, _
    cases hcond : ρ.cond with
    | and p q =>
      rw [hcond] at hpremise
      obtain ⟨_, hp⟩ := part hpremise.1
      obtain ⟨_, hq⟩ := part hpremise.2
      exact ⟨_, .ruleAnd hr hx hcond hp hq⟩
    | or p q =>
      rw [hcond] at hpremise
      rcases hpremise with hp | hq
      · obtain ⟨_, hp⟩ := part hp
        exact ⟨_, .ruleOrLeft hr hx hcond hp⟩
      · obtain ⟨_, hq⟩ := part hq
        exact ⟨_, .ruleOrRight hr hx hcond hq⟩
    | atom b =>
      rw [hcond] at hpremise
      obtain ⟨_, hb⟩ := part (p := .atom b) hpremise
      exact ⟨_, .rule hr hx (by rw [hcond]; trivial) (by rw [hcond]; exact hb)⟩
    | not p => exact absurd ρ.positive (by rw [hcond]; exact id)
    | true => exact absurd ρ.positive (by rw [hcond]; exact id)
    | false => exact absurd ρ.positive (by rw [hcond]; exact id)

/-! ## Acyclic rules have finite searches -/

/-- The atom `a` is concluded by a rule whose condition has `b`. -/
def DependsOn (rules : List (GroundRule A)) (a b : A) : Prop :=
  ∃ ρ ∈ rules, a ∈ ρ.conclusions ∧ b ∈ ρ.cond.atoms

def Acyclic (rules : List (GroundRule A)) : Prop :=
  ∀ a, ¬ Relation.TransGen (DependsOn rules) a a

omit [DecidableEq A] in
theorem acyclic_of_rank (rank : A → Nat)
    (h : ∀ a b, DependsOn rules a b → rank b < rank a) : Acyclic rules := by
  have hlt : ∀ a b, Relation.TransGen (DependsOn rules) a b → rank b < rank a := by
    intro a b hab
    induction hab with
    | single hab => exact h _ _ hab
    | tail _ hbc ih => exact (h _ _ hbc).trans ih
  exact fun a ha => lt_irrefl _ (hlt a a ha)

omit [DecidableEq A] in
theorem wellFounded_dependsOn (h : Acyclic rules) : WellFounded (flip (DependsOn rules)) := by
  refine wellFounded_of_acyclic
    (List.finite_toSet (rules.flatMap GroundRule.conclusions)) ?_ h
  rintro a b ⟨ρ, hρ, ha, -⟩
  exact List.mem_flatMap.mpr ⟨ρ, hρ, ha⟩

/-- With this fuel the search for a goal is exhausted. -/
def Exhausts (rules : List (GroundRule A)) (F : List A) (fuel : Nat) (goal : Goal A) : Prop :=
  ∀ previous e, ((groundAtoms A).backward2 (rules.map GroundRule.toRule) F fuel goal previous
    e).ending = .exhausted

/-- The search for a condition is exhausted if the searches for its parts are. -/
theorem backwardCondition_exhausted {fuel : Nat} {c : Goal A}
    (h : ∀ p ∈ c.parts, Exhausts rules F fuel p) (previous : List (FiredBecause A Unit))
    (e : Unit) :
    (backwardCondition ((groundAtoms A).backward2 (rules.map GroundRule.toRule) F fuel) c
      previous e).ending = .exhausted := by
  cases c with
  | and p q =>
    exact Search.bind_exhausted.mpr
      ⟨fun r _ => h q (by simp [Goal.parts]) r.2 r.1, h p (by simp [Goal.parts]) previous e⟩
  | or p q =>
    exact Search.append_exhausted.mpr
      ⟨h p (by simp [Goal.parts]) previous e, h q (by simp [Goal.parts]) previous e⟩
  | _ => exact h _ (by simp [Goal.parts]) previous e

/-- One step of depth: the search for a goal is exhausted if those for the conditions of the
    rules that conclude it are. -/
theorem exhausts_succ {fuel : Nat} {goal : Goal A}
    (h : ∀ ρ ∈ rules, (∃ a ∈ ρ.conclusions, goal = .atom a) →
      ∀ p ∈ ρ.cond.parts, Exhausts rules F fuel p) :
    Exhausts rules F (fuel + 1) goal := by
  intro previous e
  rw [Backward.backward2, Search.append_exhausted]
  refine ⟨?_, ground_testGoal_exhausted goal previous e⟩
  refine Search.bind_exhausted.mpr ⟨fun r hr => ?_, rfl⟩
  obtain ⟨ρ, hρ, rfl⟩ := mem_ground_rules.mp hr
  rcases hx : (groundAtoms A).select goal ρ.toRule.picked e with _ | x
  · rfl
  · obtain ⟨-, hgoal, rfl⟩ := ground_select.mp hx
    exact backwardCondition_exhausted (h ρ hρ hgoal) _ _

omit [DecidableEq A] in
theorem mem_atoms_of_part {c : Goal A} {b : A} (h : .atom b ∈ c.parts) : b ∈ c.atoms := by
  cases c with
  | and p q =>
    rcases List.mem_pair.mp h with rfl | rfl
    · exact List.mem_append_left _ (List.mem_singleton_self b)
    · exact List.mem_append_right _ (List.mem_singleton_self b)
  | or p q =>
    rcases List.mem_pair.mp h with rfl | rfl
    · exact List.mem_append_left _ (List.mem_singleton_self b)
    · exact List.mem_append_right _ (List.mem_singleton_self b)
  | atom a =>
    cases List.mem_singleton.mp h
    exact List.mem_singleton_self b
  | not p => cases List.mem_singleton.mp h
  | true => cases List.mem_singleton.mp h
  | false => cases List.mem_singleton.mp h

/-- Enough fuel exhausts the search for any atom: by induction on what it depends on. -/
theorem eventually_exhausts (h : Acyclic rules) (F : List A) (a : A) :
    ∀ᶠ fuel in Filter.atTop, Exhausts rules F fuel (.atom a) := by
  induction a using (wellFounded_dependsOn h).induction with
  | _ a ih =>
    have hpart : ∀ ρ ∈ rules, a ∈ ρ.conclusions → ∀ p ∈ ρ.cond.parts,
        ∀ᶠ fuel in Filter.atTop, Exhausts rules F fuel p := by
      intro ρ hρ ha p hp
      by_cases hatom : ∃ b, p = .atom b
      · obtain ⟨b, rfl⟩ := hatom
        exact ih b ⟨ρ, hρ, ha, mem_atoms_of_part hp⟩
      · filter_upwards [Filter.eventually_ge_atTop 1] with fuel hfuel
        obtain ⟨fuel, rfl⟩ := Nat.exists_eq_add_of_le' hfuel
        exact exhausts_succ fun _ _ hgoal => absurd hgoal fun ⟨b, _, hb⟩ => hatom ⟨b, hb⟩
    have hall : ∀ᶠ fuel in Filter.atTop, ∀ ρ ∈ rules, a ∈ ρ.conclusions →
        ∀ p ∈ ρ.cond.parts, Exhausts rules F fuel p := by
      refine (Filter.eventually_all_finite (List.finite_toSet rules)).mpr fun ρ hρ => ?_
      by_cases ha : a ∈ ρ.conclusions
      · refine ((Filter.eventually_all_finite (List.finite_toSet ρ.cond.parts)).mpr
          (hpart ρ hρ ha)).mono fun fuel hfuel _ => hfuel
      · exact Filter.Eventually.of_forall fun fuel ha' => absurd ha' ha
    filter_upwards [(Filter.tendsto_sub_atTop_nat 1).eventually hall,
      Filter.eventually_ge_atTop 1] with fuel hfuel hpos
    obtain ⟨fuel, rfl⟩ := Nat.exists_eq_add_of_le' hpos
    refine exhausts_succ fun ρ hρ hgoal => ?_
    obtain ⟨b, hb, heq⟩ := hgoal
    cases heq
    exact hfuel ρ hρ hb

/-! ## What backward chaining proves -/

/-- `backward/1` succeeds: with enough fuel the search has an answer. -/
def Succeeds (rules : List (GroundRule A)) (F : List A) (goal : Goal A) : Prop :=
  ∃ fuel, ((groundAtoms A).backward (rules.map GroundRule.toRule) F fuel goal).answers ≠ []

theorem mem_splitModel_of_succeeds {a : A} (h : Succeeds rules F (.atom a)) :
    a ∈ splitModel rules F := by
  obtain ⟨fuel, h⟩ := h
  obtain ⟨r, hr⟩ := List.exists_mem_of_ne_nil _ h
  obtain ⟨fired, -, hproof⟩ := proves_of_mem_backward2 hr
  exact partTrue_of_proves hproof

/-- With acyclic rules exactly the atoms of the split model are proved. -/
theorem succeeds_iff (h : Acyclic rules) (F : List A) (a : A) :
    Succeeds rules F (.atom a) ↔ a ∈ splitModel rules F := by
  refine ⟨mem_splitModel_of_succeeds, fun ha => ?_⟩
  obtain ⟨fired, hproof⟩ := proves_of_mem_splitModel ha
  obtain ⟨fuel, hfuel⟩ := (eventually_exhausts h F a).exists
  exact ⟨fuel, List.ne_nil_of_mem (mem_backward2_of_proves (hfuel [] ()) hproof)⟩

omit [DecidableEq A] in
theorem base_or_concluded {a : A} (h : a ∈ splitModel rules F) :
    a ∈ F ∨ ∃ ρ ∈ rules, a ∈ ρ.conclusions := by
  refine leastClosed_subset (S := { a | a ∈ F ∨ ∃ ρ ∈ rules, a ∈ ρ.conclusions }) ?_ ?_ h
  · exact fun f hf => .inl hf
  · rintro i ⟨ρ, hρ, -, a, ha, rfl⟩ -
    exact .inr ⟨ρ, hρ, ha⟩

omit [DecidableEq A] in
theorem Goal.SplitTrue.trueIn {S T : Set A} (hTS : T ⊆ S) {c : Goal A} (hpos : c.Positive)
    (h : c.SplitTrue S T) : c.TrueIn S := by
  have part : ∀ {p : Goal A}, p.Positive → p.PartTrue S T → p.TrueIn S := by
    intro p hpos h
    cases p with
    | atom a => exact h
    | _ => exact h.imp hpos fun _ _ ha => hTS ha
  cases c with
  | and p q => exact ⟨part hpos.1 h.1, part hpos.2 h.2⟩
  | or p q => exact h.imp (part hpos.1) (part hpos.2)
  | atom a => exact h
  | _ => exact hpos.elim

omit [DecidableEq A] in
/-- A condition can be split once if the atoms nested in its parts are facts. -/
theorem Goal.TrueIn.split {S T : Set A} {c : Goal A} (hpos : c.Positive)
    (hnested : ∀ a ∈ c.nestedAtoms, a ∈ S → a ∈ T) (h : c.TrueIn S) : c.SplitTrue S T := by
  have part : ∀ {p : Goal A}, p ∈ c.parts → p.Positive → p.TrueIn S → p.PartTrue S T := by
    intro p hp hpos h
    cases p with
    | atom a => exact h
    | _ =>
      exact h.imp hpos fun a ha => hnested a (List.mem_flatMap.mpr ⟨_, hp, ha⟩)
  cases c with
  | and p q => exact ⟨part (by simp [parts]) hpos.1 h.1, part (by simp [parts]) hpos.2 h.2⟩
  | or p q => exact Or.imp (part (by simp [parts]) hpos.1) (part (by simp [parts]) hpos.2) h
  | atom a => exact h
  | _ => exact hpos.elim

omit [DecidableEq A] in
/-- The split model is the whole model if no rule is left out and no rule concludes an atom
    that is nested in a part of a condition. -/
theorem splitModel_eq (hchained : ∀ ρ ∈ rules, ρ.Chained)
    (hnested : ∀ ρ ∈ rules, ∀ a ∈ ρ.cond.nestedAtoms, ∀ ρ' ∈ rules, a ∉ ρ'.conclusions) :
    splitModel rules F = groundModel rules F := by
  refine eq_leastClosed (base_subset_leastClosed _ _) ?_ ?_
  · rintro i ⟨ρ, hρ, a, ha, rfl⟩ hpremise
    refine mem_splitModel hρ (hchained ρ hρ) ?_ ha
    refine Goal.TrueIn.split ρ.positive (fun b hb hmem => ?_) hpremise
    rcases base_or_concluded hmem with h | ⟨ρ', hρ', h⟩
    · exact h
    · exact absurd h (hnested ρ hρ b hb ρ' hρ')
  · refine leastClosed_subset (base_subset_leastClosed _ _) ?_
    rintro i ⟨ρ, hρ, -, a, ha, rfl⟩ hpremise
    refine (isLeast_leastClosed _ _).1.2 (ρ.inference a) ⟨ρ, hρ, a, ha, rfl⟩ ?_
    exact Goal.SplitTrue.trueIn (base_subset_leastClosed _ _) ρ.positive hpremise

/-- Backward chaining proves every atom that the rules derive with their conditions split once:
    every atom of the least set, if no rule is left out and what is nested in a part of a
    condition is concluded by no rule. -/
theorem backward_complete (rules : List (GroundRule A)) (hacyclic : Acyclic rules)
    (F : List A) :
    (∀ a ∈ splitModel rules F, Succeeds rules F (.atom a)) ∧
    ((∀ ρ ∈ rules, ρ.Chained) →
      (∀ ρ ∈ rules, ∀ a ∈ ρ.cond.nestedAtoms, ∀ ρ' ∈ rules, a ∉ ρ'.conclusions) →
      ∀ a ∈ groundModel rules F, Succeeds rules F (.atom a)) := by
  have hall : ∀ a ∈ splitModel rules F, Succeeds rules F (.atom a) :=
    fun a ha => (succeeds_iff hacyclic F a).mpr ha
  refine ⟨hall, fun hchained hnested a ha => hall a ?_⟩
  rw [splitModel_eq hchained hnested]
  exact ha

omit [DecidableEq A] in
theorem mem_groundModel {ρ : GroundRule A} (hρ : ρ ∈ rules)
    (h : ρ.cond.TrueIn (groundModel rules F)) {a : A} (ha : a ∈ ρ.conclusions) :
    a ∈ groundModel rules F :=
  (isLeast_leastClosed _ _).1.2 (ρ.inference a) ⟨ρ, hρ, a, ha, rfl⟩ h

/-- `if f then [assert_rtx(c)]`. -/
def firstRule : GroundRule String := ⟨"first", none, .atom "f", trivial, ["c"]⟩

/-- `if c and (a or b) then [assert_rtx(g)]`. -/
def secondRule : GroundRule String :=
  ⟨"second", none, .and (.atom "c") (.or (.atom "a") (.atom "b")), ⟨trivial, trivial, trivial⟩,
    ["g"]⟩

theorem backward_complete_chain :
    Succeeds [firstRule, secondRule] ["b", "f"] (.atom "g") := by
  have hacyclic : Acyclic [firstRule, secondRule] := by
    refine acyclic_of_rank (fun a => if a = "g" then 2 else if a = "c" then 1 else 0) ?_
    rintro a b ⟨ρ, hρ, ha, hb⟩
    rcases List.mem_pair.mp hρ with rfl | rfl
    · obtain rfl := List.mem_singleton.mp ha
      obtain rfl := List.mem_singleton.mp hb
      decide
    · obtain rfl := List.mem_singleton.mp ha
      revert b
      decide
  refine (backward_complete [firstRule, secondRule] hacyclic ["b", "f"]).2 ?_ (by decide)
    "g" ?_
  · intro ρ hρ
    rcases List.mem_pair.mp hρ with rfl | rfl <;> unfold GroundRule.Chained <;> decide
  · have hbase : ∀ x ∈ ["b", "f"], x ∈ groundModel [firstRule, secondRule] ["b", "f"] :=
      base_subset_leastClosed _ _
    have hc : "c" ∈ groundModel [firstRule, secondRule] ["b", "f"] :=
      mem_groundModel (ρ := firstRule) (by simp) (hbase "f" (by decide)) (by decide)
    exact mem_groundModel (ρ := secondRule) (by simp) ⟨hc, .inr (hbase "b" (by decide))⟩
      (by decide)

/-- `if a and (b and c) then [assert_rtx(g)]`. -/
def nestedRule : GroundRule String :=
  ⟨"nested", none, .and (.atom "a") (.and (.atom "b") (.atom "c")), ⟨trivial, trivial, trivial⟩,
    ["g"]⟩

/-- `if f then [assert_rtx(h)]`, under a name that is left out. -/
def leftOutRule : GroundRule String := ⟨"sequence_empty", none, .atom "f", trivial, ["h"]⟩

/-- From `a`, `b` and `f` the atoms `g` and `h` are derived, and backward chaining proves neither
    of them. -/
theorem derived_atoms_not_proved :
    Acyclic [firstRule, nestedRule, leftOutRule] ∧ ∀ x ∈ ["g", "h"],
      x ∈ groundModel [firstRule, nestedRule, leftOutRule] ["a", "b", "f"] ∧
        ¬ Succeeds [firstRule, nestedRule, leftOutRule] ["a", "b", "f"] (.atom x) := by
  have mem_rules : ∀ {ρ}, ρ ∈ [firstRule, nestedRule, leftOutRule] →
      ρ = firstRule ∨ ρ = nestedRule ∨ ρ = leftOutRule := by
    intro ρ hρ
    simpa only [List.mem_cons, List.not_mem_nil, or_false] using hρ
  constructor
  · refine acyclic_of_rank
      (fun a => if a = "g" ∨ a = "h" then 2 else if a = "c" then 1 else 0) ?_
    rintro a b ⟨ρ, hρ, ha, hb⟩
    rcases mem_rules hρ with rfl | rfl | rfl
    · obtain rfl := List.mem_singleton.mp ha
      obtain rfl := List.mem_singleton.mp hb
      decide
    · obtain rfl := List.mem_singleton.mp ha
      revert b
      decide
    · obtain rfl := List.mem_singleton.mp ha
      obtain rfl := List.mem_singleton.mp hb
      decide
  · have hbase : ∀ x ∈ ["a", "b", "f"],
        x ∈ groundModel [firstRule, nestedRule, leftOutRule] ["a", "b", "f"] :=
      base_subset_leastClosed _ _
    have hc : "c" ∈ groundModel [firstRule, nestedRule, leftOutRule] ["a", "b", "f"] :=
      mem_groundModel (ρ := firstRule) (by simp) (hbase "f" (by decide)) (by decide)
    have hsplit : splitModel [firstRule, nestedRule, leftOutRule] ["a", "b", "f"] ⊆
        { x | x ∈ ["a", "b", "f", "c"] } := by
      refine leastClosed_subset (fun x hx => List.mem_append_left ["c"] hx) ?_
      rintro i ⟨ρ, hρ, hchained, a, ha, rfl⟩ hpremise
      rcases mem_rules hρ with rfl | rfl | rfl
      · obtain rfl := List.mem_singleton.mp ha
        show "c" ∈ ["a", "b", "f", "c"]
        decide
      · exact absurd hpremise.2.2 (by decide : ¬ "c" ∈ ["a", "b", "f"])
      · exact absurd (.inr rfl) hchained
    have hnot : ∀ x ∉ ["a", "b", "f", "c"],
        ¬ Succeeds [firstRule, nestedRule, leftOutRule] ["a", "b", "f"] (.atom x) :=
      fun x hx h => hx (hsplit (mem_splitModel_of_succeeds h))
    intro x hx
    rcases List.mem_pair.mp hx with rfl | rfl
    · refine ⟨?_, hnot "g" (by decide)⟩
      exact mem_groundModel (ρ := nestedRule) (by simp)
        ⟨hbase "a" (by decide), hbase "b" (by decide), hc⟩ (by decide)
    · refine ⟨?_, hnot "h" (by decide)⟩
      exact mem_groundModel (ρ := leftOutRule) (by simp) (hbase "f" (by decide)) (by decide)

end SmartWarehouse.Kbase
