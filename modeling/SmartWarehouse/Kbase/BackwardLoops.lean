/-
  When backward chaining with positive ground rules over declared predicates ends.

  `backward_2/3` keeps a list of the rules it has used and never looks at it, so a goal whose
  proof calls the goal again is searched for without end. `Calls` says which atoms the search for
  an atom searches for next: the second part of a conjunction only if the first has an answer.
  The search is finite exactly if none of the atoms it gets to calls itself again
  (`backward_finite_iff`); nothing else bounds it.
-/
import SmartWarehouse.Kbase.BackwardComplete

namespace SmartWarehouse.Kbase

open SmartWarehouse.Lib

variable {A : Type}

/-! ## Calls -/

/-- The condition is searched for by searching for the atom: both parts of a disjunction, and the
    second part of a conjunction after an answer of the first. -/
def Goal.CallsAtom (S F : Set A) : Goal A → A → Prop
  | .and p q, b => p = .atom b ∨ (p.PartTrue S F ∧ q = .atom b)
  | .or p q, b => p = .atom b ∨ q = .atom b
  | p, b => p = .atom b

/-- The search for `a` searches for `b` as a part of the condition of a rule. -/
def Calls (rules : List (GroundRule A)) (F : List A) (a b : A) : Prop :=
  ∃ ρ ∈ rules, ρ.Chained ∧ a ∈ ρ.conclusions ∧
    ρ.cond.CallsAtom (splitModel rules F) { f | f ∈ F } b

/-- The search for the goal gets to an atom whose search calls it again. -/
def CallsInCircle (rules : List (GroundRule A)) (F : List A) (goal : Goal A) : Prop :=
  ∃ a b, goal = .atom a ∧ Relation.ReflTransGen (Calls rules F) a b ∧
    Relation.TransGen (Calls rules F) b b

variable [DecidableEq A] {rules : List (GroundRule A)} {F : List A}

/-- The complete search for `backward(Goal)` ends. -/
def Terminates (rules : List (GroundRule A)) (F : List A) (goal : Goal A) : Prop :=
  ∃ fuel, ((groundAtoms A).backward (rules.map GroundRule.toRule) F fuel goal).ending = .exhausted

/-- With this fuel the search for a goal is exhausted after some fired rules. -/
def ExhaustsOnce (rules : List (GroundRule A)) (F : List A) (fuel : Nat) (goal : Goal A) : Prop :=
  ∃ previous e, ((groundAtoms A).backward2 (rules.map GroundRule.toRule) F fuel goal previous
    e).ending = .exhausted

/-! ## A finite search calls finite searches -/

/-- What is true of a part of a condition has a proof. -/
theorem proves_of_partTrue {p : Goal A} (h : p.PartTrue (splitModel rules F) { f | f ∈ F }) :
    ∃ fired, Proves (groundAtoms A) (rules.map GroundRule.toRule) F p () () fired := by
  cases p with
  | atom a => exact proves_of_mem_splitModel h
  | _ => exact ⟨[], .tested (ground_tested.mpr h)⟩

theorem exhaustsOnce_of_condition {fuel : Nat} {c : Goal A} {previous : List (FiredBecause A Unit)}
    {e : Unit} {b : A}
    (h : (backwardCondition ((groundAtoms A).backward2 (rules.map GroundRule.toRule) F fuel) c
      previous e).ending = .exhausted)
    (hb : c.CallsAtom (splitModel rules F) { f | f ∈ F } b) :
    ExhaustsOnce rules F fuel (.atom b) := by
  cases c with
  | and p q =>
    obtain ⟨hq, hp⟩ := Search.bind_exhausted.mp h
    rcases hb with rfl | ⟨htrue, rfl⟩
    · exact ⟨_, _, hp⟩
    · -- an answer of the first part leads to the second
      obtain ⟨fired, hproof⟩ := proves_of_partTrue htrue
      exact ⟨_, _, hq _ (mem_backward2_of_proves hp hproof)⟩
  | or p q =>
    obtain ⟨hp, hq⟩ := Search.append_exhausted.mp h
    rcases hb with rfl | rfl
    · exact ⟨_, _, hp⟩
    · exact ⟨_, _, hq⟩
  | atom a =>
    obtain rfl : a = b := Goal.atom.inj hb
    exact ⟨_, _, h⟩
  | not p => cases hb
  | true => cases hb
  | false => cases hb

/-- A search that is exhausted calls searches that are exhausted with less fuel. -/
theorem ExhaustsOnce.of_calls {fuel : Nat} {a b : A} (h : ExhaustsOnce rules F fuel (.atom a))
    (hab : Calls rules F a b) : ∃ less < fuel, ExhaustsOnce rules F less (.atom b) := by
  obtain ⟨previous, e, h⟩ := h
  obtain ⟨ρ, hρ, hchained, ha, hb⟩ := hab
  cases fuel with
  | zero => cases h
  | succ fuel =>
    have hr := mem_ground_rules.mpr ⟨ρ, hρ, rfl⟩
    have hx : (groundAtoms A).select (.atom a) ρ.toRule.picked e =
        some ⟨.ifBranch, ρ.toRule.picked, .atom a, ρ.cond, ()⟩ :=
      ground_select.mpr ⟨hchained, ⟨a, ha, rfl⟩, rfl⟩
    exact ⟨fuel, Nat.lt_succ_self fuel,
      exhaustsOnce_of_condition (exhausted_condition h hr hx).1 hb⟩

theorem ExhaustsOnce.of_transGen {fuel : Nat} {a b : A} (h : ExhaustsOnce rules F fuel (.atom a))
    (hab : Relation.TransGen (Calls rules F) a b) :
    ∃ less < fuel, ExhaustsOnce rules F less (.atom b) := by
  induction hab with
  | single hab => exact h.of_calls hab
  | tail _ hbc ih =>
    obtain ⟨less, hless, hb⟩ := ih
    obtain ⟨less', hless', hc⟩ := hb.of_calls hbc
    exact ⟨less', hless'.trans hless, hc⟩

/-- By induction on the fuel: one round of the circle takes some of it. -/
theorem not_exhaustsOnce_of_circle {b : A} (hb : Relation.TransGen (Calls rules F) b b)
    (fuel : Nat) : ¬ ExhaustsOnce rules F fuel (.atom b) := by
  induction fuel using Nat.strongRecOn with
  | ind fuel ih =>
    intro h
    obtain ⟨less, hless, hagain⟩ := h.of_transGen hb
    exact ih less hless hagain

/-! ## A search without circles is finite -/

/-- The search for a condition is exhausted if the searches for the parts it calls are. -/
theorem backwardCondition_exhausted_of_calls {fuel : Nat} (hfuel : 0 < fuel) {c : Goal A}
    (hpos : c.Positive)
    (h : ∀ b, c.CallsAtom (splitModel rules F) { f | f ∈ F } b → Exhausts rules F fuel (.atom b))
    (previous : List (FiredBecause A Unit)) (e : Unit) :
    (backwardCondition ((groundAtoms A).backward2 (rules.map GroundRule.toRule) F fuel) c
      previous e).ending = .exhausted := by
  -- a part that is no atom is only tested
  have hpart : ∀ p : Goal A, (∀ b, p = .atom b → Exhausts rules F fuel (.atom b)) →
      Exhausts rules F fuel p := by
    intro p hp
    by_cases hatom : ∃ b, p = .atom b
    · obtain ⟨b, rfl⟩ := hatom
      exact hp b rfl
    · obtain ⟨n, rfl⟩ := Nat.exists_eq_succ_of_ne_zero (Nat.pos_iff_ne_zero.mp hfuel)
      exact exhausts_succ fun _ _ hgoal => absurd hgoal fun ⟨b, _, hb⟩ => hatom ⟨b, hb⟩
  cases c with
  | and p q =>
    refine Search.bind_exhausted.mpr ⟨?_, hpart p (fun b hb => h b (.inl hb)) previous e⟩
    intro r hr
    obtain ⟨fired, -, hproof⟩ := proves_of_mem_backward2 hr
    have htrue := partTrue_of_proves hproof
    exact hpart q (fun b hb => h b (.inr ⟨htrue, hb⟩)) r.2 r.1
  | or p q =>
    exact Search.append_exhausted.mpr ⟨hpart p (fun b hb => h b (.inl hb)) previous e,
      hpart q (fun b hb => h b (.inr hb)) previous e⟩
  | atom a => exact h a rfl previous e
  | not p => exact hpos.elim
  | true => exact hpos.elim
  | false => exact hpos.elim

/-- One step of depth. -/
theorem exhausts_of_calls {fuel : Nat} (hfuel : 0 < fuel) {a : A}
    (h : ∀ b, Calls rules F a b → Exhausts rules F fuel (.atom b)) :
    Exhausts rules F (fuel + 1) (.atom a) := by
  intro previous e
  rw [Backward.backward2, Search.append_exhausted]
  refine ⟨?_, ground_testGoal_exhausted _ previous e⟩
  refine Search.bind_exhausted.mpr ⟨fun r hr => ?_, rfl⟩
  obtain ⟨ρ, hρ, rfl⟩ := mem_ground_rules.mp hr
  rcases hx : (groundAtoms A).select (.atom a) ρ.toRule.picked e with _ | x
  · rfl
  · obtain ⟨hchained, ⟨a', ha, heq⟩, rfl⟩ := ground_select.mp hx
    obtain rfl : a = a' := Goal.atom.inj heq
    exact backwardCondition_exhausted_of_calls hfuel ρ.positive
      (fun b hb => h b ⟨ρ, hρ, hchained, ha, hb⟩) _ _

omit [DecidableEq A] in
theorem mem_atoms_of_callsAtom {S T : Set A} {c : Goal A} {b : A} (h : c.CallsAtom S T b) :
    b ∈ c.atoms := by
  cases c with
  | and p q =>
    rcases h with rfl | ⟨-, rfl⟩
    · exact List.mem_append_left _ (List.mem_singleton_self b)
    · exact List.mem_append_right _ (List.mem_singleton_self b)
  | or p q =>
    rcases h with rfl | rfl
    · exact List.mem_append_left _ (List.mem_singleton_self b)
    · exact List.mem_append_right _ (List.mem_singleton_self b)
  | atom a =>
    obtain rfl : a = b := Goal.atom.inj h
    exact List.mem_singleton_self a
  | not p => cases h
  | true => cases h
  | false => cases h

omit [DecidableEq A] in
theorem finite_calls (rules : List (GroundRule A)) (F : List A) (a : A) :
    { b | Calls rules F a b }.Finite := by
  refine (List.finite_toSet (rules.flatMap fun ρ => ρ.cond.atoms)).subset ?_
  rintro b ⟨ρ, hρ, -, -, hb⟩
  exact List.mem_flatMap.mpr ⟨ρ, hρ, mem_atoms_of_callsAtom hb⟩

omit [DecidableEq A] in
/-- The calls below an atom that gets to no circle are well-founded. -/
theorem wellFounded_calls {a : A}
    (h : ∀ b, Relation.ReflTransGen (Calls rules F) a b →
      ¬ Relation.TransGen (Calls rules F) b b) :
    WellFounded (flip fun b c => Relation.ReflTransGen (Calls rules F) a b ∧
      Calls rules F b c) := by
  refine wellFounded_of_acyclic
    (List.finite_toSet (rules.flatMap GroundRule.conclusions)) ?_ ?_
  · rintro b c ⟨-, ρ, hρ, -, hb, -⟩
    exact List.mem_flatMap.mpr ⟨ρ, hρ, hb⟩
  · intro b hb
    have hreach : Relation.ReflTransGen (Calls rules F) a b := by
      obtain ⟨c, hstep, -⟩ := Relation.TransGen.head'_iff.mp hb
      exact hstep.1
    have hsub : ∀ x y, Relation.ReflTransGen (Calls rules F) a x ∧ Calls rules F x y →
        Calls rules F x y := fun _ _ hstep => hstep.2
    exact h b hreach (Relation.TransGen.mono hsub b b hb)

/-- Enough fuel exhausts the search for an atom that gets to no circle: by induction on what it
    calls. -/
theorem eventually_exhausts_of_no_circle {a : A}
    (h : ∀ b, Relation.ReflTransGen (Calls rules F) a b →
      ¬ Relation.TransGen (Calls rules F) b b) :
    ∀ᶠ fuel in Filter.atTop, Exhausts rules F fuel (.atom a) := by
  have hreach : ∀ b, Relation.ReflTransGen (Calls rules F) a b →
      ∀ᶠ fuel in Filter.atTop, Exhausts rules F fuel (.atom b) := by
    intro b
    induction b using (wellFounded_calls h).induction with
    | _ b ih =>
      intro hb
      have hall : ∀ᶠ fuel in Filter.atTop, ∀ c ∈ { c | Calls rules F b c },
          Exhausts rules F fuel (.atom c) := by
        refine (Filter.eventually_all_finite (finite_calls rules F b)).mpr ?_
        intro c hc
        exact ih c ⟨hb, hc⟩ (hb.tail hc)
      filter_upwards [(Filter.tendsto_sub_atTop_nat 1).eventually hall,
        Filter.eventually_ge_atTop 2] with fuel hfuel htwo
      obtain ⟨n, rfl⟩ := Nat.exists_eq_add_of_le' (show 1 ≤ fuel by omega)
      exact exhausts_of_calls (by omega) hfuel
  exact hreach a .refl

/-! ## Finite searches -/

/-- The search for any goal but an atom is over after its test. -/
theorem terminates_of_not_atom {goal : Goal A} (h : ∀ a, goal ≠ .atom a) :
    Terminates rules F goal := by
  refine ⟨1, ?_⟩
  exact exhausts_succ (fun _ _ hgoal => absurd hgoal fun ⟨a, _, ha⟩ => h a ha) [] ()

/-- The complete search for a goal is finite exactly if it gets to no atom that calls itself
    again. -/
theorem backward_finite_iff (rules : List (GroundRule A)) (F : List A) (goal : Goal A) :
    Terminates rules F goal ↔ ¬ CallsInCircle rules F goal := by
  constructor
  · rintro ⟨fuel, hfuel⟩ ⟨a, b, rfl, hreach, hcircle⟩
    have ha : ExhaustsOnce rules F fuel (.atom a) := ⟨[], (), hfuel⟩
    rcases Relation.reflTransGen_iff_eq_or_transGen.mp hreach with rfl | hab
    · exact not_exhaustsOnce_of_circle hcircle fuel ha
    · obtain ⟨less, -, hb⟩ := ha.of_transGen hab
      exact not_exhaustsOnce_of_circle hcircle less hb
  · intro h
    by_cases hatom : ∃ a, goal = .atom a
    · obtain ⟨a, rfl⟩ := hatom
      have hno : ∀ b, Relation.ReflTransGen (Calls rules F) a b →
          ¬ Relation.TransGen (Calls rules F) b b := by
        intro b hab hb
        exact h ⟨a, b, rfl, hab, hb⟩
      obtain ⟨fuel, hfuel⟩ := (eventually_exhausts_of_no_circle hno).exists
      exact ⟨fuel, hfuel [] ()⟩
    · exact terminates_of_not_atom fun a ha => hatom ⟨a, ha⟩

/-- The search never ends and never has an answer. -/
def Loops (rules : List (GroundRule A)) (F : List A) (goal : Goal A) : Prop :=
  ∀ fuel, (groundAtoms A).backward (rules.map GroundRule.toRule) F fuel goal = .timeout

/-- `if b then [assert_rtx(a)]` and `if a then [assert_rtx(b)]`. -/
def eachOther : List (GroundRule String) :=
  [⟨"from_b", none, .atom "b", trivial, ["a"]⟩, ⟨"from_a", none, .atom "a", trivial, ["b"]⟩]

theorem append_timeout {X : Type} (s : Search X) : Search.timeout.append s = .timeout := rfl

/-- A search runs out of fuel with the first branch that is selected. -/
theorem backward2_timeout {rules : List (Rule A)} {fuel : Nat} {goal : Goal A}
    {previous : List (FiredBecause A Unit)} {e : Unit} {r : PickedRule A}
    {pre post : List (PickedRule A)} {x : FiredBecause A Unit}
    (hrules : pickARule rules = pre ++ r :: post)
    (hpre : ∀ r' ∈ pre, (groundAtoms A).select goal r' e = none)
    (hx : (groundAtoms A).select goal r e = some x)
    (hcond : backwardCondition ((groundAtoms A).backward2 rules F fuel) x.because (x :: previous)
      x.bindings = .timeout) :
    (groundAtoms A).backward2 rules F (fuel + 1) goal previous e = .timeout := by
  rw [Backward.backward2, hrules]
  unfold Search.concat Search.bind
  clear hrules
  induction pre with
  | nil =>
    rw [Search.answers_ofList, List.nil_append, Search.bindFrom]
    simp only [hx, hcond, append_timeout]
  | cons r' pre ih =>
    have hr' := hpre r' List.mem_cons_self
    rw [Search.answers_ofList, List.cons_append, Search.bindFrom]
    simp only [hr']
    exact ih fun r'' hr'' => hpre r'' (List.mem_cons_of_mem _ hr'')

/-- The search for either atom starts with the search for the other. -/
theorem backward2_eachOther (F : List String) (fuel : Nat)
    (previous : List (FiredBecause String Unit)) (e : Unit) :
    (groundAtoms String).backward2 (eachOther.map GroundRule.toRule) F fuel (.atom "a") previous
        e = .timeout ∧
      (groundAtoms String).backward2 (eachOther.map GroundRule.toRule) F fuel (.atom "b") previous
        e = .timeout := by
  induction fuel generalizing previous e with
  | zero => exact ⟨rfl, rfl⟩
  | succ fuel ih =>
    constructor
    · exact backward2_timeout (show pickARule _ = [] ++ _ :: _ from rfl)
        (fun _ hr => by cases hr) rfl (ih _ _).2
    · refine backward2_timeout (show pickARule _ = [_] ++ _ :: _ from rfl) ?_ rfl (ih _ _).1
      intro r hr
      rw [List.mem_singleton.mp hr]
      rfl

/-- Even the fact `a` is not found: the rules are tried first. -/
theorem mutual_rules_loop : Loops eachOther ["a"] (.atom "a") := by
  intro fuel
  exact (backward2_eachOther ["a"] fuel [] ()).1

end SmartWarehouse.Kbase
