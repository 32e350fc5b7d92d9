/-
  Both engines of `RTXengine.pl` answer alike.

  `ask(forward, Facts, NewFacts)` and `ask(backward, Goal, Facts)` work on the same database, which
  every question empties first. With named acyclic rules over ground atoms whose conclusions are
  asserted by `assert_rtx`, forward chaining ends with the least set of the rules
  (`forward_ground`). So after any questions of both kinds a goal is proved from the facts exactly
  if it is one of them or one of the new facts (`engines_agree`).
-/
import SmartWarehouse.Kbase.Ask
import SmartWarehouse.Kbase.BackwardComplete

namespace SmartWarehouse.Kbase

open SmartWarehouse.Lib

variable {A E F D : Type}

/-! ## Questions -/

/-- `ask(backward, Goal, Facts)`: the answers, and the database after it. -/
def askBackward (T : Terms A E F) (B : Backward A E (Clauses F)) (rules : List (Rule A))
    (fuel : Nat) (goal : Goal A) (facts : List F) (d : Clauses F) :
    Search (Backward.Answer A E) × Clauses F :=
  match d.retractallRtx T with
  | (false, d') => (.fail, d')
  | (true, d') =>
    let d'' := facts.foldl (fun d f => d.add T f .assert_rtx) d'
    (B.backward rules d'' fuel goal, d'')

inductive Question (A F : Type) where
  | forward (facts : List F) (fuel : Nat)
  | backward (goal : Goal A) (facts : List F) (fuel : Nat)

/-- The database after questions, if each of them ends. -/
def askEach (T : Terms A E F) (B : Backward A E (Clauses F)) (rules : List (Rule A)) :
    List (Question A F) → Clauses F → Option (Clauses F)
  | [], d => some d
  | .forward facts fuel :: questions, d =>
    (ask T rules fuel facts d).bind fun r => askEach T B rules questions r.2
  | .backward goal facts fuel :: questions, d =>
    let r := askBackward T B rules fuel goal facts d
    if r.1.answers = [] ∧ r.1.ending = .timeout then none
    else askEach T B rules questions r.2

variable {T : Terms A E F} {B : Backward A E (Clauses F)}

theorem agrees_askBackward {rules : List (Rule A)} {fuel : Nat} {goal : Goal A} {facts : List F}
    {d : Clauses F} (h : d.Agrees) : (askBackward T B rules fuel goal facts d).2.Agrees := by
  have hfresh : (Clauses.fresh : Clauses F).Agrees := rfl
  unfold askBackward
  rw [retractallRtx_agrees h]
  exact agrees_load T facts hfresh

/-- Questions keep the facts mirrored. -/
theorem agrees_askEach {rules : List (Rule A)}
    (hrules : ∀ rule ∈ rules, ∀ c ∈ rule.picked.allConclusions, c.Mirrors)
    {questions : List (Question A F)} {d d' : Clauses F} (h : d.Agrees)
    (hasked : askEach T B rules questions d = some d') : d'.Agrees := by
  induction questions generalizing d with
  | nil =>
    obtain rfl := Option.some.inj hasked
    exact h
  | cons question questions ih =>
    cases question with
    | forward facts fuel =>
      obtain ⟨r, hask, hrest⟩ := Option.bind_eq_some_iff.mp hasked
      exact ih (agrees_ask hrules h hask) hrest
    | backward goal facts fuel =>
      rw [askEach] at hasked
      split at hasked
      · cases hasked
      · exact ih (agrees_askBackward h) hasked

/-! ## Ground atoms -/

/-- What Prolog says of ground atoms, whatever functors they have. -/
def groundTerms (A : Type) [DecidableEq A] (sameFunctor : A → A → Bool) : Terms A Unit A where
  empty := ()
  call d a _ := if a ∈ d.facts then .one () else .fail
  alike p _ q _ := decide (p = q)
  term a _ := some a
  unify a _ f := if a = f then some () else none
  unifies f g := decide (f = g)
  unifies_self _ := decide_eq_true rfl
  sameFunctor := sameFunctor

/-- Backward chaining over the facts of a database with a mirror. -/
def groundClauses (A : Type) [DecidableEq A] : Backward A Unit (Clauses A) where
  empty := ()
  call d a e := (groundAtoms A).call d.facts a e
  unify := (groundAtoms A).unify
  copy := (groundAtoms A).copy
  unify_not := (groundAtoms A).unify_not

/-- The answers of a condition depend on the calls of its atoms only. -/
theorem Prolog.solve_congr {D' : Type} {P : Prolog A E D} {P' : Prolog A E D'} {d : D} {d' : D'}
    (h : ∀ a e, P.call d a e = P'.call d' a e) (p : Goal A) (e : E) :
    P.solve d p e = P'.solve d' p e := by
  induction p generalizing e with
  | atom a => exact h a e
  | and p q ihp ihq => simp only [Prolog.solve, ihp, ihq]
  | or p q ihp ihq => simp only [Prolog.solve, ihp, ihq]
  | not p ih => simp only [Prolog.solve, ih]
  | true => rfl
  | false => rfl

variable [DecidableEq A] {sameFunctor : A → A → Bool}

theorem groundTerms_solve (d : Clauses A) (p : Goal A) (e : Unit) :
    (groundTerms A sameFunctor).production.solve d p e = (groundAtoms A).solve d.facts p e := by
  have hcall : ∀ a e, (groundTerms A sameFunctor).production.call d a e =
      (groundAtoms A).call d.facts a e := fun _ _ => rfl
  exact Prolog.solve_congr hcall p e

theorem groundClauses_solve (d : Clauses A) (p : Goal A) (e : Unit) :
    (groundClauses A).solve d p e = (groundAtoms A).solve d.facts p e := by
  have hcall : ∀ a e, (groundClauses A).call d a e = (groundAtoms A).call d.facts a e :=
    fun _ _ => rfl
  exact Prolog.solve_congr hcall p e

theorem groundClauses_testGoal (d : Clauses A) (goal : Goal A)
    (previous : List (FiredBecause A Unit)) (e : Unit) :
    (groundClauses A).testGoal d goal previous e =
      (groundAtoms A).testGoal d.facts goal previous e := by
  unfold Backward.testGoal Prolog.test Prolog.testNot
  simp only [groundClauses_solve]

/-- The mirror does not matter to backward chaining. -/
theorem groundClauses_backward2 (rules : List (Rule A)) (d : Clauses A) (fuel : Nat)
    (goal : Goal A) (previous : List (FiredBecause A Unit)) (e : Unit) :
    (groundClauses A).backward2 rules d fuel goal previous e =
      (groundAtoms A).backward2 rules d.facts fuel goal previous e := by
  induction fuel generalizing goal previous e with
  | zero => rfl
  | succ fuel ih =>
    have hrec : (groundClauses A).backward2 rules d fuel =
        (groundAtoms A).backward2 rules d.facts fuel := by
      funext goal previous e
      exact ih goal previous e
    rw [Backward.backward2, Backward.backward2, hrec, groundClauses_testGoal]
    rfl

/-! ## Forward chaining with ground rules -/

variable {rules : List (GroundRule A)}

/-- The instance of a ground rule. -/
def GroundRule.fired (ρ : GroundRule A) : Fired A Unit :=
  ⟨.ifBranch, ρ.name, ρ.cond, (), ρ.conclusions.map (.add .assert_rtx)⟩

omit [DecidableEq A] in
theorem ground_takes {r : PickedRule A} : Takes (rules.map GroundRule.toRule) r ↔
    ∃ ρ ∈ rules, ρ.name ≠ "not_named" ∧ ρ.toRule.picked = r := by
  rw [Takes, mem_ground_rules]
  constructor
  · rintro ⟨⟨ρ, hρ, rfl⟩, hnamed⟩
    exact ⟨ρ, hρ, hnamed, rfl⟩
  · rintro ⟨ρ, hρ, hnamed, rfl⟩
    exact ⟨⟨ρ, hρ, rfl⟩, hnamed⟩

theorem ground_admissible {ρ : GroundRule A} {d : Clauses A} {f : Fired A Unit} :
    Admissible (groundTerms A sameFunctor).production d ρ.toRule.picked f ↔
      ρ.cond.TrueIn { f | f ∈ d.facts } ∧ f = ρ.fired := by
  have hsolve : ∀ e, e ∈ ((groundTerms A sameFunctor).production.solve d ρ.cond e).answers ↔
      ρ.cond.TrueIn { f | f ∈ d.facts } := by
    intro e
    rw [groundTerms_solve]
    exact (ground_solve d.facts ρ.cond e).2
  constructor
  · intro h
    cases h with
    | ifBranch h => exact ⟨(hsolve _).mp h, rfl⟩
    | elseIfBranch hne _ _ => exact absurd rfl hne
    | elseBranch hne _ _ => exact absurd rfl hne
  · rintro ⟨h, rfl⟩
    exact .ifBranch ((hsolve ()).mpr h)

theorem ground_attempted {as : List A} {d d' : Clauses A} {e e' : Unit}
    (h : Attempted (groundTerms A sameFunctor).production d e (as.map (.add .assert_rtx)) e' d') :
    d'.facts = d.facts ++ as := by
  induction as generalizing d e with
  | nil =>
    cases h
    exact (List.append_nil _).symm
  | cons a as ih =>
    have hperform : ∀ d e, (groundTerms A sameFunctor).production.perform d (.add .assert_rtx a) e =
        (some e, ⟨d.facts ++ [a], d.rtx ++ [a]⟩) := fun _ _ => rfl
    cases h with
    | failed h _ =>
      rw [hperform] at h
      cases h
    | succeeded h hcs =>
      rw [hperform] at h
      obtain ⟨-, rfl⟩ := Prod.mk.inj h
      rw [ih hcs, List.append_assoc]
      rfl

omit [DecidableEq A] in
theorem ground_distinctNames (hnames : (rules.map GroundRule.name).Nodup) :
    DistinctNames (rules.map GroundRule.toRule) := by
  rw [DistinctNames, List.filterMap_map]
  have hsome : (rules.filterMap fun r => some r.name) = rules.map GroundRule.name := by
    rw [← List.filterMap_eq_map]
    rfl
  rw [show (rules.filterMap ((fun r => r.picked.attributes.name) ∘ GroundRule.toRule)) =
    rules.filterMap fun r => some r.name from rfl, hsome]
  exact hnames

/-- A run stays inside every set that is closed under the rules. -/
theorem ground_subset_closed {previous entries : List (Fired A Unit)} {d d' : Clauses A}
    (h : ValidRun (groundTerms A sameFunctor).production (rules.map GroundRule.toRule) previous d
      entries d') {S : Set A} (hd : { f | f ∈ d.facts } ⊆ S)
    (hS : ∀ ρ ∈ rules, ρ.cond.TrueIn S → ∀ a ∈ ρ.conclusions, a ∈ S) :
    { f | f ∈ d'.facts } ⊆ S := by
  induction h with
  | stop _ => exact hd
  | @fire previous entries d d₁ d' r f e hr hf _ _ hconclusions _ ih =>
    obtain ⟨ρ, hρ, -, rfl⟩ := ground_takes.mp hr
    obtain ⟨htrue, rfl⟩ := ground_admissible.mp hf
    refine ih fun a (ha : a ∈ d₁.facts) => ?_
    rw [ground_attempted hconclusions, List.mem_append] at ha
    rcases ha with ha | ha
    · exact hd ha
    · exact hS ρ hρ (htrue.imp ρ.positive fun _ _ hmem => hd hmem) a ha

/-- The record of a rule whose conclusions are facts. -/
def GroundRecorded (rules : List (GroundRule A)) (d : Clauses A) (f : Fired A Unit) : Prop :=
  ∃ ρ ∈ rules, f = ρ.fired ∧ ∀ a ∈ ρ.conclusions, a ∈ d.facts

/-- At the end of a run every rule whose condition is true is recorded, and no fact is lost. -/
theorem ground_recorded {previous entries : List (Fired A Unit)} {d d' : Clauses A}
    (h : ValidRun (groundTerms A sameFunctor).production (rules.map GroundRule.toRule) previous d
      entries d') (hprevious : ∀ f ∈ previous, GroundRecorded rules d f) :
    d.facts ⊆ d'.facts ∧ ∃ final, (∀ f ∈ final, GroundRecorded rules d' f) ∧
      ∀ r, Takes (rules.map GroundRule.toRule) r →
        AllFired (groundTerms A sameFunctor).production d' final r := by
  induction h with
  | stop h => exact ⟨List.Subset.refl _, _, hprevious, h⟩
  | @fire previous entries d d₁ d' r f e hr hf _ _ hconclusions _ ih =>
    obtain ⟨ρ, hρ, -, rfl⟩ := ground_takes.mp hr
    obtain ⟨-, rfl⟩ := ground_admissible.mp hf
    have hfacts := ground_attempted hconclusions
    have hgrow : d.facts ⊆ d₁.facts := by
      rw [hfacts]
      exact List.subset_append_left _ _
    obtain ⟨hsub, hfinal⟩ := ih fun f hf => by
      rcases List.mem_cons.mp hf with rfl | hf
      · refine ⟨ρ, hρ, rfl, fun a ha => ?_⟩
        rw [hfacts]
        exact List.mem_append_right _ ha
      · obtain ⟨ρ', hρ', rfl, hmem⟩ := hprevious f hf
        exact ⟨ρ', hρ', rfl, fun a ha => hgrow (hmem a ha)⟩
    exact ⟨List.Subset.trans hgrow hsub, hfinal⟩

/-- A rule fires once: records are told apart by their names and conditions. -/
def groundBounded (rules : List (GroundRule A)) (sameFunctor : A → A → Bool) :
    Bounded (groundTerms A sameFunctor).production (rules.map GroundRule.toRule)
      (Branch × String × Goal A) where
  invariant _ := True
  key f := (f.branch, f.name, f.condition)
  keys := rules.map fun ρ => (.ifBranch, ρ.name, ρ.cond)
  preserved _ _ _ _ := trivial
  key_mem := by
    intro d r f e d' _ hr hf _
    obtain ⟨ρ, hρ, -, rfl⟩ := ground_takes.mp hr
    obtain ⟨-, rfl⟩ := ground_admissible.mp hf
    exact List.mem_map.mpr ⟨ρ, hρ, rfl⟩
  key_new := by
    intro d r f e d' previous _ hr hf _ hnew hmem
    obtain ⟨ρ, hρ, -, rfl⟩ := ground_takes.mp hr
    obtain ⟨-, rfl⟩ := ground_admissible.mp hf
    obtain ⟨f', hf', hkey⟩ := List.mem_map.mp hmem
    obtain ⟨hbranch, hrest⟩ := Prod.mk.inj hkey
    obtain ⟨hname, hcond⟩ := Prod.mk.inj hrest
    have halike : (groundTerms A sameFunctor).production.alike ρ.fired.condition ρ.fired.bindings
        f'.condition f'.bindings = true := decide_eq_true hcond.symm
    have hfired : alreadyFired (groundTerms A sameFunctor).production previous ρ.fired = true := by
      refine List.any_eq_true.mpr ⟨f', hf', ?_⟩
      rw [decide_eq_true hbranch, decide_eq_true hname, halike, Bool.or_true]
      rfl
    rw [hfired] at hnew
    cases hnew

variable (sameFunctor) in
/-- Forward chaining with named ground rules terminates, and it ends with the least set of the
    rules. -/
theorem forward_ground (hnames : (rules.map GroundRule.name).Nodup)
    (hnamed : ∀ ρ ∈ rules, ρ.name ≠ "not_named") (d : Clauses A) :
    (∃ fuel r, forward (groundTerms A sameFunctor).production (rules.map GroundRule.toRule) fuel d =
      some r) ∧
    ∀ fuel fired d', forward (groundTerms A sameFunctor).production (rules.map GroundRule.toRule)
      fuel d = some (fired, d') → { f | f ∈ d'.facts } = groundModel rules d.facts := by
  have hdistinct := ground_distinctNames hnames
  constructor
  · obtain ⟨fuel, fired, d', hrun⟩ :=
      (groundBounded rules sameFunctor).forward_terminates hdistinct (d := d) trivial
    exact ⟨fuel, _, hrun⟩
  · intro fuel fired d' hrun
    have hvalid := forward_validRun hdistinct hrun
    obtain ⟨hgrow, final, hfinal, hall⟩ := ground_recorded hvalid fun f hf => by cases hf
    refine eq_leastClosed (fun f hf => hgrow hf) ?_ ?_
    · rintro i ⟨ρ, hρ, a, ha, rfl⟩ htrue
      have hfired := hall _ (ground_takes.mpr ⟨ρ, hρ, hnamed ρ hρ, rfl⟩) _
        (ground_admissible.mpr ⟨htrue, rfl⟩)
      obtain ⟨f, hf, hlike⟩ := List.any_eq_true.mp hfired
      obtain ⟨ρ', hρ', rfl, hmem⟩ := hfinal f hf
      rw [Bool.and_eq_true, Bool.and_eq_true] at hlike
      have hname : ρ'.name = ρ.name := of_decide_eq_true hlike.1.2
      obtain rfl := List.inj_on_of_nodup_map hnames hρ' hρ hname
      exact hmem a ha
    · exact ground_subset_closed hvalid (base_subset_leastClosed _ _) fun ρ hρ htrue a ha =>
        mem_groundModel hρ htrue ha

/-! ## The engines agree -/

omit [DecidableEq A] in
theorem ground_mirrors : ∀ rule ∈ rules.map GroundRule.toRule,
    ∀ c ∈ rule.picked.allConclusions, c.Mirrors := by
  intro rule hrule c hc
  obtain ⟨ρ, -, rfl⟩ := List.mem_map.mp hrule
  have hconclusions : ρ.toRule.picked.allConclusions = ρ.conclusions.map (.add .assert_rtx) :=
    List.append_nil _
  rw [hconclusions] at hc
  obtain ⟨a, -, rfl⟩ := List.mem_map.mp hc
  rfl

omit [DecidableEq A] in
theorem facts_load (facts : List F) (T : Terms A E F) (d : Clauses F) :
    (facts.foldl (fun d f => d.add T f .assert_rtx) d).facts = d.facts ++ facts := by
  induction facts generalizing d with
  | nil => exact (List.append_nil _).symm
  | cons f facts ih =>
    rw [List.foldl_cons, ih]
    show d.facts ++ [f] ++ facts = d.facts ++ f :: facts
    rw [List.append_assoc, List.singleton_append]

variable (sameFunctor) in
/-- What `ask(forward, ...)` returns. -/
theorem ask_ground (hnames : (rules.map GroundRule.name).Nodup)
    (hnamed : ∀ ρ ∈ rules, ρ.name ≠ "not_named") {d : Clauses A} (hd : d.Agrees) (facts : List A) :
    (∃ fuel r, ask (groundTerms A sameFunctor) (rules.map GroundRule.toRule) fuel facts d =
      some r) ∧
    ∀ fuel r, ask (groundTerms A sameFunctor) (rules.map GroundRule.toRule) fuel facts d = some r →
      ∃ new, r.1 = some new ∧ ∀ a, a ∈ facts ∨ a ∈ new ↔ a ∈ groundModel rules facts := by
  have hfresh : (Clauses.fresh : Clauses A).Agrees := rfl
  generalize hload : facts.foldl (fun d f => d.add (groundTerms A sameFunctor) f .assert_rtx)
    (Clauses.fresh : Clauses A) = start
  have hfacts : start.facts = facts := by
    rw [← hload, facts_load]
    rfl
  have hask : ∀ fuel, ask (groundTerms A sameFunctor) (rules.map GroundRule.toRule) fuel facts d =
      (forward (groundTerms A sameFunctor).production (rules.map GroundRule.toRule) fuel
        start).map fun r => (some (r.2.rtx.filter fun f =>
          !facts.any ((groundTerms A sameFunctor).unifies f)), r.2) := by
    intro fuel
    unfold ask
    rw [retractallRtx_agrees hd, ← hload]
  obtain ⟨⟨fuel, r, hrun⟩, hmodel⟩ := forward_ground sameFunctor hnames hnamed start
  constructor
  · exact ⟨fuel, _, by rw [hask, hrun]; rfl⟩
  · intro fuel r hr
    have hagrees := agrees_ask ground_mirrors hd hr
    rw [hask] at hr
    obtain ⟨⟨fired, d'⟩, hforward, rfl⟩ := Option.map_eq_some_iff.mp hr
    have hfinal := hmodel fuel fired d' hforward
    rw [hfacts] at hfinal
    refine ⟨_, rfl, fun a => ?_⟩
    have hmem : a ∈ d'.rtx ↔ a ∈ groundModel rules facts := by
      rw [← hfinal, ← show d'.facts = d'.rtx from hagrees]
      rfl
    have hgiven : (!facts.any ((groundTerms A sameFunctor).unifies a)) = true ↔ a ∉ facts := by
      rw [Bool.not_eq_true', List.any_eq_false]
      exact ⟨fun h hmem => h a hmem (decide_eq_true rfl),
        fun h f hf heq => h (of_decide_eq_true heq ▸ hf)⟩
    rw [List.mem_filter, hgiven, hmem]
    constructor
    · rintro (ha | ⟨ha, -⟩)
      · exact base_subset_leastClosed _ _ ha
      · exact ha
    · intro ha
      exact or_iff_not_imp_left.mpr fun hnot => ⟨ha, hnot⟩

variable (sameFunctor) in
/-- What `ask(backward, ...)` answers, with enough fuel. -/
theorem askBackward_ground (hacyclic : Acyclic rules) {d : Clauses A} (hd : d.Agrees)
    (facts : List A) (a : A) : ∃ depth, ∀ fuel ≥ depth,
      (askBackward (groundTerms A sameFunctor) (groundClauses A) (rules.map GroundRule.toRule) fuel
        (.atom a) facts d).1.ending = .exhausted ∧
      ((askBackward (groundTerms A sameFunctor) (groundClauses A) (rules.map GroundRule.toRule) fuel
        (.atom a) facts d).1.answers ≠ [] ↔ a ∈ splitModel rules facts) := by
  obtain ⟨depth, hdepth⟩ := Filter.eventually_atTop.mp (eventually_exhausts hacyclic facts a)
  refine ⟨depth, fun fuel hfuel => ?_⟩
  have hask : (askBackward (groundTerms A sameFunctor) (groundClauses A)
      (rules.map GroundRule.toRule) fuel (.atom a) facts d).1 =
      (groundAtoms A).backward (rules.map GroundRule.toRule) facts fuel (.atom a) := by
    unfold askBackward
    rw [retractallRtx_agrees hd]
    dsimp only
    unfold Backward.backward
    rw [groundClauses_backward2, facts_load]
    rfl
  have hex := hdepth fuel hfuel [] ()
  rw [hask]
  refine ⟨hex, fun h => mem_splitModel_of_succeeds ⟨fuel, h⟩, fun ha => ?_⟩
  obtain ⟨fired, hproof⟩ := proves_of_mem_splitModel ha
  exact List.ne_nil_of_mem (mem_backward2_of_proves hex hproof)

/-- After any questions, `ask(forward, ...)` ends with some fuel, and whenever it does, a goal is
    proved by `ask(backward, ...)` with enough fuel exactly if it is one of the facts given or of
    the new facts. -/
theorem engines_agree (sameFunctor : A → A → Bool) (rules : List (GroundRule A))
    (hnames : (rules.map GroundRule.name).Nodup) (hnamed : ∀ ρ ∈ rules, ρ.name ≠ "not_named")
    (hchained : ∀ ρ ∈ rules, ρ.Chained) (hacyclic : Acyclic rules)
    (hnested : ∀ ρ ∈ rules, ∀ a ∈ ρ.cond.nestedAtoms, ∀ ρ' ∈ rules, a ∉ ρ'.conclusions)
    {questions : List (Question A A)} {d : Clauses A}
    (hasked : askEach (groundTerms A sameFunctor) (groundClauses A) (rules.map GroundRule.toRule)
      questions .fresh = some d) (facts : List A) :
    (∃ fuel r, ask (groundTerms A sameFunctor) (rules.map GroundRule.toRule) fuel facts d =
      some r) ∧
    ∀ fuel r, ask (groundTerms A sameFunctor) (rules.map GroundRule.toRule) fuel facts d = some r →
      ∃ new, r.1 = some new ∧ ∀ a, ∃ depth, ∀ fuel' ≥ depth,
        (askBackward (groundTerms A sameFunctor) (groundClauses A) (rules.map GroundRule.toRule)
          fuel' (.atom a) facts d).1.ending = .exhausted ∧
        ((askBackward (groundTerms A sameFunctor) (groundClauses A) (rules.map GroundRule.toRule)
          fuel' (.atom a) facts d).1.answers ≠ [] ↔ a ∈ facts ∨ a ∈ new) := by
  have hfresh : (Clauses.fresh : Clauses A).Agrees := rfl
  have hd := agrees_askEach ground_mirrors hfresh hasked
  obtain ⟨hends, hnew⟩ := ask_ground sameFunctor hnames hnamed hd facts
  refine ⟨hends, fun fuel r hr => ?_⟩
  obtain ⟨new, hr1, hmodel⟩ := hnew fuel r hr
  refine ⟨new, hr1, fun a => ?_⟩
  obtain ⟨depth, hdepth⟩ := askBackward_ground sameFunctor hacyclic hd facts a
  refine ⟨depth, fun fuel' hfuel' => ?_⟩
  rw [hmodel a, ← splitModel_eq hchained hnested]
  exact hdepth fuel' hfuel'

theorem chain_acyclic : Acyclic [firstRule, secondRule] := by
  refine acyclic_of_rank (fun a => if a = "g" then 2 else if a = "c" then 1 else 0) ?_
  rintro a b ⟨ρ, hρ, ha, hb⟩
  rcases List.mem_pair.mp hρ with rfl | rfl
  · obtain rfl := List.mem_singleton.mp ha
    obtain rfl := List.mem_singleton.mp hb
    decide
  · obtain rfl := List.mem_singleton.mp ha
    revert b
    decide

/-- From `b` and `f` both engines get to `c` and `g`, also after a question about `g`. -/
theorem engines_agree_chain : ∃ depth, ∀ fuel ≥ depth, (askBackward
    (groundTerms String fun _ _ => false) (groundClauses String)
    ([firstRule, secondRule].map GroundRule.toRule) fuel (.atom "g") ["b", "f"]
    ⟨["a"], ["a"]⟩).1.answers ≠ [] := by
  have hasked : askEach (groundTerms String fun _ _ => false) (groundClauses String)
      ([firstRule, secondRule].map GroundRule.toRule) [.backward (.atom "g") ["a"] 3] .fresh =
      some ⟨["a"], ["a"]⟩ := by decide
  have hrun : ask (groundTerms String fun _ _ => false)
      ([firstRule, secondRule].map GroundRule.toRule) 3 ["b", "f"] ⟨["a"], ["a"]⟩ =
      some (some ["c", "g"], ⟨["b", "f", "c", "g"], ["b", "f", "c", "g"]⟩) := by decide
  obtain ⟨new, hnew, hagree⟩ := (engines_agree (fun _ _ => false) [firstRule, secondRule]
    (by decide) (by decide)
    (by intro ρ hρ; rcases List.mem_pair.mp hρ with rfl | rfl <;> unfold GroundRule.Chained <;>
      decide)
    chain_acyclic (by decide) hasked ["b", "f"]).2 3 _ hrun
  obtain ⟨depth, hdepth⟩ := hagree "g"
  refine ⟨depth, fun fuel hfuel => (hdepth fuel hfuel).2.mpr ?_⟩
  rw [← Option.some.inj hnew]
  decide

end SmartWarehouse.Kbase
