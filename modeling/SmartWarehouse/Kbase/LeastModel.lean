/-
  Forward chaining and the least model.

  A `DatalogRule` is a named if-then rule with a positive, function-free condition over declared
  predicates whose conclusions assert atoms over variables that every disjunct of the condition
  binds. From any ground facts, forward chaining with such rules terminates, all it derives is in
  the least model, and the facts at the end are closed under every rule whose disjunctions are
  committed safely (`forward_computes_least_model`). Without that proviso a derivable fact can be
  missing (`either_conclusion_missing`).
-/
import SmartWarehouse.Kbase.ForwardRuns
import SmartWarehouse.Lib.Closure
import Mathlib.Data.List.Sections

namespace SmartWarehouse.Kbase

open SmartWarehouse.Lib

variable {V : Type} [DecidableEq V]

/-! ## Rules and their least model -/

structure DatalogRule (V : Type) [DecidableEq V] where
  name : String
  named : name ≠ "not_named"
  priority : Option Int
  cond : Goal (Atom V)
  positive : cond.Positive
  conclusions : List (Atom V)
  safe : ∀ a ∈ conclusions, ∀ x ∈ a.vars, x ∈ cond.sure

/-- The rule `if Cond then [assert_rtx(Conclusion), ...]`. -/
def DatalogRule.toRule (r : DatalogRule V) : Rule (Atom V) :=
  .ifThen ⟨some r.name, r.priority⟩ r.cond (r.conclusions.map (.add .assert_rtx))

/-- The variables of the conclusions are the ones that matter outside the condition. -/
def DatalogRule.Committed (r : DatalogRule V) : Prop :=
  r.cond.Committed (r.conclusions.flatMap Atom.vars) []

omit [DecidableEq V] in
theorem Goal.holds_mono {S T : Set (Fact V)} (hST : S ⊆ T) {σ : Nat → V}
    {goal : Goal (Atom V)} (hpos : goal.Positive) (h : goal.Holds S σ) : goal.Holds T σ := by
  induction goal with
  | atom a => exact hST h
  | and p q ihp ihq => exact ⟨ihp hpos.1 h.1, ihq hpos.2 h.2⟩
  | or p q ihp ihq =>
    rcases h with h | h
    · exact .inl (ihp hpos.1 h)
    · exact .inr (ihq hpos.2 h)
  | not p => exact hpos.elim
  | true => exact hpos.elim
  | false => exact hpos.elim

/-- The instance of a rule under `σ`, with one of its conclusions. -/
def DatalogRule.inference (r : DatalogRule V) (σ : Nat → V) (a : Atom V) :
    Inference (Fact V) where
  premise S := r.cond.Holds S σ
  conclusion := a.eval σ
  mono hST h := Goal.holds_mono hST r.positive h

def inferences (rules : List (DatalogRule V)) : Set (Inference (Fact V)) :=
  { i | ∃ r ∈ rules, ∃ σ, ∃ a ∈ r.conclusions, r.inference σ a = i }

/-- The least set with the facts `F` that is closed under all instances of the rules. -/
def leastModel (rules : List (DatalogRule V)) (F : List (Fact V)) : Set (Fact V) :=
  leastClosed (inferences rules) { f | f ∈ F }

/-! ## Firing a rule -/

omit [DecidableEq V] in
theorem Atom.ground_eq {a : Atom V} {β : Bindings V} (hbound : ∀ x ∈ a.vars, (β x).isSome)
    {σ : Nat → V} (hσ : Agrees σ β) : a.ground β = some (a.eval σ) := by
  have hargs : ∀ args : List (Arg V), (∀ x ∈ args.flatMap Arg.vars, (β x).isSome) →
      args.mapM (Arg.value β) = some (args.map (Arg.eval σ)) := by
    intro args
    induction args with
    | nil => intro _; rfl
    | cons b bs ih =>
      intro hb
      have hvalue : b.value β = some (b.eval σ) := by
        cases b with
        | val v => rfl
        | var x =>
          obtain ⟨v, hv⟩ := Option.isSome_iff_exists.mp (hb x (by simp [Arg.vars]))
          rw [Arg.value, Arg.eval, hv, hσ x v hv]
      rw [List.mapM_cons, hvalue, ih fun x hx => hb x (by simp [hx])]
      rfl
  rw [Atom.ground, hargs a.args hbound]
  rfl

/-- Performing the conclusions of a rule adds their instances. -/
theorem attempted_assert {as : List (Atom V)} {d d' : Database V} {β e : Bindings V}
    (h : Attempted factBase d β (as.map (.add .assert_rtx)) e d')
    (hbound : ∀ a ∈ as, ∀ x ∈ a.vars, (β x).isSome) {σ : Nat → V} (hσ : Agrees σ β) :
    e = β ∧ d'.facts = d.facts ++ as.map (Atom.eval σ) := by
  induction as generalizing d with
  | nil =>
    cases h
    exact ⟨rfl, by simp⟩
  | cons a as ih =>
    have hperform : performFact d (.add .assert_rtx a) β =
        (some β, d.add (a.eval σ) .assert_rtx) := by
      rw [performFact, Atom.ground_eq (hbound a (by simp)) hσ]
    cases h with
    | failed h _ =>
      rw [show factBase.perform = performFact from rfl, hperform] at h
      cases h
    | succeeded h hcs =>
      rw [show factBase.perform = performFact from rfl, hperform] at h
      obtain ⟨rfl, rfl⟩ : β = _ ∧ d.add (a.eval σ) .assert_rtx = _ := by simpa using h
      obtain ⟨rfl, hfacts⟩ := ih hcs fun b hb => hbound b (by simp [hb])
      refine ⟨rfl, ?_⟩
      rw [hfacts, Database.add]
      simp

/-! ## Runs -/

variable {rules : List (DatalogRule V)}

theorem takes_iff {r : PickedRule (Atom V)} :
    Takes (rules.map DatalogRule.toRule) r ↔ ∃ ρ ∈ rules, r = ρ.toRule.picked := by
  rw [Takes, mem_pickARule]
  constructor
  · rintro ⟨⟨r', hr', rfl⟩, -⟩
    obtain ⟨ρ, hρ, rfl⟩ := List.mem_map.mp hr'
    exact ⟨ρ, hρ, rfl⟩
  · rintro ⟨ρ, hρ, rfl⟩
    exact ⟨⟨ρ.toRule, List.mem_map_of_mem hρ, rfl⟩, ρ.named⟩

/-- The instance of a rule with bindings `β`. -/
def DatalogRule.instanceOf (ρ : DatalogRule V) (β : Bindings V) : Fired (Atom V) (Bindings V) :=
  ⟨.ifBranch, ρ.name, ρ.cond, β, ρ.conclusions.map (.add .assert_rtx)⟩

/-- The admissible instances of a rule are the answers of its condition. -/
theorem admissible_iff {ρ : DatalogRule V} {d : Database V}
    {f : Fired (Atom V) (Bindings V)} :
    Admissible factBase d ρ.toRule.picked f ↔
      ∃ β ∈ (factBase.solve d ρ.cond factBase.empty).answers, f = ρ.instanceOf β := by
  constructor
  · intro h
    cases h with
    | ifBranch h => exact ⟨_, h, rfl⟩
    | elseIfBranch hne _ _ => exact absurd rfl hne
    | elseBranch hne _ _ => exact absurd rfl hne
  · rintro ⟨β, h, rfl⟩
    exact .ifBranch h

variable [Inhabited V]

/-- A valuation with the values of the bindings. -/
def valuation (β : Bindings V) (x : Nat) : V := (β x).getD default

omit [DecidableEq V] in
theorem agrees_valuation (β : Bindings V) : Agrees (valuation β) β :=
  fun x v hx => by rw [valuation, hx]; rfl

/-- What firing an instance from an answer `β` does: it records `β` and adds the conclusions
    under any valuation that agrees with `β`. -/
theorem fired_instance {ρ : DatalogRule V} {d d' : Database V} {β e : Bindings V}
    (hβ : β ∈ (factBase.solve d ρ.cond factBase.empty).answers)
    (h : Attempted factBase d β (ρ.conclusions.map (.add .assert_rtx)) e d') :
    β = e ∧ ∀ σ, Agrees σ β → d'.facts = d.facts ++ ρ.conclusions.map (Atom.eval σ) := by
  have s := solved_of_mem_solve ρ.positive hβ
  have hbound : ∀ a ∈ ρ.conclusions, ∀ x ∈ a.vars, (β x).isSome :=
    fun a ha x hx => s.bound x (ρ.safe a ha x hx)
  exact ⟨(attempted_assert h hbound (agrees_valuation β)).1.symm,
    fun σ hσ => (attempted_assert h hbound hσ).2⟩

/-- Soundness: a run stays inside every closed set that it starts in. -/
theorem ValidRun.subset_closed {previous entries : List (Fired (Atom V) (Bindings V))}
    {d d' : Database V}
    (h : ValidRun factBase (rules.map DatalogRule.toRule) previous d entries d')
    {S : Set (Fact V)} (hd : { f | f ∈ d.facts } ⊆ S) (hS : ClosedUnder (inferences rules) S) :
    { f | f ∈ d'.facts } ⊆ S := by
  induction h with
  | stop h => exact hd
  | @fire previous entries d d₁ d' r f e hr hf _ _ hconclusions _ ih =>
    obtain ⟨ρ, hρ, rfl⟩ := takes_iff.mp hr
    obtain ⟨β, hβ, rfl⟩ := admissible_iff.mp hf
    obtain ⟨rfl, hfacts⟩ := fired_instance hβ hconclusions
    refine ih fun f (hf : f ∈ d₁.facts) => ?_
    have hσ := agrees_valuation β
    rw [hfacts _ hσ, List.mem_append, List.mem_map] at hf
    rcases hf with hf | ⟨a, ha, rfl⟩
    · exact hd hf
    · have hholds := (solved_of_mem_solve ρ.positive hβ).holds _ hσ
      exact hS _ ⟨ρ, hρ, _, a, ha, rfl⟩ (Goal.holds_mono hd ρ.positive hholds)

/-- A record of an earlier firing: its bindings reach the conclusions, whose instances are
    facts. -/
def Recorded (rules : List (DatalogRule V)) (d : Database V)
    (f : Fired (Atom V) (Bindings V)) : Prop :=
  ∃ ρ ∈ rules, ∃ β, f = ρ.instanceOf β ∧ (∀ x ∈ ρ.cond.sure, (β x).isSome) ∧
    ∀ σ, Agrees σ β → ∀ a ∈ ρ.conclusions, a.eval σ ∈ d.facts

omit [Inhabited V] in
theorem Recorded.mono {d d' : Database V} (hd : d.facts ⊆ d'.facts)
    {f : Fired (Atom V) (Bindings V)} (h : Recorded rules d f) : Recorded rules d' f := by
  obtain ⟨ρ, hρ, β, hf, hbound, hfacts⟩ := h
  exact ⟨ρ, hρ, β, hf, hbound, fun σ hσ a ha => hd (hfacts σ hσ a ha)⟩

/-- At the end of a run every admissible instance unifies with a record, and no fact is lost. -/
theorem ValidRun.recorded {previous entries : List (Fired (Atom V) (Bindings V))}
    {d d' : Database V}
    (h : ValidRun factBase (rules.map DatalogRule.toRule) previous d entries d')
    (hprevious : ∀ f ∈ previous, Recorded rules d f) :
    d.facts ⊆ d'.facts ∧ ∃ final, (∀ f ∈ final, Recorded rules d' f) ∧
      ∀ r, Takes (rules.map DatalogRule.toRule) r → AllFired factBase d' final r := by
  induction h with
  | stop h => exact ⟨fun _ h => h, _, hprevious, h⟩
  | @fire previous entries d d₁ d' r f e hr hf _ _ hconclusions _ ih =>
    obtain ⟨ρ, hρ, rfl⟩ := takes_iff.mp hr
    obtain ⟨β, hβ, rfl⟩ := admissible_iff.mp hf
    obtain ⟨rfl, hfacts⟩ := fired_instance hβ hconclusions
    have hgrow : d.facts ⊆ d₁.facts := by
      rw [hfacts _ (agrees_valuation β)]
      exact List.subset_append_left _ _
    obtain ⟨hsub, hfinal⟩ := ih fun f hf => by
      rcases List.mem_cons.mp hf with rfl | hf
      · refine ⟨ρ, hρ, β, rfl, (solved_of_mem_solve ρ.positive hβ).bound, fun σ hσ a ha => ?_⟩
        rw [hfacts σ hσ]
        exact List.mem_append_right _ (List.mem_map_of_mem ha)
      · exact (hprevious f hf).mono hgrow
    exact ⟨fun f hf => hsub (hgrow hf), hfinal⟩

/-! ## Completeness -/

omit [DecidableEq V] [Inhabited V] in
theorem Goal.sure_subset_vars (goal : Goal (Atom V)) : goal.sure ⊆ goal.vars := by
  induction goal with
  | atom a => exact fun _ hx => hx
  | and p q ihp ihq =>
    exact List.append_subset.mpr ⟨fun x hx => List.mem_append_left _ (ihp hx),
      fun x hx => List.mem_append_right _ (ihq hx)⟩
  | or p q ihp ihq => exact fun x hx => List.mem_append_left _ (ihp (mem_sure_or.mp hx).1)
  | not p => exact List.nil_subset _
  | true => exact List.nil_subset _
  | false => exact List.nil_subset _

omit [Inhabited V] in
theorem distinctNames_map (hnames : (rules.map DatalogRule.name).Nodup) :
    DistinctNames (rules.map DatalogRule.toRule) := by
  rw [DistinctNames, List.filterMap_map]
  have : (rules.filterMap fun r => some r.name) = rules.map DatalogRule.name := by
    rw [← List.filterMap_eq_map]
    rfl
  rw [show (rules.filterMap ((fun r => r.picked.attributes.name) ∘ DatalogRule.toRule)) =
    rules.filterMap fun r => some r.name from rfl, this]
  exact hnames

/-- Where every admissible instance unifies with a record, the facts are closed under the rules
    whose disjunctions are committed safely. -/
theorem closed_of_allFired (hnames : (rules.map DatalogRule.name).Nodup) {d : Database V}
    {final : List (Fired (Atom V) (Bindings V))} (hfinal : ∀ f ∈ final, Recorded rules d f)
    {ρ : DatalogRule V} (hρ : ρ ∈ rules) (hall : AllFired factBase d final ρ.toRule.picked)
    (hc : ρ.Committed) {σ : Nat → V} (h : ρ.cond.Holds { f | f ∈ d.facts } σ) {a : Atom V}
    (ha : a ∈ ρ.conclusions) : a.eval σ ∈ d.facts := by
  have hempty : Agrees σ factBase.empty := fun x v hx => by cases hx
  obtain ⟨β, hβ, σ', hσ', heq⟩ := exists_mem_solve ρ.positive hc hempty (by simp) h
  have hfired := hall _ (admissible_iff.mpr ⟨β, hβ, rfl⟩)
  obtain ⟨f, hf, hlike⟩ := List.any_eq_true.mp hfired
  obtain ⟨ρ', hρ', β', rfl, hbound, hfacts⟩ := hfinal f hf
  simp only [DatalogRule.instanceOf, Bool.and_eq_true, decide_eq_true_eq, Bool.or_eq_true,
    reduceCtorEq, decide_false, Bool.false_eq_true, false_or] at hlike
  obtain ⟨⟨-, hname⟩, hlike⟩ := hlike
  obtain rfl := List.inj_on_of_nodup_map hnames hρ' hρ (of_decide_eq_true hname)
  have hsame : ∀ x ∈ a.vars, σ x = valuation β' x := by
    intro x hx
    have hsure := ρ'.safe a ha x hx
    obtain ⟨v, hv⟩ := Option.isSome_iff_exists.mp
      ((solved_of_mem_solve ρ'.positive hβ).bound x hsure)
    obtain ⟨w, hw⟩ := Option.isSome_iff_exists.mp (hbound x hsure)
    have hvw := (Bool.and_eq_true_iff.mp hlike).2
    rw [List.all_eq_true] at hvw
    have hvw := hvw x (Goal.sure_subset_vars _ hsure)
    rw [hv, hw] at hvw
    rw [← heq x (List.mem_flatMap.mpr ⟨a, ha, hx⟩), hσ' x v hv, valuation, hw]
    simpa using hvw
  rw [Atom.eval_congr hsame]
  exact hfacts _ (agrees_valuation β') a ha

/-! ## Termination -/

def Arg.values : Arg V → List V
  | .var _ => []
  | .val v => [v]

/-- The values written in the conclusions. -/
def constants (rules : List (DatalogRule V)) : List V :=
  rules.flatMap fun r => r.conclusions.flatMap fun a => a.args.flatMap Arg.values

omit [Inhabited V] in
theorem mem_constants {ρ : DatalogRule V} (hρ : ρ ∈ rules) {a : Atom V}
    (ha : a ∈ ρ.conclusions) {v : V} (hv : .val v ∈ a.args) : v ∈ constants rules :=
  List.mem_flatMap.mpr ⟨ρ, hρ, List.mem_flatMap.mpr ⟨a, ha,
    List.mem_flatMap.mpr ⟨_, hv, by simp [Arg.values]⟩⟩⟩

omit [Inhabited V] in
theorem mem_values_of_solve {ρ : DatalogRule V} {d : Database V} {β : Bindings V}
    (hβ : β ∈ (factBase.solve d ρ.cond factBase.empty).answers) {x : Nat} {v : V}
    (hv : β x = some v) : v ∈ d.values := by
  rcases (solved_of_mem_solve ρ.positive hβ).source x v hv with h | h
  · cases h
  · exact h

/-- Firing an instance adds no value that is neither in the facts nor in the rules. -/
theorem values_fired {C : List V} (hC : constants rules ⊆ C) {ρ : DatalogRule V}
    (hρ : ρ ∈ rules) {d d' : Database V} (hd : d.values ⊆ C) {β e : Bindings V}
    (hβ : β ∈ (factBase.solve d ρ.cond factBase.empty).answers)
    (h : Attempted factBase d β (ρ.conclusions.map (.add .assert_rtx)) e d') :
    d'.values ⊆ C := by
  intro v hv
  obtain ⟨f, hf, hv⟩ := List.mem_flatMap.mp hv
  rw [(fired_instance hβ h).2 _ (agrees_valuation β), List.mem_append] at hf
  rcases hf with hf | hf
  · exact hd (List.mem_flatMap.mpr ⟨f, hf, hv⟩)
  · obtain ⟨a, ha, rfl⟩ := List.mem_map.mp hf
    obtain ⟨b, hb, rfl⟩ := List.mem_map.mp hv
    cases b with
    | val w => exact hC (mem_constants hρ ha hb)
    | var x =>
      have hx : x ∈ a.vars := List.mem_flatMap.mpr ⟨_, hb, by simp [Arg.vars]⟩
      obtain ⟨w, hw⟩ := Option.isSome_iff_exists.mp
        ((solved_of_mem_solve ρ.positive hβ).bound x (ρ.safe a ha x hx))
      rw [Arg.eval, agrees_valuation β x w hw]
      exact hd (mem_values_of_solve hβ hw)

/-- The part of a record that no other record shares. -/
def recordKey (f : Fired (Atom V) (Bindings V)) :
    Branch × String × Goal (Atom V) × List (Option V) :=
  (f.branch, f.name, f.condition, f.condition.vars.map f.bindings)

/-- All keys over the values `C`. -/
def recordKeys (rules : List (DatalogRule V)) (C : List V) :
    List (Branch × String × Goal (Atom V) × List (Option V)) :=
  rules.flatMap fun ρ => (List.replicate ρ.cond.vars.length (none :: C.map some)).sections.map
    fun values => (.ifBranch, ρ.name, ρ.cond, values)

omit [DecidableEq V] [Inhabited V] in
theorem map_mem_sections {β : Bindings V} {C : List V} (h : ∀ x v, β x = some v → v ∈ C)
    (xs : List Nat) :
    xs.map β ∈ (List.replicate xs.length (none :: C.map some)).sections := by
  rw [List.mem_sections]
  induction xs with
  | nil => exact .nil
  | cons x xs ih =>
    refine .cons ?_ ih
    cases hx : β x with
    | none => exact List.mem_cons_self
    | some v => exact List.mem_cons_of_mem _ (List.mem_map_of_mem (h x v hx))

omit [Inhabited V] in
theorem alreadyFired_of_recordKey {previous : List (Fired (Atom V) (Bindings V))}
    {f : Fired (Atom V) (Bindings V)} (h : recordKey f ∈ previous.map recordKey) :
    alreadyFired factBase previous f = true := by
  obtain ⟨f', hf', hkey⟩ := List.mem_map.mp h
  obtain ⟨hbranch, hname, hcond, hvalues⟩ : f'.branch = f.branch ∧ f'.name = f.name ∧
      f'.condition = f.condition ∧
      f'.condition.vars.map f'.bindings = f.condition.vars.map f.bindings := by
    simpa [recordKey] using hkey
  rw [hcond] at hvalues
  have hlike : alikeInstances f.condition f.bindings f'.condition f'.bindings = true := by
    rw [alikeInstances, hcond, decide_eq_true rfl, Bool.true_and, List.all_eq_true]
    intro x hx
    rw [List.map_inj_left.mp hvalues x hx]
    cases f.bindings x <;> simp
  refine List.any_eq_true.mpr ⟨f', hf', ?_⟩
  rw [hbranch, hname]
  simp only [decide_true, Bool.true_and, Bool.or_eq_true]
  exact .inr hlike

/-- Runs of asserting rules over the values `C`. -/
def bounded (rules : List (DatalogRule V)) {C : List V} (hC : constants rules ⊆ C) :
    Bounded factBase (rules.map DatalogRule.toRule)
      (Branch × String × Goal (Atom V) × List (Option V)) where
  invariant d := d.values ⊆ C
  key := recordKey
  keys := recordKeys rules C
  preserved := by
    intro d r f e d' hd hr hf h
    obtain ⟨ρ, hρ, rfl⟩ := takes_iff.mp hr
    obtain ⟨β, hβ, rfl⟩ := admissible_iff.mp hf
    exact values_fired hC hρ hd hβ h
  key_mem := by
    intro d r f e d' hd hr hf h
    obtain ⟨ρ, hρ, rfl⟩ := takes_iff.mp hr
    obtain ⟨β, hβ, rfl⟩ := admissible_iff.mp hf
    obtain ⟨rfl, -⟩ := fired_instance hβ h
    have hC : ∀ x v, β x = some v → v ∈ C := fun x v hv => hd (mem_values_of_solve hβ hv)
    exact List.mem_flatMap.mpr ⟨ρ, hρ, List.mem_map.mpr ⟨_, map_mem_sections hC _, rfl⟩⟩
  key_new := by
    intro d r f e d' previous hd hr hf h hnew hmem
    obtain ⟨ρ, hρ, rfl⟩ := takes_iff.mp hr
    obtain ⟨β, hβ, rfl⟩ := admissible_iff.mp hf
    obtain ⟨rfl, -⟩ := fired_instance hβ h
    have hfired : alreadyFired factBase previous (ρ.instanceOf β) = true :=
      alreadyFired_of_recordKey hmem
    rw [hfired] at hnew
    cases hnew

/-! ## Forward chaining computes the least model -/

/-- Forward chaining from the facts `F` terminates with nothing but the least model, and with
    all of it if every disjunction is committed safely. -/
theorem forward_computes_least_model (rules : List (DatalogRule V))
    (hnames : (rules.map DatalogRule.name).Nodup) (F rtx : List (Fact V)) :
    ∃ fuel fired d', forward factBase (rules.map DatalogRule.toRule) fuel ⟨F, rtx⟩ =
        some (fired, d') ∧
      F ⊆ d'.facts ∧ { f | f ∈ d'.facts } ⊆ leastModel rules F ∧
      ((∀ ρ ∈ rules, ρ.Committed) → { f | f ∈ d'.facts } = leastModel rules F) := by
  have hdistinct := distinctNames_map hnames
  let d : Database V := ⟨F, rtx⟩
  have hstart : (bounded rules (List.subset_append_right d.values _)).invariant d :=
    List.subset_append_left _ _
  obtain ⟨fuel, fired, d', hrun⟩ := Bounded.forward_terminates _ hdistinct hstart
  have hvalid := forward_validRun hdistinct hrun
  have hsound : { f | f ∈ d'.facts } ⊆ leastModel rules F :=
    hvalid.subset_closed (base_subset_leastClosed _ _) (isLeast_leastClosed _ _).1.2
  obtain ⟨hgrow, final, hfinal, hall⟩ := hvalid.recorded fun f hf => by cases hf
  refine ⟨fuel, fired, d', hrun, hgrow, hsound, fun hc => ?_⟩
  refine eq_leastClosed (fun f hf => hgrow hf) ?_ hsound
  rintro i ⟨ρ, hρ, σ, a, ha, rfl⟩ hholds
  exact closed_of_allFired hnames hfinal hρ (hall _ (takes_iff.mpr ⟨ρ, hρ, rfl⟩)) (hc ρ hρ)
    hholds ha

/-- `if path(X,Y) and (node(Z) and (edge(Y,Z) or edge(Z,Y))) then [assert_rtx(path(X,Z))]`: the
    disjunction finds its variables bound. -/
def pathRule : DatalogRule Nat where
  name := "path"
  named := by decide
  priority := none
  cond := .and (.atom ⟨"path", [.var 0, .var 1]⟩) (.and (.atom ⟨"node", [.var 2]⟩)
    (.or (.atom ⟨"edge", [.var 1, .var 2]⟩) (.atom ⟨"edge", [.var 2, .var 1]⟩)))
  positive := ⟨trivial, trivial, trivial, trivial⟩
  conclusions := [⟨"path", [.var 0, .var 2]⟩]
  safe := by decide

theorem forward_computes_least_model_path :
    ∃ fuel fired d', forward factBase [pathRule.toRule] fuel
        ⟨[⟨"path", [1, 1]⟩, ⟨"node", [2]⟩, ⟨"edge", [2, 1]⟩], []⟩ = some (fired, d') ∧
      { f | f ∈ d'.facts } =
        leastModel [pathRule] [⟨"path", [1, 1]⟩, ⟨"node", [2]⟩, ⟨"edge", [2, 1]⟩] := by
  obtain ⟨fuel, fired, d', hrun, -, -, h⟩ := forward_computes_least_model [pathRule] (by decide)
    [⟨"path", [1, 1]⟩, ⟨"node", [2]⟩, ⟨"edge", [2, 1]⟩] []
  refine ⟨fuel, fired, d', hrun, h fun ρ hρ => ?_⟩
  rw [List.mem_singleton.mp hρ]
  exact ⟨trivial, trivial, by decide, trivial, trivial⟩

/-- `if p(X) or q(X) then [assert_rtx(s(X))]`. -/
def eitherDatalog : DatalogRule Nat where
  name := "either"
  named := by decide
  priority := none
  cond := .or (.atom ⟨"p", [.var 0]⟩) (.atom ⟨"q", [.var 0]⟩)
  positive := ⟨trivial, trivial⟩
  conclusions := [⟨"s", [.var 0]⟩]
  safe := by decide

/-- From `p(1)` and `p(2)`, `s(2)` is in the least model and never derived. -/
theorem either_conclusion_missing :
    ∃ fired d', forward factBase [eitherDatalog.toRule] 2 ⟨[⟨"p", [1]⟩, ⟨"p", [2]⟩], []⟩ =
        some (fired, d') ∧
      ⟨"s", [2]⟩ ∈ leastModel [eitherDatalog] [⟨"p", [1]⟩, ⟨"p", [2]⟩] ∧
      ⟨"s", [2]⟩ ∉ d'.facts := by
  refine ⟨_, _, rfl, ?_, by decide⟩
  obtain ⟨hbase, hclosed⟩ := (isLeast_leastClosed (inferences [eitherDatalog])
    { f | f ∈ [⟨"p", [1]⟩, ⟨"p", [2]⟩] }).1
  have hp : (⟨"p", [2]⟩ : Fact Nat) ∈ [(⟨"p", [1]⟩ : Fact Nat), ⟨"p", [2]⟩] := by decide
  exact hclosed (eitherDatalog.inference (fun _ => 2) ⟨"s", [.var 0]⟩)
    ⟨_, List.mem_singleton_self _, _, _, List.mem_singleton_self _, rfl⟩ (.inl (hbase hp))

end SmartWarehouse.Kbase
