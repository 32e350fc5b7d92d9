/-
  Forward chaining fires every instance once.

  For rules of all four shapes over declared predicates and a finite set of constants, with
  conclusions that may assert and retract, a condition instance is ground if every answer binds
  all variables of the condition. Then the records of a run differ in branch or instance, since
  an instance that was fired unifies with its record, and there are no more of them than ground
  instances and else branches: the run ends within that number of firings
  (`forward_fires_once`), however the facts come and go.
-/
import SmartWarehouse.Kbase.LeastModel

namespace SmartWarehouse.Kbase

open SmartWarehouse.Lib

/-! ## Runs with bounded records -/

section Bounded

variable {A E D K : Type} {P : Production A E D} {rules : List (Rule A)}

/-- The keys of a run's records are pairwise different and from the list. -/
theorem Bounded.doForward_keys (B : Bounded P rules K) (hnames : DistinctNames rules)
    {fuel : Nat} {previous fired : List (Fired A E)} {d d' : D} (hd : B.invariant d)
    (hnodup : (previous.map B.key).Nodup) (hsub : previous.map B.key ⊆ B.keys)
    (h : doForward P rules (sortRules rules) fuel previous d = some (fired, d')) :
    (fired.map B.key).Nodup ∧ fired.map B.key ⊆ B.keys := by
  induction fuel generalizing previous d with
  | zero => cases h
  | succ fuel ih =>
    rw [doForward] at h
    split at h
    · rename_i f' d₁ hstep
      obtain ⟨r, f, e, hr, hf, hnew, -, hconclusions, rfl⟩ := forwardStep_some hnames hstep
      refine ih (B.preserved hd hr hf hconclusions) ?_ ?_ h
      · exact List.nodup_cons.mpr ⟨B.key_new hd hr hf hconclusions hnew, hnodup⟩
      · exact List.cons_subset.mpr ⟨B.key_mem hd hr hf hconclusions, hsub⟩
    · obtain ⟨rfl, rfl⟩ := Prod.mk.inj (Option.some.inj h)
      exact ⟨hnodup, hsub⟩

theorem Bounded.forward_keys (B : Bounded P rules K) (hnames : DistinctNames rules)
    {fuel : Nat} {fired : List (Fired A E)} {d d' : D} (hd : B.invariant d)
    (h : forward P rules fuel d = some (fired, d')) :
    (fired.map B.key).Nodup ∧ fired.length ≤ B.keys.length := by
  obtain ⟨⟨reversed, d₁⟩, hdo, heq⟩ := Option.map_eq_some_iff.mp h
  have hnil : (([] : List (Fired A E)).map B.key).Nodup := List.nodup_nil
  obtain ⟨hnodup, hsub⟩ := B.doForward_keys hnames hd hnil (List.nil_subset _) hdo
  have hle := (hnodup.subperm hsub).length_le
  rw [List.length_map] at hle
  obtain rfl : reversed.reverse = fired := (Prod.mk.inj heq).1
  rw [List.map_reverse, List.nodup_reverse, List.length_reverse]
  exact ⟨hnodup, hle⟩

/-- As many firings as there are keys are enough, and one more step to stop. -/
theorem Bounded.forward_ends (B : Bounded P rules K) (hnames : DistinctNames rules) {d : D}
    (hd : B.invariant d) :
    ∃ fired d', forward P rules (B.keys.length + 1) d = some (fired, d') := by
  have hnodup : (([] : List (Fired A E)).map B.key).Nodup := List.nodup_nil
  obtain ⟨⟨reversed, d'⟩, hdo⟩ := B.doForward_terminates hnames hd hnodup (List.nil_subset _)
    (by simp : B.keys.length ≤ [].length + B.keys.length)
  exact ⟨reversed.reverse, d', by rw [forward, hdo]; rfl⟩

end Bounded

/-! ## Constants -/

variable {V : Type} [DecidableEq V]

def Conclusion.atom {A : Type} : Conclusion A → A
  | .add _ fact => fact
  | .remove _ fact => fact
  | .other goal => goal

def Atom.constants (a : Atom V) : List V := a.args.flatMap Arg.values

/-- Every value bound is one of the constants. -/
def BoundTo (C : Finset V) (β : Bindings V) : Prop := ∀ x v, β x = some v → v ∈ C

def Database.Over (C : Finset V) (d : Database V) : Prop := ∀ v ∈ d.values, v ∈ C

/-- What a call or a conclusion does to the bindings. -/
structure Grown (d : Database V) (β β' : Bindings V) : Prop where
  extend : Extends β β'
  source : ∀ x v, β' x = some v → β x = some v ∨ v ∈ d.values

omit [DecidableEq V] in
theorem Grown.refl (d : Database V) (β : Bindings V) : Grown d β β :=
  ⟨.refl β, fun _ _ h => .inl h⟩

omit [DecidableEq V] in
theorem Grown.trans {d : Database V} {β β' β'' : Bindings V} (h : Grown d β β')
    (h' : Grown d β' β'') : Grown d β β'' := by
  refine ⟨h.extend.trans h'.extend, ?_⟩
  intro x v hx
  rcases h'.source x v hx with hx | hx
  · exact h.source x v hx
  · exact .inr hx

omit [DecidableEq V] in
theorem Grown.boundTo {C : Finset V} {d : Database V} {β β' : Bindings V} (h : Grown d β β')
    (hd : d.Over C) (hβ : BoundTo C β) : BoundTo C β' := by
  intro x v hx
  rcases h.source x v hx with hx | hx
  · exact hβ x v hx
  · exact hd v hx

/-- The answers of any condition. -/
theorem grown_of_mem_solve {d : Database V} {goal : Goal (Atom V)} {β β' : Bindings V}
    (h : β' ∈ (factBase.solve d goal β).answers) : Grown d β β' where
  extend := (factCalls.binds_of_mem_solve h).extend
  source _ _ hx := source_of_mem_solve h hx

theorem grown_of_matchFact {d : Database V} {a : Atom V} {f : Fact V} {β β' : Bindings V}
    (hf : f ∈ d.facts) (h : a.matchFact f β = some β') : Grown d β β' := by
  have hmem : β' ∈ (callAtom d a β).answers := List.mem_filterMap.mpr ⟨f, hf, h⟩
  have hsolved := solved_of_mem_call hmem
  exact ⟨hsolved.extend, hsolved.source⟩

/-! ## Conclusions -/

theorem facts_add (d : Database V) (f : Fact V) (form : AddForm) :
    (d.add f form).facts ⊆ f :: d.facts := by
  intro g hg
  cases form with
  | assert => simpa [Database.add, or_comm] using hg
  | assertz => simpa [Database.add, or_comm] using hg
  | asserta => exact hg
  | assert_rtx => simpa [Database.add, or_comm] using hg
  | assert_once =>
    unfold Database.add at hg
    dsimp only at hg
    split at hg
    · rcases List.mem_append.mp hg with hg | hg
      · exact List.mem_cons_of_mem _ (List.mem_of_mem_filter hg)
      · exact List.mem_cons.mpr (.inl (List.mem_singleton.mp hg))
    · simpa [or_comm] using hg

theorem retractFirst_grown {d : Database V} {a : Atom V} {β β' : Bindings V}
    {facts rest : List (Fact V)} (hfacts : facts ⊆ d.facts)
    (h : retractFirst a β facts = some (β', rest)) : Grown d β β' ∧ rest ⊆ facts := by
  obtain ⟨⟨f, hf, hmatch⟩, hsub⟩ := retractOne_some h
  exact ⟨grown_of_matchFact (hfacts hf) hmatch, hsub⟩

theorem retractRtx_grown {d : Database V} {a : Atom V} {β : Bindings V} {rtx facts : List (Fact V)}
    (hfacts : facts ⊆ d.facts) :
    (∀ β' rtx', (retractRtx a β rtx facts).1 = some (β', rtx') → Grown d β β') ∧
      (retractRtx a β rtx facts).2 ⊆ facts := by
  refine ⟨fun β' rtx' h => ?_, (retractBoth_sublist facts).subset⟩
  obtain ⟨f, hf, β₁, hmatch, hmirror⟩ := retractBoth_some h
  obtain ⟨-, heq⟩ := Option.ite_none_right_eq_some.mp hmirror
  obtain ⟨rfl, -⟩ := Prod.mk.inj (Option.some.inj heq)
  exact grown_of_matchFact (hfacts hf) hmatch

/-- A retraction binds values of the facts and takes facts out. -/
theorem remove_grown (d : Database V) (a : Atom V) (β : Bindings V) (form : RemoveForm) :
    (∀ β', (d.remove a β form).1 = some β' → Grown d β β') ∧
      (d.remove a β form).2.facts ⊆ d.facts := by
  cases form with
  | retract =>
    unfold Database.remove
    dsimp only
    split
    · rename_i β₁ facts h
      obtain ⟨hgrown, hsub⟩ := retractFirst_grown (fun _ hf => hf) h
      refine ⟨?_, hsub⟩
      intro β' heq
      obtain rfl := Option.some.inj heq
      exact hgrown
    · exact ⟨fun _ h => (nomatch h), fun _ h => h⟩
  | retract_rtx =>
    obtain ⟨hgrown, hsub⟩ := retractRtx_grown (a := a) (β := β)
      (fun _ hf => hf : d.facts ⊆ d.facts)
    unfold Database.remove
    dsimp only
    split
    · rename_i β₁ rtx facts h
      rw [h] at hgrown hsub
      refine ⟨?_, hsub⟩
      intro β' heq
      obtain rfl := Option.some.inj heq
      exact hgrown _ _ rfl
    · rename_i facts h
      rw [h] at hsub
      exact ⟨fun _ h => (nomatch h), hsub⟩

omit [DecidableEq V] in
theorem exists_arg_of_mapM {args : List (Arg V)} {values : List V} {β : Bindings V}
    (h : args.mapM (Arg.value β) = some values) :
    ∀ v ∈ values, ∃ b ∈ args, b.value β = some v := by
  induction args generalizing values with
  | nil =>
    obtain rfl : [] = values := Option.some.inj h
    intro v hv
    cases hv
  | cons b bs ih =>
    rw [List.mapM_cons] at h
    obtain ⟨w, hw, h⟩ := Option.bind_eq_some_iff.mp h
    obtain ⟨ws, hws, h⟩ := Option.bind_eq_some_iff.mp h
    obtain rfl : w :: ws = values := Option.some.inj h
    intro v hv
    rcases List.mem_cons.mp hv with rfl | hv
    · exact ⟨b, List.mem_cons_self, hw⟩
    · obtain ⟨b', hb', hvalue⟩ := ih hws v hv
      exact ⟨b', List.mem_cons_of_mem _ hb', hvalue⟩

omit [DecidableEq V] in
/-- A fact that is added has its values from the constants or the bindings. -/
theorem mem_of_ground {C : Finset V} {a : Atom V} {β : Bindings V} {f : Fact V}
    (h : a.ground β = some f) (hconstants : ∀ v ∈ a.constants, v ∈ C) (hβ : BoundTo C β) :
    ∀ v ∈ f.args, v ∈ C := by
  obtain ⟨args, hargs, rfl⟩ := Option.map_eq_some_iff.mp h
  intro v hv
  obtain ⟨b, hb, hvalue⟩ := exists_arg_of_mapM hargs v hv
  cases b with
  | var x => exact hβ x v hvalue
  | val w =>
    obtain rfl : w = v := Option.some.inj hvalue
    exact hconstants w (List.mem_flatMap.mpr ⟨_, hb, by simp [Arg.values]⟩)

omit [DecidableEq V] in
theorem Database.Over.mono {C : Finset V} {d d' : Database V} (h : d.Over C)
    (hsub : d'.facts ⊆ d.facts) : d'.Over C := by
  intro v hv
  obtain ⟨f, hf, hv⟩ := List.mem_flatMap.mp hv
  exact h v (List.mem_flatMap.mpr ⟨f, hsub hf, hv⟩)

theorem Database.Over.add {C : Finset V} {d : Database V} (h : d.Over C) {f : Fact V}
    (hf : ∀ v ∈ f.args, v ∈ C) (form : AddForm) : (d.add f form).Over C := by
  intro v hv
  obtain ⟨g, hg, hvg⟩ := List.mem_flatMap.mp hv
  rcases List.mem_cons.mp (facts_add d f form hg) with heq | hold
  · rw [heq] at hvg
    exact hf v hvg
  · exact h v (List.mem_flatMap.mpr ⟨g, hold, hvg⟩)

/-- A conclusion over the constants keeps facts and bindings over them. -/
theorem perform_over {C : Finset V} {d : Database V} {c : Conclusion (Atom V)} {β : Bindings V}
    (hc : ∀ v ∈ c.atom.constants, v ∈ C) (hd : d.Over C) (hβ : BoundTo C β) :
    (factBase.perform d c β).2.Over C ∧
      ∀ β', (factBase.perform d c β).1 = some β' → Grown d β β' := by
  cases c with
  | add form a =>
    show (performFact d (.add form a) β).2.Over C ∧
      ∀ β', (performFact d (.add form a) β).1 = some β' → Grown d β β'
    unfold performFact
    dsimp only
    cases hground : a.ground β with
    | none => exact ⟨hd, fun _ h => nomatch h⟩
    | some f =>
      refine ⟨hd.add (mem_of_ground hground hc hβ) form, ?_⟩
      intro β' h
      obtain rfl := Option.some.inj h
      exact .refl d β
  | remove form a =>
    obtain ⟨hgrown, hsub⟩ := remove_grown d a β form
    exact ⟨hd.mono hsub, hgrown⟩
  | other a =>
    refine ⟨hd, ?_⟩
    intro β' h
    have hmem : β' ∈ (callAtom d a β).answers := List.mem_of_head? h
    have hsolved := solved_of_mem_call hmem
    exact ⟨hsolved.extend, hsolved.source⟩

theorem attempted_over {C : Finset V} {d d' : Database V} {β β' : Bindings V}
    {cs : List (Conclusion (Atom V))} (h : Attempted factBase d β cs β' d')
    (hcs : ∀ c ∈ cs, ∀ v ∈ c.atom.constants, v ∈ C) (hd : d.Over C) (hβ : BoundTo C β) :
    d'.Over C ∧ BoundTo C β' ∧ Extends β β' := by
  induction h with
  | nil => exact ⟨hd, hβ, .refl _⟩
  | @succeeded d d₁ d' β β₁ β' c cs hperform hrest ih =>
    obtain ⟨hd₁, hgrown⟩ := perform_over (hcs c List.mem_cons_self) hd hβ
    rw [hperform] at hd₁ hgrown
    have hβ₁ := hgrown β₁ rfl
    obtain ⟨hd', hβ', hextend⟩ := ih (fun c hmem => hcs c (List.mem_cons_of_mem _ hmem)) hd₁
      (hβ₁.boundTo hd hβ)
    exact ⟨hd', hβ', hβ₁.extend.trans hextend⟩
  | @failed d d₁ d' β β' c cs hperform hrest ih =>
    obtain ⟨hd₁, -⟩ := perform_over (hcs c List.mem_cons_self) hd hβ
    rw [hperform] at hd₁
    exact ih (fun c hmem => hcs c (List.mem_cons_of_mem _ hmem)) hd₁ hβ

/-! ## Ground instances -/

/-- The lists of the given length over `values`. -/
def tuples {X : Type} (values : List X) : Nat → List (List X)
  | 0 => [[]]
  | n + 1 => values.flatMap fun v => (tuples values n).map (v :: ·)

theorem length_tuples {X : Type} (values : List X) (n : Nat) :
    (tuples values n).length = values.length ^ n := by
  induction n with
  | zero => rfl
  | succ n ih =>
    rw [tuples, List.length_flatMap]
    simp only [List.length_map, ih, List.map_const']
    rw [List.sum_replicate_nat, Nat.pow_succ, Nat.mul_comm]

theorem mem_tuples {X : Type} {values : List X} {l : List X} (h : ∀ v ∈ l, v ∈ values) :
    l ∈ tuples values l.length := by
  induction l with
  | nil => exact List.mem_singleton.mpr rfl
  | cons v l ih =>
    have hl := ih fun w hw => h w (List.mem_cons_of_mem _ hw)
    exact List.mem_flatMap.mpr ⟨v, h v List.mem_cons_self, List.mem_map.mpr ⟨l, hl, rfl⟩⟩

/-- The variables of a condition, each once. -/
def Goal.distinctVars (goal : Goal (Atom V)) : List Nat := goal.vars.dedup

/-- The number of ground instances over the constants. -/
def Goal.groundInstances (C : Finset V) (goal : Goal (Atom V)) : Nat :=
  C.card ^ goal.distinctVars.length

/-- The branch and condition instance of a record. -/
def Fired.instanceKey (f : Fired (Atom V) (Bindings V)) :
    Branch × String × Goal (Atom V) × List (Option V) :=
  (f.branch, f.name, f.condition, f.condition.distinctVars.map f.bindings)

/-- Two records agree on branch and condition instance. -/
def SameInstance (f f' : Fired (Atom V) (Bindings V)) : Prop :=
  f.branch = f'.branch ∧ f.name = f'.name ∧ f.condition = f'.condition ∧
    ∀ x ∈ f.condition.vars, f.bindings x = f'.bindings x

omit [DecidableEq V] in
theorem sameInstance_iff {f f' : Fired (Atom V) (Bindings V)} :
    SameInstance f f' ↔ f.instanceKey = f'.instanceKey := by
  unfold SameInstance Fired.instanceKey
  simp only [Prod.mk.injEq]
  constructor
  · rintro ⟨hbranch, hname, hcond, hvalues⟩
    refine ⟨hbranch, hname, hcond, ?_⟩
    rw [← hcond]
    apply List.map_congr_left
    intro x hx
    exact hvalues x (List.mem_dedup.mp hx)
  · rintro ⟨hbranch, hname, hcond, hvalues⟩
    refine ⟨hbranch, hname, hcond, ?_⟩
    rw [← hcond] at hvalues
    intro x hx
    exact List.map_inj_left.mp hvalues x (List.mem_dedup.mpr hx)

/-- Rules over the constants `C` whose condition instances are ground. -/
structure GroundRuleBase (C : Finset V) (rules : List (Rule (Atom V))) : Prop where
  distinct : DistinctNames rules
  /-- The conclusions bring in no other constants. -/
  constants : ∀ rule ∈ rules, ∀ c ∈ rule.picked.allConclusions, ∀ v ∈ c.atom.constants, v ∈ C
  /-- An answer of a condition, in any facts over `C`, binds all its variables. -/
  ground : ∀ rule ∈ rules, ∀ cond ∈ [rule.picked.ifCond, rule.picked.elseIfCond],
    ∀ d : Database V, d.Over C → ∀ β ∈ (factBase.solve d cond factBase.empty).answers,
      ∀ x ∈ cond.vars, (β x).isSome

/-- Conditions all of whose variables are sure have ground instances only. -/
theorem GroundRuleBase.of_sure {C : Finset V} {rules : List (Rule (Atom V))}
    (hdistinct : DistinctNames rules)
    (hconstants : ∀ rule ∈ rules, ∀ c ∈ rule.picked.allConclusions, ∀ v ∈ c.atom.constants, v ∈ C)
    (hsure : ∀ rule ∈ rules, ∀ cond ∈ [rule.picked.ifCond, rule.picked.elseIfCond],
      cond.vars ⊆ cond.sure) : GroundRuleBase C rules := by
  refine ⟨hdistinct, hconstants, ?_⟩
  intro rule hrule cond hcond d _ β hβ x hx
  exact (factCalls.binds_of_mem_solve hβ).bound x (hsure rule hrule cond hcond hx)

/-- The ground instances of the conditions of a rule, and its else branch. -/
def PickedRule.firings (C : Finset V) (r : PickedRule (Atom V)) : Nat :=
  r.ifCond.groundInstances C +
    (if r.elseIfConclusions = [] then 0 else r.elseIfCond.groundInstances C) +
    (if r.elseConclusions = [] then 0 else 1)

/-- All ground instances of if and elseif conditions of the named rules, and all else
    branches. -/
def firingBound (C : Finset V) (rules : List (Rule (Atom V))) : Nat :=
  ((pickARule rules).filter fun r => r.name ≠ "not_named").foldr (fun r n => r.firings C + n) 0

/-- The keys of the instances of one condition. -/
noncomputable def conditionKeys (C : Finset V) (branch : Branch) (name : String)
    (cond : Goal (Atom V)) : List (Branch × String × Goal (Atom V) × List (Option V)) :=
  (tuples (C.toList.map some) cond.distinctVars.length).map fun values =>
    (branch, name, cond, values)

noncomputable def PickedRule.keys (C : Finset V) (r : PickedRule (Atom V)) :
    List (Branch × String × Goal (Atom V) × List (Option V)) :=
  conditionKeys C .ifBranch r.name r.ifCond ++
    (if r.elseIfConclusions = [] then [] else conditionKeys C .elseIfBranch r.name r.elseIfCond) ++
    (if r.elseConclusions = [] then [] else [(.elseBranch, r.name, .true, [])])

omit [DecidableEq V] in
theorem length_conditionKeys (C : Finset V) (branch : Branch) (name : String)
    (cond : Goal (Atom V)) :
    (conditionKeys C branch name cond).length = cond.groundInstances C := by
  rw [conditionKeys, List.length_map, length_tuples, List.length_map, Finset.length_toList]
  rfl

omit [DecidableEq V] in
theorem PickedRule.length_keys (C : Finset V) (r : PickedRule (Atom V)) :
    (r.keys C).length = r.firings C := by
  unfold PickedRule.keys PickedRule.firings
  rw [List.length_append, List.length_append, length_conditionKeys]
  congr 1
  · congr 1
    split
    · rfl
    · exact length_conditionKeys ..
  · split <;> rfl

omit [DecidableEq V] in
/-- A ground instance over the constants has one of the keys. -/
theorem mem_conditionKeys {C : Finset V} {branch : Branch} {name : String}
    {cond : Goal (Atom V)} {β : Bindings V} (hβ : BoundTo C β)
    (hbound : ∀ x ∈ cond.vars, (β x).isSome) :
    (branch, name, cond, cond.distinctVars.map β) ∈ conditionKeys C branch name cond := by
  have htuple : cond.distinctVars.map β ∈
      tuples (C.toList.map some) (cond.distinctVars.map β).length := by
    apply mem_tuples
    intro o ho
    obtain ⟨x, hx, rfl⟩ := List.mem_map.mp ho
    obtain ⟨v, hv⟩ := Option.isSome_iff_exists.mp (hbound x (List.mem_dedup.mp hx))
    rw [hv]
    exact List.mem_map_of_mem (Finset.mem_toList.mpr (hβ x v hv))
  rw [List.length_map] at htuple
  exact List.mem_map.mpr ⟨_, htuple, rfl⟩

omit [DecidableEq V] in
theorem bound_of_extends {cond : Goal (Atom V)} {β β' : Bindings V} (h : Extends β β')
    (hbound : ∀ x ∈ cond.vars, (β x).isSome) : ∀ x ∈ cond.vars, (β' x).isSome := by
  intro x hx
  obtain ⟨v, hv⟩ := Option.isSome_iff_exists.mp (hbound x hx)
  rw [h x v hv]
  rfl

/-! ## Termination -/

section Run

variable {C : Finset V} {rules : List (Rule (Atom V))}

/-- The facts about an instance that fires: its conclusions are those of the rule, and its
    condition is ground over the constants. -/
theorem GroundRuleBase.admissible (h : GroundRuleBase C rules) {d : Database V}
    (hd : d.Over C) {r : PickedRule (Atom V)} (hr : Takes rules r)
    {f : Fired (Atom V) (Bindings V)} (hf : Admissible factBase d r f) :
    (∀ c ∈ f.conclusions, ∀ v ∈ c.atom.constants, v ∈ C) ∧ BoundTo C f.bindings ∧
      ∀ x ∈ f.condition.vars, (f.bindings x).isSome := by
  obtain ⟨rule, hrule, rfl⟩ := mem_pickARule.mp hr.1
  have hempty : BoundTo C (factBase.empty : Bindings V) := fun x v hx => by cases hx
  have hcs : ∀ c ∈ f.conclusions, ∀ v ∈ c.atom.constants, v ∈ C := fun c hc =>
    h.constants rule hrule c (mem_allConclusions (mem_instances.mpr hf) hc)
  refine ⟨hcs, ?_⟩
  cases hf with
  | ifBranch hβ =>
    exact ⟨(grown_of_mem_solve hβ).boundTo hd hempty,
      h.ground rule hrule _ List.mem_cons_self d hd _ hβ⟩
  | elseIfBranch hne hif hβ =>
    exact ⟨(grown_of_mem_solve hβ).boundTo hd hempty,
      h.ground rule hrule _ (List.mem_cons_of_mem _ List.mem_cons_self) d hd _ hβ⟩
  | elseBranch hne hif helse => exact ⟨hempty, fun x hx => by cases hx⟩

/-- The record of an instance that fires. -/
theorem GroundRuleBase.instanceKey_mem (h : GroundRuleBase C rules) {d : Database V}
    (hd : d.Over C) {r : PickedRule (Atom V)} (hr : Takes rules r)
    {f : Fired (Atom V) (Bindings V)} (hf : Admissible factBase d r f) {e : Bindings V}
    (he : BoundTo C e) (hextend : Extends f.bindings e) :
    Fired.instanceKey { f with bindings := e } ∈ r.keys C := by
  obtain ⟨-, -, hbound⟩ := h.admissible hd hr hf
  have hbound' := bound_of_extends hextend hbound
  unfold PickedRule.keys
  rw [List.mem_append, List.mem_append]
  cases hf with
  | ifBranch hβ => exact .inl (.inl (mem_conditionKeys he hbound'))
  | elseIfBranch hne hif hβ =>
    rw [if_neg hne]
    exact .inl (.inr (mem_conditionKeys he hbound'))
  | elseBranch hne hif helse =>
    rw [if_neg hne]
    exact .inr (List.mem_singleton.mpr rfl)

/-- An instance whose record would have the key of an earlier one unifies with it. -/
theorem alreadyFired_of_instanceKey {previous : List (Fired (Atom V) (Bindings V))}
    {f : Fired (Atom V) (Bindings V)} {e : Bindings V} (hextend : Extends f.bindings e)
    (hbound : ∀ x ∈ f.condition.vars, (f.bindings x).isSome)
    (h : Fired.instanceKey { f with bindings := e } ∈ previous.map Fired.instanceKey) :
    alreadyFired factBase previous f = true := by
  obtain ⟨f', hf', hkey⟩ := List.mem_map.mp h
  obtain ⟨hbranch, hname, hcond, hvalues⟩ := sameInstance_iff.mpr hkey
  have hlike : alikeInstances f.condition f.bindings f'.condition f'.bindings = true := by
    rw [alikeInstances, decide_eq_true hcond.symm, Bool.true_and, List.all_eq_true]
    intro x hx
    obtain ⟨v, hv⟩ := Option.isSome_iff_exists.mp (hbound x hx)
    have hvalue : f'.bindings x = some v := (hvalues x (hcond ▸ hx)).trans (hextend x v hv)
    rw [hv, hvalue]
    simp
  refine List.any_eq_true.mpr ⟨f', hf', ?_⟩
  rw [hbranch, hname]
  simp only [decide_true, Bool.true_and, Bool.or_eq_true]
  exact .inr hlike

/-- The records of a run have different keys, of which there are finitely many. -/
noncomputable def GroundRuleBase.bounded (h : GroundRuleBase C rules) :
    Bounded factBase rules (Branch × String × Goal (Atom V) × List (Option V)) where
  invariant d := d.Over C
  key := Fired.instanceKey
  keys := ((pickARule rules).filter fun r => r.name ≠ "not_named").flatMap (PickedRule.keys C)
  preserved := by
    intro d r f e d' hd hr hf hattempt
    obtain ⟨hcs, hβ, -⟩ := h.admissible hd hr hf
    exact (attempted_over hattempt hcs hd hβ).1
  key_mem := by
    intro d r f e d' hd hr hf hattempt
    obtain ⟨hcs, hβ, -⟩ := h.admissible hd hr hf
    obtain ⟨-, he, hextend⟩ := attempted_over hattempt hcs hd hβ
    have htakes : r ∈ (pickARule rules).filter fun r => r.name ≠ "not_named" :=
      List.mem_filter.mpr ⟨hr.1, decide_eq_true hr.2⟩
    exact List.mem_flatMap.mpr ⟨r, htakes, h.instanceKey_mem hd hr hf he hextend⟩
  key_new := by
    intro d r f e d' previous hd hr hf hattempt hnew hmem
    obtain ⟨hcs, hβ, hbound⟩ := h.admissible hd hr hf
    obtain ⟨-, -, hextend⟩ := attempted_over hattempt hcs hd hβ
    rw [alreadyFired_of_instanceKey hextend hbound hmem] at hnew
    cases hnew

theorem GroundRuleBase.length_keys (h : GroundRuleBase C rules) :
    h.bounded.keys.length = firingBound C rules := by
  show (((pickARule rules).filter fun r => r.name ≠ "not_named").flatMap
    (PickedRule.keys C)).length = _
  unfold firingBound
  induction (pickARule rules).filter fun r => r.name ≠ "not_named" with
  | nil => rfl
  | cons r rs ih => rw [List.flatMap_cons, List.length_append, r.length_keys, ih, List.foldr_cons]

/-- Forward chaining from any facts over the constants ends within as many firings as there are
    ground instances of if and elseif conditions and else branches, and no two records of a run
    agree on branch and condition instance. -/
theorem forward_fires_once (h : GroundRuleBase C rules) {d : Database V} (hd : d.Over C) :
    (∃ fired d', forward factBase rules (firingBound C rules + 1) d = some (fired, d')) ∧
      ∀ fuel fired d', forward factBase rules fuel d = some (fired, d') →
        fired.length ≤ firingBound C rules ∧
        fired.Pairwise fun f f' => ¬ SameInstance f f' := by
  rw [← h.length_keys]
  refine ⟨h.bounded.forward_ends h.distinct hd, ?_⟩
  intro fuel fired d' hrun
  obtain ⟨hnodup, hlength⟩ := h.bounded.forward_keys h.distinct hd hrun
  refine ⟨hlength, (List.pairwise_map.mp hnodup).imp ?_⟩
  intro f f' hne hsame
  exact hne (sameInstance_iff.mp hsame)

end Run

/-- A rule that lights a lamp that is not lit, and puts it out otherwise. -/
def lampRules : List (Rule (Atom Nat)) :=
  [.ifElseIfElse ⟨some "lamp", none⟩
    (.and (.atom ⟨"lamp", [.var 0]⟩) (.not (.atom ⟨"lit", [.var 0]⟩)))
    [.add .assert ⟨"lit", [.var 0]⟩] (.atom ⟨"lit", [.var 0]⟩)
    [.remove .retract ⟨"lit", [.var 0]⟩] [.add .assert ⟨"none", []⟩]]

/-- From `lamp(1)` the lamp is lit, and put out again, and then both instances are fired. -/
theorem forward_fires_once_lamp :
    ∃ fired d', forward factBase lampRules (firingBound {1} lampRules + 1)
      ⟨[⟨"lamp", [1]⟩], []⟩ = some (fired, d') :=
  (forward_fires_once (C := {1}) (.of_sure (by decide) (by decide) (by decide))
    (by unfold Database.Over; decide)).1

end SmartWarehouse.Kbase
