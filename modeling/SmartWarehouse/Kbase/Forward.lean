/-
  Forward chaining of `RTXengine.pl` as a production system.

  One step takes the rules by falling priority, of a rule the branches in order and of a branch
  the instances in the order of its condition's answers, and fires the first instance that does
  not unify with a fired one. A terminating run is a valid run of the production system
  (`doForward_valid`): every entry fires an admissible instance of a rule, no rule of greater
  priority had one left at that point, and at the end no rule has one left.
-/
import SmartWarehouse.Kbase.Rules
import Mathlib.Data.List.Pairwise
import Mathlib.Data.List.Sort
import Mathlib.Data.List.Perm.Subperm

namespace SmartWarehouse.Kbase

open SmartWarehouse.Lib

variable {A E D : Type} (P : Production A E D)

/-! ## The engine -/

/-- `if(Name)`, `elseif(Name)` and `else(Name)`. -/
inductive Branch where
  | ifBranch | elseIfBranch | elseBranch
deriving DecidableEq, Repr

/-- An instance of a branch: the triple that `forward_step/3` records, with the bindings of
    condition and conclusions. -/
structure Fired (A E : Type) where
  branch : Branch
  name : String
  condition : Goal A
  bindings : E
  conclusions : List (Conclusion A)

/-- `member((Branch(Name), Condition, _), PreviousFiredRules)`. The condition recorded for an
    else branch is `true`. -/
def alreadyFired (previous : List (Fired A E)) (f : Fired A E) : Bool :=
  previous.any fun f' => f'.branch = f.branch && f'.name = f.name &&
    (f.branch = .elseBranch || P.alike f.condition f.bindings f'.condition f'.bindings)

/-- A conclusion that fails is logged and the rest goes on. -/
def performConclusions : D → E → List (Conclusion A) → E × D
  | d, e, [] => (e, d)
  | d, e, c :: cs =>
    match P.perform d c e with
    | (some e', d') => performConclusions d' e' cs
    | (none, d') => performConclusions d' e cs

def ifInstances (d : D) (r : PickedRule A) : List E := (P.test d r.ifCond P.empty).answers

def elseIfInstances (d : D) (r : PickedRule A) : List E :=
  if r.elseIfConclusions.length > 0 then
    ((P.testNot d r.ifCond P.empty).bind fun e => P.test d r.elseIfCond e).answers
  else []

def elseInstances (d : D) (r : PickedRule A) : List E :=
  if r.elseConclusions.length > 0 then
    ((P.testNot d r.ifCond P.empty).bind fun e => P.testNot d r.elseIfCond e).answers
  else []

/-- The instances of a rule in the order in which `forward_step/3` tries them. -/
def instances (d : D) (r : PickedRule A) : List (Fired A E) :=
  (ifInstances P d r).map (⟨.ifBranch, r.name, r.ifCond, ·, r.conclusions⟩) ++
  (elseIfInstances P d r).map (⟨.elseIfBranch, r.name, r.elseIfCond, ·, r.elseIfConclusions⟩) ++
  (elseInstances P d r).map (⟨.elseBranch, r.name, .true, ·, r.elseConclusions⟩)

/-- The record of an instance after its conclusions, which may bind more, and the new
    database. -/
def fire (d : D) (f : Fired A E) : Fired A E × D :=
  let (e, d') := performConclusions P d f.bindings f.conclusions
  ({ f with bindings := e }, d')

def forwardStep (rules : List (Rule A)) (sortedRules : List (String × Int))
    (previous : List (Fired A E)) (d : D) : Option (Fired A E × D) :=
  (sortedRules.findSome? fun np => (pickNamed rules np.1 np.2).findSome? fun r =>
    (instances P d r).find? fun f => !alreadyFired P previous f).map (fire P d)

/-- `do_forward/3`, with fuel for its steps. -/
def doForward (rules : List (Rule A)) (sortedRules : List (String × Int)) :
    Nat → List (Fired A E) → D → Option (List (Fired A E) × D)
  | 0, _, _ => none
  | fuel + 1, previous, d =>
    match forwardStep P rules sortedRules previous d with
    | some (f, d') => doForward rules sortedRules fuel (f :: previous) d'
    | none => some (previous, d)

/-- Names and priorities of the named rules, by falling priority. -/
def sortRules (rules : List (Rule A)) : List (String × Int) :=
  (((pickARule rules).filter fun r => r.name ≠ "not_named").map fun r =>
    (r.name, r.priority)).insertionSort fun a b => a.2 ≥ b.2

/-- `forward/1`: the fired rules, first one first, and the database at the end. -/
def forward (rules : List (Rule A)) (fuel : Nat) (d : D) : Option (List (Fired A E) × D) :=
  (doForward P rules (sortRules rules) fuel [] d).map fun r => (r.1.reverse, r.2)

/-! ## Production systems -/

/-- The guard of a branch with its instance: the answer `e` of the condition. An elseif or
    else branch counts if it has a conclusion. -/
inductive Admissible (d : D) (r : PickedRule A) : Fired A E → Prop where
  | ifBranch {e : E} (h : e ∈ (P.solve d r.ifCond P.empty).answers) :
    Admissible d r ⟨.ifBranch, r.name, r.ifCond, e, r.conclusions⟩
  | elseIfBranch {e : E} (hne : r.elseIfConclusions ≠ [])
      (hif : DoesNotHold P.toProlog d r.ifCond P.empty)
      (h : e ∈ (P.solve d r.elseIfCond P.empty).answers) :
    Admissible d r ⟨.elseIfBranch, r.name, r.elseIfCond, e, r.elseIfConclusions⟩
  | elseBranch (hne : r.elseConclusions ≠ []) (hif : DoesNotHold P.toProlog d r.ifCond P.empty)
      (helse : DoesNotHold P.toProlog d r.elseIfCond P.empty) :
    Admissible d r ⟨.elseBranch, r.name, .true, P.empty, r.elseConclusions⟩

/-- All conclusions attempted in order. -/
inductive Attempted : D → E → List (Conclusion A) → E → D → Prop where
  | nil {d : D} {e : E} : Attempted d e [] e d
  | succeeded {d d₁ d' : D} {e e₁ e' : E} {c : Conclusion A} {cs : List (Conclusion A)}
      (h : P.perform d c e = (some e₁, d₁)) (hcs : Attempted d₁ e₁ cs e' d') :
    Attempted d e (c :: cs) e' d'
  | failed {d d₁ d' : D} {e e' : E} {c : Conclusion A} {cs : List (Conclusion A)}
      (h : P.perform d c e = (none, d₁)) (hcs : Attempted d₁ e cs e' d') :
    Attempted d e (c :: cs) e' d'

/-- Every admissible instance of the rule unifies with a fired one. -/
def AllFired (d : D) (previous : List (Fired A E)) (r : PickedRule A) : Prop :=
  ∀ f, Admissible P d r f → alreadyFired P previous f = true

/-- The named rules. -/
def Takes (rules : List (Rule A)) (r : PickedRule A) : Prop :=
  r ∈ pickARule rules ∧ r.name ≠ "not_named"

/-- `ValidRun rules previous d entries d'`: after `previous`, the production system may fire
    `entries` in order from `d` and stops in `d'`. -/
inductive ValidRun (rules : List (Rule A)) :
    List (Fired A E) → D → List (Fired A E) → D → Prop where
  | stop {previous : List (Fired A E)} {d : D}
      (h : ∀ r, Takes rules r → AllFired P d previous r) :
    ValidRun rules previous d [] d
  | fire {previous entries : List (Fired A E)} {d d₁ d' : D} {r : PickedRule A}
      {f : Fired A E} {e : E} (hr : Takes rules r) (hf : Admissible P d r f)
      (hnew : alreadyFired P previous f = false)
      (hpriority : ∀ r', Takes rules r' → r.priority < r'.priority → AllFired P d previous r')
      (hconclusions : Attempted P d f.bindings f.conclusions e d₁)
      (hrest : ValidRun rules ({ f with bindings := e } :: previous) d₁ entries d') :
    ValidRun rules previous d ({ f with bindings := e } :: entries) d'

/-! ## One step -/

variable {P}

/-- What follows a negated test runs from the same bindings, if the goal does not hold. -/
theorem mem_testNot_bind {d : D} {goal : Goal A} {f : E → Search E} {e : E} :
    e ∈ ((P.testNot d goal P.empty).bind f).answers ↔
      DoesNotHold P.toProlog d goal P.empty ∧ e ∈ (f P.empty).answers := by
  rcases P.testNot_answers d goal P.empty with ⟨ha, hg⟩ | ⟨ha, hg⟩
  · rw [Search.bind, ha, Search.bindFrom, Search.mem_append]
    simp [Search.bindFrom, hg]
  · rw [Search.bind, ha]
    simp [Search.bindFrom, hg]

/-- The engine tries exactly the admissible instances. -/
theorem mem_instances {d : D} {r : PickedRule A} {f : Fired A E} :
    f ∈ instances P d r ↔ Admissible P d r f := by
  simp only [instances, ifInstances, elseIfInstances, elseInstances, List.mem_append,
    List.mem_map, Prolog.test_answers, gt_iff_lt, List.length_pos_iff]
  constructor
  · rintro ((⟨e, he, rfl⟩ | ⟨e, he, rfl⟩) | ⟨e, he, rfl⟩)
    · exact .ifBranch he
    · split at he
      · rename_i hne
        obtain ⟨hif, he⟩ := mem_testNot_bind.mp he
        rw [Prolog.test_answers] at he
        exact .elseIfBranch hne hif he
      · cases he
    · split at he
      · rename_i hne
        obtain ⟨hif, he⟩ := mem_testNot_bind.mp he
        obtain ⟨helse, rfl⟩ := P.mem_testNot.mp he
        exact .elseBranch hne hif helse
      · cases he
  · intro h
    cases h with
    | ifBranch h => exact .inl (.inl ⟨_, h, rfl⟩)
    | elseIfBranch hne hif h =>
      refine .inl (.inr ⟨_, ?_, rfl⟩)
      rw [if_pos hne]
      exact mem_testNot_bind.mpr ⟨hif, by rwa [Prolog.test_answers]⟩
    | elseBranch hne hif helse =>
      refine .inr ⟨_, ?_, rfl⟩
      rw [if_pos hne]
      exact mem_testNot_bind.mpr ⟨hif, P.mem_testNot.mpr ⟨helse, rfl⟩⟩

theorem attempted_performConclusions (d : D) (e : E) (cs : List (Conclusion A)) :
    Attempted P d e cs (performConclusions P d e cs).1 (performConclusions P d e cs).2 := by
  induction cs generalizing d e with
  | nil => exact .nil
  | cons c cs ih =>
    unfold performConclusions
    split <;> rename_i h
    · exact .succeeded h (ih _ _)
    · exact .failed h (ih _ _)

/-- No two named rules share their name. -/
def DistinctNames (rules : List (Rule A)) : Prop :=
  (rules.filterMap fun r => r.picked.attributes.name).Nodup

instance (rules : List (Rule A)) : Decidable (DistinctNames rules) :=
  inferInstanceAs (Decidable (List.Nodup _))

theorem DistinctNames.eq_of_name {rules : List (Rule A)} (h : DistinctNames rules)
    {r r' : PickedRule A} (hr : Takes rules r) (hr' : Takes rules r')
    (hname : r.name = r'.name) : r = r' := by
  obtain ⟨ρ, hρ, rfl⟩ := mem_pickARule.mp hr.1
  obtain ⟨ρ', hρ', rfl⟩ := mem_pickARule.mp hr'.1
  have hsome : ∀ p : PickedRule A, p.name ≠ "not_named" → p.attributes.name = some p.name := by
    intro p hp
    unfold PickedRule.name at hp ⊢
    cases hn : p.attributes.name with
    | none => simp [hn] at hp
    | some n => rfl
  by_contra hne
  rw [DistinctNames, List.Nodup, List.pairwise_filterMap] at h
  have : Std.Symm fun a b : Rule A => ∀ n, a.picked.attributes.name = some n → ∀ n',
      b.picked.attributes.name = some n' → n ≠ n' :=
    ⟨fun a b hab n hn n' hn' heq => hab n' hn' n hn heq.symm⟩
  exact h.forall hρ hρ' (fun heq => hne (by rw [heq])) _ (hsome _ hr.2) _ (hsome _ hr'.2) hname

/-- Name and priority of a rule pick the rule itself. -/
theorem mem_pickNamed {rules : List (Rule A)} (hnames : DistinctNames rules)
    {r r' : PickedRule A} (hr : Takes rules r) :
    r' ∈ pickNamed rules r.name r.priority ↔ r' = r := by
  simp only [pickNamed, List.mem_filter, decide_eq_true_eq]
  constructor
  · rintro ⟨hr', hname, -⟩
    have hname' : r'.name = r.name := by
      rcases hname with hname | hname
      · rw [PickedRule.name, hname]; rfl
      · exact absurd hname hr.2
    refine hnames.eq_of_name ⟨hr', ?_⟩ hr hname'
    rw [hname']; exact hr.2
  · rintro rfl
    refine ⟨hr.1, .inl ?_, ?_⟩
    · have := hr.2
      unfold PickedRule.name at this ⊢
      cases hn : r'.attributes.name with
      | none => simp [hn] at this
      | some n => rfl
    · unfold PickedRule.priority
      cases r'.attributes.priority with
      | none => exact .inr rfl
      | some p => exact .inl rfl

theorem mem_sortRules {rules : List (Rule A)} {np : String × Int} :
    np ∈ sortRules rules ↔ ∃ r, Takes rules r ∧ np = (r.name, r.priority) := by
  simp only [sortRules, List.mem_insertionSort, List.mem_map, List.mem_filter, Takes,
    decide_eq_true_eq]
  constructor <;> rintro ⟨r, hr, rfl⟩ <;> exact ⟨r, hr, rfl⟩

theorem sortRules_sorted (rules : List (Rule A)) :
    (sortRules rules).Pairwise fun a b => a.2 ≥ b.2 := by
  unfold sortRules
  have : Std.Total fun a b : String × Int => a.2 ≥ b.2 := ⟨fun a b => le_total b.2 a.2⟩
  have : IsTrans (String × Int) fun a b => a.2 ≥ b.2 := ⟨fun a b c h h' => le_trans h' h⟩
  exact List.pairwise_insertionSort _ _

/-- A step fires an admissible instance that is new, with nothing left at greater priority. -/
theorem forwardStep_some {rules : List (Rule A)} (hnames : DistinctNames rules)
    {previous : List (Fired A E)} {d d' : D} {f' : Fired A E}
    (h : forwardStep P rules (sortRules rules) previous d = some (f', d')) :
    ∃ r f e, Takes rules r ∧ Admissible P d r f ∧ alreadyFired P previous f = false ∧
      (∀ r', Takes rules r' → r.priority < r'.priority → AllFired P d previous r') ∧
      Attempted P d f.bindings f.conclusions e d' ∧ f' = { f with bindings := e } := by
  obtain ⟨f, hf, hfire⟩ := Option.map_eq_some_iff.mp h
  obtain ⟨before, np, after, hsorted, hnp, hbefore⟩ := List.findSome?_eq_some_iff.mp hf
  obtain ⟨r, hr, hfound⟩ := List.exists_of_findSome?_eq_some hnp
  obtain ⟨r₀, hr₀, rfl⟩ := mem_sortRules.mp (by rw [hsorted]; simp : np ∈ sortRules rules)
  obtain rfl := (mem_pickNamed hnames hr₀).mp hr
  refine ⟨r, f, (performConclusions P d f.bindings f.conclusions).1, hr₀,
    mem_instances.mp (List.mem_of_find?_eq_some hfound), ?_, ?_, ?_, ?_⟩
  · simpa using List.find?_some hfound
  · intro r' hr' hlt f'' hf''
    -- a rule of greater priority comes before `r`, where no instance was found
    have hmem : (r'.name, r'.priority) ∈ before := by
      have hin := mem_sortRules.mpr ⟨r', hr', rfl⟩
      have hsort := sortRules_sorted rules
      rw [hsorted] at hin hsort
      rcases List.mem_append.mp hin with hin | hin
      · exact hin
      · have hle := (List.pairwise_cons.mp (List.pairwise_append.mp hsort).2.1).1
        rcases List.mem_cons.mp hin with heq | hin
        · have := congrArg Prod.snd heq
          simp only at this
          omega
        · have := hle _ hin
          simp only at this
          omega
    have hnone := List.findSome?_eq_none_iff.mp (hbefore _ hmem) r'
      ((mem_pickNamed hnames hr').mpr rfl)
    simpa using List.find?_eq_none.mp hnone f'' (mem_instances.mpr hf'')
  · obtain ⟨-, rfl⟩ := Prod.mk.inj hfire
    exact attempted_performConclusions d f.bindings f.conclusions
  · exact (congrArg Prod.fst hfire).symm

theorem forwardStep_none {rules : List (Rule A)} (hnames : DistinctNames rules)
    {previous : List (Fired A E)} {d : D}
    (h : forwardStep P rules (sortRules rules) previous d = none) {r : PickedRule A}
    (hr : Takes rules r) : AllFired P d previous r := by
  intro f hf
  have hnone := Option.map_eq_none_iff.mp h
  have hnp := List.findSome?_eq_none_iff.mp hnone _ (mem_sortRules.mpr ⟨r, hr, rfl⟩)
  have hfind := List.findSome?_eq_none_iff.mp hnp r ((mem_pickNamed hnames hr).mpr rfl)
  simpa using List.find?_eq_none.mp hfind f (mem_instances.mpr hf)

/-! ## Whole runs -/

theorem doForward_valid {rules : List (Rule A)} (hnames : DistinctNames rules) {fuel : Nat}
    {previous fired : List (Fired A E)} {d d' : D}
    (h : doForward P rules (sortRules rules) fuel previous d = some (fired, d')) :
    ∃ entries, fired = entries.reverse ++ previous ∧ ValidRun P rules previous d entries d' := by
  induction fuel generalizing previous d with
  | zero => cases h
  | succ fuel ih =>
    rw [doForward] at h
    split at h
    · rename_i f' d₁ hstep
      obtain ⟨r, f, e, hr, hf, hnew, hpriority, hconclusions, rfl⟩ :=
        forwardStep_some hnames hstep
      obtain ⟨entries, rfl, hrest⟩ := ih h
      refine ⟨{ f with bindings := e } :: entries, by simp, ?_⟩
      exact .fire hr hf hnew hpriority hconclusions hrest
    · rename_i hstep
      obtain ⟨rfl, rfl⟩ := Prod.mk.inj (Option.some.inj h)
      exact ⟨[], rfl, .stop fun r hr => forwardStep_none hnames hstep hr⟩

theorem forward_validRun {rules : List (Rule A)} (hnames : DistinctNames rules) {fuel : Nat}
    {fired : List (Fired A E)} {d d' : D} (h : forward P rules fuel d = some (fired, d')) :
    ValidRun P rules [] d fired d' := by
  obtain ⟨⟨reversed, d''⟩, hdo, heq⟩ := Option.map_eq_some_iff.mp h
  obtain ⟨entries, hentries, hrun⟩ := doForward_valid hnames hdo
  obtain ⟨rfl, rfl⟩ := Prod.mk.inj heq
  rw [hentries]
  simpa using hrun

/-! ## Termination -/

/-- An invariant of the database under which the records of a run have pairwise different keys
    from a finite list. -/
structure Bounded (P : Production A E D) (rules : List (Rule A)) (K : Type) where
  invariant : D → Prop
  key : Fired A E → K
  keys : List K
  preserved : ∀ {d r f e d'}, invariant d → Takes rules r → Admissible P d r f →
    Attempted P d f.bindings f.conclusions e d' → invariant d'
  key_mem : ∀ {d r f e d'}, invariant d → Takes rules r → Admissible P d r f →
    Attempted P d f.bindings f.conclusions e d' → key { f with bindings := e } ∈ keys
  key_new : ∀ {d r f e d'} {previous : List (Fired A E)}, invariant d → Takes rules r →
    Admissible P d r f → Attempted P d f.bindings f.conclusions e d' →
    alreadyFired P previous f = false → key { f with bindings := e } ∉ previous.map key

theorem Bounded.doForward_terminates {K : Type} {rules : List (Rule A)}
    (B : Bounded P rules K) (hnames : DistinctNames rules) {n : Nat}
    {previous : List (Fired A E)} {d : D} (hd : B.invariant d)
    (hnodup : (previous.map B.key).Nodup) (hsub : previous.map B.key ⊆ B.keys)
    (hn : B.keys.length ≤ previous.length + n) :
    ∃ result, doForward P rules (sortRules rules) (n + 1) previous d = some result := by
  induction n generalizing previous d with
  | zero =>
    rw [doForward]
    split
    · rename_i f' d' hstep
      -- the records would be more than there are keys
      exfalso
      obtain ⟨r, f, e, hr, hf, hnew, -, hconclusions, rfl⟩ := forwardStep_some hnames hstep
      have hlt := (List.nodup_cons.mpr ⟨B.key_new hd hr hf hconclusions hnew, hnodup⟩).subperm
        (List.cons_subset.mpr ⟨B.key_mem hd hr hf hconclusions, hsub⟩) |>.length_le
      rw [List.length_cons, List.length_map] at hlt
      omega
    · exact ⟨_, rfl⟩
  | succ n ih =>
    rw [doForward]
    split
    · rename_i f' d' hstep
      obtain ⟨r, f, e, hr, hf, hnew, -, hconclusions, rfl⟩ := forwardStep_some hnames hstep
      refine ih (B.preserved hd hr hf hconclusions) ?_ ?_ ?_
      · exact List.nodup_cons.mpr ⟨B.key_new hd hr hf hconclusions hnew, hnodup⟩
      · exact List.cons_subset.mpr ⟨B.key_mem hd hr hf hconclusions, hsub⟩
      · rw [List.length_cons]
        omega
    · exact ⟨_, rfl⟩

theorem Bounded.forward_terminates {K : Type} {rules : List (Rule A)} (B : Bounded P rules K)
    (hnames : DistinctNames rules) {d : D} (hd : B.invariant d) :
    ∃ fuel fired d', forward P rules fuel d = some (fired, d') := by
  have hnodup : (([] : List (Fired A E)).map B.key).Nodup := List.nodup_nil
  obtain ⟨⟨reversed, d'⟩, hdo⟩ := B.doForward_terminates hnames hd hnodup (List.nil_subset _)
    (by simp : B.keys.length ≤ [].length + B.keys.length)
  exact ⟨B.keys.length + 1, reversed.reverse, d', by rw [forward, hdo]; rfl⟩

/-! ## Invariants of the database -/

/-- The conclusions of all branches. -/
def PickedRule.allConclusions (r : PickedRule A) : List (Conclusion A) :=
  r.conclusions ++ (r.elseIfConclusions ++ r.elseConclusions)

theorem performConclusions_invariant {I : D → Prop} {cs : List (Conclusion A)}
    (hcs : ∀ c ∈ cs, ∀ d e, I d → I (P.perform d c e).2) {d : D} (e : E) (hd : I d) :
    I (performConclusions P d e cs).2 := by
  induction cs generalizing d e with
  | nil => exact hd
  | cons c cs ih =>
    have hc := hcs c List.mem_cons_self d e hd
    have hrest : ∀ c ∈ cs, ∀ d e, I d → I (P.perform d c e).2 :=
      fun c hmem => hcs c (List.mem_cons_of_mem _ hmem)
    unfold performConclusions
    split
    · rename_i e' d' hperform
      rw [hperform] at hc
      exact ih hrest e' hc
    · rename_i d' hperform
      rw [hperform] at hc
      exact ih hrest e hc

/-- An instance carries the conclusions of one branch of its rule. -/
theorem mem_allConclusions {d : D} {r : PickedRule A} {f : Fired A E} (hf : f ∈ instances P d r)
    {c : Conclusion A} (hc : c ∈ f.conclusions) : c ∈ r.allConclusions := by
  unfold PickedRule.allConclusions
  rw [List.mem_append, List.mem_append]
  cases mem_instances.mp hf with
  | ifBranch h => exact .inl hc
  | elseIfBranch hne hif h => exact .inr (.inl hc)
  | elseBranch hne hif helse => exact .inr (.inr hc)

/-- Every conclusion of the rules keeps `I`. -/
def KeptByConclusions (P : Production A E D) (rules : List (Rule A)) (I : D → Prop) : Prop :=
  ∀ rule ∈ rules, ∀ c ∈ rule.picked.allConclusions, ∀ d e, I d → I (P.perform d c e).2

theorem forwardStep_invariant {I : D → Prop} {rules : List (Rule A)}
    (hI : KeptByConclusions P rules I) {sorted : List (String × Int)}
    {previous : List (Fired A E)} {f' : Fired A E} {d d' : D} (hd : I d)
    (h : forwardStep P rules sorted previous d = some (f', d')) : I d' := by
  obtain ⟨f, hf, hfire⟩ := Option.map_eq_some_iff.mp h
  obtain ⟨np, -, hnp⟩ := List.exists_of_findSome?_eq_some hf
  obtain ⟨r, hr, hfound⟩ := List.exists_of_findSome?_eq_some hnp
  obtain ⟨rule, hrule, rfl⟩ := mem_pickARule.mp (List.mem_of_mem_filter hr)
  rw [← (Prod.mk.inj hfire).2]
  apply performConclusions_invariant _ _ hd
  intro c hc
  exact hI rule hrule c (mem_allConclusions (List.mem_of_find?_eq_some hfound) hc)

theorem doForward_invariant {I : D → Prop} {rules : List (Rule A)}
    (hI : KeptByConclusions P rules I) {sorted : List (String × Int)} {fuel : Nat}
    {previous fired : List (Fired A E)} {d d' : D} (hd : I d)
    (h : doForward P rules sorted fuel previous d = some (fired, d')) : I d' := by
  induction fuel generalizing previous d with
  | zero => cases h
  | succ fuel ih =>
    unfold doForward at h
    split at h
    · rename_i f d₁ hstep
      exact ih (forwardStep_invariant hI hd hstep) h
    · obtain ⟨-, rfl⟩ := Prod.mk.inj (Option.some.inj h)
      exact hd

/-- What every conclusion of the rules keeps, a forward run keeps. -/
theorem forward_invariant {I : D → Prop} {rules : List (Rule A)}
    (hI : KeptByConclusions P rules I) {fuel : Nat} {fired : List (Fired A E)} {d d' : D}
    (hd : I d) (h : forward P rules fuel d = some (fired, d')) : I d' := by
  obtain ⟨⟨reversed, d₁⟩, hdo, heq⟩ := Option.map_eq_some_iff.mp h
  rw [← (Prod.mk.inj heq).2]
  exact doForward_invariant hI hd hdo

end SmartWarehouse.Kbase
