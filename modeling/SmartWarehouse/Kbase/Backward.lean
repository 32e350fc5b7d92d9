/-
  Backward chaining of `RTXengine.pl`.

  `backward_2/3` tries the rules for a goal and then the facts; the condition of the branch it
  selects is split once at its top by `backward_condition/3`. `Proves` is what it searches for:
  a proof with the branches it selects. The answers of a search are proofs
  (`proves_of_mem_backward2`), and an exhausted search has found every proof
  (`mem_backward2_of_proves`).
-/
import SmartWarehouse.Kbase.Forward

namespace SmartWarehouse.Kbase

open SmartWarehouse.Lib

variable {A E D : Type}

/-! ## The engine -/

/-- What backward chaining takes from Prolog beyond calls: the unification of a goal with the
    fact of a conclusion, and a copy of a rule with fresh variables. Facts are predications:
    a `not/1` term cannot be asserted. -/
structure Backward (A E D : Type) extends Prolog A E D where
  unify : Goal A → A → E → Option E
  copy : PickedRule A → E → PickedRule A × E
  unify_not : ∀ g a e, unify (.not g) a e = none

/-- `fired(Branch(Name), Goal, because_of(Condition))`, with the copy of the rule and the
    bindings when the branch was selected. -/
structure FiredBecause (A E : Type) where
  branch : Branch
  rule : PickedRule A
  goal : Goal A
  because : Goal A
  bindings : E

variable (B : Backward A E D) (rules : List (Rule A)) (d : D)

/-- The first solution of `has_goal/2`. -/
def Backward.hasGoal (goal : Goal A) (conclusions : List (Conclusion A)) (e : E) : Option E :=
  [AddForm.assert, .assert_rtx, .asserta, .assertz, .assert_once].findSome? fun form =>
    conclusions.findSome? fun c =>
      match c with
      | .add form' fact => if form' = form then B.unify goal fact e else none
      | _ => none

/-- The first branch of a rule with a conclusion that has the goal. The elseif branch comes
    without the negated if condition. -/
def Backward.selectBranch (goal : Goal A) (r : PickedRule A) (e : E) :
    Option (FiredBecause A E) :=
  match B.hasGoal goal r.conclusions e with
  | some e' => some ⟨.ifBranch, r, goal, r.ifCond, e'⟩
  | none =>
    match B.hasGoal goal r.elseIfConclusions e with
    | some e' => some ⟨.elseIfBranch, r, goal, r.elseIfCond, e'⟩
    | none =>
      match B.hasGoal goal r.elseConclusions e with
      | some e' => some ⟨.elseBranch, r, goal, .and (.not r.ifCond) (.not r.elseIfCond), e'⟩
      | none => none

/-- The branch of a rule for a goal. Backward chaining leaves out two names. -/
def Backward.select (goal : Goal A) (r : PickedRule A) (e : E) : Option (FiredBecause A E) :=
  if r.name = "sequence_not_empty" ∨ r.name = "sequence_empty" then none
  else B.selectBranch goal (B.copy r e).1 (B.copy r e).2

/-- Bindings and the fired rules, latest first. -/
abbrev Backward.Answer (A E : Type) := E × List (FiredBecause A E)

/-- `backward_condition/3`: the top `and/2` or `or/2` is split, its parts are goals. -/
def backwardCondition
    (backward2 : Goal A → List (FiredBecause A E) → E → Search (Backward.Answer A E)) :
    Goal A → List (FiredBecause A E) → E → Search (Backward.Answer A E)
  | .and p q, previous, e => (backward2 p previous e).bind fun r => backward2 q r.2 r.1
  | .or p q, previous, e => (backward2 p previous e).append (backward2 q previous e)
  | p, previous, e => backward2 p previous e

/-- The last two clauses of `backward_2/3`: the goal is tested in the database. -/
def Backward.testGoal (goal : Goal A) (previous : List (FiredBecause A E)) (e : E) :
    Search (Backward.Answer A E) :=
  match goal with
  | .not p => (B.testNot d p e).bind fun e' => .one (e', previous)
  | p => (B.test d p e).bind fun e' => .one (e', previous)

/-- `backward_2/3`, with fuel for its depth. -/
def Backward.backward2 :
    Nat → Goal A → List (FiredBecause A E) → E → Search (Backward.Answer A E)
  | 0, _, _, _ => .timeout
  | fuel + 1, goal, previous, e =>
    (Search.concat (fun r =>
      match B.select goal r e with
      | some x => backwardCondition (Backward.backward2 fuel) x.because (x :: previous) x.bindings
      | none => .fail) (pickARule rules)).append (B.testGoal d goal previous e)

/-- `backward/2`. The list of fired rules is made a set. -/
def Backward.backward (fuel : Nat) (goal : Goal A) : Search (Backward.Answer A E) :=
  B.backward2 rules d fuel goal [] B.empty

/-! ## Proofs -/

/-- Neither `and/2` nor `or/2` at the top. -/
def Goal.Unsplit : Goal A → Prop
  | .and _ _ => False
  | .or _ _ => False
  | _ => True

/-- The goal is true in the database: a negation if its goal does not hold there. -/
def Tested : Goal A → E → E → Prop
  | .not p, e, e' => DoesNotHold B.toProlog d p e ∧ e' = e
  | p, e, e' => e' ∈ (B.solve d p e).answers

/-- `Proves goal e e' fired`: from the bindings `e` the goal has a proof that ends with `e'` and
    selects the branches `fired`, latest first. -/
inductive Proves : Goal A → E → E → List (FiredBecause A E) → Prop where
  | tested {goal : Goal A} {e e' : E} (h : Tested B d goal e e') : Proves goal e e' []
  | rule {goal : Goal A} {e e' : E} {r : PickedRule A} {x : FiredBecause A E}
      {fired : List (FiredBecause A E)} (hr : r ∈ pickARule rules)
      (hx : B.select goal r e = some x) (hsplit : x.because.Unsplit)
      (h : Proves x.because x.bindings e' fired) : Proves goal e e' (fired ++ [x])
  | ruleAnd {goal p q : Goal A} {e e₁ e' : E} {r : PickedRule A} {x : FiredBecause A E}
      {fired₁ fired₂ : List (FiredBecause A E)} (hr : r ∈ pickARule rules)
      (hx : B.select goal r e = some x) (hsplit : x.because = .and p q)
      (hp : Proves p x.bindings e₁ fired₁) (hq : Proves q e₁ e' fired₂) :
    Proves goal e e' (fired₂ ++ (fired₁ ++ [x]))
  | ruleOrLeft {goal p q : Goal A} {e e' : E} {r : PickedRule A} {x : FiredBecause A E}
      {fired : List (FiredBecause A E)} (hr : r ∈ pickARule rules)
      (hx : B.select goal r e = some x) (hsplit : x.because = .or p q)
      (hp : Proves p x.bindings e' fired) : Proves goal e e' (fired ++ [x])
  | ruleOrRight {goal p q : Goal A} {e e' : E} {r : PickedRule A} {x : FiredBecause A E}
      {fired : List (FiredBecause A E)} (hr : r ∈ pickARule rules)
      (hx : B.select goal r e = some x) (hsplit : x.because = .or p q)
      (hq : Proves q x.bindings e' fired) : Proves goal e e' (fired ++ [x])

variable {B rules d}

theorem hasGoal_isSome {goal : Goal A} {cs : List (Conclusion A)} {e : E} :
    (B.hasGoal goal cs e).isSome ↔
      ∃ form fact, .add form fact ∈ cs ∧ (B.unify goal fact e).isSome := by
  unfold Backward.hasGoal
  simp only [List.findSome?_isSome_iff]
  constructor
  · rintro ⟨form, -, c, hc, h⟩
    cases c with
    | add form' fact =>
      replace h : (if form' = form then B.unify goal fact e else none).isSome := h
      by_cases hform : form' = form
      · rw [if_pos hform] at h
        exact ⟨form', fact, hc, h⟩
      · rw [if_neg hform] at h
        cases h
    | remove form' fact => cases h
    | other g => cases h
  · rintro ⟨form, fact, hc, h⟩
    refine ⟨form, by cases form <;> decide, _, hc, ?_⟩
    show (if form = form then B.unify goal fact e else none).isSome
    rw [if_pos rfl]
    exact h

/-- A negated goal is tested as such; any other goal is called. -/
theorem tested_cases (B : Backward A E D) (d : D) (goal : Goal A) :
    (∃ p, goal = .not p) ∨
      (∀ previous e, B.testGoal d goal previous e =
        (B.test d goal e).bind fun e' => .one (e', previous)) ∧
      ∀ e e', Tested B d goal e e' ↔ e' ∈ (B.solve d goal e).answers := by
  cases goal with
  | not p => exact .inl ⟨p, rfl⟩
  | _ => exact .inr ⟨fun _ _ => rfl, fun _ _ => Iff.rfl⟩

theorem mem_testGoal {goal : Goal A} {previous : List (FiredBecause A E)} {e : E}
    {r : Backward.Answer A E} :
    r ∈ (B.testGoal d goal previous e).answers ↔ Tested B d goal e r.1 ∧ r.2 = previous := by
  have key : ∀ s : Search E, r ∈ (s.bind fun e' => .one (e', previous)).answers ↔
      r.1 ∈ s.answers ∧ r.2 = previous := by
    intro s
    rw [Search.mem_bind_of_exhausted fun _ _ => rfl]
    constructor
    · rintro ⟨e', he', hr⟩
      obtain rfl := List.mem_singleton.mp hr
      exact ⟨he', rfl⟩
    · rintro ⟨he', rfl⟩
      exact ⟨r.1, he', List.mem_singleton.mpr rfl⟩
  rcases tested_cases B d goal with ⟨p, rfl⟩ | ⟨hgoal, htested⟩
  · rw [Backward.testGoal, key, B.mem_testNot]
    rfl
  · rw [hgoal, key, Prolog.test_answers, htested]

section

variable {b2 : Goal A → List (FiredBecause A E) → E → Search (Backward.Answer A E)}
  {c : Goal A} {previous : List (FiredBecause A E)} {e : E}

/-- Where an answer for a condition comes from. -/
theorem mem_backwardCondition {r : Backward.Answer A E}
    (h : r ∈ (backwardCondition b2 c previous e).answers) :
    (c.Unsplit ∧ r ∈ (b2 c previous e).answers) ∨
    (∃ p q r₁, c = .and p q ∧ r₁ ∈ (b2 p previous e).answers ∧
      r ∈ (b2 q r₁.2 r₁.1).answers) ∨
    ∃ p q, c = .or p q ∧ (r ∈ (b2 p previous e).answers ∨ r ∈ (b2 q previous e).answers) := by
  cases c with
  | and p q =>
    obtain ⟨r₁, h₁, h₂⟩ := Search.mem_bind h
    exact .inr (.inl ⟨p, q, r₁, rfl, h₁, h₂⟩)
  | or p q =>
    refine .inr (.inr ⟨p, q, rfl, ?_⟩)
    rcases Search.mem_append.mp h with h | ⟨-, h⟩
    · exact .inl h
    · exact .inr h
  | atom a => exact .inl ⟨trivial, h⟩
  | not p => exact .inl ⟨trivial, h⟩
  | true => exact .inl ⟨trivial, h⟩
  | false => exact .inl ⟨trivial, h⟩

theorem backwardCondition_of_unsplit (hc : c.Unsplit) :
    backwardCondition b2 c previous e = b2 c previous e := by
  cases c with
  | and p q => exact hc.elim
  | or p q => exact hc.elim
  | atom a => rfl
  | not p => rfl
  | true => rfl
  | false => rfl

end

/-- Every answer of the search is a proof, whose branches are put before the earlier ones. -/
theorem proves_of_mem_backward2 {fuel : Nat} {goal : Goal A}
    {previous : List (FiredBecause A E)} {e : E} {r : Backward.Answer A E}
    (h : r ∈ (B.backward2 rules d fuel goal previous e).answers) :
    ∃ fired, r.2 = fired ++ previous ∧ Proves B rules d goal e r.1 fired := by
  induction fuel generalizing goal previous e r with
  | zero => cases h
  | succ fuel ih =>
    rw [Backward.backward2] at h
    rcases Search.mem_append.mp h with h | ⟨-, h⟩
    · obtain ⟨rule, hrule, h⟩ := Search.mem_bind h
      rcases hx : B.select goal rule e with _ | x
      · rw [hx] at h
        cases h
      · rw [hx] at h
        rcases mem_backwardCondition h with ⟨hsplit, h⟩ | ⟨p, q, r₁, hsplit, h₁, h⟩ |
          ⟨p, q, hsplit, h | h⟩
        · obtain ⟨fired, hr, hproof⟩ := ih h
          exact ⟨fired ++ [x], by simp [hr], .rule hrule hx hsplit hproof⟩
        · obtain ⟨fired₁, hr₁, hproof₁⟩ := ih h₁
          obtain ⟨fired₂, hr, hproof⟩ := ih h
          refine ⟨fired₂ ++ (fired₁ ++ [x]), by simp [hr, hr₁], ?_⟩
          exact .ruleAnd hrule hx hsplit hproof₁ hproof
        · obtain ⟨fired, hr, hproof⟩ := ih h
          exact ⟨fired ++ [x], by simp [hr], .ruleOrLeft hrule hx hsplit hproof⟩
        · obtain ⟨fired, hr, hproof⟩ := ih h
          exact ⟨fired ++ [x], by simp [hr], .ruleOrRight hrule hx hsplit hproof⟩
    · obtain ⟨htest, hr⟩ := mem_testGoal.mp h
      exact ⟨[], by simp [hr], .tested htest⟩

/-- What an exhausted search has exhausted: the condition of every selected branch. -/
theorem exhausted_condition {fuel : Nat} {goal : Goal A} {previous : List (FiredBecause A E)}
    {e : E} (h : (B.backward2 rules d (fuel + 1) goal previous e).ending = .exhausted)
    {r : PickedRule A} (hr : r ∈ pickARule rules) {x : FiredBecause A E}
    (hx : B.select goal r e = some x) :
    (backwardCondition (B.backward2 rules d fuel) x.because (x :: previous) x.bindings).ending =
        .exhausted ∧
      ∀ a ∈ (backwardCondition (B.backward2 rules d fuel) x.because (x :: previous)
          x.bindings).answers,
        a ∈ (B.backward2 rules d (fuel + 1) goal previous e).answers := by
  rw [Backward.backward2] at h ⊢
  obtain ⟨hrules, -⟩ := Search.append_exhausted.mp h
  have hall := (Search.bind_exhausted.mp hrules).1
  have hthis := hall r hr
  rw [hx] at hthis
  refine ⟨hthis, fun a ha => Search.mem_append.mpr (.inl ?_)⟩
  refine (Search.mem_bind_of_exhausted hall).mpr ⟨r, hr, ?_⟩
  rw [hx]
  exact ha

/-- An exhausted search has found every proof. -/
theorem mem_backward2_of_proves {fuel : Nat} {goal : Goal A}
    {previous fired : List (FiredBecause A E)} {e e' : E}
    (hfin : (B.backward2 rules d fuel goal previous e).ending = .exhausted)
    (h : Proves B rules d goal e e' fired) :
    (e', fired ++ previous) ∈ (B.backward2 rules d fuel goal previous e).answers := by
  induction fuel generalizing goal previous fired e e' with
  | zero => cases hfin
  | succ fuel ih =>
    cases h with
    | tested htest =>
      have happend := hfin
      rw [Backward.backward2] at happend ⊢
      obtain ⟨hrules, -⟩ := Search.append_exhausted.mp happend
      exact (Search.mem_append_of_exhausted hrules).mpr (.inr (mem_testGoal.mpr ⟨htest, rfl⟩))
    | rule hr hx hsplit hproof =>
      obtain ⟨hcond, hmem⟩ := exhausted_condition hfin hr hx
      rw [backwardCondition_of_unsplit hsplit] at hcond hmem
      simpa using hmem _ (ih hcond hproof)
    | @ruleAnd _ p q _ e₁ _ r x fired₁ fired₂ hr hx hsplit hp hq =>
      obtain ⟨hcond, hmem⟩ := exhausted_condition hfin hr hx
      rw [hsplit] at hcond hmem
      obtain ⟨hq', hp'⟩ := Search.bind_exhausted.mp hcond
      have h₁ := ih hp' hp
      have h₂ := ih (hq' _ h₁) hq
      simpa using hmem _ ((Search.mem_bind_of_exhausted hq').mpr ⟨_, h₁, h₂⟩)
    | ruleOrLeft hr hx hsplit hp =>
      obtain ⟨hcond, hmem⟩ := exhausted_condition hfin hr hx
      rw [hsplit] at hcond hmem
      obtain ⟨hp', -⟩ := Search.append_exhausted.mp hcond
      simpa using hmem _ (Search.mem_append.mpr (.inl (ih hp' hp)))
    | ruleOrRight hr hx hsplit hq =>
      obtain ⟨hcond, hmem⟩ := exhausted_condition hfin hr hx
      rw [hsplit] at hcond hmem
      obtain ⟨hp', hq'⟩ := Search.append_exhausted.mp hcond
      simpa using hmem _ ((Search.mem_append_of_exhausted hp').mpr (.inr (ih hq' hq)))

/-! ## Ground atoms -/

/-- Backward chaining over ground atoms of declared predicates: there is nothing to bind, and an
    atom that is no fact fails without an error. -/
def groundAtoms (A : Type) [DecidableEq A] : Backward A Unit (List A) where
  empty := ()
  call facts a _ := if a ∈ facts then .one () else .fail
  unify
    | .atom a, fact, _ => if a = fact then some () else none
    | _, _, _ => none
  copy r e := (r, e)
  unify_not _ _ _ := rfl

end SmartWarehouse.Kbase
