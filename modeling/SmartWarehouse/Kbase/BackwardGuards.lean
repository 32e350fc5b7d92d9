/-
  The guards of the branches that backward chaining records.

  A recorded branch is `Admitted` if its condition is proved by facts or by other recorded
  branches and the guard of `forward_step/3` for it holds: the if condition does not hold for
  an elseif branch, neither condition holds for an else branch. The search proves all of it but
  the guard of elseif branches, which it does not test (`backward_admits_iff`,
  `elseif_recorded_while_if_holds`).
-/
import SmartWarehouse.Kbase.Backward

namespace SmartWarehouse.Kbase

open SmartWarehouse.Lib

variable {A E D : Type} (B : Backward A E D) (rules : List (Rule A)) (d : D)

/-! ## Recorded branches -/

/-- A proof of a condition, which is split once at its top. -/
def ConditionProved (c : Goal A) (e e' : E) (fired : List (FiredBecause A E)) : Prop :=
  (c.Unsplit ∧ Proves B rules d c e e' fired) ∨
  (∃ p q e₁ fired₁ fired₂, c = .and p q ∧ Proves B rules d p e e₁ fired₁ ∧
    Proves B rules d q e₁ e' fired₂ ∧ fired = fired₂ ++ fired₁) ∨
  ∃ p q, c = .or p q ∧ (Proves B rules d p e e' fired ∨ Proves B rules d q e e' fired)

/-- The guard that `forward_step/3` puts before the condition of a branch. -/
def Guard (x : FiredBecause A E) : Prop :=
  match x.branch with
  | .ifBranch => True
  | .elseIfBranch => DoesNotHold B.toProlog d x.rule.ifCond x.bindings
  | .elseBranch => DoesNotHold B.toProlog d x.rule.ifCond x.bindings ∧
      DoesNotHold B.toProlog d x.rule.elseIfCond x.bindings

/-- A branch of a rule whose guard holds and whose condition is proved with other branches of
    `set`. -/
structure Admitted (set : List (FiredBecause A E)) (x : FiredBecause A E) : Prop where
  selected : ∃ r ∈ pickARule rules, ∃ e, B.select x.goal r e = some x
  proved : ∃ e' fired, ConditionProved B rules d x.because x.bindings e' fired ∧
    fired ⊆ set ∧ x ∉ fired
  guard : Guard B d x

variable {B rules d}

theorem proves_cases {goal : Goal A} {e e' : E} {fired : List (FiredBecause A E)}
    (h : Proves B rules d goal e e' fired) :
    (Tested B d goal e e' ∧ fired = []) ∨
    ∃ r ∈ pickARule rules, ∃ x before, B.select goal r e = some x ∧
      ConditionProved B rules d x.because x.bindings e' before ∧ fired = before ++ [x] := by
  cases h with
  | tested h => exact .inl ⟨h, rfl⟩
  | rule hr hx hsplit h => exact .inr ⟨_, hr, _, _, hx, .inl ⟨hsplit, h⟩, rfl⟩
  | ruleAnd hr hx hsplit hp hq =>
    exact .inr ⟨_, hr, _, _, hx, .inr (.inl ⟨_, _, _, _, _, hsplit, hp, hq, rfl⟩),
      (List.append_assoc ..).symm⟩
  | ruleOrLeft hr hx hsplit hp =>
    exact .inr ⟨_, hr, _, _, hx, .inr (.inr ⟨_, _, hsplit, .inl hp⟩), rfl⟩
  | ruleOrRight hr hx hsplit hq =>
    exact .inr ⟨_, hr, _, _, hx, .inr (.inr ⟨_, _, hsplit, .inr hq⟩), rfl⟩

/-- A branch recorded by the proof of a condition is recorded by the proof of a part. -/
theorem mem_conditionProved {c : Goal A} {e e' : E} {fired : List (FiredBecause A E)}
    (h : ConditionProved B rules d c e e' fired) {x : FiredBecause A E} (hx : x ∈ fired) :
    ∃ p e₁ e₂ part, Proves B rules d p e₁ e₂ part ∧ x ∈ part ∧ part ⊆ fired ∧
      part.length ≤ fired.length := by
  have whole : ∀ {p : Goal A}, Proves B rules d p e e' fired → ∃ p e₁ e₂ part,
      Proves B rules d p e₁ e₂ part ∧ x ∈ part ∧ part ⊆ fired ∧
        part.length ≤ fired.length :=
    fun h => ⟨_, _, _, fired, h, hx, fun _ h => h, le_refl _⟩
  rcases h with ⟨-, h⟩ | ⟨p, q, e₁, fired₁, fired₂, -, hp, hq, rfl⟩ | ⟨p, q, -, h | h⟩
  · exact whole h
  · rcases List.mem_append.mp hx with hx | hx
    · exact ⟨q, e₁, e', fired₂, hq, hx, List.subset_append_left _ _, by simp⟩
    · exact ⟨p, e, e₁, fired₁, hp, hx, List.subset_append_right _ _, by simp⟩
  · exact whole h
  · exact whole h

/-- The three branches that a rule can be selected with. -/
theorem select_cases {goal : Goal A} {r : PickedRule A} {e : E} {x : FiredBecause A E}
    (h : B.select goal r e = some x) :
    x.goal = goal ∧ x.rule = (B.copy r e).1 ∧
      ((x.branch = .ifBranch ∧ x.because = x.rule.ifCond) ∨
        (x.branch = .elseIfBranch ∧ x.because = x.rule.elseIfCond) ∨
        (x.branch = .elseBranch ∧
          x.because = .and (.not x.rule.ifCond) (.not x.rule.elseIfCond))) := by
  unfold Backward.select Backward.selectBranch at h
  split at h
  · cases h
  · split at h
    · cases h
      exact ⟨rfl, rfl, .inl ⟨rfl, rfl⟩⟩
    · split at h
      · cases h
        exact ⟨rfl, rfl, .inr (.inl ⟨rfl, rfl⟩)⟩
      · split at h
        · cases h
          exact ⟨rfl, rfl, .inr (.inr ⟨rfl, rfl⟩)⟩
        · cases h

/-- Every recorded branch was selected, and a smaller part of the record proves its
    condition. -/
theorem mem_proves {goal : Goal A} {e e' : E} {fired : List (FiredBecause A E)}
    (h : Proves B rules d goal e e' fired) {x : FiredBecause A E} (hx : x ∈ fired) :
    (∃ r ∈ pickARule rules, ∃ e₀, B.select x.goal r e₀ = some x) ∧
    ∃ e₁ before, ConditionProved B rules d x.because x.bindings e₁ before ∧
      before ⊆ fired ∧ before.length < fired.length := by
  induction hn : fired.length using Nat.strong_induction_on generalizing goal e e' fired with
  | _ n ih =>
    rcases proves_cases h with ⟨-, rfl⟩ | ⟨r, hr, y, before, hy, hcond, rfl⟩
    · cases hx
    · have hlen : before.length < n := by
        rw [← hn, List.length_append, List.length_singleton]
        omega
      rcases List.mem_append.mp hx with hx | hx
      · obtain ⟨p, e₁, e₂, part, hpart, hxpart, hsub, hle⟩ := mem_conditionProved hcond hx
        obtain ⟨hsel, e₃, before', hcond', hsub', hlt⟩ :=
          ih part.length (by omega) hpart hxpart rfl
        refine ⟨hsel, e₃, before', hcond', fun z hz => ?_, by omega⟩
        exact List.mem_append_left _ (hsub (hsub' hz))
      · obtain rfl := List.mem_singleton.mp hx
        refine ⟨⟨r, hr, e, ?_⟩, e', before, hcond, List.subset_append_left _ _, hlen⟩
        rw [(select_cases hy).1]
        exact hy

/-- A condition proved with its own branch is proved without it: by its deepest record. -/
theorem exists_proved_by_others {x : FiredBecause A E} {e : E}
    {fired : List (FiredBecause A E)}
    (h : ConditionProved B rules d x.because x.bindings e fired) :
    ∃ e' others, ConditionProved B rules d x.because x.bindings e' others ∧
      others ⊆ fired ∧ x ∉ others := by
  induction hn : fired.length using Nat.strong_induction_on generalizing e fired with
  | _ n ih =>
    by_cases hx : x ∈ fired
    · obtain ⟨p, e₁, e₂, part, hpart, hxpart, hsub, hle⟩ := mem_conditionProved h hx
      obtain ⟨-, e₃, before, hbefore, hsub', hlt⟩ := mem_proves hpart hxpart
      obtain ⟨e', others, hothers, hsub'', hnot⟩ := ih before.length (by omega) hbefore rfl
      exact ⟨e', others, hothers, fun z hz => hsub (hsub' (hsub'' hz)), hnot⟩
    · exact ⟨e, fired, h, fun _ h => h, hx⟩

/-! ## Guards -/

theorem hasGoal_not (p : Goal A) (cs : List (Conclusion A)) (e : E) :
    B.hasGoal (.not p) cs e = none := by
  rw [← Option.not_isSome_iff_eq_none, hasGoal_isSome]
  rintro ⟨form, fact, -, h⟩
  rw [B.unify_not] at h
  cases h

/-- No rule has a negated goal: it is tested in the database. -/
theorem proves_not {p : Goal A} {e e' : E} {fired : List (FiredBecause A E)}
    (h : Proves B rules d (.not p) e e' fired) : DoesNotHold B.toProlog d p e ∧ e' = e := by
  rcases proves_cases h with ⟨htest, -⟩ | ⟨r, -, x, before, hx, -⟩
  · exact htest
  · unfold Backward.select Backward.selectBranch at hx
    simp only [hasGoal_not, ite_self] at hx
    cases hx

/-- The condition of an else branch is its guard. -/
theorem guard_of_else {c p q : Goal A} {e e' : E} {fired : List (FiredBecause A E)}
    (hc : c = .and (.not p) (.not q)) (h : ConditionProved B rules d c e e' fired) :
    DoesNotHold B.toProlog d p e ∧ DoesNotHold B.toProlog d q e := by
  subst hc
  rcases h with ⟨hsplit, -⟩ | ⟨p', q', e₁, fired₁, fired₂, heq, hp, hq, -⟩ | ⟨p', q', heq, -⟩
  · exact hsplit.elim
  · cases heq
    obtain ⟨hp, rfl⟩ := proves_not hp
    exact ⟨hp, (proves_not hq).1⟩
  · cases heq

/-- A recorded branch is admitted if its guard holds where backward chaining does not test
    it. -/
theorem admitted_of_proves {goal : Goal A} {e e' : E} {fired : List (FiredBecause A E)}
    (h : Proves B rules d goal e e' fired) {x : FiredBecause A E} (hx : x ∈ fired)
    (helseif : x.branch = .elseIfBranch →
      DoesNotHold B.toProlog d x.rule.ifCond x.bindings) :
    Admitted B rules d fired x := by
  obtain ⟨hsel, e₁, before, hcond, hsub, -⟩ := mem_proves h hx
  obtain ⟨e₂, others, hothers, hsub', hnot⟩ := exists_proved_by_others hcond
  refine ⟨hsel, ⟨e₂, others, hothers, fun z hz => hsub (hsub' hz), hnot⟩, ?_⟩
  unfold Guard
  cases hbranch : x.branch with
  | ifBranch => trivial
  | elseIfBranch => exact helseif hbranch
  | elseBranch =>
    obtain ⟨r, -, e₀, hsel⟩ := hsel
    rcases (select_cases hsel).2.2 with ⟨h, -⟩ | ⟨h, -⟩ | ⟨-, hbecause⟩
    · rw [hbranch] at h
      cases h
    · rw [hbranch] at h
      cases h
    · exact guard_of_else hbecause hothers

/-! ## Backward chaining and the guards -/

/-- No proof of the goal selects an elseif branch whose if condition holds. -/
def KeepsIfFirst (B : Backward A E D) (rules : List (Rule A)) (d : D) (goal : Goal A) : Prop :=
  ∀ e' fired, Proves B rules d goal B.empty e' fired → ∀ x ∈ fired,
    x.branch = .elseIfBranch → DoesNotHold B.toProlog d x.rule.ifCond x.bindings

/-- Every branch recorded in an answer is admitted. -/
def RecordsAdmitted (B : Backward A E D) (rules : List (Rule A)) (d : D) (fuel : Nat)
    (goal : Goal A) : Prop :=
  ∀ r ∈ (B.backward rules d fuel goal).answers, ∀ x ∈ r.2, Admitted B rules d r.2 x

/-- All recorded branches are admitted if no proof selects an elseif branch whose if condition
    holds, and for an exhausted search only if so. -/
theorem backward_admits_iff (B : Backward A E D) (rules : List (Rule A)) (d : D)
    (goal : Goal A) :
    (KeepsIfFirst B rules d goal → ∀ fuel, RecordsAdmitted B rules d fuel goal) ∧
    ∀ fuel, (B.backward rules d fuel goal).ending = .exhausted →
      RecordsAdmitted B rules d fuel goal → KeepsIfFirst B rules d goal := by
  constructor
  · intro hkeeps fuel r hr x hx
    obtain ⟨fired, hfired, hproof⟩ := proves_of_mem_backward2 hr
    rw [List.append_nil] at hfired
    rw [hfired] at hx ⊢
    exact admitted_of_proves hproof hx (hkeeps _ _ hproof x hx)
  · intro fuel hfin hadmitted e' fired hproof x hx hbranch
    have hmem := mem_backward2_of_proves hfin hproof
    rw [List.append_nil] at hmem
    have hguard := (hadmitted _ hmem x hx).guard
    unfold Guard at hguard
    rw [hbranch] at hguard
    exact hguard

/-- `if a then [assert_rtx(b)] elseif c then [assert_rtx(d)]`. -/
def valveRules : List (Rule String) :=
  [.ifElseIf ⟨some "valve", none⟩ (.atom "a") [.add .assert_rtx "b"]
    (.atom "c") [.add .assert_rtx "d"]]

/-- From `c` alone the elseif branch is recorded and admitted. -/
theorem backward_admits_iff_valve :
    ((groundAtoms String).backward valveRules ["c"] 2 (.atom "d")).answers ≠ [] ∧
      RecordsAdmitted (groundAtoms String) valveRules ["c"] 2 (.atom "d") := by
  refine ⟨by decide, (backward_admits_iff _ _ _ _).1 ?_ 2⟩
  intro e' fired hproof x hx _
  obtain ⟨⟨r, hr, e, hsel⟩, -⟩ := mem_proves hproof hx
  obtain rfl := List.mem_singleton.mp hr
  rw [(select_cases hsel).2.1]
  exact ⟨rfl, fun h => by cases h⟩

/-- From `a` and `c` the elseif branch is recorded as well. -/
theorem elseif_recorded_while_if_holds :
    ∃ r ∈ ((groundAtoms String).backward valveRules ["a", "c"] 2 (.atom "d")).answers,
      ∃ x ∈ r.2, x.branch = .elseIfBranch ∧ x.rule.ifCond = .atom "a" ∧
        ¬ Admitted (groundAtoms String) valveRules ["a", "c"] r.2 x := by
  refine ⟨_, List.mem_cons_self, _, List.mem_cons_self, rfl, rfl, fun h => ?_⟩
  have hguard := h.guard.1
  cases hguard

end SmartWarehouse.Kbase
