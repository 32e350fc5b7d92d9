/-
  The check for repeated rule names in `forward/1` of `RTXengine.pl`.

  Before the first step `forward` takes the names and priorities of the rules, subtracts them
  without duplicates and logs what is left. `ord_subtract/3` is for sorted lists, and the rules
  come in the order of the rule base: the check reports two rules of one name only if their
  priorities are equal too, and it may report rules whose names occur once. The log is exact
  under a condition on the order of the rules (`reported_exactly_iff`).
-/
import SmartWarehouse.Lib.OrdSubtract
import SmartWarehouse.Kbase.Forward
import Mathlib.Data.Prod.Lex
import Mathlib.Data.String.Basic

namespace SmartWarehouse.Kbase

open SmartWarehouse.Lib

variable {A : Type}

/-! ## The check -/

/-- The `findall` of `forward/1`. Terms `(Name, P)` are in standard order by name, then by
    priority. -/
def namedRules (rules : List (Rule A)) : List (String ×ₗ Int) :=
  ((pickARule rules).filter fun r => r.name ≠ "not_named").map fun r => toLex (r.name, r.priority)

/-- `tell_if_has_repeated_names/1`: the list in `rules_with_repeated_name`, if any is logged. -/
def tellIfHasRepeatedNames : List (String ×ₗ Int) → Option (List (String ×ₗ Int))
  | [] => none
  | x :: list => some (x :: list)

/-- What `forward/1` logs before it sorts the rules. -/
def loggedNames (rules : List (Rule A)) : Option (List (String ×ₗ Int)) :=
  tellIfHasRepeatedNames (ordSubtract (namedRules rules) (listToSet (namedRules rules)))

theorem sortRules_eq (rules : List (Rule A)) :
    sortRules rules = ((namedRules rules).map ofLex).insertionSort fun a b => a.2 ≥ b.2 := by
  unfold sortRules namedRules
  rw [List.map_map]
  rfl

theorem tellIfHasRepeatedNames_eq_some {l logged : List (String ×ₗ Int)}
    (h : tellIfHasRepeatedNames l = some logged) : logged = l := by
  cases l with
  | nil => cases h
  | cons x l => exact (Option.some.inj h).symm

theorem isSome_tellIfHasRepeatedNames (l : List (String ×ₗ Int)) :
    (tellIfHasRepeatedNames l).isSome ↔ l ≠ [] := by
  cases l <;> simp [tellIfHasRepeatedNames]

/-! ## Names -/

/-- The names that the rules of a base are given. -/
def ruleNames (rules : List (Rule A)) : List String :=
  rules.filterMap fun r => r.picked.attributes.name

theorem pickARule_eq_append (rules : List (Rule A)) :
    pickARule rules = (rules.filter fun r => r.shape = 0).map Rule.picked ++
      ((rules.filter fun r => r.shape = 1).map Rule.picked ++
        ((rules.filter fun r => r.shape = 2).map Rule.picked ++
          (rules.filter fun r => r.shape = 3).map Rule.picked)) := by
  unfold pickARule
  simp only [List.flatMap_cons, List.flatMap_nil, List.append_nil]

theorem pickARule_perm (rules : List (Rule A)) :
    (pickARule rules).Perm (rules.map Rule.picked) := by
  induction rules with
  | nil => exact List.Perm.refl _
  | cons r rules ih =>
    refine List.Perm.trans ?_ (ih.cons r.picked)
    rw [pickARule_eq_append, pickARule_eq_append]
    simp only [List.filter_cons]
    -- the rule stands at the head of its shape, behind the rules of earlier shapes
    cases r with
    | ifElseIfElse at_ c l c' l' e => exact List.Perm.refl _
    | ifElseIf at_ c l c' l' => exact List.perm_middle
    | ifElse at_ c l e => exact (List.perm_middle.append_left _).trans List.perm_middle
    | ifThen at_ c l =>
      exact ((List.perm_middle.append_left _).trans List.perm_middle |>.append_left _).trans
        List.perm_middle

/-- A rule without a name gets one that the check leaves out. -/
theorem names_map_picked (rules : List (Rule A)) :
    ((rules.map Rule.picked).filter fun r => r.name ≠ "not_named").map PickedRule.name =
      (ruleNames rules).filter fun n => n ≠ "not_named" := by
  induction rules with
  | nil => rfl
  | cons r rules ih =>
    unfold ruleNames at ih ⊢
    rw [List.map_cons, List.filter_cons, List.filterMap_cons]
    cases hname : r.picked.attributes.name with
    | none =>
      have hdefault : r.picked.name = "not_named" := by
        unfold PickedRule.name
        rw [hname]
        rfl
      rw [hdefault, ← ih]
      simp
    | some n =>
      have hgiven : r.picked.name = n := by
        unfold PickedRule.name
        rw [hname]
        rfl
      rw [hgiven, List.filter_cons]
      by_cases hn : n = "not_named"
      · rw [if_neg (by simp [hn]), if_neg (by simp [hn]), ih]
      · rw [if_pos (by simp [hn]), if_pos (by simp [hn]), List.map_cons, hgiven, ih]

theorem namedRules_perm (rules : List (Rule A)) :
    ((namedRules rules).map fun e => (ofLex e).1).Perm
      ((ruleNames rules).filter fun n => n ≠ "not_named") := by
  unfold namedRules
  rw [List.map_map, ← names_map_picked]
  exact ((pickARule_perm rules).filter _).map _

/-- A name and priority that stand twice in the list are those of two rules. -/
theorem two_le_count_of_repeated {rules : List (Rule A)} {pre post : List (String ×ₗ Int)}
    {e : String ×ₗ Int} (hsplit : namedRules rules = pre ++ e :: post) (he : e ∈ pre) :
    2 ≤ (ruleNames rules).count (ofLex e).1 := by
  have hperm := (namedRules_perm rules).count_eq (ofLex e).1
  have hle : ((ruleNames rules).filter fun n => n ≠ "not_named").count (ofLex e).1 ≤
      (ruleNames rules).count (ofLex e).1 := List.filter_sublist.count_le _
  have hpos : 0 < (pre.map fun e => (ofLex e).1).count (ofLex e).1 :=
    List.count_pos_iff.mpr (List.mem_map_of_mem (f := fun e => (ofLex e).1) he)
  rw [hsplit, List.map_append, List.map_cons, List.count_append, List.count_cons_self] at hperm
  omega

/-! ## Exactness -/

/-- Repeated names are logged exactly if two rules share a name, and every entry of the log names
    a rule that occurs more than once. -/
def ReportedExactly (rules : List (Rule A)) : Prop :=
  ((loggedNames rules).isSome ↔ ¬ (ruleNames rules).Nodup) ∧
    ∀ logged, loggedNames rules = some logged →
      ∀ e ∈ logged, 2 ≤ (ruleNames rules).count (ofLex e).1

theorem isSome_loggedNames (rules : List (Rule A)) :
    (loggedNames rules).isSome ↔ ¬ (namedRules rules).Nodup := by
  unfold loggedNames
  rw [isSome_tellIfHasRepeatedNames, ne_eq, ordSubtract_listToSet_eq_nil_iff]

theorem not_nodup_of_not_nodup {rules : List (Rule A)} (h : ¬ (namedRules rules).Nodup) :
    ¬ (ruleNames rules).Nodup := by
  rw [nodup_iff_not_mem_before] at h
  push Not at h
  obtain ⟨pre, e, post, hsplit, he⟩ := h
  intro hnodup
  have hle := List.nodup_iff_count_le_one.mp hnodup (ofLex e).1
  have hge := two_le_count_of_repeated hsplit he
  omega

/-- What is logged: what has stood before, and what is smaller than a leading element. -/
theorem mem_loggedNames_iff (rules : List (Rule A)) (e : String ×ₗ Int) :
    (∃ logged, loggedNames rules = some logged ∧ e ∈ logged) ↔
      ∃ pre post, namedRules rules = pre ++ e :: post ∧
        (e ∈ pre ∨ ∃ x, Leading pre x ∧ e < x) := by
  rw [← mem_ordSubtract_listToSet]
  constructor
  · intro ⟨logged, hlog, he⟩
    rwa [← tellIfHasRepeatedNames_eq_some hlog]
  · intro he
    obtain ⟨logged, hlog⟩ := Option.isSome_iff_exists.mp
      ((isSome_tellIfHasRepeatedNames _).mpr (List.ne_nil_of_mem he))
    refine ⟨logged, hlog, ?_⟩
    rwa [tellIfHasRepeatedNames_eq_some hlog]

/-- The log is exact if and only if rules that share a name include two that also share the
    priority, and no rule whose name occurs once is smaller than a leading one before it: a
    repeated name and priority that all new ones since are smaller than. -/
theorem reported_exactly_iff (rules : List (Rule A)) :
    ReportedExactly rules ↔
      (¬ (ruleNames rules).Nodup → ¬ (namedRules rules).Nodup) ∧
        ∀ pre e post, namedRules rules = pre ++ e :: post →
          (ruleNames rules).count (ofLex e).1 < 2 → ∀ x, Leading pre x → ¬ e < x := by
  unfold ReportedExactly
  rw [isSome_loggedNames]
  constructor
  · intro ⟨hiff, hentries⟩
    refine ⟨hiff.mpr, fun pre e post hsplit hcount x hx hlt => ?_⟩
    obtain ⟨logged, hlog, he⟩ :=
      (mem_loggedNames_iff rules e).mpr ⟨pre, post, hsplit, .inr ⟨x, hx, hlt⟩⟩
    have hge := hentries logged hlog e he
    omega
  · intro ⟨hshared, hleading⟩
    refine ⟨⟨not_nodup_of_not_nodup, hshared⟩, fun logged hlog e he => ?_⟩
    obtain ⟨pre, post, hsplit, he | ⟨x, hx, hlt⟩⟩ :=
      (mem_loggedNames_iff rules e).mp ⟨logged, hlog, he⟩
    · exact two_le_count_of_repeated hsplit he
    · by_contra hcount
      exact hleading pre e post hsplit (not_le.mp hcount) x hx hlt

/-- Two rules of one name and different priorities. -/
def twoPriorities : List (Rule String) :=
  [.ifThen ⟨some "r", some 1⟩ .true [], .ifThen ⟨some "r", some 2⟩ .true []]

/-- A rule that stands behind two of a greater name. -/
def thirdSmaller : List (Rule String) :=
  [.ifThen ⟨some "s", none⟩ .true [], .ifThen ⟨some "s", none⟩ .true [],
    .ifThen ⟨some "r", none⟩ .true []]

/-- The first two are not reported; the third one is, though it is the only one of its name. -/
theorem reported_inexactly :
    (loggedNames twoPriorities = none ∧ ¬ ReportedExactly twoPriorities) ∧
      loggedNames thirdSmaller = some [toLex ("s", 0), toLex ("r", 0)] ∧
      ¬ ReportedExactly thirdSmaller := by
  have htwo : loggedNames twoPriorities = none := by decide
  have hthird : loggedNames thirdSmaller = some [toLex ("s", 0), toLex ("r", 0)] := by decide
  refine ⟨⟨htwo, fun h => ?_⟩, hthird, fun h => ?_⟩
  · have hlogged := h.1.mpr (by decide)
    rw [htwo] at hlogged
    cases hlogged
  · exact absurd (h.2 _ hthird (toLex ("r", 0)) (by decide)) (by decide)

end SmartWarehouse.Kbase
