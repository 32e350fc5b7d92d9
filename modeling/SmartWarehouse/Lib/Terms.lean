/-
  Ground terms of any depth, and patterns that are matched with them.

  A pattern binds its variables from left to right, and `anonymous` stands for a variable that
  occurs nowhere else. Against ground terms matching is all of unification. A ground term taken
  as a pattern matches itself and nothing else (`toPattern_matches`).
-/
import Mathlib.Logic.Function.Basic

namespace SmartWarehouse.Lib

inductive GroundTerm (V : Type) where
  | atom (name : String)
  | constant (v : V)
  | compound (name : String) (args : List (GroundTerm V))

inductive Pattern (V : Type) where
  | anonymous
  | var (x : Nat)
  | atom (name : String)
  | constant (v : V)
  | compound (name : String) (args : List (Pattern V))

variable {V : Type}

mutual
def GroundTerm.toPattern : GroundTerm V → Pattern V
  | .atom name => .atom name
  | .constant v => .constant v
  | .compound name args => .compound name (toPatterns args)
def toPatterns : List (GroundTerm V) → List (Pattern V)
  | [] => []
  | t :: ts => t.toPattern :: toPatterns ts
end

variable [DecidableEq V]

mutual
def GroundTerm.decEq : (t u : GroundTerm V) → Decidable (t = u)
  | .atom a, .atom b => decidable_of_iff (a = b) (by simp)
  | .constant v, .constant w => decidable_of_iff (v = w) (by simp)
  | .compound f ts, .compound g us =>
    match decEqTerms ts us with
    | .isTrue h => decidable_of_iff (f = g) (by simp [h])
    | .isFalse h => .isFalse (by simp [h])
  | .atom _, .constant _ => .isFalse (by simp)
  | .atom _, .compound _ _ => .isFalse (by simp)
  | .constant _, .atom _ => .isFalse (by simp)
  | .constant _, .compound _ _ => .isFalse (by simp)
  | .compound _ _, .atom _ => .isFalse (by simp)
  | .compound _ _, .constant _ => .isFalse (by simp)
def decEqTerms : (ts us : List (GroundTerm V)) → Decidable (ts = us)
  | [], [] => .isTrue rfl
  | [], _ :: _ => .isFalse (by simp)
  | _ :: _, [] => .isFalse (by simp)
  | t :: ts, u :: us =>
    match t.decEq u with
    | .isTrue h =>
      match decEqTerms ts us with
      | .isTrue h' => .isTrue (by rw [h, h'])
      | .isFalse h' => .isFalse (by simp [h'])
    | .isFalse h => .isFalse (by simp [h])
end

instance : DecidableEq (GroundTerm V) := GroundTerm.decEq

/-! ## Matching -/

/-- What the variables are bound to so far. -/
abbrev Substitution (V : Type) := Nat → Option (GroundTerm V)

mutual
def Pattern.matchTerm : Pattern V → GroundTerm V → Substitution V → Option (Substitution V)
  | .anonymous, _, σ => some σ
  | .var x, t, σ =>
    if σ x = none then some (Function.update σ x (some t))
    else if σ x = some t then some σ
    else none
  | .atom a, .atom b, σ => if a = b then some σ else none
  | .constant v, .constant w, σ => if v = w then some σ else none
  | .compound f ps, .compound g ts, σ => if f = g then matchTerms ps ts σ else none
  | _, _, _ => none
def matchTerms : List (Pattern V) → List (GroundTerm V) → Substitution V → Option (Substitution V)
  | [], [], σ => some σ
  | p :: ps, t :: ts, σ => (p.matchTerm t σ).bind fun σ' => matchTerms ps ts σ'
  | _, _, _ => none
end

/-- The pattern and the term unify. -/
def Pattern.matchesTerm (p : Pattern V) (t : GroundTerm V) : Bool :=
  (p.matchTerm t fun _ => none).isSome

mutual
/-- A ground pattern binds nothing. -/
theorem matchTerm_toPattern (t u : GroundTerm V) (σ : Substitution V) :
    t.toPattern.matchTerm u σ = if t = u then some σ else none := by
  cases t with
  | atom a => cases u <;> simp [GroundTerm.toPattern, Pattern.matchTerm]
  | constant v => cases u <;> simp [GroundTerm.toPattern, Pattern.matchTerm]
  | compound f ts =>
    cases u with
    | atom b => simp [GroundTerm.toPattern, Pattern.matchTerm]
    | constant w => simp [GroundTerm.toPattern, Pattern.matchTerm]
    | compound g us =>
      rw [GroundTerm.toPattern, Pattern.matchTerm, matchTerms_toPatterns ts us σ]
      by_cases hf : f = g <;> by_cases hts : ts = us <;> simp [hf, hts]
theorem matchTerms_toPatterns (ts us : List (GroundTerm V)) (σ : Substitution V) :
    matchTerms (toPatterns ts) us σ = if ts = us then some σ else none := by
  cases ts with
  | nil => cases us <;> simp [toPatterns, matchTerms]
  | cons t ts =>
    cases us with
    | nil => simp [toPatterns, matchTerms]
    | cons u us =>
      rw [toPatterns, matchTerms, matchTerm_toPattern t u σ]
      by_cases ht : t = u
      · rw [if_pos ht, Option.bind_some, matchTerms_toPatterns ts us σ]
        by_cases hts : ts = us <;> simp [ht, hts]
      · rw [if_neg ht, Option.bind_none, if_neg (by simp [ht])]
end

/-- A ground term unifies with itself only. -/
theorem toPattern_matches (t u : GroundTerm V) : t.toPattern.matchesTerm u = true ↔ t = u := by
  rw [Pattern.matchesTerm, matchTerm_toPattern]
  by_cases h : t = u <;> simp [h]

end SmartWarehouse.Lib
