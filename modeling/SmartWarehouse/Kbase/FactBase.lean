/-
  Databases of ground facts, and conditions over function-free atoms.

  The arguments of a fact are values of any type. An atom matches the facts of its predicate
  one by one and binds its variables to values. `factBase` is the instance for the engine, over
  declared predicates (`factCalls`). The instances of a positive condition are those that are true
  in the facts (`Goal.Instance.holds`, `exists_instance`); so its answers are sound
  (`solved_of_mem_solve`) and, up to the commitment of `or/2`, complete (`exists_mem_solve`).
-/
import SmartWarehouse.Kbase.ConditionMeaning
import Mathlib.Data.Set.Basic

namespace SmartWarehouse.Kbase

open SmartWarehouse.Lib

/-! ## Atoms, facts and matching -/

inductive Arg (V : Type) where
  | var (x : Nat)
  | val (v : V)
deriving DecidableEq, Repr

structure Atom (V : Type) where
  pred : String
  args : List (Arg V)
deriving DecidableEq, Repr

structure Fact (V : Type) where
  pred : String
  args : List V
deriving DecidableEq, Repr

/-- The clauses of the declared predicates, and the mirror `rtx/1`. -/
structure Database (V : Type) where
  facts : List (Fact V)
  rtx : List (Fact V)
deriving DecidableEq, Repr

variable {V : Type} [DecidableEq V]

def matchArg : Arg V → V → Bindings V → Option (Bindings V)
  | .val v, w, β => if v = w then some β else none
  | .var x, w, β =>
    match β x with
    | some v => if v = w then some β else none
    | none => some (Function.update β x (some w))

def matchArgs : List (Arg V) → List V → Bindings V → Option (Bindings V)
  | [], [], β => some β
  | a :: as, w :: ws, β => (matchArg a w β).bind fun β' => matchArgs as ws β'
  | _, _, _ => none

def Atom.matchFact (a : Atom V) (f : Fact V) (β : Bindings V) : Option (Bindings V) :=
  if a.pred = f.pred then matchArgs a.args f.args β else none

/-- The facts that match, in order. Declared predicates raise no error. -/
def callAtom (db : Database V) (a : Atom V) (β : Bindings V) : Search (Bindings V) :=
  .ofList (db.facts.filterMap fun f => a.matchFact f β)

def Arg.value (β : Bindings V) : Arg V → Option V
  | .var x => β x
  | .val v => some v

/-- The fact that a ground instance of an atom is. -/
def Atom.ground (a : Atom V) (β : Bindings V) : Option (Fact V) :=
  (a.args.mapM (Arg.value β)).map fun args => ⟨a.pred, args⟩

/-! ## Database updates -/

/-- `functor/3` tells the facts apart by name and arity. -/
def Fact.sameFunctor (f g : Fact V) : Bool := f.pred = g.pred && f.args.length = g.args.length

def Database.add (db : Database V) (f : Fact V) : AddForm → Database V
  | .assert => { db with facts := db.facts ++ [f] }
  | .assertz => { db with facts := db.facts ++ [f] }
  | .asserta => { db with facts := f :: db.facts }
  | .assert_rtx => ⟨db.facts ++ [f], db.rtx ++ [f]⟩
  | .assert_once =>
    -- the first fact of the functor binds the pattern that `retractall` gets
    match db.facts.find? f.sameFunctor with
    | some g => { db with facts := db.facts.filter (· ≠ g) ++ [f] }
    | none => { db with facts := db.facts ++ [f] }

/-- The first fact that unifies, taken out, with what unifying binds. -/
def retractOne {F E : Type} (unify : F → Option E) : List F → Option (E × List F)
  | [] => none
  | f :: fs =>
    match unify f with
    | some e => some (e, fs)
    | none => (retractOne unify fs).map fun r => (r.1, f :: r.2)

/-- `retract(Fact), retract(rtx(Fact))` over the facts in order: every fact that unifies is taken
    out, and if the second retract fails with it, the first goes on to the next fact. What the
    second leaves, and the facts left. -/
def retractBoth {F E R : Type} (unify : F → Option E) (mirror : F → E → Option R) :
    List F → Option R × List F
  | [] => (none, [])
  | f :: fs =>
    match unify f with
    | some e =>
      match mirror f e with
      | some r => (some r, fs)
      | none => retractBoth unify mirror fs
    | none =>
      let r := retractBoth unify mirror fs
      (r.1, f :: r.2)

/-- The first matching fact, taken out. -/
def retractFirst (a : Atom V) (β : Bindings V) :
    List (Fact V) → Option (Bindings V × List (Fact V)) := retractOne fun f => a.matchFact f β

/-- `retract(Fact), retract(rtx(Fact))`: every matching fact tried is taken out, until one is
    mirrored. -/
def retractRtx (a : Atom V) (β : Bindings V) (rtx : List (Fact V)) :
    List (Fact V) → Option (Bindings V × List (Fact V)) × List (Fact V) :=
  retractBoth (fun f => a.matchFact f β) fun f β' =>
    if f ∈ rtx then some (β', rtx.erase f) else none

def Database.remove (db : Database V) (a : Atom V) (β : Bindings V) :
    RemoveForm → Option (Bindings V) × Database V
  | .retract =>
    match retractFirst a β db.facts with
    | some (β', facts) => (some β', { db with facts := facts })
    | none => (none, db)
  | .retract_rtx =>
    match retractRtx a β db.rtx db.facts with
    | (some (β', rtx), facts) => (some β', ⟨facts, rtx⟩)
    | (none, facts) => (none, { db with facts := facts })

/-- The first solution of a conclusion. An added fact is ground once the condition holds; what
    adding another one does is not modelled. -/
def performFact (db : Database V) (c : Conclusion (Atom V)) (β : Bindings V) :
    Option (Bindings V) × Database V :=
  match c with
  | .add form a =>
    match a.ground β with
    | some f => (some β, db.add f form)
    | none => (none, db)
  | .remove form a => db.remove a β form
  | .other a => ((callAtom db a β).answers.head?, db)

/-! ## Updates called from outside the rules -/

/-- `retract(Fact), retract(rtx(Fact))` where the first retract binds `Fact`. The fact retracted and
    the mirror, and the facts left. -/
def retractMirrored (pattern : Fact V → Bool) (rtx : List (Fact V)) :
    List (Fact V) → Option (Fact V × List (Fact V)) × List (Fact V) :=
  retractBoth (fun f => if pattern f then some f else none) fun f _ =>
    if f ∈ rtx then some (f, rtx.erase f) else none

/-- Whether the call succeeds, and the database after it. -/
def Database.retractRtx (db : Database V) (pattern : Fact V → Bool) : Bool × Database V :=
  match retractMirrored pattern db.rtx db.facts with
  | (some (_, rtx), facts) => (true, ⟨facts, rtx⟩)
  | (none, facts) => (false, { db with facts := facts })

/-- `forall(rtx(Fact), retract(Fact))`: it stops at the first fact that is not there. -/
def forallRetract : List (Fact V) → List (Fact V) → Bool × List (Fact V)
  | [], facts => (true, facts)
  | f :: rtx, facts => if f ∈ facts then forallRetract rtx (facts.erase f) else (false, facts)

def Database.retractallRtx (db : Database V) : Bool × Database V :=
  match forallRetract db.rtx db.facts with
  | (true, facts) => (true, ⟨facts, []⟩)
  | (false, facts) => (false, { db with facts := facts })

section

omit [DecidableEq V]

variable {F E R : Type} {unify : F → Option E} {mirror : F → E → Option R}

theorem retractOne_some {fs rest : List F} {e : E} (h : retractOne unify fs = some (e, rest)) :
    (∃ f ∈ fs, unify f = some e) ∧ rest ⊆ fs := by
  induction fs generalizing rest with
  | nil => cases h
  | cons f fs ih =>
    rw [retractOne] at h
    split at h
    · rename_i hunify
      obtain ⟨rfl, rfl⟩ := Prod.mk.inj (Option.some.inj h)
      exact ⟨⟨f, List.mem_cons_self, hunify⟩, List.subset_cons_self _ _⟩
    · obtain ⟨⟨e', rest'⟩, hrest, heq⟩ := Option.map_eq_some_iff.mp h
      obtain ⟨rfl, rfl⟩ := Prod.mk.inj heq
      obtain ⟨⟨g, hg, hunify⟩, hsub⟩ := ih hrest
      exact ⟨⟨g, List.mem_cons_of_mem _ hg, hunify⟩, List.cons_subset_cons _ hsub⟩

theorem retractBoth_some {fs : List F} {r : R} (h : (retractBoth unify mirror fs).1 = some r) :
    ∃ f ∈ fs, ∃ e, unify f = some e ∧ mirror f e = some r := by
  induction fs with
  | nil => cases h
  | cons f fs ih =>
    have hlater : (retractBoth unify mirror fs).1 = some r →
        ∃ g ∈ f :: fs, ∃ e, unify g = some e ∧ mirror g e = some r := fun h =>
      (ih h).imp fun _ => And.imp_left (List.mem_cons_of_mem _)
    rw [retractBoth] at h
    split at h
    · rename_i e hunify
      split at h
      · rename_i r' hmirror
        exact ⟨f, List.mem_cons_self, e, hunify, hmirror.trans h⟩
      · exact hlater h
    · exact hlater h

theorem retractBoth_sublist (fs : List F) : (retractBoth unify mirror fs).2.Sublist fs := by
  induction fs with
  | nil => exact .slnil
  | cons f fs ih =>
    rw [retractBoth]
    split
    · split
      · exact List.sublist_cons_self _ _
      · exact ih.cons _
    · exact ih.cons_cons _

end

theorem retractRtx_cons (a : Atom V) (β : Bindings V) (rtx : List (Fact V)) (f : Fact V)
    (fs : List (Fact V)) : retractRtx a β rtx (f :: fs) =
      match a.matchFact f β with
      | some β' => if f ∈ rtx then (some (β', rtx.erase f), fs) else retractRtx a β rtx fs
      | none => ((retractRtx a β rtx fs).1, f :: (retractRtx a β rtx fs).2) := by
  unfold retractRtx
  rw [retractBoth]
  cases a.matchFact f β with
  | none => rfl
  | some β' => by_cases hf : f ∈ rtx <;> simp only [hf, if_true, if_false]

theorem retractMirrored_cons (pattern : Fact V → Bool) (rtx : List (Fact V)) (f : Fact V)
    (fs : List (Fact V)) : retractMirrored pattern rtx (f :: fs) =
      if pattern f then
        if f ∈ rtx then (some (f, rtx.erase f), fs) else retractMirrored pattern rtx fs
      else ((retractMirrored pattern rtx fs).1, f :: (retractMirrored pattern rtx fs).2) := by
  unfold retractMirrored
  rw [retractBoth]
  by_cases hp : pattern f
  · by_cases hf : f ∈ rtx <;> simp only [hp, hf, if_true, if_false]
  · rw [if_neg hp, if_neg hp]

/-! ## The instance -/

def Arg.vars : Arg V → List Nat
  | .var x => [x]
  | .val _ => []

def Atom.vars (a : Atom V) : List Nat := a.args.flatMap Arg.vars

instance : HasVars (Atom V) := ⟨Atom.vars⟩

/-- Two instances of one condition over values unify if no variable is bound to two values. -/
def alikeInstances (goal : Goal (Atom V)) (β : Bindings V) (goal' : Goal (Atom V))
    (β' : Bindings V) : Bool :=
  goal = goal' && goal.vars.all fun x =>
    match β x, β' x with
    | some v, some w => v = w
    | _, _ => true

/-- The engine over the facts of declared predicates. -/
def factBase : Production (Atom V) (Bindings V) (Database V) where
  empty := fun _ => none
  call := callAtom
  perform := performFact
  alike := alikeInstances

/-! ## What conditions mean -/

def Arg.eval (σ : Nat → V) : Arg V → V
  | .var x => σ x
  | .val v => v

def Atom.eval (σ : Nat → V) (a : Atom V) : Fact V := ⟨a.pred, a.args.map (Arg.eval σ)⟩

/-- The instance of a condition under `σ` is true in the facts `S`. -/
def Goal.Holds (S : Set (Fact V)) (σ : Nat → V) : Goal (Atom V) → Prop
  | .atom a => a.eval σ ∈ S
  | .and p q => p.Holds S σ ∧ q.Holds S σ
  | .or p q => p.Holds S σ ∨ q.Holds S σ
  | .not p => ¬ p.Holds S σ
  | .true => True
  | .false => False

/-- Atoms combined with `and/2` and `or/2`. -/
def Goal.Positive {A : Type} : Goal A → Prop
  | .atom _ => True
  | .and p q => p.Positive ∧ q.Positive
  | .or p q => p.Positive ∧ q.Positive
  | _ => False

/-- The bindings give no other value than `σ`. -/
def Agrees (σ : Nat → V) (β : Bindings V) : Prop := ∀ x v, β x = some v → σ x = v

omit [DecidableEq V] in
theorem Agrees.of_extends {σ : Nat → V} {β β' : Bindings V} (h : Extends β β')
    (h' : Agrees σ β') : Agrees σ β := fun x v hx => h' x v (h x v hx)

/-- One argument either has the value already, or is a variable that gets it. -/
theorem matchArg_cases {a : Arg V} {w : V} {β β' : Bindings V} (h : matchArg a w β = some β') :
    (a.value β = some w ∧ β' = β) ∨
      ∃ x, a = .var x ∧ β x = none ∧ β' = Function.update β x (some w) := by
  cases a with
  | val v =>
    rw [matchArg] at h
    split at h
    · rename_i hv
      rw [hv]
      exact .inl ⟨rfl, (Option.some.inj h).symm⟩
    · cases h
  | var x =>
    simp only [matchArg] at h
    cases hx : β x with
    | some v =>
      rw [hx] at h
      simp only at h
      split at h
      · rename_i hv
        rw [← hv]
        exact .inl ⟨hx, (Option.some.inj h).symm⟩
      · cases h
    | none =>
      rw [hx] at h
      exact .inr ⟨x, rfl, hx, (Option.some.inj h).symm⟩

/-- What matching against a list of values does to the bindings. -/
structure Matched (args : List (Arg V)) (values : List V) (β β' : Bindings V) : Prop where
  extend : Extends β β'
  bound : ∀ x ∈ args.flatMap Arg.vars, (β' x).isSome
  source : ∀ x v, β' x = some v → β x = some v ∨ v ∈ values
  frame : ∀ x, x ∉ args.flatMap Arg.vars → β' x = β x
  eval : ∀ σ, Agrees σ β' → args.map (Arg.eval σ) = values

omit [DecidableEq V] in
theorem Arg.eval_of_value {a : Arg V} {β : Bindings V} {w : V} (h : a.value β = some w)
    {σ : Nat → V} (hσ : Agrees σ β) : a.eval σ = w := by
  cases a with
  | var x => exact hσ x w h
  | val v => exact Option.some.inj h

theorem matchArg_matched {a : Arg V} {w : V} {β β' : Bindings V}
    (h : matchArg a w β = some β') : Matched [a] [w] β β' := by
  rcases matchArg_cases h with ⟨hvalue, rfl⟩ | ⟨x, rfl, hx, rfl⟩
  · refine ⟨.refl _, fun x hxa => ?_, fun _ _ hx => .inl hx, fun _ _ => rfl, fun σ hσ => ?_⟩
    · cases a with
      | var y =>
        obtain rfl : x = y := by simpa [Arg.vars] using hxa
        rw [show β' x = some w from hvalue]; rfl
      | val v => simp [Arg.vars] at hxa
    · rw [List.map_singleton, Arg.eval_of_value hvalue hσ]
  · refine ⟨fun y v hy => ?_, fun y hy => ?_, fun y v hy => ?_, fun y hy => ?_, fun σ hσ => ?_⟩
    · have hne : y ≠ x := fun h => by rw [h, hx] at hy; cases hy
      rw [Function.update_of_ne hne, hy]
    · obtain rfl : y = x := by simpa [Arg.vars] using hy
      simp
    · by_cases hne : y = x
      · subst hne
        rw [Function.update_self] at hy
        exact .inr (by simp [Option.some.inj hy])
      · rw [Function.update_of_ne hne] at hy
        exact .inl hy
    · have hne : y ≠ x := by simpa [Arg.vars] using hy
      rw [Function.update_of_ne hne]
    · rw [List.map_singleton, Arg.eval, hσ x w (by simp)]

theorem matchArgs_matched {args : List (Arg V)} {values : List V} {β β' : Bindings V}
    (h : matchArgs args values β = some β') : Matched args values β β' := by
  induction args generalizing values β with
  | nil =>
    cases values with
    | nil =>
      obtain rfl := Option.some.inj h
      exact ⟨.refl _, by simp, fun _ _ hx => .inl hx, fun _ _ => rfl, fun _ _ => rfl⟩
    | cons w ws => cases h
  | cons a as ih =>
    cases values with
    | nil => cases h
    | cons w ws =>
      obtain ⟨β₁, h₁, h₂⟩ := Option.bind_eq_some_iff.mp h
      have m₁ := matchArg_matched h₁
      have m₂ := ih h₂
      refine ⟨m₁.extend.trans m₂.extend, fun x hx => ?_, fun x v hx => ?_, fun x hx => ?_,
        fun σ hσ => ?_⟩
      · rw [List.flatMap_cons, List.mem_append] at hx
        rcases hx with hx | hx
        · obtain ⟨v, hv⟩ := Option.isSome_iff_exists.mp (m₁.bound x (by simpa using hx))
          rw [m₂.extend x v hv]; rfl
        · exact m₂.bound x hx
      · rcases m₂.source x v hx with hx | hx
        · rcases m₁.source x v hx with hx | hx
          · exact .inl hx
          · exact .inr (by simp [List.mem_singleton.mp hx])
        · exact .inr (by simp [hx])
      · rw [List.flatMap_cons, List.mem_append, not_or] at hx
        rw [m₂.frame x hx.2, m₁.frame x (by simpa using hx.1)]
      · have e₁ := m₁.eval σ (hσ.of_extends m₂.extend)
        rw [List.map_cons, m₂.eval σ hσ]
        rw [List.map_singleton] at e₁
        rw [(List.cons.inj e₁).1]

theorem exists_matchArg {a : Arg V} {w : V} {β : Bindings V} {σ : Nat → V} (hσ : Agrees σ β)
    (h : a.eval σ = w) : ∃ β', matchArg a w β = some β' ∧ Agrees σ β' := by
  cases a with
  | val v => exact ⟨β, if_pos h, hσ⟩
  | var x =>
    cases hx : β x with
    | some v =>
      have hv : v = w := (hσ x v hx).symm.trans h
      exact ⟨β, by simp [matchArg, hx, hv], hσ⟩
    | none =>
      refine ⟨Function.update β x (some w), by simp [matchArg, hx], fun y v hy => ?_⟩
      by_cases hne : y = x
      · subst hne
        rw [Function.update_self] at hy
        exact h.trans (Option.some.inj hy)
      · rw [Function.update_of_ne hne] at hy
        exact hσ y v hy

theorem exists_matchArgs {args : List (Arg V)} {values : List V} {β : Bindings V}
    {σ : Nat → V} (hσ : Agrees σ β) (h : args.map (Arg.eval σ) = values) :
    ∃ β', matchArgs args values β = some β' ∧ Agrees σ β' := by
  subst h
  induction args generalizing β with
  | nil => exact ⟨β, rfl, hσ⟩
  | cons a as ih =>
    obtain ⟨β₁, h₁, hσ₁⟩ := exists_matchArg hσ rfl
    obtain ⟨β', h', hσ'⟩ := ih hσ₁
    exact ⟨β', by rw [List.map_cons, matchArgs, h₁]; exact h', hσ'⟩

theorem matchArgs_congr {args : List (Arg V)} {values : List V} {β₁ β₁' β₂ : Bindings V}
    (h : matchArgs args values β₁ = some β₁') {xs : List Nat}
    (hxs : ∀ x ∈ args.flatMap Arg.vars, x ∈ xs) (hsame : ∀ x ∈ xs, β₁ x = β₂ x) :
    ∃ β₂', matchArgs args values β₂ = some β₂' ∧ ∀ x ∈ xs, β₂' x = β₁' x := by
  induction args generalizing values β₁ β₂ with
  | nil =>
    cases values with
    | nil =>
      obtain rfl := Option.some.inj h
      exact ⟨β₂, rfl, fun x hx => (hsame x hx).symm⟩
    | cons w ws => cases h
  | cons a as ih =>
    cases values with
    | nil => cases h
    | cons w ws =>
      obtain ⟨γ₁, h₁, hrest⟩ := Option.bind_eq_some_iff.mp h
      have hnext : ∃ γ₂, matchArg a w β₂ = some γ₂ ∧ ∀ x ∈ xs, γ₁ x = γ₂ x := by
        rcases matchArg_cases h₁ with ⟨hvalue, rfl⟩ | ⟨x, rfl, hx, rfl⟩
        · refine ⟨β₂, ?_, hsame⟩
          cases a with
          | val v => exact if_pos (Option.some.inj hvalue)
          | var x =>
            have hx : β₂ x = some w :=
              (hsame x (hxs x (by simp [Arg.vars]))).symm.trans hvalue
            simp [matchArg, hx]
        · have hx₂ : β₂ x = none := (hsame x (hxs x (by simp [Arg.vars]))).symm.trans hx
          refine ⟨Function.update β₂ x (some w), by simp [matchArg, hx₂], fun y hy => ?_⟩
          by_cases hne : y = x
          · rw [hne, Function.update_self, Function.update_self]
          · rw [Function.update_of_ne hne, Function.update_of_ne hne, hsame y hy]
      obtain ⟨γ₂, h₂, hγ⟩ := hnext
      obtain ⟨β₂', hβ₂', heq⟩ := ih hrest (fun x hx => hxs x (by simp [hx])) hγ
      exact ⟨β₂', by rw [matchArgs, h₂]; exact hβ₂', heq⟩

/-! ## Calls of declared predicates -/

theorem mem_callAtom {db : Database V} {a : Atom V} {β β' : Bindings V} :
    β' ∈ (callAtom db a β).answers ↔
      ∃ f ∈ db.facts, a.pred = f.pred ∧ matchArgs a.args f.args β = some β' := by
  have hmatch : ∀ f, a.matchFact f β = some β' ↔
      a.pred = f.pred ∧ matchArgs a.args f.args β = some β' := by
    intro f
    unfold Atom.matchFact
    split
    · rename_i hpred
      simp [hpred]
    · rename_i hpred
      simp [hpred]
  simp only [callAtom, Search.answers_ofList, List.mem_filterMap, hmatch]

theorem matched_of_mem_call {db : Database V} {a : Atom V} {β β' : Bindings V}
    (h : β' ∈ (callAtom db a β).answers) :
    ∃ f ∈ db.facts, a.pred = f.pred ∧ Matched a.args f.args β β' := by
  obtain ⟨f, hf, hpred, hmatch⟩ := mem_callAtom.mp h
  exact ⟨f, hf, hpred, matchArgs_matched hmatch⟩

theorem extend_of_mem_call {db : Database V} {a : Atom V} {β β' : Bindings V}
    (h : β' ∈ (callAtom db a β).answers) : Extends β β' := by
  obtain ⟨f, -, -, m⟩ := matched_of_mem_call h
  exact m.extend

theorem bound_of_mem_call {db : Database V} {a : Atom V} {β β' : Bindings V}
    (h : β' ∈ (callAtom db a β).answers) : ∀ x ∈ a.vars, (β' x).isSome := by
  obtain ⟨f, -, -, m⟩ := matched_of_mem_call h
  exact m.bound

theorem frame_of_mem_call {db : Database V} {a : Atom V} {β β' : Bindings V}
    (h : β' ∈ (callAtom db a β).answers) : ∀ x, x ∉ a.vars → β' x = β x := by
  obtain ⟨f, -, -, m⟩ := matched_of_mem_call h
  exact m.frame

theorem callAtom_congr {db : Database V} {a : Atom V} {β₁ β₁' β₂ : Bindings V}
    (h : β₁' ∈ (callAtom db a β₁).answers) (hsame : ∀ x ∈ a.vars, β₁ x = β₂ x) :
    ∃ β₂' ∈ (callAtom db a β₂).answers, ∀ x ∈ a.vars, β₂' x = β₁' x := by
  obtain ⟨f, hf, hpred, hmatch⟩ := mem_callAtom.mp h
  obtain ⟨β₂', hmatch₂, heq⟩ := matchArgs_congr hmatch (fun _ hx => hx) hsame
  exact ⟨β₂', mem_callAtom.mpr ⟨f, hf, hpred, hmatch₂⟩, heq⟩

/-- The facts are ground and declared. -/
theorem factCalls : FactCalls (factBase (V := V)).toProlog where
  exhausted _ _ _ := rfl
  extend := extend_of_mem_call
  bound := bound_of_mem_call
  frame := frame_of_mem_call
  congr := callAtom_congr

/-! ## Instances and truth -/

/-- An instance of a positive condition is true, whatever values other variables have. -/
theorem Goal.Instance.holds {db : Database V} {goal : Goal (Atom V)} (hpos : goal.Positive)
    {β β' : Bindings V} (h : goal.Instance factBase.toProlog db β β') {σ : Nat → V}
    (hσ : Agrees σ β') : goal.Holds { f | f ∈ db.facts } σ := by
  induction goal generalizing β β' with
  | atom a =>
    obtain ⟨f, hf, hpred, m⟩ := matched_of_mem_call h
    show Fact.mk a.pred _ ∈ db.facts
    rw [m.eval σ hσ, hpred]
    exact hf
  | and p q ihp ihq =>
    obtain ⟨β₁, hp, hq⟩ := h
    exact ⟨ihp hpos.1 hp (hσ.of_extends (factCalls.binds_of_instance hq).extend),
      ihq hpos.2 hq hσ⟩
  | or p q ihp ihq =>
    exact h.imp (fun h => ihp hpos.1 h hσ) fun h => ihq hpos.2 h hσ
  | not p => exact hpos.elim
  | true => exact hpos.elim
  | false => exact hpos.elim

/-- If a positive condition is true, it has an instance with these values. -/
theorem exists_instance {db : Database V} {goal : Goal (Atom V)} (hpos : goal.Positive)
    {β : Bindings V} {σ : Nat → V} (hσ : Agrees σ β)
    (h : goal.Holds { f | f ∈ db.facts } σ) :
    ∃ β', goal.Instance factBase.toProlog db β β' ∧ Agrees σ β' := by
  induction goal generalizing β with
  | atom a =>
    obtain ⟨β', hmatch, hσ'⟩ := exists_matchArgs hσ (rfl : a.args.map (Arg.eval σ) = _)
    exact ⟨β', mem_callAtom.mpr ⟨a.eval σ, h, rfl, hmatch⟩, hσ'⟩
  | and p q ihp ihq =>
    obtain ⟨β₁, hp, hσ₁⟩ := ihp hpos.1 hσ h.1
    obtain ⟨β', hq, hσ'⟩ := ihq hpos.2 hσ₁ h.2
    exact ⟨β', ⟨β₁, hp, hq⟩, hσ'⟩
  | or p q ihp ihq =>
    rcases h with h | h
    · obtain ⟨β', hp, hσ'⟩ := ihp hpos.1 hσ h
      exact ⟨β', .inl hp, hσ'⟩
    · obtain ⟨β', hq, hσ'⟩ := ihq hpos.2 hσ h
      exact ⟨β', .inr hq, hσ'⟩
  | not p => exact hpos.elim
  | true => exact hpos.elim
  | false => exact hpos.elim

theorem Goal.Positive.sound {A : Type} [HasVars A] {goal : Goal A} (h : goal.Positive)
    (bound : List Nat) : goal.Sound bound := by
  induction goal generalizing bound with
  | atom a => trivial
  | and p q ihp ihq => exact ⟨ihp h.1 _, ihq h.2 _⟩
  | or p q ihp ihq => exact ⟨ihp h.1 _, ihq h.2 _⟩
  | not p => exact h.elim
  | true => exact h.elim
  | false => exact h.elim

/-! ## Answers of positive conditions -/

/-- The values of the facts. -/
def Database.values (db : Database V) : List V := db.facts.flatMap Fact.args

/-- What an answer of a positive condition does to the bindings. -/
structure Solved (db : Database V) (goal : Goal (Atom V)) (β β' : Bindings V) : Prop
    extends goal.Binds β β' where
  source : ∀ x v, β' x = some v → β x = some v ∨ v ∈ db.values
  holds : ∀ σ, Agrees σ β' → goal.Holds { f | f ∈ db.facts } σ

/-- An answer of any condition brings in values of the facts only. -/
theorem source_of_mem_solve {db : Database V} {goal : Goal (Atom V)} {β β' : Bindings V}
    (h : β' ∈ (factBase.solve db goal β).answers) {x : Nat} {v : V} (hx : β' x = some v) :
    β x = some v ∨ v ∈ db.values := by
  induction goal generalizing β β' with
  | atom a =>
    obtain ⟨f, hf, -, m⟩ := matched_of_mem_call h
    exact (m.source x v hx).imp_right fun hv => List.mem_flatMap.mpr ⟨f, hf, hv⟩
  | and p q ihp ihq =>
    obtain ⟨β₁, h₁, h₂⟩ := Search.mem_bind h
    rcases ihq h₂ hx with hx | hx
    · exact ihp h₁ hx
    · exact .inr hx
  | or p q ihp ihq => exact (mem_solve_or h).elim (fun h => ihp h hx) fun h => ihq h hx
  | not p =>
    obtain ⟨rfl, -⟩ := mem_solve_not h
    exact .inl hx
  | true =>
    obtain rfl := List.mem_singleton.mp h
    exact .inl hx
  | false => cases h

/-- Every answer of a positive condition makes it true, and binds its sure variables. -/
theorem solved_of_mem_solve {db : Database V} {goal : Goal (Atom V)} (hpos : goal.Positive)
    {β β' : Bindings V} (h : β' ∈ (factBase.solve db goal β).answers) :
    Solved db goal β β' where
  toBinds := factCalls.binds_of_mem_solve h
  source _ _ hx := source_of_mem_solve h hx
  holds _ hσ := (factCalls.instance_of_mem_solve (hpos.sound []) nofun h).holds hpos hσ

theorem solved_of_mem_call {db : Database V} {a : Atom V} {β β' : Bindings V}
    (h : β' ∈ (callAtom db a β).answers) : Solved db (.atom a) β β' := by
  have hpos : (Goal.atom a).Positive := trivial
  exact solved_of_mem_solve hpos h

/-- `or/2` stops at its first answer. That loses nothing where the disjunction shares with the
    rest of the rule (`outer`) only variables that are bound when it is called (`bound`). -/
def Goal.Committed {A : Type} [HasVars A] : Goal A → List Nat → List Nat → Prop
  | .and p q, outer, bound => p.Committed (outer ++ q.vars) bound ∧
      q.Committed outer (bound ++ p.sure)
  | .or p q, outer, bound => (∀ x ∈ (Goal.or p q).vars, x ∈ outer → x ∈ bound) ∧
      p.Committed [] bound ∧ q.Committed [] bound
  | _, _, _ => True

theorem Goal.Positive.reliable {A : Type} [HasVars A] {goal : Goal A} (h : goal.Positive)
    {outer bound : List Nat} (hc : goal.Committed outer bound) : goal.Reliable outer bound := by
  induction goal generalizing outer bound with
  | atom a => trivial
  | and p q ihp ihq => exact ⟨ihp h.1 hc.1, ihq h.2 hc.2⟩
  | or p q ihp ihq => exact ⟨hc.1, ihp h.1 hc.2.1, ihq h.2 hc.2.2⟩
  | not p => exact h.elim
  | true => exact h.elim
  | false => exact h.elim

omit [DecidableEq V] in
theorem Atom.eval_congr {a : Atom V} {σ σ' : Nat → V} (h : ∀ x ∈ a.vars, σ x = σ' x) :
    a.eval σ = a.eval σ' := by
  have harg : ∀ b ∈ a.args, b.eval σ = b.eval σ' := by
    intro b hb
    cases b with
    | var x => exact h x (List.mem_flatMap.mpr ⟨_, hb, by simp [Arg.vars]⟩)
    | val v => rfl
  rw [Atom.eval, Atom.eval, List.map_congr_left harg]

/-- A true instance of a committed condition is found, up to the variables inside. -/
theorem exists_mem_solve {db : Database V} {goal : Goal (Atom V)} (hpos : goal.Positive)
    {outer bound : List Nat} (hc : goal.Committed outer bound) {β : Bindings V} {σ : Nat → V}
    (hσ : Agrees σ β) (hbound : ∀ x ∈ bound, (β x).isSome)
    (h : goal.Holds { f | f ∈ db.facts } σ) :
    ∃ β' ∈ (factBase.solve db goal β).answers, ∃ σ', Agrees σ' β' ∧
      ∀ x ∈ outer, σ' x = σ x := by
  obtain ⟨γ, hγ, hσγ⟩ := exists_instance hpos hσ h
  obtain ⟨β', hβ', heq⟩ :=
    factCalls.exists_mem_solve_of_instance (hpos.reliable hc) hbound hγ
  refine ⟨β', hβ', fun x => (β' x).getD (σ x), fun x v hx => by simp [hx], fun x hx => ?_⟩
  show (β' x).getD (σ x) = σ x
  cases hx' : β' x with
  | none => rfl
  | some v => exact (hσγ x v ((heq x hx).symm.trans hx')).symm

end SmartWarehouse.Kbase
