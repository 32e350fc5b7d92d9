/-
  Patterns that database operations match facts with.

  `make_most_generic_term/2` on a term with atomic arguments, and `functor/3` with `=../2` in
  `replace_rtx/1`, give the name of a fact with a new variable for every argument. Such a
  pattern matches the facts of the same functor (`mostGeneric_matches`), a ground term matches
  itself (`toAtom_matches`).
-/
import SmartWarehouse.Kbase.FactBase

namespace SmartWarehouse.Kbase

variable {V : Type}

/-- A ground term as a pattern. -/
def Fact.toAtom (f : Fact V) : Atom V := ⟨f.pred, f.args.map .val⟩

/-- The functor of a fact over new variables. -/
def Fact.mostGeneric (f : Fact V) : Atom V := ⟨f.pred, (List.range f.args.length).map .var⟩

variable [DecidableEq V]

/-- The pattern unifies with the fact. -/
def Atom.matches (a : Atom V) (f : Fact V) : Bool := (a.matchFact f fun _ => none).isSome

theorem matchArgs_length {args : List (Arg V)} {values : List V} {β β' : Bindings V}
    (h : matchArgs args values β = some β') : args.length = values.length := by
  induction args generalizing values β with
  | nil =>
    cases values with
    | nil => rfl
    | cons w ws => cases h
  | cons a as ih =>
    cases values with
    | nil => cases h
    | cons w ws =>
      obtain ⟨β₁, -, hrest⟩ := Option.bind_eq_some_iff.mp h
      rw [List.length_cons, List.length_cons, ih hrest]

theorem matchArgs_vals (vs ws : List V) (β : Bindings V) :
    matchArgs (vs.map .val) ws β = if vs = ws then some β else none := by
  induction vs generalizing ws with
  | nil => cases ws <;> simp [matchArgs]
  | cons v vs ih =>
    cases ws with
    | nil => simp [matchArgs]
    | cons w ws =>
      rw [List.map_cons, matchArgs, matchArg]
      by_cases h : v = w
      · rw [if_pos h, Option.bind_some, ih]
        simp [h]
      · rw [if_neg h, Option.bind_none, if_neg (by simp [h])]

/-- A ground term unifies with itself only. -/
theorem toAtom_matches (f g : Fact V) : f.toAtom.matches g = true ↔ f = g := by
  obtain ⟨pred, args⟩ := f
  obtain ⟨pred', args'⟩ := g
  unfold Atom.matches Atom.matchFact Fact.toAtom
  dsimp only
  rw [matchArgs_vals]
  by_cases hpred : pred = pred' <;> by_cases hargs : args = args' <;> simp [hpred, hargs]

/-- New variables unify with any list of values of their length. -/
theorem exists_matchArgs_vars (values : List V) :
    ∃ β, matchArgs ((List.range values.length).map .var) values (fun _ => none) = some β := by
  cases values with
  | nil => exact ⟨_, rfl⟩
  | cons v vs =>
    have hagrees : Agrees (fun x => (v :: vs).getD x v) (fun _ => none) := by
      intro x w h
      cases h
    have heval : ((List.range (v :: vs).length).map Arg.var).map
        (Arg.eval fun x => (v :: vs).getD x v) = v :: vs := by
      apply List.ext_getElem
      · simp
      · intro n hn hn'
        simp only [Arg.eval, List.getElem_map, List.getElem_range, List.getD_eq_getElem?_getD]
        rw [List.getElem?_eq_getElem hn']
        rfl
    obtain ⟨β, hβ, -⟩ := exists_matchArgs hagrees heval
    exact ⟨β, hβ⟩

/-- The most generic term of a fact unifies with the facts of the same functor. -/
theorem mostGeneric_matches (f g : Fact V) : f.mostGeneric.matches g = f.sameFunctor g := by
  unfold Atom.matches Atom.matchFact Fact.mostGeneric Fact.sameFunctor
  dsimp only
  by_cases hpred : f.pred = g.pred
  · rw [if_pos hpred]
    by_cases hlength : f.args.length = g.args.length
    · obtain ⟨β, hβ⟩ := exists_matchArgs_vars g.args
      rw [hlength, hβ]
      simp [hpred]
    · cases hmatch : matchArgs ((List.range f.args.length).map Arg.var) g.args fun _ => none with
      | none => simp [hlength]
      | some β =>
        have h := matchArgs_length hmatch
        rw [List.length_map, List.length_range] at h
        exact absurd h hlength
  · rw [if_neg hpred]
    simp [hpred]

omit [DecidableEq V] in
theorem sameFunctor_iff {f g : Fact V} :
    f.sameFunctor g = true ↔ f.pred = g.pred ∧ f.args.length = g.args.length := by
  simp [Fact.sameFunctor]

omit [DecidableEq V] in
theorem sameFunctor_refl (f : Fact V) : f.sameFunctor f = true := by
  simp [Fact.sameFunctor]

omit [DecidableEq V] in
theorem sameFunctor_symm {f g : Fact V} (h : f.sameFunctor g = true) : g.sameFunctor f = true := by
  obtain ⟨hpred, hargs⟩ := sameFunctor_iff.mp h
  exact sameFunctor_iff.mpr ⟨hpred.symm, hargs.symm⟩

omit [DecidableEq V] in
theorem sameFunctor_trans {f g k : Fact V} (h : f.sameFunctor g = true)
    (h' : g.sameFunctor k = true) : f.sameFunctor k = true := by
  obtain ⟨hpred, hargs⟩ := sameFunctor_iff.mp h
  obtain ⟨hpred', hargs'⟩ := sameFunctor_iff.mp h'
  exact sameFunctor_iff.mpr ⟨hpred.trans hpred', hargs.trans hargs'⟩

end SmartWarehouse.Kbase
