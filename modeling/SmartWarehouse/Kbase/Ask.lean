/-
  `ask/3` of `RTXengine.pl`: queries one after another.

  `ask(forward, Facts, NewFacts)` empties the database with `retractall_rtx`, asserts the facts,
  runs `forward` and returns the facts in `rtx/1` that were not given. Facts are any terms: what
  the engine takes from Prolog about terms is a parameter (`Terms`), and predicates are declared,
  so that a call depends on the clauses only. `retractall_rtx` empties the database as long as
  the facts and the mirror agree, which `assert_rtx` keeps (`agrees_perform`): with rules whose
  conclusions add facts by `assert_rtx` every query is answered as on the fresh database
  (`ask_as_fresh`). Facts added by any of the other four forms stay (`queries_leak`).
-/
import SmartWarehouse.Kbase.FactBase
import SmartWarehouse.Kbase.Forward

namespace SmartWarehouse.Kbase

open SmartWarehouse.Lib

/-- The clauses of the declared predicates, and the mirror `rtx/1`. -/
structure Clauses (F : Type) where
  facts : List F
  rtx : List F
deriving DecidableEq, Repr

/-- Goals `A`, bindings `E` and facts `F` as Prolog sees them. -/
structure Terms (A E F : Type) where
  empty : E
  /-- The answers of a goal. -/
  call : Clauses F → A → E → Search E
  /-- Two instances of conditions unify when renamed apart. -/
  alike : Goal A → E → Goal A → E → Bool
  /-- The fact that an instance of a goal asserts; none if it is not callable. -/
  term : A → E → Option F
  /-- The bindings after a goal is unified with a fact. -/
  unify : A → E → F → Option E
  unifies : F → F → Bool
  unifies_self : ∀ f, unifies f f = true
  sameFunctor : F → F → Bool

variable {A E F : Type} (T : Terms A E F)

/-! ## Database updates -/

def Clauses.add (d : Clauses F) (f : F) : AddForm → Clauses F
  | .assert => { d with facts := d.facts ++ [f] }
  | .assertz => { d with facts := d.facts ++ [f] }
  | .asserta => { d with facts := f :: d.facts }
  | .assert_rtx => ⟨d.facts ++ [f], d.rtx ++ [f]⟩
  | .assert_once =>
    -- the first fact of the functor binds the pattern that `retractall` gets
    match d.facts.find? (T.sameFunctor f) with
    | some g => { d with facts := (d.facts.filter fun h => !T.unifies g h) ++ [f] }
    | none => { d with facts := d.facts ++ [f] }

/-- The first fact that unifies, taken out. -/
def retractUnifying (a : A) (e : E) : List F → Option (E × List F) := retractOne (T.unify a e)

/-- `retract(Fact), retract(rtx(Fact))`. -/
def retractRtxUnifying (a : A) (e : E) (rtx : List F) : List F → Option (E × List F) × List F :=
  retractBoth (T.unify a e) fun _ e' => retractUnifying T a e' rtx

/-- The first solution of a conclusion. -/
def Terms.perform (d : Clauses F) (c : Conclusion A) (e : E) : Option E × Clauses F :=
  match c with
  | .add form a =>
    match T.term a e with
    | some f => (some e, d.add T f form)
    | none => (none, d)
  | .remove .retract a =>
    match retractUnifying T a e d.facts with
    | some (e', facts) => (some e', { d with facts := facts })
    | none => (none, d)
  | .remove .retract_rtx a =>
    match retractRtxUnifying T a e d.rtx d.facts with
    | (some (e', rtx), facts) => (some e', ⟨facts, rtx⟩)
    | (none, facts) => (none, { d with facts := facts })
  | .other a => ((T.call d a e).answers.head?, d)

def Terms.production : Production A E (Clauses F) where
  empty := T.empty
  call := T.call
  perform := T.perform
  alike := T.alike

/-- `forall(rtx(Fact), retract(Fact))`: it stops at the first fact that is not there. -/
def forallRetractUnifying : List F → List F → Bool × List F
  | [], facts => (true, facts)
  | f :: rtx, facts =>
    if facts.any (T.unifies f) then forallRetractUnifying rtx (facts.eraseP (T.unifies f))
    else (false, facts)

def Clauses.retractallRtx (d : Clauses F) : Bool × Clauses F :=
  match forallRetractUnifying T d.rtx d.facts with
  | (true, facts) => (true, ⟨facts, []⟩)
  | (false, facts) => (false, { d with facts := facts })

/-! ## Queries -/

/-- `ask(forward, Facts, NewFacts)`: the new facts, or no solution, and the database after it.
    Nothing at all if `forward` needs more steps than `fuel`. -/
def ask (rules : List (Rule A)) (fuel : Nat) (facts : List F) (d : Clauses F) :
    Option (Option (List F) × Clauses F) :=
  match d.retractallRtx T with
  | (false, d') => some (none, d')
  | (true, d') =>
    let d'' := facts.foldl (fun d f => d.add T f .assert_rtx) d'
    (forward T.production rules fuel d'').map fun r =>
      (some (r.2.rtx.filter fun f => !facts.any (T.unifies f)), r.2)

/-- The database after queries, each with its fuel. -/
def askAll (rules : List (Rule A)) : List (List F × Nat) → Clauses F → Option (Clauses F)
  | [], d => some d
  | (facts, fuel) :: asks, d => (ask T rules fuel facts d).bind fun r => askAll rules asks r.2

/-- No facts at all. -/
def Clauses.fresh : Clauses F := ⟨[], []⟩

/-! ## Mirrored rules -/

/-- The conclusion adds facts by `assert_rtx` only, and removes none. -/
def Conclusion.Mirrors : Conclusion A → Prop
  | .add form _ => form = .assert_rtx
  | .remove _ _ => False
  | .other _ => True

/-- The facts are mirrored, in order. -/
def Clauses.Agrees (d : Clauses F) : Prop := d.facts = d.rtx

theorem agrees_assert_rtx {d : Clauses F} (h : d.Agrees) (f : F) :
    (d.add T f .assert_rtx).Agrees := by
  unfold Clauses.Agrees at *
  show d.facts ++ [f] = d.rtx ++ [f]
  rw [h]

theorem agrees_load (facts : List F) {d : Clauses F} (h : d.Agrees) :
    (facts.foldl (fun d f => d.add T f .assert_rtx) d).Agrees := by
  induction facts generalizing d with
  | nil => exact h
  | cons f facts ih => exact ih (agrees_assert_rtx T h f)

variable {T}

theorem agrees_perform {c : Conclusion A} (hc : c.Mirrors) {d : Clauses F} (h : d.Agrees)
    (e : E) : (T.perform d c e).2.Agrees := by
  cases c with
  | add form a =>
    obtain rfl : form = .assert_rtx := hc
    unfold Terms.perform
    dsimp only
    split
    · exact agrees_assert_rtx T h _
    · exact h
  | remove form a => exact hc.elim
  | other a => exact h

/-- Mirrored facts are taken out one by one: each is the first that unifies with its entry. -/
theorem forallRetractUnifying_self (l : List F) : forallRetractUnifying T l l = (true, []) := by
  induction l with
  | nil => rfl
  | cons f l ih =>
    unfold forallRetractUnifying
    rw [if_pos (by simp [T.unifies_self f]), List.eraseP_cons_of_pos (T.unifies_self f)]
    exact ih

theorem retractallRtx_agrees {d : Clauses F} (h : d.Agrees) :
    d.retractallRtx T = (true, .fresh) := by
  unfold Clauses.retractallRtx
  rw [show d.facts = d.rtx from h, forallRetractUnifying_self]
  rfl

/-- A query does not depend on what was mirrored before. -/
theorem ask_agrees (rules : List (Rule A)) (fuel : Nat) (facts : List F) {d : Clauses F}
    (h : d.Agrees) : ask T rules fuel facts d = ask T rules fuel facts .fresh := by
  have hfresh : (Clauses.fresh : Clauses F).Agrees := rfl
  unfold ask
  rw [retractallRtx_agrees h, retractallRtx_agrees hfresh]

theorem agrees_ask {rules : List (Rule A)}
    (hrules : ∀ rule ∈ rules, ∀ c ∈ rule.picked.allConclusions, c.Mirrors) {fuel : Nat}
    {facts : List F} {d : Clauses F} (h : d.Agrees) {r : Option (List F) × Clauses F}
    (hask : ask T rules fuel facts d = some r) : r.2.Agrees := by
  have hkept : KeptByConclusions T.production rules Clauses.Agrees := by
    intro rule hrule c hc d e hd
    exact agrees_perform (hrules rule hrule c hc) hd e
  have hfresh : (Clauses.fresh : Clauses F).Agrees := rfl
  unfold ask at hask
  rw [retractallRtx_agrees h] at hask
  obtain ⟨⟨fired, d'⟩, hforward, rfl⟩ := Option.map_eq_some_iff.mp hask
  exact forward_invariant hkept (agrees_load T facts hfresh) hforward

theorem agrees_askAll {rules : List (Rule A)}
    (hrules : ∀ rule ∈ rules, ∀ c ∈ rule.picked.allConclusions, c.Mirrors)
    {asks : List (List F × Nat)} {d d' : Clauses F} (h : d.Agrees)
    (hasks : askAll T rules asks d = some d') : d'.Agrees := by
  induction asks generalizing d with
  | nil =>
    obtain rfl := Option.some.inj hasks
    exact h
  | cons q asks ih =>
    obtain ⟨r, hask, hrest⟩ := Option.bind_eq_some_iff.mp hasks
    exact ih (agrees_ask hrules h hask) hrest

/-- If all conclusions of the rules add facts by `assert_rtx`, a query after any queries returns
    what it returns on the fresh database. -/
theorem ask_as_fresh {rules : List (Rule A)}
    (hrules : ∀ rule ∈ rules, ∀ c ∈ rule.picked.allConclusions, c.Mirrors)
    {asks : List (List F × Nat)} {d : Clauses F} (hasks : askAll T rules asks .fresh = some d)
    (fuel : Nat) (facts : List F) :
    ask T rules fuel facts d = ask T rules fuel facts .fresh := by
  have hfresh : (Clauses.fresh : Clauses F).Agrees := rfl
  exact ask_agrees rules fuel facts (agrees_askAll hrules hfresh hasks)

/-! ## Leaks -/

/-- Goals and facts without arguments. -/
def propositional : Terms String Unit String where
  empty := ()
  call := fun d a _ => if a ∈ d.facts then .one () else .fail
  alike := fun p _ q _ => p = q
  term := fun a _ => some a
  unify := fun a _ f => if a = f then some () else none
  unifies := fun f g => f = g
  unifies_self := by simp
  sameFunctor := fun f g => f = g

/-- `if p then [Form(q)]` and `if q then [assert_rtx(r)]`. -/
def chainRules (form : AddForm) : List (Rule String) :=
  [.ifThen ⟨some "first", none⟩ (.atom "p") [.add form "q"],
   .ifThen ⟨some "second", none⟩ (.atom "q") [.add .assert_rtx "r"]]

theorem ask_as_fresh_chainRules :
    ∃ d, askAll propositional (chainRules .assert_rtx) [(["p"], 3)] .fresh = some d ∧
      ask propositional (chainRules .assert_rtx) 3 [] d =
        ask propositional (chainRules .assert_rtx) 3 [] .fresh := by
  have hasks : askAll propositional (chainRules .assert_rtx) [(["p"], 3)] .fresh =
      some ⟨["p", "q", "r"], ["p", "q", "r"]⟩ := by decide
  refine ⟨_, hasks, ask_as_fresh ?_ hasks 3 []⟩
  intro rule hrule c hc
  obtain rfl | hrule := List.mem_cons.mp hrule
  · obtain rfl := List.mem_singleton.mp hc
    rfl
  · obtain rfl := List.mem_singleton.mp hrule
    obtain rfl := List.mem_singleton.mp hc
    rfl

/-- A query without facts derives `r` after a query with `p`, and nothing on the fresh
    database. -/
def Leaks (form : AddForm) : Prop :=
  (askAll propositional (chainRules form) [(["p"], 3)] .fresh).bind (fun d =>
    (ask propositional (chainRules form) 3 [] d).map Prod.fst) = some (some ["r"]) ∧
  (ask propositional (chainRules form) 3 [] .fresh).map Prod.fst = some (some [])

instance (form : AddForm) : Decidable (Leaks form) := inferInstanceAs (Decidable (_ ∧ _))

/-- Every other form leaks. -/
theorem queries_leak : Leaks .assert ∧ Leaks .asserta ∧ Leaks .assertz ∧ Leaks .assert_once := by
  decide

end SmartWarehouse.Kbase
