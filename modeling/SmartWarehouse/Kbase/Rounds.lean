/-
  Forward chaining in rounds.

  Facts come in one after another, rules are defined as the program grows, and `forward/1` is
  called in between; every call starts with an empty record and fires its rules anew. With rules
  of the kind whose least model forward chaining computes, the facts at the end are those of a
  single call with the last rules and all the facts (`facts_runRounds`). So neither the rounds
  matter nor the order of the facts, nor the names, priorities and order of the rules
  (`rounds_agree`).
-/
import SmartWarehouse.Kbase.LeastModel

namespace SmartWarehouse.Kbase

open SmartWarehouse.Lib

/-! ## More steps -/

section
variable {A E D : Type} {P : Production A E D} {rules : List (Rule A)}

/-- A run that has ended is the same with more steps to spare. -/
theorem doForward_more {sorted : List (String × Int)} {fuel fuel' : Nat} (hle : fuel ≤ fuel')
    {previous : List (Fired A E)} {d : D} {r : List (Fired A E) × D}
    (h : doForward P rules sorted fuel previous d = some r) :
    doForward P rules sorted fuel' previous d = some r := by
  induction fuel generalizing fuel' previous d with
  | zero => cases h
  | succ fuel ih =>
    obtain ⟨more, rfl⟩ := Nat.exists_eq_add_of_le' (Nat.le_trans (Nat.le_add_left 1 fuel) hle)
    rw [doForward] at h ⊢
    split at h
    · exact ih (Nat.le_of_succ_le_succ hle) h
    · exact h

theorem forward_more {fuel fuel' : Nat} (hle : fuel ≤ fuel') {d : D} {r : List (Fired A E) × D}
    (h : forward P rules fuel d = some r) : forward P rules fuel' d = some r := by
  obtain ⟨r', hdo, heq⟩ := Option.map_eq_some_iff.mp h
  rw [forward, doForward_more hle hdo]
  exact congrArg some heq

end

variable {V : Type} [DecidableEq V]

/-! ## Rounds -/

/-- Facts added from outside the rules, and the rules of the call of `forward/1` after them. -/
structure Round (V : Type) [DecidableEq V] where
  facts : List (Fact V × AddForm)
  rules : List (DatalogRule V)

def Round.load (r : Round V) (d : Database V) : Database V :=
  r.facts.foldl (fun d f => d.add f.1 f.2) d

def Round.run (fuel : Nat) (r : Round V) (d : Database V) : Option (Database V) :=
  (forward factBase (r.rules.map DatalogRule.toRule) fuel (r.load d)).map Prod.snd

def runRounds (fuel : Nat) : List (Round V) → Database V → Option (Database V)
  | [], d => some d
  | r :: rounds, d => (r.run fuel d).bind (runRounds fuel rounds)

/-- What the rules say, without names and priorities. -/
def Round.bodies (r : Round V) : Set (Goal (Atom V) × List (Atom V)) :=
  { b | ∃ ρ ∈ r.rules, (ρ.cond, ρ.conclusions) = b }

/-- The facts of all rounds. -/
def given (rounds : List (Round V)) : List (Fact V) :=
  rounds.flatMap fun r => r.facts.map Prod.fst

/-- Distinctly named rules with safe disjunctions; no fact is added in the place of others. -/
structure Round.Regular (r : Round V) : Prop where
  names : (r.rules.map DatalogRule.name).Nodup
  committed : ∀ ρ ∈ r.rules, ρ.Committed
  adds : ∀ f ∈ r.facts, f.2 ≠ .assert_once

/-- The last rules say `bodies`, and no round has said anything else. -/
structure Growing (rounds : List (Round V)) (bodies : Set (Goal (Atom V) × List (Atom V))) :
    Prop where
  regular : ∀ r ∈ rounds, r.Regular
  among : ∀ r ∈ rounds, r.bodies ⊆ bodies
  last : ∃ r ∈ rounds.getLast?, r.bodies = bodies

/-! ## One round -/

theorem mem_load {r : Round V} (h : ∀ f ∈ r.facts, f.2 ≠ .assert_once) (d : Database V)
    (f : Fact V) : f ∈ (r.load d).facts ↔ f ∈ d.facts ∨ f ∈ r.facts.map Prod.fst := by
  unfold Round.load
  generalize r.facts = facts at h
  induction facts generalizing d with
  | nil => simp
  | cons g facts ih =>
    have hadd : f ∈ (d.add g.1 g.2).facts ↔ f ∈ d.facts ∨ f = g.1 := by
      have hform := h g List.mem_cons_self
      cases hg : g.2 with
      | assert_once => exact absurd hg hform
      | asserta => exact List.mem_cons.trans or_comm
      | _ => simp [Database.add]
    rw [List.foldl_cons, ih _ (fun f hf => h f (List.mem_cons_of_mem _ hf)), hadd, List.map_cons,
      List.mem_cons, or_assoc]

theorem inferences_subset {r r' : Round V} (h : r.bodies ⊆ r'.bodies) :
    inferences r.rules ⊆ inferences r'.rules := by
  rintro i ⟨ρ, hρ, σ, a, ha, rfl⟩
  obtain ⟨ρ', hρ', hbody⟩ := h ⟨ρ, hρ, rfl⟩
  obtain ⟨hcond, hconclusions⟩ := Prod.mk.inj hbody
  refine ⟨ρ', hρ', σ, a, hconclusions ▸ ha, ?_⟩
  simp only [DatalogRule.inference, hcond]

variable [Inhabited V]

/-- A call with enough steps ends, and it ends with the least model. -/
theorem forward_regular {r : Round V} (h : r.Regular) (d : Database V) :
    (∃ d' depth, ∀ fuel ≥ depth, r.run fuel d = some d') ∧
    ∀ fuel d', r.run fuel d = some d' →
      { f | f ∈ d'.facts } = leastClosed (inferences r.rules) { f | f ∈ (r.load d).facts } := by
  have hdistinct := distinctNames_map h.names
  constructor
  · have hstart : (bounded r.rules (List.subset_append_right (r.load d).values _)).invariant
        (r.load d) := List.subset_append_left _ _
    obtain ⟨depth, fired, d', hrun⟩ := Bounded.forward_terminates _ hdistinct hstart
    refine ⟨d', depth, fun fuel hfuel => ?_⟩
    rw [Round.run, forward_more hfuel hrun]
    rfl
  · intro fuel d' hrun
    obtain ⟨⟨fired, d''⟩, hforward, rfl⟩ := Option.map_eq_some_iff.mp hrun
    have hvalid := forward_validRun hdistinct hforward
    obtain ⟨hgrow, final, hfinal, hall⟩ := hvalid.recorded fun f hf => by cases hf
    refine eq_leastClosed (fun f hf => hgrow hf) ?_ ?_
    · rintro i ⟨ρ, hρ, σ, a, ha, rfl⟩ hholds
      exact closed_of_allFired h.names hfinal hρ (hall _ (takes_iff.mpr ⟨ρ, hρ, rfl⟩))
        (h.committed ρ hρ) hholds ha
    · exact hvalid.subset_closed (base_subset_leastClosed _ _) (isLeast_leastClosed _ _).1.2

/-! ## All rounds -/

theorem runRounds_ends {rounds : List (Round V)} (h : ∀ r ∈ rounds, r.Regular) (d : Database V) :
    ∃ d' depth, ∀ fuel ≥ depth, runRounds fuel rounds d = some d' := by
  induction rounds generalizing d with
  | nil => exact ⟨d, 0, fun _ _ => rfl⟩
  | cons r rounds ih =>
    obtain ⟨d₁, depth, hrun⟩ := (forward_regular (h r List.mem_cons_self) d).1
    obtain ⟨d', depth', hrest⟩ := ih (fun r hr => h r (List.mem_cons_of_mem _ hr)) d₁
    refine ⟨d', max depth depth', fun fuel hfuel => ?_⟩
    rw [runRounds, hrun fuel (le_of_max_le_left hfuel)]
    exact hrest fuel (le_of_max_le_right hfuel)

/-- The facts after the rounds are the least set of the last rules with all facts given. -/
theorem facts_runRounds {rounds : List (Round V)} {last : Round V} (hlast : last ∈ rounds.getLast?)
    (h : ∀ r ∈ rounds, r.Regular) (hamong : ∀ r ∈ rounds, r.bodies ⊆ last.bodies) {fuel : Nat}
    {d d' : Database V} (hrun : runRounds fuel rounds d = some d') :
    { f | f ∈ d'.facts } =
      leastClosed (inferences last.rules) ({ f | f ∈ d.facts } ∪ { f | f ∈ given rounds }) := by
  induction rounds generalizing d with
  | nil => cases hlast
  | cons r rounds ih =>
    obtain ⟨d₁, hround, hrest⟩ := Option.bind_eq_some_iff.mp hrun
    have hregular := h r List.mem_cons_self
    have hfirst := (forward_regular hregular d).2 fuel d₁ hround
    have hload : { f | f ∈ (r.load d).facts } =
        { f | f ∈ d.facts } ∪ { f | f ∈ r.facts.map Prod.fst } :=
      Set.ext fun f => mem_load hregular.adds d f
    cases rounds with
    | nil =>
      obtain rfl := Option.some.inj hrest
      obtain rfl : r = last := Option.some.inj hlast
      rw [hfirst, hload, given, List.flatMap_cons, List.flatMap_nil, List.append_nil]
    | cons r' rounds =>
      have hnext := ih hlast (fun r hr => h r (List.mem_cons_of_mem _ hr))
        (fun r hr => hamong r (List.mem_cons_of_mem _ hr)) hrest
      have hgiven : { f | f ∈ given (r :: r' :: rounds) } =
          { f | f ∈ r.facts.map Prod.fst } ∪ { f | f ∈ given (r' :: rounds) } :=
        Set.ext fun f => List.mem_append
      rw [hnext, hfirst, leastClosed_union_leastClosed (inferences_subset
        (hamong r List.mem_cons_self)), hload, hgiven, Set.union_assoc]

/-- Two sequences of rounds that end with rules that say the same, and that give the same facts,
    end with enough steps, and with the same facts. -/
theorem rounds_agree {rounds rounds' : List (Round V)}
    {bodies : Set (Goal (Atom V) × List (Atom V))} (h : Growing rounds bodies)
    (h' : Growing rounds' bodies) (hgiven : ∀ f, f ∈ given rounds ↔ f ∈ given rounds')
    (d : Database V) :
    (∃ depth, ∀ fuel ≥ depth, ∃ d₁ d₂, runRounds fuel rounds d = some d₁ ∧
      runRounds fuel rounds' d = some d₂) ∧
    ∀ fuel fuel' d₁ d₂, runRounds fuel rounds d = some d₁ → runRounds fuel' rounds' d = some d₂ →
      ∀ f, f ∈ d₁.facts ↔ f ∈ d₂.facts := by
  constructor
  · obtain ⟨d₁, depth, hends⟩ := runRounds_ends h.regular d
    obtain ⟨d₂, depth', hends'⟩ := runRounds_ends h'.regular d
    exact ⟨max depth depth', fun fuel hfuel => ⟨d₁, d₂, hends fuel (le_of_max_le_left hfuel),
      hends' fuel (le_of_max_le_right hfuel)⟩⟩
  · intro fuel fuel' d₁ d₂ hrun hrun' f
    obtain ⟨last, hlast, hbodies⟩ := h.last
    obtain ⟨last', hlast', hbodies'⟩ := h'.last
    have hfacts := facts_runRounds hlast h.regular (hbodies ▸ h.among) hrun
    have hfacts' := facts_runRounds hlast' h'.regular (hbodies' ▸ h'.among) hrun'
    have hrules : inferences last.rules = inferences last'.rules :=
      (inferences_subset (hbodies.trans hbodies'.symm).le).antisymm
        (inferences_subset (hbodies'.trans hbodies.symm).le)
    have hsame : { f | f ∈ given rounds } = { f | f ∈ given rounds' } := Set.ext hgiven
    have heq : { f | f ∈ d₁.facts } = { f | f ∈ d₂.facts } := by
      rw [hfacts, hfacts', hrules, hsame]
    exact Set.ext_iff.mp heq f

/-- The rule of `pathRule` under another name, and before others. -/
def urgentPathRule : DatalogRule Nat :=
  { pathRule with name := "urgent_path", named := by decide, priority := some 5 }

/-- The path first, then what it is extended by. -/
def pathRounds : List (Round Nat) :=
  [⟨[(⟨"path", [1, 1]⟩, .assert_rtx)], [pathRule]⟩,
    ⟨[(⟨"node", [2]⟩, .assert_rtx), (⟨"edge", [2, 1]⟩, .assert_rtx)], [pathRule]⟩]

/-- All at once, in another order. -/
def pathRound : List (Round Nat) :=
  [⟨[(⟨"edge", [2, 1]⟩, .assert), (⟨"path", [1, 1]⟩, .asserta), (⟨"node", [2]⟩, .assertz)],
    [urgentPathRule]⟩]

theorem rounds_agree_path : ∃ fuel d₁ d₂, runRounds fuel pathRounds ⟨[], []⟩ = some d₁ ∧
    runRounds fuel pathRound ⟨[], []⟩ = some d₂ ∧ ∀ f, f ∈ d₁.facts ↔ f ∈ d₂.facts := by
  have hcommitted : ∀ ρ ∈ [pathRule, urgentPathRule], ρ.Committed := by
    intro ρ hρ
    obtain rfl | rfl := List.mem_pair.mp hρ
    all_goals exact ⟨trivial, trivial, by decide, trivial, trivial⟩
  have hnamed : ∀ ρ ∈ [pathRule, urgentPathRule], ∀ facts : List (Fact Nat × AddForm),
      (∀ f ∈ facts, f.2 ≠ .assert_once) → (⟨facts, [ρ]⟩ : Round Nat).Regular := by
    intro ρ hρ facts hfacts
    refine ⟨List.nodup_singleton _, fun ρ' hρ' => ?_, hfacts⟩
    rw [List.mem_singleton.mp hρ']
    exact hcommitted ρ hρ
  have hbodies : ∀ ρ ∈ [pathRule, urgentPathRule], ∀ facts : List (Fact Nat × AddForm),
      (⟨facts, [ρ]⟩ : Round Nat).bodies = {(pathRule.cond, pathRule.conclusions)} := by
    intro ρ hρ facts
    have hsame : (ρ.cond, ρ.conclusions) = (pathRule.cond, pathRule.conclusions) := by
      obtain rfl | rfl := List.mem_pair.mp hρ <;> rfl
    ext b
    constructor
    · rintro ⟨ρ', hρ', rfl⟩
      rw [List.mem_singleton.mp hρ']
      exact hsame
    · rintro rfl
      exact ⟨ρ, List.mem_singleton_self _, hsame⟩
  have hfirst : pathRule ∈ [pathRule, urgentPathRule] := List.mem_cons_self
  have hsecond : urgentPathRule ∈ [pathRule, urgentPathRule] := List.mem_cons_of_mem _ (by simp)
  have hrounds : Growing pathRounds {(pathRule.cond, pathRule.conclusions)} := by
    refine ⟨?_, ?_, _, rfl, hbodies _ hfirst _⟩
    · intro r hr
      obtain rfl | rfl := List.mem_pair.mp hr
      all_goals exact hnamed _ hfirst _ (by decide)
    · intro r hr
      obtain rfl | rfl := List.mem_pair.mp hr
      all_goals exact (hbodies _ hfirst _).le
  have hround : Growing pathRound {(pathRule.cond, pathRule.conclusions)} := by
    refine ⟨?_, ?_, _, rfl, hbodies _ hsecond _⟩
    · intro r hr
      rw [List.mem_singleton.mp hr]
      exact hnamed _ hsecond _ (by decide)
    · intro r hr
      rw [List.mem_singleton.mp hr]
      exact (hbodies _ hsecond _).le
  have hgiven : ∀ f, f ∈ given pathRounds ↔ f ∈ given pathRound := by
    intro f
    simp only [given, pathRounds, pathRound, List.flatMap_cons, List.flatMap_nil, List.map_cons,
      List.map_nil, List.append_nil, List.mem_append, List.mem_cons, List.not_mem_nil, or_false]
    tauto
  obtain ⟨⟨depth, hends⟩, hagree⟩ := rounds_agree hrounds hround hgiven ⟨[], []⟩
  obtain ⟨d₁, d₂, hrun, hrun'⟩ := hends depth le_rfl
  exact ⟨depth, d₁, d₂, hrun, hrun', hagree depth depth d₁ d₂ hrun hrun'⟩

end SmartWarehouse.Kbase
