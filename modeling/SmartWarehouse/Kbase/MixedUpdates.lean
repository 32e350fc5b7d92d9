/-
  The updates of `RTXutil.pl` on databases that mix mirrored facts with plain ones.

  Where all facts are mirrored `rtx/1` is exact (`mirrored_run`). Rules may also use the plain
  `assert`, `retract` and `assert_once`, and then each helper does what it is for only in part:
  `retractall_rtx` needs a fact for every entry (`retractallRtx_resets_iff`), `retract_rtx` an
  entry for the first fact that matches (`retractRtx_atomic_iff`), and `assert_once` at most one
  fact, whatever its arguments, to replace (`assertOnce_replaces_iff`).
-/
import SmartWarehouse.Kbase.Patterns
import Mathlib.Data.List.Basic
import Mathlib.Data.List.Count

namespace SmartWarehouse.Kbase

variable {V : Type} [DecidableEq V]

/-! ## Reset -/

/-- The loop retracts a fact for every entry, or stops where one is missing. -/
theorem forallRetract_succeeds_iff (rtx facts : List (Fact V)) :
    (forallRetract rtx facts).1 = true ↔ ∀ f, rtx.count f ≤ facts.count f := by
  induction rtx generalizing facts with
  | nil => simp [forallRetract]
  | cons f rtx ih =>
    unfold forallRetract
    by_cases hf : f ∈ facts
    · rw [if_pos hf, ih]
      have hpos : 0 < facts.count f := List.count_pos_iff.mpr hf
      -- one clause less of `f` on both sides, all else as before
      apply forall_congr'
      intro g
      rw [List.count_erase, List.count_cons]
      by_cases hg : f = g
      · subst hg
        simp only [beq_self_eq_true, if_true]
        omega
      · simp [hg]
    · rw [if_neg hf]
      refine iff_of_false Bool.false_ne_true fun h => ?_
      have hcount := h f
      rw [List.count_eq_zero_of_not_mem hf, List.count_cons_self] at hcount
      omega

theorem forallRetract_of_succeeds {rtx facts : List (Fact V)}
    (h : (forallRetract rtx facts).1 = true) :
    forallRetract rtx facts = (true, facts.diff rtx) := by
  induction rtx generalizing facts with
  | nil => rfl
  | cons f rtx ih =>
    unfold forallRetract at h ⊢
    by_cases hf : f ∈ facts
    · rw [if_pos hf] at h ⊢
      rw [ih h, List.diff_cons]
    · rw [if_neg hf] at h
      cases h

/-- `retractall_rtx` succeeds, leaves no entry, and takes out one clause for every entry as long
    as one is left, exactly if no fact has more entries than clauses. -/
theorem retractallRtx_resets_iff (db : Database V) :
    db.retractallRtx = (true, ⟨db.facts.diff db.rtx, []⟩) ↔
      ∀ f, db.rtx.count f ≤ db.facts.count f := by
  rw [← forallRetract_succeeds_iff]
  unfold Database.retractallRtx
  constructor
  · intro h
    cases hloop : forallRetract db.rtx db.facts with
    | mk ok facts =>
      rw [hloop] at h
      cases ok with
      | true => rfl
      | false => exact absurd (congrArg Prod.fst h) Bool.false_ne_true
  · intro h
    rw [forallRetract_of_succeeds h]

/-- The mirrored fact `p(1)` has gone by a plain `retract`. -/
def lostFact : Database Nat := ⟨[⟨"p", [2]⟩], [⟨"p", [1]⟩, ⟨"p", [2]⟩]⟩

/-- The reset stops at `p(1)`, with `p(2)` and both entries left. -/
theorem retractallRtx_stops_halfway :
    lostFact.retractallRtx = (false, lostFact) ∧
      lostFact.retractallRtx ≠ (true, ⟨lostFact.facts.diff lostFact.rtx, []⟩) := by
  decide

/-! ## Retraction -/

/-- One matching clause is gone together with an entry of the same fact and nothing else, or the
    call has failed and nothing is gone. -/
def Database.RetractsOne (db : Database V) (pattern : Fact V → Bool) (r : Bool × Database V) :
    Prop :=
  (∃ f ∈ db.facts, f ∈ db.rtx ∧ pattern f = true ∧
    r = (true, ⟨db.facts.erase f, db.rtx.erase f⟩)) ∨ r = (false, db)

/-- Facts before the first that matches stay. -/
theorem retractMirrored_append (pattern : Fact V → Bool) (rtx : List (Fact V))
    {pre : List (Fact V)} (h : ∀ g ∈ pre, pattern g = false) (facts : List (Fact V)) :
    retractMirrored pattern rtx (pre ++ facts) =
      ((retractMirrored pattern rtx facts).1, pre ++ (retractMirrored pattern rtx facts).2) := by
  induction pre with
  | nil => rfl
  | cons g pre ih =>
    rw [List.cons_append, retractMirrored_cons, h g List.mem_cons_self, ih fun x hx =>
      h x (List.mem_cons_of_mem _ hx)]
    rfl

theorem retractMirrored_length (pattern : Fact V → Bool) (rtx facts : List (Fact V)) :
    (retractMirrored pattern rtx facts).2.length ≤ facts.length :=
  (retractBoth_sublist facts).length_le

/-- Once a fact is out, a further one goes before the call can succeed. -/
theorem retractMirrored_length_of_some {pattern : Fact V → Bool} {rtx facts : List (Fact V)}
    (h : (retractMirrored pattern rtx facts).1.isSome) :
    (retractMirrored pattern rtx facts).2.length < facts.length := by
  induction facts with
  | nil => cases h
  | cons f fs ih =>
    rw [retractMirrored_cons] at h ⊢
    split
    · split
      · exact Nat.lt_succ_self _
      · have hlength := retractMirrored_length pattern rtx fs
        rw [List.length_cons]
        omega
    · rename_i hf
      rw [if_neg hf] at h
      have hlength := ih h
      rw [List.length_cons, List.length_cons]
      omega

/-- What `retract_rtx` does where the first match is `f`. -/
theorem retractRtx_of_find {db : Database V} {pattern : Fact V → Bool} {f : Fact V}
    (h : db.facts.find? pattern = some f) :
    (f ∈ db.rtx ∧ db.retractRtx pattern = (true, ⟨db.facts.erase f, db.rtx.erase f⟩)) ∨
      f ∉ db.rtx ∧ (db.retractRtx pattern).2.facts.length < db.facts.length ∧
        ((db.retractRtx pattern).1 = true →
          (db.retractRtx pattern).2.facts.length + 1 < db.facts.length) := by
  obtain ⟨hf, pre, post, hsplit, hpre⟩ := List.find?_eq_some_iff_append.mp h
  have hpre' : ∀ g ∈ pre, pattern g = false := fun g hg => by simpa using hpre g hg
  have hrun := retractMirrored_append pattern db.rtx hpre' (f :: post)
  by_cases hmem : f ∈ db.rtx
  · refine .inl ⟨hmem, ?_⟩
    have hnot : f ∉ pre := fun hp => by
      rw [hpre' f hp] at hf
      cases hf
    rw [retractMirrored_cons, if_pos hf, if_pos hmem] at hrun
    unfold Database.retractRtx
    rw [hsplit, hrun, List.erase_append_right _ hnot, List.erase_cons_head]
  · refine .inr ⟨hmem, ?_⟩
    rw [retractMirrored_cons, if_pos hf, if_neg hmem] at hrun
    have hle := retractMirrored_length pattern db.rtx post
    have hlt : (retractMirrored pattern db.rtx post).1.isSome →
        (retractMirrored pattern db.rtx post).2.length < post.length :=
      retractMirrored_length_of_some
    unfold Database.retractRtx
    rw [hsplit, hrun]
    cases hr : (retractMirrored pattern db.rtx post).1 with
    | none =>
      simp only [List.length_append, List.length_cons]
      exact ⟨by omega, nofun⟩
    | some r =>
      have hlt' := hlt (by rw [hr]; rfl)
      simp only [List.length_append, List.length_cons]
      exact ⟨by omega, fun _ => by omega⟩

/-- `retract_rtx` is atomic exactly if the first fact that matches, if any, has an entry. -/
theorem retractRtx_atomic_iff (db : Database V) (pattern : Fact V → Bool) :
    db.RetractsOne pattern (db.retractRtx pattern) ↔
      ∀ f, db.facts.find? pattern = some f → f ∈ db.rtx := by
  constructor
  · intro h f hfind
    obtain ⟨hmem, -⟩ | ⟨-, hlt, hlt'⟩ := retractRtx_of_find hfind
    · exact hmem
    · -- the database shrinks, by more than one clause if the call succeeds
      obtain ⟨g, hg, -, -, heq⟩ | heq := h
      · rw [heq, List.length_erase_of_mem hg] at hlt'
        have := hlt' rfl
        omega
      · rw [heq] at hlt
        exact absurd hlt (Nat.lt_irrefl _)
  · intro h
    cases hfind : db.facts.find? pattern with
    | none =>
      refine .inr ?_
      have hrun := retractMirrored_append pattern db.rtx
        (fun g hg => by simpa using List.find?_eq_none.mp hfind g hg) []
      rw [List.append_nil] at hrun
      unfold Database.retractRtx
      rw [hrun, retractMirrored, retractBoth, List.append_nil]
    | some f =>
      obtain ⟨hmem, heq⟩ | ⟨hmem, -⟩ := retractRtx_of_find hfind
      · have hspec := List.find?_eq_some_iff_append.mp hfind
        exact .inl ⟨f, List.mem_of_find?_eq_some hfind, hmem, hspec.1, heq⟩
      · exact absurd (h f hfind) hmem

/-- `p(1)` has been added by a plain `assert` before `p(2)` was mirrored. -/
def plainBeforeMirrored : Database Nat := ⟨[⟨"p", [1]⟩, ⟨"p", [2]⟩], [⟨"p", [2]⟩]⟩

/-- `retract_rtx(p(_))` succeeds and takes out both facts. -/
theorem retractRtx_takes_two :
    (plainBeforeMirrored.retractRtx fun f => f.pred = "p") = (true, ⟨[], []⟩) ∧
      ¬ plainBeforeMirrored.RetractsOne (fun f => f.pred = "p")
        (plainBeforeMirrored.retractRtx fun f => f.pred = "p") := by
  unfold Database.RetractsOne
  decide

/-! ## Replacement -/

/-- `retractall/1`. -/
def retractall (pattern : Atom V) (facts : List (Fact V)) : List (Fact V) :=
  facts.filter fun f => !pattern.matches f

def assertAll (newFact : Fact V) (facts : List (Fact V)) : List (Fact V) :=
  retractall newFact.mostGeneric facts ++ [newFact]

/-- `OldFact` is called before it is given to `retractall`, which binds it to its first answer. -/
def assertOnce2 (oldFact : Atom V) (newFact : Fact V) (facts : List (Fact V)) : List (Fact V) :=
  match facts.find? oldFact.matches with
  | some found => retractall found.toAtom facts ++ [newFact]
  | none => facts ++ [newFact]

def assertOnce (newFact : Fact V) (facts : List (Fact V)) : List (Fact V) :=
  assertOnce2 newFact.mostGeneric newFact facts

theorem retractall_toAtom (f : Fact V) (facts : List (Fact V)) :
    retractall f.toAtom facts = facts.filter (· ≠ f) := by
  unfold retractall
  apply List.filter_congr
  intro g _
  have hmatches := toAtom_matches f g
  by_cases hg : g = f
  · rw [hmatches.mpr hg.symm]
    simp [hg]
  · have hfalse : f.toAtom.matches g = false := by
      rw [Bool.eq_false_iff]
      exact fun h => hg (hmatches.mp h).symm
    rw [hfalse]
    simp [hg]

theorem retractall_mostGeneric (f : Fact V) (facts : List (Fact V)) :
    retractall f.mostGeneric facts = facts.filter fun g => !f.sameFunctor g := by
  unfold retractall
  apply List.filter_congr
  intro g _
  rw [mostGeneric_matches]

theorem find_mostGeneric (f : Fact V) (facts : List (Fact V)) :
    facts.find? f.mostGeneric.matches = facts.find? f.sameFunctor := by
  congr 1
  funext g
  exact mostGeneric_matches f g

/-- `assert_once` as a conclusion of a rule. -/
theorem add_assert_once (db : Database V) (f : Fact V) :
    db.add f .assert_once = { db with facts := assertOnce f db.facts } := by
  unfold Database.add assertOnce assertOnce2
  rw [find_mostGeneric]
  dsimp only
  cases db.facts.find? f.sameFunctor with
  | none => rfl
  | some g =>
    dsimp only
    rw [retractall_toAtom]

/-- The new fact is the only one of its functor, once, and all other facts are unchanged. -/
def ReplacesAll (newFact : Fact V) (facts facts' : List (Fact V)) : Prop :=
  facts'.filter (fun f => newFact.sameFunctor f) = [newFact] ∧
    (facts'.filter fun f => !newFact.sameFunctor f) = facts.filter fun f => !newFact.sameFunctor f

omit [DecidableEq V] in
/-- What stays of the functor besides the new fact. -/
theorem filter_append_new (newFact : Fact V) (facts : List (Fact V)) :
    (facts ++ [newFact]).filter (fun f => newFact.sameFunctor f) =
      facts.filter (fun f => newFact.sameFunctor f) ++ [newFact] := by
  rw [List.filter_append]
  congr 1
  simp [sameFunctor_refl]

omit [DecidableEq V] in
theorem replacesAll_append_iff (newFact : Fact V) (facts rest : List (Fact V)) :
    ReplacesAll newFact facts (rest ++ [newFact]) ↔
      rest = facts.filter fun f => !newFact.sameFunctor f := by
  unfold ReplacesAll
  rw [filter_append_new, List.filter_append]
  have hnew : ([newFact].filter fun f => !newFact.sameFunctor f) = [] := by
    simp [sameFunctor_refl]
  rw [hnew, List.append_nil]
  constructor
  · intro ⟨hsame, hother⟩
    -- nothing of the functor is left, so the other facts are all
    have hnone : rest.filter (fun f => newFact.sameFunctor f) = [] := by
      simpa using hsame
    rw [← hother]
    symm
    apply List.filter_eq_self.mpr
    intro f hf
    have hf' := List.filter_eq_nil_iff.mp hnone f hf
    simpa using hf'
  · intro h
    subst h
    refine ⟨?_, ?_⟩
    · rw [List.filter_filter]
      simp
    · rw [List.filter_filter]
      simp

theorem assertAll_replacesAll (newFact : Fact V) (facts : List (Fact V)) :
    ReplacesAll newFact facts (assertAll newFact facts) := by
  unfold assertAll
  rw [replacesAll_append_iff, retractall_mostGeneric]

theorem assertOnce_replacesAll_iff (newFact : Fact V) (facts : List (Fact V)) :
    ReplacesAll newFact facts (assertOnce newFact facts) ↔
      assertOnce newFact facts = assertAll newFact facts := by
  have hform : ∃ rest, assertOnce newFact facts = rest ++ [newFact] := by
    unfold assertOnce assertOnce2
    split
    · exact ⟨_, rfl⟩
    · exact ⟨_, rfl⟩
  obtain ⟨rest, hrest⟩ := hform
  rw [hrest, replacesAll_append_iff, assertAll, retractall_mostGeneric]
  exact List.append_left_inj _ |>.symm

/-- To take out one fact is to take out its functor exactly if it has no other fact. -/
theorem filter_ne_eq_iff {newFact found : Fact V} {facts : List (Fact V)}
    (hmem : found ∈ facts) (hfound : newFact.sameFunctor found = true) :
    facts.filter (· ≠ found) = (facts.filter fun f => !newFact.sameFunctor f) ↔
      ∀ f ∈ facts, ∀ g ∈ facts, newFact.sameFunctor f = true → newFact.sameFunctor g = true →
        f = g := by
  constructor
  · intro heq f hf g hg hsame hsame'
    have honly : ∀ x ∈ facts, newFact.sameFunctor x = true → x = found := by
      intro x hx hxsame
      by_contra hne
      have hstays : x ∈ facts.filter (· ≠ found) := List.mem_filter.mpr ⟨hx, by simpa using hne⟩
      rw [heq] at hstays
      have hgone := (List.mem_filter.mp hstays).2
      rw [hxsame] at hgone
      cases hgone
    rw [honly f hf hsame, honly g hg hsame']
  · intro h
    apply List.filter_congr
    intro x hx
    by_cases hxsame : newFact.sameFunctor x = true
    · rw [h x hx found hmem hxsame hfound, hfound]
      simp
    · have hne : x ≠ found := fun hx' => hxsame (hx' ▸ hfound)
      rw [Bool.not_eq_true] at hxsame
      simp [hne, hxsame]

/-- `assert_once` replaces all facts of the functor, and so does what `assert_all` does, exactly
    if no two of them are different. -/
theorem assertOnce_replaces_iff (newFact : Fact V) (facts : List (Fact V)) :
    (ReplacesAll newFact facts (assertOnce newFact facts) ∧
        assertOnce newFact facts = assertAll newFact facts) ↔
      ∀ f ∈ facts, ∀ g ∈ facts, newFact.sameFunctor f = true → newFact.sameFunctor g = true →
        f = g := by
  rw [assertOnce_replacesAll_iff, and_self]
  unfold assertOnce assertOnce2 assertAll
  rw [find_mostGeneric, retractall_mostGeneric]
  cases hfind : facts.find? newFact.sameFunctor with
  | none =>
    have hnone := List.find?_eq_none.mp hfind
    dsimp only
    refine iff_of_true ?_ fun f hf _ _ hsame => absurd hsame (hnone f hf)
    rw [List.filter_eq_self.mpr fun f hf => by simpa using hnone f hf]
  | some found =>
    dsimp only
    rw [retractall_toAtom, List.append_left_inj]
    exact filter_ne_eq_iff (List.mem_of_find?_eq_some hfind) (List.find?_some hfind)

/-- With `p(1)` and `p(2)` there, `assert_once(p(3))` takes out the first only. -/
theorem assertOnce_keeps_second :
    assertOnce (⟨"p", [3]⟩ : Fact Nat) [⟨"p", [1]⟩, ⟨"p", [2]⟩] = [⟨"p", [2]⟩, ⟨"p", [3]⟩] ∧
      assertAll (⟨"p", [3]⟩ : Fact Nat) [⟨"p", [1]⟩, ⟨"p", [2]⟩] = [⟨"p", [3]⟩] ∧
      ¬ ReplacesAll (⟨"p", [3]⟩ : Fact Nat) [⟨"p", [1]⟩, ⟨"p", [2]⟩]
        (assertOnce ⟨"p", [3]⟩ [⟨"p", [1]⟩, ⟨"p", [2]⟩]) := by
  unfold ReplacesAll
  decide

end SmartWarehouse.Kbase
