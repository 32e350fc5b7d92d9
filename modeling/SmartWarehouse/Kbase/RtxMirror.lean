/-
  The mirror `rtx/1` of `RTXutil.pl` is exact.

  `assert_rtx/1`, `retract_rtx/1`, `replace_rtx/1` and `retractall_rtx/0` keep every fact and
  its entry in `rtx/1` together: as multisets the facts and the mirror are equal after any calls
  (`mirrored_run`). That is what `retractall_rtx` needs to succeed (`retractallRtx_mirrored`).
  Facts are ground and of another functor than `rtx/1`; a pattern counts by the facts it unifies
  with, so its arguments may be terms of any depth.
-/
import SmartWarehouse.Kbase.Patterns
import Mathlib.Data.List.Perm.Basic

namespace SmartWarehouse.Kbase

variable {V : Type} [DecidableEq V]

/-! ## Operations -/

def Database.replaceRtx (db : Database V) (newFact : Fact V) : Database V :=
  let existingFacts := newFact.mostGeneric
  ⟨(db.facts.filter fun f => !existingFacts.matches f) ++ [newFact],
    (db.rtx.filter fun f => !existingFacts.matches f) ++ [newFact]⟩

/-- What the engine does for a conclusion `retract_rtx(A)` is `retract_rtx` with the facts that
    `A` matches. -/
theorem retractRtx_eq (a : Atom V) (β : Bindings V) (rtx facts : List (Fact V)) :
    (retractRtx a β rtx facts).1.map Prod.snd =
      (retractMirrored (fun f => (a.matchFact f β).isSome) rtx facts).1.map Prod.snd ∧
    (retractRtx a β rtx facts).2 =
      (retractMirrored (fun f => (a.matchFact f β).isSome) rtx facts).2 := by
  induction facts with
  | nil => exact ⟨rfl, rfl⟩
  | cons f fs ih =>
    rw [retractRtx_cons, retractMirrored_cons]
    cases hmatch : a.matchFact f β with
    | none =>
      simp only [Option.isSome_none, Bool.false_eq_true, if_false]
      exact ⟨ih.1, congrArg (f :: ·) ih.2⟩
    | some β' =>
      simp only [Option.isSome_some, if_true]
      by_cases hf : f ∈ rtx
      · rw [if_pos hf, if_pos hf]
        exact ⟨rfl, rfl⟩
      · rw [if_neg hf, if_neg hf]
        exact ih

theorem remove_retract_rtx (db : Database V) (a : Atom V) (β : Bindings V) :
    ((db.remove a β .retract_rtx).1.isSome, (db.remove a β .retract_rtx).2) =
      db.retractRtx fun f => (a.matchFact f β).isSome := by
  obtain ⟨hrtx, hfacts⟩ := retractRtx_eq a β db.rtx db.facts
  unfold Database.remove Database.retractRtx
  cases h : retractRtx a β db.rtx db.facts with
  | mk r facts =>
    cases h' : retractMirrored (fun f => (a.matchFact f β).isSome) db.rtx db.facts with
    | mk r' facts' =>
      rw [h, h'] at hrtx hfacts
      cases r with
      | none =>
        cases r' with
        | none => simpa using hfacts
        | some r' => cases hrtx
      | some r =>
        cases r' with
        | none => cases hrtx
        | some r' =>
          have hsnd : r.2 = r'.2 := by simpa using hrtx
          have hfst : facts = facts' := hfacts
          simp [hsnd, hfst]

/-! ## Runs -/

inductive RtxCall (V : Type) where
  | assertRtx (fact : Fact V)
  | retractRtx (pattern : Fact V → Bool)
  | replaceRtx (newFact : Fact V)
  | retractallRtx

def Database.rtxStep (db : Database V) : RtxCall V → Database V
  | .assertRtx fact => db.add fact .assert_rtx
  | .retractRtx pattern => (db.retractRtx pattern).2
  | .replaceRtx newFact => db.replaceRtx newFact
  | .retractallRtx => db.retractallRtx.2

/-- A run from a database without facts. -/
def runRtx (calls : List (RtxCall V)) : Database V := calls.foldl Database.rtxStep ⟨[], []⟩

/-! ## The invariant -/

/-- The facts and the mirror are the same multiset. -/
def Database.Mirrored (db : Database V) : Prop := db.facts.Perm db.rtx

/-- In a mirrored database the first fact that unifies is the one retracted. -/
theorem retractMirrored_of_subset (pattern : Fact V → Bool) {rtx facts : List (Fact V)}
    (h : ∀ f ∈ facts, f ∈ rtx) :
    (∃ f ∈ facts, pattern f = true ∧
      retractMirrored pattern rtx facts = (some (f, rtx.erase f), facts.erase f)) ∨
    (∀ f ∈ facts, pattern f = false) ∧ retractMirrored pattern rtx facts = (none, facts) := by
  induction facts with
  | nil =>
    refine .inr ⟨?_, rfl⟩
    intro f hf
    cases hf
  | cons f fs ih =>
    rw [retractMirrored_cons]
    by_cases hp : pattern f
    · rw [if_pos hp, if_pos (h f List.mem_cons_self)]
      refine .inl ⟨f, List.mem_cons_self, hp, ?_⟩
      rw [List.erase_cons_head]
    · rw [if_neg hp]
      obtain ⟨g, hg, hpg, heq⟩ | ⟨hnone, heq⟩ := ih fun x hx => h x (List.mem_cons_of_mem _ hx)
      · refine .inl ⟨g, List.mem_cons_of_mem _ hg, hpg, ?_⟩
        have hne : f ≠ g := by
          intro hfg
          rw [hfg] at hp
          exact hp hpg
        rw [heq, List.erase_cons_tail (by simpa using hne)]
      · refine .inr ⟨?_, by rw [heq]⟩
        intro x hx
        obtain rfl | hx := List.mem_cons.mp hx
        · simpa using hp
        · exact hnone x hx

/-- `retract_rtx` takes out the same fact on both sides, or fails and changes nothing. -/
theorem retractRtx_mirrored {db : Database V} (h : db.Mirrored) (pattern : Fact V → Bool) :
    (∃ f ∈ db.facts, pattern f = true ∧
      db.retractRtx pattern = (true, ⟨db.facts.erase f, db.rtx.erase f⟩)) ∨
    (∀ f ∈ db.facts, pattern f = false) ∧ db.retractRtx pattern = (false, db) := by
  unfold Database.retractRtx
  obtain ⟨f, hf, hp, heq⟩ | ⟨hnone, heq⟩ :=
    retractMirrored_of_subset pattern fun f hf => h.mem_iff.mp hf
  · rw [heq]
    exact .inl ⟨f, hf, hp, rfl⟩
  · rw [heq]
    exact .inr ⟨hnone, rfl⟩

theorem forallRetract_perm {rtx facts : List (Fact V)} (h : facts.Perm rtx) :
    forallRetract rtx facts = (true, []) := by
  induction rtx generalizing facts with
  | nil =>
    rw [h.eq_nil]
    rfl
  | cons f rtx ih =>
    unfold forallRetract
    rw [if_pos (h.mem_iff.mpr List.mem_cons_self)]
    apply ih
    have herase := h.erase f
    rwa [List.erase_cons_head] at herase

theorem retractallRtx_mirrored {db : Database V} (h : db.Mirrored) :
    db.retractallRtx = (true, ⟨[], []⟩) := by
  unfold Database.retractallRtx
  rw [forallRetract_perm h]

theorem mirrored_step {db : Database V} (h : db.Mirrored) (call : RtxCall V) :
    (db.rtxStep call).Mirrored := by
  cases call with
  | assertRtx fact => exact List.Perm.append_right [fact] h
  | retractRtx pattern =>
    show (db.retractRtx pattern).2.Mirrored
    obtain ⟨f, -, -, heq⟩ | ⟨-, heq⟩ := retractRtx_mirrored h pattern
    · rw [heq]
      exact List.Perm.erase f h
    · rw [heq]
      exact h
  | replaceRtx newFact =>
    exact List.Perm.append_right [newFact] (List.Perm.filter _ h)
  | retractallRtx =>
    show db.retractallRtx.2.Mirrored
    rw [retractallRtx_mirrored h]
    exact List.Perm.refl _

theorem mirrored_run (calls : List (RtxCall V)) : (runRtx calls).Mirrored := by
  have hgen : ∀ db : Database V, db.Mirrored → (calls.foldl Database.rtxStep db).Mirrored := by
    induction calls with
    | nil => exact fun db h => h
    | cons call calls ih => exact fun db h => ih _ (mirrored_step h call)
  exact hgen _ (List.Perm.refl _)

/-- `replace_rtx` leaves the new fact as the only one of its functor. -/
theorem replaceRtx_only (db : Database V) (newFact : Fact V) :
    (db.replaceRtx newFact).facts.filter (fun f => newFact.sameFunctor f) = [newFact] := by
  show List.filter _ ((db.facts.filter fun f => !newFact.mostGeneric.matches f) ++ [newFact]) = _
  rw [List.filter_append, List.filter_filter]
  have hnone : (db.facts.filter fun f =>
      newFact.sameFunctor f && !newFact.mostGeneric.matches f) = [] := by
    apply List.filter_eq_nil_iff.mpr
    intro f _
    rw [mostGeneric_matches]
    simp
  rw [hnone, List.nil_append]
  simp [sameFunctor_refl]

/-- After any calls the mirror is exact: every fact has as many clauses as entries in `rtx/1`;
    `retractall_rtx` succeeds and leaves nothing; and `replace_rtx` leaves its fact as the only
    one of the functor. -/
theorem rtx_mirror_exact (calls : List (RtxCall V)) :
    (∀ f, (runRtx calls).facts.count f = (runRtx calls).rtx.count f) ∧
    (runRtx calls).retractallRtx = (true, ⟨[], []⟩) ∧
    ∀ newFact : Fact V,
      ((runRtx calls).replaceRtx newFact).facts.filter (fun f => newFact.sameFunctor f) =
        [newFact] :=
  ⟨List.perm_iff_count.mp (mirrored_run calls), retractallRtx_mirrored (mirrored_run calls),
    fun newFact => replaceRtx_only _ newFact⟩

example : runRtx [.assertRtx (⟨"p", [1]⟩ : Fact Nat), .assertRtx ⟨"p", [2]⟩,
    .assertRtx ⟨"p", [1]⟩, .retractRtx fun f => f.pred = "p"] =
      ⟨[⟨"p", [2]⟩, ⟨"p", [1]⟩], [⟨"p", [2]⟩, ⟨"p", [1]⟩]⟩ := by decide

end SmartWarehouse.Kbase
