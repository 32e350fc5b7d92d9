/-
  `make_most_generic_term/2` with its variables.

  The state is the number of variables so far. `make_most_generic_term_2/2` leaves its output
  unbound for what is no compound, and the `findall` over the arguments copies what it finds, so
  that every such argument ends up as a variable of its own (`makeMostGenericTerm2_eq`). The
  generic term of a compound is a skeleton of it, found once (`askMostGeneric_of_compound`). With
  the variables left out it is the pattern that `assert_state/1` looks for (`forget_eq`).
-/
import SmartWarehouse.Kbase.NestedStates
import SmartWarehouse.Lib.Backtrack
import SmartWarehouse.Lib.Skeleton

namespace SmartWarehouse.Kbase.Generic

open SmartWarehouse.Lib

variable {V : Type}

def newVar : Query Nat Nat := fun n => .one n (n + 1)

theorem newVar_eq (n : Nat) : newVar n = .one n (n + 1) := rfl

/-- `copy_term/2`, when the variables of `p` are below the state. -/
def copyTerm (p : Pattern V) : Query Nat (Pattern V) :=
  fun n => .one (p.subst fun x => .var (n + x)) (n + n)

mutual
/-- `make_most_generic_term_2/2` with the variable `generic` as output. The cut at the end of the
    first clause commits to its first answer. -/
def makeMostGenericTerm2 : Pattern V → Nat → Query Nat (Pattern V)
  | .compound name args, generic => Query.commit
      (do
        let subGeneric ← newVar
        let l ← Query.findall (subGenerics args subGeneric >>= copyTerm)
        pure (univ name l))
      pure
      (pure (.var generic))
  -- the second clause leaves the output unbound
  | _, generic => pure (.var generic)
/-- `arg(_, Term, SubTerm), make_most_generic_term_2(SubTerm, SubGeneric)`. -/
def subGenerics : List (Pattern V) → Nat → Query Nat (Pattern V)
  | [], _ => .fail
  | t :: ts, subGeneric => (makeMostGenericTerm2 t subGeneric).orElse (subGenerics ts subGeneric)
end

/-- `make_most_generic_term/2`: each clause tests its first argument. -/
def makeMostGenericTerm (term : Pattern V) (generic : Nat) : Query Nat (Pattern V) :=
  (if term.isCompound then .fail else pure term : Query Nat (Pattern V)).orElse
    (if term.isCompound then makeMostGenericTerm2 term generic else .fail)

/-- `make_most_generic_term(Term, G)` with a new variable `G`. -/
def askMostGeneric (term : Pattern V) : Query Nat (Pattern V) :=
  newVar >>= makeMostGenericTerm term

/-! ## What is found -/

theorem skeleton_univ {lo hi : Nat} {ps qs : List (Pattern V)} (h : Skeletons lo hi ps qs)
    (name : String) (hqs : qs ≠ []) :
    (univ name ps).SkeletonOf lo hi (.compound name qs) := by
  cases ps with
  | nil =>
    cases qs with
    | nil => exact absurd rfl hqs
    | cons q qs => cases h.shapes
  | cons p ps => exact .compound h name

mutual
/-- What is no compound stays the variable of the caller. -/
theorem makeMostGenericTerm2_eq (p : Pattern V) (hp : p.shape.proper = true) {g n : Nat}
    (hg : g < n) :
    ∃ G n', makeMostGenericTerm2 p g n = .one G n' ∧ n ≤ n' ∧
      G.SkeletonOf (if p.isCompound then n else g) n' p := by
  cases p with
  | compound name ps =>
    obtain ⟨hempty, hps⟩ := Bool.and_eq_true_iff.mp hp
    obtain ⟨n', hfinish, hle, hskeletons⟩ := subGenerics_answers ps hps (Nat.lt_succ_self n)
    have hne : ps ≠ [] := by
      rintro rfl
      cases hempty
    have hskeleton := (skeleton_univ hskeletons name hne).mono (Nat.le_succ n) (Nat.le_refl n')
    refine ⟨_, n', ?_, Nat.le_of_succ_le hle, hskeleton⟩
    apply Query.commit_one
    exact (Query.bind_one (newVar_eq n) _).trans
      (Query.bind_one (Query.findall_eq hfinish) _)
  | _ => exact ⟨.var g, n, rfl, Nat.le_refl n, .var (Nat.le_refl g) hg rfl⟩
/-- The copies of what is found for the arguments share no variables. -/
theorem subGenerics_answers (ps : List (Pattern V)) (hps : shapesProper (shapesOf ps) = true)
    {g n : Nat} (hg : g < n) :
    ∃ n', ((subGenerics ps g >>= copyTerm) n).finish = (n', .exhausted) ∧ n ≤ n' ∧
      Skeletons n n' ((subGenerics ps g >>= copyTerm) n).answers ps := by
  cases ps with
  | nil => exact ⟨n, rfl, Nat.le_refl n, .nil n⟩
  | cons p ps =>
    obtain ⟨hp, hrest⟩ := Bool.and_eq_true_iff.mp hps
    obtain ⟨G, n₁, hG, hn₁, hskeleton⟩ := makeMostGenericTerm2_eq p hp hg
    obtain ⟨n', hfinish, hle, hskeletons⟩ :=
      subGenerics_answers ps hrest (show g < n₁ + n₁ by omega)
    have hcopy := hskeleton.copy
    have heq : (subGenerics (p :: ps) g >>= copyTerm) n =
        .answer (G.subst fun x => .var (n₁ + x)) (n₁ + n₁) (subGenerics ps g >>= copyTerm) := by
      show ((makeMostGenericTerm2 p g n).append (subGenerics ps g)).bind copyTerm = _
      rw [hG]
      rfl
    rw [heq]
    exact ⟨n', hfinish, by omega,
      .cons (hcopy.mono hn₁ (Nat.le_refl _)) hskeletons (by omega) hle⟩
end

theorem askMostGeneric_of_not_compound {p : Pattern V} (hp : p.isCompound = false) (n : Nat) :
    askMostGeneric p n = .one p (n + 1) := by
  refine (Query.bind_one (newVar_eq n) _).trans ?_
  unfold makeMostGenericTerm
  rw [if_neg (by simp [hp]), if_neg (by simp [hp])]
  rfl

theorem askMostGeneric_of_compound {p : Pattern V} (hp : p.isCompound = true)
    (hproper : p.shape.proper = true) (n : Nat) :
    ∃ G n', askMostGeneric p n = .one G n' ∧ G.SkeletonOf n n' p := by
  obtain ⟨G, n', hG, -, hskeleton⟩ := makeMostGenericTerm2_eq p hproper (Nat.lt_succ_self n)
  rw [if_pos hp] at hskeleton
  refine ⟨G, n', (Query.bind_one (newVar_eq n) _).trans ?_,
    hskeleton.mono (Nat.le_succ n) (Nat.le_refl n')⟩
  unfold makeMostGenericTerm
  rw [if_pos hp, if_pos hp]
  exact hG

/-- The generic term of a ground term is the term itself or a skeleton of it. -/
theorem askMostGeneric_ground (t : GroundTerm V) (ht : t.toPattern.shape.proper = true) (n : Nat) :
    ∃ G n', askMostGeneric t.toPattern n = .one G n' ∧
      (t.toPattern.isCompound = false → G = t.toPattern) ∧
      (t.toPattern.isCompound = true → G.SkeletonOf n n' t.toPattern) ∧
      (∃ θ, G.subst θ = t.toPattern) ∧
      (∀ m, ∃ G' m', askMostGeneric G m = .one G' m' ∧ G.Variant G') ∧
      ∀ u : GroundTerm V, u.toPattern.shape.proper = true →
        t.toPattern.isCompound = true → u.toPattern.isCompound = true → ∀ m,
          ∃ G' m', askMostGeneric u.toPattern m = .one G' m' ∧
            (G.Variant G' ↔ t.toPattern.shape = u.toPattern.shape) := by
  by_cases hcompound : t.toPattern.isCompound = true
  · obtain ⟨G, n', hG, hskeleton⟩ := askMostGeneric_of_compound hcompound ht n
    refine ⟨G, n', hG, fun h => ?_, fun _ => hskeleton, hskeleton.subsumes, fun m => ?_,
      fun u hu _ hcompound' m => ?_⟩
    · rw [hcompound] at h
      cases h
    · have hG' : G.isCompound = true := by
        rw [← hskeleton.isCompound, hcompound]
      obtain ⟨G', m', hm, hskeleton'⟩ :=
        askMostGeneric_of_compound hG' (by rw [hskeleton.shape, ht]) m
      exact ⟨G', m', hm, (hskeleton.variant_iff hskeleton').mpr hskeleton.shape.symm⟩
    · obtain ⟨G', m', hm, hskeleton'⟩ := askMostGeneric_of_compound hcompound' hu m
      exact ⟨G', m', hm, hskeleton.variant_iff hskeleton'⟩
  · have hconstant := Bool.eq_false_of_not_eq_true hcompound
    have hsame := askMostGeneric_of_not_compound hconstant
    refine ⟨t.toPattern, n + 1, hsame n, fun _ => rfl, fun h => absurd h hcompound,
      ⟨.var, subst_var _⟩, fun m => ⟨_, _, hsame m, .refl _⟩, fun _ _ h => absurd h hcompound⟩

theorem askMostGeneric_nested :
    ∃ (G G' : Pattern Nat) (n m : Nat),
      askMostGeneric (.compound "f" [.atom "a", .compound "g" [.constant 1]]) 0 = .one G n ∧
      askMostGeneric (.compound "f" [.constant 2, .compound "g" [.atom "b"]]) n = .one G' m ∧
      G.SkeletonOf 0 n (.compound "f" [.atom "a", .compound "g" [.constant 1]]) ∧
      G.Variant G' := by
  obtain ⟨G, n, hG, -, hskeleton, -, -, hvariant⟩ := askMostGeneric_ground
    (.compound "f" [.atom "a", .compound "g" [.constant 1]] : GroundTerm Nat) (by decide) 0
  obtain ⟨G', m, hG', hiff⟩ := hvariant
    (.compound "f" [.constant 2, .compound "g" [.atom "b"]]) (by decide) rfl rfl n
  exact ⟨G, G', n, m, hG, hG', hskeleton rfl, hiff.mpr rfl⟩

/-! ## The pattern without variables -/

mutual
theorem anonymous_of_proper (t : GroundTerm V) (ht : t.toPattern.shape.proper = true) :
    (Kbase.makeMostGenericTerm2 t).shape = t.toPattern.shape ∧
      (Kbase.makeMostGenericTerm2 t).leaves =
        List.replicate t.toPattern.leaves.length .anonymous := by
  cases t with
  | compound name args =>
    obtain ⟨hempty, hargs⟩ := Bool.and_eq_true_iff.mp ht
    cases args with
    | nil => cases hempty
    | cons u us =>
      obtain ⟨hshapes, hleaves⟩ := anonymous_of_propers (u :: us) hargs
      exact ⟨congrArg (Shape.node name) hshapes, hleaves⟩
  | _ => exact ⟨rfl, rfl⟩
theorem anonymous_of_propers (ts : List (GroundTerm V))
    (hts : shapesProper (shapesOf (toPatterns ts)) = true) :
    shapesOf (Kbase.subGenerics ts) = shapesOf (toPatterns ts) ∧
      leavesOf (Kbase.subGenerics ts) =
        List.replicate (leavesOf (toPatterns ts)).length .anonymous := by
  cases ts with
  | nil => exact ⟨rfl, rfl⟩
  | cons t ts =>
    obtain ⟨ht, hrest⟩ := Bool.and_eq_true_iff.mp hts
    obtain ⟨hshape, hleaf⟩ := anonymous_of_proper t ht
    obtain ⟨hshapes, hleaves⟩ := anonymous_of_propers ts hrest
    rw [Kbase.subGenerics, toPatterns, shapesOf, shapesOf, leavesOf, leavesOf, hshape, hshapes,
      hleaf, hleaves, List.length_append, List.replicate_add]
    exact ⟨rfl, rfl⟩
end

theorem makeMostGenericTerm_of_compound {t : GroundTerm V} (h : t.toPattern.isCompound = true) :
    Kbase.makeMostGenericTerm t = Kbase.makeMostGenericTerm2 t := by
  cases t with
  | compound name args => rfl
  | atom a => cases h
  | constant v => cases h

/-- `assert_state/1` and `retract_state/1` use each variable once, so its name does not matter. -/
theorem forget_eq {t : GroundTerm V} (ht : t.toPattern.shape.proper = true)
    (hcompound : t.toPattern.isCompound = true) {n n' : Nat} {G : Pattern V}
    (hG : askMostGeneric t.toPattern n = .one G n') :
    (G.subst fun _ => .anonymous) = Kbase.makeMostGenericTerm t := by
  obtain ⟨G₁, n₁, hG₁, hskeleton⟩ := askMostGeneric_of_compound hcompound ht n
  obtain ⟨rfl, -⟩ := Solutions.answer.inj (hG.symm.trans hG₁)
  obtain ⟨xs, -, -, hleaves⟩ := hskeleton.leaves
  obtain ⟨hshape, hanonymous⟩ := anonymous_of_proper t ht
  rw [makeMostGenericTerm_of_compound hcompound]
  refine subst_eq_of_leaves G _ _ (hskeleton.shape.trans hshape.symm) ?_
  rw [hleaves, map_subst_var, List.map_const', length_leaves_of_skeleton hleaves hskeleton.shape]
  exact hanonymous.symm

theorem anonymous_fits [DecidableEq V] {t u : GroundTerm V}
    (ht : t.toPattern.shape.proper = true) (hcompound : t.toPattern.isCompound = true) :
    (Kbase.makeMostGenericTerm t).matchesTerm u = true ↔ t.toPattern.shape.Fits u := by
  obtain ⟨hshape, hleaves⟩ := anonymous_of_proper t ht
  rw [makeMostGenericTerm_of_compound hcompound, ← hshape]
  refine matchesTerm_iff_fits fun us hlength => ⟨fun _ => u, ?_⟩
  rw [hleaves] at hlength ⊢
  rw [List.length_replicate] at hlength
  rw [← hlength]
  exact instances_anonymous _ us

/-- What the generic term unifies with. -/
theorem askMostGeneric_matches [DecidableEq V] {t : GroundTerm V}
    (ht : t.toPattern.shape.proper = true) (n : Nat) :
    ∃ G n', askMostGeneric t.toPattern n = .one G n' ∧
      ∀ u, G.matchesTerm u = (Kbase.makeMostGenericTerm t).matchesTerm u := by
  by_cases hcompound : t.toPattern.isCompound = true
  · obtain ⟨G, n', hG, hskeleton⟩ := askMostGeneric_of_compound hcompound ht n
    refine ⟨G, n', hG, fun u => ?_⟩
    rw [Bool.eq_iff_iff, hskeleton.matchesTerm_iff, anonymous_fits ht hcompound]
  · have hG := askMostGeneric_of_not_compound (Bool.eq_false_of_not_eq_true hcompound) n
    cases t with
    | compound name args => exact absurd rfl hcompound
    | atom a => exact ⟨_, _, hG, fun u => rfl⟩
    | constant v => exact ⟨_, _, hG, fun u => rfl⟩

end SmartWarehouse.Kbase.Generic
