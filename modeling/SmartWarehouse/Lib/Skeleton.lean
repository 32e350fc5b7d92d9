/-
  Substitution in patterns, their leaves, and their compound structure.

  The leaves of a pattern are its subterms that are no compounds, in order, and its shape is
  what remains without them. Shape and leaves determine a pattern, so a substitution that takes
  the leaves of one pattern to those of another of the same shape takes the one to the other
  (`subst_eq_of_leaves`). A skeleton has different variables as leaves: it subsumes every pattern
  of its shape (`Pattern.SkeletonOf.subsumes`), and skeletons are variants exactly if they have
  one shape (`Pattern.SkeletonOf.variant_iff`).
-/
import SmartWarehouse.Lib.Matching
import Mathlib.Data.List.Nodup

namespace SmartWarehouse.Lib

variable {V : Type}

/-! ## Substitution, leaves and shapes -/

mutual
def Pattern.subst (θ : Nat → Pattern V) : Pattern V → Pattern V
  | .anonymous => .anonymous
  | .var x => θ x
  | .atom a => .atom a
  | .constant v => .constant v
  | .compound name ps => .compound name (substs θ ps)
def substs (θ : Nat → Pattern V) : List (Pattern V) → List (Pattern V)
  | [] => []
  | p :: ps => p.subst θ :: substs θ ps
end

def Pattern.isCompound : Pattern V → Bool
  | .compound _ _ => true
  | _ => false

mutual
/-- The subterms that are no compounds. -/
def Pattern.leaves : Pattern V → List (Pattern V)
  | .compound _ ps => leavesOf ps
  | p => [p]
def leavesOf : List (Pattern V) → List (Pattern V)
  | [] => []
  | p :: ps => p.leaves ++ leavesOf ps
end

inductive Shape where
  | leaf
  | node (name : String) (args : List Shape)

mutual
/-- The compound structure. -/
def Pattern.shape : Pattern V → Shape
  | .compound name ps => .node name (shapesOf ps)
  | _ => .leaf
def shapesOf : List (Pattern V) → List Shape
  | [] => []
  | p :: ps => p.shape :: shapesOf ps
end

mutual
/-- Every compound has an argument. -/
def Shape.proper : Shape → Bool
  | .leaf => true
  | .node _ args => !args.isEmpty && shapesProper args
def shapesProper : List Shape → Bool
  | [] => true
  | s :: ss => s.proper && shapesProper ss
end

theorem leaves_of_not_compound {p : Pattern V} (h : p.isCompound = false) : p.leaves = [p] := by
  cases p with
  | compound name ps => cases h
  | _ => rfl

theorem shape_eq_leaf_iff {p : Pattern V} : p.shape = .leaf ↔ p.isCompound = false := by
  cases p <;> simp [Pattern.shape, Pattern.isCompound]

theorem shape_eq_node {p : Pattern V} {name : String} {shapes : List Shape}
    (h : p.shape = .node name shapes) : ∃ ps, p = .compound name ps ∧ shapesOf ps = shapes := by
  cases p with
  | compound f ps =>
    obtain ⟨rfl, hshapes⟩ := Shape.node.inj h
    exact ⟨ps, rfl, hshapes⟩
  | _ => cases h

mutual
theorem leaves_length_of_shape (p q : Pattern V) (h : p.shape = q.shape) :
    p.leaves.length = q.leaves.length := by
  cases p with
  | compound name ps =>
    obtain ⟨qs, rfl, hshapes⟩ := shape_eq_node h.symm
    exact leavesOf_length_of_shapes ps qs hshapes.symm
  | _ =>
    rw [leaves_of_not_compound (shape_eq_leaf_iff.mp h.symm), leaves_of_not_compound rfl]
    rfl
theorem leavesOf_length_of_shapes (ps qs : List (Pattern V)) (h : shapesOf ps = shapesOf qs) :
    (leavesOf ps).length = (leavesOf qs).length := by
  cases ps with
  | nil =>
    cases qs with
    | nil => rfl
    | cons q qs => cases h
  | cons p ps =>
    cases qs with
    | nil => cases h
    | cons q qs =>
      obtain ⟨hshape, hshapes⟩ := List.cons.inj h
      rw [leavesOf, leavesOf, List.length_append, List.length_append,
        leaves_length_of_shape p q hshape, leavesOf_length_of_shapes ps qs hshapes]
end

mutual
/-- Leaves and shape determine a pattern. -/
theorem subst_eq_of_leaves (p q : Pattern V) (θ : Nat → Pattern V) (hshape : p.shape = q.shape)
    (hleaves : p.leaves.map (Pattern.subst θ) = q.leaves) : p.subst θ = q := by
  cases p with
  | compound name ps =>
    obtain ⟨qs, rfl, hshapes⟩ := shape_eq_node hshape.symm
    exact congrArg (Pattern.compound name) (substs_eq_of_leaves ps qs θ hshapes.symm hleaves)
  | _ =>
    rw [leaves_of_not_compound (shape_eq_leaf_iff.mp hshape.symm)] at hleaves
    exact List.singleton_inj.mp hleaves
theorem substs_eq_of_leaves (ps qs : List (Pattern V)) (θ : Nat → Pattern V)
    (hshapes : shapesOf ps = shapesOf qs)
    (hleaves : (leavesOf ps).map (Pattern.subst θ) = leavesOf qs) : substs θ ps = qs := by
  cases ps with
  | nil =>
    cases qs with
    | nil => rfl
    | cons q qs => cases hshapes
  | cons p ps =>
    cases qs with
    | nil => cases hshapes
    | cons q qs =>
      obtain ⟨hshape, hshapes⟩ := List.cons.inj hshapes
      rw [leavesOf, leavesOf, List.map_append] at hleaves
      obtain ⟨hfirst, hrest⟩ := List.append_inj hleaves (by
        rw [List.length_map, leaves_length_of_shape p q hshape])
      rw [substs, subst_eq_of_leaves p q θ hshape hfirst,
        substs_eq_of_leaves ps qs θ hshapes hrest]
end

mutual
theorem vars_eq_leaves (p : Pattern V) : p.vars = p.leaves.flatMap Pattern.vars := by
  cases p with
  | compound name ps => exact patternVars_eq_leaves ps
  | _ => simp [Pattern.leaves, Pattern.vars]
theorem patternVars_eq_leaves (ps : List (Pattern V)) :
    patternVars ps = (leavesOf ps).flatMap Pattern.vars := by
  cases ps with
  | nil => rfl
  | cons p ps =>
    rw [patternVars, leavesOf, List.flatMap_append, ← vars_eq_leaves p,
      ← patternVars_eq_leaves ps]
end

mutual
/-- Variables may take any names. -/
theorem shape_rename (f : Nat → Nat) (p : Pattern V) :
    (p.subst fun x => .var (f x)).shape = p.shape := by
  cases p with
  | compound name ps => exact congrArg (Shape.node name) (shapesOf_rename f ps)
  | _ => rfl
theorem shapesOf_rename (f : Nat → Nat) (ps : List (Pattern V)) :
    shapesOf (substs (fun x => .var (f x)) ps) = shapesOf ps := by
  cases ps with
  | nil => rfl
  | cons p ps => rw [substs, shapesOf, shapesOf, shape_rename f p, shapesOf_rename f ps]
end

mutual
theorem leaves_rename (f : Nat → Nat) (p : Pattern V) :
    (p.subst fun x => .var (f x)).leaves = p.leaves.map (Pattern.subst fun x => .var (f x)) := by
  cases p with
  | compound name ps => exact leavesOf_rename f ps
  | _ => rfl
theorem leavesOf_rename (f : Nat → Nat) (ps : List (Pattern V)) :
    leavesOf (substs (fun x => .var (f x)) ps) =
      (leavesOf ps).map (Pattern.subst fun x => .var (f x)) := by
  cases ps with
  | nil => rfl
  | cons p ps => rw [substs, leavesOf, leavesOf, List.map_append, leaves_rename f p,
      leavesOf_rename f ps]
end

mutual
@[simp] theorem subst_var (p : Pattern V) : p.subst .var = p := by
  cases p with
  | compound name ps => exact congrArg (Pattern.compound name) (substs_var ps)
  | _ => rfl
@[simp] theorem substs_var (ps : List (Pattern V)) : substs .var ps = ps := by
  cases ps with
  | nil => rfl
  | cons p ps => rw [substs, subst_var p, substs_var ps]
end

/-! ## Skeletons -/

/-- `p` has the shape of `q`, and different variables from `lo` on and below `hi` as leaves. -/
structure Pattern.SkeletonOf (lo hi : Nat) (p q : Pattern V) : Prop where
  shape : p.shape = q.shape
  leaves : ∃ xs : List Nat, xs.Nodup ∧ (∀ x ∈ xs, lo ≤ x ∧ x < hi) ∧ p.leaves = xs.map .var

/-- The same for lists, of which no two patterns share a variable. -/
structure Skeletons (lo hi : Nat) (ps qs : List (Pattern V)) : Prop where
  shapes : shapesOf ps = shapesOf qs
  leaves : ∃ xs : List Nat, xs.Nodup ∧ (∀ x ∈ xs, lo ≤ x ∧ x < hi) ∧ leavesOf ps = xs.map .var

/-- The patterns differ in the names of their variables only. -/
def Pattern.Variant (p q : Pattern V) : Prop :=
  ∃ f : Nat → Nat, Set.InjOn f {x | x ∈ p.vars} ∧ (p.subst fun x => .var (f x)) = q

theorem Skeletons.nil (n : Nat) : Skeletons n n ([] : List (Pattern V)) [] :=
  ⟨rfl, [], List.nodup_nil, nofun, rfl⟩

theorem Skeletons.cons {lo mid hi : Nat} {p q : Pattern V} {ps qs : List (Pattern V)}
    (h : p.SkeletonOf lo mid q) (hs : Skeletons mid hi ps qs) (hlo : lo ≤ mid) (hhi : mid ≤ hi) :
    Skeletons lo hi (p :: ps) (q :: qs) := by
  obtain ⟨xs, hxs, hxsbound, hleaf⟩ := h.leaves
  obtain ⟨ys, hys, hysbound, hleaves⟩ := hs.leaves
  refine ⟨by rw [shapesOf, shapesOf, h.shape, hs.shapes], xs ++ ys, ?_, ?_, ?_⟩
  · refine List.nodup_append.mpr ⟨hxs, hys, fun x hx y hy => ?_⟩
    have hxmid := hxsbound x hx
    have hmidy := hysbound y hy
    omega
  · intro x hx
    obtain hx | hx := List.mem_append.mp hx
    · have hxmid := hxsbound x hx
      omega
    · have hmidx := hysbound x hx
      omega
  · rw [leavesOf, hleaf, hleaves, List.map_append]

theorem Pattern.SkeletonOf.isCompound {lo hi : Nat} {p q : Pattern V} (h : p.SkeletonOf lo hi q) :
    q.isCompound = p.isCompound := by
  have hiff : q.isCompound = false ↔ p.isCompound = false := by
    rw [← shape_eq_leaf_iff, ← shape_eq_leaf_iff, h.shape]
  rw [← Bool.not_inj_iff, Bool.eq_iff_iff, Bool.not_eq_true', Bool.not_eq_true', hiff]

theorem Pattern.SkeletonOf.mono {lo hi lo' hi' : Nat} {p q : Pattern V} (h : p.SkeletonOf lo hi q)
    (hlo : lo' ≤ lo) (hhi : hi ≤ hi') : p.SkeletonOf lo' hi' q := by
  obtain ⟨xs, hxs, hbound, hleaves⟩ := h.leaves
  exact ⟨h.shape, xs, hxs, fun x hx => ⟨hlo.trans (hbound x hx).1, (hbound x hx).2.trans_le hhi⟩,
    hleaves⟩

theorem Pattern.SkeletonOf.compound {lo hi : Nat} {ps qs : List (Pattern V)}
    (h : Skeletons lo hi ps qs) (name : String) :
    (Pattern.compound name ps).SkeletonOf lo hi (.compound name qs) :=
  ⟨congrArg (Shape.node name) h.shapes, h.leaves⟩

theorem Pattern.SkeletonOf.var {lo hi x : Nat} (hlo : lo ≤ x) (hhi : x < hi) {q : Pattern V}
    (hq : q.isCompound = false) : (Pattern.var x : Pattern V).SkeletonOf lo hi q := by
  refine ⟨(shape_eq_leaf_iff.mpr hq).symm, [x], List.nodup_singleton x, ?_, rfl⟩
  intro y hy
  rw [List.mem_singleton.mp hy]
  exact ⟨hlo, hhi⟩

/-- A copy has variables that are new. -/
theorem Pattern.SkeletonOf.copy {lo n : Nat} {p q : Pattern V} (h : p.SkeletonOf lo n q) :
    (p.subst fun x => .var (n + x)).SkeletonOf n (n + n) q := by
  obtain ⟨xs, hxs, hbound, hleaves⟩ := h.leaves
  refine ⟨(shape_rename _ p).trans h.shape, xs.map (n + ·), ?_, ?_, ?_⟩
  · exact hxs.map fun x y hxy => Nat.add_left_cancel hxy
  · intro y hy
    obtain ⟨x, hx, rfl⟩ := List.mem_map.mp hy
    have hxn := hbound x hx
    omega
  · rw [leaves_rename, hleaves, List.map_map, List.map_map]
    rfl

/-- Different variables can be given any values. -/
theorem exists_map_eq {β : Type} [Inhabited β] {xs : List Nat} (hxs : xs.Nodup) {ys : List β}
    (hlength : xs.length = ys.length) : ∃ f : Nat → β, xs.map f = ys := by
  refine ⟨fun x => ys[xs.idxOf x]?.getD default, ?_⟩
  apply List.ext_getElem
  · rw [List.length_map, hlength]
  · intro i hi hi'
    rw [List.length_map] at hi
    rw [List.getElem_map, hxs.idxOf_getElem i hi, List.getElem?_eq_getElem hi', Option.getD_some]

theorem map_subst_var (θ : Nat → Pattern V) (xs : List Nat) :
    (xs.map Pattern.var).map (Pattern.subst θ) = xs.map θ := by
  rw [List.map_map]
  rfl

theorem length_leaves_of_skeleton {p : Pattern V} {xs : List Nat} (h : p.leaves = xs.map .var)
    {q : Pattern V} (hshape : p.shape = q.shape) : xs.length = q.leaves.length := by
  rw [← leaves_length_of_shape p q hshape, h, List.length_map]

instance : Inhabited (Pattern V) := ⟨.anonymous⟩

/-- A skeleton has every pattern of its shape as an instance. -/
theorem Pattern.SkeletonOf.subsumes {lo hi : Nat} {p q : Pattern V} (h : p.SkeletonOf lo hi q) :
    ∃ θ, p.subst θ = q := by
  obtain ⟨xs, hxs, -, hleaves⟩ := h.leaves
  obtain ⟨θ, hθ⟩ := exists_map_eq hxs (length_leaves_of_skeleton hleaves h.shape)
  refine ⟨θ, subst_eq_of_leaves p q θ h.shape ?_⟩
  rw [hleaves, map_subst_var, hθ]

theorem Pattern.Variant.shape {p q : Pattern V} (h : p.Variant q) : p.shape = q.shape := by
  obtain ⟨f, -, rfl⟩ := h
  exact (shape_rename f p).symm

theorem Pattern.Variant.refl (p : Pattern V) : p.Variant p :=
  ⟨id, fun _ _ _ _ h => h, subst_var p⟩

/-! ## What skeletons match -/

mutual
/-- The term has at least the compound structure. -/
def Shape.Fits : Shape → GroundTerm V → Prop
  | .leaf, _ => True
  | .node f ss, .compound g ts => f = g ∧ ShapesFit ss ts
  | .node _ _, _ => False
def ShapesFit : List Shape → List (GroundTerm V) → Prop
  | [], [] => True
  | s :: ss, t :: ts => s.Fits t ∧ ShapesFit ss ts
  | _, _ => False
end

mutual
theorem Pattern.Instance.fits {θ : Nat → GroundTerm V} {p : Pattern V} {t : GroundTerm V}
    (h : p.Instance θ t) : p.shape.Fits t := by
  cases p with
  | compound f ps =>
    cases t with
    | compound g ts => exact ⟨h.1, shapesFit_of_instances h.2⟩
    | atom a => cases h
    | constant v => cases h
  | _ => trivial
theorem shapesFit_of_instances {θ : Nat → GroundTerm V} {ps : List (Pattern V)}
    {ts : List (GroundTerm V)} (h : Instances θ ps ts) : ShapesFit (shapesOf ps) ts := by
  cases ps with
  | nil =>
    cases ts with
    | nil => trivial
    | cons t ts => cases h
  | cons p ps =>
    cases ts with
    | nil => cases h
    | cons t ts => exact ⟨h.1.fits, shapesFit_of_instances h.2⟩
end

mutual
/-- A term that fits is an instance if its subterms at the leaves are instances of them. -/
theorem instance_of_fits (p : Pattern V) {t : GroundTerm V} (h : p.shape.Fits t) :
    ∃ us : List (GroundTerm V), us.length = p.leaves.length ∧
      ∀ θ, Instances θ p.leaves us → p.Instance θ t := by
  cases p with
  | compound f ps =>
    cases t with
    | compound g ts =>
      obtain ⟨us, hlength, hus⟩ := instances_of_fit ps h.2
      exact ⟨us, hlength, fun θ hθ => ⟨h.1, hus θ hθ⟩⟩
    | atom a => cases h
    | constant v => cases h
  | _ => exact ⟨[t], rfl, fun θ hθ => hθ.1⟩
theorem instances_of_fit (ps : List (Pattern V)) {ts : List (GroundTerm V)}
    (h : ShapesFit (shapesOf ps) ts) :
    ∃ us : List (GroundTerm V), us.length = (leavesOf ps).length ∧
      ∀ θ, Instances θ (leavesOf ps) us → Instances θ ps ts := by
  cases ps with
  | nil =>
    cases ts with
    | nil => exact ⟨[], rfl, fun θ hθ => hθ⟩
    | cons t ts => cases h
  | cons p ps =>
    cases ts with
    | nil => cases h
    | cons t ts =>
      obtain ⟨us, hlength, hus⟩ := instance_of_fits p h.1
      obtain ⟨vs, hlengths, hvs⟩ := instances_of_fit ps h.2
      refine ⟨us ++ vs, by rw [leavesOf, List.length_append, List.length_append, hlength,
        hlengths], fun θ hθ => ?_⟩
      rw [leavesOf, instances_append hlength] at hθ
      exact ⟨hus θ hθ.1, hvs θ hθ.2⟩
end

/-- A pattern whose leaves can be given any values matches what has its structure. -/
theorem matchesTerm_iff_fits [DecidableEq V] {p : Pattern V} {t : GroundTerm V}
    (h : ∀ us : List (GroundTerm V), us.length = p.leaves.length → ∃ θ, Instances θ p.leaves us) :
    p.matchesTerm t = true ↔ p.shape.Fits t := by
  rw [matchesTerm_iff]
  constructor
  · rintro ⟨θ, hθ⟩
    exact hθ.fits
  · intro hfits
    obtain ⟨us, hlength, hus⟩ := instance_of_fits p hfits
    obtain ⟨θ, hθ⟩ := h us hlength
    exact ⟨θ, hus θ hθ⟩

theorem Pattern.SkeletonOf.matchesTerm_iff [DecidableEq V] {lo hi : Nat} {p q : Pattern V}
    (h : p.SkeletonOf lo hi q) {t : GroundTerm V} :
    p.matchesTerm t = true ↔ q.shape.Fits t := by
  rw [← h.shape]
  refine matchesTerm_iff_fits fun us hlength => ?_
  obtain ⟨xs, hxs, -, hleaves⟩ := h.leaves
  rw [hleaves] at hlength ⊢
  rw [List.length_map] at hlength
  have : Inhabited (GroundTerm V) := ⟨t⟩
  obtain ⟨θ, hθ⟩ := exists_map_eq hxs hlength.symm
  exact ⟨θ, instances_vars.mpr hθ⟩

theorem instances_anonymous (θ : Nat → GroundTerm V) (us : List (GroundTerm V)) :
    Instances θ (List.replicate us.length .anonymous) us := by
  induction us with
  | nil => trivial
  | cons u us ih => exact ⟨trivial, ih⟩

/-! ## Variants -/

/-- Skeletons differ in the names of their variables if they have one shape, and only then. -/
theorem Pattern.SkeletonOf.variant_iff {lo hi lo' hi' : Nat} {p p' q q' : Pattern V}
    (h : p.SkeletonOf lo hi q) (h' : p'.SkeletonOf lo' hi' q') :
    p.Variant p' ↔ q.shape = q'.shape := by
  constructor
  · intro hvariant
    rw [← h.shape, ← h'.shape, hvariant.shape]
  · intro hshape
    have hshape' : p.shape = p'.shape := by rw [h.shape, h'.shape, hshape]
    obtain ⟨xs, hxs, -, hleaves⟩ := h.leaves
    obtain ⟨ys, hys, -, hleaves'⟩ := h'.leaves
    have hlength := length_leaves_of_skeleton hleaves hshape'
    rw [hleaves', List.length_map] at hlength
    obtain ⟨f, hf⟩ := exists_map_eq hxs hlength
    have hvars : p.vars = xs := by
      rw [vars_eq_leaves, hleaves, List.flatMap_map]
      exact List.flatMap_singleton' xs
    refine ⟨f, ?_, subst_eq_of_leaves p p' _ hshape' ?_⟩
    · rw [hvars]
      exact List.inj_on_of_nodup_map (hf ▸ hys)
    · rw [hleaves, hleaves', map_subst_var, ← hf, List.map_map]
      rfl

end SmartWarehouse.Lib
