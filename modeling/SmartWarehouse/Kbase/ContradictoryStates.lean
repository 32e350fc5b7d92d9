/-
  `filter_contradictory_states/2`: of the goals of a sequence only the last ones count.

  The list is reversed, and an element is kept unless its most generic term unifies with one that
  was kept before, that is, one that comes later in the list. The answers are those of a search
  over the patterns alone (`filterContradictoryFrom_finds`), and when two elements unify
  exactly if they have the same functor, the one answer is the last element of each functor in
  the order of the list (`filterBy_eq`).
-/
import SmartWarehouse.Kbase.GenericTerms
import SmartWarehouse.Kbase.Planner
import SmartWarehouse.Lib.Stateless

namespace SmartWarehouse.Kbase.Generic

open SmartWarehouse.Lib

/-! ## The last of each kind -/

section Keys

variable {α κ : Type} [DecidableEq κ] (key : α → κ)

/-- Without the elements that have the key of a later one. -/
def lastOfEach : List α → List α
  | [] => []
  | a :: as => if key a ∈ as.map key then lastOfEach as else a :: lastOfEach as

theorem lastOfEach_of_nodup {as : List α} (h : (as.map key).Nodup) : lastOfEach key as = as := by
  induction as with
  | nil => rfl
  | cons a as ih =>
    obtain ⟨hnew, hrest⟩ := List.nodup_cons.mp h
    rw [lastOfEach, if_neg hnew, ih hrest]

theorem lastOfEach_drop {a : α} {as : List α} (h : key a ∈ as.map key) (bs : List α) :
    lastOfEach key (bs ++ a :: as) = lastOfEach key (bs ++ as) := by
  induction bs with
  | nil => exact if_pos h
  | cons b bs ih =>
    have hmem : key b ∈ (bs ++ a :: as).map key ↔ key b ∈ (bs ++ as).map key := by
      rw [List.map_append, List.map_append, List.mem_append, List.mem_append, List.map_cons,
        List.mem_cons]
      refine or_congr_right (or_iff_right_of_imp fun heq => ?_)
      rw [heq]
      exact h
    rw [List.cons_append, List.cons_append, lastOfEach, lastOfEach, ih]
    simp only [hmem]

/-- Elements go to the front of `accumulated` unless they match one there; an element that
    matches some is left out once for each. -/
def filterBy (same : α → α → Bool) : List α → List α → List (List α)
  | [], accumulated => [accumulated]
  | element :: tail, accumulated =>
    match accumulated.filter (same element) with
    | [] => filterBy same tail (element :: accumulated)
    | found => found.flatMap fun _ => filterBy same tail accumulated

/-- The key of an element is found at most once. -/
theorem filter_key {same : α → α → Bool} {a : α} {as : List α}
    (hsame : ∀ b ∈ as, same a b = true ↔ key a = key b) (hnodup : (as.map key).Nodup)
    (hmem : key a ∈ as.map key) : ∃ b, as.filter (same a) = [b] := by
  induction as with
  | nil => cases hmem
  | cons b as ih =>
    obtain ⟨hnew, hrest⟩ := List.nodup_cons.mp hnodup
    have hb := hsame b List.mem_cons_self
    have has := fun c hc => hsame c (List.mem_cons_of_mem b hc)
    by_cases hkey : key a = key b
    · refine ⟨b, ?_⟩
      rw [List.filter_cons_of_pos (hb.mpr hkey), List.filter_eq_nil_iff.mpr]
      intro c hc hac
      rw [← hkey, (has c hc).mp hac] at hnew
      exact hnew (List.mem_map_of_mem hc)
    · rw [List.filter_cons_of_neg (fun h => hkey (hb.mp h))]
      exact ih has hrest ((List.mem_cons.mp hmem).resolve_left hkey)

theorem filterBy_eq {same : α → α → Bool} {as accumulated : List α}
    (hsame : ∀ a ∈ as ++ accumulated, ∀ b ∈ as ++ accumulated,
      same a b = true ↔ key a = key b)
    (hnodup : (accumulated.map key).Nodup) :
    filterBy same as accumulated = [lastOfEach key (as.reverse ++ accumulated)] := by
  induction as generalizing accumulated with
  | nil => rw [filterBy, List.reverse_nil, List.nil_append, lastOfEach_of_nodup key hnodup]
  | cons a as ih =>
    rw [filterBy, List.reverse_cons, List.append_assoc, List.singleton_append]
    have hkey : ∀ b ∈ accumulated, same a b = true ↔ key a = key b := fun b hb =>
      hsame a List.mem_cons_self b (List.mem_append_right _ hb)
    by_cases hmem : key a ∈ accumulated.map key
    · obtain ⟨b, hb⟩ := filter_key key hkey hnodup hmem
      rw [hb, lastOfEach_drop key hmem]
      show filterBy same as accumulated ++ [] = _
      rw [List.append_nil]
      exact ih (fun c hc d hd => hsame c (List.mem_cons_of_mem a hc) d
        (List.mem_cons_of_mem a hd)) hnodup
    · have hnone : accumulated.filter (same a) = [] := by
        rw [List.filter_eq_nil_iff]
        intro b hb hab
        rw [(hkey b hb).mp hab] at hmem
        exact hmem (List.mem_map_of_mem hb)
      rw [hnone]
      have hperm : ∀ c ∈ as ++ a :: accumulated, c ∈ a :: as ++ accumulated := by
        intro c hc
        simpa [or_left_comm] using hc
      exact ih (fun c hc d hd => hsame c (hperm c hc) d (hperm d hd))
        (List.nodup_cons.mpr ⟨hmem, hnodup⟩)

end Keys

/-! ## Terms with atomic arguments -/

variable {V : Type}

/-- `functor/3`. -/
def functorOf : GroundTerm V → (String ⊕ V) × Nat
  | .atom a => (.inl a, 0)
  | .constant v => (.inr v, 0)
  | .compound name args => (.inl name, args.length)

/-- The term is atomic, or a compound with atomic arguments. -/
def flat : GroundTerm V → Bool
  | .compound _ args => !args.isEmpty && args.all fun arg => !arg.toPattern.isCompound
  | _ => true

theorem shapesOf_atomic {args : List (GroundTerm V)}
    (h : ∀ arg ∈ args, arg.toPattern.isCompound = false) :
    shapesOf (toPatterns args) = List.replicate args.length .leaf := by
  induction args with
  | nil => rfl
  | cons arg args ih =>
    rw [toPatterns, shapesOf, shape_eq_leaf_iff.mpr (h arg List.mem_cons_self),
      ih fun a ha => h a (List.mem_cons_of_mem arg ha)]
    rfl

theorem shapesFit_leaves (n : Nat) (us : List (GroundTerm V)) :
    ShapesFit (List.replicate n .leaf) us ↔ n = us.length := by
  induction n generalizing us with
  | zero => cases us <;> simp [ShapesFit]
  | succ n ih => cases us <;> simp [List.replicate_succ, ShapesFit, Shape.Fits, ih]

theorem shapesProper_leaves (n : Nat) : shapesProper (List.replicate n .leaf) = true := by
  induction n with
  | zero => rfl
  | succ n ih => exact ih

theorem flat_compound {name : String} {args : List (GroundTerm V)}
    (h : flat (.compound name args) = true) :
    args ≠ [] ∧ shapesOf (toPatterns args) = List.replicate args.length .leaf := by
  obtain ⟨hne, hall⟩ := Bool.and_eq_true_iff.mp h
  refine ⟨by simpa using hne, shapesOf_atomic fun arg harg => ?_⟩
  simpa using List.all_eq_true.mp hall arg harg

theorem proper_of_flat {t : GroundTerm V} (h : flat t = true) :
    t.toPattern.shape.proper = true := by
  cases t with
  | compound name args =>
    obtain ⟨hne, hshapes⟩ := flat_compound h
    rw [GroundTerm.toPattern, Pattern.shape, hshapes, Shape.proper, shapesProper_leaves]
    simpa using hne
  | atom a => rfl
  | constant v => rfl

/-! ## The clauses -/

variable [DecidableEq V]

/-- `member(Generic, Accumulated)`: the elements are ground, and nothing uses what the variables
    of `Generic` are bound to. -/
def member (generic : Pattern V) (accumulated : List (GroundTerm V)) : Query Nat Unit :=
  Query.ofList ((accumulated.filter generic.matchesTerm).map fun _ => ())

/-- `filter_contradictory_states/3`. -/
def filterContradictoryFrom :
    List (GroundTerm V) → List (GroundTerm V) → Query Nat (List (GroundTerm V))
  | [], accumulated => pure accumulated
  | element :: tail, accumulated =>
    Query.orElse
      (do
        let generic ← askMostGeneric element.toPattern
        (member generic accumulated).not
        filterContradictoryFrom tail (element :: accumulated))
      (do
        let generic ← askMostGeneric element.toPattern
        member generic accumulated
        filterContradictoryFrom tail accumulated)

/-- `filter_contradictory_states/2`. -/
def filterContradictoryStates (states : List (GroundTerm V)) : Query Nat (List (GroundTerm V)) :=
  filterContradictoryFrom states.reverse []

/-- The most generic term of `t` unifies with `u`. -/
def mostGenericMatches (t u : GroundTerm V) : Bool :=
  (Kbase.makeMostGenericTerm t).matchesTerm u

/-! ## The answers -/

/-- The query has the answers of `S` however the variables are numbered. -/
def Finds {α : Type} (q : Query Nat α) (S : Search α) : Prop :=
  q.Denotes (fun _ => True) (fun _ => True) S

theorem finds_ask {α : Type} {t : GroundTerm V} (ht : t.toPattern.shape.proper = true)
    {f : Pattern V → Query Nat α} {S : Search α}
    (h : ∀ G : Pattern V, (∀ u, G.matchesTerm u = mostGenericMatches t u) → Finds (f G) S) :
    Finds (askMostGeneric t.toPattern >>= f) S := by
  intro n _
  obtain ⟨G, n', hG, hmatches⟩ := askMostGeneric_matches ht n
  rw [Query.bind_one hG]
  exact h G hmatches n' trivial

theorem finds_member {G : Pattern V} {t : GroundTerm V}
    (hG : ∀ u, G.matchesTerm u = mostGenericMatches t u) (accumulated : List (GroundTerm V)) :
    Finds (member G accumulated)
      (.ofList ((accumulated.filter (mostGenericMatches t)).map fun _ => ())) := by
  unfold member
  rw [show G.matchesTerm = mostGenericMatches t from funext hG]
  exact .ofList fun _ _ => trivial

theorem finds_not_member {α : Type} {t : GroundTerm V} (ht : t.toPattern.shape.proper = true)
    (accumulated : List (GroundTerm V)) {q : Query Nat α} {S : Search α} (hq : Finds q S) :
    Finds (do
        let generic ← askMostGeneric t.toPattern
        (member generic accumulated).not
        q)
      (if accumulated.filter (mostGenericMatches t) = [] then S else .fail) := by
  refine finds_ask ht fun G hG => ?_
  have hmember := finds_member hG accumulated
  cases hfound : accumulated.filter (mostGenericMatches t) with
  | nil =>
    rw [hfound] at hmember
    have hnot : Finds (member G accumulated).not (.one ()) :=
      hmember.commit (fun _ _ => .fail) (.pure trivial)
    rw [if_pos rfl, ← Search.one_bind () fun _ => S]
    exact hnot.bind fun _ _ => hq
  | cons u us =>
    rw [hfound] at hmember
    have hnot : Finds (member G accumulated).not .fail :=
      hmember.commit (fun _ _ => .fail) (.pure trivial)
    rw [if_neg (List.cons_ne_nil u us)]
    exact hnot.bind fun _ _ => hq

theorem finds_is_member {α : Type} {t : GroundTerm V} (ht : t.toPattern.shape.proper = true)
    (accumulated : List (GroundTerm V)) {q : Query Nat α} {l : List α}
    (hq : Finds q (.ofList l)) :
    Finds (do
        let generic ← askMostGeneric t.toPattern
        member generic accumulated
        q)
      (.ofList ((accumulated.filter (mostGenericMatches t)).flatMap fun _ => l)) := by
  refine finds_ask ht fun G hG => ?_
  have hbind := (finds_member hG accumulated).flatMap fun _ _ => hq
  rw [List.flatMap_map] at hbind
  exact hbind

theorem filterContradictoryFrom_finds {states : List (GroundTerm V)}
    (h : ∀ t ∈ states, t.toPattern.shape.proper = true) (accumulated : List (GroundTerm V)) :
    Finds (filterContradictoryFrom states accumulated)
      (.ofList (filterBy mostGenericMatches states accumulated)) := by
  induction states generalizing accumulated with
  | nil => exact .pure trivial
  | cons t ts ih =>
    have ht := h t List.mem_cons_self
    have hrest := ih fun u hu => h u (List.mem_cons_of_mem t hu)
    have hfirst := finds_not_member ht accumulated (hrest (t :: accumulated))
    have hsecond := finds_is_member ht accumulated (hrest accumulated)
    rw [filterContradictoryFrom, filterBy]
    cases hfound : accumulated.filter (mostGenericMatches t) with
    | nil =>
      rw [hfound] at hfirst hsecond
      rw [← Search.append_fail (Search.ofList _)]
      exact hfirst.orElse hsecond
    | cons u us =>
      rw [hfound] at hfirst hsecond
      rw [← Search.fail_append (Search.ofList _)]
      exact hfirst.orElse hsecond

/-! ## Filtering terms with atomic arguments -/

theorem mostGenericMatches_iff {t u : GroundTerm V} (ht : flat t = true) (hu : flat u = true) :
    mostGenericMatches t u = true ↔ functorOf t = functorOf u := by
  cases t with
  | compound name args =>
    obtain ⟨hne, hshapes⟩ := flat_compound ht
    unfold mostGenericMatches
    rw [anonymous_fits (proper_of_flat ht) rfl, GroundTerm.toPattern, Pattern.shape, hshapes]
    cases u with
    | compound name' args' => simp [Shape.Fits, shapesFit_leaves, functorOf]
    | atom a => simp [Shape.Fits, functorOf, hne]
    | constant v => simp [Shape.Fits, functorOf]
  | atom a =>
    refine (toPattern_matches (.atom a) u).trans ?_
    cases u with
    | compound name args =>
      have hpos := List.length_pos_iff.mpr (flat_compound hu).1
      simp [functorOf, hpos.ne]
    | atom b => simp [functorOf]
    | constant v => simp [functorOf]
  | constant v =>
    refine (toPattern_matches (.constant v) u).trans ?_
    cases u <;> simp [functorOf]

/-- One answer: the last state of each functor, in the order of the list. -/
theorem filterContradictoryStates_last (states : List (GroundTerm V))
    (h : ∀ t ∈ states, flat t = true) :
    Finds (filterContradictoryStates states) (.one (lastOfEach functorOf states)) := by
  have hflat : ∀ t ∈ states.reverse, flat t = true := fun t ht => h t (List.mem_reverse.mp ht)
  have hsame : ∀ t ∈ states.reverse ++ [], ∀ u ∈ states.reverse ++ [],
      mostGenericMatches t u = true ↔ functorOf t = functorOf u := by
    rw [List.append_nil]
    exact fun t ht u hu => mostGenericMatches_iff (hflat t ht) (hflat u hu)
  have hfinds := filterContradictoryFrom_finds (fun t ht => proper_of_flat (hflat t ht)) []
  rw [filterBy_eq functorOf hsame List.nodup_nil, List.reverse_reverse, List.append_nil] at hfinds
  exact hfinds

theorem filterContradictoryStates_axis :
    Finds (filterContradictoryStates
        [.compound "x_is_at" [.constant (2 : Int)], .compound "z_is_at" [.constant 1],
          .compound "x_is_at" [.constant 1]])
      (.one [.compound "z_is_at" [.constant 1], .compound "x_is_at" [.constant 1]]) := by
  have h := filterContradictoryStates_last
    [.compound "x_is_at" [.constant (2 : Int)], .compound "z_is_at" [.constant 1],
      .compound "x_is_at" [.constant 1]] (by decide)
  exact h

/-! ## The terms of the planner -/

/-- The planner takes the same search with its own matching. -/
theorem planner_filterContradictoryFrom (states accumulated : List Term) :
    Kbase.filterContradictoryFrom states accumulated =
      filterBy Term.mostGenericMatches states accumulated := by
  induction states generalizing accumulated with
  | nil => rfl
  | cons t ts ih =>
    rw [Kbase.filterContradictoryFrom, filterBy]
    cases accumulated.filter t.mostGenericMatches with
    | nil => exact ih (t :: accumulated)
    | cons u us => simp only [ih]

end SmartWarehouse.Kbase.Generic
