/-
  `list_to_set/2` and `ord_subtract/3` over a linear order, on lists that need not be sorted.

  `ord_subtract` goes through both lists once and skips in the second what is smaller than the
  head of the first. Subtracting from a list its own elements without duplicates leaves every
  repeated occurrence, and also the first occurrences that a repeated greater element has made
  it skip before (`mem_ordSubtract_listToSet`).
-/
import Mathlib.Order.MinMax
import Mathlib.Order.WithBot
import Mathlib.Data.List.Basic
import Mathlib.Data.List.Nodup

namespace SmartWarehouse.Lib

variable {α : Type} [LinearOrder α]

/-- The elements that are not among those seen before, without duplicates. -/
def listToSetFrom (seen : List α) : List α → List α
  | [] => []
  | x :: xs =>
    if x ∈ seen then listToSetFrom (seen ++ [x]) xs
    else x :: listToSetFrom (seen ++ [x]) xs

/-- `list_to_set/2`: first occurrences, in order. -/
def listToSet (l : List α) : List α := listToSetFrom [] l

/-- `ord_subtract/3`. -/
def ordSubtract : List α → List α → List α
  | [], _ => []
  | x :: xs, ys =>
    match ys.dropWhile (· < x) with
    | [] => x :: xs
    | y :: ys => if x = y then ordSubtract xs ys else x :: ordSubtract xs (y :: ys)

/-! ## One element -/

theorem ordSubtract_nil (l : List α) : ordSubtract l [] = l := by
  cases l <;> rfl

/-- The head is left if the second list has skipped it. -/
theorem ordSubtract_cons_of_ne {x : α} {xs ys : List α}
    (h : ∀ y ∈ ys.dropWhile (· < x), y ≠ x) :
    ordSubtract (x :: xs) ys = x :: ordSubtract xs (ys.dropWhile (· < x)) := by
  rw [ordSubtract]
  cases hys : ys.dropWhile (· < x) with
  | nil =>
    dsimp only
    rw [ordSubtract_nil]
  | cons y rest =>
    rw [hys] at h
    dsimp only
    rw [if_neg (h y List.mem_cons_self).symm]

theorem ordSubtract_cons_self (x : α) (xs ys : List α) :
    ordSubtract (x :: xs) (x :: ys) = ordSubtract xs ys := by
  rw [ordSubtract, List.dropWhile_cons_of_neg (by simp)]
  simp

/-- Skips what is smaller than the bound. -/
def skipTo (top : WithBot α) (ys : List α) : List α :=
  ys.dropWhile fun y : α => decide ((y : WithBot α) < top)

theorem skipTo_cons_of_lt {top : WithBot α} {y : α} (h : (y : WithBot α) < top) (ys : List α) :
    skipTo top (y :: ys) = skipTo top ys :=
  List.dropWhile_cons_of_pos (decide_eq_true h)

theorem skipTo_cons_of_not_lt {top : WithBot α} {y : α} (h : ¬ (y : WithBot α) < top)
    (ys : List α) : skipTo top (y :: ys) = y :: ys :=
  List.dropWhile_cons_of_neg (by simpa using h)

theorem skipTo_bot (ys : List α) : skipTo ⊥ ys = ys := by
  cases ys with
  | nil => rfl
  | cons y ys => exact skipTo_cons_of_not_lt not_lt_bot ys

/-- Skipping twice is skipping to the greater bound. -/
theorem dropWhile_skipTo (top : WithBot α) (x : α) (ys : List α) :
    (skipTo top ys).dropWhile (· < x) = skipTo (max top x) ys := by
  induction ys with
  | nil => rfl
  | cons y ys ih =>
    by_cases htop : (y : WithBot α) < top
    · rw [skipTo_cons_of_lt htop, ih, skipTo_cons_of_lt (lt_max_of_lt_left htop)]
    · rw [skipTo_cons_of_not_lt htop]
      by_cases hx : y < x
      · have hle : top ≤ (x : WithBot α) :=
          le_of_lt (lt_of_le_of_lt (not_lt.mp htop) (WithBot.coe_lt_coe.mpr hx))
        rw [max_eq_right hle]
        unfold skipTo
        simp only [WithBot.coe_lt_coe]
      · rw [List.dropWhile_cons_of_neg (by simpa using hx), skipTo_cons_of_not_lt]
        rw [lt_max_iff, WithBot.coe_lt_coe, not_or]
        exact ⟨htop, hx⟩

theorem not_mem_listToSetFrom {seen l : List α} {x : α} (h : x ∈ seen) :
    x ∉ listToSetFrom seen l := by
  induction l generalizing seen with
  | nil => exact List.not_mem_nil
  | cons y l ih =>
    have hrest : x ∉ listToSetFrom (seen ++ [y]) l := ih (List.mem_append_left _ h)
    unfold listToSetFrom
    split
    · exact hrest
    · rename_i hy
      rw [List.mem_cons, not_or]
      exact ⟨fun hxy => hy (hxy ▸ h), hrest⟩

/-! ## What is left -/

/-- What `ord_subtract` leaves, with the greatest element that it has skipped up to since the
    last one that it found. -/
def leftFrom (seen : List α) (top : WithBot α) : List α → List α
  | [] => []
  | x :: xs =>
    if x ∈ seen then x :: leftFrom (seen ++ [x]) (max top x) xs
    else if (x : WithBot α) < top then x :: leftFrom (seen ++ [x]) top xs
    else leftFrom (seen ++ [x]) ⊥ xs

theorem ordSubtract_skipTo (seen : List α) (top : WithBot α) (l : List α) :
    ordSubtract l (skipTo top (listToSetFrom seen l)) = leftFrom seen top l := by
  induction l generalizing seen top with
  | nil => rfl
  | cons x xs ih =>
    have hskipped : ∀ bound : WithBot α,
        ∀ y ∈ skipTo bound (listToSetFrom (seen ++ [x]) xs), y ≠ x := by
      intro bound y hy hyx
      have hmem := (List.dropWhile_sublist _).subset hy
      rw [hyx] at hmem
      exact not_mem_listToSetFrom (by simp) hmem
    unfold listToSetFrom leftFrom
    by_cases hx : x ∈ seen
    · rw [if_pos hx, if_pos hx, ordSubtract_cons_of_ne, dropWhile_skipTo, ih]
      rw [dropWhile_skipTo]
      exact hskipped _
    · rw [if_neg hx, if_neg hx]
      by_cases htop : (x : WithBot α) < top
      · rw [if_pos htop, skipTo_cons_of_lt htop, ordSubtract_cons_of_ne, dropWhile_skipTo,
          max_eq_left (le_of_lt htop), ih]
        rw [dropWhile_skipTo]
        exact hskipped _
      · -- the heads meet, so all that was skipped lies behind
        rw [if_neg htop, skipTo_cons_of_not_lt htop, ordSubtract_cons_self, ← ih, skipTo_bot]

/-! ## Which elements are left -/

/-- `x` is a repeated element of `pre`, greater than every new element after it. -/
def Leading (pre : List α) (x : α) : Prop :=
  ∃ pre₁ pre₂, pre = pre₁ ++ x :: pre₂ ∧ x ∈ pre₁ ∧ ∀ y ∈ pre₂, y ∉ pre₁ → y < x

omit [LinearOrder α] in
/-- What comes before the last element. -/
theorem append_singleton_split {pre pre₁ pre₂ : List α} {x z : α}
    (h : pre ++ [z] = pre₁ ++ x :: pre₂) :
    (pre₂ = [] ∧ pre = pre₁ ∧ z = x) ∨
      ∃ pre₃, pre₂ = pre₃ ++ [z] ∧ pre = pre₁ ++ x :: pre₃ := by
  rcases List.eq_nil_or_concat pre₂ with hnil | ⟨pre₃, w, hconcat⟩
  · subst hnil
    obtain ⟨hpre, hz⟩ := List.append_inj' h rfl
    exact .inl ⟨rfl, hpre, List.singleton_inj.mp hz⟩
  · subst hconcat
    rw [List.concat_eq_append, ← List.cons_append, ← List.append_assoc] at h
    obtain ⟨hpre, hz⟩ := List.append_inj' h rfl
    rw [List.concat_eq_append, List.singleton_inj.mp hz]
    exact .inr ⟨pre₃, rfl, hpre⟩

theorem leading_append_seen {pre : List α} {z x : α} (hz : z ∈ pre) :
    Leading (pre ++ [z]) x ↔ Leading pre x ∨ z = x := by
  constructor
  · intro ⟨pre₁, pre₂, hsplit, hx, hless⟩
    obtain ⟨-, -, hzx⟩ | ⟨pre₃, hpre₂, hpre⟩ := append_singleton_split hsplit
    · exact .inr hzx
    · subst hpre₂
      exact .inl ⟨pre₁, pre₃, hpre, hx, fun y hy => hless y (List.mem_append_left _ hy)⟩
  · intro h
    obtain ⟨pre₁, pre₂, hpre, hx, hless⟩ | hzx := h
    · refine ⟨pre₁, pre₂ ++ [z], by rw [hpre, List.append_assoc, List.cons_append], hx, ?_⟩
      intro y hy hnew
      obtain hy | hy := List.mem_append.mp hy
      · exact hless y hy hnew
      · -- the last element is not new: it stands behind the repeated one
        obtain rfl := List.mem_singleton.mp hy
        rw [hpre] at hz
        obtain hz | hz := List.mem_append.mp hz
        · exact absurd hz hnew
        · obtain rfl | hz := List.mem_cons.mp hz
          · exact absurd hx hnew
          · exact hless y hz hnew
    · exact ⟨pre, [], by rw [hzx], hzx ▸ hz, nofun⟩

theorem leading_append_new {pre : List α} {z x : α} (hz : z ∉ pre) :
    Leading (pre ++ [z]) x ↔ Leading pre x ∧ z < x := by
  constructor
  · intro ⟨pre₁, pre₂, hsplit, hx, hless⟩
    obtain ⟨-, hpre, hzx⟩ | ⟨pre₃, hpre₂, hpre⟩ := append_singleton_split hsplit
    · rw [hpre, hzx] at hz
      exact absurd hx hz
    · subst hpre₂
      have hnew : z ∉ pre₁ := fun h => hz (hpre ▸ List.mem_append_left _ h)
      exact ⟨⟨pre₁, pre₃, hpre, hx, fun y hy => hless y (List.mem_append_left _ hy)⟩,
        hless z (by simp) hnew⟩
  · intro ⟨⟨pre₁, pre₂, hpre, hx, hless⟩, hlt⟩
    refine ⟨pre₁, pre₂ ++ [z], by rw [hpre, List.append_assoc, List.cons_append], hx, ?_⟩
    intro y hy hnew
    obtain hy | hy := List.mem_append.mp hy
    · exact hless y hy hnew
    · rwa [List.mem_singleton.mp hy]

/-- The bound lies above an element exactly if a leading one does. -/
def Bounds (pre : List α) (top : WithBot α) : Prop :=
  ∀ e : α, (e : WithBot α) < top ↔ ∃ x, Leading pre x ∧ e < x

theorem bounds_nil : Bounds ([] : List α) ⊥ := by
  intro e
  refine iff_of_false not_lt_bot ?_
  rintro ⟨x, ⟨pre₁, pre₂, hsplit, hx, -⟩, -⟩
  cases pre₁ with
  | nil => cases hx
  | cons y pre₁ => cases hsplit

theorem Bounds.append_seen {pre : List α} {top : WithBot α} (h : Bounds pre top) {z : α}
    (hz : z ∈ pre) : Bounds (pre ++ [z]) (max top z) := by
  intro e
  rw [lt_max_iff, h e, WithBot.coe_lt_coe]
  constructor
  · rintro (⟨x, hx, hlt⟩ | hlt)
    · exact ⟨x, (leading_append_seen hz).mpr (.inl hx), hlt⟩
    · exact ⟨z, (leading_append_seen hz).mpr (.inr rfl), hlt⟩
  · rintro ⟨x, hx, hlt⟩
    obtain hx | rfl := (leading_append_seen hz).mp hx
    · exact .inl ⟨x, hx, hlt⟩
    · exact .inr hlt

/-- A new element below the bound does not change it, ... -/
theorem Bounds.append_below {pre : List α} {top : WithBot α} (h : Bounds pre top) {z : α}
    (hz : z ∉ pre) (hlt : (z : WithBot α) < top) : Bounds (pre ++ [z]) top := by
  intro e
  rw [h e]
  obtain ⟨w, hw, hzw⟩ := (h z).mp hlt
  constructor
  · rintro ⟨x, hx, hex⟩
    -- the greater of the two leading elements is still one
    rcases lt_or_ge z x with hzx | hxz
    · exact ⟨x, (leading_append_new hz).mpr ⟨hx, hzx⟩, hex⟩
    · exact ⟨w, (leading_append_new hz).mpr ⟨hw, hzw⟩, hex.trans_le (hxz.trans hzw.le)⟩
  · rintro ⟨x, hx, hex⟩
    exact ⟨x, ((leading_append_new hz).mp hx).1, hex⟩

/-- ... and any other new element ends all leads. -/
theorem Bounds.append_above {pre : List α} {top : WithBot α} (h : Bounds pre top) {z : α}
    (hz : z ∉ pre) (hlt : ¬ (z : WithBot α) < top) : Bounds (pre ++ [z]) ⊥ := by
  intro e
  refine iff_of_false not_lt_bot ?_
  rintro ⟨x, hx, -⟩
  obtain ⟨hx, hzx⟩ := (leading_append_new hz).mp hx
  exact hlt ((h z).mpr ⟨x, hx, hzx⟩)

omit [LinearOrder α] in
/-- Where an element of a list with a head stands. -/
theorem exists_cons_split_iff {z e : α} {l : List α} {Q : List α → Prop} :
    (∃ mid post, z :: l = mid ++ e :: post ∧ Q mid) ↔
      (e = z ∧ Q []) ∨ ∃ mid post, l = mid ++ e :: post ∧ Q (z :: mid) := by
  constructor
  · rintro ⟨mid, post, hl, hmid⟩
    cases mid with
    | nil => exact .inl ⟨(List.cons.inj hl).1.symm, hmid⟩
    | cons w mid =>
      obtain ⟨rfl, hl'⟩ := List.cons.inj hl
      exact .inr ⟨mid, post, hl', hmid⟩
  · rintro (⟨rfl, hmid⟩ | ⟨mid, post, hl, hmid⟩)
    · exact ⟨[], l, rfl, hmid⟩
    · exact ⟨z :: mid, post, by rw [hl, List.cons_append], hmid⟩

theorem mem_leftFrom {pre : List α} {top : WithBot α} (h : Bounds pre top) (l : List α) (e : α) :
    e ∈ leftFrom pre top l ↔
      ∃ mid post, l = mid ++ e :: post ∧
        (e ∈ pre ++ mid ∨ ∃ x, Leading (pre ++ mid) x ∧ e < x) := by
  induction l generalizing pre top with
  | nil => simp [leftFrom]
  | cons z l ih =>
    rw [exists_cons_split_iff, List.append_nil, ← h e]
    unfold leftFrom
    by_cases hz : z ∈ pre
    · rw [if_pos hz, List.mem_cons, ih (h.append_seen hz)]
      simp only [List.append_assoc, List.singleton_append]
      refine or_congr_left (and_iff_left_of_imp ?_).symm
      rintro rfl
      exact .inl hz
    · rw [if_neg hz]
      by_cases htop : (z : WithBot α) < top
      · rw [if_pos htop, List.mem_cons, ih (h.append_below hz htop)]
        simp only [List.append_assoc, List.singleton_append]
        refine or_congr_left (and_iff_left_of_imp ?_).symm
        rintro rfl
        exact .inr htop
      · rw [if_neg htop, ih (h.append_above hz htop)]
        simp only [List.append_assoc, List.singleton_append]
        refine (or_iff_right ?_).symm
        rintro ⟨rfl, hpre | hbelow⟩
        · exact hz hpre
        · exact htop hbelow

/-- Subtracting from a list its elements without duplicates leaves the repeated occurrences, and
    the elements below a repeated one that every new element in between is below too. -/
theorem mem_ordSubtract_listToSet (l : List α) (e : α) :
    e ∈ ordSubtract l (listToSet l) ↔
      ∃ pre post, l = pre ++ e :: post ∧ (e ∈ pre ∨ ∃ x, Leading pre x ∧ e < x) := by
  have hrun := ordSubtract_skipTo [] ⊥ l
  rw [skipTo_bot] at hrun
  unfold listToSet
  rw [hrun, mem_leftFrom bounds_nil]
  simp only [List.nil_append]

omit [LinearOrder α] in
/-- No element stands behind itself. -/
theorem nodup_iff_not_mem_before (l : List α) :
    l.Nodup ↔ ∀ pre e post, l = pre ++ e :: post → e ∉ pre := by
  constructor
  · intro hnodup pre e post hl he
    rw [hl] at hnodup
    exact (List.nodup_append.mp hnodup).2.2 e he e List.mem_cons_self rfl
  · intro h
    apply List.nodup_iff_sublist.mpr
    intro e hsub
    obtain ⟨r₁, r₂, hl, he, hsub'⟩ := List.cons_sublist_iff.mp hsub
    obtain ⟨s, t, ht⟩ := List.append_of_mem (List.singleton_sublist.mp hsub')
    refine h (r₁ ++ s) e t ?_ (List.mem_append_left _ he)
    rw [hl, ht, List.append_assoc]

/-- Something is left exactly if some element is repeated. -/
theorem ordSubtract_listToSet_eq_nil_iff (l : List α) :
    ordSubtract l (listToSet l) = [] ↔ l.Nodup := by
  rw [List.eq_nil_iff_forall_not_mem, nodup_iff_not_mem_before]
  constructor
  · intro h pre e post hl he
    exact h e ((mem_ordSubtract_listToSet l e).mpr ⟨pre, post, hl, .inl he⟩)
  · intro h e he
    obtain ⟨pre, post, hl, hmem | ⟨x, ⟨pre₁, pre₂, hpre, hx, -⟩, -⟩⟩ :=
      (mem_ordSubtract_listToSet l e).mp he
    · exact h pre e post hl hmem
    · -- a leading element is repeated itself
      refine h pre₁ x (pre₂ ++ e :: post) ?_ hx
      rw [hl, hpre, List.append_assoc, List.cons_append]

end SmartWarehouse.Lib
