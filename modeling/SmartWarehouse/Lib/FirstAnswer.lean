/-
  The first answer of a search.

  `S.Below e T` says that, whatever is asked of the answers, `S` ends with `e` before its first
  answer or has the same first answer as `T`, and ends as `T` does if there is none. So `T` is like
  `S` with `e` removed: with more time, or without a stop. There is one rule for each way to
  combine searches.
-/
import Mathlib.Data.List.Forall2
import SmartWarehouse.Lib.Stateless

namespace SmartWarehouse.Lib.Search

variable {α β γ δ : Type} {e : Ending}

/-- The first answer, or how a search without answers ends. -/
def outcome (S : Search α) : α ⊕ Ending :=
  match S.answers with
  | a :: _ => .inl a
  | [] => .inr S.ending

theorem outcome_eq_inl {S : Search α} {a : α} : S.outcome = .inl a ↔ S.answers.head? = some a := by
  unfold outcome
  cases S.answers <;> simp

theorem outcome_eq_inr {S : Search α} : S.outcome = .inr e ↔ S.answers = [] ∧ S.ending = e := by
  unfold outcome
  cases S.answers <;> simp

/-! ## Sequences -/

theorem append_assoc (S T U : Search α) : (S.append T).append U = S.append (T.append U) := by
  unfold append
  by_cases hS : S.ending = .exhausted
  · rw [if_pos hS, if_pos hS]
    split <;> simp
  · rw [if_neg hS, if_neg hS, if_neg hS]

theorem bindFrom_append (f : α → Search β) (l l' : List α) (ending : Ending) :
    bindFrom f (l ++ l') ending = (bindFrom f l .exhausted).append (bindFrom f l' ending) := by
  induction l with
  | nil => exact (fail_append _).symm
  | cons a l ih =>
    show (f a).append (bindFrom f (l ++ l') ending) = _
    rw [ih, bindFrom, append_assoc]

theorem bindFrom_stuck (f : α → Search β) (l : List α) {ending : Ending}
    (h : ending ≠ .exhausted) (T : Search β) :
    (bindFrom f l ending).append T = bindFrom f l ending := by
  have hex : (bindFrom f l ending).ending ≠ .exhausted := fun hex => h (bindFrom_exhausted.mp hex).2
  rw [append, if_neg hex]

theorem append_bind (S T : Search α) (f : α → Search β) :
    (S.append T).bind f = (S.bind f).append (T.bind f) := by
  obtain ⟨answers, ending⟩ := S
  unfold append bind
  by_cases h : ending = .exhausted
  · subst h
    rw [if_pos rfl]
    exact bindFrom_append f answers T.answers T.ending
  · rw [if_neg h]
    exact (bindFrom_stuck f answers h (T.bind f)).symm

theorem bind_assoc (S : Search α) (f : α → Search β) (g : β → Search γ) :
    (S.bind f).bind g = S.bind fun a => (f a).bind g := by
  obtain ⟨answers, ending⟩ := S
  show (bindFrom f answers ending).bind g = bindFrom (fun a => (f a).bind g) answers ending
  induction answers with
  | nil => rfl
  | cons a answers ih => rw [bindFrom, append_bind, ih, bindFrom]

theorem bind_one (S : Search α) : S.bind one = S := by
  obtain ⟨answers, ending⟩ := S
  show bindFrom one answers ending = _
  induction answers with
  | nil => rfl
  | cons a answers ih => rw [bindFrom, ih]; rfl

theorem ofList_flatMap_bind (l : List α) (F : α → List β) (f : β → Search γ) :
    (ofList (l.flatMap F)).bind f = (ofList l).bind fun a => (ofList (F a)).bind f := by
  rw [← ofList_bind, bind_assoc]

/-- What a search comes to that goes on with another one where it is exhausted. -/
def goOn : α ⊕ Ending → α ⊕ Ending → α ⊕ Ending
  | .inr .exhausted, o => o
  | o, _ => o

theorem goOn_stop (h : e ≠ .exhausted) (o : α ⊕ Ending) : goOn (.inr e) o = .inr e := by
  cases e <;> first | rfl | exact absurd rfl h

theorem outcome_append (S T : Search α) : (S.append T).outcome = goOn S.outcome T.outcome := by
  obtain ⟨answers, ending⟩ := S
  cases answers <;> cases ending <;> rfl

theorem commit_one_eq (S T : Search α) : S.commit one T = match S.outcome with
    | .inl a => one a
    | .inr .exhausted => T
    | .inr ending => ⟨[], ending⟩ := by
  obtain ⟨answers, ending⟩ := S
  cases answers <;> cases ending <;> rfl

/-- Asking the same again does not change the first answer. -/
theorem outcome_repeat (S : Search β) {l : List α} (hl : l ≠ []) :
    ((ofList l).bind fun _ => S).outcome = S.outcome := by
  induction l with
  | nil => exact absurd rfl hl
  | cons a l ih =>
    show (S.append ((ofList l).bind fun _ => S)).outcome = _
    rw [outcome_append]
    have hrest : ((ofList l).bind fun _ => S).outcome = .inr .exhausted ∨
        ((ofList l).bind fun _ => S).outcome = S.outcome := by
      cases l with
      | nil => exact .inl rfl
      | cons a' l => exact .inr (ih (List.cons_ne_nil _ _))
    rcases hrest with hrest | hrest <;> rw [hrest]
    · rcases S.outcome with a | ending
      · rfl
      · cases ending <;> rfl
    · rcases S.outcome with a | ending
      · rfl
      · cases ending <;> rfl

/-! ## Below -/

def Below (e : Ending) (S T : Search α) : Prop :=
  ∀ (β : Type) (k : α → Search β),
    (S.bind k).outcome = .inr e ∨ (S.bind k).outcome = (T.bind k).outcome

namespace Below

theorem outcome {S T : Search α} (h : S.Below e T) :
    S.outcome = .inr e ∨ S.outcome = T.outcome := by
  have hone := h α one
  rwa [bind_one, bind_one] at hone

theorem refl (S : Search α) : S.Below e S := fun _ _ => .inr rfl

theorem stop (T : Search α) : (⟨[], e⟩ : Search α).Below e T := fun _ _ => .inl rfl

theorem trans {S T U : Search α} (h : S.Below e T) (h' : T.Below e U) : S.Below e U := by
  intro β k
  rcases h β k with hS | hS
  · exact .inl hS
  · rw [hS]
    exact h' β k

theorem append (he : e ≠ .exhausted) {S S' T T' : Search α} (hS : S.Below e S')
    (hT : T.Below e T') : (S.append T).Below e (S'.append T') := by
  intro β k
  rw [append_bind, append_bind, outcome_append, outcome_append]
  rcases hS β k with hS | hS
  · rw [hS, goOn_stop he]
    exact .inl rfl
  · rw [hS]
    rcases (S'.bind k).outcome with b | ending
    · exact .inr rfl
    · cases ending with
      | exhausted => exact hT β k
      | _ => exact .inr rfl

theorem bindFrom (he : e ≠ .exhausted) {R : α → β → Prop} {l : List α} {l' : List β}
    (hl : List.Forall₂ R l l') {f : α → Search γ} {g : β → Search γ}
    (hf : ∀ a ∈ l, ∀ b ∈ l', R a b → (f a).Below e (g b)) (ending : Ending) :
    (Search.bindFrom f l ending).Below e (Search.bindFrom g l' ending) := by
  induction hl with
  | nil => exact refl _
  | cons hR _ ih =>
    refine append he (hf _ List.mem_cons_self _ List.mem_cons_self hR) (ih ?_)
    exact fun a ha b hb => hf a (List.mem_cons_of_mem _ ha) b (List.mem_cons_of_mem _ hb)

theorem ofList (he : e ≠ .exhausted) {R : α → β → Prop} {l : List α} {l' : List β}
    (hl : List.Forall₂ R l l') {f : α → Search γ} {g : β → Search γ}
    (hf : ∀ a ∈ l, ∀ b ∈ l', R a b → (f a).Below e (g b)) :
    ((Search.ofList l).bind f).Below e ((Search.ofList l').bind g) := bindFrom he hl hf .exhausted

theorem bind (he : e ≠ .exhausted) {S T : Search α} (hS : S.Below e T) {f g : α → Search β}
    (hf : ∀ a, (f a).Below e (g a)) : (S.bind f).Below e (T.bind g) := by
  refine trans (T := T.bind f) (fun γ k => ?_) ?_
  · rw [bind_assoc, bind_assoc]
    exact hS γ _
  · exact bindFrom he (List.forall₂_refl T.answers) (R := Eq)
      (fun a _ b _ hab => hab ▸ hf a) T.ending

/-- A loop over equal choices is like one of them. -/
theorem repeated {S T : Search γ} (hS : S.Below e T) {l : List α}
    {l' : List β} (hl : l ≠ []) (hl' : l' ≠ []) :
    ((Search.ofList l).bind fun _ => S).Below e ((Search.ofList l').bind fun _ => T) := by
  intro δ k
  rw [bind_assoc, bind_assoc, outcome_repeat _ hl, outcome_repeat _ hl']
  exact hS δ k

theorem commit (he : e ≠ .exhausted) {S S' T T' : Search α} (hS : S.Below e S')
    (hT : T.Below e T') : (S.commit one T).Below e (S'.commit one T') := by
  rcases hS.outcome with houtcome | houtcome
  · rw [commit_one_eq, houtcome]
    cases e with
    | exhausted => exact absurd rfl he
    | _ => exact stop _
  · rw [commit_one_eq, commit_one_eq, houtcome]
    rcases S'.outcome with a | ending
    · exact refl _
    · cases ending with
      | exhausted => exact hT
      | _ => exact refl _

end Below

end SmartWarehouse.Lib.Search
