/-
  Queries whose state does not matter.

  `q.Denotes I P S` says that from every state that satisfies `I`, however it is resumed in such
  states, `q` has the answers of the search `S`, which satisfy `P`, and ends as `S` does. There is
  one rule for each way to combine queries. What is known of `S` then holds of `q`: the first
  answer (`Query.Denotes.first`), and more time for `q` is more time for `S`
  (`Query.Denotes.extends`).
-/
import SmartWarehouse.Lib.Backtrack

namespace SmartWarehouse.Lib

variable {σ α β : Type} {I : σ → Prop} {P : α → Prop} {Q : β → Prop}

theorem Search.fail_append (S : Search α) : Search.fail.append S = S := by
  simp [append, fail]

theorem Search.append_fail (S : Search α) : S.append .fail = S := by
  unfold append
  split <;> rename_i h
  · obtain ⟨answers, ending⟩ := S
    simp only at h
    simp [h]
  · rfl

theorem Search.one_bind (a : α) (f : α → Search β) : (Search.one a).bind f = f a :=
  (f a).append_fail

theorem Search.ofList_bind (l : List α) (F : α → List β) :
    ((Search.ofList l).bind fun a => .ofList (F a)) = .ofList (l.flatMap F) := by
  induction l with
  | nil => rfl
  | cons a l ih =>
    show (Search.ofList (F a)).append ((Search.ofList l).bind fun a => .ofList (F a)) = _
    rw [ih]
    rfl

theorem Search.bind_congr {S : Search α} {F G : α → Search β} (h : ∀ a ∈ S.answers, F a = G a) :
    S.bind F = S.bind G := by
  obtain ⟨answers, ending⟩ := S
  unfold bind
  dsimp only at h ⊢
  induction answers with
  | nil => rfl
  | cons a answers ih =>
    rw [bindFrom, bindFrom, h a List.mem_cons_self,
      ih fun a' ha' => h a' (List.mem_cons_of_mem _ ha')]

theorem Search.map_bind {γ : Type} (l : List γ) (g : γ → α) (F : α → Search β) :
    (Search.ofList (l.map g)).bind F = (Search.ofList l).bind fun c => F (g c) := by
  induction l with
  | nil => rfl
  | cons c l ih =>
    show (F (g c)).append ((Search.ofList (l.map g)).bind F) = _
    rw [ih]
    rfl

/-- A search that neither reads nor changes the state. -/
def Query.ofSearch (S : Search α) : Query σ α := go S.answers S.ending
where
  go : List α → Ending → Query σ α
  | [], ending => fun s => .done s ending
  | a :: answers, ending => fun s => .answer a s (go answers ending)

theorem Query.Within.ofSearch (S : Search α) : (Query.ofSearch S : Query σ α).Within I := by
  obtain ⟨answers, ending⟩ := S
  show (Query.ofSearch.go answers ending).Within I
  induction answers with
  | nil => exact fun _ hs => hs
  | cons a answers ih => exact fun s hs => ⟨hs, ih⟩

/-! ## The first answer -/

theorem Search.append_head {S : Search α} {a : α} (h : S.answers.head? = some a) (T : Search α) :
    (S.append T).answers.head? = some a := by
  unfold append
  split
  · dsimp only
    rw [List.head?_append, h]
    rfl
  · exact h

theorem Search.bind_head {S : Search α} {a : α} (h : S.answers.head? = some a)
    {F : α → Search β} {b : β} (hb : (F a).answers.head? = some b) :
    (S.bind F).answers.head? = some b := by
  obtain ⟨rest, hrest⟩ := List.head?_eq_some_iff.mp h
  unfold bind
  rw [hrest, bindFrom]
  exact append_head hb _

/-! ## What a query denotes -/

inductive Solutions.Denotes (I : σ → Prop) (P : α → Prop) :
    Solutions σ α → List α → Ending → Prop where
  | done {s : σ} {ending : Ending} (h : ending = .exhausted → I s) :
      Denotes I P (.done s ending) [] ending
  | answer {a : α} {s : σ} {rest : σ → Solutions σ α} {answers : List α} {ending : Ending}
      (ha : P a) (hs : I s) (h : ∀ s', I s' → (rest s').Denotes I P answers ending) :
      Denotes I P (.answer a s rest) (a :: answers) ending

def Query.Denotes (I : σ → Prop) (P : α → Prop) (q : Query σ α) (S : Search α) : Prop :=
  ∀ s, I s → (q s).Denotes I P S.answers S.ending

theorem Solutions.Denotes.append {m : Solutions σ α} {answers : List α} {ending : Ending}
    (hm : m.Denotes I P answers ending) {k : σ → Solutions σ α} {S : Search α}
    (hk : ∀ s, I s → (k s).Denotes I P S.answers S.ending) :
    (m.append k).Denotes I P (Search.append ⟨answers, ending⟩ S).answers
      (Search.append ⟨answers, ending⟩ S).ending := by
  induction hm with
  | @done s ending h =>
    unfold Search.append
    split <;> rename_i hending
    · dsimp only at hending
      subst hending
      exact hk s (h rfl)
    · cases ending with
      | exhausted => exact absurd rfl hending
      | raised => exact .done nofun
      | timeout => exact .done nofun
  | @answer a s rest answers ending ha hs h ih =>
    have hcons : Search.append ⟨a :: answers, ending⟩ S =
        ⟨a :: (Search.append ⟨answers, ending⟩ S).answers,
          (Search.append ⟨answers, ending⟩ S).ending⟩ := by
      unfold Search.append
      dsimp only
      split <;> rfl
    rw [hcons]
    exact .answer ha hs ih

theorem Solutions.Denotes.bind {m : Solutions σ α} {answers : List α} {ending : Ending}
    (hm : m.Denotes I P answers ending) {f : α → σ → Solutions σ β} {F : α → Search β}
    (hf : ∀ a, P a → ∀ s, I s → (f a s).Denotes I Q (F a).answers (F a).ending) :
    (m.bind f).Denotes I Q (Search.bindFrom F answers ending).answers
      (Search.bindFrom F answers ending).ending := by
  induction hm with
  | done h => exact .done h
  | answer ha hs _ ih => exact (hf _ ha _ hs).append ih

theorem Solutions.Denotes.imp {P' : α → Prop} (hP : ∀ a, P a → P' a) {m : Solutions σ α}
    {answers : List α} {ending : Ending} (hm : m.Denotes I P answers ending) :
    m.Denotes I P' answers ending := by
  induction hm with
  | done h => exact .done h
  | answer ha hs _ ih => exact .answer (hP _ ha) hs ih

namespace Query.Denotes

theorem pure {a : α} (ha : P a) : (Pure.pure a : Query σ α).Denotes I P (.one a) :=
  fun _ hs => .answer ha hs fun _ hs' => .done fun _ => hs'

theorem bind {q : Query σ α} {S : Search α} {f : α → Query σ β} {F : α → Search β}
    (hq : q.Denotes I P S) (hf : ∀ a, P a → (f a).Denotes I Q (F a)) :
    (q >>= f).Denotes I Q (S.bind F) :=
  fun s hs => (hq s hs).bind fun a ha => hf a ha

theorem flatMap {q : Query σ α} {l : List α} {f : α → Query σ β} {F : α → List β}
    (hq : q.Denotes I P (.ofList l)) (hf : ∀ a, P a → (f a).Denotes I Q (.ofList (F a))) :
    (q >>= f).Denotes I Q (.ofList (l.flatMap F)) := by
  rw [← Search.ofList_bind]
  exact hq.bind hf

theorem map {q : Query σ α} {l : List α} {g : α → β} (hq : q.Denotes I P (.ofList l))
    (hg : ∀ a, P a → Q (g a)) :
    (q >>= fun a => Pure.pure (g a)).Denotes I Q (.ofList (l.map g)) := by
  rw [List.map_eq_flatMap]
  exact hq.flatMap fun a ha => pure (hg a ha)

theorem imp {P' : α → Prop} (hP : ∀ a, P a → P' a) {q : Query σ α} {S : Search α}
    (hq : q.Denotes I P S) : q.Denotes I P' S := fun s hs => (hq s hs).imp hP

theorem fail : (Query.fail : Query σ α).Denotes I P .fail := fun _ hs => .done fun _ => hs

theorem raise : (Query.raise : Query σ α).Denotes I P ⟨[], .raised⟩ := fun _ _ => .done nofun

theorem timeout : (Query.timeout : Query σ α).Denotes I P .timeout := fun _ _ => .done nofun

theorem ofList {l : List α} (h : ∀ a ∈ l, P a) :
    (Query.ofList l : Query σ α).Denotes I P (.ofList l) := by
  induction l with
  | nil => exact fail
  | cons a l ih =>
    exact fun s hs => .answer (h a List.mem_cons_self) hs
      (ih fun b hb => h b (List.mem_cons_of_mem _ hb))

theorem ofSearch {S : Search α} (h : ∀ a ∈ S.answers, P a) :
    (Query.ofSearch S : Query σ α).Denotes I P S := by
  obtain ⟨answers, ending⟩ := S
  show (Query.ofSearch.go answers ending).Denotes I P ⟨answers, ending⟩
  dsimp only at h
  induction answers with
  | nil => exact fun _ hs => .done fun _ => hs
  | cons a answers ih =>
    exact fun s hs => .answer (h a List.mem_cons_self) hs
      (ih fun b hb => h b (List.mem_cons_of_mem _ hb))

theorem orElse {q r : Query σ α} {S T : Search α} (hq : q.Denotes I P S)
    (hr : r.Denotes I P T) : (q.orElse r).Denotes I P (S.append T) :=
  fun s hs => (hq s hs).append hr

end Query.Denotes

/-- `c -> t ; e`. -/
def Search.commit (c : Search α) (t : α → Search β) (e : Search β) : Search β :=
  match c.answers with
  | a :: _ => t a
  | [] => if c.ending = .exhausted then e else ⟨[], c.ending⟩

theorem Search.commit_fail (t : α → Search β) (e : Search β) : Search.fail.commit t e = e := rfl

theorem Search.mem_commit {c e : Search α} {a : α} (h : a ∈ (c.commit .one e).answers) :
    a ∈ c.answers ∨ a ∈ e.answers := by
  unfold commit at h
  split at h <;> rename_i hc
  · rw [hc, List.mem_singleton.mp h]
    exact .inl List.mem_cons_self
  · split at h
    · exact .inr h
    · cases h

/-- An alternative without answers does not matter for the first answer. -/
theorem Search.commit_head {c e : Search α} (h : c.ending = .exhausted → c.answers = [] →
    e.answers = []) : (c.commit .one e).answers.head? = c.answers.head? := by
  unfold commit
  split <;> rename_i hc
  · rw [hc]
    rfl
  · rw [hc]
    split <;> rename_i hending
    · rw [h hending hc]
    · rfl

theorem Query.Denotes.commit {c : Query σ α} {C : Search α} {t : α → Query σ β}
    {T : α → Search β} {e : Query σ β} {E : Search β} (hc : c.Denotes I P C)
    (ht : ∀ a, P a → (t a).Denotes I Q (T a)) (he : e.Denotes I Q E) :
    (c.commit t e).Denotes I Q (C.commit T E) := by
  intro s hs
  have hcs := hc s hs
  unfold Query.commit Search.commit
  generalize c s = m at hcs
  generalize C.answers = answers at hcs
  generalize C.ending = ending at hcs
  cases hcs with
  | done h =>
    cases ending with
    | exhausted => exact he _ (h rfl)
    | raised => exact .done nofun
    | timeout => exact .done nofun
  | answer ha hs _ => exact ht _ ha _ hs

/-! ## What is known of the search -/

theorem Query.Denotes.first {q : Query σ α} {S : Search α} (h : q.Denotes I P S) {s : σ}
    (hs : I s) : (q s).first.map Prod.fst = S.answers.head? := by
  obtain ⟨answers, ending⟩ := S
  have hm := h s hs
  generalize q s = m at hm
  cases hm with
  | done _ => rfl
  | answer _ _ _ => rfl

theorem Solutions.Denotes.mem {m : Solutions σ α} {answers : List α} {ending : Ending}
    (h : m.Denotes I P answers ending) : ∀ a ∈ answers, P a := by
  induction h with
  | done _ => exact nofun
  | answer ha hs _ ih =>
    intro b hb
    rcases List.mem_cons.mp hb with rfl | hb
    · exact ha
    · exact ih _ hs b hb

/-- How a query ends is how the search does. -/
theorem Solutions.Denotes.ends {E : Ending → Prop} {m : Solutions σ α} {answers : List α}
    {ending : Ending} (h : m.Denotes I P answers ending) {P' : α → Prop} (hm : m.Ends E P') :
    E ending := by
  induction h with
  | done _ => exact hm
  | @answer a s rest answers ending ha hs h ih => exact ih s hs (hm.2 s)

/-- The second search is the first one, or goes on where the first one runs out of time. -/
def Search.Extends (S T : Search α) : Prop :=
  S = T ∨ S.ending = .timeout ∧ S.answers <+: T.answers

theorem Solutions.Extends.denotes {m m' : Solutions σ α} (h : m.Extends m')
    {answers answers' : List α} {ending ending' : Ending} (hm : m.Denotes I P answers ending)
    (hm' : m'.Denotes I P answers' ending') :
    Search.Extends ⟨answers, ending⟩ ⟨answers', ending'⟩ := by
  induction h generalizing answers answers' ending ending' with
  | timeout s m =>
    cases hm with
    | done _ => exact .inr ⟨rfl, List.nil_prefix⟩
  | done s e =>
    cases hm with
    | done _ =>
      cases hm' with
      | done _ => exact .inl rfl
  | answer a s _ ih =>
    cases hm with
    | answer _ hs hrest =>
      cases hm' with
      | answer _ _ hrest' =>
        rcases ih s (hrest s hs) (hrest' s hs) with heq | ⟨hending, hprefix⟩
        · obtain ⟨rfl, rfl⟩ := Search.mk.inj heq
          exact .inl rfl
        · exact .inr ⟨hending, (List.prefix_cons_inj a).mpr hprefix⟩

theorem Query.Denotes.extends {q r : Query σ α} {S T : Search α} (hq : q.Denotes I P S)
    (hr : r.Denotes I P T) (h : q.Extends r) {s : σ} (hs : I s) : S.Extends T :=
  (h s).denotes (hq s hs) (hr s hs)

namespace Search.Extends

theorem refl (S : Search α) : S.Extends S := .inl rfl

theorem trans {S T U : Search α} (h : S.Extends T) (h' : T.Extends U) : S.Extends U := by
  rcases h with rfl | ⟨hending, hprefix⟩
  · exact h'
  · rcases h' with rfl | ⟨-, hprefix'⟩
    · exact .inr ⟨hending, hprefix⟩
    · exact .inr ⟨hending, hprefix.trans hprefix'⟩

/-- Searches of which each extends the one before. -/
theorem of_succ {S : Nat → Search α} (h : ∀ n, (S n).Extends (S (n + 1))) {m n : Nat}
    (hle : m ≤ n) : (S m).Extends (S n) := by
  induction hle with
  | refl => exact refl _
  | step _ ih => exact ih.trans (h _)

theorem subset {S T : Search α} (h : S.Extends T) : S.answers ⊆ T.answers := by
  rcases h with rfl | ⟨-, hprefix⟩
  · exact List.Subset.refl _
  · exact hprefix.subset

theorem eq_of_exhausted {S T : Search α} (h : S.Extends T) (hS : S.ending = .exhausted) :
    S = T := by
  rcases h with h | ⟨hending, -⟩
  · exact h
  · rw [hS] at hending
    cases hending

theorem head {S T : Search α} (h : S.Extends T) {a : α} (ha : S.answers.head? = some a) :
    T.answers.head? = some a := by
  rcases h with rfl | ⟨-, hprefix⟩
  · exact ha
  · obtain ⟨rest, hrest⟩ := hprefix
    rw [← hrest, List.head?_append, ha]
    rfl

end Search.Extends

end SmartWarehouse.Lib
