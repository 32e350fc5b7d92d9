/-
  Backtracking over a state that is not undone.

  A `Query` runs in a state and finds its answers one at a time: each answer comes with the state
  in which it was found, and the search for the next one resumes in whatever state the program
  has reached by then, as with a Prolog database. `q.Keeps I P` says that `q` keeps the invariant
  `I` of the state and that its answers satisfy `P`; there is one rule for each way to combine
  queries, and what is kept holds of all answers (`Query.Keeps.answers`). `q.Ends E P` says how
  `q` can end from any state, and `q.Extends r` that `q` is `r` where it has not run out
  of time, with the same rules; a query that never runs out of time is `r` (`Query.Ends.eq`).
-/
import SmartWarehouse.Lib.Search

namespace SmartWarehouse.Lib

/-- The solutions of a query: what it does next from a state. -/
inductive Solutions (σ α : Type) where
  | done (s : σ) (ending : Ending)
  | answer (a : α) (s : σ) (rest : σ → Solutions σ α)

variable {σ α β : Type}

namespace Solutions

/-- When the first solutions are exhausted, those of `k` follow. -/
def append : Solutions σ α → (σ → Solutions σ α) → Solutions σ α
  | done s .exhausted, k => k s
  | done s ending, _ => done s ending
  | answer a s rest, k => answer a s fun s' => (rest s').append k

def bind : Solutions σ α → (α → σ → Solutions σ β) → Solutions σ β
  | done s ending, _ => done s ending
  | answer a s rest, f => (f a s).append fun s' => (rest s').bind f

/-- All answers, when the search resumes where it stopped. -/
def answers : Solutions σ α → List α
  | done _ _ => []
  | answer a s rest => a :: (rest s).answers

end Solutions

def Query (σ α : Type) : Type := σ → Solutions σ α

namespace Query

protected def pure (a : α) : Query σ α :=
  fun s => .answer a s fun s' => .done s' .exhausted

protected def bind (q : Query σ α) (f : α → Query σ β) : Query σ β :=
  fun s => (q s).bind f

instance : Monad (Query σ) where
  pure := Query.pure
  bind := Query.bind

def fail : Query σ α := fun s => .done s .exhausted

def raise : Query σ α := fun s => .done s .raised

def timeout : Query σ α := fun s => .done s .timeout

def ofList : List α → Query σ α
  | [] => fail
  | a :: as => fun s => .answer a s (ofList as)

/-- Disjunction. -/
def orElse (q r : Query σ α) : Query σ α := fun s => (q s).append r

/-- `c -> t ; e`: commits to the first answer of `c`. -/
def commit (c : Query σ α) (t : α → Query σ β) (e : Query σ β) : Query σ β := fun s =>
  match c s with
  | .answer a s' _ => t a s'
  | .done s' .exhausted => e s'
  | .done s' ending => .done s' ending

/-- Negation as failure. -/
def not (q : Query σ α) : Query σ Unit := q.commit (fun _ => fail) (pure ())

end Query

/-! ## Laws -/

namespace Solutions

theorem append_done (m : Solutions σ α) : (m.append fun s => done s .exhausted) = m := by
  induction m with
  | done s ending => cases ending <;> rfl
  | answer a s rest ih => exact congrArg (answer a s) (funext ih)

theorem append_assoc (m : Solutions σ α) (k l : σ → Solutions σ α) :
    (m.append k).append l = m.append fun s => (k s).append l := by
  induction m with
  | done s ending => cases ending <;> rfl
  | answer a s rest ih => exact congrArg (answer a s) (funext ih)

theorem append_bind (m : Solutions σ α) (k : σ → Solutions σ α) (f : α → σ → Solutions σ β) :
    (m.append k).bind f = (m.bind f).append fun s => (k s).bind f := by
  induction m with
  | done s ending => cases ending <;> rfl
  | answer a s rest ih =>
    show (f a s).append (fun s' => ((rest s').append k).bind f) = _
    rw [funext ih, ← append_assoc]
    rfl

theorem bind_assoc {γ : Type} (m : Solutions σ α) (f : α → σ → Solutions σ β)
    (g : β → σ → Solutions σ γ) : (m.bind f).bind g = m.bind fun a s => (f a s).bind g := by
  induction m with
  | done s ending => rfl
  | answer a s rest ih =>
    show ((f a s).append fun s' => (rest s').bind f).bind g = _
    rw [append_bind, funext ih]
    rfl

theorem bind_answer (m : Solutions σ α) :
    (m.bind fun a s => answer a s fun s' => done s' .exhausted) = m := by
  induction m with
  | done s ending => rfl
  | answer a s rest ih => exact congrArg (answer a s) (funext ih)

end Solutions

instance : LawfulMonad (Query σ) := LawfulMonad.mk' (Query σ)
  (fun q => funext fun s => (q s).bind_answer)
  (fun a f => funext fun s => (f a s).append_done)
  (fun q f g => funext fun s => (q s).bind_assoc f g)

/-! ## Invariants of the state -/

/-- Every answer satisfies `P` and is found in a state of `I`, and from states of `I` the rest
    does the same; an exhausted search ends in a state of `I`. -/
def Solutions.Ensure (I : σ → Prop) (P : α → Prop) : Solutions σ α → Prop
  | done s ending => ending = .exhausted → I s
  | answer a s rest => P a ∧ I s ∧ ∀ s', I s' → (rest s').Ensure I P

def Query.Keeps (I : σ → Prop) (P : α → Prop) (q : Query σ α) : Prop :=
  ∀ s, I s → (q s).Ensure I P

variable {I : σ → Prop} {P : α → Prop} {Q : β → Prop}

theorem Solutions.Ensure.append {m : Solutions σ α} (hm : m.Ensure I P)
    {k : σ → Solutions σ α} (hk : ∀ s, I s → (k s).Ensure I P) : (m.append k).Ensure I P := by
  induction m with
  | done s ending =>
    cases ending with
    | exhausted => exact hk s (hm rfl)
    | raised => exact fun h => by cases h
    | timeout => exact fun h => by cases h
  | answer a s rest ih => exact ⟨hm.1, hm.2.1, fun s' hs' => ih s' (hm.2.2 s' hs')⟩

theorem Solutions.Ensure.bind {m : Solutions σ α} (hm : m.Ensure I P)
    {f : α → σ → Solutions σ β} (hf : ∀ a, P a → ∀ s, I s → (f a s).Ensure I Q) :
    (m.bind f).Ensure I Q := by
  induction m with
  | done s ending => exact hm
  | answer a s rest ih =>
    exact (hf a hm.1 s hm.2.1).append fun s' hs' => ih s' (hm.2.2 s' hs')

theorem Solutions.Ensure.answers {m : Solutions σ α} (hm : m.Ensure I P) :
    ∀ a ∈ m.answers, P a := by
  induction m with
  | done s ending => exact fun a ha => by cases ha
  | answer a s rest ih =>
    intro b hb
    rcases List.mem_cons.mp hb with rfl | hb
    · exact hm.1
    · exact ih s (hm.2.2 s hm.2.1) b hb

theorem Solutions.Ensure.imp {P' : α → Prop} (hP : ∀ a, P a → P' a) {m : Solutions σ α}
    (hm : m.Ensure I P) : m.Ensure I P' := by
  induction m with
  | done s ending => exact hm
  | answer a s rest ih => exact ⟨hP a hm.1, hm.2.1, fun s' hs' => ih s' (hm.2.2 s' hs')⟩

namespace Query.Keeps

theorem answers {q : Query σ α} (h : q.Keeps I P) {s : σ} (hs : I s) :
    ∀ a ∈ (q s).answers, P a := (h s hs).answers

theorem imp {P' : α → Prop} {q : Query σ α} (h : q.Keeps I P) (hP : ∀ a, P a → P' a) :
    q.Keeps I P' := fun s hs => (h s hs).imp hP

theorem pure {a : α} (h : P a) : (Pure.pure a : Query σ α).Keeps I P :=
  fun _ hs => ⟨h, hs, fun _ hs' _ => hs'⟩

theorem bind {q : Query σ α} {f : α → Query σ β} (hq : q.Keeps I P)
    (hf : ∀ a, P a → (f a).Keeps I Q) : (q >>= f).Keeps I Q :=
  fun s hs => (hq s hs).bind fun a ha => hf a ha

theorem fail : (Query.fail : Query σ α).Keeps I P := fun _ hs _ => hs

theorem raise : (Query.raise : Query σ α).Keeps I P := fun _ _ h => by cases h

theorem timeout : (Query.timeout : Query σ α).Keeps I P := fun _ _ h => by cases h

theorem ofList {l : List α} (h : ∀ a ∈ l, P a) : (Query.ofList l : Query σ α).Keeps I P := by
  induction l with
  | nil => exact fail
  | cons a l ih =>
    exact fun s hs => ⟨h a (by simp), hs, ih fun b hb => h b (by simp [hb])⟩

theorem orElse {q r : Query σ α} (hq : q.Keeps I P) (hr : r.Keeps I P) :
    (q.orElse r).Keeps I P := fun s hs => (hq s hs).append hr

theorem commit {c : Query σ α} {t : α → Query σ β} {e : Query σ β} (hc : c.Keeps I P)
    (ht : ∀ a, P a → (t a).Keeps I Q) (he : e.Keeps I Q) : (c.commit t e).Keeps I Q := by
  intro s hs
  have hcs := hc s hs
  unfold Query.commit
  split <;> rename_i heq <;> rw [heq] at hcs
  · exact ht _ hcs.1 _ hcs.2.1
  · exact he _ (hcs rfl)
  · exact hcs

theorem not {q : Query σ α} (hq : q.Keeps I P) : q.not.Keeps I fun _ => True :=
  hq.commit (fun _ _ => fail) (pure trivial)

end Query.Keeps

/-! ## Endings -/

/-- Every answer satisfies `P`, and whatever the states in which the search is resumed, it ends
    as `E` says. -/
def Solutions.Ends (E : Ending → Prop) (P : α → Prop) : Solutions σ α → Prop
  | done _ ending => E ending
  | answer a _ rest => P a ∧ ∀ s, (rest s).Ends E P

def Query.Ends (E : Ending → Prop) (P : α → Prop) (q : Query σ α) : Prop :=
  ∀ s, (q s).Ends E P

variable {E : Ending → Prop}

theorem Solutions.Ends.append {m : Solutions σ α} (hm : m.Ends E P) {k : σ → Solutions σ α}
    (hk : ∀ s, (k s).Ends E P) : (m.append k).Ends E P := by
  induction m with
  | done s ending =>
    cases ending with
    | exhausted => exact hk s
    | raised => exact hm
    | timeout => exact hm
  | answer a s rest ih => exact ⟨hm.1, fun s' => ih s' (hm.2 s')⟩

theorem Solutions.Ends.bind {m : Solutions σ α} (hm : m.Ends E P) {f : α → σ → Solutions σ β}
    (hf : ∀ a, P a → ∀ s, (f a s).Ends E Q) : (m.bind f).Ends E Q := by
  induction m with
  | done s ending => exact hm
  | answer a s rest ih => exact (hf a hm.1 s).append fun s' => ih s' (hm.2 s')

namespace Query.Ends

theorem pure (hE : E .exhausted) {a : α} (h : P a) : (Pure.pure a : Query σ α).Ends E P :=
  fun _ => ⟨h, fun _ => hE⟩

theorem bind {q : Query σ α} {f : α → Query σ β} (hq : q.Ends E P)
    (hf : ∀ a, P a → (f a).Ends E Q) : (q >>= f).Ends E Q :=
  fun s => (hq s).bind fun a ha => hf a ha

theorem fail (hE : E .exhausted) : (Query.fail : Query σ α).Ends E P := fun _ => hE

theorem ofList (hE : E .exhausted) {l : List α} (h : ∀ a ∈ l, P a) :
    (Query.ofList l : Query σ α).Ends E P := by
  induction l with
  | nil => exact fail hE
  | cons a l ih =>
    exact fun s => ⟨h a List.mem_cons_self, ih fun b hb => h b (List.mem_cons_of_mem _ hb)⟩

theorem orElse {q r : Query σ α} (hq : q.Ends E P) (hr : r.Ends E P) : (q.orElse r).Ends E P :=
  fun s => (hq s).append hr

theorem commit {c : Query σ α} {t : α → Query σ β} {e : Query σ β} (hc : c.Ends E P)
    (ht : ∀ a, P a → (t a).Ends E Q) (he : e.Ends E Q) : (c.commit t e).Ends E Q := by
  intro s
  have hcs := hc s
  unfold Query.commit
  split <;> rename_i heq <;> rw [heq] at hcs
  · exact ht _ hcs.1 _
  · exact he _
  · exact hcs

theorem not (hE : E .exhausted) {q : Query σ α} (hq : q.Ends E P) :
    q.not.Ends E fun _ => True := hq.commit (fun _ _ => fail hE) (pure hE trivial)

end Query.Ends

theorem Solutions.Ends.imp {E' : Ending → Prop} {P' : α → Prop} (hE : ∀ e, E e → E' e)
    (hP : ∀ a, P a → P' a) {m : Solutions σ α} (hm : m.Ends E P) : m.Ends E' P' := by
  induction m with
  | done s ending => exact hE ending hm
  | answer a s rest ih => exact ⟨hP a hm.1, fun s' => ih s' (hm.2 s')⟩

/-! ## Where answers are found -/

/-- The answer is found in the state, if the search is resumed in some states before. -/
inductive Solutions.Finds : Solutions σ α → α → σ → Prop where
  | here (a : α) (s : σ) (rest : σ → Solutions σ α) : Finds (.answer a s rest) a s
  | later {a b : α} {s t : σ} {rest : σ → Solutions σ α} (s' : σ) (h : (rest s').Finds b t) :
      Finds (.answer a s rest) b t

/-- The first answer, and the state in which it is found. -/
def Solutions.first : Solutions σ α → Option (α × σ)
  | done _ _ => none
  | answer a s _ => some (a, s)

/-- The state in which the search stops, at the first answer or at the end. -/
def Solutions.stop : Solutions σ α → σ
  | done s _ => s
  | answer _ s _ => s

theorem Solutions.finds_of_first {m : Solutions σ α} {a : α} {s : σ}
    (h : m.first = some (a, s)) : m.Finds a s := by
  cases m with
  | done s ending => cases h
  | answer a s rest =>
    cases h
    exact .here a s rest

theorem Solutions.Ends.finds {m : Solutions σ α} (h : m.Ends E P) {a : α} {s : σ}
    (hfind : m.Finds a s) : P a := by
  induction hfind with
  | here => exact h.1
  | later s' _ ih => exact ih (h.2 s')

theorem Query.ends_true (q : Query σ α) : q.Ends (fun _ => True) fun _ => True := by
  intro s
  induction q s with
  | done s ending => trivial
  | answer a s rest ih => exact ⟨trivial, ih⟩

/-! ## Every state -/

/-- The search ends and finds its answers in states of `I`, if it is resumed in such states. -/
def Solutions.Within (I : σ → Prop) : Solutions σ α → Prop
  | done s _ => I s
  | answer _ s rest => I s ∧ ∀ s', I s' → (rest s').Within I

def Query.Within (I : σ → Prop) (q : Query σ α) : Prop := ∀ s, I s → (q s).Within I

theorem Solutions.Within.stop {m : Solutions σ α} (hm : m.Within I) : I m.stop := by
  cases m with
  | done s ending => exact hm
  | answer a s rest => exact hm.1

theorem Solutions.Within.append {m : Solutions σ α} (hm : m.Within I) {k : σ → Solutions σ α}
    (hk : ∀ s, I s → (k s).Within I) : (m.append k).Within I := by
  induction m with
  | done s ending =>
    cases ending with
    | exhausted => exact hk s hm
    | raised => exact hm
    | timeout => exact hm
  | answer a s rest ih => exact ⟨hm.1, fun s' hs' => ih s' (hm.2 s' hs')⟩

theorem Solutions.Within.bind {m : Solutions σ α} (hm : m.Within I) {f : α → σ → Solutions σ β}
    (hf : ∀ a s, I s → (f a s).Within I) : (m.bind f).Within I := by
  induction m with
  | done s ending => exact hm
  | answer a s rest ih => exact (hf a s hm.1).append fun s' hs' => ih s' (hm.2 s' hs')

namespace Query.Within

theorem pure (a : α) : (Pure.pure a : Query σ α).Within I := fun _ hs => ⟨hs, fun _ hs' => hs'⟩

theorem bind {q : Query σ α} {f : α → Query σ β} (hq : q.Within I) (hf : ∀ a, (f a).Within I) :
    (q >>= f).Within I := fun s hs => (hq s hs).bind hf

end Query.Within

/-! ## One answer, and all answers -/

/-- One answer, and no other. -/
def Solutions.one (a : α) (s : σ) : Solutions σ α := .answer a s fun s' => .done s' .exhausted

theorem Solutions.one_bind (a : α) (s : σ) (f : α → σ → Solutions σ β) :
    (one a s).bind f = f a s := (f a s).append_done

namespace Query

theorem bind_one {q : Query σ α} {s s' : σ} {a : α} (h : q s = .one a s') (f : α → Query σ β) :
    (q >>= f) s = f a s' := by
  show (q s).bind f = f a s'
  rw [h]
  exact Solutions.one_bind a s' f

theorem commit_one {c : Query σ α} {s s' : σ} {a : α} (h : c s = .one a s') (t : α → Query σ β)
    (e : Query σ β) : c.commit t e s = t a s' := by
  unfold commit
  rw [h]
  rfl

end Query

/-- Where and how the search ends, when it is resumed where it stopped. -/
def Solutions.finish : Solutions σ α → σ × Ending
  | done s ending => (s, ending)
  | answer _ s rest => (rest s).finish

/-- `findall/3`. -/
def Query.findall (q : Query σ α) : Query σ (List α) := fun s =>
  match (q s).finish with
  | (s', .exhausted) => .one (q s).answers s'
  | (s', ending) => .done s' ending

theorem Query.findall_eq {q : Query σ α} {s s' : σ} (h : (q s).finish = (s', .exhausted)) :
    q.findall s = .one (q s).answers s' := by
  unfold findall
  rw [h]

/-! ## More time -/

/-- Where the first solutions run out of time the second ones may go on; otherwise they agree. -/
inductive Solutions.Extends : Solutions σ α → Solutions σ α → Prop where
  | timeout (s : σ) (m : Solutions σ α) : Extends (.done s .timeout) m
  | done (s : σ) (ending : Ending) : Extends (.done s ending) (.done s ending)
  | answer (a : α) (s : σ) {rest rest' : σ → Solutions σ α}
      (h : ∀ s', (rest s').Extends (rest' s')) : Extends (.answer a s rest) (.answer a s rest')

def Query.Extends (q r : Query σ α) : Prop := ∀ s, (q s).Extends (r s)

theorem Solutions.Extends.refl (m : Solutions σ α) : m.Extends m := by
  induction m with
  | done s ending => exact .done s ending
  | answer a s rest ih => exact .answer a s ih

theorem Solutions.Extends.append {m m' : Solutions σ α} (hm : m.Extends m')
    {k k' : σ → Solutions σ α} (hk : ∀ s, (k s).Extends (k' s)) :
    (m.append k).Extends (m'.append k') := by
  induction hm with
  | timeout s m => exact .timeout s _
  | done s ending =>
    cases ending with
    | exhausted => exact hk s
    | raised => exact .done s .raised
    | timeout => exact .done s .timeout
  | answer a s _ ih => exact .answer a s ih

theorem Solutions.Extends.bind {m m' : Solutions σ α} (hm : m.Extends m')
    {f f' : α → σ → Solutions σ β} (hf : ∀ a s, (f a s).Extends (f' a s)) :
    (m.bind f).Extends (m'.bind f') := by
  induction hm with
  | timeout s m => exact .timeout s _
  | done s ending => exact .done s ending
  | answer a s _ ih => exact (hf a s).append ih

/-- Solutions that do not run out of time are the others. -/
theorem Solutions.Extends.eq {m m' : Solutions σ α} (h : m.Extends m')
    (hm : m.Ends (fun e => e ≠ .timeout) P) : m = m' := by
  induction h with
  | timeout s m => exact absurd rfl hm
  | done s ending => rfl
  | answer a s _ ih => rw [funext fun s' => ih s' (hm.2 s')]

namespace Query.Extends

theorem refl (q : Query σ α) : q.Extends q := fun s => .refl (q s)

theorem timeout (q : Query σ α) : (Query.timeout : Query σ α).Extends q :=
  fun s => .timeout s (q s)

theorem bind {q q' : Query σ α} {f f' : α → Query σ β} (hq : q.Extends q')
    (hf : ∀ a, (f a).Extends (f' a)) : (q >>= f).Extends (q' >>= f') :=
  fun s => (hq s).bind hf

theorem orElse {q q' r r' : Query σ α} (hq : q.Extends q') (hr : r.Extends r') :
    (q.orElse r).Extends (q'.orElse r') := fun s => (hq s).append hr

theorem commit {c c' : Query σ α} {t t' : α → Query σ β} {e e' : Query σ β} (hc : c.Extends c')
    (ht : ∀ a, (t a).Extends (t' a)) (he : e.Extends e') :
    (c.commit t e).Extends (c'.commit t' e') := by
  intro s
  have hcs := hc s
  unfold Query.commit
  generalize c s = m at hcs
  generalize c' s = m' at hcs
  cases hcs with
  | timeout s m => exact .timeout s _
  | done s ending =>
    cases ending with
    | exhausted => exact he s
    | raised => exact .done s .raised
    | timeout => exact .done s .timeout
  | answer a s _ => exact ht a s

end Query.Extends

/-- A query that never runs out of time is the one it extends to. -/
theorem Query.Ends.eq {q r : Query σ α} (h : q.Ends (fun e => e ≠ .timeout) P)
    (hq : q.Extends r) : q = r := funext fun s => (hq s).eq (h s)

end SmartWarehouse.Lib
