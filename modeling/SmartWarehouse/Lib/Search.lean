/-
  Backtracking searches: the answers of a search in order, and how it ends.

  A search that is exhausted has no further answers. One that raised an error or ran out of fuel
  stops where it is: what would come after it in a sequence is never reached. For exhausted
  searches `append` and `bind` collect the answers of their parts (`mem_append_of_exhausted`,
  `mem_bind_of_exhausted`); for any search an answer of the whole is one of a part
  (`mem_append`, `mem_bind`).
-/
import Mathlib.Data.List.Basic

namespace SmartWarehouse.Lib

inductive Ending where
  | exhausted | raised | timeout
deriving DecidableEq, Repr

structure Search (α : Type) where
  answers : List α
  ending : Ending

namespace Search

variable {α β : Type}

def one (a : α) : Search α := ⟨[a], .exhausted⟩

def fail : Search α := ⟨[], .exhausted⟩

def timeout : Search α := ⟨[], .timeout⟩

def ofList (answers : List α) : Search α := ⟨answers, .exhausted⟩

/-- The answers of `s`, then those of `t`. -/
def append (s t : Search α) : Search α :=
  if s.ending = .exhausted then ⟨s.answers ++ t.answers, t.ending⟩ else s

/-- For every answer in turn the answers of `f`. -/
def bindFrom (f : α → Search β) : List α → Ending → Search β
  | [], ending => ⟨[], ending⟩
  | a :: answers, ending => (f a).append (bindFrom f answers ending)

def bind (s : Search α) (f : α → Search β) : Search β := bindFrom f s.answers s.ending

/-- The searches of a list, one after another. -/
def concat (f : α → Search β) (l : List α) : Search β := (ofList l).bind f

/-- The first answer only. -/
def once (s : Search α) : Search α :=
  match s.answers with
  | a :: _ => one a
  | [] => s

/-- An error ends the search with the answers `default` instead. -/
def onError (s : Search α) (default : List α) : Search α :=
  if s.ending = .raised then ⟨s.answers ++ default, .exhausted⟩ else s

/-! ## Answers -/

@[simp] theorem answers_one (a : α) : (one a).answers = [a] := rfl

@[simp] theorem ending_one (a : α) : (one a).ending = .exhausted := rfl

@[simp] theorem answers_fail : (fail : Search α).answers = [] := rfl

@[simp] theorem ending_fail : (fail : Search α).ending = .exhausted := rfl

@[simp] theorem answers_timeout : (timeout : Search α).answers = [] := rfl

@[simp] theorem ending_timeout : (timeout : Search α).ending = .timeout := rfl

@[simp] theorem answers_ofList (l : List α) : (ofList l).answers = l := rfl

@[simp] theorem ending_ofList (l : List α) : (ofList l).ending = .exhausted := rfl

theorem mem_append {s t : Search α} {a : α} :
    a ∈ (s.append t).answers ↔
      a ∈ s.answers ∨ (s.ending = .exhausted ∧ a ∈ t.answers) := by
  unfold append
  split <;> rename_i h <;> simp [h]

theorem append_exhausted {s t : Search α} :
    (s.append t).ending = .exhausted ↔ s.ending = .exhausted ∧ t.ending = .exhausted := by
  unfold append
  split <;> rename_i h <;> simp [h]

theorem mem_append_of_exhausted {s t : Search α} (h : s.ending = .exhausted) {a : α} :
    a ∈ (s.append t).answers ↔ a ∈ s.answers ∨ a ∈ t.answers := by
  rw [mem_append]
  simp [h]

theorem mem_bindFrom {f : α → Search β} {l : List α} {ending : Ending} {b : β}
    (h : b ∈ (bindFrom f l ending).answers) : ∃ a ∈ l, b ∈ (f a).answers := by
  induction l with
  | nil => cases h
  | cons a l ih =>
    rcases mem_append.mp h with h | ⟨-, h⟩
    · exact ⟨a, by simp, h⟩
    · obtain ⟨a', ha', hb⟩ := ih h
      exact ⟨a', by simp [ha'], hb⟩

theorem bindFrom_exhausted {f : α → Search β} {l : List α} {ending : Ending} :
    (bindFrom f l ending).ending = .exhausted ↔
      (∀ a ∈ l, (f a).ending = .exhausted) ∧ ending = .exhausted := by
  induction l with
  | nil => simp [bindFrom]
  | cons a l ih =>
    rw [bindFrom, append_exhausted, ih]
    simp [and_assoc]

theorem mem_bindFrom_of_exhausted {f : α → Search β} {l : List α} {ending : Ending}
    (h : ∀ a ∈ l, (f a).ending = .exhausted) {b : β} :
    b ∈ (bindFrom f l ending).answers ↔ ∃ a ∈ l, b ∈ (f a).answers := by
  induction l with
  | nil => simp [bindFrom]
  | cons a l ih =>
    rw [bindFrom, mem_append_of_exhausted (h a (by simp)),
      ih fun a' ha' => h a' (by simp [ha'])]
    simp

/-- An answer of a sequence comes from an answer of its first part. -/
theorem mem_bind {s : Search α} {f : α → Search β} {b : β} (h : b ∈ (s.bind f).answers) :
    ∃ a ∈ s.answers, b ∈ (f a).answers := mem_bindFrom h

theorem bind_exhausted {s : Search α} {f : α → Search β} :
    (s.bind f).ending = .exhausted ↔
      (∀ a ∈ s.answers, (f a).ending = .exhausted) ∧ s.ending = .exhausted :=
  bindFrom_exhausted

/-- The answers of a sequence whose second part is exhausted throughout. -/
theorem mem_bind_of_exhausted {s : Search α} {f : α → Search β}
    (h : ∀ a ∈ s.answers, (f a).ending = .exhausted) {b : β} :
    b ∈ (s.bind f).answers ↔ ∃ a ∈ s.answers, b ∈ (f a).answers :=
  mem_bindFrom_of_exhausted h

theorem once_answers_eq_nil {s : Search α} : s.once.answers = [] ↔ s.answers = [] := by
  unfold once
  split <;> rename_i hs <;> simp [hs]

@[simp] theorem answers_onError_nil (s : Search α) : (s.onError []).answers = s.answers := by
  unfold onError
  split <;> simp

end Search

end SmartWarehouse.Lib
