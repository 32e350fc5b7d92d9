/-
  Messages that arrive in order, maybe more than once.

  The receiver of a `Channel` takes the messages in the order in which they were sent, and may be
  set back to an earlier one, from where on it gets them again. What a receiver remembers is the
  last message of a kind (`latest`). A kind of which nothing is under way is remembered as it was
  sent (`Current`), and once everything has arrived that holds of every kind (`latest_received`).
  A sender that repeats its last message does not change it either (`Stutters.latest_eq`).
-/
import Mathlib.Data.List.Basic

namespace SmartWarehouse.Lib

variable {α β : Type}

/-! ## The last message of a kind -/

/-- What the last message that `f` reads says. -/
def latest (f : α → Option β) (l : List α) : Option β := (l.filterMap f).getLast?

theorem latest_append (f : α → Option β) (l l' : List α) :
    latest f (l ++ l') = (latest f l').or (latest f l) := by
  rw [latest, List.filterMap_append, List.getLast?_append]
  rfl

theorem latest_singleton (f : α → Option β) (a : α) : latest f [a] = f a := by
  unfold latest
  cases h : f a <;> simp [h]

theorem latest_map {γ : Type} (g : γ → α) (f : α → Option β) (l : List γ) :
    latest f (l.map g) = latest (fun c => f (g c)) l := by
  unfold latest
  rw [List.filterMap_map]
  rfl

theorem latest_congr {f g : α → Option β} {l : List α} (h : ∀ a ∈ l, f a = g a) :
    latest f l = latest g l := by
  unfold latest
  rw [List.filterMap_congr h]

/-- The first list is the second one with elements repeated on the spot. -/
inductive Stutters : List α → List α → Prop where
  | nil : Stutters [] []
  | next {l l' : List α} (a : α) (h : Stutters l l') : Stutters (l ++ [a]) (l' ++ [a])
  | again {l l' : List α} (a : α) (h : Stutters l (l' ++ [a])) : Stutters (l ++ [a]) (l' ++ [a])

theorem Stutters.latest_eq {l l' : List α} (h : Stutters l l') (f : α → Option β) :
    latest f l = latest f l' := by
  induction h with
  | nil => rfl
  | next a _ ih => rw [latest_append, latest_append, ih]
  | again a _ ih =>
    rw [latest_append, ih, latest_append]
    cases latest f [a] <;> rfl

theorem Stutters.mem {l l' : List α} (h : Stutters l l') {a : α} (ha : a ∈ l) : a ∈ l' := by
  induction h with
  | nil => exact ha
  | next b _ ih =>
    rcases List.mem_append.mp ha with ha | ha
    · exact List.mem_append_left _ (ih ha)
    · exact List.mem_append_right _ ha
  | again b _ ih =>
    rcases List.mem_append.mp ha with ha | ha
    · exact ih ha
    · exact List.mem_append_right _ ha

/-! ## Channels -/

/-- What was sent, the index of the message that arrives next, and all that has arrived. -/
structure Channel (α : Type) where
  sent : List α
  next : Nat
  received : List α

namespace Channel

def empty : Channel α := ⟨[], 0, []⟩

def send (c : Channel α) (as : List α) : Channel α := { c with sent := c.sent ++ as }

/-- The next message arrives. -/
def deliver (c : Channel α) : Option (α × Channel α) :=
  c.sent[c.next]?.map fun a => (a, ⟨c.sent, c.next + 1, c.received ++ [a]⟩)

/-- The messages from an earlier one on arrive again. -/
def setBack (c : Channel α) (index : Nat) : Channel α := { c with next := min index c.next }

/-- Of what is not under way any more the receiver knows the last message. -/
structure Current (c : Channel α) : Prop where
  le : c.next ≤ c.sent.length
  latest : ∀ {β : Type} (f : α → Option β), latest f (c.sent.drop c.next) = none →
    Lib.latest f c.received = Lib.latest f (c.sent.take c.next)
  mem : ∀ a ∈ c.received, a ∈ c.sent

theorem current_empty : (empty : Channel α).Current where
  le := Nat.le_refl _
  latest _ _ := rfl
  mem _ ha := ha

theorem Current.send {c : Channel α} (h : c.Current) (as : List α) : (c.send as).Current where
  le := by
    show c.next ≤ (c.sent ++ as).length
    rw [List.length_append]
    exact Nat.le_trans h.le (Nat.le_add_right _ _)
  latest f hnone := by
    have hdrop : (c.sent ++ as).drop c.next = c.sent.drop c.next ++ as :=
      List.drop_append_of_le_length h.le
    have htake : (c.sent ++ as).take c.next = c.sent.take c.next :=
      List.take_append_of_le_length h.le
    replace hnone : Lib.latest f ((c.sent ++ as).drop c.next) = none := hnone
    show Lib.latest f c.received = Lib.latest f ((c.sent ++ as).take c.next)
    rw [hdrop, latest_append, Option.or_eq_none_iff] at hnone
    rw [htake]
    exact h.latest f hnone.2
  mem a ha := List.mem_append_left _ (h.mem a ha)

theorem Current.deliver {c c' : Channel α} {a : α} (h : c.Current)
    (hdeliver : c.deliver = some (a, c')) : c'.Current := by
  obtain ⟨b, hb, heq⟩ := Option.map_eq_some_iff.mp hdeliver
  obtain ⟨rfl, rfl⟩ := Prod.mk.inj heq
  obtain ⟨hlt, hget⟩ := List.getElem?_eq_some_iff.mp hb
  have htake : c.sent.take (c.next + 1) = c.sent.take c.next ++ [b] := by
    rw [List.take_add_one, hb]
    rfl
  have hdrop : c.sent.drop c.next = b :: c.sent.drop (c.next + 1) := by
    rw [← hget]
    exact List.drop_eq_getElem_cons hlt
  refine ⟨hlt, fun f hnone => ?_, fun x hx => ?_⟩
  · dsimp only at hnone ⊢
    rw [htake, latest_append, latest_append, latest_singleton]
    -- a message of this kind, or nothing of it was under way before either
    cases hf : f b with
    | some v => rfl
    | none =>
      refine h.latest f ?_
      rw [hdrop, ← List.singleton_append, latest_append, hnone, latest_singleton, hf]
      rfl
  · rcases List.mem_append.mp hx with hx | hx
    · exact h.mem x hx
    · rw [List.mem_singleton.mp hx]
      exact List.mem_of_getElem? hb

theorem Current.setBack {c : Channel α} (h : c.Current) (index : Nat) :
    (c.setBack index).Current where
  le := Nat.le_trans (Nat.min_le_right _ _) h.le
  latest f hnone := by
    have hsplit : c.sent.drop (min index c.next) =
        (c.sent.take c.next).drop (min index c.next) ++ c.sent.drop c.next := by
      conv_lhs => rw [← List.take_append_drop c.next c.sent]
      refine List.drop_append_of_le_length ?_
      rw [List.length_take, Nat.min_eq_left h.le]
      exact Nat.min_le_right _ _
    replace hnone : Lib.latest f (c.sent.drop (min index c.next)) = none := hnone
    rw [hsplit, latest_append, Option.or_eq_none_iff] at hnone
    show Lib.latest f c.received = Lib.latest f (c.sent.take (min index c.next))
    rw [h.latest f hnone.1]
    conv_lhs => rw [← List.take_append_drop (min index c.next) (c.sent.take c.next)]
    rw [latest_append, hnone.2, List.take_take, Nat.min_eq_left (Nat.min_le_right _ _)]
    rfl
  mem := h.mem

/-- Once everything has arrived the receiver knows the last message of every kind. -/
theorem Current.latest_received {c : Channel α} (h : c.Current) (hnext : c.next = c.sent.length)
    (f : α → Option β) : Lib.latest f c.received = Lib.latest f c.sent := by
  rw [h.latest f (by rw [hnext, List.drop_length]; rfl), hnext, List.take_length]

end Channel

end SmartWarehouse.Lib
