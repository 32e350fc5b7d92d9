/-
  The loop check of a depth-first search.

  A search plans under a label and forbids the label below it: in a chain of nested calls every
  call knows the labels that are forbidden, and a new label must not clash with one of them. A
  call inherits them from the call above it or starts afresh with none. Labels may be instantiated
  on the way, which makes no new clashes. The labels that are still pending in a chain do not
  clash, as long as no call starts afresh below a pending label (`Chain.pairwise`).
-/
import Mathlib.Data.List.Basic

namespace SmartWarehouse.Lib

/-- How a call comes from the one above it. -/
inductive Link (T : Type) where
  | top
  | planning (label : T)
  | inheriting
  | afresh
deriving DecidableEq

structure Frame (T : Type) where
  link : Link T
  forbidden : List T

variable {T U : Type}

def Link.label : Link T → Option T
  | planning label => some label
  | _ => none

def Link.map (f : T → U) : Link T → Link U
  | top => top
  | planning label => planning (f label)
  | inheriting => inheriting
  | afresh => afresh

def Frame.map (f : T → U) (frame : Frame T) : Frame U :=
  ⟨frame.link.map f, frame.forbidden.map f⟩

/-- The labels that the chain is still planning under, the innermost first. -/
def pending (chain : List (Frame T)) : List T := chain.filterMap fun frame => frame.link.label

/-- No call below a pending label starts afresh. -/
def AfreshAtTop : List (Frame T) → Prop
  | [] => True
  | frame :: chain => (frame.link = .afresh → pending chain = []) ∧ AfreshAtTop chain

/-- The chains of nested calls of a search, the innermost first. -/
inductive Chain (clash : T → T → Prop) : List (Frame T) → Prop where
  | top : Chain clash [⟨.top, []⟩]
  | planning {frame : Frame T} {chain : List (Frame T)} {label : T}
      (h : Chain clash (frame :: chain)) (check : ∀ l ∈ frame.forbidden, ¬ clash label l) :
      Chain clash (⟨.planning label, label :: frame.forbidden⟩ :: frame :: chain)
  | inheriting {frame : Frame T} {chain : List (Frame T)} (h : Chain clash (frame :: chain)) :
      Chain clash (⟨.inheriting, frame.forbidden⟩ :: frame :: chain)
  | afresh {frame : Frame T} {chain : List (Frame T)} (h : Chain clash (frame :: chain)) :
      Chain clash (⟨.afresh, []⟩ :: frame :: chain)
  | instantiate {chain : List (Frame T)} (f : T → T)
      (hf : ∀ l l', clash (f l) (f l') → clash l l') (h : Chain clash chain) :
      Chain clash (chain.map (Frame.map f))

theorem pending_cons (frame : Frame T) (chain : List (Frame T)) :
    pending (frame :: chain) = frame.link.label.toList ++ pending chain := by
  unfold pending
  rw [List.filterMap_cons]
  cases frame.link.label <;> rfl

theorem label_map (f : T → U) (link : Link T) : (link.map f).label = link.label.map f := by
  cases link <;> rfl

theorem pending_map (f : T → U) (chain : List (Frame T)) :
    pending (chain.map (Frame.map f)) = (pending chain).map f := by
  induction chain with
  | nil => rfl
  | cons frame chain ih =>
    rw [List.map_cons, pending_cons, pending_cons, ih, List.map_append]
    show ((frame.link.map f).label).toList ++ _ = _
    rw [label_map]
    cases frame.link.label <;> rfl

theorem link_map_eq_afresh (f : T → U) (link : Link T) : link.map f = .afresh ↔ link = .afresh := by
  cases link <;> simp [Link.map]

theorem afreshAtTop_map (f : T → U) (chain : List (Frame T)) :
    AfreshAtTop (chain.map (Frame.map f)) ↔ AfreshAtTop chain := by
  induction chain with
  | nil => exact Iff.rfl
  | cons frame chain ih =>
    have hframe : (frame.map f).link = .afresh ↔ frame.link = .afresh :=
      link_map_eq_afresh f frame.link
    have hchain : pending (chain.map (Frame.map f)) = [] ↔ pending chain = [] := by
      rw [pending_map, List.map_eq_nil_iff]
    show ((frame.map f).link = .afresh → pending (chain.map (Frame.map f)) = []) ∧ _ ↔ _
    rw [hframe, hchain, ih]
    rfl

/-- What a chain keeps: its innermost call forbids what is pending, and this does not clash. -/
def Guarded (clash : T → T → Prop) (chain : List (Frame T)) : Prop :=
  (∀ frame ∈ chain.head?, pending chain = frame.forbidden) ∧
    (pending chain).Pairwise fun l l' => ¬ clash l l'

variable {clash : T → T → Prop}

theorem Guarded.head {frame : Frame T} {chain : List (Frame T)}
    (h : Guarded clash (frame :: chain)) : pending (frame :: chain) = frame.forbidden :=
  h.1 frame rfl

theorem guarded_of_head {frame : Frame T} {chain : List (Frame T)}
    (hhead : pending (frame :: chain) = frame.forbidden)
    (hpairwise : (pending (frame :: chain)).Pairwise fun l l' => ¬ clash l l') :
    Guarded clash (frame :: chain) := by
  refine ⟨fun frame' hframe' => ?_, hpairwise⟩
  obtain rfl := Option.some.inj hframe'
  exact hhead

theorem Guarded.map (f : T → T) (hf : ∀ l l', clash (f l) (f l') → clash l l')
    {chain : List (Frame T)} (h : Guarded clash chain) :
    Guarded clash (chain.map (Frame.map f)) := by
  constructor
  · cases chain with
    | nil => exact nofun
    | cons frame chain =>
      intro frame' hframe'
      obtain rfl := Option.some.inj hframe'
      rw [pending_map, h.head]
      rfl
  · rw [pending_map, List.pairwise_map]
    exact h.2.imp fun hclash hmap => hclash (hf _ _ hmap)

theorem Chain.guarded {chain : List (Frame T)} (h : Chain clash chain)
    (hafresh : AfreshAtTop chain) : Guarded clash chain := by
  induction h with
  | top => exact guarded_of_head rfl .nil
  | @planning frame chain label _ check ih =>
    have hguarded := ih hafresh.2
    have hpending : pending (⟨.planning label, label :: frame.forbidden⟩ :: frame :: chain) =
        label :: frame.forbidden := by
      rw [pending_cons, hguarded.head]
      rfl
    refine guarded_of_head hpending ?_
    rw [hpending]
    refine List.pairwise_cons.mpr ⟨check, ?_⟩
    rw [← hguarded.head]
    exact hguarded.2
  | inheriting _ ih =>
    have hguarded := ih hafresh.2
    exact guarded_of_head hguarded.head hguarded.2
  | afresh _ ih =>
    exact guarded_of_head (hafresh.1 rfl) (ih hafresh.2).2
  | instantiate f hf _ ih => exact (ih ((afreshAtTop_map f _).mp hafresh)).map f hf

/-- The pending labels of a chain do not clash. -/
theorem Chain.pairwise {chain : List (Frame T)} (h : Chain clash chain)
    (hafresh : AfreshAtTop chain) : (pending chain).Pairwise fun l l' => ¬ clash l l' :=
  (h.guarded hafresh).2

end SmartWarehouse.Lib
