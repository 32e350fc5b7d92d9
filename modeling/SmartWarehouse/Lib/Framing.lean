/-
  Framing of streams: messages are cut off the front of what has arrived, while more arrives.

  A framing says of the items that are there that more are needed, that they are wrong, or which
  message they begin with and how long it is. It is stable if items that arrive later do not change
  what it says (`Stable`). A hub keeps what has arrived on each of its lines and cuts messages off
  whenever a piece arrives. With a stable framing the messages of a line are those of its whole
  stream, however the streams are split into pieces and however the pieces of the lines are
  interleaved (`Hub.run_follows`), and the hub gets through exactly if every stream can be cut as
  a whole (`Hub.run_isSome_iff`).
-/
import Mathlib.Data.List.Induction
import Mathlib.Logic.Function.Basic

namespace SmartWarehouse.Lib

/-- What is said of the items that are there. -/
inductive Front (M : Type) where
  | more
  | bad
  | message (m : M) (size : Nat)

/-- No message is there; `closed` says whether the items are wrong. -/
def Front.Ends {M : Type} : Front M → Bool → Prop
  | .more, closed => closed = false
  | .bad, closed => closed = true
  | .message _ _, _ => False

variable {ι α M : Type} {frame : List α → Front M}

/-- What is said of some items stays so when others arrive behind them. -/
structure Stable (frame : List α → Front M) : Prop where
  nil : frame [] = .more
  bad : ∀ {s}, frame s = .bad → ∀ t, frame (s ++ t) = .bad
  message : ∀ {s m size}, frame s = .message m size → ∀ t, frame (s ++ t) = .message m size
  size_le : ∀ {s m size}, frame s = .message m size → size ≤ s.length

/-! ## Cuts -/

/-- The messages cut off the front, and the items left. -/
inductive Cut (frame : List α → Front M) : List α → List M → List α → Prop
  | nil (s : List α) : Cut frame s [] s
  | cons {s rest : List α} {m : M} {size : Nat} {ms : List M} :
      frame s = .message m size → Cut frame (s.drop size) ms rest → Cut frame s (m :: ms) rest

/-- A cut after which no message is left. -/
def Whole (frame : List α → Front M) (s : List α) (ms : List M) (rest : List α) (closed : Bool) :
    Prop :=
  Cut frame s ms rest ∧ (frame rest).Ends closed

theorem Cut.trans {s rest rest' : List α} {ms ms' : List M} (h : Cut frame s ms rest)
    (h' : Cut frame rest ms' rest') : Cut frame s (ms ++ ms') rest' := by
  induction h with
  | nil s => exact h'
  | cons hframe _ ih => exact .cons hframe (ih h')

theorem Cut.append (hs : Stable frame) {s rest : List α} {ms : List M} (h : Cut frame s ms rest)
    (t : List α) : Cut frame (s ++ t) ms (rest ++ t) := by
  induction h with
  | nil s => exact .nil _
  | cons hframe _ ih =>
    refine .cons (hs.message hframe t) ?_
    rw [List.drop_append_of_le_length (hs.size_le hframe)]
    exact ih

theorem Cut.suffix {s rest : List α} {ms : List M} (h : Cut frame s ms rest) : rest <:+ s := by
  induction h with
  | nil s => exact List.suffix_rfl
  | cons _ _ ih => exact ih.trans (List.drop_suffix _ _)

/-- A whole cut goes on from any other cut. -/
theorem Whole.split {s rest rest' : List α} {ms ms' : List M} {closed : Bool}
    (h : Whole frame s ms' rest' closed) (hcut : Cut frame s ms rest) :
    ∃ ms'', ms' = ms ++ ms'' ∧ Whole frame rest ms'' rest' closed := by
  induction hcut generalizing ms' with
  | nil s => exact ⟨ms', rfl, h⟩
  | @cons s rest m size ms hframe _ ih =>
    obtain ⟨hwhole, hends⟩ := h
    cases hwhole with
    | nil =>
      rw [hframe] at hends
      cases hends
    | @cons _ _ m' size' ms' hframe' hrest =>
      obtain ⟨rfl, rfl⟩ := Front.message.inj (hframe.symm.trans hframe')
      obtain ⟨ms'', rfl, hwhole⟩ := ih ⟨hrest, hends⟩
      exact ⟨ms'', rfl, hwhole⟩

theorem Whole.unique {s rest rest' : List α} {ms ms' : List M} {closed closed' : Bool}
    (h : Whole frame s ms rest closed) (h' : Whole frame s ms' rest' closed') :
    ms = ms' ∧ rest = rest' ∧ closed = closed' := by
  obtain ⟨ms'', hms, hcut, hends⟩ := h'.split h.1
  cases hcut with
  | nil =>
    refine ⟨by rw [hms, List.append_nil], rfl, ?_⟩
    have hends' := h.2
    cases hframe : frame rest with
    | more =>
      rw [hframe] at hends hends'
      exact hends'.trans hends.symm
    | bad =>
      rw [hframe] at hends hends'
      exact hends'.trans hends.symm
    | message m size =>
      rw [hframe] at hends
      cases hends
  | cons hframe _ =>
    have hends' := h.2
    rw [hframe] at hends'
    cases hends'

/-- What can be cut as a whole together with later items can be cut as a whole without them. -/
theorem Whole.of_append (hs : Stable frame) {s t rest : List α} {ms : List M} {closed : Bool}
    (h : Whole frame (s ++ t) ms rest closed) :
    ∃ ms' rest' closed', Whole frame s ms' rest' closed' := by
  obtain ⟨hcut, hends⟩ := h
  generalize hst : s ++ t = st at hcut
  induction hcut generalizing s with
  | nil =>
    cases hframe : frame s with
    | more => exact ⟨[], s, false, .nil s, by rw [hframe]; rfl⟩
    | bad => exact ⟨[], s, true, .nil s, by rw [hframe]; rfl⟩
    | message m size =>
      rw [← hst, hs.message hframe t] at hends
      cases hends
  | @cons _ rest m size ms hwhole _ ih =>
    cases hframe : frame s with
    | more => exact ⟨[], s, false, .nil s, by rw [hframe]; rfl⟩
    | bad => exact ⟨[], s, true, .nil s, by rw [hframe]; rfl⟩
    | message m' size' =>
      rw [← hst, hs.message hframe t] at hwhole
      obtain ⟨rfl, rfl⟩ := Front.message.inj hwhole
      have hdrop : s.drop size' ++ t = _ :=
        (List.drop_append_of_le_length (hs.size_le hframe)).symm.trans (congrArg _ hst)
      obtain ⟨ms', rest', closed', hcut', hends'⟩ := ih hends hdrop
      exact ⟨_ :: ms', rest', closed', .cons hframe hcut', hends'⟩

/-! ## The loop that cuts -/

structure Drained (α M : Type) where
  messages : List M
  rest : List α
  closed : Bool

/-- Messages are cut off until none is there; `none` if the fuel is used up before. -/
def drain (frame : List α → Front M) : Nat → List α → Option (Drained α M)
  | 0, _ => none
  | fuel + 1, s =>
    match frame s with
    | .more => some ⟨[], s, false⟩
    | .bad => some ⟨[], s, true⟩
    | .message m size =>
      (drain frame fuel (s.drop size)).map fun d => { d with messages := m :: d.messages }

theorem drain_whole {fuel : Nat} {s : List α} {d : Drained α M} (h : drain frame fuel s = some d) :
    Whole frame s d.messages d.rest d.closed := by
  induction fuel generalizing s d with
  | zero => cases h
  | succ fuel ih =>
    rw [drain] at h
    split at h
    · rename_i hframe
      obtain rfl := Option.some.inj h
      exact ⟨.nil s, by rw [hframe]; rfl⟩
    · rename_i hframe
      obtain rfl := Option.some.inj h
      exact ⟨.nil s, by rw [hframe]; rfl⟩
    · rename_i m size hframe
      obtain ⟨d', hd', rfl⟩ := Option.map_eq_some_iff.mp h
      exact ⟨.cons hframe (ih hd').1, (ih hd').2⟩

/-- Fuel for one round more than there are messages is enough. -/
theorem drain_of_whole {s rest : List α} {ms : List M} {closed : Bool}
    (h : Whole frame s ms rest closed) {fuel : Nat} (hfuel : ms.length < fuel) :
    drain frame fuel s = some ⟨ms, rest, closed⟩ := by
  obtain ⟨hcut, hends⟩ := h
  induction hcut generalizing fuel with
  | nil s =>
    obtain ⟨fuel, rfl⟩ := Nat.exists_eq_add_of_lt hfuel
    rw [drain]
    cases hframe : frame s with
    | more =>
      rw [hframe] at hends
      cases hends
      rfl
    | bad =>
      rw [hframe] at hends
      cases hends
      rfl
    | message m size =>
      rw [hframe] at hends
      cases hends
  | @cons s rest m size ms hframe _ ih =>
    cases fuel with
    | zero => cases hfuel
    | succ fuel =>
      rw [drain, hframe]
      dsimp only
      rw [ih (Nat.lt_of_succ_lt_succ hfuel) hends]
      rfl

theorem drain_mono {fuel fuel' : Nat} (hle : fuel ≤ fuel') {s : List α} {d : Drained α M}
    (h : drain frame fuel s = some d) : drain frame fuel' s = some d := by
  induction fuel generalizing fuel' s d with
  | zero => cases h
  | succ fuel ih =>
    cases fuel' with
    | zero => cases hle
    | succ fuel' =>
      rw [drain] at h ⊢
      cases hframe : frame s with
      | more =>
        rw [hframe] at h
        exact h
      | bad =>
        rw [hframe] at h
        exact h
      | message m size =>
        rw [hframe] at h
        obtain ⟨d', hd', rfl⟩ := Option.map_eq_some_iff.mp h
        dsimp only
        rw [ih (Nat.le_of_succ_le_succ hle) hd']
        rfl

/-! ## A hub -/

/-- What is there on a line, and whether it has been closed. -/
structure Line (α : Type) where
  buffer : List α
  closed : Bool

structure Hub (ι α M : Type) where
  lines : ι → Line α
  /-- The messages cut off so far, the earliest first. -/
  log : List (ι × M)

/-- Nothing has arrived. -/
def Hub.fresh : Hub ι α M := ⟨fun _ => ⟨[], false⟩, []⟩

variable [DecidableEq ι]

/-- A piece arrives on a line, and `cut` cuts messages off what is there; a closed line takes
    nothing. -/
def Hub.read (cut : List α → Option (Drained α M)) (h : Hub ι α M) (arrival : ι × List α) :
    Option (Hub ι α M) :=
  if (h.lines arrival.1).closed then some h
  else
    (cut ((h.lines arrival.1).buffer ++ arrival.2)).map fun d =>
      ⟨Function.update h.lines arrival.1 ⟨d.rest, d.closed⟩,
        h.log ++ d.messages.map fun m => (arrival.1, m)⟩

def Hub.run (cut : List α → Option (Drained α M)) (arrivals : List (ι × List α)) :
    Option (Hub ι α M) :=
  arrivals.foldlM (Hub.read cut) Hub.fresh

theorem Hub.run_concat (cut : List α → Option (Drained α M)) (arrivals : List (ι × List α))
    (a : ι × List α) :
    Hub.run cut (arrivals ++ [a]) = (Hub.run cut arrivals).bind fun h => h.read cut a := by
  unfold Hub.run
  rw [List.foldlM_append]
  congr 1
  funext h
  exact bind_pure (h.read cut a)

/-- What has arrived on a line. -/
def received (arrivals : List (ι × List α)) (i : ι) : List α :=
  (arrivals.filter fun a => a.1 = i).flatMap Prod.snd

/-- The messages of a line. -/
def messagesOf (log : List (ι × M)) (i : ι) : List M :=
  (log.filter fun e => e.1 = i).map Prod.snd

theorem received_concat (arrivals : List (ι × List α)) (a : ι × List α) (i : ι) :
    received (arrivals ++ [a]) i =
      if a.1 = i then received arrivals i ++ a.2 else received arrivals i := by
  unfold received
  rw [List.filter_append, List.flatMap_append]
  split
  · rename_i hi
    simp [hi]
  · rename_i hi
    simp [hi]

theorem messagesOf_cons (e : ι × M) (log : List (ι × M)) (i : ι) :
    messagesOf (e :: log) i =
      if e.1 = i then e.2 :: messagesOf log i else messagesOf log i := by
  unfold messagesOf
  rw [List.filter_cons]
  by_cases hi : e.1 = i
  · simp [hi]
  · simp [hi]

theorem messagesOf_append (log : List (ι × M)) (j : ι) (ms : List M) (i : ι) :
    messagesOf (log ++ ms.map fun m => (j, m)) i =
      if j = i then messagesOf log i ++ ms else messagesOf log i := by
  unfold messagesOf
  rw [List.filter_append, List.map_append]
  split
  · rename_i hi
    simp [hi, List.filter_map, Function.comp_def]
  · rename_i hi
    simp [hi, List.filter_map, Function.comp_def]

theorem mem_messagesOf {log : List (ι × M)} {e : ι × M} : e ∈ log ↔ e.2 ∈ messagesOf log e.1 := by
  unfold messagesOf
  constructor
  · intro h
    exact List.mem_map.mpr ⟨e, List.mem_filter.mpr ⟨h, by simp⟩, rfl⟩
  · intro h
    obtain ⟨e', hmem, heq⟩ := List.mem_map.mp h
    obtain ⟨hlog, hfst⟩ := List.mem_filter.mp hmem
    obtain rfl : e' = e := Prod.ext (by simpa using hfst) heq
    exact hlog

/-- If the messages of every line are images, they are so in one order. -/
theorem exists_order {β : Type} {log : List (ι × M)} {f : ι → List β} {g : β → M}
    (h : ∀ i, messagesOf log i = (f i).map g) :
    ∃ order : List (ι × β), log = order.map (fun e => (e.1, g e.2)) ∧
      ∀ i, messagesOf order i = f i := by
  induction log generalizing f with
  | nil => exact ⟨[], rfl, fun i => (List.map_eq_nil_iff.mp (h i).symm).symm⟩
  | cons e log ih =>
    obtain ⟨j, m⟩ := e
    have hj := h j
    rw [messagesOf_cons, if_pos rfl] at hj
    obtain ⟨b, bs, hbs, rfl, hrest⟩ := List.map_eq_cons_iff.mp hj.symm
    have hnext : ∀ i, messagesOf log i = (Function.update f j bs i).map g := by
      intro i
      by_cases hi : i = j
      · subst hi
        rw [Function.update_self, hrest]
      · rw [Function.update_of_ne hi, ← h i, messagesOf_cons, if_neg (Ne.symm hi)]
    obtain ⟨order, rfl, horder⟩ := ih hnext
    refine ⟨(j, b) :: order, rfl, ?_⟩
    intro i
    rw [messagesOf_cons, horder]
    by_cases hi : j = i
    · subst hi
      rw [if_pos rfl, Function.update_self, hbs]
    · rw [if_neg hi, Function.update_of_ne (Ne.symm hi)]

/-- The line has cut off these messages of the stream. Behind wrong items nothing is looked at. -/
def Line.Follows (frame : List α → Front M) (line : Line α) (stream : List α) (ms : List M) :
    Prop :=
  ∃ later, Cut frame stream ms (line.buffer ++ later) ∧ (frame line.buffer).Ends line.closed ∧
    (line.closed = false → later = [])

/-- So far the lines have been followed. -/
def Hub.Follows (frame : List α → Front M) (h : Hub ι α M) (arrivals : List (ι × List α)) : Prop :=
  ∀ i, (h.lines i).Follows frame (received arrivals i) (messagesOf h.log i)

theorem Hub.follows_fresh (hs : Stable frame) : (Hub.fresh : Hub ι α M).Follows frame [] := by
  intro i
  refine ⟨[], .nil _, ?_, fun _ => rfl⟩
  rw [show frame ((Hub.fresh : Hub ι α M).lines i).buffer = .more from hs.nil]
  rfl

theorem Line.Follows.piece (hs : Stable frame) {line : Line α} {stream piece : List α}
    {ms : List M} (h : line.Follows frame stream ms) (hopen : line.closed = false) {fuel : Nat}
    {d : Drained α M} (hd : drain frame fuel (line.buffer ++ piece) = some d) :
    Line.Follows frame ⟨d.rest, d.closed⟩ (stream ++ piece) (ms ++ d.messages) := by
  obtain ⟨later, hcut, -, hlater⟩ := h
  obtain rfl := hlater hopen
  rw [List.append_nil] at hcut
  obtain ⟨hrest, hends⟩ := drain_whole hd
  refine ⟨[], ?_, hends, fun _ => rfl⟩
  rw [List.append_nil]
  exact (hcut.append hs piece).trans hrest

theorem Line.Follows.closed (hs : Stable frame) {line : Line α} {stream : List α} {ms : List M}
    (h : line.Follows frame stream ms) (hclosed : line.closed = true) (piece : List α) :
    line.Follows frame (stream ++ piece) ms := by
  obtain ⟨later, hcut, hends, -⟩ := h
  refine ⟨later ++ piece, ?_, hends, fun hopen => ?_⟩
  · rw [← List.append_assoc]
    exact hcut.append hs piece
  · rw [hclosed] at hopen
    cases hopen

/-- A piece that arrives is followed on its line, and the other lines stay as they are. -/
theorem Hub.Follows.read (hs : Stable frame) {h h' : Hub ι α M} {arrivals : List (ι × List α)}
    {a : ι × List α} {fuel : Nat} (hfollows : h.Follows frame arrivals)
    (hread : h.read (drain frame fuel) a = some h') : h'.Follows frame (arrivals ++ [a]) := by
  intro i
  have hi := hfollows i
  rw [received_concat]
  unfold Hub.read at hread
  split at hread
  · rename_i hclosed
    obtain rfl := Option.some.inj hread
    split
    · rename_i hai
      rw [hai] at hclosed
      exact hi.closed hs hclosed a.2
    · exact hi
  · rename_i hopen
    obtain ⟨d, hd, rfl⟩ := Option.map_eq_some_iff.mp hread
    dsimp only
    rw [messagesOf_append]
    split
    · rename_i hai
      subst hai
      rw [Function.update_self]
      exact hi.piece hs (by simpa using hopen) hd
    · rename_i hai
      rw [Function.update_of_ne (Ne.symm hai)]
      exact hi

/-- In any order of arrival each line is followed. -/
theorem Hub.run_follows (hs : Stable frame) {arrivals : List (ι × List α)} {fuel : Nat}
    {h : Hub ι α M} (hrun : Hub.run (drain frame fuel) arrivals = some h) :
    h.Follows frame arrivals := by
  induction arrivals using List.reverseRecOn generalizing h with
  | nil =>
    obtain rfl := Option.some.inj hrun
    exact Hub.follows_fresh hs
  | append_singleton arrivals a ih =>
    rw [Hub.run_concat] at hrun
    obtain ⟨h₁, hrun₁, hread⟩ := Option.bind_eq_some_iff.mp hrun
    exact (ih hrun₁).read hs hread

theorem Hub.read_mono {fuel fuel' : Nat} (hle : fuel ≤ fuel') {h h' : Hub ι α M}
    {a : ι × List α} (hread : h.read (drain frame fuel) a = some h') :
    h.read (drain frame fuel') a = some h' := by
  unfold Hub.read at hread ⊢
  split
  · rename_i hclosed
    rwa [if_pos hclosed] at hread
  · rename_i hopen
    rw [if_neg hopen] at hread
    obtain ⟨d, hd, rfl⟩ := Option.map_eq_some_iff.mp hread
    rw [drain_mono hle hd]
    rfl

theorem Hub.run_mono {fuel fuel' : Nat} (hle : fuel ≤ fuel') {arrivals : List (ι × List α)}
    {h : Hub ι α M} (hrun : Hub.run (drain frame fuel) arrivals = some h) :
    Hub.run (drain frame fuel') arrivals = some h := by
  unfold Hub.run at hrun ⊢
  generalize Hub.fresh = h₀ at hrun ⊢
  induction arrivals generalizing h₀ with
  | nil => exact hrun
  | cons a arrivals ih =>
    rw [List.foldlM_cons] at hrun ⊢
    obtain ⟨h₁, hread, hrest⟩ := Option.bind_eq_some_iff.mp hrun
    rw [Hub.read_mono hle hread]
    exact ih h₁ hrest

/-- The messages of a line that is followed are those of its stream. -/
theorem Line.Follows.whole (hs : Stable frame) {line : Line α} {stream : List α} {ms : List M}
    (h : line.Follows frame stream ms) :
    ∃ rest, Whole frame stream ms rest line.closed ∧
      (line.closed = false → rest = line.buffer) := by
  obtain ⟨later, hcut, hends, hlater⟩ := h
  refine ⟨line.buffer ++ later, ⟨hcut, ?_⟩, fun hopen => by rw [hlater hopen, List.append_nil]⟩
  cases hclosed : line.closed with
  | false =>
    rw [hlater hclosed, List.append_nil, ← hclosed]
    exact hends
  | true =>
    rw [hclosed] at hends
    cases hframe : frame line.buffer with
    | more =>
      rw [hframe] at hends
      cases hends
    | bad =>
      rw [hs.bad hframe later]
      rfl
    | message m size =>
      rw [hframe] at hends
      cases hends

theorem whole_nil (hs : Stable frame) : Whole frame [] [] [] false :=
  ⟨.nil [], by rw [hs.nil]; rfl⟩

/-- Another way to cut makes the same run if it agrees on what is left of the streams. -/
theorem Hub.run_congr (hs : Stable frame) {cut : List α → Option (Drained α M)} {fuel : Nat}
    {arrivals : List (ι × List α)}
    (hcut : ∀ i s ms rest, s <+: received arrivals i → Cut frame s ms rest →
      cut rest = drain frame fuel rest) :
    Hub.run cut arrivals = Hub.run (drain frame fuel) arrivals := by
  induction arrivals using List.reverseRecOn with
  | nil => rfl
  | append_singleton arrivals a ih =>
    have hgrow : ∀ i, received arrivals i <+: received (arrivals ++ [a]) i := by
      intro i
      rw [received_concat]
      split
      · exact List.prefix_append _ _
      · exact List.prefix_rfl
    rw [Hub.run_concat, Hub.run_concat,
      ih fun i s ms rest hs => hcut i s ms rest (hs.trans (hgrow i))]
    cases hrun : (Hub.run (drain frame fuel) arrivals : Option (Hub ι α M)) with
    | none => rfl
    | some h =>
      show h.read cut a = h.read (drain frame fuel) a
      unfold Hub.read
      split
      · rfl
      · rename_i hopen
        obtain ⟨later, hfollow, -, hlater⟩ := Hub.run_follows hs hrun a.1
        obtain rfl := hlater (by simpa using hopen)
        rw [List.append_nil] at hfollow
        have hreceived : received arrivals a.1 ++ a.2 = received (arrivals ++ [a]) a.1 := by
          rw [received_concat, if_pos rfl]
        rw [hcut a.1 _ _ _ List.prefix_rfl (hreceived ▸ hfollow.append hs a.2)]

/-- The hub gets through the pieces if and only if the stream of each line can be cut as a
    whole. -/
theorem Hub.run_isSome_iff (hs : Stable frame) {arrivals : List (ι × List α)} :
    (∃ fuel h, (Hub.run (drain frame fuel) arrivals : Option (Hub ι α M)) = some h) ↔
      ∀ i, ∃ ms rest closed, Whole frame (received arrivals i) ms rest closed := by
  constructor
  · rintro ⟨fuel, h, hrun⟩ i
    obtain ⟨rest, hwhole, -⟩ := (Hub.run_follows hs hrun i).whole hs
    exact ⟨_, rest, _, hwhole⟩
  · intro hall
    induction arrivals using List.reverseRecOn with
    | nil => exact ⟨0, Hub.fresh, rfl⟩
    | append_singleton arrivals a ih =>
      have hbefore : ∀ i, ∃ ms rest closed, Whole frame (received arrivals i) ms rest closed := by
        intro i
        obtain ⟨ms, rest, closed, hwhole⟩ := hall i
        rw [received_concat] at hwhole
        split at hwhole
        · exact hwhole.of_append hs
        · exact ⟨ms, rest, closed, hwhole⟩
      obtain ⟨fuel, h, hrun⟩ := ih hbefore
      obtain ⟨later, hcut, hends, hlater⟩ := Hub.run_follows hs hrun a.1
      -- the piece ends within what can be cut of the whole stream
      have hread : ∃ fuel' h', h.read (drain frame fuel') a = some h' := by
        by_cases hclosed : (h.lines a.1).closed = true
        · exact ⟨0, h, if_pos hclosed⟩
        · obtain rfl := hlater (by simpa using hclosed)
          rw [List.append_nil] at hcut
          obtain ⟨ms, rest, closed, hwhole⟩ := hall a.1
          rw [received_concat, if_pos rfl] at hwhole
          obtain ⟨ms'', -, hnext⟩ := hwhole.split (hcut.append hs a.2)
          have hdrain := drain_of_whole hnext (Nat.lt_succ_self _)
          exact ⟨_, _, (if_neg hclosed).trans (congrArg _ hdrain)⟩
      obtain ⟨fuel', h', hread⟩ := hread
      refine ⟨max fuel fuel', h', ?_⟩
      have hrun' := Hub.run_mono (Nat.le_max_left fuel fuel') hrun
      have hread' := Hub.read_mono (Nat.le_max_right fuel fuel') hread
      rw [Hub.run_concat, hrun']
      exact hread'

end SmartWarehouse.Lib
