/-
  Connections: `http_cb` of `mongoose.c` over the bytes of many connections.

  Whenever bytes are received on a connection, `http_cb` passes the messages that are there to the
  handler and takes them off the buffer. As long as no message is chunked the messages of a
  connection depend on its bytes alone, not on how they arrive in pieces, or between the bytes of
  other connections (`http_arrivals`). The loop of `http_cb` ends, and the body of every message
  lies within the message, unless a `Content-Length` is negative and not longer than its head
  (`http_safe_iff`). The bytes are those that `read_conn` gives to `http_cb`: that it closes a
  connection with more than `MG_MAX_RECV_BUF_SIZE` bytes in its buffer is left out.
-/
import SmartWarehouse.Server.HttpParse
import SmartWarehouse.Server.Chunks
import SmartWarehouse.Lib.Framing

namespace SmartWarehouse.Server

open SmartWarehouse.Lib

/-! ## Messages -/

/-- A message as the handler gets it; there is no body if it reaches beyond the message. -/
structure HttpMsg where
  head : HttpHead
  body : Option (List Char)

/-- The body of the message at the start of the buffer. -/
def HttpHead.bodyIn (hm : HttpHead) (recv : List Char) : Option (List Char) :=
  if hm.len + hm.bodyLen.toNat ≤ hm.messageLen.toNat then
    some (((recv.take hm.messageLen.toNat).drop hm.len).take hm.bodyLen.toNat)
  else none

def mgStrstr (haystack needle : List Char) : Bool :=
  haystack.tails.any fun s => needle.isPrefixOf s

/-- `mg_is_chunked`. -/
def HttpHead.isChunked (hm : HttpHead) : Bool :=
  match mgHttpGetHeader hm.headers "Transfer-Encoding".toList with
  | some te => mgStrstr te "chunked".toList
  | none => false

/-- `walkchunks` for the message and the buffer. -/
def HttpHead.walk (hm : HttpHead) (recv : List Char) : HttpHead × List Char :=
  let walked := walkchunks (recv.drop hm.len)
  match walked.body with
  | some body =>
    ({ hm with
        bodyLen := BitVec.ofNat 64 body.length
        messageLen := BitVec.ofNat 64 (body.length + hm.len) },
      recv.take hm.len ++ walked.recv)
  | none => (hm, recv)

/-- `http_cb` for bytes that have been received: the messages for the handler, what stays in the
    buffer, and whether the connection is closed by `mg_error`. The events of chunks, which the
    handler ignores, are left out. -/
def httpCbRead : Nat → List Char → Option (Drained Char HttpMsg)
  | 0, _ => none
  | fuel + 1, recv =>
    match mgHttpParse recv with
    | .bad => some ⟨[], recv, true⟩
    | .more => some ⟨[], recv, false⟩
    | .head hm =>
      let (hm, recv) := if hm.isChunked then hm.walk recv else (hm, recv)
      if hm.messageLen.toNat ≤ recv.length then
        (httpCbRead fuel (recv.drop hm.messageLen.toNat)).map fun d =>
          { d with messages := ⟨hm, hm.bodyIn recv⟩ :: d.messages }
      else some ⟨[], recv, false⟩

/-- `http_cb` for a connection that is closed: a message with a head is passed on with the body
    that is there. -/
def httpCbClose (recv : List Char) : Option HttpMsg :=
  match mgHttpParse recv with
  | .head hm =>
    some ⟨{ hm with
        messageLen := BitVec.ofNat 64 recv.length
        bodyLen := BitVec.ofNat 64 recv.length - BitVec.ofNat 64 hm.len },
      some (recv.drop hm.len)⟩
  | _ => none

/-- Bytes are received on the connections. -/
def httpServe {ι : Type} [DecidableEq ι] (fuel : Nat) (arrivals : List (ι × List Char)) :
    Option (Hub ι Char HttpMsg) :=
  Hub.run (httpCbRead fuel) arrivals

/-! ## Framing -/

/-- What a buffer begins with, if no message is chunked. -/
def httpFrame (recv : List Char) : Front HttpMsg :=
  match mgHttpParse recv with
  | .bad => .bad
  | .more => .more
  | .head hm =>
    if hm.messageLen.toNat ≤ recv.length then
      .message ⟨hm, hm.bodyIn recv⟩ hm.messageLen.toNat
    else .more

theorem httpFrame_head {recv : List Char} {hm : HttpHead} (h : mgHttpParse recv = .head hm) :
    httpFrame recv =
      if hm.messageLen.toNat ≤ recv.length then
        .message ⟨hm, hm.bodyIn recv⟩ hm.messageLen.toNat
      else .more := by
  unfold httpFrame
  rw [h]

theorem httpFrame_message {recv : List Char} {m : HttpMsg} {size : Nat}
    (h : httpFrame recv = .message m size) :
    ∃ hm, mgHttpParse recv = .head hm ∧ hm.messageLen.toNat ≤ recv.length ∧
      m = ⟨hm, hm.bodyIn recv⟩ ∧ size = hm.messageLen.toNat := by
  unfold httpFrame at h
  split at h
  · cases h
  · cases h
  · rename_i hm hparse
    split at h
    · rename_i hle
      obtain ⟨rfl, rfl⟩ := Front.message.inj h
      exact ⟨hm, hparse, hle, rfl, rfl⟩
    · cases h

theorem bodyIn_append {hm : HttpHead} {recv : List Char}
    (h : hm.messageLen.toNat ≤ recv.length) (t : List Char) :
    hm.bodyIn (recv ++ t) = hm.bodyIn recv := by
  unfold HttpHead.bodyIn
  rw [List.take_append_of_le_length h]

/-- More bytes do not change a message that is there. -/
theorem httpFrame_stable : Stable httpFrame where
  nil := rfl
  bad := by
    intro s h t
    have hparse : mgHttpParse s = .bad := by
      unfold httpFrame at h
      split at h
      · assumption
      · cases h
      · split at h
        · cases h
        · cases h
    have hmore : mgHttpParse s ≠ .more := by
      rw [hparse]
      exact Parsed.noConfusion
    unfold httpFrame
    rw [mgHttpParse_append hmore, hparse]
  message := by
    intro s m size h t
    obtain ⟨hm, hparse, hle, rfl, rfl⟩ := httpFrame_message h
    have hmore : mgHttpParse s ≠ .more := by
      rw [hparse]
      exact Parsed.noConfusion
    have hparse' : mgHttpParse (s ++ t) = .head hm := (mgHttpParse_append hmore t).trans hparse
    have hle' : hm.messageLen.toNat ≤ (s ++ t).length := by
      rw [List.length_append]
      omega
    rw [httpFrame_head hparse', if_pos hle', bodyIn_append hle]
  size_le := by
    intro s m size h
    obtain ⟨hm, -, hle, -, rfl⟩ := httpFrame_message h
    exact hle

/-- A head that is met in a stream, and the bytes from it on. -/
def Meets (stream rest : List Char) (hm : HttpHead) : Prop :=
  ∃ ms, Cut httpFrame stream ms rest ∧ mgHttpParse rest = .head hm

/-- No message of the stream is chunked. -/
def Plain (stream : List Char) : Prop :=
  ∀ rest hm, Meets stream rest hm → hm.isChunked = false

theorem Meets.append {stream rest : List Char} {hm : HttpHead} (h : Meets stream rest hm)
    (t : List Char) : Meets (stream ++ t) (rest ++ t) hm := by
  obtain ⟨ms, hcut, hparse⟩ := h
  refine ⟨ms, hcut.append httpFrame_stable t, ?_⟩
  have hmore : mgHttpParse rest ≠ .more := by
    rw [hparse]
    exact Parsed.noConfusion
  rw [mgHttpParse_append hmore, hparse]

theorem Plain.of_cut {stream s rest : List Char} (h : Plain stream) (hs : s <+: stream)
    {ms : List HttpMsg} (hcut : Cut httpFrame s ms rest) : Plain rest := by
  rintro rest' hm ⟨ms', hcut', hparse⟩
  obtain ⟨t, rfl⟩ := hs
  have hmeets : Meets s rest' hm := ⟨ms ++ ms', hcut.trans hcut', hparse⟩
  exact h _ hm (hmeets.append t)

/-- Without chunked messages the loop of `http_cb` cuts off the messages that the framing says. -/
theorem httpCbRead_plain {recv : List Char} (h : Plain recv) (fuel : Nat) :
    httpCbRead fuel recv = drain httpFrame fuel recv := by
  induction fuel generalizing recv with
  | zero => rfl
  | succ fuel ih =>
    rw [httpCbRead, drain]
    cases hparse : mgHttpParse recv with
    | more =>
      unfold httpFrame
      rw [hparse]
    | bad =>
      unfold httpFrame
      rw [hparse]
    | head hm =>
      have hplain : ¬ (hm.isChunked = true) := by
        rw [h recv hm ⟨[], .nil recv, hparse⟩]
        exact Bool.false_ne_true
      have hframe := httpFrame_head hparse
      dsimp only
      rw [if_neg hplain, hframe]
      by_cases hle : hm.messageLen.toNat ≤ recv.length
      · rw [if_pos hle] at hframe ⊢
        rw [if_pos hle]
        dsimp only
        rw [ih (h.of_cut List.prefix_rfl (.cons hframe (.nil _)))]
      · rw [if_neg hle, if_neg hle]

/-! ## Lengths -/

/-- No length in the stream reaches back from the end of its head into the message. -/
def NoneReachesBack (stream : List Char) : Prop :=
  ∀ rest hm, Meets stream rest hm → ∀ cl, hm.Negative cl → hm.len + cl < 0

/-- A length that reaches back makes a message of what is there, without a body in it. -/
theorem httpFrame_reachesBack {recv : List Char} (hsize : recv.length < 2 ^ 63) {hm : HttpHead}
    (h : mgHttpParse recv = .head hm) {cl : Int} (hneg : hm.Negative cl) (hback : 0 ≤ hm.len + cl) :
    httpFrame recv = .message ⟨hm, none⟩ hm.messageLen.toNat := by
  obtain ⟨hcomplete, -, hle⟩ := mgHttpParse_complete h
  obtain ⟨hlen, hbeyond⟩ := (lengths_of_negative hcomplete (by omega) hneg).1 hback
  have hlt := hneg.2.1
  rw [httpFrame_head h, if_pos (by omega)]
  unfold HttpHead.bodyIn
  rw [if_neg (by omega)]

/-- Any other message has its body, and is not empty. -/
theorem httpFrame_inside {recv : List Char} (hsize : recv.length < 2 ^ 63) {hm : HttpHead}
    (h : mgHttpParse recv = .head hm) (hback : ∀ cl, hm.Negative cl → hm.len + cl < 0)
    (hle : hm.messageLen.toNat ≤ recv.length) :
    0 < hm.messageLen.toNat ∧ hm.bodyIn recv ≠ none := by
  obtain ⟨hcomplete, hpos, hlen⟩ := mgHttpParse_complete h
  have hnonneg : ∀ cl, ¬ hm.Negative cl := by
    intro cl hneg
    have hlong := (lengths_of_negative hcomplete (by omega) hneg).2 (hback cl hneg)
    omega
  obtain ⟨-, hendless⟩ | ⟨-, hfit⟩ := lengths_of_nonneg hcomplete (by omega) hnonneg
  · have hlong : (-1 : BitVec 64).toNat = 2 ^ 64 - 1 := by decide
    rw [hendless, hlong] at hle
    omega
  · refine ⟨by omega, ?_⟩
    unfold HttpHead.bodyIn
    rw [if_pos (le_of_eq hfit)]
    exact Option.some_ne_none _

theorem whole_of_noneReachesBack {stream : List Char} (hsize : stream.length < 2 ^ 63)
    (h : NoneReachesBack stream) :
    ∃ ms rest closed, Whole httpFrame stream ms rest closed ∧ ∀ m ∈ ms, m.body ≠ none := by
  induction hn : stream.length using Nat.strongRecOn generalizing stream with
  | ind n ih =>
    cases hframe : httpFrame stream with
    | more => exact ⟨[], stream, false, ⟨.nil _, by rw [hframe]; rfl⟩, nofun⟩
    | bad => exact ⟨[], stream, true, ⟨.nil _, by rw [hframe]; rfl⟩, nofun⟩
    | message m size =>
      obtain ⟨hm, hparse, hle, rfl, rfl⟩ := httpFrame_message hframe
      obtain ⟨hpos, hbody⟩ :=
        httpFrame_inside hsize hparse (h stream hm ⟨[], .nil _, hparse⟩) hle
      have hshort : (stream.drop hm.messageLen.toNat).length < n := by
        rw [List.length_drop]
        omega
      have hrest : NoneReachesBack (stream.drop hm.messageLen.toNat) := by
        rintro rest hm' ⟨ms, hcut, hparse'⟩
        exact h rest hm' ⟨_, .cons hframe hcut, hparse'⟩
      obtain ⟨ms, rest, closed, ⟨hcut, hends⟩, hms⟩ := ih _ hshort (by omega) hrest rfl
      refine ⟨_, rest, closed, ⟨.cons hframe hcut, hends⟩, ?_⟩
      intro m hmem
      obtain rfl | hmem := List.mem_cons.mp hmem
      · exact hbody
      · exact hms m hmem

section
variable {ι : Type} [DecidableEq ι]

theorem httpServe_plain {arrivals : List (ι × List Char)}
    (h : ∀ i, Plain (received arrivals i)) (fuel : Nat) :
    httpServe fuel arrivals = Hub.run (drain httpFrame fuel) arrivals :=
  Hub.run_congr httpFrame_stable fun i _ _ _ hs hcut =>
    httpCbRead_plain ((h i).of_cut hs hcut) fuel

/-- The messages of a connection do not depend on how its bytes arrive, nor does the end of the
    loop. -/
theorem http_arrivals {arrivals arrivals' : List (ι × List Char)}
    (hsame : ∀ i, received arrivals i = received arrivals' i)
    (hplain : ∀ i, Plain (received arrivals i)) :
    ((∃ fuel h, httpServe fuel arrivals = some h) ↔
        ∃ fuel h, httpServe fuel arrivals' = some h) ∧
      ∀ fuel fuel' h h', httpServe fuel arrivals = some h → httpServe fuel' arrivals' = some h' →
        ∀ i, messagesOf h.log i = messagesOf h'.log i ∧
          (h.lines i).closed = (h'.lines i).closed ∧
          ((h.lines i).closed = false → (h.lines i).buffer = (h'.lines i).buffer) := by
  have hplain' : ∀ i, Plain (received arrivals' i) := fun i => hsame i ▸ hplain i
  constructor
  · simp only [httpServe_plain hplain, httpServe_plain hplain']
    rw [Hub.run_isSome_iff httpFrame_stable, Hub.run_isSome_iff httpFrame_stable]
    simp only [hsame]
  · intro fuel fuel' h h' hrun hrun' i
    rw [httpServe_plain hplain] at hrun
    rw [httpServe_plain hplain'] at hrun'
    obtain ⟨rest, hwhole, hrest⟩ := (Hub.run_follows httpFrame_stable hrun i).whole httpFrame_stable
    obtain ⟨rest', hwhole', hrest'⟩ :=
      (Hub.run_follows httpFrame_stable hrun' i).whole httpFrame_stable
    rw [hsame] at hwhole
    obtain ⟨hms, hrests, hclosed⟩ := hwhole.unique hwhole'
    refine ⟨hms, hclosed, fun hopen => ?_⟩
    rw [← hrest hopen, ← hrest' (hclosed ▸ hopen), hrests]

/-- The shortest head. -/
def shortest : List Char := "G /\n\n".toList

theorem plain_shortest : Plain shortest := by
  have hparse : mgHttpParse shortest =
      .head ⟨5, ['G'], ['/'], [], [], List.replicate 40 ([], []), 0, 5⟩ := rfl
  rintro rest hm ⟨ms, hcut, h⟩
  cases hcut with
  | nil =>
    obtain rfl := Parsed.head.inj (hparse.symm.trans h)
    rfl
  | @cons _ _ m size ms hframe hcut =>
    obtain ⟨hm', hparse', -, -, rfl⟩ := httpFrame_message hframe
    obtain rfl := Parsed.head.inj (hparse.symm.trans hparse')
    cases hcut with
    | nil => cases h
    | cons hframe' _ => cases hframe'

/-- Two connections whose bytes arrive in other pieces and in another order. -/
theorem http_arrivals_pieces : ∃ fuel fuel' h h',
    httpServe fuel [(true, ['G', ' ']), (false, shortest), (true, ['/', '\n', '\n'])] = some h ∧
      httpServe fuel' [(true, shortest), (false, ['G']), (false, [' ', '/', '\n', '\n'])] =
        some h' ∧
      h.log.map Prod.fst = [false, true] ∧ h'.log.map Prod.fst = [true, false] ∧
      ∀ i, messagesOf h.log i = messagesOf h'.log i := by
  have hreceived : ∀ i,
      received [(true, ['G', ' ']), (false, shortest), (true, ['/', '\n', '\n'])] i =
        received [(true, shortest), (false, ['G']), (false, [' ', '/', '\n', '\n'])] i := by
    intro i
    cases i with
    | false => rfl
    | true => rfl
  have hplain : ∀ i, Plain
      (received [(true, ['G', ' ']), (false, shortest), (true, ['/', '\n', '\n'])] i) := by
    intro i
    cases i with
    | false => exact plain_shortest
    | true => exact plain_shortest
  have hall := (http_arrivals hreceived hplain).2 2 2 _ _ rfl rfl
  exact ⟨2, 2, _, _, rfl, rfl, rfl, rfl, fun i => (hall i).1⟩

/-- The loop of `http_cb` always ends and every message has its body inside, if and only if no
    length reaches back into its message. -/
theorem http_safe_iff {arrivals : List (ι × List Char)} (hplain : ∀ i, Plain (received arrivals i))
    (hsize : ∀ i, (received arrivals i).length < 2 ^ 63) :
    (∃ fuel h, httpServe fuel arrivals = some h ∧ ∀ e ∈ h.log, e.2.body ≠ none) ↔
      ∀ i, NoneReachesBack (received arrivals i) := by
  simp only [httpServe_plain hplain]
  constructor
  · rintro ⟨fuel, h, hrun, hbodies⟩ i rest hm ⟨ms, hcut, hparse⟩ cl hneg
    by_contra hback
    have hlength : rest.length < 2 ^ 63 :=
      Nat.lt_of_le_of_lt hcut.suffix.length_le (hsize i)
    have hframe := httpFrame_reachesBack hlength hparse hneg (by omega)
    obtain ⟨rest', hwhole, -⟩ := (Hub.run_follows httpFrame_stable hrun i).whole httpFrame_stable
    obtain ⟨ms'', hms, hcut', hends⟩ := hwhole.split hcut
    cases hcut' with
    | nil =>
      rw [hframe] at hends
      cases hends
    | @cons _ _ m size ms'' hframe' hcut' =>
      obtain ⟨rfl, -⟩ := Front.message.inj (hframe.symm.trans hframe')
      have hmem : (⟨hm, none⟩ : HttpMsg) ∈ messagesOf h.log i := by
        rw [hms]
        exact List.mem_append_right _ List.mem_cons_self
      exact hbodies (i, ⟨hm, none⟩) (mem_messagesOf.mpr hmem) rfl
  · intro hall
    have hwholes := fun i => whole_of_noneReachesBack (hsize i) (hall i)
    obtain ⟨fuel, h, hrun⟩ := (Hub.run_isSome_iff httpFrame_stable).mpr fun i => by
      obtain ⟨ms, rest, closed, hwhole, -⟩ := hwholes i
      exact ⟨ms, rest, closed, hwhole⟩
    refine ⟨fuel, h, hrun, ?_⟩
    rintro ⟨i, m⟩ hmem
    obtain ⟨ms, rest, closed, hwhole, hms⟩ := hwholes i
    obtain ⟨rest', hwhole', -⟩ := (Hub.run_follows httpFrame_stable hrun i).whole httpFrame_stable
    obtain ⟨hmessages, -, -⟩ := hwhole.unique hwhole'
    exact hms m (hmessages ▸ mem_messagesOf.mp hmem)

/-- A head of 24 bytes whose length reaches back over the last two. -/
def reachingBack : List Char := "G /\nContent-Length: -2\n\n".toList

theorem http_safe_iff_negative :
    ¬ ∃ fuel h, httpServe fuel [((), reachingBack)] = some h ∧ ∀ e ∈ h.log, e.2.body ≠ none := by
  have hparse : mgHttpParse reachingBack =
      .head ⟨24, ['G'], ['/'], [], [], ("Content-Length".toList, ['-', '2']) ::
        List.replicate 39 ([], []), -2, 22⟩ := rfl
  have hplain : ∀ i, Plain (received [((), reachingBack)] i) := by
    rintro i rest hm ⟨ms, hcut, h⟩
    cases hcut with
    | nil =>
      obtain rfl := Parsed.head.inj (hparse.symm.trans h)
      rfl
    | @cons _ _ m size ms hframe hcut =>
      obtain ⟨hm', hparse', -, -, rfl⟩ := httpFrame_message hframe
      obtain rfl := Parsed.head.inj (hparse.symm.trans hparse')
      cases hcut with
      | nil => cases h
      | cons hframe' _ => cases hframe'
  have hsize : ∀ i, (received [((), reachingBack)] i).length < 2 ^ 63 := by
    intro i
    cases i
    decide
  rw [http_safe_iff hplain hsize]
  intro hnone
  have hback := hnone () reachingBack _ ⟨[], .nil _, hparse⟩ (-2) ⟨rfl, by decide, by decide⟩
  exact absurd hback (by decide)

end

end SmartWarehouse.Server
