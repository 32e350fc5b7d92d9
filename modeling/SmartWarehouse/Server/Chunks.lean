/-
  Chunked bodies: `mg_http_printf_chunk` against `walkchunks` of `mongoose.c`.

  `walkchunks` looks at what has arrived of a body, fires an event for each chunk that is there,
  and puts the body together at the empty chunk. Of the bytes that `mg_http_printf_chunk` sends
  it makes the same chunks, however they arrive in pieces (`chunks_read_back`); but the body is put
  together only of the chunks below 16 bytes, since the test for a length line looks at the last
  chunk's length. The replies of the server are made of chunks of at most 15 bytes, so they are
  read back whole (`reply_read_back`).
-/
import SmartWarehouse.Server.FormPosts

namespace SmartWarehouse.Server

open SmartWarehouse.Lib

/-! ## Chunks sent -/

/-- The `%X` of a length. -/
def upperHex (n : Nat) : List Char := (Nat.toDigits 16 n).map Char.toUpper

/-- The bytes of `mg_http_printf_chunk` for the text it prints. -/
def mgHttpPrintfChunk (text : List Char) : List Char :=
  upperHex text.length ++ '\r' :: '\n' :: (text ++ ['\r', '\n'])

/-! ## Chunks received -/

/-- `mg_unhex_nimble` of any byte. -/
def mgUnhexNimbleByte (c : Char) : BitVec 8 :=
  if '0' ≤ c ∧ c ≤ '9' then BitVec.ofNat 8 c.toNat - BitVec.ofNat 8 '0'.toNat
  else if 'A' ≤ c ∧ c ≤ 'F' then BitVec.ofNat 8 c.toNat - BitVec.ofNat 8 '7'.toNat
  else BitVec.ofNat 8 c.toNat - BitVec.ofNat 8 'W'.toNat

/-- `mg_unhexn`, with an `unsigned long` of 32 bits. -/
def mgUnhexn (s : List Char) : BitVec 32 :=
  s.foldl (fun v c => v <<< 4 ||| (mgUnhexNimbleByte c).setWidth 32) 0

/-- The first loop of `get_chunk_length` from index `i`, which compares `i` with the code of the
    line feed. -/
def digitsEnd : List Char → Nat → Nat
  | [], i => i
  | c :: rest, i => if c ≠ '\r' ∧ i ≠ '\n'.toNat then digitsEnd rest (i + 1) else i

/-- The second loop. -/
def lineEnd : List Char → Nat → Nat
  | [], i => i
  | c :: rest, i => if c = '\r' ∨ i = '\n'.toNat then lineEnd rest (i + 1) else i

/-- The return value, which is 0 while the chunk is not there as a whole, and `ll`. -/
def getChunkLength (buf : List Char) : Nat × Nat :=
  let digits := digitsEnd buf 0
  let n := (mgUnhexn (buf.take digits)).toNat
  let i := lineEnd (buf.drop digits) digits
  (if i < buf.length ∧ i + n + 2 < buf.length then i + n + 3 else 0, i + 1)

/-- The loop over the chunks: the texts of the events, and the length of the empty chunk if it is
    reached. -/
def walkFrom (buf : List Char) : List (List Char) × Option Nat :=
  if _hbuf : buf = [] then ([], none)
  else
    let (cl, ll) := getChunkLength buf
    if _hcl : cl = 0 then ([], none)
    else
      let chunk := (buf.drop ll).take (if cl < ll + 2 then 0 else cl - ll - 2)
      if cl ≤ 5 then ([chunk], some cl)
      else
        let (events, last) := walkFrom (buf.drop cl)
        (chunk :: events, last)
termination_by buf.length
decreasing_by
  have := List.length_pos_iff.mpr _hbuf
  rw [List.length_drop]
  omega

/-- The loop that puts the body together, and the offset where it ends. Its `n` looks at the
    length `cl` of the last chunk. -/
def bodyFrom (cl : Nat) (buf : List Char) : List Char × Nat :=
  if _hbuf : buf = [] then ([], 0)
  else
    let (cl2, ll) := getChunkLength buf
    let piece := (buf.drop ll).take (if cl < ll + 2 then 0 else cl2 - ll - 2)
    if cl2 ≤ 5 then (piece, cl2)
    else
      let (body, off) := bodyFrom cl (buf.drop cl2)
      (piece ++ body, cl2 + off)
termination_by buf.length
decreasing_by
  have := List.length_pos_iff.mpr _hbuf
  rw [List.length_drop]
  omega

/-- The texts of the events, the body if the message is complete, and the bytes of the buffer
    behind the head. -/
structure Walked where
  events : List (List Char)
  body : Option (List Char)
  recv : List Char

/-- `walkchunks`, for a handler that deletes no chunk. -/
def walkchunks (buf : List Char) : Walked :=
  match walkFrom buf with
  | (events, none) => ⟨events, none, buf⟩
  | (events, some cl) =>
    let (body, off) := bodyFrom cl buf
    -- the pieces have been moved to the front, and the length is reduced
    ⟨events, some body, (body ++ buf.drop body.length).take (buf.length - (off - body.length))⟩

/-! ## One chunk -/

theorem upperHex_digit : ∀ n : Fin 16, n.val.digitChar.toUpper ≠ '\r' ∧
    (mgUnhexNimbleByte n.val.digitChar.toUpper).toNat = n := by
  decide

theorem upperHex_eq (n : Nat) :
    upperHex n = if n < 16 then [n.digitChar.toUpper]
      else upperHex (n / 16) ++ [(n % 16).digitChar.toUpper] := by
  unfold upperHex
  rw [Nat.toDigits_eq_if (by decide)]
  split
  · rfl
  · rw [List.map_append]
    rfl

theorem length_upperHex_pos (n : Nat) : 0 < (upperHex n).length := by
  rw [upperHex, List.length_map]
  exact Nat.length_toDigits_pos

theorem length_upperHex_le {n k : Nat} (hk : 0 < k) : (upperHex n).length ≤ k ↔ n < 16 ^ k := by
  rw [upperHex, List.length_map]
  exact Nat.length_toDigits_le_iff (by decide) hk

theorem upperHex_no_return (n : Nat) : ∀ c ∈ upperHex n, c ≠ '\r' := by
  induction n using Nat.strong_induction_on with
  | h n ih =>
    intro c hc
    rw [upperHex_eq] at hc
    split at hc
    · rename_i hn
      rw [List.mem_singleton.mp hc]
      exact (upperHex_digit ⟨n, hn⟩).1
    · obtain hc | hc := List.mem_append.mp hc
      · exact ih (n / 16) (by omega) c hc
      · rw [List.mem_singleton.mp hc]
        exact (upperHex_digit ⟨n % 16, by omega⟩).1

theorem mgUnhexn_append (s : List Char) (c : Char) :
    mgUnhexn (s ++ [c]) = mgUnhexn s <<< 4 ||| (mgUnhexNimbleByte c).setWidth 32 := by
  unfold mgUnhexn
  rw [List.foldl_append]
  rfl

theorem shift_or {v : BitVec 32} {d : BitVec 8} {n k : Nat} (hv : v.toNat = n)
    (hd : d.toNat = k) (hk : k < 16) (hn : 16 * n + k < 2 ^ 32) :
    (v <<< 4 ||| d.setWidth 32).toNat = 16 * n + k := by
  have hhigh : n <<< 4 % 2 ^ 32 = 2 ^ 4 * n := by
    rw [Nat.shiftLeft_eq, Nat.mul_comm, Nat.mod_eq_of_lt (by omega)]
  rw [BitVec.toNat_or, BitVec.toNat_shiftLeft, BitVec.toNat_setWidth, hv, hd, hhigh,
    Nat.mod_eq_of_lt (by omega), ← Nat.two_pow_add_eq_or_of_lt hk]

/-- The digits of a length are read back. -/
theorem mgUnhexn_upperHex {n : Nat} (hn : n < 2 ^ 32) : (mgUnhexn (upperHex n)).toNat = n := by
  induction n using Nat.strong_induction_on with
  | h n ih =>
    rw [upperHex_eq]
    split
    · rename_i hlt
      have hdigit := (upperHex_digit ⟨n, hlt⟩).2
      have hone := mgUnhexn_append [] n.digitChar.toUpper
      rw [List.nil_append] at hone
      rw [hone, shift_or (n := 0) rfl hdigit hlt (by simpa using hn)]
      simp
    · have hdigit := (upperHex_digit ⟨n % 16, by omega⟩).2
      have hhigh := ih (n / 16) (by omega) (by omega)
      rw [mgUnhexn_append, shift_or hhigh hdigit (by omega) (by dsimp only; omega)]
      exact Nat.div_add_mod n 16

theorem digitsEnd_sent {digits : List Char} (hdigits : ∀ c ∈ digits, c ≠ '\r')
    (rest : List Char) {i : Nat} (hi : i + digits.length ≤ 10) :
    digitsEnd (digits ++ '\r' :: rest) i = i + digits.length := by
  induction digits generalizing i with
  | nil => rfl
  | cons c digits ih =>
    rw [List.length_cons] at hi ⊢
    have hc : c ≠ '\r' ∧ i ≠ '\n'.toNat := by
      refine ⟨hdigits c List.mem_cons_self, ?_⟩
      show i ≠ 10
      omega
    rw [List.cons_append, digitsEnd, if_pos hc,
      ih (fun d hd => hdigits d (List.mem_cons_of_mem _ hd)) (by omega)]
    omega

theorem lineEnd_sent (rest : List Char) {i : Nat} (hi : i < 9) :
    lineEnd ('\r' :: '\n' :: rest) i = i + 1 := by
  have hend : ¬ ('\n' = '\r' ∨ i + 1 = '\n'.toNat) := by
    intro h
    obtain h | h := h
    · exact absurd h (by decide)
    · have hten : i + 1 = 10 := h
      omega
  rw [lineEnd, if_pos (Or.inl rfl), lineEnd, if_neg hend]

theorem length_mgHttpPrintfChunk (text : List Char) :
    (mgHttpPrintfChunk text).length = (upperHex text.length).length + text.length + 4 := by
  simp [mgHttpPrintfChunk]
  omega

/-- The chunk at the front of the buffer is recognised. -/
theorem getChunkLength_sent {text : List Char} (h : text.length < 2 ^ 31) (rest : List Char) :
    getChunkLength (mgHttpPrintfChunk text ++ rest) =
      ((mgHttpPrintfChunk text).length, (upperHex text.length).length + 2) := by
  have hlength : (upperHex text.length).length ≤ 8 :=
    (length_upperHex_le (by decide)).mpr (Nat.lt_trans h (by decide))
  have hshape : mgHttpPrintfChunk text ++ rest =
      upperHex text.length ++ '\r' :: ('\n' :: (text ++ ['\r', '\n']) ++ rest) := by
    simp [mgHttpPrintfChunk]
  have hdigits : digitsEnd (mgHttpPrintfChunk text ++ rest) 0 = (upperHex text.length).length := by
    rw [hshape, digitsEnd_sent (upperHex_no_return _) _ (by omega), Nat.zero_add]
  have hline : lineEnd ((mgHttpPrintfChunk text ++ rest).drop (upperHex text.length).length)
      (upperHex text.length).length = (upperHex text.length).length + 1 := by
    rw [hshape, List.drop_left, List.cons_append]
    exact lineEnd_sent _ (by omega)
  have hvalue : (mgUnhexn ((mgHttpPrintfChunk text ++ rest).take
      (upperHex text.length).length)).toNat = text.length := by
    rw [hshape, List.take_left]
    exact mgUnhexn_upperHex (Nat.lt_trans h (by decide))
  have htotal := length_mgHttpPrintfChunk text
  unfold getChunkLength
  rw [hdigits]
  dsimp only
  rw [hline, hvalue, List.length_append, if_pos (by omega)]
  ext
  · dsimp only
    omega
  · rfl

/-! ## Chunks that have not arrived -/

theorem le_lineEnd (buf : List Char) (i : Nat) : i ≤ lineEnd buf i := by
  fun_induction lineEnd buf i with
  | case1 i => exact Nat.le_refl i
  | case2 c rest i h ih => omega
  | case3 c rest i h => exact Nat.le_refl i

theorem digitsEnd_append {p : List Char} {i : Nat} (h : digitsEnd p i < i + p.length)
    (q : List Char) : digitsEnd (p ++ q) i = digitsEnd p i := by
  fun_induction digitsEnd p i with
  | case1 i => exact absurd h (Nat.lt_irrefl i)
  | case2 c rest i hc ih =>
    rw [List.length_cons] at h
    rw [List.cons_append, digitsEnd, if_pos hc]
    exact ih (by omega)
  | case3 c rest i hc => rw [List.cons_append, digitsEnd, if_neg hc]

theorem lineEnd_append {p : List Char} {i : Nat} (h : lineEnd p i < i + p.length)
    (q : List Char) : lineEnd (p ++ q) i = lineEnd p i := by
  fun_induction lineEnd p i with
  | case1 i => exact absurd h (Nat.lt_irrefl i)
  | case2 c rest i hc ih =>
    rw [List.length_cons] at h
    rw [List.cons_append, lineEnd, if_pos hc]
    exact ih (by omega)
  | case3 c rest i hc => rw [List.cons_append, lineEnd, if_neg hc]

/-- A chunk that is there stays there when more arrives. -/
theorem getChunkLength_append {p : List Char} (h : (getChunkLength p).1 ≠ 0) (q : List Char) :
    (getChunkLength (p ++ q)).1 = (getChunkLength p).1 ∧
      (getChunkLength p).1 ≤ p.length := by
  unfold getChunkLength at h ⊢
  dsimp only at h ⊢
  obtain ⟨hline, hchunk⟩ : lineEnd (p.drop (digitsEnd p 0)) (digitsEnd p 0) < p.length ∧
      lineEnd (p.drop (digitsEnd p 0)) (digitsEnd p 0) +
        (mgUnhexn (p.take (digitsEnd p 0))).toNat + 2 < p.length := by
    by_contra hnot
    rw [if_neg hnot] at h
    exact h rfl
  have hle := le_lineEnd (p.drop (digitsEnd p 0)) (digitsEnd p 0)
  have hdigits : digitsEnd (p ++ q) 0 = digitsEnd p 0 := digitsEnd_append (by omega) q
  have hlength : (p.drop (digitsEnd p 0)).length = p.length - digitsEnd p 0 := List.length_drop
  have hrest : lineEnd (p.drop (digitsEnd p 0) ++ q) (digitsEnd p 0) =
      lineEnd (p.drop (digitsEnd p 0)) (digitsEnd p 0) := lineEnd_append (by omega) q
  rw [hdigits, List.drop_append_of_le_length (by omega), hrest,
    List.take_append_of_le_length (by omega), List.length_append, if_pos (by omega),
    if_pos ⟨hline, hchunk⟩]
  exact ⟨rfl, by omega⟩

/-- A chunk of which some bytes are missing is not read. -/
theorem getChunkLength_take {text : List Char} (h : text.length < 2 ^ 31) {k : Nat}
    (hk : k < (mgHttpPrintfChunk text).length) :
    (getChunkLength ((mgHttpPrintfChunk text).take k)).1 = 0 := by
  by_contra hne
  obtain ⟨heq, hle⟩ := getChunkLength_append hne ((mgHttpPrintfChunk text).drop k)
  have hsent := getChunkLength_sent h []
  rw [List.append_nil] at hsent
  rw [List.take_append_drop, hsent] at heq
  rw [← heq, List.length_take] at hle
  dsimp only at hle
  omega

/-! ## A body of chunks -/

/-- The bytes of the chunks and the empty chunk. -/
def wire (chunks : List (List Char)) : List Char := (chunks ++ [[]]).flatMap mgHttpPrintfChunk

theorem wire_nil : wire [] = mgHttpPrintfChunk [] := by
  simp [wire]

theorem wire_cons (text : List Char) (chunks : List (List Char)) :
    wire (text :: chunks) = mgHttpPrintfChunk text ++ wire chunks := rfl

theorem mgHttpPrintfChunk_ne_nil (text rest : List Char) : mgHttpPrintfChunk text ++ rest ≠ [] := by
  simp [mgHttpPrintfChunk]

theorem drop_length_line (text rest : List Char) :
    (mgHttpPrintfChunk text ++ rest).drop ((upperHex text.length).length + 2) =
      text ++ '\r' :: '\n' :: rest := by
  have hshape : mgHttpPrintfChunk text ++ rest =
      (upperHex text.length ++ ['\r', '\n']) ++ (text ++ '\r' :: '\n' :: rest) := by
    simp [mgHttpPrintfChunk]
  rw [hshape]
  exact List.drop_left' (by simp)

theorem length_le_five_iff (text : List Char) :
    (mgHttpPrintfChunk text).length ≤ 5 ↔ text = [] := by
  have htotal := length_mgHttpPrintfChunk text
  have hpos := length_upperHex_pos text.length
  constructor
  · intro h
    exact List.length_eq_zero_iff.mp (by omega)
  · rintro rfl
    decide

theorem walkFrom_sent {text : List Char} (h : text.length < 2 ^ 31) (rest : List Char) :
    walkFrom (mgHttpPrintfChunk text ++ rest) =
      if text = [] then ([[]], some 5) else (text :: (walkFrom rest).1, (walkFrom rest).2) := by
  have htotal := length_mgHttpPrintfChunk text
  have hcl : ¬ (mgHttpPrintfChunk text).length = 0 := by omega
  have hchunk : ¬ (mgHttpPrintfChunk text).length < (upperHex text.length).length + 2 + 2 := by
    omega
  have hlength : (mgHttpPrintfChunk text).length - ((upperHex text.length).length + 2) - 2 =
      text.length := by
    omega
  rw [walkFrom, dif_neg (mgHttpPrintfChunk_ne_nil text rest), getChunkLength_sent h]
  dsimp only
  rw [dif_neg hcl, if_neg hchunk, hlength, drop_length_line, List.take_left, List.drop_left]
  by_cases htext : text = []
  · rw [if_pos ((length_le_five_iff text).mpr htext), if_pos htext, htext]
    rfl
  · rw [if_neg (mt (length_le_five_iff text).mp htext), if_neg htext]

theorem bodyFrom_sent {text : List Char} (h : text.length < 2 ^ 31) (rest : List Char) :
    bodyFrom 5 (mgHttpPrintfChunk text ++ rest) =
      if text = [] then ([], 5)
      else ((if text.length < 16 then text else []) ++ (bodyFrom 5 rest).1,
        (mgHttpPrintfChunk text).length + (bodyFrom 5 rest).2) := by
  have htotal := length_mgHttpPrintfChunk text
  have hpos := length_upperHex_pos text.length
  have hlength : (mgHttpPrintfChunk text).length - ((upperHex text.length).length + 2) - 2 =
      text.length := by
    omega
  -- the last chunk's length 5 passes the test only for a length of one digit
  have hsmall : 5 < (upperHex text.length).length + 2 + 2 ↔ ¬ text.length < 16 := by
    have hone := length_upperHex_le (n := text.length) (k := 1) (by decide)
    omega
  rw [bodyFrom, dif_neg (mgHttpPrintfChunk_ne_nil text rest), getChunkLength_sent h]
  dsimp only
  rw [hlength, drop_length_line, List.drop_left]
  by_cases htext : text = []
  · rw [if_pos ((length_le_five_iff text).mpr htext), if_pos htext, htext]
    rfl
  · rw [if_neg (mt (length_le_five_iff text).mp htext), if_neg htext]
    by_cases hlt : text.length < 16
    · rw [if_neg (fun hcl => hsmall.mp hcl hlt), if_pos hlt, List.take_left]
    · rw [if_pos (hsmall.mpr hlt), if_neg hlt, List.take_zero]

/-- Every chunk is the text of a nonempty print, whose length is an `int`. -/
def Sendable (chunks : List (List Char)) : Prop :=
  ∀ text ∈ chunks, text ≠ [] ∧ text.length < 2 ^ 31

theorem Sendable.tail {text : List Char} {chunks : List (List Char)}
    (h : Sendable (text :: chunks)) : Sendable chunks :=
  fun t ht => h t (List.mem_cons_of_mem _ ht)

theorem walkFrom_wire {chunks : List (List Char)} (h : Sendable chunks) :
    walkFrom (wire chunks) = (chunks ++ [[]], some 5) := by
  induction chunks with
  | nil =>
    have hlast := @walkFrom_sent [] (by decide) []
    rw [List.append_nil] at hlast
    rw [wire_nil, hlast]
    rfl
  | cons text chunks ih =>
    obtain ⟨hne, hlength⟩ := h text List.mem_cons_self
    rw [wire_cons, walkFrom_sent hlength, if_neg hne, ih h.tail]
    rfl

theorem bodyFrom_wire {chunks : List (List Char)} (h : Sendable chunks) :
    bodyFrom 5 (wire chunks) =
      ((chunks.filter fun text => text.length < 16).flatten, (wire chunks).length) := by
  induction chunks with
  | nil =>
    have hlast := @bodyFrom_sent [] (by decide) []
    rw [List.append_nil] at hlast
    rw [wire_nil, hlast]
    rfl
  | cons text chunks ih =>
    obtain ⟨hne, hlength⟩ := h text List.mem_cons_self
    rw [wire_cons, bodyFrom_sent hlength, if_neg hne, ih h.tail, List.length_append]
    by_cases hlt : text.length < 16
    · rw [if_pos hlt, List.filter_cons_of_pos (by simpa using hlt), List.flatten_cons]
    · rw [if_neg hlt, List.filter_cons_of_neg (by simpa using hlt), List.nil_append]

/-- Before all bytes are there, the loop sees some of the chunks and not the end. -/
theorem walkFrom_take {chunks : List (List Char)} (h : Sendable chunks) {k : Nat}
    (hk : k < (wire chunks).length) :
    (walkFrom ((wire chunks).take k)).1 <+: chunks ∧
      (walkFrom ((wire chunks).take k)).2 = none := by
  have hmissing : ∀ {text rest : List Char} {k : Nat}, text.length < 2 ^ 31 →
      k < (mgHttpPrintfChunk text).length →
        walkFrom ((mgHttpPrintfChunk text ++ rest).take k) = ([], none) := by
    intro text rest k hlength hk
    rw [List.take_append_of_le_length (Nat.le_of_lt hk), walkFrom]
    split
    · rfl
    · dsimp only
      rw [dif_pos (getChunkLength_take hlength hk)]
  induction chunks generalizing k with
  | nil =>
    rw [wire_nil] at hk ⊢
    have hnone := @hmissing [] [] _ (by decide) hk
    rw [List.append_nil] at hnone
    rw [hnone]
    exact ⟨List.nil_prefix, rfl⟩
  | cons text chunks ih =>
    obtain ⟨hne, hlength⟩ := h text List.mem_cons_self
    rw [wire_cons] at hk ⊢
    by_cases hfirst : k < (mgHttpPrintfChunk text).length
    · rw [hmissing hlength hfirst]
      exact ⟨List.nil_prefix, rfl⟩
    · rw [List.length_append] at hk
      obtain ⟨hevents, hlast⟩ :=
        ih h.tail (k := k - (mgHttpPrintfChunk text).length) (by omega)
      rw [List.take_append, List.take_of_length_le (by omega), walkFrom_sent hlength, if_neg hne]
      exact ⟨(List.prefix_cons_inj text).mpr hevents, hlast⟩

theorem length_body_le (chunks : List (List Char)) :
    (chunks.filter fun text => text.length < 16).flatten.length ≤ (wire chunks).length := by
  induction chunks with
  | nil => exact Nat.zero_le _
  | cons text chunks ih =>
    have htotal := length_mgHttpPrintfChunk text
    rw [wire_cons, List.length_append]
    by_cases hlt : text.length < 16
    · rw [List.filter_cons_of_pos (by simpa using hlt), List.flatten_cons, List.length_append]
      omega
    · rw [List.filter_cons_of_neg (by simpa using hlt)]
      omega

theorem walkchunks_of_none {buf : List Char} (h : (walkFrom buf).2 = none) :
    walkchunks buf = ⟨(walkFrom buf).1, none, buf⟩ := by
  unfold walkchunks
  split
  · rename_i events heq
    rw [heq]
  · rename_i events cl heq
    rw [heq] at h
    cases h

theorem walkchunks_whole {chunks : List (List Char)} (h : Sendable chunks) :
    walkchunks (wire chunks) = ⟨chunks ++ [[]],
      some (chunks.filter fun text => text.length < 16).flatten,
      (chunks.filter fun text => text.length < 16).flatten⟩ := by
  have hle := length_body_le chunks
  unfold walkchunks
  rw [walkFrom_wire h]
  dsimp only
  rw [bodyFrom_wire h]
  dsimp only
  rw [Nat.sub_sub_self hle, List.take_left]

/-- What is sent as chunks is read as the same chunks, at the moment when the last byte is there;
    the body keeps those below 16 bytes. -/
theorem chunks_read_back {chunks : List (List Char)} (h : Sendable chunks) :
    (∀ k < (wire chunks).length, (walkchunks ((wire chunks).take k)).body = none ∧
      (walkchunks ((wire chunks).take k)).events <+: chunks ∧
      (walkchunks ((wire chunks).take k)).recv = (wire chunks).take k) ∧
    (walkchunks (wire chunks)).events = chunks ++ [[]] ∧
    (walkchunks (wire chunks)).body =
      some (chunks.filter fun text => text.length < 16).flatten ∧
    (walkchunks (wire chunks)).recv = (chunks.filter fun text => text.length < 16).flatten := by
  constructor
  · intro k hk
    obtain ⟨hevents, hlast⟩ := walkFrom_take h hk
    rw [walkchunks_of_none hlast]
    exact ⟨rfl, hevents, rfl⟩
  · rw [walkchunks_whole h]
    exact ⟨rfl, rfl, rfl⟩

/-- Of two chunks the longer one is lost. -/
theorem chunks_read_back_lost :
    (walkchunks (wire ["P0=1".toList, "&P1=22&P2=3333&P3=4".toList])).body =
      some "P0=1".toList := by
  have hsend : Sendable ["P0=1".toList, "&P1=22&P2=3333&P3=4".toList] := by
    intro text ht
    obtain rfl | ht := List.mem_cons.mp ht
    · decide
    · rw [List.mem_singleton.mp ht]
      decide
  have hbody := (chunks_read_back hsend).2.2.1
  rw [hbody]
  decide

/-! ## The reply -/

/-- The chunks of the reply before the empty one. -/
def replyChunks (s : PortServer) : List (List Char) :=
  [['\x7b']] ++
    ([0, 1, 2, 3, 4, 5] : List Port).flatMap (fun i =>
      (if i > 0 then [[',']] else []) ++ [member i (s.mgPorts i).text]) ++
    [['\x7d']]

theorem reply_eq (s : PortServer) : s.reply = replyChunks s ++ [[]] := by
  unfold PortServer.reply replyChunks
  rw [List.append_assoc _ [['\x7d']]]
  rfl

theorem length_text_le (t : PortText) : t.text.length ≤ 9 := by
  have hle : t.text.length ≤ t.bytes.length := (List.takeWhile_prefix _).length_le
  have hne : t.text.length ≠ t.bytes.length := by
    intro heq
    have hall : t.text = t.bytes := (List.takeWhile_prefix _).eq_of_length heq
    have hnul : nul ∈ t.bytes := List.mem_of_getLast? t.terminated
    rw [← hall] at hnul
    exact nul_not_mem_cstr _ hnul
  have hlength := t.length_eq
  omega

theorem length_portName (i : Port) : (portName i).length = 2 := by
  revert i
  decide

/-- A member is six bytes and the text of the port. -/
theorem length_member (i : Port) (t : PortText) :
    (member i t.text).length = t.text.length + 6 := by
  simp [member, length_portName]
  omega

/-- Every chunk of the reply is short. -/
theorem replyChunks_short (s : PortServer) :
    ∀ text ∈ replyChunks s, text ≠ [] ∧ text.length < 16 := by
  intro text htext
  unfold replyChunks at htext
  obtain htext | htext := List.mem_append.mp htext
  · obtain htext | htext := List.mem_append.mp htext
    · rw [List.mem_singleton.mp htext]
      decide
    · obtain ⟨i, -, htext⟩ := List.mem_flatMap.mp htext
      obtain htext | htext := List.mem_append.mp htext
      · split at htext
        · rw [List.mem_singleton.mp htext]
          decide
        · cases htext
      · have hle := length_text_le (s.mgPorts i)
        rw [List.mem_singleton.mp htext, length_member]
        exact ⟨List.cons_ne_nil _ _, by omega⟩
  · rw [List.mem_singleton.mp htext]
    decide

/-- The reply of the server is read back whole, however its bytes arrive. -/
theorem reply_read_back (s : PortServer) :
    (∀ k < (s.reply.flatMap mgHttpPrintfChunk).length,
      (walkchunks ((s.reply.flatMap mgHttpPrintfChunk).take k)).body = none) ∧
    (walkchunks (s.reply.flatMap mgHttpPrintfChunk)).body =
      some (replyText fun i => (s.mgPorts i).text) := by
  have hshort := replyChunks_short s
  have hsend : Sendable (replyChunks s) := by
    intro text htext
    have hlt := (hshort text htext).2
    exact ⟨(hshort text htext).1, by omega⟩
  have hall : (replyChunks s).filter (fun text => text.length < 16) = replyChunks s :=
    List.filter_eq_self.mpr fun text htext => decide_eq_true (hshort text htext).2
  have hflatten : (replyChunks s).flatten = replyText fun i => (s.mgPorts i).text := by
    rw [← flatten_reply, reply_eq, List.flatten_append]
    exact (List.append_nil _).symm
  have hwire : s.reply.flatMap mgHttpPrintfChunk = wire (replyChunks s) := by
    rw [reply_eq]
    rfl
  rw [hwire]
  constructor
  · intro k hk
    rw [walkchunks_of_none (walkFrom_take hsend hk).2]
  · rw [walkchunks_whole hsend, hall, hflatten]

end SmartWarehouse.Server
