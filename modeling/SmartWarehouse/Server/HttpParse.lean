/-
  Heads of HTTP messages: `mg_http_parse` of `mongoose.c`.

  `mgHttpParse` looks for the end of a head in the bytes that have been received, and takes its
  request line and headers apart. What it says depends on the head alone, so it stays the same when
  more bytes are received (`mgHttpParse_append`). The length of the body is the one of the
  `Content-Length` header as an unsigned number of 64 bits, negative or not; the lengths of a
  message fit together exactly if it is not negative (`lengths_of_nonneg`, `lengths_of_negative`).
-/
import SmartWarehouse.Server.Form
import Mathlib.Data.BitVec
import Mathlib.Data.List.DropRight

namespace SmartWarehouse.Server

open SmartWarehouse.Lib

/-! ## The end of the head -/

/-- `isprint` of the C locale. -/
def isprint (c : Char) : Bool := 32 ≤ c.toNat && c.toNat < 127

/-- A byte that a head must not have. -/
def badInHead (c : Char) : Bool := !isprint c && c ≠ '\r' && c ≠ '\n' && c.toNat < 128

/-- The head ends with the byte `c` behind the bytes `prev`, of which the last comes first. -/
def endsHead (prev : List Char) (c : Char) : Bool :=
  c = '\n' &&
    (prev.head? = some '\n' || (3 < prev.length && prev.take 2 = ['\r', '\n']))

def requestLenFrom : List Char → List Char → Int
  | _, [] => 0
  | prev, c :: rest =>
    if badInHead c then -1
    else if endsHead prev c then prev.length + 1
    else requestLenFrom (c :: prev) rest

/-- The length of the head, 0 if its end is not there, -1 if it has a bad byte. -/
def mgHttpGetRequestLen (buf : List Char) : Int := requestLenFrom [] buf

/-! ## Tokens -/

/-- `strchr(d, c) != NULL`, which finds the terminator too. -/
def isDelim (d : List Char) (c : Char) : Bool := d.contains c || c = nul

/-- `skip`: the token before the next delimiter or line feed, and the bytes behind the delimiters
    that follow. -/
def skip (s d : List Char) : List Char × List Char :=
  (s.takeWhile fun c => c ≠ '\n' && !isDelim d c,
    (s.dropWhile fun c => c ≠ '\n' && !isDelim d c).dropWhile (isDelim d))

/-- `hm->headers`: a slot that is skipped stays empty. -/
abbrev Headers := List (List Char × List Char)

/-- The loop of `mg_http_parse_headers` over the slots that are left. -/
def mgHttpParseHeaders : Nat → List Char → Headers
  | 0, _ => []
  | slots + 1, s =>
    let (tmp, he) := skip s ['\n']
    let line := s.take (s.length - he.length)
    let (k, rest) := skip line [':', ' ', '\r', '\n']
    let (v, rest) := skip rest ['\r', '\n']
    if k.length = tmp.length then ([], []) :: mgHttpParseHeaders slots (rest ++ he)
    else if k = [] then []
    else (k, v.rdropWhile (· = ' ')) :: mgHttpParseHeaders slots (rest ++ he)

/-- The value of the first header of the name, ignoring case, before the first empty slot. -/
def mgHttpGetHeader : Headers → List Char → Option (List Char)
  | [], _ => none
  | (k, v) :: headers, name =>
    if k = [] then none
    else if name.length = k.length && mgNcaseEq name k then some v
    else mgHttpGetHeader headers name

/-- The loop of `mg_to64` over the digits. -/
def to64From : Nat → List Char → Nat
  | result, [] => result
  | result, c :: s =>
    if '0' ≤ c ∧ c ≤ '9' then
      if result > 922337203685477570 then 0
      else to64From (10 * result + (c.toNat - '0'.toNat)) s
    else result

def mgTo64 (str : List Char) : Int :=
  match str.dropWhile fun c => c = ' ' || c = '\t' with
  | '-' :: digits => -(to64From 0 digits : Int)
  | digits => to64From 0 digits

/-! ## The head -/

/-- `struct mg_http_message`. The message begins with the first byte, and `len` is the length of
    its head and the offset of its body. -/
structure HttpHead where
  len : Nat
  method : List Char
  uri : List Char
  query : List Char
  proto : List Char
  headers : Headers
  bodyLen : BitVec 64
  messageLen : BitVec 64

/-- `MG_MAX_HTTP_HEADERS`. -/
def maxHeaders : Nat := 40

/-- The value of the `Content-Length` header. -/
def HttpHead.contentLength (hm : HttpHead) : Option Int :=
  (mgHttpGetHeader hm.headers "Content-Length".toList).map mgTo64

/-- The first five bytes are `HTTP/` in any case; they are in the method if they match. -/
def HttpHead.isResponse (hm : HttpHead) : Bool := mgNcaseEq "HTTP/".toList hm.method

/-- A body without end is none: the method of a request does not define one, or a response has the
    status 204. -/
def HttpHead.noBody (hm : HttpHead) : Bool :=
  if hm.isResponse then hm.uri = "204".toList
  else hm.method.map mgLower ≠ "put".toList && hm.method.map mgLower ≠ "post".toList

/-- The head with the lengths of the message. `(size_t) ~0` stands for a body without end. -/
def HttpHead.setLengths (hm : HttpHead) : HttpHead :=
  let hm :=
    match hm.contentLength with
    | some cl =>
      { hm with
        bodyLen := BitVec.ofInt 64 cl
        messageLen := BitVec.ofNat 64 hm.len + BitVec.ofInt 64 cl }
    | none => { hm with bodyLen := -1, messageLen := -1 }
  if hm.bodyLen = -1 ∧ hm.noBody then
    { hm with bodyLen := 0, messageLen := BitVec.ofNat 64 hm.len }
  else hm

/-- `mg_http_parse` of a head. -/
def parseHead (head : List Char) : Option HttpHead :=
  let (method, s) := skip head [' ']
  let (uri, s) := skip s [' ']
  let (proto, s) := skip s ['\r', '\n']
  if method = [] ∨ uri = [] then none
  else
    let hm : HttpHead :=
      { len := head.length
        method := method
        uri := uri.takeWhile (· ≠ '?')
        query := (uri.dropWhile (· ≠ '?')).drop 1
        proto := proto
        headers := mgHttpParseHeaders maxHeaders s
        bodyLen := -1
        messageLen := -1 }
    some hm.setLengths

/-- What `mg_http_parse` returns: 0, a negative number, or the length of the head with the
    message. -/
inductive Parsed where
  | more
  | bad
  | head (hm : HttpHead)

def mgHttpParse (s : List Char) : Parsed :=
  match mgHttpGetRequestLen s with
  | .ofNat 0 => .more
  | .negSucc _ => .bad
  | .ofNat (n + 1) =>
    match parseHead (s.take (n + 1)) with
    | none => .bad
    | some hm => .head hm

/-! ## More bytes -/

theorem requestLenFrom_append {prev s : List Char} (h : requestLenFrom prev s ≠ 0)
    (t : List Char) : requestLenFrom prev (s ++ t) = requestLenFrom prev s := by
  induction s generalizing prev with
  | nil => exact absurd rfl h
  | cons c s ih =>
    rw [requestLenFrom] at h
    rw [List.cons_append, requestLenFrom, requestLenFrom]
    split
    · rfl
    · rename_i hbad
      rw [if_neg hbad] at h
      split
      · rfl
      · rename_i hends
        rw [if_neg hends] at h
        exact ih h

theorem requestLenFrom_le {prev s : List Char} {n : Nat} (h : requestLenFrom prev s = n)
    (hn : 0 < n) : n ≤ prev.length + s.length := by
  induction s generalizing prev with
  | nil =>
    rw [requestLenFrom] at h
    omega
  | cons c s ih =>
    rw [requestLenFrom] at h
    rw [List.length_cons]
    split at h
    · omega
    · split at h
      · omega
      · have hle := ih h
        rw [List.length_cons] at hle
        omega

/-- What has been said of a head does not change when more bytes are received. -/
theorem mgHttpParse_append {s : List Char} (h : mgHttpParse s ≠ .more) (t : List Char) :
    mgHttpParse (s ++ t) = mgHttpParse s := by
  have hne : requestLenFrom [] s ≠ 0 := by
    intro hzero
    apply h
    unfold mgHttpParse mgHttpGetRequestLen
    rw [hzero]
  have happend := requestLenFrom_append hne t
  unfold mgHttpParse mgHttpGetRequestLen
  rw [happend]
  split
  · rfl
  · rfl
  · rename_i n hn
    have hle := requestLenFrom_le hn (Nat.succ_pos n)
    rw [List.length_nil, Nat.zero_add] at hle
    rw [List.take_append_of_le_length hle]

theorem mgHttpParse_of_len {s : List Char} {n : Nat} {hm : HttpHead}
    (hlen : mgHttpGetRequestLen s = ((n + 1 : Nat) : Int))
    (h : parseHead (s.take (n + 1)) = some hm) : mgHttpParse s = .head hm := by
  have hcast : mgHttpGetRequestLen s = .ofNat (n + 1) := hlen
  unfold mgHttpParse
  rw [hcast]
  dsimp only
  rw [h]

/-! ## The lengths of a message -/

theorem to64From_le {s : List Char} : ∀ {result : Nat}, result ≤ 9223372036854775709 →
    to64From result s ≤ 9223372036854775709 := by
  induction s with
  | nil => exact fun h => h
  | cons c s ih =>
    intro result h
    rw [to64From]
    split
    · rename_i hdigit
      split
      · exact Nat.zero_le _
      · have hnine : c.toNat ≤ '9'.toNat := hdigit.2
        have hcode : '9'.toNat = 57 ∧ '0'.toNat = 48 := by decide
        exact ih (by omega)
    · exact h

theorem mgTo64_bounds (str : List Char) :
    -9223372036854775709 ≤ mgTo64 str ∧ mgTo64 str ≤ 9223372036854775709 := by
  unfold mgTo64
  split
  · rename_i digits _
    have hle := @to64From_le digits 0 (Nat.zero_le _)
    omega
  · have hle := @to64From_le (str.dropWhile fun c => c = ' ' || c = '\t') 0 (Nat.zero_le _)
    omega

theorem contentLength_bounds {hm : HttpHead} {cl : Int} (h : hm.contentLength = some cl) :
    -9223372036854775709 ≤ cl ∧ cl ≤ 9223372036854775709 := by
  obtain ⟨str, -, rfl⟩ := Option.map_eq_some_iff.mp h
  exact mgTo64_bounds str

/-- The length of the header counts unless it stands for a body without end that is none. -/
theorem setLengths_some {hm : HttpHead} {cl : Int} (h : hm.contentLength = some cl) :
    hm.setLengths =
      if cl = -1 ∧ hm.noBody = true then
        { hm with bodyLen := 0, messageLen := BitVec.ofNat 64 hm.len }
      else
        { hm with
          bodyLen := BitVec.ofInt 64 cl
          messageLen := BitVec.ofNat 64 hm.len + BitVec.ofInt 64 cl } := by
  have hbounds := contentLength_bounds h
  have hminus : BitVec.ofInt 64 cl = -1 ↔ cl = -1 := by
    constructor
    · intro heq
      have hint := congrArg BitVec.toInt heq
      rw [BitVec.toInt_ofInt] at hint
      have hone : (-1 : BitVec 64).toInt = -1 := by decide
      rw [hone, Int.bmod_eq_of_le (by omega) (by omega)] at hint
      exact hint
    · rintro rfl
      decide
  unfold HttpHead.setLengths
  rw [h]
  dsimp only
  have hnoBody : HttpHead.noBody
      { hm with
        bodyLen := BitVec.ofInt 64 cl
        messageLen := BitVec.ofNat 64 hm.len + BitVec.ofInt 64 cl } = hm.noBody := rfl
  simp only [hminus, hnoBody]

theorem setLengths_none {hm : HttpHead} (h : hm.contentLength = none) :
    hm.setLengths =
      if hm.noBody = true then { hm with bodyLen := 0, messageLen := BitVec.ofNat 64 hm.len }
      else { hm with bodyLen := -1, messageLen := -1 } := by
  unfold HttpHead.setLengths
  rw [h]
  dsimp only
  have hnoBody : HttpHead.noBody { hm with bodyLen := -1, messageLen := -1 } = hm.noBody := rfl
  simp only [hnoBody, true_and]

/-- The length of the body is negative, and counts. -/
def HttpHead.Negative (hm : HttpHead) (cl : Int) : Prop :=
  hm.contentLength = some cl ∧ cl < 0 ∧ ¬ (cl = -1 ∧ hm.noBody = true)

/-- The body has no end. -/
def HttpHead.Endless (hm : HttpHead) : Prop := hm.contentLength = none ∧ hm.noBody = false

/-- The head comes from `mg_http_parse`. -/
def HttpHead.Complete (hm : HttpHead) : Prop :=
  ∃ hm₀ : HttpHead, hm = hm₀.setLengths

theorem setLengths_fields (hm : HttpHead) :
    hm.setLengths.len = hm.len ∧ hm.setLengths.contentLength = hm.contentLength ∧
      hm.setLengths.noBody = hm.noBody := by
  cases h : hm.contentLength with
  | some cl =>
    rw [setLengths_some h]
    split
    · exact ⟨rfl, h, rfl⟩
    · exact ⟨rfl, h, rfl⟩
  | none =>
    rw [setLengths_none h]
    split
    · exact ⟨rfl, h, rfl⟩
    · exact ⟨rfl, h, rfl⟩

theorem setLengths_parts (hm : HttpHead) :
    hm.setLengths.method = hm.method ∧ hm.setLengths.uri = hm.uri ∧
      hm.setLengths.headers = hm.headers := by
  cases h : hm.contentLength with
  | some cl =>
    rw [setLengths_some h]
    split
    · exact ⟨rfl, rfl, rfl⟩
    · exact ⟨rfl, rfl, rfl⟩
  | none =>
    rw [setLengths_none h]
    split
    · exact ⟨rfl, rfl, rfl⟩
    · exact ⟨rfl, rfl, rfl⟩

/-- A message whose length is not negative ends where its body ends, or never. -/
theorem lengths_of_nonneg {hm : HttpHead} (h : hm.Complete) (hlen : hm.len < 2 ^ 63)
    (hnonneg : ∀ cl, ¬ hm.Negative cl) :
    (hm.Endless ∧ hm.messageLen = -1) ∨
      (¬ hm.Endless ∧ hm.len + hm.bodyLen.toNat = hm.messageLen.toNat) := by
  obtain ⟨hm, rfl⟩ := h
  obtain ⟨hlenEq, hcl, hnoBody⟩ := setLengths_fields hm
  simp only [HttpHead.Negative, HttpHead.Endless, hcl, hnoBody] at hnonneg ⊢
  rw [hlenEq] at hlen ⊢
  cases hlength : hm.contentLength with
  | some cl =>
    have hbounds := contentLength_bounds hlength
    refine .inr ⟨by simp, ?_⟩
    rw [setLengths_some hlength]
    split
    · simp
      omega
    · rename_i hreset
      have hcl0 : 0 ≤ cl := by
        by_contra hneg
        exact hnonneg cl ⟨hlength, by omega, hreset⟩
      obtain ⟨n, rfl⟩ := Int.eq_ofNat_of_zero_le hcl0
      simp
      omega
  | none =>
    rw [setLengths_none hlength]
    split
    · rename_i hnone
      refine .inr ⟨by simp [hnone], ?_⟩
      simp
      omega
    · rename_i hnone
      exact .inl ⟨⟨rfl, by simpa using hnone⟩, rfl⟩

/-- A negative length is taken off the length of the head: the message ends in the head and its body
    beyond the message, or the message is longer than `2 ^ 63`. -/
theorem lengths_of_negative {hm : HttpHead} (h : hm.Complete) (hlen : hm.len < 2 ^ 63) {cl : Int}
    (hneg : hm.Negative cl) :
    (0 ≤ hm.len + cl → (hm.messageLen.toNat : Int) = hm.len + cl ∧
        hm.messageLen.toNat < hm.len + hm.bodyLen.toNat) ∧
      (hm.len + cl < 0 → 2 ^ 63 ≤ hm.messageLen.toNat) := by
  obtain ⟨hm, rfl⟩ := h
  obtain ⟨hlenEq, hcl, hnoBody⟩ := setLengths_fields hm
  unfold HttpHead.Negative at hneg
  rw [hcl, hnoBody] at hneg
  rw [hlenEq] at hlen ⊢
  obtain ⟨hlength, hlt, hreset⟩ := hneg
  have hbounds := contentLength_bounds hlength
  rw [setLengths_some hlength, if_neg hreset]
  have hbody : ((BitVec.ofInt 64 cl).toNat : Int) = 2 ^ 64 + cl := by
    rw [BitVec.toNat_ofInt]
    omega
  dsimp only
  rw [BitVec.toNat_add, BitVec.toNat_ofNat]
  generalize (BitVec.ofInt 64 cl).toNat = body at hbody ⊢
  constructor
  · intro hge
    omega
  · intro hneg
    omega

theorem parseHead_complete {head : List Char} {hm : HttpHead} (h : parseHead head = some hm) :
    hm.Complete ∧ hm.len = head.length := by
  unfold parseHead at h
  dsimp only at h
  split at h
  · cases h
  · obtain rfl := Option.some.inj h
    exact ⟨⟨_, rfl⟩, (setLengths_fields _).1⟩

theorem mgHttpParse_complete {s : List Char} {hm : HttpHead} (h : mgHttpParse s = .head hm) :
    hm.Complete ∧ 0 < hm.len ∧ hm.len ≤ s.length := by
  unfold mgHttpParse at h
  split at h
  · cases h
  · cases h
  · rename_i n hn
    split at h
    · cases h
    · rename_i hm' hhead
      obtain rfl := Parsed.head.inj h
      obtain ⟨hcomplete, hlen⟩ := parseHead_complete hhead
      have hle := requestLenFrom_le hn (Nat.succ_pos n)
      rw [List.length_nil, Nat.zero_add] at hle
      rw [List.length_take, Nat.min_eq_left hle] at hlen
      exact ⟨hcomplete, by omega, by omega⟩

end SmartWarehouse.Server
