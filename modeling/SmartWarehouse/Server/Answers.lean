/-
  Answers to requests: `mg_http_reply` of `mongoose.c`, and what a client makes of them.

  An answer is the pieces that are put into the send buffer and, if a file is to be sent, what is
  left of it for `static_cb`. Heads are printed so that `mg_http_parse` takes them apart into what
  they were printed from (`answerLines`): a reply is one message, whatever follows it
  (`IsReply.read`), and answers that are one message each are read one after another
  (`answers_cut`).
-/
import SmartWarehouse.Server.RequestStreams

namespace SmartWarehouse.Server

open SmartWarehouse.Lib

/-! ## Answers -/

/-- What the handler does with a connection: the pieces it puts into the send buffer one after
    another, what is left of the file that `static_cb` is to send, and whether the connection is
    closed when everything is sent. -/
structure Answer where
  pieces : List (List Char)
  file : Option (List Char)
  draining : Bool
deriving DecidableEq

def Answer.ofPieces (pieces : List (List Char)) : Answer := ⟨pieces, none, false⟩

/-- The bytes of an answer that is sent as a whole. -/
def Answer.bytes (a : Answer) : List Char := a.pieces.flatten ++ a.file.getD []

def statusCodes : List (Nat × String) :=
  [(100, "Continue"), (101, "Switching Protocols"), (102, "Processing"), (200, "OK"),
    (201, "Created"), (202, "Accepted"), (203, "Non-authoritative Information"),
    (204, "No Content"), (205, "Reset Content"), (206, "Partial Content"), (207, "Multi-Status"),
    (208, "Already Reported"), (226, "IM Used"), (300, "Multiple Choices"),
    (301, "Moved Permanently"), (302, "Found"), (303, "See Other"), (304, "Not Modified"),
    (305, "Use Proxy"), (307, "Temporary Redirect"), (308, "Permanent Redirect"),
    (400, "Bad Request"), (401, "Unauthorized"), (402, "Payment Required"), (403, "Forbidden"),
    (404, "Not Found"), (405, "Method Not Allowed"), (406, "Not Acceptable"),
    (407, "Proxy Authentication Required"), (408, "Request Timeout"), (409, "Conflict"),
    (410, "Gone"), (411, "Length Required"), (412, "Precondition Failed"),
    (413, "Payload Too Large"), (414, "Request-URI Too Long"), (415, "Unsupported Media Type"),
    (416, "Requested Range Not Satisfiable"), (417, "Expectation Failed"), (418, "I'm a teapot"),
    (421, "Misdirected Request"), (422, "Unprocessable Entity"), (423, "Locked"),
    (424, "Failed Dependency"), (426, "Upgrade Required"), (428, "Precondition Required"),
    (429, "Too Many Requests"), (431, "Request Header Fields Too Large"),
    (444, "Connection Closed Without Response"), (451, "Unavailable For Legal Reasons"),
    (499, "Client Closed Request"), (500, "Internal Server Error"), (501, "Not Implemented"),
    (502, "Bad Gateway"), (503, "Service Unavailable"), (504, "Gateway Timeout"),
    (505, "HTTP Version Not Supported"), (506, "Variant Also Negotiates"),
    (507, "Insufficient Storage"), (508, "Loop Detected"), (510, "Not Extended"),
    (511, "Network Authentication Required"), (599, "Network Connect Timeout Error")]

def mgHttpStatusCodeStr (code : Nat) : List Char :=
  ((statusCodes.lookup code).getD "OK").toList

/-- The head of an answer: the status line, a line for each header, and an empty line. -/
def answerHead (code : Nat) (headers : Headers) : List Char :=
  withEnd ("HTTP/1.1".toList ++ ' ' :: (Nat.toDigits 10 code ++ ' ' :: mgHttpStatusCodeStr code)) ++
    (headers.flatMap (fun h => withEnd (headerLine h)) ++ ['\r', '\n'])

def contentLength (n : Nat) : List Char × List Char :=
  ("Content-Length".toList, Nat.toDigits 10 n)

/-- `mg_http_reply`, which prints the head and sends the body. -/
def mgHttpReply (code : Nat) (headers : Headers) (body : List Char) : Answer :=
  .ofPieces [answerHead code (headers ++ [contentLength body.length]), body]

/-! ## Heads that are read as they are written -/

/-- A value of a header that is read as it is written. -/
def sendableValue (v : List Char) : Bool :=
  v.all lineByte && v.head? ≠ some ' ' && v.head? ≠ some ':' && v.getLast? ≠ some ' '

theorem sendable_of_all {k v : List Char} (hne : k ≠ [])
    (hname : k.all (fun c => tokenByte c && c ≠ ':') = true) (hvalue : sendableValue v = true) :
    SendableHeader (k, v) := by
  have hv : (((∀ c ∈ v, lineByte c = true) ∧ v.head? ≠ some ' ') ∧ v.head? ≠ some ':') ∧
      v.getLast? ≠ some ' ' := by
    simpa [sendableValue] using hvalue
  obtain ⟨⟨⟨hbytes, hblank⟩, hcolon⟩, hlast⟩ := hv
  refine ⟨hne, ?_, hbytes, ?_, ?_⟩
  · intro c hc
    simpa using List.all_eq_true.mp hname c hc
  · intro c hc
    exact ⟨fun heq => hblank (heq ▸ hc), fun heq => hcolon (heq ▸ hc)⟩
  · intro c hc heq
    exact hlast (heq ▸ hc)

theorem digit16 : ∀ d : Fin 16, lineByte d.val.digitChar = true ∧
    mgLower d.val.digitChar = d.val.digitChar ∧ d.val.digitChar ≠ '.' ∧ d.val.digitChar ≠ ' ' ∧
    d.val.digitChar ≠ ':' := by
  decide

/-- The digits of a number. -/
theorem mem_toDigits {b : Nat} (hb : 1 < b) (h16 : b ≤ 16) {n : Nat} {c : Char}
    (hc : c ∈ Nat.toDigits b n) : ∃ d : Fin 16, c = d.val.digitChar := by
  induction n using Nat.strongRecOn with
  | ind n ih =>
    rw [Nat.toDigits_eq_if hb] at hc
    split at hc
    · rename_i hlt
      exact ⟨⟨n, by omega⟩, List.mem_singleton.mp hc⟩
    · rename_i hge
      obtain hc | hc := List.mem_append.mp hc
      · exact ih (n / b) (Nat.div_lt_self (by omega) hb) hc
      · have hlt := Nat.mod_lt n (Nat.lt_of_succ_lt hb)
        exact ⟨⟨n % b, by omega⟩, List.mem_singleton.mp hc⟩

theorem numeral_bytes {b : Nat} (hb : 1 < b) (h16 : b ≤ 16) (n : Nat) :
    (Nat.toDigits b n).all lineByte = true := by
  rw [List.all_eq_true]
  intro c hc
  obtain ⟨d, rfl⟩ := mem_toDigits hb h16 hc
  exact (digit16 d).1

theorem numeral_tokens (n : Nat) : ∀ c ∈ Nat.toDigits 10 n, tokenByte c = true := by
  intro c hc
  obtain ⟨d, rfl⟩ := mem_toDigits (by decide) (by decide) hc
  simp [tokenByte, digit16 d]

/-- A text before a numeral. -/
theorem sendableValue_numeral {pre : List Char} (hne : pre ≠ [])
    (hpre : pre.all lineByte = true) (hhead : pre.head? ≠ some ' ' ∧ pre.head? ≠ some ':')
    (n : Nat) : sendableValue (pre ++ Nat.toDigits 10 n) = true := by
  have hlast : (Nat.toDigits 10 n).getLast? ≠ some ' ' := by
    intro h
    obtain ⟨d, hd⟩ := mem_toDigits (by decide) (by decide) (List.mem_of_mem_getLast? h)
    exact (digit16 d).2.2.2.1 hd.symm
  unfold sendableValue
  rw [List.all_append, hpre, numeral_bytes (by decide) (by decide),
    List.head?_append_of_ne_nil _ hne, List.getLast?_append_of_ne_nil _ Nat.toDigits_ne_nil]
  simp [hhead, hlast]

/-- Every status text can be sent. -/
theorem statusCodes_text : statusCodes.all (fun e => e.2.toList.all lineByte &&
    e.2.toList ≠ [] && e.2.toList.head? ≠ some ' ') = true := by
  decide +kernel

theorem mgHttpStatusCodeStr_text (code : Nat) : (mgHttpStatusCodeStr code).all lineByte = true ∧
    mgHttpStatusCodeStr code ≠ [] ∧ (mgHttpStatusCodeStr code).head? ≠ some ' ' := by
  unfold mgHttpStatusCodeStr
  cases hlookup : statusCodes.lookup code with
  | none => decide
  | some text =>
    obtain ⟨pre, post, hsplit, -⟩ := List.lookup_eq_some_iff.mp hlookup
    have hmem : (code, text) ∈ statusCodes := by
      rw [hsplit]
      exact List.mem_append_right _ List.mem_cons_self
    simpa [and_assoc] using List.all_eq_true.mp statusCodes_text _ hmem

theorem httpVersion_ne_nil : "HTTP/1.1".toList ≠ [] := by
  decide

theorem httpVersion_token : ∀ c ∈ "HTTP/1.1".toList, tokenByte c = true := by
  have hall : ("HTTP/1.1".toList).all tokenByte = true := by decide
  exact List.all_eq_true.mp hall

theorem statusDigits_ne_nil (code : Nat) : Nat.toDigits 10 code ≠ [] := Nat.toDigits_ne_nil

theorem statusText_ne_nil (code : Nat) : mgHttpStatusCodeStr code ≠ [] :=
  (mgHttpStatusCodeStr_text code).2.1

theorem statusText_head (code : Nat) : ∀ c ∈ (mgHttpStatusCodeStr code).head?, c ≠ ' ' :=
  fun _ hc heq => (mgHttpStatusCodeStr_text code).2.2 (heq ▸ hc)

theorem statusText_bytes (code : Nat) : ∀ c ∈ mgHttpStatusCodeStr code, lineByte c = true :=
  List.all_eq_true.mp (mgHttpStatusCodeStr_text code).1

/-- The lines of an answer. -/
def answerLines (code : Nat) (headers : Headers) (hne : headers ≠ [])
    (hle : headers.length ≤ maxHeaders) (hs : ∀ h ∈ headers, SendableHeader h) : HeadLines where
  first := "HTTP/1.1".toList
  second := Nat.toDigits 10 code
  third := mgHttpStatusCodeStr code
  headers := headers
  first_ne_nil := httpVersion_ne_nil
  first_token := httpVersion_token
  second_ne_nil := statusDigits_ne_nil code
  second_token := numeral_tokens code
  third_ne_nil := statusText_ne_nil code
  third_head := statusText_head code
  third_bytes := statusText_bytes code
  headers_ne_nil := hne
  headers_le := hle
  headers_sendable := hs

/-! ## Replies -/

/-- The answer is one message to the client, whatever follows it. -/
def Answer.ReadAs (a : Answer) (m : HttpMsg) : Prop :=
  ∀ rest, httpFrame (a.bytes ++ rest) = .message m a.bytes.length

/-- A text that is sent with its length and with headers that are read as they are written. -/
def IsReply (a : Answer) : Prop :=
  ∃ code headers body, a = mgHttpReply code headers body ∧ headers.length < maxHeaders ∧
    (∀ h ∈ headers, SendableHeader h) ∧
    mgHttpGetHeader (headers ++ [contentLength body.length]) "Content-Length".toList =
      some (Nat.toDigits 10 body.length)

theorem isReply_plain (code : Nat) (body : List Char) : IsReply (mgHttpReply code [] body) := by
  refine ⟨code, [], body, rfl, Nat.le_of_ble_eq_true rfl, ?_, rfl⟩
  intro h hh
  cases hh

/-- A reply is read as one message. -/
theorem IsReply.read {a : Answer} (h : IsReply a) (hlength : a.bytes.length < 2 ^ 62) :
    ∃ m, a.ReadAs m := by
  obtain ⟨code, headers, body, rfl, hle, hs, hcl⟩ := h
  have hsendable : ∀ h ∈ headers ++ [contentLength body.length], SendableHeader h := by
    intro h hh
    obtain hh | hh := List.mem_append.mp hh
    · exact hs h hh
    · rw [List.mem_singleton.mp hh]
      exact sendable_length _
  have hcount : (headers ++ [contentLength body.length]).length ≤ maxHeaders := by
    rw [List.length_append]
    exact hle
  have hne : headers ++ [contentLength body.length] ≠ [] :=
    List.append_ne_nil_of_right_ne_nil _ (List.cons_ne_nil _ _)
  have hbytes : (mgHttpReply code headers body).bytes =
      (answerLines code _ hne hcount hsendable).wire ++ body := by
    show ([answerHead code (headers ++ [contentLength body.length]), body].flatten ++ []) = _
    rw [List.append_nil, List.flatten_cons, List.flatten_singleton]
    rfl
  have hdeclared : mgHttpGetHeader (answerLines code _ hne hcount hsendable).headers
      "Content-Length".toList = some (Nat.toDigits 10 body.length) := hcl
  generalize answerLines code _ hne hcount hsendable = lines at hbytes hdeclared
  rw [hbytes, List.length_append] at hlength
  unfold Answer.ReadAs
  rw [hbytes]
  refine ⟨⟨lines.head, some body⟩, fun rest => ?_⟩
  have hrest : body.length ≤ (body ++ rest).length := by
    rw [List.length_append]
    exact Nat.le_add_right _ _
  rw [List.append_assoc, lines.httpFrame_declared hdeclared hlength hrest, List.take_left,
    List.length_append]

theorem answers_cut {answers : List Answer} (h : ∀ a ∈ answers, ∃ m, a.ReadAs m) :
    ∃ ms, Cut httpFrame (answers.flatMap Answer.bytes) ms [] ∧
      List.Forall₂ Answer.ReadAs answers ms := by
  induction answers with
  | nil => exact ⟨[], .nil [], .nil⟩
  | cons a answers ih =>
    obtain ⟨m, hread⟩ := h a List.mem_cons_self
    obtain ⟨ms, hcut, hreads⟩ := ih fun b hb => h b (List.mem_cons_of_mem _ hb)
    refine ⟨m :: ms, ?_, .cons hread hreads⟩
    rw [List.flatMap_cons]
    apply Cut.cons (hread _)
    rw [List.drop_left]
    exact hcut

theorem length_bytes_le {answers : List Answer} {a : Answer} (ha : a ∈ answers) :
    a.bytes.length ≤ (answers.flatMap Answer.bytes).length := by
  obtain ⟨before, behind, rfl⟩ := List.append_of_mem ha
  rw [List.flatMap_append, List.flatMap_cons, List.length_append, List.length_append]
  omega

theorem bytes_of_replies {replies : List Answer} (hreplies : ∀ a ∈ replies, IsReply a) :
    (Answer.ofPieces (replies.flatMap Answer.pieces)).bytes = replies.flatMap Answer.bytes := by
  show (replies.flatMap Answer.pieces).flatten ++ [] = _
  rw [List.append_nil]
  induction replies with
  | nil => rfl
  | cons a replies ih =>
    obtain ⟨code, headers, body, rfl, -⟩ := hreplies a List.mem_cons_self
    have hbytes : (mgHttpReply code headers body).bytes =
        (mgHttpReply code headers body).pieces.flatten := List.append_nil _
    rw [List.flatMap_cons, List.flatMap_cons, List.flatten_append,
      ih fun b hb => hreplies b (List.mem_cons_of_mem _ hb), hbytes]

end SmartWarehouse.Server
