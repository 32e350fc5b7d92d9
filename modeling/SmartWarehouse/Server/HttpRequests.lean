/-
  Requests on the wire: what `mg_http_parse` of `mongoose.c` makes of them.

  A request is written as a request line, a line for each header, an empty line and the body. The
  end of its head is found whatever follows it, and not before (`requestLen_wireHead`,
  `mgHttpParse_part`), and the head is taken apart into what it was made of
  (`parseHead_wireHead`), with the lengths of the body and of the message (`lengths_head`).
-/
import SmartWarehouse.Server.HttpStream

namespace SmartWarehouse.Server

open SmartWarehouse.Lib

/-! ## Requests -/

/-- A byte of a line. -/
def lineByte (c : Char) : Bool := isprint c || 128 ≤ c.toNat

/-- A byte of a method or a URI. -/
def tokenByte (c : Char) : Bool := lineByte c && c ≠ ' '

/-- A header that is read as it is written. -/
structure SendableHeader (h : List Char × List Char) : Prop where
  name_ne_nil : h.1 ≠ []
  name : ∀ c ∈ h.1, tokenByte c = true ∧ c ≠ ':'
  value : ∀ c ∈ h.2, lineByte c = true
  value_head : ∀ c ∈ h.2.head?, c ≠ ' ' ∧ c ≠ ':'
  value_last : ∀ c ∈ h.2.getLast?, c ≠ ' '

/-- A request that names the length of its body, or has none and a method without one. -/
structure HttpRequest where
  method : List Char
  uri : List Char
  headers : Headers
  body : List Char
  method_ne_nil : method ≠ []
  method_token : ∀ c ∈ method, tokenByte c = true
  uri_ne_nil : uri ≠ []
  uri_token : ∀ c ∈ uri, tokenByte c = true
  headers_ne_nil : headers ≠ []
  headers_le : headers.length ≤ maxHeaders
  headers_sendable : ∀ h ∈ headers, SendableHeader h
  length_declared :
    mgHttpGetHeader headers "Content-Length".toList = some (Nat.toDigits 10 body.length) ∨
      mgHttpGetHeader headers "Content-Length".toList = none ∧ body = [] ∧
        method.map mgLower ≠ "put".toList ∧ method.map mgLower ≠ "post".toList
  not_response : mgNcaseEq "HTTP/".toList method = false
  not_chunked : mgHttpGetHeader headers "Transfer-Encoding".toList = none

namespace HttpRequest

def requestLine (r : HttpRequest) : List Char :=
  r.method ++ ' ' :: (r.uri ++ ' ' :: "HTTP/1.1".toList)

end HttpRequest

def headerLine (h : List Char × List Char) : List Char := h.1 ++ ':' :: ' ' :: h.2

/-- A line with its end. -/
def withEnd (line : List Char) : List Char := line ++ ['\r', '\n']

def HttpRequest.wireHead (r : HttpRequest) : List Char :=
  withEnd r.requestLine ++ (r.headers.flatMap (fun h => withEnd (headerLine h)) ++ ['\r', '\n'])

/-- The bytes of a request. -/
def HttpRequest.wire (r : HttpRequest) : List Char := r.wireHead ++ r.body

/-- The parts of the head that is made of a request. -/
def HttpRequest.parts (r : HttpRequest) : HttpHead where
  len := r.wireHead.length
  method := r.method
  uri := r.uri.takeWhile (· ≠ '?')
  query := (r.uri.dropWhile (· ≠ '?')).drop 1
  proto := "HTTP/1.1".toList
  headers := r.headers
  bodyLen := -1
  messageLen := -1

def HttpRequest.head (r : HttpRequest) : HttpHead := r.parts.setLengths

/-! ## The end of the head -/

theorem lineByte_ne {c : Char} (h : lineByte c = true) :
    badInHead c = false ∧ c ≠ '\n' ∧ c ≠ '\r' ∧ c ≠ nul := by
  have hcodes : '\n'.toNat = 10 ∧ '\r'.toNat = 13 ∧ nul.toNat = 0 := by decide
  have hbounds : (32 ≤ c.toNat ∧ c.toNat < 127) ∨ 128 ≤ c.toNat := by
    simpa [lineByte, isprint] using h
  refine ⟨?_, ?_, ?_, ?_⟩
  · unfold badInHead isprint
    obtain hprint | hhigh := hbounds
    · simp [hprint]
    · simp
      omega
  · rintro rfl
    omega
  · rintro rfl
    omega
  · rintro rfl
    omega

theorem requestLenFrom_skip {prev rest : List Char} {c : Char} (hbad : badInHead c = false)
    (hends : endsHead prev c = false) :
    requestLenFrom prev (c :: rest) = requestLenFrom (c :: prev) rest := by
  rw [requestLenFrom, hbad, hends]
  rfl

theorem endsHead_of_ne {prev : List Char} {c : Char} (h : c ≠ '\n') : endsHead prev c = false := by
  simp [endsHead, h]

theorem requestLenFrom_text {text : List Char} (h : ∀ c ∈ text, lineByte c = true)
    (prev rest : List Char) :
    requestLenFrom prev (text ++ rest) = requestLenFrom (text.reverse ++ prev) rest := by
  induction text generalizing prev with
  | nil => rfl
  | cons c text ih =>
    obtain ⟨hbad, hne, -⟩ := lineByte_ne (h c List.mem_cons_self)
    rw [List.cons_append, requestLenFrom_skip hbad (endsHead_of_ne hne),
      ih fun d hd => h d (List.mem_cons_of_mem _ hd), List.reverse_cons, List.append_assoc]
    rfl

/-- Behind a line the search goes on. -/
theorem requestLenFrom_line {line : List Char} (h : ∀ c ∈ line, lineByte c = true)
    (hne : line ≠ []) (prev rest : List Char) :
    requestLenFrom prev (withEnd line ++ rest) =
      requestLenFrom ('\n' :: '\r' :: (line.reverse ++ prev)) rest := by
  obtain ⟨c, before, hlast⟩ := List.exists_cons_of_ne_nil (mt List.reverse_eq_nil_iff.mp hne)
  have hc : c ≠ '\n' := by
    have hmem : c ∈ line := by
      rw [← List.mem_reverse, hlast]
      exact List.mem_cons_self
    exact (lineByte_ne (h c hmem)).2.1
  have hends : endsHead ('\r' :: (line.reverse ++ prev)) '\n' = false := by
    rw [hlast]
    simp [endsHead, hc]
  unfold withEnd
  rw [List.append_assoc, requestLenFrom_text h]
  show requestLenFrom _ ('\r' :: '\n' :: rest) = _
  rw [requestLenFrom_skip (by decide) (endsHead_of_ne (by decide)),
    requestLenFrom_skip (by decide) hends]

theorem requestLenFrom_lines {lines : List (List Char)}
    (h : ∀ line ∈ lines, line ≠ [] ∧ ∀ c ∈ line, lineByte c = true) {before : List Char}
    (hbefore : before ≠ []) (rest : List Char) :
    requestLenFrom ('\n' :: '\r' :: before) (lines.flatMap withEnd ++ ('\r' :: '\n' :: rest)) =
      ((before.length + 2 + ((lines.flatMap withEnd).length + 2) : Nat) : Int) := by
  induction lines generalizing before with
  | nil =>
    obtain ⟨c, before, rfl⟩ := List.exists_cons_of_ne_nil hbefore
    rw [List.flatMap_nil, List.nil_append,
      requestLenFrom_skip (by decide) (endsHead_of_ne (by decide)), requestLenFrom]
    have hends : endsHead ('\r' :: '\n' :: '\r' :: c :: before) '\n' = true := by
      simp [endsHead]
    rw [hends, if_neg (by decide), if_pos rfl]
    simp
    omega
  | cons line lines ih =>
    obtain ⟨hne, hbytes⟩ := h line List.mem_cons_self
    rw [List.flatMap_cons, List.append_assoc, requestLenFrom_line hbytes hne,
      ih (fun l hl => h l (List.mem_cons_of_mem _ hl)) (by simp)]
    simp [withEnd]
    omega

/-! ## Tokens -/

/-- Nothing is dropped if the first byte stays. -/
theorem dropWhile_of_head {p : Char → Bool} {s : List Char} (h : ∀ c ∈ s.head?, p c = false) :
    s.dropWhile p = s := by
  cases s with
  | nil => rfl
  | cons c s =>
    have hc := h c rfl
    rw [List.dropWhile_cons, if_neg (by simp [hc])]

theorem takeWhile_of_head {p : Char → Bool} {s : List Char} (h : ∀ c ∈ s.head?, p c = false) :
    s.takeWhile p = [] := by
  cases s with
  | nil => rfl
  | cons c s =>
    have hc := h c rfl
    rw [List.takeWhile_cons, if_neg (by simp [hc])]

/-- A token, the delimiters behind it, and the rest. -/
theorem skip_eq {d tok sep rest : List Char} (htok : ∀ c ∈ tok, c ≠ '\n' ∧ isDelim d c = false)
    (hsep : sep.all (isDelim d) = true) (hrest : ∀ c ∈ rest.head?, isDelim d c = false)
    (hstop : sep = [] → rest = []) : skip (tok ++ (sep ++ rest)) d = (tok, rest) := by
  have hpos : ∀ c ∈ tok, (c ≠ '\n' && !isDelim d c) = true := by
    intro c hc
    simp [htok c hc]
  have hhead : ∀ c ∈ (sep ++ rest).head?, (c ≠ '\n' && !isDelim d c) = false := by
    cases sep with
    | nil =>
      rw [hstop rfl]
      intro c hc
      cases hc
    | cons x sep =>
      intro c hc
      obtain rfl := Option.some.inj hc
      simp [List.all_eq_true.mp hsep x List.mem_cons_self]
  unfold skip
  rw [List.takeWhile_append_of_pos hpos, List.dropWhile_append_of_pos hpos,
    takeWhile_of_head hhead, dropWhile_of_head hhead,
    List.dropWhile_append_of_pos (List.all_eq_true.mp hsep),
    dropWhile_of_head hrest, List.append_nil]

theorem isDelim_of_lineByte {d : List Char} {c : Char} (h : lineByte c = true) (hd : c ∉ d) :
    isDelim d c = false := by
  have hnul := (lineByte_ne h).2.2.2
  simp [isDelim, hd, hnul]

theorem tokenByte_line {c : Char} (h : tokenByte c = true) : lineByte c = true ∧ c ≠ ' ' := by
  simpa [tokenByte] using h

/-! ## Headers -/

theorem SendableHeader.line_bytes {h : List Char × List Char} (hs : SendableHeader h) :
    headerLine h ≠ [] ∧ ∀ c ∈ headerLine h, lineByte c = true := by
  refine ⟨by simp [headerLine], ?_⟩
  intro c hc
  unfold headerLine at hc
  obtain hc | hc := List.mem_append.mp hc
  · exact (tokenByte_line (hs.name c hc).1).1
  · obtain rfl | rfl | hc := List.mem_cons.mp hc |>.imp id List.mem_cons.mp
    · decide
    · decide
    · exact hs.value c hc

/-- The first token of a line is the name, the second the value. -/
theorem SendableHeader.skip_name {h : List Char × List Char} (hs : SendableHeader h) :
    ∃ rest, skip (withEnd (headerLine h)) [':', ' ', '\r', '\n'] = (h.1, rest) ∧
      skip rest ['\r', '\n'] = (h.2, []) := by
  obtain ⟨k, v⟩ := h
  have hname : ∀ c ∈ k, c ≠ '\n' ∧ isDelim [':', ' ', '\r', '\n'] c = false := by
    intro c hc
    obtain ⟨htoken, hcolon⟩ := hs.name c hc
    obtain ⟨hline, hblank⟩ := tokenByte_line htoken
    obtain ⟨-, hlf, hcr, -⟩ := lineByte_ne hline
    exact ⟨hlf, isDelim_of_lineByte hline (by simp [hcolon, hblank, hlf, hcr])⟩
  have hvalue : ∀ c ∈ v, c ≠ '\n' ∧ isDelim ['\r', '\n'] c = false := by
    intro c hc
    have hline := hs.value c hc
    obtain ⟨-, hlf, hcr, -⟩ := lineByte_ne hline
    exact ⟨hlf, isDelim_of_lineByte hline (by simp [hlf, hcr])⟩
  cases v with
  | nil =>
    -- the blank and the end of the line are skipped with the colon
    refine ⟨[], ?_, rfl⟩
    have hline : withEnd (headerLine (k, [])) = k ++ ([':', ' ', '\r', '\n'] ++ []) := by
      simp [withEnd, headerLine]
    rw [hline]
    exact skip_eq hname (by decide) (fun c hc => by cases hc) (fun h => by cases h)
  | cons x v =>
    refine ⟨x :: v ++ ['\r', '\n'], ?_, ?_⟩
    · have hline : withEnd (headerLine (k, x :: v)) =
          k ++ ([':', ' '] ++ (x :: v ++ ['\r', '\n'])) := by
        simp [withEnd, headerLine]
      rw [hline]
      refine skip_eq hname (by decide) ?_ (fun h => by cases h)
      intro c hc
      obtain rfl : x = c := Option.some.inj hc
      obtain ⟨hblank, hcolon⟩ := hs.value_head x rfl
      obtain ⟨-, hlf, hcr, -⟩ := lineByte_ne (hs.value x List.mem_cons_self)
      exact isDelim_of_lineByte (hs.value x List.mem_cons_self)
        (by simp [hcolon, hblank, hlf, hcr])
    · have hcrlf := @skip_eq ['\r', '\n'] (x :: v) ['\r', '\n'] [] hvalue (by decide)
        (fun c hc => by cases hc) (fun h => by cases h)
      rw [List.append_nil] at hcrlf
      exact hcrlf

/-- What follows a line is no empty line without a carriage return. -/
theorem head_lines {headers : Headers} (h : ∀ x ∈ headers, SendableHeader x) :
    ∀ c ∈ (headers.flatMap (fun x => withEnd (headerLine x)) ++ ['\r', '\n']).head?,
      isDelim ['\n'] c = false := by
  intro c hc
  cases headers with
  | nil =>
    obtain rfl : '\r' = c := Option.some.inj hc
    decide
  | cons x headers =>
    have hx := h x List.mem_cons_self
    obtain ⟨d, line, hline⟩ := List.exists_cons_of_ne_nil hx.line_bytes.1
    rw [List.flatMap_cons, hline] at hc
    obtain rfl : d = c := Option.some.inj hc
    have hd : lineByte d = true := hx.line_bytes.2 d (by rw [hline]; exact List.mem_cons_self)
    exact isDelim_of_lineByte hd (by simp [(lineByte_ne hd).2.1])

/-- The lines of the headers are taken apart into the headers. -/
theorem mgHttpParseHeaders_wire {headers : Headers} (h : ∀ x ∈ headers, SendableHeader x)
    {slots : Nat} (hslots : headers.length ≤ slots) :
    mgHttpParseHeaders slots (headers.flatMap (fun x => withEnd (headerLine x)) ++ ['\r', '\n']) =
      headers := by
  induction headers generalizing slots with
  | nil =>
    cases slots with
    | zero => rfl
    | succ slots => rfl
  | cons x headers ih =>
    cases slots with
    | zero => cases hslots
    | succ slots =>
      have hx := h x List.mem_cons_self
      obtain ⟨hne, hbytes⟩ := hx.line_bytes
      obtain ⟨rest, hname, hvalue⟩ := hx.skip_name
      have hheadMore := head_lines fun y hy => h y (List.mem_cons_of_mem _ hy)
      generalize hmore : headers.flatMap (fun x => withEnd (headerLine x)) ++ ['\r', '\n'] = more
        at ih hheadMore
      have htmp : skip (withEnd (headerLine x) ++ more) ['\n'] =
          (headerLine x ++ ['\r'], more) := by
        have hsplit : withEnd (headerLine x) ++ more =
            (headerLine x ++ ['\r']) ++ (['\n'] ++ more) := by
          simp [withEnd]
        rw [hsplit]
        refine skip_eq ?_ (by decide) hheadMore (fun h => by cases h)
        intro c hc
        obtain hc | hc := List.mem_append.mp hc
        · obtain ⟨-, hlf, -⟩ := lineByte_ne (hbytes c hc)
          exact ⟨hlf, isDelim_of_lineByte (hbytes c hc) (by simp [hlf])⟩
        · rw [List.mem_singleton.mp hc]
          decide
      rw [List.flatMap_cons, List.append_assoc, hmore, mgHttpParseHeaders, htmp]
      dsimp only
      have htake : (withEnd (headerLine x) ++ more).take
          ((withEnd (headerLine x) ++ more).length - more.length) = withEnd (headerLine x) := by
        rw [List.length_append, Nat.add_sub_cancel, List.take_left]
      rw [htake, hname]
      dsimp only
      rw [hvalue]
      dsimp only
      have hlength : ¬ (x.1.length = (headerLine x ++ ['\r']).length) := by
        simp [headerLine]
      have htrim : x.2.rdropWhile (· = ' ') = x.2 := by
        rw [List.rdropWhile_eq_self_iff]
        intro hne
        simpa using hx.value_last _ (List.getLast?_eq_some_getLast hne)
      rw [if_neg hlength, if_neg hx.name_ne_nil, htrim, List.nil_append,
        ih (fun y hy => h y (List.mem_cons_of_mem _ hy)) (Nat.le_of_succ_le_succ hslots)]

/-! ## The length of the body -/

theorem to64From_numeral (n : Nat) : n < 2 ^ 62 → ∀ rest,
    to64From 0 (Nat.toDigits 10 n ++ rest) = to64From n rest := by
  induction n using Nat.strongRecOn with
  | ind n ih =>
    intro hn rest
    have hdigit : ∀ d : Fin 10, '0' ≤ d.val.digitChar ∧ d.val.digitChar ≤ '9' ∧
        d.val.digitChar.toNat - '0'.toNat = d.val := by
      decide
    rw [Nat.toDigits_eq_if (by decide)]
    split
    · rename_i hlt
      obtain ⟨hge, hle, hvalue⟩ := hdigit ⟨n, hlt⟩
      rw [List.singleton_append, to64From, if_pos ⟨hge, hle⟩, if_neg (by omega), hvalue]
      simp
    · obtain ⟨hge, hle, hvalue⟩ := hdigit ⟨n % 10, Nat.mod_lt _ (by decide)⟩
      rw [List.append_assoc, ih (n / 10) (by omega) (by omega), List.singleton_append, to64From,
        if_pos ⟨hge, hle⟩, if_neg (by omega), hvalue]
      congr 1
      dsimp only
      omega

/-- The digits of a number are read first. -/
theorem mgTo64_numeral_append {n : Nat} (hn : n < 2 ^ 62) (rest : List Char) :
    mgTo64 (Nat.toDigits 10 n ++ rest) = to64From n rest := by
  have hdigits := to64From_numeral n hn rest
  obtain ⟨d, ds, hcons⟩ := List.exists_cons_of_ne_nil (@Nat.toDigits_ne_nil n 10)
  have hd : d.isDigit = true := by
    apply isDigit_of_mem_numeral (n := n)
    rw [hcons]
    exact List.mem_cons_self
  have hdrop : (Nat.toDigits 10 n ++ rest).dropWhile (fun c => c = ' ' || c = '\t') =
      Nat.toDigits 10 n ++ rest := by
    apply dropWhile_of_head
    rw [hcons]
    intro c hc
    obtain rfl := Option.some.inj hc
    have hblank : d ≠ ' ' := by
      rintro rfl
      cases hd
    have htab : d ≠ '\t' := by
      rintro rfl
      cases hd
    simp [hblank, htab]
  have hminus : d ≠ '-' := by
    rintro rfl
    cases hd
  unfold mgTo64
  rw [hdrop]
  split
  · rename_i digits heq
    rw [hcons] at heq
    exact absurd (List.cons.inj heq).1 hminus
  · rw [hdigits]

/-- A length is read as it is written. -/
theorem mgTo64_numeral {n : Nat} (hn : n < 2 ^ 62) : mgTo64 (Nat.toDigits 10 n) = n := by
  have h := mgTo64_numeral_append hn []
  rw [List.append_nil] at h
  exact h

/-- A token of the request line. -/
theorem skip_token {tok rest : List Char} (h : ∀ c ∈ tok, tokenByte c = true)
    (hrest : ∀ c ∈ rest.head?, tokenByte c = true) :
    skip (tok ++ ' ' :: rest) [' '] = (tok, rest) := by
  have hplain : ∀ c, tokenByte c = true → c ≠ '\n' ∧ isDelim [' '] c = false := by
    intro c hc
    obtain ⟨hline, hblank⟩ := tokenByte_line hc
    exact ⟨(lineByte_ne hline).2.1, isDelim_of_lineByte hline (by simp [hblank])⟩
  exact @skip_eq [' '] tok [' '] rest (fun c hc => hplain c (h c hc)) (by decide)
    (fun c hc => (hplain c (hrest c hc)).2) (fun hnil => by cases hnil)

/-! ## The lines of a head -/

/-- A head whose three parts of the first line and headers are read as they are written. -/
structure HeadLines where
  first : List Char
  second : List Char
  third : List Char
  headers : Headers
  first_ne_nil : first ≠ []
  first_token : ∀ c ∈ first, tokenByte c = true
  second_ne_nil : second ≠ []
  second_token : ∀ c ∈ second, tokenByte c = true
  third_ne_nil : third ≠ []
  third_head : ∀ c ∈ third.head?, c ≠ ' '
  third_bytes : ∀ c ∈ third, lineByte c = true
  headers_ne_nil : headers ≠ []
  headers_le : headers.length ≤ maxHeaders
  headers_sendable : ∀ h ∈ headers, SendableHeader h

namespace HeadLines

def line (l : HeadLines) : List Char := l.first ++ ' ' :: (l.second ++ ' ' :: l.third)

def wire (l : HeadLines) : List Char :=
  withEnd l.line ++ (l.headers.flatMap (fun h => withEnd (headerLine h)) ++ ['\r', '\n'])

/-- The parts of the head, without the lengths. -/
def parts (l : HeadLines) : HttpHead where
  len := l.wire.length
  method := l.first
  uri := l.second.takeWhile (· ≠ '?')
  query := (l.second.dropWhile (· ≠ '?')).drop 1
  proto := l.third
  headers := l.headers
  bodyLen := -1
  messageLen := -1

def head (l : HeadLines) : HttpHead := l.parts.setLengths

variable (l : HeadLines)

theorem len_head : l.head.len = l.wire.length := (setLengths_fields _).1

theorem line_bytes : l.line ≠ [] ∧ ∀ c ∈ l.line, lineByte c = true := by
  unfold line
  refine ⟨by simp, ?_⟩
  intro c hc
  obtain hc | hc := List.mem_append.mp hc
  · exact (tokenByte_line (l.first_token c hc)).1
  · obtain rfl | hc := List.mem_cons.mp hc
    · decide
    · obtain hc | hc := List.mem_append.mp hc
      · exact (tokenByte_line (l.second_token c hc)).1
      · obtain rfl | hc := List.mem_cons.mp hc
        · decide
        · exact l.third_bytes c hc

/-- The end of the head is found. -/
theorem requestLen_wire (rest : List Char) :
    mgHttpGetRequestLen (l.wire ++ rest) = l.wire.length := by
  obtain ⟨hne, hbytes⟩ := l.line_bytes
  have hlines : ∀ line ∈ l.headers.map headerLine, line ≠ [] ∧ ∀ c ∈ line, lineByte c = true := by
    intro line hline
    obtain ⟨h, hmem, rfl⟩ := List.mem_map.mp hline
    exact (l.headers_sendable h hmem).line_bytes
  have hwire : l.wire ++ rest = withEnd l.line ++
      ((l.headers.map headerLine).flatMap withEnd ++ '\r' :: '\n' :: rest) := by
    simp [wire, List.flatMap_map]
  have hlength : l.wire.length = l.line.length + 2 +
      (((l.headers.map headerLine).flatMap withEnd).length + 2) := by
    simp [wire, List.flatMap_map, withEnd]
    omega
  unfold mgHttpGetRequestLen
  rw [hwire, requestLenFrom_line hbytes hne, List.append_nil,
    requestLenFrom_lines hlines (by simpa using hne), List.length_reverse, hlength]

/-- The head is taken apart. -/
theorem parseHead_wire : parseHead l.wire = some l.head := by
  obtain ⟨x, headers, hheaders⟩ := List.exists_cons_of_ne_nil l.headers_ne_nil
  have hx : SendableHeader x := by
    apply l.headers_sendable
    rw [hheaders]
    exact List.mem_cons_self
  generalize hlines : l.headers.flatMap (fun h => withEnd (headerLine h)) ++ ['\r', '\n'] = lines
  have hwire : l.wire = l.first ++ ' ' :: (l.second ++ ' ' ::
      (l.third ++ (['\r', '\n'] ++ lines))) := by
    simp [wire, line, withEnd, ← hlines]
  have hfirst : skip l.wire [' '] =
      (l.first, l.second ++ ' ' :: (l.third ++ (['\r', '\n'] ++ lines))) := by
    rw [hwire]
    refine skip_token l.first_token ?_
    intro c hc
    obtain ⟨d, second, hsecond⟩ := List.exists_cons_of_ne_nil l.second_ne_nil
    rw [hsecond] at hc
    obtain rfl : d = c := Option.some.inj hc
    apply l.second_token
    rw [hsecond]
    exact List.mem_cons_self
  have hsecond : skip (l.second ++ ' ' :: (l.third ++ (['\r', '\n'] ++ lines))) [' '] =
      (l.second, l.third ++ (['\r', '\n'] ++ lines)) := by
    refine skip_token l.second_token ?_
    intro c hc
    obtain ⟨d, third, hthird⟩ := List.exists_cons_of_ne_nil l.third_ne_nil
    have hblank := l.third_head
    have hbytes := l.third_bytes
    rw [hthird] at hc hblank hbytes
    obtain rfl : d = c := Option.some.inj hc
    simp [tokenByte, hblank d rfl, hbytes d List.mem_cons_self]
  have hthird : skip (l.third ++ (['\r', '\n'] ++ lines)) ['\r', '\n'] = (l.third, lines) := by
    refine skip_eq ?_ (by decide) ?_ (fun hnil => by cases hnil)
    · intro c hc
      obtain ⟨-, hlf, hcr, -⟩ := lineByte_ne (l.third_bytes c hc)
      exact ⟨hlf, isDelim_of_lineByte (l.third_bytes c hc) (by simp [hlf, hcr])⟩
    · intro c hc
      obtain ⟨d, line, hline⟩ := List.exists_cons_of_ne_nil hx.line_bytes.1
      rw [← hlines, hheaders, List.flatMap_cons, hline] at hc
      obtain rfl : d = c := Option.some.inj hc
      have hd : lineByte d = true := hx.line_bytes.2 d (by rw [hline]; exact List.mem_cons_self)
      obtain ⟨-, hlf, hcr, -⟩ := lineByte_ne hd
      exact isDelim_of_lineByte hd (by simp [hlf, hcr])
  unfold parseHead
  rw [hfirst]
  dsimp only
  rw [hsecond]
  dsimp only
  rw [hthird]
  dsimp only
  rw [if_neg (by simp [l.first_ne_nil, l.second_ne_nil]), ← hlines,
    mgHttpParseHeaders_wire l.headers_sendable l.headers_le]
  rfl

/-- The head is found with whatever follows it. -/
theorem mgHttpParse_wire (rest : List Char) : mgHttpParse (l.wire ++ rest) = .head l.head := by
  have hlen := l.requestLen_wire rest
  have hpos : 0 < l.wire.length :=
    List.length_pos_iff.mpr (List.append_ne_nil_of_left_ne_nil (List.append_ne_nil_of_left_ne_nil
      l.line_bytes.1 _) _)
  obtain ⟨n, hn⟩ := Nat.exists_eq_succ_of_ne_zero (Nat.ne_of_gt hpos)
  have htake : (l.wire ++ rest).take (n + 1) = l.wire := by
    rw [← Nat.succ_eq_add_one, ← hn, List.take_left]
  rw [hn] at hlen
  apply mgHttpParse_of_len hlen
  rw [htake, parseHead_wire]

/-- The lengths that are read if a length is named. -/
theorem lengths_declared {n : Nat}
    (hcl : mgHttpGetHeader l.headers "Content-Length".toList = some (Nat.toDigits 10 n))
    (hbound : l.wire.length + n < 2 ^ 62) :
    l.head.bodyLen.toNat = n ∧ l.head.messageLen.toNat = l.wire.length + n := by
  have hlength : l.parts.contentLength = some (n : Int) := by
    unfold HttpHead.contentLength
    rw [show l.parts.headers = l.headers from rfl, hcl, Option.map_some,
      mgTo64_numeral (by omega)]
  unfold head
  rw [setLengths_some hlength, if_neg (by omega), show l.parts.len = l.wire.length from rfl]
  simp
  omega

/-- The message is the head and as much as it names of what follows. -/
theorem httpFrame_declared {n : Nat}
    (hcl : mgHttpGetHeader l.headers "Content-Length".toList = some (Nat.toDigits 10 n))
    (hbound : l.wire.length + n < 2 ^ 62) {rest : List Char} (hrest : n ≤ rest.length) :
    httpFrame (l.wire ++ rest) = .message ⟨l.head, some (rest.take n)⟩ (l.wire.length + n) := by
  obtain ⟨hbody, hmessage⟩ := l.lengths_declared hcl hbound
  have hlen := l.len_head
  have hbodyIn : l.head.bodyIn (l.wire ++ rest) = some (rest.take n) := by
    unfold HttpHead.bodyIn
    rw [if_pos (by omega), hmessage, hlen, hbody, List.take_length_add_append, List.drop_left,
      List.take_take, Nat.min_self]
  rw [httpFrame_head (l.mgHttpParse_wire rest), hmessage,
    if_pos (by rw [List.length_append]; omega), hbodyIn]

end HeadLines

/-! ## The head of a request -/

namespace HttpRequest
variable (r : HttpRequest)

/-- The lines of the head. -/
def lines : HeadLines where
  first := r.method
  second := r.uri
  third := "HTTP/1.1".toList
  headers := r.headers
  first_ne_nil := r.method_ne_nil
  first_token := r.method_token
  second_ne_nil := r.uri_ne_nil
  second_token := r.uri_token
  third_ne_nil := by decide
  third_head c hc := by
    obtain rfl : 'H' = c := Option.some.inj hc
    decide
  third_bytes := List.all_eq_true.mp (by decide)
  headers_ne_nil := r.headers_ne_nil
  headers_le := r.headers_le
  headers_sendable := r.headers_sendable

theorem len_head : r.head.len = r.wireHead.length := (setLengths_fields _).1

theorem length_wire : r.wire.length = r.wireHead.length + r.body.length := List.length_append

/-- The lengths that are read are those of the body and of the message. -/
theorem lengths_head (hlength : r.wire.length < 2 ^ 62) :
    r.head.bodyLen.toNat = r.body.length ∧ r.head.messageLen.toNat = r.wire.length := by
  have hwire := r.length_wire
  obtain hdeclared | ⟨hnone, hbody, hput, hpost⟩ := r.length_declared
  · rw [hwire] at hlength ⊢
    exact r.lines.lengths_declared hdeclared hlength
  · have hcl : r.parts.contentLength =
        (mgHttpGetHeader r.headers "Content-Length".toList).map mgTo64 := rfl
    have hlen : r.parts.len = r.wireHead.length := rfl
    have hnoBody : r.parts.noBody = true := by
      have hresponse : r.parts.isResponse = false := r.not_response
      have hmethod : r.parts.method = r.method := rfl
      unfold HttpHead.noBody
      rw [hresponse, hmethod]
      simpa using ⟨hput, hpost⟩
    rw [hnone] at hcl
    unfold head
    rw [setLengths_none hcl, if_pos hnoBody, hlen, hwire, hbody]
    simp
    omega

/-- The head of a request is found with whatever follows it. -/
theorem mgHttpParse_wireHead (rest : List Char) :
    mgHttpParse (r.wireHead ++ rest) = .head r.head := r.lines.mgHttpParse_wire rest

/-- The head is not found before its last byte. -/
theorem mgHttpParse_part {k : Nat} (hk : k < r.wireHead.length) :
    mgHttpParse (r.wireHead.take k) = .more := by
  by_contra hmore
  have happend := mgHttpParse_append hmore (r.wireHead.drop k)
  rw [List.take_append_drop] at happend
  have hhead := r.mgHttpParse_wireHead []
  rw [List.append_nil] at hhead
  have hle := (mgHttpParse_complete (happend.symm.trans hhead)).2.2
  rw [r.len_head, List.length_take] at hle
  omega

/-- What is made of the first bytes of a request. -/
theorem parse_part {s : List Char} (hs : s <+: r.wire) :
    mgHttpParse s = if r.wireHead.length ≤ s.length then .head r.head else .more := by
  obtain ⟨t, ht⟩ := hs
  have htake : s = r.wire.take s.length := by
    rw [← ht, List.take_left]
  split
  · rename_i hle
    have hsplit : s = r.wireHead ++ s.drop r.wireHead.length := by
      have hhead : s.take r.wireHead.length = r.wireHead := by
        rw [htake, List.take_take, Nat.min_eq_left hle, wire, List.take_left]
      conv_lhs => rw [← List.take_append_drop r.wireHead.length s, hhead]
    rw [hsplit]
    exact r.mgHttpParse_wireHead _
  · rename_i hlt
    have hshort : s = r.wireHead.take s.length := by
      conv_lhs => rw [htake, wire, List.take_append_of_le_length (by omega)]
    rw [hshort]
    exact r.mgHttpParse_part (by omega)

theorem head_parts : r.head.method = r.method ∧ r.head.uri = r.uri.takeWhile (· ≠ '?') ∧
    r.head.isChunked = false := by
  obtain ⟨hmethod, huri, hheaders⟩ := setLengths_parts r.parts
  refine ⟨hmethod, huri, ?_⟩
  unfold HttpHead.isChunked head
  rw [hheaders, show r.parts.headers = r.headers from rfl, r.not_chunked]

end HttpRequest

/-! ## Forms -/

theorem lineByte_of_digit {c : Char} (h : c.isDigit = true) :
    lineByte c = true ∧ c ≠ ' ' ∧ c ≠ ':' := by
  have hbounds : 48 ≤ c.toNat ∧ c.toNat ≤ 57 := by
    simpa [Char.isDigit, UInt32.le_iff_toNat_le] using h
  have hcodes : ' '.toNat = 32 ∧ ':'.toNat = 58 := by decide
  refine ⟨?_, ?_, ?_⟩
  · simp [lineByte, isprint]
    omega
  · rintro rfl
    omega
  · rintro rfl
    omega

theorem sendable_length (n : Nat) :
    SendableHeader ("Content-Length".toList, Nat.toDigits 10 n) where
  name_ne_nil := (by decide : "Content-Length".toList ≠ [])
  name := by
    have hall : ("Content-Length".toList).all (fun c => tokenByte c && c ≠ ':') = true := by decide
    intro c hc
    simpa using List.all_eq_true.mp hall c hc
  value c hc := (lineByte_of_digit (isDigit_of_mem_numeral hc)).1
  value_head c hc :=
    (lineByte_of_digit (isDigit_of_mem_numeral (List.mem_of_mem_head? hc))).2
  value_last c hc :=
    (lineByte_of_digit (isDigit_of_mem_numeral (List.mem_of_mem_getLast? hc))).2.1

theorem sendable_host : SendableHeader ("Host".toList, "127.0.0.1:8081".toList) where
  name_ne_nil := by decide
  name := by
    have hall : ("Host".toList).all (fun c => tokenByte c && c ≠ ':') = true := by decide
    intro c hc
    simpa using List.all_eq_true.mp hall c hc
  value := List.all_eq_true.mp (by decide)
  value_head := by
    intro c hc
    obtain rfl : '1' = c := Option.some.inj hc
    decide
  value_last := by
    intro c hc
    obtain rfl : '1' = c := Option.some.inj hc
    decide

/-- The POST of a form. -/
def portsRequest (form : List FormField) : HttpRequest where
  method := "POST".toList
  uri := "/ajax_port_values".toList
  headers := [("Host".toList, "127.0.0.1:8081".toList),
    ("Content-Length".toList, Nat.toDigits 10 (formBody form).length)]
  body := formBody form
  method_ne_nil := by decide
  method_token := List.all_eq_true.mp (by decide)
  uri_ne_nil := by decide
  uri_token := List.all_eq_true.mp (by decide)
  headers_ne_nil := List.cons_ne_nil _ _
  headers_le := Nat.le_of_ble_eq_true rfl
  headers_sendable := by
    intro h hmem
    obtain rfl | hmem := List.mem_cons.mp hmem
    · exact sendable_host
    · rw [List.mem_singleton.mp hmem]
      exact sendable_length _
  length_declared := .inl rfl
  not_response := by decide
  not_chunked := rfl

end SmartWarehouse.Server
