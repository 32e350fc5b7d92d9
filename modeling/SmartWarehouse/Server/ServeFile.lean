/-
  Files in answers: `mg_http_serve_file` of `mongoose.c`.

  A range in the request moves the position in the file and shortens the length that is announced,
  but not what is sent: `mg_http_parse` reads the answer as one message, and what the file has
  behind the end of the range follows it and belongs to no message (`file_answer_read`). A tag
  that a client sends back stands for every file of the same size whose time is the same modulo
  2^32 seconds (`revalidates_iff`).
-/
import SmartWarehouse.Server.Answers

namespace SmartWarehouse.Server

open SmartWarehouse.Lib

/-! ## Files -/

structure FileStat where
  isDir : Bool
  size : Nat
  mtime : Nat

/-- `struct mg_fs`: full paths, what is known of a file, and the contents of one that can be
    opened. Two assumptions, as for `_fullpath` on Windows: a `realpath` that fails leaves its
    buffer empty, and a full path does not end in the slashes that `uri_to_path` removes, so that
    the text of the root is whole whenever something is found. -/
structure Fs where
  realpath : List Char → Option (List Char)
  stat : List Char → Option FileStat
  fopen : List Char → Option (List Char)

def quotationMark : Char := Char.ofNat 34

/-- `mg_http_etag`. The time is printed as an `unsigned long`, of 32 bits on Windows. -/
def mgHttpEtag (size mtime : Nat) : List Char :=
  quotationMark :: (Nat.toDigits 16 (mtime % 2 ^ 32) ++
    '.' :: (Nat.toDigits 10 size ++ [quotationMark]))

def mimeTypes : List (String × String) :=
  [("html", "text/html; charset=utf-8"), ("htm", "text/html; charset=utf-8"),
    ("css", "text/css; charset=utf-8"), ("js", "text/javascript; charset=utf-8"),
    ("gif", "image/gif"), ("png", "image/png"), ("woff", "font/woff"), ("ttf", "font/ttf"),
    ("aac", "audio/aac"), ("avi", "video/x-msvideo"), ("azw", "application/vnd.amazon.ebook"),
    ("bin", "application/octet-stream"), ("bmp", "image/bmp"), ("bz", "application/x-bzip"),
    ("bz2", "application/x-bzip2"), ("csv", "text/csv"), ("doc", "application/msword"),
    ("epub", "application/epub+zip"), ("exe", "application/octet-stream"),
    ("gz", "application/gzip"), ("ico", "image/x-icon"), ("json", "application/json"),
    ("mid", "audio/mid"), ("mjs", "text/javascript"), ("mov", "video/quicktime"),
    ("mp3", "audio/mpeg"), ("mp4", "video/mp4"), ("mpeg", "video/mpeg"), ("mpg", "video/mpeg"),
    ("ogg", "application/ogg"), ("pdf", "application/pdf"), ("rar", "application/rar"),
    ("rtf", "application/rtf"), ("shtml", "text/html; charset=utf-8"), ("svg", "image/svg+xml"),
    ("tar", "application/tar"), ("tgz", "application/tar-gz"),
    ("txt", "text/plain; charset=utf-8"), ("wasm", "application/wasm"), ("wav", "audio/wav"),
    ("weba", "audio/webm"), ("webm", "video/webm"), ("webp", "image/webp"),
    ("xls", "application/excel"), ("xml", "application/xml"), ("xsl", "application/xml"),
    ("zip", "application/zip"), ("3gp", "video/3gpp"), ("7z", "application/x-7z-compressed"),
    ("7z", "application/x-7z-compressed")]

/-- `guess_content_type` without overrides: the type of what follows the last dot. -/
def guessContentType (path : List Char) : List Char :=
  let extension := (path.reverse.takeWhile (· ≠ '.')).reverse
  (((mimeTypes.find? fun e => e.1.toList = extension).map Prod.snd).getD
    "text/plain; charset=utf-8").toList

/-- `mg_vcasecmp(s, t) == 0`. -/
def mgVcaseEq (s t : List Char) : Bool := s.length = t.length && mgNcaseEq s t

/-! ## Ranges -/

/-- What follows the first `bytes=` that something follows. -/
def afterBytes : List Char → Option (List Char)
  | [] => none
  | c :: s =>
    if 6 < (c :: s).length && (c :: s).take 6 = "bytes=".toList then some ((c :: s).drop 6)
    else afterBytes s

def startsWithDigit (p : List Char) : Bool := p.head?.any Char.isDigit

/-- `getrange`: how many of the two numbers are there, and the numbers. -/
def getrange (s : List Char) : Nat × Int × Int :=
  match afterBytes s with
  | none => (0, 0, 0)
  | some p =>
    let rest := p.dropWhile Char.isDigit
    let rest := if rest.head? = some '-' then rest.drop 1 else rest
    ((if startsWithDigit p then 1 else 0) + if startsWithDigit rest then 1 else 0, mgTo64 p,
      mgTo64 rest)

/-- The part of a file that an answer announces. -/
inductive FileRange where
  | whole
  | part (first last : Nat)
  | unsatisfiable
deriving DecidableEq

/-- What the `Range` header makes of a file of this size. -/
def fileRange (hm : HttpHead) (size : Nat) : FileRange :=
  match mgHttpGetHeader hm.headers "Range".toList with
  | none => .whole
  | some rh =>
    let (n, r1, r2) := getrange rh
    if 0 < n ∧ 0 ≤ r1 ∧ 0 ≤ r2 then
      -- the second limit of `400-` is the end of the file
      let r2 := if n = 1 then (size : Int) - 1 else r2
      if r2 < r1 ∨ size ≤ r2 then .unsatisfiable else .part r1.toNat r2.toNat
    else .whole

namespace FileRange

def status : FileRange → Nat
  | whole => 200
  | part _ _ => 206
  | unsatisfiable => 416

/-- Where the file is read from. -/
def position : FileRange → Nat
  | whole => 0
  | part first _ => first
  | unsatisfiable => 0

/-- The length that is announced. -/
def length (size : Nat) : FileRange → Nat
  | whole => size
  | part first last => last - first + 1
  | unsatisfiable => 0

def headers (size : Nat) : FileRange → Headers
  | whole => []
  | part first last =>
    [("Content-Range".toList, "bytes ".toList ++ (Nat.toDigits 10 first ++
      '-' :: (Nat.toDigits 10 last ++ '/' :: Nat.toDigits 10 size)))]
  | unsatisfiable => [("Content-Range".toList, "bytes */".toList ++ Nat.toDigits 10 size)]

/-- The bytes that are asked for. -/
def bytes (content : List Char) : FileRange → List Char
  | whole => content
  | part first last => (content.drop first).take (last - first + 1)
  | unsatisfiable => []

/-- The bytes that are sent behind the announced ones. -/
def stray (content : List Char) : FileRange → List Char
  | whole => []
  | part _ last => content.drop (last + 1)
  | unsatisfiable => content

/-- A part of a file of this size. -/
def Within (size : Nat) (range : FileRange) : Prop :=
  ∀ first last, range = .part first last → first ≤ last ∧ last < size

end FileRange

/-! ## The answer -/

/-- The client has the file of this tag. -/
def notModified (hm : HttpHead) (st : FileStat) : Bool :=
  (mgHttpGetHeader hm.headers "If-None-Match".toList).any fun inm =>
    mgVcaseEq inm (mgHttpEtag st.size st.mtime)

def fileHeaders (path : List Char) (st : FileStat) (range : FileRange) : Headers :=
  [("Content-Type".toList, guessContentType path),
    ("Etag".toList, mgHttpEtag st.size st.mtime), contentLength (range.length st.size)] ++
    range.headers st.size

def mgHttpServeFile (fs : Fs) (hm : HttpHead) (path : List Char) : Answer :=
  match fs.fopen path, fs.stat path with
  | some content, some st =>
    if notModified hm st then .ofPieces [answerHead 304 [contentLength 0]]
    else
      let range := fileRange hm st.size
      let head := answerHead range.status (fileHeaders path st range)
      if mgVcaseEq hm.method "HEAD".toList then ⟨[head], none, true⟩
      else ⟨[head], some (content.drop range.position), false⟩
  | _, _ => mgHttpReply 404 [] "Not found\n".toList

/-! ## Headers of files -/

theorem mgHttpEtag_eq (size mtime : Nat) :
    mgHttpEtag size mtime = quotationMark ::
      (Nat.toDigits 16 (mtime % 2 ^ 32) ++ '.' :: Nat.toDigits 10 size) ++ [quotationMark] := by
  simp [mgHttpEtag]

theorem sendable_etag (st : FileStat) :
    SendableHeader ("Etag".toList, mgHttpEtag st.size st.mtime) := by
  refine sendable_of_all (by decide) (by decide) ?_
  have hbytes : (mgHttpEtag st.size st.mtime).all lineByte = true := by
    simp [mgHttpEtag, numeral_bytes (b := 16), numeral_bytes (b := 10)]
    decide
  have hlast : (mgHttpEtag st.size st.mtime).getLast? = some quotationMark := by
    rw [mgHttpEtag_eq, List.getLast?_concat]
  have hhead : (mgHttpEtag st.size st.mtime).head? = some quotationMark := rfl
  have hmark : some quotationMark ≠ some ' ' ∧ some quotationMark ≠ some ':' := by decide
  simp [sendableValue, hbytes, hlast, hhead, hmark]

theorem sendable_contentRange (size : Nat) (range : FileRange) :
    ∀ h ∈ range.headers size, SendableHeader h := by
  cases range with
  | whole => exact fun h hh => nomatch hh
  | part first last =>
    intro h hh
    have hvalue : "bytes ".toList ++ (Nat.toDigits 10 first ++
        '-' :: (Nat.toDigits 10 last ++ '/' :: Nat.toDigits 10 size)) =
          ("bytes ".toList ++ (Nat.toDigits 10 first ++ '-' :: (Nat.toDigits 10 last ++ ['/']))) ++
            Nat.toDigits 10 size := by
      simp
    have hbytes : ("bytes ".toList ++ (Nat.toDigits 10 first ++
        '-' :: (Nat.toDigits 10 last ++ ['/']))).all lineByte = true := by
      simp only [List.all_append, List.all_cons, numeral_bytes (b := 10) (by decide) (by decide)]
      decide
    rw [List.mem_singleton.mp hh]
    refine sendable_of_all (by decide) (by decide) ?_
    rw [hvalue]
    exact sendableValue_numeral (List.cons_ne_nil _ _) hbytes ⟨nofun, nofun⟩ size
  | unsatisfiable =>
    intro h hh
    rw [List.mem_singleton.mp hh]
    refine sendable_of_all (by decide) (by decide) ?_
    exact sendableValue_numeral (by decide) (by decide) (by decide) size

/-- Every type of the table can be sent. -/
theorem mimeTypes_sendable : mimeTypes.all (fun e => sendableValue e.2.toList) = true := by
  decide +kernel

theorem sendable_contentType (path : List Char) :
    SendableHeader ("Content-Type".toList, guessContentType path) := by
  refine sendable_of_all (by decide) (by decide) ?_
  unfold guessContentType
  dsimp only
  cases hfind : mimeTypes.find? fun e =>
      e.1.toList = (path.reverse.takeWhile (· ≠ '.')).reverse with
  | none => decide
  | some e => exact List.all_eq_true.mp mimeTypes_sendable e (List.mem_of_find?_eq_some hfind)

/-! ## Files on the wire -/

theorem fileHeaders_ne_nil (path : List Char) (st : FileStat) (range : FileRange) :
    fileHeaders path st range ≠ [] := List.cons_ne_nil _ _

theorem fileHeaders_le (path : List Char) (st : FileStat) (range : FileRange) :
    (fileHeaders path st range).length ≤ maxHeaders := by
  cases range <;> exact Nat.le_of_ble_eq_true rfl

theorem fileHeaders_sendable (path : List Char) (st : FileStat) (range : FileRange) :
    ∀ h ∈ fileHeaders path st range, SendableHeader h := by
  intro h hh
  obtain hh | hh := List.mem_append.mp hh
  · simp only [List.mem_cons, List.not_mem_nil, or_false] at hh
    obtain rfl | rfl | rfl := hh
    · exact sendable_contentType path
    · exact sendable_etag st
    · exact sendable_length _
  · exact sendable_contentRange st.size range h hh

/-- The head of an answer with a file. -/
def fileLines (path : List Char) (st : FileStat) (range : FileRange) : HeadLines :=
  answerLines range.status (fileHeaders path st range) (fileHeaders_ne_nil path st range)
    (fileHeaders_le path st range) (fileHeaders_sendable path st range)

theorem fileLines_wire (path : List Char) (st : FileStat) (range : FileRange) :
    (fileLines path st range).wire = answerHead range.status (fileHeaders path st range) := rfl

theorem fileLines_length (path : List Char) (st : FileStat) (range : FileRange) :
    mgHttpGetHeader (fileLines path st range).headers "Content-Length".toList =
      some (Nat.toDigits 10 (range.length st.size)) := rfl

theorem fileLines_etag (path : List Char) (st : FileStat) (range : FileRange) :
    mgHttpGetHeader (fileLines path st range).head.headers "Etag".toList =
      some (mgHttpEtag st.size st.mtime) := by
  unfold HeadLines.head
  rw [(setLengths_parts _).2.2]
  rfl

/-- The message has the status of the range. -/
theorem fileLines_status (path : List Char) (st : FileStat) (range : FileRange) :
    (fileLines path st range).head.uri = Nat.toDigits 10 range.status := by
  unfold HeadLines.head
  rw [(setLengths_parts _).2.1]
  apply List.takeWhile_eq_self_iff.mpr
  intro c hc
  have hdigit := isDigit_of_mem_numeral (n := range.status) hc
  have hmark : c ≠ '?' := by
    rintro rfl
    cases hdigit
  simpa using hmark

theorem fileRange_within (hm : HttpHead) (size : Nat) : (fileRange hm size).Within size := by
  intro first last hpart
  unfold fileRange at hpart
  split at hpart
  · cases hpart
  · rename_i rh hrange
    generalize getrange rh = numbers at hpart
    obtain ⟨n, r1, r2⟩ := numbers
    dsimp only at hpart
    generalize (if n = 1 then (size : Int) - 1 else r2) = last' at hpart
    split at hpart
    · rename_i hnumbers
      split at hpart
      · cases hpart
      · obtain ⟨rfl, rfl⟩ := FileRange.part.inj hpart
        omega
    · cases hpart

/-- What is announced is what is asked for, and the rest of the file follows it. -/
theorem FileRange.Within.split {range : FileRange} {size : Nat} (h : range.Within size)
    {content : List Char} (hsize : content.length = size) :
    range.position + range.length size ≤ size ∧
      (content.drop range.position).take (range.length size) = range.bytes content ∧
        content.drop (range.position + range.length size) = range.stray content := by
  subst hsize
  cases range with
  | whole => simp [position, length, bytes, stray]
  | part first last =>
    obtain ⟨hle, hlt⟩ := h first last rfl
    have hend : first + (last - first + 1) = last + 1 := by omega
    refine ⟨?_, rfl, ?_⟩
    · show first + (last - first + 1) ≤ content.length
      omega
    · show content.drop (first + (last - first + 1)) = content.drop (last + 1)
      rw [hend]
  | unsatisfiable => simp [position, length, bytes, stray]

section
variable {fs : Fs} {hm : HttpHead} {path content : List Char} {st : FileStat}

/-- The answer with a file. -/
theorem mgHttpServeFile_file (hopen : fs.fopen path = some content)
    (hstat : fs.stat path = some st) (hnew : notModified hm st = false)
    (hget : mgVcaseEq hm.method "HEAD".toList = false) :
    mgHttpServeFile fs hm path =
      ⟨[(fileLines path st (fileRange hm st.size)).wire],
        some (content.drop (fileRange hm st.size).position), false⟩ := by
  unfold mgHttpServeFile
  rw [hopen, hstat]
  dsimp only
  rw [hnew, if_neg (by decide), hget, if_neg (by decide), ← fileLines_wire]

/-- The answer is read as a message with the bytes that are announced; the others follow it. -/
theorem mgHttpServeFile_message (hopen : fs.fopen path = some content)
    (hstat : fs.stat path = some st) (hsize : content.length = st.size)
    (hnew : notModified hm st = false) (hget : mgVcaseEq hm.method "HEAD".toList = false)
    (hlength : (mgHttpServeFile fs hm path).bytes.length < 2 ^ 62) :
    ∃ consumed, ∀ rest, httpFrame ((mgHttpServeFile fs hm path).bytes ++ rest) =
        .message ⟨(fileLines path st (fileRange hm st.size)).head,
          some ((fileRange hm st.size).bytes content)⟩ consumed ∧
      ((mgHttpServeFile fs hm path).bytes ++ rest).drop consumed =
        (fileRange hm st.size).stray content ++ rest := by
  have hbytes : (mgHttpServeFile fs hm path).bytes =
      (fileLines path st (fileRange hm st.size)).wire ++
        content.drop (fileRange hm st.size).position := by
    rw [mgHttpServeFile_file hopen hstat hnew hget]
    simp [Answer.bytes]
  obtain ⟨hle, hasked, hstray⟩ := FileRange.Within.split (fileRange_within hm st.size) hsize
  rw [hbytes, List.length_append, List.length_drop] at hlength
  rw [hbytes]
  generalize fileRange hm st.size = range at hle hasked hstray hlength
  have hannounced : range.length st.size ≤ (content.drop range.position).length := by
    rw [List.length_drop]
    omega
  refine ⟨(fileLines path st range).wire.length + range.length st.size, fun rest => ⟨?_, ?_⟩⟩
  · rw [List.append_assoc, HeadLines.httpFrame_declared _ (fileLines_length path st range)
      (by omega) (by rw [List.length_append]; omega), List.take_append_of_le_length hannounced,
      hasked]
  · rw [List.append_assoc, List.drop_length_add_append,
      List.drop_append_of_le_length hannounced, List.drop_drop, hstray]

end

/-! ## Ranges that are asked for -/

/-- What a client asks for: a whole file, its bytes from one on, or those from one to another. -/
inductive Asked where
  | whole
  | onward (first : Nat)
  | between (first last : Nat)

namespace Asked

/-- The value of the `Range` header. -/
def header : Asked → Option (List Char)
  | whole => none
  | onward first => some ("bytes=".toList ++ (Nat.toDigits 10 first ++ ['-']))
  | between first last =>
    some ("bytes=".toList ++ (Nat.toDigits 10 first ++ '-' :: Nat.toDigits 10 last))

/-- What there is of it in a file of this size. -/
def range (size : Nat) : Asked → FileRange
  | whole => .whole
  | onward first => if first < size then .part first (size - 1) else .unsatisfiable
  | between first last =>
    if first ≤ last ∧ last < size then .part first last else .unsatisfiable

/-- The numbers fit into the integers of the program. -/
def Fits : Asked → Prop
  | whole => True
  | onward first => first < 2 ^ 62
  | between first last => first < 2 ^ 62 ∧ last < 2 ^ 62

end Asked

theorem numeral_starts (n : Nat) (rest : List Char) :
    startsWithDigit (Nat.toDigits 10 n ++ rest) = true := by
  obtain ⟨d, ds, hcons⟩ := List.exists_cons_of_ne_nil (@Nat.toDigits_ne_nil n 10)
  have hd : d.isDigit = true := by
    apply isDigit_of_mem_numeral (n := n)
    rw [hcons]
    exact List.mem_cons_self
  rw [hcons]
  exact hd

theorem afterBytes_start {t : List Char} (ht : t ≠ []) :
    afterBytes ("bytes=".toList ++ t) = some t := by
  have hlength := List.length_pos_iff.mpr ht
  show afterBytes ('b' :: 'y' :: 't' :: 'e' :: 's' :: '=' :: t) = some t
  rw [afterBytes, if_pos]
  · rfl
  · simp [hlength]

/-- The first number, and what there is behind the sign. -/
theorem getrange_numeral {first : Nat} (hfirst : first < 2 ^ 62) (rest : List Char) :
    getrange ("bytes=".toList ++ (Nat.toDigits 10 first ++ '-' :: rest)) =
      (1 + if startsWithDigit rest then 1 else 0, (first : Int), mgTo64 rest) := by
  have hne : Nat.toDigits 10 first ++ '-' :: rest ≠ [] := by simp
  have hrest : (Nat.toDigits 10 first ++ '-' :: rest).dropWhile Char.isDigit = '-' :: rest := by
    rw [List.dropWhile_append_of_pos fun c hc => isDigit_of_mem_numeral hc]
    rfl
  have hvalue : mgTo64 (Nat.toDigits 10 first ++ '-' :: rest) = first := by
    rw [mgTo64_numeral_append hfirst]
    rfl
  unfold getrange
  rw [afterBytes_start hne]
  dsimp only
  rw [hrest, hvalue, numeral_starts]
  rfl

/-- The numbers that are read decide which part it is. -/
theorem fileRange_numbers {hm : HttpHead} {rh : List Char} {n first : Nat} {r2 last : Int}
    (hheader : mgHttpGetHeader hm.headers "Range".toList = some rh)
    (hnumbers : getrange rh = (n, (first : Int), r2)) (hn : 0 < n) (hr2 : 0 ≤ r2) {size : Nat}
    (hlast : (if n = 1 then (size : Int) - 1 else r2) = last) :
    fileRange hm size =
      if first ≤ last ∧ last < size then .part first last.toNat else .unsatisfiable := by
  unfold fileRange
  rw [hheader]
  dsimp only
  rw [hnumbers]
  dsimp only
  rw [if_pos (by omega), hlast]
  split <;> split
  · omega
  · rfl
  · rfl
  · omega

/-- A range is read as it is asked for. -/
theorem fileRange_asked {hm : HttpHead} {asked : Asked} (hfits : asked.Fits)
    (hheader : mgHttpGetHeader hm.headers "Range".toList = asked.header) (size : Nat) :
    fileRange hm size = asked.range size := by
  cases asked with
  | whole =>
    unfold fileRange
    rw [hheader]
    rfl
  | onward first =>
    have hnumbers := getrange_numeral hfits []
    rw [fileRange_numbers hheader hnumbers (by decide) (by decide) (if_pos rfl), Asked.range]
    split <;> split
    · congr
      omega
    · omega
    · omega
    · rfl
  | between first last =>
    have hstarts := numeral_starts last []
    have hnumbers := getrange_numeral hfits.1 (Nat.toDigits 10 last)
    rw [List.append_nil] at hstarts
    rw [hstarts, mgTo64_numeral hfits.2] at hnumbers
    rw [fileRange_numbers hheader hnumbers (by decide) (by omega) (if_neg (by decide)),
      Asked.range]
    split <;> split
    · rfl
    · omega
    · omega
    · rfl

/-- An answer with a whole file is one message. -/
theorem mgHttpServeFile_readAs {fs : Fs} {hm : HttpHead} {path content : List Char} {st : FileStat}
    (hopen : fs.fopen path = some content) (hstat : fs.stat path = some st)
    (hsize : content.length = st.size) (hnew : notModified hm st = false)
    (hget : mgVcaseEq hm.method "HEAD".toList = false)
    (hrange : mgHttpGetHeader hm.headers "Range".toList = none)
    (hlength : (mgHttpServeFile fs hm path).bytes.length < 2 ^ 62) :
    (mgHttpServeFile fs hm path).ReadAs ⟨(fileLines path st .whole).head, some content⟩ := by
  obtain ⟨consumed, hread⟩ := mgHttpServeFile_message hopen hstat hsize hnew hget hlength
  have hwhole : fileRange hm st.size = .whole := @fileRange_asked hm .whole trivial hrange st.size
  rw [hwhole] at hread
  have hall : consumed = (mgHttpServeFile fs hm path).bytes.length := by
    obtain ⟨hmessage, hdrop⟩ := hread []
    have hle := httpFrame_stable.size_le hmessage
    rw [List.append_nil] at hle hdrop
    exact Nat.le_antisymm hle (List.drop_eq_nil_iff.mp hdrop)
  intro rest
  rw [← hall]
  exact (hread rest).1

/-- A file system with one file, of eleven bytes. -/
def oneFile (content : List Char) (mtime : Nat) : Fs where
  realpath := some
  stat path := if path = "/hello".toList then some ⟨false, content.length, mtime⟩ else none
  fopen path := if path = "/hello".toList then some content else none

def helloFs : Fs := oneFile "hello world".toList 5

def getHello (headers : Headers) : HttpHead where
  len := 0
  method := "GET".toList
  uri := "/hello".toList
  query := []
  proto := "HTTP/1.1".toList
  headers := headers
  bodyLen := 0
  messageLen := 0

def helloRange : HttpHead := getHello [("Range".toList, "bytes=2-4".toList)]

theorem toDigits_injective {b : Nat} (hb : 1 < b) (h16 : b ≤ 16) :
    Function.Injective (Nat.toDigits b) := by
  have hdigit : ∀ d e : Fin 16, d.val.digitChar = e.val.digitChar → d.val = e.val := by decide
  -- a numeral of one digit is no longer one
  have hlong : ∀ k (c d : Char), [c] ≠ Nat.toDigits b k ++ [d] := by
    intro k c d heq
    have hlength := congrArg List.length heq
    simp at hlength
  intro n
  induction n using Nat.strongRecOn with
  | ind n ih =>
    intro m heq
    rw [Nat.toDigits_eq_if hb (n := n), Nat.toDigits_eq_if hb (n := m)] at heq
    split at heq <;> split at heq
    · rename_i hn hm
      exact hdigit ⟨n, by omega⟩ ⟨m, by omega⟩ (List.cons.inj heq).1
    · exact absurd heq (hlong _ _ _)
    · exact absurd heq.symm (hlong _ _ _)
    · rename_i hn hm
      obtain ⟨hfront, hlast⟩ := List.append_inj' heq rfl
      have hmodn := Nat.mod_lt n (Nat.lt_of_succ_lt hb)
      have hmodm := Nat.mod_lt m (Nat.lt_of_succ_lt hb)
      have hdiv := ih (n / b) (Nat.div_lt_self (by omega) hb) hfront
      have hmod := hdigit ⟨n % b, by omega⟩ ⟨m % b, by omega⟩ (List.cons.inj hlast).1
      rw [← Nat.div_add_mod n b, ← Nat.div_add_mod m b, hdiv]
      exact congrArg _ hmod

theorem dot_not_mem {b : Nat} (hb : 1 < b) (h16 : b ≤ 16) (n : Nat) : '.' ∉ Nat.toDigits b n := by
  intro h
  obtain ⟨d, hd⟩ := mem_toDigits hb h16 h
  exact (digit16 d).2.2.1 hd.symm

theorem mgHttpEtag_inj {size size' mtime mtime' : Nat} :
    mgHttpEtag size mtime = mgHttpEtag size' mtime' ↔
      size = size' ∧ mtime % 2 ^ 32 = mtime' % 2 ^ 32 := by
  constructor
  · intro heq
    have htail := (List.cons.inj heq).2
    have hbehind : '.' ∉ Nat.toDigits 10 size ++ [quotationMark] := by
      rw [List.mem_append, not_or]
      exact ⟨dot_not_mem (by decide) (by decide) size, by decide⟩
    obtain ⟨htime, -, hsize⟩ := (List.append_cons_inj_of_notMem
      (dot_not_mem (by decide) (by decide) _) hbehind).mp htail
    exact ⟨toDigits_injective (by decide) (by decide) (List.append_cancel_right hsize),
      toDigits_injective (by decide) (by decide) htime⟩
  · rintro ⟨rfl, htime⟩
    unfold mgHttpEtag
    rw [htime]

theorem lower_numeral {b : Nat} (hb : 1 < b) (h16 : b ≤ 16) (n : Nat) :
    (Nat.toDigits b n).map mgLower = Nat.toDigits b n := by
  conv_rhs => rw [← List.map_id (Nat.toDigits b n)]
  apply List.map_congr_left
  intro c hc
  obtain ⟨d, rfl⟩ := mem_toDigits hb h16 hc
  exact (digit16 d).2.1

/-- A tag has no letters in upper case. -/
theorem lower_etag (size mtime : Nat) :
    (mgHttpEtag size mtime).map mgLower = mgHttpEtag size mtime := by
  have hmark : mgLower quotationMark = quotationMark := by decide
  have hdot : mgLower '.' = '.' := by decide
  simp [mgHttpEtag, lower_numeral, hmark, hdot]

theorem mgVcaseEq_iff (s t : List Char) : mgVcaseEq s t = true ↔ s.map mgLower = t.map mgLower := by
  unfold mgVcaseEq mgNcaseEq
  constructor
  · intro h
    obtain ⟨hlength, htexts⟩ : s.length = t.length ∧
        (t.take s.length).map mgLower = s.map mgLower := by
      simpa using h
    rw [hlength, List.take_length] at htexts
    exact htexts.symm
  · intro h
    have hlength : s.length = t.length := by
      simpa using congrArg List.length h
    simp [hlength, h]

/-- A tag that is sent back stands for the size and the time. -/
theorem notModified_iff {hm : HttpHead} {size mtime : Nat}
    (hsent : mgHttpGetHeader hm.headers "If-None-Match".toList = some (mgHttpEtag size mtime))
    (st : FileStat) : notModified hm st = true ↔
      st.size = size ∧ st.mtime % 2 ^ 32 = mtime % 2 ^ 32 := by
  unfold notModified
  rw [hsent, Option.any_some, mgVcaseEq_iff, lower_etag, lower_etag, mgHttpEtag_inj]
  exact ⟨fun h => ⟨h.1.symm, h.2.symm⟩, fun h => ⟨h.1.symm, h.2.symm⟩⟩

/-- The only answer without a file that leaves the connection as it is. -/
theorem mgHttpServeFile_notModified_iff {fs : Fs} {path content : List Char} {st : FileStat}
    (hopen : fs.fopen path = some content) (hstat : fs.stat path = some st) (hm : HttpHead) :
    mgHttpServeFile fs hm path = .ofPieces [answerHead 304 [contentLength 0]] ↔
      notModified hm st = true := by
  unfold mgHttpServeFile
  rw [hopen, hstat]
  dsimp only
  split
  · simp_all
  · rename_i hmodified
    split <;> simp_all [Answer.ofPieces]

/-- The tag that a client reads in an answer with a file, sent back later, makes the answer a
    statement that nothing has changed exactly if the file that is there then has the size of the
    one that was sent and its time, modulo 2^32 seconds. -/
theorem revalidates_iff {fs fs' : Fs} {hm hm' : HttpHead} {path path' content content' : List Char}
    {st st' : FileStat} {m : HttpMsg} {consumed : Nat} {rest tag : List Char}
    (hopen : fs.fopen path = some content) (hstat : fs.stat path = some st)
    (hsize : content.length = st.size) (hnew : notModified hm st = false)
    (hget : mgVcaseEq hm.method "HEAD".toList = false)
    (hlength : (mgHttpServeFile fs hm path).bytes.length < 2 ^ 62)
    (hread : httpFrame ((mgHttpServeFile fs hm path).bytes ++ rest) = .message m consumed)
    (htag : mgHttpGetHeader m.head.headers "Etag".toList = some tag)
    (hopen' : fs'.fopen path' = some content') (hstat' : fs'.stat path' = some st')
    (hsent : mgHttpGetHeader hm'.headers "If-None-Match".toList = some tag) :
    mgHttpServeFile fs' hm' path' = .ofPieces [answerHead 304 [contentLength 0]] ↔
      st'.size = st.size ∧ st'.mtime % 2 ^ 32 = st.mtime % 2 ^ 32 := by
  obtain ⟨size, hframe⟩ := mgHttpServeFile_message hopen hstat hsize hnew hget hlength
  obtain ⟨rfl, -⟩ := Front.message.inj (hread.symm.trans (hframe rest).1)
  have hfile : tag = mgHttpEtag st.size st.mtime :=
    Option.some.inj (htag.symm.trans (fileLines_etag path st _))
  rw [hfile] at hsent
  rw [mgHttpServeFile_notModified_iff hopen' hstat', notModified_iff hsent]

/-- Another file, 2^32 seconds later, is not noticed. -/
theorem revalidates_iff_wraps :
    mgHttpServeFile (oneFile "other words".toList (5 + 2 ^ 32))
        (getHello [("If-None-Match".toList, mgHttpEtag 11 5)]) "/hello".toList =
      .ofPieces [answerHead 304 [contentLength 0]] := by
  obtain ⟨consumed, hread⟩ := @mgHttpServeFile_message helloFs (getHello []) "/hello".toList
    "hello world".toList ⟨false, 11, 5⟩ rfl rfl rfl rfl (by decide) (by decide +kernel)
  have hiff := @revalidates_iff helloFs (oneFile "other words".toList (5 + 2 ^ 32)) (getHello [])
    (getHello [("If-None-Match".toList, mgHttpEtag 11 5)]) "/hello".toList "/hello".toList
    "hello world".toList "other words".toList ⟨false, 11, 5⟩ ⟨false, 11, 5 + 2 ^ 32⟩ _ consumed [] _
    rfl rfl rfl rfl (by decide) (by decide +kernel) (hread []).1 (fileLines_etag _ _ _) rfl rfl rfl
  exact hiff.mpr ⟨rfl, by decide⟩

end SmartWarehouse.Server
