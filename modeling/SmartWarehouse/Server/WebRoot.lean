/-
  The web root: `uri_to_path` and `mg_http_serve_dir` of `mongoose.c`.

  The decoded URI is written behind the path of the root, and what it resolves to has to begin
  with the text of that path. So nothing else is sent, but of what begins with it everything can be
  asked for, in the root or beside it: there is a request for the rest of every such path
  (`exposed_iff`). A request that is refused gets one answer, or two if its path is neither
  there nor behind the root (`refusals_read`).
-/
import SmartWarehouse.Server.ServeFile

namespace SmartWarehouse.Server

open SmartWarehouse.Lib

/-! ## Paths -/

/-- `MG_PATH_MAX`. -/
def pathMax : Nat := 260

/-- What `mg_url_decode` leaves of a URI behind the path of the root. -/
def appended (root uri : List Char) : List Char :=
  let buf := List.replicate (pathMax - root.length) nul
  cstr ((mgUrlDecode uri buf false).2.set (buf.length - 1) nul)

/-- The path of an index file, as far as it fits. -/
def indexPath (path name : List Char) : List Char := (path ++ name).take (pathMax - 1)

/-- The index file of a directory that has one. -/
def withIndex (fs : Fs) (path : List Char) (st : FileStat) : List Char × FileStat :=
  if st.isDir then
    let html := indexPath path "/index.html".toList
    let shtml := indexPath path "/index.shtml".toList
    match fs.stat html, fs.stat shtml with
    | some st', _ => (html, st')
    | none, some st' => (shtml, st')
    | none, none => (path, st)
  else (path, st)

/-- What becomes of a URI. -/
inductive Target where
  | refused (replies : List Answer)
  | dir (path : List Char)
  | file (path : List Char)

def badRoot (rootDir : List Char) : Answer :=
  mgHttpReply 400 [] ("Bad web root [".toList ++ (rootDir ++ "]\n".toList))

def invalidRoot (root : List Char) : Answer :=
  mgHttpReply 400 [("Content-Type".toList, "text/plain".toList)] ("Invalid web root [".toList ++
    (root ++ ("].\r\nPlease, change variable MG_HTTP_FOLDER at the beggining of the module " ++
      "[niDAQWebInterface.cpp].\r\nThis module is in your VStudio project.").toList))

def notFound : Answer := mgHttpReply 404 [] "Not found\n".toList

def invalidUri (uri : List Char) : Answer :=
  mgHttpReply 404 [] ("Invalid URI [".toList ++ (uri ++ "]\n".toList))

/-- The path that is asked for, before it is resolved. -/
def unresolved (root uri : List Char) : List Char :=
  (root ++ appended root uri).rdropWhile (· = '/')

/-- What a path is resolved to if something is there. -/
def resolve (fs : Fs) (path : List Char) : Option (List Char × FileStat) :=
  (fs.realpath path).bind fun p => (fs.stat p).map fun st => (p, st)

/-- The buffer of the resolved path begins with that of the root, of which the end may have been
    removed with the slashes. -/
def behindRoot (fs : Fs) (root uri : List Char) : Bool :=
  root.isPrefixOf ((fs.realpath (unresolved root uri)).getD []) &&
    root.isPrefixOf (unresolved root uri)

def uriToPath (fs : Fs) (rootDir uri : List Char) : Target :=
  match fs.realpath rootDir with
  | none => .refused [badRoot rootDir]
  | some root =>
    if (fs.stat root).any FileStat.isDir then
      match resolve fs (unresolved root uri) with
      | none => .refused (notFound :: if behindRoot fs root uri then [] else [invalidUri uri])
      | some (path, st) =>
        let (path, st) := withIndex fs path st
        if root.isPrefixOf path then if st.isDir then .dir path else .file path
        else .refused [invalidUri uri]
    else .refused [invalidRoot root]

/-- `mg_http_serve_dir` without a pattern for server side includes. The page that `listdir` makes
    is not determined. -/
def mgHttpServeDir (fs : Fs) (rootDir : List Char) (hm : HttpHead) (listdir : List Char → Answer) :
    Answer :=
  match uriToPath fs rootDir hm.uri with
  | .refused replies => .ofPieces (replies.flatMap Answer.pieces)
  | .dir path => listdir path
  | .file path => mgHttpServeFile fs hm path

/-! ## What is sent -/

/-- What is sent has a path that begins with that of the root. -/
theorem uriToPath_file {fs : Fs} {rootDir root uri p : List Char}
    (hroot : fs.realpath rootDir = some root) (h : uriToPath fs rootDir uri = .file p) :
    root <+: p := by
  unfold uriToPath at h
  rw [hroot] at h
  dsimp only at h
  split at h
  · split at h
    · cases h
    · split at h
      · rename_i hprefix
        split at h
        · cases h
        · rw [← Target.file.inj h]
          exact List.isPrefixOf_iff_prefix.mp hprefix
      · cases h
  · cases h

/-- The plus sign is all that the two kinds of decoding differ in. -/
theorem mgUrlDecodeFrom_plain {src : List Char} (h : '+' ∉ src) (j : Nat) (dst : List Char) :
    mgUrlDecodeFrom false src j dst = mgUrlDecodeFrom true src j dst := by
  fun_induction mgUrlDecodeFrom true src j dst with
  | case1 j dst hj => rw [mgUrlDecodeFrom, if_pos hj]
  | case2 j dst hj => rw [mgUrlDecodeFrom, if_neg hj]
  | case3 j dst hj a b src hhex ih =>
    rw [mgUrlDecodeFrom, if_pos hj, if_pos rfl, if_pos hhex]
    exact ih (by simp_all)
  | case4 j dst hj a b src hhex =>
    rw [mgUrlDecodeFrom, if_pos hj, if_pos rfl, if_neg hhex]
  | case5 src j dst hj hshort =>
    rw [mgUrlDecodeFrom.eq_def]
    dsimp only
    rw [if_pos hj, if_pos rfl]
    split
    · rename_i a b src'
      exact absurd rfl (hshort a b src')
    · rfl
  | case6 c src j dst hj hpercent hplus ih =>
    have hc : c = '+' := by simpa using hplus
    exact absurd (hc ▸ List.mem_cons_self) h
  | case7 c src j dst hj hpercent hplus ih =>
    rw [mgUrlDecodeFrom.eq_def]
    dsimp only
    rw [if_pos hj, if_neg hpercent, Bool.false_and, if_neg Bool.false_ne_true]
    exact ih fun hsrc => h (List.mem_cons_of_mem _ hsrc)
  | case8 c src j dst hj =>
    rw [mgUrlDecodeFrom.eq_def]
    dsimp only
    rw [if_neg hj]

theorem safe_chars {c : Char} (h : mgIsUrlSafe c = true) :
    tokenByte c = true ∧ c ≠ '?' ∧ c ≠ '/' ∧ c ≠ '+' := by
  have hcases : (48 ≤ c.toNat ∧ c.toNat ≤ 57) ∨ (97 ≤ c.toNat ∧ c.toNat ≤ 122) ∨
      (65 ≤ c.toNat ∧ c.toNat ≤ 90) ∨ c = '.' ∨ c = '_' ∨ c = '-' ∨ c = '~' := by
    simpa [mgIsUrlSafe, Char.le_def, UInt32.le_iff_toNat_le, or_assoc] using h
  have hblank : c ≠ ' ' := safe_ne h (by decide)
  have hline : lineByte c = true := by
    unfold lineByte isprint
    obtain hdigit | hlower | hupper | rfl | rfl | rfl | rfl := hcases
    · simp
      omega
    · simp
      omega
    · simp
      omega
    · decide
    · decide
    · decide
    · decide
  refine ⟨?_, safe_ne h (by decide), safe_ne h (by decide), safe_ne h (by decide)⟩
  simp [tokenByte, hline, hblank]

theorem encoded_chars {s : List Char} (h : ∀ c ∈ s, IsByte c) :
    ∀ d ∈ encoded s, tokenByte d = true ∧ d ≠ '?' ∧ d ≠ '/' ∧ d ≠ '+' := by
  intro d hd
  rw [encoded_eq] at hd
  obtain ⟨c, hc, hd⟩ := List.mem_flatMap.mp hd
  unfold encodeByte at hd
  split at hd
  · rename_i hsafe
    rw [List.mem_singleton.mp hd]
    exact safe_chars hsafe
  · have hbyte := h c hc
    unfold IsByte at hbyte
    simp only [mgHex, List.mem_cons, List.not_mem_nil, or_false] at hd
    obtain rfl | rfl | rfl := hd
    · decide
    · exact safe_chars (hexDigits_safe ⟨c.toNat / 16, by omega⟩)
    · exact safe_chars (hexDigits_safe ⟨c.toNat % 16, by omega⟩)

/-- A text that is encoded is what is left of it. -/
theorem appended_encoded {root s : List Char} (hbytes : ∀ c ∈ s, IsByte c) (hnul : nul ∉ s)
    (hfits : root.length + s.length < pathMax) : appended root (encoded s) = s := by
  have hplus : '+' ∉ encoded s := fun hmem => (encoded_chars hbytes _ hmem).2.2.2 rfl
  obtain ⟨room, hroom⟩ : ∃ room, pathMax - root.length = room + 1 :=
    ⟨pathMax - root.length - 1, by omega⟩
  have hle : s.length ≤ room := by omega
  have hwrites := mgUrlDecodeFrom_writes (encoded s) room [] (List.replicate room nul) nul
    List.length_replicate
  rw [decoding_encoded hbytes, if_pos hle, List.take_of_length_le hle] at hwrites
  have hwritten : (mgUrlDecode (encoded s) (List.replicate (pathMax - root.length) nul) false).2 =
      putText s (List.replicate (room + 1) nul) := by
    unfold mgUrlDecode
    rw [mgUrlDecodeFrom_plain hplus, hroom]
    exact hwrites
  unfold appended
  dsimp only
  rw [hwritten, hroom, List.length_replicate, Nat.add_sub_cancel]
  unfold putText
  rw [List.set_append_right _ _ hle]
  cases hlast : room - s.length with
  | zero => rw [List.set_cons_zero, cstr_append_nul, cstr_of_not_mem hnul]
  | succ k => rw [List.set_cons_succ, cstr_append_nul, cstr_of_not_mem hnul]

/-! ## What can be asked for -/

/-- A file under its full path, as the functions for files promise it. -/
structure FullPath (fs : Fs) (p : List Char) (st : FileStat) : Prop where
  resolved : fs.realpath p = some p
  found : fs.stat p = some st
  not_dir : st.isDir = false
  fits : p.length < pathMax
  bytes : ∀ c ∈ p, IsByte c ∧ c ≠ nul
  last : p.getLast? ≠ some '/'

theorem get_token : ∀ c ∈ "GET".toList, tokenByte c = true := by
  have hall : ("GET".toList).all tokenByte = true := by decide
  exact List.all_eq_true.mp hall

theorem encoded_ne_nil {rest : List Char} (hne : rest ≠ []) : encoded rest ≠ [] := by
  obtain ⟨c, rest, rfl⟩ := List.exists_cons_of_ne_nil hne
  rw [encoded_eq, List.flatMap_cons]
  exact List.append_ne_nil_of_left_ne_nil (encodeByte_ne_nil c) _

theorem host_sendable : ∀ h ∈ [("Host".toList, "127.0.0.1:8081".toList)], SendableHeader h := by
  intro h hh
  rw [List.mem_singleton.mp hh]
  exact sendable_host

theorem get_no_length :
    mgHttpGetHeader [("Host".toList, "127.0.0.1:8081".toList)] "Content-Length".toList =
        some (Nat.toDigits 10 ([] : List Char).length) ∨
      mgHttpGetHeader [("Host".toList, "127.0.0.1:8081".toList)] "Content-Length".toList = none ∧
        ([] : List Char) = [] ∧ "GET".toList.map mgLower ≠ "put".toList ∧
          "GET".toList.map mgLower ≠ "post".toList :=
  .inr ⟨rfl, rfl, by decide, by decide⟩

theorem get_not_response : mgNcaseEq "HTTP/".toList "GET".toList = false := by
  decide

/-- A request for the rest of a path. -/
def rawRequest (rest : List Char) (hne : rest ≠ []) (hbytes : ∀ c ∈ rest, IsByte c) :
    HttpRequest where
  method := "GET".toList
  uri := encoded rest
  headers := [("Host".toList, "127.0.0.1:8081".toList)]
  body := []
  method_ne_nil := List.cons_ne_nil _ _
  method_token := get_token
  uri_ne_nil := encoded_ne_nil hne
  uri_token := fun c hc => (encoded_chars hbytes c hc).1
  headers_ne_nil := List.cons_ne_nil _ _
  headers_le := Nat.le_of_ble_eq_true rfl
  headers_sendable := host_sendable
  length_declared := get_no_length
  not_response := get_not_response
  not_chunked := rfl

/-- The URI of the request is no service, and has no query. -/
theorem rawRequest_uri {rest : List Char} (hne : rest ≠ []) (hbytes : ∀ c ∈ rest, IsByte c)
    (s : PortServer) (env : Surroundings) :
    (evHandler s (rawRequest rest hne hbytes).message env).2 =
        .serveDir (rawRequest rest hne hbytes).message ∧
      (rawRequest rest hne hbytes).head.uri = encoded rest := by
  have hquery : (encoded rest).takeWhile (· ≠ '?') = encoded rest := by
    apply List.takeWhile_eq_self_iff.mpr
    intro c hc
    simpa using (encoded_chars hbytes c hc).2.1
  have hservice : ∀ service : String, service.toList.head? = some '/' →
      String.ofList (encoded rest) ≠ service := by
    intro service hslash heq
    have hlist := congrArg String.toList heq
    rw [String.toList_ofList] at hlist
    have hmem : '/' ∈ encoded rest := by
      rw [hlist]
      exact List.mem_of_mem_head? hslash
    exact (encoded_chars hbytes _ hmem).2.2.1 rfl
  refine ⟨?_, ?_⟩
  · have huri : (rawRequest rest hne hbytes).message.uri = String.ofList (encoded rest) :=
      congrArg String.ofList hquery
    unfold evHandler
    rw [huri, if_neg (hservice "/save" rfl), if_neg (hservice "/ajax_port_values" rfl)]
  · rw [(rawRequest rest hne hbytes).head_parts.2.1]
    exact hquery

/-- A file is sent to someone exactly if its full path begins with the text of the root, whether
    it is in the root or in a place beside it whose name goes on. -/
theorem exposed_iff {fs : Fs} {rootDir root p : List Char} {st rootSt : FileStat}
    (hroot : fs.realpath rootDir = some root) (hdir : fs.stat root = some rootSt)
    (hrootDir : rootSt.isDir = true) (hfile : FullPath fs p st) (s : PortServer)
    (env : Surroundings) :
    (∃ r : HttpRequest, (evHandler s r.message env).2 = .serveDir r.message ∧
      uriToPath fs rootDir r.head.uri = .file p) ↔ root <+: p := by
  constructor
  · rintro ⟨r, -, htarget⟩
    exact uriToPath_file hroot htarget
  · rintro ⟨rest, rfl⟩
    have hbytes : ∀ c ∈ rest, IsByte c := fun c hc =>
      (hfile.bytes c (List.mem_append_right _ hc)).1
    have hnul : nul ∉ rest := fun hmem => (hfile.bytes nul (List.mem_append_right _ hmem)).2 rfl
    have hne : rest ≠ [] := by
      rintro rfl
      have hsame := hfile.found
      rw [List.append_nil, hdir] at hsame
      have hnot := hfile.not_dir
      rw [← Option.some.inj hsame, hrootDir] at hnot
      cases hnot
    have hfits := hfile.fits
    rw [List.length_append] at hfits
    obtain ⟨hserve, huri⟩ := rawRequest_uri hne hbytes s env
    refine ⟨rawRequest rest hne hbytes, hserve, ?_⟩
    rw [huri]
    have hlast : unresolved root (encoded rest) = root ++ rest := by
      unfold unresolved
      rw [appended_encoded hbytes hnul hfits, List.rdropWhile_eq_self_iff]
      intro hnil hslash
      apply hfile.last
      rw [List.getLast?_eq_some_getLast hnil]
      simpa using hslash
    have hresolve : resolve fs (unresolved root (encoded rest)) = some (root ++ rest, st) := by
      unfold resolve
      rw [hlast, hfile.resolved, Option.bind_some, hfile.found]
      rfl
    have hprefix : root.isPrefixOf (root ++ rest) = true :=
      List.isPrefixOf_iff_prefix.mpr (List.prefix_append root rest)
    have hindex : withIndex fs (root ++ rest) st = (root ++ rest, st) := by
      unfold withIndex
      rw [hfile.not_dir]
      rfl
    unfold uriToPath
    rw [hroot]
    dsimp only
    rw [hdir, Option.any_some, if_pos hrootDir, hresolve]
    dsimp only
    rw [hindex]
    dsimp only
    rw [if_pos hprefix, hfile.not_dir]
    rfl

/-- A root, and a place beside it whose name goes on. -/
def besideFs : Fs where
  realpath := some
  stat path :=
    if path = "/www".toList then some ⟨true, 0, 0⟩
    else if path = "/www-old/key".toList then some ⟨false, 6, 0⟩
    else none
  fopen path := if path = "/www-old/key".toList then some "secret".toList else none

def besideSurroundings : Surroundings := ⟨[], fun _ => ⟨List.replicate 20 nul, length_blank⟩⟩

theorem exposed_iff_beside : ∃ r : HttpRequest,
    (evHandler (PortServer.start fun _ => .input) r.message besideSurroundings).2 =
        .serveDir r.message ∧
      uriToPath besideFs "/www".toList r.head.uri = .file "/www-old/key".toList := by
  have hfile : FullPath besideFs "/www-old/key".toList ⟨false, 6, 0⟩ := by
    refine ⟨rfl, rfl, rfl, by decide, ?_, by decide⟩
    have hall : ("/www-old/key".toList).all (fun c => decide (IsByte c ∧ c ≠ nul)) = true := by
      decide
    exact fun c hc => of_decide_eq_true (List.all_eq_true.mp hall c hc)
  exact (@exposed_iff besideFs "/www".toList "/www".toList "/www-old/key".toList ⟨false, 6, 0⟩
    ⟨true, 0, 0⟩ rfl rfl rfl hfile (PortServer.start fun _ => .input) besideSurroundings).mpr
    ⟨"-old/key".toList, rfl⟩

/-! ## Requests that are refused -/

theorem isReply_invalidRoot (root : List Char) : IsReply (invalidRoot root) := by
  refine ⟨400, _, _, rfl, Nat.le_of_ble_eq_true rfl, ?_, rfl⟩
  intro h hh
  rw [List.mem_singleton.mp hh]
  exact sendable_of_all (by decide) (by decide) (by decide)

/-- Nothing is there, and what there is not is not behind the root. -/
def Astray (fs : Fs) (rootDir uri : List Char) : Prop :=
  ∃ root, fs.realpath rootDir = some root ∧ (fs.stat root).any FileStat.isDir = true ∧
    resolve fs (unresolved root uri) = none ∧ behindRoot fs root uri = false

/-- The replies to a request that is refused. -/
theorem uriToPath_refused {fs : Fs} {rootDir uri : List Char} {replies : List Answer}
    (h : uriToPath fs rootDir uri = .refused replies) :
    (∀ a ∈ replies, IsReply a) ∧
      (replies.length = 1 ∧ ¬ Astray fs rootDir uri ∨
        replies.length = 2 ∧ Astray fs rootDir uri) := by
  have hnotFound : IsReply notFound := isReply_plain _ _
  have hinvalidUri : IsReply (invalidUri uri) := isReply_plain _ _
  unfold uriToPath at h
  cases hroot : fs.realpath rootDir with
  | none =>
    rw [hroot] at h
    rw [← Target.refused.inj h]
    have hstray : ¬ Astray fs rootDir uri := by
      rintro ⟨root, hsome, -⟩
      rw [hroot] at hsome
      cases hsome
    exact ⟨List.forall_mem_singleton.mpr (isReply_plain _ _), .inl ⟨rfl, hstray⟩⟩
  | some root =>
    rw [hroot] at h
    dsimp only at h
    have hastray : Astray fs rootDir uri ↔ (fs.stat root).any FileStat.isDir = true ∧
        resolve fs (unresolved root uri) = none ∧ behindRoot fs root uri = false := by
      unfold Astray
      rw [hroot]
      simp
    split at h
    · rename_i hdir
      split at h
      · rename_i hnone
        rw [← Target.refused.inj h]
        cases hbehind : behindRoot fs root uri with
        | true =>
          exact ⟨List.forall_mem_singleton.mpr hnotFound, .inl ⟨rfl, by simp [hastray, hbehind]⟩⟩
        | false =>
          refine ⟨?_, .inr ⟨rfl, hastray.mpr ⟨hdir, hnone, hbehind⟩⟩⟩
          intro a ha
          obtain rfl | ha := List.mem_cons.mp ha
          · exact hnotFound
          · rw [List.mem_singleton.mp ha]
            exact hinvalidUri
      · rename_i path st hsome
        split at h
        · split at h
          · cases h
          · cases h
        · rw [← Target.refused.inj h]
          exact ⟨List.forall_mem_singleton.mpr hinvalidUri, .inl ⟨rfl, by simp [hastray, hsome]⟩⟩
    · rename_i hdir
      rw [← Target.refused.inj h]
      exact ⟨List.forall_mem_singleton.mpr (isReply_invalidRoot root),
        .inl ⟨rfl, fun hstray => hdir (hastray.mp hstray).1⟩⟩

/-- The client reads one answer to a request that is refused, or two if its path is neither there
    nor behind the root. -/
theorem refusals_read {fs : Fs} {rootDir : List Char} {hm : HttpHead} {replies : List Answer}
    {listdir : List Char → Answer} (hrefused : uriToPath fs rootDir hm.uri = .refused replies)
    (hlength : (mgHttpServeDir fs rootDir hm listdir).bytes.length < 2 ^ 62) :
    ∃ ms, Whole httpFrame (mgHttpServeDir fs rootDir hm listdir).bytes ms [] false ∧
      (ms.length = 1 ∧ ¬ Astray fs rootDir hm.uri ∨ ms.length = 2 ∧ Astray fs rootDir hm.uri) := by
  obtain ⟨hreplies, hcount⟩ := uriToPath_refused hrefused
  have hbytes : (mgHttpServeDir fs rootDir hm listdir).bytes = replies.flatMap Answer.bytes := by
    unfold mgHttpServeDir
    rw [hrefused]
    exact bytes_of_replies hreplies
  rw [hbytes] at hlength ⊢
  obtain ⟨ms, hcut, hreads⟩ := answers_cut fun a ha =>
    (hreplies a ha).read (Nat.lt_of_le_of_lt (length_bytes_le ha) hlength)
  refine ⟨ms, ⟨hcut, (whole_nil httpFrame_stable).2⟩, ?_⟩
  rw [← hreads.length_eq]
  exact hcount

/-- A request for a place beside the root where nothing is. -/
def strayFs : Fs :=
  { besideFs with
    realpath := fun p => some (if p = "/www/../key".toList then "/key".toList else p) }

def strayRequest : HttpHead := { getHello [] with uri := "/../key".toList }

theorem refusals_read_stray : ∃ ms, Whole httpFrame
    (mgHttpServeDir strayFs "/www".toList strayRequest fun _ => .ofPieces []).bytes ms [] false ∧
      ms.length = 2 := by
  have hunresolved : unresolved "/www".toList "/../key".toList = "/www/../key".toList := by
    decide +kernel
  have hresolve : resolve strayFs (unresolved "/www".toList "/../key".toList) = none := by
    rw [hunresolved]
    rfl
  have hbehind : behindRoot strayFs "/www".toList "/../key".toList = false := by
    unfold behindRoot
    rw [hunresolved]
    decide
  have hrefused : uriToPath strayFs "/www".toList strayRequest.uri =
      .refused [notFound, invalidUri "/../key".toList] := by
    show uriToPath strayFs "/www".toList "/../key".toList = _
    unfold uriToPath
    rw [show strayFs.realpath "/www".toList = some "/www".toList from rfl]
    dsimp only
    rw [hresolve, hbehind]
    rfl
  obtain ⟨ms, hwhole, hcount⟩ := @refusals_read strayFs "/www".toList strayRequest _
    (fun _ => .ofPieces []) hrefused (by unfold mgHttpServeDir; rw [hrefused]; decide +kernel)
  obtain ⟨-, hnot⟩ | ⟨htwo, -⟩ := hcount
  · exact absurd ⟨"/www".toList, rfl, rfl, hresolve, hbehind⟩ hnot
  · exact ⟨ms, hwhole, htwo⟩

end SmartWarehouse.Server
