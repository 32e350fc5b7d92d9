/-
  What the POSTs of a run leave behind: the texts of the ports and the count of requests.

  `mg_http_get_var` decodes into the row of a port as it goes, and the handler does not look at
  its return code. `decoding` says where the loop ends and which bytes it has written by then, so
  the row is known in every case (`getVar_decoding`), and a POST keeps a port without a decodable
  field exactly if these bytes happen to be its text (`bad_post_iff`). The count is a 32-bit `int`
  that is never reset: after n POSTs it is n modulo 2^32 (`available_run`), and the control code
  waits again once that is negative or below ten (`ready_iff`).
-/
import SmartWarehouse.Server.PortServer

namespace SmartWarehouse.Server

open SmartWarehouse.Lib

/-! ## Where the decoding ends -/

/-- How the loop of `mg_url_decode` ends: `src` is read, `dst` is full, or a `%` comes without two
    hexadecimal digits. -/
inductive Ending where
  | complete | full | badPercent
deriving DecidableEq, Repr

/-- The end of the loop with `room` bytes, and the bytes written before it. -/
def decoding : List Char → Nat → Ending × List Char
  | [], _ => (.complete, [])
  | _ :: _, 0 => (.full, [])
  | c :: src, room + 1 =>
    if c = '%' then
      match src with
      | a :: b :: src' =>
        if isxdigit a && isxdigit b then (decoding src' room).map id (mgUnhex a b :: ·)
        else (.badPercent, [])
      | _ => (.badPercent, [])
    else if c = '+' then (decoding src room).map id (' ' :: ·)
    else (decoding src room).map id (c :: ·)

/-- The buffer after the loop: the terminator is missing after a bad percent sign. -/
def written (result : Ending × List Char) (buf : List Char) : List Char :=
  if result.1 = .badPercent then result.2 ++ buf.drop result.2.length else putText result.2 buf

/-- The bytes that `mg_url_decode` writes, from any buffer with this room. -/
def WritesFrom (src : List Char) (room : Nat) : Prop :=
  ∀ pre post d, post.length = room →
    (mgUrlDecodeFrom true src pre.length (pre ++ d :: post)).2 =
      pre ++ written (decoding src room) (d :: post)

theorem written_cons (result : Ending × List Char) (c d : Char) (buf : List Char) :
    written (result.map id (c :: ·)) (d :: buf) = c :: written result buf := by
  unfold written
  by_cases h : result.1 = .badPercent
  · rw [if_pos h, if_pos (by simpa using h)]
    rfl
  · rw [if_neg h, if_neg (by simpa using h)]
    rfl

/-- One byte is written, and the rest of the value goes behind it. -/
theorem writes_next {src pre post : List Char} {room : Nat} {c d : Char}
    (h : WritesFrom src room) (hroom : post.length = room + 1) :
    (mgUrlDecodeFrom true src (pre.length + 1) ((pre ++ d :: post).set pre.length c)).2 =
      pre ++ written ((decoding src room).map id (c :: ·)) (d :: post) := by
  cases post with
  | nil => cases hroom
  | cons d' post =>
    have hnext := h (pre ++ [c]) post d' (Nat.succ.inj hroom)
    rw [List.length_append, List.length_singleton] at hnext
    rw [set_next, hnext, written_cons, List.append_assoc]
    rfl

theorem mgUrlDecodeFrom_writes (src : List Char) (room : Nat) : WritesFrom src room := by
  fun_induction decoding src room with
  | case1 room =>
    intro pre post d hroom
    have := length_buffer pre post d
    unfold mgUrlDecodeFrom decoding
    rw [if_pos (by omega), set_buffer]
    rfl
  | case2 c src =>
    intro pre post d hroom
    have := length_buffer pre post d
    unfold mgUrlDecodeFrom decoding
    rw [if_neg (by omega), set_buffer]
    rfl
  | case3 room a b src' hhex ih =>
    intro pre post d hroom
    have := length_buffer pre post d
    unfold mgUrlDecodeFrom decoding
    rw [if_pos (by omega), if_pos rfl, if_pos rfl]
    dsimp only
    rw [if_pos hhex, if_pos hhex]
    exact writes_next ih hroom
  | case4 room a b src' hhex =>
    intro pre post d hroom
    have := length_buffer pre post d
    unfold mgUrlDecodeFrom decoding
    rw [if_pos (by omega), if_pos rfl, if_pos rfl]
    dsimp only
    rw [if_neg hhex, if_neg hhex]
    rfl
  | case5 src room hshort =>
    intro pre post d hroom
    have := length_buffer pre post d
    unfold mgUrlDecodeFrom decoding
    rw [if_pos (by omega), if_pos rfl, if_pos rfl]
    -- neither loop finds two more characters
    rcases src with _ | ⟨a, _ | ⟨b, src'⟩⟩
    · rfl
    · rfl
    · exact absurd rfl (hshort a b src')
  | case6 room src hpercent ih =>
    intro pre post d hroom
    have := length_buffer pre post d
    unfold mgUrlDecodeFrom decoding
    rw [if_pos (by omega), if_neg hpercent, if_neg hpercent, if_pos rfl]
    exact writes_next ih hroom
  | case7 room src c hpercent hplus ih =>
    intro pre post d hroom
    have := length_buffer pre post d
    unfold mgUrlDecodeFrom decoding
    rw [if_pos (by omega), if_neg hpercent, if_neg hpercent, if_neg (by simpa using hplus),
      if_neg hplus]
    exact writes_next ih hroom

/-- A value decodes exactly if the loop reads it to its end. -/
theorem decode_eq_decoding (src : List Char) (room : Nat) :
    decode src room = if (decoding src room).1 = .complete then some (decoding src room).2
      else none := by
  have hcons : ∀ (result : Ending × List Char) (c : Char),
      ((if result.1 = .complete then some result.2 else none).map (c :: ·) : Option (List Char)) =
        if (result.map id (c :: ·)).1 = .complete then some (result.map id (c :: ·)).2
        else none := by
    intro result c
    by_cases h : result.1 = .complete <;> simp [h]
  fun_induction decoding src room with
  | case1 room => simp [decode]
  | case2 c src => simp [decode]
  | case3 room a b src' hhex ih =>
    unfold decode
    rw [if_pos rfl]
    dsimp only
    rw [if_pos hhex, ih]
    exact hcons _ _
  | case4 room a b src' hhex =>
    unfold decode
    rw [if_pos rfl]
    dsimp only
    rw [if_neg hhex]
    rfl
  | case5 room src hshort =>
    unfold decode
    rw [if_pos rfl]
    split
    · rename_i a b src'
      exact absurd rfl (hshort a b src')
    · rfl
  | case6 room src hpercent ih =>
    unfold decode
    rw [if_neg hpercent, if_pos rfl, ih]
    exact hcons _ _
  | case7 room src c hpercent hplus ih =>
    unfold decode
    rw [if_neg hpercent, if_neg hplus, ih]
    exact hcons _ _

/-! ## The row of a port after a POST -/

theorem getVar_written {dst body name value : List Char} (hdst : dst ≠ [])
    (hfield : field body name = some value) :
    (mgHttpGetVar body name dst).2 =
      written (decoding value (dst.length - 1)) (dst.set 0 nul) := by
  obtain ⟨d, post, rfl⟩ := List.exists_cons_of_ne_nil hdst
  have hwrites := mgUrlDecodeFrom_writes value post.length [] post nul rfl
  rw [mgHttpGetVar_field hdst hfield]
  split
  · exact hwrites
  · exact hwrites

/-- Bytes written over the start of a buffer keep its text if they begin it. -/
theorem cstr_overlay {p : List Char} (h : nul ∉ p) (buf : List Char) :
    cstr (p ++ buf.drop p.length) = cstr buf ↔ p <+: cstr buf := by
  constructor
  · intro heq
    rw [← heq, cstr_append_of_not_mem h]
    exact List.prefix_append _ _
  · intro hprefix
    have hbuf : p <+: buf := hprefix.trans (List.takeWhile_prefix _)
    rw [List.prefix_iff_eq_append.mp hbuf]

theorem cstr_set_nul {buf : List Char} (h : buf ≠ []) : cstr (buf.set 0 nul) = [] := by
  obtain ⟨d, post, rfl⟩ := List.exists_cons_of_ne_nil h
  simp [cstr]

/-- The field of the port decodes to the text. -/
def FieldText (body : List Char) (i : Port) (text : List Char) : Prop :=
  ∃ value, field body (portName i) = some value ∧ decode value 9 = some text

/-- A port that the POST stores holds the text of its field, and keeps its own text if the field
    has none. -/
def HoldsOrKeeps (s : PortServer) (body : List Char) (buf : Port → ManualBuffer) (i : Port) :
    Prop :=
  Stores s.portsType body buf i = true →
    (∀ text, FieldText body i text →
      ((s.post body buf).mgPorts i).bytes = putText text (s.mgPorts i).bytes) ∧
    ((∀ text, ¬ FieldText body i text) →
      ((s.post body buf).mgPorts i).text = (s.mgPorts i).text)

/-- The bytes that a field without a text leaves at the start of the row are those of the text
    it had. -/
def Unharmed (t : PortText) (body : List Char) (i : Port) : Prop :=
  match field body (portName i) with
  | none => t.text = []
  | some value =>
    match decoding value 9 with
    | (.complete, _) => True
    | (.full, p) => cstr p = t.text
    | (.badPercent, p) =>
      if p = [] then t.text = [] else if nul ∈ p then cstr p = t.text else p <+: t.text

theorem bytes_getVar {t : PortText} {body : List Char} {i : Port} {text : List Char}
    (h : FieldText body i text) :
    (t.getVar body (portName i)).bytes = putText text t.bytes := by
  obtain ⟨value, hfield, htext⟩ := h
  have hroom : decode value (t.bytes.length - 1) = some text := by
    rw [t.length_eq]
    exact htext
  show (mgHttpGetVar body (portName i) t.bytes).2 = putText text t.bytes
  rw [mgHttpGetVar_decoded t.bytes_ne_nil hfield hroom]

theorem unharmed_of_fieldText (t : PortText) {body : List Char} {i : Port} {text : List Char}
    (h : FieldText body i text) : Unharmed t body i := by
  obtain ⟨value, hfield, htext⟩ := h
  rw [decode_eq_decoding] at htext
  unfold Unharmed
  rw [hfield]
  dsimp only
  rcases hd : decoding value 9 with ⟨ending, p⟩
  rw [hd] at htext
  cases ending with
  | complete => trivial
  | full => cases htext
  | badPercent => cases htext

/-- The text of the row after a field that does not decode. -/
theorem text_getVar_iff (t : PortText) {body : List Char} {i : Port}
    (hnone : ∀ text, ¬ FieldText body i text) :
    (t.getVar body (portName i)).text = t.text ↔ Unharmed t body i := by
  have hnil : cstr (t.bytes.set 0 nul) = [] := cstr_set_nul t.bytes_ne_nil
  unfold Unharmed
  cases hfield : field body (portName i) with
  | none =>
    have hbytes : (t.getVar body (portName i)).bytes = t.bytes.set 0 nul :=
      mgHttpGetVar_absent t.bytes_ne_nil hfield
    unfold PortText.text
    rw [hbytes, hnil]
    exact eq_comm
  | some value =>
    have hbytes : (t.getVar body (portName i)).bytes =
        written (decoding value 9) (t.bytes.set 0 nul) := by
      have h := getVar_written t.bytes_ne_nil hfield
      rw [t.length_eq] at h
      exact h
    have hdecode := decode_eq_decoding value 9
    unfold PortText.text
    rw [hbytes]
    dsimp only
    rcases hd : decoding value 9 with ⟨ending, p⟩
    rw [hd] at hdecode
    cases ending with
    | complete => exact absurd ⟨value, hfield, hdecode⟩ (hnone p)
    | full =>
      have hcstr : cstr (putText p (t.bytes.set 0 nul)) = cstr p := by
        rw [putText, cstr_append_nul]
      show cstr (putText p (t.bytes.set 0 nul)) = cstr t.bytes ↔ cstr p = cstr t.bytes
      rw [hcstr]
    | badPercent =>
      show cstr (p ++ (t.bytes.set 0 nul).drop p.length) = cstr t.bytes ↔
        if p = [] then cstr t.bytes = [] else if nul ∈ p then cstr p = cstr t.bytes
          else p <+: cstr t.bytes
      by_cases hp : p = []
      · subst hp
        rw [if_pos rfl, List.length_nil, List.drop_zero, List.nil_append, hnil]
        exact eq_comm
      · have hdrop : (t.bytes.set 0 nul).drop p.length = t.bytes.drop p.length :=
          List.drop_set_of_lt (List.length_pos_iff.mpr hp)
        rw [if_neg hp, hdrop]
        by_cases hmem : nul ∈ p
        · rw [if_pos hmem, cstr_append_of_mem hmem]
        · rw [if_neg hmem, cstr_overlay hmem]

/-- A POST stores the fields that decode and keeps the other ports it stores, exactly if the
    bytes that an undecodable field leaves are those of the port's text. -/
theorem bad_post_iff (s : PortServer) (body : List Char) (buf : Port → ManualBuffer) (i : Port) :
    HoldsOrKeeps s body buf i ↔
      (Stores s.portsType body buf i = true → Unharmed (s.mgPorts i) body i) := by
  have hrow : Stores s.portsType body buf i = true →
      (s.post body buf).mgPorts i = (s.mgPorts i).getVar body (portName i) := by
    intro hstores
    rw [mgPorts_post, if_pos hstores]
  constructor
  · intro h hstores
    by_cases htext : ∃ text, FieldText body i text
    · obtain ⟨text, htext⟩ := htext
      exact unharmed_of_fieldText _ htext
    · have hnone : ∀ text, ¬ FieldText body i text := not_exists.mp htext
      have hkept := (h hstores).2 hnone
      rw [hrow hstores] at hkept
      exact (text_getVar_iff _ hnone).mp hkept
  · intro h hstores
    rw [hrow hstores]
    constructor
    · intro text htext
      exact bytes_getVar htext
    · intro hnone
      exact (text_getVar_iff _ hnone).mpr (h hstores)

/-- The texts of ports 0 and 1 after two POSTs to inputs, the second without P0 and with a bad
    percent sign in P1: "0" is gone, and "123" has become "523". -/
theorem bad_post_mixes_texts :
    (((PortServer.start fun _ => .input).post "P0=0&P1=123".toList
        fun _ => ⟨List.replicate 20 nul, rfl⟩).mgPorts 0).text = "0".toList ∧
      ((((PortServer.start fun _ => .input).post "P0=0&P1=123".toList
        fun _ => ⟨List.replicate 20 nul, rfl⟩).post "P1=5%zz".toList
          fun _ => ⟨List.replicate 20 nul, rfl⟩).mgPorts 0).text = [] ∧
      ((((PortServer.start fun _ => .input).post "P0=0&P1=123".toList
        fun _ => ⟨List.replicate 20 nul, rfl⟩).post "P1=5%zz".toList
          fun _ => ⟨List.replicate 20 nul, rfl⟩).mgPorts 1).text = "523".toList := by
  decide +kernel

/-! ## The count of requests -/

def PortEvent.isPost : PortEvent → Bool
  | .post _ _ => true
  | _ => false

/-- The number of POSTs of a run. -/
def posts (events : List PortEvent) : Nat := events.countP PortEvent.isPost

theorem available_step {s s' : PortServer} {e : PortEvent} (h : s.step e = some s') :
    s'.portsValuesAvailable = s.portsValuesAvailable + BitVec.ofNat 32 (posts [e]) := by
  cases e with
  | write port data =>
    obtain rfl := simWriteDigitalU8_eq h
    exact (BitVec.add_zero _).symm
  | read port =>
    obtain ⟨v, -, rfl⟩ := Option.map_eq_some_iff.mp h
    exact (BitVec.add_zero _).symm
  | post body buf =>
    obtain rfl := Option.some.inj h
    rfl

/-- The count is the number of POSTs modulo 2^32. -/
theorem available_run {s s' : PortServer} {events : List PortEvent}
    (hrun : s.run events = some s') :
    s'.portsValuesAvailable = s.portsValuesAvailable + BitVec.ofNat 32 (posts events) := by
  induction events generalizing s with
  | nil =>
    obtain rfl := Option.some.inj hrun
    exact (BitVec.add_zero _).symm
  | cons e es ih =>
    obtain ⟨s₁, hstep, hrest⟩ := Option.bind_eq_some_iff.mp hrun
    have hcount : posts (e :: es) = posts [e] + posts es := by
      rw [← List.singleton_append, posts, List.countP_append]
      rfl
    rw [ih hrest, available_step hstep, hcount, BitVec.ofNat_add, BitVec.add_assoc]

/-- No port read or write waits. -/
def PortServer.Ready (s : PortServer) : Prop :=
  ¬ s.Waiting ∧ ∀ port, (s.simReadDigitalU8 port).isSome = true ∧
    ∀ data, (s.simWriteDigitalU8 port data).isSome = true

theorem ready_iff_not_waiting (s : PortServer) : s.Ready ↔ ¬ s.Waiting := by
  constructor
  · intro h
    exact h.1
  · intro h
    refine ⟨h, fun port => ⟨?_, fun data => ?_⟩⟩
    · rw [PortServer.simReadDigitalU8, if_neg h]
      rfl
    · rw [PortServer.simWriteDigitalU8, if_neg h]
      rfl

/-- A 32-bit count is at least ten while it has wrapped to neither a small nor a negative
    number. -/
theorem toInt_ofNat_lt_ten (n : Nat) :
    ¬ (BitVec.ofNat 32 n).toInt < 10 ↔ 10 ≤ n % 2 ^ 32 ∧ n % 2 ^ 32 < 2 ^ 31 := by
  rw [BitVec.toInt_eq_toNat_cond, BitVec.toNat_ofNat]
  split
  · omega
  · omega

/-- From the tenth POST on, the ports are ready exactly while the number of POSTs modulo 2^32 is
    at least ten and fits a positive `int`. -/
theorem ready_iff {portsType : Port → PortType} {events : List PortEvent} {s : PortServer}
    (hrun : (PortServer.start portsType).run events = some s) :
    s.Ready ↔ 10 ≤ posts events % 2 ^ 32 ∧ posts events % 2 ^ 32 < 2 ^ 31 := by
  have hcount : s.portsValuesAvailable = BitVec.ofNat 32 (posts events) := by
    rw [available_run hrun]
    exact BitVec.zero_add _
  rw [ready_iff_not_waiting, PortServer.Waiting, hcount]
  exact toInt_ofNat_lt_ten _

theorem ready_iff_tenth : ∃ s, (PortServer.start fun _ => .input).run (postTen "P0=1") = some s ∧
    s.Ready := by
  have hrun : ((PortServer.start fun _ => .input).run (postTen "P0=1")).isSome = true := by rfl
  obtain ⟨s, hs⟩ := Option.isSome_iff_exists.mp hrun
  exact ⟨s, hs, (ready_iff hs).mpr (by decide)⟩

/-- Any number of POSTs can follow each other. -/
theorem run_replicate_post (s : PortServer) (body : List Char) (buf : Port → ManualBuffer)
    (n : Nat) : ∃ s', s.run (List.replicate n (.post body buf)) = some s' := by
  induction n generalizing s with
  | zero => exact ⟨s, rfl⟩
  | succ n ih => exact ih (s.post body buf)

/-- After 2^31 POSTs the count is negative, and every read waits. -/
theorem reads_block_again :
    ∃ s, (PortServer.start fun _ => .input).run (List.replicate (2 ^ 31)
        (.post "P0=1".toList fun _ => ⟨List.replicate 20 nul, rfl⟩)) = some s ∧
      s.Waiting ∧ s.simReadDigitalU8 0 = none := by
  obtain ⟨s, hs⟩ := run_replicate_post (PortServer.start fun _ => .input) "P0=1".toList
    (fun _ => ⟨List.replicate 20 nul, rfl⟩) (2 ^ 31)
  have hcount : s.portsValuesAvailable = BitVec.ofNat 32 (2 ^ 31) := by
    have hposts : posts (List.replicate (2 ^ 31)
        (.post "P0=1".toList fun _ => ⟨List.replicate 20 nul, rfl⟩)) = 2 ^ 31 := by
      rw [posts, List.countP_replicate]
      exact if_pos rfl
    rw [available_run hs, hposts]
    exact BitVec.zero_add _
  have hwaiting : s.Waiting := by
    rw [PortServer.Waiting, hcount]
    decide
  refine ⟨s, hs, hwaiting, ?_⟩
  rw [PortServer.simReadDigitalU8, if_pos hwaiting]

end SmartWarehouse.Server
