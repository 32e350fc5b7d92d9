/-
  The simulator's port store: `ev_handler` of `warehouseWebServer.cpp` and the simulator access
  of `interface.c`.

  The value of a port is kept as decimal text in a row of ten bytes, which form fields of a POST
  and `sim_WriteDigitalU8` overwrite. Every row stays terminated (`PortText`), and reading back
  what a write has printed gives the byte (`value_print`). An output port in automatic mode is a
  register (`port_is_register`): no body reaches it. The texts are numerals, and the replies
  well-formed JSON with the values that are read, as long as the fields of every POST are
  numerals (`ports_well_formed`); a port whose field is missing or is any other text breaks
  both.
-/
import SmartWarehouse.Server.Actuator
import SmartWarehouse.Server.Form
import SmartWarehouse.Lib.JsonText

namespace SmartWarehouse.Server

open SmartWarehouse.Lib

/-! ## The rows of `mg_ports` -/

/-- A row of `mg_ports`: ten bytes, the last of which is a terminator. -/
structure PortText where
  bytes : List Char
  length_eq : bytes.length = 10
  terminated : Terminated bytes

/-- The `%d` of a byte. -/
def numeral (data : BitVec 8) : List Char := Nat.toDigits 10 data.toNat

theorem length_numeral (data : BitVec 8) : (numeral data).length ≤ 3 := by
  have hlt : data.toNat < 10 ^ 3 := by
    have := data.isLt
    omega
  exact (Nat.length_toDigits_le_iff (by decide) (by decide)).mpr hlt

/-- The initializer `"0"`. -/
def PortText.zero : PortText := ⟨'0' :: List.replicate 9 nul, rfl, rfl⟩

def PortText.text (t : PortText) : List Char := cstr t.bytes

theorem PortText.bytes_ne_nil (t : PortText) : t.bytes ≠ [] := by
  intro h
  have := t.length_eq
  rw [h] at this
  cases this

/-- `mg_http_get_var(body, name, row, 10)`; the return code is not used. -/
def PortText.getVar (t : PortText) (body name : List Char) : PortText where
  bytes := (mgHttpGetVar body name t.bytes).2
  length_eq := (mgHttpGetVar_buffer body name t.terminated).1.trans t.length_eq
  terminated := (mgHttpGetVar_buffer body name t.terminated).2

/-- `sprintf_s(row, 10, "%d", data)`. -/
def PortText.print (t : PortText) (data : BitVec 8) : PortText where
  bytes := putText (numeral data) t.bytes
  length_eq := by
    have hlength := length_numeral data
    have heq := t.length_eq
    rw [length_putText (by omega), heq]
  terminated := t.terminated.putText _

/-- `atoi`. A row holds at most nine digits, so the `int` does not overflow. -/
def atoi (text : List Char) : Int :=
  let (neg, cs) := signOf (text.dropWhile isspace)
  let v := digitsValue (cs.takeWhile isdigit)
  if neg then -v else v

/-- `(uInt8)atoi(row)`. -/
def PortText.value (t : PortText) : BitVec 8 := BitVec.ofInt 8 (atoi t.text)

/-! ## The server -/

/-- `ports_type`: -1, 0 or 1. -/
inductive PortType where
  | unspecified | input | output
deriving DecidableEq, Repr

structure PortServer where
  mgPorts : Port → PortText
  portsType : Port → PortType
  portsValuesAvailable : BitVec 32

def PortServer.start (portsType : Port → PortType) : PortServer :=
  ⟨fun _ => .zero, portsType, 0⟩

/-- The loop that waits for the first ten POSTs. -/
def PortServer.Waiting (s : PortServer) : Prop := s.portsValuesAvailable.toInt < 10

instance (s : PortServer) : Decidable s.Waiting := inferInstanceAs (Decidable (_ < _))

/-- No result: the call still waits. -/
def PortServer.simReadDigitalU8 (s : PortServer) (port : Port) : Option (BitVec 8) :=
  if s.Waiting then none else some (s.mgPorts port).value

def PortServer.simWriteDigitalU8 (s : PortServer) (port : Port) (data : BitVec 8) :
    Option PortServer :=
  if s.Waiting then none
  else some { s with mgPorts := Function.update s.mgPorts port ((s.mgPorts port).print data) }

def portName (i : Port) : List Char := 'P' :: Nat.toDigits 10 i.val

/-- `char is_on_manual[20]`, which is not initialized. -/
abbrev ManualBuffer := { buf : List Char // buf.length = 20 }

def isOnManual (body : List Char) (buf : ManualBuffer) : Bool :=
  cstr (mgHttpGetVar body "is_on_manual".toList buf.val).2 = "true".toList

/-- The handler stores the field of the port. -/
def Stores (portsType : Port → PortType) (body : List Char) (buf : Port → ManualBuffer)
    (i : Port) : Bool :=
  match portsType i with
  | .input => true
  | .output => isOnManual body (buf i)
  | .unspecified => false

/-- One iteration of the loop over the ports. -/
def postPort (portsType : Port → PortType) (body : List Char) (buf : Port → ManualBuffer)
    (rows : Port → PortText) (i : Port) : Port → PortText :=
  if Stores portsType body buf i then
    Function.update rows i ((rows i).getVar body (portName i))
  else rows

/-- The POST of `/ajax_port_values` up to its reply. -/
def PortServer.post (s : PortServer) (body : List Char) (buf : Port → ManualBuffer) : PortServer :=
  { s with
    mgPorts := (List.finRange 10).foldl (postPort s.portsType body buf) s.mgPorts
    portsValuesAvailable := s.portsValuesAvailable + 1 }

/-- `"P%d": %s`. -/
def member (i : Port) (text : List Char) : List Char :=
  '"' :: (portName i ++ ('"' :: ':' :: ' ' :: text))

/-- The chunks of the reply. -/
def PortServer.reply (s : PortServer) : List (List Char) :=
  [['\x7b']] ++
    ([0, 1, 2, 3, 4, 5] : List Port).flatMap (fun i =>
      (if i > 0 then [[',']] else []) ++ [member i (s.mgPorts i).text]) ++
    [['\x7d'], []]

/-! ## Runs -/

inductive PortEvent where
  | write (port : Port) (data : BitVec 8)
  | read (port : Port)
  | post (body : List Char) (buf : Port → ManualBuffer)

/-- No result: the call of the control code cannot complete yet. -/
def PortServer.step (s : PortServer) : PortEvent → Option PortServer
  | .write port data => s.simWriteDigitalU8 port data
  | .read port => (s.simReadDigitalU8 port).map fun _ => s
  | .post body buf => some (s.post body buf)

def PortServer.run (s : PortServer) : List PortEvent → Option PortServer
  | [] => some s
  | e :: es => (s.step e).bind fun s' => s'.run es

/-! ## Numerals read back -/

theorem isdigit_of_isDigit {c : Char} (h : c.isDigit = true) : isdigit c = true := by
  have hc : 48 ≤ c.toNat ∧ c.toNat ≤ 57 := by
    simpa [Char.isDigit, UInt32.le_iff_toNat_le] using h
  simp [isdigit, hc]

theorem atoi_digits {digits : List Char} (h : ∀ c ∈ digits, c.isDigit = true) :
    atoi digits = digitsValue digits := by
  have htake : digits.takeWhile isdigit = digits := by
    apply List.takeWhile_eq_self_iff.mpr
    intro c hc
    exact isdigit_of_isDigit (h c hc)
  cases digits with
  | nil => rfl
  | cons d ds =>
    -- a digit is neither white space nor a sign
    have hd : 48 ≤ d.toNat ∧ d.toNat ≤ 57 := by
      simpa [isdigit] using isdigit_of_isDigit (h d List.mem_cons_self)
    have hspace : isspace d = false := by
      simp only [isspace, Bool.or_eq_false_iff, Bool.and_eq_false_iff, decide_eq_false_iff_not]
      omega
    have hminus : d ≠ '-' := by
      intro heq
      rw [heq] at hd
      exact absurd hd (by decide)
    have hplus : d ≠ '+' := by
      intro heq
      rw [heq] at hd
      exact absurd hd (by decide)
    have hsign : signOf (d :: ds) = (false, d :: ds) := by
      unfold signOf
      split
      · rename_i heq
        exact absurd (List.cons.inj heq).1 hminus
      · rename_i heq
        exact absurd (List.cons.inj heq).1 hplus
      · rfl
    unfold atoi
    rw [List.dropWhile_cons_of_neg (by simp [hspace]), hsign]
    dsimp only
    rw [htake]
    rfl

theorem digitsValue_numeral (n : Nat) : digitsValue (Nat.toDigits 10 n) = n := by
  have hfold : digitsValue (Nat.toDigits 10 n) = Nat.ofDigitChars 10 (Nat.toDigits 10 n) 0 := by
    rw [Nat.ofDigitChars_eq_foldl]
    rfl
  rw [hfold, Nat.ofDigitChars_ten_toDigits]

theorem atoi_numeral (data : BitVec 8) : atoi (numeral data) = data.toNat := by
  rw [numeral, atoi_digits fun c hc => isDigit_of_mem_numeral hc, digitsValue_numeral]

/-- A row with the numeral of a byte has the byte as its value. -/
theorem value_of_text {t : PortText} {data : BitVec 8} (h : t.text = numeral data) :
    t.value = data := by
  rw [PortText.value, h, atoi_numeral]
  simp

theorem text_zero : PortText.zero.text = numeral 0 := by decide

theorem text_print (t : PortText) (data : BitVec 8) : (t.print data).text = numeral data :=
  cstr_putText (nul_not_mem_numeral _) t.bytes

theorem value_print (t : PortText) (data : BitVec 8) : (t.print data).value = data :=
  value_of_text (text_print t data)

/-! ## One event -/

theorem foldl_postPort (portsType : Port → PortType) (body : List Char)
    (buf : Port → ManualBuffer) (l : List Port) (hl : l.Nodup) (rows : Port → PortText)
    (i : Port) :
    l.foldl (postPort portsType body buf) rows i =
      if i ∈ l ∧ Stores portsType body buf i then (rows i).getVar body (portName i)
      else rows i := by
  induction l generalizing rows with
  | nil => simp
  | cons j l ih =>
    have hj := (List.nodup_cons.mp hl).1
    rw [List.foldl_cons, ih (List.nodup_cons.mp hl).2]
    unfold postPort
    by_cases hij : i = j
    · subst hij
      by_cases hs : Stores portsType body buf i <;> simp [hj, hs]
    · by_cases hs : Stores portsType body buf j <;> simp [hij, hs, Function.update_of_ne]

/-- A POST stores a field in the ports it stores, and leaves the others alone. -/
theorem mgPorts_post (s : PortServer) (body : List Char) (buf : Port → ManualBuffer) (i : Port) :
    (s.post body buf).mgPorts i =
      if Stores s.portsType body buf i then (s.mgPorts i).getVar body (portName i)
      else s.mgPorts i := by
  have h := foldl_postPort s.portsType body buf (List.finRange 10) (List.nodup_finRange 10)
    s.mgPorts i
  simp only [List.mem_finRange, true_and] at h
  exact h

theorem simWriteDigitalU8_eq {s s' : PortServer} {port : Port} {data : BitVec 8}
    (h : s.simWriteDigitalU8 port data = some s') :
    s' = { s with mgPorts := Function.update s.mgPorts port ((s.mgPorts port).print data) } := by
  unfold PortServer.simWriteDigitalU8 at h
  split at h
  · cases h
  · exact (Option.some.inj h).symm

/-- What a completed event does to the rows. -/
theorem portStep_cases {s s' : PortServer} {e : PortEvent} (h : s.step e = some s') :
    s'.portsType = s.portsType ∧
    ((∃ port data, e = .write port data ∧
        s'.mgPorts = Function.update s.mgPorts port ((s.mgPorts port).print data)) ∨
      (∃ port, e = .read port ∧ s'.mgPorts = s.mgPorts) ∨
      ∃ body buf, e = .post body buf ∧ s' = s.post body buf) := by
  cases e with
  | write port data =>
    obtain rfl := simWriteDigitalU8_eq h
    exact ⟨rfl, .inl ⟨port, data, rfl, rfl⟩⟩
  | read port =>
    obtain ⟨v, -, rfl⟩ := Option.map_eq_some_iff.mp h
    exact ⟨rfl, .inr (.inl ⟨port, rfl, rfl⟩)⟩
  | post body buf =>
    obtain rfl := Option.some.inj h
    exact ⟨rfl, .inr (.inr ⟨body, buf, rfl, rfl⟩)⟩

/-- What a completed event does to one row: a write prints the byte, a POST that stores the port
    overwrites the row with its field, and any other event leaves it alone. -/
theorem row_cases {s s' : PortServer} {e : PortEvent} (h : s.step e = some s') (i : Port) :
    (∃ data, e = .write i data ∧ (s'.mgPorts i).text = numeral data) ∨
    (∃ body buf, e = .post body buf ∧ Stores s.portsType body buf i = true ∧
      s'.mgPorts i = (s.mgPorts i).getVar body (portName i)) ∨
    (∀ data, e ≠ .write i data) ∧ s'.mgPorts i = s.mgPorts i := by
  obtain ⟨-, ⟨port, data, rfl, hrows⟩ | ⟨port, rfl, hrows⟩ | ⟨body, buf, rfl, rfl⟩⟩ :=
    portStep_cases h
  · by_cases hport : port = i
    · subst hport
      rw [hrows, Function.update_self]
      exact .inl ⟨data, rfl, text_print _ _⟩
    · rw [hrows, Function.update_of_ne (Ne.symm hport)]
      refine .inr (.inr ⟨?_, rfl⟩)
      intro data' heq
      exact hport (PortEvent.write.inj heq).1
  · rw [hrows]
    exact .inr (.inr ⟨fun _ => PortEvent.noConfusion, rfl⟩)
  · rw [mgPorts_post]
    split
    · rename_i hstores
      exact .inr (.inl ⟨body, buf, rfl, hstores, rfl⟩)
    · exact .inr (.inr ⟨fun _ => PortEvent.noConfusion, rfl⟩)

/-! ## Registers -/

/-- `is_on_manual` is absent, or decodes to another text than `true`. -/
def Automatic (body : List Char) : Prop :=
  match field body "is_on_manual".toList with
  | none => True
  | some value => ∃ text, decode value 19 = some text ∧ cstr text ≠ "true".toList

theorem isOnManual_of_automatic {body : List Char} (h : Automatic body) (buf : ManualBuffer) :
    isOnManual body buf = false := by
  have hbuf : buf.val ≠ [] := by
    intro hnil
    have hlength := buf.property
    rw [hnil] at hlength
    cases hlength
  unfold Automatic at h
  unfold isOnManual
  cases hfield : field body "is_on_manual".toList with
  | none =>
    rw [mgHttpGetVar_absent hbuf hfield]
    obtain ⟨c, rest, hcons⟩ := List.exists_cons_of_ne_nil hbuf
    rw [hcons, List.set_cons_zero]
    simp [cstr]
  | some value =>
    rw [hfield] at h
    obtain ⟨text, htext, hne⟩ := h
    have hroom : decode value (buf.val.length - 1) = some text := by
      rw [buf.property]
      exact htext
    rw [mgHttpGetVar_decoded hbuf hfield hroom]
    dsimp only
    rw [putText, cstr_append_nul]
    simpa using hne

/-- The byte last written to a port, `v` before the first write. -/
def lastWritten (p : Port) (v : BitVec 8) (events : List PortEvent) : BitVec 8 :=
  events.foldl (fun v e =>
    match e with
    | .write port data => if port = p then data else v
    | _ => v) v

/-- One event leaves the byte last written as the text of an output port. -/
theorem text_step {s s' : PortServer} {e : PortEvent} {p : Port} {v : BitVec 8}
    (hp : s.portsType p = .output) (ht : (s.mgPorts p).text = numeral v)
    (hstep : s.step e = some s') (hauto : ∀ body buf, e = .post body buf → Automatic body) :
    (s'.mgPorts p).text = numeral (lastWritten p v [e]) := by
  obtain ⟨data, rfl, htext⟩ | ⟨body, buf, rfl, hstores, -⟩ | ⟨hother, hrow⟩ := row_cases hstep p
  · rw [htext]
    simp [lastWritten]
  · have hmanual : isOnManual body (buf p) = true := by
      unfold Stores at hstores
      rwa [hp] at hstores
    rw [isOnManual_of_automatic (hauto body buf rfl)] at hmanual
    cases hmanual
  · have hlast : lastWritten p v [e] = v := by
      cases e with
      | write port data => exact if_neg fun h => hother data (by rw [h])
      | read port => rfl
      | post body buf => rfl
    rw [hrow, hlast]
    exact ht

theorem text_run {s s' : PortServer} {events : List PortEvent} {p : Port} {v : BitVec 8}
    (hp : s.portsType p = .output) (ht : (s.mgPorts p).text = numeral v)
    (hrun : s.run events = some s')
    (hauto : ∀ body buf, .post body buf ∈ events → Automatic body) :
    (s'.mgPorts p).text = numeral (lastWritten p v events) := by
  induction events generalizing s v with
  | nil =>
    obtain rfl := Option.some.inj hrun
    exact ht
  | cons e es ih =>
    obtain ⟨s₁, hstep, hrest⟩ := Option.bind_eq_some_iff.mp hrun
    have hp₁ : s₁.portsType p = .output := by
      rw [(portStep_cases hstep).1, hp]
    have ht₁ := text_step hp ht hstep fun body buf he => hauto body buf (he ▸ List.mem_cons_self)
    exact ih hp₁ ht₁ hrest fun body buf hmem => hauto body buf (List.mem_cons_of_mem _ hmem)

/-- With every POST in automatic mode, a read of an output port that completes returns the byte
    last written to it, or 0. -/
theorem port_is_register {portsType : Port → PortType} {p : Port} (hp : portsType p = .output)
    {events : List PortEvent} {s : PortServer}
    (hrun : (PortServer.start portsType).run events = some s)
    (hauto : ∀ body buf, .post body buf ∈ events → Automatic body) :
    s.simReadDigitalU8 p = if s.Waiting then none else some (lastWritten p 0 events) := by
  have htext := text_run hp text_zero hrun hauto
  unfold PortServer.simReadDigitalU8
  rw [value_of_text htext]

/-- Port 4 as the only output. -/
def outputFour : Port → PortType := fun i => if i = 4 then .output else .input

/-- A body ten times over, which ends the wait for the first values. -/
def postTen (body : String) : List PortEvent :=
  List.replicate 10 (.post body.toList fun _ => ⟨List.replicate 20 nul, rfl⟩)

theorem port_is_register_written :
    ∃ s, (PortServer.start outputFour).run
        (postTen "P4=1&is_on_manual=false" ++ [.write 4 37]) = some s ∧
      s.simReadDigitalU8 4 = some 37 := by
  have hrun : (((PortServer.start outputFour).run
      (postTen "P4=1&is_on_manual=false" ++ [.write 4 37])).map
        PortServer.portsValuesAvailable) = some 10 := by rfl
  obtain ⟨s, hs, havailable⟩ := Option.map_eq_some_iff.mp hrun
  refine ⟨s, hs, ?_⟩
  have hread := port_is_register (p := 4) rfl hs ?_
  · have hwaiting : ¬ s.Waiting := by
      unfold PortServer.Waiting
      rw [havailable]
      decide
    rw [hread, if_neg hwaiting]
    rfl
  · intro body buf hmem
    obtain hmem | hmem := List.mem_append.mp hmem
    · have hbody := (PortEvent.post.inj (List.eq_of_mem_replicate hmem)).1
      have hfield : field "P4=1&is_on_manual=false".toList "is_on_manual".toList =
          some "false".toList := by decide
      unfold Automatic
      rw [hbody, hfield]
      exact ⟨"false".toList, by decide, by decide⟩
    · cases List.mem_singleton.mp hmem

/-! ## Well-formed texts and replies -/

/-- The field of every port that the POST stores decodes to the numeral of a byte. -/
def NumericPost (portsType : Port → PortType) (body : List Char) (buf : Port → ManualBuffer) :
    Prop :=
  ∀ i, Stores portsType body buf i → ∃ value text data, field body (portName i) = some value ∧
    decode value 9 = some text ∧ cstr text = numeral data

/-- Every text is the numeral of a byte. -/
def PortServer.WellFormed (s : PortServer) : Prop := ∀ i, ∃ data, (s.mgPorts i).text = numeral data

theorem text_getVar {t : PortText} {body name value text : List Char}
    (hfield : field body name = some value) (htext : decode value 9 = some text) :
    (t.getVar body name).text = cstr text := by
  have hroom : decode value (t.bytes.length - 1) = some text := by
    rw [t.length_eq]
    exact htext
  show cstr (mgHttpGetVar body name t.bytes).2 = cstr text
  rw [mgHttpGetVar_decoded t.bytes_ne_nil hfield hroom]
  exact cstr_append_nul text _

theorem wellFormed_step {s s' : PortServer} {e : PortEvent} (h : s.WellFormed)
    (hstep : s.step e = some s')
    (hnumeric : ∀ body buf, e = .post body buf → NumericPost s.portsType body buf) :
    s'.WellFormed := by
  intro i
  obtain ⟨data, -, htext⟩ | ⟨body, buf, rfl, hstores, hrow⟩ | ⟨-, hrow⟩ := row_cases hstep i
  · exact ⟨data, htext⟩
  · obtain ⟨value, text, data, hfield, htext, hdata⟩ := hnumeric body buf rfl i hstores
    refine ⟨data, ?_⟩
    rw [hrow, text_getVar hfield htext, hdata]
  · rw [hrow]
    exact h i

theorem wellFormed_run {s s' : PortServer} {events : List PortEvent} (h : s.WellFormed)
    (hrun : s.run events = some s')
    (hnumeric : ∀ body buf, .post body buf ∈ events → NumericPost s.portsType body buf) :
    s'.WellFormed := by
  induction events generalizing s with
  | nil =>
    obtain rfl := Option.some.inj hrun
    exact h
  | cons e es ih =>
    obtain ⟨s₁, hstep, hrest⟩ := Option.bind_eq_some_iff.mp hrun
    refine ih (wellFormed_step h hstep ?_) hrest ?_
    · intro body buf he
      exact hnumeric body buf (he ▸ List.mem_cons_self)
    · intro body buf hmem
      rw [(portStep_cases hstep).1]
      exact hnumeric body buf (List.mem_cons_of_mem _ hmem)

/-- The reply with the given texts. -/
def replyText (texts : Port → List Char) : List Char :=
  '{' :: ([','].intercalate (([0, 1, 2, 3, 4, 5] : List Port).map fun i => member i (texts i)) ++
    ['}'])

theorem flatten_reply (s : PortServer) :
    s.reply.flatten = replyText fun i => (s.mgPorts i).text := by
  have hfirst : ¬ (0 : Port) > 0 := by decide
  have hlater : (1 : Port) > 0 ∧ (2 : Port) > 0 ∧ (3 : Port) > 0 ∧ (4 : Port) > 0 ∧
      (5 : Port) > 0 := by decide
  unfold PortServer.reply replyText
  simp only [List.flatMap_cons, List.flatMap_nil, if_neg hfirst, if_pos hlater.1,
    if_pos hlater.2.1, if_pos hlater.2.2.1, if_pos hlater.2.2.2.1, if_pos hlater.2.2.2.2,
    List.map_cons, List.map_nil, List.intercalate_cons_cons, List.intercalate_singleton,
    List.flatten_cons, List.flatten_nil, List.nil_append, List.cons_append, List.append_nil,
    List.append_assoc]

theorem isJsonMember_member (i : Port) (data : BitVec 8) :
    IsJsonMember (member i (numeral data)) := by
  have hkey : IsJsonString ('"' :: (portName i ++ ['"'])) := by
    refine ⟨portName i, rfl, .char (by decide) ?_⟩
    apply isJsonChars_of_forall
    intro c hc
    exact plain_of_isDigit (isDigit_of_mem_numeral hc)
  have hvalue : IsJsonElement ([' '] ++ (numeral data ++ [])) := by
    refine .mk ?_ (.number (isJsonNumber_toDigits _)) isJsonSpace_nil
    intro c hc
    rw [List.mem_singleton.mp hc]
    decide
  have hmember := IsJsonMember.mk isJsonSpace_nil hkey isJsonSpace_nil hvalue
  simpa [member] using hmember

/-- If the fields of every POST are numerals of bytes, then so are all texts, and the reply is a
    well-formed object with the values that are read. -/
theorem ports_well_formed {portsType : Port → PortType} {events : List PortEvent}
    {s : PortServer} (hrun : (PortServer.start portsType).run events = some s)
    (hnumeric : ∀ body buf, .post body buf ∈ events → NumericPost portsType body buf) :
    s.WellFormed ∧ IsJsonObject s.reply.flatten ∧
      ∃ values : Port → BitVec 8, s.reply.flatten = replyText (fun i => numeral (values i)) ∧
        ∀ i, s.simReadDigitalU8 i = if s.Waiting then none else some (values i) := by
  have hstart : (PortServer.start portsType).WellFormed := fun _ => ⟨0, text_zero⟩
  have hwell := wellFormed_run hstart hrun hnumeric
  choose values hvalues using hwell
  have hreply : s.reply.flatten = replyText fun i => numeral (values i) := by
    rw [flatten_reply]
    congr 1
    funext i
    exact hvalues i
  refine ⟨fun i => ⟨values i, hvalues i⟩, ?_, values, hreply, ?_⟩
  · rw [hreply]
    apply isJsonObject_of_members
    · simp
    · intro cs hcs
      obtain ⟨i, -, rfl⟩ := List.mem_map.mp hcs
      exact isJsonMember_member i (values i)
  · intro i
    unfold PortServer.simReadDigitalU8
    rw [value_of_text (hvalues i)]

/-- A body with the field 5 for every port. -/
def allFive : String := "P0=5&P1=5&P2=5&P3=5&P4=5&P5=5&P6=5&P7=5&P8=5&P9=5"

theorem ports_well_formed_allFive :
    ∃ s, (PortServer.start fun _ => .input).run (postTen allFive) = some s ∧
      IsJsonObject s.reply.flatten := by
  have hrun : (((PortServer.start fun _ => .input).run (postTen allFive)).isSome) = true := by rfl
  obtain ⟨s, hs⟩ := Option.isSome_iff_exists.mp hrun
  refine ⟨s, hs, (ports_well_formed hs ?_).2.1⟩
  intro body buf hmem i _
  have hbody := (PortEvent.post.inj (List.eq_of_mem_replicate hmem)).1
  have hfield : ∀ i : Port, field allFive.toList (portName i) = some "5".toList := by decide
  rw [hbody]
  exact ⟨"5".toList, "5".toList, 5, hfield i, by decide, by decide⟩

/-- The field 300 is kept as it stands and read back as 44; the port without a field has no text
    at all. -/
theorem port_texts_not_numerals :
    ∃ s, (PortServer.start fun _ => .input).run (postTen "P0=300") = some s ∧
      (s.mgPorts 0).text = "300".toList ∧ s.simReadDigitalU8 0 = some 44 ∧
      (s.mgPorts 1).text = [] ∧ ¬ s.WellFormed := by
  have hrun : (((PortServer.start fun _ => .input).run (postTen "P0=300")).map fun s =>
      ((s.mgPorts 0).text, s.simReadDigitalU8 0, (s.mgPorts 1).text)) =
        some ("300".toList, some 44, []) := by decide +kernel
  obtain ⟨s, hs, hvalues⟩ := Option.map_eq_some_iff.mp hrun
  obtain ⟨h0, hread, h1⟩ : (s.mgPorts 0).text = "300".toList ∧ s.simReadDigitalU8 0 = some 44 ∧
      (s.mgPorts 1).text = [] := by
    simpa using hvalues
  refine ⟨s, hs, h0, hread, h1, ?_⟩
  intro hwell
  obtain ⟨data, hdata⟩ := hwell 1
  rw [h1] at hdata
  exact Nat.toDigits_ne_nil hdata.symm

end SmartWarehouse.Server
