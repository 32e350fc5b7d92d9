/-
  POSTs of encoded forms: `mg_url_encode` of `mongoose.c` against what `ev_handler` stores.

  A form is a list of fields; each value goes through `mgUrlEncode`, so that neither `&` nor `%`
  nor `+` of a value is read as part of the body. The first field of a name is found again,
  whatever the values are (`field_formBody`), and decoded to the bytes that were encoded
  (`decoding_encoded`). Hence a POST of a form is a plain update of the texts of the ports
  (`text_post_form`), and a run of the server on forms refines a map from ports to texts
  (`forms_refine`).
-/
import SmartWarehouse.Server.Posts

namespace SmartWarehouse.Server

open SmartWarehouse.Lib

/-! ## Encoding -/

def mgIsUrlSafe (c : Char) : Bool :=
  ('0' ≤ c && c ≤ '9') || ('a' ≤ c && c ≤ 'z') || ('A' ≤ c && c ≤ 'Z') || c = '.' || c = '_' ||
    c = '-' || c = '~'

/-- The digits of `mg_hex`. -/
def hexDigits : List Char := "0123456789abcdef".toList

/-- `mg_hex` of one byte. -/
def mgHex (c : Char) : List Char :=
  [hexDigits.getD (c.toNat / 16) nul, hexDigits.getD (c.toNat % 16) nul]

/-- The loop of `mg_url_encode` with a buffer of `len` bytes, of which `out` are written. -/
def mgUrlEncodeFrom (len : Nat) : List Char → List Char → List Char
  | [], out => out
  | c :: s, out =>
    if out.length + 4 ≥ len then []
    else if mgIsUrlSafe c then mgUrlEncodeFrom len s (out ++ [c])
    else mgUrlEncodeFrom len s (out ++ '%' :: mgHex c)

/-- The bytes that the return value counts. -/
def mgUrlEncode (s : List Char) (len : Nat) : List Char := mgUrlEncodeFrom len s []

/-- What one byte is encoded to. -/
def encodeByte (c : Char) : List Char := if mgIsUrlSafe c then [c] else '%' :: mgHex c

theorem length_encodeByte (c : Char) : (encodeByte c).length ≤ 3 := by
  unfold encodeByte
  split
  · exact Nat.le_of_ble_eq_true rfl
  · exact Nat.le_refl 3

theorem mgUrlEncodeFrom_eq {len : Nat} {s out : List Char}
    (h : out.length + 3 * s.length + 4 < len) :
    mgUrlEncodeFrom len s out = out ++ s.flatMap encodeByte := by
  induction s generalizing out with
  | nil => exact (List.append_nil out).symm
  | cons c s ih =>
    rw [List.length_cons] at h
    have hroom : ¬ out.length + 4 ≥ len := by omega
    have hnext : (out ++ encodeByte c).length + 3 * s.length + 4 < len := by
      have := length_encodeByte c
      rw [List.length_append]
      omega
    have hstep : mgUrlEncodeFrom len (c :: s) out =
        mgUrlEncodeFrom len s (out ++ encodeByte c) := by
      unfold encodeByte
      rw [mgUrlEncodeFrom, if_neg hroom]
      split
      · rfl
      · rfl
    rw [hstep, ih hnext, List.flatMap_cons, List.append_assoc]

/-- The encoding in a buffer with room for three bytes a character. -/
def encoded (value : List Char) : List Char := mgUrlEncode value (3 * value.length + 5)

theorem encoded_eq (value : List Char) : encoded value = value.flatMap encodeByte :=
  mgUrlEncodeFrom_eq (by simp)

/-! ## Decoding what was encoded -/

/-- A character that is one byte. -/
def IsByte (c : Char) : Prop := c.toNat < 256

instance (c : Char) : Decidable (IsByte c) := inferInstanceAs (Decidable (_ < _))

theorem bytes_of_all {s : List Char} (h : s.all (fun c => decide (IsByte c)) = true) :
    ∀ c ∈ s, IsByte c :=
  fun c hc => of_decide_eq_true (List.all_eq_true.mp h c hc)

theorem hexDigits_decode :
    ∀ n : Fin 16, isxdigit (hexDigits.getD n nul) = true ∧
      mgUnhexNimble (hexDigits.getD n nul) = n := by
  decide

theorem mgUnhex_mgHex {c : Char} (h : IsByte c) :
    ∃ a b, mgHex c = [a, b] ∧ (isxdigit a && isxdigit b) = true ∧ mgUnhex a b = c := by
  unfold IsByte at h
  have hhigh := hexDigits_decode ⟨c.toNat / 16, by omega⟩
  have hlow := hexDigits_decode ⟨c.toNat % 16, by omega⟩
  refine ⟨_, _, rfl, ?_, ?_⟩
  · rw [hhigh.1, hlow.1]
    rfl
  · have hbyte : 16 * (c.toNat / 16) + c.toNat % 16 = c.toNat := Nat.div_add_mod _ _
    unfold mgUnhex
    rw [hhigh.2, hlow.2, hbyte]
    exact Char.ofNat_toNat c

theorem decoding_encodeByte {c : Char} (h : IsByte c) (rest : List Char) (room : Nat) :
    decoding (encodeByte c ++ rest) (room + 1) = (decoding rest room).map id (c :: ·) := by
  unfold encodeByte
  split
  · rename_i hsafe
    have hpercent : c ≠ '%' := by
      rintro rfl
      exact absurd hsafe (by decide)
    have hplus : c ≠ '+' := by
      rintro rfl
      exact absurd hsafe (by decide)
    rw [List.singleton_append, decoding.eq_def]
    dsimp only
    rw [if_neg hpercent, if_neg hplus]
  · obtain ⟨a, b, hhex, hdigits, hchar⟩ := mgUnhex_mgHex h
    rw [hhex, decoding.eq_def]
    dsimp only [List.cons_append]
    rw [if_pos rfl]
    dsimp only [List.nil_append]
    rw [if_pos hdigits, hchar]

theorem encodeByte_ne_nil (c : Char) : encodeByte c ≠ [] := by
  unfold encodeByte
  split
  · exact List.cons_ne_nil _ _
  · exact List.cons_ne_nil _ _

/-- The loop reads the encoding of a value back, as far as there is room. -/
theorem decoding_encoded {value : List Char} (h : ∀ c ∈ value, IsByte c) (room : Nat) :
    decoding (encoded value) room =
      (if value.length ≤ room then .complete else .full, value.take room) := by
  rw [encoded_eq]
  induction value generalizing room with
  | nil =>
    cases room with
    | zero => rfl
    | succ room => rfl
  | cons c value ih =>
    rw [List.flatMap_cons]
    cases room with
    | zero =>
      obtain ⟨d, rest, hcons⟩ := List.exists_cons_of_ne_nil (encodeByte_ne_nil c)
      rw [hcons]
      rfl
    | succ room =>
      have hrest := ih (fun d hd => h d (List.mem_cons_of_mem _ hd)) room
      rw [decoding_encodeByte (h c List.mem_cons_self), hrest]
      simp [Prod.map]

/-! ## Forms -/

/-- A field of a form. -/
structure FormField where
  name : List Char
  value : List Char
  name_safe : ∀ c ∈ name, mgIsUrlSafe c = true
  value_bytes : ∀ c ∈ value, IsByte c

def FormField.text (f : FormField) : List Char := f.name ++ '=' :: encoded f.value

/-- The body of a request with the fields of a form. -/
def formBody (form : List FormField) : List Char :=
  ['&'].intercalate (form.map FormField.text)

/-- The value of the first field of the name, ignoring case. -/
def formValue (form : List FormField) (name : List Char) : Option (List Char) :=
  (form.find? fun f => f.name.map mgLower = name.map mgLower).map FormField.value

theorem safe_ne {c d : Char} (h : mgIsUrlSafe c = true) (hd : mgIsUrlSafe d = false) : c ≠ d := by
  intro heq
  rw [heq, hd] at h
  cases h

theorem hexDigits_safe : ∀ n : Fin 16, mgIsUrlSafe (hexDigits.getD n nul) = true := by
  decide

theorem encodeByte_ne_amp {c : Char} (h : IsByte c) : ∀ d ∈ encodeByte c, d ≠ '&' := by
  unfold IsByte at h
  intro d hd
  unfold encodeByte at hd
  split at hd
  · rename_i hsafe
    rw [List.mem_singleton.mp hd]
    exact safe_ne hsafe (by decide)
  · obtain rfl | rfl | hd := List.mem_cons.mp hd |>.imp id List.mem_cons.mp
    · decide
    · exact safe_ne (hexDigits_safe ⟨c.toNat / 16, by omega⟩) (by decide)
    · rw [List.mem_singleton.mp hd]
      exact safe_ne (hexDigits_safe ⟨c.toNat % 16, by omega⟩) (by decide)

theorem encoded_ne_amp {value : List Char} (h : ∀ c ∈ value, IsByte c) :
    ∀ d ∈ encoded value, d ≠ '&' := by
  rw [encoded_eq]
  intro d hd
  obtain ⟨c, hc, hd⟩ := List.mem_flatMap.mp hd
  exact encodeByte_ne_amp (h c hc) d hd

/-! ## The field of a form -/

/-- Behind the start of a field the search goes on to the next `&`. -/
theorem fieldFrom_skip (name : List Char) {cs : List Char} (h : ∀ c ∈ cs, c ≠ '&')
    (rest : List Char) : fieldFrom name false (cs ++ rest) = fieldFrom name false rest := by
  induction cs with
  | nil => rfl
  | cons c cs ih =>
    have hc : (c = '&') = False := eq_false (h c List.mem_cons_self)
    have hrest := ih fun d hd => h d (List.mem_cons_of_mem _ hd)
    rw [List.cons_append, fieldFrom]
    simpa [hc] using hrest

/-- A field starts behind an `&`. -/
theorem fieldFrom_amp (name rest : List Char) :
    fieldFrom name false ('&' :: rest) = fieldFrom name true rest := by
  rw [fieldFrom]
  simp

theorem mgLower_ne_equals {c : Char} (h : mgIsUrlSafe c = true) : mgLower c ≠ '=' := by
  intro heq
  unfold mgLower Char.toLower at heq
  split at heq
  · rename_i hupper
    -- a capital letter becomes a small one
    have hval : (c.val + ('a'.val - 'A'.val)).toNat = 61 :=
      congrArg (fun d : Char => d.val.toNat) heq
    have hlow : 65 ≤ c.val.toNat := hupper.1
    have hhigh : c.val.toNat ≤ 90 := hupper.2
    have hshift : ('a'.val - 'A'.val).toNat = 32 := by decide
    rw [UInt32.toNat_add, hshift] at hval
    omega
  · exact safe_ne h (by decide) heq

theorem mgNcaseEq_cons (c d : Char) (name p : List Char) :
    mgNcaseEq (d :: name) (c :: p) = (decide (mgLower c = mgLower d) && mgNcaseEq name p) := by
  simp [mgNcaseEq]

/-- A name is found at the start of a field exactly if it is the field's own. -/
theorem name_matches_iff {n name : List Char} (hn : ∀ c ∈ n, mgIsUrlSafe c = true)
    (hname : ∀ c ∈ name, mgIsUrlSafe c = true) (rest : List Char) :
    ((n ++ '=' :: rest)[name.length]? = some '=' ∧ mgNcaseEq name (n ++ '=' :: rest) = true) ↔
      n.map mgLower = name.map mgLower := by
  induction n generalizing name with
  | nil =>
    cases name with
    | nil => simp [mgNcaseEq]
    | cons d name =>
      have hd : mgLower d ≠ '=' := mgLower_ne_equals (hname d List.mem_cons_self)
      rw [List.nil_append, mgNcaseEq_cons]
      constructor
      · rintro ⟨-, h⟩
        rw [Bool.and_eq_true, decide_eq_true_eq] at h
        exact absurd h.1.symm hd
      · intro h
        cases h
  | cons c n ih =>
    cases name with
    | nil =>
      have hc : c ≠ '=' := safe_ne (hn c List.mem_cons_self) (by decide)
      constructor
      · rintro ⟨h, -⟩
        exact absurd (Option.some.inj h) hc
      · intro h
        cases h
    | cons d name =>
      have hnext := ih (fun e he => hn e (List.mem_cons_of_mem _ he))
        fun e he => hname e (List.mem_cons_of_mem _ he)
      rw [List.cons_append, mgNcaseEq_cons, List.length_cons, List.getElem?_cons_succ,
        Bool.and_eq_true, decide_eq_true_eq, List.map_cons, List.map_cons, List.cons.injEq, ← hnext]
      exact and_left_comm

/-- The search at the start of a field. -/
theorem fieldFrom_field {name : List Char} (hname : ∀ c ∈ name, mgIsUrlSafe c = true)
    (f : FormField) (rest : List Char) :
    fieldFrom name true (f.text ++ rest) =
      if f.name.map mgLower = name.map mgLower then
        some ((encoded f.value ++ rest).takeWhile fun c => c ≠ '&')
      else fieldFrom name false rest := by
  have htext : f.text ++ rest = f.name ++ '=' :: (encoded f.value ++ rest) := by
    simp [FormField.text]
  have hplain : ∀ c ∈ f.text, c ≠ '&' := by
    intro c hc
    obtain hc | hc := List.mem_append.mp hc
    · exact safe_ne (f.name_safe c hc) (by decide)
    · obtain rfl | hc := List.mem_cons.mp hc
      · decide
      · exact encoded_ne_amp f.value_bytes c hc
  have hmatch := name_matches_iff f.name_safe hname (encoded f.value ++ rest)
  rw [← htext] at hmatch
  obtain ⟨c, cs, hcons⟩ : ∃ c cs, f.text = c :: cs := by
    refine List.exists_cons_of_ne_nil ?_
    simp [FormField.text]
  have hskip : fieldFrom name (c = '&') (cs ++ rest) = fieldFrom name false rest := by
    have hc : (c = '&') = False := eq_false (hplain c (by rw [hcons]; exact List.mem_cons_self))
    have hcs : ∀ d ∈ cs, d ≠ '&' := fun d hd => hplain d (hcons ▸ List.mem_cons_of_mem _ hd)
    have hrest := fieldFrom_skip name hcs rest
    simpa [hc] using hrest
  rw [hcons, List.cons_append] at hmatch ⊢
  rw [fieldFrom, hskip]
  by_cases hfound : f.name.map mgLower = name.map mgLower
  · have hlength : f.name.length = name.length := by
      have := congrArg List.length hfound
      rwa [List.length_map, List.length_map] at this
    obtain ⟨hequals, hname⟩ := hmatch.mpr hfound
    have hshort : name.length < (c :: (cs ++ rest)).length :=
      (List.getElem?_eq_some_iff.mp hequals).1
    have hdrop : (c :: (cs ++ rest)).drop (name.length + 1) = encoded f.value ++ rest := by
      rw [← List.cons_append, ← hcons, htext, ← hlength]
      simp
    rw [if_pos hfound, hdrop, decide_eq_true hshort, decide_eq_true hequals, hname]
    rfl
  · rw [if_neg hfound, if_neg]
    intro h
    simp only [Bool.and_eq_true, decide_eq_true_eq] at h
    exact hfound (hmatch.mp ⟨h.1.2, h.2⟩)

theorem takeWhile_encoded (f : FormField) (rest : List Char) :
    (encoded f.value ++ rest).takeWhile (fun c => c ≠ '&') =
      encoded f.value ++ rest.takeWhile fun c => c ≠ '&' := by
  apply List.takeWhile_append_of_pos
  intro c hc
  exact decide_eq_true (encoded_ne_amp f.value_bytes c hc)

/-- The first field of the name is found, whatever the values are. -/
theorem field_formBody {name : List Char} (hname : ∀ c ∈ name, mgIsUrlSafe c = true)
    (form : List FormField) :
    field (formBody form) name = (formValue form name).map encoded := by
  unfold field
  induction form with
  | nil => rfl
  | cons f form ih =>
    have hrest : ∃ rest, formBody (f :: form) = f.text ++ rest ∧
        rest.takeWhile (fun c => c ≠ '&') = [] ∧
        fieldFrom name false rest = fieldFrom name true (formBody form) := by
      cases form with
      | nil => exact ⟨[], by simp [formBody], rfl, rfl⟩
      | cons g form =>
        refine ⟨'&' :: formBody (g :: form), ?_, rfl, fieldFrom_amp name _⟩
        simp [formBody, List.intercalate_cons_cons]
    obtain ⟨rest, hbody, hend, hnext⟩ := hrest
    unfold formValue at ih ⊢
    rw [hbody, fieldFrom_field hname, takeWhile_encoded, hend, List.append_nil, hnext, ih,
      List.find?_cons]
    by_cases hfound : f.name.map mgLower = name.map mgLower
    · rw [if_pos hfound, decide_eq_true hfound]
      rfl
    · rw [if_neg hfound, decide_eq_false hfound]

/-! ## What a form stores -/

/-- The text that a field of a form leaves in a buffer with room for `room` bytes. -/
def formText (form : List FormField) (name : List Char) (room : Nat) : List Char :=
  cstr (((formValue form name).getD []).take room)

/-- What `mg_http_get_var` leaves of a field does not depend on what the buffer held. -/
theorem cstr_getVar_form {name dst : List Char} (hname : ∀ c ∈ name, mgIsUrlSafe c = true)
    (form : List FormField) (hdst : dst ≠ []) :
    cstr (mgHttpGetVar (formBody form) name dst).2 = formText form name (dst.length - 1) := by
  have hfield := field_formBody hname form
  unfold formText
  cases hvalue : formValue form name with
  | none =>
    rw [hvalue] at hfield
    rw [mgHttpGetVar_absent hdst hfield, cstr_set_nul hdst]
    simp [cstr]
  | some value =>
    rw [hvalue] at hfield
    obtain ⟨f, -, rfl⟩ := Option.map_eq_some_iff.mp hvalue
    rw [getVar_written hdst hfield, decoding_encoded f.value_bytes]
    have hfine : (if f.value.length ≤ dst.length - 1 then Ending.complete else .full) ≠
        .badPercent := by
      split
      · exact Ending.noConfusion
      · exact Ending.noConfusion
    unfold written
    rw [if_neg hfine, putText, cstr_append_nul]
    rfl

theorem portName_safe (i : Port) : ∀ c ∈ portName i, mgIsUrlSafe c = true := by
  have hall : ∀ i, (portName i).all mgIsUrlSafe = true := by decide
  exact List.all_eq_true.mp (hall i)

/-- The field of a port. -/
def portField (i : Port) (value : List Char) (h : ∀ c ∈ value, IsByte c) : FormField :=
  ⟨portName i, value, portName_safe i, h⟩

theorem length_blank : (List.replicate 20 nul).length = 20 := rfl

/-- The form asks for the manual mode. -/
def ManualForm (form : List FormField) : Bool :=
  formText form "is_on_manual".toList 19 = "true".toList

theorem isOnManual_form (form : List FormField) (buf : ManualBuffer) :
    isOnManual (formBody form) buf = ManualForm form := by
  have hbuf : buf.val ≠ [] := by
    intro hnil
    have hlength := buf.property
    rw [hnil] at hlength
    cases hlength
  have hname : ∀ c ∈ "is_on_manual".toList, mgIsUrlSafe c = true :=
    List.all_eq_true.mp (by decide)
  unfold isOnManual ManualForm
  rw [cstr_getVar_form hname form hbuf, buf.property]

/-- The handler stores the port's field of the form. -/
def StoresForm (portsType : Port → PortType) (form : List FormField) (i : Port) : Bool :=
  match portsType i with
  | .input => true
  | .output => ManualForm form
  | .unspecified => false

/-- A POST of a form updates the texts of the ports that it stores. -/
theorem text_post_form (s : PortServer) (form : List FormField) (buf : Port → ManualBuffer)
    (i : Port) :
    ((s.post (formBody form) buf).mgPorts i).text =
      if StoresForm s.portsType form i then formText form (portName i) 9
      else (s.mgPorts i).text := by
  have hstores : Stores s.portsType (formBody form) buf i = StoresForm s.portsType form i := by
    unfold Stores StoresForm
    cases s.portsType i with
    | unspecified => rfl
    | input => rfl
    | output => exact isOnManual_form form (buf i)
  rw [mgPorts_post, hstores]
  split
  · have htext := cstr_getVar_form (portName_safe i) form (s.mgPorts i).bytes_ne_nil
    rw [(s.mgPorts i).length_eq] at htext
    exact htext
  · rfl

/-! ## Runs on forms -/

/-- An event of a run in which every POST sends a form. -/
inductive FormEvent where
  | write (port : Port) (data : BitVec 8)
  | read (port : Port)
  | post (form : List FormField) (buf : Port → ManualBuffer)

def FormEvent.toPortEvent : FormEvent → PortEvent
  | .write port data => .write port data
  | .read port => .read port
  | .post form buf => .post (formBody form) buf

/-- What an event does to the texts of the ports. -/
def updateTexts (portsType : Port → PortType) (texts : Port → List Char) :
    FormEvent → Port → List Char
  | .write port data => Function.update texts port (numeral data)
  | .read _ => texts
  | .post form _ => fun i =>
    if StoresForm portsType form i then formText form (portName i) 9 else texts i

/-- The texts after a run. -/
def textsAfter (portsType : Port → PortType) (events : List FormEvent) : Port → List Char :=
  events.foldl (updateTexts portsType) fun _ => "0".toList

theorem text_form_step {s s' : PortServer} {e : FormEvent} {texts : Port → List Char}
    (htexts : ∀ i, (s.mgPorts i).text = texts i) (h : s.step e.toPortEvent = some s') (i : Port) :
    (s'.mgPorts i).text = updateTexts s.portsType texts e i := by
  cases e with
  | write port data =>
    obtain rfl := simWriteDigitalU8_eq h
    by_cases hi : i = port
    · subst hi
      simp [updateTexts, text_print]
    · simp [updateTexts, hi, htexts]
  | read port =>
    obtain ⟨v, -, rfl⟩ := Option.map_eq_some_iff.mp h
    exact htexts i
  | post form buf =>
    obtain rfl := Option.some.inj h
    rw [text_post_form, htexts]
    rfl

theorem text_form_run {s s' : PortServer} {events : List FormEvent} {texts : Port → List Char}
    (htexts : ∀ i, (s.mgPorts i).text = texts i)
    (hrun : s.run (events.map FormEvent.toPortEvent) = some s') (i : Port) :
    (s'.mgPorts i).text = events.foldl (updateTexts s.portsType) texts i := by
  induction events generalizing s texts with
  | nil =>
    obtain rfl := Option.some.inj hrun
    exact htexts i
  | cons e es ih =>
    obtain ⟨s₁, hstep, hrest⟩ := Option.bind_eq_some_iff.mp hrun
    have hnext := ih (fun j => text_form_step htexts hstep j) hrest
    rw [(portStep_cases hstep).1] at hnext
    exact hnext

/-- A server whose POSTs send forms is a map from ports to texts: its rows, its replies and the
    bytes that are read are those of the map. -/
theorem forms_refine {portsType : Port → PortType} {events : List FormEvent} {s : PortServer}
    (hrun : (PortServer.start portsType).run (events.map FormEvent.toPortEvent) = some s) :
    (∀ i, (s.mgPorts i).text = textsAfter portsType events i) ∧
      s.reply.flatten = replyText (textsAfter portsType events) ∧
      ∀ i, s.simReadDigitalU8 i = if s.Waiting then none
        else some (BitVec.ofInt 8 (atoi (textsAfter portsType events i))) := by
  have hzero : PortText.zero.text = "0".toList := by decide
  have htexts : ∀ i, (s.mgPorts i).text = textsAfter portsType events i :=
    text_form_run (fun _ => hzero) hrun
  refine ⟨htexts, ?_, ?_⟩
  · rw [flatten_reply]
    congr 1
    funext i
    exact htexts i
  · intro i
    unfold PortServer.simReadDigitalU8 PortText.value
    rw [htexts]

/-- A field `P0` with a value that looks like the end of it and another field. -/
def trickyField : FormField := portField 0 "5&P0=7+%".toList (bytes_of_all (by decide))

theorem forms_refine_tricky :
    ∃ s, (PortServer.start fun _ => .input).run ((List.replicate 10 (FormEvent.post [trickyField]
        fun _ => ⟨List.replicate 20 nul, length_blank⟩)).map FormEvent.toPortEvent) = some s ∧
      (s.mgPorts 0).text = "5&P0=7+%".toList ∧ (s.mgPorts 1).text = [] := by
  have hrun : ((PortServer.start fun _ => .input).run ((List.replicate 10 (FormEvent.post
      [trickyField] fun _ => ⟨List.replicate 20 nul, length_blank⟩)).map
        FormEvent.toPortEvent)).isSome = true := by
    rfl
  obtain ⟨s, hs⟩ := Option.isSome_iff_exists.mp hrun
  have htexts := (forms_refine hs).1
  refine ⟨s, hs, ?_, ?_⟩
  · rw [htexts]
    decide
  · rw [htexts]
    decide

end SmartWarehouse.Server
