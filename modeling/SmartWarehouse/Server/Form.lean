/-
  Form fields of a request body: `mg_http_get_var` and `mg_url_decode` of `mongoose.c`.

  `mgHttpGetVar` looks for the first field of a name, ignoring case, and decodes its value into
  a buffer, byte by byte. What it leaves there depends on the body alone if the field is absent
  (`mgHttpGetVar_absent`) or decodes into the buffer (`mgHttpGetVar_decoded`); a value that
  fails to decode leaves its first bytes over the old ones. The bytes of a body are characters
  below 256; nothing here depends on that bound.
-/
import SmartWarehouse.Lib.CString

namespace SmartWarehouse.Server

open SmartWarehouse.Lib

/-! ## Decoding -/

/-- `tolower` of the C locale. -/
def mgLower (c : Char) : Char := c.toLower

def isxdigit (c : Char) : Bool :=
  c.isDigit || ('a' ≤ c && c ≤ 'f') || ('A' ≤ c && c ≤ 'F')

def mgUnhexNimble (c : Char) : Nat :=
  if '0' ≤ c ∧ c ≤ '9' then c.toNat - '0'.toNat
  else if 'A' ≤ c ∧ c ≤ 'F' then c.toNat - '7'.toNat
  else c.toNat - 'W'.toNat

/-- The byte of two hexadecimal digits. -/
def mgUnhex (a b : Char) : Char := Char.ofNat (16 * mgUnhexNimble a + mgUnhexNimble b)

/-- The loop of `mg_url_decode` from the rest of `src` and index `j`, and what follows it. -/
def mgUrlDecodeFrom (isFormUrlEncoded : Bool) : List Char → Nat → List Char → Int × List Char
  | [], j, dst => if j < dst.length then (j, dst.set j nul) else (-1, dst)
  | c :: src, j, dst =>
    if j + 1 < dst.length then
      if c = '%' then
        match src with
        | a :: b :: src' =>
          if isxdigit a && isxdigit b then
            mgUrlDecodeFrom isFormUrlEncoded src' (j + 1) (dst.set j (mgUnhex a b))
          else (-1, dst)
        | _ => (-1, dst)
      else if isFormUrlEncoded && c = '+' then
        mgUrlDecodeFrom isFormUrlEncoded src (j + 1) (dst.set j ' ')
      else mgUrlDecodeFrom isFormUrlEncoded src (j + 1) (dst.set j c)
    else (-1, dst.set j nul) -- `src` does not fit

def mgUrlDecode (src dst : List Char) (isFormUrlEncoded : Bool) : Int × List Char :=
  mgUrlDecodeFrom isFormUrlEncoded src 0 dst

/-- `!mg_ncasecmp(name, p, name_len)` for a name without terminators. -/
def mgNcaseEq (name p : List Char) : Bool :=
  (p.take name.length).map mgLower = name.map mgLower

/-- The value of the first field with the name, as it stands in the body. `first` says that a
    field starts here. -/
def fieldFrom (name : List Char) : Bool → List Char → Option (List Char)
  | _, [] => none
  | first, c :: rest =>
    if first && name.length < (c :: rest).length && (c :: rest)[name.length]? = some '=' &&
        mgNcaseEq name (c :: rest) then
      some (((c :: rest).drop (name.length + 1)).takeWhile fun c => c ≠ '&')
    else fieldFrom name (c = '&') rest

def field (body name : List Char) : Option (List Char) := fieldFrom name true body

/-- The return code and the buffer. -/
def mgHttpGetVar (body name dst : List Char) : Int × List Char :=
  if dst.length = 0 then (-2, dst)
  else if body = [] then (-1, dst.set 0 nul)
  else
    match field body name with
    | none => (-4, dst.set 0 nul)
    | some value =>
      let (len, dst') := mgUrlDecode value (dst.set 0 nul) true
      if len < 0 then (-3, dst') else (len, dst')

/-! ## What decodes -/

/-- The text of a form value of at most `room` bytes, if there is one. -/
def decode : List Char → Nat → Option (List Char)
  | [], _ => some []
  | _ :: _, 0 => none
  | c :: src, room + 1 =>
    if c = '%' then
      match src with
      | a :: b :: src' =>
        if isxdigit a && isxdigit b then (decode src' room).map (mgUnhex a b :: ·) else none
      | _ => none
    else if c = '+' then (decode src room).map (' ' :: ·)
    else (decode src room).map (c :: ·)

/-- What `mg_url_decode` leaves after the bytes decoded before. -/
def Decodes (pre rest : List Char) (result : Int × List Char) : Option (List Char) → Prop
  | some text => result = (((pre.length + text.length : Nat) : Int), pre ++ putText text rest)
  | none => result.1 = -1

/-- The bytes of a value that decode to what `decode` says, from any buffer with this room. -/
def DecodesFrom (src : List Char) (room : Nat) : Prop :=
  ∀ pre post d, post.length = room → Decodes pre (d :: post)
    (mgUrlDecodeFrom true src pre.length (pre ++ d :: post)) (decode src room)

theorem length_buffer (pre post : List Char) (d : Char) :
    (pre ++ d :: post).length = pre.length + 1 + post.length := by
  rw [List.length_append, List.length_cons]
  omega

theorem set_buffer (pre post : List Char) (d c : Char) :
    (pre ++ d :: post).set pre.length c = pre ++ c :: post := by
  rw [List.set_append_right _ _ (le_refl _), Nat.sub_self, List.set_cons_zero]

theorem set_next (pre post : List Char) (d d' c : Char) :
    (pre ++ d :: d' :: post).set pre.length c = (pre ++ [c]) ++ d' :: post := by
  rw [set_buffer, List.append_assoc]
  rfl

/-- One byte is written, and the rest of the value decodes behind it. -/
theorem decodes_next {src pre post : List Char} {room : Nat} {c d : Char}
    (h : DecodesFrom src room) (hroom : post.length = room + 1) :
    Decodes pre (d :: post)
      (mgUrlDecodeFrom true src (pre.length + 1) ((pre ++ d :: post).set pre.length c))
      ((decode src room).map (c :: ·)) := by
  cases post with
  | nil => cases hroom
  | cons d' post =>
    have hnext := h (pre ++ [c]) post d' (Nat.succ.inj hroom)
    rw [List.length_append, List.length_singleton] at hnext
    rw [set_next]
    cases htext : decode src room with
    | none =>
      rw [htext] at hnext
      exact hnext
    | some text =>
      rw [htext] at hnext
      have heq : mgUrlDecodeFrom true src (pre.length + 1) ((pre ++ [c]) ++ d' :: post) = _ := hnext
      show mgUrlDecodeFrom true src (pre.length + 1) ((pre ++ [c]) ++ d' :: post) = _
      rw [heq]
      simp [putText]
      omega

theorem mgUrlDecodeFrom_decodes (src : List Char) (room : Nat) : DecodesFrom src room := by
  fun_induction decode src room with
  | case1 room =>
    intro pre post d hroom
    have := length_buffer pre post d
    unfold mgUrlDecodeFrom decode
    rw [if_pos (by omega), set_buffer]
    rfl
  | case2 c src =>
    intro pre post d hroom
    have := length_buffer pre post d
    unfold mgUrlDecodeFrom decode
    rw [if_neg (by omega)]
    rfl
  | case3 room a b src' hhex ih =>
    intro pre post d hroom
    have := length_buffer pre post d
    unfold mgUrlDecodeFrom decode
    rw [if_pos (by omega), if_pos rfl, if_pos rfl]
    dsimp only
    rw [if_pos hhex, if_pos hhex]
    exact decodes_next ih hroom
  | case4 room a b src' hhex =>
    intro pre post d hroom
    have := length_buffer pre post d
    unfold mgUrlDecodeFrom decode
    rw [if_pos (by omega), if_pos rfl, if_pos rfl]
    dsimp only
    rw [if_neg hhex, if_neg hhex]
    rfl
  | case5 room src hshort =>
    intro pre post d hroom
    have := length_buffer pre post d
    unfold mgUrlDecodeFrom decode
    rw [if_pos (by omega), if_pos rfl, if_pos rfl]
    split
    · rename_i a b src'
      exact absurd rfl (hshort a b src')
    · rfl
  | case6 room src hpercent ih =>
    intro pre post d hroom
    have := length_buffer pre post d
    unfold mgUrlDecodeFrom decode
    rw [if_pos (by omega), if_neg hpercent, if_neg hpercent, if_pos rfl]
    exact decodes_next ih hroom
  | case7 room src c hpercent hplus ih =>
    intro pre post d hroom
    have := length_buffer pre post d
    unfold mgUrlDecodeFrom decode
    rw [if_pos (by omega), if_neg hpercent, if_neg hpercent, if_neg (by simpa using hplus),
      if_neg hplus]
    exact decodes_next ih hroom

/-! ## What a field leaves in the buffer -/

theorem field_nil (name : List Char) : field [] name = none := rfl

/-- Without the field the text becomes empty. -/
theorem mgHttpGetVar_absent {body name dst : List Char} (hdst : dst ≠ [])
    (h : field body name = none) : (mgHttpGetVar body name dst).2 = dst.set 0 nul := by
  unfold mgHttpGetVar
  rw [if_neg (by simpa using hdst)]
  split
  · rfl
  · rw [h]

/-- A field is decoded from the start of the buffer. -/
theorem mgHttpGetVar_field {body name dst value : List Char} (hdst : dst ≠ [])
    (h : field body name = some value) :
    mgHttpGetVar body name dst =
      if (mgUrlDecode value (dst.set 0 nul) true).1 < 0 then
        (-3, (mgUrlDecode value (dst.set 0 nul) true).2)
      else mgUrlDecode value (dst.set 0 nul) true := by
  have hbody : body ≠ [] := by
    intro hnil
    rw [hnil, field_nil] at h
    cases h
  unfold mgHttpGetVar
  rw [if_neg (by simpa using hdst), if_neg hbody, h]

theorem mgUrlDecode_decodes (value : List Char) {dst : List Char} (hdst : dst ≠ []) :
    Decodes [] dst (mgUrlDecode value dst true) (decode value (dst.length - 1)) := by
  cases dst with
  | nil => exact absurd rfl hdst
  | cons d post => exact mgUrlDecodeFrom_decodes value post.length [] post d rfl

/-- A field that decodes into the buffer is stored there. -/
theorem mgHttpGetVar_decoded {body name dst value text : List Char} (hdst : dst ≠ [])
    (hfield : field body name = some value)
    (htext : decode value (dst.length - 1) = some text) :
    mgHttpGetVar body name dst = ((text.length : Int), putText text dst) := by
  have hset : dst.set 0 nul ≠ [] := by simpa using hdst
  have hdecode := mgUrlDecode_decodes value hset
  rw [List.length_set, htext] at hdecode
  have heq : mgUrlDecode value (dst.set 0 nul) true =
      (((0 + text.length : Nat) : Int), putText text (dst.set 0 nul)) := hdecode
  have hput : putText text (dst.set 0 nul) = putText text dst := by
    unfold putText
    rw [List.drop_set_of_lt (Nat.succ_pos _)]
  rw [mgHttpGetVar_field hdst hfield, heq, if_neg (by omega), Nat.zero_add, hput]

/-- A field that does not decode into the buffer is reported. -/
theorem mgHttpGetVar_undecoded {body name dst value : List Char} (hdst : dst ≠ [])
    (hfield : field body name = some value) (htext : decode value (dst.length - 1) = none) :
    (mgHttpGetVar body name dst).1 = -3 := by
  have hset : dst.set 0 nul ≠ [] := by simpa using hdst
  have hdecode := mgUrlDecode_decodes value hset
  rw [List.length_set, htext] at hdecode
  have hfail : (mgUrlDecode value (dst.set 0 nul) true).1 = -1 := hdecode
  rw [mgHttpGetVar_field hdst hfield, hfail, if_pos (by decide)]

/-- Whatever is kept of a buffer by its length and its last byte being a terminator. -/
theorem mgUrlDecodeFrom_buffer (f : Bool) (src : List Char) (j : Nat) {dst : List Char}
    (h : Terminated dst) :
    (mgUrlDecodeFrom f src j dst).2.length = dst.length ∧
      Terminated (mgUrlDecodeFrom f src j dst).2 := by
  fun_induction mgUrlDecodeFrom f src j dst with
  | case1 j dst hj => exact ⟨List.length_set, h.set_nul j⟩
  | case2 j dst hj => exact ⟨rfl, h⟩
  | case3 j dst hj a b src hhex ih =>
    have hnext := ih (h.set hj _)
    rw [List.length_set] at hnext
    exact hnext
  | case4 j dst hj a b src hhex => exact ⟨rfl, h⟩
  | case5 j dst hj src hshort => exact ⟨rfl, h⟩
  | case6 c src j dst hj hpercent hplus ih =>
    have hnext := ih (h.set hj _)
    rw [List.length_set] at hnext
    exact hnext
  | case7 c src j dst hj hpercent hplus ih =>
    have hnext := ih (h.set hj _)
    rw [List.length_set] at hnext
    exact hnext
  | case8 c src j dst hj => exact ⟨List.length_set, h.set_nul j⟩

/-- No field makes a buffer longer, or takes its terminator away. -/
theorem mgHttpGetVar_buffer (body name : List Char) {dst : List Char} (h : Terminated dst) :
    (mgHttpGetVar body name dst).2.length = dst.length ∧
      Terminated (mgHttpGetVar body name dst).2 := by
  unfold mgHttpGetVar
  split
  · exact ⟨rfl, h⟩
  · split
    · exact ⟨List.length_set, h.set_nul 0⟩
    · split
      · exact ⟨List.length_set, h.set_nul 0⟩
      · rename_i value _
        have hdecode := mgUrlDecodeFrom_buffer true value 0 (h.set_nul 0)
        rw [List.length_set] at hdecode
        dsimp only
        split
        · exact hdecode
        · exact hdecode

end SmartWarehouse.Server
