/-
  Which texts of an actuator message act on a motor.

  `std::stoi` reads white space, an optional sign and the digits up to the first other
  character (`IntegerPrefix`), and ignores what follows. So a message acts exactly if the
  integer that its text begins with is -1, 0 or 1 (`leading_integer_acts`); the text of another
  integer does nothing, and a decimal fraction acts as its integer part.
-/
import SmartWarehouse.Server.Motors
import SmartWarehouse.Server.PortServer

namespace SmartWarehouse.Server

open SmartWarehouse.Lib

/-! ## The integer a text begins with -/

inductive Sign where
  | none | plus | minus
deriving DecidableEq, Repr

def Sign.chars : Sign → List Char
  | .none => []
  | .plus => ['+']
  | .minus => ['-']

/-- A text that begins with an integer, in the parts that `stoi` reads. -/
structure IntegerPrefix where
  spaces : List Char
  sign : Sign
  digits : List Char
  rest : List Char
  isspace_spaces : ∀ c ∈ spaces, isspace c = true
  isdigit_digits : ∀ c ∈ digits, isdigit c = true
  digits_ne_nil : digits ≠ []
  /-- The digits end where `rest` starts. -/
  not_isdigit_rest : ∀ c ∈ rest.head?, isdigit c = false

def IntegerPrefix.chars (p : IntegerPrefix) : List Char :=
  p.spaces ++ (p.sign.chars ++ (p.digits ++ p.rest))

def IntegerPrefix.value (p : IntegerPrefix) : Int :=
  if p.sign = .minus then -(digitsValue p.digits) else digitsValue p.digits

/-- The text begins with the integer. -/
def Leads (s : String) (v : Int) : Prop :=
  ∃ p : IntegerPrefix, s.toList = p.chars ∧ p.value = v

/-! ## `stoi` reads it -/

theorem toNat_of_isdigit {c : Char} (h : isdigit c = true) : 48 ≤ c.toNat ∧ c.toNat ≤ 57 := by
  simpa [isdigit] using h

theorem not_isspace_of_isdigit {c : Char} (h : isdigit c = true) : isspace c = false := by
  have hc := toNat_of_isdigit h
  simp only [isspace, Bool.or_eq_false_iff, Bool.and_eq_false_iff, decide_eq_false_iff_not]
  omega

/-- A digit is no sign. -/
theorem signOf_of_isdigit {c : Char} (h : isdigit c = true) (cs : List Char) :
    signOf (c :: cs) = (false, c :: cs) := by
  unfold signOf
  split
  · rename_i heq
    rw [(List.cons.inj heq).1] at h
    exact absurd h (by decide)
  · rename_i heq
    rw [(List.cons.inj heq).1] at h
    exact absurd h (by decide)
  · rfl

theorem dropWhile_append_of_all {p : Char → Bool} {l l' : List Char} (h : ∀ c ∈ l, p c = true)
    (h' : ∀ c ∈ l'.head?, p c = false) : (l ++ l').dropWhile p = l' := by
  rw [List.dropWhile_append, List.dropWhile_eq_nil_iff.mpr h, List.isEmpty_nil, if_pos rfl]
  cases l' with
  | nil => rfl
  | cons c cs => rw [List.dropWhile_cons_of_neg (by simp [h' c rfl])]

theorem takeWhile_append_of_all {p : Char → Bool} {l l' : List Char} (h : ∀ c ∈ l, p c = true)
    (h' : ∀ c ∈ l'.head?, p c = false) : (l ++ l').takeWhile p = l := by
  rw [List.takeWhile_append_of_pos h]
  cases l' with
  | nil => simp
  | cons c cs => rw [List.takeWhile_cons_of_neg (by simp [h' c rfl]), List.append_nil]

/-- White space ends before the sign or the first digit. -/
theorem IntegerPrefix.not_isspace_head (p : IntegerPrefix) :
    ∀ c ∈ (p.sign.chars ++ (p.digits ++ p.rest)).head?, isspace c = false := by
  intro c hc
  rcases hs : p.sign with _ | _ | _
  · obtain ⟨d, ds, hd⟩ := List.exists_cons_of_ne_nil p.digits_ne_nil
    rw [hs, hd] at hc
    obtain rfl : d = c := by simpa [Sign.chars] using hc
    exact not_isspace_of_isdigit (p.isdigit_digits d (by simp [hd]))
  · rw [hs] at hc
    obtain rfl : '+' = c := by simpa [Sign.chars] using hc
    decide
  · rw [hs] at hc
    obtain rfl : '-' = c := by simpa [Sign.chars] using hc
    decide

theorem IntegerPrefix.signOf_eq (p : IntegerPrefix) :
    signOf (p.sign.chars ++ (p.digits ++ p.rest)) =
      (decide (p.sign = .minus), p.digits ++ p.rest) := by
  rcases hs : p.sign with _ | _ | _
  · obtain ⟨d, ds, hd⟩ := List.exists_cons_of_ne_nil p.digits_ne_nil
    have hdigit : isdigit d = true := p.isdigit_digits d (by simp [hd])
    rw [hd]
    exact signOf_of_isdigit hdigit _
  · rfl
  · rfl

theorem stoi_of_chars {s : String} {p : IntegerPrefix} (h : s.toList = p.chars) :
    stoi s = intOf p.value := by
  have hdrop : s.toList.dropWhile isspace = p.sign.chars ++ (p.digits ++ p.rest) := by
    rw [h]
    exact dropWhile_append_of_all p.isspace_spaces p.not_isspace_head
  have htake : (p.digits ++ p.rest).takeWhile isdigit = p.digits :=
    takeWhile_append_of_all p.isdigit_digits p.not_isdigit_rest
  unfold stoi
  rw [hdrop, p.signOf_eq]
  dsimp only
  rw [htake, if_neg p.digits_ne_nil]
  simp only [IntegerPrefix.value, decide_eq_true_eq]

theorem exists_sign (cs : List Char) :
    ∃ sign : Sign, cs = sign.chars ++ (signOf cs).2 ∧
      (signOf cs).1 = decide (sign = .minus) := by
  unfold signOf
  split
  · exact ⟨.minus, rfl, rfl⟩
  · exact ⟨.plus, rfl, rfl⟩
  · exact ⟨.none, rfl, rfl⟩

/-- A text without such a prefix has no digit where `stoi` looks for one. -/
theorem exists_prefix_of_digits {s : String}
    (h : (signOf (s.toList.dropWhile isspace)).2.takeWhile isdigit ≠ []) :
    ∃ p : IntegerPrefix, s.toList = p.chars := by
  obtain ⟨sign, hsign, -⟩ := exists_sign (s.toList.dropWhile isspace)
  refine ⟨⟨s.toList.takeWhile isspace, sign, _, (signOf (s.toList.dropWhile isspace)).2.dropWhile
    isdigit, fun c hc => List.mem_takeWhile_imp hc, fun c hc => List.mem_takeWhile_imp hc, h,
    fun c hc => ?_⟩, ?_⟩
  · have hhead := List.head?_dropWhile_not isdigit (signOf (s.toList.dropWhile isspace)).2
    rw [Option.mem_def.mp hc] at hhead
    simpa using hhead
  · unfold IntegerPrefix.chars
    dsimp only
    rw [List.takeWhile_append_dropWhile, ← hsign, List.takeWhile_append_dropWhile]

theorem intOf_eq_ok {v w : Int} :
    intOf v = .ok w ↔ w = v ∧ -2147483648 ≤ v ∧ v ≤ 2147483647 := by
  unfold intOf
  split
  · rename_i h
    constructor
    · intro heq
      exact ⟨(Except.ok.inj heq).symm, h⟩
    · rintro ⟨rfl, -⟩
      rfl
  · rename_i h
    constructor
    · intro heq
      cases heq
    · rintro ⟨-, hv⟩
      exact absurd hv h

/-- `stoi` returns the integer that the text begins with, if an `int` holds it. -/
theorem stoi_eq_ok_iff (s : String) (v : Int) :
    stoi s = .ok v ↔ Leads s v ∧ -2147483648 ≤ v ∧ v ≤ 2147483647 := by
  constructor
  · intro h
    by_cases hdigits : (signOf (s.toList.dropWhile isspace)).2.takeWhile isdigit = []
    · unfold stoi at h
      dsimp only at h
      rw [if_pos hdigits] at h
      cases h
    · obtain ⟨p, hp⟩ := exists_prefix_of_digits hdigits
      rw [stoi_of_chars hp] at h
      obtain ⟨rfl, hrange⟩ := intOf_eq_ok.mp h
      exact ⟨⟨p, hp, rfl⟩, hrange⟩
  · rintro ⟨⟨p, hp, rfl⟩, hrange⟩
    rw [stoi_of_chars hp]
    exact intOf_eq_ok.mpr ⟨rfl, hrange⟩

theorem stoi_leads {s : String} {d : Direction} :
    stoi s = .ok d.value ↔ Leads s d.value := by
  rw [stoi_eq_ok_iff]
  have hrange : -2147483648 ≤ d.value ∧ d.value ≤ 2147483647 := by cases d <;> decide
  exact ⟨fun h => h.1, fun h => ⟨h, hrange⟩⟩

/-- A text begins with at most one integer. -/
theorem Leads.unique {s : String} {v w : Int} (hv : Leads s v) (hw : Leads s w) : v = w := by
  obtain ⟨p, hp, rfl⟩ := hv
  obtain ⟨q, hq, rfl⟩ := hw
  have hdrop : ∀ r : IntegerPrefix, s.toList = r.chars →
      s.toList.dropWhile isspace = r.sign.chars ++ (r.digits ++ r.rest) := fun r hr => by
    rw [hr]
    exact dropWhile_append_of_all r.isspace_spaces r.not_isspace_head
  have hsign := congrArg signOf ((hdrop p hp).symm.trans (hdrop q hq))
  rw [p.signOf_eq, q.signOf_eq] at hsign
  have hdigits := congrArg (List.takeWhile isdigit) (Prod.mk.inj hsign).2
  rw [takeWhile_append_of_all p.isdigit_digits p.not_isdigit_rest,
    takeWhile_append_of_all q.isdigit_digits q.not_isdigit_rest] at hdigits
  have hminus : p.sign = .minus ↔ q.sign = .minus := by simpa using (Prod.mk.inj hsign).1
  simp only [IntegerPrefix.value, hminus, hdigits]

/-! ## Texts of numbers -/

theorem isdigit_numeral (n : Nat) : ∀ c ∈ Nat.toDigits 10 n, isdigit c = true := fun _ hc =>
  isdigit_of_isDigit (isDigit_of_mem_numeral hc)

/-- A numeral with an optional minus, and anything but a digit after it. -/
def numeralPrefix (negative : Bool) (n : Nat) (rest : List Char)
    (hrest : ∀ c ∈ rest.head?, isdigit c = false) : IntegerPrefix where
  spaces := []
  sign := if negative then .minus else .none
  digits := Nat.toDigits 10 n
  rest := rest
  isspace_spaces := fun _ hc => absurd hc List.not_mem_nil
  isdigit_digits := isdigit_numeral n
  digits_ne_nil := Nat.toDigits_ne_nil
  not_isdigit_rest := hrest

theorem value_numeralPrefix (negative : Bool) (n : Nat) (rest : List Char)
    (hrest : ∀ c ∈ rest.head?, isdigit c = false) :
    (numeralPrefix negative n rest hrest).value = if negative then -(n : Int) else n := by
  cases negative
  · simp [numeralPrefix, IntegerPrefix.value, digitsValue_numeral]
  · simp [numeralPrefix, IntegerPrefix.value, digitsValue_numeral]

/-- The text of a decimal fraction. -/
def fractionText (negative : Bool) (whole : Nat) (decimals : String) : String :=
  (if negative then "-" else "") ++ toString whole ++ "." ++ decimals

/-- A fraction without its decimals. -/
def integerPart (negative : Bool) (whole : Nat) : Int := if negative then -(whole : Int) else whole

theorem leads_fractionText (negative : Bool) (whole : Nat) (decimals : String) :
    Leads (fractionText negative whole decimals) (integerPart negative whole) := by
  have hrest : ∀ c ∈ ('.' :: decimals.toList).head?, isdigit c = false := by
    intro c hc
    obtain rfl : '.' = c := by simpa using hc
    decide
  refine ⟨numeralPrefix negative whole ('.' :: decimals.toList) hrest, ?_,
    value_numeralPrefix negative whole _ hrest⟩
  cases negative
  · simp [fractionText, numeralPrefix, IntegerPrefix.chars, Sign.chars]
  · simp [fractionText, numeralPrefix, IntegerPrefix.chars, Sign.chars]

theorem leads_toString (n : Int) : Leads (toString n) n := by
  have hrest : ∀ c ∈ ([] : List Char).head?, isdigit c = false := by simp
  have htext : (toString n).toList =
      (numeralPrefix (decide (n < 0)) n.natAbs [] hrest).chars := by
    rw [Int.toString_eq_repr, Int.repr_eq_if]
    by_cases h : 0 ≤ n
    · have hneg : ¬ n < 0 := by omega
      have habs : n.toNat = n.natAbs := by omega
      simp [h, hneg, habs, numeralPrefix, IntegerPrefix.chars, Sign.chars]
    · have hneg : n < 0 := by omega
      have habs : (-n).toNat = n.natAbs := by omega
      simp [h, hneg, habs, numeralPrefix, IntegerPrefix.chars, Sign.chars]
  refine ⟨_, htext, ?_⟩
  rw [value_numeralPrefix]
  by_cases h : n < 0
  · rw [if_pos (decide_eq_true h)]
    omega
  · rw [if_neg (by simpa using h)]
    omega

/-! ## The handler -/

section Handler

variable {parse : String → Except JsonException Json} {payload s : String} {j : Json} {m : Motor}

theorem tryBlock_of_motor (hparse : parse payload = .ok j) (hname : j.field "name" = .ok m.name)
    (hvalue : j.field "value" = .ok s) :
    tryBlock parse payload = (stoi s).map m.onValue := by
  rw [tryBlock_of_fields hparse hname hvalue, actuate_name]

/-- An integer that `stoi` returns runs its routine. -/
theorem ports_of_stoi_ok {v : Int} (htry : tryBlock parse payload = (stoi s).map m.onValue)
    (hv : stoi s = .ok v) (ports : Ports) :
    (onMqttActuatorsMessageArrived parse "actuator" payload ports).2 =
      run ports (m.onValue v) := by
  rw [hv] at htry
  exact ports_of_tryBlock_ok htry ports

/-- An exception of `stoi` leaves the handler before any routine. -/
theorem ports_of_stoi_error {e : CppException}
    (htry : tryBlock parse payload = (stoi s).map m.onValue) (he : stoi s = .error e)
    (ports : Ports) :
    (onMqttActuatorsMessageArrived parse "actuator" payload ports).2 = ports := by
  rw [he] at htry
  exact ports_of_tryBlock_error htry ports

theorem run_onValue_of_ne {v : Int} (hv : ∀ d : Direction, v ≠ d.value) (ports : Ports) :
    run ports (m.onValue v) = ports := by
  rw [Motor.onValue_of_ne hv]
  rfl

/-- A text acts exactly if it begins with -1, 0 or 1. -/
theorem ports_of_leads (htry : tryBlock parse payload = (stoi s).map m.onValue) {v : Int}
    (hs : Leads s v) (ports : Ports) :
    (∀ d : Direction, v = d.value →
      (onMqttActuatorsMessageArrived parse "actuator" payload ports).2 =
        run ports (m.routine d)) ∧
      ((∀ d : Direction, v ≠ d.value) →
        (onMqttActuatorsMessageArrived parse "actuator" payload ports).2 = ports) := by
  constructor
  · intro d hd
    rw [hd] at hs
    rw [ports_of_stoi_ok htry (stoi_leads.mpr hs), m.onValue_value]
  · intro hne
    rcases hv : stoi s with e | w
    · exact ports_of_stoi_error htry hv ports
    · obtain rfl : w = v := ((stoi_eq_ok_iff s w).mp hv).1.unique hs
      rw [ports_of_stoi_ok htry hv, run_onValue_of_ne hne]

theorem ports_of_not_leads (htry : tryBlock parse payload = (stoi s).map m.onValue)
    (hs : ∀ d : Direction, ¬ Leads s d.value) (ports : Ports) :
    (onMqttActuatorsMessageArrived parse "actuator" payload ports).2 = ports := by
  rcases hv : stoi s with e | v
  · exact ports_of_stoi_error htry hv ports
  · have hlead : Leads s v := ((stoi_eq_ok_iff s v).mp hv).1
    have hne : ∀ d : Direction, v ≠ d.value := by
      intro d hd
      rw [hd] at hlead
      exact hs d hlead
    rw [ports_of_stoi_ok htry hv, run_onValue_of_ne hne]

end Handler

/-- A command value for a known motor changes the ports only if the integer at its beginning
    is -1, 0 or 1, and then exactly as the command for that integer. So does the text of an
    integer, and the text of a decimal fraction with its integer part. -/
theorem leading_integer_acts (parse : String → Except JsonException Json) (payload s : String)
    (j : Json) (m : Motor) (ports : Ports) (hparse : parse payload = .ok j)
    (hname : j.field "name" = .ok m.name) (hvalue : j.field "value" = .ok s) :
    (∀ d : Direction, Leads s d.value →
      (onMqttActuatorsMessageArrived parse "actuator" payload ports).2 =
        run ports (m.routine d)) ∧
    ((∀ d : Direction, ¬ Leads s d.value) →
      (onMqttActuatorsMessageArrived parse "actuator" payload ports).2 = ports) ∧
    (∀ n : Int, (s = toString n ∨
        ∃ negative whole decimals, s = fractionText negative whole decimals ∧
          n = integerPart negative whole) →
      (∀ d : Direction, n = d.value →
        (onMqttActuatorsMessageArrived parse "actuator" payload ports).2 =
          run ports (m.routine d)) ∧
      ((∀ d : Direction, n ≠ d.value) →
        (onMqttActuatorsMessageArrived parse "actuator" payload ports).2 = ports)) := by
  have htry : tryBlock parse payload = (stoi s).map m.onValue :=
    tryBlock_of_motor hparse hname hvalue
  refine ⟨fun d hd => (ports_of_leads htry hd ports).1 d rfl,
    fun hs => ports_of_not_leads htry hs ports, ?_⟩
  intro n hn
  have hlead : Leads s n := by
    rcases hn with rfl | ⟨negative, whole, decimals, rfl, rfl⟩
    · exact leads_toString n
    · exact leads_fractionText negative whole decimals
  exact ports_of_leads htry hlead ports

/-- The message with value 0.5 for the X motor. -/
def halfPayload : String := "\x7b\"name\": \"motor_x\", \"value\": \"0.5\"\x7d"

def halfMessage : Json := .object [("name", .string "motor_x"), ("value", .string "0.5")]

/-- `json::parse` on that message. -/
def parseHalf (text : String) : Except JsonException Json :=
  if text = halfPayload then .ok halfMessage else .error .parse_error

/-- X moves to the right, all other outputs are off. -/
def movingRight : Ports := Function.update (fun _ => 0) 4 1

theorem leading_integer_acts_half :
    (onMqttActuatorsMessageArrived parseHalf "actuator" halfPayload movingRight).2 =
      run movingRight stopX :=
  ((leading_integer_acts parseHalf halfPayload "0.5" halfMessage .x movingRight rfl rfl
    rfl).2.2 0 (.inr ⟨false, 0, "5", rfl, rfl⟩)).1 .stopped rfl

/-- 0.5 is not the text of -1, 0 or 1, and the X motor stops. -/
theorem fraction_stops_motor :
    ("0.5" ≠ toString (-1 : Int) ∧ "0.5" ≠ toString (0 : Int) ∧ "0.5" ≠ toString (1 : Int)) ∧
      movingRight 4 = 1 ∧
      (onMqttActuatorsMessageArrived parseHalf "actuator" halfPayload movingRight).2 4 = 0 := by
  refine ⟨by decide, rfl, ?_⟩
  rfl

end SmartWarehouse.Server
