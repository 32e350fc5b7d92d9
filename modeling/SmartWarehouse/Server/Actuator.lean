/-
  The MQTT handler `onMqttActuatorsMessageArrived`.

  On topic `actuator` the payload is parsed as JSON, the members `name` and `value` are read
  as strings and the motor's branch converts the value with `std::stoi`. `json::parse` is a
  parameter: all the handler relies on is that its errors are `json::exception`s (the error
  type of `parse`). The handler catches these and nothing else, so the errors of `stoi` leave
  it (`actuator_errors_contained_iff`).
-/
import SmartWarehouse.Server.LocalControl

namespace SmartWarehouse.Server

open SmartWarehouse.Lib

/-! ## Values and errors -/

/-- A parsed `nlohmann::json`. -/
inductive Json where
  | null
  | boolean (b : Bool)
  | number (lexeme : String)
  | string (s : String)
  | array (elements : List Json)
  | object (members : List (String × Json))

/-- The family `json::exception`. -/
inductive JsonException where
  | parse_error
  | type_error
deriving DecidableEq

inductive CppException where
  | json (e : JsonException)
  | invalid_argument
  | out_of_range
deriving DecidableEq

/-- `operator[]` with a string key. On `null` it starts an empty object and a missing member
    is added as `null`; on any other type it throws. -/
def Json.subscript (j : Json) (key : String) : Except JsonException Json :=
  match j with
  | .null => .ok .null
  | .object members => .ok ((members.lookup key).getD .null)
  | _ => .error .type_error

/-- The implicit conversion to `std::string`. -/
def Json.toStdString : Json → Except JsonException String
  | .string s => .ok s
  | _ => .error .type_error

/-- `std::string field = jsonMessage[key]`. -/
def Json.field (j : Json) (key : String) : Except JsonException String :=
  (j.subscript key).bind Json.toStdString

/-! ## `std::stoi` -/

/-- White space of the C locale. -/
def isspace (c : Char) : Bool := c.toNat = 32 || (9 ≤ c.toNat && c.toNat ≤ 13)

def isdigit (c : Char) : Bool := 48 ≤ c.toNat && c.toNat ≤ 57

/-- An optional sign: whether it is a minus, and the rest. -/
def signOf : List Char → Bool × List Char
  | '-' :: cs => (true, cs)
  | '+' :: cs => (false, cs)
  | cs => (false, cs)

def digitsValue (digits : List Char) : Nat :=
  digits.foldl (fun n c => 10 * n + (c.toNat - 48)) 0

/-- A `long` narrowed to the 32-bit `int`. -/
def intOf (v : Int) : Except CppException Int :=
  if -2147483648 ≤ v ∧ v ≤ 2147483647 then .ok v else .error .out_of_range

/-- The longest decimal prefix after white space, as a 32-bit `int`. -/
def stoi (str : String) : Except CppException Int :=
  let (neg, cs) := signOf (str.toList.dropWhile isspace)
  let digits := cs.takeWhile isdigit
  if digits = [] then .error .invalid_argument
  else intOf (if neg then -(digitsValue digits) else digitsValue digits)

/-! ## The handler -/

/-- The `if`s of one motor: the value is converted, then every `if` whose constant it equals
    runs its routine. -/
def motorBranch (value : String) (ifs : List (Int × PortRoutine)) :
    Except CppException PortRoutine := do
  let direction ← stoi value
  return (ifs.filter fun p => direction = p.1).flatMap Prod.snd

/-- The chain of `name` comparisons. An unknown name does nothing. -/
def actuate (name value : String) : Except CppException PortRoutine :=
  if name = "motor_x" then
    motorBranch value [(0, stopX), (1, moveXRight), (-1, moveXLeft)]
  else if name = "motor_y" then
    motorBranch value [(0, stopY), (-1, moveYInside), (1, moveYOutside)]
  else if name = "motor_z" then
    motorBranch value [(0, stopZ), (-1, moveZDown), (1, moveZUp)]
  else if name = "motor_ls" then
    motorBranch value
      [(0, stopLeftStation), (1, moveLeftStationInside), (-1, moveLeftStationOutside)]
  else if name = "motor_rs" then
    motorBranch value
      [(0, stopRightStation), (1, moveRightStationInside), (-1, moveRightStationOutside)]
  else .ok []

/-- The body of the `try` block once the payload is parsed. -/
def actuatorMessage (jsonMessage : Json) : Except CppException PortRoutine :=
  match jsonMessage.field "name", jsonMessage.field "value" with
  | .error e, _ => .error (.json e)
  | .ok _, .error e => .error (.json e)
  | .ok name, .ok value => actuate name value

/-- What the `try` block runs on the ports, or the exception it raises. -/
def tryBlock (parse : String → Except JsonException Json) (payload : String) :
    Except CppException PortRoutine :=
  match parse payload with
  | .error e => .error (.json e)
  | .ok jsonMessage => actuatorMessage jsonMessage

/-- Result (or escaping exception) and ports after the call. `payload[0]` of an empty payload
    is the terminator; a character beyond ASCII is no key. -/
def onMqttActuatorsMessageArrived (parse : String → Except JsonException Json)
    (topicName payload : String) (ports : Ports) : Except CppException Int × Ports :=
  if topicName = "menu_keyboard" then
    (.ok 1, run ports (executeLocalControl ((payload.toList.head?.map code).getD 0)))
  else if topicName = "actuator" then
    match tryBlock parse payload with
    | .ok routine => (.ok 1, run ports routine)
    | .error (.json _) => (.ok 1, ports)
    | .error e => (.error e, ports)
  else (.ok 1, ports)

/-! ## The handler step by step -/

section Handler

variable {parse : String → Except JsonException Json} {payload name value : String} {j : Json}
  {c : PortRoutine}

theorem actuatorMessage_of_fields (hname : j.field "name" = .ok name)
    (hvalue : j.field "value" = .ok value) : actuatorMessage j = actuate name value := by
  unfold actuatorMessage
  rw [hname, hvalue]

theorem tryBlock_of_fields (hp : parse payload = .ok j) (hname : j.field "name" = .ok name)
    (hvalue : j.field "value" = .ok value) : tryBlock parse payload = actuate name value := by
  unfold tryBlock
  rw [hp]
  exact actuatorMessage_of_fields hname hvalue

/-- What has been read of a message that runs a routine. -/
theorem actuatorMessage_eq_ok (h : actuatorMessage j = .ok c) :
    ∃ name value, j.field "name" = .ok name ∧ j.field "value" = .ok value ∧
      actuate name value = .ok c := by
  unfold actuatorMessage at h
  split at h
  · cases h
  · cases h
  · exact ⟨_, _, ‹_›, ‹_›, h⟩

theorem tryBlock_eq_ok (h : tryBlock parse payload = .ok c) :
    ∃ j, parse payload = .ok j ∧ actuatorMessage j = .ok c := by
  unfold tryBlock at h
  split at h
  · cases h
  · exact ⟨_, ‹_›, h⟩

theorem ports_of_tryBlock_ok (h : tryBlock parse payload = .ok c) (ports : Ports) :
    (onMqttActuatorsMessageArrived parse "actuator" payload ports).2 = run ports c := by
  have htopic : ¬ "actuator" = "menu_keyboard" := by decide
  rw [onMqttActuatorsMessageArrived, if_neg htopic, if_pos rfl, h]

/-- An exception leaves the `try` block before any port is touched. -/
theorem ports_of_tryBlock_error {e : CppException} (h : tryBlock parse payload = .error e)
    (ports : Ports) :
    (onMqttActuatorsMessageArrived parse "actuator" payload ports).2 = ports := by
  have htopic : ¬ "actuator" = "menu_keyboard" := by decide
  rw [onMqttActuatorsMessageArrived, if_neg htopic, if_pos rfl, h]
  cases e <;> rfl

end Handler

/-! ## Errors of the `try` block -/

def motorNames : List String := ["motor_x", "motor_y", "motor_z", "motor_ls", "motor_rs"]

theorem actuate_eq_stoi_error {name value : String} {e : CppException}
    (hn : name ∈ motorNames) (hv : stoi value = .error e) : actuate name value = .error e := by
  have hb : ∀ ifs, motorBranch value ifs = .error e := fun ifs => by
    rw [motorBranch, hv]; rfl
  simp only [motorNames, List.mem_cons, List.not_mem_nil, or_false] at hn
  rcases hn with rfl | rfl | rfl | rfl | rfl <;> simp [actuate, hb]

theorem actuate_ok_of_stoi {name value : String} {v : Int} (hv : stoi value = .ok v) :
    ∃ c, actuate name value = .ok c := by
  have hb : ∀ ifs, ∃ c, motorBranch value ifs = .ok c := fun ifs => by
    rw [motorBranch, hv]; exact ⟨_, rfl⟩
  unfold actuate
  repeat' split
  all_goals first | exact hb _ | exact ⟨[], rfl⟩

theorem actuate_of_not_mem {name : String} (value : String) (hn : name ∉ motorNames) :
    actuate name value = .ok [] := by
  simp only [motorNames, List.mem_cons, List.not_mem_nil, or_false, not_or] at hn
  simp [actuate, hn]

/-- `std::stoi` only raises its own two exceptions. -/
theorem stoi_error {value : String} {e : CppException} (h : stoi value = .error e) :
    e = .invalid_argument ∨ e = .out_of_range := by
  have hint : ∀ v, intOf v = .error e → e = .out_of_range := fun v hv => by
    unfold intOf at hv
    split at hv
    · cases hv
    · exact (Except.error.inj hv).symm
  unfold stoi at h
  dsimp only at h
  split at h
  · exact .inl (Except.error.inj h).symm
  · exact .inr (hint _ h)

/-- The payload carries a value that `stoi` rejects for one of the five motors. -/
def Unconvertible (parse : String → Except JsonException Json) (payload : String) : Prop :=
  ∃ j name value e, parse payload = .ok j ∧ j.field "name" = .ok name ∧
    j.field "value" = .ok value ∧ name ∈ motorNames ∧ stoi value = .error e

theorem tryBlock_of_unconvertible {parse : String → Except JsonException Json}
    {payload : String} (h : Unconvertible parse payload) :
    ∃ e, (e = .invalid_argument ∨ e = .out_of_range) ∧ tryBlock parse payload = .error e := by
  obtain ⟨j, name, value, e, hp, hname, hvalue, hn, hv⟩ := h
  refine ⟨e, stoi_error hv, ?_⟩
  rw [tryBlock_of_fields hp hname hvalue, actuate_eq_stoi_error hn hv]

/-- Any other payload runs a routine or raises a `json::exception`. -/
theorem tryBlock_of_convertible {parse : String → Except JsonException Json}
    {payload : String} (h : ¬ Unconvertible parse payload) :
    (∃ c, tryBlock parse payload = .ok c) ∨ ∃ e, tryBlock parse payload = .error (.json e) := by
  rcases hp : parse payload with e | j
  · exact .inr ⟨e, by simp [tryBlock, hp]⟩
  rcases hname : j.field "name" with e | name
  · exact .inr ⟨e, by simp [tryBlock, actuatorMessage, hp, hname]⟩
  rcases hvalue : j.field "value" with e | value
  · exact .inr ⟨e, by simp [tryBlock, actuatorMessage, hp, hname, hvalue]⟩
  left
  rw [tryBlock_of_fields hp hname hvalue]
  by_cases hn : name ∈ motorNames
  · rcases hv : stoi value with e | v
    · exact absurd ⟨j, name, value, e, hp, hname, hvalue, hn, hv⟩ h
    · exact actuate_ok_of_stoi hv
  · exact ⟨[], actuate_of_not_mem value hn⟩

/-- An exception leaves the handler before any port is touched. -/
theorem ports_of_escaping_exception {parse : String → Except JsonException Json}
    {payload : String} {ports : Ports} {e : CppException}
    (h : (onMqttActuatorsMessageArrived parse "actuator" payload ports).1 = .error e) :
    (onMqttActuatorsMessageArrived parse "actuator" payload ports).2 = ports := by
  have htopic : ¬ "actuator" = "menu_keyboard" := by decide
  rcases htry : tryBlock parse payload with e' | c
  · exact ports_of_tryBlock_error htry ports
  · simp [onMqttActuatorsMessageArrived, htopic, htry] at h

/-- On topic `actuator` the handler returns 1, lets no exception out and leaves the ports alone
    on an unconvertible value, exactly for the payloads that carry no unconvertible value for
    a motor. -/
theorem actuator_errors_contained_iff (parse : String → Except JsonException Json)
    (payload : String) (ports : Ports) :
    ((onMqttActuatorsMessageArrived parse "actuator" payload ports).1 = .ok 1 ∧
      (Unconvertible parse payload →
        (onMqttActuatorsMessageArrived parse "actuator" payload ports).2 = ports)) ↔
      ¬ Unconvertible parse payload := by
  have htopic : ¬ "actuator" = "menu_keyboard" := by decide
  constructor
  · rintro ⟨hret, -⟩ hun
    obtain ⟨e, he, htry⟩ := tryBlock_of_unconvertible hun
    rcases he with rfl | rfl <;>
      simp [onMqttActuatorsMessageArrived, htopic, htry] at hret
  · intro hun
    refine ⟨?_, fun h => absurd h hun⟩
    rcases tryBlock_of_convertible hun with ⟨c, htry⟩ | ⟨e, htry⟩ <;>
      simp [onMqttActuatorsMessageArrived, htopic, htry]

/-- The value `abc` for `motor_x`: `invalid_argument` leaves the handler. -/
theorem actuator_invalid_argument_escapes :
    let payload := "\x7b\"name\": \"motor_x\", \"value\": \"abc\"\x7d"
    let parse := fun text : String =>
      if text = payload then
        .ok (Json.object [("name", .string "motor_x"), ("value", .string "abc")])
      else .error .parse_error
    (onMqttActuatorsMessageArrived parse "actuator" payload fun _ => 0).1 =
      .error .invalid_argument := by
  rfl

end SmartWarehouse.Server
