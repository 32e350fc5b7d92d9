/-
  What `onMqttActuatorsMessageArrived` reads of a delivered message.

  A message has `payloadlen` bytes of payload and no terminator. The handler takes the pointer
  as a C string: it reads on into the memory behind the payload up to the first NUL. Whether
  only the payload matters to the ports is settled for every topic and payload
  (`only_payload_matters_iff`): on `menu_keyboard` the empty payload is the exception, on
  `actuator` the payloads that can be continued to a command.
-/
import SmartWarehouse.Server.Telemetry
import SmartWarehouse.Lib.CString

namespace SmartWarehouse.Server

open SmartWarehouse.Lib

/-! ## Messages in memory -/

/-- The bytes of a `MQTTAsync_message` and the memory that follows them, in which a NUL comes
    sooner or later. -/
structure MqttMessage where
  payload : List Char
  following : List Char
  terminated : nul ∈ following

/-- The text that a C string function finds at the payload pointer. -/
def MqttMessage.text (m : MqttMessage) : List Char := cstr (m.payload ++ m.following)

variable (parse : String → Except JsonException Json)

/-- The handler on a delivered message: it reads neither `messageLen` nor `payloadlen`. -/
def messageArrived (topicName : String) (m : MqttMessage) (ports : Ports) :
    Except CppException Int × Ports :=
  onMqttActuatorsMessageArrived parse topicName (String.ofList m.text) ports

/-- Messages of equal `payloadlen` whose payloads are the same bytes leave the ports in the same
    state, whatever follows in memory. -/
def OnlyPayloadMatters (topicName : String) (payload : List Char) : Prop :=
  ∀ m m' : MqttMessage, m.payload = payload → m'.payload = payload → ∀ ports,
    (messageArrived parse topicName m ports).2 = (messageArrived parse topicName m' ports).2

/-- The text is an actuator message for one of the five motors and of value -1, 0 or 1. -/
def IsCommand (text : String) : Prop :=
  ∃ j value, ∃ (m : Motor) (d : Direction), parse text = .ok j ∧ j.field "name" = .ok m.name ∧
    j.field "value" = .ok value ∧ stoi value = .ok d.value

/-- `json::parse` accepts no text with the control character U+0001. -/
def RejectsControl : Prop :=
  ∀ text : String, Char.ofNat 1 ∈ text.toList → ∃ e, parse text = .error e

/-! ## Texts -/

/-- `payload[0]`: the code of the first byte in memory. -/
theorem first_code (c : Char) (rest : List Char) :
    ((cstr (c :: rest)).head?.map code).getD 0 = code c := by
  unfold cstr
  rw [List.takeWhile_cons]
  by_cases hc : c = nul
  · subst hc
    rfl
  · rw [if_pos (by simpa using hc)]
    rfl

/-- A message with a text of its own behind the payload. -/
def MqttMessage.followedBy (payload text : List Char) : MqttMessage :=
  ⟨payload, text ++ [nul], by simp⟩

theorem text_followedBy {payload t : List Char} (hpayload : nul ∉ payload) (ht : nul ∉ t) :
    (MqttMessage.followedBy payload t).text = payload ++ t := by
  unfold MqttMessage.text MqttMessage.followedBy
  rw [cstr_append_of_not_mem hpayload, cstr_append_nul, cstr_of_not_mem ht]

/-! ## Commands in a text -/

variable {parse}

/-- A text that is no command runs nothing. -/
theorem ports_of_not_command {text : String} (h : ¬ IsCommand parse text) (ports : Ports) :
    (onMqttActuatorsMessageArrived parse "actuator" text ports).2 = ports := by
  cases htry : tryBlock parse text with
  | error e => exact ports_of_tryBlock_error htry ports
  | ok routine =>
    obtain ⟨j, hp, hmessage⟩ := tryBlock_eq_ok htry
    obtain ⟨name, value, hname, hvalue, hact⟩ := actuatorMessage_eq_ok hmessage
    have hnil : routine = [] := by
      obtain ⟨m, v, rfl, hv, rfl⟩ | hnil := actuate_eq_ok hact
      · refine Motor.onValue_of_ne fun d hd => h ⟨j, value, m, d, hp, hname, hvalue, ?_⟩
        rw [hv, hd]
      · exact hnil
    rw [ports_of_tryBlock_ok htry, hnil]
    rfl

/-- A command runs the routine of its motor. -/
theorem ports_of_command {text : String} (h : IsCommand parse text) :
    ∃ (m : Motor) (d : Direction), ∀ ports,
      (onMqttActuatorsMessageArrived parse "actuator" text ports).2 = run ports (m.routine d) := by
  obtain ⟨j, value, m, d, hp, hname, hvalue, hv⟩ := h
  have htry : tryBlock parse text = .ok (m.routine d) := by
    rw [tryBlock_of_fields hp hname hvalue, actuate_name, hv, ← Motor.onValue_value]
    rfl
  exact ⟨m, d, ports_of_tryBlock_ok htry⟩

/-- Every motor routine changes the ports in some state: it sets or clears an output. -/
theorem exists_run_routine_ne (m : Motor) (d : Direction) :
    ∃ ports, run ports (m.routine d) ≠ ports := by
  have hline : m.plus.2 < 8 := by cases m <;> decide
  refine ⟨fun _ => if d = .positive then 0 else 0xFF, fun h => ?_⟩
  have hbit := bit_run_routine (fun _ => if d = .positive then 0 else 0xFF) m d m.plus hline
  rw [h, if_pos rfl] at hbit
  revert hbit
  cases m <;> cases d <;> decide

/-! ## What the handler depends on -/

variable (parse)

theorem messageArrived_other {topicName : String} (hkey : topicName ≠ "menu_keyboard")
    (hactuator : topicName ≠ "actuator") (m : MqttMessage) (ports : Ports) :
    messageArrived parse topicName m ports = (.ok 1, ports) := by
  unfold messageArrived onMqttActuatorsMessageArrived
  rw [if_neg hkey, if_neg hactuator]

/-- On `menu_keyboard` the first byte in memory is executed. -/
theorem ports_menu_keyboard {m : MqttMessage} {c : Char} {rest : List Char}
    (h : m.payload ++ m.following = c :: rest) (ports : Ports) :
    (messageArrived parse "menu_keyboard" m ports).2 =
      run ports (executeLocalControl (code c)) := by
  unfold messageArrived onMqttActuatorsMessageArrived MqttMessage.text
  rw [if_pos rfl, h, String.toList_ofList, first_code]

/-- An empty payload leaves the key to the memory behind it. -/
theorem not_onlyPayloadMatters_empty_key : ¬ OnlyPayloadMatters parse "menu_keyboard" [] := by
  intro h
  have hports := h (.followedBy [] ['q']) (.followedBy [] []) rfl rfl fun _ => 0
  rw [ports_menu_keyboard parse (c := 'q') (by rfl),
    ports_menu_keyboard parse (c := nul) (by rfl)] at hports
  exact absurd (congrFun hports 4) (by decide)

/-- A payload that a command starts with runs the command or nothing. -/
theorem not_onlyPayloadMatters_of_command (hparse : RejectsControl parse) {payload t : List Char}
    (hpayload : nul ∉ payload) (ht : nul ∉ t)
    (hcommand : IsCommand parse (String.ofList (payload ++ t))) :
    ¬ OnlyPayloadMatters parse "actuator" payload := by
  intro h
  obtain ⟨m, d, hrun⟩ := ports_of_command hcommand
  obtain ⟨ports, hne⟩ := exists_run_routine_ne m d
  -- with U+0001 behind it the same payload is no JSON text
  have hrejected : ¬ IsCommand parse (String.ofList (payload ++ [Char.ofNat 1])) := by
    rintro ⟨j, -, -, -, hp, -⟩
    obtain ⟨e, he⟩ := hparse (String.ofList (payload ++ [Char.ofNat 1])) (by simp)
    rw [hp] at he
    cases he
  have hports := h (.followedBy payload t) (.followedBy payload [Char.ofNat 1]) rfl rfl ports
  unfold messageArrived at hports
  rw [text_followedBy hpayload ht, text_followedBy hpayload (by decide), hrun,
    ports_of_not_command hrejected] at hports
  exact hne hports

/-- A key is read within the payload. -/
theorem onlyPayloadMatters_key (c : Char) (cs : List Char) :
    OnlyPayloadMatters parse "menu_keyboard" (c :: cs) := by
  intro m m' hm hm' ports
  rw [ports_menu_keyboard parse (by rw [hm, List.cons_append]),
    ports_menu_keyboard parse (by rw [hm', List.cons_append])]

/-- Reading stops within the payload, or whatever is read behind it, nothing is run. -/
theorem onlyPayloadMatters_actuator {payload : List Char} (h : nul ∈ payload ∨
    ∀ t, nul ∉ t → ¬ IsCommand parse (String.ofList (payload ++ t))) :
    OnlyPayloadMatters parse "actuator" payload := by
  intro m m' hm hm' ports
  unfold messageArrived MqttMessage.text
  rw [hm, hm']
  by_cases hnul : nul ∈ payload
  · rw [cstr_append_of_mem hnul, cstr_append_of_mem hnul]
  · have hnone := h.resolve_left hnul
    rw [cstr_append_of_not_mem hnul, cstr_append_of_not_mem hnul,
      ports_of_not_command (hnone _ (nul_not_mem_cstr _)),
      ports_of_not_command (hnone _ (nul_not_mem_cstr _))]

/-- Only the payload matters to the ports exactly if it is not empty on `menu_keyboard`, and on
    `actuator` has a NUL among its bytes or cannot be continued to a command, nor is one. -/
theorem only_payload_matters_iff (hparse : RejectsControl parse) (topicName : String)
    (payload : List Char) :
    OnlyPayloadMatters parse topicName payload ↔
      (topicName = "menu_keyboard" → payload ≠ []) ∧
        (topicName = "actuator" → nul ∈ payload ∨
          ∀ t, nul ∉ t → ¬ IsCommand parse (String.ofList (payload ++ t))) := by
  constructor
  · intro h
    refine ⟨?_, ?_⟩
    · rintro rfl rfl
      exact not_onlyPayloadMatters_empty_key parse h
    · rintro rfl
      by_contra hnot
      push Not at hnot
      obtain ⟨hpayload, t, ht, hcommand⟩ := hnot
      exact not_onlyPayloadMatters_of_command parse hparse hpayload ht hcommand h
  · intro ⟨hkey, hactuator⟩
    by_cases htopic : topicName = "menu_keyboard"
    · obtain ⟨c, cs, rfl⟩ := List.exists_cons_of_ne_nil (hkey htopic)
      rw [htopic]
      exact onlyPayloadMatters_key parse c cs
    · by_cases htopic' : topicName = "actuator"
      · rw [htopic']
        exact onlyPayloadMatters_actuator parse (hactuator htopic')
      · intro m m' _ _ ports
        rw [messageArrived_other parse htopic htopic', messageArrived_other parse htopic htopic']

theorem rejectsControl_parseActuator : RejectsControl parseActuator := by
  intro text htext
  unfold parseActuator
  dsimp only
  split
  · rename_i m d hfind
    have hpayload : actuatorPayload m d = text := by simpa using List.find?_some hfind
    exfalso
    rw [← hpayload] at htext
    revert htext
    cases m <;> cases d <;> decide
  · exact ⟨_, rfl⟩

/-- A key of one byte: what follows does not matter. -/
theorem only_payload_matters_key : OnlyPayloadMatters parseActuator "menu_keyboard" ['q'] :=
  (only_payload_matters_iff parseActuator rejectsControl_parseActuator "menu_keyboard" ['q']).mpr
    ⟨fun _ => by decide, fun h => absurd h (by decide)⟩

/-- The message `1` for `motor_x`, with nothing or with a letter behind it in memory: the motor
    starts or does not. And a message without payload on `menu_keyboard`. -/
theorem memory_behind_payload_matters :
    ¬ OnlyPayloadMatters parseActuator "actuator" (actuatorPayload .x .positive).toList ∧
      ¬ OnlyPayloadMatters parseActuator "menu_keyboard" [] := by
  refine ⟨fun h => ?_, not_onlyPayloadMatters_empty_key _⟩
  have hports := h (.followedBy _ []) (.followedBy _ ['a']) rfl rfl fun _ => 0
  exact absurd (congrFun hports 4) (by decide)

end SmartWarehouse.Server
