/-
  Commands from the rules to the motors.

  The dispatcher publishes its commands as JSON texts on topic `actuator`, the broker passes them
  on in order and maybe more than once, and the server runs what it reads. `writeJson` is
  `atom_json_term/3`; `json::parse` reads what it writes. If the callbacks only retract the oldest
  command, then once nothing is pending and everything has arrived, every motor is driven as the
  last command asserted for it says (`commands_reach_motors`).
-/
import SmartWarehouse.Kbase.Dispatcher
import SmartWarehouse.Server.LastCommand
import SmartWarehouse.Server.ExactValues
import SmartWarehouse.Lib.Channel

namespace SmartWarehouse.Kbase

open SmartWarehouse.Lib SmartWarehouse.Server

/-! ## What a command says -/

/-- The direction that a command asks of a motor. -/
def Command.orderFor (m : Motor) (c : Command) : Option Direction :=
  if c.name = m.name then Direction.ofValue c.value else none

theorem Motor.ofName_name (m : Motor) : Motor.ofName m.name = some m := by
  cases m <;> decide

/-- `stoi` reads the values that are directions, and no other as one. -/
theorem ofValue_toString (v : Int) :
    (stoi (toString v)).toOption.bind Direction.ofValue = Direction.ofValue v := by
  by_cases hrange : -2147483648 ≤ v ∧ v ≤ 2147483647
  · rw [(stoi_eq_ok_iff (toString v) v).mpr ⟨leads_toString v, hrange⟩]
    rfl
  · have hnone : Direction.ofValue v = none := by
      unfold Direction.ofValue
      rw [if_neg (by omega), if_neg (by omega), if_neg (by omega)]
    rw [hnone]
    rcases hstoi : stoi (toString v) with e | w
    · rfl
    · obtain ⟨hlead, hw⟩ := (stoi_eq_ok_iff _ w).mp hstoi
      rw [hlead.unique (leads_toString v)] at hw
      exact absurd hw hrange

/-- The server reads a published command as it was asserted. -/
theorem orderFor_payload (m : Motor) (c : Command) :
    Server.Command.orderFor m (.message (payload c)) = c.orderFor m := by
  have hname : (payload c).field "name" = .ok c.name := rfl
  have hvalue : (payload c).field "value" = .ok (toString c.value) := rfl
  unfold Server.Command.orderFor Command.orderFor
  rw [Server.Command.target, messageTarget, hname, hvalue]
  dsimp only
  rw [ofValue_toString]
  by_cases hm : c.name = m.name
  · rw [if_pos hm, hm, Motor.ofName_name]
    cases Direction.ofValue c.value with
    | none => rfl
    | some d => exact if_pos rfl
  · rw [if_neg hm]
    cases hname' : Motor.ofName c.name with
    | none => rfl
    | some m' =>
      have hne : m' ≠ m := by
        rintro rfl
        exact hm (Motor.name_of_ofName hname').symm
      cases Direction.ofValue c.value with
      | none => rfl
      | some d => exact if_neg hne

/-! ## What the dispatcher publishes -/

/-- The messages are those of the commands done and of the oldest pending one, some of them
    repeated. -/
def Dispatcher.Publishes (d : Dispatcher) (done : List Command) : Prop :=
  ∃ cs, d.published = cs.map payload ∧ Stutters cs (done ++ d.queue.take 1)

theorem publishes_send {d : Dispatcher} {done : List Command} (h : d.Publishes done ∨
    ∃ cs, d.published = cs.map payload ∧ Stutters cs done) :
    d.sendPendingCommands.Publishes done := by
  rcases d with ⟨_ | ⟨c, cs⟩, published, unacknowledged⟩
  · rcases h with h | ⟨cs, hpublished, hcs⟩
    · exact h
    · exact ⟨cs, hpublished, by simpa [Dispatcher.sendPendingCommands, Dispatcher.queue] using hcs⟩
  · have hsend : ∀ {sent : List Command}, published = sent.map payload →
        Stutters (sent ++ [c.command]) (done ++ [c.command]) →
        (Dispatcher.sendPendingCommands ⟨c :: cs, published, unacknowledged⟩).Publishes done := by
      intro sent hsent hstutters
      refine ⟨sent ++ [c.command], ?_, hstutters⟩
      show published ++ [payload c.command] = _
      rw [hsent, List.map_append]
      rfl
    rcases h with ⟨sent, hsent, hstutters⟩ | ⟨sent, hsent, hstutters⟩
    · exact hsend hsent (.again _ hstutters)
    · exact hsend hsent (.next _ hstutters)

/-- One orderly step moves at most the head of the queue to the commands done. -/
theorem step_publishes {d d' : Dispatcher} {e : Event} {done : List Command}
    (hd : d.Publishes done) (hstep : d.step e = some d') (hok : d.RetractsOldest e) :
    ∃ done', done' ++ d'.queue = done ++ d.queue ++ asserted [e] ∧ d'.Publishes done' := by
  obtain ⟨c, t, rfl, rfl⟩ | ⟨rfl, rfl⟩ | ⟨i, sent, rfl, hsent, rfl⟩ := step_cases hstep
  · refine ⟨done, ?_, publishes_send ?_⟩
    · rw [queue_send]
      simp [Dispatcher.queue, asserted]
    · rcases d with ⟨_ | ⟨c, cs⟩, published, unacknowledged⟩
      · right
        simpa [Dispatcher.Publishes, Dispatcher.queue] using hd
      · exact .inl hd
  · exact ⟨done, by simp [queue_send, asserted], publishes_send (.inl hd)⟩
  · obtain ⟨c, hc, hmem, hnext⟩ | ⟨-, hnext⟩ := onPublishSuccess_cases
      { d with unacknowledged := d.unacknowledged.eraseIdx i } sent
    · -- the command retracted is the head of the queue, and now done
      have hhead := hok sent c hsent hc hmem
      rw [hnext]
      rcases d with ⟨_ | ⟨fact, facts⟩, published, unacknowledged⟩
      · cases hmem
      obtain rfl : fact.command = c := by simpa using hhead
      refine ⟨done ++ [fact.command], ?_, publishes_send (.inr ?_)⟩
      · rw [queue_send]
        simp [Dispatcher.queue, asserted]
      · exact hd
    · rw [hnext]
      exact ⟨done, (List.append_nil _).symm, hd⟩

/-- In an orderly run the commands done and the queue are the commands asserted. -/
theorem run_publishes {d d' : Dispatcher} {events : List Event} {done : List Command}
    (hd : d.Publishes done) (hrun : d.run events = some d') (hok : Orderly d events) :
    ∃ done', done' ++ d'.queue = done ++ d.queue ++ asserted events ∧ d'.Publishes done' := by
  induction events generalizing d done with
  | nil =>
    obtain rfl := Option.some.inj hrun
    exact ⟨done, by simp [asserted], hd⟩
  | cons e es ih =>
    obtain ⟨d₁, hstep, hrest⟩ := Option.bind_eq_some_iff.mp hrun
    obtain ⟨done₁, hqueue, hpublished⟩ := step_publishes hd hstep hok.1
    obtain ⟨done', hqueue', hpublished'⟩ := ih hpublished hrest (hok.2 d₁ hstep)
    refine ⟨done', ?_, hpublished'⟩
    rw [hqueue', hqueue, asserted_cons e es, List.append_assoc (done ++ d.queue)]

/-- A step publishes at the end. -/
theorem published_step {d d' : Dispatcher} {e : Event} (hstep : d.step e = some d') :
    d.published <+: d'.published := by
  have hsend : ∀ d : Dispatcher, d.published <+: d.sendPendingCommands.published := by
    intro d
    unfold Dispatcher.sendPendingCommands
    split
    · exact List.prefix_refl _
    · exact List.prefix_append _ _
  obtain ⟨c, t, -, rfl⟩ | ⟨-, rfl⟩ | ⟨i, sent, -, hsent, rfl⟩ := step_cases hstep
  · exact hsend { d with commands := d.commands ++ [⟨c, t⟩] }
  · exact hsend d
  · obtain ⟨c, -, -, hnext⟩ | ⟨-, hnext⟩ := onPublishSuccess_cases
      { d with unacknowledged := d.unacknowledged.eraseIdx i } sent
    · rw [hnext]
      exact hsend { d with
        unacknowledged := d.unacknowledged.eraseIdx i
        commands := d.commands.eraseP fun fact => fact.command = c }
    · rw [hnext]

/-! ## The plant -/

/-- The dispatcher, topic `actuator` and the ports of the server. -/
structure Plant where
  dispatcher : Dispatcher
  topic : Channel String
  ports : Ports

def Plant.start (s : Ports) : Plant := ⟨.start, .empty, s⟩

/-- An event of the dispatcher, the arrival of the next message, or messages that are passed on
    again. -/
inductive PlantEvent where
  | dispatch (e : Event)
  | arrive
  | setBack (index : Nat)

variable (writeJson : Json → String) (parse : String → Except JsonException Json)

def Plant.step (p : Plant) : PlantEvent → Option Plant
  | .dispatch e =>
    (p.dispatcher.step e).map fun d =>
      { p with
        dispatcher := d
        topic := p.topic.send ((d.published.drop p.dispatcher.published.length).map writeJson) }
  | .arrive =>
    p.topic.deliver.map fun r =>
      { p with
        topic := r.2
        ports := (onMqttActuatorsMessageArrived parse "actuator" r.1 p.ports).2 }
  | .setBack index => some { p with topic := p.topic.setBack index }

def Plant.run (p : Plant) : List PlantEvent → Option Plant
  | [] => some p
  | e :: es => (p.step writeJson parse e).bind fun p' => p'.run es

/-- The events of the dispatcher. -/
def dispatches (events : List PlantEvent) : List Event :=
  events.filterMap fun
    | .dispatch e => some e
    | _ => none

/-- The command that a text is read as. -/
def readCommand (text : String) : Option Server.Command := (parse text).toOption.map .message

/-- What the server makes of a text. -/
def readOrder (m : Motor) (text : String) : Option Direction :=
  (readCommand parse text).bind (Server.Command.orderFor m)

variable {writeJson parse}

theorem ports_of_arrival (text : String) (ports : Ports) :
    (onMqttActuatorsMessageArrived parse "actuator" text ports).2 =
      runCommands ports ((readCommand parse text).toList) := by
  unfold readCommand
  cases hparse : parse text with
  | error e =>
    have htry : tryBlock parse text = .error (.json e) := by rw [tryBlock, hparse]
    exact ports_of_tryBlock_error htry ports
  | ok j =>
    have htry : tryBlock parse text = actuatorMessage j := by rw [tryBlock, hparse]
    have hrun : runCommands ports [.message j] =
        Lib.run ports (Server.Command.routine (.message j)) := rfl
    show _ = runCommands ports [.message j]
    rw [hrun, Server.Command.routine]
    cases hmessage : actuatorMessage j with
    | error e =>
      rw [hmessage] at htry
      exact ports_of_tryBlock_error htry ports
    | ok c =>
      rw [hmessage] at htry
      exact ports_of_tryBlock_ok htry ports

/-- What holds of the plant after any events: the texts sent are those of the messages published,
    and the ports are as the texts that arrived left them. -/
structure Plant.Consistent (writeJson : Json → String)
    (parse : String → Except JsonException Json) (s : Ports) (p : Plant) : Prop where
  sent : p.topic.sent = p.dispatcher.published.map writeJson
  current : p.topic.Current
  ports : p.ports = runCommands s (p.topic.received.filterMap (readCommand parse))

theorem consistent_start (s : Ports) : (Plant.start s).Consistent writeJson parse s where
  sent := rfl
  current := Channel.current_empty
  ports := rfl

theorem Plant.Consistent.step {s : Ports} {p p' : Plant} (h : p.Consistent writeJson parse s)
    {e : PlantEvent} (hstep : p.step writeJson parse e = some p') :
    p'.Consistent writeJson parse s := by
  cases e with
  | dispatch e =>
    obtain ⟨d, hd, rfl⟩ := Option.map_eq_some_iff.mp hstep
    refine ⟨?_, h.current.send _, h.ports⟩
    obtain ⟨new, hnew⟩ := published_step hd
    show p.topic.sent ++ _ = _
    rw [h.sent, ← hnew, List.drop_left, List.map_append]
  | arrive =>
    obtain ⟨⟨text, topic⟩, hdeliver, rfl⟩ := Option.map_eq_some_iff.mp hstep
    have hcurrent := h.current.deliver hdeliver
    obtain ⟨a, -, heq⟩ := Option.map_eq_some_iff.mp hdeliver
    obtain ⟨rfl, rfl⟩ := Prod.mk.inj heq
    refine ⟨h.sent, hcurrent, ?_⟩
    show (onMqttActuatorsMessageArrived parse "actuator" a p.ports).2 =
      runCommands s ((p.topic.received ++ [a]).filterMap (readCommand parse))
    have hone : [a].filterMap (readCommand parse) = (readCommand parse a).toList := by
      cases hread : readCommand parse a <;> simp [hread]
    rw [ports_of_arrival, h.ports, List.filterMap_append, hone]
    unfold runCommands
    rw [List.foldl_append]
  | setBack index =>
    obtain rfl := Option.some.inj hstep
    exact ⟨h.sent, h.current.setBack index, h.ports⟩

/-- The dispatcher in a run of the plant makes a run of its own. -/
theorem run_dispatcher {events : List PlantEvent} {s : Ports} {p p' : Plant}
    (h : p.Consistent writeJson parse s) (hrun : p.run writeJson parse events = some p') :
    p'.Consistent writeJson parse s ∧
      p.dispatcher.run (dispatches events) = some p'.dispatcher := by
  induction events generalizing p with
  | nil =>
    obtain rfl := Option.some.inj hrun
    exact ⟨h, rfl⟩
  | cons e es ih =>
    obtain ⟨p₁, hstep, hrest⟩ := Option.bind_eq_some_iff.mp hrun
    obtain ⟨hconsistent, hdispatcher⟩ := ih (h.step hstep) hrest
    refine ⟨hconsistent, ?_⟩
    cases e with
    | dispatch e =>
      obtain ⟨d, hd, rfl⟩ := Option.map_eq_some_iff.mp hstep
      show (p.dispatcher.step e).bind _ = _
      rw [hd]
      exact hdispatcher
    | arrive =>
      obtain ⟨r, -, rfl⟩ := Option.map_eq_some_iff.mp hstep
      exact hdispatcher
    | setBack index =>
      obtain rfl := Option.some.inj hstep
      exact hdispatcher

theorem lastOrder_filterMap (m : Motor) (texts : List String) :
    lastOrder m (texts.filterMap (readCommand parse)) = latest (readOrder parse m) texts := by
  rw [lastOrder, List.filterMap_filterMap]
  rfl

/-- Once no command is pending and every message has arrived, a motor is as the last command
    asserted for it says. -/
theorem bits_arrived {writeJson : Json → String} {parse : String → Except JsonException Json}
    {s : Ports} {events : List PlantEvent} {p : Plant}
    (hrun : (Plant.start s).run writeJson parse events = some p)
    (hparse : ∀ c ∈ asserted (dispatches events), parse (writeJson (payload c)) = .ok (payload c))
    (hok : Orderly Dispatcher.start (dispatches events)) (hpending : p.dispatcher.commands = [])
    (harrived : p.topic.next = p.topic.sent.length) (m : Motor) :
    m.bits p.ports =
      ((latest (Command.orderFor m) (asserted (dispatches events))).map Direction.bits).getD
        (m.bits s) := by
  obtain ⟨hconsistent, hdispatcher⟩ := run_dispatcher (consistent_start s) hrun
  have hstart : Dispatcher.start.Publishes [] := ⟨[], rfl, .nil⟩
  obtain ⟨done, hqueue, cs, hpublished, hstutters⟩ := run_publishes hstart hdispatcher hok
  have hempty : p.dispatcher.queue = [] := by
    rw [Dispatcher.queue, hpending]
    rfl
  have hdone : done = asserted (dispatches events) := by
    rw [hempty, List.append_nil] at hqueue
    exact hqueue
  rw [hempty, List.take_nil, List.append_nil, hdone] at hstutters
  -- what the server makes of the texts is what the commands ask for
  have hread : ∀ c ∈ cs, readOrder parse m (writeJson (payload c)) = c.orderFor m := by
    intro c hc
    rw [readOrder, readCommand, hparse c (hstutters.mem hc)]
    exact orderFor_payload m c
  have hlatest : latest (readOrder parse m) p.topic.received =
      latest (Command.orderFor m) (asserted (dispatches events)) := by
    rw [hconsistent.current.latest_received harrived, hconsistent.sent, hpublished, List.map_map,
      latest_map, ← hstutters.latest_eq]
    exact latest_congr hread
  rw [hconsistent.ports, bits_runCommands, lastOrder_filterMap, hlatest]

/-- In an orderly run, once no command is pending and every message has arrived, the lines of each
    motor are as the last command asserted for it says, or as they were without one; every other
    line keeps its value. -/
theorem commands_reach_motors {writeJson : Json → String}
    {parse : String → Except JsonException Json} {s : Ports} {events : List PlantEvent} {p : Plant}
    (hrun : (Plant.start s).run writeJson parse events = some p)
    (hparse : ∀ c ∈ asserted (dispatches events), parse (writeJson (payload c)) = .ok (payload c))
    (hok : Orderly Dispatcher.start (dispatches events)) (hpending : p.dispatcher.commands = [])
    (harrived : p.topic.next = p.topic.sent.length) :
    (∀ m : Motor, m.bits p.ports =
      ((latest (Command.orderFor m) (asserted (dispatches events))).map Direction.bits).getD
        (m.bits s)) ∧
    ∀ l : Line, l.2 < 8 → Line.Unused l → bit p.ports l = bit s l := by
  refine ⟨bits_arrived hrun hparse hok hpending harrived, fun l hl hunused => ?_⟩
  have hconsistent := (run_dispatcher (consistent_start s) hrun).1
  rw [hconsistent.ports, bit_runCommands_of_unused s _ hl hunused]

/-- The text of a command. -/
def commandText (j : Json) : String :=
  match j.field "name", j.field "value" with
  | .ok name, .ok value => "\x7b\"name\":\"" ++ name ++ "\", \"value\":\"" ++ value ++ "\"\x7d"
  | _, _ => ""

/-- Reads the texts of these commands. -/
def parseCommands (cs : List Command) (text : String) : Except JsonException Json :=
  match cs.find? fun c => commandText (payload c) = text with
  | some c => .ok (payload c)
  | none => .error .parse_error

/-- A move that arrives and is acknowledged, and a stop; both arrive again. -/
def moveStopAgain : List PlantEvent :=
  [.dispatch (.assertCommand ⟨"motor_x", 1⟩ 0), .arrive, .dispatch (.publishSuccess 0),
    .dispatch (.assertCommand ⟨"motor_x", 0⟩ 1), .arrive, .setBack 0, .arrive, .arrive,
    .dispatch (.publishSuccess 0)]

theorem commands_reach_motors_moveStop : ∃ p, (Plant.start fun _ => 255).run commandText
    (parseCommands [⟨"motor_x", 1⟩, ⟨"motor_x", 0⟩]) moveStopAgain = some p ∧
    Motor.x.bits p.ports = (false, false) ∧ Motor.y.bits p.ports = (true, true) := by
  have hdispatches : dispatches moveStopAgain = moveStop := rfl
  have hasserted : asserted moveStop = [⟨"motor_x", 1⟩, ⟨"motor_x", 0⟩] := rfl
  let texts := [commandText (payload ⟨"motor_x", 1⟩), commandText (payload ⟨"motor_x", 0⟩)]
  let cs : List Command := [⟨"motor_x", 1⟩, ⟨"motor_x", 0⟩]
  have hrun : (Plant.start fun _ => 255).run commandText (parseCommands cs) moveStopAgain =
      some ⟨⟨[], cs.map payload, []⟩, ⟨texts, 2, texts ++ texts⟩,
        (texts ++ texts).foldl (fun ports text =>
          (onMqttActuatorsMessageArrived (parseCommands cs) "actuator" text ports).2)
          fun _ => 255⟩ := by
    simp [moveStopAgain, Plant.run, Plant.step, Plant.start, Dispatcher.step, Dispatcher.start,
      Dispatcher.assertCommand, Dispatcher.sendPendingCommands, Channel.empty, Channel.send,
      Channel.deliver, Channel.setBack, Dispatcher.clientDispatcherOnPublishSuccess,
      commandOf_payload, cs, texts]
  obtain ⟨hbits, -⟩ := commands_reach_motors hrun
    (by rw [hdispatches, hasserted]; intro c hc; rcases List.mem_pair.mp hc with rfl | rfl <;> rfl)
    (by
      rw [hdispatches]
      simp [moveStop, Orderly, Dispatcher.RetractsOldest, Dispatcher.step, Dispatcher.start,
        Dispatcher.assertCommand, Dispatcher.sendPendingCommands,
        Dispatcher.clientDispatcherOnPublishSuccess, commandOf_payload])
    rfl rfl
  refine ⟨_, hrun, ?_, ?_⟩
  · rw [hbits, hdispatches, hasserted]
    rfl
  · rw [hbits, hdispatches, hasserted]
    decide

end SmartWarehouse.Kbase
