/-
  `warehouse_dispatcher.pl`: the queue of commands and its publications.

  The dispatcher keeps the asserted commands in order and publishes the oldest one after every
  change; a publish-success callback retracts the first command that equals the acknowledged
  message. The client is created and connected, so `create_dispatcher_client` does nothing and
  every `mqtt_publish` succeeds. If the callbacks only ever retract the oldest command, the
  published commands are the asserted ones in order, each once or more often, and the last
  value of every name arrives (`last_value_published`).
-/
import SmartWarehouse.Server.Telemetry
import Std.Data.String.ToInt

namespace SmartWarehouse.Kbase

open SmartWarehouse.Server

/-! ## Messages -/

/-- The pair `(Name, Value)` of a command. -/
structure Command where
  name : String
  value : Int
deriving DecidableEq, Repr

/-- The JSON term that `send_pending_commands` publishes. -/
def payload (c : Command) : Json :=
  .object [("name", .string c.name), ("value", .string (toString c.value))]

/-- The command of an acknowledged message. `number_string` is `toInt?` on the texts of
    integers, the only ones published. -/
def commandOf (jsonMessageSent : Json) : Option Command := do
  let name ← (jsonMessageSent.field "name").toOption
  let stringValue ← (jsonMessageSent.field "value").toOption
  let numberValue ← stringValue.toInt?
  return ⟨name, numberValue⟩

theorem commandOf_payload (c : Command) : commandOf (payload c) = some c := by
  have hname : (payload c).field "name" = .ok c.name := rfl
  have hvalue : (payload c).field "value" = .ok (toString c.value) := rfl
  rw [commandOf, hname, hvalue]
  simp [Except.toOption]

/-- What the dispatcher sends is what the server parses. -/
theorem payload_eq_actuatorJson (m : Motor) (d : Direction) :
    payload ⟨m.name, d.value⟩ = actuatorJson m d := rfl

/-! ## Dispatcher -/

/-- `command((Name, Value), TS)`. -/
structure CommandFact where
  command : Command
  timeStamp : Rat

/-- The `command/2` facts in order, everything published, and what is not acknowledged yet. -/
structure Dispatcher where
  commands : List CommandFact
  published : List Json
  unacknowledged : List Json

def Dispatcher.start : Dispatcher := ⟨[], [], []⟩

def Dispatcher.sendPendingCommands (d : Dispatcher) : Dispatcher :=
  match d.commands with
  | [] => d
  | c :: _ =>
    { d with
      published := d.published ++ [payload c.command]
      unacknowledged := d.unacknowledged ++ [payload c.command] }

/-- Both `assert_command/1`, with the time of the call, and `assert_command/2`. -/
def Dispatcher.assertCommand (d : Dispatcher) (command : Command) (timeStamp : Rat) :
    Dispatcher :=
  Dispatcher.sendPendingCommands { d with commands := d.commands ++ [⟨command, timeStamp⟩] }

def Dispatcher.clientDispatcherOnConnectSuccess (d : Dispatcher) : Dispatcher :=
  d.sendPendingCommands

/-- If no command equals the message, `retract` fails and nothing is sent. -/
def Dispatcher.clientDispatcherOnPublishSuccess (d : Dispatcher) (jsonMessageSent : Json) :
    Dispatcher :=
  match commandOf jsonMessageSent with
  | none => d
  | some c =>
    if c ∈ d.commands.map CommandFact.command then
      Dispatcher.sendPendingCommands
        { d with commands := d.commands.eraseP fun fact => fact.command = c }
    else d

/-! ## Runs -/

/-- A call of the rules, or a callback of the MQTT library. A publish success acknowledges the
    unacknowledged message at an index; index 0 throughout is publication order. -/
inductive Event where
  | assertCommand (command : Command) (timeStamp : Rat)
  | connectSuccess
  | publishSuccess (index : Nat)

def Dispatcher.step (d : Dispatcher) : Event → Option Dispatcher
  | .assertCommand command timeStamp => some (d.assertCommand command timeStamp)
  | .connectSuccess => some d.clientDispatcherOnConnectSuccess
  | .publishSuccess index =>
    d.unacknowledged[index]?.map fun sent =>
      Dispatcher.clientDispatcherOnPublishSuccess
        { d with unacknowledged := d.unacknowledged.eraseIdx index } sent

def Dispatcher.run (d : Dispatcher) : List Event → Option Dispatcher
  | [] => some d
  | e :: es => (d.step e).bind fun d' => d'.run es

/-- The commands asserted in a run, in order. -/
def asserted (events : List Event) : List Command :=
  events.filterMap fun e =>
    match e with
    | .assertCommand command _ => some command
    | _ => none

/-- The last command for a name. -/
def lastOf (name : String) (cs : List Command) : Option Command :=
  cs.reverse.find? fun c => c.name = name

/-- The callback finds the acknowledged command at the head of the queue, or nowhere. -/
def Dispatcher.RetractsOldest (d : Dispatcher) : Event → Prop
  | .publishSuccess index => ∀ sent c, d.unacknowledged[index]? = some sent →
    commandOf sent = some c → c ∈ d.commands.map CommandFact.command →
      (d.commands.map CommandFact.command).head? = some c
  | _ => True

/-- Every callback of the run retracts the oldest command or none. -/
def Orderly (d : Dispatcher) : List Event → Prop
  | [] => True
  | e :: es => d.RetractsOldest e ∧ ∀ d', d.step e = some d' → Orderly d' es

/-! ## Last values -/

theorem lastOf_append (name : String) (l l' : List Command) :
    lastOf name (l ++ l') = (lastOf name l').or (lastOf name l) := by
  rw [lastOf, List.reverse_append, List.find?_append]
  rfl

/-- The two lists agree on the last command of every name. -/
def SameLast (l l' : List Command) : Prop := ∀ name, lastOf name l = lastOf name l'

theorem SameLast.append {l l' : List Command} (h : SameLast l l') (cs : List Command) :
    SameLast (l ++ cs) (l' ++ cs) := by
  intro name
  rw [lastOf_append, lastOf_append, h name]

theorem SameLast.trans {l l' l'' : List Command} (h : SameLast l l') (h' : SameLast l' l'') :
    SameLast l l'' :=
  fun name => (h name).trans (h' name)

/-- Publishing a list a second time changes no last value. -/
theorem sameLast_append_twice (l cs : List Command) : SameLast (l ++ cs ++ cs) (l ++ cs) := by
  intro name
  rw [lastOf_append, lastOf_append]
  cases lastOf name cs <;> rfl

/-! ## One step -/

def Dispatcher.queue (d : Dispatcher) : List Command := d.commands.map CommandFact.command

def Dispatcher.publishedCommands (d : Dispatcher) : List Command :=
  d.published.filterMap commandOf

theorem queue_send (d : Dispatcher) : d.sendPendingCommands.queue = d.queue := by
  unfold Dispatcher.sendPendingCommands
  split <;> rfl

/-- A send publishes the head of the queue. -/
theorem publishedCommands_send (d : Dispatcher) :
    d.sendPendingCommands.publishedCommands = d.publishedCommands ++ d.queue.take 1 := by
  rcases d with ⟨_ | ⟨c, cs⟩, published, unacknowledged⟩
  · simp [Dispatcher.sendPendingCommands, Dispatcher.queue]
  · simp [Dispatcher.sendPendingCommands, Dispatcher.queue, Dispatcher.publishedCommands,
      commandOf_payload]

/-- After a send from a queue whose head, if any, was published, the head is published. -/
theorem sameLast_send {d : Dispatcher} {done : List Command}
    (h : SameLast d.publishedCommands done ∨
      SameLast d.publishedCommands (done ++ d.queue.take 1)) :
    SameLast d.sendPendingCommands.publishedCommands
      (done ++ d.sendPendingCommands.queue.take 1) := by
  rw [publishedCommands_send, queue_send]
  rcases h with h | h
  · exact h.append _
  · exact (h.append _).trans (sameLast_append_twice _ _)

/-- The callback retracts the first command that equals the message and sends, or there is
    none and nothing happens. -/
theorem onPublishSuccess_cases (d : Dispatcher) (sent : Json) :
    (∃ c, commandOf sent = some c ∧ c ∈ d.queue ∧
      d.clientDispatcherOnPublishSuccess sent =
        Dispatcher.sendPendingCommands
          { d with commands := d.commands.eraseP fun fact => fact.command = c }) ∨
    ((∀ c, commandOf sent = some c → c ∉ d.queue) ∧
      d.clientDispatcherOnPublishSuccess sent = d) := by
  unfold Dispatcher.clientDispatcherOnPublishSuccess
  cases hc : commandOf sent with
  | none =>
    refine .inr ⟨?_, rfl⟩
    intro c h
    cases h
  | some c =>
    dsimp only
    by_cases hmem : c ∈ d.commands.map CommandFact.command
    · rw [if_pos hmem]
      exact .inl ⟨c, rfl, hmem, rfl⟩
    · rw [if_neg hmem]
      refine .inr ⟨fun c' h => ?_, rfl⟩
      obtain rfl := Option.some.inj h
      exact hmem

theorem step_cases {d d' : Dispatcher} {e : Event} (h : d.step e = some d') :
    (∃ c t, e = .assertCommand c t ∧
      d' = Dispatcher.sendPendingCommands { d with commands := d.commands ++ [⟨c, t⟩] }) ∨
    (e = .connectSuccess ∧ d' = d.sendPendingCommands) ∨
    ∃ i sent, e = .publishSuccess i ∧ d.unacknowledged[i]? = some sent ∧
      d' = Dispatcher.clientDispatcherOnPublishSuccess
        { d with unacknowledged := d.unacknowledged.eraseIdx i } sent := by
  cases e with
  | assertCommand c t => exact .inl ⟨c, t, rfl, (Option.some.inj h).symm⟩
  | connectSuccess => exact .inr (.inl ⟨rfl, (Option.some.inj h).symm⟩)
  | publishSuccess i =>
    obtain ⟨sent, hsent, hd⟩ := Option.map_eq_some_iff.mp h
    exact .inr (.inr ⟨i, sent, rfl, hsent, hd.symm⟩)

/-- One orderly step moves at most the head of the queue to the commands done, and publishes
    the new head. -/
theorem step_sameLast {d d' : Dispatcher} {e : Event} {done : List Command}
    (hd : SameLast d.publishedCommands (done ++ d.queue.take 1))
    (hstep : d.step e = some d') (hok : d.RetractsOldest e) :
    ∃ done', done' ++ d'.queue = done ++ d.queue ++ asserted [e] ∧
      SameLast d'.publishedCommands (done' ++ d'.queue.take 1) := by
  obtain ⟨c, t, rfl, rfl⟩ | ⟨rfl, rfl⟩ | ⟨i, sent, rfl, hsent, rfl⟩ := step_cases hstep
  · refine ⟨done, ?_, sameLast_send ?_⟩
    · rw [queue_send]
      simp [Dispatcher.queue, asserted]
    · show SameLast d.publishedCommands done ∨ _
      rcases d with ⟨_ | ⟨c, cs⟩, published, unacknowledged⟩
      · exact .inl (by simpa [Dispatcher.queue] using hd)
      · exact .inr (by simpa [Dispatcher.queue, Dispatcher.publishedCommands] using hd)
  · exact ⟨done, by simp [queue_send, asserted], sameLast_send (.inr hd)⟩
  · obtain ⟨c, hc, hmem, hnext⟩ | ⟨-, hnext⟩ := onPublishSuccess_cases
      { d with unacknowledged := d.unacknowledged.eraseIdx i } sent
    · -- the command retracted is the head of the queue, and now done
      have hhead := hok sent c hsent hc hmem
      rw [hnext]
      rcases d with ⟨_ | ⟨fact, facts⟩, published, unacknowledged⟩
      · cases hmem
      obtain rfl : fact.command = c := by simpa using hhead
      refine ⟨done ++ [fact.command], ?_, sameLast_send (.inl ?_)⟩
      · rw [queue_send]
        simp [Dispatcher.queue, asserted]
      · simpa [Dispatcher.queue, Dispatcher.publishedCommands] using hd
    · rw [hnext]
      exact ⟨done, (List.append_nil _).symm, hd⟩

/-! ## Whole runs -/

theorem asserted_cons (e : Event) (es : List Event) :
    asserted (e :: es) = asserted [e] ++ asserted es := by
  rw [asserted, ← List.singleton_append, List.filterMap_append]
  rfl

/-- In an orderly run the commands done and the queue are the commands asserted, and what is
    published agrees with the commands done and the head of the queue. -/
theorem run_sameLast {d d' : Dispatcher} {events : List Event} {done : List Command}
    (hd : SameLast d.publishedCommands (done ++ d.queue.take 1))
    (hrun : d.run events = some d') (hok : Orderly d events) :
    ∃ done', done' ++ d'.queue = done ++ d.queue ++ asserted events ∧
      SameLast d'.publishedCommands (done' ++ d'.queue.take 1) := by
  induction events generalizing d done with
  | nil =>
    obtain rfl := Option.some.inj hrun
    exact ⟨done, by simp [asserted], hd⟩
  | cons e es ih =>
    obtain ⟨d₁, hstep, hrest⟩ := Option.bind_eq_some_iff.mp hrun
    obtain ⟨done₁, hqueue, hlast⟩ := step_sameLast hd hstep hok.1
    obtain ⟨done', hqueue', hlast'⟩ := ih hlast hrest (hok.2 d₁ hstep)
    refine ⟨done', ?_, hlast'⟩
    rw [hqueue', hqueue, asserted_cons e es, List.append_assoc (done ++ d.queue)]

/-- In a run whose callbacks retract the oldest command or none, once nothing is pending, the
    last published value of every name is the last one asserted. -/
theorem last_value_published {events : List Event} {d : Dispatcher}
    (hrun : Dispatcher.start.run events = some d) (hok : Orderly Dispatcher.start events)
    (hpending : d.commands = []) (name : String) :
    lastOf name d.publishedCommands = lastOf name (asserted events) := by
  have hstart : SameLast Dispatcher.start.publishedCommands
      ([] ++ Dispatcher.start.queue.take 1) := fun _ => rfl
  obtain ⟨done, hqueue, hlast⟩ := run_sameLast hstart hrun hok
  have hempty : d.queue = [] := by rw [Dispatcher.queue, hpending]; rfl
  rw [hempty, List.append_nil] at hqueue
  rw [hlast name, hempty, hqueue]
  simp [Dispatcher.start, Dispatcher.queue]

/-- A move and a stop, acknowledged in turn. -/
def moveStop : List Event :=
  [.assertCommand ⟨"motor_x", 1⟩ 0, .publishSuccess 0, .assertCommand ⟨"motor_x", 0⟩ 1,
    .publishSuccess 0]

theorem run_moveStop : Dispatcher.start.run moveStop =
    some ⟨[], [payload ⟨"motor_x", 1⟩, payload ⟨"motor_x", 0⟩], []⟩ := by
  simp [moveStop, Dispatcher.run, Dispatcher.step, Dispatcher.start, Dispatcher.assertCommand,
    Dispatcher.sendPendingCommands, Dispatcher.clientDispatcherOnPublishSuccess, commandOf_payload]

theorem last_value_published_moveStop :
    ∃ d, Dispatcher.start.run moveStop = some d ∧
      lastOf "motor_x" d.publishedCommands = some ⟨"motor_x", 0⟩ := by
  refine ⟨_, run_moveStop, last_value_published run_moveStop ?_ rfl "motor_x"⟩
  simp [moveStop, Orderly, Dispatcher.RetractsOldest, Dispatcher.step, Dispatcher.start,
    Dispatcher.assertCommand, Dispatcher.sendPendingCommands,
    Dispatcher.clientDispatcherOnPublishSuccess, commandOf_payload]

/-- Stop, move and stop, asserted before the first of five callbacks in publication order. -/
def stopMoveStop : List Event :=
  [.assertCommand ⟨"motor_x", 0⟩ 0, .assertCommand ⟨"motor_x", 1⟩ 1,
    .assertCommand ⟨"motor_x", 0⟩ 2] ++ List.replicate 5 (.publishSuccess 0)

/-- The callback of the second copy of the first stop retracts the last stop, which is never
    published. -/
theorem later_stop_lost :
    ∃ d, Dispatcher.start.run stopMoveStop = some d ∧ d.commands = [] ∧ d.unacknowledged = [] ∧
      lastOf "motor_x" (asserted stopMoveStop) = some ⟨"motor_x", 0⟩ ∧
      lastOf "motor_x" d.publishedCommands = some ⟨"motor_x", 1⟩ := by
  let stop := payload ⟨"motor_x", 0⟩
  let move := payload ⟨"motor_x", 1⟩
  refine ⟨⟨[], [stop, stop, stop, move, move], []⟩, ?_, rfl, rfl, rfl, ?_⟩
  · simp [stop, move, stopMoveStop, Dispatcher.run, Dispatcher.step, Dispatcher.start,
      Dispatcher.assertCommand, Dispatcher.sendPendingCommands,
      Dispatcher.clientDispatcherOnPublishSuccess, commandOf_payload, List.replicate]
  · simp [stop, move, Dispatcher.publishedCommands, commandOf_payload, lastOf]

end SmartWarehouse.Kbase
