/-
  From a command to the message that confirms it.

  The dispatcher sends a command, the server drives the motor, and its monitors publish the
  direction on topic `sensor`, while they run beside the handler of messages and may read one
  port before and another one after a message is handled. Whatever the earlier calls have seen:
  once all commands have arrived, the next call of a station's monitor leaves the direction of the
  last command as the last message under the name of the station (`loop_closes`). The three axes
  publish their directions under one name, so that this is not so of them.
-/
import SmartWarehouse.Kbase.CommandsArrive
import SmartWarehouse.Server.Telemetry

namespace SmartWarehouse.Kbase

open SmartWarehouse.Lib SmartWarehouse.Server

/-! ## The monitors one by one -/

/-- The six monitors of the loop. -/
inductive Monitor where
  | x
  | y
  | z
  | leftStation
  | rightStation
  | cage
deriving DecidableEq

/-- What a monitor reads of the ports. -/
def Monitor.readings : Monitor → Ports → List Reading
  | .x => xAxisReadings
  | .y => yAxisReadings
  | .z => zAxisReadings
  | .leftStation => leftStationReadings
  | .rightStation => rightStationReadings
  | .cage => cageReadings

/-- Its static variables at the start. -/
def Monitor.initial : Monitor → MonitorState
  | .x => initialMonitors.x
  | .y => initialMonitors.y
  | .z => initialMonitors.z
  | .leftStation => initialMonitors.leftStation
  | .rightStation => initialMonitors.rightStation
  | .cage => initialMonitors.cage

example (s : Ports) : mqttMonitorLeftStation s = monitor (Monitor.leftStation.readings s) := rfl

/-- The plant, and the thread of the monitors. -/
structure Loop where
  plant : Plant
  statics : Monitor → MonitorState
  published : List Publication

def Loop.start (s : Ports) : Loop := ⟨.start s, Monitor.initial, []⟩

/-- An event of the plant, or a call of a monitor, which sees the values `seen` of the ports that
    it reads. -/
inductive LoopEvent where
  | plant (e : PlantEvent)
  | call (k : Monitor) (seen : Ports) (clock : Clock)

def Loop.call (w : Loop) (k : Monitor) (seen : Ports) (clock : Clock) : Loop :=
  let r := monitor (k.readings seen) clock (w.statics k)
  { w with
    statics := Function.update w.statics k r.1
    published := w.published ++ r.2 }

variable (writeJson : Json → String) (parse : String → Except JsonException Json)

def Loop.step (w : Loop) : LoopEvent → Option Loop
  | .plant e => (w.plant.step writeJson parse e).map fun p => { w with plant := p }
  | .call k seen clock => some (w.call k seen clock)

def Loop.run (w : Loop) : List LoopEvent → Option Loop
  | [] => some w
  | e :: es => (w.step writeJson parse e).bind fun w' => w'.run es

/-- The events of the plant. -/
def plantEvents (events : List LoopEvent) : List PlantEvent :=
  events.filterMap fun
    | .plant e => some e
    | .call _ _ _ => none

variable {writeJson parse}

/-- The plant in a run of the loop makes a run of its own. -/
theorem run_plant {events : List LoopEvent} {w w' : Loop}
    (hrun : w.run writeJson parse events = some w') :
    w.plant.run writeJson parse (plantEvents events) = some w'.plant := by
  induction events generalizing w with
  | nil =>
    obtain rfl := Option.some.inj hrun
    rfl
  | cons e es ih =>
    obtain ⟨w₁, hstep, hrest⟩ := Option.bind_eq_some_iff.mp hrun
    cases e with
    | plant e =>
      obtain ⟨p, hp, rfl⟩ := Option.map_eq_some_iff.mp hstep
      show (w.plant.step writeJson parse e).bind _ = _
      rw [hp]
      exact ih hrest
    | call k seen clock =>
      obtain rfl := Option.some.inj hstep
      have hplant := ih hrest
      exact hplant

/-! ## The stations -/

/-- A motor with a monitor that publishes its direction under a name of its own. -/
inductive Station where
  | left
  | right

def Station.motor : Station → Motor
  | .left => .leftStation
  | .right => .rightStation

def Station.monitor : Station → Monitor
  | .left => .leftStation
  | .right => .rightStation

def Station.getDirection : Station → Ports → Int
  | .left => getLeftStationDirection
  | .right => getRightStationDirection

variable (a : Station)

theorem Station.reading_mem (s : Ports) :
    (a.motor.directionName, a.getDirection s) ∈ a.monitor.readings s := by
  cases a with
  | left => exact OwnNamed.leftStation.reading_mem s
  | right => exact OwnNamed.rightStation.reading_mem s

/-- No other monitor reads anything under the name. -/
theorem Station.sole {k : Monitor} {s : Ports} {r : Reading} (hr : r ∈ k.readings s)
    (hname : r.1 = a.motor.directionName) : k = a.monitor ∧ r.2 = a.getDirection s := by
  cases k <;>
    simp only [Monitor.readings, xAxisReadings, yAxisReadings, zAxisReadings, leftStationReadings,
      rightStationReadings, cageReadings, List.mem_cons, List.not_mem_nil, or_false] at hr <;>
    rcases hr with rfl | rfl <;> cases a <;>
    first
    | exact ⟨rfl, rfl⟩
    | simp [Station.motor, Motor.directionName] at hname

theorem Station.previous_initial (s : Ports) :
    (a.monitor.readings s).map Prod.snd ≠ a.monitor.initial.previous := by
  cases a with
  | left => exact OwnNamed.leftStation.previous_initial s
  | right => exact OwnNamed.rightStation.previous_initial s

theorem Station.direction_of_previous {s s' : Ports}
    (h : (a.monitor.readings s).map Prod.snd = (a.monitor.readings s').map Prod.snd) :
    a.getDirection s = a.getDirection s' := by
  cases a with
  | left => exact OwnNamed.leftStation.direction_of_previous s s' h
  | right => exact OwnNamed.rightStation.direction_of_previous s s' h

theorem Station.direction_of_drives {s : Ports} {d : Direction} (h : Drives s a.motor d) :
    a.getDirection s = d.value := by
  cases a with
  | left => exact OwnNamed.leftStation.direction_of_drives s d h
  | right => exact OwnNamed.rightStation.direction_of_drives s d h

theorem unquoted_readings (k : Monitor) (s : Ports) : Unquoted (k.readings s) := by
  cases k <;> simp [Unquoted, Monitor.readings, xAxisReadings, yAxisReadings, zAxisReadings,
    leftStationReadings, rightStationReadings, cageReadings]

/-! ## What is remembered -/

/-- Readings equal to the statics of the station's monitor were published. -/
def Station.Remembers (w : Loop) : Prop :=
  ∀ s, (a.monitor.readings s).map Prod.snd = (w.statics a.monitor).previous →
    LastUnder a.motor.directionName (a.getDirection s) w.published

theorem Station.remembers_start (s : Ports) : a.Remembers (.start s) :=
  fun s' h => absurd h (a.previous_initial s')

variable {a}

/-- After a call the direction that the monitor has seen is the one published last. -/
theorem Station.Remembers.lastUnder {w : Loop} (h : a.Remembers w) (seen : Ports) (clock : Clock) :
    LastUnder a.motor.directionName (a.getDirection seen)
      (w.call a.monitor seen clock).published := by
  let own : Call := ⟨a.monitor.readings seen, clock, w.statics a.monitor⟩
  have hlast : LastUnder a.motor.directionName (a.getDirection seen)
      (w.published ++ [own].flatMap Call.published) := lastUnder_calls
    (unquoted_directionName a.motor)
    (fun c hc => List.mem_singleton.mp hc ▸ unquoted_readings a.monitor seen)
    (fun c hc _ r hr hname => (a.sole (List.mem_singleton.mp hc ▸ hr) hname).2)
    (List.mem_singleton_self own) (a.reading_mem seen)
    fun hp => h seen (Call.previous_of_not_publishes hp)
  rwa [List.flatMap_cons, List.flatMap_nil, List.append_nil] at hlast

theorem Station.Remembers.call {w : Loop} (h : a.Remembers w) (k : Monitor) (seen : Ports)
    (clock : Clock) : a.Remembers (w.call k seen clock) := by
  intro s hs
  by_cases hk : k = a.monitor
  · subst hk
    have hprevious : ((w.call a.monitor seen clock).statics a.monitor).previous =
        (a.monitor.readings seen).map Prod.snd := by
      have hstatics : (w.call a.monitor seen clock).statics a.monitor =
          (Server.monitor (a.monitor.readings seen) clock (w.statics a.monitor)).1 :=
        Function.update_self _ _ _
      rw [hstatics, monitor_previous]
    rw [a.direction_of_previous (hs.trans hprevious)]
    exact h.lastUnder seen clock
  · have hstatics : (w.call k seen clock).statics a.monitor = w.statics a.monitor :=
      Function.update_of_ne (Ne.symm hk) _ _
    rw [hstatics] at hs
    refine (h s hs).append_monitor (unquoted_directionName a.motor) (unquoted_readings k seen) ?_
    intro _ r hr hname
    exact absurd (a.sole hr hname).1 hk

theorem Station.Remembers.run {events : List LoopEvent} {w w' : Loop} (h : a.Remembers w)
    (hrun : w.run writeJson parse events = some w') : a.Remembers w' := by
  induction events generalizing w with
  | nil =>
    obtain rfl := Option.some.inj hrun
    exact h
  | cons e es ih =>
    obtain ⟨w₁, hstep, hrest⟩ := Option.bind_eq_some_iff.mp hrun
    refine ih ?_ hrest
    cases e with
    | plant e =>
      obtain ⟨p, -, rfl⟩ := Option.map_eq_some_iff.mp hstep
      exact h
    | call k seen clock =>
      obtain rfl := Option.some.inj hstep
      exact h.call k seen clock

/-! ## The loop closes -/

theorem drives_of_bits {s s' : Ports} {m : Motor} {d : Direction} (h : m.bits s = d.bits)
    (hsame : ∀ p, p = 4 ∨ p = 5 → s' p = s p) : Drives s' m d := by
  obtain ⟨hplus, hminus⟩ := Prod.mk.inj h
  have hp : m.plus.1 = 4 ∨ m.plus.1 = 5 := by cases m <;> decide
  have hm : m.minus.1 = 4 ∨ m.minus.1 = 5 := by cases m <;> decide
  rw [Drives, bit, bit, hsame _ hp, hsame _ hm]
  exact ⟨hplus, hminus⟩

variable (a)

/-- In an orderly run of the loop, once no command is pending and every message has arrived: after
    the next call of a station's monitor, which sees the outputs as they are, the last message
    under the name of the station says the direction that the last command for it has asked for. -/
theorem loop_closes {s : Ports} {events : List LoopEvent} {w : Loop}
    (hrun : (Loop.start s).run writeJson parse events = some w)
    (hparse : ∀ c ∈ asserted (dispatches (plantEvents events)),
      parse (writeJson (payload c)) = .ok (payload c))
    (hok : Orderly Dispatcher.start (dispatches (plantEvents events)))
    (hpending : w.plant.dispatcher.commands = [])
    (harrived : w.plant.topic.next = w.plant.topic.sent.length) {d : Direction}
    (hlast : latest (Command.orderFor a.motor) (asserted (dispatches (plantEvents events))) = some d)
    {seen : Ports} (hseen : ∀ p, p = 4 ∨ p = 5 → seen p = w.plant.ports p) (clock : Clock) :
    LastUnder a.motor.directionName d.value (w.call a.monitor seen clock).published := by
  have hbits := bits_arrived (run_plant hrun) hparse hok hpending harrived a.motor
  rw [hlast] at hbits
  have hdrives := drives_of_bits (d := d) hbits hseen
  rw [← a.direction_of_drives hdrives]
  exact ((a.remembers_start s).run hrun).lastUnder seen clock

/-- The left station is sent inside; its monitor has seen the port of one line before, and that of
    the other one after it is switched. -/
def sentInside : List LoopEvent :=
  [.call .leftStation (fun _ => 0) ⟨0, 0⟩, .plant (.dispatch (.assertCommand ⟨"motor_ls", 1⟩ 0)),
    .plant .arrive, .call .leftStation (fun p => if p = 4 then 128 else 1) ⟨0, 1⟩,
    .plant (.dispatch (.publishSuccess 0))]

theorem loop_closes_sentInside :
    ∃ w, (Loop.start fun _ => 0).run commandText (parseCommands [⟨"motor_ls", 1⟩]) sentInside =
        some w ∧
      LastUnder "left_station_direction" 1
        (w.call .leftStation w.plant.ports ⟨0, 2⟩).published := by
  have hends : ((Loop.start fun _ => 0).run commandText (parseCommands [⟨"motor_ls", 1⟩])
      sentInside).map (fun w => (w.plant.dispatcher.commands, w.plant.topic.next,
        w.plant.topic.sent.length)) = some ([], 1, 1) := by
    simp [sentInside, Loop.run, Loop.step, Loop.call, Loop.start, Plant.step, Plant.start,
      Dispatcher.step, Dispatcher.start, Dispatcher.assertCommand,
      Dispatcher.sendPendingCommands, Channel.empty, Channel.send, Channel.deliver,
      Dispatcher.clientDispatcherOnPublishSuccess, commandOf_payload]
  obtain ⟨w, hrun, hw⟩ := Option.map_eq_some_iff.mp hends
  obtain ⟨hpending, hw⟩ := Prod.mk.inj hw
  obtain ⟨hnext, hsent⟩ := Prod.mk.inj hw
  have hasserted : asserted (dispatches (plantEvents sentInside)) = [⟨"motor_ls", 1⟩] := rfl
  have hlast := loop_closes .left hrun
    (by rw [hasserted]; intro c hc; rw [List.mem_singleton.mp hc]; rfl)
    (by
      have hdispatches : dispatches (plantEvents sentInside) =
          [.assertCommand ⟨"motor_ls", 1⟩ 0, .publishSuccess 0] := rfl
      rw [hdispatches]
      simp [Orderly, Dispatcher.RetractsOldest, Dispatcher.step, Dispatcher.start,
        Dispatcher.assertCommand, Dispatcher.sendPendingCommands,
        Dispatcher.clientDispatcherOnPublishSuccess])
    hpending (hnext.trans hsent.symm) (d := .positive) (by rw [hasserted]; rfl) (fun _ _ => rfl)
    ⟨0, 2⟩
  exact ⟨w, hrun, hlast⟩

end SmartWarehouse.Kbase
