/-
  Direction telemetry: actuator messages in, sensor messages out.

  A run handles one actuator message at a time, each followed by one pass of the six monitors.
  Between message and pass the sensor inputs may change. X, the left and the right station
  publish their direction under their own name; Y and Z publish as `x_direction`, and Z reads
  the lines of Y. The published directions follow the messages exactly in the runs that drive
  no other motor than those three and where the Y and Z monitors only publish while X is
  stopped (`telemetry_follows_iff`).
-/
import SmartWarehouse.Server.Monitor
import SmartWarehouse.Server.Motors

namespace SmartWarehouse.Server

open SmartWarehouse.Lib

/-! ## Runs -/

def actuatorPayload (m : Motor) (d : Direction) : String :=
  "\x7b\"name\":\"" ++ m.name ++ "\",\"value\":\"" ++ toString d.value ++ "\"\x7d"

def actuatorJson (m : Motor) (d : Direction) : Json :=
  .object [("name", .string m.name), ("value", .string (toString d.value))]

/-- `json::parse` reads the actuator messages. -/
def ParsesActuatorPayloads (parse : String → Except JsonException Json) : Prop :=
  ∀ m d, parse (actuatorPayload m d) = .ok (actuatorJson m d)

/-- One message, the sensor inputs at the pass that follows it, and the clocks of the pass. -/
structure Event where
  motor : Motor
  direction : Direction
  inputs : Ports
  clock : PerMonitor Clock

structure World where
  ports : Ports
  monitors : PerMonitor MonitorState
  published : List Publication

/-- The ports with new inputs: ports 4 and 5 are the outputs. -/
def sensed (s inputs : Ports) : Ports := fun p => if p = 4 ∨ p = 5 then s p else inputs p

variable (parse : String → Except JsonException Json)

/-- The ports that the pass of an event reads. -/
def World.deliver (w : World) (e : Event) : Ports :=
  sensed (onMqttActuatorsMessageArrived parse "actuator" (actuatorPayload e.motor e.direction)
    w.ports).2 e.inputs

def World.step (w : World) (e : Event) : World :=
  let ports := w.deliver parse e
  let pass := monitoringPass ports e.clock w.monitors
  ⟨ports, pass.1, w.published ++ pass.2⟩

def runEvents (events : List Event) : World :=
  events.foldl (World.step parse) ⟨fun _ => 0, initialMonitors, []⟩

/-- The direction of the latest message to a motor. -/
def latest (events : List Event) (m : Motor) : Option Direction :=
  (events.reverse.find? fun e => e.motor = m).map Event.direction

/-- The name of the motor's direction on topic `sensor`. -/
def Motor.directionName : Motor → String
  | .x => "x_direction"
  | .y => "y_direction"
  | .z => "z_direction"
  | .leftStation => "left_station_direction"
  | .rightStation => "right_station_direction"

/-- Every motor that got a message has its latest direction published last. -/
def Follows (events : List Event) : Prop :=
  ∀ m d, latest events m = some d →
    LastUnder m.directionName d.value (runEvents parse events).published

/-- After the run `pre`, event `e` drives a motor with its own telemetry, and the Y and Z
    monitors do not publish over a moving X. -/
def KeepsNames (pre : List Event) (e : Event) : Prop :=
  let w := runEvents parse pre
  let s := w.deliver parse e
  e.motor ≠ .y ∧ e.motor ≠ .z ∧
    (publishes (yAxisReadings s) e.clock.y w.monitors.y ∨
        publishes (zAxisReadings s) e.clock.z w.monitors.z →
      (latest (pre ++ [e]) .x).getD .stopped = .stopped)

variable {parse}

theorem latest_snoc (events : List Event) (e : Event) (m : Motor) :
    latest (events ++ [e]) m = if e.motor = m then some e.direction else latest events m := by
  simp only [latest, List.reverse_append, List.reverse_cons, List.reverse_nil, List.nil_append,
    List.singleton_append, List.find?_cons]
  by_cases h : e.motor = m <;> simp [h]

theorem runEvents_snoc (events : List Event) (e : Event) :
    runEvents parse (events ++ [e]) = (runEvents parse events).step parse e := by
  rw [runEvents, List.foldl_append]
  rfl

/-! ## The outputs hold the latest directions -/

theorem stoi_direction (d : Direction) : stoi (toString d.value) = .ok d.value := by
  cases d <;> decide

theorem deliver_eq (hparse : ParsesActuatorPayloads parse) (w : World) (e : Event) :
    w.deliver parse e = sensed (run w.ports (e.motor.routine e.direction)) e.inputs := by
  have htry : tryBlock parse (actuatorPayload e.motor e.direction) =
      .ok (e.motor.routine e.direction) := by
    have hfield : (actuatorJson e.motor e.direction).field "name" = .ok e.motor.name ∧
        (actuatorJson e.motor e.direction).field "value" =
          .ok (toString e.direction.value) := ⟨rfl, rfl⟩
    rw [tryBlock_of_fields (hparse e.motor e.direction) hfield.1 hfield.2, actuate_name,
      stoi_direction, ← Motor.onValue_value]
    rfl
  rw [World.deliver, ports_of_tryBlock_ok htry]

/-- The two lines of a motor are those of the direction `d`. -/
def Drives (s : Ports) (m : Motor) (d : Direction) : Prop :=
  bit s m.plus = decide (d = .positive) ∧ bit s m.minus = decide (d = .negative)

theorem bit_sensed (s inputs : Ports) {l : Line} (hl : l.1 = 4 ∨ l.1 = 5) :
    bit (sensed s inputs) l = bit s l := by
  rw [bit, bit, sensed, if_pos hl]

theorem drives_sensed {s : Ports} (inputs : Ports) {m : Motor} {d : Direction}
    (h : Drives s m d) : Drives (sensed s inputs) m d := by
  have hp : m.plus.1 = 4 ∨ m.plus.1 = 5 := by cases m <;> decide
  have hm : m.minus.1 = 4 ∨ m.minus.1 = 5 := by cases m <;> decide
  rw [Drives, bit_sensed s inputs hp, bit_sensed s inputs hm]
  exact h

theorem drives_run (s : Ports) (m m' : Motor) (d d' : Direction) (h : Drives s m d) :
    Drives (run s (m'.routine d')) m (if m' = m then d' else d) := by
  have hp : m.plus.2 < 8 := by cases m <;> decide
  have hm : m.minus.2 < 8 := by cases m <;> decide
  rw [Drives, bit_run_routine s m' d' _ hp, bit_run_routine s m' d' _ hm]
  by_cases hmm : m' = m
  · subst hmm
    have hne : m'.minus ≠ m'.plus := by cases m' <;> decide
    rw [if_pos rfl, if_neg hne, if_pos rfl, if_pos rfl]
    exact ⟨rfl, rfl⟩
  · have hne : m.plus ≠ m'.plus ∧ m.plus ≠ m'.minus ∧ m.minus ≠ m'.plus ∧ m.minus ≠ m'.minus := by
      revert hmm
      cases m <;> cases m' <;> decide
    rw [if_neg hmm, if_neg hne.1, if_neg hne.2.1, if_neg hne.2.2.1, if_neg hne.2.2.2]
    exact h

theorem drives_deliver (hparse : ParsesActuatorPayloads parse) {w : World} {e : Event}
    {pre : List Event} {m : Motor} (h : Drives w.ports m ((latest pre m).getD .stopped)) :
    Drives (w.deliver parse e) m ((latest (pre ++ [e]) m).getD .stopped) := by
  rw [deliver_eq hparse, latest_snoc]
  have hrun := drives_run w.ports m e.motor _ e.direction h
  refine drives_sensed e.inputs ?_
  by_cases hm : e.motor = m
  · rw [if_pos hm] at hrun ⊢; exact hrun
  · rw [if_neg hm] at hrun ⊢; exact hrun

/-- In every run the outputs of a motor are those of its latest message. -/
theorem drives_runEvents (hparse : ParsesActuatorPayloads parse) (events : List Event)
    (m : Motor) :
    Drives (runEvents parse events).ports m ((latest events m).getD .stopped) := by
  induction events using List.reverseRecOn with
  | nil => simp [Drives, bit, runEvents, latest]
  | append_singleton pre e ih =>
    rw [runEvents_snoc]
    exact drives_deliver hparse ih

theorem directionOf_eq (s : Ports) {on off : Line} (hon : on.2 < 8) (hoff : off.2 < 8)
    (a b : Int) :
    directionOf s on a off b = if bit s on then a else if bit s off then b else 0 := by
  have h₁ := getBitValue_ne_zero (s on.1) on.2 hon
  have h₂ := getBitValue_ne_zero (s off.1) off.2 hoff
  rw [directionOf]
  simp only [bit]
  split_ifs <;> simp_all

theorem getXDirection_of_drives {s : Ports} {d : Direction} (h : Drives s .x d) :
    getXDirection s = d.value := by
  rw [getXDirection, directionOf_eq s (by decide) (by decide)]
  rw [show bit s (4, 0) = _ from h.1, show bit s (4, 1) = _ from h.2]
  cases d <;> decide

theorem getYDirection_of_drives {s : Ports} {d : Direction} (h : Drives s .y d) :
    getYDirection s = d.value := by
  rw [getYDirection, directionOf_eq s (by decide) (by decide)]
  rw [show bit s (4, 3) = _ from h.1, show bit s (4, 4) = _ from h.2]
  cases d <;> decide

theorem getLeftStationDirection_of_drives {s : Ports} {d : Direction}
    (h : Drives s .leftStation d) : getLeftStationDirection s = d.value := by
  rw [getLeftStationDirection, directionOf_eq s (by decide) (by decide)]
  rw [show bit s (4, 7) = _ from h.1, show bit s (5, 0) = _ from h.2]
  cases d <;> decide

theorem getRightStationDirection_of_drives {s : Ports} {d : Direction}
    (h : Drives s .rightStation d) : getRightStationDirection s = d.value := by
  rw [getRightStationDirection, directionOf_eq s (by decide) (by decide)]
  rw [show bit s (5, 1) = _ from h.1, show bit s (5, 2) = _ from h.2]
  cases d <;> decide

/-- `getZDirection` asks the lines of Y. -/
theorem getZDirection_eq_getYDirection : getZDirection = getYDirection := rfl

/-! ## What a pass publishes -/

/-- The names that the monitors publish under. -/
def publishedNames : List String :=
  ["x_is_at", "x_direction", "y_is_at", "z_is_at", "left_station_direction",
    "left_station_has_part", "right_station_direction", "right_station_has_part",
    "cage_has_part"]

theorem reading_name {s : Ports} {clock : PerMonitor Clock} {ms : PerMonitor MonitorState}
    {c : Call} (hc : c ∈ passCalls s clock ms) {r : Reading} (hr : r ∈ c.readings) :
    r.1 ∈ publishedNames := by
  simp only [passCalls, List.mem_cons, List.not_mem_nil, or_false] at hc
  rcases hc with rfl | rfl | rfl | rfl | rfl | rfl <;>
    simp only [xAxisReadings, yAxisReadings, zAxisReadings, leftStationReadings,
      rightStationReadings, cageReadings, List.mem_cons, List.not_mem_nil, or_false] at hr <;>
    rcases hr with rfl | rfl <;> simp [publishedNames]

theorem unquoted_publishedNames : ∀ name ∈ publishedNames, '"' ∉ name.toList := by decide

theorem unquoted_directionName (m : Motor) : '"' ∉ m.directionName.toList := by
  cases m <;> decide

theorem unquoted_passCalls {s : Ports} {clock : PerMonitor Clock}
    {ms : PerMonitor MonitorState} : ∀ c ∈ passCalls s clock ms, Unquoted c.readings :=
  fun _ hc _ hr => unquoted_publishedNames _ (reading_name hc hr)

theorem mem_published {events : List Event} {p : Publication}
    (h : p ∈ (runEvents parse events).published) :
    ∃ name v, name ∈ publishedNames ∧ p = sensorPublication name v := by
  induction events using List.reverseRecOn with
  | nil => cases h
  | append_singleton pre e ih =>
    rw [runEvents_snoc] at h
    rcases List.mem_append.mp h with h | h
    · exact ih h
    · rw [monitoringPass_published] at h
      obtain ⟨c, hc, hp⟩ := List.mem_flatMap.mp h
      obtain ⟨r, hr, rfl⟩ := mem_published_call hp
      exact ⟨r.1, r.2, reading_name hc hr, rfl⟩

/-- Y and Z never get a direction under their own name. -/
theorem not_lastUnder_own_name {m : Motor} (hm : m = .y ∨ m = .z) (v : Int)
    (events : List Event) : ¬ LastUnder m.directionName v (runEvents parse events).published := by
  rintro ⟨pre, post, hlog, -⟩
  have hmem : sensorPublication m.directionName v ∈ (runEvents parse events).published := by
    rw [hlog]; simp
  obtain ⟨name, v', hname, heq⟩ := mem_published hmem
  obtain rfl := sensorPublication_name (unquoted_directionName m)
    (unquoted_publishedNames name hname) heq
  rcases hm with rfl | rfl <;> revert hname <;> decide

/-! ## The three motors with a name of their own -/

/-- No other publication of the pass gives the name `name` another value than `v`. -/
def Sole (name : String) (v : Int) (calls : List Call) : Prop :=
  ∀ c ∈ calls, c.publishes → ∀ r ∈ c.readings, r.1 = name → r.2 = v

/-- The Y and Z monitors publish under `x_direction`: they must agree with X or stay quiet. -/
def QuietOrAgree (s : Ports) (clock : PerMonitor Clock) (ms : PerMonitor MonitorState) : Prop :=
  publishes (yAxisReadings s) clock.y ms.y ∨ publishes (zAxisReadings s) clock.z ms.z →
    getYDirection s = getXDirection s

/-- The monitor of such a motor: its readings and statics, and the getter of the direction
    among the readings. -/
structure OwnNamed (m : Motor) where
  readings : Ports → List Reading
  clock : PerMonitor Clock → Clock
  state : PerMonitor MonitorState → MonitorState
  getDirection : Ports → Int
  call_mem : ∀ s clocks ms, (⟨readings s, clock clocks, state ms⟩ : Call) ∈ passCalls s clocks ms
  state_pass : ∀ s clocks ms, state (monitoringPass s clocks ms).1 =
    (monitor (readings s) (clock clocks) (state ms)).1
  reading_mem : ∀ s, (m.directionName, getDirection s) ∈ readings s
  sole : ∀ s clocks ms, QuietOrAgree s clocks ms →
    Sole m.directionName (getDirection s) (passCalls s clocks ms)
  previous_initial : ∀ s, (readings s).map Prod.snd ≠ (state initialMonitors).previous
  direction_of_previous : ∀ s s', (readings s).map Prod.snd = (readings s').map Prod.snd →
    getDirection s = getDirection s'
  direction_of_drives : ∀ s d, Drives s m d → getDirection s = d.value

theorem directionOf_ne {s : Ports} {on off : Line} {a b v : Int} (ha : a ≠ v) (hb : b ≠ v)
    (h0 : 0 ≠ v) : directionOf s on a off b ≠ v := by
  unfold directionOf
  split_ifs
  exacts [ha, hb, h0]

def OwnNamed.x : OwnNamed .x where
  readings := xAxisReadings
  clock := PerMonitor.x
  state := PerMonitor.x
  getDirection := getXDirection
  call_mem := by simp [passCalls]
  state_pass := fun _ _ _ => rfl
  reading_mem := by simp [xAxisReadings, Motor.directionName]
  sole := by
    intro s clocks ms h
    have hy : publishes (yAxisReadings s) clocks.y ms.y → getYDirection s = getXDirection s :=
      fun hp => h (.inl hp)
    have hz : publishes (zAxisReadings s) clocks.z ms.z → getYDirection s = getXDirection s :=
      fun hp => h (.inr hp)
    unfold Sole
    simp only [passCalls, List.forall_mem_cons, Motor.directionName]
    simp only [xAxisReadings, yAxisReadings, zAxisReadings, leftStationReadings,
      rightStationReadings, cageReadings, getZDirection_eq_getYDirection] at hy hz ⊢
    simpa [Call.publishes] using ⟨hy, hz⟩
  previous_initial := fun s h => by
    have hne : getXDirection s ≠ -9999 := directionOf_ne (by decide) (by decide) (by decide)
    exact hne (List.cons.inj (List.cons.inj h).2).1
  direction_of_previous := fun _ _ h => (List.cons.inj (List.cons.inj h).2).1
  direction_of_drives := fun _ _ => getXDirection_of_drives

def OwnNamed.leftStation : OwnNamed .leftStation where
  readings := leftStationReadings
  clock := PerMonitor.leftStation
  state := PerMonitor.leftStation
  getDirection := getLeftStationDirection
  call_mem := by simp [passCalls]
  state_pass := fun _ _ _ => rfl
  reading_mem := by simp [leftStationReadings, Motor.directionName]
  sole := by
    intro s clocks ms _
    simp only [Sole, passCalls, List.forall_mem_cons, Motor.directionName, xAxisReadings,
      yAxisReadings, zAxisReadings, leftStationReadings, rightStationReadings, cageReadings]
    simp
  previous_initial := fun s h => by
    have hne : getLeftStationDirection s ≠ -9999 :=
      directionOf_ne (by decide) (by decide) (by decide)
    exact hne (List.cons.inj h).1
  direction_of_previous := fun _ _ h => (List.cons.inj h).1
  direction_of_drives := fun _ _ => getLeftStationDirection_of_drives

def OwnNamed.rightStation : OwnNamed .rightStation where
  readings := rightStationReadings
  clock := PerMonitor.rightStation
  state := PerMonitor.rightStation
  getDirection := getRightStationDirection
  call_mem := by simp [passCalls]
  state_pass := fun _ _ _ => rfl
  reading_mem := by simp [rightStationReadings, Motor.directionName]
  sole := by
    intro s clocks ms _
    simp only [Sole, passCalls, List.forall_mem_cons, Motor.directionName, xAxisReadings,
      yAxisReadings, zAxisReadings, leftStationReadings, rightStationReadings, cageReadings]
    simp
  previous_initial := fun s h => by
    have hne : getRightStationDirection s ≠ -9999 :=
      directionOf_ne (by decide) (by decide) (by decide)
    exact hne (List.cons.inj h).1
  direction_of_previous := fun _ _ h => (List.cons.inj h).1
  direction_of_drives := fun _ _ => getRightStationDirection_of_drives

/-- Every motor but Y and Z has telemetry of its own. -/
theorem exists_ownNamed {m : Motor} (hy : m ≠ .y) (hz : m ≠ .z) : Nonempty (OwnNamed m) := by
  cases m with
  | x => exact ⟨.x⟩
  | y => exact absurd rfl hy
  | z => exact absurd rfl hz
  | leftStation => exact ⟨.leftStation⟩
  | rightStation => exact ⟨.rightStation⟩

variable {m : Motor} (o : OwnNamed m)

/-- Readings equal to the statics were published. -/
def OwnNamed.Remembers (w : World) : Prop :=
  ∀ s, (o.readings s).map Prod.snd = (o.state w.monitors).previous →
    LastUnder m.directionName (o.getDirection s) w.published

theorem OwnNamed.remembers_initial : o.Remembers (runEvents parse []) :=
  fun s h => absurd h (o.previous_initial s)

/-- After an event the direction on the ports is the one published last. -/
theorem OwnNamed.lastUnder_step {w : World} (h : o.Remembers w) (e : Event)
    (hq : QuietOrAgree (w.deliver parse e) e.clock w.monitors) :
    LastUnder m.directionName (o.getDirection (w.deliver parse e))
      (w.step parse e).published := by
  rw [World.step, monitoringPass_published]
  exact lastUnder_calls (unquoted_directionName m) unquoted_passCalls (o.sole _ _ _ hq)
    (o.call_mem _ _ _) (o.reading_mem _) fun hp => h _ (Call.previous_of_not_publishes hp)

theorem OwnNamed.remembers_step {w : World} (h : o.Remembers w) (e : Event)
    (hq : QuietOrAgree (w.deliver parse e) e.clock w.monitors) :
    o.Remembers (w.step parse e) := by
  intro s hs
  have hprev : (o.state (w.step parse e).monitors).previous =
      (o.readings (w.deliver parse e)).map Prod.snd := by
    rw [World.step, o.state_pass, monitor_previous]
  rw [o.direction_of_previous s _ (hs.trans hprev)]
  exact o.lastUnder_step h e hq

/-! ## Whole runs -/

/-- The condition in terms of the ports, as long as Y has got no message. -/
theorem quietOrAgree_of_keepsNames (hparse : ParsesActuatorPayloads parse) {pre : List Event}
    {e : Event} (hpre : latest (pre ++ [e]) .y = none) (h : KeepsNames parse pre e) :
    QuietOrAgree ((runEvents parse pre).deliver parse e) e.clock
      (runEvents parse pre).monitors := by
  intro hp
  have hx := drives_deliver hparse (e := e) (drives_runEvents hparse pre .x)
  have hy := drives_deliver hparse (e := e) (drives_runEvents hparse pre .y)
  rw [hpre] at hy
  rw [h.2.2 hp] at hx
  rw [getXDirection_of_drives hx, getYDirection_of_drives hy]
  rfl

theorem latest_eq_none {events : List Event} {m : Motor} :
    latest events m = none ↔ ∀ e ∈ events, e.motor ≠ m := by
  simp [latest]

theorem motor_of_keepsNames {events : List Event}
    (h : ∀ pre e, pre ++ [e] <+: events → KeepsNames parse pre e) :
    ∀ e ∈ events, e.motor ≠ .y ∧ e.motor ≠ .z := by
  intro e he
  obtain ⟨pre, post, rfl⟩ := List.append_of_mem he
  have hkeep := h pre e ⟨post, by simp⟩
  exact ⟨hkeep.1, hkeep.2.1⟩

/-- If every step keeps the names, readings equal to the statics were published. -/
theorem OwnNamed.remembers_run (hparse : ParsesActuatorPayloads parse) {events : List Event}
    (h : ∀ pre e, pre ++ [e] <+: events → KeepsNames parse pre e) :
    o.Remembers (runEvents parse events) := by
  induction events using List.reverseRecOn with
  | nil => exact o.remembers_initial
  | append_singleton pre e ih =>
    have hrem := ih fun p e' hp => h p e' (hp.trans (List.prefix_append ..))
    have hy := latest_eq_none.mpr fun e' he' => (motor_of_keepsNames h e' he').1
    rw [runEvents_snoc]
    exact o.remembers_step hrem e
      (quietOrAgree_of_keepsNames hparse hy (h pre e List.prefix_rfl))

theorem follows_of_keepsNames (hparse : ParsesActuatorPayloads parse) {events : List Event}
    (h : ∀ pre e, pre ++ [e] <+: events → KeepsNames parse pre e) : Follows parse events := by
  intro m d hd
  have hmotor : ∀ m', m = m' → ∃ e ∈ events, e.motor = m' := by
    rintro m' rfl
    by_contra hno
    rw [latest_eq_none.mpr fun e he hm => hno ⟨e, he, hm⟩] at hd
    cases hd
  have hm : m ≠ .y ∧ m ≠ .z := by
    refine ⟨fun hy => ?_, fun hz => ?_⟩
    · obtain ⟨e, he, hey⟩ := hmotor _ hy
      exact (motor_of_keepsNames h e he).1 hey
    · obtain ⟨e, he, hez⟩ := hmotor _ hz
      exact (motor_of_keepsNames h e he).2 hez
  obtain ⟨o⟩ := exists_ownNamed hm.1 hm.2
  rcases List.eq_nil_or_concat' events with rfl | ⟨pre, e, rfl⟩
  · cases hd
  · have hrem := o.remembers_run hparse
      fun p e' hp => h p e' (hp.trans (List.prefix_append pre [e]))
    have hy := latest_eq_none.mpr fun e' he' => (motor_of_keepsNames h e' he').1
    have hlast := o.lastUnder_step hrem e
      (quietOrAgree_of_keepsNames hparse hy (h pre e List.prefix_rfl))
    have hdrives := drives_deliver hparse (e := e) (drives_runEvents hparse pre m)
    rw [hd] at hdrives
    rw [o.direction_of_drives _ _ hdrives, ← runEvents_snoc] at hlast
    exact hlast

/-- A Y or Z monitor that publishes leaves the direction of a stopped Y under the name of X. -/
theorem lastUnder_x_zero (hparse : ParsesActuatorPayloads parse) {pre : List Event} {e : Event}
    (hy : latest (pre ++ [e]) .y = none)
    (hp : publishes (yAxisReadings ((runEvents parse pre).deliver parse e)) e.clock.y
          (runEvents parse pre).monitors.y ∨
        publishes (zAxisReadings ((runEvents parse pre).deliver parse e)) e.clock.z
          (runEvents parse pre).monitors.z) :
    LastUnder "x_direction" 0 (runEvents parse (pre ++ [e])).published := by
  have hdrives := drives_deliver hparse (e := e) (drives_runEvents hparse pre .y)
  rw [hy] at hdrives
  have hzero := getYDirection_of_drives hdrives
  rw [runEvents_snoc, World.step, monitoringPass_published]
  revert hp hzero
  generalize runEvents parse pre = w
  generalize w.deliver parse e = s
  intro hp hzero
  have hq : ∀ c ∈ passCalls s e.clock w.monitors, Unquoted c.readings := unquoted_passCalls
  -- the X monitor comes first, so its publications do not count
  rw [passCalls, List.flatMap_cons, ← List.append_assoc]
  have hsole : Sole "x_direction" 0 (passCalls s e.clock w.monitors).tail := by
    simp only [Sole, passCalls, List.tail_cons, List.forall_mem_cons, yAxisReadings,
      zAxisReadings, leftStationReadings, rightStationReadings, cageReadings,
      getZDirection_eq_getYDirection, show getYDirection s = 0 from hzero]
    simp
  have key : ∀ log, ∀ own ∈ (passCalls s e.clock w.monitors).tail, own.publishes →
      ("x_direction", getYDirection s) ∈ own.readings → LastUnder "x_direction" 0
        (log ++ (passCalls s e.clock w.monitors).tail.flatMap Call.published) :=
    fun log own hown hpub hmem =>
      lastUnder_calls (unquoted_directionName .x) (fun c hc => hq c (List.mem_of_mem_tail hc))
        hsole hown (by rwa [show getYDirection s = 0 from hzero] at hmem) fun h => absurd hpub h
  rcases hp with hp | hp
  · exact key _ ⟨yAxisReadings s, e.clock.y, w.monitors.y⟩ (by simp [passCalls]) hp
      (by simp [yAxisReadings])
  · exact key _ ⟨zAxisReadings s, e.clock.z, w.monitors.z⟩ (by simp [passCalls]) hp
      (by simp [zAxisReadings, getZDirection_eq_getYDirection])

/-- The published directions follow the messages after every pass of a run exactly if every
    step keeps the names. -/
theorem telemetry_follows_iff (hparse : ParsesActuatorPayloads parse) (events : List Event) :
    (∀ pre, pre <+: events → Follows parse pre) ↔
      ∀ pre e, pre ++ [e] <+: events → KeepsNames parse pre e := by
  constructor
  · intro h
    have hown : ∀ pre e, pre ++ [e] <+: events → e.motor ≠ .y ∧ e.motor ≠ .z := by
      intro pre e hp
      have hlast := h _ hp e.motor e.direction (by rw [latest_snoc, if_pos rfl])
      exact ⟨fun hy => not_lastUnder_own_name (.inl hy) _ _ hlast,
        fun hz => not_lastUnder_own_name (.inr hz) _ _ hlast⟩
    intro pre e hp
    refine ⟨(hown pre e hp).1, (hown pre e hp).2, fun hpub => ?_⟩
    have hy : latest (pre ++ [e]) .y = none := by
      refine latest_eq_none.mpr fun e' he' => ?_
      obtain ⟨before, after, heq⟩ := List.append_of_mem he'
      refine (hown before e' (List.IsPrefix.trans ⟨after, ?_⟩ hp)).1
      rw [heq]; simp
    have hzero := lastUnder_x_zero hparse hy hpub
    rcases hx : latest (pre ++ [e]) .x with _ | d
    · rfl
    · have heq := (h _ hp .x d hx).unique hzero
      revert heq
      cases d <;> decide
  · intro h pre hp
    exact follows_of_keepsNames hparse fun p e hpe => h p e (hpe.trans hp)

/-- A parser of the actuator messages alone. -/
def parseActuator (payload : String) : Except JsonException Json :=
  let known := [Motor.x, .y, .z, .leftStation, .rightStation].flatMap fun m =>
    [Direction.negative, .stopped, .positive].map fun d => (m, d)
  match known.find? fun p => actuatorPayload p.1 p.2 = payload with
  | some (m, d) => .ok (actuatorJson m d)
  | none => .error .parse_error

theorem parsesActuatorPayloads_parseActuator : ParsesActuatorPayloads parseActuator := by
  intro m d
  cases m <;> cases d <;> rfl

/-- A message, with all sensor inputs low and a clock that stands still. -/
def Event.still (m : Motor) (d : Direction) : Event :=
  ⟨m, d, fun _ => 0, ⟨⟨0, 0⟩, ⟨0, 0⟩, ⟨0, 0⟩, ⟨0, 0⟩, ⟨0, 0⟩, ⟨0, 0⟩⟩⟩

theorem telemetry_follows_leftStation :
    Follows parseActuator [Event.still .leftStation .positive] := by
  refine (telemetry_follows_iff parsesActuatorPayloads_parseActuator _).mpr ?_ _ List.prefix_rfl
  intro pre e hp
  obtain ⟨rfl, rfl⟩ : pre = [] ∧ e = Event.still .leftStation .positive := by
    rcases pre with _ | ⟨a, pre⟩
    · exact ⟨rfl, by simpa using hp⟩
    · have := hp.length_le
      simp at this
  exact ⟨by decide, by decide, fun _ => rfl⟩

/-- One message `1` to `motor_y`: no `y_direction` is published. -/
theorem motor_y_direction_not_published :
    ¬ Follows parseActuator [Event.still .y .positive] := fun h =>
  not_lastUnder_own_name (.inl rfl) _ _ (h .y .positive rfl)

end SmartWarehouse.Server
