/-
  The six `mqttMonitor` functions of `MQTT_client.cpp`.

  All six are one function of their readings (`monitor`): the readings are published on topic
  `sensor` if one of them changed since the last publication or ten seconds have passed, and
  what was published is remembered. The static variables of a monitor are a `MonitorState`.
-/
import SmartWarehouse.Server.LocalControl

namespace SmartWarehouse.Server

/-! ## Messages on topic `sensor` -/

structure Publication where
  topic : String
  payload : String
deriving DecidableEq, Repr

def sensorMessage (name : String) (value : Int) : String :=
  "\x7b\"name\": \"" ++ name ++ "\", \"value\": \"" ++ toString value ++ "\"\x7d"

def sensorPublication (name : String) (value : Int) : Publication :=
  ⟨"sensor", sensorMessage name value⟩

/-- A name without a quote can be read back from the message. -/
theorem sensorMessage_name {n n' : String} {v v' : Int} (hn : '"' ∉ n.toList)
    (hn' : '"' ∉ n'.toList) (h : sensorMessage n v = sensorMessage n' v') : n = n' := by
  have hl := congrArg String.toList h
  simp only [sensorMessage, String.toList_append, List.append_assoc] at hl
  have hl := List.append_cancel_left hl
  have key : ∀ m : List Char, '"' ∉ m → ∀ t, (m ++ ("\", \"value\": \"".toList ++ t)).takeWhile
      (· ≠ '"') = m := by
    intro m hm t
    rw [List.takeWhile_append_of_pos (fun c hc => by
      simpa using fun h : c = '"' => hm (h ▸ hc))]
    have : "\", \"value\": \"".toList = '"' :: ", \"value\": \"".toList := by decide
    rw [this, List.cons_append, List.takeWhile_cons_of_neg (by simp), List.append_nil]
  have := congrArg (List.takeWhile (· ≠ '"')) hl
  rw [key _ hn, key _ hn'] at this
  exact String.toList_injective this

/-! ## Change detection -/

/-- `std::chrono::system_clock` counts units of 100 ns. -/
def ticksPerMillisecond : Int := 10000

/-- `duration_cast<milliseconds>` of a clock difference. -/
def milliseconds (ticks : Int) : Int := ticks.tdiv ticksPerMillisecond

/-- The clock as one call reads it: for `static lastTime`, which only the first call
    initialises, and for `currentTime`. -/
structure Clock where
  initial : Int
  current : Int

/-- The static variables: `lastTime`, once initialised, and the values published last. -/
structure MonitorState where
  lastTime : Option Int
  previous : List Int

abbrev Reading := String × Int

/-- Whether a call publishes. -/
def publishes (readings : List Reading) (clock : Clock) (m : MonitorState) : Prop :=
  readings.map Prod.snd ≠ m.previous ∨
    milliseconds (clock.current - m.lastTime.getD clock.initial) > 10000

instance (readings : List Reading) (clock : Clock) (m : MonitorState) :
    Decidable (publishes readings clock m) :=
  inferInstanceAs (Decidable (_ ∨ _))

/-- One call of a monitor with the given readings: its statics and what it publishes. -/
def monitor (readings : List Reading) (clock : Clock) (m : MonitorState) :
    MonitorState × List Publication :=
  if publishes readings clock m then
    (⟨some clock.current, readings.map Prod.snd⟩,
      readings.map fun r => sensorPublication r.1 r.2)
  else (⟨some (m.lastTime.getD clock.initial), m.previous⟩, [])

/-! ## The six monitors -/

def xAxisReadings (s : Ports) : List Reading :=
  [("x_is_at", getXPosition s), ("x_direction", getXDirection s)]

/-- The direction of Y is published as `x_direction`. -/
def yAxisReadings (s : Ports) : List Reading :=
  [("y_is_at", getYPosition s), ("x_direction", getYDirection s)]

/-- The direction of Z is published as `x_direction`. The position is `int zPosition`. -/
def zAxisReadings (s : Ports) : List Reading :=
  [("z_is_at", (getZPosition s).tdiv 2), ("x_direction", getZDirection s)]

def leftStationReadings (s : Ports) : List Reading :=
  [("left_station_direction", getLeftStationDirection s),
    ("left_station_has_part", if isPartOnLeftStation s then 1 else 0)]

def rightStationReadings (s : Ports) : List Reading :=
  [("right_station_direction", getRightStationDirection s),
    ("right_station_has_part", if isPartOnRightStation s then 1 else 0)]

def cageReadings (s : Ports) : List Reading :=
  [("cage_has_part", if isPartInCage s then 1 else 0)]

def mqttMonitorXAxis (s : Ports) := monitor (xAxisReadings s)

def mqttMonitorYAxis (s : Ports) := monitor (yAxisReadings s)

def mqttMonitorZAxis (s : Ports) := monitor (zAxisReadings s)

def mqttMonitorLeftStation (s : Ports) := monitor (leftStationReadings s)

def mqttMonitorRightStation (s : Ports) := monitor (rightStationReadings s)

def mqttMonitorCage (s : Ports) := monitor (cageReadings s)

/-- One value for each monitor. -/
structure PerMonitor (α : Type) where
  x : α
  y : α
  z : α
  leftStation : α
  rightStation : α
  cage : α

/-- The static initialisers. `previous_cage_has_part` starts at `false`. -/
def initialMonitors : PerMonitor MonitorState where
  x := ⟨none, [-1, -9999]⟩
  y := ⟨none, [-1, -9999]⟩
  z := ⟨none, [-1, -9999]⟩
  leftStation := ⟨none, [-9999, -9999]⟩
  rightStation := ⟨none, [-9999, -9999]⟩
  cage := ⟨none, [0]⟩

/-- The body of the monitoring loop: the six monitors in order. -/
def monitoringPass (s : Ports) (clock : PerMonitor Clock) (m : PerMonitor MonitorState) :
    PerMonitor MonitorState × List Publication :=
  let x := mqttMonitorXAxis s clock.x m.x
  let y := mqttMonitorYAxis s clock.y m.y
  let z := mqttMonitorZAxis s clock.z m.z
  let leftStation := mqttMonitorLeftStation s clock.leftStation m.leftStation
  let rightStation := mqttMonitorRightStation s clock.rightStation m.rightStation
  let cage := mqttMonitorCage s clock.cage m.cage
  (⟨x.1, y.1, z.1, leftStation.1, rightStation.1, cage.1⟩,
    x.2 ++ y.2 ++ z.2 ++ leftStation.2 ++ rightStation.2 ++ cage.2)

/-! ## Last value under a name -/

/-- The last publication on `sensor` under `name` carries `value`. -/
def LastUnder (name : String) (value : Int) (log : List Publication) : Prop :=
  ∃ pre post, log = pre ++ sensorPublication name value :: post ∧
    ∀ v, sensorPublication name v ∉ post

theorem LastUnder.append {name : String} {v : Int} {log l : List Publication}
    (h : LastUnder name v log) (hl : ∀ v', sensorPublication name v' ∉ l) :
    LastUnder name v (log ++ l) := by
  obtain ⟨pre, post, rfl, hpost⟩ := h
  refine ⟨pre, post ++ l, by simp, fun v' => ?_⟩
  rw [List.mem_append, not_or]
  exact ⟨hpost v', hl v'⟩

theorem LastUnder.append_left {name : String} {v : Int} {l : List Publication}
    (h : LastUnder name v l) (log : List Publication) : LastUnder name v (log ++ l) := by
  obtain ⟨pre, post, rfl, hpost⟩ := h
  exact ⟨log ++ pre, post, by simp, hpost⟩

/-- Two values under one name are rendered alike. -/
theorem LastUnder.unique {name : String} {v v' : Int} {log : List Publication}
    (h : LastUnder name v log) (h' : LastUnder name v' log) :
    sensorMessage name v = sensorMessage name v' := by
  obtain ⟨pre, post, rfl, hpost⟩ := h
  obtain ⟨pre', post', heq, hpost'⟩ := h'
  rcases List.append_eq_append_iff.mp heq with ⟨c, hpre, hc⟩ | ⟨c, hpre, hc⟩
  · rcases c with _ | ⟨a, c⟩
    · exact congrArg Publication.payload (List.cons.inj hc).1
    · exact absurd (show sensorPublication name v' ∈ post by
        rw [(List.cons.inj hc).2]; simp) (hpost v')
  · rcases c with _ | ⟨a, c⟩
    · exact congrArg Publication.payload (List.cons.inj hc).1.symm
    · exact absurd (show sensorPublication name v ∈ post' by
        rw [(List.cons.inj hc).2]; simp) (hpost' v)

/-! ## One call -/

theorem sensorPublication_name {n n' : String} {v v' : Int} (hn : '"' ∉ n.toList)
    (hn' : '"' ∉ n'.toList) (h : sensorPublication n v = sensorPublication n' v') : n = n' :=
  sensorMessage_name hn hn' (congrArg Publication.payload h)

/-- No name of a reading contains a quote. -/
def Unquoted (readings : List Reading) : Prop := ∀ r ∈ readings, '"' ∉ r.1.toList

/-- Publishing readings that give `name` no other value keeps its last value. -/
theorem LastUnder.append_readings {name : String} {v : Int} {readings : List Reading}
    (hname : '"' ∉ name.toList) (hq : Unquoted readings)
    (hr : ∀ r ∈ readings, r.1 = name → r.2 = v) {log : List Publication}
    (h : LastUnder name v log) :
    LastUnder name v (log ++ readings.map fun r => sensorPublication r.1 r.2) := by
  induction readings generalizing log with
  | nil => simpa using h
  | cons r rs ih =>
    rw [List.map_cons, List.append_cons]
    refine ih (fun r hr => hq r (by simp [hr])) (fun r' h' => hr r' (by simp [h'])) ?_
    by_cases heq : r.1 = name
    · rw [heq, hr r (by simp) heq]
      exact ⟨log, [], rfl, by simp⟩
    · refine h.append fun v' hmem => heq ?_
      rw [List.mem_singleton] at hmem
      exact (sensorPublication_name hname (hq r (by simp)) hmem).symm

theorem lastUnder_of_mem_readings {name : String} {v : Int} {readings : List Reading}
    (hname : '"' ∉ name.toList) (hq : Unquoted readings)
    (hr : ∀ r ∈ readings, r.1 = name → r.2 = v) (hmem : (name, v) ∈ readings)
    (log : List Publication) :
    LastUnder name v (log ++ readings.map fun r => sensorPublication r.1 r.2) := by
  obtain ⟨before, after, rfl⟩ := List.append_of_mem hmem
  rw [List.map_append, List.map_cons, ← List.append_assoc, List.append_cons]
  refine LastUnder.append_readings hname (fun r h => hq r (by simp [h]))
    (fun r h => hr r (by simp [h])) ?_
  exact ⟨_, [], rfl, by simp⟩

/-- After a call the statics hold the readings, published or not. -/
theorem monitor_previous (readings : List Reading) (clock : Clock) (m : MonitorState) :
    (monitor readings clock m).1.previous = readings.map Prod.snd := by
  unfold monitor
  split
  · rfl
  · rename_i h
    rw [publishes, not_or, not_not] at h
    exact h.1.symm

/-- A call whose readings give `name` no other value keeps its last value. -/
theorem LastUnder.append_monitor {name : String} {v : Int} {readings : List Reading}
    {clock : Clock} {m : MonitorState} (hname : '"' ∉ name.toList) (hq : Unquoted readings)
    (hr : publishes readings clock m → ∀ r ∈ readings, r.1 = name → r.2 = v)
    {log : List Publication} (h : LastUnder name v log) :
    LastUnder name v (log ++ (monitor readings clock m).2) := by
  unfold monitor
  split
  · rename_i hp
    exact h.append_readings hname hq (hr hp)
  · simpa using h

/-- One call of a monitor. -/
structure Call where
  readings : List Reading
  clock : Clock
  state : MonitorState

def Call.publishes (c : Call) : Prop := Server.publishes c.readings c.clock c.state

def Call.published (c : Call) : List Publication := (monitor c.readings c.clock c.state).2

theorem LastUnder.append_calls {name : String} {v : Int} {calls : List Call}
    (hname : '"' ∉ name.toList) (hq : ∀ c ∈ calls, Unquoted c.readings)
    (hr : ∀ c ∈ calls, c.publishes → ∀ r ∈ c.readings, r.1 = name → r.2 = v)
    {log : List Publication} (h : LastUnder name v log) :
    LastUnder name v (log ++ calls.flatMap Call.published) := by
  induction calls generalizing log with
  | nil => simpa using h
  | cons c cs ih =>
    rw [List.flatMap_cons, ← List.append_assoc]
    refine ih (fun c hc => hq c (by simp [hc])) (fun c hc => hr c (by simp [hc])) ?_
    exact h.append_monitor hname (hq c (by simp)) (hr c (by simp))

theorem Call.previous_of_not_publishes {c : Call} (h : ¬ c.publishes) :
    c.readings.map Prod.snd = c.state.previous := by
  rw [Call.publishes, Server.publishes, not_or, not_not] at h
  exact h.1

/-- A call among `calls` that reads `v` under `name` leaves it as the last value, if it
    publishes or `v` was the last value before, and no other call publishes another value. -/
theorem lastUnder_calls {name : String} {v : Int} {calls : List Call} {own : Call}
    {log : List Publication} (hname : '"' ∉ name.toList)
    (hq : ∀ c ∈ calls, Unquoted c.readings)
    (hr : ∀ c ∈ calls, c.publishes → ∀ r ∈ c.readings, r.1 = name → r.2 = v)
    (hown : own ∈ calls) (hmem : (name, v) ∈ own.readings)
    (hold : ¬ own.publishes → LastUnder name v log) :
    LastUnder name v (log ++ calls.flatMap Call.published) := by
  by_cases hp : own.publishes
  · obtain ⟨before, after, rfl⟩ := List.append_of_mem hown
    rw [List.flatMap_append, List.flatMap_cons, ← List.append_assoc, ← List.append_assoc]
    refine LastUnder.append_calls hname (fun c hc => hq c (by simp [hc]))
      (fun c hc => hr c (by simp [hc])) ?_
    have hout : own.published = own.readings.map fun r => sensorPublication r.1 r.2 := by
      rw [Call.published, monitor,
        if_pos (show Server.publishes own.readings own.clock own.state from hp)]
    rw [hout]
    exact lastUnder_of_mem_readings hname (hq own (by simp)) (hr own (by simp) hp) hmem _
  · exact (hold hp).append_calls hname hq hr

theorem mem_published_call {c : Call} {p : Publication} (h : p ∈ c.published) :
    ∃ r ∈ c.readings, p = sensorPublication r.1 r.2 := by
  unfold Call.published monitor at h
  split at h
  · obtain ⟨r, hr, rfl⟩ := List.mem_map.mp h
    exact ⟨r, hr, rfl⟩
  · cases h

/-- The six calls of a pass. -/
def passCalls (s : Ports) (clock : PerMonitor Clock) (m : PerMonitor MonitorState) : List Call :=
  [⟨xAxisReadings s, clock.x, m.x⟩, ⟨yAxisReadings s, clock.y, m.y⟩,
    ⟨zAxisReadings s, clock.z, m.z⟩, ⟨leftStationReadings s, clock.leftStation, m.leftStation⟩,
    ⟨rightStationReadings s, clock.rightStation, m.rightStation⟩,
    ⟨cageReadings s, clock.cage, m.cage⟩]

theorem monitoringPass_published (s : Ports) (clock : PerMonitor Clock)
    (m : PerMonitor MonitorState) :
    (monitoringPass s clock m).2 = (passCalls s clock m).flatMap Call.published := by
  simp [monitoringPass, passCalls, Call.published, mqttMonitorXAxis, mqttMonitorYAxis,
    mqttMonitorZAxis, mqttMonitorLeftStation, mqttMonitorRightStation, mqttMonitorCage]

end SmartWarehouse.Server
