/-
  Presence telemetry: what the monitors of the stations and the cage publish as
  `left_station_has_part`, `right_station_has_part` and `cage_has_part`.

  A monitor publishes on a change of what it remembers. The statics of the stations start at
  -9999, which is no reading, so their first pass publishes; the static of the cage is a `bool`
  and starts at `false`, so an empty cage is not published before a part has been there or ten
  seconds have passed. From the first publication on the last value is the current one
  (`presence_current_iff`).
-/
import SmartWarehouse.Server.Telemetry
import Mathlib.Data.List.Induction

namespace SmartWarehouse.Server

/-! ## Passes of the three monitors -/

inductive Place where
  | leftStation | rightStation | cage
deriving DecidableEq, Repr

def Place.mqttMonitor : Place → Ports → Clock → MonitorState → MonitorState × List Publication
  | .leftStation => mqttMonitorLeftStation
  | .rightStation => mqttMonitorRightStation
  | .cage => mqttMonitorCage

/-- The name of the presence on topic `sensor`. -/
def Place.hasPart : Place → String
  | .leftStation => "left_station_has_part"
  | .rightStation => "right_station_has_part"
  | .cage => "cage_has_part"

def Place.isPart : Place → Ports → Bool
  | .leftStation => isPartOnLeftStation
  | .rightStation => isPartOnRightStation
  | .cage => isPartInCage

/-- The presence of a part as `%d` prints it. -/
def Place.presence (a : Place) (s : Ports) : Int := if a.isPart s then 1 else 0

/-- The part of a record that belongs to the places. -/
def PerMonitor.places {α : Type} (r : PerMonitor α) : Place → α
  | .leftStation => r.leftStation
  | .rightStation => r.rightStation
  | .cage => r.cage

/-- The three monitors in the order of the loop, over one snapshot of the ports. -/
def placesPass (s : Ports) (clock : Place → Clock) (m : Place → MonitorState) :
    (Place → MonitorState) × List Publication :=
  (fun a => (a.mqttMonitor s (clock a) (m a)).1,
    (Place.leftStation.mqttMonitor s (clock .leftStation) (m .leftStation)).2 ++
      (Place.rightStation.mqttMonitor s (clock .rightStation) (m .rightStation)).2 ++
      (Place.cage.mqttMonitor s (clock .cage) (m .cage)).2)

structure PlacesPass where
  ports : Ports
  clock : Place → Clock

structure PlacesWorld where
  monitors : Place → MonitorState
  published : List Publication

def PlacesWorld.step (w : PlacesWorld) (p : PlacesPass) : PlacesWorld :=
  let pass := placesPass p.ports p.clock w.monitors
  ⟨pass.1, w.published ++ pass.2⟩

def runPlaces (passes : List PlacesPass) : PlacesWorld :=
  passes.foldl PlacesWorld.step ⟨initialMonitors.places, []⟩

/-- Under each name the last value is the presence of a part. -/
def PresenceCurrent (s : Ports) (log : List Publication) : Prop :=
  ∀ a : Place, LastUnder a.hasPart (a.presence s) log

/-- A pass that, as the first one, publishes the presence in the cage: there is a part, or the
    clock moves by more than ten seconds while the monitor reads it twice. -/
def CageReported (p : PlacesPass) : Prop :=
  isPartInCage p.ports = true ∨
    milliseconds ((p.clock .cage).current - (p.clock .cage).initial) > 10000

instance (p : PlacesPass) : Decidable (CageReported p) := inferInstanceAs (Decidable (_ ∨ _))

theorem runPlaces_snoc (passes : List PlacesPass) (p : PlacesPass) :
    runPlaces (passes ++ [p]) = (runPlaces passes).step p := by
  rw [runPlaces, List.foldl_append]
  rfl

/-! ## The readings of a monitor -/

def Place.readings : Place → Ports → List Reading
  | .leftStation => leftStationReadings
  | .rightStation => rightStationReadings
  | .cage => cageReadings

theorem Place.mqttMonitor_eq (a : Place) (s : Ports) :
    a.mqttMonitor s = monitor (a.readings s) := by
  cases a <;> rfl

theorem Place.presence_mem (a : Place) (s : Ports) : (a.hasPart, a.presence s) ∈ a.readings s := by
  cases a with
  | leftStation => exact List.mem_cons_of_mem _ List.mem_cons_self
  | rightStation => exact List.mem_cons_of_mem _ List.mem_cons_self
  | cage => exact List.mem_cons_self

/-- A reading is the presence, or the direction of a station. -/
theorem Place.mem_readings {a : Place} {s : Ports} {r : Reading} (h : r ∈ a.readings s) :
    r = (a.hasPart, a.presence s) ∨
      r.1 ∈ ["left_station_direction", "right_station_direction"] := by
  cases a with
  | leftStation =>
    obtain rfl | h := List.mem_cons.mp h
    · exact .inr List.mem_cons_self
    · exact .inl (List.mem_singleton.mp h)
  | rightStation =>
    obtain rfl | h := List.mem_cons.mp h
    · exact .inr (List.mem_cons_of_mem _ List.mem_cons_self)
    · exact .inl (List.mem_singleton.mp h)
  | cage => exact .inl (List.mem_singleton.mp h)

/-- Equal readings are equal presences. -/
theorem Place.presence_of_readings {a : Place} {s t : Ports}
    (h : (a.readings s).map Prod.snd = (a.readings t).map Prod.snd) :
    a.presence s = a.presence t := by
  cases a with
  | leftStation => exact (List.cons.inj (List.cons.inj h).2).1
  | rightStation => exact (List.cons.inj (List.cons.inj h).2).1
  | cage => exact (List.cons.inj h).1

/-- The static direction -9999 of the stations is no reading. -/
theorem Place.readings_ne_initial {a : Place} (ha : a ≠ .cage) (s : Ports) :
    (a.readings s).map Prod.snd ≠ (initialMonitors.places a).previous := by
  intro h
  cases a with
  | leftStation =>
    have hne : getLeftStationDirection s ≠ -9999 :=
      directionOf_ne (by decide) (by decide) (by decide)
    exact hne (List.cons.inj h).1
  | rightStation =>
    have hne : getRightStationDirection s ≠ -9999 :=
      directionOf_ne (by decide) (by decide) (by decide)
    exact hne (List.cons.inj h).1
  | cage => exact ha rfl

theorem publishes_cage_iff (p : PlacesPass) :
    publishes (Place.cage.readings p.ports) (p.clock .cage) (initialMonitors.places .cage) ↔
      CageReported p := by
  unfold publishes CageReported
  apply or_congr
  · show [if isPartInCage p.ports then (1 : Int) else 0] ≠ [0] ↔ _
    cases isPartInCage p.ports <;> decide
  · rfl

/-! ## One pass -/

/-- The three calls of a pass. -/
def placeCalls (s : Ports) (clock : Place → Clock) (m : Place → MonitorState) : List Call :=
  [Place.leftStation, .rightStation, .cage].map fun a => ⟨a.readings s, clock a, m a⟩

theorem placesPass_published (s : Ports) (clock : Place → Clock) (m : Place → MonitorState) :
    (placesPass s clock m).2 = (placeCalls s clock m).flatMap Call.published := by
  simp [placesPass, placeCalls, Call.published, Place.mqttMonitor_eq]

theorem mem_placeCalls (a : Place) (s : Ports) (clock : Place → Clock)
    (m : Place → MonitorState) : ⟨a.readings s, clock a, m a⟩ ∈ placeCalls s clock m := by
  refine List.mem_map.mpr ⟨a, ?_, rfl⟩
  cases a <;> simp

theorem Place.unquoted_hasPart (a : Place) : '"' ∉ a.hasPart.toList := by cases a <;> decide

theorem Place.hasPart_injective {a b : Place} (h : a.hasPart = b.hasPart) : a = b := by
  revert h
  cases a <;> cases b <;> decide

theorem Place.hasPart_ne_direction (a : Place) :
    a.hasPart ∉ ["left_station_direction", "right_station_direction"] := by
  cases a <;> decide

theorem unquoted_placeCalls (s : Ports) (clock : Place → Clock) (m : Place → MonitorState) :
    ∀ c ∈ placeCalls s clock m, Unquoted c.readings := by
  have hdirections : ∀ name ∈ ["left_station_direction", "right_station_direction"],
      '"' ∉ name.toList := by decide
  intro c hc r hr
  obtain ⟨a, -, rfl⟩ := List.mem_map.mp hc
  obtain rfl | hr := a.mem_readings hr
  · exact a.unquoted_hasPart
  · exact hdirections _ hr

/-- In a pass only the own monitor publishes the presence at a place. -/
theorem placeCalls_sole (a : Place) (s : Ports) (clock : Place → Clock)
    (m : Place → MonitorState) :
    ∀ c ∈ placeCalls s clock m, ∀ r ∈ c.readings, r.1 = a.hasPart → r.2 = a.presence s := by
  intro c hc r hr hname
  obtain ⟨b, -, rfl⟩ := List.mem_map.mp hc
  obtain rfl | hr := b.mem_readings hr
  · rw [Place.hasPart_injective hname]
  · rw [hname] at hr
    exact absurd hr a.hasPart_ne_direction

/-- A pass in which the own monitor publishes, or where what was published last is still the
    presence, leaves the presence as the last value. -/
theorem PlacesWorld.lastUnder_step {w : PlacesWorld} (p : PlacesPass) (a : Place)
    (h : ¬ publishes (a.readings p.ports) (p.clock a) (w.monitors a) →
      LastUnder a.hasPart (a.presence p.ports) w.published) :
    LastUnder a.hasPart (a.presence p.ports) (w.step p).published := by
  rw [PlacesWorld.step, placesPass_published]
  exact lastUnder_calls a.unquoted_hasPart (unquoted_placeCalls _ _ _)
    (fun c hc _ => placeCalls_sole a _ _ _ c hc) (mem_placeCalls a ..) (a.presence_mem _) h

theorem PlacesWorld.previous_step (w : PlacesWorld) (p : PlacesPass) (a : Place) :
    ((w.step p).monitors a).previous = (a.readings p.ports).map Prod.snd := by
  show (a.mqttMonitor p.ports (p.clock a) (w.monitors a)).1.previous = _
  rw [Place.mqttMonitor_eq, monitor_previous]

/-- The axes publish under other names. -/
theorem hasPart_not_mem_axes (a : Place) {s : Ports} {clock : PerMonitor Clock}
    {m : PerMonitor MonitorState} {c : Call} (hc : c ∈ (passCalls s clock m).take 3)
    {r : Reading} (hr : r ∈ c.readings) : a.hasPart ≠ r.1 := by
  simp only [passCalls, List.take_succ_cons, List.take_zero, List.mem_cons, List.not_mem_nil,
    or_false] at hc
  rcases hc with rfl | rfl | rfl <;>
    simp only [xAxisReadings, yAxisReadings, zAxisReadings, List.mem_cons, List.not_mem_nil,
      or_false] at hr <;>
    rcases hr with rfl | rfl <;> cases a <;> simp [Place.hasPart]

/-- A pass of the server's loop is publications under other names, followed by a pass of the
    places. -/
theorem monitoringPass_places (s : Ports) (clock : PerMonitor Clock)
    (m : PerMonitor MonitorState) :
    (monitoringPass s clock m).1.places = (placesPass s clock.places m.places).1 ∧
      ∃ before, (monitoringPass s clock m).2 = before ++ (placesPass s clock.places m.places).2 ∧
        ∀ (a : Place) (v : Int), sensorPublication a.hasPart v ∉ before := by
  refine ⟨funext fun a => by cases a <;> rfl,
    ((passCalls s clock m).take 3).flatMap Call.published, ?_, ?_⟩
  · rw [monitoringPass_published, placesPass_published]
    have hdrop : (passCalls s clock m).drop 3 = placeCalls s clock.places m.places := rfl
    rw [← hdrop, ← List.flatMap_append, List.take_append_drop]
  · intro a v hmem
    obtain ⟨c, hc, hpub⟩ := List.mem_flatMap.mp hmem
    obtain ⟨r, hr, heq⟩ := mem_published_call hpub
    have hquote := unquoted_passCalls c (List.mem_of_mem_take hc) r hr
    exact hasPart_not_mem_axes a hc hr (sensorPublication_name a.unquoted_hasPart hquote heq)

/-! ## Runs -/

/-- After every pass of a run the last value is the presence, for the cage if the first pass
    publishes it. -/
theorem lastUnder_runPlaces (pre : List PlacesPass) (p : PlacesPass) (a : Place)
    (h : a = .cage → ∀ first, (pre ++ [p]).head? = some first → CageReported first) :
    LastUnder a.hasPart (a.presence p.ports) (runPlaces (pre ++ [p])).published := by
  induction pre using List.reverseRecOn generalizing p with
  | nil =>
    rw [runPlaces_snoc]
    refine PlacesWorld.lastUnder_step p a fun hquiet => absurd ?_ hquiet
    by_cases ha : a = .cage
    · subst ha
      exact (publishes_cage_iff p).mpr (h rfl p rfl)
    · exact .inl (Place.readings_ne_initial ha p.ports)
  | append_singleton pre q ih =>
    rw [runPlaces_snoc]
    refine PlacesWorld.lastUnder_step p a fun hquiet => ?_
    -- the readings are those of the pass before, which left its presence as the last value
    have hlast := ih q fun ha first hfirst => h ha first (by
      rw [List.head?_append, hfirst, Option.some_or])
    rw [publishes, not_or, not_not, runPlaces_snoc, PlacesWorld.previous_step] at hquiet
    rwa [Place.presence_of_readings hquiet.1]

/-- Without a publication in the first pass there is no value for the cage. -/
theorem cageReported_of_current {p : PlacesPass}
    (h : PresenceCurrent p.ports (runPlaces [p]).published) : CageReported p := by
  by_contra hquiet
  obtain ⟨pre, post, hlog, -⟩ := h .cage
  have hmem : sensorPublication "cage_has_part" (Place.cage.presence p.ports) ∈
      (placeCalls p.ports p.clock initialMonitors.places).flatMap Call.published := by
    have hrun : (runPlaces [p]).published =
        (placesPass p.ports p.clock initialMonitors.places).2 := List.nil_append _
    rw [← placesPass_published, ← hrun, hlog]
    exact List.mem_append_right _ List.mem_cons_self
  obtain ⟨c, hc, hpub⟩ := List.mem_flatMap.mp hmem
  obtain ⟨r, hr, heq⟩ := mem_published_call hpub
  have hname : Place.cage.hasPart = r.1 := sensorPublication_name Place.cage.unquoted_hasPart
    (unquoted_placeCalls _ _ _ c hc r hr) heq
  obtain ⟨a, -, rfl⟩ := List.mem_map.mp hc
  obtain rfl | hr := a.mem_readings hr
  · -- the monitor of the cage itself has published
    obtain rfl := Place.hasPart_injective hname
    unfold Call.published monitor at hpub
    rw [if_neg (fun hp => hquiet ((publishes_cage_iff p).mp hp))] at hpub
    cases hpub
  · rw [← hname] at hr
    exact absurd hr Place.cage.hasPart_ne_direction

/-- The presence telemetry is current after every pass of a run exactly if the first pass
    publishes the presence in the cage. -/
theorem presence_current_iff (passes : List PlacesPass) :
    (∀ pre p, pre ++ [p] <+: passes →
        PresenceCurrent p.ports (runPlaces (pre ++ [p])).published) ↔
      ∀ first, passes.head? = some first → CageReported first := by
  constructor
  · intro h first hfirst
    obtain ⟨rest, rfl⟩ := List.head?_eq_some_iff.mp hfirst
    exact cageReported_of_current (h [] first ⟨rest, rfl⟩)
  · intro h pre p hprefix a
    obtain ⟨post, rfl⟩ := hprefix
    refine lastUnder_runPlaces pre p a fun _ first hfirst => h first ?_
    rw [List.head?_append, hfirst, Option.some_or]

/-- A first pass over an empty cage, five milliseconds after the start of the clock. -/
def emptyCage : PlacesPass := ⟨fun _ => 0, fun _ => ⟨0, 50000⟩⟩

/-- The stations are published, the cage is not. -/
theorem empty_cage_not_published :
    (runPlaces [emptyCage]).published =
        [sensorPublication "left_station_direction" 0, sensorPublication "left_station_has_part" 0,
          sensorPublication "right_station_direction" 0,
          sensorPublication "right_station_has_part" 0] ∧
      ¬ PresenceCurrent emptyCage.ports (runPlaces [emptyCage]).published := by
  refine ⟨by decide, fun h => ?_⟩
  exact absurd (cageReported_of_current h) (by decide)

end SmartWarehouse.Server
