/-
  Position telemetry: what the X, Y and Z monitors publish as `x_is_at`, `y_is_at` and
  `z_is_at`, compared with the results that `localControl.h` documents for the getters.

  The documented results are positions on a scale of their own (`Axis.Documented`, over the
  rationals, because Z has half steps). Two readings fall short of it: the loop of
  `getYPosition` ends before the third sensor, and the Z monitor stores the `float` of
  `getZPosition` in an `int`. `positions_exact_iff` says that nothing else does: a run
  publishes every position exactly if none of its snapshots has that sensor of Y or a half
  step of Z active.
-/
import SmartWarehouse.Server.Telemetry
import Mathlib.Algebra.Order.Field.Rat
import Mathlib.Data.List.Induction
import Mathlib.Tactic.Linarith
import Mathlib.Tactic.Ring

namespace SmartWarehouse.Server

/-! ## Sensors and documented positions -/

inductive Axis
  | x | y | z
deriving DecidableEq, Repr

/-- The position sensors of an axis, in the order of the positions. -/
def Axis.sensors : Axis → List Line
  | .x => [(0, 0), (0, 1), (0, 2), (0, 3), (0, 4), (0, 5), (0, 6), (0, 7), (1, 0), (1, 1)]
  | .y => [(1, 4), (1, 3), (1, 2)]
  | .z => [(2, 6), (2, 5), (2, 4), (2, 3), (2, 2), (2, 1), (2, 0), (1, 7), (1, 6), (1, 5)]

abbrev Axis.Sensor (a : Axis) := Fin a.sensors.length

/-- The distance of neighbouring positions. -/
def Axis.pitch : Axis → ℚ
  | .x => 1
  | .y => 1
  | .z => 1 / 2

/-- The documented positions: 1, 2, …, 10 of X, then 1, 2, 3 of Y and 1, 1.5, …, 5.5 of Z. -/
def Axis.position (a : Axis) (i : Nat) : ℚ := 1 + i * a.pitch

/-- Sensors are active low. -/
def Axis.Active (a : Axis) (s : Ports) (i : a.Sensor) : Prop :=
  getBitValue (s (a.sensors.get i).1) (a.sensors.get i).2 = 0

instance (a : Axis) (s : Ports) (i : a.Sensor) : Decidable (a.Active s i) :=
  inferInstanceAs (Decidable (_ = 0))

def Axis.AtMostOneActive (a : Axis) (s : Ports) : Prop :=
  ∀ i j, a.Active s i → a.Active s j → i = j

instance (a : Axis) (s : Ports) : Decidable (a.AtMostOneActive s) :=
  inferInstanceAs (Decidable (∀ i j, a.Active s i → a.Active s j → i = j))

/-- The documented result of the getter: the position of an active sensor, -1 without one. -/
def Axis.Documented (a : Axis) (s : Ports) (q : ℚ) : Prop :=
  (∃ i, a.Active s i ∧ q = a.position i) ∨ (∀ i, ¬ a.Active s i) ∧ q = -1

/-! ## Passes of the three monitors -/

def Axis.mqttMonitor : Axis → Ports → Clock → MonitorState → MonitorState × List Publication
  | .x => mqttMonitorXAxis
  | .y => mqttMonitorYAxis
  | .z => mqttMonitorZAxis

/-- The name of the axis' position on topic `sensor`. -/
def Axis.isAt : Axis → String
  | .x => "x_is_at"
  | .y => "y_is_at"
  | .z => "z_is_at"

/-- The part of a record that belongs to the axes. -/
def PerMonitor.axes {α : Type} (r : PerMonitor α) : Axis → α
  | .x => r.x
  | .y => r.y
  | .z => r.z

/-- The three monitors in the order of the loop, over one snapshot of the ports. -/
def axesPass (s : Ports) (clock : Axis → Clock) (m : Axis → MonitorState) :
    (Axis → MonitorState) × List Publication :=
  (fun a => (a.mqttMonitor s (clock a) (m a)).1,
    (Axis.x.mqttMonitor s (clock .x) (m .x)).2 ++ (Axis.y.mqttMonitor s (clock .y) (m .y)).2 ++
      (Axis.z.mqttMonitor s (clock .z) (m .z)).2)

structure Pass where
  ports : Ports
  clock : Axis → Clock

structure AxesWorld where
  monitors : Axis → MonitorState
  published : List Publication

def AxesWorld.step (w : AxesWorld) (p : Pass) : AxesWorld :=
  let pass := axesPass p.ports p.clock w.monitors
  ⟨pass.1, w.published ++ pass.2⟩

def runPasses (passes : List Pass) : AxesWorld :=
  passes.foldl AxesWorld.step ⟨initialMonitors.axes, []⟩

/-- Under each name the last value is the documented position. -/
def PositionsExact (s : Ports) (log : List Publication) : Prop :=
  ∀ a : Axis, ∃ v : Int, LastUnder a.isAt v log ∧ a.Documented s v

/-- The positions that arrive on topic `sensor`: not the third of Y, no half step of Z. -/
def Axis.Shown : Axis → Nat → Prop
  | .x, _ => True
  | .y, i => i < 2
  | .z, i => i % 2 = 0

instance (a : Axis) (i : Nat) : Decidable (a.Shown i) :=
  match a with
  | .x => inferInstanceAs (Decidable True)
  | .y => inferInstanceAs (Decidable (i < 2))
  | .z => inferInstanceAs (Decidable (i % 2 = 0))

theorem runPasses_snoc (passes : List Pass) (p : Pass) :
    runPasses (passes ++ [p]) = (runPasses passes).step p := by
  rw [runPasses, List.foldl_append]
  rfl

/-! ## The readings of a monitor -/

/-- The value that the axis' monitor publishes as position. -/
def Axis.reading : Axis → Ports → Int
  | .x, s => getXPosition s
  | .y, s => getYPosition s
  | .z, s => (getZPosition s).tdiv 2

def Axis.direction : Axis → Ports → Int
  | .x => getXDirection
  | .y => getYDirection
  | .z => getZDirection

def Axis.readings (a : Axis) (s : Ports) : List Reading :=
  [(a.isAt, a.reading s), ("x_direction", a.direction s)]

theorem Axis.mqttMonitor_eq (a : Axis) (s : Ports) : a.mqttMonitor s = monitor (a.readings s) := by
  cases a <;> rfl

/-- How many sensors the getter's loop visits. -/
def Axis.visited : Axis → Nat
  | .x => 10
  | .y => 2
  | .z => 10

/-- The value published for the index that a scan returns. -/
def Axis.shown : Axis → Option Nat → Int
  | .x, some i => i + 1
  | .y, some i => i + 1
  | .z, some i => (i + 2 : Int).tdiv 2
  | _, none => -1

theorem Axis.reading_eq (a : Axis) (s : Ports) :
    a.reading s = a.shown (scanSensors s (a.sensors.take a.visited)) := by
  cases a with
  | x =>
    show getXPosition s = Axis.x.shown (scanSensors s (Axis.x.sensors.take 10))
    unfold getXPosition
    dsimp only
    split <;> rename_i h <;> rw [show scanSensors s (Axis.x.sensors.take 10) = _ from h] <;> rfl
  | y =>
    show getYPosition s = Axis.y.shown (scanSensors s (Axis.y.sensors.take 2))
    unfold getYPosition
    dsimp only
    split <;> rename_i h <;> rw [show scanSensors s (Axis.y.sensors.take 2) = _ from h] <;> rfl
  | z =>
    show (getZPosition s).tdiv 2 = Axis.z.shown (scanSensors s (Axis.z.sensors.take 10))
    unfold getZPosition
    dsimp only
    split <;> rename_i h <;> rw [show scanSensors s (Axis.z.sensors.take 10) = _ from h] <;> rfl

/-- A scan of the first `n` sensors finds an active one among them. -/
theorem Axis.active_of_scan {a : Axis} {s : Ports} {n i : Nat}
    (h : scanSensors s (a.sensors.take n) = some i) :
    i < n ∧ ∃ hi : i < a.sensors.length, a.Active s ⟨i, hi⟩ := by
  obtain ⟨hlt, hact, -⟩ := List.findIdx?_eq_some_iff_getElem.mp h
  rw [List.length_take, Nat.lt_min] at hlt
  refine ⟨hlt.1, hlt.2, ?_⟩
  simpa [Axis.Active] using hact

theorem Axis.not_active_of_scan {a : Axis} {s : Ports} {n : Nat}
    (h : scanSensors s (a.sensors.take n) = none) (i : a.Sensor) (hi : i.val < n) :
    ¬ a.Active s i := by
  intro hact
  have hmem : a.sensors.get i ∈ a.sensors.take n :=
    List.mem_take_iff_getElem.mpr ⟨i, by simp [hi], by simp⟩
  have hne := List.findIdx?_eq_none_iff.mp h _ hmem
  exact absurd hact (by simpa [Axis.Active] using hne)

theorem Axis.Shown.lt_visited {a : Axis} {i : a.Sensor} (h : a.Shown i) : i.val < a.visited := by
  cases a with
  | x => exact i.isLt
  | y => exact h
  | z => exact i.isLt

theorem Axis.shown_eq_position {a : Axis} {i : Nat} (h : a.Shown i) :
    (a.shown (some i) : ℚ) = a.position i := by
  cases a with
  | x => simp [Axis.shown, Axis.position, Axis.pitch, add_comm]
  | y => simp [Axis.shown, Axis.position, Axis.pitch, add_comm]
  | z =>
    obtain ⟨k, rfl⟩ : ∃ k, i = 2 * k := ⟨i / 2, by have : i % 2 = 0 := h; omega⟩
    have hk : ((2 * k : Nat) + 2 : Int).tdiv 2 = k + 1 := by
      rw [show ((2 * k : Nat) + 2 : Int) = (k + 1) * 2 by push_cast; ring]
      exact Int.mul_tdiv_cancel _ (by decide)
    simp only [Axis.shown, Axis.position, Axis.pitch]
    rw [hk]
    push_cast
    linarith

/-- While only positions that arrive are taken, the monitor reads the documented position. -/
theorem Axis.documented_reading {a : Axis} {s : Ports} (h : ∀ i, a.Active s i → a.Shown i) :
    a.Documented s (a.reading s) := by
  rw [Axis.reading_eq]
  cases hscan : scanSensors s (a.sensors.take a.visited) with
  | none =>
    refine .inr ⟨fun i hi => ?_, by cases a <;> simp [Axis.shown]⟩
    exact Axis.not_active_of_scan hscan i (h i hi).lt_visited hi
  | some i =>
    obtain ⟨-, hlt, hact⟩ := Axis.active_of_scan hscan
    exact .inl ⟨⟨i, hlt⟩, hact, Axis.shown_eq_position (h _ hact)⟩

/-! ## The last value under the name of a position -/

/-- The three calls of a pass. -/
def axisCalls (s : Ports) (clock : Axis → Clock) (m : Axis → MonitorState) : List Call :=
  [Axis.x, .y, .z].map fun a => ⟨a.readings s, clock a, m a⟩

theorem axesPass_published (s : Ports) (clock : Axis → Clock) (m : Axis → MonitorState) :
    (axesPass s clock m).2 = (axisCalls s clock m).flatMap Call.published := by
  simp [axesPass, axisCalls, Call.published, Axis.mqttMonitor_eq]

theorem mem_axisCalls (a : Axis) (s : Ports) (clock : Axis → Clock) (m : Axis → MonitorState) :
    ⟨a.readings s, clock a, m a⟩ ∈ axisCalls s clock m := by
  refine List.mem_map.mpr ⟨a, ?_, rfl⟩
  cases a <;> simp

theorem Axis.unquoted_isAt (a : Axis) : '"' ∉ a.isAt.toList := by cases a <;> decide

theorem unquoted_axisCalls (s : Ports) (clock : Axis → Clock) (m : Axis → MonitorState) :
    ∀ c ∈ axisCalls s clock m, Unquoted c.readings := by
  intro c hc r hr
  obtain ⟨a, -, rfl⟩ := List.mem_map.mp hc
  simp only [Axis.readings, List.mem_cons, List.not_mem_nil, or_false] at hr
  rcases hr with rfl | rfl
  · exact a.unquoted_isAt
  · exact (by decide : '"' ∉ "x_direction".toList)

theorem Axis.isAt_injective {a b : Axis} (h : a.isAt = b.isAt) : a = b := by
  revert h
  cases a <;> cases b <;> decide

theorem Axis.isAt_ne_direction (a : Axis) : a.isAt ≠ "x_direction" := by cases a <;> decide

/-- In a pass only the axis' own monitor publishes its position. -/
theorem axisCalls_sole (a : Axis) (s : Ports) (clock : Axis → Clock) (m : Axis → MonitorState) :
    ∀ c ∈ axisCalls s clock m, ∀ r ∈ c.readings, r.1 = a.isAt → r.2 = a.reading s := by
  intro c hc r hr hname
  obtain ⟨b, -, rfl⟩ := List.mem_map.mp hc
  simp only [Axis.readings, List.mem_cons, List.not_mem_nil, or_false] at hr
  rcases hr with rfl | rfl
  · rw [Axis.isAt_injective hname]
  · exact absurd hname.symm a.isAt_ne_direction

/-- Readings equal to the statics were published. -/
def AxesWorld.Remembers (w : AxesWorld) : Prop :=
  ∀ (a : Axis) (s : Ports), (a.readings s).map Prod.snd = (w.monitors a).previous →
    LastUnder a.isAt (a.reading s) w.published

theorem Axis.direction_ne (a : Axis) (s : Ports) : a.direction s ≠ -9999 := by
  cases a <;> exact directionOf_ne (by decide) (by decide) (by decide)

/-- The static direction -9999 is no reading, so the first pass publishes. -/
theorem remembers_initial : (runPasses []).Remembers := by
  intro a s h
  refine absurd ?_ (a.direction_ne s)
  cases a <;> exact (List.cons.inj (List.cons.inj h).2).1

/-- After a pass the readings of its snapshot are the values published last. -/
theorem AxesWorld.lastUnder_step {w : AxesWorld} (h : w.Remembers) (p : Pass) (a : Axis) :
    LastUnder a.isAt (a.reading p.ports) (w.step p).published := by
  rw [AxesWorld.step, axesPass_published]
  exact lastUnder_calls a.unquoted_isAt (unquoted_axisCalls _ _ _)
    (fun c hc _ => axisCalls_sole a _ _ _ c hc) (mem_axisCalls a ..) (by simp [Axis.readings])
    fun hp => h a _ (Call.previous_of_not_publishes hp)

theorem AxesWorld.remembers_step {w : AxesWorld} (h : w.Remembers) (p : Pass) :
    (w.step p).Remembers := by
  intro a s hs
  have hprev : ((w.step p).monitors a).previous = (a.readings p.ports).map Prod.snd := by
    show (a.mqttMonitor p.ports (p.clock a) (w.monitors a)).1.previous = _
    rw [Axis.mqttMonitor_eq, monitor_previous]
  have heq : a.reading s = a.reading p.ports := (List.cons.inj (hs.trans hprev)).1
  rw [heq]
  exact AxesWorld.lastUnder_step h p a

theorem remembers_run (passes : List Pass) : (runPasses passes).Remembers := by
  induction passes using List.reverseRecOn with
  | nil => exact remembers_initial
  | append_singleton pre p ih =>
    rw [runPasses_snoc]
    exact AxesWorld.remembers_step ih p

/-- After every pass of every run the readings of its snapshot are the values published last. -/
theorem lastUnder_runPasses (pre : List Pass) (p : Pass) (a : Axis) :
    LastUnder a.isAt (a.reading p.ports) (runPasses (pre ++ [p])).published := by
  rw [runPasses_snoc]
  exact AxesWorld.lastUnder_step (remembers_run pre) p a

/-- The stations and the cage publish under other names. -/
theorem isAt_not_mem_others (a : Axis) {s : Ports} {clock : PerMonitor Clock}
    {m : PerMonitor MonitorState} {c : Call} (hc : c ∈ (passCalls s clock m).drop 3)
    {r : Reading} (hr : r ∈ c.readings) : a.isAt ≠ r.1 := by
  simp only [passCalls, List.drop_succ_cons, List.drop_zero, List.mem_cons, List.not_mem_nil,
    or_false] at hc
  rcases hc with rfl | rfl | rfl <;>
    simp only [leftStationReadings, rightStationReadings, cageReadings, List.mem_cons,
      List.not_mem_nil, or_false] at hr <;>
    rcases hr with rfl | rfl <;> cases a <;> simp [Axis.isAt]

/-- A pass of the server's loop is a pass of the axes, followed by publications under other
    names. -/
theorem monitoringPass_axes (s : Ports) (clock : PerMonitor Clock)
    (m : PerMonitor MonitorState) :
    (monitoringPass s clock m).1.axes = (axesPass s clock.axes m.axes).1 ∧
      ∃ rest, (monitoringPass s clock m).2 = (axesPass s clock.axes m.axes).2 ++ rest ∧
        ∀ (a : Axis) (v : Int), sensorPublication a.isAt v ∉ rest := by
  refine ⟨funext fun a => by cases a <;> rfl,
    ((passCalls s clock m).drop 3).flatMap Call.published, ?_, ?_⟩
  · rw [monitoringPass_published, axesPass_published]
    have htake : (passCalls s clock m).take 3 = axisCalls s clock.axes m.axes := rfl
    rw [← htake, ← List.flatMap_append, List.take_append_drop]
  · intro a v hmem
    obtain ⟨c, hc, hpub⟩ := List.mem_flatMap.mp hmem
    obtain ⟨r, hr, heq⟩ := mem_published_call hpub
    have hquote := unquoted_passCalls c (List.mem_of_mem_drop hc) r hr
    exact isAt_not_mem_others a hc hr (sensorPublication_name a.unquoted_isAt hquote heq)

/-! ## When the positions are exact -/

theorem positionsExact_of_shown {s : Ports} {log : List Publication}
    (hlast : ∀ a : Axis, LastUnder a.isAt (a.reading s) log)
    (h : ∀ (a : Axis) (i : a.Sensor), a.Active s i → a.Shown i) : PositionsExact s log :=
  fun a => ⟨a.reading s, hlast a, Axis.documented_reading (h a)⟩

/-- With one active sensor the documented result is its position. -/
theorem Axis.Documented.eq_position {a : Axis} {s : Ports} (h : a.AtMostOneActive s)
    {i : a.Sensor} (hi : a.Active s i) {q : ℚ} (hq : a.Documented s q) : q = a.position i := by
  rcases hq with ⟨j, hj, rfl⟩ | ⟨hno, -⟩
  · rw [h i j hi hj]
  · exact absurd hi (hno i)

/-- The third sensor of Y is never visited. -/
theorem reading_y_third {s : Ports} (h : Axis.y.AtMostOneActive s) {i : Axis.y.Sensor}
    (hi : Axis.y.Active s i) (hthird : ¬ i.val < 2) : Axis.y.reading s = -1 := by
  rw [Axis.reading_eq]
  cases hscan : scanSensors s (Axis.y.sensors.take Axis.y.visited) with
  | none => rfl
  | some j =>
    obtain ⟨hlt, hj, hact⟩ := Axis.active_of_scan hscan
    have heq := h i ⟨j, hj⟩ hi hact
    rw [heq] at hthird
    exact absurd hlt hthird

theorem shown_of_exact {s : Ports} {log : List Publication} {a : Axis}
    (h : a.AtMostOneActive s) (hlast : LastUnder a.isAt (a.reading s) log)
    (hexact : ∃ v : Int, LastUnder a.isAt v log ∧ a.Documented s v) (i : a.Sensor)
    (hi : a.Active s i) : a.Shown i := by
  obtain ⟨v, hv, hdoc⟩ := hexact
  have hpos := hdoc.eq_position h hi
  cases a with
  | x => trivial
  | y =>
    by_contra hno
    have hno : ¬ i.val < 2 := hno
    have hlt : i.val < 3 := i.isLt
    have hi2 : i.val = 2 := by omega
    have hv3 : v = 3 := by
      rw [hi2] at hpos
      simp only [Axis.position, Axis.pitch] at hpos
      norm_num at hpos
      exact_mod_cast hpos
    rw [reading_y_third h hi hno] at hlast
    rw [hv3] at hv
    exact absurd (hv.unique hlast) (by decide)
  | z =>
    by_contra hno
    have hodd : i.val % 2 ≠ 0 := hno
    have htwice : ((2 * v : Int) : ℚ) = ((i.val + 2 : Int) : ℚ) := by
      simp only [Axis.position, Axis.pitch] at hpos
      push_cast
      linarith
    have : 2 * v = (i.val : Int) + 2 := by exact_mod_cast htwice
    omega

/-- The positions are exact after every pass exactly if no snapshot has the third sensor of Y
    or a half step of Z active. -/
theorem positions_exact_iff (passes : List Pass)
    (hone : ∀ p ∈ passes, ∀ a : Axis, a.AtMostOneActive p.ports) :
    (∀ pre p, pre ++ [p] <+: passes →
        PositionsExact p.ports (runPasses (pre ++ [p])).published) ↔
      ∀ p ∈ passes, ∀ (a : Axis) (i : a.Sensor), a.Active p.ports i → a.Shown i := by
  constructor
  · intro h p hp a i hi
    obtain ⟨pre, post, rfl⟩ := List.append_of_mem hp
    have hexact := h pre p ⟨post, by simp⟩
    exact shown_of_exact (hone p hp a) (lastUnder_runPasses pre p a) (hexact a) i hi
  · intro h pre p hprefix
    have hp : p ∈ passes := hprefix.subset (by simp)
    exact positionsExact_of_shown (lastUnder_runPasses pre p) (h p hp)

/-- A snapshot with the three bytes of the sensor ports. -/
def sensorPorts (p0 p1 p2 : BitVec 8) : Ports :=
  fun p => if p = 0 then p0 else if p = 1 then p1 else p2

/-- All axes in position 1, then X between two positions and Y and Z in position 2. -/
theorem positions_exact_second :
    PositionsExact (sensorPorts 0xFF 0xF7 0xEF)
      (runPasses [⟨sensorPorts 0xFE 0xEF 0xBF, fun _ => ⟨0, 0⟩⟩,
        ⟨sensorPorts 0xFF 0xF7 0xEF, fun _ => ⟨0, 5⟩⟩]).published := by
  refine (positions_exact_iff [⟨sensorPorts 0xFE 0xEF 0xBF, fun _ => ⟨0, 0⟩⟩,
    ⟨sensorPorts 0xFF 0xF7 0xEF, fun _ => ⟨0, 5⟩⟩] ?_).mpr ?_ [_] _ List.prefix_rfl
  · simp only [List.forall_mem_cons]
    refine ⟨fun a => ?_, fun a => ?_, by simp⟩ <;> cases a <;> decide
  · simp only [List.forall_mem_cons]
    refine ⟨fun a => ?_, fun a => ?_, by simp⟩ <;> cases a <;> decide

/-- Y outside, Z half a step up: published as -1 and 1. -/
theorem half_step_published_whole :
    (∀ a : Axis, a.AtMostOneActive (sensorPorts 0xFF 0xFB 0xDF)) ∧
      LastUnder "y_is_at" (-1)
        (runPasses [⟨sensorPorts 0xFF 0xFB 0xDF, fun _ => ⟨0, 0⟩⟩]).published ∧
      LastUnder "z_is_at" 1
        (runPasses [⟨sensorPorts 0xFF 0xFB 0xDF, fun _ => ⟨0, 0⟩⟩]).published ∧
      ¬ PositionsExact (sensorPorts 0xFF 0xFB 0xDF)
        (runPasses [⟨sensorPorts 0xFF 0xFB 0xDF, fun _ => ⟨0, 0⟩⟩]).published := by
  have hone : ∀ a : Axis, a.AtMostOneActive (sensorPorts 0xFF 0xFB 0xDF) := by
    intro a
    cases a <;> decide
  have hlast := lastUnder_runPasses [] ⟨sensorPorts 0xFF 0xFB 0xDF, fun _ => ⟨0, 0⟩⟩
  refine ⟨hone, hlast .y, hlast .z, fun hexact => ?_⟩
  have hshown := shown_of_exact (hone .y) (hlast .y) (hexact .y) ⟨2, by decide⟩ (by decide)
  exact absurd hshown (by decide)

end SmartWarehouse.Server
