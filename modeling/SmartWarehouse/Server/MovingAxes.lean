/-
  Position telemetry while the ports change.

  A getter reads its ports one after another, and the page may post new values in between, so
  that what it computes with belongs to no single moment. It still returns the position at the
  moment of one of its reads, or -1 (`reading_gather`); and if an axis cannot come from one
  sensor to another without a moment at none, every result is the position at some moment
  between the first and the last read (`reading_linearizes`). The monitors publish no other
  positions, so what arrives on topic `sensor` was posted (`telemetry_shows_posts`).
-/
import SmartWarehouse.Server.FormPosts
import SmartWarehouse.Server.Position

namespace SmartWarehouse.Server

open SmartWarehouse.Lib

/-! ## Reads at several moments -/

/-- The ports that the getter of the position reads, in order. -/
def Axis.portsRead : Axis → List Port
  | .x => [0, 1]
  | .y => [1]
  | .z => [2, 1]

/-- The local variables after reads of ports, each at its own moment. -/
def gather (history : Nat → Ports) (reads : List (Port × Nat)) : Ports :=
  reads.foldl (fun regs r => Function.update regs r.1 (history r.2 r.1)) fun _ => 0

/-- The moments at which a monitor reads: for the position, and port 4 for the direction. -/
structure Moments (a : Axis) where
  position : List Nat
  direction : Nat
  length_eq : position.length = a.portsRead.length
  sorted : (position ++ [direction]).Pairwise (· ≤ ·)

def Axis.gathered (a : Axis) (history : Nat → Ports) (m : Moments a) : Ports :=
  gather history (a.portsRead.zip m.position)

/-- What the monitor of the axis compares and publishes. -/
def Axis.timedReadings (a : Axis) (history : Nat → Ports) (m : Moments a) : List Reading :=
  [(a.isAt, a.reading (a.gathered history m)),
    ("x_direction", a.direction (gather history [(4, m.direction)]))]

structure TimedPass where
  moments : (a : Axis) → Moments a
  clock : Axis → Clock

/-- The three calls of a pass. -/
def timedCalls (history : Nat → Ports) (p : TimedPass) (m : Axis → MonitorState) : List Call :=
  [Axis.x, .y, .z].map fun a => ⟨a.timedReadings history (p.moments a), p.clock a, m a⟩

def AxesWorld.timedStep (history : Nat → Ports) (w : AxesWorld) (p : TimedPass) : AxesWorld where
  monitors a :=
    (monitor (a.timedReadings history (p.moments a)) (p.clock a) (w.monitors a)).1
  published := w.published ++ (timedCalls history p w.monitors).flatMap Call.published

def runTimed (history : Nat → Ports) (passes : List TimedPass) : AxesWorld :=
  passes.foldl (AxesWorld.timedStep history) ⟨initialMonitors.axes, []⟩

/-! ## The position that is read -/

/-- The sensors on the port that is read first. -/
def Axis.near : Axis → List Line
  | .x => [(0, 0), (0, 1), (0, 2), (0, 3), (0, 4), (0, 5), (0, 6), (0, 7)]
  | .y => [(1, 4), (1, 3)]
  | .z => [(2, 6), (2, 5), (2, 4), (2, 3), (2, 2), (2, 1), (2, 0)]

/-- The other sensors that the getter visits. -/
def Axis.far : Axis → List Line
  | .x => [(1, 0), (1, 1)]
  | .y => []
  | .z => [(1, 7), (1, 6), (1, 5)]

theorem Axis.visited_eq (a : Axis) : a.sensors.take a.visited = a.near ++ a.far := by
  cases a <;> rfl

theorem scanSensors_congr {s s' : Ports} {l : List Line} (h : ∀ x ∈ l, s x.1 = s' x.1) :
    scanSensors s l = scanSensors s' l := by
  unfold scanSensors
  induction l with
  | nil => rfl
  | cons x l ih =>
    have hrest := ih fun y hy => h y (List.mem_cons_of_mem _ hy)
    rw [List.findIdx?_cons, List.findIdx?_cons, hrest, h x List.mem_cons_self]

theorem scanSensors_append (s : Ports) (l l' : List Line) :
    scanSensors s (l ++ l') =
      (scanSensors s l).or ((scanSensors s l').map (· + l.length)) := by
  unfold scanSensors
  rw [List.findIdx?_append]

theorem Axis.reading_split (a : Axis) (s : Ports) :
    a.reading s =
      a.shown ((scanSensors s a.near).or ((scanSensors s a.far).map (· + a.near.length))) := by
  rw [Axis.reading_eq, Axis.visited_eq, scanSensors_append]

theorem Axis.shown_none (a : Axis) : a.shown none = -1 := by
  cases a <;> rfl

def LineActive (s : Ports) (l : Line) : Prop := getBitValue (s l.1) l.2 = 0

theorem scanSensors_eq_none {s : Ports} {l : List Line} :
    scanSensors s l = none ↔ ∀ x ∈ l, ¬ LineActive s x := by
  unfold scanSensors LineActive
  rw [List.findIdx?_eq_none_iff]
  simp

theorem exists_active_of_scan {s : Ports} {l : List Line} {i : Nat}
    (h : scanSensors s l = some i) : ∃ x ∈ l, LineActive s x := by
  by_contra hno
  have hnone : scanSensors s l = none := scanSensors_eq_none.mpr fun x hx hact => hno ⟨x, hx, hact⟩
  rw [hnone] at h
  cases h

theorem Axis.near_eq (a : Axis) : a.near = a.sensors.take a.near.length := by
  cases a <;> rfl

theorem Axis.far_subset (a : Axis) : ∀ x ∈ a.far, x ∈ a.sensors.drop a.near.length := by
  cases a <;> decide

/-- The sensors that are read first and the others are not active together. -/
theorem Axis.not_both_active {a : Axis} {s : Ports} (h : a.AtMostOneActive s) {x y : Line}
    (hx : x ∈ a.near) (hy : y ∈ a.far) (hxs : LineActive s x) : ¬ LineActive s y := by
  intro hys
  rw [Axis.near_eq] at hx
  obtain ⟨i, hi, rfl⟩ := List.mem_take_iff_getElem.mp hx
  obtain ⟨j, hj, rfl⟩ := List.mem_drop_iff_getElem.mp (a.far_subset y hy)
  rw [Nat.lt_min] at hi
  have hlt : a.near.length + j < a.sensors.length := by omega
  have heq := h ⟨i, hi.2⟩ ⟨a.near.length + j, hlt⟩ hxs hys
  have hval := congrArg Fin.val heq
  dsimp only at hval
  omega

/-- Of a mixture of two states the getter returns the reading of one of them, or -1 if it saw
    no sensor of the first on the one port and no sensor of the second on the other. -/
theorem Axis.reading_mixed {a : Axis} {r s₀ s₁ : Ports} (hnear : ∀ x ∈ a.near, r x.1 = s₀ x.1)
    (hfar : ∀ x ∈ a.far, r x.1 = s₁ x.1) (hone : a.AtMostOneActive s₁) :
    a.reading r = a.reading s₀ ∨ a.reading r = a.reading s₁ ∨
      (a.reading r = -1 ∧ (∀ x ∈ a.near, ¬ LineActive s₀ x) ∧ ∀ x ∈ a.far, ¬ LineActive s₁ x) := by
  rw [a.reading_split r, a.reading_split s₀, a.reading_split s₁, scanSensors_congr hnear,
    scanSensors_congr hfar]
  cases hscan₀ : scanSensors s₀ a.near with
  | some i => exact .inl rfl
  | none =>
    cases hscan₁ : scanSensors s₁ a.far with
    | some j =>
      obtain ⟨y, hy, hys⟩ := exists_active_of_scan hscan₁
      have hnone : scanSensors s₁ a.near = none :=
        scanSensors_eq_none.mpr fun x hx hxs => Axis.not_both_active hone hx hy hxs hys
      rw [hnone]
      exact .inr (.inl rfl)
    | none =>
      exact .inr (.inr ⟨a.shown_none, scanSensors_eq_none.mp hscan₀, scanSensors_eq_none.mp hscan₁⟩)

/-- The local variables hold one port of one moment, and the other port of a later one. -/
theorem Axis.gathered_cases (a : Axis) (history : Nat → Ports) (m : Moments a) :
    ∃ t₀ ∈ m.position, ∃ t₁ ∈ m.position, t₀ ≤ t₁ ∧
      (∀ x ∈ a.near, a.gathered history m x.1 = history t₀ x.1) ∧
      ∀ x ∈ a.far, a.gathered history m x.1 = history t₁ x.1 := by
  obtain ⟨position, direction, hlength, hsorted⟩ := m
  cases a with
  | x =>
    obtain ⟨t₀, t₁, rfl⟩ := List.length_eq_two.mp hlength
    have hle : t₀ ≤ t₁ := (List.pairwise_cons.mp hsorted).1 t₁ (by simp)
    have hports : (∀ x ∈ Axis.x.near, x.1 = 0) ∧ ∀ x ∈ Axis.x.far, x.1 = 1 := by decide
    refine ⟨t₀, by simp, t₁, by simp, hle, ?_, ?_⟩
    · intro x hx
      rw [hports.1 x hx]
      rfl
    · intro x hx
      rw [hports.2 x hx]
      rfl
  | y =>
    obtain ⟨t₀, rfl⟩ := List.length_eq_one_iff.mp hlength
    have hports : (∀ x ∈ Axis.y.near, x.1 = 1) ∧ ∀ x ∈ Axis.y.far, x.1 = 1 := by decide
    refine ⟨t₀, by simp, t₀, by simp, Nat.le_refl _, ?_, ?_⟩
    · intro x hx
      rw [hports.1 x hx]
      rfl
    · intro x hx
      rw [hports.2 x hx]
      rfl
  | z =>
    obtain ⟨t₀, t₁, rfl⟩ := List.length_eq_two.mp hlength
    have hle : t₀ ≤ t₁ := (List.pairwise_cons.mp hsorted).1 t₁ (by simp)
    have hports : (∀ x ∈ Axis.z.near, x.1 = 2) ∧ ∀ x ∈ Axis.z.far, x.1 = 1 := by decide
    refine ⟨t₀, by simp, t₁, by simp, hle, ?_, ?_⟩
    · intro x hx
      rw [hports.1 x hx]
      rfl
    · intro x hx
      rw [hports.2 x hx]
      rfl

/-- The position that is read is that of the moment of a read, or none. -/
theorem Axis.reading_gather {a : Axis} {history : Nat → Ports} (m : Moments a)
    (hone : ∀ t ∈ m.position, a.AtMostOneActive (history t)) :
    a.reading (a.gathered history m) = -1 ∨
      ∃ t ∈ m.position, a.reading (a.gathered history m) = a.reading (history t) := by
  obtain ⟨t₀, h₀, t₁, h₁, -, hnear, hfar⟩ := a.gathered_cases history m
  obtain h | h | ⟨h, -, -⟩ := Axis.reading_mixed hnear hfar (hone t₁ h₁)
  · exact .inr ⟨t₀, h₀, h⟩
  · exact .inr ⟨t₁, h₁, h⟩
  · exact .inl h

/-- From `t₀` to `t₁` the axis does not come from one sensor to another without a moment at
    none. -/
def Axis.LeavesSensors (a : Axis) (history : Nat → Ports) (t₀ t₁ : Nat) : Prop :=
  ∀ t, t₀ ≤ t → t < t₁ → ∀ i j, a.Active (history t) i → a.Active (history (t + 1)) j → i = j

/-- A position is read while a sensor that the getter visits is active. -/
theorem Axis.active_of_reading {a : Axis} {s : Ports} (h : a.reading s ≠ -1) :
    ∃ i, a.Active s i ∧ a.sensors.get i ∈ a.near ++ a.far := by
  rw [Axis.reading_eq] at h
  cases hscan : scanSensors s (a.sensors.take a.visited) with
  | none =>
    rw [hscan] at h
    exact absurd a.shown_none h
  | some i =>
    obtain ⟨hi, hlt, hact⟩ := Axis.active_of_scan hscan
    refine ⟨⟨i, hlt⟩, hact, ?_⟩
    rw [← Axis.visited_eq]
    exact List.mem_take_iff_getElem.mpr ⟨i, by simp [hi, hlt], rfl⟩

/-- A sensor that is left only for none stays active as long as some position is read. -/
theorem Axis.stays_active {a : Axis} {history : Nat → Ports} {t₀ t₁ : Nat}
    (hleave : a.LeavesSensors history t₀ t₁)
    (hread : ∀ t, t₀ ≤ t → t ≤ t₁ → a.reading (history t) ≠ -1) {i : a.Sensor}
    (hi : a.Active (history t₀) i) {t : Nat} (h₀ : t₀ ≤ t) (h₁ : t ≤ t₁) :
    a.Active (history t) i := by
  induction t, h₀ using Nat.le_induction with
  | base => exact hi
  | succ t h₀ ih =>
    have hbefore := ih (by omega)
    obtain ⟨j, hj, -⟩ := Axis.active_of_reading (hread (t + 1) (by omega) h₁)
    rw [hleave t h₀ (by omega) i j hbefore hj]
    exact hj

/-- The position that is read is that of some moment between the reads. -/
theorem Axis.reading_linearizes {a : Axis} {history : Nat → Ports} (m : Moments a)
    (hone : ∀ t ∈ m.position, a.AtMostOneActive (history t))
    (hleave : ∀ t₀ ∈ m.position, ∀ t₁ ∈ m.position, a.LeavesSensors history t₀ t₁) :
    ∃ t₀ ∈ m.position, ∃ t₁ ∈ m.position, ∃ t, t₀ ≤ t ∧ t ≤ t₁ ∧
      a.reading (a.gathered history m) = a.reading (history t) := by
  obtain ⟨t₀, h₀, t₁, h₁, hle, hnear, hfar⟩ := a.gathered_cases history m
  refine ⟨t₀, h₀, t₁, h₁, ?_⟩
  obtain h | h | ⟨h, hnone₀, hnone₁⟩ := Axis.reading_mixed hnear hfar (hone t₁ h₁)
  · exact ⟨t₀, Nat.le_refl _, hle, h⟩
  · exact ⟨t₁, hle, Nat.le_refl _, h⟩
  · -- if no moment had read -1, one sensor would have been active all the time
    by_contra hno
    have hread : ∀ t, t₀ ≤ t → t ≤ t₁ → a.reading (history t) ≠ -1 :=
      fun t ht₀ ht₁ heq => hno ⟨t, ht₀, ht₁, h.trans heq.symm⟩
    obtain ⟨i, hi, hmem⟩ := Axis.active_of_reading (hread t₀ (Nat.le_refl _) hle)
    obtain hmem | hmem := List.mem_append.mp hmem
    · exact hnone₀ _ hmem hi
    · exact hnone₁ _ hmem (Axis.stays_active (hleave t₀ h₀ t₁ h₁) hread hi hle (Nat.le_refl _))

/-! ## What the monitors publish -/

theorem mem_timedCalls (a : Axis) (history : Nat → Ports) (p : TimedPass)
    (m : Axis → MonitorState) :
    ⟨a.timedReadings history (p.moments a), p.clock a, m a⟩ ∈ timedCalls history p m := by
  refine List.mem_map.mpr ⟨a, ?_, rfl⟩
  cases a <;> simp

theorem timedCalls_cases {history : Nat → Ports} {p : TimedPass} {m : Axis → MonitorState}
    {c : Call} (hc : c ∈ timedCalls history p m) {r : Reading} (hr : r ∈ c.readings) :
    (∃ b : Axis, r = (b.isAt, b.reading (b.gathered history (p.moments b)))) ∨
      r.1 = "x_direction" := by
  obtain ⟨b, -, rfl⟩ := List.mem_map.mp hc
  obtain rfl | hr := List.mem_cons.mp hr
  · exact .inl ⟨b, rfl⟩
  · rw [List.mem_singleton.mp hr]
    exact .inr rfl

theorem unquoted_timedCalls (history : Nat → Ports) (p : TimedPass) (m : Axis → MonitorState) :
    ∀ c ∈ timedCalls history p m, Unquoted c.readings := by
  intro c hc r hr
  obtain ⟨b, rfl⟩ | hdirection := timedCalls_cases hc hr
  · exact b.unquoted_isAt
  · rw [hdirection]
    decide

/-- In a pass only the axis' own monitor publishes its position. -/
theorem timedCalls_sole (a : Axis) (history : Nat → Ports) (p : TimedPass)
    (m : Axis → MonitorState) :
    ∀ c ∈ timedCalls history p m, ∀ r ∈ c.readings, r.1 = a.isAt →
      r.2 = a.reading (a.gathered history (p.moments a)) := by
  intro c hc r hr hname
  obtain ⟨b, rfl⟩ | hdirection := timedCalls_cases hc hr
  · rw [Axis.isAt_injective hname]
  · exact absurd (hname.symm.trans hdirection) a.isAt_ne_direction

/-- Values that a monitor remembers of its own readings were published. -/
def AxesWorld.Shows (w : AxesWorld) : Prop :=
  ∀ (a : Axis) (v d : Int), d ≠ -9999 → [v, d] = (w.monitors a).previous →
    LastUnder a.isAt v w.published

theorem shows_initial : AxesWorld.Shows ⟨initialMonitors.axes, []⟩ := by
  intro a v d hd h
  have hd' : d = -9999 := by
    cases a <;> exact (List.cons.inj (List.cons.inj h).2).1
  exact absurd hd' hd

/-- After a pass the last position of an axis is what its monitor has read. -/
theorem AxesWorld.Shows.lastUnder_step {history : Nat → Ports} {w : AxesWorld} (h : w.Shows)
    (p : TimedPass) (a : Axis) :
    LastUnder a.isAt (a.reading (a.gathered history (p.moments a)))
      (w.timedStep history p).published := by
  refine lastUnder_calls a.unquoted_isAt (unquoted_timedCalls _ _ _)
    (fun c hc _ => timedCalls_sole a _ _ _ c hc) (mem_timedCalls a ..) List.mem_cons_self ?_
  intro hquiet
  exact h a _ _ (a.direction_ne _) (Call.previous_of_not_publishes hquiet)

theorem AxesWorld.Shows.step {history : Nat → Ports} {w : AxesWorld} (h : w.Shows)
    (p : TimedPass) : (w.timedStep history p).Shows := by
  intro a v d _ hprevious
  have hread : ((w.timedStep history p).monitors a).previous =
      (a.timedReadings history (p.moments a)).map Prod.snd := monitor_previous _ _ _
  rw [hread] at hprevious
  rw [(List.cons.inj hprevious).1]
  exact h.lastUnder_step p a

theorem shows_run (history : Nat → Ports) (passes : List TimedPass) :
    (runTimed history passes).Shows := by
  induction passes using List.reverseRecOn with
  | nil => exact shows_initial
  | append_singleton pre p ih =>
    rw [runTimed, List.foldl_append]
    exact ih.step p

theorem lastUnder_runTimed (history : Nat → Ports) (pre : List TimedPass) (p : TimedPass)
    (a : Axis) :
    LastUnder a.isAt (a.reading (a.gathered history (p.moments a)))
      (runTimed history (pre ++ [p])).published := by
  rw [runTimed, List.foldl_append]
  exact (shows_run history pre).lastUnder_step p a

/-! ## Positions posted by the page -/

/-- The bytes of the ports after the first `t` events. -/
def portsAt (portsType : Port → PortType) (events : List FormEvent) (t : Nat) : Ports :=
  fun i => BitVec.ofInt 8 (atoi (textsAfter portsType (events.take t) i))

theorem run_append (s : PortServer) (events events' : List PortEvent) :
    s.run (events ++ events') = (s.run events).bind fun s' => s'.run events' := by
  induction events generalizing s with
  | nil => rfl
  | cons e es ih =>
    show (s.step e).bind (fun s' => s'.run (es ++ events')) =
      ((s.step e).bind fun s' => s'.run es).bind fun s' => s'.run events'
    cases s.step e with
    | none => rfl
    | some s' => exact ih s'

/-- A prefix of a run is a run, and leaves the ports of the prefix. -/
theorem value_run_take {portsType : Port → PortType} {events : List FormEvent} {s : PortServer}
    (hrun : (PortServer.start portsType).run (events.map FormEvent.toPortEvent) = some s)
    (t : Nat) :
    ∃ sₜ, (PortServer.start portsType).run ((events.take t).map FormEvent.toPortEvent) = some sₜ ∧
      ∀ i, (sₜ.mgPorts i).value = portsAt portsType events t i := by
  have hzero : PortText.zero.text = "0".toList := by decide
  have hprefix : ∃ sₜ, (PortServer.start portsType).run
      ((events.take t).map FormEvent.toPortEvent) = some sₜ := by
    rw [← List.take_append_drop t events, List.map_append, run_append] at hrun
    obtain ⟨sₜ, hsₜ, -⟩ := Option.bind_eq_some_iff.mp hrun
    exact ⟨sₜ, hsₜ⟩
  obtain ⟨sₜ, hsₜ⟩ := hprefix
  refine ⟨sₜ, hsₜ, fun i => ?_⟩
  have htext := text_form_run (fun _ => hzero) hsₜ i
  unfold PortText.value
  rw [htext]
  rfl

/-- Whatever the page posts while the monitors read: after every pass the last position of an
    axis on topic `sensor` is that of the moment of a read, or -1; and that of some moment
    between its reads if the axis does not come from one sensor to another without a moment at
    none. -/
theorem telemetry_shows_posts {portsType : Port → PortType} {events : List FormEvent}
    {s : PortServer}
    (hrun : (PortServer.start portsType).run (events.map FormEvent.toPortEvent) = some s)
    (passes : List TimedPass) (p : TimedPass) (a : Axis)
    (hone : ∀ t ∈ (p.moments a).position, a.AtMostOneActive (portsAt portsType events t)) :
    (∀ t, ∃ sₜ, (PortServer.start portsType).run ((events.take t).map FormEvent.toPortEvent) =
      some sₜ ∧ ∀ i, (sₜ.mgPorts i).value = portsAt portsType events t i) ∧
    ∃ v, LastUnder a.isAt v (runTimed (portsAt portsType events) (passes ++ [p])).published ∧
      (v = -1 ∨ ∃ t ∈ (p.moments a).position, v = a.reading (portsAt portsType events t)) ∧
      ((∀ t₀ ∈ (p.moments a).position, ∀ t₁ ∈ (p.moments a).position,
          a.LeavesSensors (portsAt portsType events) t₀ t₁) →
        ∃ t₀ ∈ (p.moments a).position, ∃ t₁ ∈ (p.moments a).position, ∃ t, t₀ ≤ t ∧ t ≤ t₁ ∧
          v = a.reading (portsAt portsType events t)) := by
  refine ⟨value_run_take hrun, _, lastUnder_runTimed _ passes p a, ?_, ?_⟩
  · exact Axis.reading_gather (p.moments a) hone
  · intro hleave
    exact Axis.reading_linearizes (p.moments a) hone hleave

/-- A form with the sensors of X on port 0. -/
def xForm (value : String) (h : ∀ c ∈ value.toList, IsByte c) : FormEvent :=
  .post [portField 0 value.toList h, portField 1 "255".toList (bytes_of_all (by decide))]
    fun _ => ⟨List.replicate 20 nul, length_blank⟩

/-- X stands at 1, is nowhere for a moment and stands at 2. -/
def xMoves : List FormEvent :=
  List.replicate 10 (xForm "254" (bytes_of_all (by decide))) ++
    [xForm "255" (bytes_of_all (by decide)), xForm "253" (bytes_of_all (by decide))]

/-- Reads before and after the move of X. -/
def acrossMove : TimedPass where
  moments
    | .x => ⟨[10, 12], 12, rfl, by decide⟩
    | .y => ⟨[12], 12, rfl, by decide⟩
    | .z => ⟨[12, 12], 12, rfl, by decide⟩
  clock _ := ⟨0, 0⟩

theorem telemetry_shows_posts_moving :
    ∃ v, LastUnder "x_is_at" v
        (runTimed (portsAt (fun _ => .input) xMoves) ([] ++ [acrossMove])).published ∧
      (v = -1 ∨ v = 1 ∨ v = 2) := by
  have hrun : ((PortServer.start fun _ => .input).run
      (xMoves.map FormEvent.toPortEvent)).isSome = true := by
    rfl
  obtain ⟨s, hs⟩ := Option.isSome_iff_exists.mp hrun
  have hone : ∀ t ∈ (acrossMove.moments .x).position,
      Axis.x.AtMostOneActive (portsAt (fun _ => .input) xMoves t) := by
    decide +kernel
  obtain ⟨v, hlast, hread, -⟩ := (telemetry_shows_posts hs [] acrossMove .x hone).2
  refine ⟨v, hlast, ?_⟩
  have hreadings : Axis.x.reading (portsAt (fun _ => .input) xMoves 10) = 1 ∧
      Axis.x.reading (portsAt (fun _ => .input) xMoves 12) = 2 := by
    decide +kernel
  obtain hnone | ⟨t, ht, hv⟩ := hread
  · exact .inl hnone
  · obtain rfl | ht := List.mem_cons.mp ht
    · exact .inr (.inl (hv.trans hreadings.1))
    · rw [List.mem_singleton.mp ht] at hv
      exact .inr (.inr (hv.trans hreadings.2))

end SmartWarehouse.Server
