/-
  When a monitor publishes: `mqttMonitorXAxis` and its five siblings of `MQTT_client.cpp` over
  whole runs.

  The comment of the source promises a publication when a value has changed, and every ten
  seconds. `lastTime` and the remembered values are those of the last publication
  (`remembered_run`), so a call publishes exactly if its values differ from those published last
  or these are more than ten seconds old, in whole milliseconds; after the call the values
  published last are its own, and no older than that (`publishes_when_due`).
-/
import SmartWarehouse.Server.Monitor
import Mathlib.Data.List.Induction

namespace SmartWarehouse.Server

/-! ## Runs of one monitor -/

/-- A call of a monitor: what it reads of the ports and of the clock. -/
structure Visit where
  readings : List Reading
  clock : Clock

def Visit.values (v : Visit) : List Int := v.readings.map Prod.snd

/-- The static variables, and the last call that has published. -/
structure MonitorRun where
  state : MonitorState
  last : Option Visit

def MonitorRun.step (r : MonitorRun) (v : Visit) : MonitorRun where
  state := (monitor v.readings v.clock r.state).1
  last := if publishes v.readings v.clock r.state then some v else r.last

/-- A run from the initial values of the statics. -/
def runMonitor (initial : List Int) (visits : List Visit) : MonitorRun :=
  visits.foldl MonitorRun.step ⟨⟨none, initial⟩, none⟩

/-- The time of the last publication; before the first one, that of the first call. -/
def publishedAt (initial : List Int) (visits : List Visit) : Option Int :=
  match (runMonitor initial visits).last with
  | some v => some v.clock.current
  | none => visits.head?.map fun v => v.clock.initial

/-- The values published last; before the first publication, those of the initialisers. -/
def publishedValues (initial : List Int) (visits : List Visit) : List Int :=
  match (runMonitor initial visits).last with
  | some v => v.values
  | none => initial

theorem runMonitor_snoc (initial : List Int) (visits : List Visit) (v : Visit) :
    runMonitor initial (visits ++ [v]) = (runMonitor initial visits).step v := by
  rw [runMonitor, List.foldl_append]
  rfl

/-- The call `v` publishes after the calls `visits`. -/
def PublishesAfter (initial : List Int) (visits : List Visit) (v : Visit) : Prop :=
  publishes v.readings v.clock (runMonitor initial visits).state

/-! ## What the statics remember -/

theorem last_of_publishes {initial : List Int} {visits : List Visit} {v : Visit}
    (h : PublishesAfter initial visits v) :
    (runMonitor initial (visits ++ [v])).last = some v := by
  rw [runMonitor_snoc]
  exact if_pos h

theorem last_of_not_publishes {initial : List Int} {visits : List Visit} {v : Visit}
    (h : ¬ PublishesAfter initial visits v) :
    (runMonitor initial (visits ++ [v])).last = (runMonitor initial visits).last := by
  rw [runMonitor_snoc]
  exact if_neg h

/-- A call that does not publish leaves the time of the last publication, or its own first
    reading of the clock. -/
theorem publishedAt_of_not_publishes {initial : List Int} {visits : List Visit} {v : Visit}
    (h : ¬ PublishesAfter initial visits v) :
    publishedAt initial (visits ++ [v]) =
      some ((publishedAt initial visits).getD v.clock.initial) := by
  unfold publishedAt
  rw [last_of_not_publishes h]
  cases (runMonitor initial visits).last with
  | some w => rfl
  | none =>
    cases visits with
    | nil => rfl
    | cons w visits => rfl

theorem publishedValues_of_not_publishes {initial : List Int} {visits : List Visit} {v : Visit}
    (h : ¬ PublishesAfter initial visits v) :
    publishedValues initial (visits ++ [v]) = publishedValues initial visits := by
  unfold publishedValues
  rw [last_of_not_publishes h]

/-- The statics hold the time and the values of the last publication. -/
theorem remembered_run (initial : List Int) (visits : List Visit) :
    (runMonitor initial visits).state =
      ⟨publishedAt initial visits, publishedValues initial visits⟩ := by
  induction visits using List.reverseRecOn with
  | nil => rfl
  | append_singleton visits v ih =>
    have hstate : (runMonitor initial (visits ++ [v])).state =
        (monitor v.readings v.clock (runMonitor initial visits).state).1 := by
      rw [runMonitor_snoc]
      rfl
    rw [hstate]
    unfold monitor
    split
    · rename_i h
      unfold publishedAt publishedValues
      rw [last_of_publishes h]
      rfl
    · rename_i h
      rw [publishedAt_of_not_publishes h, publishedValues_of_not_publishes h, ih]

/-! ## When a call publishes -/

/-- More than ten seconds in whole milliseconds. -/
theorem milliseconds_gt_iff (ticks : Int) :
    milliseconds ticks > 10000 ↔ 10001 * ticksPerMillisecond ≤ ticks := by
  unfold milliseconds ticksPerMillisecond
  by_cases h : 0 ≤ ticks
  · rw [Int.tdiv_eq_ediv_of_nonneg h]
    omega
  · have hnonneg : 0 ≤ (-ticks).tdiv 10000 := Int.tdiv_nonneg (by omega) (by decide)
    rw [Int.neg_tdiv] at hnonneg
    omega

/-- What was published last before the call `v` is due to be published again. -/
def Due (initial : List Int) (visits : List Visit) (v : Visit) : Prop :=
  10001 * ticksPerMillisecond ≤
    v.clock.current - (publishedAt initial visits).getD v.clock.initial

instance (initial : List Int) (visits : List Visit) (v : Visit) :
    Decidable (Due initial visits v) :=
  inferInstanceAs (Decidable (_ ≤ _))

theorem publishesAfter_iff (initial : List Int) (visits : List Visit) (v : Visit) :
    PublishesAfter initial visits v ↔
      v.values ≠ publishedValues initial visits ∨ Due initial visits v := by
  unfold PublishesAfter publishes
  rw [remembered_run, milliseconds_gt_iff]
  rfl

/-- In every run a call publishes exactly if its values differ from those published last or these
    are more than ten seconds old; after it the values published last are its own, and they are
    not older than that. -/
theorem publishes_when_due (initial : List Int) (visits : List Visit) (v : Visit) :
    ((monitor v.readings v.clock (runMonitor initial visits).state).2 =
        if v.values ≠ publishedValues initial visits ∨ Due initial visits v then
          v.readings.map fun r => sensorPublication r.1 r.2
        else []) ∧
      publishedValues initial (visits ++ [v]) = v.values ∧
      ∃ time, publishedAt initial (visits ++ [v]) = some time ∧
        v.clock.current - time < 10001 * ticksPerMillisecond := by
  have hiff := publishesAfter_iff initial visits v
  have hticks : 0 < 10001 * ticksPerMillisecond := by decide
  by_cases h : PublishesAfter initial visits v
  · have hpublishes : publishes v.readings v.clock (runMonitor initial visits).state := h
    have hlast := last_of_publishes h
    refine ⟨?_, ?_, v.clock.current, ?_, ?_⟩
    · rw [if_pos (hiff.mp h), monitor, if_pos hpublishes]
    · unfold publishedValues
      rw [hlast]
    · unfold publishedAt
      rw [hlast]
    · rw [Int.sub_self]
      exact hticks
  · have hsilent : ¬ publishes v.readings v.clock (runMonitor initial visits).state := h
    have hquiet := mt hiff.mpr h
    obtain ⟨hvalues, hdue⟩ := not_or.mp hquiet
    refine ⟨?_, ?_, _, publishedAt_of_not_publishes h, ?_⟩
    · rw [if_neg hquiet, monitor, if_neg hsilent]
    · rw [publishedValues_of_not_publishes h]
      exact (not_not.mp hvalues).symm
    · exact Int.not_le.mp hdue

end SmartWarehouse.Server
