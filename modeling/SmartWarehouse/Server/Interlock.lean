/-
  The interlock: no motor ever has both of its outputs on.

  Every routine keeps the interlock from one command to the next (`interlocked_run`). Between
  the two writes of `moveLeftStationOutside` it fails if the station was moving inside: the
  outside bit of port 5 is written before the inside bit of port 4 is cleared. Those are the
  only stores where it fails (`interlocked_at_every_write_iff`).
-/
import SmartWarehouse.Server.Motors

namespace SmartWarehouse.Server

open SmartWarehouse.Lib

def Interlocked (s : Ports) : Prop := ∀ m : Motor, ¬ (bit s m.plus = true ∧ bit s m.minus = true)

/-- The ports after every single write of a sequence of commands. -/
def commandStores (s : Ports) : List Command → List Ports
  | [] => []
  | c :: cmds => runStores s c.routine ++ commandStores (run s c.routine) cmds

theorem line_lt (m : Motor) : m.plus.2 < 8 ∧ m.minus.2 < 8 := by
  cases m <;> decide

/-- The ten output lines are distinct. -/
theorem lines_ne (m m' : Motor) :
    m.plus ≠ m'.minus ∧ (m ≠ m' → m.plus ≠ m'.plus ∧ m.minus ≠ m'.minus) := by
  cases m <;> cases m' <;> decide

theorem interlocked_run_routine {s : Ports} (h : Interlocked s) (m : Motor) (d : Direction) :
    Interlocked (run s (m.routine d)) := by
  intro m'
  obtain ⟨hp, hm⟩ := line_lt m'
  rw [bit_run_routine s m d _ hp, bit_run_routine s m d _ hm]
  by_cases hmm : m' = m
  · subst hmm
    have hne : m'.minus ≠ m'.plus := (lines_ne m' m').1.symm
    cases d <;> simp [hne]
  · have hpm := (lines_ne m' m).1
    have hmp := (lines_ne m m').1.symm
    obtain ⟨hpp, hmin⟩ := (lines_ne m' m).2 hmm
    simpa [hpm, hmp, hpp, hmin] using h m'

theorem interlocked_run {s : Ports} (h : Interlocked s) (c : Command) :
    Interlocked (run s c.routine) := by
  rcases c.routine_cases with ⟨m, d, hc⟩ | hw
  · rw [hc]; exact interlocked_run_routine h m d
  · rw [run, exec_store_of_writes_nil _ _ hw]; exact h

/-! ## Between the writes of one command -/

/-- Switching the outside output of the left station midway is safe unless its inside output
    is on. -/
theorem interlocked_leftStationMidway_iff {s : Ports} (h : Interlocked s) (v₅ : Int) :
    Interlocked (leftStationMidway s v₅) ↔ (v₅ ≠ 0 → bit s (4, 7) = false) := by
  have hbit : ∀ l : Line, l.2 < 8 → bit (leftStationMidway s v₅) l =
      if l = (5, 0) then decide (v₅ ≠ 0) else bit s l := bit_leftStationMidway s v₅
  constructor
  · intro hmid hv
    have := hmid .leftStation
    rw [hbit _ (line_lt _).1, hbit _ (line_lt _).2] at this
    simpa [Motor.plus, Motor.minus, hv] using this
  · intro hv m
    rw [hbit _ (line_lt m).1, hbit _ (line_lt m).2]
    have hm := h m
    cases m with
    | leftStation =>
      by_cases h0 : v₅ = 0
      · simp [Motor.plus, Motor.minus, h0]
      · simp [Motor.plus, Motor.minus, hv h0]
    | x | y | z | rightStation => simpa [Motor.plus, Motor.minus] using hm

theorem routine_eq_outside {m : Motor} {d : Direction}
    (h : m.routine d = moveLeftStationOutside) : m = .leftStation ∧ d = .negative := by
  -- compare what both do to the outside output, from all outputs off
  have hbit : bit (run (fun _ => 0) (m.routine d)) (5, 0) = true := by
    rw [h]; exact bit_run_leftStationBits _ 1 0 (5, 0) (by decide)
  rw [bit_run_routine _ _ _ _ (by decide)] at hbit
  cases m <;> cases d <;> simp [Motor.plus, Motor.minus, bit] at hbit ⊢

/-- Off the left station, a routine writes once. -/
theorem runStores_routine_of_ne (s : Ports) {m : Motor} (hm : m ≠ .leftStation)
    (d : Direction) : runStores s (m.routine d) = [run s (m.routine d)] := by
  cases m <;> cases d <;> first | exact absurd rfl hm | rfl

/-- The stores of one command from interlocked ports. -/
theorem interlocked_stores_iff {s : Ports} (h : Interlocked s) (c : Command) :
    (∀ t ∈ runStores s c.routine, Interlocked t) ↔
      (c.routine = moveLeftStationOutside → bit s (4, 7) = false) := by
  have hrun := interlocked_run h c
  rcases c.routine_cases with ⟨m, d, hc⟩ | hw
  · rw [hc] at hrun ⊢
    cases m with
    | leftStation =>
      have hstores : ∃ v₅ v₄, leftStationBits v₅ v₄ = Motor.leftStation.routine d ∧
          (v₅ ≠ 0 ↔ d = .negative) := by
        cases d
        exacts [⟨1, 0, rfl, by decide⟩, ⟨0, 0, rfl, by decide⟩, ⟨0, 1, rfl, by decide⟩]
      obtain ⟨v₅, v₄, hr, hv⟩ := hstores
      rw [← hr] at hrun ⊢
      rw [runStores_leftStationBits]
      have hout : leftStationBits v₅ v₄ = moveLeftStationOutside ↔ v₅ ≠ 0 := by
        rw [hr, hv]
        exact ⟨fun he => (routine_eq_outside he).2, fun hd => by rw [hd]; rfl⟩
      simp [hrun, interlocked_leftStationMidway_iff h, hout]
    | x | y | z | rightStation =>
      refine ⟨fun _ he => absurd (routine_eq_outside he).1 (by decide), fun _ t ht => ?_⟩
      rw [runStores_routine_of_ne s (by decide) d, List.mem_singleton] at ht
      rw [ht]
      exact hrun
  · refine ⟨fun _ he => ?_, fun _ t ht => ?_⟩
    · rw [he] at hw; cases hw
    · rw [runStores, stores_of_writes_nil _ _ hw] at ht; cases ht

/-! ## Whole runs -/

/-- The interlock holds after every write of a run exactly if no command drives the left
    station outside while its inside output is still on. -/
theorem interlocked_at_every_write_iff (cmds : List Command) :
    (∀ t ∈ commandStores (fun _ => 0) cmds, Interlocked t) ↔
      ∀ pre c post, cmds = pre ++ c :: post → c.routine = moveLeftStationOutside →
        bit (runCommands (fun _ => 0) pre) (4, 7) = false := by
  have hgen : ∀ s : Ports, Interlocked s → ((∀ t ∈ commandStores s cmds, Interlocked t) ↔
      ∀ pre c post, cmds = pre ++ c :: post → c.routine = moveLeftStationOutside →
        bit (runCommands s pre) (4, 7) = false) := by
    induction cmds with
    | nil => intro s _; simp [commandStores]
    | cons c cmds ih =>
      intro s hs
      simp only [commandStores, List.mem_append, or_imp, forall_and]
      rw [interlocked_stores_iff hs c, ih _ (interlocked_run hs c)]
      constructor
      · rintro ⟨hc, hrest⟩ pre c' post heq hout
        cases pre with
        | nil =>
          obtain ⟨rfl, -⟩ : c = c' ∧ cmds = post := by simpa using heq
          exact hc hout
        | cons p pre =>
          obtain ⟨rfl, hcmds⟩ : c = p ∧ cmds = pre ++ c' :: post := by simpa using heq
          exact hrest pre c' post hcmds hout
      · intro h
        exact ⟨h [] c cmds rfl, fun pre c' post heq => h (c :: pre) c' post (by rw [heq]; rfl)⟩
  exact hgen _ fun m => by simp [bit]

/-- Keys `r` and `v`: after the first write of `v`, port 4 still has bit 7 on and port 5 has
    bit 0 on. -/
theorem left_station_both_directions_on :
    ∃ t ∈ commandStores (fun _ => 0) [.key (code 'r'), .key (code 'v')], ¬ Interlocked t := by
  refine ⟨leftStationMidway (run (fun _ => 0) moveLeftStationInside) 1, ?_, fun h => ?_⟩
  · have hr : Command.routine (.key (code 'r')) = moveLeftStationInside := rfl
    have hv : Command.routine (.key (code 'v')) = leftStationBits 1 0 := rfl
    simp [commandStores, hr, hv, runStores_leftStationBits]
  · exact h .leftStation (by decide)

end SmartWarehouse.Server
