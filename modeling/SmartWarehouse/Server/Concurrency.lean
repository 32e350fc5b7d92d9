/-
  Commands from two threads: the keyboard loop of `main` and the MQTT callback.

  `mutex_sem` guards one read or one write of a port, not a routine, so two routines on one
  port can both read before either writes, and the first write is lost
  (`stop_undone_by_other_thread`). If no two routines are ever between their read and their
  write of the same port, the two threads leave the ports of a serial run
  (`serial_of_exclusive_windows`).
-/
import SmartWarehouse.Server.Motors

namespace SmartWarehouse.Server

open SmartWarehouse.Lib

/-- Both threads before their first step. -/
def twoThreads (keyboard mqtt : List Command) (s : Ports) : System Port (BitVec 8) :=
  System.start (keyboard.map Command.routine) (mqtt.map Command.routine) s

theorem twoPhase_routine (m : Motor) (d : Direction) : TwoPhase (m.routine d) := by
  cases m <;> cases d <;> exact .inr (by decide)

theorem twoPhase_command (c : Command) : TwoPhase c.routine := by
  rcases c.routine_cases with ⟨m, d, hc⟩ | hw
  · rw [hc]; exact twoPhase_routine m d
  · exact .inl hw

theorem foldl_run_map_routine (cmds : List Command) (s : Ports) :
    (cmds.map Command.routine).foldl run s = runCommands s cmds := List.foldl_map

/-- If the threads are never both between the read and the write of one port, the ports end as
    after some serial run that keeps the order of each thread. -/
theorem serial_of_exclusive_windows (keyboard mqtt : List Command) (s : Ports)
    (sched : List Bool) (hex : (twoThreads keyboard mqtt s).ExclusiveAlong sched)
    (hfin : ((twoThreads keyboard mqtt s).run sched).Finished) :
    ∃ L, Interleaving keyboard mqtt L ∧
      ((twoThreads keyboard mqtt s).run sched).store = runCommands s L := by
  have h2 : ∀ cmds : List Command, ∀ r ∈ cmds.map Command.routine, TwoPhase r := by
    intro cmds r hr
    obtain ⟨c, -, rfl⟩ := List.mem_map.mp hr
    exact twoPhase_command c
  obtain ⟨L', hL', hstore⟩ :=
    serializable_of_exclusive _ _ s sched (h2 keyboard) (h2 mqtt) hex hfin
  obtain ⟨L, hL, rfl⟩ := hL'.of_map rfl rfl
  exact ⟨L, hL, hstore.trans (foldl_run_map_routine L s)⟩

/-- `{"name": "motor_y", "value": "-1"}`. -/
def yInsideMessage : Json := .object [("name", .string "motor_y"), ("value", .string "-1")]

/-- Key `t` on port 5 and a Y message on port 4, step by step in turn. -/
theorem serial_of_exclusive_windows_turns :
    ∃ L, Interleaving [.key (code 't')] [.message yInsideMessage] L ∧
      ((twoThreads [.key (code 't')] [.message yInsideMessage] fun _ => 0).run
        [true, false, true, false, true, false, true, false, true, false]).store =
      runCommands (fun _ => 0) L :=
  serial_of_exclusive_windows _ _ _ _ (by decide) ⟨⟨rfl, rfl⟩, rfl, rfl⟩

/-- Key `q` runs alone; then key `a` and a message for the Y motor both read port 4 before
    either writes it. X moves again although its last command is a stop. -/
theorem stop_undone_by_other_thread :
    ∃ sched,
      let y := twoThreads [.key (code 'q'), .key (code 'a')] [.message yInsideMessage] (fun _ => 0)
      (y.run sched).Finished ∧ bit (y.run sched).store Motor.x.plus = true ∧
        ∀ L, Interleaving [.key (code 'q'), .key (code 'a')] [.message yInsideMessage] L →
          (y.run sched).store 4 ≠ runCommands (fun _ => 0) L 4 := by
  refine ⟨List.replicate 7 true ++ List.replicate 2 false ++ List.replicate 3 true ++
    List.replicate 3 false, ⟨⟨rfl, rfl⟩, rfl, rfl⟩, by decide, fun L hL => ?_⟩
  have hL4 : runCommands (fun _ => 0) L 4 = 16#8 := by
    cases hL with
    | left _ h =>
      cases h with
      | left _ h =>
        cases h with
        | right _ h => cases h; decide
      | right _ h =>
        cases h with
        | left _ h => cases h; decide
    | right _ h =>
      cases h with
      | left _ h =>
        cases h with
        | left _ h => cases h; decide
  rw [hL4]
  decide

end SmartWarehouse.Server
