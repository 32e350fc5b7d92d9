/-
  Last command wins, motor by motor.

  `Command.target` is the motor and direction a key or message asks for. `bit_run_command`
  says what one command does to a line; by induction on the commands, each pair of direction
  lines is as the last command for its motor left it and every other line keeps its value
  (`last_command_wins`). The ports after a run therefore depend on the last commands only
  (`runCommands_congr`), and commands to different motors commute.
-/
import SmartWarehouse.Server.Interlock

namespace SmartWarehouse.Server

open SmartWarehouse.Lib

/-! ## What a command asks for -/

/-- The motor keys of the menu. -/
def motorKeys : List (Char × Motor × Direction) :=
  [('q', .x, .positive), ('z', .x, .negative), ('a', .x, .stopped),
    ('e', .y, .negative), ('c', .y, .positive), ('d', .y, .stopped),
    ('w', .z, .positive), ('x', .z, .negative), ('s', .z, .stopped),
    ('r', .leftStation, .positive), ('v', .leftStation, .negative), ('f', .leftStation, .stopped),
    ('t', .rightStation, .positive), ('b', .rightStation, .negative),
    ('g', .rightStation, .stopped)]

def keyTarget (keyboard : Int) : Option (Motor × Direction) :=
  (motorKeys.find? fun k => keyboard = code k.1).map Prod.snd

def motors : List Motor := [.x, .y, .z, .leftStation, .rightStation]

/-- The motor of a message's `name`. -/
def Motor.ofName (name : String) : Option Motor := motors.find? fun m => m.name = name

/-- The direction of a converted `value`. -/
def Direction.ofValue (v : Int) : Option Direction :=
  if v = 0 then some .stopped
  else if v = 1 then some .positive
  else if v = -1 then some .negative
  else none

def messageTarget (jsonMessage : Json) : Option (Motor × Direction) :=
  match jsonMessage.field "name", jsonMessage.field "value" with
  | .ok name, .ok value =>
    (Motor.ofName name).bind fun m =>
      ((stoi value).toOption.bind Direction.ofValue).map fun d => (m, d)
  | _, _ => none

/-- The motor and direction a command asks for. -/
def Command.target : Command → Option (Motor × Direction)
  | .key keyboard => keyTarget keyboard
  | .message jsonMessage => messageTarget jsonMessage

/-- What a command with this target runs. -/
def RunsTarget (c : PortRoutine) : Option (Motor × Direction) → Prop
  | some (m, d) => c = m.routine d
  | none => writes c = []

theorem executeLocalControl_target (keyboard : Int) :
    RunsTarget (executeLocalControl keyboard) (keyTarget keyboard) := by
  unfold keyTarget
  cases hk : motorKeys.find? fun k => keyboard = code k.1 with
  | some k =>
    have hmem := List.mem_of_find?_eq_some hk
    have hcode : keyboard = code k.1 := by simpa using List.find?_some hk
    subst hcode
    simp only [motorKeys, List.mem_cons, List.not_mem_nil, or_false] at hmem
    rcases hmem with rfl | rfl | rfl | rfl | rfl | rfl | rfl | rfl | rfl | rfl | rfl | rfl |
      rfl | rfl | rfl <;> rfl
  | none =>
    -- none of the fifteen comparisons holds, and the printing keys write nothing
    have hne := List.find?_eq_none.mp hk
    simp only [motorKeys, List.mem_cons, List.not_mem_nil, or_false, forall_eq_or_imp,
      forall_eq, decide_eq_true_eq] at hne
    obtain ⟨h₁, h₂, h₃, h₄, h₅, h₆, h₇, h₈, h₉, h₁₀, h₁₁, h₁₂, h₁₃, h₁₄, h₁₅⟩ := hne
    unfold executeLocalControl
    rw [if_neg h₁, if_neg h₂, if_neg h₃, if_neg h₄, if_neg h₅, if_neg h₆, if_neg h₇, if_neg h₈,
      if_neg h₉, if_neg h₁₀, if_neg h₁₁, if_neg h₁₂, if_neg h₁₃, if_neg h₁₄, if_neg h₁₅]
    show writes _ = []
    split
    · rfl
    · split <;> rfl

theorem Motor.name_of_ofName {name : String} {m : Motor} (h : Motor.ofName name = some m) :
    m.name = name := by
  unfold Motor.ofName at h
  simpa using List.find?_some h

theorem Motor.ofName_none {name : String} (h : Motor.ofName name = none) :
    name ∉ motorNames := by
  unfold Motor.ofName at h
  have hne := List.find?_eq_none.mp h
  intro hmem
  simp only [motors, List.mem_cons, List.not_mem_nil, or_false, forall_eq_or_imp, forall_eq,
    decide_eq_true_eq] at hne
  simp only [motorNames, List.mem_cons, List.not_mem_nil, or_false] at hmem
  obtain ⟨hx, hy, hz, hl, hr⟩ := hne
  obtain h | h | h | h | h := hmem
  · exact hx h.symm
  · exact hy h.symm
  · exact hz h.symm
  · exact hl h.symm
  · exact hr h.symm

theorem Motor.onValue_target (m : Motor) (v : Int) :
    RunsTarget (m.onValue v) ((Direction.ofValue v).map fun d => (m, d)) := by
  unfold Motor.onValue Direction.ofValue
  by_cases h0 : v = 0
  · rw [if_pos h0, if_pos h0]; rfl
  by_cases h1 : v = 1
  · rw [if_neg h0, if_neg h0, if_pos h1, if_pos h1]; rfl
  by_cases hn : v = -1
  · rw [if_neg h0, if_neg h0, if_neg h1, if_neg h1, if_pos hn, if_pos hn]; rfl
  · rw [if_neg h0, if_neg h0, if_neg h1, if_neg h1, if_neg hn, if_neg hn]; rfl

theorem actuatorMessage_target (j : Json) :
    RunsTarget (Command.routine (.message j)) (messageTarget j) := by
  unfold Command.routine messageTarget
  rcases hname : j.field "name" with e | name
  · simp [actuatorMessage, hname, RunsTarget, writes]
  rcases hvalue : j.field "value" with e | value
  · simp [actuatorMessage, hname, hvalue, RunsTarget, writes]
  dsimp only
  rw [actuatorMessage_of_fields hname hvalue]
  cases hm : Motor.ofName name with
  | none =>
    rw [actuate_of_not_mem value (Motor.ofName_none hm)]
    exact rfl
  | some m =>
    rw [← Motor.name_of_ofName hm, actuate_name]
    cases hv : stoi value with
    | error e => exact rfl
    | ok v => exact Motor.onValue_target m v

/-- A command runs the routine of its target, and writes no port without one. -/
theorem Command.routine_target (c : Command) : RunsTarget c.routine c.target := by
  cases c with
  | key keyboard => exact executeLocalControl_target keyboard
  | message j => exact actuatorMessage_target j

/-! ## One command -/

/-- The direction a command asks of a motor. -/
def Command.orderFor (m : Motor) (c : Command) : Option Direction :=
  match c.target with
  | some (m', d) => if m' = m then some d else none
  | none => none

/-- The two direction lines of a motor, plus line first. -/
def Motor.bits (s : Ports) (m : Motor) : Bool × Bool := (bit s m.plus, bit s m.minus)

/-- The two direction lines as a direction leaves them. -/
def Direction.bits (d : Direction) : Bool × Bool :=
  (decide (d = .positive), decide (d = .negative))

/-- The line drives no motor. -/
def Line.Unused (l : Line) : Prop := ∀ m : Motor, l ≠ m.plus ∧ l ≠ m.minus

example : ∀ l ∈ ([(4, 2), (5, 3), (5, 4), (5, 5), (5, 6), (5, 7)] : List Line), Line.Unused l := by
  intro l hl m
  cases m <;> revert l <;> decide

theorem bits_run_routine_self (s : Ports) (m : Motor) (d : Direction) :
    m.bits (run s (m.routine d)) = d.bits := by
  have hne : m.minus ≠ m.plus := (lines_ne m m).1.symm
  unfold Motor.bits
  rw [bit_run_routine s m d _ (line_lt m).1, bit_run_routine s m d _ (line_lt m).2, if_pos rfl,
    if_neg hne, if_pos rfl]
  rfl

theorem bits_run_routine_of_ne (s : Ports) {m m' : Motor} (h : m ≠ m') (d : Direction) :
    m.bits (run s (m'.routine d)) = m.bits s := by
  obtain ⟨hplus, hminus⟩ := (lines_ne m m').2 h
  have hpm := (lines_ne m m').1
  have hmp := (lines_ne m' m).1.symm
  unfold Motor.bits
  rw [bit_run_routine s m' d _ (line_lt m).1, bit_run_routine s m' d _ (line_lt m).2,
    if_neg hplus, if_neg hpm, if_neg hmp, if_neg hminus]

/-- One command sets the lines of the motor it targets and keeps those of every other. -/
theorem bits_run_command (s : Ports) (m : Motor) (c : Command) :
    m.bits (run s c.routine) = ((c.orderFor m).map Direction.bits).getD (m.bits s) := by
  have hc := c.routine_target
  unfold Command.orderFor
  cases ht : c.target with
  | none =>
    rw [ht] at hc
    rw [run, exec_store_of_writes_nil _ _ hc]
    rfl
  | some target =>
    obtain ⟨m', d⟩ := target
    rw [ht] at hc
    rw [show c.routine = m'.routine d from hc]
    by_cases h : m' = m
    · subst h
      simp only [if_pos]
      exact bits_run_routine_self s m' d
    · simp only [if_neg h]
      exact bits_run_routine_of_ne s (fun h' => h h'.symm) d

/-- No command touches a line that drives no motor. -/
theorem bit_run_command_of_unused (s : Ports) (c : Command) {l : Line} (hl : l.2 < 8)
    (hunused : Line.Unused l) : bit (run s c.routine) l = bit s l := by
  have hc := c.routine_target
  cases ht : c.target with
  | none =>
    rw [ht] at hc
    rw [run, exec_store_of_writes_nil _ _ hc]
  | some target =>
    obtain ⟨m, d⟩ := target
    rw [ht] at hc
    obtain ⟨hplus, hminus⟩ := hunused m
    rw [show c.routine = m.routine d from hc, bit_run_routine s m d l hl, if_neg hplus,
      if_neg hminus]

/-! ## Whole runs -/

/-- The last direction asked of a motor. -/
def lastOrder (m : Motor) (cmds : List Command) : Option Direction :=
  (cmds.filterMap (Command.orderFor m)).getLast?

theorem lastOrder_append (m : Motor) (cmds cmds' : List Command) :
    lastOrder m (cmds ++ cmds') = (lastOrder m cmds').or (lastOrder m cmds) := by
  unfold lastOrder
  rw [List.filterMap_append, List.getLast?_append]

theorem lastOrder_singleton (m : Motor) (c : Command) : lastOrder m [c] = c.orderFor m := by
  unfold lastOrder
  cases hc : c.orderFor m <;> simp [hc]

theorem runCommands_concat (s : Ports) (cmds : List Command) (c : Command) :
    runCommands s (cmds ++ [c]) = run (runCommands s cmds) c.routine := by
  unfold runCommands
  rw [List.foldl_append]
  rfl

/-- The direction lines of a motor after a run are as its last command set them. -/
theorem bits_runCommands (s : Ports) (m : Motor) (cmds : List Command) :
    m.bits (runCommands s cmds) = ((lastOrder m cmds).map Direction.bits).getD (m.bits s) := by
  induction cmds using List.reverseRecOn with
  | nil => rfl
  | append_singleton cmds c ih =>
    rw [runCommands_concat, bits_run_command, lastOrder_append, lastOrder_singleton, ih]
    cases c.orderFor m <;> rfl

theorem bit_runCommands_of_unused (s : Ports) (cmds : List Command) {l : Line} (hl : l.2 < 8)
    (hunused : Line.Unused l) : bit (runCommands s cmds) l = bit s l := by
  induction cmds using List.reverseRecOn with
  | nil => rfl
  | append_singleton cmds c ih =>
    rw [runCommands_concat, bit_run_command_of_unused _ c hl hunused, ih]

/-- Ports are equal if all their lines are. -/
theorem ports_ext {s t : Ports} (h : ∀ l : Line, l.2 < 8 → bit s l = bit t l) : s = t := by
  funext port
  apply BitVec.eq_of_getLsbD_eq
  intro n hn
  exact h (port, n) hn

/-- The ports after a run depend on the last command of each motor only. -/
theorem runCommands_congr (s : Ports) {cmds cmds' : List Command}
    (h : ∀ m, lastOrder m cmds = lastOrder m cmds') : runCommands s cmds = runCommands s cmds' := by
  apply ports_ext
  intro l hl
  have hbits : ∀ m : Motor, m.bits (runCommands s cmds) = m.bits (runCommands s cmds') := by
    intro m
    rw [bits_runCommands, bits_runCommands, h m]
  by_cases hused : ∃ m : Motor, l = m.plus ∨ l = m.minus
  · obtain ⟨m, hm | hm⟩ := hused
    · rw [hm]; exact congrArg Prod.fst (hbits m)
    · rw [hm]; exact congrArg Prod.snd (hbits m)
  · have hunused : Line.Unused l := by
      intro m
      refine ⟨fun hm => hused ⟨m, .inl hm⟩, fun hm => hused ⟨m, .inr hm⟩⟩
    rw [bit_runCommands_of_unused s cmds hl hunused, bit_runCommands_of_unused s cmds' hl hunused]

/-- Two commands target different motors. -/
def Command.Independent (c c' : Command) : Prop :=
  ∀ m, c.orderFor m = none ∨ c'.orderFor m = none

theorem lastOrder_swap {c c' : Command} (h : c.Independent c') (m : Motor) :
    lastOrder m [c, c'] = lastOrder m [c', c] := by
  have hpair : ∀ a b : Command, lastOrder m [a, b] = (b.orderFor m).or (a.orderFor m) := by
    intro a b
    rw [← List.singleton_append, lastOrder_append, lastOrder_singleton, lastOrder_singleton]
  rw [hpair, hpair]
  obtain h | h := h m
  · rw [h]; cases c'.orderFor m <;> rfl
  · rw [h]; cases c.orderFor m <;> rfl

/-- After any commands, the lines of every motor are as its last command set them, or as they
    were without one; every other line keeps its value; and two commands that ask for
    different motors can be swapped anywhere. -/
theorem last_command_wins (s : Ports) (cmds : List Command) :
    (∀ m : Motor, m.bits (runCommands s cmds) =
      ((lastOrder m cmds).map Direction.bits).getD (m.bits s)) ∧
    (∀ l : Line, l.2 < 8 → Line.Unused l → bit (runCommands s cmds) l = bit s l) ∧
    ∀ pre c c' post m d m' d', cmds = pre ++ c :: c' :: post → c.target = some (m, d) →
      c'.target = some (m', d') → m ≠ m' →
      runCommands s cmds = runCommands s (pre ++ c' :: c :: post) := by
  refine ⟨fun m => bits_runCommands s m cmds, fun l hl hunused =>
    bit_runCommands_of_unused s cmds hl hunused, ?_⟩
  intro pre c c' post m d m' d' hcmds hc hc' hne
  have hind : c.Independent c' := by
    intro m''
    by_cases h : m = m''
    · right
      subst h
      simp [Command.orderFor, hc', Ne.symm hne]
    · left
      simp [Command.orderFor, hc, h]
  rw [hcmds]
  apply runCommands_congr
  intro m''
  have hsplit : ∀ a b : Command, pre ++ a :: b :: post = pre ++ ([a, b] ++ post) := by
    intro a b; rfl
  rw [hsplit, hsplit, lastOrder_append, lastOrder_append, lastOrder_append, lastOrder_append,
    lastOrder_swap hind]

/-- Keys `q` and `w`, then a stop message for `motor_x`, with bit 2 of every port on. -/
theorem last_command_wins_stop :
    let stop := Command.message (.object [("name", .string "motor_x"), ("value", .string "0")])
    let t := runCommands (fun _ => 4) [.key (code 'q'), .key (code 'w'), stop]
    Motor.x.bits t = (false, false) ∧ Motor.z.bits t = (true, false) ∧ bit t (4, 2) = true ∧
      t = runCommands (fun _ => 4) [.key (code 'q'), stop, .key (code 'w')] := by
  intro stop t
  obtain ⟨hbits, hunused, hswap⟩ :=
    last_command_wins (fun _ => 4) [.key (code 'q'), .key (code 'w'), stop]
  refine ⟨hbits .x, hbits .z, hunused (4, 2) (by decide) ?_, ?_⟩
  · intro m; cases m <;> decide
  · exact hswap [.key (code 'q')] (.key (code 'w')) stop [] .z .positive .x .stopped rfl rfl rfl
      (by decide)

end SmartWarehouse.Server
