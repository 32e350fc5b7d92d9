/-
  The five motors behind the routines, and the commands that run them.

  Every motor has one output line per direction. A motor routine switches the two lines of its
  motor and leaves every other line of both ports alone (`bit_run_routine`); every other
  command writes nothing (`Command.routine_cases`).
-/
import SmartWarehouse.Server.Actuator
import SmartWarehouse.Lib.Threads

namespace SmartWarehouse.Server

open SmartWarehouse.Lib

inductive Motor where
  | x | y | z | leftStation | rightStation
deriving DecidableEq, Repr

/-- The three actuator values -1, 0 and 1. -/
inductive Direction where
  | negative | stopped | positive
deriving DecidableEq, Repr

def Direction.value : Direction → Int
  | .negative => -1
  | .stopped => 0
  | .positive => 1

/-- The output that moves the motor for value 1. -/
def Motor.plus : Motor → Line
  | .x => (4, 0)
  | .y => (4, 3)
  | .z => (4, 5)
  | .leftStation => (4, 7)
  | .rightStation => (5, 1)

/-- The output that moves the motor for value -1. -/
def Motor.minus : Motor → Line
  | .x => (4, 1)
  | .y => (4, 4)
  | .z => (4, 6)
  | .leftStation => (5, 0)
  | .rightStation => (5, 2)

def Motor.routine : Motor → Direction → PortRoutine
  | .x, .negative => moveXLeft
  | .x, .stopped => stopX
  | .x, .positive => moveXRight
  | .y, .negative => moveYInside
  | .y, .stopped => stopY
  | .y, .positive => moveYOutside
  | .z, .negative => moveZDown
  | .z, .stopped => stopZ
  | .z, .positive => moveZUp
  | .leftStation, .negative => moveLeftStationOutside
  | .leftStation, .stopped => stopLeftStation
  | .leftStation, .positive => moveLeftStationInside
  | .rightStation, .negative => moveRightStationOutside
  | .rightStation, .stopped => stopRightStation
  | .rightStation, .positive => moveRightStationInside

/-! ## What a routine does to the lines -/

theorem run_twoBits (s : Ports) (port : Port) (b₁ b₂ : Nat) (v₁ v₂ : Int) :
    run s (twoBits port b₁ v₁ b₂ v₂) =
      Function.update s port (setBitValue (setBitValue (s port) b₁ v₁) b₂ v₂) := by
  simp [run, exec, twoBits, readDigitalU8, writeDigitalU8, setBit, Instr.exec]

/-- The ports between the two writes of a left station routine. -/
def leftStationMidway (s : Ports) (v₅ : Int) : Ports :=
  Function.update s 5 (setBitValue (s 5) 0 v₅)

theorem run_leftStationBits (s : Ports) (v₅ v₄ : Int) :
    run s (leftStationBits v₅ v₄) =
      Function.update (leftStationMidway s v₅) 4 (setBitValue (s 4) 7 v₄) := by
  simp [run, exec, leftStationBits, leftStationMidway, readDigitalU8, writeDigitalU8, setBit,
    Instr.exec]

theorem runStores_leftStationBits (s : Ports) (v₅ v₄ : Int) :
    runStores s (leftStationBits v₅ v₄) =
      [leftStationMidway s v₅, run s (leftStationBits v₅ v₄)] := by
  rw [run_leftStationBits]
  simp [runStores, stores, leftStationBits, leftStationMidway, readDigitalU8, writeDigitalU8,
    setBit, Instr.exec]

theorem bit_update (s : Ports) (port : Port) (p : BitVec 8) (l : Line) :
    bit (Function.update s port p) l = if l.1 = port then p.getLsbD l.2 else bit s l := by
  by_cases h : l.1 = port
  · subst h; simp [bit]
  · simp [bit, h]

theorem bit_run_twoBits (s : Ports) (port : Port) (b₁ b₂ : Nat) (v₁ v₂ : Int) (l : Line)
    (hl : l.2 < 8) :
    bit (run s (twoBits port b₁ v₁ b₂ v₂)) l =
      if l = (port, b₂) then decide (v₂ ≠ 0)
      else if l = (port, b₁) then decide (v₁ ≠ 0) else bit s l := by
  obtain ⟨p, n⟩ := l
  rw [run_twoBits, bit_update, bit_setBitValue _ _ _ _ hl, bit_setBitValue _ _ _ _ hl]
  by_cases hp : p = port <;> simp [hp, bit]

theorem bit_leftStationMidway (s : Ports) (v₅ : Int) (l : Line) (hl : l.2 < 8) :
    bit (leftStationMidway s v₅) l = if l = (5, 0) then decide (v₅ ≠ 0) else bit s l := by
  obtain ⟨p, n⟩ := l
  rw [leftStationMidway, bit_update, bit_setBitValue _ _ _ _ hl]
  by_cases hp : p = 5 <;> simp [hp, bit]

theorem bit_run_leftStationBits (s : Ports) (v₅ v₄ : Int) (l : Line) (hl : l.2 < 8) :
    bit (run s (leftStationBits v₅ v₄)) l =
      if l = (4, 7) then decide (v₄ ≠ 0)
      else if l = (5, 0) then decide (v₅ ≠ 0) else bit s l := by
  have hmid := bit_leftStationMidway s v₅ l hl
  obtain ⟨p, n⟩ := l
  rw [run_leftStationBits, bit_update, hmid, bit_setBitValue _ _ _ _ hl]
  by_cases hp : p = 4 <;> simp [hp, bit]

/-- A routine sets the two lines of its motor and keeps every other line. -/
theorem bit_run_routine (s : Ports) (m : Motor) (d : Direction) (l : Line) (hl : l.2 < 8) :
    bit (run s (m.routine d)) l =
      if l = m.plus then decide (d = .positive)
      else if l = m.minus then decide (d = .negative) else bit s l := by
  cases m <;> cases d <;>
    simp only [Motor.routine, Motor.plus, Motor.minus, moveXRight, moveXLeft, stopX, moveYInside,
      moveYOutside, stopY, moveZUp, moveZDown, stopZ, moveLeftStationInside,
      moveLeftStationOutside, stopLeftStation, moveRightStationInside, moveRightStationOutside,
      stopRightStation, bit_run_twoBits _ _ _ _ _ _ _ hl, bit_run_leftStationBits _ _ _ _ hl] <;>
    grind

/-! ## Commands -/

/-- A command from the keyboard, or an actuator message. -/
inductive Command where
  | key (keyboard : Int)
  | message (jsonMessage : Json)

/-- The port steps of a command. A message that raises an exception touches no port. -/
def Command.routine : Command → PortRoutine
  | .key keyboard => executeLocalControl keyboard
  | .message jsonMessage =>
    match actuatorMessage jsonMessage with
    | .ok c => c
    | .error _ => []

def runCommands (s : Ports) (cmds : List Command) : Ports :=
  cmds.foldl (fun s c => run s c.routine) s

/-- A routine is one of the fifteen motor routines or writes nothing. -/
def MotorOrReadOnly (c : PortRoutine) : Prop :=
  (∃ m d, c = Motor.routine m d) ∨ writes c = []

theorem MotorOrReadOnly.ite {p : Prop} [Decidable p] {c d : PortRoutine}
    (hc : MotorOrReadOnly c) (hd : MotorOrReadOnly d) : MotorOrReadOnly (if p then c else d) := by
  split
  · exact hc
  · exact hd

theorem MotorOrReadOnly.motor (m : Motor) (d : Direction) : MotorOrReadOnly (m.routine d) :=
  .inl ⟨m, d, rfl⟩

theorem executeLocalControl_cases (keyboard : Int) :
    MotorOrReadOnly (executeLocalControl keyboard) := by
  unfold executeLocalControl
  refine .ite (.motor .x .positive) <| .ite (.motor .x .negative) <| .ite (.motor .x .stopped) <|
    .ite (.motor .y .negative) <| .ite (.motor .y .positive) <| .ite (.motor .y .stopped) <|
    .ite (.motor .z .positive) <| .ite (.motor .z .negative) <| .ite (.motor .z .stopped) <|
    .ite (.motor .leftStation .positive) <| .ite (.motor .leftStation .negative) <|
    .ite (.motor .leftStation .stopped) <| .ite (.motor .rightStation .positive) <|
    .ite (.motor .rightStation .negative) <| .ite (.motor .rightStation .stopped) <|
    .ite (.inr rfl) <| .ite (.inr rfl) (.inr rfl)

/-- The name of the motor in an actuator message. -/
def Motor.name : Motor → String
  | .x => "motor_x"
  | .y => "motor_y"
  | .z => "motor_z"
  | .leftStation => "motor_ls"
  | .rightStation => "motor_rs"

/-- What an actuator message with integer `v` runs. -/
def Motor.onValue (m : Motor) (v : Int) : PortRoutine :=
  if v = 0 then m.routine .stopped
  else if v = 1 then m.routine .positive
  else if v = -1 then m.routine .negative
  else []

theorem Motor.onValue_value (m : Motor) (d : Direction) : m.onValue d.value = m.routine d := by
  cases d <;> rfl

theorem Motor.onValue_of_ne {m : Motor} {v : Int} (h : ∀ d : Direction, v ≠ d.value) :
    m.onValue v = [] := by
  have hstopped : v ≠ 0 := h .stopped
  have hpositive : v ≠ 1 := h .positive
  have hnegative : v ≠ -1 := h .negative
  unfold Motor.onValue
  rw [if_neg hstopped, if_neg hpositive, if_neg hnegative]

theorem Motor.onValue_cases (m : Motor) (v : Int) : MotorOrReadOnly (m.onValue v) :=
  .ite (.motor m _) <| .ite (.motor m _) <| .ite (.motor m _) (.inr rfl)

/-- Of the three `if`s of a motor at most one runs. -/
theorem motorBranch_eq {value : String} {ifs : List (Int × PortRoutine)} {m : Motor}
    (hifs : ∀ v : Int, (ifs.filter fun p => v = p.1).flatMap Prod.snd = m.onValue v) :
    motorBranch value ifs = (stoi value).map m.onValue := by
  rcases hv : stoi value with e | v
  · rw [motorBranch, hv]; rfl
  · rw [motorBranch, hv]
    exact congrArg Except.ok (hifs v)

theorem ifs_zero_one_neg (v : Int) (a b c : PortRoutine) :
    ([(0, a), (1, b), (-1, c)].filter fun p => v = p.1).flatMap Prod.snd =
      if v = 0 then a else if v = 1 then b else if v = -1 then c else [] := by
  by_cases h0 : v = 0
  · subst h0; simp
  by_cases h1 : v = 1
  · subst h1; simp
  by_cases hn : v = -1 <;> simp [h0, h1, hn]

theorem ifs_zero_neg_one (v : Int) (a b c : PortRoutine) :
    ([(0, a), (-1, c), (1, b)].filter fun p => v = p.1).flatMap Prod.snd =
      if v = 0 then a else if v = 1 then b else if v = -1 then c else [] := by
  by_cases h0 : v = 0
  · subst h0; simp
  by_cases h1 : v = 1
  · subst h1; simp
  by_cases hn : v = -1 <;> simp [h0, h1, hn]

theorem actuate_name (m : Motor) (value : String) :
    actuate m.name value = (stoi value).map m.onValue := by
  cases m
  · exact motorBranch_eq fun v => ifs_zero_one_neg v ..
  · exact motorBranch_eq fun v => ifs_zero_neg_one v ..
  · exact motorBranch_eq fun v => ifs_zero_neg_one v ..
  · exact motorBranch_eq fun v => ifs_zero_one_neg v ..
  · exact motorBranch_eq fun v => ifs_zero_one_neg v ..

theorem exists_motor_of_mem {name : String} (h : name ∈ motorNames) :
    ∃ m : Motor, m.name = name := by
  simp only [motorNames, List.mem_cons, List.not_mem_nil, or_false] at h
  rcases h with rfl | rfl | rfl | rfl | rfl
  exacts [⟨.x, rfl⟩, ⟨.y, rfl⟩, ⟨.z, rfl⟩, ⟨.leftStation, rfl⟩, ⟨.rightStation, rfl⟩]

/-- A message runs what its value asks of its motor, and nothing if it names none. -/
theorem actuate_eq_ok {name value : String} {c : PortRoutine} (h : actuate name value = .ok c) :
    (∃ (m : Motor) (v : Int), m.name = name ∧ stoi value = .ok v ∧ m.onValue v = c) ∨
      c = [] := by
  by_cases hn : name ∈ motorNames
  · obtain ⟨m, rfl⟩ := exists_motor_of_mem hn
    rw [actuate_name] at h
    rcases hv : stoi value with e | v
    · rw [hv] at h
      cases h
    · rw [hv] at h
      exact .inl ⟨m, v, rfl, rfl, Except.ok.inj h⟩
  · rw [actuate_of_not_mem value hn] at h
    exact .inr (Except.ok.inj h).symm

theorem actuatorMessage_cases {j : Json} {c : PortRoutine} (h : actuatorMessage j = .ok c) :
    MotorOrReadOnly c := by
  obtain ⟨name, value, -, -, hact⟩ := actuatorMessage_eq_ok h
  obtain ⟨m, v, -, -, rfl⟩ | rfl := actuate_eq_ok hact
  · exact m.onValue_cases v
  · exact .inr rfl

/-- Every command runs one of the fifteen motor routines, or writes no port. -/
theorem Command.routine_cases (c : Command) : MotorOrReadOnly c.routine := by
  cases c with
  | key keyboard => exact executeLocalControl_cases keyboard
  | message j =>
    rcases hj : actuatorMessage j with e | r
    · exact .inr (by simp [Command.routine, hj, writes])
    · have : Command.routine (.message j) = r := by simp [Command.routine, hj]
      rw [this]
      exact actuatorMessage_cases hj

end SmartWarehouse.Server
