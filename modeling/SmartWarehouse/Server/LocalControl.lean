/-
  `localControl.cpp`: the fifteen motor routines, the sensor getters and the keyboard
  dispatch `executeLocalControl`.

  A motor routine is a straight-line list of port steps. Twelve of them read one port, set two
  bits and write it back (`twoBits`); the three of the left station keep one direction on
  port 4 and the other on port 5 (`leftStationBits`) and write port 5 first.
-/
import SmartWarehouse.Server.Ports

namespace SmartWarehouse.Server

open SmartWarehouse.Lib

/-! ## Motor routines -/

/-- Read `port`, set bit `b₁` to `v₁` and then bit `b₂` to `v₂`, write `port`. -/
def twoBits (port : Port) (b₁ : Nat) (v₁ : Int) (b₂ : Nat) (v₂ : Int) : PortRoutine :=
  [readDigitalU8 port, setBit port b₁ v₁, setBit port b₂ v₂, writeDigitalU8 port]

def moveXRight : PortRoutine := twoBits 4 1 0 0 1

def moveXLeft : PortRoutine := twoBits 4 0 0 1 1

def stopX : PortRoutine := twoBits 4 0 0 1 0

def moveYInside : PortRoutine := twoBits 4 3 0 4 1

def moveYOutside : PortRoutine := twoBits 4 4 0 3 1

def stopY : PortRoutine := twoBits 4 3 0 4 0

def moveZUp : PortRoutine := twoBits 4 6 0 5 1

def moveZDown : PortRoutine := twoBits 4 5 0 6 1

def stopZ : PortRoutine := twoBits 4 5 0 6 0

/-- Read ports 4 and 5, set bit 0 of port 5 to `v₅` and bit 7 of port 4 to `v₄`, write port 5
    and then port 4. -/
def leftStationBits (v₅ v₄ : Int) : PortRoutine :=
  [readDigitalU8 4, readDigitalU8 5, setBit 5 0 v₅, setBit 4 7 v₄, writeDigitalU8 5,
    writeDigitalU8 4]

def moveLeftStationInside : PortRoutine := leftStationBits 0 1

def moveLeftStationOutside : PortRoutine := leftStationBits 1 0

def stopLeftStation : PortRoutine := leftStationBits 0 0

def moveRightStationInside : PortRoutine := twoBits 5 1 1 2 0

def moveRightStationOutside : PortRoutine := twoBits 5 1 0 2 1

def stopRightStation : PortRoutine := twoBits 5 1 0 2 0

/-! ## Getters -/

/-- The first active sensor of a scan. Sensors are active low. -/
def scanSensors (s : Ports) (sensors : List Line) : Option Nat :=
  sensors.findIdx? fun l => getBitValue (s l.1) l.2 = 0

def getXPosition (s : Ports) : Int :=
  let pp : List Port := [0, 0, 0, 0, 0, 0, 0, 0, 1, 1]
  let bb := [0, 1, 2, 3, 4, 5, 6, 7, 0, 1]
  match scanSensors s (pp.zip bb) with
  | some i => i + 1
  | none => -1

/-- The loop of the source stops at `i < 2`: the third entry of `bb` is never scanned. -/
def getYPosition (s : Ports) : Int :=
  let bb := [4, 3, 2]
  match scanSensors s ((bb.take 2).map fun b => (1, b)) with
  | some i => i + 1
  | none => -1

/-- In halves: the source returns the `float` `i / 2 + 1`, or -1. -/
def getZPosition (s : Ports) : Int :=
  let pp : List Port := [2, 2, 2, 2, 2, 2, 2, 1, 1, 1]
  let bb := [6, 5, 4, 3, 2, 1, 0, 7, 6, 5]
  match scanSensors s (pp.zip bb) with
  | some i => i + 2
  | none => -2

/-- The three-way test of the direction getters: the bit `on` is asked before the bit
    `off`. -/
def directionOf (s : Ports) (on : Line) (onValue : Int) (off : Line) (offValue : Int) : Int :=
  if getBitValue (s on.1) on.2 ≠ 0 then onValue
  else if getBitValue (s off.1) off.2 ≠ 0 then offValue
  else 0

def getXDirection (s : Ports) : Int := directionOf s (4, 0) 1 (4, 1) (-1)

def getYDirection (s : Ports) : Int := directionOf s (4, 3) 1 (4, 4) (-1)

/-- Bits 3 and 4, as in `getYDirection`. -/
def getZDirection (s : Ports) : Int := directionOf s (4, 3) 1 (4, 4) (-1)

def getLeftStationDirection (s : Ports) : Int := directionOf s (5, 0) (-1) (4, 7) 1

def getRightStationDirection (s : Ports) : Int := directionOf s (5, 2) (-1) (5, 1) 1

def isPartInCage (s : Ports) : Bool := getBitValue (s 2) 7 ≠ 0

def isPartOnLeftStation (s : Ports) : Bool := getBitValue (s 3) 0 ≠ 0

def isPartOnRightStation (s : Ports) : Bool := getBitValue (s 3) 1 ≠ 0

/-! ## Keyboard -/

/-- The port reads behind the port listing of key `p`. -/
def showPortsInformation : PortRoutine :=
  [readDigitalU8 0, readDigitalU8 1, readDigitalU8 2, readDigitalU8 3, readDigitalU8 4,
    readDigitalU8 5]

/-- The port reads of the getters that key `k` prints. -/
def showStates : PortRoutine :=
  [readDigitalU8 0, readDigitalU8 1, readDigitalU8 4, readDigitalU8 2, readDigitalU8 1,
    readDigitalU8 4, readDigitalU8 1, readDigitalU8 4, readDigitalU8 3, readDigitalU8 5,
    readDigitalU8 4, readDigitalU8 3, readDigitalU8 5, readDigitalU8 2]

/-- The code of a `char` literal of the source. -/
def code (c : Char) : Int := c.toNat

def executeLocalControl (keyboard : Int) : PortRoutine :=
  if keyboard = code 'q' then moveXRight
  else if keyboard = code 'z' then moveXLeft
  else if keyboard = code 'a' then stopX
  else if keyboard = code 'e' then moveYInside
  else if keyboard = code 'c' then moveYOutside
  else if keyboard = code 'd' then stopY
  else if keyboard = code 'w' then moveZUp
  else if keyboard = code 'x' then moveZDown
  else if keyboard = code 's' then stopZ
  else if keyboard = code 'r' then moveLeftStationInside
  else if keyboard = code 'v' then moveLeftStationOutside
  else if keyboard = code 'f' then stopLeftStation
  else if keyboard = code 't' then moveRightStationInside
  else if keyboard = code 'b' then moveRightStationOutside
  else if keyboard = code 'g' then stopRightStation
  else if keyboard = code 'p' then showPortsInformation
  else if keyboard = code 'k' then showStates
  else [] -- `m` prints the menu; every other key is ignored

end SmartWarehouse.Server
