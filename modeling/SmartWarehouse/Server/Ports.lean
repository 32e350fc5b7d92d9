/-
  The byte-wide ports of the warehouse and the two bit helpers of `localControl.cpp`.

  `readDigitalU8` and `writeDigitalU8` are the atomic port steps of a routine; a routine keeps
  the byte of port `p` in a local variable (`p`, `p4`, `p5` in the source). `bit_setBitValue`
  and `getBitValue_ne_zero` reduce both helpers to single bits.
-/
import SmartWarehouse.Lib.Routine
import Mathlib.Data.BitVec

namespace SmartWarehouse.Server

open SmartWarehouse.Lib

/-- `mg_ports` has ten entries. -/
abbrev Port := Fin 10

instance Port.neZero : NeZero 10 := ⟨by decide⟩

abbrev Ports := Port → BitVec 8

abbrev PortRoutine := Routine Port (BitVec 8)

def readDigitalU8 (port : Port) : Instr Port (BitVec 8) := .read port

def writeDigitalU8 (port : Port) : Instr Port (BitVec 8) := .write port

def setBitValue (value : BitVec 8) (n_bit : Nat) (new_value_bit : Int) : BitVec 8 :=
  let mask_on := 1#8 <<< n_bit
  let mask_off := ~~~mask_on
  if new_value_bit ≠ 0 then value ||| mask_on else value &&& mask_off

def getBitValue (value : BitVec 8) (n_bit : Nat) : Nat :=
  (value &&& 1#8 <<< n_bit).toNat

/-- `setBitValue(p, n_bit, new_value_bit)` on the local variable of a port. -/
def setBit (port : Port) (n_bit : Nat) (new_value_bit : Int) : Instr Port (BitVec 8) :=
  .edit port fun p => setBitValue p n_bit new_value_bit

/-- An output or input line: a port and one of its bits. -/
abbrev Line := Port × Nat

def bit (s : Ports) (l : Line) : Bool := (s l.1).getLsbD l.2

theorem bit_setBitValue (p : BitVec 8) (n i : Nat) (v : Int) (hi : i < 8) :
    (setBitValue p n v).getLsbD i = if i = n then decide (v ≠ 0) else p.getLsbD i := by
  unfold setBitValue
  by_cases hv : v = 0 <;> by_cases h : i = n <;>
    simp [hv, h, hi, BitVec.getLsbD_shiftLeft]
  all_goals grind

theorem getBitValue_ne_zero (p : BitVec 8) (n : Nat) (hn : n < 8) :
    getBitValue p n ≠ 0 ↔ p.getLsbD n = true := by
  have hand : p &&& 1#8 <<< n = if p.getLsbD n then BitVec.twoPow 8 n else 0#8 :=
    BitVec.and_twoPow p n
  have hpow : 2 ^ n < 2 ^ 8 := Nat.pow_lt_pow_right (by omega) hn
  rw [getBitValue, hand]
  split <;> rename_i h
  · rw [BitVec.toNat_twoPow, Nat.mod_eq_of_lt hpow]
    simp [h]
  · simpa using h

end SmartWarehouse.Server
