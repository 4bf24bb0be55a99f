import FirstKernel.Lib.ByteMem
import Mathlib.Data.Nat.Basic

/-!
# The interval timer 8253: its counter 0

A control word says which bytes of the initial count follow; the counter starts again at that count, a
count of zero being the largest.

* `control_data_data`   a control word with both bytes behind it, from any state.
-/

namespace I8253
open ByteMem

structure Counter where
  /-- the bytes of the count that are written: 1 the low one, 2 the high one, 3 both, low first -/
  access : Byte
  mode : Byte
  bcd : Bool
  /-- the low byte, when the high one is still to come -/
  low : Option Byte
  count : Option (BitVec 16)
deriving DecidableEq, Repr

/-- port `0x43`: words for the other counters and latch commands do nothing here -/
def Counter.control (c : Counter) (v : Byte) : Counter :=
  if v.extractLsb' 6 2 ≠ 0 ∨ v.extractLsb' 4 2 = 0 then c
  else ⟨(v.extractLsb' 4 2).setWidth 8, (v.extractLsb' 1 3).setWidth 8, v.getLsbD 0, none, none⟩

/-- port `0x40` -/
def Counter.data (c : Counter) (v : Byte) : Counter :=
  if c.access = 1 then { c with count := some (0#8 ++ v) }
  else if c.access = 2 then { c with count := some (v ++ 0#8) }
  else
    match c.low with
    | none => { c with low := some v }
    | some low => { c with low := none, count := some (v ++ low) }

/-- the ticks of the clock from one start to the next -/
def Counter.period (c : Counter) : Option Nat :=
  c.count.map fun n => if n = 0 then 65536 else n.toNat

/-- binary, both bytes of the count: whatever was half written is forgotten -/
theorem control_data_data (c : Counter) {v : Byte} (hv : v.extractLsb' 4 4 = 3) (hb : v.getLsbD 0 = false)
    (low high : Byte) : ((c.control v).data low).data high
      = ⟨3, (v.extractLsb' 1 3).setWidth 8, false, none, some (high ++ low)⟩ := by
  have hbits : ∀ v : Byte, v.extractLsb' 4 4 = 3 → v.extractLsb' 6 2 = 0 ∧ v.extractLsb' 4 2 = 3 := by
    decide
  obtain ⟨h6, h4⟩ := hbits v hv
  have hc : c.control v = ⟨3, (v.extractLsb' 1 3).setWidth 8, false, none, none⟩ := by
    unfold Counter.control
    rw [if_neg (by rw [h6, h4]; decide), h4, hb]
    rfl
  rw [hc]
  rfl

end I8253
