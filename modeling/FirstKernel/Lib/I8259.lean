import FirstKernel.Lib.ByteMem

/-!
# Two 8259 interrupt controllers

Each chip has eight lines, line 0 with the highest priority; a line that is in service holds back itself
and the lines below it.  The second chip hangs on line 2 of the first.  Fixed priorities.

* `Chip.command`, `Chip.data`   a byte written to one of the two ports of a chip;
* `Pair.Acks`                   an acknowledge cycle: the vector given and the state behind it;
* `serve_eoi`                   an end of interrupt takes back what the acknowledge cycle set.
-/

namespace I8259
open ByteMem

/-- the initialization word expected next -/
inductive Await where
  | nothing
  | icw2
  | icw3
  | icw4
deriving DecidableEq, Repr

structure Chip where
  /-- the lines masked -/
  imr : Byte
  /-- the lines in service -/
  isr : Byte
  /-- the vector of line 0 -/
  base : Byte
  /-- the third initialization word: where the other chip hangs -/
  cascade : Byte
  autoEoi : Bool
  icw1 : Byte
  await : Await
deriving DecidableEq, Repr

/-- the line in service with the highest priority leaves -/
def Chip.eoi (c : Chip) : Chip := { c with isr := c.isr &&& (c.isr - 1) }

/-- the word behind the third one, if there is one -/
def Chip.last (c : Chip) : Await := if c.icw1.getLsbD 0 then .icw4 else .nothing

/-- a byte at the command port.  What the first initialization word does to the lines in service the
datasheet leaves open: here they stay, with QEMU they are cleared -/
def Chip.command (c : Chip) (v : Byte) : Chip :=
  if v.getLsbD 4 then
    { c with icw1 := v, imr := 0, await := .icw2, autoEoi := c.autoEoi && v.getLsbD 0 }
  else if v.getLsbD 3 then c
  else if v.extractLsb' 5 3 = 1 then c.eoi
  else if v.extractLsb' 5 3 = 3 then
    { c with isr := c.isr &&& ~~~(BitVec.twoPow 8 (v.extractLsb' 0 3).toNat) }
  else c

def Chip.data (c : Chip) (v : Byte) : Chip :=
  match c.await with
  | .nothing => { c with imr := v }
  | .icw2 => { c with base := v &&& 0xF8, await := if c.icw1.getLsbD 1 then c.last else .icw3 }
  | .icw3 => { c with cascade := v, await := c.last }
  | .icw4 => { c with autoEoi := v.getLsbD 1, await := .nothing }

/-- a request on line `m` is passed on -/
def Chip.Passes (c : Chip) (m : Nat) : Prop :=
  c.await = .nothing ∧ m < 8 ∧ c.imr.getLsbD m = false ∧ ∀ j, j ≤ m → c.isr.getLsbD j = false

def Chip.serve (c : Chip) (m : Nat) : Chip :=
  if c.autoEoi then c else { c with isr := c.isr ||| BitVec.twoPow 8 m }

structure Pair where
  master : Chip
  slave : Chip
deriving DecidableEq, Repr

/-- the second chip hangs on line 2 of the first -/
def Pair.Cascaded (p : Pair) : Prop := p.master.cascade = 0x04 ∧ p.slave.cascade = 0x02

/-- an acknowledge cycle; a request that is gone by then is given line 7 of its chip -/
inductive Pair.Acks (p : Pair) : Nat → Pair → Prop where
  | master {m : Nat} (pass : p.master.Passes m) (own : p.master.cascade.getLsbD m = false) :
      p.Acks (p.master.base.toNat + m) { p with master := p.master.serve m }
  | slave {m : Nat} (cascaded : p.Cascaded) (pass : p.master.Passes 2) (line : p.slave.Passes m) :
      p.Acks (p.slave.base.toNat + m) ⟨p.master.serve 2, p.slave.serve m⟩
  | gone {m : Nat} (pass : p.master.Passes m) : p.Acks (p.master.base.toNat + 7) p
  | slaveGone (cascaded : p.Cascaded) (pass : p.master.Passes 2) :
      p.Acks (p.slave.base.toNat + 7) { p with master := p.master.serve 2 }

section
variable {c : Chip} {m : Nat}

theorem Chip.Passes.lt (h : c.Passes m) : m < 8 := h.2.1

theorem eoi_bits : ∀ (x : BitVec 8) (m : Fin 8), (∀ j : Fin 8, j ≤ m → x.getLsbD j = false) →
    (x ||| BitVec.twoPow 8 m) &&& ((x ||| BitVec.twoPow 8 m) - 1) = x := by
  decide +kernel

/-- **An end of interrupt takes back what the acknowledge cycle set.** -/
theorem serve_eoi (h : c.Passes m) (ha : c.autoEoi = false) : (c.serve m).eoi = c := by
  have hbits := eoi_bits c.isr ⟨m, h.lt⟩ fun j hj => h.2.2.2 j hj
  unfold Chip.serve Chip.eoi
  rw [if_neg (by rw [ha]; decide)]
  simp only [hbits]

/-- an end of interrupt puts no line in service -/
theorem eoi_isr (c : Chip) {j : Nat} (h : c.isr.getLsbD j = false) : c.eoi.isr.getLsbD j = false := by
  show (c.isr &&& (c.isr - 1)).getLsbD j = false
  rw [BitVec.getLsbD_and, h, Bool.false_and]

end

end I8259
