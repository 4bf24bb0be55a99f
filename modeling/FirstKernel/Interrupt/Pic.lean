import FirstKernel.Machine
import FirstKernel.Lib.I8259

/-!
# `pic.cpp`: the two interrupt controllers

The ports `0x20`, `0x21` are those of the master, `0xA0`, `0xA1` those of the slave.

* `picUnmaskIrq_spec`   `pic_unmask_irq` clears one mask bit;
* `Programmed.acks`     the vectors given, and the end of interrupt behind them;
* `picRemap_vectors`    `pic_remap` sets both chips up so, whatever they were doing.
-/

namespace FirstKernel
open ByteMem I8259

def pic1Command : BitVec 16 := 0x20
def pic1Data : BitVec 16 := 0x21
def pic2Command : BitVec 16 := 0xA0
def pic2Data : BitVec 16 := 0xA1
def picEoi : Byte := 0x20

def outb (p : Pair) (port : BitVec 16) (value : Byte) : Pair :=
  if port = pic1Command then { p with master := p.master.command value }
  else if port = pic1Data then { p with master := p.master.data value }
  else if port = pic2Command then { p with slave := p.slave.command value }
  else if port = pic2Data then { p with slave := p.slave.data value }
  else p

/-- the data ports give the masks -/
def inb (p : Pair) (port : BitVec 16) : Byte := if port = pic1Data then p.master.imr else p.slave.imr

/-- a write to a port on which there is nothing -/
def ioWait (p : Pair) : Pair := outb p 0x80 0

def picRemap (p : Pair) : Pair :=
  let a1 := inb p pic1Data
  let a2 := inb p pic2Data
  let p := ioWait (outb p pic1Command 0x11)
  let p := ioWait (outb p pic2Command 0x11)
  let p := ioWait (outb p pic1Data 0x20)
  let p := ioWait (outb p pic2Data 0x28)
  let p := ioWait (outb p pic1Data 0x04)
  let p := ioWait (outb p pic2Data 0x02)
  let p := ioWait (outb p pic1Data 0x01)
  let p := ioWait (outb p pic2Data 0x01)
  let p := ioWait (outb p pic1Data a1)
  ioWait (outb p pic2Data a2)

/-- the chips and what is printed -/
def picUnmaskIrq (p : Pair) (irq : Byte) : Pair × List Printf :=
  let port := if irq < 8 then pic1Data else pic2Data
  let irq := if irq < 8 then irq else irq - 8
  let value := inb p port
  let value := value &&& ~~~((1 : Word) <<< irq.toNat).setWidth 8
  let p := outb p port value
  let value := inb p port
  if value.setWidth 32 &&& (1 : Word) <<< irq.toNat ≠ 0 then
    (p, [⟨"[ERROR] IRQ%d is STILL masked!\n", [.num (irq.setWidth 32)]⟩])
  else (p, [])

/-- a chip that `pic_remap` has set up, as the one with `cascade` -/
structure Remapped (base cascade : Byte) (c : Chip) : Prop where
  base : c.base = base
  cascade : c.cascade = cascade
  autoEoi : c.autoEoi = false
  await : c.await = .nothing

section
variable {p q : Pair} {c : Chip} {irq : Byte}

/-- the words that a chip gets: both orders of the two chips are the same to it -/
def setUpChip (c : Chip) (base cascade mask : Byte) : Chip :=
  ((((c.command 0x11).data base).data cascade).data 0x01).data mask

theorem setUp_eq (c : Chip) (base cascade mask : Byte) : setUpChip c base cascade mask
    = { c with imr := mask, base := base &&& 0xF8, cascade := cascade, autoEoi := false,
               icw1 := 0x11, await := .nothing } := by
  cases c
  simp [setUpChip, Chip.command, Chip.data, Chip.last]

theorem picRemap_eq (p : Pair) : picRemap p
    = ⟨setUpChip p.master 0x20 0x04 p.master.imr, setUpChip p.slave 0x28 0x02 p.slave.imr⟩ := rfl

theorem outb_master (p : Pair) (v : Byte) :
    outb p pic1Data v = { p with master := p.master.data v } := rfl
theorem outb_slave (p : Pair) (v : Byte) :
    outb p pic2Data v = { p with slave := p.slave.data v } := rfl
theorem inb_master (p : Pair) : inb p pic1Data = p.master.imr := rfl
theorem inb_slave (p : Pair) : inb p pic2Data = p.slave.imr := rfl

/-! ## masks -/

theorem bit_shift {m : Nat} (hm : m < 8) (j : Nat) :
    ((1 : Word) <<< m).getLsbD j = decide (j = m) := by
  rw [BitVec.getLsbD_shiftLeft]
  by_cases h : j = m
  · simp [h]
    omega
  · simp [h]
    omega

/-- the mask without one bit -/
def withoutBit (x : Byte) (m : Nat) : Byte := x &&& ~~~((1 : Word) <<< m).setWidth 8

theorem withoutBit_bit (x : Byte) {m : Nat} (hm : m < 8) {j : Nat} (hj : j < 8) :
    (withoutBit x m).getLsbD j = (x.getLsbD j && decide (j ≠ m)) := by
  unfold withoutBit
  rw [BitVec.getLsbD_and, BitVec.getLsbD_not, BitVec.getLsbD_setWidth, bit_shift hm]
  simp [hj]

theorem withoutBit_clear (x : Byte) {m : Nat} (hm : m < 8) :
    (withoutBit x m).setWidth 32 &&& (1 : Word) <<< m = 0 := by
  apply BitVec.eq_of_getLsbD_eq
  intro j hj
  rw [BitVec.getLsbD_and, BitVec.getLsbD_setWidth, bit_shift hm]
  by_cases h : j = m
  · rw [withoutBit_bit x hm (by omega)]
    simp [h]
  · simp [h]

/-- line `i` of the pair is masked -/
def Masked (p : Pair) (i : Nat) : Bool :=
  if i < 8 then p.master.imr.getLsbD i else p.slave.imr.getLsbD (i - 8)

/-- the chips behind a write of a mask -/
theorem data_mask {v : Byte} (h : c.await = .nothing) : c.data v = { c with imr := v } := by
  unfold Chip.data
  rw [h]

theorem picUnmaskIrq_low (h : p.master.await = .nothing) (hirq : irq.toNat < 8) : picUnmaskIrq p irq
    = ({ p with master := { p.master with imr := withoutBit p.master.imr irq.toNat } }, []) := by
  have h8 : irq < 8 := BitVec.lt_def.mpr hirq
  unfold picUnmaskIrq
  simp only [if_pos h8, inb_master, outb_master, data_mask h]
  exact if_neg (not_not.mpr (withoutBit_clear _ hirq))

theorem picUnmaskIrq_high (h : p.slave.await = .nothing) (h8 : 8 ≤ irq.toNat) (h16 : irq.toNat < 16) :
    picUnmaskIrq p irq
      = ({ p with slave := { p.slave with imr := withoutBit p.slave.imr (irq.toNat - 8) } }, []) := by
  have hge : ¬ irq < 8 := by
    rw [BitVec.lt_def]
    exact Nat.not_lt.mpr h8
  have hsub : (irq - 8).toNat = irq.toNat - 8 := by bv_omega
  unfold picUnmaskIrq
  simp only [if_neg hge, inb_slave, outb_slave, data_mask h, hsub]
  exact if_neg (not_not.mpr (withoutBit_clear _ (by omega)))

/-- **`pic_unmask_irq` clears the mask of its line and no other, touches nothing else of the chips, and
the check behind it finds nothing to print.** -/
theorem picUnmaskIrq_spec (h1 : p.master.await = .nothing) (h2 : p.slave.await = .nothing)
    (hirq : irq.toNat < 16) :
    (picUnmaskIrq p irq).2 = [] ∧
    (∀ i, i < 16 → Masked (picUnmaskIrq p irq).1 i = (Masked p i && decide (i ≠ irq.toNat))) ∧
    ∃ a b, (picUnmaskIrq p irq).1 = ⟨{ p.master with imr := a }, { p.slave with imr := b }⟩ := by
  by_cases h8 : irq.toNat < 8
  · rw [picUnmaskIrq_low h1 h8]
    refine ⟨rfl, fun i hi => ?_, _, _, rfl⟩
    unfold Masked
    by_cases hi8 : i < 8
    · rw [if_pos hi8, if_pos hi8]
      exact withoutBit_bit _ h8 hi8
    · rw [if_neg hi8, if_neg hi8]
      simp [show i ≠ irq.toNat by omega]
  · rw [picUnmaskIrq_high h2 (by omega) hirq]
    refine ⟨rfl, fun i hi => ?_, _, _, rfl⟩
    unfold Masked
    by_cases hi8 : i < 8
    · rw [if_pos hi8, if_pos hi8]
      simp [show i ≠ irq.toNat by omega]
    · rw [if_neg hi8, if_neg hi8]
      have hbit := withoutBit_bit p.slave.imr (show irq.toNat - 8 < 8 by omega) (show i - 8 < 8 by omega)
      have hsame : decide (i - 8 ≠ irq.toNat - 8) = decide (i ≠ irq.toNat) :=
        decide_eq_decide.mpr (by omega)
      rw [hsame] at hbit
      exact hbit

/-! ## acknowledge and end of interrupt -/

/-- both chips as `pic_remap` leaves them -/
structure Programmed (p : Pair) : Prop where
  master : Remapped 0x20 0x04 p.master
  slave : Remapped 0x28 0x02 p.slave

/-- as `p`, with perhaps fewer lines in service -/
def Settled (p q : Pair) : Prop :=
  ∃ a b, q = ⟨{ p.master with isr := a }, { p.slave with isr := b }⟩ ∧
    ∀ j, (p.master.isr.getLsbD j = false → a.getLsbD j = false) ∧
      (p.slave.isr.getLsbD j = false → b.getLsbD j = false)

/-- the two writes with which `irq_handler` starts -/
def irqEoi (p : Pair) (intNo : Word) : Pair :=
  let p := if 40 ≤ intNo then outb p pic2Command picEoi else p
  if 32 ≤ intNo then outb p pic1Command picEoi else p

theorem programmed_remap (p : Pair) : Programmed (picRemap p) := by
  rw [picRemap_eq, setUp_eq, setUp_eq]
  exact ⟨⟨rfl, rfl, rfl, rfl⟩, ⟨rfl, rfl, rfl, rfl⟩⟩

theorem masked_remap (p : Pair) (i : Nat) : Masked (picRemap p) i = Masked p i := by
  rw [picRemap_eq, setUp_eq, setUp_eq]
  rfl

theorem Settled.refl (p : Pair) : Settled p p := ⟨_, _, rfl, fun _ => ⟨id, id⟩⟩

theorem Settled.trans {r : Pair} (h : Settled p q) (h' : Settled q r) : Settled p r := by
  obtain ⟨a, b, rfl, hab⟩ := h
  obtain ⟨c, d, rfl, hcd⟩ := h'
  exact ⟨c, d, rfl, fun j => ⟨fun h0 => (hcd j).1 ((hab j).1 h0), fun h0 => (hcd j).2 ((hab j).2 h0)⟩⟩

theorem Settled.programmed (h : Settled p q) (hp : Programmed p) : Programmed q := by
  obtain ⟨a, b, rfl, _⟩ := h
  obtain ⟨⟨h1, h2, h3, h4⟩, h5, h6, h7, h8⟩ := hp
  exact ⟨⟨h1, h2, h3, h4⟩, ⟨h5, h6, h7, h8⟩⟩

theorem eoi_master {v : Nat} (hv : 32 ≤ v) (hlt : v < 40) (p : Pair) :
    irqEoi p (BitVec.ofNat 32 v) = { p with master := p.master.eoi } := by
  unfold irqEoi
  rw [if_pos (by simp [BitVec.le_def]; omega), if_neg (by simp [BitVec.le_def]; omega)]
  rfl

theorem eoi_both {v : Nat} (hv : 40 ≤ v) (hlt : v < 48) (p : Pair) :
    irqEoi p (BitVec.ofNat 32 v) = ⟨p.master.eoi, p.slave.eoi⟩ := by
  unfold irqEoi
  rw [if_pos (by simp [BitVec.le_def]; omega), if_pos (by simp [BitVec.le_def]; omega)]
  rfl

/-- the vector given for a request, and the chips behind the end of interrupt -/
theorem Programmed.acks {v : Nat} (h : Programmed p) (ha : p.Acks v q) :
    (32 ≤ v ∧ v < 48 ∧ (Masked p (v - 32) = false ∨ v = 39 ∨ v = 47)) ∧
      Settled p (irqEoi q (BitVec.ofNat 32 v)) := by
  have hb1 : p.master.base.toNat = 32 := by rw [h.master.base]; rfl
  have hb2 : p.slave.base.toNat = 40 := by rw [h.slave.base]; rfl
  cases ha with
  | @master m pass own =>
    have hm := pass.lt
    rw [hb1]
    refine ⟨⟨by omega, by omega, .inl ?_⟩, ?_⟩
    · unfold Masked
      rw [if_pos (by omega), Nat.add_sub_cancel_left]
      exact pass.2.2.1
    · rw [eoi_master (by omega) (by omega), serve_eoi pass h.master.autoEoi]
      exact .refl p
  | @slave m cascaded pass line =>
    have hm := line.lt
    rw [hb2]
    refine ⟨⟨by omega, by omega, .inl ?_⟩, ?_⟩
    · unfold Masked
      rw [if_neg (by omega), show 40 + m - 32 - 8 = m by omega]
      exact line.2.2.1
    · rw [eoi_both (by omega) (by omega), serve_eoi pass h.master.autoEoi,
        serve_eoi line h.slave.autoEoi]
      exact .refl p
  | @gone m pass =>
    rw [hb1]
    refine ⟨⟨by omega, by omega, .inr (.inl rfl)⟩, ?_⟩
    rw [eoi_master (by omega) (by omega)]
    exact ⟨_, _, rfl, fun j => ⟨fun h0 => eoi_isr p.master h0, id⟩⟩
  | slaveGone cascaded pass =>
    rw [hb2]
    refine ⟨⟨by omega, by omega, .inr (.inr rfl)⟩, ?_⟩
    rw [eoi_both (by omega) (by omega), serve_eoi pass h.master.autoEoi]
    exact ⟨_, _, rfl, fun j => ⟨id, fun h0 => eoi_isr p.slave h0⟩⟩

/-- **Whatever state the chips are in, `pic_remap` sets them up with the masks and the lines in service
they have: from then on they give vector `32 + i` for line `i`, and the end of interrupt of
`irq_handler` for that vector puts them back.** -/
theorem picRemap_vectors (p : Pair) :
    (∀ i, i < 16 → Masked (picRemap p) i = Masked p i) ∧
    (picRemap p).master.isr = p.master.isr ∧ (picRemap p).slave.isr = p.slave.isr ∧
    ∀ v q, (picRemap p).Acks v q →
      (32 ≤ v ∧ v < 48 ∧ (Masked p (v - 32) = false ∨ v = 39 ∨ v = 47)) ∧
        Settled (picRemap p) (irqEoi q (BitVec.ofNat 32 v)) := by
  refine ⟨fun i _ => masked_remap p i, ?_, ?_, fun v q ha => ?_⟩
  · rw [picRemap_eq, setUp_eq]
  · rw [picRemap_eq, setUp_eq, setUp_eq]
  · rw [← masked_remap]
    exact (programmed_remap p).acks ha

end

end FirstKernel
