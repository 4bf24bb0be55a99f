import FirstKernel.Lib.ByteMem

/-!
# Descriptors of the IA-32 processor

A descriptor is eight bytes of a table.  `SegDesc.ofBytes` and `GateDesc.ofBytes` take them apart as the
processor does; `gateway` is the way of a vector through both tables in ring 0.

* `DescTable.desc`      the entry that an index selects, if the limit of the table covers it;
* `gateway_eq`          a present interrupt gate to flat ring 0 code leads to its offset;
* `gateway_type`        a gate of another type leads nowhere.
-/

namespace Ia32
open ByteMem

/-- a segment descriptor -/
structure SegDesc where
  base : BitVec 32
  limit : BitVec 20
  type : BitVec 4
  /-- code or data, not a system segment -/
  memory : Bool
  dpl : BitVec 2
  present : Bool
  /-- `AVL`, `L`, `D/B`, `G` -/
  flags : BitVec 4
deriving DecidableEq, Repr

def SegDesc.ofBytes (b : Nat → Byte) : SegDesc where
  base := b 7 ++ b 4 ++ b 3 ++ b 2
  limit := (b 6).extractLsb' 0 4 ++ b 1 ++ b 0
  type := (b 5).extractLsb' 0 4
  memory := (b 5).getLsbD 4
  dpl := (b 5).extractLsb' 5 2
  present := (b 5).getLsbD 7
  flags := (b 6).extractLsb' 4 4

/-- the last offset inside the segment -/
def SegDesc.last (d : SegDesc) : Nat :=
  if d.flags.getLsbD 3 then d.limit.toNat * 4096 + 4095 else d.limit.toNat

/-- four gigabytes from 0 on -/
def SegDesc.Flat (d : SegDesc) : Prop := d.base = 0#32 ∧ d.last = 2^32 - 1

/-- a gate descriptor -/
structure GateDesc where
  offset : BitVec 32
  selector : BitVec 16
  type : BitVec 4
  memory : Bool
  dpl : BitVec 2
  present : Bool
deriving DecidableEq, Repr

def GateDesc.ofBytes (b : Nat → Byte) : GateDesc where
  offset := b 7 ++ b 6 ++ b 1 ++ b 0
  selector := b 3 ++ b 2
  type := (b 5).extractLsb' 0 4
  memory := (b 5).getLsbD 4
  dpl := (b 5).extractLsb' 5 2
  present := (b 5).getLsbD 7

/-- a table as its register describes it: the last byte, and the bytes from the base on -/
structure DescTable where
  limit : BitVec 16
  byte : Nat → Byte

/-- the bytes of entry `i` -/
def DescTable.desc (t : DescTable) (i : Nat) : Option (Nat → Byte) :=
  if 8 * i + 7 ≤ t.limit.toNat then some fun j => t.byte (8 * i + j) else none

/-- the type of a 32-bit interrupt gate -/
def interruptGate : BitVec 4 := 0xE

/-- the code segment that a selector names, for code in ring 0 -/
def codeSegment (gdt : DescTable) (selector : BitVec 16) : Option SegDesc := do
  let b ← gdt.desc (selector.toNat / 8)
  let d := SegDesc.ofBytes b
  if selector.toNat / 8 ≠ 0 ∧ selector.getLsbD 2 = false ∧ d.memory ∧ d.type.getLsbD 3 ∧ d.present ∧
    d.dpl = 0 then some d else none

/-- where interrupt `v` goes in ring 0: the code selector and the linear address of the entry -/
def gateway (gdt idt : DescTable) (v : Nat) : Option (BitVec 16 × BitVec 32) := do
  let b ← idt.desc v
  let g := GateDesc.ofBytes b
  if g.present ∧ g.memory = false ∧ g.type = interruptGate then
    let d ← codeSegment gdt g.selector
    if g.offset.toNat ≤ d.last then some (g.selector, d.base + g.offset) else none
  else none

section
variable {gdt idt : DescTable} {v : Nat} {b c : Nat → Byte}

theorem gateway_eq (hb : idt.desc v = some b) (hp : (GateDesc.ofBytes b).present = true)
    (hm : (GateDesc.ofBytes b).memory = false) (ht : (GateDesc.ofBytes b).type = interruptGate)
    {d : SegDesc} (hd : codeSegment gdt (GateDesc.ofBytes b).selector = some d) (hflat : d.Flat) :
    gateway gdt idt v = some ((GateDesc.ofBytes b).selector, (GateDesc.ofBytes b).offset) := by
  have hlt := (GateDesc.ofBytes b).offset.isLt
  unfold gateway
  rw [hb, Option.bind_eq_bind, Option.bind_some]
  simp only []
  rw [if_pos ⟨hp, hm, ht⟩, hd, Option.bind_eq_bind, Option.bind_some,
    if_pos (by rw [hflat.2]; omega), hflat.1, BitVec.zero_add]

theorem gateway_type (hb : idt.desc v = some b) (ht : (GateDesc.ofBytes b).type ≠ interruptGate) :
    gateway gdt idt v = none := by
  unfold gateway
  rw [hb, Option.bind_eq_bind, Option.bind_some]
  simp only []
  rw [if_neg fun h => ht h.2.2]

theorem gateway_past (hb : idt.desc v = none) : gateway gdt idt v = none := by
  unfold gateway
  rw [hb]
  rfl

end

end Ia32
