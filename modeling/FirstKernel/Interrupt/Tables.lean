import FirstKernel.Machine
import FirstKernel.Lib.Ia32
import FirstKernel.Lib.Descriptor
import Mathlib.Tactic.IntervalCases

/-!
# `gdt.cpp` and `idt.cpp`: the tables of the processor

The entries are packed structs; `byte` is their layout in memory, which the processor takes apart again.

* `segmentEntry_decodes`, `gateEntry_decodes`   the processor reads the values that were set;
* `descriptors_round_trip`                      so of every entry, and the others stay;
* `initIdt_at`                                  what the three loops of `init_idt` leave in each gate;
* `gate_stub`, `gate_nowhere`                   the ways through the tables;
* `gates_lead_to_stubs`                         every vector leads to its stub, or nowhere.
-/

namespace FirstKernel
open ByteMem Ia32

structure GDTEntry where
  limitLow : BitVec 16
  baseLow : BitVec 16
  baseMid : Byte
  access : Byte
  granularity : Byte
  baseHigh : Byte
deriving DecidableEq, Repr

structure IDTEntry where
  offsetLow : BitVec 16
  selector : BitVec 16
  zero : Byte
  typeAttr : Byte
  offsetHigh : BitVec 16
deriving DecidableEq, Repr

def lowByte (x : BitVec 16) : Byte := x.extractLsb' 0 8
def highByte (x : BitVec 16) : Byte := x.extractLsb' 8 8

/-- the packed layout -/
def GDTEntry.byte (e : GDTEntry) : Nat → Byte
  | 0 => lowByte e.limitLow
  | 1 => highByte e.limitLow
  | 2 => lowByte e.baseLow
  | 3 => highByte e.baseLow
  | 4 => e.baseMid
  | 5 => e.access
  | 6 => e.granularity
  | _ => e.baseHigh

/-- the packed layout -/
def IDTEntry.byte (e : IDTEntry) : Nat → Byte
  | 0 => lowByte e.offsetLow
  | 1 => highByte e.offsetLow
  | 2 => lowByte e.selector
  | 3 => highByte e.selector
  | 4 => e.zero
  | 5 => e.typeAttr
  | 6 => lowByte e.offsetHigh
  | _ => highByte e.offsetHigh

def idtEntries : Nat := 256

/-- `gdt` and its register, as `init_gdt` describes it -/
def gdtTable (gdt : Nat → GDTEntry) : DescTable where
  limit := BitVec.ofNat 16 (8 * 5 - 1)
  byte a := (gdt (a / 8)).byte (a % 8)

/-- `idt` and its register, as `init_idt` describes it -/
def idtTable (idt : Nat → IDTEntry) : DescTable where
  limit := BitVec.ofNat 16 (8 * idtEntries - 1)
  byte a := (idt (a / 8)).byte (a % 8)

/-! ## `gdt.cpp` -/

/-- the entry that `set_gdt_entry` writes -/
def segmentEntry (base limit : Word) (access gran : Byte) : GDTEntry where
  limitLow := (limit &&& 0xFFFF).setWidth 16
  granularity := ((limit >>> 16) &&& 0x0F).setWidth 8 ||| (gran &&& 0xF0)
  baseLow := (base &&& 0xFFFF).setWidth 16
  baseMid := ((base >>> 16) &&& 0xFF).setWidth 8
  baseHigh := ((base >>> 24) &&& 0xFF).setWidth 8
  access := access

def setGdtEntry (gdt : Nat → GDTEntry) (index : Nat) (base limit : Word) (access gran : Byte) :
    Nat → GDTEntry :=
  Function.update gdt index (segmentEntry base limit access gran)

def initGdt (gdt : Nat → GDTEntry) : Nat → GDTEntry :=
  let gdt := setGdtEntry gdt 0 0 0 0 0
  let gdt := setGdtEntry gdt 1 0 0xFFFFF 0x9A 0xCF
  let gdt := setGdtEntry gdt 2 0 0xFFFFF 0x92 0xCF
  let gdt := setGdtEntry gdt 3 0 0xFFFFF 0xFA 0xCF
  setGdtEntry gdt 4 0 0xFFFFF 0xF2 0xCF

/-- the segment registers behind `gdt_flush` -/
def gdtFlush : SegReg → BitVec 16
  | .ds | .es | .fs | .gs | .ss => 0x10
  | .cs => 0x08

/-! ## `idt.cpp` -/

/-- the entry that `idt_set_gate` writes -/
def gateEntry (offset : Word) (selector : BitVec 16) (flags : Byte) : IDTEntry where
  offsetLow := (offset &&& 0xFFFF).setWidth 16
  offsetHigh := ((offset >>> 16) &&& 0xFFFF).setWidth 16
  selector := selector
  zero := 0
  typeAttr := flags ||| 0x80

def idtSetGate (idt : Nat → IDTEntry) (num : Byte) (offset : Word) (selector : BitVec 16)
    (flags : Byte) : Nat → IDTEntry :=
  Function.update idt num.toNat (gateEntry offset selector flags)

/-- `for (; n rounds; i++) idt_set_gate(i, offset[i], selector, flags)` -/
def gateLoop (offset : Nat → Word) (selector : BitVec 16) (flags : Byte) :
    Nat → Nat → (Nat → IDTEntry) → Nat → IDTEntry
  | 0, _, idt => idt
  | n+1, i, idt => gateLoop offset selector flags n (i + 1)
      (idtSetGate idt (BitVec.ofNat 8 i) (offset i) selector flags)

/-- `isrStub` and `irqStub` are the tables of `isr_stub.s` -/
def initIdt (isrStub irqStub : Nat → Word) (idt : Nat → IDTEntry) : Nat → IDTEntry :=
  let idt := gateLoop (fun _ => 0) 0 0 idtEntries 0 idt
  let idt := gateLoop isrStub 0x08 0x8E 32 0 idt
  gateLoop (fun i => irqStub (i - 32)) 0x08 0x8E 16 32 idt

section
variable {gdt : Nat → GDTEntry} {idt : Nat → IDTEntry} {index i j n : Nat}

/-! ## what the processor reads -/

theorem low16 (x : Word) : (x &&& 0xFFFF).setWidth 16 = x.extractLsb' 0 16 := by
  apply BitVec.eq_of_toNat_eq
  rw [BitVec.toNat_setWidth, BitVec.toNat_and, BitVec.extractLsb'_toNat,
    show (0xFFFF : Word).toNat = 2^16 - 1 from rfl, Nat.and_two_pow_sub_one_eq_mod]
  simp

theorem low8 (x : Word) : (x &&& 0xFF).setWidth 8 = x.extractLsb' 0 8 := by
  apply BitVec.eq_of_toNat_eq
  rw [BitVec.toNat_setWidth, BitVec.toNat_and, BitVec.extractLsb'_toNat,
    show (0xFF : Word).toNat = 2^8 - 1 from rfl, Nat.and_two_pow_sub_one_eq_mod]
  simp

/-- the two halves of `granularity` -/
theorem granularity_low (limit : Word) (gran : Byte) :
    (((limit >>> 16) &&& 0x0F).setWidth 8 ||| (gran &&& 0xF0)).extractLsb' 0 4
      = limit.extractLsb' 16 4 := by
  apply BitVec.eq_of_getLsbD_eq
  intro i hi
  interval_cases i <;> simp

theorem granularity_high (limit : Word) (gran : Byte) :
    (((limit >>> 16) &&& 0x0F).setWidth 8 ||| (gran &&& 0xF0)).extractLsb' 4 4
      = gran.extractLsb' 4 4 := by
  apply BitVec.eq_of_getLsbD_eq
  intro i hi
  interval_cases i <;> simp

theorem segmentEntry_decodes (base limit : Word) (access gran : Byte) :
    SegDesc.ofBytes (segmentEntry base limit access gran).byte
      = ⟨base, limit.setWidth 20, access.extractLsb' 0 4, access.getLsbD 4, access.extractLsb' 5 2,
          access.getLsbD 7, gran.extractLsb' 4 4⟩ := by
  unfold SegDesc.ofBytes segmentEntry
  simp only [GDTEntry.byte, low16, low8, lowByte, highByte, SegDesc.mk.injEq]
  refine ⟨?_, ?_, trivial, trivial, trivial, trivial, granularity_high limit gran⟩
  · grind
  · rw [granularity_low]
    grind

theorem gateEntry_decodes (offset : Word) (selector : BitVec 16) (flags : Byte) :
    GateDesc.ofBytes (gateEntry offset selector flags).byte
      = ⟨offset, selector, flags.extractLsb' 0 4, flags.getLsbD 4, flags.extractLsb' 5 2, true⟩ := by
  have htype : (flags ||| 0x80).extractLsb' 0 4 = flags.extractLsb' 0 4 := by
    apply BitVec.eq_of_getLsbD_eq
    intro i hi
    interval_cases i <;> simp
  have hdpl : (flags ||| 0x80).extractLsb' 5 2 = flags.extractLsb' 5 2 := by
    apply BitVec.eq_of_getLsbD_eq
    intro i hi
    interval_cases i <;> simp
  unfold GateDesc.ofBytes gateEntry
  simp only [IDTEntry.byte, low16, lowByte, highByte, GateDesc.mk.injEq]
  refine ⟨?_, ?_, htype, ?_, hdpl, ?_⟩
  · grind
  · grind
  · simp
  · simp

/-- **The processor reads the bases, limits, entries, selectors and attributes that were set, a gate
always as present, and the other descriptors as before.** -/
theorem descriptors_round_trip :
    (∀ gdt index base limit access gran,
      SegDesc.ofBytes (setGdtEntry gdt index base limit access gran index).byte
        = ⟨base, limit.setWidth 20, access.extractLsb' 0 4, access.getLsbD 4, access.extractLsb' 5 2,
            access.getLsbD 7, gran.extractLsb' 4 4⟩ ∧
      ∀ i, i ≠ index → setGdtEntry gdt index base limit access gran i = gdt i) ∧
    ∀ idt (num : Byte) offset selector flags,
      GateDesc.ofBytes (idtSetGate idt num offset selector flags num.toNat).byte
        = ⟨offset, selector, flags.extractLsb' 0 4, flags.getLsbD 4, flags.extractLsb' 5 2, true⟩ ∧
      ∀ i, i ≠ num.toNat → idtSetGate idt num offset selector flags i = idt i := by
  constructor
  · intro gdt index base limit access gran
    refine ⟨?_, fun i hi => Function.update_of_ne hi ..⟩
    rw [← segmentEntry_decodes]
    unfold setGdtEntry
    rw [Function.update_self]
  · intro idt num offset selector flags
    refine ⟨?_, fun i hi => Function.update_of_ne hi ..⟩
    rw [← gateEntry_decodes]
    unfold idtSetGate
    rw [Function.update_self]

/-! ## the loops -/

theorem gateLoop_at (offset : Nat → Word) (selector : BitVec 16) (flags : Byte) (h : i + n ≤ 256) :
    gateLoop offset selector flags n i idt j
      = if i ≤ j ∧ j < i + n then gateEntry (offset j) selector flags else idt j := by
  induction n generalizing i idt with
  | zero =>
    rw [if_neg (by omega)]
    rfl
  | succ n ih =>
    have hnum : (BitVec.ofNat 8 i).toNat = i := by
      rw [BitVec.toNat_ofNat]
      omega
    rw [gateLoop, ih (by omega)]
    by_cases hj : i + 1 ≤ j ∧ j < i + 1 + n
    · rw [if_pos hj, if_pos (by omega)]
    · rw [if_neg hj]
      unfold idtSetGate
      rw [hnum]
      by_cases hij : j = i
      · rw [hij, Function.update_self, if_pos (by omega)]
      · rw [Function.update_of_ne hij, if_neg (by omega)]

theorem initIdt_at (isrStub irqStub : Nat → Word) (idt : Nat → IDTEntry) {v : Nat} (hv : v < 256) :
    initIdt isrStub irqStub idt v
      = if v < 32 then gateEntry (isrStub v) 0x08 0x8E
        else if v < 48 then gateEntry (irqStub (v - 32)) 0x08 0x8E
        else gateEntry 0 0 0 := by
  unfold initIdt idtEntries
  rw [gateLoop_at _ _ _ (by decide), gateLoop_at _ _ _ (by decide), gateLoop_at _ _ _ (by decide)]
  by_cases h32 : v < 32
  · rw [if_neg (by omega), if_pos (by omega), if_pos h32]
  · by_cases h48 : v < 48
    · rw [if_pos (by omega), if_neg h32, if_pos h48]
    · rw [if_neg (by omega), if_neg (by omega), if_pos (by omega), if_neg h32, if_neg h48]

/-! ## from the vector to the stub -/

theorem idt_desc {v : Nat} (h : v < 256) : (idtTable idt).desc v
    = some fun j => (idt ((8 * v + j) / 8)).byte ((8 * v + j) % 8) := by
  unfold DescTable.desc
  rw [if_pos (by simp [idtTable, idtEntries]; omega)]
  rfl

/-- the processor reads the entry -/
theorem ofBytes_entry (v : Nat) :
    GateDesc.ofBytes (fun j => (idt ((8 * v + j) / 8)).byte ((8 * v + j) % 8))
      = GateDesc.ofBytes (idt v).byte := by
  have h : ∀ j, j < 8 → (idt ((8 * v + j) / 8)).byte ((8 * v + j) % 8) = (idt v).byte j := by
    intro j hj
    rw [show (8 * v + j) / 8 = v by omega, show (8 * v + j) % 8 = j by omega]
  unfold GateDesc.ofBytes
  simp only []
  rw [h 0 (by decide), h 1 (by decide), h 2 (by decide), h 3 (by decide), h 5 (by decide),
    h 6 (by decide), h 7 (by decide)]

/-- the kernel's code segment -/
theorem codeSegment_initGdt (gdt : Nat → GDTEntry) :
    ∃ d, codeSegment (gdtTable (initGdt gdt)) 0x08 = some d ∧ d.Flat := by
  have hone : initGdt gdt 1 = segmentEntry 0 0xFFFFF 0x9A 0xCF := by
    simp [initGdt, setGdtEntry]
  have hread := segmentEntry_decodes 0 0xFFFFF 0x9A 0xCF
  rw [← hone] at hread
  have hdesc : (gdtTable (initGdt gdt)).desc 1
      = some fun j => (initGdt gdt ((8 + j) / 8)).byte ((8 + j) % 8) := rfl
  refine ⟨SegDesc.ofBytes (initGdt gdt 1).byte, ?_, ?_⟩
  · have hsame : SegDesc.ofBytes (fun j => (initGdt gdt ((8 + j) / 8)).byte ((8 + j) % 8))
        = SegDesc.ofBytes (initGdt gdt 1).byte := rfl
    unfold codeSegment
    rw [show (0x08 : BitVec 16).toNat / 8 = 1 from rfl, hdesc, Option.bind_eq_bind, Option.bind_some]
    simp only [hsame]
    rw [hread]
    rfl
  · rw [hread]
    exact ⟨rfl, rfl⟩

/-- the gate of a vector that is set: present, of ring 0, with the kernel's code segment -/
theorem gate_stub (gdt : Nat → GDTEntry) (idt : Nat → IDTEntry) (isrStub irqStub : Nat → Word) {v : Nat}
    (hv : v < 48) : gateway (gdtTable (initGdt gdt)) (idtTable (initIdt isrStub irqStub idt)) v
      = some (0x08, if v < 32 then isrStub v else irqStub (v - 32)) := by
  have hdesc := @idt_desc (initIdt isrStub irqStub idt) v (by omega)
  have hread := @ofBytes_entry (initIdt isrStub irqStub idt) v
  obtain ⟨d, hd, hflat⟩ := codeSegment_initGdt gdt
  have hgate : initIdt isrStub irqStub idt v
      = gateEntry (if v < 32 then isrStub v else irqStub (v - 32)) 0x08 0x8E := by
    rw [initIdt_at isrStub irqStub idt (by omega), if_pos hv]
    split <;> rfl
  rw [hgate, gateEntry_decodes] at hread
  have hway := gateway_eq hdesc (by rw [hread]) (by rw [hread]; rfl) (by rw [hread]; rfl)
    (by rw [hread]; exact hd) hflat
  rw [hread] at hway
  exact hway

/-- the gate of any other vector is empty, or outside the table -/
theorem gate_nowhere (gdt : Nat → GDTEntry) (idt : Nat → IDTEntry) (isrStub irqStub : Nat → Word) {v : Nat}
    (hv : 48 ≤ v) :
    gateway (gdtTable (initGdt gdt)) (idtTable (initIdt isrStub irqStub idt)) v = none := by
  by_cases h256 : v < 256
  · have hdesc := @idt_desc (initIdt isrStub irqStub idt) v h256
    have hread := @ofBytes_entry (initIdt isrStub irqStub idt) v
    rw [initIdt_at isrStub irqStub idt h256, if_neg (by omega), if_neg (by omega),
      gateEntry_decodes] at hread
    exact gateway_type hdesc (by rw [hread]; decide)
  · refine gateway_past ?_
    unfold DescTable.desc
    rw [if_neg]
    show ¬ 8 * v + 7 ≤ (BitVec.ofNat 16 (8 * idtEntries - 1)).toNat
    unfold idtEntries
    rw [BitVec.toNat_ofNat]
    omega

/-- **After `init_gdt` and `init_idt` each of the 48 vectors leads to its own stub, and no other vector
leads anywhere.** -/
theorem gates_lead_to_stubs (gdt : Nat → GDTEntry) (idt : Nat → IDTEntry) (isrStub irqStub : Nat → Word)
    (v : Nat) :
    gateway (gdtTable (initGdt gdt)) (idtTable (initIdt isrStub irqStub idt)) v
      = if v < 32 then some (0x08, isrStub v)
        else if v < 48 then some (0x08, irqStub (v - 32))
        else none := by
  by_cases h48 : v < 48
  · rw [gate_stub gdt idt isrStub irqStub h48, if_pos h48]
    split <;> rfl
  · rw [gate_nowhere gdt idt isrStub irqStub (by omega), if_neg (by omega), if_neg h48]

end

end FirstKernel
