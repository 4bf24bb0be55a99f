import FirstKernel.Paging.Cpu

/-!
# `paging.cpp`: the page directory and its four tables

* `vmmInit`     fills the tables with the identity up to 16 MiB, on physical addresses;
* `vmmEnable`   loads `cr3` and turns paging on;
* `vmmMap`      changes one entry, through the mapping that the tables define.

Their messages go to the screen, which from `vmmEnable` on is reached through the tables as well.
-/

namespace FirstKernel
open ByteMem Cells X86

/-- where the linker put the static arrays: pages of their own below 16 MiB -/
structure PageArrays where
  kernelPageDirectory : Word
  kernelPageTable0 : Word
  kernelPageTable1 : Word
  kernelPageTable2 : Word
  kernelPageTable3 : Word
  aligned : ∀ p ∈ [kernelPageDirectory, kernelPageTable0, kernelPageTable1, kernelPageTable2,
    kernelPageTable3], p.toNat % 4096 = 0
  below : ∀ p ∈ [kernelPageDirectory, kernelPageTable0, kernelPageTable1, kernelPageTable2,
    kernelPageTable3], p.toNat < 0x01000000
  distinct : [kernelPageDirectory, kernelPageTable0, kernelPageTable1, kernelPageTable2,
    kernelPageTable3].Nodup

/-- `uint32_t* tables[]` -/
def PageArrays.tables (L : PageArrays) : Nat → Word
  | 0 => L.kernelPageTable0
  | 1 => L.kernelPageTable1
  | 2 => L.kernelPageTable2
  | _ => L.kernelPageTable3

/-! ## the functions -/

/-- `n` rounds of the inner loop of `vmm_init` -/
def fillTable (m : Mem) (table : Word) (tableIdx : Nat) : Nat → Mem
  | 0 => m
  | n+1 =>
    let physAddr : Word := BitVec.ofNat 32 (tableIdx * 0x400000) + BitVec.ofNat 32 (n * 0x1000)
    store32 (fillTable m table tableIdx n) (table.toNat + 4 * n) ((physAddr &&& 0xFFFFF000) ||| 0x03)

/-- `n` rounds of the outer loop -/
def fillTables (L : PageArrays) (m : Mem) : Nat → Mem
  | 0 => m
  | n+1 => fillTable (fillTables L m n) (L.tables n) n 1024

/-- `kernel_page_directory[i] = ((uint32_t)table & 0xFFFFF000) | 0x03` for the first `n` tables -/
def fillDirectory (L : PageArrays) (m : Mem) : Nat → Mem
  | 0 => m
  | n+1 => store32 (fillDirectory L m n) (L.kernelPageDirectory.toNat + 4 * n)
      ((L.tables n &&& 0xFFFFF000) ||| 0x03)

/-- `printf(format, ..., *address)` -/
def Cpu.printEntry (stray : Printf → List Byte) (s : Cpu) (format : String) (args : List Arg)
    (address : Word) : Option Cpu := do
  let x ← s.read32 address
  s.printf stray format (args ++ [.num x])

def PageArrays.vmmMap (L : PageArrays) (stray : Printf → List Byte) (s : Cpu)
    (virtualAddr physicalAddr rw : Word) : Option Cpu := do
  let s ← s.printf stray "[VMM] Mapping vaddr=0x%x to paddr=0x%x, rw=%d\n"
    [.num virtualAddr, .num physicalAddr, .num rw]
  let pdIndex := (virtualAddr >>> 22) &&& 0x3FF
  let ptIndex := (virtualAddr >>> 12) &&& 0x3FF
  let pdeVal ← s.read32 (L.kernelPageDirectory + 4 * pdIndex)
  if pdeVal &&& 1 = 0 then s.printf stray "[VMM] PDE[%d] not present!\n" [.num pdIndex]
  else
    let ptPhysBase := pdeVal &&& 0xFFFFF000
    let ptVirtBase := ptPhysBase
    let flags : Word := if rw ≠ 0 then 0x3 else 0x1
    let s ← s.write32 (ptVirtBase + 4 * ptIndex) ((physicalAddr &&& 0xFFFFF000) ||| flags)
    let s ← s.printEntry stray "[VMM] PT[%d] = 0x%x\n" [.num ptIndex] (ptVirtBase + 4 * ptIndex)
    s.printf stray "[VMM] Mapping done.\n" []

structure MapCall where
  virtualAddr : Word
  physicalAddr : Word
  rw : Word
deriving DecidableEq, Repr

end FirstKernel
