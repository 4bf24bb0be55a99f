import FirstKernel.Machine

/-!
# `memory.cpp`: the physical frame allocator

One bit per 4096-byte frame, kept in 32-bit words right behind the kernel image, and a counter of
used frames kept beside it.

* `initialize`       sizes the bitmap from `mem_upper`, clears it and marks `[0, end of bitmap)`;
* `firstFree`        word by word, skipping full words, leaving a word at the first bit past the
                     last frame;
* `allocateFrame`, `freeFrame`.

The marking loop of `initialize` runs within `markBound` rounds, one more than there are pages.
-/

namespace FirstKernel
open ByteMem Cells

def pageSize : Word := 4096
def uint32Max : Word := 0xFFFFFFFF

/-- the static members, the memory they point into, and the static local of `initialize` -/
structure Pmm where
  mem : Mem
  bitmap : Word
  totalFrames : Word
  usedFrames : Word
  nextFreePhysical : Word

/-- the state before the first call: the static local holds the address of `kernel_end` -/
def Pmm.boot (mem : Mem) (kernelEnd : Word) : Pmm := ⟨mem, 0, 0, 0, kernelEnd⟩

def alignUp (val align : Word) : Word := (val + (align - 1)) &&& ~~~(align - 1)

/-- `bitmap[idx]` -/
def Pmm.word (p : Pmm) (idx : Nat) : Word := load32 p.mem (p.bitmap.toNat + 4 * idx)

def Pmm.setWord (p : Pmm) (idx : Nat) (v : Word) : Pmm :=
  { p with mem := store32 p.mem (p.bitmap.toNat + 4 * idx) v }

def Pmm.setFrame (p : Pmm) (frameAddr : Word) : Pmm :=
  let bit := frameAddr % 32
  let idx := (frameAddr / 32).toNat
  p.setWord idx (p.word idx ||| (1#32 <<< bit.toNat))

def Pmm.clearFrame (p : Pmm) (frameAddr : Word) : Pmm :=
  let bit := frameAddr % 32
  let idx := (frameAddr / 32).toNat
  p.setWord idx (p.word idx &&& ~~~(1#32 <<< bit.toNat))

def Pmm.testFrame (p : Pmm) (frameAddr : Word) : Word :=
  let bit := frameAddr % 32
  let idx := (frameAddr / 32).toNat
  if p.word idx &&& (1#32 <<< bit.toNat) ≠ 0 then 1 else 0

/-- number of words of the bitmap -/
def bitmapSize (totalFrames : Word) : Word :=
  let size := totalFrames / 32
  if totalFrames % 32 ≠ 0 then size + 1 else size

def markBound : Nat := 1048577

/-- `for (addr = 0; addr < next_free_physical; addr += PAGE_SIZE)` -/
def Pmm.mark (p : Pmm) : Nat → Word → Res Pmm
  | 0, _ => .error .noFuel
  | fuel+1, addr =>
    if addr < p.nextFreePhysical then
      let frameIdx := addr / pageSize
      let p := p.setFrame frameIdx
      { p with usedFrames := p.usedFrames + 1 }.mark fuel (addr + pageSize)
    else .ok p

def Pmm.initialize (p : Pmm) (memUpper : Word) : Res Pmm :=
  let memBytes := (memUpper + 1024) * 1024
  let totalFrames := memBytes / pageSize
  let size := bitmapSize totalFrames
  let next := alignUp p.nextFreePhysical pageSize
  let bitmap := next
  let bytesNeeded := size * 4
  let next := next + bytesNeeded
  let mem := fill p.mem bitmap.toNat 0 bytesNeeded.toNat
  Pmm.mark ⟨mem, bitmap, totalFrames, 0, next⟩ markBound 0

/-- the loop over the bits of word `i`, from bit `j` on; `none` when it is left without a frame -/
def scanBits (word totalFrames : Word) (i : Nat) : Nat → Nat → Option Word
  | 0, _ => none
  | k+1, j =>
    let mask := 1#32 <<< j
    if word &&& mask = 0 then
      let frameNumber := BitVec.ofNat 32 (i * 32 + j)
      if frameNumber < totalFrames then some frameNumber else none
    else scanBits word totalFrames i k (j + 1)

/-- the loop over the words, `k` of them from `i` on -/
def Pmm.scanWords (p : Pmm) : Nat → Nat → Word
  | 0, _ => uint32Max
  | k+1, i =>
    if p.word i ≠ 0xFFFFFFFF then
      match scanBits (p.word i) p.totalFrames i 32 0 with
      | some frame => frame
      | none => p.scanWords k (i + 1)
    else p.scanWords k (i + 1)

def Pmm.firstFree (p : Pmm) : Word := p.scanWords (bitmapSize p.totalFrames).toNat 0

def Pmm.allocateFrame (p : Pmm) : Word × Pmm :=
  let frame := p.firstFree
  if frame = uint32Max then (0, p)
  else
    let p := p.setFrame frame
    (frame * pageSize, { p with usedFrames := p.usedFrames + 1 })

def Pmm.freeFrame (p : Pmm) (frame : Word) : Pmm :=
  let frameIdx := frame / pageSize
  let p := p.clearFrame frameIdx
  { p with usedFrames := p.usedFrames - 1 }

def Pmm.getFreeFrames (p : Pmm) : Word := p.totalFrames - p.usedFrames

end FirstKernel
