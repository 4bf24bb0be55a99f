import FirstKernel.Machine

/-!
# `heap.cpp`: first fit over raw headers

A block is a `heap_block_t` header (`size` at offset 0, `next` at 4, `free` at 8, 12 bytes in
all) followed by its payload; the headers live in the heap they describe and are read and
written there.

* `kmalloc`    round up to 16, first free block that is large enough, split if 28 bytes remain;
* `kfree`      mark free, absorb the next block if that is free;
* `krealloc`   same pointer if the block is large enough, otherwise allocate, copy, free.

The search loop of `kmalloc` runs within `heapWalkBound` rounds, one more than headers fit into
the heap; past them it ends in `Fault.noFuel`.
-/

namespace FirstKernel
open ByteMem Cells

def kernelHeapStart : Word := 0x00800000
def kernelHeapSize : Word := 0x00800000
def sizeofHeapBlock : Word := 12

/-! ## the fields of a header -/

def blockSize (m : Mem) (b : Word) : Word := load32 m b.toNat
def blockNext (m : Mem) (b : Word) : Word := load32 m (b.toNat + 4)
def blockFree (m : Mem) (b : Word) : Byte := m (b.toNat + 8)

def setSize (m : Mem) (b v : Word) : Mem := store32 m b.toNat v
def setNext (m : Mem) (b v : Word) : Mem := store32 m (b.toNat + 4) v
def setFree (m : Mem) (b : Word) (v : Byte) : Mem := store8 m (b.toNat + 8) v

/-! ## the allocator -/

def align16 (size : Word) : Word := (size + 15) &&& ~~~(15 : Word)

def initHeap (s : Machine) : Machine :=
  let s := s.printf "[HEAP] Initializing heap at 0x%x, size 0x%x\n"
    [.num kernelHeapStart, .num kernelHeapSize]
  let b := kernelHeapStart
  let m := setSize s.mem b (kernelHeapSize - sizeofHeapBlock)
  let m := setNext m b 0
  let m := setFree m b 1
  { s with mem := m, freeList := b }

def heapWalkBound : Nat := 699051

/-- `while (current != NULL)`: the first free block of at least `size` bytes, or null -/
def findFit (m : Mem) (size : Word) : Nat → Word → Option Word
  | 0, _ => none
  | fuel+1, current =>
    if current = 0 then some 0
    else if blockFree m current ≠ 0 ∧ size ≤ blockSize m current then some current
    else findFit m size fuel (blockNext m current)

/-- a new free block behind the first `size` payload bytes of `current` -/
def splitBlock (m : Mem) (current size : Word) : Mem :=
  let newBlock := current + sizeofHeapBlock + size
  let m := setSize m newBlock (blockSize m current - size - sizeofHeapBlock)
  let m := setNext m newBlock (blockNext m current)
  let m := setFree m newBlock 1
  let m := setSize m current size
  setNext m current newBlock

def kmalloc (s : Machine) (size : Word) : Res (Word × Machine) :=
  if size = 0 then .ok (0, s)
  else
    let size := align16 size
    if s.freeList = 0 then
      .ok (0, s.printf "[HEAP] Error: Heap is not initialized!\n" [])
    else match findFit s.mem size heapWalkBound s.freeList with
      | none => .error .noFuel
      | some current =>
        if current = 0 then
          .ok (0, s.printf "[HEAP] Error: No free block large enough for %d bytes!\n" [.num size])
        else
          let m := if size + sizeofHeapBlock + 16 ≤ blockSize s.mem current
            then splitBlock s.mem current size else s.mem
          let m := setFree m current 0
          let allocAddr := current + sizeofHeapBlock
          .ok (allocAddr, { s with mem := m }.printf "[HEAP] Allocated %d bytes at 0x%x\n"
            [.num size, .num allocAddr])

/-- `block` absorbs the next block if there is one and it is free -/
def mergeNext (m : Mem) (block : Word) : Mem :=
  let next := blockNext m block
  if next ≠ 0 ∧ blockFree m next ≠ 0 then
    let m := setSize m block (blockSize m block + (blockSize m next + sizeofHeapBlock))
    setNext m block (blockNext m (blockNext m block))
  else m

def kfree (s : Machine) (ptr : Word) : Machine :=
  if ptr = 0 then s
  else
    let block := ptr - sizeofHeapBlock
    let m := setFree s.mem block 1
    let s := { s with mem := m }.printf "[HEAP] Freed block at 0x%x (size: %d bytes)\n"
      [.num ptr, .num (blockSize m block)]
    { s with mem := mergeNext s.mem block }

def krealloc (s : Machine) (ptr size : Word) : Res (Word × Machine) :=
  if size = 0 then .ok (0, kfree s ptr)
  else if ptr = 0 then kmalloc s size
  else
    let block := ptr - sizeofHeapBlock
    if size ≤ blockSize s.mem block then .ok (ptr, s)
    else match kmalloc s size with
      | .error e => .error e
      | .ok (newPtr, s') =>
        if newPtr = 0 then .ok (0, s')
        else
          let m := copy s'.mem newPtr.toNat ptr.toNat (blockSize s'.mem block).toNat
          .ok (newPtr, kfree { s' with mem := m } ptr)

end FirstKernel
