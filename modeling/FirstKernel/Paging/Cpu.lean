import FirstKernel.Console.Stdio
import FirstKernel.Lib.Walk

/-!
# Memory behind the page walk, and the terminal on it

With `cr0.PG` set every access goes through the walk, those to the screen included: the buffer of
the terminal is memory at 0xB8000, and `printf` reads and writes it cell by cell.

* `Cpu.physical`    where an access goes;
* `Cpu.putchar`     `vga.cpp` on that buffer;
* `Cpu.printf`      the characters of a call, one after the other.

An access through an entry that is not present, or a write to a page that may not be written with
`cr0.WP` set, raises a page fault, from whose handler there is no return: the call has no result.
-/

namespace FirstKernel
open ByteMem Cells X86

/-- physical memory, the control registers, the fields of `terminal` and the cursor registers of the
CRT controller -/
structure Cpu where
  mem : Mem
  cr0 : Word
  cr3 : Word
  row : Nat
  column : Nat
  color : Byte
  cursorLow : Byte
  cursorHigh : Byte

/-! ## accesses -/

/-- `cr0.PG` -/
def Cpu.paging (s : Cpu) : Bool := s.cr0 &&& 0x80000000 ≠ 0

/-- `cr0.WP` -/
def Cpu.writeProtect (s : Cpu) : Bool := s.cr0 &&& 0x00010000 ≠ 0

/-- the physical address of an access to `v` -/
def Cpu.physical (s : Cpu) (v : Word) (write : Bool) : Option Word :=
  if s.paging then
    match X86.walk s.mem s.cr3 v with
    | none => none
    | some (p, writable) => if write && !writable && s.writeProtect then none else some p
  else some v

def Cpu.read32 (s : Cpu) (v : Word) : Option Word := do
  let p ← s.physical v false
  return load32 s.mem p.toNat

def Cpu.write32 (s : Cpu) (v x : Word) : Option Cpu := do
  let p ← s.physical v true
  return { s with mem := store32 s.mem p.toNat x }

/-! ## the terminal -/

/-- `terminal.buffer` -/
def vgaMemory : Word := 0xB8000

/-- the address of `buffer[index]` -/
def vgaCell (index : Nat) : Word := vgaMemory + BitVec.ofNat 32 (2 * index)

/-- `buffer[index]` -/
def Cpu.readCell (s : Cpu) (index : Nat) : Option (BitVec 16) := do
  let p ← s.physical (vgaCell index) false
  return load16 s.mem p.toNat

/-- `buffer[index] = x` -/
def Cpu.writeCell (s : Cpu) (index : Nat) (x : BitVec 16) : Option Cpu := do
  let p ← s.physical (vgaCell index) true
  return { s with mem := store16 s.mem p.toNat x }

def Cpu.putentryAt (s : Cpu) (c color : Byte) (x y : Nat) : Option Cpu :=
  let index := y * vgaWidth + x
  s.writeCell index (makeEntry c color)

def Cpu.updateCursor (s : Cpu) : Cpu :=
  let pos := BitVec.ofNat 16 (s.row * vgaWidth + s.column)
  { s with
    cursorLow := (pos &&& 0xFF).setWidth 8
    cursorHigh := (pos >>> 8 &&& 0xFF).setWidth 8 }

/-- `n` rounds of `buffer[dst + i] = buffer[src + i]` -/
def Cpu.copyCells (s : Cpu) (dst src : Nat) : Nat → Option Cpu
  | 0 => some s
  | n+1 => do
    let s ← s.copyCells dst src n
    let x ← s.readCell (src + n)
    s.writeCell (dst + n) x

/-- the first `n` rows, each of which becomes the row after it -/
def Cpu.copyRows (s : Cpu) : Nat → Option Cpu
  | 0 => some s
  | n+1 => do
    let s ← s.copyRows n
    s.copyCells (n * vgaWidth) ((n + 1) * vgaWidth) vgaWidth

/-- `n` rounds of `buffer[dst + i] = x` -/
def Cpu.fillCells (s : Cpu) (dst : Nat) (x : BitVec 16) : Nat → Option Cpu
  | 0 => some s
  | n+1 => do
    let s ← s.fillCells dst x n
    s.writeCell (dst + n) x

def Cpu.scroll (s : Cpu) : Option Cpu := do
  let s ← s.copyRows (vgaHeight - 1)
  s.fillCells ((vgaHeight - 1) * vgaWidth) (makeEntry (chr ' ') s.color) vgaWidth

def Cpu.newLine (s : Cpu) : Option Cpu := do
  let s := { s with column := 0, row := s.row + 1 }
  if s.row = vgaHeight then
    let s ← s.scroll
    return { s with row := vgaHeight - 1 }.updateCursor
  else return s.updateCursor

def Cpu.putchar (s : Cpu) (c : Byte) : Option Cpu :=
  if c = chr '\x08' then do
    let s :=
      if s.column > 0 then { s with column := s.column - 1 }
      else if s.row > 0 then { s with row := s.row - 1, column := vgaWidth - 1 }
      else s
    let s ← s.putentryAt (chr ' ') s.color s.column s.row
    return s.updateCursor
  else if c = chr '\n' then s.newLine
  else do
    let s ← s.putentryAt c s.color s.column s.row
    let s := { s with column := s.column + 1 }
    if s.column = vgaWidth then
      let s ← s.newLine
      return s.updateCursor
    else return s.updateCursor

/-- the characters `cs`, one after the other -/
def Cpu.write (s : Cpu) (cs : List Byte) : Option Cpu := cs.foldlM Cpu.putchar s

/-- what a call of `printf` sends to the terminal; `stray` answers for a call that reads outside the
digits or the arguments, as `%x` does from 2^31 on -/
def Printf.sent (stray : Printf → List Byte) (call : Printf) : List Byte :=
  match FirstKernel.printf (str call.format) call.args with
  | .ok cs => cs
  | .error _ => stray call

def Cpu.printf (stray : Printf → List Byte) (s : Cpu) (format : String) (args : List Arg) :
    Option Cpu :=
  s.write (Printf.sent stray ⟨format, args⟩)

end FirstKernel
