import FirstKernel.Heap.Model

/-!
# `ramfs.cpp` and `syscalls.cpp`: nodes, files and descriptors

Node structs and child arrays come from `kmalloc` and are never given back, so the kernel keeps them
by address: `node p` is the struct at `p`, `slot a i` entry `i` of the array at `a`.  File contents
are bytes of the heap itself.

* `fsCreateNode`, `fsAddChild`, `fsRemoveChild`, `fsFindChild`, `fsInit`;
* `fsRead`, `fsWrite`          on the bytes behind `data`;
* `fsOpen`, `fsClose`, `sysRead`, `sysWrite`, `sysClose`   over `fd_table`.

A call that reads or writes through a null pointer ends in `Fault.nullDeref`.  The recursion of
`fs_remove_child` runs within `removeBound` nested calls and loop rounds.
-/

namespace FirstKernel
open ByteMem Cells

/-- the bytes of a C string, without the terminator -/
abbrev CString := { s : List Byte // (0 : Byte) ∉ s }

def maxOpenFiles : Nat := 64
def maxChildren : Nat := 32

/-- sizes on i686 -/
def sizeofFSNode : Word := 88
def sizeofName : Nat := 64
def sizeofPointer : Word := 4
def sizeofChildren : Word := sizeofPointer * BitVec.ofNat 32 maxChildren

inductive FSNodeType where
  | file
  | directory
deriving DecidableEq, Repr

structure FSNode where
  name : List Byte
  type : FSNodeType
  size : Word
  data : Word
  parent : Word
  children : Word
  childCount : Nat
deriving DecidableEq, Repr

structure FileDescriptor where
  node : Word
  offset : Word
  used : Bool
deriving DecidableEq, Repr

structure Kernel where
  heap : Machine
  node : Word → FSNode
  slot : Word → Nat → Word
  root : Word
  fdTable : Nat → FileDescriptor
  currentDir : Word

/-- the state after `init_heap`, with zeroed statics -/
def Kernel.boot (s : Machine) : Kernel where
  heap := initHeap s
  node _ := ⟨[], .file, 0, 0, 0, 0, 0⟩
  slot _ _ := 0
  root := 0
  fdTable _ := ⟨0, 0, false⟩
  currentDir := 0

/-- the value `-1` of an `int` -/
def minusOne : Word := 0xFFFFFFFF

def Kernel.printf (k : Kernel) (format : String) (args : List Arg) : Kernel :=
  { k with heap := k.heap.printf format args }

def Kernel.kmalloc (k : Kernel) (size : Word) : Res (Word × Kernel) := do
  let (p, heap) ← FirstKernel.kmalloc k.heap size
  return (p, { k with heap := heap })

def Kernel.krealloc (k : Kernel) (ptr size : Word) : Res (Word × Kernel) := do
  let (p, heap) ← FirstKernel.krealloc k.heap ptr size
  return (p, { k with heap := heap })

/-- an access through `p` -/
def deref (p : Word) : Res Unit := if p = 0 then .error .nullDeref else .ok ()

/-- an update of the struct at `p` -/
def Kernel.modify (k : Kernel) (p : Word) (f : FSNode → FSNode) : Kernel :=
  { k with node := Function.update k.node p (f (k.node p)) }

/-- `array[i] = v` -/
def Kernel.setSlot (k : Kernel) (array : Word) (i : Nat) (v : Word) : Kernel :=
  { k with slot := Function.update k.slot array (Function.update (k.slot array) i v) }

/-- `memset(array, 0, …)` -/
def Kernel.clearSlots (k : Kernel) (array : Word) : Kernel :=
  { k with slot := Function.update k.slot array fun _ => 0 }

/-! ## nodes -/

def fsCreateNode (k : Kernel) (name : List Byte) (type : FSNodeType) : Res (Word × Kernel) := do
  let (node, k) ← k.kmalloc sizeofFSNode
  if node = 0 then return (0, k)
  let k := k.modify node fun _ =>
    { name := name.take (sizeofName - 1), type := type, size := 0, data := 0, parent := 0,
      children := 0, childCount := 0 }
  if type = .directory then
    let (children, k) ← k.kmalloc sizeofChildren
    let k := k.modify node fun n => { n with children := children }
    if children = 0 then return (node, k)
    return (node, k.clearSlots children)
  else return (node, k)

def fsAddChild (k : Kernel) (parent child : Word) : Res Kernel := do
  if parent = 0 ∨ (k.node parent).type ≠ .directory then return k
  if (k.node parent).childCount ≥ maxChildren then
    return k.printf "Error: directory '%s' is full.\n" [.str (k.node parent).name]
  deref (k.node parent).children
  let k := k.setSlot (k.node parent).children (k.node parent).childCount child
  let k := k.modify parent fun n => { n with childCount := n.childCount + 1 }
  deref child
  return k.modify child fun n => { n with parent := parent }

/-- the first index from `i` on, of `n` left, at which `array` holds `child` -/
def findSlot (array : Nat → Word) (child : Word) : Nat → Nat → Option Nat
  | 0, _ => none
  | n+1, i => if array i = child then some i else findSlot array child n (i + 1)

/-- the tail of `fs_remove_child`: entry `i` leaves the array of `parent` -/
def Kernel.dropSlot (k : Kernel) (parent : Word) (i : Nat) : Kernel :=
  let array := (k.node parent).children
  let entries := copy (k.slot array) i (i + 1) ((k.node parent).childCount - 1 - i)
  let k := { k with slot := Function.update k.slot array entries }
  k.modify parent fun n => { n with childCount := n.childCount - 1 }

mutual
def fsRemoveChild (fuel : Nat) (k : Kernel) (parent child : Word) : Res Kernel :=
  match fuel with
  | 0 => .error .noFuel
  | fuel+1 => do
    if parent = 0 ∨ (k.node parent).type ≠ .directory then return k
    if (k.node parent).childCount ≠ 0 then deref (k.node parent).children
    match findSlot (k.slot (k.node parent).children) child (k.node parent).childCount 0 with
    | none => return k
    | some i => do
      deref child
      let k ← if (k.node child).type = .directory then removeChildren fuel k child 0 else pure k
      return k.dropSlot parent i

/-- `for (; j < child->child_count; j++) fs_remove_child(child, child->children[j])` -/
def removeChildren (fuel : Nat) (k : Kernel) (child : Word) (j : Nat) : Res Kernel :=
  match fuel with
  | 0 => .error .noFuel
  | fuel+1 => do
    if j < (k.node child).childCount then
      let k ← fsRemoveChild fuel k child (k.slot (k.node child).children j)
      removeChildren fuel k child (j + 1)
    else return k
end

def removeBound : Nat := 40 * 2^32

/-- the difference of the first bytes that differ, 0 if there are none -/
def strcmp : List Byte → List Byte → Int
  | a :: as, b :: bs => if a ≠ 0 ∧ a = b then strcmp as bs else a.toNat - b.toNat
  | [], b :: _ => 0 - b.toNat
  | a :: _, [] => a.toNat
  | [], [] => 0

/-- the search loop over `n` more entries from `i` on -/
def findNamed (k : Kernel) (array : Word) (name : List Byte) : Nat → Nat → Res Word
  | 0, _ => return 0
  | n+1, i => do
    deref array
    deref (k.slot array i)
    if strcmp (k.node (k.slot array i)).name name = 0 then return k.slot array i
    findNamed k array name n (i + 1)

def fsFindChild (k : Kernel) (parent : Word) (name : List Byte) : Res Word := do
  if parent = 0 ∨ (k.node parent).type ≠ .directory then return 0
  findNamed k (k.node parent).children name (k.node parent).childCount 0

def fsInit (k : Kernel) : Res Kernel := do
  let (root, k) ← fsCreateNode k (str "/") .directory
  let k := { k with root := root }
  if root = 0 then
    return k.printf "Error initializing filesystem: could not allocate root directory.\n" []
  else return k.printf "[RAMFS] Filesystem initialized.\n" []

/-! ## file contents -/

/-- `n` rounds of `dst[i] = src[i]`, on addresses of 32 bits -/
def memcpy (m : Mem) (dst src : Word) : Nat → Mem
  | 0 => m
  | n+1 =>
    let m := memcpy m dst src n
    store8 m (dst + BitVec.ofNat 32 n).toNat (m (src + BitVec.ofNat 32 n).toNat)

def Kernel.memcpy (k : Kernel) (dst src n : Word) : Kernel :=
  { k with heap := { k.heap with mem := FirstKernel.memcpy k.heap.mem dst src n.toNat } }

def fsRead (k : Kernel) (file offset size buffer : Word) : Res (Word × Kernel) := do
  if file = 0 ∨ (k.node file).type ≠ .file then return (minusOne, k)
  let f := k.node file
  if f.size < offset then return (minusOne, k)
  let readSize := if f.size < offset + size then f.size - offset else size
  if readSize ≠ 0 then deref f.data
  return (readSize, k.memcpy buffer (f.data + offset) readSize)

def fsWrite (k : Kernel) (file offset size buffer : Word) : Res (Word × Kernel) := do
  if file = 0 ∨ (k.node file).type ≠ .file then return (minusOne, k)
  if (k.node file).size < offset + size then
    let (newData, k) ← k.krealloc (k.node file).data (offset + size)
    if newData = 0 then
      return (minusOne, k.printf "Write error: Out of memory for '%s'\n" [.str (k.node file).name])
    let k := k.modify file fun n => { n with data := newData, size := offset + size }
    return (size, k.memcpy ((k.node file).data + offset) buffer size)
  else
    if size ≠ 0 then deref (k.node file).data
    return (size, k.memcpy ((k.node file).data + offset) buffer size)

/-! ## descriptors -/

/-- the loop of `fs_open` over `n` more entries from `i` on -/
def freeDescriptor (t : Nat → FileDescriptor) : Nat → Nat → Option Nat
  | 0, _ => none
  | n+1, i => if (t i).used then freeDescriptor t n (i + 1) else some i

def fsOpen (k : Kernel) (node : Word) : Word × Kernel :=
  match freeDescriptor k.fdTable maxOpenFiles 0 with
  | some i =>
    let fdTable := Function.update k.fdTable i ⟨node, 0, true⟩
    (BitVec.ofNat 32 i, { k with fdTable := fdTable })
  | none => (minusOne, k)

/-- `fd` is a used index of the table -/
def Kernel.isOpen (k : Kernel) (fd : Word) : Bool :=
  0 ≤ fd.toInt && fd.toInt < maxOpenFiles && (k.fdTable fd.toNat).used

def fsClose (k : Kernel) (fd : Word) : Kernel :=
  if k.isOpen fd then
    let d := k.fdTable fd.toNat
    { k with fdTable := Function.update k.fdTable fd.toNat { d with used := false } }
  else k

def sysRead (k : Kernel) (fd buffer size : Word) : Res (Word × Kernel) :=
  if ¬ k.isOpen fd then .ok (minusOne, k)
  else fsRead k (k.fdTable fd.toNat).node (k.fdTable fd.toNat).offset size buffer

def sysWrite (k : Kernel) (fd buffer size : Word) : Res (Word × Kernel) :=
  if ¬ k.isOpen fd then .ok (minusOne, k)
  else fsWrite k (k.fdTable fd.toNat).node (k.fdTable fd.toNat).offset size buffer

def sysClose (k : Kernel) (fd : Word) : Kernel := fsClose k fd

end FirstKernel
