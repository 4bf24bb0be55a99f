import FirstKernel.Fs.Model

/-!
# `ramfs.cpp`: paths

The two resolvers share their character loop, `pathLoop`; they differ in where they start and in
what they do with the characters left in `temp` at the end of the path.

* `fsFindByPath`, `fsFindByPathFrom`   the overloads without and with a starting node;
* `splitPath`, `fsMkdir`, `fsTouch`, `sysOpen`.

The local arrays `temp`, `parent_path` and `name` have 128, 128 and 64 characters; a store past their
end is `Fault.outOfBounds`.
-/

namespace FirstKernel
open ByteMem

def CString.take (s : CString) (n : Nat) : CString :=
  ⟨s.val.take n, fun h => s.property (List.mem_of_mem_take h)⟩

def CString.drop (s : CString) (n : Nat) : CString :=
  ⟨s.val.drop n, fun h => s.property (List.mem_of_mem_drop h)⟩

/-- a store at index `i` of a local array of `n` characters -/
def storeAt (i n : Nat) : Res Unit := if i < n then .ok () else .error .outOfBounds

def sizeofTemp : Nat := 128
def sizeofParentPath : Nat := 128

/-- the loop over the characters of a path: the node and the content of `temp` at its end, `none`
when a component was not found -/
def pathLoop (k : Kernel) : List Byte → Word → List Byte → Res (Option (Word × List Byte))
  | [], current, temp => return some (current, temp)
  | c :: path, current, temp => do
    storeAt temp.length sizeofTemp
    if c = chr '/' then
      if temp.length > 0 then
        let current ← fsFindChild k current temp
        if current = 0 then return none
        pathLoop k path current []
      else pathLoop k path current []
    else pathLoop k path current (temp ++ [c])

/-- `fs_find_by_path(path)` -/
def fsFindByPath (k : Kernel) (path : Option CString) : Res Word :=
  match path with
  | none => return 0
  | some path =>
    if path.val.head? ≠ some (chr '/') then return 0
    else do
      match ← pathLoop k path.val k.root [] with
      | none => return 0
      | some (current, _) => return current

/-- `fs_find_by_path(path, current)` -/
def fsFindByPathFrom (k : Kernel) (path : Option CString) (current : Word) : Res Word :=
  match path with
  | none => return 0
  | some path => do
    let absolute := path.val.head? = some (chr '/')
    let current := if absolute then k.root else current
    let rest := if absolute then path.val.tail else path.val
    match ← pathLoop k rest current [] with
    | none => return 0
    | some (current, temp) =>
      storeAt temp.length sizeofTemp
      if temp.length > 0 then fsFindChild k current temp else return current

/-- the index of the last `c` -/
def strrchr (c : Byte) : List Byte → Nat → Option Nat → Option Nat
  | [], _, last => last
  | a :: s, i, last => strrchr c s (i + 1) (if a = c then some i else last)

def splitPath (path : Option CString) : Res (CString × CString) :=
  match path with
  | none => .error .nullDeref
  | some path =>
    match strrchr (chr '/') path.val 0 none with
    | some parentLen => do
      storeAt parentLen sizeofParentPath
      let name := path.drop (parentLen + 1)
      storeAt name.val.length sizeofName
      return (path.take parentLen, name)
    | none => do
      storeAt path.val.length sizeofName
      return (path.take 0, path)

def fsMkdir (k : Kernel) (path : Option CString) : Res (Word × Kernel) := do
  let (parentPath, name) ← splitPath path
  let parent ← fsFindByPath k (some parentPath)
  if parent = 0 ∨ (k.node parent).type ≠ .directory then return (0, k)
  let (newDir, k) ← fsCreateNode k name.val .directory
  let k ← fsAddChild k parent newDir
  return (newDir, k)

def fsTouch (k : Kernel) (path : Option CString) : Res (Word × Kernel) := do
  let (parentPath, name) ← splitPath path
  let parent ← fsFindByPath k (some parentPath)
  if parent = 0 ∨ (k.node parent).type ≠ .directory then return (0, k)
  let (newFile, k) ← fsCreateNode k name.val .file
  let (data, k) ← k.kmalloc 1024
  deref newFile
  let k := k.modify newFile fun n => { n with data := data, size := 0 }
  let k ← fsAddChild k parent newFile
  return (newFile, k)

def sysOpen (k : Kernel) (path : Option CString) : Res (Word × Kernel) := do
  let node ← fsFindByPath k path
  if node = 0 then return (minusOne, k)
  return fsOpen k node

end FirstKernel
