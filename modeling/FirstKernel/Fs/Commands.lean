import FirstKernel.Fs.Model

/-!
# `shell.cpp`: the commands on files and directories

Each command starts by setting `current_dir` to the root when it is null.  `args` is the second token
of the line, or null.
-/

namespace FirstKernel
open ByteMem Cells

/-- `if (!current_dir) current_dir = fs_get_root();` -/
def Kernel.enter (k : Kernel) : Kernel :=
  if k.currentDir = 0 then { k with currentDir := k.root } else k

/-- `!args || strlen(args) == 0` -/
def noArgs : Option CString → Bool
  | none => true
  | some args => args.val.length = 0

/-- `%s` of an argument -/
def argText (args : Option CString) : List Arg := [.str (args.elim [] Subtype.val)]

/-- the loop of `cmd_ls` over `n` more entries of `array` from `i` on -/
def lsLoop (array : Word) : Nat → Nat → Kernel → Res Kernel
  | 0, _, k => return k
  | n+1, i, k => do
    deref array
    let entry := k.slot array i
    deref entry
    let format := if (k.node entry).type = .file then "%s  " else "%s/  "
    lsLoop array n (i + 1) (k.printf format [.str (k.node entry).name])

def cmdLs (k : Kernel) (_args : Option CString) : Res Kernel := do
  let k := k.enter
  deref k.currentDir
  let dir := k.node k.currentDir
  let k ← lsLoop dir.children dir.childCount 0 k
  return k.printf "\n" []

def cmdCd (k : Kernel) (args : Option CString) : Res Kernel := do
  let k := k.enter
  if noArgs args then return k.printf "Usage: cd <directory>\n" []
  let name := args.elim [] Subtype.val
  if strcmp name (str "..") = 0 then
    if k.currentDir ≠ 0 ∧ (k.node k.currentDir).parent ≠ 0 then
      return { k with currentDir := (k.node k.currentDir).parent }
    else return k.printf "Already at root.\n" []
  else
    let target ← fsFindChild k k.currentDir name
    if target ≠ 0 ∧ (k.node target).type = .directory then return { k with currentDir := target }
    else return k.printf "cd: No such directory '%s'\n" (argText args)

def cmdTouch (k : Kernel) (args : Option CString) : Res Kernel := do
  let k := k.enter
  if noArgs args then return k.printf "Usage: touch <filename>\n" []
  let (file, k) ← fsCreateNode k (args.elim [] Subtype.val) .file
  if file = 0 then return k
  let k := k.modify file fun n => { n with size := 256 }
  let (data, k) ← k.kmalloc (k.node file).size
  let k := k.modify file fun n => { n with data := data }
  deref (k.node file).data
  let mem := fill k.heap.mem (k.node file).data.toNat 0 (k.node file).size.toNat
  let k := { k with heap := { k.heap with mem := mem } }
  let k ← fsAddChild k k.currentDir file
  return k.printf "File '%s' created.\n" (argText args)

def cmdMkdir (k : Kernel) (args : Option CString) : Res Kernel := do
  let k := k.enter
  if noArgs args then return k.printf "Usage: mkdir <dirname>\n" []
  let (dir, k) ← fsCreateNode k (args.elim [] Subtype.val) .directory
  if dir = 0 then return k
  let k ← fsAddChild k k.currentDir dir
  return k.printf "Directory '%s' created.\n" (argText args)

/-- `cmd_rm` and `cmd_rmdir`: the child named by `args`, if it has the type, is removed -/
def removeNamed (type : FSNodeType) (usage removed missing : String) (k : Kernel)
    (args : Option CString) : Res Kernel := do
  let k := k.enter
  if noArgs args then return k.printf usage []
  let node ← fsFindChild k k.currentDir (args.elim [] Subtype.val)
  if node ≠ 0 ∧ (k.node node).type = type then
    let k ← fsRemoveChild removeBound k k.currentDir node
    return k.printf removed (argText args)
  else return k.printf missing (argText args)

def cmdRm : Kernel → Option CString → Res Kernel :=
  removeNamed .file "Usage: rm <filename>\n" "File '%s' removed.\n" "rm: No such file '%s'\n"

def cmdRmdir : Kernel → Option CString → Res Kernel :=
  removeNamed .directory "Usage: rmdir <dirname>\n" "Directory '%s' removed.\n"
    "rmdir: No such directory '%s'\n"

end FirstKernel
