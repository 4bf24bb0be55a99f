import FirstKernel.Fs.Dispatch
import FirstKernel.Lib.Arena
import FirstKernel.Lib.Rose

/-!
# What the commands are for

A `Volume` is a tree of names with a place in it, and a number of bytes that have not been given out yet.
There are no nodes, no addresses to follow and no memory: a command gives what is printed and the volume
behind it.

* `Volume.take`, `Volume.add`   memory, and a new entry in the working directory;
* `Volume.find`                 the entry that a name stands for;
* `Volume.ls`, `Volume.cd`, …   the commands;
* `Volume.start`                the volume that `kernel_main` sets up.
-/

namespace FirstKernel
open ByteMem Tiling Rose

/-- a file by its text, a directory by whether it can list anything -/
inductive Content where
  | file (text : List Byte)
  | directory (lists : Bool)
deriving DecidableEq, Repr

def Content.type : Content → FSNodeType
  | .file _ => .file
  | .directory _ => .directory

structure Item where
  name : List Byte
  content : Content
deriving DecidableEq, Repr

/-- `left` is the memory that is left, `path` the way to the working directory -/
structure Volume where
  left : Arena
  tree : RoseTree Item
  path : List Nat

/-- the working directory; the path always leads to one, by `Depicts.here` -/
def Volume.here (v : Volume) : RoseTree Item := (v.tree.at v.path).getD v.tree

/-- `n` bytes of memory: whether there are as many, and what is said about it -/
def Volume.take (v : Volume) (n : Nat) : Bool × List Printf × Volume :=
  match v.left.grab 12 16 n with
  | none =>
    (false, [⟨"[HEAP] Error: No free block large enough for %d bytes!\n", [.num (BitVec.ofNat 32 n)]⟩], v)
  | some (a, left) =>
    (true, [⟨"[HEAP] Allocated %d bytes at 0x%x\n",
      [.num (BitVec.ofNat 32 n), .num (BitVec.ofNat 32 (a + 12))]⟩], { v with left := left })

/-- a new entry at the end of the working directory -/
def Volume.add (v : Volume) (x : Item) : Res (List Printf × Volume) :=
  if v.here.children.length ≥ maxChildren then
    return ([⟨"Error: directory '%s' is full.\n", [.str v.here.label.name]⟩], v)
  else if v.here.label.content = .directory false then .error .nullDeref
  else
    let push := fun t : RoseTree Item => t.setChildren (t.children ++ [.leaf x])
    return ([], { v with tree := v.tree.modify push v.path })

/-- the first entry with the name, and its place -/
def Volume.find (v : Volume) (name : List Byte) : Option (Nat × Item) :=
  (v.here.children.findIdx? fun t => t.label.name = name).bind fun i =>
    v.here.children[i]?.map fun t => (i, t.label)

/-! ## the commands -/

/-- a line with a name in it, and nothing else -/
def Volume.say (v : Volume) (format : String) (name : List Byte) : List Printf × Volume :=
  ([⟨format, [.str name]⟩], v)

def Item.listing (x : Item) : Printf :=
  ⟨if x.content.type = .file then "%s  " else "%s/  ", [.str x.name]⟩

def Volume.ls (v : Volume) : List Printf × Volume :=
  ((v.here.children.map fun t => t.label.listing) ++ [⟨"\n", []⟩], v)

def Volume.cd (v : Volume) (name : List Byte) : List Printf × Volume :=
  if name = str ".." then
    if v.path = [] then ([⟨"Already at root.\n", []⟩], v)
    else ([], { v with path := v.path.dropLast })
  else match v.find name with
    | some (i, ⟨_, .directory _⟩) => ([], { v with path := v.path ++ [i] })
    | _ => v.say "cd: No such directory '%s'\n" name

def Volume.cat (v : Volume) (name : List Byte) : List Printf × Volume :=
  match v.find name with
  | some (_, ⟨_, .file text⟩) => v.say "%s\n" text
  | _ => v.say "cat: No such file '%s'\n" name

/-- a file has 256 bytes of memory, and without them a null pointer is cleared -/
def Volume.touch (v : Volume) (name : List Byte) : Res (List Printf × Volume) := do
  let (granted, out1, v) := v.take 96
  if !granted then return (out1, v)
  let (granted, out2, v) := v.take 256
  if !granted then .error .nullDeref
  let (out3, v) ← v.add ⟨name.take 63, .file []⟩
  return (out1 ++ out2 ++ out3 ++ [⟨"File '%s' created.\n", [.str name]⟩], v)

/-- without memory for its list a directory is made that cannot list anything -/
def Volume.mkdir (v : Volume) (name : List Byte) : Res (List Printf × Volume) := do
  let (granted, out1, v) := v.take 96
  if !granted then return (out1, v)
  let (lists, out2, v) := v.take 128
  let (out3, v) ← v.add ⟨name.take 63, .directory lists⟩
  return (out1 ++ out2 ++ out3 ++ [⟨"Directory '%s' created.\n", [.str name]⟩], v)

/-- `rm` and `rmdir`: the entry goes with all that is below it, and no memory comes back -/
def Volume.remove (v : Volume) (type : FSNodeType) (removed missing : String) (name : List Byte) :
    List Printf × Volume :=
  match v.find name with
  | some (i, x) =>
    if x.content.type = type then
      let drop := fun t : RoseTree Item => t.setChildren (t.children.eraseIdx i)
      { v with tree := v.tree.modify drop v.path }.say removed name
    else v.say missing name
  | none => v.say missing name

/-- a line of `help` -/
def ShellCommand.line (c : ShellCommand) : Printf :=
  ⟨"  %s: %s\n", [.str (c.name.getD []), .str (c.description.getD [])]⟩

/-- what a command says when it has no argument and needs one -/
def CommandFunc.usage : CommandFunc → Option String
  | .cmdCd => some "Usage: cd <directory>\n"
  | .cmdCat => some "Usage: cat <file>\n"
  | .cmdTouch => some "Usage: touch <filename>\n"
  | .cmdMkdir => some "Usage: mkdir <dirname>\n"
  | .cmdRm => some "Usage: rm <filename>\n"
  | .cmdRmdir => some "Usage: rmdir <dirname>\n"
  | .cmdHelp | .cmdLs | .cmdUptime => none

/-- a command with its argument -/
def Volume.callWith (v : Volume) (timerTicks : Word) (f : CommandFunc) (name : List Byte) :
    Res (List Printf × Volume) :=
  match f with
  | .cmdHelp => return (⟨"Available commands:\n", []⟩ :: registered.map ShellCommand.line, v)
  | .cmdLs => return v.ls
  | .cmdCd => return v.cd name
  | .cmdCat => return v.cat name
  | .cmdTouch => v.touch name
  | .cmdMkdir => v.mkdir name
  | .cmdRm => return v.remove .file "File '%s' removed.\n" "rm: No such file '%s'\n" name
  | .cmdRmdir =>
    return v.remove .directory "Directory '%s' removed.\n" "rmdir: No such directory '%s'\n" name
  | .cmdUptime => return ([⟨"Uptime: %u ms\n", [.num timerTicks]⟩], v)

def Volume.call (v : Volume) (timerTicks : Word) (f : CommandFunc) (name : Option (List Byte)) :
    Res (List Printf × Volume) :=
  match name, f.usage with
  | none, some usage => return ([⟨usage, []⟩], v)
  | none, none => v.callWith timerTicks f []
  | some name, _ => v.callWith timerTicks f name

theorem Volume.call_bare {f : CommandFunc} {usage : String} (hu : f.usage = some usage) (v : Volume)
    (timerTicks : Word) : v.call timerTicks f none = .ok ([⟨usage, []⟩], v) := by
  unfold Volume.call
  rw [hu]
  rfl

theorem Volume.call_plain {f : CommandFunc} (hu : f.usage = none) (v : Volume) (timerTicks : Word) :
    v.call timerTicks f none = v.callWith timerTicks f [] := by
  unfold Volume.call
  rw [hu]

/-- the root with the built-in file, and what is left of the heap -/
def Volume.start : Volume where
  left := .rest 0x008001F0 0x007FFE04
  tree := .node ⟨str "/", .directory true⟩ [.leaf ⟨str "README", .file (str "Welcome to ContinuumOS!")⟩]
  path := []

end FirstKernel
