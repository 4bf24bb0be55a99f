import FirstKernel.Console.Stdio

/-!
# `keyboard.cpp` and `shell.cpp`: key events and the line being typed

`kbToAscii` reads the scancode table; `shellHandleKey` edits `shell_buffer` and echoes.  What a
command does on `Enter` is given by an `Answer`: the characters it writes to the terminal and what
it leaves in the line buffer.
-/

namespace FirstKernel
open ByteMem

structure KeyboardEvent where
  scancode : Byte
  shift : Bool
  capsLock : Bool
  ctrl : Bool
  alt : Bool
  special : Bool
  release : Bool
  enter : Bool
  backspace : Bool

def scancodeToAscii : List Byte :=
  [0, 0,
    chr '1', chr '2', chr '3', chr '4', chr '5', chr '6', chr '7', chr '8', chr '9', chr '0',
    chr '-', chr '=',
    0, 0,
    chr 'q', chr 'w', chr 'e', chr 'r', chr 't', chr 'y', chr 'u', chr 'i', chr 'o', chr 'p',
    chr '[', chr ']',
    0, 0,
    chr 'a', chr 's', chr 'd', chr 'f', chr 'g', chr 'h', chr 'j', chr 'k', chr 'l',
    chr ';', chr '\'', 0x60,
    0, chr '\\',
    chr 'z', chr 'x', chr 'c', chr 'v', chr 'b', chr 'n', chr 'm', chr ',', chr '.', chr '/',
    0, chr '*', 0, chr ' '] ++ List.replicate 70 0

def toupper (c : Byte) : Byte :=
  if chr 'a' ≤ c ∧ c ≤ chr 'z' then c - (chr 'a' - chr 'A') else c

/-- `capsLockActive` is the keyboard driver's static flag -/
def kbToAscii (capsLockActive : Bool) (event : KeyboardEvent) : Byte :=
  let scancode := event.scancode
  if scancode < 128 then
    let ascii := scancodeToAscii.getD scancode.toNat 0
    if event.shift ∨ capsLockActive then
      if chr 'a' ≤ ascii ∧ ascii ≤ chr 'z' then toupper ascii else ascii
    else ascii
  else 0

def shellBufferSize : Nat := 256

def inputEnabled : Bool := true

/-- `shell_buffer`, `shell_index` and the terminal they are echoed on -/
structure Shell where
  term : Terminal
  buffer : Mem
  index : Nat

/-- `shell_buffer[i] = c` -/
def Shell.setBuffer (k : Shell) (i : Nat) (c : Byte) : Res Shell :=
  if i < shellBufferSize then .ok { k with buffer := store8 k.buffer i c }
  else .error .outOfBounds

def Shell.printf (k : Shell) (format : List Byte) (args : List Arg) : Res Shell := do
  return { k with term := ← k.term.printf format args }

/-- what a command line does: its output and the line buffer it leaves -/
structure Answer where
  out : List Byte
  buffer : Mem

def Shell.processCommand (k : Shell) (answer : Answer) : Shell :=
  { k with term := k.term.write answer.out, buffer := answer.buffer }

/-- the body of both backspace branches -/
def Shell.backspace (k : Shell) : Res Shell :=
  if k.index > 0 then
    let k := { k with index := k.index - 1 }
    k.printf (str "\x08 \x08") []
  else return k

def shellHandleKey (k : Shell) (capsLockActive : Bool) (ke : KeyboardEvent) (answer : Answer) :
    Res Shell :=
  if ¬ inputEnabled then return k
  else if ke.scancode = chr '\x08' ∨ ke.scancode = 127 then k.backspace
  else if ke.scancode = chr '\n' ∨ ke.scancode = chr '\r' ∨ ke.enter then do
    let k ← k.setBuffer k.index 0
    let k ← k.printf (str "\n") []
    let k := k.processCommand answer
    let k := { k with index := 0 }
    k.printf (str "nutshell> ") []
  else if ke.backspace then k.backspace
  else
    let c := kbToAscii capsLockActive ke
    if c ≠ 0 then
      if k.index < shellBufferSize - 1 then do
        let k ← k.setBuffer k.index c
        let k := { k with index := k.index + 1 }
        k.printf (str "%c") [.num (c.signExtend 32)]
      else return k
    else return k

def shellInit (k : Shell) : Res Shell := do
  let k ← k.printf (str "Welcome to nutshell!\n") []
  k.printf (str "nutshell> ") []

end FirstKernel
