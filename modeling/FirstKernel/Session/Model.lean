import FirstKernel.Fs.Stock
import FirstKernel.Fs.Messages
import FirstKernel.Console.Editor

/-!
# A session at the keyboard

`ShellSession` is the whole of what a key works on: the driver's flags, the line and the screen, the
static pointer of `strtok` and the kernel.

* `keyboardCallback`   from the scancode to the screen, with the command that Enter starts;
* `bootSession`        what `kernel_main` leaves before it enables interrupts;
* `shellSessions`      the runs from there, one scancode after the other.

A command line runs before the key handler that starts it: what it prints and leaves in the line buffer
is then handed to `shellHandleKey` as the answer.
-/

namespace FirstKernel
open ByteMem Cells

/-- `timerTicks` is what `get_ticks` returns -/
def cmdUptime (timerTicks : Word) (k : Kernel) (_args : Option CString) : Res Kernel :=
  return k.printf "Uptime: %u ms\n" [.num timerTicks]

/-- the functions that the table points to -/
def CommandFunc.call (timerTicks : Word) : CommandFunc → Kernel → Option CString → Res Kernel
  | .cmdHelp => FirstKernel.cmdHelp
  | .cmdLs => FirstKernel.cmdLs
  | .cmdCd => FirstKernel.cmdCd
  | .cmdCat => fun k args => (FirstKernel.cmdCat k args).map Prod.snd
  | .cmdTouch => FirstKernel.cmdTouch
  | .cmdMkdir => FirstKernel.cmdMkdir
  | .cmdRm => FirstKernel.cmdRm
  | .cmdRmdir => FirstKernel.cmdRmdir
  | .cmdUptime => FirstKernel.cmdUptime timerTicks

structure ShellSession where
  keyboard : Keyboard
  shell : Shell
  strtok : Strtok
  kernel : Kernel

/-- the C string at the start of some bytes -/
def cString (s : List Byte) : CString := ⟨s.takeWhile (· ≠ 0), fun h => by
  simpa using List.mem_takeWhile_imp h⟩

/-- `shell_process_command(shell_buffer)`: what it prints, and the buffer that `strtok` has cut -/
def ShellSession.processCommand (t : ShellSession) (timerTicks : Word) (line : CString) :
    Res (Answer × Strtok × Kernel) := do
  let (strtok, kernel) ← shellProcessCommand (CommandFunc.call timerTicks) t.strtok t.kernel line
  let out ← render (kernel.heap.console.drop t.kernel.heap.console.length)
  let buffer := store8 t.shell.buffer t.shell.index 0
  return (⟨out, storeN buffer 0 strtok.text⟩, strtok, kernel)

/-- `keyboard_callback`; `event` is the local that `read_keyboard` fills in -/
def keyboardCallback (t : ShellSession) (timerTicks : Word) (event : KeyboardEvent) (scancode : Byte) :
    Res ShellSession := do
  let (ke, keyboard) := readKeyboard t.keyboard event scancode
  match shellCommandLine t.shell ke with
  | none =>
    let shell ← shellHandleKey t.shell keyboard.capsLockActive ke ⟨[], t.shell.buffer⟩
    return { t with keyboard := keyboard, shell := shell }
  | some line =>
    let (answer, strtok, kernel) ← t.processCommand timerTicks (cString line)
    let shell ← shellHandleKey t.shell keyboard.capsLockActive ke answer
    return ⟨keyboard, shell, strtok, kernel⟩

/-- `fs_init`, the built-in file and `shell_init`; `out` is all that is printed before the welcome -/
def bootSession (s : Machine) (term : Terminal) (out : List Byte) : Res ShellSession := do
  let k ← fsInit (Kernel.boot s)
  let k ← createReadme k
  let shell ← shellInit ⟨Terminal.write term.initialize out, fun _ => 0, 0⟩
  return ⟨⟨false, false⟩, shell, ⟨[], none⟩, k⟩

/-- a scancode, with the ticks at that time -/
structure Stroke where
  timerTicks : Word
  event : KeyboardEvent
  scancode : Byte

def shellSessions : Run.System ShellSession Stroke where
  init t := ∃ s term out, bootSession s term out = .ok t
  step t x t' := keyboardCallback t x.timerTicks x.event x.scancode = .ok t'

end FirstKernel
