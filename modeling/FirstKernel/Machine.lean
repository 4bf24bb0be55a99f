import FirstKernel.Lib.ByteMem
import FirstKernel.Lib.Cells

/-!
# The machine under the kernel

i686: `size_t`, pointers and `uint32_t` are 32-bit words and all arithmetic on them wraps.
`Machine` holds the memory, the allocator's static `free_list` and the calls of `printf` so far.

A step that the C code may not take ends in a `Fault`: a null pointer read or written through,
an index outside a local array, a loop that does not end within its bound.
-/

namespace FirstKernel
open ByteMem

abbrev Word := BitVec 32

/-- the byte of a character -/
def chr (c : Char) : Byte := BitVec.ofNat 8 c.toNat

/-- the bytes of a string, without the terminator -/
def str (s : String) : List Byte := s.toList.map chr

/-- an argument of a `printf` call -/
inductive Arg where
  | num (w : Word)
  | str (s : List Byte)
deriving DecidableEq, Repr

structure Printf where
  format : String
  args : List Arg
deriving DecidableEq, Repr

inductive Fault where
  | nullDeref
  | outOfBounds
  | noFuel
deriving DecidableEq, Repr

abbrev Res := Except Fault

section
variable {α β : Type}

@[simp] theorem bind_ok (x : α) (f : α → Res β) : ((.ok x : Res α) >>= f) = f x := rfl
@[simp] theorem bind_error (e : Fault) (f : α → Res β) :
    ((.error e : Res α) >>= f) = .error e := rfl
@[simp] theorem pure_ok (x : α) : (pure x : Res α) = .ok x := rfl

theorem bind_eq_ok {x : Res α} {f : α → Res β} {b : β} (h : (x >>= f) = .ok b) :
    ∃ a, x = .ok a ∧ f a = .ok b := by
  cases x with
  | error e => cases h
  | ok a => exact ⟨a, rfl, h⟩

theorem toOption_eq_some {x : Res α} {a : α} (h : x.toOption = some a) : x = .ok a := by
  cases x with
  | error e => cases h
  | ok b => exact congrArg _ (Option.some.inj h)

theorem map_eq_ok {x : Res α} {f : α → β} {b : β} (h : x.map f = .ok b) :
    ∃ a, x = .ok a ∧ f a = b := by
  cases x with
  | error e => cases h
  | ok a => exact ⟨a, rfl, Except.ok.inj h⟩

end

structure Machine where
  mem : Mem
  freeList : Word
  console : List Printf

def Machine.printf (s : Machine) (format : String) (args : List Arg) : Machine :=
  { s with console := s.console ++ [⟨format, args⟩] }

@[simp] theorem Machine.printf_mem (s : Machine) (f : String) (args : List Arg) :
    (s.printf f args).mem = s.mem := rfl
@[simp] theorem Machine.printf_freeList (s : Machine) (f : String) (args : List Arg) :
    (s.printf f args).freeList = s.freeList := rfl
@[simp] theorem Machine.printf_console (s : Machine) (f : String) (args : List Arg) :
    (s.printf f args).console = s.console ++ [⟨f, args⟩] := rfl

/-- the machine at power-on: cleared memory, zeroed statics -/
def bootMachine : Machine := ⟨fun _ => 0, 0, []⟩

end FirstKernel
