import FirstKernel.Console.Terminal

/-!
# `stdio.cpp`: `itoa` and `printf`

`printf` gives the characters it sends to the terminal, in order.  The digit table of `itoa` has 16
digits, its local array 32 characters and so has the buffer `printf` hands to it; a read past the
terminator of the format or past the arguments is out of bounds.
-/

namespace FirstKernel
open ByteMem

def digits : List Byte := str "0123456789ABCDEF"

/-- `digits[i]` -/
def digit (i : Int) : Res Byte :=
  if 0 ≤ i ∧ i < 16 then .ok (digits.getD i.toNat 0) else .error .outOfBounds

/-- the `do` loop with room for `k` more characters; `temp` holds those stored, the last one first -/
def itoaLoop (base : Word) : Nat → Word → List Byte → Res (List Byte × Nat)
  | 0, _, _ => .error .outOfBounds
  | k+1, value, temp => do
    let d ← digit (value.srem base).toInt
    let value := value.sdiv base
    if 0 < value.toInt then itoaLoop base k value (d :: temp) else return (d :: temp, k)

def itoa (value base : Word) : Res (List Byte) := do
  let isNegative := base = 10 ∧ value.toInt < 0
  let value := if isNegative then -value else value
  let (temp, room) ← itoaLoop base 32 value []
  -- the sign takes one place of `temp`, the terminator one of the caller's buffer
  if isNegative then
    if room < 2 then .error .outOfBounds else return chr '-' :: temp
  else if room < 1 then .error .outOfBounds
  else return temp

/-- `va_arg` for a word -/
def nextNum : List Arg → Res (Word × List Arg)
  | .num w :: args => .ok (w, args)
  | _ => .error .outOfBounds

/-- `va_arg` for a string, read up to its terminator -/
def nextStr : List Arg → Res (List Byte × List Arg)
  | .str s :: args => .ok (s.takeWhile (· ≠ 0), args)
  | _ => .error .outOfBounds

/-- one directive: its characters and the arguments left -/
def directive (d : Byte) (args : List Arg) : Res (List Byte × List Arg) :=
  if d = chr 'd' ∨ d = chr 'u' then do
    let (num, args) ← nextNum args
    return (← itoa num 10, args)
  else if d = chr 'x' ∨ d = chr 'p' then do
    let (num, args) ← nextNum args
    return (str "0x" ++ (← itoa num 16), args)
  else if d = chr 's' then nextStr args
  else if d = chr 'c' then do
    let (num, args) ← nextNum args
    return ([num.setWidth 8], args)
  else if d = chr '%' then return ([chr '%'], args)
  else return ([chr '%', d], args)

def printf : List Byte → List Arg → Res (List Byte)
  | [], _ => return []
  | [c], _ => if c = chr '%' then .error .outOfBounds else return [c]
  | c :: d :: format, args =>
    if c = chr '%' then do
      let (out, args) ← directive d args
      return out ++ (← printf format args)
    else return c :: (← printf (d :: format) args)

/-- what `printf` sends to the terminal -/
def Terminal.printf (t : Terminal) (format : List Byte) (args : List Arg) : Res Terminal :=
  (FirstKernel.printf format args).map t.write

/-! ## one character and one directive -/

theorem printf_cons {c : Byte} (hc : c ≠ chr '%') (format : List Byte) (args : List Arg) :
    printf (c :: format) args = (printf format args).map (c :: ·) := by
  cases format with
  | nil =>
    show printf [c] args = .ok [c]
    rw [printf, if_neg hc]
    rfl
  | cons d format =>
    rw [printf, if_neg hc]
    cases printf (d :: format) args with
    | error e => rfl
    | ok out => rfl

theorem printf_directive (d : Byte) (format : List Byte) (args : List Arg) :
    printf (chr '%' :: d :: format) args
      = directive d args >>= fun r => (printf format r.2).map (r.1 ++ ·) := by
  rw [printf, if_pos rfl]
  cases directive d args with
  | error e => rfl
  | ok r =>
    show (printf format r.2 >>= _) = Except.map _ (printf format r.2)
    cases printf format r.2 with
    | error e => rfl
    | ok out => rfl

/-- a format without directives is sent as it is -/
theorem printf_literal (cs : List Byte) (args : List Arg) (h : chr '%' ∉ cs) :
    printf cs args = .ok cs := by
  induction cs with
  | nil => rfl
  | cons c cs ih =>
    rw [printf_cons (List.ne_of_not_mem_cons h).symm, ih (List.not_mem_of_not_mem_cons h)]
    rfl

/-- the one-character format -/
theorem printf_char (w : Word) (args : List Arg) :
    printf (str "%c") (.num w :: args) = .ok [w.setWidth 8] := by
  have e : directive (chr 'c') (.num w :: args) = .ok ([w.setWidth 8], args) := by
    unfold directive
    rw [if_neg (by decide), if_neg (by decide), if_neg (by decide), if_pos rfl]
    rfl
  show printf (chr '%' :: [chr 'c']) _ = _
  rw [printf_directive, e]
  rfl

example : printf (str "%d,%x:%s%%%c%q") [.num (-15), .num 0x1F, .str (str "ab"), .num 0x141]
    = .ok (str "-15,0x1F:ab%A%q") := by decide +kernel

end FirstKernel
