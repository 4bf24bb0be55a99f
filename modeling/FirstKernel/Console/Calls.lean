import FirstKernel.Console.Format
import FirstKernel.Console.Itoa
import FirstKernel.Fs.Cat

/-!
# Calls of `printf` that print

`Machine.console` keeps the calls; `render` gives the characters they send to the terminal.

* `wellTyped`        each directive has an argument of its kind, in the range of `itoa`;
* `printf_typed`     such a call prints.
-/

namespace FirstKernel
open ByteMem

/-- the characters of the calls, one after the other -/
def render : List Printf → Res (List Byte)
  | [] => return []
  | call :: calls => do return (← call.text) ++ (← render calls)

/-- the arguments behind those of a directive, if they are what it takes -/
def takes (d : Byte) (args : List Arg) : Option (List Arg) :=
  if d = chr 'd' ∨ d = chr 'u' then
    match args with
    | .num w :: args => if w = 0x80000000 then none else some args
    | _ => none
  else if d = chr 'x' ∨ d = chr 'p' then
    match args with
    | .num w :: args => if w.toNat < 2^31 then some args else none
    | _ => none
  else if d = chr 's' then
    match args with
    | .str _ :: args => some args
    | _ => none
  else if d = chr 'c' then
    match args with
    | .num _ :: args => some args
    | _ => none
  else some args

/-- every directive finds its argument, and the format does not end inside one -/
def wellTyped : List Byte → List Arg → Bool
  | [], _ => true
  | [c], _ => c ≠ chr '%'
  | c :: d :: format, args =>
    if c = chr '%' then
      match takes d args with
      | none => false
      | some args => wellTyped format args
    else wellTyped (d :: format) args

section
variable {d : Byte} {args args' : List Arg} {format : List Byte} {calls calls' : List Printf}
  {out out' : List Byte}

theorem converts_of_takes (h : takes d args = some args') : ∃ text, Converts d args text args' := by
  unfold takes at h
  by_cases h1 : d = chr 'd' ∨ d = chr 'u'
  · rw [if_pos h1] at h
    split at h
    · next w args =>
      by_cases hw : w = 0x80000000
      · rw [if_pos hw] at h
        cases h
      · rw [if_neg hw] at h
        cases h
        exact ⟨_, .decimal h1 (itoa_decimal hw)⟩
    · cases h
  rw [if_neg h1] at h
  by_cases h2 : d = chr 'x' ∨ d = chr 'p'
  · rw [if_pos h2] at h
    split at h
    · next w args =>
      by_cases hw : w.toNat < 2^31
      · rw [if_pos hw] at h
        cases h
        exact ⟨_, .hex h2 (itoa_hex hw)⟩
      · rw [if_neg hw] at h
        cases h
    · cases h
  rw [if_neg h2] at h
  by_cases h3 : d = chr 's'
  · rw [if_pos h3] at h
    split at h
    · cases h
      rw [h3]
      exact ⟨_, .string⟩
    · cases h
  rw [if_neg h3] at h
  by_cases h4 : d = chr 'c'
  · rw [if_pos h4] at h
    split at h
    · cases h
      rw [h4]
      exact ⟨_, .char⟩
    · cases h
  rw [if_neg h4] at h
  cases h
  by_cases h5 : d = chr '%'
  · rw [h5]
    exact ⟨_, .percent⟩
  · exact ⟨_, .other (not_listed h1 h2 h3 h4 h5)⟩

/-- **A call whose arguments fit its format prints.** -/
theorem printf_typed (h : wellTyped format args = true) : ∃ out, printf format args = .ok out := by
  suffices hp : ∃ out, Prints format args out by
    obtain ⟨out, hp⟩ := hp
    exact ⟨out, prints_iff.mp hp⟩
  induction format, args using wellTyped.induct with
  | case1 args => exact ⟨[], .done⟩
  | case2 c args =>
    rw [wellTyped] at h
    exact ⟨[c], .char (of_decide_eq_true h) .done⟩
  | case3 d format args hf =>
    rw [wellTyped, if_pos rfl, hf] at h
    cases h
  | case4 d format args args' hf ih =>
    rw [wellTyped, if_pos rfl, hf] at h
    obtain ⟨text, ht⟩ := converts_of_takes hf
    obtain ⟨out, ho⟩ := ih h
    exact ⟨text ++ out, .directive ht ho⟩
  | case5 c d format args hc ih =>
    rw [wellTyped, if_neg hc] at h
    obtain ⟨out, ho⟩ := ih h
    exact ⟨c :: out, .char hc ho⟩

theorem wellTyped_char {c : Byte} (hc : c ≠ chr '%') :
    wellTyped (c :: format) args = wellTyped format args := by
  cases format with
  | nil =>
    rw [wellTyped, wellTyped]
    exact decide_eq_true hc
  | cons d format => rw [wellTyped, if_neg hc]

theorem wellTyped_literal {cs : List Byte} (h : chr '%' ∉ cs) :
    wellTyped (cs ++ format) args = wellTyped format args := by
  induction cs with
  | nil => rfl
  | cons c cs ih =>
    rw [List.cons_append, wellTyped_char (List.ne_of_not_mem_cons h).symm,
      ih (List.not_mem_of_not_mem_cons h)]

theorem wellTyped_directive (h : takes d args = some args') :
    wellTyped (chr '%' :: d :: format) args = wellTyped format args' := by
  rw [wellTyped, if_pos rfl, h]

theorem takes_decimal {w : Word} (h : w ≠ 0x80000000) (args : List Arg) :
    takes (chr 'd') (.num w :: args) = some args := by
  unfold takes
  rw [if_pos (.inl rfl)]
  exact if_neg h

theorem takes_hex {w : Word} (h : w.toNat < 2^31) (args : List Arg) :
    takes (chr 'x') (.num w :: args) = some args := by
  unfold takes
  rw [if_neg (by decide), if_pos (.inl rfl)]
  exact if_pos h

/-! ## several calls -/

theorem render_append (h : render calls = .ok out) (h' : render calls' = .ok out') :
    render (calls ++ calls') = .ok (out ++ out') := by
  induction calls generalizing out with
  | nil =>
    cases h
    exact h'
  | cons call calls ih =>
    obtain ⟨text, ht, h⟩ := bind_eq_ok h
    obtain ⟨rest, hr, h⟩ := bind_eq_ok h
    cases h
    rw [List.cons_append, render, ht, ih hr, List.append_assoc]
    rfl

theorem render_one {call : Printf} (h : wellTyped (str call.format) call.args = true) :
    ∃ out, render [call] = .ok out := by
  obtain ⟨out, ho⟩ := printf_typed h
  refine ⟨out ++ [], ?_⟩
  rw [render, show call.text = .ok out from ho]
  rfl

end

end FirstKernel
