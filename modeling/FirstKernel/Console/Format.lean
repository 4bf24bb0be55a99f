import FirstKernel.Console.Stdio
import FirstKernel.Lib.InPlace
import Mathlib.Data.List.DropRight

/-!
# `printf` on its format string

`printf` moves a pointer over the format, once more behind every `%`.  `printfAt` is that loop on a
memory: it gives the addresses of the format it reads beside the characters it prints.

* `printfAt_eq`          on a format that does not end inside a directive it is `printf`;
* `prints_iff`           `printf` against the directives read one after the other;
* `endsInside_iff`       a format ends inside a directive when it ends in an odd number of `%`;
* `stops_at_end_iff`     exactly then the loop runs past the terminator.
-/

namespace FirstKernel
open ByteMem Cells

/-- the loop of `printf` from `p` on: the addresses of the format read, and the characters printed -/
def printfAt (m : Mem) : Nat → Nat → List Arg → List Nat × Res (List Byte)
  | 0, _, _ => ([], .error .noFuel)
  | fuel+1, p, args =>
    if m p = 0 then ([p], .ok [])
    else if m p = chr '%' then
      match directive (m (p + 1)) args with
      | .error e => ([p, p + 1], .error e)
      | .ok (out, args) =>
        let (reads, rest) := printfAt m fuel (p + 2) args
        (p :: (p + 1) :: reads, rest.map (out ++ ·))
    else
      let (reads, rest) := printfAt m fuel (p + 1) args
      (p :: reads, rest.map (m p :: ·))

/-- the characters `s` and a terminator lie at `p` -/
def Holds (m : Mem) (p : Nat) : List Byte → Prop
  | [] => m p = 0
  | c :: s => m p = c ∧ Holds m (p + 1) s

/-- the format ends behind a `%` that starts a directive -/
def endsInside : List Byte → Bool
  | [] => false
  | [c] => c = chr '%'
  | c :: d :: format => if c = chr '%' then endsInside format else endsInside (d :: format)

/-! ## the directives one after the other -/

/-- what a two-character directive prints, and the arguments it leaves -/
inductive Converts : Byte → List Arg → List Byte → List Arg → Prop where
  | decimal {d : Byte} {w : Word} {args : List Arg} {text : List Byte} :
      d = chr 'd' ∨ d = chr 'u' → itoa w 10 = .ok text → Converts d (.num w :: args) text args
  | hex {d : Byte} {w : Word} {args : List Arg} {text : List Byte} :
      d = chr 'x' ∨ d = chr 'p' → itoa w 16 = .ok text →
        Converts d (.num w :: args) (str "0x" ++ text) args
  | string {s : List Byte} {args : List Arg} :
      Converts (chr 's') (.str s :: args) (s.takeWhile (· ≠ 0)) args
  | char {w : Word} {args : List Arg} : Converts (chr 'c') (.num w :: args) [w.setWidth 8] args
  | percent {args : List Arg} : Converts (chr '%') args [chr '%'] args
  | other {d : Byte} {args : List Arg} : d ∉ str "duxpsc%" → Converts d args [chr '%', d] args

/-- the characters of a format in order, each directive with the next argument -/
inductive Prints : List Byte → List Arg → List Byte → Prop where
  | done {args : List Arg} : Prints [] args []
  | char {c : Byte} {format out : List Byte} {args : List Arg} :
      c ≠ chr '%' → Prints format args out → Prints (c :: format) args (c :: out)
  | directive {d : Byte} {format text out : List Byte} {args args' : List Arg} :
      Converts d args text args' → Prints format args' out →
        Prints (chr '%' :: d :: format) args (text ++ out)

section
variable {d : Byte} {args args' : List Arg} {text : List Byte}

theorem nextNum_ok {w : Word} (h : nextNum args = .ok (w, args')) : args = .num w :: args' := by
  unfold nextNum at h
  split at h
  · cases h
    rfl
  · cases h

theorem nextStr_ok {t : List Byte} (h : nextStr args = .ok (t, args')) :
    ∃ s, args = .str s :: args' ∧ t = s.takeWhile (· ≠ 0) := by
  unfold nextStr at h
  split at h
  · cases h
    exact ⟨_, rfl, rfl⟩
  · cases h

theorem not_listed (h1 : ¬ (d = chr 'd' ∨ d = chr 'u')) (h2 : ¬ (d = chr 'x' ∨ d = chr 'p'))
    (h3 : d ≠ chr 's') (h4 : d ≠ chr 'c') (h5 : d ≠ chr '%') : d ∉ str "duxpsc%" := by
  intro h
  have e : str "duxpsc%" = [chr 'd', chr 'u', chr 'x', chr 'p', chr 's', chr 'c', chr '%'] := rfl
  rw [e] at h
  simp only [List.mem_cons, List.not_mem_nil, or_false] at h
  tauto

/-- the branches of the code give what the list of directives says -/
theorem converts_of_directive (h : directive d args = .ok (text, args')) :
    Converts d args text args' := by
  unfold directive at h
  by_cases h1 : d = chr 'd' ∨ d = chr 'u'
  · rw [if_pos h1] at h
    obtain ⟨⟨w, args1⟩, hn, h⟩ := bind_eq_ok h
    obtain ⟨t, ht, h⟩ := bind_eq_ok h
    cases h
    rw [nextNum_ok hn]
    exact .decimal h1 ht
  rw [if_neg h1] at h
  by_cases h2 : d = chr 'x' ∨ d = chr 'p'
  · rw [if_pos h2] at h
    obtain ⟨⟨w, args1⟩, hn, h⟩ := bind_eq_ok h
    obtain ⟨t, ht, h⟩ := bind_eq_ok h
    cases h
    rw [nextNum_ok hn]
    exact .hex h2 ht
  rw [if_neg h2] at h
  by_cases h3 : d = chr 's'
  · rw [if_pos h3] at h
    obtain ⟨s, rfl, rfl⟩ := nextStr_ok h
    rw [h3]
    exact .string
  rw [if_neg h3] at h
  by_cases h4 : d = chr 'c'
  · rw [if_pos h4] at h
    obtain ⟨⟨w, args1⟩, hn, h⟩ := bind_eq_ok h
    cases h
    rw [nextNum_ok hn, h4]
    exact .char
  rw [if_neg h4] at h
  by_cases h5 : d = chr '%'
  · rw [if_pos h5] at h
    cases h
    rw [h5]
    exact .percent
  · rw [if_neg h5] at h
    cases h
    exact .other (not_listed h1 h2 h3 h4 h5)

theorem directive_of_converts (h : Converts d args text args') :
    directive d args = .ok (text, args') := by
  unfold directive
  cases h with
  | decimal hd ht =>
    rw [if_pos hd, nextNum, bind_ok]
    dsimp only
    rw [ht]
    rfl
  | hex hd ht =>
    have hne : ¬ (d = chr 'd' ∨ d = chr 'u') := by
      rcases hd with rfl | rfl
      · decide
      · decide
    rw [if_neg hne, if_pos hd, nextNum, bind_ok]
    dsimp only
    rw [ht]
    rfl
  | string => rfl
  | char => rfl
  | percent => rfl
  | other hd =>
    have hmem : ∀ c ∈ str "duxpsc%", d ≠ c := fun c hc e => hd (e ▸ hc)
    have hne : ∀ c : Char, chr c ∈ str "duxpsc%" → d ≠ chr c := fun c => hmem (chr c)
    rw [if_neg (not_or.mpr ⟨hne 'd' (by decide), hne 'u' (by decide)⟩),
      if_neg (not_or.mpr ⟨hne 'x' (by decide), hne 'p' (by decide)⟩), if_neg (hne 's' (by decide)),
      if_neg (hne 'c' (by decide)), if_neg (hne '%' (by decide))]
    rfl

/-- **`printf` prints the directives one after the other.** -/
theorem prints_iff {format out : List Byte} : Prints format args out ↔ printf format args = .ok out := by
  constructor
  · intro h
    induction h with
    | done => rfl
    | char hc _ ih =>
      rw [printf_cons hc, ih]
      rfl
    | directive hd _ ih =>
      rw [printf_directive, directive_of_converts hd, bind_ok, ih]
      rfl
  · intro h
    induction format using endsInside.induct generalizing args out with
    | case1 =>
      cases h
      exact .done
    | case2 c =>
      rw [printf] at h
      split at h
      · cases h
      · next hc =>
        cases h
        exact .char hc .done
    | case3 d format ih =>
      rw [printf_directive] at h
      obtain ⟨⟨text, args1⟩, hd, h⟩ := bind_eq_ok h
      obtain ⟨rest, hr, rfl⟩ := map_eq_ok h
      exact .directive (converts_of_directive hd) (ih hr)
    | case4 c d format hc ih =>
      rw [printf_cons hc] at h
      obtain ⟨rest, hr, rfl⟩ := map_eq_ok h
      exact .char hc (ih hr)

end

/-! ## the loop over a memory -/

section
variable {m : Mem} {p n : Nat} {format : List Byte} {args : List Arg}

theorem printfAt_end (h : m p = 0) : printfAt m (n + 1) p args = ([p], .ok []) := by
  rw [printfAt, if_pos h]

theorem printfAt_char (h0 : m p ≠ 0) (hc : m p ≠ chr '%') : printfAt m (n + 1) p args
    = (p :: (printfAt m n (p + 1) args).1, (printfAt m n (p + 1) args).2.map (m p :: ·)) := by
  rw [printfAt, if_neg h0, if_neg hc]

theorem percent_ne_nul : chr '%' ≠ 0 := by decide

theorem printfAt_directive {text : List Byte} {args' : List Arg} (h : m p = chr '%')
    (hd : directive (m (p + 1)) args = .ok (text, args')) : printfAt m (n + 1) p args
      = (p :: (p + 1) :: (printfAt m n (p + 2) args').1,
        (printfAt m n (p + 2) args').2.map (text ++ ·)) := by
  rw [printfAt, if_neg (by rw [h]; exact percent_ne_nul), if_pos h, hd]

theorem printfAt_fault {e : Fault} (h : m p = chr '%') (hd : directive (m (p + 1)) args = .error e) :
    printfAt m (n + 1) p args = ([p, p + 1], .error e) := by
  rw [printfAt, if_neg (by rw [h]; exact percent_ne_nul), if_pos h, hd]

/-- the loop prints what `printf` does and reads the format up to its terminator only -/
def OnFormat (m : Mem) (p n : Nat) (format : List Byte) (args : List Arg) : Prop :=
  (printfAt m n p args).2 = printf format args ∧
    ∀ x ∈ (printfAt m n p args).1, p ≤ x ∧ x ≤ p + format.length

theorem OnFormat.nil (h : m p = 0) : OnFormat m p (n + 1) [] args := by
  unfold OnFormat
  rw [printfAt_end h]
  refine ⟨rfl, fun x hx => ?_⟩
  rw [List.mem_singleton.mp hx]
  exact ⟨Nat.le_refl _, Nat.le_refl _⟩

theorem OnFormat.cons {c : Byte} (ih : OnFormat m (p + 1) n format args) (hp : m p = c) (h0 : c ≠ 0)
    (hc : c ≠ chr '%') : OnFormat m p (n + 1) (c :: format) args := by
  subst hp
  unfold OnFormat
  rw [printfAt_char h0 hc, printf_cons hc, ih.1, List.length_cons]
  refine ⟨rfl, fun x hx => ?_⟩
  rcases List.mem_cons.mp hx with rfl | hx
  · omega
  · have := ih.2 x hx
    omega

theorem OnFormat.directive {d : Byte} (ih : ∀ args, OnFormat m (p + 2) n format args)
    (hp : m p = chr '%') (hd : m (p + 1) = d) :
    OnFormat m p (n + 1) (chr '%' :: d :: format) args := by
  subst hd
  unfold OnFormat
  rw [printf_directive, List.length_cons, List.length_cons]
  cases hdir : FirstKernel.directive (m (p + 1)) args with
  | error e =>
    rw [printfAt_fault hp hdir]
    refine ⟨rfl, fun x hx => ?_⟩
    rcases List.mem_cons.mp hx with rfl | hx
    · omega
    · rw [List.mem_singleton.mp hx]
      omega
  | ok r =>
    obtain ⟨h1, h2⟩ := ih r.2
    rw [printfAt_directive hp hdir, h1]
    refine ⟨rfl, fun x hx => ?_⟩
    rcases List.mem_cons.mp hx with rfl | hx
    · omega
    rcases List.mem_cons.mp hx with rfl | hx
    · omega
    · have := h2 x hx
      omega

/-- **On a format that ends outside a directive the loop is `printf` and reads nothing else.** -/
theorem printfAt_eq (h : Holds m p format) (hz : (0 : Byte) ∉ format)
    (he : endsInside format = false) (hn : format.length < n) : OnFormat m p n format args := by
  obtain ⟨n, rfl⟩ := Nat.exists_eq_add_one_of_ne_zero (Nat.ne_zero_of_lt hn)
  induction format using endsInside.induct generalizing p n args with
  | case1 => exact .nil h
  | case2 c =>
    rw [List.length_singleton] at hn
    obtain ⟨k, rfl⟩ := Nat.exists_eq_add_one_of_ne_zero
      (Nat.ne_zero_of_lt (Nat.lt_of_succ_lt_succ hn))
    have h0 : c ≠ 0 := (List.ne_of_not_mem_cons hz).symm
    exact .cons (.nil h.2) h.1 h0 (of_decide_eq_false he)
  | case3 d format ih =>
    rw [List.length_cons, List.length_cons] at hn
    obtain ⟨k, rfl⟩ := Nat.exists_eq_add_one_of_ne_zero
      (Nat.ne_zero_of_lt (Nat.lt_of_succ_lt_succ hn))
    have hz' := List.not_mem_of_not_mem_cons (List.not_mem_of_not_mem_cons hz)
    rw [endsInside, if_pos rfl] at he
    exact .directive (fun _ => ih h.2.2 hz' he k (by omega)) h.1 h.2.1
  | case4 c d format hc ih =>
    rw [List.length_cons] at hn
    obtain ⟨k, rfl⟩ := Nat.exists_eq_add_one_of_ne_zero
      (Nat.ne_zero_of_lt (Nat.lt_of_succ_lt_succ hn))
    have h0 : c ≠ 0 := (List.ne_of_not_mem_cons hz).symm
    rw [endsInside, if_neg hc] at he
    exact .cons (ih h.2 (List.not_mem_of_not_mem_cons hz) he k (by omega)) h.1 h0 hc

/-! ## a format that ends inside a directive -/

/-- an argument a directive can convert -/
def argFor (d : Byte) : List Arg :=
  if d ∈ str "duxpc" then [.num 0] else if d = chr 's' then [.str []] else []

/-- arguments for all directives of a format -/
def argsFor : List Byte → List Arg
  | [] => []
  | [_] => []
  | c :: d :: format => if c = chr '%' then argFor d ++ argsFor format else argsFor (d :: format)

theorem directive_argFor (d : Byte) (args : List Arg) :
    ∃ text, directive d (argFor d ++ args) = .ok (text, args) := by
  by_cases hnum : d ∈ str "duxpc"
  · have e : str "duxpc" = [chr 'd', chr 'u', chr 'x', chr 'p', chr 'c'] := rfl
    rw [e] at hnum
    simp only [List.mem_cons, List.not_mem_nil, or_false] at hnum
    rcases hnum with rfl | rfl | rfl | rfl | rfl
    · exact ⟨_, rfl⟩
    · exact ⟨_, rfl⟩
    · exact ⟨_, rfl⟩
    · exact ⟨_, rfl⟩
    · exact ⟨_, rfl⟩
  by_cases hs : d = chr 's'
  · subst hs
    exact ⟨_, rfl⟩
  have hnone : argFor d ++ args = args := by
    rw [argFor, if_neg hnum, if_neg hs, List.nil_append]
  rw [hnone]
  by_cases hp : d = chr '%'
  · subst hp
    exact ⟨_, rfl⟩
  · refine ⟨_, directive_of_converts (.other fun hm => ?_)⟩
    have e : str "duxpsc%" = str "duxp" ++ (chr 's' :: chr 'c' :: [chr '%']) := rfl
    have e' : str "duxpc" = str "duxp" ++ [chr 'c'] := rfl
    rw [e'] at hnum
    rw [e] at hm
    simp only [List.mem_append, List.mem_cons, List.not_mem_nil, or_false] at hm hnum
    tauto

theorem mem_printfAt (m : Mem) (p n : Nat) (args : List Arg) : p ∈ (printfAt m (n + 1) p args).1 := by
  rw [printfAt]
  by_cases h0 : m p = 0
  · rw [if_pos h0]
    exact List.mem_singleton_self p
  rw [if_neg h0]
  by_cases hc : m p = chr '%'
  · rw [if_pos hc]
    cases directive (m (p + 1)) args with
    | error e => exact List.mem_cons_self
    | ok r => exact List.mem_cons_self
  · rw [if_neg hc]
    exact List.mem_cons_self

/-- the terminator is taken for the second character of the directive, and the loop goes on -/
theorem reads_past (h : Holds m p format) (hz : (0 : Byte) ∉ format)
    (he : endsInside format = true) (hn : format.length < n) :
    p + format.length + 1 ∈ (printfAt m n p (argsFor format)).1 := by
  obtain ⟨n, rfl⟩ := Nat.exists_eq_add_one_of_ne_zero (Nat.ne_zero_of_lt hn)
  induction format using endsInside.induct generalizing p n with
  | case1 => cases he
  | case2 c =>
    rw [List.length_singleton] at hn ⊢
    obtain ⟨k, rfl⟩ := Nat.exists_eq_add_one_of_ne_zero
      (Nat.ne_zero_of_lt (Nat.lt_of_succ_lt_succ hn))
    have hc : c = chr '%' := of_decide_eq_true he
    have hdir : directive (m (p + 1)) [] = .ok ([chr '%', 0], []) := by
      rw [h.2]
      rfl
    rw [argsFor, printfAt_directive (h.1.trans hc) hdir]
    exact List.mem_cons_of_mem _ (List.mem_cons_of_mem _ (mem_printfAt m (p + 2) k []))
  | case3 d format ih =>
    rw [List.length_cons, List.length_cons] at hn ⊢
    obtain ⟨k, rfl⟩ := Nat.exists_eq_add_one_of_ne_zero
      (Nat.ne_zero_of_lt (Nat.lt_of_succ_lt_succ hn))
    have hz' := List.not_mem_of_not_mem_cons (List.not_mem_of_not_mem_cons hz)
    rw [endsInside, if_pos rfl] at he
    obtain ⟨text, hdir⟩ := directive_argFor d (argsFor format)
    have hmem := ih h.2.2 hz' he k (by omega)
    have hdir' : directive (m (p + 1)) (argFor d ++ argsFor format) = .ok (text, argsFor format) := by
      rw [h.2.1]
      exact hdir
    rw [argsFor, if_pos rfl, printfAt_directive h.1 hdir']
    refine List.mem_cons_of_mem _ (List.mem_cons_of_mem _ ?_)
    have e : p + (format.length + 1 + 1) + 1 = p + 1 + 1 + format.length + 1 := by omega
    rw [e]
    exact hmem
  | case4 c d format hc ih =>
    rw [List.length_cons] at hn ⊢
    obtain ⟨k, rfl⟩ := Nat.exists_eq_add_one_of_ne_zero
      (Nat.ne_zero_of_lt (Nat.lt_of_succ_lt_succ hn))
    have h0 : c ≠ 0 := (List.ne_of_not_mem_cons hz).symm
    rw [endsInside, if_neg hc] at he
    have hmem := ih h.2 (List.not_mem_of_not_mem_cons hz) he k (by omega)
    rw [argsFor, if_neg hc, printfAt_char (h.1 ▸ h0) (h.1 ▸ hc)]
    refine List.mem_cons_of_mem _ ?_
    have e : p + ((d :: format).length + 1) + 1 = p + 1 + (d :: format).length + 1 := by omega
    rw [e]
    exact hmem

/-- the run of `%` a format ends in -/
def percents (format : List Byte) : List Byte := format.rtakeWhile (· = chr '%')

theorem percents_all (h : ∀ c ∈ format, c = chr '%') : percents format = format :=
  List.rtakeWhile_eq_self_iff.mpr fun c hc => decide_eq_true (h c hc)

theorem takeWhile_length_iff {l : List Byte} :
    (l.takeWhile (· = chr '%')).length = l.length ↔ ∀ c ∈ l, c = chr '%' := by
  constructor
  · intro h c hc
    have e := (List.takeWhile_prefix _).eq_of_length h
    exact of_decide_eq_true (List.takeWhile_eq_self_iff.mp e c hc)
  · intro h
    rw [List.takeWhile_eq_self_iff.mpr fun c hc => decide_eq_true (h c hc)]

/-- another character in front joins the run only if the run is everything so far -/
theorem percents_cons_of_not (c : Byte) (h : ¬ ∀ c ∈ format, c = chr '%') :
    percents (c :: format) = percents format := by
  have hlen : ¬ (format.reverse.takeWhile (· = chr '%')).length = format.reverse.length := by
    rw [takeWhile_length_iff]
    exact fun hall => h fun c hc => hall c (List.mem_reverse.mpr hc)
  unfold percents List.rtakeWhile
  rw [List.reverse_cons, List.takeWhile_append, if_neg hlen]

theorem percents_cons {c : Byte} (hc : c ≠ chr '%') : percents (c :: format) = percents format := by
  by_cases hall : ∀ c ∈ format, c = chr '%'
  · have hlen : (format.reverse.takeWhile (· = chr '%')).length = format.reverse.length :=
      takeWhile_length_iff.mpr fun c hc => hall c (List.mem_reverse.mp hc)
    rw [percents_all hall]
    unfold percents List.rtakeWhile
    rw [List.reverse_cons, List.takeWhile_append, if_pos hlen,
      List.takeWhile_cons_of_neg (by simpa using hc), List.append_nil, List.reverse_reverse]
  · exact percents_cons_of_not c hall

/-- a whole directive in front does not change the parity of the run -/
theorem percents_directive (d : Byte) (format : List Byte) :
    (percents (chr '%' :: d :: format)).length % 2 = 0 ↔ (percents format).length % 2 = 0 := by
  by_cases hall : ∀ c ∈ d :: format, c = chr '%'
  · have hf : ∀ c ∈ format, c = chr '%' := fun c hc => hall c (List.mem_cons_of_mem _ hc)
    rw [percents_all (List.forall_mem_cons.mpr ⟨rfl, hall⟩), percents_all hf, List.length_cons,
      List.length_cons]
    omega
  · rw [percents_cons_of_not _ hall]
    by_cases hf : ∀ c ∈ format, c = chr '%'
    · have hd : d ≠ chr '%' := fun e => hall (List.forall_mem_cons.mpr ⟨e, hf⟩)
      rw [percents_cons hd]
    · rw [percents_cons_of_not _ hf]

/-- **A format ends outside a directive exactly when it ends in an even number of `%`.** -/
theorem endsInside_iff : endsInside format = false ↔ (percents format).length % 2 = 0 := by
  induction format using endsInside.induct with
  | case1 => exact iff_of_true rfl rfl
  | case2 c =>
    by_cases hc : c = chr '%'
    · have hone : percents [c] = [c] := percents_all fun d hd => (List.mem_singleton.mp hd).trans hc
      rw [endsInside, hone]
      exact iff_of_false (by simpa using hc) (by simp)
    · rw [endsInside, percents_cons hc]
      exact iff_of_true (decide_eq_false hc) rfl
  | case3 d format ih => rw [endsInside, if_pos rfl, ih, percents_directive]
  | case4 c d format hc ih => rw [endsInside, if_neg hc, ih, percents_cons hc]

end

/-- with a format of `n` characters at `p` the loop reads nothing behind the terminator, and prints
what the directives say wherever they say something -/
def StopsAtEnd (format : List Byte) : Prop :=
  ∀ (m : Mem) (p n : Nat) (args : List Arg), Holds m p format → format.length < n →
    (∀ x ∈ (printfAt m n p args).1, x ≤ p + format.length) ∧
    ∀ out, Prints format args out → (printfAt m n p args).2 = .ok out

theorem holds_storeN (m : Mem) (p : Nat) (s : List Byte) : Holds (storeN m p (s ++ [0])) p s := by
  induction s generalizing m p with
  | nil =>
    show storeN m p [0] p = 0
    rw [storeN_cons, storeN_nil, Function.update_self]
  | cons c s ih =>
    rw [List.cons_append, storeN_cons]
    refine ⟨?_, ih _ _⟩
    rw [storeN_out _ _ _ _ (.inl (Nat.lt_succ_self p)), Function.update_self]

/-- **`printf` stops at the end of its format exactly when the format ends in an even number of
`%`.** -/
theorem stops_at_end_iff (format : List Byte) (hz : (0 : Byte) ∉ format) :
    StopsAtEnd format ↔ (percents format).length % 2 = 0 := by
  rw [← endsInside_iff]
  constructor
  · intro h
    by_contra he
    have he := Bool.not_eq_false _ ▸ he
    have hm := holds_storeN (fun _ => 0) 0 format
    have hmem := reads_past hm hz he (Nat.lt_succ_self _)
    have hle := (h _ 0 _ (argsFor format) hm (Nat.lt_succ_self _)).1 _ hmem
    omega
  · intro he m p n args h hn
    have hon : OnFormat m p n format args := printfAt_eq h hz he hn
    refine ⟨fun x hx => (hon.2 x hx).2, fun out hp => ?_⟩
    rw [hon.1, prints_iff.mp hp]

/-- a format with two directives and an escaped `%` at its end -/
theorem stops_at_end_iff_two : StopsAtEnd (str "%s: %d%%") :=
  (stops_at_end_iff _ (by decide)).mpr (by decide)

/-- **After the `%` of "100%" the loop steps over the terminator.** -/
theorem percent_runs_past : ¬ ∀ format : List Byte, (0 : Byte) ∉ format → StopsAtEnd format := by
  intro hall
  have hm := holds_storeN (fun _ => 0) 0 (str "100%")
  have hmem := reads_past hm (by decide) rfl (Nat.lt_succ_self _)
  have hle := (hall _ (by decide) _ 0 _ _ hm (Nat.lt_succ_self _)).1 _ hmem
  exact absurd hle (by decide)

end FirstKernel
