import FirstKernel.Machine
import FirstKernel.Lib.Tokens
import Mathlib.Data.List.TakeWhile

/-!
# `string.cpp`: `strtok`

The static `last` is an index into the string given last, whose bytes up to its terminator are `text`;
null is `none`.

* `strtok_none`    no token is left;
* `strtok_token`   the next token, and what is behind it.
-/

namespace FirstKernel
open ByteMem Tokens

/-- the index of the first `c` -/
def strchr (s : List Byte) (c : Byte) : Option Nat := (s.takeWhile (· ≠ 0)).findIdx? (· == c)

structure Strtok where
  text : List Byte
  last : Option Nat
deriving DecidableEq, Repr

/-- the rounds of `while (p(*last)) last++` from `s` on -/
def rounds (p : Byte → Bool) (s : List Byte) : Nat := (s.takeWhile p).length

def strtok (s : Strtok) (str : Option (List Byte)) (delim : List Byte) : Option Nat × Strtok :=
  let s : Strtok := match str with
    | some text => ⟨text, some 0⟩
    | none => s
  match s.last with
  | none => (none, s)
  | some last =>
    -- skip leading delimiters
    let last := last + rounds (fun c => c ≠ 0 ∧ strchr delim c ≠ none) (s.text.drop last)
    if s.text.getD last 0 = 0 then (none, ⟨s.text, some last⟩)
    else
      let start := last
      -- find the end of the token
      let last := last + rounds (fun c => c ≠ 0 ∧ strchr delim c = none) (s.text.drop last)
      if s.text.getD last 0 ≠ 0 then (some start, ⟨s.text.set last 0, some (last + 1)⟩)
      else (some start, ⟨s.text, some last⟩)

/-- the string at index `i` as it is now -/
def stringAt (text : List Byte) (i : Nat) : List Byte := (text.drop i).takeWhile (· ≠ 0)

theorem stringAt_no_nul (text : List Byte) (i : Nat) : (0 : Byte) ∉ stringAt text i := by
  intro h
  have := List.mem_takeWhile_imp h
  exact absurd rfl (of_decide_eq_true this)

/-- the bytes that `strchr` finds in `delim` -/
def isDelim (delim : List Byte) (c : Byte) : Bool := strchr delim c ≠ none

/-- `rest` is still to be read -/
def Strtok.Rest (s : Strtok) (rest : List Byte) : Prop :=
  (0 : Byte) ∉ rest ∧ ∃ pre, s = ⟨pre ++ rest, some pre.length⟩

section
variable {s : Strtok} {text pre run rest delim t sep : List Byte} {ts : List (List Byte)} {i : Nat}
  {c d : Byte}

/-- the delimiters are the bytes of the string -/
theorem isDelim_iff (hz : (0 : Byte) ∉ delim) : isDelim delim c = true ↔ c ∈ delim := by
  have hall : delim.takeWhile (· ≠ 0) = delim :=
    List.takeWhile_eq_self_iff.mpr fun x hx => decide_eq_true fun e => hz (e ▸ hx)
  unfold isDelim strchr
  rw [decide_eq_true_iff, hall, ne_eq, List.findIdx?_eq_none_iff]
  constructor
  · intro h
    by_contra hc
    exact h fun x hx => beq_false_of_ne fun e => hc (e ▸ hx)
  · intro hc h
    have := h c hc
    rw [beq_self_eq_true] at this
    cases this

/-! ## one loop -/

theorem ne_zero_of_mem (hz : (0 : Byte) ∉ rest) (hc : c ∈ rest) : c ≠ 0 := by
  rintro rfl
  exact hz hc

/-- the rounds of a loop whose condition holds on `run` and fails behind it -/
theorem rounds_append {p : Byte → Bool} (hrun : ∀ x ∈ run, p x = true)
    (hrest : ∀ x, rest.head? = some x → p x = false) : rounds p (run ++ rest) = run.length := by
  unfold rounds
  rw [List.takeWhile_append_of_pos hrun, List.length_append]
  cases rest with
  | nil => rfl
  | cons x rest =>
    rw [List.takeWhile_cons_of_neg (by rw [hrest x rfl]; exact Bool.false_ne_true)]
    rfl

theorem rounds_skip (hz : (0 : Byte) ∉ sep) (hsep : ∀ x ∈ sep, isDelim delim x = true)
    (hrest : ∀ x, rest.head? = some x → isDelim delim x = false) :
    rounds (fun c => c ≠ 0 ∧ strchr delim c ≠ none) (sep ++ rest) = sep.length := by
  refine rounds_append (fun x hx => ?_) fun x hx => ?_
  · exact decide_eq_true ⟨ne_zero_of_mem hz hx, of_decide_eq_true (hsep x hx)⟩
  · exact decide_eq_false fun h => of_decide_eq_false (hrest x hx) h.2

theorem rounds_token (hz : (0 : Byte) ∉ run) (hrun : ∀ x ∈ run, isDelim delim x = false)
    (hrest : ∀ x, rest.head? = some x → isDelim delim x = true) :
    rounds (fun c => c ≠ 0 ∧ strchr delim c = none) (run ++ rest) = run.length := by
  refine rounds_append (fun x hx => ?_) fun x hx => ?_
  · exact decide_eq_true ⟨ne_zero_of_mem hz hx, not_not.mp (of_decide_eq_false (hrun x hx))⟩
  · exact decide_eq_false fun h => of_decide_eq_true (hrest x hx) h.2

/-! ## one call -/

/-- the terminator -/
theorem getD_end (s : List Byte) : s.getD s.length 0 = 0 := by
  rw [List.getD_eq_getElem?_getD, List.getElem?_eq_none (Nat.le_refl _)]
  rfl

theorem getD_next (s t : List Byte) (c : Byte) : (s ++ c :: t).getD s.length 0 = c := by
  rw [List.getD_eq_getElem?_getD, List.getElem?_append_right (Nat.le_refl _), Nat.sub_self]
  rfl

theorem set_next (s t : List Byte) (c d : Byte) : (s ++ c :: t).set s.length d = s ++ d :: t := by
  rw [List.set_append_right _ _ (Nat.le_refl _), Nat.sub_self]
  rfl

theorem strtok_given (s : Strtok) (text delim : List Byte) :
    strtok s (some text) delim = strtok ⟨text, some 0⟩ none delim := rfl

/-- the first loop ends at the end of the string -/
theorem strtok_end (pre : List Byte) (hz : (0 : Byte) ∉ sep)
    (hsep : ∀ x ∈ sep, isDelim delim x = true) :
    strtok ⟨pre ++ sep, some pre.length⟩ none delim
      = (none, ⟨pre ++ sep, some (pre ++ sep).length⟩) := by
  have hskip : rounds _ (sep ++ []) = sep.length := rounds_skip hz hsep nofun
  rw [List.append_nil] at hskip
  unfold strtok
  simp only [List.drop_left, hskip]
  rw [← List.length_append, getD_end, if_pos rfl]

/-- the second loop ends at the end of the string -/
theorem strtok_last (pre : List Byte) (hz : (0 : Byte) ∉ sep ++ run) (hne : run ≠ [])
    (hsep : ∀ x ∈ sep, isDelim delim x = true) (hrun : ∀ x ∈ run, isDelim delim x = false) :
    strtok ⟨pre ++ sep ++ run, some pre.length⟩ none delim
      = (some (pre ++ sep).length, ⟨pre ++ sep ++ run, some (pre ++ sep ++ run).length⟩) := by
  obtain ⟨hzs, hzr⟩ := not_or.mp (fun h => hz (List.mem_append.mpr h))
  obtain ⟨c, r, rfl⟩ := List.exists_cons_of_ne_nil hne
  have hskip : rounds _ (sep ++ c :: r) = sep.length := rounds_skip hzs hsep fun x hx => by
    cases hx
    exact hrun c List.mem_cons_self
  have htok : rounds _ (c :: r ++ []) = (c :: r).length := rounds_token hzr hrun nofun
  rw [List.append_nil] at htok
  have hc := ne_zero_of_mem hzr List.mem_cons_self
  unfold strtok
  simp only [List.append_assoc, List.drop_left, hskip]
  rw [← List.append_assoc, ← List.length_append, getD_next, if_neg hc, List.drop_left, htok,
    ← List.length_append, getD_end, if_neg (not_not.mpr rfl)]

/-- the second loop ends at a delimiter, which becomes the terminator of the token -/
theorem strtok_cut (pre : List Byte) (hz : (0 : Byte) ∉ sep ++ (run ++ d :: rest)) (hne : run ≠ [])
    (hsep : ∀ x ∈ sep, isDelim delim x = true) (hrun : ∀ x ∈ run, isDelim delim x = false)
    (hd : isDelim delim d = true) :
    strtok ⟨pre ++ (sep ++ (run ++ d :: rest)), some pre.length⟩ none delim
      = (some (pre ++ sep).length, ⟨pre ++ sep ++ run ++ 0 :: rest,
          some ((pre ++ sep ++ run).length + 1)⟩) := by
  obtain ⟨hzs, hzr⟩ := not_or.mp (fun h => hz (List.mem_append.mpr h))
  obtain ⟨c, r, rfl⟩ := List.exists_cons_of_ne_nil hne
  have hskip : rounds _ (sep ++ (c :: r ++ d :: rest)) = sep.length :=
    rounds_skip hzs hsep fun x hx => by
      cases hx
      exact hrun c List.mem_cons_self
  have htok : rounds _ (c :: r ++ d :: rest) = (c :: r).length :=
    rounds_token (fun h => hzr (List.mem_append_left _ h)) hrun fun x hx => by
      cases hx
      exact hd
  have hc := ne_zero_of_mem hzr List.mem_cons_self
  have hd0 := ne_zero_of_mem hzr (List.mem_append_right _ List.mem_cons_self)
  unfold strtok
  simp only [List.drop_left, hskip]
  rw [← List.append_assoc, ← List.length_append, List.cons_append, getD_next, if_neg hc,
    ← List.cons_append, List.drop_left, htok, ← List.append_assoc, ← List.length_append, getD_next,
    if_pos hd0, set_next]

theorem rest_given (h : (0 : Byte) ∉ text) : Strtok.Rest ⟨text, some 0⟩ text := ⟨h, [], rfl⟩

/-- a string is read up to the first terminator -/
theorem stringAt_append (pre : List Byte) (hz : (0 : Byte) ∉ t)
    (hrest : ∀ x, rest.head? = some x → x = 0) :
    stringAt (pre ++ (t ++ rest)) pre.length = t := by
  unfold stringAt
  rw [List.drop_left, List.takeWhile_append_of_pos fun x hx => decide_eq_true (ne_zero_of_mem hz hx)]
  cases rest with
  | nil => exact List.append_nil t
  | cons x rest =>
    rw [hrest x rfl, List.takeWhile_cons_of_neg (by decide), List.append_nil]

/-- **Without a token left the answer is null, and the string stays as it is.** -/
theorem strtok_none (h : s.Rest rest) (ht : tokens (isDelim delim) rest = []) :
    ∃ s', strtok s none delim = (none, s') ∧ s'.text = s.text ∧ s'.Rest [] := by
  obtain ⟨hz, pre, rfl⟩ := h
  rcases tokens_span (isDelim delim) rest with ⟨_, hsep⟩ | ⟨_, _, _, _, _, ⟨_, e⟩ | ⟨_, _, _, _, e⟩⟩
  · refine ⟨_, strtok_end pre hz hsep, rfl, List.not_mem_nil, pre ++ rest, ?_⟩
    rw [List.append_nil]
  · rw [ht] at e
    cases e
  · rw [ht] at e
    cases e

/-- **The next token is answered; at most the delimiter behind it changes, and the tokens behind it are
left.** -/
theorem strtok_token (h : s.Rest rest) (ht : tokens (isDelim delim) rest = t :: ts) :
    ∃ start s' rest' i j, strtok s none delim = (some start, s') ∧ stringAt s'.text start = t ∧
      s'.Rest rest' ∧ tokens (isDelim delim) rest' = ts ∧
      s.last = some i ∧ i ≤ start ∧ s'.last = some j ∧ start + t.length ≤ j ∧
      (s'.text = s.text ∨ ∃ d, isDelim delim d = true ∧ s.text[start + t.length]? = some d ∧
        s'.text = s.text.set (start + t.length) 0) := by
  obtain ⟨hz, pre, rfl⟩ := h
  rcases tokens_span (isDelim delim) rest with ⟨e, _⟩ |
    ⟨sep, run, hne, hsep, hrun, ⟨rfl, e⟩ | ⟨d, rest', hd, rfl, e⟩⟩
  · rw [ht] at e
    cases e
  -- the token goes up to the end of the string
  · rw [ht] at e
    cases e
    have e1 := strtok_last pre hz hne hsep hrun
    have hzr : (0 : Byte) ∉ t := fun h => hz (List.mem_append_right _ h)
    have hat : stringAt (pre ++ sep ++ (t ++ [])) (pre ++ sep).length = t :=
      stringAt_append (pre ++ sep) hzr nofun
    rw [List.append_nil] at hat
    have hlen : (pre ++ sep ++ t).length = (pre ++ sep).length + t.length := List.length_append
    rw [← List.append_assoc]
    refine ⟨_, _, [], _, _, e1, hat, ⟨List.not_mem_nil, _, by rw [List.append_nil]⟩, rfl, rfl, ?_, rfl,
      Nat.le_of_eq hlen.symm, .inl rfl⟩
    rw [List.length_append]
    exact Nat.le_add_right _ _
  -- the delimiter behind it becomes a terminator
  · rw [ht] at e
    cases e
    have e1 := strtok_cut pre hz hne hsep hrun hd
    obtain ⟨_, hzr⟩ := not_or.mp fun h => hz (List.mem_append.mpr h)
    obtain ⟨hzt, hzd⟩ := not_or.mp fun h => hzr (List.mem_append.mpr h)
    have hat : stringAt (pre ++ sep ++ (t ++ 0 :: rest')) (pre ++ sep).length = t :=
      stringAt_append (pre ++ sep) hzt fun x hx => by
        cases hx
        rfl
    rw [← List.append_assoc] at hat
    have hlen : (pre ++ sep ++ t).length = (pre ++ sep).length + t.length := List.length_append
    have hcut : (pre ++ sep ++ t ++ [0]).length = (pre ++ sep ++ t).length + 1 := List.length_append
    have etext : pre ++ (sep ++ (t ++ d :: rest')) = pre ++ sep ++ t ++ d :: rest' := by
      rw [← List.append_assoc, ← List.append_assoc]
    rw [etext] at e1 ⊢
    refine ⟨_, _, rest', _, _, e1, hat, ⟨?_, pre ++ sep ++ t ++ [0], ?_⟩, rfl, rfl, ?_, rfl, ?_,
      .inr ⟨d, hd, ?_, ?_⟩⟩
    · exact List.not_mem_of_not_mem_cons hzd
    · rw [List.append_assoc _ [0], hcut]
      rfl
    · rw [List.length_append]
      exact Nat.le_add_right _ _
    · rw [hlen]
      exact Nat.le_succ _
    · show (pre ++ sep ++ t ++ d :: rest')[(pre ++ sep).length + t.length]? = some d
      rw [← hlen, List.getElem?_append_right (Nat.le_refl _), Nat.sub_self]
      rfl
    · show pre ++ sep ++ t ++ 0 :: rest' = (pre ++ sep ++ t ++ d :: rest').set _ 0
      rw [← hlen, set_next]

/-! ## a token stays what it is -/

theorem takeWhile_set {p : Byte → Bool} (s : List Byte) {n : Nat} (hd : p d = false)
    (hn : (s.takeWhile p).length ≤ n) : (s.set n d).takeWhile p = s.takeWhile p := by
  induction s generalizing n with
  | nil => rfl
  | cons c s ih =>
    cases hc : p c with
    | false =>
      rw [List.takeWhile_cons_of_neg (by rw [hc]; exact Bool.false_ne_true)]
      cases n with
      | zero => exact List.takeWhile_cons_of_neg (by rw [hd]; exact Bool.false_ne_true)
      | succ n => exact List.takeWhile_cons_of_neg (by rw [hc]; exact Bool.false_ne_true)
    | true =>
      rw [List.takeWhile_cons_of_pos hc] at hn ⊢
      cases n with
      | zero => exact absurd hn (Nat.not_succ_le_zero _)
      | succ n => rw [List.set_cons_succ, List.takeWhile_cons_of_pos hc, ih (Nat.le_of_succ_le_succ hn)]

/-- a byte behind a string does not matter to it -/
theorem stringAt_set (text : List Byte) {n : Nat} (hn : i + (stringAt text i).length ≤ n) :
    stringAt (text.set n 0) i = stringAt text i := by
  unfold stringAt at hn ⊢
  rw [List.drop_set, if_neg (by omega)]
  exact takeWhile_set _ rfl (by omega)

/-- **The first two calls give the first two tokens of the string, as it is after both.** -/
theorem strtok_two (s : Strtok) (hz : (0 : Byte) ∉ text) : ∃ a s1 b s2,
    strtok s (some text) delim = (a, s1) ∧ strtok s1 none delim = (b, s2) ∧
    a.map (stringAt s2.text) = (tokens (isDelim delim) text).head? ∧
    b.map (stringAt s2.text) = (tokens (isDelim delim) text).tail.head? := by
  rw [strtok_given]
  cases ht : tokens (isDelim delim) text with
  | nil =>
    obtain ⟨s1, e1, _, h1⟩ := strtok_none (rest_given hz) ht
    obtain ⟨s2, e2, _, _⟩ := strtok_none h1 (tokens_nil (isDelim delim))
    exact ⟨none, s1, none, s2, e1, e2, rfl, rfl⟩
  | cons t ts =>
    obtain ⟨start, s1, rest, _, j, e1, hat, h1, htok, _, _, hj, hstart, _⟩ :=
      strtok_token (rest_given hz) ht
    cases hts : ts with
    | nil =>
      obtain ⟨s2, e2, htext, _⟩ := strtok_none h1 (htok.trans hts)
      exact ⟨some start, s1, none, s2, e1, e2, by rw [htext, Option.map_some, hat]; rfl, rfl⟩
    | cons u us =>
      obtain ⟨start', s2, _, i, _, e2, hat', _, _, hi, hle, _, _, htext⟩ :=
        strtok_token h1 (htok.trans hts)
      refine ⟨some start, s1, some start', s2, e1, e2, ?_, by rw [Option.map_some, hat']; rfl⟩
      have hij : i = j := Option.some.inj (hi.symm.trans hj)
      rcases htext with htext | ⟨_, _, _, htext⟩
      · rw [htext, Option.map_some, hat]
        rfl
      · rw [htext, Option.map_some, stringAt_set _ (by rw [hat]; omega), hat]
        rfl

end

example : strtok ⟨[], none⟩ (some (str "  cd a ")) (str " ")
    = (some 2, ⟨str "  cd" ++ 0 :: str "a ", some 5⟩) := by decide

end FirstKernel
