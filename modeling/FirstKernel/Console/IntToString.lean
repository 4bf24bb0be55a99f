import FirstKernel.Console.ItoaBuffer

/-!
# `utils.cpp`: `int_to_string`

The digits go straight into the caller's buffer, which is then reversed in place.  The loop tests
before it stores, so zero has no digit.

* `intDigits_eq`           the digit loop;
* `intToString_eq`         the text, for every value but the negative limit;
* `formatters_agree_iff`   where it is the text of `itoa`.
-/

namespace FirstKernel
open ByteMem Cells

/-- `while (num != 0) { buffer[i++] = num % 10 + '0'; num /= 10; }` -/
def intDigits : Nat → Word → Mem → Nat → Res (Mem × Nat)
  | 0, _, _, _ => .error .noFuel
  | fuel+1, num, buffer, i =>
    if num ≠ 0 then
      intDigits fuel (num.sdiv 10) (store8 buffer i ((num.srem 10 + 48).setWidth 8)) (i + 1)
    else .ok (buffer, i)

/-- `while (str[len]) len++;` -/
def strlenLoop (str : Mem) : Nat → Nat → Res Nat
  | 0, _ => .error .noFuel
  | fuel+1, len => if str len ≠ 0 then strlenLoop str fuel (len + 1) else .ok len

/-- an `int` has ten digits at most -/
def intBound : Nat := 16

def intToString (buffer : Mem) (num : Word) : Res Mem := do
  let isNegative := num.toInt < 0
  let num := if isNegative then -num else num
  let (buffer, i) ← intDigits intBound num buffer 0
  let (buffer, i) := if isNegative then (store8 buffer i (chr '-'), i + 1) else (buffer, i)
  let buffer := store8 buffer i 0
  let len ← strlenLoop buffer intBound 0
  return swapEnds buffer len (len / 2)

/-! ## the loops -/

section
variable {v : Word} {fuel i : Nat} {buffer str : Mem} {t : List Byte}

/-- the digits in the order in which the loop stores them -/
def digitsUp (n : Nat) : List Byte := if n = 0 then [] else (numeral 10 n).reverse

theorem digitsUp_reverse {n : Nat} (h : n ≠ 0) : (digitsUp n).reverse = numeral 10 n := by
  rw [digitsUp, if_neg h, List.reverse_reverse]

theorem digitsUp_cons {n : Nat} (h : n ≠ 0) :
    digitsUp n = digitSym (n % 10) :: digitsUp (n / 10) := by
  by_cases hlt : n < 10
  · rw [digitsUp, if_neg h, numeral, Numeral.write, Numeral.digits_of_lt hlt, Nat.mod_eq_of_lt hlt,
      Nat.div_eq_of_lt hlt]
    rfl
  · have hq : n / 10 ≠ 0 := by omega
    rw [digitsUp, digitsUp, if_neg h, if_neg hq, numeral, numeral, Numeral.write, Numeral.write,
      Numeral.digits_snoc (by decide) (by omega), List.map_append, List.reverse_append]
    rfl

theorem length_digitsUp {n : Nat} (h : n < 2^31) : (digitsUp n).length ≤ 10 := by
  unfold digitsUp
  by_cases h0 : n = 0
  · rw [if_pos h0]
    exact Nat.zero_le _
  · rw [if_neg h0, List.length_reverse]
    exact length_numeral_lt (Nat.le_refl 10) h

theorem nul_not_mem_digitsUp (n : Nat) : (0 : Byte) ∉ digitsUp n := by
  unfold digitsUp
  by_cases h0 : n = 0
  · rw [if_pos h0]
    exact List.not_mem_nil
  · rw [if_neg h0, List.mem_reverse]
    exact nul_not_mem (by decide) (by decide)

theorem char_of_digit : ∀ d, d < 10 → (BitVec.ofNat 32 d + 48).setWidth 8 = digitSym d := by decide

theorem digit_char (hv : v.toNat < 2^31) :
    (v.srem 10 + 48).setWidth 8 = digitSym (v.toNat % 10) := by
  have hr : v.srem 10 = BitVec.ofNat 32 (v.toNat % 10) := by
    rw [BitVec.srem_eq, msb_of_lt hv]
    apply BitVec.eq_of_toNat_eq
    show v.toNat % 10 = (BitVec.ofNat 32 (v.toNat % 10)).toNat
    rw [BitVec.toNat_ofNat]
    omega
  rw [hr]
  exact char_of_digit _ (Nat.mod_lt _ (by decide))

theorem intDigits_eq (hv : v.toNat < 2^31) (hf : (digitsUp v.toNat).length < fuel) :
    intDigits fuel v buffer i
      = .ok (storeN buffer i (digitsUp v.toNat), i + (digitsUp v.toNat).length) := by
  induction fuel generalizing v buffer i with
  | zero => omega
  | succ fuel ih =>
    rw [intDigits]
    by_cases h0 : v = 0
    · rw [if_neg (not_not.mpr h0), h0]
      show Except.ok (buffer, i) = .ok (storeN buffer i [], i + 0)
      rw [storeN_nil, Nat.add_zero]
    · have hpos : 0 < v.toNat := Nat.pos_of_ne_zero fun e => h0 (BitVec.eq_of_toNat_eq e)
      have hq : (v.sdiv 10).toNat = v.toNat / 10 := toNat_sdiv_of_lt hv (by decide)
      have hcons := digitsUp_cons (Nat.ne_of_gt hpos)
      rw [hcons, List.length_cons] at hf
      rw [if_pos h0, digit_char hv, ih (by omega) (by rw [hq]; omega), hq, hcons, storeN_cons,
        List.length_cons, Nat.add_right_comm, Nat.add_assoc]
      rfl

/-- the loop from the start of a string on finds its end -/
theorem strlenLoop_eq {len : Nat} (ht : 0 ∉ t) (hs : loadN str len (t.length + 1) = t ++ [0])
    (hf : t.length < fuel) : strlenLoop str fuel len = .ok (len + t.length) := by
  induction t generalizing fuel len with
  | nil =>
    obtain ⟨fuel, rfl⟩ := Nat.exists_eq_add_one_of_ne_zero (Nat.ne_zero_of_lt hf)
    have h0 : str len = 0 := (List.cons.inj hs).1
    rw [strlenLoop, if_neg (not_not.mpr h0)]
    rfl
  | cons c t ih =>
    obtain ⟨fuel, rfl⟩ := Nat.exists_eq_add_one_of_ne_zero (Nat.ne_zero_of_lt hf)
    rw [List.length_cons, loadN_cons, List.cons_append] at hs
    obtain ⟨hc, hrest⟩ := List.cons.inj hs
    have hne : str len ≠ 0 := by
      rw [hc]
      exact (List.ne_of_not_mem_cons ht).symm
    rw [List.length_cons] at hf ⊢
    rw [strlenLoop, if_pos hne, ih (List.not_mem_of_not_mem_cons ht) hrest (by omega),
      Nat.add_assoc, Nat.add_comm 1]

/-- the terminator behind the characters, and the reversal of what `strlen` counts -/
theorem terminate_reverse (ht : 0 ∉ t) (hf : t.length < fuel) :
    (do
      let len ← strlenLoop (store8 (storeN buffer 0 t) t.length 0) fuel 0
      return swapEnds (store8 (storeN buffer 0 t) t.length 0) len (len / 2) : Res Mem)
      = .ok (storeN buffer 0 (t.reverse ++ [0])) := by
  have hend : store8 (storeN buffer 0 t) t.length 0 = storeN buffer 0 (t ++ [0]) := by
    have h := storeN_snoc buffer 0 t 0
    rw [Nat.zero_add] at h
    exact h
  have hs : loadN (storeN buffer 0 (t ++ [0])) 0 (t.length + 1) = t ++ [0] := by
    have h := loadN_storeN buffer 0 (t ++ [0])
    rw [List.length_append, List.length_singleton] at h
    exact h
  have ht' : loadN (storeN buffer 0 (t ++ [0])) 0 t.length = t := by
    rw [← loadN_take _ _ (t.length + 1) _ (Nat.le_succ _), hs, List.take_left]
  rw [hend, strlenLoop_eq ht hs hf, bind_ok, Nat.zero_add, swapEnds_eq_storeN, ht',
    storeN_over _ _ _ (List.length_reverse)]
  rfl

/-! ## the two formatters -/

theorem intToString_negative {num : Word} (hneg : num.toInt < 0) (hlim : num ≠ 0x80000000) :
    intToString buffer num = .ok (storeN buffer 0 (decimal num.toInt ++ [0])) := by
  have hlt := toNat_neg_lt hneg hlim
  have hlen := length_digitsUp hlt
  have hdigits : intDigits intBound (-num) buffer 0 = .ok
      (storeN buffer 0 (digitsUp num.toInt.natAbs), (digitsUp num.toInt.natAbs).length) := by
    rw [intDigits_eq hlt (by unfold intBound; omega), Nat.zero_add, toNat_neg_word hneg]
  rw [toNat_neg_word hneg] at hlen
  -- the sign goes behind the digits
  have hsign : store8 (storeN buffer 0 (digitsUp num.toInt.natAbs))
      (digitsUp num.toInt.natAbs).length (chr '-')
      = storeN buffer 0 (digitsUp num.toInt.natAbs ++ [chr '-']) := by
    have h := storeN_snoc buffer 0 (digitsUp num.toInt.natAbs) (chr '-')
    rw [Nat.zero_add] at h
    exact h
  have hnul : (0 : Byte) ∉ digitsUp num.toInt.natAbs ++ [chr '-'] := by
    intro hm
    rcases List.mem_append.mp hm with hm | hm
    · exact nul_not_mem_digitsUp _ hm
    · exact absurd (List.mem_singleton.mp hm) (by decide)
  have htail := @terminate_reverse intBound buffer _ hnul (by
    rw [List.length_append, List.length_singleton]
    unfold intBound
    omega)
  rw [List.reverse_append, digitsUp_reverse (by omega), List.length_append] at htail
  unfold intToString
  simp only [if_pos hneg]
  rw [hdigits, bind_ok, decimal, if_pos hneg]
  dsimp only
  rw [hsign]
  exact htail

theorem intToString_nonneg {num : Word} (hneg : ¬ num.toInt < 0) : intToString buffer num
    = .ok (storeN buffer 0 ((if num = 0 then [] else decimal num.toInt) ++ [0])) := by
  have hlt := toNat_lt_of_nonneg hneg
  have hlen := length_digitsUp hlt
  unfold intToString
  simp only [if_neg hneg]
  rw [intDigits_eq hlt (by unfold intBound; omega), bind_ok, Nat.zero_add]
  refine (terminate_reverse (nul_not_mem_digitsUp _) (by unfold intBound; omega)).trans ?_
  by_cases h0 : num = 0
  · rw [if_pos h0, h0]
    rfl
  · have hpos : num.toNat ≠ 0 := fun e => h0 (BitVec.eq_of_toNat_eq e)
    rw [if_neg h0, digitsUp_reverse hpos, decimal_of_lt hlt]

/-- what `int_to_string` writes: nothing but the terminator for zero -/
theorem intToString_eq {num : Word} (h : num ≠ 0x80000000) : intToString buffer num
    = .ok (storeN buffer 0 ((if num = 0 then [] else decimal num.toInt) ++ [0])) := by
  by_cases hneg : num.toInt < 0
  · have h0 : num ≠ 0 := by
      rintro rfl
      exact absurd hneg (by decide)
    rw [if_neg h0]
    exact intToString_negative hneg h
  · exact intToString_nonneg hneg

/-- zero has no digit for `int_to_string` and one for `itoa` -/
theorem intToString_zero (buffer : Mem) : intToString buffer 0 = .ok (storeN buffer 0 [0]) :=
  intToString_eq (by decide)

theorem itoaInto_decimal {value : Word} (temp buffer : Mem) (h : value ≠ 0x80000000) :
    itoaInto temp buffer value 10 = .ok (storeN buffer 0 (decimal value.toInt ++ [0])) := by
  rw [itoaInto_eq (by decide) (by decide) (itoaAbs_lt h), itoa_decimal h]
  rfl

/-- the first digit of the negative limit is read outside the table -/
theorem itoaInto_limit (temp buffer : Mem) :
    itoaInto temp buffer 0x80000000 10 = .error .outOfBounds := rfl

theorem nul_not_mem_decimal (z : Int) : (0 : Byte) ∉ decimal z := by
  have hn : (0 : Byte) ∉ numeral 10 z.natAbs := nul_not_mem (by decide) (by decide)
  unfold decimal
  by_cases hz : z < 0
  · rw [if_pos hz]
    intro hm
    exact hn ((List.mem_cons.mp hm).resolve_left (by decide))
  · rw [if_neg hz]
    exact hn

theorem decimal_ne_nil (z : Int) : decimal z ≠ [] := by
  unfold decimal
  by_cases hz : z < 0
  · rw [if_pos hz]
    exact List.cons_ne_nil _ _
  · rw [if_neg hz]
    exact Numeral.write_ne_nil digitSym 10 _

/-- at zero one text is empty and the other one is not -/
theorem zero_differs (temp buffer : Mem) : ¬ ∃ text, Writes (intToString buffer 0) buffer text ∧
    Writes (itoaInto temp buffer 0 10) buffer text := by
  rintro ⟨text, hs, hi⟩
  have h1 : [] = text := Writes.unique ⟨intToString_zero buffer, List.not_mem_nil⟩ hs
  have h2 : decimal (0 : Word).toInt = text :=
    Writes.unique ⟨itoaInto_decimal temp buffer (by decide), nul_not_mem_decimal _⟩ hi
  exact decimal_ne_nil _ (h2.trans h1.symm)

end

/-- **`int_to_string` and `itoa` write the same text but for zero and the negative limit.** -/
theorem formatters_agree_iff (num : Word) (temp buffer : Mem) :
    (∃ text, Writes (intToString buffer num) buffer text ∧
      Writes (itoaInto temp buffer num 10) buffer text) ↔ num ≠ 0 ∧ num ≠ 0x80000000 := by
  constructor
  · intro h
    refine ⟨?_, ?_⟩
    · rintro rfl
      exact zero_differs temp buffer h
    · rintro rfl
      obtain ⟨text, _, hi⟩ := h
      rw [itoaInto_limit] at hi
      cases hi.1
  · rintro ⟨h0, hlim⟩
    have hs := @intToString_eq buffer num hlim
    rw [if_neg h0] at hs
    have hnul := nul_not_mem_decimal num.toInt
    exact ⟨_, ⟨hs, hnul⟩, itoaInto_decimal temp buffer hlim, hnul⟩

/-- **Zero is the empty string for `int_to_string` and "0" for `itoa`.** -/
theorem formatters_differ : ¬ ∀ (num : Word) (temp buffer : Mem), ∃ text,
    Writes (intToString buffer num) buffer text ∧
      Writes (itoaInto temp buffer num 10) buffer text := by
  intro hall
  exact zero_differs (fun _ => 0) (fun _ => 0) (hall 0 _ _)

end FirstKernel
