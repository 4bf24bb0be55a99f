import FirstKernel.Console.Stdio
import FirstKernel.Lib.Numeral

/-!
# `itoa` and the numeric conversions of `printf`

`itoa` takes a signed value; the callers hand it unsigned words and pointers as well.

* `itoaLoop_digits`      the `do` loop stores the numeral of a value that is not negative;
* `itoa_decimal`         base 10, for every value but the negative limit;
* `itoa_hex`             base 16, for the lower half of the range;
* `conversions_iff`      for which words `%d`, `%u`, `%x` and `%p` are right.
-/

namespace FirstKernel
open ByteMem

/-- the symbol of a digit below 16 -/
def digitSym (d : Nat) : Byte := digits.getD d 0

/-- the digit a symbol stands for -/
def digitVal (c : Byte) : Option Nat := digits.idxOf? c

/-- the canonical numeral of `n`, in upper case -/
def numeral (b n : Nat) : List Byte := Numeral.write digitSym b n

/-- the canonical decimal numeral of an integer -/
def decimal (z : Int) : List Byte :=
  if z < 0 then chr '-' :: numeral 10 z.natAbs else numeral 10 z.natAbs

theorem digitVal_sym : ∀ d, d < 16 → digitVal (digitSym d) = some d := by decide

theorem digitSym_ne_minus : ∀ d, d < 16 → digitSym d ≠ chr '-' := by decide

theorem minus_not_mem {b n : Nat} (hb : 1 < b) (hb' : b ≤ 16) : chr '-' ∉ numeral b n := by
  intro h
  obtain ⟨d, hd, e⟩ := List.mem_map.mp h
  have hlt := Numeral.digits_lt hb hd
  exact digitSym_ne_minus d (by omega) e

/-! ## words that are not negative -/

section
variable {v base : Word}

theorem toInt_of_lt (h : v.toNat < 2^31) : v.toInt = v.toNat :=
  BitVec.toInt_eq_toNat_of_lt (by omega)

theorem msb_of_lt (h : v.toNat < 2^31) : v.msb = false := by
  rw [BitVec.msb_eq_decide, decide_eq_false_iff_not]
  omega

theorem toNat_sdiv_of_lt (hv : v.toNat < 2^31) (hb : base.toNat < 2^31) :
    (v.sdiv base).toNat = v.toNat / base.toNat := by
  rw [BitVec.sdiv_eq, msb_of_lt hv, msb_of_lt hb]
  exact BitVec.toNat_udiv

theorem toInt_srem_of_lt (hv : v.toNat < 2^31) (hb : base.toNat < 2^31) :
    (v.srem base).toInt = ((v.toNat % base.toNat : Nat) : Int) := by
  rw [BitVec.toInt_srem, toInt_of_lt hv, toInt_of_lt hb]
  rfl

theorem digit_ofNat {d : Nat} (h : d < 16) : digit (d : Int) = .ok (digitSym d) := by
  have hd : 0 ≤ (d : Int) ∧ (d : Int) < 16 := by omega
  rw [digit, if_pos hd]
  rfl

/-- what the loop stores, and the room it leaves -/
theorem itoaLoop_digits {k : Nat} {temp : List Byte} (hb : 1 < base.toNat) (hb' : base.toNat ≤ 16)
    (hv : v.toNat < 2^31) (hk : (Numeral.digits base.toNat v.toNat).length ≤ k) :
    itoaLoop base k v temp = .ok (numeral base.toNat v.toNat ++ temp,
      k - (Numeral.digits base.toNat v.toNat).length) := by
  induction k generalizing v temp with
  | zero => exact absurd (List.length_eq_zero_iff.mp (Nat.le_zero.mp hk)) (Numeral.digits_ne_nil _ _)
  | succ k ih =>
    have hbl : base.toNat < 2^31 := by omega
    have hmod : v.toNat % base.toNat < 16 := Nat.lt_of_lt_of_le (Nat.mod_lt _ (by omega)) hb'
    have hq := toNat_sdiv_of_lt hv hbl
    have hql : (v.sdiv base).toNat < 2^31 := by
      rw [hq]
      exact Nat.lt_of_le_of_lt (Nat.div_le_self _ _) hv
    rw [itoaLoop, toInt_srem_of_lt hv hbl, digit_ofNat hmod, bind_ok]
    dsimp only
    rw [toInt_of_lt hql, hq]
    by_cases hlt : v.toNat < base.toNat
    · have hz : ¬ (0 : Int) < ((v.toNat / base.toNat : Nat) : Int) := by
        rw [Nat.div_eq_of_lt hlt]
        exact Int.lt_irrefl 0
      rw [if_neg hz, numeral, Numeral.write, Numeral.digits_of_lt hlt, Nat.mod_eq_of_lt hlt]
      rfl
    · have hle := Nat.le_of_not_lt hlt
      have hpos : (0 : Int) < ((v.toNat / base.toNat : Nat) : Int) :=
        Int.natCast_pos.mpr (Nat.div_pos hle (by omega))
      rw [Numeral.digits_snoc hb hle, List.length_append, List.length_singleton] at hk
      rw [if_pos hpos, ih hql (by rw [hq]; omega), hq, numeral, numeral, Numeral.write, Numeral.write,
        Numeral.digits_snoc hb hle, List.map_append, List.length_append, List.append_assoc]
      simp only [List.map_cons, List.map_nil, List.singleton_append, List.length_singleton,
        Nat.add_sub_add_right]

/-- ten digits are enough for a value that is not negative -/
theorem length_numeral {b n : Nat} (hb : 10 ≤ b) (hn : n < 2^31) :
    (Numeral.digits b n).length ≤ 10 := by
  refine Numeral.length_digits (by omega) (by decide) ?_
  calc n < 10 ^ 10 := by omega
    _ ≤ b ^ 10 := Nat.pow_le_pow_left hb 10

/-- the loop of `itoa` leaves at least two places of its array -/
theorem itoaLoop_room (hb : 10 ≤ base.toNat) (hb' : base.toNat ≤ 16) (hv : v.toNat < 2^31) :
    ∃ room, itoaLoop base 32 v [] = .ok (numeral base.toNat v.toNat, room) ∧ 2 ≤ room := by
  have hl := length_numeral hb hv
  refine ⟨32 - (Numeral.digits base.toNat v.toNat).length, ?_, by omega⟩
  rw [itoaLoop_digits (by omega) hb' hv (by omega), List.append_nil]

end

/-! ## the two bases -/

section
variable {w : Word}

theorem toInt_neg_iff : w.toInt < 0 ↔ 2^31 ≤ w.toNat := by
  have := w.isLt
  rw [BitVec.toInt_eq_toNat_cond]
  split
  · omega
  · omega

theorem toNat_lt_of_nonneg (h : ¬ w.toInt < 0) : w.toNat < 2^31 :=
  Nat.lt_of_not_le fun hle => h (toInt_neg_iff.mpr hle)

/-- `-value` stays in range but for the negative limit -/
theorem toNat_neg_lt (h : w.toInt < 0) (hlim : w ≠ 0x80000000) : (-w).toNat < 2^31 := by
  have hle := toInt_neg_iff.mp h
  have hne : w.toNat ≠ 2^31 := fun e => hlim (BitVec.eq_of_toNat_eq e)
  rw [BitVec.toNat_neg]
  omega

/-- the absolute value of a negative word, as `-value` computes it -/
theorem toNat_neg_word (h : w.toInt < 0) : (-w).toNat = w.toInt.natAbs := by
  have hle := toInt_neg_iff.mp h
  have := w.isLt
  rw [BitVec.toNat_neg, BitVec.toInt_eq_toNat_cond, if_neg (by omega)]
  omega

/-- only base 10 has a sign -/
theorem hex_unsigned : ¬ ((16 : Word) = 10 ∧ w.toInt < 0) := fun h => absurd h.1 (by decide)

theorem itoa_decimal (h : w ≠ 0x80000000) : itoa w 10 = .ok (decimal w.toInt) := by
  unfold itoa decimal
  by_cases hneg : w.toInt < 0
  · have hlt := toNat_neg_lt hneg h
    obtain ⟨room, e, hr⟩ := @itoaLoop_room _ 10 (by decide) (by decide) hlt
    simp only [hneg, and_self, if_true, e, bind_ok]
    rw [if_neg (by omega), toNat_neg_word hneg]
    rfl
  · have hlt := toNat_lt_of_nonneg hneg
    obtain ⟨room, e, hr⟩ := @itoaLoop_room _ 10 (by decide) (by decide) hlt
    simp only [hneg, and_false, if_false, e, bind_ok]
    rw [if_neg (by omega), toInt_of_lt hlt]
    rfl

/-- the digit of the negative limit is not in the table -/
theorem itoa_limit : itoa 0x80000000 10 = .error .outOfBounds := rfl

theorem itoa_hex (h : w.toNat < 2^31) : itoa w 16 = .ok (numeral 16 w.toNat) := by
  obtain ⟨room, e, hr⟩ := @itoaLoop_room _ 16 (by decide) (by decide) h
  unfold itoa
  simp only [hex_unsigned, if_false, e, bind_ok]
  rw [if_neg (by omega)]
  rfl

/-- in the upper half the remainders are not positive: the loop leaves the table or stores a lone 0 -/
theorem itoaLoop_upper (h : w.toInt < 0) : itoaLoop 16 32 w [] = .error .outOfBounds ∨
    itoaLoop 16 32 w [] = .ok ([chr '0'], 31) := by
  have hb : (16 : Word).toInt = 16 := rfl
  have hr : (w.srem 16).toInt ≤ 0 := by
    rw [BitVec.toInt_srem, hb]
    have hn := Int.tmod_nonneg 16 (Int.neg_nonneg_of_nonpos (Int.le_of_lt h))
    rw [Int.neg_tmod] at hn
    omega
  have hq : ¬ 0 < (w.sdiv 16).toInt := by
    rw [BitVec.toInt_sdiv_of_ne_or_ne _ _ (.inr (by decide)), hb]
    have hn := Int.tdiv_nonneg (b := 16) (Int.neg_nonneg_of_nonpos (Int.le_of_lt h)) (by decide)
    rw [Int.neg_tdiv] at hn
    omega
  rw [itoaLoop]
  by_cases h0 : (w.srem 16).toInt = 0
  · right
    rw [h0]
    show (if 0 < (w.sdiv 16).toInt then _ else _) = _
    rw [if_neg hq]
    rfl
  · left
    rw [digit, if_neg (by omega)]
    rfl

theorem itoa_hex_upper (h : 2^31 ≤ w.toNat) : itoa w 16 ≠ .ok (numeral 16 w.toNat) := by
  unfold itoa
  simp only [hex_unsigned, if_false]
  intro hc
  rcases itoaLoop_upper (toInt_neg_iff.mpr h) with e | e
  · rw [e] at hc
    cases hc
  · rw [e] at hc
    have hzero : numeral 16 0 = [chr '0'] := by
      rw [numeral, Numeral.write, Numeral.digits_of_lt (by decide)]
      rfl
    have hn : numeral 16 0 = numeral 16 w.toNat := hzero.trans (Except.ok.inj hc)
    have hw := Numeral.write_inj (by decide) digitVal_sym hn
    omega

/-- read as unsigned, the upper half gets a sign -/
theorem itoa_unsigned_upper (h : 2^31 ≤ w.toNat) : itoa w 10 ≠ .ok (numeral 10 w.toNat) := by
  have hneg := toInt_neg_iff.mpr h
  by_cases hlim : w = 0x80000000
  · rw [hlim, itoa_limit]
    exact nofun
  · rw [itoa_decimal hlim, decimal, if_pos hneg]
    intro hc
    have hmem : chr '-' ∈ numeral 10 w.toNat := Except.ok.inj hc ▸ List.mem_cons_self
    exact minus_not_mem (by decide) (by decide) hmem

theorem decimal_of_lt (h : w.toNat < 2^31) : decimal w.toInt = numeral 10 w.toNat := by
  rw [decimal, toInt_of_lt h, if_neg (by omega)]
  rfl

end

/-! ## the conversions -/

section
variable {w : Word} {d : Byte}

theorem printf_decimal (hd : d = chr 'd' ∨ d = chr 'u') :
    printf [chr '%', d] [.num w] = itoa w 10 := by
  have e : directive d [.num w] = itoa w 10 >>= fun out => .ok (out, []) := by
    rw [directive, if_pos hd]
    rfl
  rw [printf_directive, e]
  cases itoa w 10 with
  | error f => rfl
  | ok out => exact congrArg Except.ok (List.append_nil out)

theorem printf_hex (hd : d = chr 'x' ∨ d = chr 'p') :
    printf [chr '%', d] [.num w] = (itoa w 16).map (str "0x" ++ ·) := by
  have hne : ¬ (d = chr 'd' ∨ d = chr 'u') := by
    rcases hd with rfl | rfl
    · decide
    · decide
  have e : directive d [.num w] = itoa w 16 >>= fun out => .ok (str "0x" ++ out, []) := by
    rw [directive, if_neg hne, if_pos hd]
    rfl
  rw [printf_directive, e]
  cases itoa w 16 with
  | error f => rfl
  | ok out => exact congrArg Except.ok (List.append_nil _)

theorem printf_hex_iff (hd : d = chr 'x' ∨ d = chr 'p') :
    printf [chr '%', d] [.num w] = .ok (str "0x" ++ numeral 16 w.toNat) ↔ w.toNat < 2^31 := by
  rw [printf_hex hd]
  constructor
  · intro h
    by_contra hlt
    obtain ⟨out, e, ho⟩ := map_eq_ok h
    rw [List.append_cancel_left ho] at e
    exact itoa_hex_upper (by omega) e
  · intro h
    rw [itoa_hex h]
    rfl

end

/-- **For which words the numeric conversions are right.** -/
theorem conversions_iff (w : Word) :
    (printf (str "%d") [.num w] = .ok (decimal w.toInt) ↔ w ≠ 0x80000000) ∧
    (printf (str "%u") [.num w] = .ok (numeral 10 w.toNat) ↔ w.toNat < 2^31) ∧
    (printf (str "%x") [.num w] = .ok (str "0x" ++ numeral 16 w.toNat) ↔ w.toNat < 2^31) ∧
    (printf (str "%p") [.num w] = .ok (str "0x" ++ numeral 16 w.toNat) ↔ w.toNat < 2^31) := by
  refine ⟨?_, ?_, printf_hex_iff (.inl rfl), printf_hex_iff (.inr rfl)⟩
  · show printf [chr '%', chr 'd'] [.num w] = _ ↔ _
    rw [printf_decimal (.inl rfl)]
    constructor
    · rintro h rfl
      rw [itoa_limit] at h
      cases h
    · exact itoa_decimal
  · show printf [chr '%', chr 'u'] [.num w] = _ ↔ _
    rw [printf_decimal (.inr rfl)]
    constructor
    · intro h
      by_contra hlt
      exact itoa_unsigned_upper (by omega) h
    · intro h
      have hne : w ≠ 0x80000000 := by
        rintro rfl
        exact absurd h (by decide)
      rw [itoa_decimal hne, decimal_of_lt h]

/-- **`%x` of an address in the upper half indexes outside the digit table.** -/
theorem hex_leaves_table : ¬ ∀ w : Word,
    printf (str "%d") [.num w] = .ok (decimal w.toInt) ∧
    printf (str "%u") [.num w] = .ok (numeral 10 w.toNat) ∧
    printf (str "%x") [.num w] = .ok (str "0x" ++ numeral 16 w.toNat) ∧
    printf (str "%p") [.num w] = .ok (str "0x" ++ numeral 16 w.toNat) := by
  intro hall
  have hx : printf (str "%x") [.num 0xFFFFFFFF] = .error .outOfBounds := rfl
  have h := (hall 0xFFFFFFFF).2.2.1
  rw [hx] at h
  cases h

end FirstKernel
