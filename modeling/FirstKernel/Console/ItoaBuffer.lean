import FirstKernel.Console.Itoa
import FirstKernel.Lib.InPlace

/-!
# `itoa` on its arrays

The digits go into the local array `temp`, the last one first, and a second loop copies them
backwards into the caller's buffer.

* `itoaDigits_eq`      the digit loop against `itoaLoop`;
* `itoaCopy_eq`        the reversing loop stores the reversed array and the terminator;
* `itoaInto_eq`        `itoaInto` writes the text of `itoa`;
* `itoa_round_trip`    the text is the canonical numeral and is read back as the value.
-/

namespace FirstKernel
open ByteMem Cells

/-- `a[i] = c` in an array of `n` characters -/
def storeChar (n : Nat) (a : Mem) (i : Nat) (c : Byte) : Res Mem :=
  if i < n then .ok (store8 a i c) else .error .outOfBounds

def sizeofDigits : Nat := 32

/-- `do { temp[i++] = digits[value % base]; value /= base; } while (value > 0);` -/
def itoaDigits (base : Word) : Nat → Word → Mem → Nat → Res (Mem × Nat)
  | 0, _, _, _ => .error .noFuel
  | fuel+1, value, temp, i => do
    let d ← digit (value.srem base).toInt
    let temp ← storeChar sizeofDigits temp i d
    let value := value.sdiv base
    if 0 < value.toInt then itoaDigits base fuel value temp (i + 1) else return (temp, i + 1)

/-- `while (i > 0) buffer[j++] = temp[--i];` and the terminator -/
def itoaCopy (temp : Mem) : Nat → Nat → Mem → Mem
  | 0, j, buffer => store8 buffer j 0
  | i+1, j, buffer => itoaCopy temp i (j + 1) (store8 buffer j (temp i))

/-- one round for every place of `temp` and one that runs out of it -/
def itoaBound : Nat := sizeofDigits + 1

/-- `itoa(value, buffer, base)`: the caller's buffer after the call.  `temp` is not initialised. -/
def itoaInto (temp buffer : Mem) (value base : Word) : Res Mem := do
  let isNegative := base = 10 ∧ value.toInt < 0
  let value := if isNegative then -value else value
  let (temp, i) ← itoaDigits base itoaBound value temp 0
  if isNegative then
    let temp ← storeChar sizeofDigits temp i (chr '-')
    return itoaCopy temp (i + 1) 0 buffer
  else return itoaCopy temp i 0 buffer

/-! ## the two loops -/

section
variable {base value : Word} {temp buffer : Mem} {k i j : Nat}

/-- the digits found later go in front -/
theorem itoaLoop_append (base : Word) (k : Nat) (value : Word) (t : List Byte) :
    itoaLoop base k value t = (itoaLoop base k value []).map fun r => (r.1 ++ t, r.2) := by
  induction k generalizing value t with
  | zero => rfl
  | succ k ih =>
    rw [itoaLoop, itoaLoop]
    cases digit (value.srem base).toInt with
    | error e => rfl
    | ok d =>
      show (if 0 < (value.sdiv base).toInt then itoaLoop base k _ (d :: t) else .ok (d :: t, k))
        = Except.map _ (if 0 < (value.sdiv base).toInt then itoaLoop base k _ [d] else .ok ([d], k))
      by_cases h : 0 < (value.sdiv base).toInt
      · rw [if_pos h, if_pos h, ih _ (d :: t), ih _ [d]]
        cases itoaLoop base k (value.sdiv base) [] with
        | error e => rfl
        | ok r =>
          show Except.ok (r.1 ++ d :: t, r.2) = .ok (r.1 ++ [d] ++ t, r.2)
          rw [List.append_assoc]
          rfl
      · rw [if_neg h, if_neg h]
        rfl

/-- the places taken and the room left are all there were -/
theorem itoaLoop_length {t : List Byte} {room : Nat} (e : itoaLoop base k value [] = .ok (t, room)) :
    t.length + room = k := by
  induction k generalizing value t room with
  | zero => cases e
  | succ k ih =>
    rw [itoaLoop] at e
    obtain ⟨d, _, e⟩ := bind_eq_ok e
    dsimp only at e
    split at e
    · rw [itoaLoop_append] at e
      obtain ⟨r, hr, e⟩ := map_eq_ok e
      cases e
      have := ih hr
      rw [List.length_append, List.length_singleton]
      omega
    · cases e
      rw [List.length_singleton]
      omega

/-- **The digit loop stores what `itoaLoop` lists, the last digit first.** -/
theorem itoaDigits_eq {fuel : Nat} (hi : i + k = sizeofDigits) (hf : k < fuel) :
    itoaDigits base fuel value temp i
      = (itoaLoop base k value []).map fun r => (storeN temp i r.1.reverse, i + r.1.length) := by
  induction k generalizing fuel value temp i with
  | zero =>
    obtain ⟨fuel, rfl⟩ := Nat.exists_eq_add_one_of_ne_zero (Nat.ne_zero_of_lt hf)
    -- the array is full: the digit or its place is out of bounds
    rw [itoaDigits]
    cases hd : digit (value.srem base).toInt with
    | error e =>
      unfold digit at hd
      split at hd
      · cases hd
      · cases hd
        rfl
    | ok d =>
      rw [bind_ok, storeChar, if_neg (by omega)]
      rfl
  | succ k ih =>
    obtain ⟨fuel, rfl⟩ := Nat.exists_eq_add_one_of_ne_zero (Nat.ne_zero_of_lt hf)
    rw [itoaDigits, itoaLoop]
    cases digit (value.srem base).toInt with
    | error e => rfl
    | ok d =>
      rw [bind_ok, bind_ok, storeChar, if_pos (by omega), bind_ok]
      dsimp only
      by_cases h : 0 < (value.sdiv base).toInt
      · rw [if_pos h, if_pos h, ih (by omega) (by omega), itoaLoop_append base k _ [d]]
        cases itoaLoop base k (value.sdiv base) [] with
        | error e => rfl
        | ok r =>
          show Except.ok (storeN (store8 temp i d) (i + 1) r.1.reverse, i + 1 + r.1.length)
            = .ok (storeN temp i (r.1 ++ [d]).reverse, i + (r.1 ++ [d]).length)
          rw [List.reverse_append, List.reverse_singleton, List.singleton_append, storeN_cons,
            List.length_append, List.length_singleton, Nat.add_right_comm, Nat.add_assoc]
          rfl
      · rw [if_neg h, if_neg h]
        show Except.ok (store8 temp i d, i + 1) = .ok (storeN temp i [d], i + 1)
        rw [storeN_cons, storeN_nil]
        rfl

theorem itoaCopy_eq (temp buffer : Mem) (i j : Nat) :
    itoaCopy temp i j buffer = storeN buffer j ((loadN temp 0 i).reverse ++ [0]) := by
  induction i generalizing j buffer with
  | zero =>
    show store8 buffer j 0 = storeN buffer j [0]
    rw [storeN_cons, storeN_nil]
    rfl
  | succ i ih =>
    rw [itoaCopy, ih, loadN_succ, List.reverse_append, List.reverse_singleton,
      List.singleton_append, List.cons_append, storeN_cons, Nat.zero_add]
    rfl

/-- the value whose digits are stored -/
def itoaAbs (value base : Word) : Word := if base = 10 ∧ value.toInt < 0 then -value else value

theorem itoaAbs_lt (h : value ≠ 0x80000000) : (itoaAbs value 10).toNat < 2^31 := by
  unfold itoaAbs
  by_cases hneg : value.toInt < 0
  · rw [if_pos ⟨rfl, hneg⟩]
    exact toNat_neg_lt hneg h
  · rw [if_neg fun hc => hneg hc.2]
    exact toNat_lt_of_nonneg hneg

theorem itoaAbs_hex (h : value.toNat < 2^31) : (itoaAbs value 16).toNat < 2^31 := by
  rw [itoaAbs, if_neg hex_unsigned]
  exact h

/-- **The buffer gets the text of `itoa` and its terminator.** -/
theorem itoaInto_eq (hb : 10 ≤ base.toNat) (hb' : base.toNat ≤ 16)
    (hv : (itoaAbs value base).toNat < 2^31) : itoaInto temp buffer value base
      = (itoa value base).map fun text => storeN buffer 0 (text ++ [0]) := by
  obtain ⟨room, e, hr⟩ := itoaLoop_room hb hb' hv
  generalize ht : numeral base.toNat (itoaAbs value base).toNat = t at e
  have hlen : t.length + room = 32 := itoaLoop_length e
  have hd : itoaDigits base itoaBound (itoaAbs value base) temp 0
      = .ok (storeN temp 0 t.reverse, t.length) := by
    rw [itoaDigits_eq (Nat.zero_add 32) (by decide), e]
    show Except.ok (storeN temp 0 t.reverse, 0 + t.length) = _
    rw [Nat.zero_add]
  -- the digits as they lie in `temp`
  have hload : loadN (storeN temp 0 t.reverse) 0 t.length = t.reverse := by
    have h := loadN_storeN temp 0 t.reverse
    rw [List.length_reverse] at h
    exact h
  unfold itoaAbs at e hd
  unfold itoaInto itoa
  by_cases hneg : base = 10 ∧ value.toInt < 0
  · simp only [if_pos hneg] at e hd ⊢
    rw [e, hd]
    show (storeChar 32 (storeN temp 0 t.reverse) t.length (chr '-') >>= _)
      = Except.map _ (if room < 2 then _ else Except.ok (chr '-' :: t))
    rw [storeChar, if_pos (by omega), if_neg (by omega), bind_ok, itoaCopy_eq, loadN_succ,
      Nat.zero_add, store8_self]
    have hkeep : loadN (store8 (storeN temp 0 t.reverse) t.length (chr '-')) 0 t.length
        = t.reverse := by
      refine Eq.trans (loadN_congr fun i hi => ?_) hload
      exact store8_of_ne _ _ _ _ (by omega)
    rw [hkeep, List.reverse_append, List.reverse_reverse]
    rfl
  · simp only [if_neg hneg] at e hd ⊢
    rw [e, hd]
    show Except.ok (itoaCopy (storeN temp 0 t.reverse) t.length 0 buffer)
      = Except.map _ (if room < 1 then _ else Except.ok t)
    rw [if_neg (by omega), itoaCopy_eq, hload, List.reverse_reverse]
    rfl

end

/-! ## the text as a numeral -/

/-- a numeral with an optional sign, read in base `b` -/
def readNumeral (b : Nat) : List Byte → Option Int
  | [] => none
  | c :: cs =>
    if c = chr '-' then (Numeral.read digitVal b cs).map fun n => -(n : Int)
    else (Numeral.read digitVal b (c :: cs)).map fun n => (n : Int)

/-- the text of a number: within 32 bytes with its terminator, no leading zero but for "0" itself,
a sign for the negative numbers only, and read back as the number -/
structure Canonical (b : Nat) (z : Int) (text : List Byte) : Prop where
  fits : text.length + 1 ≤ 32
  nul : 0 ∉ text
  lead : (text.dropWhile (· = chr '-')).head? = some (chr '0') → text = [chr '0']
  sign : chr '-' ∈ text ↔ z < 0
  read : readNumeral b text = some z

section
variable {b n : Nat} {z : Int} {text : List Byte}

theorem digitSym_ne_nul : ∀ d, d < 16 → digitSym d ≠ 0 := by decide

theorem digitSym_eq_zero : ∀ d, d < 16 → digitSym d = chr '0' → d = 0 := by decide

theorem nul_not_mem (hb : 1 < b) (hb' : b ≤ 16) : (0 : Byte) ∉ numeral b n := by
  intro h
  obtain ⟨d, hd, e⟩ := List.mem_map.mp h
  have hlt := Numeral.digits_lt hb hd
  exact digitSym_ne_nul d (by omega) e

theorem length_numeral_lt (hb : 10 ≤ b) (hn : n < 2^31) : (numeral b n).length ≤ 10 := by
  rw [numeral, Numeral.write, List.length_map]
  exact length_numeral hb hn

/-- a numeral that starts with a zero is the numeral of zero -/
theorem numeral_head (hb : 1 < b) (hb' : b ≤ 16) (h : (numeral b n).head? = some (chr '0')) :
    numeral b n = [chr '0'] ∧ n = 0 := by
  rw [numeral, Numeral.write, List.head?_map] at h
  obtain ⟨d, hd, e⟩ := Option.map_eq_some_iff.mp h
  have hlt := Numeral.digits_lt hb (List.mem_of_head? hd)
  have h0 := digitSym_eq_zero d (by omega) e
  rw [h0] at hd
  have hdigits := Numeral.head_digits hb hd
  refine ⟨?_, Numeral.digits_inj hb ?_⟩
  · rw [numeral, Numeral.write, hdigits]
    rfl
  · rw [hdigits, Numeral.digits_of_lt (by omega)]

/-- a numeral starts with a digit -/
theorem numeral_cons (hb : 1 < b) (hb' : b ≤ 16) (n : Nat) :
    ∃ c cs, numeral b n = c :: cs ∧ c ≠ chr '-' := by
  cases e : numeral b n with
  | nil => exact absurd e (Numeral.write_ne_nil digitSym b n)
  | cons c cs =>
    refine ⟨c, cs, rfl, fun hc => minus_not_mem hb hb' (n := n) ?_⟩
    rw [e, hc]
    exact List.mem_cons_self

theorem numeral_unsigned (hb : 1 < b) (hb' : b ≤ 16) (n : Nat) :
    (numeral b n).dropWhile (· = chr '-') = numeral b n := by
  obtain ⟨c, cs, e, hc⟩ := numeral_cons hb hb' n
  rw [e, List.dropWhile_cons_of_neg (by simpa using hc)]

theorem digitVal_sym_lt (hb' : b ≤ 16) : ∀ d, d < b → digitVal (digitSym d) = some d :=
  fun d hd => digitVal_sym d (Nat.lt_of_lt_of_le hd hb')

theorem canonical_numeral (hb : 10 ≤ b) (hb' : b ≤ 16) (hn : n < 2^31) :
    Canonical b n (numeral b n) := by
  have h1 : 1 < b := by omega
  have hlen := length_numeral_lt hb hn
  refine ⟨by omega, nul_not_mem h1 hb', fun h => ?_, ?_, ?_⟩
  · rw [numeral_unsigned h1 hb'] at h
    exact (numeral_head h1 hb' h).1
  · exact iff_of_false (minus_not_mem h1 hb') (by omega)
  · have hr : Numeral.read digitVal b (numeral b n) = some n :=
      Numeral.read_write h1 (digitVal_sym_lt hb') n
    obtain ⟨c, cs, e, hc⟩ := numeral_cons h1 hb' n
    rw [e] at hr ⊢
    rw [readNumeral, if_neg hc, hr]
    rfl

theorem canonical_negative (hz : z < 0) (hn : z.natAbs < 2^31) :
    Canonical 10 z (chr '-' :: numeral 10 z.natAbs) := by
  have hlen := length_numeral_lt (Nat.le_refl 10) hn
  refine ⟨?_, ?_, fun h => ?_, ?_, ?_⟩
  · rw [List.length_cons]
    omega
  · intro h
    rcases List.mem_cons.mp h with h | h
    · exact absurd h (by decide)
    · exact nul_not_mem (by decide) (by decide) h
  · rw [List.dropWhile_cons_of_pos (by simp), numeral_unsigned (by decide) (by decide)] at h
    have := (numeral_head (by decide) (by decide) h).2
    omega
  · exact iff_of_true List.mem_cons_self hz
  · rw [readNumeral, if_pos rfl, numeral, Numeral.read_write (by decide) (digitVal_sym_lt (by decide))]
    show some (-(z.natAbs : Int)) = some z
    congr 1
    omega

theorem canonical_decimal (hn : z.natAbs < 2^31) : Canonical 10 z (decimal z) := by
  unfold decimal
  by_cases hz : z < 0
  · rw [if_pos hz]
    exact canonical_negative hz hn
  · rw [if_neg hz]
    have h := canonical_numeral (Nat.le_refl 10) (by decide) hn
    rw [Int.natAbs_of_nonneg (by omega)] at h
    exact h

end

/-- the values `itoa` is used for: base 10 but for the negative limit, base 16 when not negative -/
def InRange (value base : Word) : Prop :=
  base = 10 ∧ -2^31 < value.toInt ∨ base = 16 ∧ 0 ≤ value.toInt

/-- the call leaves `text` and a terminator in the buffer and nothing else changed -/
def Writes (r : Res Mem) (buffer : Mem) (text : List Byte) : Prop :=
  r = .ok (storeN buffer 0 (text ++ [0])) ∧ 0 ∉ text

section
variable {value base : Word}

/-- the string in a buffer, read back up to its terminator -/
theorem string_storeN (m : Mem) {t : List Byte} (h : 0 ∉ t) {n : Nat} (hn : t.length < n) :
    (loadN (storeN m 0 (t ++ [0])) 0 n).takeWhile (· ≠ 0) = t := by
  obtain ⟨k, rfl⟩ : ∃ k, n = (t ++ [0]).length + k := by
    refine ⟨n - (t ++ [0]).length, ?_⟩
    rw [List.length_append, List.length_singleton]
    omega
  have hpos : ∀ c ∈ t, decide (c ≠ 0) = true := by
    intro c hc
    exact decide_eq_true fun e => h (e ▸ hc)
  rw [loadN_add, loadN_storeN, List.append_assoc, List.takeWhile_append_of_pos hpos,
    List.singleton_append, List.takeWhile_cons_of_neg (by simp), List.append_nil]

theorem Writes.unique {r : Res Mem} {buffer : Mem} {t t' : List Byte} (h : Writes r buffer t)
    (h' : Writes r buffer t') : t = t' := by
  have e : storeN buffer 0 (t ++ [0]) = storeN buffer 0 (t' ++ [0]) :=
    Except.ok.inj (h.1.symm.trans h'.1)
  have ht := string_storeN buffer h.2 (Nat.lt_succ_of_le (Nat.le_max_left t.length t'.length))
  rw [e, string_storeN buffer h'.2 (Nat.lt_succ_of_le (Nat.le_max_right ..))] at ht
  exact ht.symm

theorem itoaInto_canonical (h : InRange value base) (temp buffer : Mem) : ∃ text,
    itoaInto temp buffer value base = .ok (storeN buffer 0 (text ++ [0])) ∧
      Canonical base.toNat value.toInt text := by
  rcases h with ⟨rfl, hv⟩ | ⟨rfl, hv⟩
  · have hne : value ≠ 0x80000000 := by
      rintro rfl
      exact absurd hv (by decide)
    have habs : value.toInt.natAbs < 2^31 := by
      have := value.toInt_lt
      omega
    refine ⟨decimal value.toInt, ?_, canonical_decimal habs⟩
    rw [itoaInto_eq (by decide) (by decide) (itoaAbs_lt hne), itoa_decimal hne]
    rfl
  · have hlt := toNat_lt_of_nonneg (Int.not_lt.mpr hv)
    refine ⟨numeral 16 value.toNat, ?_, ?_⟩
    · rw [itoaInto_eq (by decide) (by decide) (itoaAbs_hex hlt), itoa_hex hlt]
      rfl
    · rw [toInt_of_lt hlt]
      exact canonical_numeral (by decide) (by decide) hlt

end

/-- **`itoa` writes the canonical numeral of its value, and distinct values give distinct
strings.** -/
theorem itoa_round_trip (value base : Word) (h : InRange value base) (temp buffer : Mem) :
    ∃ text, Writes (itoaInto temp buffer value base) buffer text ∧
      Canonical base.toNat value.toInt text ∧
      ∀ value' temp' buffer', InRange value' base →
        Writes (itoaInto temp' buffer' value' base) buffer' text → value' = value := by
  obtain ⟨text, e, hc⟩ := itoaInto_canonical h temp buffer
  refine ⟨text, ⟨e, hc.nul⟩, hc, fun value' temp' buffer' h' hw => ?_⟩
  obtain ⟨text', e', hc'⟩ := itoaInto_canonical h' temp' buffer'
  have ht : text' = text := Writes.unique ⟨e', hc'.nul⟩ hw
  have hread := hc'.read
  rw [ht, hc.read] at hread
  exact BitVec.eq_of_toInt_eq (Option.some.inj hread).symm

/-- the value -1200 in base 10 -/
theorem itoa_round_trip_negative : ∃ text,
    Writes (itoaInto (fun _ => 0) (fun _ => 0) (-1200) 10) (fun _ => 0) text ∧
      Canonical 10 (-1200) text := by
  obtain ⟨text, hw, hc, _⟩ := itoa_round_trip (-1200) 10 (.inl ⟨rfl, by decide⟩) (fun _ => 0)
    (fun _ => 0)
  exact ⟨text, hw, hc⟩

end FirstKernel
