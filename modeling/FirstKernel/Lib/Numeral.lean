import Mathlib.Algebra.Order.Ring.Nat
import Mathlib.Data.List.Basic

/-!
# Positional numerals

`digits b n`: the digits of `n` in base `b`, the most significant first and none leading but for
the numeral of 0.  `write` spells them with symbols, `read` takes symbols back.

* `digits_of_lt`, `digits_snoc`     one digit; the last digit and the rest;
* `value_digits`, `digits_inj`      the digits determine the number;
* `head_digits`, `length_digits`    no leading zero, and how many digits there are;
* `read_write`                      the round trip.
-/

namespace Numeral

def digits (b n : Nat) : List Nat :=
  if _h : 1 < b ∧ b ≤ n then digits b (n / b) ++ [n % b] else [n]
termination_by n
decreasing_by exact Nat.div_lt_self (by omega) (by omega)

def value (b : Nat) (ds : List Nat) : Nat := ds.foldl (fun a d => a * b + d) 0

section
variable {b n m : Nat}

theorem digits_of_lt (h : n < b) : digits b n = [n] := by
  rw [digits, dif_neg (by omega)]

theorem digits_snoc (hb : 1 < b) (h : b ≤ n) : digits b n = digits b (n / b) ++ [n % b] := by
  rw [digits, dif_pos ⟨hb, h⟩]

/-- the digits of a number, the last one peeled off again and again -/
theorem digits_induction {P : Nat → Prop} (hb : 1 < b) (one : ∀ n, n < b → P n)
    (more : ∀ n, b ≤ n → P (n / b) → P n) (n : Nat) : P n := by
  induction n using Nat.strongRecOn with
  | ind n ih =>
    by_cases h : n < b
    · exact one n h
    · exact more n (Nat.le_of_not_lt h) (ih _ (Nat.div_lt_self (by omega) hb))

theorem value_snoc (ds : List Nat) (d : Nat) : value b (ds ++ [d]) = value b ds * b + d := by
  rw [value, List.foldl_append]
  rfl

theorem value_digits (hb : 1 < b) (n : Nat) : value b (digits b n) = n := by
  induction n using digits_induction hb with
  | one n h =>
    rw [digits_of_lt h]
    show 0 * b + n = n
    omega
  | more n h ih => rw [digits_snoc hb h, value_snoc, ih, Nat.div_add_mod']

theorem digits_inj (hb : 1 < b) (h : digits b n = digits b m) : n = m := by
  rw [← value_digits hb n, h, value_digits hb]

theorem digits_ne_nil (b n : Nat) : digits b n ≠ [] := by
  rw [digits]
  split
  · exact List.append_ne_nil_of_right_ne_nil _ (List.cons_ne_nil _ _)
  · exact List.cons_ne_nil _ _

theorem digits_lt (hb : 1 < b) {d : Nat} (hd : d ∈ digits b n) : d < b := by
  induction n using digits_induction hb with
  | one n h =>
    rw [digits_of_lt h] at hd
    rw [List.mem_singleton.mp hd]
    exact h
  | more n h ih =>
    rw [digits_snoc hb h] at hd
    rcases List.mem_append.mp hd with hd | hd
    · exact ih hd
    · rw [List.mem_singleton.mp hd]
      exact Nat.mod_lt _ (by omega)

/-- no leading zero, but for the numeral of 0 -/
theorem head_digits (hb : 1 < b) (h : (digits b n).head? = some 0) : digits b n = [0] := by
  induction n using digits_induction hb with
  | one n hn =>
    rw [digits_of_lt hn] at h ⊢
    rw [Option.some.inj h]
  | more n hn ih =>
    have hq : n / b ≠ 0 := Nat.ne_of_gt (Nat.div_pos hn (by omega))
    rw [digits_snoc hb hn, List.head?_append_of_ne_nil _ (digits_ne_nil b _)] at h
    -- a quotient whose numeral starts with a zero is zero
    have hv := value_digits hb (n / b)
    rw [ih h] at hv
    have hz : value b [0] = 0 := by
      show 0 * b + 0 = 0
      omega
    exact absurd (hv.symm.trans hz) hq

theorem length_digits (hb : 1 < b) {k : Nat} (hk : 0 < k) (h : n < b ^ k) :
    (digits b n).length ≤ k := by
  induction n using digits_induction hb generalizing k with
  | one n hn =>
    rw [digits_of_lt hn]
    exact hk
  | more n hn ih =>
    obtain ⟨k, rfl⟩ := Nat.exists_eq_add_one_of_ne_zero (Nat.ne_zero_of_lt hk)
    have hq : n / b < b ^ k := Nat.div_lt_of_lt_mul (by rw [← Nat.pow_succ']; exact h)
    have hk : 0 < k := by
      by_contra h0
      have hz : k = 0 := by omega
      rw [hz, Nat.zero_add, Nat.pow_one] at h
      omega
    have hrec := ih hk hq
    rw [digits_snoc hb hn, List.length_append, List.length_singleton]
    omega

end

/-! ## symbols -/

section
variable {α : Type} {b n m : Nat} {sym : Nat → α} {val : α → Option Nat}

/-- the numeral of `n` in the symbols `sym` -/
def write (sym : Nat → α) (b n : Nat) : List α := (digits b n).map sym

/-- one more symbol of a numeral -/
def readStep (val : α → Option Nat) (b a : Nat) (c : α) : Option Nat :=
  (val c).bind fun d => if d < b then some (a * b + d) else none

/-- the number a non-empty list of digits stands for -/
def read (val : α → Option Nat) (b : Nat) : List α → Option Nat
  | [] => none
  | c :: cs => (c :: cs).foldlM (readStep val b) 0

theorem foldlM_map (h : ∀ d, d < b → val (sym d) = some d) {ds : List Nat}
    (hd : ∀ d ∈ ds, d < b) (a : Nat) :
    (ds.map sym).foldlM (readStep val b) a = some (ds.foldl (fun a d => a * b + d) a) := by
  induction ds generalizing a with
  | nil => rfl
  | cons d ds ih =>
    have hlt := hd d List.mem_cons_self
    have hs : readStep val b a (sym d) = some (a * b + d) := by
      rw [readStep, h d hlt, Option.bind_some, if_pos hlt]
    rw [List.map_cons, List.foldlM_cons, hs]
    exact ih (fun c hc => hd c (List.mem_cons_of_mem _ hc)) _

theorem write_ne_nil (sym : Nat → α) (b n : Nat) : write sym b n ≠ [] :=
  fun h => digits_ne_nil b n (List.map_eq_nil_iff.mp h)

/-- **A numeral read back is the number.** -/
theorem read_write (hb : 1 < b) (h : ∀ d, d < b → val (sym d) = some d) (n : Nat) :
    read val b (write sym b n) = some n := by
  have hf := foldlM_map h (fun d hd => digits_lt hb (n := n) hd) 0
  have hv : (digits b n).foldl (fun a d => a * b + d) 0 = n := value_digits hb n
  rw [hv] at hf
  show read val b ((digits b n).map sym) = some n
  cases e : (digits b n).map sym with
  | nil => exact absurd e (write_ne_nil sym b n)
  | cons c cs => rw [read, ← e, hf]

theorem write_inj (hb : 1 < b) (h : ∀ d, d < b → val (sym d) = some d)
    (e : write sym b n = write sym b m) : n = m := by
  have hn := read_write hb h n
  rw [e, read_write hb h m] at hn
  exact (Option.some.inj hn).symm

end

end Numeral
