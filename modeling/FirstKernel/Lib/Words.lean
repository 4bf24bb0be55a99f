import Mathlib.Algebra.Order.Ring.Nat
import Mathlib.Data.Nat.Init

/-!
# Rounding machine words

`x & ~(2^k - 1)` clears the low `k` bits, that is, rounds down to a multiple of `2^k`
(`toNat_and_not_low`); with `2^k - 1` added first it rounds up, as long as the sum does not wrap.
-/

namespace Words

variable {w : Nat}

theorem getLsbD_low (k i : Nat) (hi : i < w) :
    (BitVec.ofNat w (2^k - 1)).getLsbD i = decide (i < k) := by
  rw [BitVec.getLsbD_ofNat, Nat.testBit_two_pow_sub_one]
  simp [hi]

theorem and_not_low (x : BitVec w) (k : Nat) :
    x &&& ~~~(BitVec.ofNat w (2^k - 1)) = (x >>> k) <<< k := by
  apply BitVec.eq_of_getLsbD_eq
  intro i hi
  rw [BitVec.getLsbD_and, BitVec.getLsbD_not, getLsbD_low k i hi, BitVec.getLsbD_shiftLeft,
    BitVec.getLsbD_ushiftRight]
  by_cases h : i < k
  · simp [h]
  · have e : k + (i - k) = i := by omega
    simp [h, hi, e]

theorem toNat_and_not_low (x : BitVec w) (k : Nat) :
    (x &&& ~~~(BitVec.ofNat w (2^k - 1))).toNat = x.toNat / 2^k * 2^k := by
  have hle : x.toNat / 2^k * 2^k ≤ x.toNat := Nat.div_mul_le_self ..
  have hx := x.isLt
  rw [and_not_low, BitVec.toNat_shiftLeft, BitVec.toNat_ushiftRight, Nat.shiftRight_eq_div_pow,
    Nat.shiftLeft_eq, Nat.mod_eq_of_lt (by omega)]

end Words
