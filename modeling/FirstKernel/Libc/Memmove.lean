import FirstKernel.Fs.Model
import FirstKernel.Lib.InPlace

/-!
# `string.cpp`: `memmove`

A destination in front of the source is copied upwards, any other one from the end down.

* `memcpy_eq_copy`, `moveDown_eq_copyDown`   the loops on ranges that do not wrap;
* `memmove_moves`                            the result for any overlap.
-/

namespace FirstKernel
open ByteMem Cells

/-- `for (i = size; i != 0; i--) dst[i - 1] = src[i - 1];` -/
def moveDown (m : Mem) (dst src : Word) : Nat → Mem
  | 0 => m
  | n+1 => moveDown (store8 m (dst + BitVec.ofNat 32 n).toNat (m (src + BitVec.ofNat 32 n).toNat))
      dst src n

/-- the loop upwards is the one of `memcpy` -/
def memmove (m : Mem) (dst src size : Word) : Word × Mem :=
  if dst < src then (dst, memcpy m dst src size.toNat) else (dst, moveDown m dst src size.toNat)

section
variable {dst src : Word} {n : Nat}

theorem toNat_index {p : Word} {i : Nat} (h : p.toNat + n ≤ 2^32) (hi : i < n) :
    (p + BitVec.ofNat 32 i).toNat = p.toNat + i := by
  rw [BitVec.toNat_add, BitVec.toNat_ofNat]
  omega

theorem memcpy_eq_copy (m : Mem) (hd : dst.toNat + n ≤ 2^32) (hs : src.toNat + n ≤ 2^32) :
    memcpy m dst src n = copy m dst.toNat src.toNat n := by
  induction n with
  | zero => rfl
  | succ n ih =>
    rw [memcpy, ih (by omega) (by omega), toNat_index hd (Nat.lt_succ_self n),
      toNat_index hs (Nat.lt_succ_self n)]
    rfl

theorem moveDown_eq_copyDown (m : Mem) (hd : dst.toNat + n ≤ 2^32) (hs : src.toNat + n ≤ 2^32) :
    moveDown m dst src n = copyDown m dst.toNat src.toNat n := by
  induction n generalizing m with
  | zero => rfl
  | succ n ih =>
    rw [moveDown, toNat_index hd (Nat.lt_succ_self n), toNat_index hs (Nat.lt_succ_self n),
      ih _ (by omega) (by omega)]
    rfl

end

/-- **After `memmove` the destination holds what the source held before, whatever the overlap, and
nothing else has changed.** -/
theorem memmove_moves (m : Mem) (dst src size : Word) (hd : dst.toNat + size.toNat ≤ 2^32)
    (hs : src.toNat + size.toNat ≤ 2^32) :
    (memmove m dst src size).1 = dst ∧
    (∀ i, i < size.toNat → (memmove m dst src size).2 (dst.toNat + i) = m (src.toNat + i)) ∧
    ∀ x, x < dst.toNat ∨ dst.toNat + size.toNat ≤ x → (memmove m dst src size).2 x = m x := by
  unfold memmove
  by_cases h : dst < src
  -- upwards a byte of the source is read before the destination reaches it
  · have hle : dst.toNat ≤ src.toNat := Nat.le_of_lt h
    rw [if_pos h]
    dsimp only
    rw [memcpy_eq_copy m hd hs]
    refine ⟨rfl, fun i hi => ?_, fun x hx => ?_⟩
    · exact copy_in m dst.toNat src.toNat size.toNat i (.inl hle) hi
    · exact copy_out m dst.toNat src.toNat x size.toNat hx
  · have hle : src.toNat ≤ dst.toNat := Nat.le_of_not_lt h
    rw [if_neg h]
    dsimp only
    rw [moveDown_eq_copyDown m hd hs]
    refine ⟨rfl, fun i hi => ?_, fun x hx => ?_⟩
    · exact copyDown_in m dst.toNat src.toNat size.toNat i hle hi
    · exact copyDown_out m dst.toNat src.toNat x size.toNat hx

/-- five bytes, two places further -/
theorem memmove_moves_five :
    (memmove (fun x => BitVec.ofNat 8 x) 0x1002 0x1000 5).2 0x1006 = 0x04 :=
  (memmove_moves (fun x => BitVec.ofNat 8 x) 0x1002 0x1000 5 (by decide) (by decide)).2.1 4 (by decide)

end FirstKernel
