import Mathlib.Data.Nat.Init

/-!
# Sets of indices stored in machine words

`test f i` is bit `i % w` of word `i / w` of an array `f` of `w`-bit words.

* `test_insert`, `test_erase`      OR-ing with and AND-ing with the complement of one shifted bit;
* `and_one_shiftLeft_eq_zero`      the mask test of one bit.
-/

namespace Bitmap

variable {w : Nat}

def test (f : Nat → BitVec w) (i : Nat) : Bool := (f (i / w)).getLsbD (i % w)

theorem getLsbD_one_shiftLeft (i j : Nat) (hj : j < w) :
    (1#w <<< i).getLsbD j = decide (j = i) := by
  rw [BitVec.getLsbD_shiftLeft, BitVec.getLsbD_one]
  have hw : 0 < w := by omega
  by_cases h1 : j < i
  · have h2 : ¬ j = i := by omega
    simp [hj, h1, h2]
  · by_cases h2 : j = i
    · subst h2
      simp [hj, hw]
    · have h3 : ¬ j - i = 0 := by omega
      simp [h2, h3]

theorem and_one_shiftLeft_eq_zero (x : BitVec w) (j : Nat) (hj : j < w) :
    x &&& (1#w <<< j) = 0 ↔ x.getLsbD j = false := by
  constructor
  · intro h
    have hb : (x &&& (1#w <<< j)).getLsbD j = (0#w).getLsbD j := by rw [h]; rfl
    rw [BitVec.getLsbD_and, getLsbD_one_shiftLeft j j hj] at hb
    simpa using hb
  · intro h
    apply BitVec.eq_of_getLsbD_eq
    intro i hi
    show _ = (0#w).getLsbD i
    rw [BitVec.getLsbD_and, getLsbD_one_shiftLeft j i hi, BitVec.getLsbD_zero]
    by_cases e : i = j
    · rw [e, h, Bool.false_and]
    · simp [e]

theorem index_eq {i j : Nat} (hq : j / w = i / w) (hr : j % w = i % w) : j = i := by
  rw [← Nat.div_add_mod j w, hq, hr, Nat.div_add_mod]

theorem test_insert {f g : Nat → BitVec w} (hw : 0 < w) (i j : Nat)
    (hi : g (i / w) = f (i / w) ||| (1#w <<< (i % w))) (ho : ∀ k, k ≠ i / w → g k = f k) :
    test g j = (test f j || decide (j = i)) := by
  unfold test
  by_cases hq : j / w = i / w
  · rw [hq, hi, BitVec.getLsbD_or, getLsbD_one_shiftLeft _ _ (Nat.mod_lt j hw)]
    by_cases hr : j % w = i % w
    · have e := index_eq hq hr
      simp [e]
    · have e : ¬ j = i := fun e => hr (by rw [e])
      simp [hr, e]
  · have e : ¬ j = i := fun e => hq (by rw [e])
    rw [ho _ hq]
    simp [e]

theorem test_erase {f g : Nat → BitVec w} (hw : 0 < w) (i j : Nat)
    (hi : g (i / w) = f (i / w) &&& ~~~(1#w <<< (i % w))) (ho : ∀ k, k ≠ i / w → g k = f k) :
    test g j = (test f j && decide (j ≠ i)) := by
  unfold test
  have hj := Nat.mod_lt j hw
  by_cases hq : j / w = i / w
  · rw [hq, hi, BitVec.getLsbD_and, BitVec.getLsbD_not, getLsbD_one_shiftLeft _ _ hj]
    by_cases hr : j % w = i % w
    · have e := index_eq hq hr
      simp [e]
    · have e : ¬ j = i := fun e => hr (by rw [e])
      simp [hj, hr, e]
  · have e : ¬ j = i := fun e => hq (by rw [e])
    rw [ho _ hq]
    simp [e]

end Bitmap
