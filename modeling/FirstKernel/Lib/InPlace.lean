import FirstKernel.Lib.Cells

/-!
# Loops that overwrite the range they read

* `storeN_cons`, `_append`, `_snoc`        storing a list piece by piece;
* `copyDown_in`, `copyDown_out`            a copy from the last entry to the first;
* `swapEnds_apply`, `swapEnds_eq_storeN`   reversal by swaps from both ends.
-/

namespace Cells

section
variable {α : Type}

/-! ## storing a list -/

@[simp] theorem storeN_nil (m : Nat → α) (a : Nat) : storeN m a [] = m := by
  funext x
  refine storeN_out m a [] x ?_
  rw [List.length_nil]
  omega

/-- an array that holds `w` at `a` and is `m` elsewhere -/
theorem eq_storeN {m m' : Nat → α} {a : Nat} {w : List α} (hin : loadN m' a w.length = w)
    (hout : ∀ x, x < a ∨ a + w.length ≤ x → m' x = m x) : m' = storeN m a w := by
  funext x
  by_cases hx : a ≤ x ∧ x < a + w.length
  · obtain ⟨i, rfl⟩ := Nat.exists_eq_add_of_le hx.1
    have hi : i < (loadN m' a w.length).length := by
      rw [loadN_length]
      omega
    have hs : loadN (storeN m a w) a w.length = loadN m' a w.length := by rw [loadN_storeN, hin]
    have e := loadN_getElem m' a w.length i hi
    rw [← e, ← loadN_getElem (storeN m a w) a w.length i (by rw [hs]; exact hi)]
    simp only [hs]
  · rw [hout x (by omega), storeN_out m a w x (by omega)]

theorem storeN_cons (m : Nat → α) (a : Nat) (c : α) (w : List α) :
    storeN m a (c :: w) = storeN (Function.update m a c) (a + 1) w := by
  symm
  refine eq_storeN ?_ fun x hx => ?_
  · rw [List.length_cons, loadN_cons, loadN_storeN, storeN_out _ _ _ _ (.inl (Nat.lt_succ_self a)),
      Function.update_self]
  · rw [List.length_cons] at hx
    rw [storeN_out _ _ _ _ (by omega), Function.update_of_ne (by omega)]

theorem storeN_append (m : Nat → α) (a : Nat) (w w' : List α) :
    storeN m a (w ++ w') = storeN (storeN m a w) (a + w.length) w' := by
  induction w generalizing m a with
  | nil => rw [List.nil_append, storeN_nil, List.length_nil, Nat.add_zero]
  | cons c w ih =>
    rw [List.cons_append, storeN_cons, ih, ← storeN_cons, List.length_cons, Nat.add_assoc,
      Nat.add_comm 1]

/-- one more entry behind the list -/
theorem storeN_snoc (m : Nat → α) (a : Nat) (w : List α) (c : α) :
    Function.update (storeN m a w) (a + w.length) c = storeN m a (w ++ [c]) := by
  rw [storeN_append, storeN_cons, storeN_nil]

/-- the front part of what was stored, stored over -/
theorem storeN_over (m : Nat → α) (a : Nat) {w w' : List α} (v : List α) (h : w'.length = w.length) :
    storeN (storeN m a (w ++ v)) a w' = storeN m a (w' ++ v) := by
  refine eq_storeN ?_ fun x hx => ?_
  · rw [List.length_append, loadN_add, loadN_storeN]
    congr 1
    have hv : loadN (storeN m a (w ++ v)) (a + w'.length) v.length = v := by
      rw [storeN_append, h, loadN_storeN]
    refine Eq.trans (loadN_congr fun i _ => ?_) hv
    exact storeN_out _ _ _ _ (.inr (by omega))
  · rw [List.length_append] at hx
    rw [storeN_out _ _ _ _ (by omega), storeN_out _ _ _ _ (by rw [List.length_append]; omega)]

/-! ## a copy from the end -/

/-- `n` rounds of `dst[i - 1] = src[i - 1]`, from `i = n` down -/
def copyDown (m : Nat → α) (dst src : Nat) : Nat → Nat → α
  | 0 => m
  | n+1 => copyDown (Function.update m (dst + n) (m (src + n))) dst src n

theorem copyDown_out (m : Nat → α) (dst src x n : Nat) (h : x < dst ∨ dst + n ≤ x) :
    copyDown m dst src n x = m x := by
  induction n generalizing m with
  | zero => rfl
  | succ n ih => rw [copyDown, ih _ (by omega), Function.update_of_ne (by omega)]

/-- a source in front of the destination is read before it is overwritten -/
theorem copyDown_in (m : Nat → α) (dst src n i : Nat) (hd : src ≤ dst) (hi : i < n) :
    copyDown m dst src n (dst + i) = m (src + i) := by
  induction n generalizing m with
  | zero => omega
  | succ n ih =>
    rw [copyDown]
    by_cases h : i = n
    · rw [h, copyDown_out _ _ _ _ _ (.inr (Nat.le_refl _)), Function.update_self]
    · rw [ih _ (by omega), Function.update_of_ne (by omega)]

/-! ## reversal by swaps -/

/-- `n` rounds of swapping `a[j]` and `a[len - j - 1]`, from `j = 0` on -/
def swapEnds (m : Nat → α) (len : Nat) : Nat → Nat → α
  | 0 => m
  | n+1 =>
    let m := swapEnds m len n
    Function.update (Function.update m n (m (len - n - 1))) (len - n - 1) (m n)

/-- after `n` rounds the outer `n` entries on both sides are exchanged -/
theorem swapEnds_apply (m : Nat → α) (len n x : Nat) (h : n ≤ len / 2) : swapEnds m len n x
    = if x < n ∨ len - n ≤ x ∧ x < len then m (len - 1 - x) else m x := by
  induction n generalizing x with
  | zero =>
    rw [if_neg (by omega)]
    rfl
  | succ n ih =>
    have hn : n ≤ len / 2 := by omega
    -- the two entries of this round are still in their places
    have hlo : swapEnds m len n n = m n := by rw [ih n hn, if_neg (by omega)]
    have hhi : swapEnds m len n (len - n - 1) = m (len - n - 1) := by
      rw [ih _ hn, if_neg (by omega)]
    show Function.update (Function.update (swapEnds m len n) n (swapEnds m len n (len - n - 1)))
      (len - n - 1) (swapEnds m len n n) x = _
    rw [hlo, hhi]
    by_cases h1 : x = len - n - 1
    · rw [h1, Function.update_self, if_pos (by omega)]
      congr 1
      omega
    · rw [Function.update_of_ne h1]
      by_cases h2 : x = n
      · rw [h2, Function.update_self, if_pos (by omega)]
        congr 1
        omega
      · rw [Function.update_of_ne h2, ih x hn]
        by_cases h3 : x < n ∨ len - n ≤ x ∧ x < len
        · rw [if_pos h3, if_pos (by omega)]
        · rw [if_neg h3, if_neg (by omega)]

theorem loadN_swapEnds (m : Nat → α) (len : Nat) :
    loadN (swapEnds m len (len / 2)) 0 len = (loadN m 0 len).reverse := by
  refine List.ext_getElem (by rw [List.length_reverse, loadN_length, loadN_length]) fun i h1 h2 => ?_
  rw [loadN_length] at h1
  rw [List.getElem_reverse, loadN_getElem, loadN_getElem, Nat.zero_add, Nat.zero_add,
    loadN_length, swapEnds_apply m len _ i (Nat.le_refl _)]
  by_cases h : i < len / 2 ∨ len - len / 2 ≤ i ∧ i < len
  · rw [if_pos h]
  · rw [if_neg h]
    congr 1
    omega

/-- the reversal as one store -/
theorem swapEnds_eq_storeN (m : Nat → α) (len : Nat) :
    swapEnds m len (len / 2) = storeN m 0 (loadN m 0 len).reverse := by
  refine eq_storeN ?_ fun x hx => ?_
  · rw [List.length_reverse, loadN_length, loadN_swapEnds]
  · rw [List.length_reverse, loadN_length] at hx
    rw [swapEnds_apply m len _ x (Nat.le_refl _), if_neg (by omega)]

end

end Cells
