import Mathlib.Algebra.Order.Ring.Nat
import Mathlib.Logic.Function.Basic
import Mathlib.Data.List.Basic

/-!
# Arrays of cells: fills, copies and ranges

A store is a map from indices to cells.  A loop over a range comes with two lemmas:

* `fill_in`, `copy_in`      what is read back where the loop wrote;
* `fill_out`, `copy_out`    nothing else changes.

`blit` is a copy that evaluates in one step.

`loadN` is a range of cells as a list.
-/

namespace Cells

section
variable {α : Type}

/-! ## loops over a range -/

/-- `n` rounds of `dst[i] = b` -/
def fill (m : Nat → α) (dst : Nat) (b : α) : Nat → Nat → α
  | 0 => m
  | n+1 => Function.update (fill m dst b n) (dst + n) b

/-- `n` rounds of `dst[i] = src[i]` -/
def copy (m : Nat → α) (dst src : Nat) : Nat → Nat → α
  | 0 => m
  | n+1 => Function.update (copy m dst src n) (dst + n) (copy m dst src n (src + n))

theorem fill_out (m : Nat → α) (dst x : Nat) (b : α) (n : Nat) (h : x < dst ∨ dst + n ≤ x) :
    fill m dst b n x = m x := by
  induction n with
  | zero => rfl
  | succ n ih =>
    show Function.update (fill m dst b n) (dst + n) b x = m x
    rw [Function.update_of_ne (by omega), ih (by omega)]

theorem fill_in (m : Nat → α) (dst x : Nat) (b : α) (n : Nat) (h : dst ≤ x) (h' : x < dst + n) :
    fill m dst b n x = b := by
  induction n with
  | zero => omega
  | succ n ih =>
    show Function.update (fill m dst b n) (dst + n) b x = b
    by_cases e : x = dst + n
    · rw [e, Function.update_self]
    · rw [Function.update_of_ne e, ih (by omega)]

theorem copy_out (m : Nat → α) (dst src x n : Nat) (h : x < dst ∨ dst + n ≤ x) :
    copy m dst src n x = m x := by
  induction n with
  | zero => rfl
  | succ n ih =>
    show Function.update (copy m dst src n) (dst + n) _ x = m x
    rw [Function.update_of_ne (by omega), ih (by omega)]

/-- a forward copy to the left, or between disjoint ranges -/
theorem copy_in (m : Nat → α) (dst src n i : Nat) (hd : dst ≤ src ∨ src + n ≤ dst) (hi : i < n) :
    copy m dst src n (dst + i) = m (src + i) := by
  induction n with
  | zero => omega
  | succ n ih =>
    show Function.update (copy m dst src n) (dst + n) (copy m dst src n (src + n)) (dst + i) = _
    by_cases e : i = n
    · subst e
      rw [Function.update_self, copy_out _ _ _ _ _ (by omega)]
    · rw [Function.update_of_ne (by omega), ih (by omega) (by omega)]

/-- a forward copy in one step, where the ranges allow it -/
def blit (m : Nat → α) (dst src n : Nat) : Nat → α :=
  if dst ≤ src ∨ src + n ≤ dst then
    fun x => if dst ≤ x ∧ x < dst + n then m (src + (x - dst)) else m x
  else copy m dst src n

theorem copy_eq_blit (m : Nat → α) (dst src n : Nat) : copy m dst src n = blit m dst src n := by
  unfold blit
  by_cases hd : dst ≤ src ∨ src + n ≤ dst
  · rw [if_pos hd]
    funext x
    by_cases hx : dst ≤ x ∧ x < dst + n
    · obtain ⟨i, rfl⟩ := Nat.exists_eq_add_of_le hx.1
      rw [if_pos hx, copy_in _ _ _ _ _ hd (by omega), Nat.add_sub_cancel_left]
    · rw [if_neg hx, copy_out _ _ _ _ _ (by omega)]
  · rw [if_neg hd]

/-! ## rows -/

/-- `n` rows of `w` cells, from index 0 on, filled with `b` -/
def fillRows (m : Nat → α) (w : Nat) (b : α) : Nat → Nat → α
  | 0 => m
  | n+1 => fill (fillRows m w b n) (n * w) b w

/-- each of the first `n` rows of `w` cells becomes the row after it -/
def copyRows (m : Nat → α) (w : Nat) : Nat → Nat → α
  | 0 => m
  | n+1 => copy (copyRows m w n) (n * w) ((n + 1) * w) w

theorem fillRows_apply (m : Nat → α) (w : Nat) (b : α) (n i : Nat) :
    fillRows m w b n i = if i < n * w then b else m i := by
  induction n with
  | zero => simp [fillRows]
  | succ n ih =>
    rw [fillRows, Nat.succ_mul]
    by_cases h : i < n * w
    · rw [fill_out _ _ _ _ _ (.inl h), ih, if_pos h, if_pos (by omega)]
    · by_cases h' : i < n * w + w
      · rw [fill_in _ _ _ _ _ (by omega) h', if_pos h']
      · rw [fill_out _ _ _ _ _ (by omega), ih, if_neg h, if_neg h']

theorem copyRows_apply (m : Nat → α) (w n i : Nat) :
    copyRows m w n i = if i < n * w then m (i + w) else m i := by
  induction n generalizing i with
  | zero => simp [copyRows]
  | succ n ih =>
    rw [copyRows, Nat.succ_mul]
    by_cases h : i < n * w
    · rw [copy_out _ _ _ _ _ (.inl h), ih, if_pos h, if_pos (by omega)]
    · by_cases h' : i < n * w + w
      · obtain ⟨j, rfl⟩ := Nat.exists_eq_add_of_le (Nat.le_of_not_lt h)
        rw [copy_in _ _ _ _ _ (.inl (by omega)) (by omega), ih, if_neg (by omega), if_pos h']
        congr 1
        omega
      · rw [copy_out _ _ _ _ _ (by omega), ih, if_neg h, if_neg h']

/-! ## a range as a list -/

def loadN (m : Nat → α) (a n : Nat) : List α := (List.range n).map fun i => m (a + i)

@[simp] theorem loadN_length (m : Nat → α) (a n : Nat) : (loadN m a n).length = n := by
  simp [loadN]

@[simp] theorem loadN_zero (m : Nat → α) (a : Nat) : loadN m a 0 = [] := rfl

theorem loadN_getElem (m : Nat → α) (a n i : Nat) (h : i < (loadN m a n).length) :
    (loadN m a n)[i] = m (a + i) := by
  simp [loadN]

theorem loadN_congr {m m' : Nat → α} {a a' n : Nat} (h : ∀ i, i < n → m' (a' + i) = m (a + i)) :
    loadN m' a' n = loadN m a n := by
  unfold loadN
  apply List.map_congr_left
  intro i hi
  exact h i (List.mem_range.mp hi)

theorem loadN_add (m : Nat → α) (a n k : Nat) :
    loadN m a (n + k) = loadN m a n ++ loadN m (a + n) k := by
  unfold loadN
  rw [List.range_add, List.map_append, List.map_map]
  congr 1
  apply List.map_congr_left
  intro i _
  show m (a + (n + i)) = m (a + n + i)
  rw [Nat.add_assoc]

theorem loadN_succ (m : Nat → α) (a n : Nat) : loadN m a (n + 1) = loadN m a n ++ [m (a + n)] :=
  loadN_add m a n 1

theorem loadN_cons (m : Nat → α) (a n : Nat) : loadN m a (n + 1) = m a :: loadN m (a + 1) n := by
  rw [Nat.add_comm n 1, loadN_add]
  rfl

theorem loadN_take (m : Nat → α) (a n k : Nat) (h : k ≤ n) : (loadN m a n).take k = loadN m a k := by
  obtain ⟨j, rfl⟩ := Nat.exists_eq_add_of_le h
  rw [loadN_add, List.take_left' (loadN_length m a k)]

theorem loadN_fill (m : Nat → α) (dst : Nat) (b : α) (n : Nat) :
    loadN (fill m dst b n) dst n = List.replicate n b := by
  refine List.ext_getElem (by rw [loadN_length, List.length_replicate]) fun i h1 _ => ?_
  rw [loadN_length] at h1
  rw [loadN_getElem, List.getElem_replicate]
  exact fill_in _ _ _ _ _ (by omega) (by omega)

theorem loadN_drop (m : Nat → α) (a n k : Nat) (h : k ≤ n) :
    (loadN m a n).drop k = loadN m (a + k) (n - k) := by
  obtain ⟨j, rfl⟩ := Nat.exists_eq_add_of_le h
  rw [loadN_add, List.drop_left' (loadN_length m a k), Nat.add_sub_cancel_left]

/-- the array with the list `w` at `a` -/
def storeN (m : Nat → α) (a : Nat) (w : List α) : Nat → α := fun x =>
  if h : a ≤ x ∧ x < a + w.length then w.get ⟨x - a, by omega⟩ else m x

theorem storeN_out (m : Nat → α) (a : Nat) (w : List α) (x : Nat) (h : x < a ∨ a + w.length ≤ x) :
    storeN m a w x = m x := dif_neg (by omega)

theorem loadN_storeN (m : Nat → α) (a : Nat) (w : List α) : loadN (storeN m a w) a w.length = w := by
  refine List.ext_getElem (loadN_length ..) fun i _ hi => ?_
  rw [loadN_getElem]
  unfold storeN
  rw [dif_pos ⟨Nat.le_add_right _ _, Nat.add_lt_add_left hi a⟩]
  simp only [Nat.add_sub_cancel_left]
  rfl

/-- the array after entry `i` of `n` was removed by a copy to the left -/
theorem loadN_shift (m : Nat → α) (n i : Nat) (hi : i < n) :
    loadN (copy m i (i + 1) (n - 1 - i)) 0 (n - 1) = (loadN m 0 n).eraseIdx i := by
  have hlen : ((loadN m 0 n).eraseIdx i).length = n - 1 := by
    rw [List.length_eraseIdx_of_lt (by rw [loadN_length]; exact hi), loadN_length]
  refine List.ext_getElem (by rw [loadN_length, hlen]) fun j h1 h2 => ?_
  rw [loadN_length] at h1
  rw [loadN_getElem, Nat.zero_add, List.getElem_eraseIdx]
  by_cases hj : j < i
  · rw [dif_pos hj, loadN_getElem, Nat.zero_add, copy_out _ _ _ _ _ (.inl hj)]
  · rw [dif_neg hj, loadN_getElem, Nat.zero_add]
    obtain ⟨t, rfl⟩ := Nat.exists_eq_add_of_le (Nat.le_of_not_lt hj)
    rw [copy_in _ _ _ _ _ (.inl (Nat.le_succ i)) (by omega)]
    congr 1
    omega

/-! ## overwriting a part of a list -/

/-- `c` with the cells from `off` on replaced by `bs`, as far as `bs` goes -/
def splice (c : List α) (off : Nat) (bs : List α) : List α :=
  c.take off ++ bs ++ c.drop (off + bs.length)

@[simp] theorem splice_nil (c : List α) (off : Nat) : splice c off [] = c := by
  unfold splice
  rw [List.append_nil, List.length_nil, Nat.add_zero, List.take_append_drop]

theorem splice_length (c bs : List α) (off : Nat) (h : off ≤ c.length) :
    (splice c off bs).length = max c.length (off + bs.length) := by
  unfold splice
  rw [List.length_append, List.length_append, List.length_take, List.length_drop]
  omega

/-- a copy into the array at `d` overwrites a part of it, up to its end or past it -/
theorem loadN_copy (m : Nat → α) (d b off n size : Nat) (hoff : off ≤ size)
    (hd : d + off + n ≤ b ∨ b + n ≤ d + off) :
    loadN (copy m (d + off) b n) d (max size (off + n))
      = splice (loadN m d size) off (loadN m b n) := by
  have hmax : max size (off + n) = off + n + (size - (off + n)) := by omega
  unfold splice
  rw [hmax, loadN_add, loadN_add, loadN_length, loadN_take m d size off hoff]
  congr 1
  · congr 1
    · exact loadN_congr fun i hi => copy_out _ _ _ _ _ (by omega)
    · exact loadN_congr fun i hi => copy_in _ _ _ _ _ (by omega) hi
  · by_cases h : off + n ≤ size
    · rw [loadN_drop m d size (off + n) h]
      exact loadN_congr fun i hi => copy_out _ _ _ _ _ (by omega)
    · rw [show size - (off + n) = 0 by omega, loadN_zero,
        List.drop_eq_nil_of_le (by rw [loadN_length]; omega)]

end

end Cells
