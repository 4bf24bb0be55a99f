import Mathlib.Algebra.Order.Ring.Nat
import Mathlib.Data.List.Basic

/-!
# Transfers that start over

A reader that starts every read at the front of `c`, and a writer that starts every write there.

* `flatMap_take_eq_iff`   when the reads `c.take n₁, c.take n₂, …` join up to a prefix of `c`;
* `foldl_overlay_eq_iff`  when the writes join up to their concatenation.
-/

namespace Chunks

section
variable {α : Type}

theorem take_add_drop (c : List α) (s n k : Nat) :
    (c.drop s).take (n + k) = (c.drop s).take n ++ (c.drop (s + n)).take k := by
  rw [List.take_add, List.drop_drop]

theorem length_flatMap_take (c : List α) (s : Nat) (ns : List Nat) :
    ((c.drop s).take ns.sum).length ≤ (ns.flatMap (c.take ·)).length := by
  induction ns generalizing s with
  | nil => simp
  | cons n ns ih =>
    have := ih (s + n)
    rw [List.sum_cons, take_add_drop, List.flatMap_cons, List.length_append, List.length_append]
    simp only [List.length_take, List.length_drop] at this ⊢
    omega

/-- the reads join up to the part of `c` from `s` on exactly when each of them finds there what is
at the front of `c` -/
theorem flatMap_take_eq_drop (c : List α) (s : Nat) (ns : List Nat) :
    ns.flatMap (c.take ·) = (c.drop s).take ns.sum ↔
      ∀ i (h : i < ns.length), (c.drop (s + (ns.take i).sum)).take ns[i] = c.take ns[i] := by
  induction ns generalizing s with
  | nil => simp
  | cons n ns ih =>
    rw [List.flatMap_cons, List.sum_cons, take_add_drop]
    constructor
    · intro h
      have hlen := congrArg List.length h
      have hle := length_flatMap_take c (s + n) ns
      rw [List.length_append, List.length_append] at hlen
      simp only [List.length_take, List.length_drop] at hlen hle
      -- no read is shorter than the part it stands for, so none is longer
      obtain ⟨h1, h2⟩ := List.append_inj h (by
        simp only [List.length_take, List.length_drop]
        omega)
      rintro (_ | i) hi
      · exact h1.symm
      · have := (ih (s + n)).mp h2 i (by simpa using hi)
        rw [List.take_succ_cons, List.sum_cons, ← Nat.add_assoc]
        exact this
    · intro h
      have h0 : (c.drop s).take n = c.take n := h 0 (Nat.zero_lt_succ _)
      have h1 := (ih (s + n)).mpr fun i hi => by
        have := h (i + 1) (Nat.succ_lt_succ hi)
        rw [List.take_succ_cons, List.sum_cons, ← Nat.add_assoc] at this
        exact this
      rw [h0, h1]

theorem flatMap_take_eq_iff (c : List α) (ns : List Nat) :
    ns.flatMap (c.take ·) = c.take ns.sum ↔
      ∀ i (h : i < ns.length), (c.drop (ns.take i).sum).take ns[i] = c.take ns[i] := by
  have := flatMap_take_eq_drop c 0 ns
  simpa using this

/-- `w` written over the front of `c` -/
def overlay (c w : List α) : List α := w ++ c.drop w.length

theorem length_overlay (c w : List α) : (overlay c w).length = max c.length w.length := by
  unfold overlay
  rw [List.length_append, List.length_drop]
  omega

@[simp] theorem overlay_nil (c : List α) : overlay c [] = c := rfl

@[simp] theorem nil_overlay (w : List α) : overlay [] w = w := by
  unfold overlay
  rw [List.drop_nil, List.append_nil]

theorem length_foldl_overlay (c : List α) (ws : List (List α)) :
    (ws.foldl overlay c).length ≤ c.length + ws.flatten.length := by
  induction ws generalizing c with
  | nil => simp
  | cons w ws ih =>
    have := ih (overlay c w)
    rw [length_overlay] at this
    rw [List.foldl_cons, List.flatten_cons, List.length_append]
    omega

theorem foldl_overlay_eq_append (c : List α) (ws : List (List α)) :
    ws.foldl overlay c = c ++ ws.flatten ↔ (c :: ws).Pairwise fun a b => a = [] ∨ b = [] := by
  induction ws generalizing c with
  | nil => simp
  | cons w ws ih =>
    rw [List.foldl_cons, List.flatten_cons]
    by_cases hc : c = []
    · rw [hc, nil_overlay, List.nil_append, ih w, List.pairwise_cons]
      simp
    by_cases hw : w = []
    · rw [hw, overlay_nil, List.nil_append, ih c]
      simp only [List.pairwise_cons, List.mem_cons]
      grind
    -- both write: one byte of the concatenation is missing
    · constructor
      · intro h
        have hlen := congrArg List.length h
        have hle := length_foldl_overlay (overlay c w) ws
        have h1 := List.length_pos_iff.mpr hc
        have h2 := List.length_pos_iff.mpr hw
        rw [length_overlay] at hle
        rw [List.length_append, List.length_append] at hlen
        omega
      · intro h
        rcases (List.pairwise_cons.mp h).1 w List.mem_cons_self with h1 | h1
        · exact absurd h1 hc
        · exact absurd h1 hw

/-- writes that all start at the front leave their concatenation exactly when at most one of them
writes anything -/
theorem foldl_overlay_eq_iff (ws : List (List α)) :
    ws.foldl overlay [] = ws.flatten ↔ ws.Pairwise fun a b => a = [] ∨ b = [] := by
  have := foldl_overlay_eq_append [] ws
  rw [List.nil_append, List.pairwise_cons] at this
  simpa using this

end

end Chunks
