import Mathlib.Data.Finset.Range

/-!
# Allocation out of a set

Units `0, 1, …, total - 1`, of which a finite set `U` is taken.  `next total U` is the unit a
first-fit allocator hands out.

* `next_eq_some`, `next_eq_none`   the least unit that is not taken, if there is one.
-/

namespace SetAlloc

def next (total : Nat) (U : Finset Nat) : Option Nat :=
  (List.range total).find? fun n => decide (n ∉ U)

section
variable {total : Nat} {U : Finset Nat}

theorem next_eq_none : next total U = none ↔ Finset.range total ⊆ U := by
  unfold next
  rw [List.find?_eq_none]
  constructor
  · intro h n hn
    have := h n (List.mem_range.mpr (Finset.mem_range.mp hn))
    simpa using this
  · intro h n hn
    have := h (Finset.mem_range.mpr (List.mem_range.mp hn))
    simpa using this

theorem next_eq_some {n : Nat} :
    next total U = some n ↔ n < total ∧ n ∉ U ∧ ∀ m, m < n → m ∈ U := by
  unfold next
  rw [List.find?_range_eq_some]
  constructor
  · rintro ⟨hn, ht, hmin⟩
    refine ⟨List.mem_range.mp ht, by simpa using hn, fun m hm => ?_⟩
    have := hmin m hm
    simpa using this
  · rintro ⟨ht, hn, hmin⟩
    refine ⟨by simpa using hn, List.mem_range.mpr ht, fun m hm => ?_⟩
    simpa using hmin m hm

end

end SetAlloc
