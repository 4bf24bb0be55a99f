import FirstKernel.Lib.Tiling

/-!
# First fit when nothing is given back

As long as no block is released, only the end of the interval is free, and first fit takes from its front.

* `Arena.grab`      an allocation from the free end;
* `Arena.room`      what is left there;
* `Leaves.grab`     it is what `alloc` does to the blocks.
-/

namespace Tiling

/-- the free end of an interval, with the address and the size of its block, or nothing -/
inductive Arena where
  | used
  | rest (addr size : Nat)
deriving DecidableEq, Repr

def Arena.blocks : Arena → List Block
  | .used => []
  | .rest a n => [⟨a, n, true⟩]

/-- the address of the block taken, and what is left -/
def Arena.grab (hdr slack r : Nat) : Arena → Option (Nat × Arena)
  | .used => none
  | .rest a n =>
    if r ≤ n then some (a, if r + hdr + slack ≤ n then .rest (a + hdr + r) (n - r - hdr) else .used)
    else none

/-- the bytes of the free end, with its header -/
def Arena.room (hdr : Nat) : Arena → Nat
  | .used => 0
  | .rest _ n => n + hdr

/-- of the blocks `bs` only `left` is free -/
def Leaves (bs : List Block) (left : Arena) : Prop :=
  ∃ pre, (∀ b ∈ pre, b.free = false) ∧ bs = pre ++ left.blocks

section
variable {hdr slack r : Nat} {bs pre post : List Block} {left : Arena}

theorem Arena.grab_room {left' : Arena} {a : Nat} (e : left.grab hdr slack r = some (a, left')) :
    left'.room hdr + (r + hdr) ≤ left.room hdr := by
  cases left with
  | used => cases e
  | rest b n =>
    simp only [Arena.grab] at e
    by_cases hr : r ≤ n
    · rw [if_pos hr] at e
      cases e
      by_cases hs : r + hdr + slack ≤ n
      · rw [if_pos hs]
        show n - r - hdr + hdr + (r + hdr) ≤ n + hdr
        omega
      · rw [if_neg hs]
        show 0 + (r + hdr) ≤ n + hdr
        omega
    · rw [if_neg hr] at e
      cases e

theorem Arena.grab_none (h : 0 < hdr) (e : left.grab hdr slack r = none) : left.room hdr < r + hdr := by
  cases left with
  | used =>
    show 0 < r + hdr
    omega
  | rest b n =>
    simp only [Arena.grab] at e
    by_cases hr : r ≤ n
    · rw [if_pos hr] at e
      cases e
    · show n + hdr < r + hdr
      omega

theorem alloc_behind (h : ∀ b ∈ pre, b.free = false) :
    alloc hdr slack r (pre ++ post) = (alloc hdr slack r post).map fun p => (p.1, pre ++ p.2) := by
  induction pre with
  | nil =>
    show _ = (alloc hdr slack r post).map id
    rw [Option.map_id]
    rfl
  | cons b pre ih =>
    have hb : fits r b = false := by
      unfold fits
      rw [h b List.mem_cons_self]
      rfl
    rw [List.cons_append, alloc, hb, if_neg Bool.false_ne_true,
      ih fun c hc => h c (List.mem_cons_of_mem _ hc), Option.map_map]
    rfl

/-- **An allocation takes from the free end, or there is no room.** -/
theorem Leaves.grab (h : Leaves bs left) (hdr slack r : Nat) :
    (left.grab hdr slack r = none ∧ alloc hdr slack r bs = none) ∨
    ∃ a left' bs', left.grab hdr slack r = some (a, left') ∧ alloc hdr slack r bs = some (a, bs') ∧
      Leaves bs' left' := by
  obtain ⟨pre, hpre, rfl⟩ := h
  rw [alloc_behind hpre]
  cases left with
  | used => exact .inl ⟨rfl, rfl⟩
  | rest a n =>
    unfold Arena.grab
    by_cases hr : r ≤ n
    · have hfit : fits r ⟨a, n, true⟩ = true := fits_iff.mpr ⟨rfl, hr⟩
      have hone : alloc hdr slack r [⟨a, n, true⟩] = some (a, carve hdr slack r ⟨a, n, true⟩ ++ []) :=
        if_pos hfit
      refine .inr ⟨a, _, pre ++ carve hdr slack r ⟨a, n, true⟩, if_pos hr, ?_, ?_⟩
      · show (alloc hdr slack r [⟨a, n, true⟩]).map _ = _
        rw [hone, List.append_nil]
        rfl
      · -- the block taken joins those in use
        have hjoin : ∀ m, ∀ b ∈ pre ++ [⟨a, m, false⟩], b.free = false := by
          intro m b hb
          rcases List.mem_append.mp hb with hb | hb
          · exact hpre b hb
          · rw [List.mem_singleton.mp hb]
        unfold carve
        by_cases hs : r + hdr + slack ≤ n
        · rw [if_pos hs, if_pos hs]
          exact ⟨_, hjoin r, (List.append_assoc pre [⟨a, r, false⟩] _).symm⟩
        · rw [if_neg hs, if_neg hs]
          exact ⟨_, hjoin n, (List.append_nil _).symm⟩
    · have hno : fits r ⟨a, n, true⟩ = false := Bool.eq_false_iff.mpr fun hf => hr (fits_iff.mp hf).2
      refine .inl ⟨if_neg hr, ?_⟩
      show (alloc hdr slack r [⟨a, n, true⟩]).map _ = none
      rw [alloc, hno, if_neg Bool.false_ne_true]
      rfl

end

end Tiling
