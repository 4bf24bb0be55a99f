import FirstKernel.Frames.Spec

/-!
# Initialisation for every reported memory size

`initialize` computes the size of the memory in 32 bits.

* `mark_eq`, `initialize_marks`   the `set_frame` calls are those for `markedFrames`;
* `initialize_exact_iff`          the frames are counted and marked as they should be exactly below
                                  4 GiB.
-/

namespace FirstKernel
open ByteMem Bitmap

/-- the frame indices of the `set_frame` calls of the marking loop, in order -/
def markedFrames (next : Word) : Nat → Word → List Word
  | 0, _ => []
  | fuel+1, addr =>
    if addr < next then addr / pageSize :: markedFrames next fuel (addr + pageSize) else []

/-- one round of the marking loop -/
def Pmm.markFrame (p : Pmm) (f : Word) : Pmm := { p.setFrame f with usedFrames := p.usedFrames + 1 }

@[simp] theorem markFrame_next (p : Pmm) (f : Word) :
    (p.markFrame f).nextFreePhysical = p.nextFreePhysical := rfl
@[simp] theorem markFrame_total (p : Pmm) (f : Word) :
    (p.markFrame f).totalFrames = p.totalFrames := rfl

section
variable {p p' : Pmm} {fuel : Nat} {addr next f memUpper kernelEnd : Word} {mem : Mem}

/-- **The marking loop sets `markedFrames`, one after the other.** -/
theorem mark_eq (e : p.mark fuel addr = .ok p') :
    p' = (markedFrames p.nextFreePhysical fuel addr).foldl Pmm.markFrame p := by
  induction fuel generalizing p addr with
  | zero => cases e
  | succ fuel ih =>
    rw [Pmm.mark] at e
    rw [markedFrames]
    by_cases h : addr < p.nextFreePhysical
    · rw [if_pos h] at e ⊢
      rw [List.foldl_cons]
      exact ih e
    · rw [if_neg h] at e ⊢
      cases e
      rfl

theorem foldl_markFrame (fs : List Word) (p : Pmm) :
    (fs.foldl Pmm.markFrame p).nextFreePhysical = p.nextFreePhysical ∧
      (fs.foldl Pmm.markFrame p).totalFrames = p.totalFrames := by
  induction fs generalizing p with
  | nil => exact ⟨rfl, rfl⟩
  | cons f fs ih => exact ih (p.markFrame f)

/-- a frame that is marked starts below the end of the bitmap -/
theorem mem_markedFrames (h : f ∈ markedFrames next fuel addr) : f.toNat * 4096 < next.toNat := by
  induction fuel generalizing addr with
  | zero => cases h
  | succ fuel ih =>
    rw [markedFrames] at h
    by_cases hlt : addr < next
    · rw [if_pos hlt] at h
      rcases List.mem_cons.mp h with rfl | h
      · have e : (addr / pageSize).toNat = addr.toNat / 4096 := BitVec.toNat_udiv
        rw [BitVec.lt_def] at hlt
        rw [e]
        omega
      · exact ih h
    · rw [if_neg hlt] at h
      cases h

/-! ## `initialize` -/

theorem initialize_eq (mem : Mem) (memUpper kernelEnd : Word) :
    Pmm.initialize (Pmm.boot mem kernelEnd) memUpper
      = (Pmm.cleared mem memUpper kernelEnd).mark markBound 0 := rfl

/-- what `initialize` returns is the cleared bitmap with `markedFrames` set -/
theorem initialize_marks (e : Pmm.initialize (Pmm.boot mem kernelEnd) memUpper = .ok p) :
    p = (markedFrames p.nextFreePhysical markBound 0).foldl Pmm.markFrame
        (Pmm.cleared mem memUpper kernelEnd) ∧
      p.nextFreePhysical = (Pmm.cleared mem memUpper kernelEnd).nextFreePhysical ∧
      p.totalFrames = (memUpper + 1024) * 1024 / pageSize := by
  have hp := mark_eq ((initialize_eq mem memUpper kernelEnd).symm.trans e)
  obtain ⟨hnext, htotal⟩ := foldl_markFrame
    (markedFrames (Pmm.cleared mem memUpper kernelEnd).nextFreePhysical markBound 0)
    (Pmm.cleared mem memUpper kernelEnd)
  rw [← hp] at hnext htotal
  refine ⟨?_, hnext, htotal⟩
  rw [hnext]
  exact hp

/-- `p` counts the frames of the reported memory, no `set_frame` on the way to it was for a frame
behind the last one, and it has no more used frames than frames -/
structure ExactInit (memUpper : Word) (p : Pmm) : Prop where
  total : p.totalFrames.toNat = frameCount memUpper
  marked : ∀ f ∈ markedFrames p.nextFreePhysical markBound 0, f < p.totalFrames
  used : p.usedFrames ≤ p.totalFrames

/-- from 4 GiB on the 32 bits are too few for the number of bytes -/
theorem total_small (e : Pmm.initialize (Pmm.boot mem kernelEnd) memUpper = .ok p)
    (ht : p.totalFrames.toNat = frameCount memUpper) : (memUpper.toNat + 1024) * 1024 < 2^32 := by
  obtain ⟨_, _, htotal⟩ := initialize_marks e
  have hlt : p.totalFrames.toNat < 2^20 := by
    have hbytes : ((memUpper + 1024) * 1024 : Word).toNat < 2^32 := BitVec.isLt _
    rw [htotal, BitVec.toNat_udiv]
    show _ / 4096 < 2^20
    omega
  unfold frameCount at ht
  omega

theorem Fits.exact (h : Fits memUpper kernelEnd) (mem : Mem) :
    ∃ p, Pmm.initialize (Pmm.boot mem kernelEnd) memUpper = .ok p ∧ ExactInit memUpper p := by
  obtain ⟨p, e, _, htotal, hused, _⟩ := initialize_spec mem h
  have hnext : p.nextFreePhysical.toNat = bitmapEnd memUpper kernelEnd := by
    rw [(initialize_marks e).2.1]
    exact h.toNat_next mem
  have hroom := h.room
  have hbounds := h.bounds
  refine ⟨p, e, htotal, fun f hf => ?_, ?_⟩
  · have := mem_markedFrames hf
    rw [BitVec.lt_def]
    omega
  · rw [BitVec.le_def]
    omega

/-- **`initialize` is exact if and only if the reported memory has less than 4 GiB.** -/
theorem initialize_exact_iff (mem : Mem) (memUpper kernelEnd : Word)
    (hroom : bitmapEnd memUpper kernelEnd ≤ frameCount memUpper * 4096) :
    (∃ p, Pmm.initialize (Pmm.boot mem kernelEnd) memUpper = .ok p ∧ ExactInit memUpper p) ↔
      (memUpper.toNat + 1024) * 1024 < 2^32 := by
  constructor
  · rintro ⟨p, e, hexact⟩
    exact total_small e hexact.total
  · intro hsmall
    exact Fits.exact ⟨hsmall, hroom⟩ mem

end

/-- 16 MiB and a kernel that ends at 2 MiB -/
theorem initialize_exact_iff_16M : ∃ p,
    Pmm.initialize (Pmm.boot (fun _ => 0) 0x00200000) 15360 = .ok p ∧ ExactInit 15360 p :=
  (initialize_exact_iff _ 15360 0x00200000 (by decide)).mpr (by decide)

/-- **With 4 GiB reported no frames are counted.** -/
theorem initialize_wraps : ¬ ∀ (mem : Mem) (memUpper kernelEnd : Word),
    bitmapEnd memUpper kernelEnd ≤ frameCount memUpper * 4096 →
    ∃ p, Pmm.initialize (Pmm.boot mem kernelEnd) memUpper = .ok p ∧ ExactInit memUpper p := by
  intro hall
  obtain ⟨p, e, hexact⟩ := hall (fun _ => 0) 0x003FFC00 0x00200000 (by decide)
  exact absurd (total_small e hexact.total) (by decide)

end FirstKernel
