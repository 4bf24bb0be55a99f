import FirstKernel.Frames.Model
import FirstKernel.Lib.Bitmap
import FirstKernel.Lib.Words

/-!
# The frame bitmap as a set of frames

`p.bit i` is bit `i` of the bitmap.  One lemma for each function, in terms of `bit`:

* `bit_setFrame`, `bit_clearFrame`, `testFrame_iff`;
* `firstFree_spec`                        the scan finds the least clear bit below the last frame;
* `mark_spec`, `initialize_spec`          the marking loop and the state it leaves.
-/

namespace FirstKernel
open ByteMem Bitmap Cells

def Pmm.bit (p : Pmm) (i : Nat) : Bool := test p.word i

section
variable (p : Pmm)

@[simp] theorem word_setWord (i : Nat) (v : Word) : (p.setWord i v).word i = v :=
  load32_store32 ..

theorem word_setWord_of_ne (i j : Nat) (v : Word) (h : j ≠ i) : (p.setWord i v).word j = p.word j := by
  show load32 (store32 p.mem (p.bitmap.toNat + 4 * i) v) (p.bitmap.toNat + 4 * j) = _
  rw [load32_store32_of_ne _ _ _ _ (by omega)]
  rfl

@[simp] theorem setFrame_bitmap (f : Word) : (p.setFrame f).bitmap = p.bitmap := rfl
@[simp] theorem setFrame_totalFrames (f : Word) : (p.setFrame f).totalFrames = p.totalFrames := rfl
@[simp] theorem setFrame_usedFrames (f : Word) : (p.setFrame f).usedFrames = p.usedFrames := rfl
@[simp] theorem setFrame_next (f : Word) :
    (p.setFrame f).nextFreePhysical = p.nextFreePhysical := rfl
@[simp] theorem clearFrame_totalFrames (f : Word) :
    (p.clearFrame f).totalFrames = p.totalFrames := rfl
@[simp] theorem clearFrame_usedFrames (f : Word) : (p.clearFrame f).usedFrames = p.usedFrames := rfl

theorem bit_used (n : Word) (i : Nat) : Pmm.bit { p with usedFrames := n } i = p.bit i := rfl

theorem toNat_div32 (f : Word) : (f / 32).toNat = f.toNat / 32 := BitVec.toNat_udiv

theorem toNat_mod32 (f : Word) : (f % 32).toNat = f.toNat % 32 := BitVec.toNat_umod

theorem bit_setFrame (f : Word) (j : Nat) :
    (p.setFrame f).bit j = (p.bit j || decide (j = f.toNat)) := by
  refine test_insert (by decide) f.toNat j ?_ fun k hk => ?_
  · unfold Pmm.setFrame
    simp only [toNat_div32, toNat_mod32, word_setWord]
  · unfold Pmm.setFrame
    simp only [toNat_div32]
    rw [word_setWord_of_ne _ _ _ _ hk]

theorem bit_clearFrame (f : Word) (j : Nat) :
    (p.clearFrame f).bit j = (p.bit j && decide (j ≠ f.toNat)) := by
  refine test_erase (by decide) f.toNat j ?_ fun k hk => ?_
  · unfold Pmm.clearFrame
    simp only [toNat_div32, toNat_mod32, word_setWord]
  · unfold Pmm.clearFrame
    simp only [toNat_div32]
    rw [word_setWord_of_ne _ _ _ _ hk]

theorem testFrame_iff (f : Word) : p.testFrame f ≠ 0 ↔ p.bit f.toNat = true := by
  have h := and_one_shiftLeft_eq_zero (p.word (f.toNat / 32)) (f.toNat % 32)
    (Nat.mod_lt _ (by decide))
  unfold Pmm.testFrame Pmm.bit test
  simp only [toNat_div32, toNat_mod32]
  by_cases hz : p.word (f.toNat / 32) &&& (1#32 <<< (f.toNat % 32)) = 0
  · simp [hz, h.mp hz]
  · have hb : (p.word (f.toNat / 32)).getLsbD (f.toNat % 32) = true := by
      rw [← Bool.not_eq_false, ← h]
      exact hz
    rw [if_pos hz, hb]
    decide

end

/-! ## the search -/

section
variable {p : Pmm} {total : Nat}

theorem bit_word (p : Pmm) (i j : Nat) (hj : j < 32) :
    p.bit (i * 32 + j) = (p.word i).getLsbD j := by
  unfold Pmm.bit test
  rw [show (i * 32 + j) / 32 = i by omega, show (i * 32 + j) % 32 = j by omega]

/-- the bit loop: the least clear bit of the word from `j` on, if it belongs to a frame -/
theorem scanBits_spec (hi : i * 32 + 32 < 2^32) (k j : Nat) (hjk : j + k = 32) :
    (∃ n, scanBits (p.word i) p.totalFrames i k j = some (BitVec.ofNat 32 n) ∧
      i * 32 + j ≤ n ∧ n < i * 32 + 32 ∧ n < p.totalFrames.toNat ∧ p.bit n = false ∧
      ∀ m, i * 32 + j ≤ m → m < n → p.bit m = true) ∨
    (scanBits (p.word i) p.totalFrames i k j = none ∧
      ∀ m, i * 32 + j ≤ m → m < i * 32 + 32 → m < p.totalFrames.toNat → p.bit m = true) := by
  induction k generalizing j with
  | zero =>
    right
    exact ⟨rfl, fun m h1 h2 _ => by omega⟩
  | succ k ih =>
    have hmask := and_one_shiftLeft_eq_zero (p.word i) j (by omega)
    have hbit := bit_word p i j (by omega)
    rw [scanBits]
    by_cases hz : p.word i &&& (1#32 <<< j) = 0
    · have hclear : p.bit (i * 32 + j) = false := by rw [hbit]; exact hmask.mp hz
      have hlt : BitVec.ofNat 32 (i * 32 + j) < p.totalFrames ↔ i * 32 + j < p.totalFrames.toNat := by
        rw [BitVec.lt_def, BitVec.toNat_ofNat, Nat.mod_eq_of_lt (by omega)]
      simp only []
      rw [if_pos hz]
      by_cases ht : i * 32 + j < p.totalFrames.toNat
      · left
        rw [if_pos (hlt.mpr ht)]
        exact ⟨_, rfl, Nat.le_refl _, by omega, ht, hclear, fun m h1 h2 => by omega⟩
      · right
        rw [if_neg fun h => ht (hlt.mp h)]
        exact ⟨rfl, fun m h1 _ h3 => by omega⟩
    · have hset : p.bit (i * 32 + j) = true := by
        rw [hbit, ← Bool.not_eq_false, ← hmask]
        exact hz
      simp only []
      rw [if_neg hz]
      -- the bit at `j` is set, the rest is the loop from `j + 1`
      have hstep : ∀ m, i * 32 + j ≤ m → (i * 32 + (j + 1) ≤ m → p.bit m = true) →
          p.bit m = true := by
        intro m h1 h2
        by_cases e : m = i * 32 + j
        · rw [e]; exact hset
        · exact h2 (by omega)
      rcases ih (j + 1) (by omega) with ⟨n, e, h1, h2, h3, h4, h5⟩ | ⟨e, h1⟩
      · left
        exact ⟨n, e, by omega, h2, h3, h4, fun m hm hm' => hstep m hm fun h => h5 m h hm'⟩
      · right
        exact ⟨e, fun m hm hm' ht => hstep m hm fun h => h1 m h hm' ht⟩

theorem bit_full (p : Pmm) (i m : Nat) (hw : p.word i = 0xFFFFFFFF) (h1 : i * 32 ≤ m)
    (h2 : m < i * 32 + 32) : p.bit m = true := by
  obtain ⟨j, rfl⟩ := Nat.exists_eq_add_of_le h1
  rw [bit_word p i j (by omega), hw]
  show (BitVec.allOnes 32).getLsbD j = true
  rw [BitVec.getLsbD_allOnes]
  exact decide_eq_true (by omega)

/-- the word loop -/
theorem scanWords_spec (k i : Nat) (hik : (i + k) * 32 < 2^32) :
    (∃ n, p.scanWords k i = BitVec.ofNat 32 n ∧ i * 32 ≤ n ∧ n < p.totalFrames.toNat ∧
      n < (i + k) * 32 ∧ p.bit n = false ∧ ∀ m, i * 32 ≤ m → m < n → p.bit m = true) ∨
    (p.scanWords k i = uint32Max ∧
      ∀ m, i * 32 ≤ m → m < (i + k) * 32 → m < p.totalFrames.toNat → p.bit m = true) := by
  induction k generalizing i with
  | zero =>
    right
    exact ⟨rfl, fun m h1 h2 _ => by omega⟩
  | succ k ih =>
    have ih' := ih (i + 1) (by omega)
    -- once the word at `i` is known to be taken, the rest is the loop from `i + 1`
    have hnext : (∀ m, i * 32 ≤ m → m < i * 32 + 32 → m < p.totalFrames.toNat → p.bit m = true) →
        (∃ n, p.scanWords k (i + 1) = BitVec.ofNat 32 n ∧ i * 32 ≤ n ∧ n < p.totalFrames.toNat ∧
          n < (i + (k + 1)) * 32 ∧ p.bit n = false ∧ ∀ m, i * 32 ≤ m → m < n → p.bit m = true) ∨
        (p.scanWords k (i + 1) = uint32Max ∧
          ∀ m, i * 32 ≤ m → m < (i + (k + 1)) * 32 → m < p.totalFrames.toNat → p.bit m = true) := by
      intro htaken
      rcases ih' with ⟨n, e, h1, h2, h3, h4, h5⟩ | ⟨e, h1⟩
      · left
        refine ⟨n, e, by omega, h2, by omega, h4, fun m hm hm' => ?_⟩
        by_cases hlt : m < i * 32 + 32
        · exact htaken m hm hlt (by omega)
        · exact h5 m (by omega) hm'
      · right
        refine ⟨e, fun m hm hm' ht => ?_⟩
        by_cases hlt : m < i * 32 + 32
        · exact htaken m hm hlt ht
        · exact h1 m (by omega) (by omega) ht
    rw [Pmm.scanWords]
    by_cases hw : p.word i = 0xFFFFFFFF
    · simp only [hw, ne_eq, not_true_eq_false, if_false]
      exact hnext fun m h1 h2 _ => bit_full p i m hw h1 h2
    · simp only [hw, ne_eq, not_false_eq_true, if_true]
      rcases scanBits_spec (p := p) (i := i) (by omega) 32 0 (by omega) with
        ⟨n, e, h1, h2, h3, h4, h5⟩ | ⟨e, h1⟩
      · left
        rw [e]
        exact ⟨n, rfl, by omega, h3, by omega, h4, fun m hm hm' => h5 m (by omega) hm'⟩
      · rw [e]
        exact hnext fun m hm hm' ht => h1 m (by omega) hm' ht

theorem toNat_bitmapSize (total : Word) : (bitmapSize total).toNat = (total.toNat + 31) / 32 := by
  have hq := toNat_div32 total
  have hr := toNat_mod32 total
  have hlt := total.isLt
  unfold bitmapSize
  simp only []
  by_cases h : total % 32 = 0
  · have h0 : total.toNat % 32 = 0 := by rw [← hr, h]; rfl
    rw [if_neg (not_not.mpr h), hq]
    omega
  · have h0 : total.toNat % 32 ≠ 0 := by
      intro e
      exact h (BitVec.eq_of_toNat_eq (by rw [hr, e]; rfl))
    rw [if_pos h]
    show (total / 32 + 1#32).toNat = _
    rw [BitVec.toNat_add, hq]
    show (total.toNat / 32 + 1) % 2^32 = _
    omega

/-- **`first_free` finds the least clear bit below the last frame, or answers `UINT32_MAX` when
there is none.** -/
theorem firstFree_spec (p : Pmm) (ht : p.totalFrames.toNat ≤ 2^20) :
    (∃ n, p.firstFree = BitVec.ofNat 32 n ∧ n < p.totalFrames.toNat ∧ p.bit n = false ∧
      ∀ m, m < n → p.bit m = true) ∨
    (p.firstFree = uint32Max ∧ ∀ m, m < p.totalFrames.toNat → p.bit m = true) := by
  have hsize := toNat_bitmapSize p.totalFrames
  rcases scanWords_spec (p := p) (bitmapSize p.totalFrames).toNat 0 (by omega) with
    ⟨n, e, _, h2, _, h4, h5⟩ | ⟨e, h1⟩
  · exact .inl ⟨n, e, h2, h4, fun m hm => h5 m (by omega) hm⟩
  · exact .inr ⟨e, fun m hm => h1 m (by omega) (by omega) hm⟩

theorem allocateFrame_some {n : Nat} (hn : n < 2^20) (e : p.firstFree = BitVec.ofNat 32 n) :
    p.allocateFrame = (BitVec.ofNat 32 (4096 * n),
      { p.setFrame (BitVec.ofNat 32 n) with usedFrames := p.usedFrames + 1 }) := by
  have hne : BitVec.ofNat 32 n ≠ uint32Max := by
    intro e
    have := congrArg BitVec.toNat e
    rw [BitVec.toNat_ofNat, Nat.mod_eq_of_lt (by omega)] at this
    exact absurd this (by unfold uint32Max; show n ≠ 4294967295; omega)
  have haddr : (BitVec.ofNat 32 n * pageSize : Word) = BitVec.ofNat 32 (4096 * n) := by
    rw [Nat.mul_comm, BitVec.ofNat_mul]
    rfl
  unfold Pmm.allocateFrame
  simp only [e]
  rw [if_neg hne, haddr]
  rfl

theorem allocateFrame_none (e : p.firstFree = uint32Max) : p.allocateFrame = (0, p) := by
  unfold Pmm.allocateFrame
  simp only [e]
  rw [if_pos trivial]

end

/-! ## initialisation -/

/-- the marking loop sets the frames of `[0, next_free_physical)` and counts them -/
theorem mark_spec (p : Pmm) (fuel k r : Nat) (hr : r = (p.nextFreePhysical.toNat + 4095) / 4096)
    (hnext : p.nextFreePhysical.toNat ≤ 2^32 - 4096) (hk : k ≤ r) (hf : r - k < fuel) :
    ∃ p', p.mark fuel (BitVec.ofNat 32 (k * 4096)) = .ok p' ∧ p'.bitmap = p.bitmap ∧
      p'.totalFrames = p.totalFrames ∧ p'.nextFreePhysical = p.nextFreePhysical ∧
      p'.usedFrames = p.usedFrames + BitVec.ofNat 32 (r - k) ∧
      ∀ i, p'.bit i = (p.bit i || decide (k ≤ i ∧ i < r)) := by
  induction fuel generalizing p k with
  | zero => omega
  | succ fuel ih =>
    have haddr : (BitVec.ofNat 32 (k * 4096) : Word).toNat = k * 4096 := by
      rw [BitVec.toNat_ofNat, Nat.mod_eq_of_lt (by omega)]
    have hcond : (BitVec.ofNat 32 (k * 4096) : Word) < p.nextFreePhysical ↔ k < r := by
      rw [BitVec.lt_def, haddr]
      omega
    rw [Pmm.mark]
    by_cases hlt : k < r
    · have hidx : (BitVec.ofNat 32 (k * 4096) / pageSize : Word).toNat = k := by
        rw [BitVec.toNat_udiv, haddr]
        show k * 4096 / 4096 = k
        omega
      have hnextaddr : (BitVec.ofNat 32 (k * 4096) + pageSize : Word)
          = BitVec.ofNat 32 ((k + 1) * 4096) := by
        apply BitVec.eq_of_toNat_eq
        rw [BitVec.toNat_add, haddr, BitVec.toNat_ofNat]
        show (k * 4096 + 4096) % 2^32 = _
        rw [Nat.succ_mul]
      rw [if_pos (hcond.mpr hlt), hnextaddr]
      obtain ⟨p', e, h1, h2, h3, h4, h5⟩ := ih { p.setFrame (BitVec.ofNat 32 (k * 4096) / pageSize)
        with usedFrames := p.usedFrames + 1 } (k + 1) hr hnext (by omega) (by omega)
      refine ⟨p', e, h1, h2, h3, ?_, fun i => ?_⟩
      · rw [h4]
        show p.usedFrames + 1#32 + BitVec.ofNat 32 (r - (k + 1)) = _
        rw [BitVec.add_assoc, show r - k = 1 + (r - (k + 1)) by omega, BitVec.ofNat_add]
      · rw [h5, bit_used, bit_setFrame, hidx]
        by_cases hi : i = k
        · have : k ≤ i ∧ i < r := by omega
          simp [hi, hlt]
        · have : (k ≤ i ∧ i < r) ↔ (k + 1 ≤ i ∧ i < r) := by omega
          simp [hi, this]
    · have e : r = k := by omega
      rw [if_neg fun h => hlt (hcond.mp h)]
      refine ⟨p, rfl, rfl, rfl, rfl, ?_, fun i => ?_⟩
      · rw [e, Nat.sub_self]
        exact (BitVec.add_zero _).symm
      · have : ¬ (k ≤ i ∧ i < r) := by omega
        simp [this]

/-- total frames, as an unbounded integer -/
def frameCount (memUpper : Word) : Nat := (memUpper.toNat + 1024) * 1024 / 4096

/-- start of the bitmap: the first page behind the kernel image -/
def bitmapStart (kernelEnd : Word) : Nat := (kernelEnd.toNat + 4095) / 4096 * 4096

/-- number of words of the bitmap -/
def bitmapWords (memUpper : Word) : Nat := (frameCount memUpper + 31) / 32

/-- end of the bitmap, as an unbounded integer -/
def bitmapEnd (memUpper kernelEnd : Word) : Nat :=
  bitmapStart kernelEnd + 4 * bitmapWords memUpper

/-- number of frames that hold the kernel image and the bitmap -/
def reservedFrames (memUpper kernelEnd : Word) : Nat := (bitmapEnd memUpper kernelEnd + 4095) / 4096

/-- the reported memory has less than 4 GiB and holds the kernel and the bitmap -/
structure Fits (memUpper kernelEnd : Word) : Prop where
  small : (memUpper.toNat + 1024) * 1024 < 2^32
  room : bitmapEnd memUpper kernelEnd ≤ frameCount memUpper * 4096

section
variable {memUpper kernelEnd : Word}

theorem Fits.bounds (h : Fits memUpper kernelEnd) : frameCount memUpper ≤ 2^20 - 1 ∧
    256 ≤ frameCount memUpper ∧ 1 ≤ reservedFrames memUpper kernelEnd ∧
    reservedFrames memUpper kernelEnd ≤ frameCount memUpper := by
  obtain ⟨h1, h2⟩ := h
  unfold reservedFrames bitmapEnd bitmapStart bitmapWords frameCount at *
  omega

theorem Fits.toNat_total (h : Fits memUpper kernelEnd) :
    ((memUpper + 1024) * 1024 / pageSize : Word).toNat = frameCount memUpper := by
  have hsmall := h.small
  have hlt : memUpper.toNat + 1024 < 2^32 :=
    Nat.lt_of_le_of_lt (Nat.le_mul_of_pos_right _ (by decide)) hsmall
  have e1 : (1024 : Word).toNat = 1024 := rfl
  have e2 : pageSize.toNat = 4096 := rfl
  rw [BitVec.toNat_udiv, BitVec.toNat_mul, BitVec.toNat_add, e1, e2, Nat.mod_eq_of_lt hlt,
    Nat.mod_eq_of_lt hsmall]
  rfl

theorem Fits.toNat_bytes (h : Fits memUpper kernelEnd) :
    (bitmapSize ((memUpper + 1024) * 1024 / pageSize) * 4).toNat
      = 4 * bitmapWords memUpper := by
  have hb := h.bounds
  have e1 : (4 : Word).toNat = 4 := rfl
  unfold bitmapWords
  rw [BitVec.toNat_mul, toNat_bitmapSize, h.toNat_total, e1]
  omega

theorem toNat_alignUp (v : Word) (h : v.toNat + 4095 < 2^32) :
    (alignUp v pageSize).toNat = bitmapStart v := by
  have e0 : pageSize - 1 = BitVec.ofNat 32 (2^12 - 1) := by decide
  have e1 : (BitVec.ofNat 32 (2^12 - 1)).toNat = 4095 := by decide
  unfold alignUp
  rw [e0, Words.toNat_and_not_low, BitVec.toNat_add, e1, Nat.mod_eq_of_lt h]
  rfl

theorem Fits.kernelEnd_lt (h : Fits memUpper kernelEnd) : kernelEnd.toNat + 4095 < 2^32 := by
  have hb := h.bounds
  have hroom := h.room
  unfold bitmapEnd bitmapStart at hroom
  omega

/-- the state from which `initialize` starts to mark: bitmap placed and cleared -/
def Pmm.cleared (mem : Mem) (memUpper kernelEnd : Word) : Pmm :=
  ⟨fill mem (alignUp kernelEnd pageSize).toNat 0
      (bitmapSize ((memUpper + 1024) * 1024 / pageSize) * 4).toNat,
    alignUp kernelEnd pageSize, (memUpper + 1024) * 1024 / pageSize, 0,
    alignUp kernelEnd pageSize + bitmapSize ((memUpper + 1024) * 1024 / pageSize) * 4⟩

theorem Fits.toNat_next (h : Fits memUpper kernelEnd) (mem : Mem) :
    (Pmm.cleared mem memUpper kernelEnd).nextFreePhysical.toNat = bitmapEnd memUpper kernelEnd := by
  have hb := h.bounds
  have hroom := h.room
  have hlt : bitmapEnd memUpper kernelEnd < 2^32 := by omega
  show (alignUp kernelEnd pageSize + _).toNat = _
  rw [BitVec.toNat_add, toNat_alignUp _ h.kernelEnd_lt, h.toNat_bytes]
  exact Nat.mod_eq_of_lt hlt

theorem Fits.cleared_bit (h : Fits memUpper kernelEnd) (mem : Mem) (i : Nat)
    (hi : i < 32 * bitmapWords memUpper) :
    (Pmm.cleared mem memUpper kernelEnd).bit i = false := by
  have hbytes := h.toNat_bytes
  have hzero : ∀ x, x < 4 → (Pmm.cleared mem memUpper kernelEnd).mem
      ((Pmm.cleared mem memUpper kernelEnd).bitmap.toNat + 4 * (i / 32) + x) = 0 := by
    intro x hx
    show fill mem (alignUp kernelEnd pageSize).toNat 0 _
      ((alignUp kernelEnd pageSize).toNat + 4 * (i / 32) + x) = 0
    exact fill_in _ _ _ _ _ (by omega) (by rw [hbytes]; omega)
  have hword : (Pmm.cleared mem memUpper kernelEnd).word (i / 32) = 0#32 := by
    unfold Pmm.word load32
    rw [hzero 1 (by omega), hzero 2 (by omega), hzero 3 (by omega)]
    have h0 := hzero 0 (by omega)
    rw [Nat.add_zero] at h0
    rw [h0]
    rfl
  unfold Pmm.bit test
  rw [hword]
  exact BitVec.getLsbD_zero

/-- **What `initialize` leaves when everything fits.** -/
theorem initialize_spec (mem : Mem) (h : Fits memUpper kernelEnd) :
    ∃ p, Pmm.initialize (Pmm.boot mem kernelEnd) memUpper = .ok p ∧
      p.bitmap.toNat = bitmapStart kernelEnd ∧
      p.totalFrames.toNat = frameCount memUpper ∧
      p.usedFrames.toNat = reservedFrames memUpper kernelEnd ∧
      ∀ i, i < 32 * bitmapWords memUpper →
        p.bit i = decide (i < reservedFrames memUpper kernelEnd) := by
  have hb := h.bounds
  have hroom := h.room
  have hnext := h.toNat_next mem
  obtain ⟨p, e, h1, h2, _, h4, h5⟩ := mark_spec (Pmm.cleared mem memUpper kernelEnd) markBound 0
    (reservedFrames memUpper kernelEnd) (by rw [hnext]; rfl) (by rw [hnext]; omega) (by omega)
    (by unfold markBound; omega)
  refine ⟨p, e, by rw [h1]; exact toNat_alignUp _ h.kernelEnd_lt,
    by rw [h2]; exact h.toNat_total, ?_, fun i hi => ?_⟩
  · rw [h4]
    show (0#32 + BitVec.ofNat 32 (_ - 0)).toNat = _
    rw [BitVec.zero_add, BitVec.toNat_ofNat, Nat.sub_zero, Nat.mod_eq_of_lt (by omega)]
  · rw [h5, h.cleared_bit mem i hi]
    simp

end

end FirstKernel
