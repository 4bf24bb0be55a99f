import FirstKernel.Lib.ByteMem
import FirstKernel.Lib.Words

/-!
# The two-level page walk of the 386

A linear address has ten bits of directory index, ten bits of table index and an offset of twelve.
Bit 0 of an entry says that it is present, bit 1 that its pages may be written.

* `walk`                the physical address and the permission, if both entries are present;
* `walk_eq`             the walk through two entries given as frame and flags;
* `walk_page`           the page it ends on is the table entry's;
* `join_page`           an address is its page and its offset.
-/

namespace X86
open ByteMem

abbrev Addr := BitVec 32

def frameMask : Addr := 0xFFFFF000
def offsetMask : Addr := 0xFFF

def pdIndex (v : Addr) : Addr := (v >>> 22) &&& 0x3FF
def ptIndex (v : Addr) : Addr := (v >>> 12) &&& 0x3FF

/-- the physical address of `v` and whether it may be written, with the directory at `cr3` -/
def walk (m : Mem) (cr3 v : Addr) : Option (Addr × Bool) :=
  let pde := load32 m ((cr3 &&& frameMask).toNat + 4 * (pdIndex v).toNat)
  if pde &&& 1 = 0 then none
  else
    let pte := load32 m ((pde &&& frameMask).toNat + 4 * (ptIndex v).toNat)
    if pte &&& 1 = 0 then none
    else some ((pte &&& frameMask) ||| (v &&& offsetMask), pde &&& 2 ≠ 0 && pte &&& 2 ≠ 0)

section
variable {v x : Addr}

/-! ## indices and frames -/

theorem toNat_low (x : Addr) (k : Nat) (hk : k ≤ 32) :
    (x &&& BitVec.ofNat 32 (2^k - 1)).toNat = x.toNat % 2^k := by
  have hle : 2^k ≤ 2^32 := Nat.pow_le_pow_right (by decide) hk
  have hpos : 0 < 2^k := Nat.two_pow_pos k
  rw [BitVec.toNat_and, BitVec.toNat_ofNat, Nat.mod_eq_of_lt (by omega),
    Nat.and_two_pow_sub_one_eq_mod]

theorem toNat_pdIndex (v : Addr) : (pdIndex v).toNat = v.toNat / 2^22 := by
  have hv := v.isLt
  have e : (0x3FF : Addr) = BitVec.ofNat 32 (2^10 - 1) := by decide
  unfold pdIndex
  rw [e, toNat_low _ _ (by decide), BitVec.toNat_ushiftRight, Nat.shiftRight_eq_div_pow]
  omega

theorem toNat_ptIndex (v : Addr) : (ptIndex v).toNat = v.toNat / 2^12 % 2^10 := by
  have e : (0x3FF : Addr) = BitVec.ofNat 32 (2^10 - 1) := by decide
  unfold ptIndex
  rw [e, toNat_low _ _ (by decide), BitVec.toNat_ushiftRight, Nat.shiftRight_eq_div_pow]

theorem toNat_frame (x : Addr) : (x &&& frameMask).toNat = x.toNat / 2^12 * 2^12 := by
  have e : frameMask = ~~~(BitVec.ofNat 32 (2^12 - 1)) := by decide
  rw [e, Words.toNat_and_not_low]

theorem frame_of_aligned (h : x.toNat % 4096 = 0) : x &&& frameMask = x := by
  apply BitVec.eq_of_toNat_eq
  rw [toNat_frame]
  omega

/-- two addresses are on one page -/
theorem frame_eq_iff {w : Addr} :
    v &&& frameMask = w &&& frameMask ↔ v.toNat / 2^12 = w.toNat / 2^12 := by
  rw [← BitVec.toNat_inj, toNat_frame, toNat_frame]
  omega

theorem frame_frame (x : Addr) : x &&& frameMask &&& frameMask = x &&& frameMask := by
  rw [BitVec.and_assoc, BitVec.and_self]

/-- an address is its page and its offset -/
theorem join_page (v : Addr) : (v &&& frameMask) ||| (v &&& offsetMask) = v := by
  have e : frameMask ||| offsetMask = BitVec.allOnes 32 := by decide
  rw [← BitVec.and_or_distrib_left, e, BitVec.and_allOnes]

/-- the offset is added to the frame -/
theorem frame_or_offset (x v : Addr) :
    (x &&& frameMask) ||| (v &&& offsetMask) = (x &&& frameMask) + (v &&& offsetMask) := by
  refine (BitVec.add_eq_or_of_and_eq_zero _ _ ?_).symm
  have e : frameMask &&& offsetMask = 0#32 := by decide
  rw [BitVec.and_assoc, BitVec.and_comm v offsetMask, ← BitVec.and_assoc frameMask, e, BitVec.zero_and,
    BitVec.and_zero]

/-! ## entries -/

/-- flags below the frame do not touch it -/
theorem entry_frame {f : Addr} (hf : f &&& frameMask = 0#32) (x : Addr) :
    ((x &&& frameMask) ||| f) &&& frameMask = x &&& frameMask := by
  rw [BitVec.and_or_distrib_right, hf, BitVec.or_zero, frame_frame]

theorem entry_flag {b : Addr} (hb : frameMask &&& b = 0#32) (x f : Addr) :
    ((x &&& frameMask) ||| f) &&& b = f &&& b := by
  rw [BitVec.and_or_distrib_right, BitVec.and_assoc, hb, BitVec.and_zero, BitVec.zero_or]

/-- **The walk through two entries that are present.** -/
theorem walk_eq {m : Mem} {cr3 t : Addr} (writable : Bool) (hcr3 : cr3.toNat % 4096 = 0)
    (ht : t.toNat % 4096 = 0)
    (hpde : load32 m (cr3.toNat + 4 * (pdIndex v).toNat) = (t &&& frameMask) ||| 3)
    (hpte : load32 m (t.toNat + 4 * (ptIndex v).toNat)
      = (x &&& frameMask) ||| (if writable then 3 else 1)) :
    walk m cr3 v = some ((x &&& frameMask) + (v &&& offsetMask), writable) := by
  have h3 : (3 : Addr) &&& frameMask = 0#32 := by decide
  have h1 : frameMask &&& (1 : Addr) = 0#32 := by decide
  have h2 : frameMask &&& (2 : Addr) = 0#32 := by decide
  have hflags : (if writable then 3 else 1 : Addr) &&& frameMask = 0#32 := by
    cases writable
    · decide
    · decide
  have hframe : ((t &&& frameMask) ||| 3) &&& frameMask = t := by
    rw [entry_frame h3, frame_of_aligned ht]
  unfold walk
  rw [frame_of_aligned hcr3, hpde]
  simp only [hframe, hpte, entry_flag h1, entry_flag h2, entry_frame hflags]
  rw [if_neg (by decide)]
  cases writable with
  | true =>
    rw [if_neg (by decide), frame_or_offset]
    rfl
  | false =>
    rw [if_neg (by decide), frame_or_offset]
    rfl

/-- no entry in the directory -/
theorem walk_absent {m : Mem} {cr3 : Addr} (hcr3 : cr3.toNat % 4096 = 0)
    (hpde : load32 m (cr3.toNat + 4 * (pdIndex v).toNat) = 0) : walk m cr3 v = none := by
  unfold walk
  simp only [frame_of_aligned hcr3, hpde]
  rw [if_pos (by decide)]

end

end X86
