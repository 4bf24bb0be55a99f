import Mathlib.Data.List.Nodup
import FirstKernel.Paging.Screen
import FirstKernel.Paging.Model

/-!
# The five pages and what `vmm_init` writes there

* `slot`               where the entry of a page is; those of two pages do not meet (`slot_apart`);
* `load32_fillTables`, `load32_fillDirectory_in`, ...   the loops of `vmm_init`;
* `load32_redrawn`     what is printed elsewhere does not touch them.
-/

namespace FirstKernel
open ByteMem Cells X86

/-! ## the five pages -/

namespace PageArrays
variable {L : PageArrays}

def pages (L : PageArrays) : List Word :=
  [L.kernelPageDirectory, L.kernelPageTable0, L.kernelPageTable1, L.kernelPageTable2,
    L.kernelPageTable3]

theorem directory_mem : L.kernelPageDirectory ∈ L.pages := List.mem_cons_self

theorem tables_mem (k : Nat) : L.tables k ∈ L.pages := by
  match k with
  | 0 => simp [pages, tables]
  | 1 => simp [pages, tables]
  | 2 => simp [pages, tables]
  | _+3 => simp [pages, tables]

theorem page_aligned {p : Word} (hp : p ∈ L.pages) : p.toNat % 4096 = 0 := L.aligned p hp

theorem page_below {p : Word} (hp : p ∈ L.pages) : p.toNat < 0x01000000 := L.below p hp

/-- two of the pages do not meet -/
theorem pages_apart {p q : Word} (hp : p ∈ L.pages) (hq : q ∈ L.pages) (h : p ≠ q) :
    p.toNat + 4096 ≤ q.toNat ∨ q.toNat + 4096 ≤ p.toNat := by
  have h1 := page_aligned hp
  have h2 := page_aligned hq
  have hne : p.toNat ≠ q.toNat := fun e => h (BitVec.eq_of_toNat_eq e)
  omega

theorem tables_ne_directory (k : Nat) : L.tables k ≠ L.kernelPageDirectory := by
  have h := (List.nodup_cons.mp L.distinct).1
  intro e
  rw [← e] at h
  apply h
  match k with
  | 0 => simp [tables]
  | 1 => simp [tables]
  | 2 => simp [tables]
  | _+3 => simp [tables]

theorem tables_inj {j k : Nat} (hj : j < 4) (hk : k < 4) (h : L.tables j = L.tables k) : j = k := by
  have hd := (List.nodup_cons.mp L.distinct).2
  have e (i : Nat) (hi : i < 4) : L.tables i = [L.kernelPageTable0, L.kernelPageTable1,
      L.kernelPageTable2, L.kernelPageTable3].get ⟨i, hi⟩ := by
    match i, hi with
    | 0, _ => rfl
    | 1, _ => rfl
    | 2, _ => rfl
    | 3, _ => rfl
  rw [e j hj, e k hk] at h
  exact Fin.mk.inj (List.nodup_iff_injective_get.mp hd h)

theorem table_directory_apart (k : Nat) :
    (L.tables k).toNat + 4096 ≤ L.kernelPageDirectory.toNat
      ∨ L.kernelPageDirectory.toNat + 4096 ≤ (L.tables k).toNat :=
  pages_apart (tables_mem k) directory_mem (tables_ne_directory k)

theorem tables_apart {j k : Nat} (hj : j < 4) (hk : k < 4) (h : j ≠ k) :
    (L.tables j).toNat + 4096 ≤ (L.tables k).toNat ∨ (L.tables k).toNat + 4096 ≤ (L.tables j).toNat :=
  pages_apart (tables_mem j) (tables_mem k) fun e => h (tables_inj hj hk e)

/-! ## entries of the five pages -/

theorem entry_addr {p i : Word} (hp : p ∈ L.pages) (hi : i.toNat < 1024) :
    (p + 4 * i).toNat = p.toNat + 4 * i.toNat := by
  have h := page_below hp
  have h4 : (4 : Word).toNat = 4 := rfl
  rw [BitVec.toNat_add, BitVec.toNat_mul, h4]
  omega

/-- an entry is on the page of its table -/
theorem entry_page {p i : Word} (hp : p ∈ L.pages) (hi : i.toNat < 1024) :
    (p + 4 * i) &&& frameMask = p := by
  apply BitVec.eq_of_toNat_eq
  have ha := page_aligned hp
  rw [toNat_frame, entry_addr hp hi]
  omega

/-- where the entry of `v`'s page is -/
def slot (L : PageArrays) (v : Word) : Nat :=
  (L.tables (pdIndex v).toNat).toNat + 4 * (ptIndex v).toNat

/-- the entries of two pages do not meet -/
theorem slot_apart {v w : Word} (hv : v.toNat < 0x01000000) (hw : w.toNat < 0x01000000)
    (h : v &&& frameMask ≠ w &&& frameMask) :
    L.slot v + 4 ≤ L.slot w ∨ L.slot w + 4 ≤ L.slot v := by
  have h1 := toNat_pdIndex v
  have h2 := toNat_pdIndex w
  have h3 := toNat_ptIndex v
  have h4 := toNat_ptIndex w
  have hpage : v.toNat / 2^12 ≠ w.toNat / 2^12 := fun e => h (frame_eq_iff.mpr e)
  unfold slot
  by_cases hd : (pdIndex v).toNat = (pdIndex w).toNat
  · rw [hd]
    omega
  · have := tables_apart (L := L) (by omega : (pdIndex v).toNat < 4) (by omega) hd
    omega

theorem slot_eq {v w : Word} (h : v &&& frameMask = w &&& frameMask) : L.slot v = L.slot w := by
  have hpage := frame_eq_iff.mp h
  have h1 : (pdIndex v).toNat = (pdIndex w).toNat := by
    rw [toNat_pdIndex, toNat_pdIndex]
    omega
  have h2 : (ptIndex v).toNat = (ptIndex w).toNat := by
    rw [toNat_ptIndex, toNat_ptIndex, hpage]
  unfold slot
  rw [h1, h2]

theorem slot_directory_apart (v : Word) :
    L.slot v + 4 ≤ L.kernelPageDirectory.toNat ∨ L.kernelPageDirectory.toNat + 4096 ≤ L.slot v := by
  have h := table_directory_apart (L := L) (pdIndex v).toNat
  have hi := toNat_ptIndex v
  unfold slot
  omega

/-! ## the loops of `vmm_init` -/

theorem load32_fillTable_in (m : Mem) (table : Word) (tableIdx : Nat) {n i : Nat} (hi : i < n) :
    load32 (fillTable m table tableIdx n) (table.toNat + 4 * i)
      = ((BitVec.ofNat 32 (tableIdx * 0x400000) + BitVec.ofNat 32 (i * 0x1000)) &&& 0xFFFFF000)
        ||| 0x03 := by
  induction n with
  | zero => omega
  | succ n ih =>
    rw [fillTable]
    by_cases e : i = n
    · rw [e, load32_store32]
    · rw [load32_store32_of_ne _ _ _ _ (by omega), ih (by omega)]

theorem load32_fillTable_out (m : Mem) (table : Word) (tableIdx : Nat) {n a : Nat}
    (h : a + 4 ≤ table.toNat ∨ table.toNat + 4 * n ≤ a) :
    load32 (fillTable m table tableIdx n) a = load32 m a := by
  induction n with
  | zero => rfl
  | succ n ih =>
    rw [fillTable, load32_store32_of_ne _ _ _ _ (by omega), ih (by omega)]

theorem load32_fillTables (m : Mem) {n k i : Nat} (hn : n ≤ 4) (hk : k < n) (hi : i < 1024) :
    load32 (fillTables L m n) ((L.tables k).toNat + 4 * i)
      = ((BitVec.ofNat 32 (k * 0x400000) + BitVec.ofNat 32 (i * 0x1000)) &&& 0xFFFFF000) ||| 0x03 := by
  induction n with
  | zero => omega
  | succ n ih =>
    rw [fillTables]
    by_cases e : k = n
    · rw [e, load32_fillTable_in _ _ _ hi]
    · have := tables_apart (L := L) (j := k) (k := n) (by omega) (by omega) e
      rw [load32_fillTable_out _ _ _ (by omega), ih (by omega) (by omega)]

theorem load32_fillTables_directory (m : Mem) (n : Nat) {i : Nat} (hi : i < 1024) :
    load32 (fillTables L m n) (L.kernelPageDirectory.toNat + 4 * i)
      = load32 m (L.kernelPageDirectory.toNat + 4 * i) := by
  induction n with
  | zero => rfl
  | succ n ih =>
    have := table_directory_apart (L := L) n
    rw [fillTables, load32_fillTable_out _ _ _ (by omega), ih]

theorem load32_fillDirectory_in (m : Mem) {n k : Nat} (hk : k < n) :
    load32 (fillDirectory L m n) (L.kernelPageDirectory.toNat + 4 * k)
      = (L.tables k &&& 0xFFFFF000) ||| 0x03 := by
  induction n with
  | zero => omega
  | succ n ih =>
    rw [fillDirectory]
    by_cases e : k = n
    · rw [e, load32_store32]
    · rw [load32_store32_of_ne _ _ _ _ (by omega), ih (by omega)]

theorem load32_fillDirectory_out (m : Mem) {n a : Nat}
    (h : a + 4 ≤ L.kernelPageDirectory.toNat ∨ L.kernelPageDirectory.toNat + 4 * n ≤ a) :
    load32 (fillDirectory L m n) a = load32 m a := by
  induction n with
  | zero => rfl
  | succ n ih =>
    rw [fillDirectory, load32_store32_of_ne _ _ _ _ (by omega), ih (by omega)]

/-- the directory and the tables after the `memset`s -/
def cleared (L : PageArrays) (m : Mem) : Mem :=
  let m := fill m L.kernelPageDirectory.toNat 0 4096
  let m := fill m L.kernelPageTable0.toNat 0 4096
  let m := fill m L.kernelPageTable1.toNat 0 4096
  let m := fill m L.kernelPageTable2.toNat 0 4096
  fill m L.kernelPageTable3.toNat 0 4096

end PageArrays

/-- printing on a frame that is none of the five pages -/
theorem PageArrays.load32_redrawn {L : PageArrays} {s s' : Cpu} {f p : Word} (hr : s.Redraws f s')
    (haligned : f.toNat % 4096 = 0) (hf : p ≠ f) (hp : p ∈ L.pages) {i : Nat} (hi : i < 1024) :
    load32 s'.mem (p.toNat + 4 * i) = load32 s.mem (p.toNat + 4 * i) := by
  have hne : p.toNat ≠ f.toNat := fun e => hf (BitVec.eq_of_toNat_eq e)
  have h1 := page_aligned hp
  exact hr.load32 (by omega)

end FirstKernel
