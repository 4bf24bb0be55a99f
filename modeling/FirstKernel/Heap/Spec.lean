import FirstKernel.Heap.Header
import FirstKernel.Lib.Words

/-!
# The allocator refines first fit on block lists

One lemma for each function and each of its outcomes; later files use these and never unfold
the functions.

* `initHeap_blocks`                      one free block;
* `kmalloc_some`, `kmalloc_none`         `Tiling.alloc` with headers of 12 bytes and slack 16;
* `kfree_blocks`                         `Tiling.release`;

Every lemma also says which bytes may change: `kmalloc` writes inside free blocks only, `kfree`
writes the header of the freed block only.
-/

namespace FirstKernel
open ByteMem Tiling

/-- the block sizes of the allocator, rounded and wrapped as the code does -/
def need (n : Word) : Nat := (align16 n).toNat

theorem need_eq (n : Word) : need n = (n.toNat + 15) % 2^32 / 16 * 16 := by
  have e : (15 : Word) = BitVec.ofNat 32 (2^4 - 1) := by decide
  unfold need align16
  rw [e, Words.toNat_and_not_low, BitVec.toNat_add]
  rfl

/-- without wrapping the rounded size is the next multiple of 16 -/
theorem le_need (n : Word) (h : n.toNat ≤ 0xFFFFFFF0) : n.toNat ≤ need n := by
  rw [need_eq]
  omega

theorem toNat_sub_hdr {p : Word} {a : Nat} (h : p.toNat = a + 12) :
    (p - sizeofHeapBlock).toNat = a := by
  unfold sizeofHeapBlock
  bv_omega

/-! ## `init_heap` -/

def initBlock : Block := ⟨0x00800000, 0x007FFFF4, true⟩

theorem initHeap_blocks (s : Machine) : HeapBlocks (initHeap s) [initBlock] := by
  refine ⟨rfl, ⟨rfl, ?_, ?_, ?_, ?_⟩, rfl, rfl⟩
  · show kernelHeapStart ≠ 0
    decide
  · show (blockSize (setFree (setNext (setSize s.mem kernelHeapStart _) _ _) _ _)
      kernelHeapStart).toNat = _
    rw [blockSize_setFree, blockSize_setNext, blockSize_setSize]
    rfl
  · exact blockFree_setFree ..
  · show blockNext (setFree (setNext (setSize s.mem kernelHeapStart _) _ _) _ _) kernelHeapStart = 0
    rw [blockNext_setFree, blockNext_setNext]

/-! ## `kmalloc` -/

section
variable {s : Machine} {bs bs' : List Block} {n : Word} {a : Nat}

theorem kmalloc_none (h : HeapBlocks s bs) (hn : n = 0 ∨ alloc 12 16 (need n) bs = none) :
    ∃ s', kmalloc s n = .ok (0, s') ∧ s'.mem = s.mem ∧ s'.freeList = s.freeList := by
  by_cases h0 : n = 0
  · exact ⟨s, by simp [kmalloc, h0], rfl, rfl⟩
  · have hmiss := findFit_miss h.seg (alloc_eq_none.mp (hn.resolve_left h0)) _ h.length_lt
    have hl : s.freeList ≠ 0 := by rw [h.start]; decide
    unfold kmalloc
    simp only [h0, if_false, hl, hmiss, if_true]
    exact ⟨_, rfl, rfl, rfl⟩

/-- the two headers after a split, seen from the chosen block on -/
theorem seg_split {m : Mem} {p r : Word} {b : Block} {post : List Block} {hi : Nat}
    (hseg : Seg m p (b :: post) 0) (ht : Tiles 12 p.toNat (b :: post) hi) (hhi : hi ≤ 2^31)
    (hr : r.toNat + 12 + 16 ≤ b.size) :
    Seg (setFree (splitBlock m p r) p 0) p
      (⟨b.addr, r.toNat, false⟩ :: ⟨b.addr + 12 + r.toNat, b.size - r.toNat - 12, true⟩ :: post) 0 := by
  obtain ⟨h1, h2, h3, _, h5⟩ := hseg
  have hb := ht.bounds List.mem_cons_self
  have hnew : (p + sizeofHeapBlock + r).toNat = p.toNat + 12 + r.toNat := by
    unfold sizeofHeapBlock
    bv_omega
  have hd : p.toNat + 12 ≤ (p + sizeofHeapBlock + r).toNat := by omega
  obtain ⟨c1, c2, c3⟩ := splitBlock_cur m p r hd
  obtain ⟨n1, n2, n3⟩ := splitBlock_new m p r hd
  obtain ⟨k1, k2, k3⟩ := @fields_congr (splitBlock m p r) (setFree (splitBlock m p r) p 0)
    (p + sizeofHeapBlock + r) fun x hx _ => setFree_out _ _ _ (by omega)
  refine ⟨h1, h2, ?_, blockFree_setFree .., ?_⟩
  · rw [blockSize_setFree, c1]
  · rw [blockNext_setFree, c2]
    refine ⟨by rw [hnew, h1], ?_, ?_, ?_, ?_⟩
    · intro e
      rw [e] at hnew
      simp at hnew
      omega
    · rw [k1, n1]
      show (blockSize m p - r - sizeofHeapBlock).toNat = b.size - r.toNat - 12
      unfold sizeofHeapBlock
      bv_omega
    · rw [k3, n3]; rfl
    · rw [k2, n2]
      refine h5.congr fun c hc x hx hx' => ?_
      have := (ht.2.bounds hc).1
      rw [setFree_out _ _ _ (by omega), splitBlock_out _ _ _ (by omega) (by omega)]

theorem kmalloc_some (h : HeapBlocks s bs) (hn : n ≠ 0)
    (ha : alloc 12 16 (need n) bs = some (a, bs')) :
    ∃ p s', kmalloc s n = .ok (p, s') ∧ p.toNat = a + 12 ∧ HeapBlocks s' bs' ∧
      ∀ x, (∀ c ∈ bs, c.free = true → x < c.addr ∨ c.addr + 12 + c.size ≤ x) →
        s'.mem x = s.mem x := by
  have ht' := h.tiles.alloc ha
  obtain ⟨pre, b, post, rfl, hpre, hb, rfl, rfl⟩ := alloc_eq_some ha
  obtain ⟨hbf, hbr⟩ := fits_iff.mp hb
  have hlen := h.length_lt
  rw [List.length_append] at hlen
  obtain ⟨p, hfind, hseg1, hseg2⟩ := findFit_hit h.seg hpre hb heapWalkBound (by omega)
  have hl : s.freeList ≠ 0 := by rw [h.start]; decide
  obtain ⟨h1, h2, h3, h4, h5⟩ := hseg2
  have hbb := h.bounds (List.mem_append_right _ List.mem_cons_self)
  have hpre_out : ∀ c ∈ pre, c.addr + 12 ≤ b.addr := by
    intro c hc
    have := h.tiles.pre_lt hc
    omega
  have hcond : align16 n + sizeofHeapBlock + 16 ≤ blockSize s.mem p ↔ need n + 12 + 16 ≤ b.size := by
    rw [BitVec.le_def, h3]
    unfold need at hbr ⊢
    have : (align16 n + sizeofHeapBlock + 16).toNat = (align16 n).toNat + 12 + 16 := by
      unfold sizeofHeapBlock
      bv_omega
    rw [this]
  have hout : p.toNat + 12 = (p + sizeofHeapBlock).toNat := by
    unfold sizeofHeapBlock
    bv_omega
  unfold kmalloc
  simp only [hn, if_false, hl, hfind, h2, hcond]
  refine ⟨_, _, rfl, by rw [← hout, h1], ⟨h.start, ?_, ht'⟩, ?_⟩
  · show Seg (setFree (if need n + 12 + 16 ≤ b.size then splitBlock s.mem p (align16 n) else s.mem) p 0)
      s.freeList (pre ++ carve 12 16 (need n) b ++ post) 0
    rw [List.append_assoc]
    obtain ⟨mid, _, ht2⟩ := tiles_append.mp h.tiles
    have hmid : mid = p.toNat := by rw [h1]; exact ht2.1.symm
    rw [hmid] at ht2
    unfold carve
    split
    · next hs =>
      refine seg_append.mpr ⟨p, hseg1.congr fun c hc x hx hx' => ?_,
        seg_split ⟨h1, h2, h3, h4, h5⟩ ht2 (by decide) hs⟩
      have := hpre_out c hc
      have hnew : (p + sizeofHeapBlock + align16 n).toNat = p.toNat + 12 + need n := by
        unfold need at hs ⊢
        unfold sizeofHeapBlock
        bv_omega
      rw [setFree_out _ _ _ (by omega), splitBlock_out _ _ _ (by omega) (by omega)]
    · next hs =>
      refine seg_append.mpr ⟨p, hseg1.congr fun c hc x hx hx' => ?_, h1, h2, ?_, blockFree_setFree .., ?_⟩
      · have := hpre_out c hc
        rw [setFree_out _ _ _ (by omega)]
      · rw [blockSize_setFree]; exact h3
      · rw [blockNext_setFree]
        refine h5.congr fun c hc x hx hx' => ?_
        have := h.tiles.lt_post hc
        rw [setFree_out _ _ _ (by omega)]
  · intro x hx
    have hxb := hx b (List.mem_append_right _ List.mem_cons_self) hbf
    show setFree (if need n + 12 + 16 ≤ b.size then splitBlock s.mem p (align16 n) else s.mem) p 0 x
      = s.mem x
    rw [setFree_out _ _ _ (by omega)]
    split
    · next hs =>
      have hnew : (p + sizeofHeapBlock + align16 n).toNat = p.toNat + 12 + need n := by
        unfold need at hs ⊢
        unfold sizeofHeapBlock
        bv_omega
      rw [splitBlock_out _ _ _ (by omega) (by omega)]
    · rfl

end

/-! ## `kfree` -/

section
variable {s : Machine} {bs : List Block} {p : Word} {a : Nat}

theorem kfree_null (s : Machine) : kfree s 0 = s := by simp [kfree]

theorem mergeNext_out (m : Mem) (b : Word) {x : Nat} (hx : x < b.toNat ∨ b.toNat + 12 ≤ x) :
    mergeNext m b x = m x := by
  unfold mergeNext
  simp only []
  split
  · rw [setNext_out _ _ _ hx, setSize_out _ _ _ hx]
  · rfl

theorem seg_merge {m : Mem} {q : Word} {b : Block} {post : List Block} {hi : Nat}
    (hseg : Seg m q (b :: post) 0) (ht : Tiles 12 q.toNat (b :: post) hi) (hhi : hi ≤ 2^31) :
    Seg (mergeNext m q) q (absorb 12 b post) 0 := by
  obtain ⟨h1, h2, h3, h4, h5⟩ := hseg
  cases post with
  | nil =>
    have e : blockNext m q = 0 := h5
    unfold mergeNext
    simp only [e, ne_eq, not_true_eq_false, false_and, if_false]
    exact ⟨h1, h2, h3, h4, h5⟩
  | cons c cs =>
    obtain ⟨k1, k2, k3, k4, k5⟩ := h5
    have hc := ht.2.bounds List.mem_cons_self
    cases hf : c.free with
    | false =>
      have e : blockFree m (blockNext m q) = 0 := by rw [k4, hf]; rfl
      rw [absorb_used hf]
      unfold mergeNext
      simp only [e, ne_eq, not_true_eq_false, and_false, if_false]
      exact ⟨h1, h2, h3, h4, k1, k2, k3, k4, k5⟩
    | true =>
      have e : blockFree m (blockNext m q) ≠ 0 := by rw [k4, flag_ne_zero]; exact hf
      rw [absorb_free hf]
      unfold mergeNext
      simp only [ne_eq, k2, not_false_eq_true, e, and_self, if_true, blockNext_setSize]
      -- the header of the absorbed block is read after the size of `q` was rewritten
      have hnext : blockNext (setSize m q (blockSize m q + (blockSize m (blockNext m q)
          + sizeofHeapBlock))) (blockNext m q) = blockNext m (blockNext m q) :=
        (fields_congr fun x hx hx' => setSize_out _ _ _ (by omega)).2.1
      rw [hnext]
      refine ⟨h1, h2, ?_, ?_, ?_⟩
      · rw [blockSize_setNext, blockSize_setSize]
        show (blockSize m q + (blockSize m (blockNext m q) + sizeofHeapBlock)).toNat
          = b.size + (c.size + 12)
        unfold sizeofHeapBlock
        bv_omega
      · rw [blockFree_setNext, blockFree_setSize]
        exact h4
      · rw [blockNext_setNext]
        refine k5.congr fun d hd x hx hx' => ?_
        have := (ht.2.2.bounds hd).1
        rw [setNext_out _ _ _ (by omega), setSize_out _ _ _ (by omega)]

theorem kfree_blocks (h : HeapBlocks s bs) (ha : a ∈ used bs) (hp : p.toNat = a + 12) :
    HeapBlocks (kfree s p) (release 12 a bs) ∧
      ∀ x, x < a ∨ a + 12 ≤ x → (kfree s p).mem x = s.mem x := by
  have ht' := h.tiles.release (by decide) ha
  obtain ⟨pre, b, post, rfl, hbf, rfl⟩ := mem_used_split ha
  have hp0 : p ≠ 0 := by
    intro e
    rw [e] at hp
    simp at hp
  have hq := toNat_sub_hdr hp
  have hmem : (kfree s p).mem
      = mergeNext (setFree s.mem (p - sizeofHeapBlock) 1) (p - sizeofHeapBlock) := by
    rw [kfree, if_neg hp0]
    rfl
  have hlist : (kfree s p).freeList = s.freeList := by
    rw [kfree, if_neg hp0]
    rfl
  have hframe : ∀ x, x < b.addr ∨ b.addr + 12 ≤ x → (kfree s p).mem x = s.mem x := by
    intro x hx
    rw [hmem, mergeNext_out _ _ (by omega), setFree_out _ _ _ (by omega)]
  refine ⟨⟨by rw [hlist]; exact h.start, ?_, ht'⟩, hframe⟩
  rw [h.tiles.release_eq (by decide), hlist]
  obtain ⟨q, hseg1, h1, h2, h3, h4, h5⟩ := seg_append.mp h.seg
  have hqq : q = p - sizeofHeapBlock := BitVec.eq_of_toNat_eq (by rw [h1, hq])
  obtain ⟨mid, _, ht2⟩ := tiles_append.mp h.tiles
  have hmid : mid = q.toNat := by rw [h1]; exact ht2.1.symm
  rw [hmid] at ht2
  refine seg_append.mpr ⟨q, hseg1.congr fun c hc x hx hx' => ?_, ?_⟩
  · have := h.tiles.pre_lt hc
    exact hframe x (by omega)
  · rw [hmem, ← hqq]
    refine seg_merge (b := ⟨b.addr, b.size, true⟩) ⟨h1, h2, ?_, blockFree_setFree .., ?_⟩ ht2 (by decide)
    · rw [blockSize_setFree]; exact h3
    · rw [blockNext_setFree]
      refine h5.congr fun c hc x hx hx' => ?_
      have := h.tiles.lt_post hc
      rw [setFree_out _ _ _ (by omega)]

end

end FirstKernel
