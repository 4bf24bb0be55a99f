import FirstKernel.Heap.Coalesce

/-!
# `kmalloc` is first fit, where the rounding does not wrap

`align16` adds 15 in 32 bits, so a request above `0xFFFFFFF0` is rounded to size 0 and served by
the first free block, however small.

* `FirstFit`        what a first fit allocator does with a request, on the header lists;
* `first_fit_iff`   `kmalloc` does it exactly when the rounding does not wrap or no block is free.
-/

namespace FirstKernel
open ByteMem Tiling

/-- `n` rounded up to a multiple of 16, as an unbounded integer -/
def roundUp (n : Word) : Nat := (n.toNat + 15) / 16 * 16

/-- a free block of at least `r` bytes -/
def Header.Serves (b : Header) (r : Nat) : Prop := b.free ≠ 0 ∧ r ≤ b.size.toNat

/-- first fit answers `p` to a request of `n` bytes and turns the list `hs` into `hs'` -/
structure FirstFit (n : Word) (hs : List Header) (p : Word) (hs' : List Header) : Prop where
  found : p ≠ 0 ↔ ∃ b ∈ hs, b.Serves (roundUp n)
  lowest : p ≠ 0 → ∃ b ∈ hs, b.Serves (roundUp n) ∧ p = b.addr + sizeofHeapBlock ∧
    (∀ c ∈ hs, c.Serves (roundUp n) → b.addr ≤ c.addr) ∧
    (∃ b' ∈ hs', b'.addr = b.addr ∧ n ≤ b'.size) ∧
    ∀ c ∈ hs, c.addr ≠ b.addr → ∃ c' ∈ hs', c'.addr = c.addr ∧ c'.size = c.size ∧ c'.free = c.free
  kept : p = 0 → hs' = hs

/-! ## rounding -/

theorem need_eq_roundUp {n : Word} (h : n.toNat ≤ 0xFFFFFFF0) : need n = roundUp n := by
  rw [need_eq]
  unfold roundUp
  omega

theorem need_wraps {n : Word} (h : 0xFFFFFFF0 < n.toNat) : need n = 0 := by
  have hn : n.toNat < 2^32 := n.isLt
  rw [need_eq]
  omega

theorem roundUp_wraps {n : Word} (h : 0xFFFFFFF0 < n.toNat) : roundUp n = 2^32 := by
  have hn : n.toNat < 2^32 := n.isLt
  unfold roundUp
  omega

/-! ## headers and blocks -/

section
variable {bs : List Block} {lo r : Nat} {b : Block} {hd : Header}

/-- the header of a block -/
theorem header_of (h : Tiles 12 lo bs heapEnd) (hb : b ∈ bs) :
    ∃ hd ∈ headers bs, hd.addr.toNat = b.addr ∧ hd.size.toNat = b.size ∧ hd.free = flag b.free := by
  obtain ⟨hd, hhd, e1, e2, e3⟩ := headers_mem hb
  refine ⟨hd, hhd, ?_, ?_, e3⟩
  · rw [e1, (toNat_addr h hb).1]
  · rw [e2, (toNat_addr h hb).2]

/-- the block of a header -/
theorem block_of (h : Tiles 12 lo bs heapEnd) (hhd : hd ∈ headers bs) :
    ∃ b ∈ bs, hd.addr.toNat = b.addr ∧ hd.size.toNat = b.size ∧ hd.free = flag b.free := by
  obtain ⟨b, hb, e1, e2, e3⟩ := mem_headers hhd
  refine ⟨b, hb, ?_, ?_, e3⟩
  · rw [e1, (toNat_addr h hb).1]
  · rw [e2, (toNat_addr h hb).2]

theorem serves_iff (e2 : hd.size.toNat = b.size) (e3 : hd.free = flag b.free) :
    hd.Serves r ↔ fits r b = true := by
  unfold Header.Serves
  rw [e2, e3, flag_ne_zero, fits_iff]

end

/-! ## one call -/

section
variable {s : Machine} {bs : List Block} {n : Word}

/-- no block fits: null, and the list stays -/
theorem firstFit_none (h : HeapBlocks s bs) (hfit : ∀ b ∈ bs, fits (roundUp n) b = false) :
    FirstFit n (headers bs) 0 (headers bs) := by
  refine ⟨⟨fun h0 => absurd rfl h0, ?_⟩, fun h0 => absurd rfl h0, fun _ => rfl⟩
  intro ⟨hd, hhd, hserves⟩
  obtain ⟨b, hb, _, e2, e3⟩ := block_of h.tiles hhd
  rw [serves_iff e2 e3, hfit b hb] at hserves
  cases hserves

/-- the first block that fits is taken -/
theorem firstFit_some {s' : Machine} {bs' : List Block} {p : Word} {a : Nat} (h : HeapBlocks s bs)
    (h' : HeapBlocks s' bs') (ha : alloc 12 16 (roundUp n) bs = some (a, bs'))
    (hn : n.toNat ≤ roundUp n) (hp : p.toNat = a + 12) :
    FirstFit n (headers bs) p (headers bs') := by
  obtain ⟨c, hc, hca, _, hcs⟩ := alloc_new ha
  obtain ⟨pre, b, post, rfl, hpre, hb, rfl, rfl⟩ := alloc_eq_some ha
  have hmem : b ∈ pre ++ b :: post := List.mem_append_right _ List.mem_cons_self
  obtain ⟨hd, hhd, e1, e2, e3⟩ := header_of h.tiles hmem
  have hserves : hd.Serves (roundUp n) := (serves_iff e2 e3).mpr hb
  have hp0 : p ≠ 0 := by
    intro e
    rw [e] at hp
    exact absurd hp (by simp)
  have hpay : p = hd.addr + sizeofHeapBlock := by
    have := h.bounds hmem
    apply BitVec.eq_of_toNat_eq
    unfold sizeofHeapBlock
    bv_omega
  refine ⟨⟨fun _ => ⟨hd, hhd, hserves⟩, fun _ => hp0⟩, fun _ => ⟨hd, hhd, hserves, hpay, ?_, ?_, ?_⟩,
    fun h0 => absurd h0 hp0⟩
  · -- a block that fits is not in front of `b`
    intro hd' hhd' hserves'
    obtain ⟨d, hd, e1', e2', e3'⟩ := block_of h.tiles hhd'
    rw [serves_iff e2' e3'] at hserves'
    rw [BitVec.le_def, e1, e1']
    rcases List.mem_append.mp hd with hd | hd
    · rw [hpre d hd] at hserves'
      cases hserves'
    · rcases List.mem_cons.mp hd with rfl | hd
      · exact Nat.le_refl _
      · have := h.tiles.lt_post hd
        omega
  · obtain ⟨hc', hhc', f1, f2, _⟩ := header_of h'.tiles hc
    refine ⟨hc', hhc', BitVec.eq_of_toNat_eq (by rw [f1, e1, hca]), ?_⟩
    rw [BitVec.le_def, f2]
    exact Nat.le_trans hn hcs
  · intro hd' hhd' hne
    obtain ⟨d, hd, e1', e2', e3'⟩ := block_of h.tiles hhd'
    have hdb : d ≠ b := by
      intro e
      exact hne (BitVec.eq_of_toNat_eq (by rw [e1', e1, e]))
    have hd' : d ∈ pre ++ carve 12 16 (roundUp n) b ++ post := by
      have : d ∈ pre ∨ d ∈ post := by simpa [hdb] using hd
      rcases this with hd | hd
      · exact List.mem_append_left _ (List.mem_append_left _ hd)
      · exact List.mem_append_right _ hd
    obtain ⟨hc', hhc', f1, f2, f3⟩ := header_of h'.tiles hd'
    exact ⟨hc', hhc', BitVec.eq_of_toNat_eq (by rw [f1, e1']),
      BitVec.eq_of_toNat_eq (by rw [f2, e2']), by rw [f3, e3']⟩

/-- a request that does not wrap is served by first fit -/
theorem kmalloc_firstFit (h : HeapBlocks s bs) (hn : n ≠ 0) (hbig : n.toNat ≤ 0xFFFFFFF0) :
    ∃ p s' bs', kmalloc s n = .ok (p, s') ∧ HeapBlocks s' bs' ∧
      FirstFit n (headers bs) p (headers bs') := by
  have hr := need_eq_roundUp hbig
  cases ha : alloc 12 16 (need n) bs with
  | none =>
    obtain ⟨s', e, hm, hl⟩ := kmalloc_none h (.inr ha)
    refine ⟨0, s', bs, e, h.congr hl fun b _ x _ _ => by rw [hm], firstFit_none h ?_⟩
    rw [← hr]
    exact alloc_eq_none.mp ha
  | some r =>
    obtain ⟨a, bs'⟩ := r
    obtain ⟨p, s', e, hp, h', _⟩ := kmalloc_some h hn ha
    rw [hr] at ha
    exact ⟨p, s', bs', e, h', firstFit_some h h' ha (by rw [← hr]; exact le_need n hbig) hp⟩

/-- a request that wraps is refused like any other when no block is free -/
theorem kmalloc_full (h : HeapBlocks s bs) (hfree : ∀ b ∈ bs, b.free = false) :
    ∃ s', kmalloc s n = .ok (0, s') ∧ HeapBlocks s' bs ∧ FirstFit n (headers bs) 0 (headers bs) := by
  have hfit : ∀ r, ∀ b ∈ bs, fits r b = false := by
    intro r b hb
    unfold fits
    rw [hfree b hb]
    rfl
  obtain ⟨s', e, hm, hl⟩ := kmalloc_none h (.inr (alloc_eq_none.mpr (hfit (need n))))
  exact ⟨s', e, h.congr hl fun b _ x _ _ => by rw [hm], firstFit_none h (hfit _)⟩

/-- a request that wraps takes any free block -/
theorem kmalloc_wraps (h : HeapBlocks s bs) {b : Block} (hb : b ∈ bs) (hf : b.free = true)
    (hbig : 0xFFFFFFF0 < n.toNat) : ∃ p s', kmalloc s n = .ok (p, s') ∧ p ≠ 0 := by
  have hn : n ≠ 0 := by
    intro e
    rw [e] at hbig
    exact absurd hbig (by decide)
  have hne : alloc 12 16 (need n) bs ≠ none := by
    intro e
    have := alloc_eq_none.mp e b hb
    rw [need_wraps hbig] at this
    exact Bool.false_ne_true (this.symm.trans (fits_iff.mpr ⟨hf, Nat.zero_le _⟩))
  obtain ⟨⟨a, bs'⟩, ha⟩ := Option.ne_none_iff_exists'.mp hne
  obtain ⟨p, s', e, hp, _⟩ := kmalloc_some h hn ha
  refine ⟨p, s', e, fun h0 => ?_⟩
  rw [h0] at hp
  exact absurd hp (by simp)

end

/-- `kmalloc n` answers as first fit does -/
def FirstFitCall (s : Machine) (n : Word) : Prop :=
  ∃ hs p s' hs', heapList s = some hs ∧ kmalloc s n = .ok (p, s') ∧ heapList s' = some hs' ∧
    FirstFit n hs p hs'

/-- **In every reachable heap `kmalloc n` is first fit if and only if `n` is at most `0xFFFFFFF0` or
no block is free.** -/
theorem first_fit_iff (t : Session) (h : Run.Reachable plainSystem t) (n : Word) (hn : n ≠ 0) :
    FirstFitCall t.s n ↔
      n.toNat ≤ 0xFFFFFFF0 ∨ ∀ hs, heapList t.s = some hs → ∀ b ∈ hs, b.free = 0 := by
  obtain ⟨bs, hb⟩ := held_reachable h.of_restrict
  have hw := hb.blocks.walk
  constructor
  · intro ⟨hs, p, s', hs', e, ek, _, hff⟩
    by_cases hbig : n.toNat ≤ 0xFFFFFFF0
    · exact .inl hbig
    · right
      intro hs2 e2 hd hhd
      by_contra hf
      rw [e] at e2
      cases e2
      rw [hw] at e
      cases e
      obtain ⟨b, hbm, _, _, e3⟩ := block_of hb.blocks.tiles hhd
      rw [e3] at hf
      obtain ⟨p', s'', ek', hp'⟩ := kmalloc_wraps hb.blocks hbm ((flag_ne_zero _).mp hf)
        (Nat.lt_of_not_le hbig)
      rw [ek] at ek'
      cases ek'
      -- no block has the 2 ^ 32 bytes asked for
      obtain ⟨c, _, _, hc⟩ := hff.found.mp hp'
      rw [roundUp_wraps (Nat.lt_of_not_le hbig)] at hc
      have : c.size.toNat < 2^32 := c.size.isLt
      omega
  · rintro (hbig | hfree)
    · obtain ⟨p, s', bs', e, h', hff⟩ := kmalloc_firstFit hb.blocks hn hbig
      exact ⟨_, p, s', _, hw, e, h'.walk, hff⟩
    · have hfree' : ∀ b ∈ bs, b.free = false := by
        intro b hbm
        obtain ⟨hd, hhd, _, _, e3⟩ := header_of hb.blocks.tiles hbm
        have := hfree _ hw hd hhd
        rw [e3] at this
        cases hf : b.free with
        | false => rfl
        | true => rw [hf] at this; exact absurd this (by decide)
      obtain ⟨s', e, h', hff⟩ := @kmalloc_full _ _ n hb.blocks hfree'
      exact ⟨_, 0, s', _, hw, e, h'.walk, hff⟩

/-- a request of 20 bytes right after `init_heap` -/
theorem first_fit_twenty : FirstFitCall (initHeap bootMachine) 20 :=
  (first_fit_iff ⟨initHeap bootMachine, []⟩ (.init ⟨bootMachine, rfl⟩) 20 (by decide)).mpr
    (.inl (by decide))

/-- **A request of 4 GiB less one byte right after `init_heap` is granted.** -/
theorem huge_request_granted : ¬ ∀ t, Run.Reachable plainSystem t → ∀ n : Word, n ≠ 0 →
    FirstFitCall t.s n := by
  intro h
  obtain ⟨hs, p, s', _, e, ek, _, hff⟩ :=
    h ⟨initHeap bootMachine, []⟩ (.init ⟨bootMachine, rfl⟩) 0xFFFFFFFF (by decide)
  rw [(initHeap_blocks bootMachine).walk] at e
  cases e
  have hp : (kmalloc (initHeap bootMachine) 0xFFFFFFFF).map Prod.fst = .ok 0x0080000C := by
    decide +kernel
  rw [ek] at hp
  have hp0 : p ≠ 0 := by
    intro e
    rw [e] at hp
    cases hp
  obtain ⟨c, _, _, hc⟩ := hff.found.mp hp0
  have : c.size.toNat < 2^32 := c.size.isLt
  have hr : roundUp 0xFFFFFFFF = 2^32 := rfl
  omega

end FirstKernel
