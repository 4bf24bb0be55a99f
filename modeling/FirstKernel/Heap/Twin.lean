import FirstKernel.Heap.Client
import FirstKernel.Lib.Outcome

/-!
# The answers of the allocator depend on its headers alone

Two heaps with the same blocks may differ in every payload.

* `HeapBlocks.unique`    a heap holds one list of blocks;
* `kmalloc_twin`, `krealloc_twin`   the same calls on two such heaps have the same answers, and the
                         heaps after them have the same blocks again;
* `krealloc_grown`       what a call that succeeds gives, also on a null pointer;
* `krealloc_refused`, `krealloc_eq_null`   null is answered when there is no room, and only then.
-/

namespace FirstKernel
open ByteMem Cells Tiling Outcome

/-- the same blocks, whatever is in them -/
def SameBlocks (s t : Machine) : Prop := ∃ bs, HeapBlocks s bs ∧ HeapBlocks t bs

/-- a live payload of `n` bytes, or null, which has none -/
def Payload (bs : List Block) (p : Word) (n : Nat) : Prop := p = 0 ∧ n = 0 ∨ Live bs p n

section
variable {s s' t : Machine} {bs bs' : List Block} {p q n : Word} {c j : Nat}

/-! ## one list of blocks -/

theorem flag_inj {a b : Bool} (h : flag a = flag b) : a = b := by
  have h1 := flag_ne_zero a
  have h2 := flag_ne_zero b
  rw [h] at h1
  exact Bool.eq_iff_iff.mpr (h1.symm.trans h2)

theorem Seg.unique {m : Mem} {a : Word} (h : Seg m a bs 0) (h' : Seg m a bs' 0) : bs = bs' := by
  induction bs generalizing a bs' with
  | nil =>
    cases bs' with
    | nil => rfl
    | cons b bs' => exact absurd h h'.2.1
  | cons b bs ih =>
    cases bs' with
    | nil => exact absurd h' h.2.1
    | cons b' bs' =>
      obtain ⟨h1, _, h3, h4, h5⟩ := h
      obtain ⟨k1, _, k3, k4, k5⟩ := h'
      have hb : b = b' := by
        obtain ⟨addr, size, free⟩ := b
        obtain ⟨addr', size', free'⟩ := b'
        rw [Block.mk.injEq]
        exact ⟨h1.symm.trans k1, h3.symm.trans k3, flag_inj (h4.symm.trans k4)⟩
      rw [hb, ih h5 k5]

theorem HeapBlocks.unique (h : HeapBlocks s bs) (h' : HeapBlocks s bs') : bs = bs' :=
  h.seg.unique h'.seg

/-! ## `kmalloc` on two heaps -/

theorem kmalloc_twin (h : SameBlocks s t) (n : Word) :
    Relates (kmalloc s n) (kmalloc t n) fun x y => x.1 = y.1 ∧ SameBlocks x.2 y.2 := by
  obtain ⟨bs, hs, ht⟩ := h
  intro x y ex ey
  by_cases hn : n = 0 ∨ alloc 12 16 (need n) bs = none
  · obtain ⟨s', e1, hm1, hl1⟩ := kmalloc_none hs hn
    obtain ⟨t', e2, hm2, hl2⟩ := kmalloc_none ht hn
    rw [e1] at ex
    rw [e2] at ey
    cases ex
    cases ey
    exact ⟨rfl, bs, hs.congr hl1 fun b _ x _ _ => by rw [hm1], ht.congr hl2 fun b _ x _ _ => by rw [hm2]⟩
  · obtain ⟨hn0, hne⟩ := not_or.mp hn
    obtain ⟨⟨a, bs'⟩, ha⟩ := Option.ne_none_iff_exists'.mp hne
    obtain ⟨p, s', e1, hp, hs', _⟩ := kmalloc_some hs hn0 ha
    obtain ⟨q, t', e2, hq, ht', _⟩ := kmalloc_some ht hn0 ha
    rw [e1] at ex
    rw [e2] at ey
    cases ex
    cases ey
    exact ⟨BitVec.eq_of_toNat_eq (hp.trans hq.symm), bs', hs', ht'⟩

/-! ## `krealloc` on one heap -/

/-- `krealloc` answered `q` with room for `n` bytes, the `c` bytes of `p` in front -/
structure Grown (bs : List Block) (s : Machine) (p : Word) (c n : Nat) (bs' : List Block)
    (s' : Machine) (q : Word) : Prop where
  ne_zero : q ≠ 0
  blocks : HeapBlocks s' bs'
  keeps : Keeps bs s bs' s' (· ≠ p)
  live : ∃ j, Live bs' q j ∧ n ≤ j
  bytes : ∀ i, i < c → s'.mem (q.toNat + i) = s.mem (p.toNat + i)
  fresh : q = p ∨ ∀ j, ¬ Live bs q j

theorem krealloc_grown (h : HeapBlocks s bs) (hp : Payload bs p c) (hn : n ≠ 0)
    (hbig : n.toNat ≤ 0xFFFFFFF0) :
    (∃ s', krealloc s p n = .ok (0, s') ∧ HeapBlocks s' bs ∧ s'.mem = s.mem) ∨
    ∃ q s' bs', krealloc s p n = .ok (q, s') ∧ Grown bs s p c n.toNat bs' s' q := by
  rcases hp with ⟨rfl, rfl⟩ | hp
  · rw [krealloc_null s hn]
    rcases kmalloc_client h n with ⟨s', e, hb, hm⟩ | ⟨q, s', bs', j, e, hq, hb, hk, hlive, hneed,
      hfresh, _⟩
    · exact .inl ⟨s', e, hb, hm⟩
    · right
      refine ⟨q, s', bs', e, hq, hb, ⟨fun r i hr _ => hk.live r i hr trivial,
        fun r i hr _ => hk.bytes r i hr trivial, hk.off⟩, ⟨j, hlive, ?_⟩, nofun, .inr hfresh⟩
      exact Nat.le_trans (le_need n hbig) hneed
  · rcases krealloc_client h hp hn hbig with ⟨hfit, e⟩ | ⟨_, s', e, hb, hm⟩ |
      ⟨_, q, s', bs', j, e, hq, _, hb, hk, hlive, hj, hbytes, hfresh, _⟩
    · right
      exact ⟨p, s, bs, e, hp.ne_zero h, h, ⟨fun _ _ hr _ => hr, fun _ _ _ _ _ _ _ => rfl,
        fun _ _ => rfl⟩, ⟨c, hp, hfit⟩, fun _ _ => rfl, .inl rfl⟩
    · exact .inl ⟨s', e, hb, hm⟩
    · exact .inr ⟨q, s', bs', e, hq, hb, hk, ⟨j, hlive, hj⟩, hbytes, .inr hfresh⟩

/-- no room: the block of `p` is too small and no free block is large enough -/
theorem krealloc_refused (h : HeapBlocks s bs) (hp : Payload bs p c) (hc : c < n.toNat)
    (hfit : ∀ b ∈ bs, fits (need n) b = false) :
    ∃ s', krealloc s p n = .ok (0, s') ∧ s'.mem = s.mem ∧ s'.freeList = s.freeList := by
  obtain ⟨s', e, hm, hl⟩ := kmalloc_none h (n := n) (.inr (alloc_eq_none.mpr hfit))
  have hn : n ≠ 0 := by
    intro e0
    rw [e0] at hc
    exact absurd hc (Nat.not_lt_zero c)
  refine ⟨s', ?_, hm, hl⟩
  rcases hp with ⟨rfl, rfl⟩ | hp
  · rw [krealloc_null s hn, e]
  · have hle : ¬ n ≤ blockSize s.mem (p - sizeofHeapBlock) := by
      rw [BitVec.le_def, hp.blockSize h]
      omega
    unfold krealloc
    rw [if_neg hn, if_neg (hp.ne_zero h)]
    simp only [hle, if_false, e, if_true]

/-- null is answered only when there is no room -/
theorem krealloc_eq_null (h : HeapBlocks s bs) (hp : Live bs p c) (hn : n ≠ 0)
    (e : krealloc s p n = .ok (0, s')) : c < n.toNat ∧ ∀ b ∈ bs, fits (need n) b = false := by
  have hp0 := hp.ne_zero h
  unfold krealloc at e
  rw [if_neg hn, if_neg hp0] at e
  by_cases hle : n ≤ blockSize s.mem (p - sizeofHeapBlock)
  · simp only [if_pos hle] at e
    cases e
    exact absurd rfl hp0
  simp only [if_neg hle] at e
  rw [BitVec.le_def, hp.blockSize h] at hle
  refine ⟨Nat.lt_of_not_le hle, ?_⟩
  cases ha : alloc 12 16 (need n) bs with
  | none => exact alloc_eq_none.mp ha
  | some x =>
    obtain ⟨a, bs'⟩ := x
    obtain ⟨q, s1, e1, hq, _⟩ := kmalloc_some h hn ha
    have hq0 : q ≠ 0 := by
      intro e0
      rw [e0] at hq
      exact absurd hq (by show 0 ≠ a + 12; omega)
    simp only [e1, if_neg hq0] at e
    cases e
    exact absurd rfl hq0

/-! ## `krealloc` on two heaps -/

/-- the payload of `p` copied to the front of that of `q`, and `p` given back -/
theorem moved_blocks (h : HeapBlocks s bs) (hp : Live bs p c) (hq : Live bs q j) (hc : c ≤ j) :
    HeapBlocks (kfree { s with mem := copy s.mem q.toNat p.toNat c } p)
      (release 12 (p.toNat - 12) bs) := by
  have h' : HeapBlocks { s with mem := copy s.mem q.toNat p.toNat c } bs := by
    refine h.store rfl fun x hx => copy_out _ _ _ _ _ ?_
    have := hx.2 q j hq
    omega
  obtain ⟨hu, ep⟩ := hp.mem_used
  exact (kfree_blocks h' hu ep).1

theorem krealloc_twin (h : SameBlocks s t) (hp : ∀ bs, HeapBlocks s bs → ∃ c, Payload bs p c)
    (hn : n ≠ 0) (hbig : n.toNat ≤ 0xFFFFFFF0) :
    Relates (krealloc s p n) (krealloc t p n) fun x y => x.1 = y.1 ∧ SameBlocks x.2 y.2 := by
  obtain ⟨bs, hs, ht⟩ := h
  obtain ⟨c, ⟨rfl, _⟩ | hp⟩ := hp bs hs
  · rw [krealloc_null s hn, krealloc_null t hn]
    exact kmalloc_twin ⟨bs, hs, ht⟩ n
  have hp0 := hp.ne_zero hs
  have hsize : blockSize t.mem (p - sizeofHeapBlock) = blockSize s.mem (p - sizeofHeapBlock) :=
    BitVec.eq_of_toNat_eq ((hp.blockSize ht).trans (hp.blockSize hs).symm)
  unfold krealloc
  rw [if_neg hn, if_neg hp0, if_neg hn, if_neg hp0]
  simp only [hsize]
  refine .ite (fun _ => .pure ⟨rfl, bs, hs, ht⟩) fun hle => ?_
  have hlt : c < n.toNat := by
    rw [BitVec.le_def, hp.blockSize hs] at hle
    omega
  obtain ⟨q, s1, e1⟩ := kmalloc_returns hs n
  obtain ⟨q', t1, e2⟩ := kmalloc_returns ht n
  obtain ⟨hqq, bs1, hs1, ht1⟩ := kmalloc_twin ⟨bs, hs, ht⟩ n _ _ e1 e2
  have hqq : q = q' := hqq
  subst hqq
  simp only [e1, e2]
  refine .ite (fun _ => .pure ⟨rfl, bs1, hs1, ht1⟩) fun hq => .pure ⟨rfl, ?_⟩
  obtain ⟨bs2, hs2, hkeep, hnew⟩ := kmalloc_fresh hs e1
  have hbs := hs2.unique hs1
  subst hbs
  obtain ⟨⟨j, hlive, hneed⟩, _⟩ := hnew hq
  have hp1 := hkeep p c hp
  have hc : c ≤ j := by
    have := le_need n hbig
    omega
  have hsize1 := hp1.blockSize hs1
  have hsize2 := hp1.blockSize ht1
  rw [hsize1, hsize2]
  exact ⟨_, moved_blocks hs1 hp1 hlive hc, moved_blocks ht1 hp1 hlive hc⟩

end

end FirstKernel
