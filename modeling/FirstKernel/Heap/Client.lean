import FirstKernel.Heap.Spec

/-!
# The allocator as its clients see it

`Live bs p n`: `p` is the payload of a block in use of size `n`.  A client sees live payloads,
their sizes and their bytes, and nothing else:

* `kmalloc_client`    a fresh payload joins, of at least the rounded size;
* `kfree_client`      the freed payload leaves;
* `krealloc_client`   the payload stays or moves, its bytes stay in front;
* `HeapBlocks.store`  a client that writes inside a live payload, or outside the heap, leaves the
                      block list alone.

`Keeps` is the frame: live payloads keep their size and their bytes.
-/

namespace FirstKernel
open ByteMem Cells Tiling

/-- `p` is the payload of a block in use of size `n` -/
def Live (bs : List Block) (p : Word) (n : Nat) : Prop :=
  ∃ b ∈ bs, b.free = false ∧ p.toNat = b.addr + 12 ∧ b.size = n

/-- outside the heap -/
def Outside (x : Nat) : Prop := x < 0x00800000 ∨ 0x01000000 ≤ x

/-- the live payloads in `K` keep their size and bytes, and so does all memory off the heap -/
structure Keeps (bs : List Block) (s : Machine) (bs' : List Block) (s' : Machine)
    (K : Word → Prop) : Prop where
  live : ∀ p n, Live bs p n → K p → Live bs' p n
  bytes : ∀ p n, Live bs p n → K p → ∀ x, p.toNat ≤ x → x < p.toNat + n → s'.mem x = s.mem x
  off : ∀ x, Outside x → s'.mem x = s.mem x

section
variable {s s' : Machine} {bs bs' : List Block} {p q : Word} {n k : Nat}

theorem Keeps.trans {bs'' : List Block} {s'' : Machine} {K K' : Word → Prop}
    (h : Keeps bs s bs' s' K) (h' : Keeps bs' s' bs'' s'' K') :
    Keeps bs s bs'' s'' fun p => K p ∧ K' p where
  live p n hp hK := h'.live p n (h.live p n hp hK.1) hK.2
  bytes p n hp hK x hx hx' :=
    (h'.bytes p n (h.live p n hp hK.1) hK.2 x hx hx').trans (h.bytes p n hp hK.1 x hx hx')
  off x hx := (h'.off x hx).trans (h.off x hx)

theorem Live.bounds (h : HeapBlocks s bs) (hp : Live bs p n) :
    0x0080000C ≤ p.toNat ∧ p.toNat + n ≤ 0x01000000 := by
  obtain ⟨b, hb, _, e, rfl⟩ := hp
  have := h.bounds hb
  omega

theorem Live.ne_zero (h : HeapBlocks s bs) (hp : Live bs p n) : p ≠ 0 := by
  intro e
  have := (hp.bounds h).1
  rw [e] at this
  simp at this

theorem Live.size_unique (h : HeapBlocks s bs) (hp : Live bs p n) (hp' : Live bs p k) : n = k := by
  obtain ⟨b, hb, _, e, rfl⟩ := hp
  obtain ⟨c, hc, _, e', rfl⟩ := hp'
  rw [h.tiles.addr_inj (by decide) hb hc (by omega)]

/-- distinct live payloads do not overlap -/
theorem Live.apart (h : HeapBlocks s bs) (hp : Live bs p n) (hq : Live bs q k) (hne : p ≠ q) :
    p.toNat + n ≤ q.toNat ∨ q.toNat + k ≤ p.toNat := by
  obtain ⟨b, hb, _, e, rfl⟩ := hp
  obtain ⟨c, hc, _, e', rfl⟩ := hq
  obtain ⟨pre, post, rfl⟩ := List.append_of_mem hb
  have hcb : c ≠ b := by
    intro ecb
    rw [ecb] at e'
    exact hne (BitVec.eq_of_toNat_eq (by omega))
  have hc' : c ∈ pre ∨ c ∈ post := by simpa [hcb] using hc
  rcases hc' with h1 | h1
  · have := h.tiles.pre_lt h1; omega
  · have := h.tiles.lt_post h1; omega

/-- a live payload meets no header -/
theorem Live.off_header (h : HeapBlocks s bs) (hp : Live bs p n) {c : Block} (hc : c ∈ bs) :
    c.addr + 12 ≤ p.toNat ∨ p.toNat + n ≤ c.addr := by
  obtain ⟨b, hb, _, e, rfl⟩ := hp
  obtain ⟨pre, post, rfl⟩ := List.append_of_mem hb
  have hc' : c = b ∨ c ∈ pre ∨ c ∈ post := by
    have := hc
    simp only [List.mem_append, List.mem_cons] at this
    tauto
  rcases hc' with rfl | h1 | h1
  · omega
  · have := h.tiles.pre_lt h1; omega
  · have := h.tiles.lt_post h1; omega

/-- a live payload lies in no free block -/
theorem Live.off_free (h : HeapBlocks s bs) (hp : Live bs p n) {c : Block} (hc : c ∈ bs)
    (hf : c.free = true) : c.addr + 12 + c.size ≤ p.toNat ∨ p.toNat + n ≤ c.addr := by
  obtain ⟨b, hb, hbf, e, rfl⟩ := hp
  obtain ⟨pre, post, rfl⟩ := List.append_of_mem hb
  have hcb : c ≠ b := by
    intro ecb
    rw [ecb, hbf] at hf
    cases hf
  have hc' : c ∈ pre ∨ c ∈ post := by simpa [hcb] using hc
  rcases hc' with h1 | h1
  · have := h.tiles.pre_lt h1; omega
  · have := h.tiles.lt_post h1; omega

/-- the header in front of a live payload records its size -/
theorem Live.blockSize (h : HeapBlocks s bs) (hp : Live bs p n) :
    (blockSize s.mem (p - sizeofHeapBlock)).toNat = n := by
  obtain ⟨b, hb, _, e, rfl⟩ := hp
  obtain ⟨q, h1, _, h2, _⟩ := h.seg.mem hb
  have hq : p - sizeofHeapBlock = q :=
    BitVec.eq_of_toNat_eq (by rw [toNat_sub_hdr e, h1])
  rw [hq, h2]

theorem Live.mem_used (hp : Live bs p n) : p.toNat - 12 ∈ used bs ∧ p.toNat = p.toNat - 12 + 12 := by
  obtain ⟨b, hb, hf, e, _⟩ := hp
  exact ⟨Tiling.mem_used.mpr ⟨b, hb, hf, by omega⟩, by omega⟩

theorem live_of_used {a : Nat} (ha : a ∈ used bs) (e : p.toNat = a + 12) : ∃ n, Live bs p n := by
  obtain ⟨b, hb, hf, e'⟩ := Tiling.mem_used.mp ha
  exact ⟨b.size, b, hb, hf, by omega, rfl⟩

/-! ## client writes -/

theorem HeapBlocks.store (h : HeapBlocks s bs) (hl : s'.freeList = s.freeList)
    (hm : ∀ x, (¬ Outside x ∧ ∀ p n, Live bs p n → x < p.toNat ∨ p.toNat + n ≤ x) →
      s'.mem x = s.mem x) : HeapBlocks s' bs := by
  refine h.congr hl fun b hb x hx hx' => hm x ⟨?_, fun p n hp => ?_⟩
  · have := h.bounds hb
    unfold Outside
    omega
  · have := hp.off_header h hb
    omega

end

/-! ## the three operations -/

section
variable {s : Machine} {bs : List Block} {p : Word}

/-- **What a call of `kmalloc` gives its client.** -/
theorem kmalloc_client (h : HeapBlocks s bs) (n : Word) :
    (∃ s', kmalloc s n = .ok (0, s') ∧ HeapBlocks s' bs ∧ s'.mem = s.mem) ∨
    ∃ p s' bs' k, kmalloc s n = .ok (p, s') ∧ p ≠ 0 ∧ HeapBlocks s' bs' ∧
      Keeps bs s bs' s' (fun _ => True) ∧ Live bs' p k ∧ need n ≤ k ∧ (∀ j, ¬ Live bs p j) ∧
      ∀ q j, Live bs' q j → q = p ∨ Live bs q j := by
  by_cases hn : n = 0 ∨ alloc 12 16 (need n) bs = none
  · left
    obtain ⟨s', e, hm, hl⟩ := kmalloc_none h hn
    exact ⟨s', e, h.congr hl fun b _ x _ _ => by rw [hm], hm⟩
  · right
    obtain ⟨hn0, hne⟩ := not_or.mp hn
    obtain ⟨⟨a, bs'⟩, ha⟩ := Option.ne_none_iff_exists'.mp hne
    obtain ⟨p, s', e, hp, h', hm⟩ := kmalloc_some h hn0 ha
    obtain ⟨c, hc, hca, hcf, hcs⟩ := alloc_new ha
    have hlive : Live bs' p c.size := ⟨c, hc, hcf, by omega, rfl⟩
    have hkeep : ∀ q k, Live bs q k → Live bs' q k := by
      rintro q k ⟨b, hb, hf, eb, rfl⟩
      exact ⟨b, alloc_keep ha hb hf, hf, eb, rfl⟩
    refine ⟨p, s', bs', c.size, e, hlive.ne_zero h', h', ⟨fun q k hq _ => hkeep q k hq, ?_, ?_⟩,
      hlive, hcs, ?_, ?_⟩
    · intro q k hq _ x hx hx'
      refine hm x fun d hd hf => ?_
      have := hq.off_free h hd hf
      omega
    · intro x hx
      refine hm x fun d hd hf => ?_
      have := h.bounds hd
      unfold Outside at hx
      omega
    · rintro j ⟨b, hb, hf, eb, _⟩
      exact alloc_fresh (by decide) h.tiles ha (mem_used.mpr ⟨b, hb, hf, by omega⟩)
    · intro q j hq
      obtain ⟨hu, eq⟩ := hq.mem_used
      rcases List.mem_cons.mp ((used_alloc ha).mem_iff.mp hu) with e1 | e1
      · left
        exact BitVec.eq_of_toNat_eq (by omega)
      · right
        obtain ⟨k, hk⟩ := live_of_used e1 eq
        rwa [(hkeep q k hk).size_unique h' hq] at hk

theorem kmalloc_returns (h : HeapBlocks s bs) (n : Word) : ∃ p s', kmalloc s n = .ok (p, s') := by
  rcases kmalloc_client h n with ⟨s', e, _⟩ | ⟨p, s', _, _, e, _⟩
  · exact ⟨0, s', e⟩
  · exact ⟨p, s', e⟩

/-- an allocation: live blocks stay, and a result is none of them and the only one to join -/
theorem kmalloc_joins (h : HeapBlocks s bs) {n : Word} (e : kmalloc s n = .ok (p, s')) :
    ∃ bs', HeapBlocks s' bs' ∧ (∀ q j, Live bs q j → Live bs' q j) ∧
      (p ≠ 0 → (∃ j, Live bs' p j ∧ need n ≤ j) ∧ ∀ j, ¬ Live bs p j) ∧
      ∀ q j, Live bs' q j → p ≠ 0 ∧ q = p ∨ Live bs q j := by
  rcases kmalloc_client h n with ⟨s1, e', hb, _⟩ | ⟨q, s1, bs1, j, e', h0, hb, hk, hlive, hneed, hfresh,
    hold⟩
  · rw [e] at e'
    cases e'
    exact ⟨bs, hb, fun _ _ hj => hj, fun h0 => absurd rfl h0, fun _ _ hj => .inr hj⟩
  · rw [e] at e'
    cases e'
    exact ⟨bs1, hb, fun q i hq => hk.live q i hq trivial, fun _ => ⟨⟨j, hlive, hneed⟩, hfresh⟩,
      fun q i hq => (hold q i hq).imp_left fun eq => ⟨h0, eq⟩⟩

theorem kmalloc_fresh (h : HeapBlocks s bs) {n : Word} (e : kmalloc s n = .ok (p, s')) :
    ∃ bs', HeapBlocks s' bs' ∧ (∀ q j, Live bs q j → Live bs' q j) ∧
      (p ≠ 0 → (∃ j, Live bs' p j ∧ need n ≤ j) ∧ ∀ j, ¬ Live bs p j) := by
  obtain ⟨bs', hb, hlift, hnew, _⟩ := kmalloc_joins h e
  exact ⟨bs', hb, hlift, hnew⟩

/-- the messages of `kmalloc` -/
def kmallocFormats : List String :=
  ["[HEAP] Error: Heap is not initialized!\n",
    "[HEAP] Error: No free block large enough for %d bytes!\n",
    "[HEAP] Allocated %d bytes at 0x%x\n"]

theorem kmalloc_console {n : Word} (e : kmalloc s n = .ok (p, s')) :
    ∃ new, s'.console = s.console ++ new ∧ ∀ x ∈ new, x.format ∈ kmallocFormats := by
  have hone : ∀ x : Printf, x.format ∈ kmallocFormats → ∀ y ∈ [x], y.format ∈ kmallocFormats := by
    intro x hx y hy
    rw [List.mem_singleton.mp hy]
    exact hx
  unfold kmalloc at e
  by_cases hn : n = 0
  · rw [if_pos hn] at e
    cases e
    exact ⟨[], (List.append_nil _).symm, nofun⟩
  rw [if_neg hn] at e
  by_cases hl : s.freeList = 0
  · simp only [if_pos hl] at e
    cases e
    exact ⟨_, rfl, hone _ (by simp [kmallocFormats])⟩
  simp only [if_neg hl] at e
  cases hfit : findFit s.mem (align16 n) heapWalkBound s.freeList with
  | none =>
    rw [hfit] at e
    cases e
  | some current =>
    rw [hfit] at e
    by_cases hc : current = 0
    · simp only [if_pos hc] at e
      cases e
      exact ⟨_, rfl, hone _ (by simp [kmallocFormats])⟩
    · simp only [if_neg hc] at e
      cases e
      exact ⟨_, rfl, hone _ (by simp [kmallocFormats])⟩

/-- **What a call of `kfree` on a live payload gives its client.** -/
theorem kfree_client (h : HeapBlocks s bs) {n : Nat} (hp : Live bs p n) :
    ∃ bs', HeapBlocks (kfree s p) bs' ∧ bs' = release 12 (p.toNat - 12) bs ∧
      Keeps bs s bs' (kfree s p) (· ≠ p) ∧
      ∀ q j, Live bs' q j → q ≠ p ∧ Live bs q j := by
  obtain ⟨hu, ep⟩ := hp.mem_used
  obtain ⟨h', hm⟩ := kfree_blocks h hu ep
  have hkeep : ∀ q k, Live bs q k → q ≠ p → Live (release 12 (p.toNat - 12) bs) q k := by
    rintro q k ⟨b, hb, hf, eb, rfl⟩ hne
    refine ⟨b, release_keep (by decide) h.tiles hu hb hf ?_, hf, eb, rfl⟩
    intro e
    exact hne (BitVec.eq_of_toNat_eq (by omega))
  refine ⟨_, h', rfl, ⟨hkeep, ?_, ?_⟩, ?_⟩
  · intro q k hq hne x hx hx'
    refine hm x ?_
    obtain ⟨b, hb, hf, eb, rfl⟩ := hp
    have := hq.off_header h hb
    omega
  · intro x hx
    refine hm x ?_
    have := hp.bounds h
    unfold Outside at hx
    omega
  · intro q j hq
    obtain ⟨hu', eq⟩ := hq.mem_used
    have hperm := used_release (by decide) h.tiles hu
    have hne : q ≠ p := by
      intro e
      rw [e] at hu'
      have hnd := hperm.nodup_iff.mp (h.tiles.used_nodup (by decide))
      exact (List.nodup_cons.mp hnd).1 hu'
    refine ⟨hne, ?_⟩
    obtain ⟨k, hk⟩ := live_of_used (hperm.mem_iff.mpr (List.mem_cons_of_mem _ hu')) eq
    rwa [(hkeep q k hk hne).size_unique h' hq] at hk

end

/-! ## `krealloc` -/

section
variable {s : Machine} {bs : List Block} {p n : Word} {c : Nat}

theorem krealloc_zero (s : Machine) (p : Word) : krealloc s p 0 = .ok (0, kfree s p) := by
  simp [krealloc]

theorem krealloc_null (s : Machine) {n : Word} (hn : n ≠ 0) : krealloc s 0 n = kmalloc s n := by
  rw [krealloc, if_neg hn, if_pos rfl]

/-- **What a call of `krealloc` on a live payload gives its client**: the same pointer when the
block is large enough; null and an unchanged heap when no block is free for the request; a new
block that starts with the old bytes otherwise. -/
theorem krealloc_client (h : HeapBlocks s bs) (hp : Live bs p c) (hn : n ≠ 0)
    (hbig : n.toNat ≤ 0xFFFFFFF0) :
    (n.toNat ≤ c ∧ krealloc s p n = .ok (p, s)) ∨
    (c < n.toNat ∧ ∃ s', krealloc s p n = .ok (0, s') ∧ HeapBlocks s' bs ∧ s'.mem = s.mem) ∨
    (c < n.toNat ∧ ∃ q s' bs' k, krealloc s p n = .ok (q, s') ∧ q ≠ 0 ∧ q ≠ p ∧ HeapBlocks s' bs' ∧
      Keeps bs s bs' s' (· ≠ p) ∧ Live bs' q k ∧ n.toNat ≤ k ∧
      (∀ i, i < c → s'.mem (q.toNat + i) = s.mem (p.toNat + i)) ∧ (∀ j, ¬ Live bs q j) ∧
      ∀ r j, Live bs' r j → r = q ∨ (r ≠ p ∧ Live bs r j)) := by
  have hp0 := hp.ne_zero h
  have hsize := hp.blockSize h
  by_cases hfit : n.toNat ≤ c
  · left
    refine ⟨hfit, ?_⟩
    have hle : n ≤ blockSize s.mem (p - sizeofHeapBlock) := by rw [BitVec.le_def, hsize]; exact hfit
    unfold krealloc
    rw [if_neg hn, if_neg hp0]
    exact if_pos hle
  · right
    have hlt : c < n.toNat := by omega
    have hle : ¬ n ≤ blockSize s.mem (p - sizeofHeapBlock) := by
      rw [BitVec.le_def, hsize]
      exact hfit
    rcases kmalloc_client h n with ⟨s', e, h', hm⟩ | ⟨q, s1, bs1, k, e, hq0, h1, hk1, hlive, hneed,
      hfresh, hold⟩
    · left
      refine ⟨hlt, s', ?_, h', hm⟩
      simp only [krealloc, hn, if_false, hp0, hle, e, if_true]
    · right
      have hqp : q ≠ p := fun eq => hfresh c (by rw [eq]; exact hp)
      have hp1 := hk1.live p c hp trivial
      have hnk : n.toNat ≤ k := le_trans (le_need n hbig) hneed
      have hsize1 := hp1.blockSize h1
      -- the copy fills the front of the new payload and nothing else
      have hap := hlive.apart h1 hp1 hqp
      let s2 : Machine := { s1 with mem := copy s1.mem q.toNat p.toNat c }
      have hcopy : ∀ x, x < q.toNat ∨ q.toNat + k ≤ x → s2.mem x = s1.mem x := fun x hx =>
        copy_out _ _ _ _ _ (by omega)
      have h2 : HeapBlocks s2 bs1 := h1.store rfl fun x hx => hcopy x (hx.2 q k hlive)
      have hk2 : Keeps bs1 s1 bs1 s2 (· ≠ q) := by
        refine ⟨fun r j hr _ => hr, fun r j hr hne x hx hx' => hcopy x ?_, fun x hx => hcopy x ?_⟩
        · have := hr.apart h1 hlive hne
          omega
        · have := hlive.bounds h1
          unfold Outside at hx
          omega
      obtain ⟨bs3, h3, _, hk3, hold3⟩ := kfree_client h2 hp1
      have hq3 := hk3.live q k hlive hqp
      refine ⟨hlt, q, kfree s2 p, bs3, k, ?_, hq0, hqp, h3, ?_, hq3, hnk, ?_, hfresh, ?_⟩
      · unfold krealloc
        rw [if_neg hn, if_neg hp0]
        simp only [hle, if_false, e, hq0, hsize1]
        rfl
      · have hk := (hk1.trans hk2).trans hk3
        have hfr : ∀ r j, Live bs r j → r ≠ q := fun r j hr eq => hfresh j (by rw [← eq]; exact hr)
        exact ⟨fun r j hr hne => hk.live r j hr ⟨⟨trivial, hfr r j hr⟩, hne⟩,
          fun r j hr hne => hk.bytes r j hr ⟨⟨trivial, hfr r j hr⟩, hne⟩, hk.off⟩
      · intro i hi
        rw [hk3.bytes q k hlive hqp _ (by omega) (by omega)]
        show copy s1.mem q.toNat p.toNat c (q.toNat + i) = _
        rw [copy_in _ _ _ _ _ (by omega) hi]
        exact hk1.bytes p c hp trivial _ (by omega) (by omega)
      · intro r j hr
        obtain ⟨hne, hr1⟩ := hold3 r j hr
        rcases hold r j hr1 with e1 | e1
        · exact .inl e1
        · exact .inr ⟨hne, e1⟩

end

end FirstKernel
