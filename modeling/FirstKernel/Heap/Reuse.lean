import FirstKernel.Heap.Realloc

/-!
# Freed memory is used first

`kfree` merges forward only, so the blocks in front of the freed one stay as they are and the freed
block is at least as large as before: `Tiling.alloc_release`.
-/

namespace FirstKernel
open ByteMem Tiling

instance (b : Header) (r : Nat) : Decidable (b.Serves r) :=
  inferInstanceAs (Decidable (b.free ≠ 0 ∧ r ≤ b.size.toNat))

instance (hs : List Header) (p : Word) (n : Nat) : Decidable (InUse hs p n) :=
  inferInstanceAs (Decidable (∃ b ∈ hs, b.addr + sizeofHeapBlock = p ∧ b.free = 0 ∧ b.size.toNat = n))

/-- a request that fits a block does not wrap -/
theorem need_of_fits {m : Word} {c : Nat} (hfit : roundUp m ≤ c) (hc : c < 2^32) :
    need m = roundUp m := by
  apply need_eq_roundUp
  unfold roundUp at hfit
  omega

/-- **In every reachable heap `kmalloc(m)` after `kfree(p)` is served at `p` or below when `m` fits the
block of `p`, and at `p` when no free block below it is large enough.** -/
theorem freed_reused (t : Session) (h : Run.Reachable plainSystem t) (hs : List Header)
    (hw : heapList t.s = some hs) (p m : Word) (c : Nat) (hp : InUse hs p c) (hm : m ≠ 0)
    (hfit : roundUp m ≤ c) :
    ∃ q s', kmalloc (kfree t.s p) m = .ok (q, s') ∧ q ≠ 0 ∧ q ≤ p ∧
      ((∀ b ∈ hs, b.addr < p → ¬ b.Serves (roundUp m)) → q = p) := by
  obtain ⟨bs, hb⟩ := held_reachable h.of_restrict
  rw [hb.blocks.walk] at hw
  cases hw
  have hlive := (inUse_iff hb.blocks).mp hp
  have hbounds := hlive.bounds hb.blocks
  have hneed := need_of_fits hfit (by omega)
  obtain ⟨b, hbm, hbf, ep, rfl⟩ := hlive
  obtain ⟨h1, _⟩ := kfree_blocks hb.blocks (mem_used.mpr ⟨b, hbm, hbf, rfl⟩) ep
  obtain ⟨pre, post, rfl⟩ := List.append_of_mem hbm
  obtain ⟨a, bs', ea, hle, hexact⟩ := alloc_release (by decide) 16 hb.blocks.tiles hfit
  rw [← hneed] at ea
  obtain ⟨q, s', e, hq, _⟩ := kmalloc_some h1 hm ea
  refine ⟨q, s', e, ?_, ?_, fun hno => ?_⟩
  · intro h0
    rw [h0] at hq
    exact absurd hq (by simp)
  · rw [BitVec.le_def]
    omega
  · -- the blocks in front of `b` are below `p`
    have hpre : ∀ d ∈ pre, fits (roundUp m) d = false := by
      intro d hd
      obtain ⟨hdr, hhdr, e1, e2, e3⟩ := header_of hb.blocks.tiles (List.mem_append_left _ hd)
      have hlt := hb.blocks.tiles.pre_lt hd
      have hbelow : hdr.addr < p := by
        rw [BitVec.lt_def]
        omega
      cases hf : fits (roundUp m) d with
      | false => rfl
      | true => exact absurd ((serves_iff e2 e3).mpr hf) (hno hdr hhdr hbelow)
    apply BitVec.eq_of_toNat_eq
    rw [hq, hexact hpre, ep]

/-- the block of 128 bytes of `heap_test`, freed and asked for again with 64 -/
theorem freed_reused_heap_test : ∃ (t : Session) (s' : Machine),
    t.live = [0x008000E4, 0x00800058, 0x0080000C] ∧
    kmalloc (kfree t.s 0x00800058) 64 = .ok (0x00800058, s') := by
  have e : (Session.run (fun _ op => op.plain) ⟨initHeap bootMachine, []⟩
      [.kmalloc 64, .kmalloc 128, .kmalloc 32]).map (fun t => (t.live, heapList t.s))
      = some ([0x008000E4, 0x00800058, 0x0080000C], some
        [⟨0x00800000, 64, 0x0080004C, 0⟩, ⟨0x0080004C, 128, 0x008000D8, 0⟩,
          ⟨0x008000D8, 32, 0x00800104, 0⟩, ⟨0x00800104, 0x007FFEF0, 0, 1⟩]) := by decide +kernel
  obtain ⟨t, e, ht⟩ := Option.map_eq_some_iff.mp e
  obtain ⟨hl, hw⟩ := Prod.mk.inj ht
  obtain ⟨q, s', eq, _, _, hexact⟩ := freed_reused t (reachable_run (.init ⟨bootMachine, rfl⟩) e) _ hw
    0x00800058 64 128 (by decide) (by decide) (by decide)
  rw [hexact (by decide)] at eq
  exact ⟨t, s', hl, eq⟩

end FirstKernel
