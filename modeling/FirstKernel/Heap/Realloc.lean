import FirstKernel.Heap.FirstFit

/-!
# `krealloc` keeps the data, and the heap when it fails

`krealloc_client` is read off the header list here, for every reachable heap:

* `InUse hs p n`           the list has a block in use with payload `p` and size `n`;
* `Resized`                what a client may rely on after `krealloc(p, n)`;
* `krealloc_preserves`     every call on a pointer held meets it.
-/

namespace FirstKernel
open ByteMem Tiling

/-- a block of the list is in use, with payload `p` and size `n` -/
def InUse (hs : List Header) (p : Word) (n : Nat) : Prop :=
  ∃ b ∈ hs, b.addr + sizeofHeapBlock = p ∧ b.free = 0 ∧ b.size.toNat = n

/-- the `n` bytes at `q` in `s'` are the ones at `p` in `s` -/
def SameBytes (s : Machine) (p : Word) (s' : Machine) (q : Word) (n : Nat) : Prop :=
  ∀ i, i < n → s'.mem (q.toNat + i) = s.mem (p.toNat + i)

/-- `krealloc(p, n)` on a block of `c` bytes answered `q` and led from `s`, `hs` to `s'`, `hs'` -/
structure Resized (s : Machine) (hs : List Header) (p : Word) (c : Nat) (n q : Word) (s' : Machine)
    (hs' : List Header) : Prop where
  live : q ≠ 0 → ∃ k, InUse hs' q k ∧ n.toNat ≤ k
  data : q ≠ 0 → SameBytes s p s' q c
  inPlace : q ≠ 0 → n.toNat ≤ c → q = p
  others : q ≠ 0 → ∀ r j, r ≠ p → InUse hs r j → InUse hs' r j ∧ SameBytes s r s' r j
  failed : q = 0 → hs' = hs ∧ InUse hs' p c ∧ SameBytes s p s' p c

section
variable {s s' : Machine} {bs bs' : List Block} {p q : Word} {n c : Nat}

theorem inUse_iff (h : HeapBlocks s bs) : InUse (headers bs) p n ↔ Live bs p n := by
  have hpay : ∀ {hd : Header} {b : Block}, b ∈ bs → hd.addr.toNat = b.addr →
      (hd.addr + sizeofHeapBlock).toNat = b.addr + 12 := by
    intro hd b hb e
    have := h.bounds hb
    unfold sizeofHeapBlock
    bv_omega
  constructor
  · rintro ⟨hd, hhd, rfl, hf, rfl⟩
    obtain ⟨b, hb, e1, e2, e3⟩ := block_of h.tiles hhd
    refine ⟨b, hb, ?_, hpay hb e1, e2.symm⟩
    rw [hf] at e3
    cases hbf : b.free with
    | false => rfl
    | true => rw [hbf] at e3; exact absurd e3 (by decide)
  · rintro ⟨b, hb, hf, e, rfl⟩
    obtain ⟨hd, hhd, e1, e2, e3⟩ := header_of h.tiles hb
    refine ⟨hd, hhd, BitVec.eq_of_toNat_eq ?_, by rw [e3, hf]; rfl, e2⟩
    rw [hpay hb e1, e]

theorem SameBytes.refl (s : Machine) (p : Word) (n : Nat) : SameBytes s p s p n := fun _ _ => rfl

/-- the frame of a client call, byte by byte -/
theorem Keeps.sameBytes {K : Word → Prop} (h : Keeps bs s bs' s' K) (hp : Live bs p n) (hK : K p) :
    SameBytes s p s' p n := fun i hi => h.bytes p n hp hK _ (by omega) (by omega)

/-- the block was large enough: nothing moves -/
theorem resized_same (h : HeapBlocks s bs) (hp : Live bs p c) {m : Word} (hfit : m.toNat ≤ c) :
    Resized s (headers bs) p c m p s (headers bs) where
  live _ := ⟨c, (inUse_iff h).mpr hp, hfit⟩
  data _ := .refl s p c
  inPlace _ _ := rfl
  others _ r j _ hr := ⟨hr, .refl s r j⟩
  failed h0 := absurd h0 (hp.ne_zero h)

/-- no block was found: the heap is as it was -/
theorem resized_failed (h : HeapBlocks s bs) (hp : Live bs p c) (m : Word) (hm : s'.mem = s.mem) :
    Resized s (headers bs) p c m 0 s' (headers bs) where
  live h0 := absurd rfl h0
  data h0 := absurd rfl h0
  inPlace h0 := absurd rfl h0
  others h0 := absurd rfl h0
  failed _ := ⟨rfl, (inUse_iff h).mpr hp, fun i _ => by rw [hm]⟩

end

/-- **In every reachable heap `krealloc` keeps the data of the block it resizes and everything else in
use, and leaves the heap alone when it returns null.** -/
theorem krealloc_preserves (t : Session) (h : Run.Reachable heapSystem t) (p : Word)
    (hp : p ∈ t.live) (n : Word) (hn : n ≠ 0) (hbig : n.toNat ≤ 0xFFFFFFF0) :
    ∃ hs c q s' hs', heapList t.s = some hs ∧ InUse hs p c ∧ krealloc t.s p n = .ok (q, s') ∧
      heapList s' = some hs' ∧ Resized t.s hs p c n q s' hs' := by
  obtain ⟨bs, hb⟩ := held_reachable h
  have hblocks := hb.blocks
  obtain ⟨c, hc⟩ := (hb.mem p).mp hp
  have hin := (inUse_iff hblocks).mpr hc
  rcases krealloc_client hblocks hc hn hbig with ⟨hfit, e⟩ | ⟨_, s', e, h', hm⟩ | ⟨hlt, q, s', bs', k,
    e, hq0, hqp, h', hk, hlive, hnk, hdata, _, _⟩
  · exact ⟨_, c, p, t.s, _, hblocks.walk, hin, e, hblocks.walk, resized_same hblocks hc hfit⟩
  · exact ⟨_, c, 0, s', _, hblocks.walk, hin, e, h'.walk, resized_failed hblocks hc n hm⟩
  · refine ⟨_, c, q, s', _, hblocks.walk, hin, e, h'.walk, ?_, fun _ => hdata, ?_, ?_, ?_⟩
    · intro _
      exact ⟨k, (inUse_iff h').mpr hlive, hnk⟩
    · intro _ hfit
      exact absurd hfit (Nat.not_le.mpr hlt)
    · intro _ r j hrp hr
      rw [inUse_iff hblocks] at hr
      rw [inUse_iff h']
      exact ⟨hk.live r j hr hrp, hk.sameBytes hr hrp⟩
    · intro h0
      exact absurd h0 hq0

/-- a block of 64 bytes grown to 100 with another block behind it -/
theorem krealloc_preserves_moved : ∃ t : Session, t.live = [0x00800058, 0x0080000C] ∧
    ∃ hs c q s' hs', heapList t.s = some hs ∧ InUse hs 0x0080000C c ∧
      krealloc t.s 0x0080000C 100 = .ok (q, s') ∧ heapList s' = some hs' ∧
      Resized t.s hs 0x0080000C c 100 q s' hs' := by
  obtain ⟨t, e, hl⟩ : ∃ t, Session.run (fun _ _ => True) ⟨initHeap bootMachine, []⟩
      [.kmalloc 64, .kmalloc 100] = some t ∧ t.live = [0x00800058, 0x0080000C] := ⟨_, rfl, rfl⟩
  have hr := reachable_run (.init ⟨bootMachine, rfl⟩) e
  refine ⟨t, hl, krealloc_preserves t hr.of_restrict 0x0080000C ?_ 100 (by decide) (by decide)⟩
  rw [hl]
  decide

end FirstKernel
