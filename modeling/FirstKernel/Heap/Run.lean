import FirstKernel.Heap.Client
import FirstKernel.Lib.Run

/-!
# Runs of the heap

A session is the machine together with the pointers its clients hold.  The clients call
`kmalloc` with any size, `kfree` and `krealloc` on null or on pointers they hold, and write
inside the payloads they hold or outside the heap.

`heap_tiled`: in every reachable session the blocks tile the heap and those in use are exactly
the ones the clients hold, and every allowed call returns.
-/

namespace FirstKernel
open ByteMem Tiling

structure Session where
  s : Machine
  live : List Word

inductive HeapOp where
  | kmalloc (n : Word)
  | kfree (p : Word)
  | krealloc (p n : Word)
  | write (x : Nat) (b : Byte)

/-- what the clients of a session may do -/
def HeapOp.Allowed (t : Session) : HeapOp → Prop
  | .kmalloc _ => True
  | .kfree p => p = 0 ∨ p ∈ t.live
  | .krealloc p n => (p = 0 ∨ p ∈ t.live) ∧ n.toNat ≤ 0xFFFFFFF0
  | .write x _ => Outside x ∨ ∃ p ∈ t.live, p.toNat ≤ x ∧
      x < p.toNat + (blockSize t.s.mem (p - sizeofHeapBlock)).toNat

/-- the call, and the pointers held after it -/
def HeapOp.exec (t : Session) : HeapOp → Res Session
  | .kmalloc n => (FirstKernel.kmalloc t.s n).map fun r =>
    ⟨r.2, if r.1 = 0 then t.live else r.1 :: t.live⟩
  | .kfree p => .ok ⟨FirstKernel.kfree t.s p, t.live.erase p⟩
  | .krealloc p n => (FirstKernel.krealloc t.s p n).map fun r =>
    ⟨r.2, if n = 0 then t.live.erase p else if r.1 = 0 then t.live else r.1 :: t.live.erase p⟩
  | .write x b => .ok ⟨{ t.s with mem := store8 t.s.mem x b }, t.live⟩

def heapSystem : Run.System Session HeapOp where
  init t := ∃ s, t = ⟨initHeap s, []⟩
  step t op t' := op.Allowed t ∧ op.exec t = .ok t'

instance (t : Session) : (op : HeapOp) → Decidable (op.Allowed t)
  | .kmalloc _ => inferInstanceAs (Decidable True)
  | .kfree p => inferInstanceAs (Decidable (p = 0 ∨ p ∈ t.live))
  | .krealloc p n => inferInstanceAs (Decidable ((p = 0 ∨ p ∈ t.live) ∧ n.toNat ≤ 0xFFFFFFF0))
  | .write x _ => inferInstanceAs (Decidable ((x < 0x00800000 ∨ 0x01000000 ≤ x) ∨
      ∃ p ∈ t.live, p.toNat ≤ x ∧
        x < p.toNat + (blockSize t.s.mem (p - sizeofHeapBlock)).toNat))

/-- the calls `ops` one after the other, as long as each is allowed, meets `C` and returns -/
def Session.run (C : Session → HeapOp → Prop) [∀ t op, Decidable (C t op)] (t : Session) :
    List HeapOp → Option Session
  | [] => some t
  | op :: ops =>
    if C t op ∧ op.Allowed t then
      match op.exec t with
      | .ok t' => t'.run C ops
      | .error _ => none
    else none

theorem reachable_run {C : Session → HeapOp → Prop} [∀ t op, Decidable (C t op)]
    {ops : List HeapOp} {t t' : Session} (h : Run.Reachable (heapSystem.restrict C) t)
    (e : t.run C ops = some t') : Run.Reachable (heapSystem.restrict C) t' := by
  induction ops generalizing t with
  | nil =>
    cases e
    exact h
  | cons op ops ih =>
    rw [Session.run] at e
    split at e
    · next ha =>
      split at e
      · next t1 he => exact ih (h.step ⟨ha.1, ha.2, he⟩) e
      · cases e
    · cases e

/-- the pointers held are the payloads of the blocks in use -/
structure Held (t : Session) (bs : List Block) : Prop where
  blocks : HeapBlocks t.s bs
  nodup : t.live.Nodup
  mem : ∀ p, p ∈ t.live ↔ ∃ n, Live bs p n

theorem Held.not_null {t : Session} {bs : List Block} (h : Held t bs) : 0 ∉ t.live := by
  intro h0
  obtain ⟨n, hn⟩ := (h.mem 0).mp h0
  exact hn.ne_zero h.blocks rfl

theorem held_init (s : Machine) : Held ⟨initHeap s, []⟩ [initBlock] := by
  refine ⟨initHeap_blocks s, List.nodup_nil, fun p => ?_⟩
  constructor
  · intro h
    cases h
  · rintro ⟨n, b, hb, hf, _⟩
    rw [List.mem_singleton.mp hb] at hf
    cases hf

/-! ## one call -/

section
variable {t : Session} {bs : List Block}

theorem exec_kmalloc {n p : Word} {s' : Machine} (e : kmalloc t.s n = .ok (p, s')) :
    HeapOp.exec t (.kmalloc n) = .ok ⟨s', if p = 0 then t.live else p :: t.live⟩ := by
  rw [HeapOp.exec, e]
  rfl

theorem exec_krealloc {p n q : Word} {s' : Machine} (e : krealloc t.s p n = .ok (q, s'))
    (hn : n ≠ 0) : HeapOp.exec t (.krealloc p n)
      = .ok ⟨s', if q = 0 then t.live else q :: t.live.erase p⟩ := by
  rw [HeapOp.exec, e]
  simp only [if_neg hn]
  rfl

theorem held_kmalloc (h : Held t bs) (n : Word) :
    ∃ t' bs', HeapOp.exec t (.kmalloc n) = .ok t' ∧ Held t' bs' := by
  rcases kmalloc_client h.blocks n with ⟨s', e, h', _⟩ | ⟨p, s', bs', k, e, hp0, h', hk, hlive, _,
    hfresh, hold⟩
  · exact ⟨⟨s', t.live⟩, bs, exec_kmalloc e, h', h.nodup, h.mem⟩
  · refine ⟨⟨s', p :: t.live⟩, bs', by rw [exec_kmalloc e, if_neg hp0], h', ?_, ?_⟩
    · refine List.nodup_cons.mpr ⟨fun hp => ?_, h.nodup⟩
      obtain ⟨j, hj⟩ := (h.mem p).mp hp
      exact hfresh j hj
    · intro q
      rw [List.mem_cons, h.mem]
      constructor
      · rintro (rfl | ⟨j, hj⟩)
        · exact ⟨k, hlive⟩
        · exact ⟨j, hk.live q j hj trivial⟩
      · rintro ⟨j, hj⟩
        exact (hold q j hj).imp_right fun hq => ⟨j, hq⟩

theorem held_kfree (h : Held t bs) {p : Word} (hp : p = 0 ∨ p ∈ t.live) :
    ∃ bs', Held ⟨kfree t.s p, t.live.erase p⟩ bs' := by
  rcases hp with rfl | hp
  · rw [kfree_null, List.erase_of_not_mem h.not_null]
    exact ⟨bs, h⟩
  · obtain ⟨n, hn⟩ := (h.mem p).mp hp
    obtain ⟨bs', h', _, hk, hold⟩ := kfree_client h.blocks hn
    refine ⟨bs', h', h.nodup.erase p, fun q => ?_⟩
    rw [h.nodup.mem_erase_iff, h.mem]
    constructor
    · rintro ⟨hne, j, hj⟩
      exact ⟨j, hk.live q j hj hne⟩
    · rintro ⟨j, hj⟩
      exact ⟨(hold q j hj).1, j, (hold q j hj).2⟩

theorem held_krealloc (h : Held t bs) {p n : Word} (hp : p = 0 ∨ p ∈ t.live)
    (hn : n.toNat ≤ 0xFFFFFFF0) :
    ∃ t' bs', HeapOp.exec t (.krealloc p n) = .ok t' ∧ Held t' bs' := by
  by_cases hn0 : n = 0
  · obtain ⟨bs', h'⟩ := held_kfree h hp
    refine ⟨_, bs', ?_, h'⟩
    rw [hn0, HeapOp.exec, krealloc_zero]
    rfl
  rcases hp with rfl | hp
  · obtain ⟨t', bs', e, h'⟩ := held_kmalloc h n
    refine ⟨t', bs', ?_, h'⟩
    rw [← e, HeapOp.exec, HeapOp.exec, krealloc_null t.s hn0]
    simp only [if_neg hn0, List.erase_of_not_mem h.not_null]
  · obtain ⟨c, hc⟩ := (h.mem p).mp hp
    have hp0 := hc.ne_zero h.blocks
    rcases krealloc_client h.blocks hc hn0 hn with ⟨_, e⟩ | ⟨_, s', e, h', _⟩ | ⟨_, q, s', bs', k, e,
      hq0, hqp, h', hk, hlive, _, _, hfresh, hold⟩
    · refine ⟨⟨t.s, p :: t.live.erase p⟩, bs,
        by rw [exec_krealloc e hn0, if_neg hp0], h.blocks, ?_, ?_⟩
      · exact (List.perm_cons_erase hp).nodup_iff.mp h.nodup
      · intro q
        rw [← h.mem]
        exact (List.perm_cons_erase hp).mem_iff.symm
    · exact ⟨⟨s', t.live⟩, bs, exec_krealloc e hn0, h', h.nodup, h.mem⟩
    · refine ⟨⟨s', q :: t.live.erase p⟩, bs',
        by rw [exec_krealloc e hn0, if_neg hq0], h', ?_, ?_⟩
      · refine List.nodup_cons.mpr ⟨fun hq => ?_, h.nodup.erase p⟩
        obtain ⟨j, hj⟩ := (h.mem q).mp (List.mem_of_mem_erase hq)
        exact hfresh j hj
      · intro r
        rw [List.mem_cons, h.nodup.mem_erase_iff, h.mem]
        constructor
        · rintro (rfl | ⟨hne, j, hj⟩)
          · exact ⟨k, hlive⟩
          · exact ⟨j, hk.live r j hj hne⟩
        · rintro ⟨j, hj⟩
          exact (hold r j hj).imp_right fun hr => ⟨hr.1, j, hr.2⟩

theorem held_write (h : Held t bs) {x : Nat} {b : Byte} (ha : HeapOp.Allowed t (.write x b)) :
    Held ⟨{ t.s with mem := store8 t.s.mem x b }, t.live⟩ bs := by
  refine ⟨h.blocks.store rfl fun y hy => ?_, h.nodup, h.mem⟩
  refine store8_of_ne _ _ _ _ fun e => ?_
  rcases ha with ha | ⟨p, hp, h1, h2⟩
  · exact hy.1 (by rw [e]; exact ha)
  · obtain ⟨n, hn⟩ := (h.mem p).mp hp
    have hs := hn.blockSize h.blocks
    have := hy.2 p n hn
    omega

/-- **Every allowed call returns and keeps the pointers held equal to the blocks in use.** -/
theorem held_step (h : Held t bs) {op : HeapOp} (ha : op.Allowed t) :
    ∃ t' bs', op.exec t = .ok t' ∧ Held t' bs' := by
  cases op with
  | kmalloc n => exact held_kmalloc h n
  | kfree p =>
    obtain ⟨bs', h'⟩ := held_kfree h ha
    exact ⟨_, bs', rfl, h'⟩
  | krealloc p n => exact held_krealloc h ha.1 ha.2
  | write x b => exact ⟨_, bs, rfl, held_write h ha⟩

end

theorem held_reachable {t : Session} (h : Run.Reachable heapSystem t) : ∃ bs, Held t bs := by
  refine h.invariant ?_ ?_
  · rintro t ⟨s, rfl⟩
    exact ⟨_, held_init s⟩
  · rintro t op t' _ ⟨bs, hb⟩ ⟨ha, he⟩
    obtain ⟨t'', bs', e, h'⟩ := held_step hb ha
    rw [he] at e
    cases e
    exact ⟨bs', h'⟩

/-! ## the tiling, read off the headers -/

/-- the headers `hs` cut the heap range, as a walk finds them -/
structure TilesHeap (hs : List Header) : Prop where
  first : hs.head?.map Header.addr = some kernelHeapStart
  link : hs.IsChain fun b c => b.next = c.addr ∧
    c.addr.toNat = b.addr.toNat + sizeofHeapBlock.toNat + b.size.toNat
  last : ∃ b, hs.getLast? = some b ∧ b.next = 0 ∧
    b.addr.toNat + sizeofHeapBlock.toNat + b.size.toNat
      = kernelHeapStart.toNat + kernelHeapSize.toNat

/-- the session's heap is tiled by its blocks and its clients hold exactly those in use -/
structure HeapTiled (t : Session) (hs : List Header) : Prop where
  walk : heapList t.s = some hs
  tiles : TilesHeap hs
  inUse : ∀ b ∈ hs, b.free = 0 ↔ b.addr + sizeofHeapBlock ∈ t.live
  held : ∀ p ∈ t.live, ∃ b ∈ hs, p = b.addr + sizeofHeapBlock
  once : t.live.Nodup
  apart : ∀ b ∈ hs, ∀ c ∈ hs, b ≠ c →
    b.addr.toNat + sizeofHeapBlock.toNat + b.size.toNat ≤ c.addr.toNat ∨
    c.addr.toNat + sizeofHeapBlock.toNat + c.size.toNat ≤ b.addr.toNat

section
variable {bs : List Block} {lo : Nat}

theorem toNat_addr (h : Tiles 12 lo bs heapEnd) {b : Block} (hb : b ∈ bs) :
    (BitVec.ofNat 32 b.addr).toNat = b.addr ∧ (BitVec.ofNat 32 b.size).toNat = b.size := by
  have := h.bounds hb
  unfold heapEnd at this
  constructor
  · rw [BitVec.toNat_ofNat, Nat.mod_eq_of_lt (by omega)]
  · rw [BitVec.toNat_ofNat, Nat.mod_eq_of_lt (by omega)]

theorem headers_link (h : Tiles 12 lo bs heapEnd) :
    (headers bs).IsChain fun b c => b.next = c.addr ∧
      c.addr.toNat = b.addr.toNat + sizeofHeapBlock.toNat + b.size.toNat := by
  induction bs generalizing lo with
  | nil => exact List.IsChain.nil
  | cons b bs ih =>
    refine List.isChain_cons.mpr ⟨fun c hc => ?_, ih h.2⟩
    cases bs with
    | nil => cases hc
    | cons d ds =>
      cases hc
      refine ⟨rfl, ?_⟩
      obtain ⟨e1, e2⟩ := toNat_addr h List.mem_cons_self
      obtain ⟨e3, _⟩ := toNat_addr h.2 List.mem_cons_self
      show (BitVec.ofNat 32 d.addr).toNat = (BitVec.ofNat 32 b.addr).toNat + 12
        + (BitVec.ofNat 32 b.size).toNat
      rw [e1, e2, e3, h.2.1, h.1]

theorem headers_last (h : Tiles 12 lo bs heapEnd) (hne : bs ≠ []) :
    ∃ b, (headers bs).getLast? = some b ∧ b.next = 0 ∧
      b.addr.toNat + sizeofHeapBlock.toNat + b.size.toNat = heapEnd := by
  induction bs generalizing lo with
  | nil => exact absurd rfl hne
  | cons b bs ih =>
    cases bs with
    | nil =>
      obtain ⟨e1, e2⟩ := toNat_addr h List.mem_cons_self
      refine ⟨_, rfl, rfl, ?_⟩
      show (BitVec.ofNat 32 b.addr).toNat + 12 + (BitVec.ofNat 32 b.size).toNat = heapEnd
      rw [e1, e2, h.1]
      exact h.2
    | cons d ds =>
      obtain ⟨c, hc, h1, h2⟩ := ih h.2 (by simp)
      exact ⟨c, by rw [headers, List.getLast?_cons, hc]; rfl, h1, h2⟩

theorem mem_headers {hd : Header} (h : hd ∈ headers bs) :
    ∃ b ∈ bs, hd.addr = BitVec.ofNat 32 b.addr ∧ hd.size = BitVec.ofNat 32 b.size ∧
      hd.free = flag b.free := by
  induction bs with
  | nil => cases h
  | cons b bs ih =>
    rcases List.mem_cons.mp h with rfl | h
    · exact ⟨b, List.mem_cons_self, rfl, rfl, rfl⟩
    · obtain ⟨c, hc, e⟩ := ih h
      exact ⟨c, List.mem_cons_of_mem _ hc, e⟩

theorem headers_mem {b : Block} (h : b ∈ bs) :
    ∃ hd ∈ headers bs, hd.addr = BitVec.ofNat 32 b.addr ∧ hd.size = BitVec.ofNat 32 b.size ∧
      hd.free = flag b.free := by
  induction bs with
  | nil => cases h
  | cons c bs ih =>
    rcases List.mem_cons.mp h with rfl | h
    · exact ⟨_, List.mem_cons_self, rfl, rfl, rfl⟩
    · obtain ⟨hd, h1, e⟩ := ih h
      exact ⟨hd, List.mem_cons_of_mem _ h1, e⟩

/-- blocks of the list at different addresses do not overlap -/
theorem headers_apart (h : Tiles 12 lo bs heapEnd) : (headers bs).Pairwise fun b c =>
    b.addr.toNat + sizeofHeapBlock.toNat + b.size.toNat ≤ c.addr.toNat := by
  induction bs generalizing lo with
  | nil => exact List.Pairwise.nil
  | cons b bs ih =>
    refine List.pairwise_cons.mpr ⟨fun hd hhd => ?_, ih h.2⟩
    obtain ⟨c, hc, e, _⟩ := mem_headers hhd
    obtain ⟨e1, e2⟩ := toNat_addr h List.mem_cons_self
    obtain ⟨e3, _⟩ := toNat_addr h.2 hc
    have := (h.2.bounds hc).1
    rw [e, e3]
    show (BitVec.ofNat 32 b.addr).toNat + 12 + (BitVec.ofNat 32 b.size).toNat ≤ c.addr
    rw [e1, e2, h.1]
    exact this

end

theorem Held.tiled {t : Session} {bs : List Block} (h : Held t bs) : HeapTiled t (headers bs) := by
  have ht := h.blocks.tiles
  have hne : bs ≠ [] := by
    rintro rfl
    have e : kernelHeapStart.toNat = heapEnd := ht
    exact absurd e (by decide)
  have hpay : ∀ b ∈ bs, (BitVec.ofNat 32 b.addr + sizeofHeapBlock : Word).toNat = b.addr + 12 := by
    intro b hb
    have := h.blocks.bounds hb
    unfold sizeofHeapBlock
    rw [BitVec.toNat_add, (toNat_addr ht hb).1]
    show (b.addr + 12) % 2^32 = b.addr + 12
    omega
  have hpair := headers_apart ht
  refine ⟨h.blocks.walk, ⟨?_, headers_link ht, headers_last ht hne⟩, ?_, ?_, h.nodup, ?_⟩
  · cases bs with
    | nil => exact absurd rfl hne
    | cons b bs =>
      show some (BitVec.ofNat 32 b.addr) = some kernelHeapStart
      rw [ht.1]
      rfl
  · intro hd hhd
    obtain ⟨b, hb, e1, _, e3⟩ := mem_headers hhd
    rw [h.mem, e1, e3]
    constructor
    · intro hf
      refine ⟨b.size, b, hb, ?_, hpay b hb, rfl⟩
      cases hbf : b.free with
      | false => rfl
      | true => rw [hbf] at hf; exact absurd hf (by decide)
    · rintro ⟨n, c, hc, hcf, e, _⟩
      rw [hpay b hb] at e
      rw [ht.addr_inj (by decide) hb hc (by omega), hcf]
      rfl
  · intro p hp
    obtain ⟨n, b, hb, hf, e, _⟩ := (h.mem p).mp hp
    obtain ⟨hd, hhd, e1, _⟩ := headers_mem hb
    refine ⟨hd, hhd, BitVec.eq_of_toNat_eq ?_⟩
    rw [e1, hpay b hb, e]
  · intro b hb c hc hbc
    rcases List.pairwise_iff_getElem.mp hpair with hp
    obtain ⟨i, hi, rfl⟩ := List.getElem_of_mem hb
    obtain ⟨j, hj, rfl⟩ := List.getElem_of_mem hc
    rcases Nat.lt_trichotomy i j with hij | hij | hij
    · exact .inl (hp i j hi hj hij)
    · subst hij
      exact absurd rfl hbc
    · exact .inr (hp j i hj hi hij)

/-- **In every run the blocks tile the heap, the blocks in use are exactly the live pointers, and
every call the clients may make returns.** -/
theorem heap_tiled (t : Session) (h : Run.Reachable heapSystem t) :
    (∃ hs, HeapTiled t hs) ∧ ∀ op : HeapOp, op.Allowed t → ∃ t', op.exec t = .ok t' := by
  obtain ⟨bs, hb⟩ := held_reachable h
  refine ⟨⟨_, hb.tiled⟩, fun op ha => ?_⟩
  obtain ⟨t', _, e, _⟩ := held_step hb ha
  exact ⟨t', e⟩

/-- two allocations, the first one given back -/
theorem heap_tiled_two : ∃ t : Session, t.live = [0x00800058] ∧ ∃ hs, HeapTiled t hs := by
  obtain ⟨t, e, hl⟩ : ∃ t, Session.run (fun _ _ => True) ⟨initHeap bootMachine, []⟩
      [.kmalloc 64, .kmalloc 100, .kfree 0x0080000C] = some t ∧ t.live = [0x00800058] := ⟨_, rfl, rfl⟩
  have hr := reachable_run (.init ⟨bootMachine, rfl⟩) e
  exact ⟨t, hl, (heap_tiled t hr.of_restrict).1⟩

end FirstKernel
