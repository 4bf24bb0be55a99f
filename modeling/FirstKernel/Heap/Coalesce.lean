import FirstKernel.Heap.Run
import Mathlib.Data.List.Nodup

/-!
# Merging on free: what it keeps and what it misses

`kfree` absorbs the following block only.  A block freed behind a free predecessor stays apart
from it, so the list is not always coalesced:

* `coalesced`                 the list stays coalesced along every run in which each block is freed
                              while its predecessor is in use, and no other free keeps it so;
* `heap_test_not_coalesced`   after the allocations and frees of `heap_test` three free blocks
                              remain.
-/

namespace FirstKernel
open ByteMem Tiling

/-! ## free neighbours, on headers and on blocks -/

def NoAdjacentFree (hs : List Header) : Prop :=
  hs.IsChain fun b c => ¬ (b.free ≠ 0 ∧ c.free ≠ 0)

/-- the block in front of the one with payload `p`, if there is one, is in use -/
def PrevInUse (s : Machine) (p : Word) : Prop :=
  ∀ hs ∈ heapList s, ∀ bc ∈ hs.zip hs.tail, bc.2.addr + sizeofHeapBlock = p → bc.1.free = 0

instance (s : Machine) (p : Word) : Decidable (PrevInUse s p) :=
  inferInstanceAs (Decidable (∀ hs ∈ heapList s, ∀ bc ∈ hs.zip hs.tail,
    bc.2.addr + sizeofHeapBlock = p → bc.1.free = 0))

theorem mem_zip_tail {hs : List Header} {bc : Header × Header} : bc ∈ hs.zip hs.tail ↔
    ∃ i, ∃ h : i + 1 < hs.length, hs[i] = bc.1 ∧ hs[i + 1] = bc.2 := by
  rw [List.mem_iff_getElem]
  constructor
  · rintro ⟨i, hi, rfl⟩
    have hi' : i + 1 < hs.length := by
      rw [List.length_zip, List.length_tail] at hi
      omega
    exact ⟨i, hi', by simp, by simp⟩
  · rintro ⟨i, hi, h1, h2⟩
    exact ⟨i, by rw [List.length_zip, List.length_tail]; omega, by ext <;> simp [h1, h2]⟩

section
variable {s : Machine} {bs pre post : List Block} {b : Block} {p : Word}

theorem headers_length : (headers bs).length = bs.length := by
  induction bs with
  | nil => rfl
  | cons b bs ih => rw [headers, List.length_cons, List.length_cons, ih]

theorem headers_getElem (bs : List Block) (i : Nat) (h : i < (headers bs).length) (h' : i < bs.length) :
    (headers bs)[i].addr = BitVec.ofNat 32 bs[i].addr ∧ (headers bs)[i].free = flag bs[i].free := by
  induction bs generalizing i with
  | nil => cases h'
  | cons b bs ih =>
    cases i with
    | zero => exact ⟨rfl, rfl⟩
    | succ i =>
      have h1 : i < bs.length := by simpa using h'
      exact ih i (by rw [headers_length]; exact h1) h1

theorem noAdjacentFree_headers : NoAdjacentFree (headers bs) ↔ NoAdj bs := by
  unfold NoAdjacentFree NoAdj
  induction bs with
  | nil => exact ⟨fun _ => .nil, fun _ => .nil⟩
  | cons b bs ih =>
    cases bs with
    | nil => exact ⟨fun _ => .singleton _, fun _ => .singleton _⟩
    | cons c cs =>
      rw [List.isChain_cons_cons]
      show List.IsChain _ (_ :: _ :: _) ↔ _
      rw [List.isChain_cons_cons, ← ih, flag_ne_zero, flag_ne_zero]
      rfl

theorem prevInUse_iff (h : HeapBlocks s (pre ++ b :: post)) (hp : p.toNat = b.addr + 12) :
    PrevInUse s p ↔ ∀ c ∈ pre.getLast?, c.free = false := by
  have ht := h.tiles
  have hpay : ∀ c ∈ pre ++ b :: post,
      (BitVec.ofNat 32 c.addr + sizeofHeapBlock : Word) = p ↔ c.addr = b.addr := by
    intro c hc
    have hcb := h.bounds hc
    have e : (BitVec.ofNat 32 c.addr + sizeofHeapBlock : Word).toNat = c.addr + 12 := by
      unfold sizeofHeapBlock
      rw [BitVec.toNat_add, (toNat_addr ht hc).1]
      show (c.addr + 12) % 2^32 = c.addr + 12
      omega
    rw [← BitVec.toNat_inj, e, hp]
    omega
  constructor
  · intro hprev c hc
    obtain ⟨pre0, rfl⟩ := List.getLast?_eq_some_iff.mp hc
    have hi : pre0.length + 1 < (headers (pre0 ++ [c] ++ b :: post)).length := by
      rw [headers_length]
      simp
    have hc' := headers_getElem (pre0 ++ [c] ++ b :: post) pre0.length (by omega) (by simp)
    have hb' := headers_getElem (pre0 ++ [c] ++ b :: post) (pre0.length + 1) hi (by simp)
    have hz := hprev _ h.walk (_, _) (mem_zip_tail.mpr ⟨pre0.length, hi, rfl, rfl⟩)
      (by rw [hb'.1, hpay _ (List.getElem_mem _)]; simp)
    rw [hc'.2] at hz
    simp only [List.append_assoc, List.singleton_append] at hz
    rw [List.getElem_append_right (Nat.le_refl _)] at hz
    cases hcf : c.free with
    | false => rfl
    | true => simp [hcf, flag] at hz
  · intro hlast hs hw bc hbc haddr
    rw [h.walk] at hw
    cases hw
    obtain ⟨i, hi, e1, e2⟩ := mem_zip_tail.mp hbc
    rw [← e2] at haddr
    rw [← e1]
    have hi' : i + 1 < (pre ++ b :: post).length := by rw [← headers_length]; exact hi
    have hc' := headers_getElem _ i (by omega) (Nat.lt_of_succ_lt hi')
    have hb' := headers_getElem _ (i + 1) hi hi'
    rw [hb'.1, hpay _ (List.getElem_mem _)] at haddr
    have hnd : (pre ++ b :: post).Nodup := by
      refine ht.sorted.imp fun {c d} hcd e => ?_
      rw [e] at hcd
      omega
    have hbmem : (pre ++ b :: post)[pre.length]? = some b := by simp
    have heq := ht.addr_inj (by decide) (List.getElem_mem hi') (by simp) haddr
    have hidx : i + 1 = pre.length := by
      have hlen : pre.length < (pre ++ b :: post).length := by simp
      rw [List.getElem?_eq_getElem hlen] at hbmem
      exact (hnd.getElem_inj_iff).mp (heq.trans (Option.some.inj hbmem).symm)
    rw [hc'.2]
    have hmem : (pre ++ b :: post)[i] ∈ pre.getLast? := by
      rw [List.getElem_append_left (by omega)]
      have : i = pre.length - 1 := by omega
      subst this
      rw [List.getLast?_eq_getElem?, List.getElem?_eq_getElem (by omega)]
      rfl
    rw [hlast _ hmem]
    rfl

end

/-! ## runs of `kmalloc` and `kfree` -/

/-- no `krealloc` -/
def HeapOp.plain : HeapOp → Prop
  | .krealloc _ _ => False
  | _ => True

instance : (op : HeapOp) → Decidable op.plain
  | .kmalloc _ | .kfree _ | .write _ _ => inferInstanceAs (Decidable True)
  | .krealloc _ _ => inferInstanceAs (Decidable False)

/-- the runs of `kmalloc` and `kfree` (and client writes) -/
def plainSystem : Run.System Session HeapOp := heapSystem.restrict fun _ op => op.plain

/-- a free, if this is one, meets a predecessor in use -/
def HeapOp.freesBehindUsed (t : Session) : HeapOp → Prop
  | .kfree p => p ∈ t.live → PrevInUse t.s p
  | _ => True

instance (t : Session) : (op : HeapOp) → Decidable (op.freesBehindUsed t)
  | .kfree p => inferInstanceAs (Decidable (p ∈ t.live → PrevInUse t.s p))
  | .kmalloc _ | .krealloc _ _ | .write _ _ => inferInstanceAs (Decidable True)

/-- the runs of `kmalloc` and `kfree` whose frees all meet a predecessor in use -/
def coalescingSystem : Run.System Session HeapOp :=
  heapSystem.restrict fun t op => op.plain ∧ op.freesBehindUsed t

section
variable {t : Session} {bs : List Block}

/-- one call under the condition keeps the list coalesced -/
theorem coalesced_step (h : Held t bs) (hna : NoAdj bs) {op : HeapOp} (hop : op.plain)
    (ha : op.Allowed t) (hc : op.freesBehindUsed t) {t' : Session} (he : op.exec t = .ok t') :
    ∃ bs', Held t' bs' ∧ NoAdj bs' := by
  obtain ⟨t'', bs', e, h'⟩ := held_step h ha
  rw [he] at e
  cases e
  have hlist : ∀ bs'', HeapBlocks t'.s bs'' → NoAdj bs'' → NoAdj bs' := by
    intro bs'' h'' hna''
    rw [← noAdjacentFree_headers] at hna'' ⊢
    have e := h''.walk
    rw [h'.blocks.walk] at e
    rw [Option.some.inj e]
    exact hna''
  refine ⟨bs', h', ?_⟩
  cases op with
  | kmalloc n =>
    by_cases hn : n = 0 ∨ alloc 12 16 (need n) bs = none
    · obtain ⟨s', e, hm, hl⟩ := kmalloc_none h.blocks hn
      rw [exec_kmalloc e] at he
      cases he
      exact hlist bs (h.blocks.congr hl fun b _ x _ _ => by rw [hm]) hna
    · obtain ⟨hn0, hne⟩ := not_or.mp hn
      obtain ⟨⟨a, bs1⟩, halloc⟩ := Option.ne_none_iff_exists'.mp hne
      obtain ⟨p, s', e, _, h1, _⟩ := kmalloc_some h.blocks hn0 halloc
      rw [exec_kmalloc e] at he
      cases he
      exact hlist bs1 h1 (hna.alloc halloc)
  | kfree p =>
    rw [HeapOp.exec] at he
    cases he
    rcases ha with rfl | hp
    · refine hlist bs ?_ hna
      show HeapBlocks (kfree t.s 0) bs
      rw [kfree_null]
      exact h.blocks
    · obtain ⟨n, hn⟩ := (h.mem p).mp hp
      obtain ⟨hu, ep⟩ := hn.mem_used
      obtain ⟨h1, _⟩ := kfree_blocks h.blocks hu ep
      refine hlist _ h1 ?_
      obtain ⟨pre, b, post, rfl, hbf, hba⟩ := mem_used_split hu
      rw [← hba] at ep ⊢
      exact (noAdj_release_iff (by decide) h.blocks.tiles hna).mpr
        ((prevInUse_iff h.blocks ep).mp (hc hp))
  | krealloc p n => exact absurd hop id
  | write x b =>
    cases he
    exact hlist bs (held_write h ha).blocks hna

theorem coalesced_reachable (hr : Run.Reachable coalescingSystem t) : ∃ bs, Held t bs ∧ NoAdj bs := by
  refine hr.invariant ?_ ?_
  · rintro t ⟨s, rfl⟩
    exact ⟨_, held_init s, .singleton _⟩
  · rintro t op t' _ ⟨bs, h, hna⟩ ⟨⟨hop, hc⟩, ha, he⟩
    exact coalesced_step h hna hop ha hc he

/-- a coalesced heap without a block in use is one free block -/
theorem single_of_free (h : HeapBlocks t.s bs) (hna : NoAdj bs) (hu : used bs = []) :
    bs = [initBlock] := by
  have hfree : ∀ b ∈ bs, b.free = true := by
    intro b hb
    cases hf : b.free with
    | true => rfl
    | false =>
      have : b.addr ∈ used bs := mem_used.mpr ⟨b, hb, hf, rfl⟩
      rw [hu] at this
      cases this
  have ht := h.tiles
  cases bs with
  | nil =>
    have e : kernelHeapStart.toNat = heapEnd := ht
    exact absurd e (by decide)
  | cons b bs =>
    cases bs with
    | cons c cs =>
      have := (List.isChain_cons_cons.mp hna).1
      exact absurd ⟨hfree b (by simp), hfree c (by simp)⟩ this
    | nil =>
      obtain ⟨h1, h2⟩ := ht
      have h2' : kernelHeapStart.toNat + 12 + b.size = heapEnd := h2
      have e1 : b.addr = 0x00800000 := h1
      have e2 : b.size = 0x007FFFF4 := by
        have : kernelHeapStart.toNat = 0x00800000 := rfl
        unfold heapEnd at h2'
        omega
      have e3 := hfree b (by simp)
      obtain ⟨ba, bsz, bf⟩ := b
      simp only at e1 e2 e3
      subst e1 e2 e3
      rfl

end

/-- the list `init_heap` makes -/
def initList : List Header := [⟨kernelHeapStart, kernelHeapSize - sizeofHeapBlock, 0, 1⟩]

/-- **Free blocks are coalesced along every run whose frees all meet a predecessor in use**, and
once all is freed the list is the initial one; a free that meets a free predecessor leaves the
two apart. -/
theorem coalesced (t : Session) :
    (Run.Reachable coalescingSystem t →
      ∃ hs, heapList t.s = some hs ∧ NoAdjacentFree hs ∧ (t.live = [] → hs = initList)) ∧
    (Run.Reachable plainSystem t → ∀ hs, heapList t.s = some hs → NoAdjacentFree hs →
      ∀ p ∈ t.live, (∃ hs', heapList (kfree t.s p) = some hs' ∧ NoAdjacentFree hs') ↔
        PrevInUse t.s p) := by
  constructor
  · intro hr
    obtain ⟨bs, h, hna⟩ := coalesced_reachable hr
    refine ⟨_, h.blocks.walk, noAdjacentFree_headers.mpr hna, fun hl => ?_⟩
    have hu : used bs = [] := by
      apply List.eq_nil_iff_forall_not_mem.mpr
      intro a ha
      obtain ⟨b, hb, _, e⟩ := mem_used.mp ha
      have hbb := h.blocks.bounds hb
      obtain ⟨n, hn⟩ := live_of_used (p := BitVec.ofNat 32 (a + 12)) ha
        (by rw [BitVec.toNat_ofNat, Nat.mod_eq_of_lt (by omega)])
      have := (h.mem _).mpr ⟨n, hn⟩
      rw [hl] at this
      cases this
    rw [single_of_free h.blocks hna hu]
    rfl
  · intro hr hs hw hna p hp
    obtain ⟨bs, h⟩ := held_reachable hr.of_restrict
    obtain ⟨n, hn⟩ := (h.mem p).mp hp
    obtain ⟨hu, ep⟩ := hn.mem_used
    obtain ⟨h1, _⟩ := kfree_blocks h.blocks hu ep
    rw [h.blocks.walk] at hw
    cases hw
    rw [noAdjacentFree_headers] at hna
    obtain ⟨pre, b, post, rfl, hbf, hba⟩ := mem_used_split hu
    rw [← hba] at ep h1
    rw [prevInUse_iff h.blocks ep, ← noAdj_release_iff (by decide) h.blocks.tiles hna,
      ← noAdjacentFree_headers, h1.walk]
    exact ⟨fun ⟨hs', e, h'⟩ => by cases e; exact h', fun h' => ⟨_, rfl, h'⟩⟩

/-- two blocks freed from the back leave the initial list -/
theorem coalesced_two : ∃ t : Session, t.live = [] ∧ heapList t.s = some initList := by
  have e : (Session.run (fun t op => op.plain ∧ op.freesBehindUsed t) ⟨initHeap bootMachine, []⟩
      [.kmalloc 64, .kmalloc 100, .kfree 0x00800058, .kfree 0x0080000C]).map Session.live
      = some [] := by decide +kernel
  obtain ⟨t, e, hl⟩ := Option.map_eq_some_iff.mp e
  obtain ⟨hs, hw, _, hi⟩ := (coalesced t).1 (reachable_run (.init ⟨bootMachine, rfl⟩) e)
  exact ⟨t, hl, by rw [hw, hi hl]⟩

/-- **The run of `heap_test` ends with three free blocks side by side.** -/
theorem heap_test_not_coalesced : ¬ ∀ t, Run.Reachable plainSystem t →
    ∃ hs, heapList t.s = some hs ∧ NoAdjacentFree hs ∧ (t.live = [] → hs = initList) := by
  intro h
  have e : (Session.run (fun _ op => op.plain) ⟨initHeap bootMachine, []⟩
      [.kmalloc 64, .kmalloc 128, .kmalloc 32, .kfree 0x00800058, .kmalloc 64, .kfree 0x0080000C,
        .kfree 0x008000E4, .kfree 0x00800058]).map
      (fun t => (t.live, (heapList t.s).map List.length)) = some ([], some 3) := by decide +kernel
  obtain ⟨t, e, ht⟩ := Option.map_eq_some_iff.mp e
  obtain ⟨hl, hw⟩ := Prod.mk.inj ht
  obtain ⟨hs, hw', _, hi⟩ := h t (reachable_run (.init ⟨bootMachine, rfl⟩) e)
  rw [hw', hi hl] at hw
  exact absurd hw (by decide)

end FirstKernel
