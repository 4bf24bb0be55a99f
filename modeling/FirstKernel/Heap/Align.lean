import FirstKernel.Heap.Run

/-!
# Alignment of the returned pointers

`kmalloc` rounds the size up to 16 ("Ensure 16-byte alignment"), but the payload starts behind a
header of 12 bytes and the first header sits at `KERNEL_HEAP_START`.

* `Untouched.step`, `Granted.step`   what a call does to the log;
* `aligned_run`                      the pointers returned are all aligned only if none is granted.

The log keeps what the clients asked for and what they got.  `krealloc` may ask for any size here.
-/

namespace FirstKernel
open ByteMem Tiling

/-! ## runs with a log -/

/-- a session, the sizes its clients asked for and the pointers they got, the latest first -/
structure AllocLog where
  t : Session
  asked : List Word
  returned : List Word

namespace HeapOp

def asks : HeapOp → List Word
  | .kmalloc n => [n]
  | .krealloc _ n => [n]
  | _ => []

def returns (s : Machine) : HeapOp → Res (List Word)
  | .kmalloc n => (FirstKernel.kmalloc s n).map fun r => [r.1]
  | .krealloc p n => (FirstKernel.krealloc s p n).map fun r => [r.1]
  | _ => .ok []

/-- `kfree` and `krealloc` on null or on pointers held, writes as in every session -/
def OnLive (t : Session) : HeapOp → Prop
  | .krealloc p _ => p = 0 ∨ p ∈ t.live
  | op => op.Allowed t

def record (l : AllocLog) (op : HeapOp) : Res AllocLog :=
  (op.exec l.t).bind fun t' => (op.returns l.t.s).map fun r =>
    ⟨t', op.asks ++ l.asked, r ++ l.returned⟩

end HeapOp

def alignSystem : Run.System AllocLog HeapOp where
  init l := ∃ s, l = ⟨⟨initHeap s, []⟩, [], []⟩
  step l op l' := op.OnLive l.t ∧ op.record l = .ok l'

/-- a request the heap can meet while it is one free block -/
def Grantable (n : Word) : Prop := n ≠ 0 ∧ need n ≤ 0x007FFFF4

instance (n : Word) : Decidable (Grantable n) :=
  inferInstanceAs (Decidable (n ≠ 0 ∧ need n ≤ 0x007FFFF4))

/-- nothing was granted so far: the heap is one free block -/
structure Untouched (l : AllocLog) : Prop where
  held : Held l.t [initBlock]
  asked : ∀ n ∈ l.asked, ¬ Grantable n
  returned : ∀ p ∈ l.returned, p = 0

/-- the first block was handed out -/
structure Granted (l : AllocLog) : Prop where
  asked : ∃ n ∈ l.asked, Grantable n
  returned : 0x0080000C ∈ l.returned

section
variable {l l' : AllocLog} {op : HeapOp} {n : Word}

theorem record_ok (h : op.record l = .ok l') : ∃ t' r, op.exec l.t = .ok t' ∧
    op.returns l.t.s = .ok r ∧ l' = ⟨t', op.asks ++ l.asked, r ++ l.returned⟩ := by
  rw [HeapOp.record] at h
  cases he : op.exec l.t with
  | error f =>
    rw [he] at h
    cases h
  | ok t' =>
    cases hr : op.returns l.t.s with
    | error f =>
      rw [he, hr] at h
      cases h
    | ok r =>
      rw [he, hr] at h
      cases h
      exact ⟨t', r, rfl, rfl, rfl⟩

theorem Untouched.live (h : Untouched l) : l.t.live = [] := by
  refine List.eq_nil_iff_forall_not_mem.mpr fun p hp => ?_
  obtain ⟨n, b, hb, hf, _⟩ := (h.held.mem p).mp hp
  rw [List.mem_singleton.mp hb] at hf
  cases hf

theorem fits_initBlock : fits (need n) initBlock = true ↔ need n ≤ 0x007FFFF4 :=
  fits_iff.trans (and_iff_right rfl)

/-- a refused request changes nothing but the screen -/
theorem kmalloc_refused {s : Machine} (h : HeapBlocks s [initBlock]) (hn : ¬ Grantable n) :
    ∃ s', kmalloc s n = .ok (0, s') ∧ HeapBlocks s' [initBlock] := by
  have hcase : n = 0 ∨ alloc 12 16 (need n) [initBlock] = none := by
    by_cases h0 : n = 0
    · exact .inl h0
    · refine .inr (alloc_eq_none.mpr fun b hb => ?_)
      rw [List.mem_singleton.mp hb]
      exact Bool.eq_false_iff.mpr fun hf => hn ⟨h0, fits_initBlock.mp hf⟩
  obtain ⟨s', e, hm, hl⟩ := kmalloc_none h hcase
  exact ⟨s', e, h.congr hl fun b _ x _ _ => by rw [hm]⟩

theorem kmalloc_granted {s : Machine} (h : HeapBlocks s [initBlock]) (hn : Grantable n) :
    ∃ s', kmalloc s n = .ok (0x0080000C, s') := by
  have ha : alloc 12 16 (need n) [initBlock] = some (0x00800000, carve 12 16 (need n) initBlock) := by
    rw [alloc, if_pos (fits_initBlock.mpr hn.2), List.append_nil]
    rfl
  obtain ⟨p, s', e, hp, _⟩ := kmalloc_some h hn.1 ha
  have hp' : p = 0x0080000C := BitVec.eq_of_toNat_eq hp
  exact ⟨s', by rw [e, hp']⟩

theorem Untouched.kmalloc (h : Untouched l) (e : HeapOp.record l (.kmalloc n) = .ok l') :
    Untouched l' ∨ Granted l' := by
  obtain ⟨t', r, he, hr, rfl⟩ := record_ok e
  by_cases hn : Grantable n
  · obtain ⟨s', ek⟩ := kmalloc_granted h.held.blocks hn
    rw [HeapOp.returns, ek] at hr
    cases hr
    exact .inr ⟨⟨n, List.mem_cons_self, hn⟩, List.mem_cons_self⟩
  · obtain ⟨s', ek, hb⟩ := kmalloc_refused h.held.blocks hn
    rw [exec_kmalloc ek, if_pos rfl] at he
    rw [HeapOp.returns, ek] at hr
    cases he
    cases hr
    refine .inl ⟨⟨hb, h.held.nodup, h.held.mem⟩, ?_, ?_⟩
    · exact List.forall_mem_cons.mpr ⟨hn, h.asked⟩
    · exact List.forall_mem_cons.mpr ⟨rfl, h.returned⟩

theorem Untouched.kfree (h : Untouched l) (e : HeapOp.record l (.kfree 0) = .ok l') :
    Untouched l' := by
  obtain ⟨t', r, he, hr, rfl⟩ := record_ok e
  rw [HeapOp.exec, kfree_null, List.erase_of_not_mem h.held.not_null] at he
  cases he
  cases hr
  exact ⟨h.held, h.asked, h.returned⟩

theorem Untouched.krealloc (h : Untouched l) (e : HeapOp.record l (.krealloc 0 n) = .ok l') :
    Untouched l' ∨ Granted l' := by
  by_cases hn : n = 0
  · obtain ⟨t', r, he, hr, rfl⟩ := record_ok e
    rw [hn, HeapOp.exec, krealloc_zero, kfree_null] at he
    rw [hn, HeapOp.returns, krealloc_zero] at hr
    cases he
    cases hr
    refine .inl ⟨?_, ?_, ?_⟩
    · show Held ⟨l.t.s, l.t.live.erase 0⟩ [initBlock]
      rw [List.erase_of_not_mem h.held.not_null]
      exact h.held
    · exact List.forall_mem_cons.mpr ⟨fun hg => hg.1 hn, h.asked⟩
    · exact List.forall_mem_cons.mpr ⟨rfl, h.returned⟩
  · -- with a size, `krealloc` of null is `kmalloc`
    have hx : HeapOp.record l (.krealloc 0 n) = HeapOp.record l (.kmalloc n) := by
      unfold HeapOp.record HeapOp.exec HeapOp.returns
      simp only [krealloc_null l.t.s hn, if_neg hn, List.erase_of_not_mem h.held.not_null]
      rfl
    exact h.kmalloc (hx ▸ e)

theorem Untouched.step (h : Untouched l) (ha : op.OnLive l.t) (e : op.record l = .ok l') :
    Untouched l' ∨ Granted l' := by
  have hnull : ∀ p, p = 0 ∨ p ∈ l.t.live → p = 0 := by
    intro p hp
    rw [h.live] at hp
    exact hp.resolve_right List.not_mem_nil
  cases op with
  | kmalloc n => exact h.kmalloc e
  | kfree p =>
    rw [hnull p ha] at e
    exact .inl (h.kfree e)
  | krealloc p n =>
    rw [hnull p ha] at e
    exact h.krealloc e
  | write x b =>
    obtain ⟨t', r, he, hr, rfl⟩ := record_ok e
    cases he
    cases hr
    exact .inl ⟨held_write h.held ha, h.asked, h.returned⟩

theorem Granted.step (h : Granted l) (e : op.record l = .ok l') : Granted l' := by
  obtain ⟨t', r, _, _, rfl⟩ := record_ok e
  obtain ⟨n, hn, hg⟩ := h.asked
  exact ⟨⟨n, List.mem_append_right _ hn, hg⟩, List.mem_append_right _ h.returned⟩

end

theorem untouched_or_granted {l : AllocLog} (h : Run.Reachable alignSystem l) :
    Untouched l ∨ Granted l := by
  refine h.invariant ?_ ?_
  · rintro l ⟨s, rfl⟩
    exact .inl ⟨held_init s, by simp, by simp⟩
  · rintro l op l' _ (hu | ho) ⟨ha, e⟩
    · exact hu.step ha e
    · exact .inr (ho.step e)

/-- **Over a run every returned pointer is a multiple of 16 exactly when no call was granted
anything.** -/
theorem aligned_run (l : AllocLog) (h : Run.Reachable alignSystem l) :
    (∀ p ∈ l.returned, p ≠ 0 → p.toNat % 16 = 0) ↔
      ∀ n ∈ l.asked, n = 0 ∨ 0x007FFFF4 < need n := by
  have hg : ∀ n, ¬ Grantable n ↔ n = 0 ∨ 0x007FFFF4 < need n := by
    intro n
    rw [Grantable, not_and_or, ne_eq, not_not, Nat.not_le]
  rcases untouched_or_granted h with hu | ho
  · refine iff_of_true (fun p hp hp0 => absurd (hu.returned p hp) hp0) fun n hn => ?_
    exact (hg n).mp (hu.asked n hn)
  · obtain ⟨n, hn, hgr⟩ := ho.asked
    refine iff_of_false (fun hall => ?_) fun hall => (hg n).mpr (hall n hn) hgr
    exact absurd (hall _ ho.returned (by decide)) (by decide)

theorem reachable_kmalloc {n : Word} {l : AllocLog}
    (e : HeapOp.record ⟨⟨initHeap bootMachine, []⟩, [], []⟩ (.kmalloc n) = .ok l) :
    Run.Reachable alignSystem l := by
  have hs : alignSystem.step ⟨⟨initHeap bootMachine, []⟩, [], []⟩ (.kmalloc n) l := ⟨trivial, e⟩
  exact .step (.init ⟨bootMachine, rfl⟩) hs

/-- after one request of 8 MiB, refused -/
theorem aligned_run_refused : ∃ l : AllocLog, l.asked = [0x00800000] ∧
    ∀ p ∈ l.returned, p ≠ 0 → p.toNat % 16 = 0 := by
  obtain ⟨l, e, ha⟩ : ∃ l, HeapOp.record ⟨⟨initHeap bootMachine, []⟩, [], []⟩
      (.kmalloc 0x00800000) = .ok l ∧ l.asked = [0x00800000] := ⟨_, rfl, rfl⟩
  have hr := reachable_kmalloc e
  refine ⟨l, ha, (aligned_run l hr).mpr fun n hn => .inr ?_⟩
  rw [ha] at hn
  rw [List.mem_singleton.mp hn]
  decide

/-- the first `kmalloc(16)` after `init_heap` returns 0x0080000C -/
theorem aligned_run_fails : ¬ ∀ l : AllocLog, Run.Reachable alignSystem l →
    ∀ p ∈ l.returned, p ≠ 0 → p.toNat % 16 = 0 := by
  intro hall
  obtain ⟨l, e, hp⟩ : ∃ l, HeapOp.record ⟨⟨initHeap bootMachine, []⟩, [], []⟩ (.kmalloc 16) = .ok l ∧
      l.returned = [0x0080000C] := ⟨_, rfl, rfl⟩
  have hr := reachable_kmalloc e
  have := hall l hr 0x0080000C (by rw [hp]; exact List.mem_singleton_self _) (by decide)
  exact absurd this (by decide)

end FirstKernel
