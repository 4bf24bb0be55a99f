import FirstKernel.Frames.Spec
import FirstKernel.Lib.Run
import FirstKernel.Lib.SetAlloc
import Mathlib.Data.Finset.Card
import Mathlib.Data.List.Nodup

/-!
# Runs of the frame allocator

A session is the allocator together with the frames its clients hold.  The clients allocate, free
frames they hold and write inside them.

* `usedSet`            the set the bitmap stands for: the reserved frames and those handed out;
* `Tracks.refines`     one call does to `usedSet` what a first-fit set allocator does;
* `frames_refine_set`  the set, the bitmap and the counter agree in every reachable session.
-/

namespace FirstKernel
open ByteMem

structure FrameSession where
  p : Pmm
  out : List Word

inductive FrameOp where
  | allocate
  | free (f : Word)
  | write (x : Nat) (b : Byte)

/-- what the clients of a session may do -/
def FrameOp.Allowed (t : FrameSession) : FrameOp → Prop
  | .allocate => True
  | .free f => f ∈ t.out
  | .write x _ => ∃ f ∈ t.out, f.toNat ≤ x ∧ x < f.toNat + pageSize.toNat

/-- the call, and the frames held after it -/
def FrameOp.exec (t : FrameSession) : FrameOp → FrameSession
  | .allocate =>
    let r := t.p.allocateFrame
    ⟨r.2, if r.1 = 0 then t.out else r.1 :: t.out⟩
  | .free f => ⟨t.p.freeFrame f, t.out.erase f⟩
  | .write x b => ⟨{ t.p with mem := store8 t.p.mem x b }, t.out⟩

def frameSystem (memUpper kernelEnd : Word) : Run.System FrameSession FrameOp where
  init t := ∃ mem, Pmm.initialize (Pmm.boot mem kernelEnd) memUpper = .ok t.p ∧ t.out = []
  step t op t' := op.Allowed t ∧ t' = op.exec t

theorem reachable_exec {memUpper kernelEnd : Word} {t : FrameSession}
    (h : Run.Reachable (frameSystem memUpper kernelEnd) t) (op : FrameOp) (ha : op.Allowed t) :
    Run.Reachable (frameSystem memUpper kernelEnd) (op.exec t) := h.step ⟨ha, rfl⟩

/-- number of the frame at an address -/
def frameIndex (f : Word) : Nat := f.toNat / 4096

/-- the reserved frames and the frames handed out and not yet freed -/
def usedSet (memUpper kernelEnd : Word) (out : List Word) : Finset Nat :=
  Finset.range (reservedFrames memUpper kernelEnd) ∪ (out.map frameIndex).toFinset

/-- an address that `allocate_frame` may hand out: a whole frame past the reserved ones -/
structure Frame (memUpper kernelEnd f : Word) : Prop where
  aligned : f.toNat = 4096 * frameIndex f
  fresh : reservedFrames memUpper kernelEnd ≤ frameIndex f
  total : frameIndex f < frameCount memUpper

/-- the bitmap and the counter describe `usedSet` -/
structure Tracks (memUpper kernelEnd : Word) (t : FrameSession) : Prop where
  total : t.p.totalFrames.toNat = frameCount memUpper
  bitmap : t.p.bitmap.toNat = bitmapStart kernelEnd
  bit : ∀ i, i < 32 * bitmapWords memUpper →
    t.p.bit i = decide (i ∈ usedSet memUpper kernelEnd t.out)
  count : t.p.usedFrames.toNat = (usedSet memUpper kernelEnd t.out).card
  nodup : t.out.Nodup
  frame : ∀ f ∈ t.out, Frame memUpper kernelEnd f

theorem frame_addr {n : Nat} (hn : n < 2^20) : (BitVec.ofNat 32 (4096 * n) : Word).toNat = 4096 * n ∧
    frameIndex (BitVec.ofNat 32 (4096 * n)) = n := by
  have haddr : (BitVec.ofNat 32 (4096 * n) : Word).toNat = 4096 * n := by
    rw [BitVec.toNat_ofNat, Nat.mod_eq_of_lt (by omega)]
  refine ⟨haddr, ?_⟩
  unfold frameIndex
  rw [haddr]
  omega

section
variable {memUpper kernelEnd : Word} {t : FrameSession}

theorem mem_usedSet {out : List Word} {i : Nat} : i ∈ usedSet memUpper kernelEnd out ↔
    i < reservedFrames memUpper kernelEnd ∨ ∃ f ∈ out, frameIndex f = i := by
  unfold usedSet
  rw [Finset.mem_union, Finset.mem_range, List.mem_toFinset, List.mem_map]

theorem usedSet_cons (f : Word) (out : List Word) : usedSet memUpper kernelEnd (f :: out)
    = insert (frameIndex f) (usedSet memUpper kernelEnd out) := by
  unfold usedSet
  rw [List.map_cons, List.toFinset_cons, Finset.union_insert]

theorem Frame.inj {f g : Word} (hf : Frame memUpper kernelEnd f) (hg : Frame memUpper kernelEnd g)
    (h : frameIndex f = frameIndex g) : f = g :=
  BitVec.eq_of_toNat_eq (by rw [hf.aligned, hg.aligned, h])

theorem Tracks.subset (h : Tracks memUpper kernelEnd t) (hfit : Fits memUpper kernelEnd) :
    usedSet memUpper kernelEnd t.out ⊆ Finset.range (frameCount memUpper) := by
  intro i hi
  rw [Finset.mem_range]
  rcases mem_usedSet.mp hi with hr | ⟨f, hf, rfl⟩
  · have := hfit.bounds
    omega
  · exact (h.frame f hf).total

/-- a freed frame leaves the set -/
theorem Tracks.usedSet_erase (h : Tracks memUpper kernelEnd t) {f : Word} (hf : f ∈ t.out) :
    usedSet memUpper kernelEnd (t.out.erase f)
      = (usedSet memUpper kernelEnd t.out).erase (frameIndex f) := by
  have hfr := h.frame f hf
  ext i
  rw [Finset.mem_erase, mem_usedSet, mem_usedSet]
  constructor
  · rintro (hr | ⟨g, hg, rfl⟩)
    · exact ⟨fun e => absurd hfr.fresh (by omega), .inl hr⟩
    · have hg' := h.nodup.mem_erase_iff.mp hg
      exact ⟨fun e => hg'.1 ((h.frame g hg'.2).inj hfr e), .inr ⟨g, hg'.2, rfl⟩⟩
  · rintro ⟨hne, hr | ⟨g, hg, rfl⟩⟩
    · exact .inl hr
    · refine .inr ⟨g, h.nodup.mem_erase_iff.mpr ⟨?_, hg⟩, rfl⟩
      rintro rfl
      exact hne rfl

theorem tracks_init (hfit : Fits memUpper kernelEnd) (mem : Mem) :
    ∃ p, Pmm.initialize (Pmm.boot mem kernelEnd) memUpper = .ok p ∧
      Tracks memUpper kernelEnd ⟨p, []⟩ := by
  have hset : usedSet memUpper kernelEnd [] = Finset.range (reservedFrames memUpper kernelEnd) :=
    Finset.union_empty _
  obtain ⟨p, e, h1, h2, h3, h4⟩ := initialize_spec mem hfit
  refine ⟨p, e, h2, h1, fun i hi => ?_, ?_, List.nodup_nil, ?_⟩
  · rw [h4 i hi, hset]
    simp
  · rw [h3, hset, Finset.card_range]
  · intro f hf
    cases hf

/-! ## one call -/

theorem words_cover (memUpper : Word) : frameCount memUpper ≤ 32 * bitmapWords memUpper := by
  unfold bitmapWords
  omega

/-- **`allocate_frame` hands out the unit that first fit takes from the set.** -/
theorem allocate_spec (h : Tracks memUpper kernelEnd t) (hfit : Fits memUpper kernelEnd) :
    match SetAlloc.next (frameCount memUpper) (usedSet memUpper kernelEnd t.out) with
    | none => t.p.allocateFrame = (0, t.p)
    | some n => t.p.allocateFrame = (BitVec.ofNat 32 (4096 * n),
        { t.p.setFrame (BitVec.ofNat 32 n) with usedFrames := t.p.usedFrames + 1 }) := by
  have hb := hfit.bounds
  have hcover := words_cover memUpper
  rcases firstFree_spec t.p (by rw [h.total]; omega) with ⟨n, e, h1, h2, h3⟩ | ⟨e, h1⟩
  · rw [h.total] at h1
    have hnext : SetAlloc.next (frameCount memUpper) (usedSet memUpper kernelEnd t.out)
        = some n := by
      refine SetAlloc.next_eq_some.mpr ⟨h1, ?_, fun m hm => ?_⟩
      · have := h.bit n (by omega)
        rw [h2] at this
        exact of_decide_eq_false this.symm
      · have := h.bit m (by omega)
        rw [h3 m hm] at this
        exact of_decide_eq_true this.symm
    rw [hnext]
    exact allocateFrame_some (by omega) e
  · have hnext : SetAlloc.next (frameCount memUpper) (usedSet memUpper kernelEnd t.out) = none := by
      refine SetAlloc.next_eq_none.mpr fun m hm => ?_
      rw [Finset.mem_range] at hm
      have := h.bit m (by omega)
      rw [h1 m (by rw [h.total]; exact hm)] at this
      exact of_decide_eq_true this.symm
    rw [hnext]
    exact allocateFrame_none e

theorem tracks_allocate (h : Tracks memUpper kernelEnd t) (hfit : Fits memUpper kernelEnd) :
    Tracks memUpper kernelEnd (FrameOp.exec t .allocate) := by
  have hb := hfit.bounds
  have hspec := allocate_spec h hfit
  cases hn : SetAlloc.next (frameCount memUpper) (usedSet memUpper kernelEnd t.out) with
  | none =>
    rw [hn] at hspec
    have e : FrameOp.exec t .allocate = t := by
      show (⟨t.p.allocateFrame.2, _⟩ : FrameSession) = t
      rw [hspec]
      rfl
    rw [e]
    exact h
  | some n =>
    rw [hn] at hspec
    obtain ⟨htot, hnew, _⟩ := SetAlloc.next_eq_some.mp hn
    have hres : reservedFrames memUpper kernelEnd ≤ n := by
      by_contra hlt
      exact hnew (mem_usedSet.mpr (.inl (by omega)))
    obtain ⟨haddr, hidx⟩ := frame_addr (n := n) (by omega)
    have hnat : (BitVec.ofNat 32 n : Word).toNat = n := by
      rw [BitVec.toNat_ofNat, Nat.mod_eq_of_lt (by omega)]
    have hne : (BitVec.ofNat 32 (4096 * n) : Word) ≠ 0 := by
      intro e
      rw [e] at haddr
      exact absurd haddr (by show 0 ≠ 4096 * n; omega)
    have hout : BitVec.ofNat 32 (4096 * n) ∉ t.out := fun hm =>
      hnew (mem_usedSet.mpr (.inr ⟨_, hm, hidx⟩))
    have hset : usedSet memUpper kernelEnd (BitVec.ofNat 32 (4096 * n) :: t.out)
        = insert n (usedSet memUpper kernelEnd t.out) := by rw [usedSet_cons, hidx]
    have hcard := Finset.card_le_card (h.subset hfit)
    rw [Finset.card_range] at hcard
    have e : FrameOp.exec t .allocate = ⟨{ t.p.setFrame (BitVec.ofNat 32 n) with
        usedFrames := t.p.usedFrames + 1 }, BitVec.ofNat 32 (4096 * n) :: t.out⟩ := by
      show (⟨t.p.allocateFrame.2, _⟩ : FrameSession) = _
      simp only [hspec]
      rw [if_neg hne]
    rw [e]
    refine ⟨h.total, h.bitmap, fun i hi => ?_, ?_, List.nodup_cons.mpr ⟨hout, h.nodup⟩, ?_⟩
    · rw [bit_used, bit_setFrame, h.bit i hi, hnat, hset, ← Bool.decide_or]
      simp only [Finset.mem_insert, or_comm]
    · rw [hset, Finset.card_insert_of_notMem hnew, ← h.count]
      show (t.p.usedFrames + 1#32).toNat = _
      have e1 : (1#32 : Word).toNat = 1 := rfl
      rw [BitVec.toNat_add, e1, Nat.mod_eq_of_lt (by rw [h.count]; omega)]
    · intro f hf
      rcases List.mem_cons.mp hf with rfl | hf
      · exact ⟨by rw [hidx, haddr], by omega, by omega⟩
      · exact h.frame f hf

theorem tracks_free (h : Tracks memUpper kernelEnd t) {f : Word} (hf : f ∈ t.out) :
    Tracks memUpper kernelEnd (FrameOp.exec t (.free f)) := by
  have hidx : (f / pageSize).toNat = frameIndex f := BitVec.toNat_udiv
  have hmem : frameIndex f ∈ usedSet memUpper kernelEnd t.out := mem_usedSet.mpr (.inr ⟨f, hf, rfl⟩)
  have hset := h.usedSet_erase hf
  refine ⟨h.total, h.bitmap, fun i hi => ?_, ?_, h.nodup.erase f, fun g hg => ?_⟩
  · show (t.p.clearFrame (f / pageSize)).bit i = decide (i ∈ usedSet _ _ (t.out.erase f))
    rw [bit_clearFrame, h.bit i hi, hidx, hset, ← Bool.decide_and]
    simp only [Finset.mem_erase, and_comm]
  · show (t.p.usedFrames - 1#32).toNat = (usedSet _ _ (t.out.erase f)).card
    have hpos := Finset.card_pos.mpr ⟨_, hmem⟩
    have hcount := h.count
    rw [hset, Finset.card_erase_of_mem hmem, ← hcount]
    bv_omega
  · exact h.frame g (List.mem_of_mem_erase hg)

/-- a client that writes inside its own frame does not reach the bitmap -/
theorem tracks_write (h : Tracks memUpper kernelEnd t) {x : Nat} {b : Byte}
    (ha : FrameOp.Allowed t (.write x b)) : Tracks memUpper kernelEnd (FrameOp.exec t (.write x b)) := by
  obtain ⟨f, hf, hx, _⟩ := ha
  have hfr := h.frame f hf
  refine ⟨h.total, h.bitmap, fun i hi => ?_, h.count, h.nodup, h.frame⟩
  have hword : Pmm.word { t.p with mem := store8 t.p.mem x b } (i / 32) = t.p.word (i / 32) := by
    refine load32_store8_of_ne _ _ _ _ (.inr ?_)
    have h1 := hfr.aligned
    have h2 := hfr.fresh
    show t.p.bitmap.toNat + 4 * (i / 32) + 4 ≤ x
    rw [h.bitmap]
    unfold reservedFrames bitmapEnd at h2
    omega
  refine Eq.trans ?_ (h.bit i hi)
  exact congrArg (fun w : Word => w.getLsbD (i % 32)) hword

/-- **Each call keeps the bitmap and the counter equal to the set.** -/
theorem tracks_step (h : Tracks memUpper kernelEnd t) (hfit : Fits memUpper kernelEnd) {op : FrameOp}
    (ha : op.Allowed t) : Tracks memUpper kernelEnd (op.exec t) := by
  cases op with
  | allocate => exact tracks_allocate h hfit
  | free f => exact tracks_free h ha
  | write x b => exact tracks_write h ha

theorem tracks_reachable (hfit : Fits memUpper kernelEnd)
    (h : Run.Reachable (frameSystem memUpper kernelEnd) t) : Tracks memUpper kernelEnd t := by
  refine h.invariant ?_ ?_
  · rintro ⟨p, out⟩ ⟨mem, e, rfl⟩
    obtain ⟨p', e', h'⟩ := tracks_init hfit mem
    rw [e] at e'
    cases e'
    exact h'
  · rintro t op t' _ ht ⟨ha, rfl⟩
    exact tracks_step ht hfit ha

/-! ## the set, as a session shows it -/

/-- a session's answers are those of a first-fit allocator over `usedSet` -/
structure RefinesSet (memUpper kernelEnd : Word) (t : FrameSession) : Prop where
  total : t.p.totalFrames.toNat = frameCount memUpper
  inside : usedSet memUpper kernelEnd t.out ⊆ Finset.range (frameCount memUpper)
  tested : ∀ f : Word, f.toNat < frameCount memUpper →
    (t.p.testFrame f ≠ 0 ↔ f.toNat ∈ usedSet memUpper kernelEnd t.out)
  beyond : ∀ i, frameCount memUpper ≤ i → i < 32 * (bitmapSize t.p.totalFrames).toNat →
    t.p.bit i = false
  used : t.p.usedFrames.toNat = (usedSet memUpper kernelEnd t.out).card
  free : t.p.getFreeFrames.toNat = frameCount memUpper - (usedSet memUpper kernelEnd t.out).card
  full : t.p.allocateFrame.1 = 0 ↔
    usedSet memUpper kernelEnd t.out = Finset.range (frameCount memUpper)
  unchanged : t.p.allocateFrame.1 = 0 → t.p.allocateFrame.2 = t.p
  least : t.p.allocateFrame.1 ≠ 0 → ∃ n, t.p.allocateFrame.1.toNat = 4096 * n ∧
    n < frameCount memUpper ∧ n ∉ usedSet memUpper kernelEnd t.out ∧
    ∀ m, m < n → m ∈ usedSet memUpper kernelEnd t.out
  distinct : t.out.Nodup
  apart : ∀ f ∈ t.out, ∀ g ∈ t.out, f ≠ g → f.toNat + 4096 ≤ g.toNat ∨ g.toNat + 4096 ≤ f.toNat
  clear : ∀ f ∈ t.out, kernelEnd.toNat ≤ f.toNat ∧ bitmapEnd memUpper kernelEnd ≤ f.toNat

theorem Tracks.full_iff (h : Tracks memUpper kernelEnd t) (hfit : Fits memUpper kernelEnd) :
    SetAlloc.next (frameCount memUpper) (usedSet memUpper kernelEnd t.out) = none ↔
      usedSet memUpper kernelEnd t.out = Finset.range (frameCount memUpper) := by
  rw [SetAlloc.next_eq_none]
  exact ⟨fun hs => Finset.Subset.antisymm (h.subset hfit) hs, fun e => e ▸ Finset.Subset.refl _⟩

theorem Tracks.refines (h : Tracks memUpper kernelEnd t) (hfit : Fits memUpper kernelEnd) :
    RefinesSet memUpper kernelEnd t := by
  have hb := hfit.bounds
  have hcover := words_cover memUpper
  have hwords : (bitmapSize t.p.totalFrames).toNat = bitmapWords memUpper := by
    rw [toNat_bitmapSize, h.total]
    rfl
  have hcard := Finset.card_le_card (h.subset hfit)
  rw [Finset.card_range] at hcard
  -- the answer of `allocate_frame` is null exactly when first fit finds nothing
  have hanswer : (t.p.allocateFrame = (0, t.p) ∧
        usedSet memUpper kernelEnd t.out = Finset.range (frameCount memUpper)) ∨
      ∃ n, t.p.allocateFrame.1.toNat = 4096 * n ∧ t.p.allocateFrame.1 ≠ 0 ∧
        n < frameCount memUpper ∧ n ∉ usedSet memUpper kernelEnd t.out ∧
        ∀ m, m < n → m ∈ usedSet memUpper kernelEnd t.out := by
    have hspec := allocate_spec h hfit
    cases hn : SetAlloc.next (frameCount memUpper) (usedSet memUpper kernelEnd t.out) with
    | none =>
      rw [hn] at hspec
      exact .inl ⟨hspec, (h.full_iff hfit).mp hn⟩
    | some n =>
      rw [hn] at hspec
      obtain ⟨h1, h2, h3⟩ := SetAlloc.next_eq_some.mp hn
      have hpos : n ≠ 0 := by
        rintro rfl
        exact h2 (mem_usedSet.mpr (.inl (by omega)))
      have haddr := (frame_addr (n := n) (by omega)).1
      right
      simp only [hspec]
      refine ⟨n, haddr, fun e => ?_, h1, h2, h3⟩
      rw [e] at haddr
      exact absurd haddr (by show 0 ≠ 4096 * n; omega)
  refine ⟨h.total, h.subset hfit, fun f hf => ?_, fun i h1 h2 => ?_, h.count, ?_, ?_, ?_, ?_,
    h.nodup, fun f hf g hg hne => ?_, fun f hf => ?_⟩
  · rw [testFrame_iff, h.bit f.toNat (by omega), decide_eq_true_iff]
  · rw [hwords] at h2
    rw [h.bit i h2]
    refine decide_eq_false fun hm => ?_
    exact absurd (Finset.mem_range.mp (h.subset hfit hm)) (by omega)
  · have htotal := h.total
    have hcount := h.count
    unfold Pmm.getFreeFrames
    rw [BitVec.toNat_sub_of_le (by rw [BitVec.le_def]; omega), htotal, hcount]
  · rcases hanswer with ⟨e, hu⟩ | ⟨n, _, hne, h1, h2, _⟩
    · exact ⟨fun _ => hu, fun _ => by rw [e]⟩
    · refine ⟨fun e => absurd e hne, fun hu => absurd ?_ h2⟩
      rw [hu]
      exact Finset.mem_range.mpr h1
  · rcases hanswer with ⟨e, _⟩ | ⟨n, _, hne, _⟩
    · exact fun _ => by rw [e]
    · exact fun e => absurd e hne
  · rcases hanswer with ⟨e, _⟩ | ⟨n, h0, _, h1⟩
    · exact fun hne => absurd (by rw [e]) hne
    · exact fun _ => ⟨n, h0, h1⟩
  · have h1 := (h.frame f hf).aligned
    have h2 := (h.frame g hg).aligned
    have hidx : frameIndex f ≠ frameIndex g := fun e => hne ((h.frame f hf).inj (h.frame g hg) e)
    omega
  · have h1 := (h.frame f hf).aligned
    have h2 := (h.frame f hf).fresh
    unfold reservedFrames bitmapEnd bitmapStart at *
    omega

/-- **In every run the bitmap allocator answers as a first-fit allocator over the set of reserved
and outstanding frames, and `initialize` returns.** -/
theorem frames_refine_set (memUpper kernelEnd : Word) (hfit : Fits memUpper kernelEnd) :
    (∀ mem, ∃ p, Pmm.initialize (Pmm.boot mem kernelEnd) memUpper = .ok p) ∧
    ∀ t, Run.Reachable (frameSystem memUpper kernelEnd) t → RefinesSet memUpper kernelEnd t := by
  constructor
  · intro mem
    obtain ⟨p, e, _⟩ := tracks_init hfit mem
    exact ⟨p, e⟩
  · intro t ht
    exact (tracks_reachable hfit ht).refines hfit

end

/-- 1 MiB with the kernel below `0x20010`: two frames handed out, the first one given back -/
theorem frames_refine_set_two :
    ∃ t : FrameSession, t.out = [0x23000] ∧ RefinesSet 0 0x20010 t := by
  obtain ⟨p, e, h2, h3⟩ : ∃ p, Pmm.initialize (Pmm.boot (fun _ => 0) 0x20010) 0 = .ok p ∧
      (FrameOp.exec (FrameOp.exec ⟨p, []⟩ .allocate) .allocate).out = [0x23000, 0x22000] ∧
      (FrameOp.exec (FrameOp.exec (FrameOp.exec ⟨p, []⟩ .allocate) .allocate)
        (.free 0x22000)).out = [0x23000] := ⟨_, rfl, by decide +kernel, by decide +kernel⟩
  have hr : Run.Reachable (frameSystem 0 0x20010) ⟨p, []⟩ := .init ⟨_, e, rfl⟩
  have hr2 := reachable_exec (reachable_exec hr .allocate trivial) .allocate trivial
  have hmem : (0x22000 : Word) ∈
      (FrameOp.exec (FrameOp.exec ⟨p, []⟩ .allocate) .allocate).out := by
    rw [h2]
    decide
  exact ⟨_, h3, (frames_refine_set 0 0x20010 ⟨by decide, by decide⟩).2 _ (reachable_exec hr2 _ hmem)⟩

end FirstKernel
