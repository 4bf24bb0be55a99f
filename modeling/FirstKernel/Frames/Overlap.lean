import FirstKernel.Frames.Run
import FirstKernel.Heap.Run

/-!
# Frames and the heap

`initialize` reserves the frames up to the end of its bitmap; the heap range, the frames 2048 to 4095,
is not among them.  `Physical` is the machine with both allocators on one memory.

* `mark_fields`, `initialize_fits`   the state `initialize` leaves, also when `mem_upper` wraps;
* `held_off`                         `kmalloc` and `kfree` stay inside the heap;
* `Parted`                           the invariant, kept by every call (`Parted.step`);
* `frames_clear_iff`                 no frame handed out meets the heap exactly as long as each was
                                     asked for with less than 2048 frames in use.
-/

namespace FirstKernel
open ByteMem Tiling

/-- number of the first frame of the heap -/
def heapFrame : Nat := 2048

/-- the frame `[a, a + 4096)` meets the heap range -/
def MeetsHeap (a : Word) : Prop :=
  a.toNat < kernelHeapStart.toNat + kernelHeapSize.toNat ∧
    kernelHeapStart.toNat < a.toNat + pageSize.toNat

/-- `initialize` placed the bitmap below the heap -/
def Pmm.BelowHeap (p : Pmm) : Prop :=
  p.bitmap.toNat + 4 * (bitmapSize p.totalFrames).toNat ≤ kernelHeapStart.toNat

/-- a frame below the heap is left, or no frame is past its start -/
def Pmm.Spare (p : Pmm) : Prop := p.totalFrames.toNat ≤ heapFrame ∨ p.usedFrames.toNat < heapFrame

/-- one memory with the static members of both allocators and what their clients hold; `handed` are
all frames handed out so far, and `spared` says that each call for one found one to spare -/
structure Physical where
  frames : FrameSession
  freeList : Word
  console : List Printf
  live : List Word
  handed : List Word
  spared : Prop

def Physical.heap (t : Physical) : Session := ⟨⟨t.frames.p.mem, t.freeList, t.console⟩, t.live⟩

def Physical.setHeap (t : Physical) (h : Session) : Physical :=
  { t with frames := ⟨{ t.frames.p with mem := h.s.mem }, t.frames.out⟩, freeList := h.s.freeList,
           console := h.s.console, live := h.live }

/-- `init_heap` after `initialize` -/
def Physical.start (p : Pmm) : Physical :=
  Physical.setHeap ⟨⟨p, []⟩, 0, [], [], [], True⟩ ⟨initHeap ⟨p.mem, 0, []⟩, []⟩

inductive PhysicalOp where
  | allocateFrame
  | freeFrame (frame : Word)
  | kmalloc (size : Word)
  | kfree (ptr : Word)

/-- frames are given back by those who hold them, and so are pointers -/
def PhysicalOp.Allowed (t : Physical) : PhysicalOp → Prop
  | .allocateFrame => True
  | .freeFrame frame => frame ∈ t.frames.out
  | .kmalloc _ => True
  | .kfree ptr => ptr = 0 ∨ ptr ∈ t.live

def PhysicalOp.exec (t : Physical) : PhysicalOp → Res Physical
  | .allocateFrame =>
    let frame := t.frames.p.allocateFrame.1
    .ok { t with frames := FrameOp.exec t.frames .allocate,
                 handed := if frame = 0 then t.handed else frame :: t.handed,
                 spared := t.spared ∧ t.frames.p.Spare }
  | .freeFrame frame => .ok { t with frames := FrameOp.exec t.frames (.free frame) }
  | .kmalloc size => (HeapOp.exec t.heap (.kmalloc size)).map t.setHeap
  | .kfree ptr => (HeapOp.exec t.heap (.kfree ptr)).map t.setHeap

/-- runs from any `mem_upper` and `kernel_end` for which the bitmap ends up below the heap -/
def physicalSystem : Run.System Physical PhysicalOp where
  init t := ∃ mem memUpper kernelEnd p,
    Pmm.initialize (Pmm.boot mem kernelEnd) memUpper = .ok p ∧ p.BelowHeap ∧ t = Physical.start p
  step t op t' := op.Allowed t ∧ op.exec t = .ok t'

/-! ## the state that `initialize` leaves -/

theorem mark_fields {p p' : Pmm} {fuel : Nat} {a : Word} (e : p.mark fuel a = .ok p') :
    p'.bitmap = p.bitmap ∧ p'.totalFrames = p.totalFrames := by
  induction fuel generalizing p a with
  | zero => cases e
  | succ fuel ih =>
    rw [Pmm.mark] at e
    by_cases hlt : a < p.nextFreePhysical
    · rw [if_pos hlt] at e
      have e : Pmm.mark { p.setFrame (a / pageSize) with usedFrames := p.usedFrames + 1 } fuel
          (a + pageSize) = .ok p' := e
      obtain ⟨h1, h2⟩ := ih e
      exact ⟨h1, h2⟩
    · rw [if_neg hlt] at e
      cases e
      exact ⟨rfl, rfl⟩

theorem alignUp_aligned (v : Word) : (alignUp v pageSize).toNat % 4096 = 0 := by
  have e : pageSize - 1 = BitVec.ofNat 32 (2^12 - 1) := by decide
  unfold alignUp
  rw [e, Words.toNat_and_not_low]
  exact Nat.mul_mod_left _ _

/-- an aligned address is where its bitmap starts -/
theorem alignUp_alignUp (v : Word) : alignUp (alignUp v pageSize) pageSize = alignUp v pageSize ∧
    bitmapStart (alignUp v pageSize) = (alignUp v pageSize).toNat := by
  have ha := alignUp_aligned v
  have hlt := (alignUp v pageSize).isLt
  have hstart : bitmapStart (alignUp v pageSize) = (alignUp v pageSize).toNat := by
    unfold bitmapStart
    omega
  refine ⟨BitVec.eq_of_toNat_eq ?_, hstart⟩
  rw [toNat_alignUp _ (by omega), hstart]

/-- **With frames past the start of the heap, the state left is the one for some sizes that fit.** -/
theorem initialize_fits {mem : Mem} {memUpper kernelEnd : Word} {p : Pmm}
    (e : Pmm.initialize (Pmm.boot mem kernelEnd) memUpper = .ok p) (hb : p.BelowHeap)
    (htot : heapFrame < p.totalFrames.toNat) :
    ∃ m k, Fits m k ∧ reservedFrames m k ≤ heapFrame ∧
      Pmm.initialize (Pmm.boot mem k) m = .ok p := by
  have hbitmap : p.bitmap = alignUp kernelEnd pageSize := (mark_fields e).1
  have htotal : p.totalFrames = (memUpper + 1024) * 1024 / pageSize := (mark_fields e).2
  obtain ⟨halign, hstart⟩ := alignUp_alignUp kernelEnd
  unfold heapFrame at htot
  have hlt : p.totalFrames.toNat < 2^20 := by
    have h1 := ((memUpper + 1024) * 1024).isLt
    have h2 : p.totalFrames.toNat = ((memUpper + 1024) * 1024).toNat / 4096 := by
      rw [htotal]
      exact BitVec.toNat_udiv
    omega
  obtain ⟨m, hm⟩ : ∃ m : Word, m.toNat + 1024 = p.totalFrames.toNat * 4 := by
    refine ⟨BitVec.ofNat 32 (p.totalFrames.toNat * 4 - 1024), ?_⟩
    rw [BitVec.toNat_ofNat, Nat.mod_eq_of_lt (by omega)]
    omega
  have hsmall : (m.toNat + 1024) * 1024 < 2^32 := by
    rw [hm]
    omega
  have hcount : frameCount m = p.totalFrames.toNat := by
    unfold frameCount
    rw [hm]
    omega
  have hend : bitmapEnd m (alignUp kernelEnd pageSize) ≤ 0x00800000 := by
    have h1 : p.bitmap.toNat + 4 * (bitmapSize p.totalFrames).toNat ≤ 0x00800000 := hb
    rw [toNat_bitmapSize, hbitmap] at h1
    unfold bitmapEnd bitmapWords
    rw [hcount, hstart]
    exact h1
  have hfit : Fits m (alignUp kernelEnd pageSize) := ⟨hsmall, by rw [hcount]; omega⟩
  refine ⟨m, alignUp kernelEnd pageSize, hfit, ?_, ?_⟩
  · unfold reservedFrames heapFrame
    omega
  · have hsame : ((m + 1024) * 1024 / pageSize : Word) = (memUpper + 1024) * 1024 / pageSize :=
      BitVec.eq_of_toNat_eq
        (hfit.toNat_total.trans (hcount.trans (congrArg BitVec.toNat htotal)))
    rw [← e]
    unfold Pmm.initialize Pmm.boot
    simp only [hsame, halign]

theorem initHeap_out (s : Machine) {x : Nat} (hx : x < 0x00800000) : (initHeap s).mem x = s.mem x := by
  have e : kernelHeapStart.toNat = 0x00800000 := rfl
  show setFree (setNext (setSize s.mem kernelHeapStart _) kernelHeapStart 0) kernelHeapStart 1 x = _
  unfold setFree setNext setSize
  rw [store8_of_ne _ _ _ _ (by omega), store32_out _ _ _ _ (by omega), store32_out _ _ _ _ (by omega)]

/-! ## what the calls of one allocator do to the other -/

section
variable {m k : Word} {t : FrameSession}

/-- memory changes past the bitmap -/
theorem Tracks.mem (h : Tracks m k t) {mem : Mem} (hm : ∀ x, x < bitmapEnd m k → mem x = t.p.mem x) :
    Tracks m k ⟨{ t.p with mem := mem }, t.out⟩ := by
  refine ⟨h.total, h.bitmap, fun i hi => ?_, h.count, h.nodup, h.frame⟩
  have hword : Pmm.word { t.p with mem := mem } (i / 32) = t.p.word (i / 32) := by
    refine load32_congr fun x h1 h2 => hm x ?_
    have h2 : x < t.p.bitmap.toNat + 4 * (i / 32) + 4 := h2
    rw [h.bitmap] at h2
    unfold bitmapEnd
    omega
  refine Eq.trans ?_ (h.bit i hi)
  exact congrArg (fun w : Word => w.getLsbD (i % 32)) hword

/-- the words of the bitmap lie below the heap -/
theorem setWord_off {p : Pmm} (hb : p.BelowHeap) {f : Word} (hf : f.toNat < p.totalFrames.toNat) (v : Word)
    {x : Nat} (hx : ¬ Outside x) : (p.setWord (f / 32).toNat v).mem x = p.mem x := by
  have h1 : p.bitmap.toNat + 4 * (bitmapSize p.totalFrames).toNat ≤ 0x00800000 := hb
  rw [toNat_bitmapSize] at h1
  unfold Outside at hx
  refine store32_out _ _ _ _ (.inr ?_)
  rw [toNat_div32]
  omega

end

theorem held_mem {t : Session} {bs : List Block} (h : Held t bs) {mem : Mem}
    (hm : ∀ x, ¬ Outside x → mem x = t.s.mem x) : Held ⟨{ t.s with mem := mem }, t.live⟩ bs :=
  ⟨h.blocks.store rfl fun x hx => hm x hx.1, h.nodup, h.mem⟩

/-- **`kmalloc` and `kfree` change nothing off the heap.** -/
theorem held_off {t t' : Session} {bs : List Block} (h : Held t bs) {op : HeapOp} (ha : op.Allowed t)
    (hop : (∃ n, op = .kmalloc n) ∨ ∃ p, op = .kfree p) (e : op.exec t = .ok t') :
    (∃ bs', Held t' bs') ∧ ∀ x, Outside x → t'.s.mem x = t.s.mem x := by
  obtain ⟨t'', bs', e', h'⟩ := held_step h ha
  rw [e] at e'
  cases e'
  refine ⟨⟨bs', h'⟩, fun x hx => ?_⟩
  rcases hop with ⟨n, rfl⟩ | ⟨p, rfl⟩
  · rcases kmalloc_client h.blocks n with ⟨s', e1, _, hm⟩ | ⟨p, s', bs1, j, e1, _, _, hk, _⟩
    · rw [exec_kmalloc e1] at e
      cases e
      exact congrFun hm x
    · rw [exec_kmalloc e1] at e
      cases e
      exact hk.off x hx
  · cases e
    rcases ha with rfl | hp
    · show (kfree t.s 0).mem x = _
      rw [kfree_null]
    · obtain ⟨n, hn⟩ := (h.mem p).mp hp
      obtain ⟨_, _, _, hk, _⟩ := kfree_client h.blocks hn
      exact hk.off x hx

/-! ## the invariant -/

/-- the heap holds its clients' pointers; past the start of the heap the bitmap stands for the set of
used frames; the frames handed out were below the heap, or one of them was in it -/
structure Parted (t : Physical) : Prop where
  held : ∃ bs, Held t.heap bs
  below : t.frames.p.BelowHeap
  out : ∀ f ∈ t.frames.out, f ∈ t.handed
  handed : ∀ f ∈ t.handed, f.toNat = 4096 * frameIndex f ∧ frameIndex f < t.frames.p.totalFrames.toNat
  tracks : heapFrame < t.frames.p.totalFrames.toNat →
    ∃ m k, Fits m k ∧ reservedFrames m k ≤ heapFrame ∧ Tracks m k t.frames
  kept : t.spared → ∀ f ∈ t.handed, frameIndex f < heapFrame
  lost : ¬ t.spared → ∃ f ∈ t.handed, MeetsHeap f

section
variable {t t' : Physical}

theorem Parted.total_le (h : Parted t) : t.frames.p.totalFrames.toNat ≤ 2^20 := by
  by_cases htot : heapFrame < t.frames.p.totalFrames.toNat
  · obtain ⟨m, k, hfit, _, ht⟩ := h.tracks htot
    have := hfit.bounds
    rw [ht.total]
    omega
  · unfold heapFrame at htot
    omega

theorem parted_start {mem : Mem} {memUpper kernelEnd : Word} {p : Pmm}
    (e : Pmm.initialize (Pmm.boot mem kernelEnd) memUpper = .ok p) (hb : p.BelowHeap) :
    Parted (Physical.start p) := by
  refine ⟨⟨_, held_init _⟩, hb, nofun, nofun, fun htot => ?_, fun _ => nofun,
    fun hn => absurd trivial hn⟩
  obtain ⟨m, k, hfit, hres, e'⟩ := initialize_fits e hb htot
  obtain ⟨p', e'', ht⟩ := tracks_init hfit mem
  rw [e'] at e''
  cases e''
  refine ⟨m, k, hfit, hres, ht.mem fun x hx => initHeap_out _ ?_⟩
  unfold reservedFrames heapFrame at hres
  omega

/-- the calls of the heap -/
theorem Parted.setHeap (h : Parted t) {s : Session} (hs : ∃ bs, Held s bs)
    (hoff : ∀ x, Outside x → s.s.mem x = t.frames.p.mem x) : Parted (t.setHeap s) := by
  refine ⟨hs, h.below, h.out, h.handed, fun htot => ?_, h.kept, h.lost⟩
  obtain ⟨m, k, hfit, hres, ht⟩ := h.tracks htot
  refine ⟨m, k, hfit, hres, ht.mem fun x hx => hoff x (.inl ?_)⟩
  unfold reservedFrames heapFrame at hres
  omega

theorem Parted.freeFrame (h : Parted t) {f : Word} (hf : f ∈ t.frames.out) :
    Parted { t with frames := FrameOp.exec t.frames (.free f) } := by
  have hlt := (h.handed f (h.out f hf)).2
  have hidx : (f / pageSize).toNat = frameIndex f := BitVec.toNat_udiv
  obtain ⟨bs, hb⟩ := h.held
  refine ⟨⟨bs, held_mem hb fun x hx => ?_⟩, h.below, fun g hg => h.out g (List.mem_of_mem_erase hg),
    h.handed, fun htot => ?_, h.kept, h.lost⟩
  · exact setWord_off h.below (by rw [hidx]; exact hlt) _ hx
  · obtain ⟨m, k, hfit, hres, ht⟩ := h.tracks htot
    exact ⟨m, k, hfit, hres, tracks_free ht hf⟩

/-- as long as all frames handed out are below the heap, so is the set of used frames -/
theorem Parted.used_below (h : Parted t) (hsp : t.spared) {m k : Word}
    (hres : reservedFrames m k ≤ heapFrame) :
    usedSet m k t.frames.out ⊆ Finset.range heapFrame := by
  intro i hi
  rw [Finset.mem_range]
  rcases mem_usedSet.mp hi with hr | ⟨f, hf, rfl⟩
  · omega
  · exact h.kept hsp f (h.out f hf)

/-- **With a frame to spare the least free one is below the heap; without one it is the first of the
heap.** -/
theorem Parted.least (h : Parted t) (hsp : t.spared) {n : Nat} (hn : n < t.frames.p.totalFrames.toNat)
    (hfree : t.frames.p.bit n = false) (hmin : ∀ m, m < n → t.frames.p.bit m = true) :
    (t.frames.p.Spare → n < heapFrame) ∧ (¬ t.frames.p.Spare → n = heapFrame) := by
  by_cases htot : heapFrame < t.frames.p.totalFrames.toNat
  · obtain ⟨m, k, hfit, hres, ht⟩ := h.tracks htot
    have hsub := h.used_below hsp hres
    have hcover := words_cover m
    have htotal := ht.total
    have hmem : ∀ i, i < t.frames.p.totalFrames.toNat →
        (t.frames.p.bit i = true ↔ i ∈ usedSet m k t.frames.out) := by
      intro i hi
      rw [ht.bit i (by omega), decide_eq_true_iff]
    have hout : n ∉ usedSet m k t.frames.out := by
      rw [← hmem n hn, hfree]
      decide
    constructor
    · rintro (hle | hlt)
      · omega
      · by_contra hge
        have hall : Finset.range heapFrame ⊆ usedSet m k t.frames.out := by
          intro i hi
          rw [Finset.mem_range] at hi
          exact (hmem i (by omega)).mp (hmin i (by omega))
        have := Finset.card_le_card hall
        rw [Finset.card_range, ← ht.count] at this
        omega
    · intro hno
      have hcard : (Finset.range heapFrame).card ≤ (usedSet m k t.frames.out).card := by
        rw [Finset.card_range, ← ht.count]
        exact Nat.le_of_not_lt fun hlt => hno (.inr hlt)
      have hset := Finset.eq_of_subset_of_card_le hsub hcard
      rw [hset, Finset.mem_range] at hout
      by_contra hne
      have := (hmem heapFrame htot).mp (hmin heapFrame (by omega))
      rw [hset, Finset.mem_range] at this
      exact absurd this (Nat.lt_irrefl _)
  · exact ⟨fun _ => by omega, fun hno => absurd (.inl (by omega)) hno⟩

/-- all frames are used: there is none past the start of the heap, or one of them was handed out -/
theorem Parted.full (h : Parted t)
    (hall : ∀ m, m < t.frames.p.totalFrames.toNat → t.frames.p.bit m = true) (hsp : t.spared) :
    t.frames.p.totalFrames.toNat ≤ heapFrame := by
  by_contra hgt
  have htot := Nat.lt_of_not_le hgt
  obtain ⟨m, k, hfit, hres, ht⟩ := h.tracks htot
  have hcover := words_cover m
  have htotal := ht.total
  have hbit := hall heapFrame htot
  rw [ht.bit heapFrame (by omega), decide_eq_true_iff] at hbit
  exact absurd (Finset.mem_range.mp (h.used_below hsp hres hbit)) (Nat.lt_irrefl _)

theorem meetsHeap_iff {f : Word} (hf : f.toNat = 4096 * frameIndex f) :
    MeetsHeap f ↔ heapFrame ≤ frameIndex f ∧ frameIndex f < 2 * heapFrame := by
  have e1 : kernelHeapStart.toNat = 0x00800000 := rfl
  have e2 : kernelHeapSize.toNat = 0x00800000 := rfl
  have e3 : pageSize.toNat = 4096 := rfl
  unfold MeetsHeap heapFrame
  omega

/-- the list of frames after an answer `a` -/
theorem mem_given {a f : Word} {l : List Word} :
    f ∈ (if a = 0 then l else a :: l) ↔ (a ≠ 0 ∧ f = a) ∨ f ∈ l := by
  by_cases h0 : a = 0
  · rw [if_pos h0]
    exact ⟨.inr, fun h => h.resolve_left fun h => h.1 h0⟩
  · rw [if_neg h0, List.mem_cons]
    exact or_congr_left ⟨fun e => ⟨h0, e⟩, fun h => h.2⟩

/-- **Handing out a frame keeps the invariant.** -/
theorem Parted.allocateFrame (h : Parted t) (e : PhysicalOp.exec t .allocateFrame = .ok t') :
    Parted t' := by
  cases e
  obtain ⟨bs, hb⟩ := h.held
  have hle := h.total_le
  -- the bitmap changes in one word, if at all, and the answer is the least free frame
  obtain ⟨hmem, hbitmap, htotal, hframe, hkept, hlost⟩ :
      (∀ x, ¬ Outside x → t.frames.p.allocateFrame.2.mem x = t.frames.p.mem x) ∧
      t.frames.p.allocateFrame.2.bitmap = t.frames.p.bitmap ∧
      t.frames.p.allocateFrame.2.totalFrames = t.frames.p.totalFrames ∧
      (t.frames.p.allocateFrame.1 ≠ 0 →
        t.frames.p.allocateFrame.1.toNat = 4096 * frameIndex t.frames.p.allocateFrame.1 ∧
        frameIndex t.frames.p.allocateFrame.1 < t.frames.p.totalFrames.toNat) ∧
      (t.frames.p.allocateFrame.1 ≠ 0 → t.spared → t.frames.p.Spare →
        frameIndex t.frames.p.allocateFrame.1 < heapFrame) ∧
      (t.spared → ¬ t.frames.p.Spare → t.frames.p.allocateFrame.1 ≠ 0 ∧
        MeetsHeap t.frames.p.allocateFrame.1) := by
    rcases firstFree_spec t.frames.p hle with ⟨n, e, hn, hfree, hmin⟩ | ⟨e, hall⟩
    · obtain ⟨haddr, hidx⟩ := frame_addr (n := n) (by omega)
      have hnat : (BitVec.ofNat 32 n : Word).toNat = n := by
        rw [BitVec.toNat_ofNat, Nat.mod_eq_of_lt (by omega)]
      have hleast : t.spared → _ := fun hsp => h.least hsp hn hfree hmin
      rw [allocateFrame_some (by omega) e]
      refine ⟨fun x hx => ?_, rfl, rfl, fun _ => ?_, fun _ hsp hs => ?_, fun hsp hs => ?_⟩
      · exact setWord_off h.below (by rw [hnat]; exact hn) _ hx
      · rw [hidx]
        exact ⟨haddr, hn⟩
      · rw [hidx]
        exact (hleast hsp).1 hs
      · have heq := (hleast hsp).2 hs
        refine ⟨fun h0 => ?_, (meetsHeap_iff (by rw [hidx]; exact haddr)).mpr ?_⟩
        · have h0' : (BitVec.ofNat 32 (4096 * n) : Word).toNat = 0 := congrArg BitVec.toNat h0
          rw [haddr, heq] at h0'
          exact absurd h0' (by decide)
        · rw [hidx, heq]
          decide
    · rw [allocateFrame_none e]
      exact ⟨fun _ _ => rfl, rfl, rfl, fun h0 => absurd rfl h0, fun h0 => absurd rfl h0,
        fun hsp hs => absurd (.inl (h.full hall hsp)) hs⟩
  refine ⟨⟨bs, held_mem hb hmem⟩, ?_, fun f hf => ?_, fun f hf => ?_, fun htot => ?_,
    fun ⟨hsp, hs⟩ f hf => ?_, fun hn => ?_⟩
  · show t.frames.p.allocateFrame.2.bitmap.toNat
      + 4 * (bitmapSize t.frames.p.allocateFrame.2.totalFrames).toNat ≤ _
    rw [hbitmap, htotal]
    exact h.below
  · rcases mem_given.mp hf with hf | hf
    · exact mem_given.mpr (.inl hf)
    · exact mem_given.mpr (.inr (h.out f hf))
  · show _ ∧ _ < t.frames.p.allocateFrame.2.totalFrames.toNat
    rw [htotal]
    rcases mem_given.mp hf with ⟨h0, rfl⟩ | hf
    · exact hframe h0
    · exact h.handed f hf
  · have htot : heapFrame < t.frames.p.allocateFrame.2.totalFrames.toNat := htot
    rw [htotal] at htot
    obtain ⟨m, k, hfit, hres, ht⟩ := h.tracks htot
    exact ⟨m, k, hfit, hres, tracks_allocate ht hfit⟩
  · rcases mem_given.mp hf with ⟨h0, rfl⟩ | hf
    · exact hkept h0 hsp hs
    · exact h.kept hsp f hf
  · by_cases hsp : t.spared
    · obtain ⟨h0, hm⟩ := hlost hsp fun hs => hn ⟨hsp, hs⟩
      exact ⟨_, mem_given.mpr (.inl ⟨h0, rfl⟩), hm⟩
    · obtain ⟨f, hf, hm⟩ := h.lost hsp
      exact ⟨f, mem_given.mpr (.inr hf), hm⟩

/-- **Every call keeps the invariant.** -/
theorem Parted.step {op : PhysicalOp} (h : Parted t) (ha : op.Allowed t) (e : op.exec t = .ok t') :
    Parted t' := by
  cases op with
  | allocateFrame => exact h.allocateFrame e
  | freeFrame f =>
    cases e
    exact h.freeFrame ha
  | kmalloc n =>
    obtain ⟨s, e', rfl⟩ := map_eq_ok e
    obtain ⟨bs, hb⟩ := h.held
    have ha : HeapOp.Allowed t.heap (.kmalloc n) := trivial
    obtain ⟨hs, hoff⟩ := held_off hb ha (.inl ⟨n, rfl⟩) e'
    exact h.setHeap hs hoff
  | kfree p =>
    cases e
    obtain ⟨bs, hb⟩ := h.held
    have ha : HeapOp.Allowed t.heap (.kfree p) := ha
    obtain ⟨hs, hoff⟩ := held_off hb ha (.inr ⟨p, rfl⟩) rfl
    exact h.setHeap hs hoff

theorem parted_reachable (h : Run.Reachable physicalSystem t) : Parted t := by
  refine h.invariant ?_ ?_
  · rintro t ⟨mem, m, k, p, e, hb, rfl⟩
    exact parted_start e hb
  · intro t op t' _ ih ⟨ha, e⟩
    exact ih.step ha e

/-! ## runs -/

/-- **The frames handed out in a run stay clear of the heap exactly as long as each of them was asked
for with a frame to spare; then they stay clear of every block.** -/
theorem frames_clear_iff (t : Physical) (h : Run.Reachable physicalSystem t) :
    ((∀ f ∈ t.handed, ¬ MeetsHeap f) ↔ t.spared) ∧
    (t.spared → ∃ hs, heapList t.heap.s = some hs ∧ ∀ f ∈ t.handed, ∀ b ∈ hs,
      f.toNat + pageSize.toNat ≤ b.addr.toNat ∨
      b.addr.toNat + sizeofHeapBlock.toNat + b.size.toNat ≤ f.toNat) := by
  have hp := parted_reachable h
  have hclear : t.spared → ∀ f ∈ t.handed, ¬ MeetsHeap f := by
    intro hsp f hf hm
    have hlt := hp.kept hsp f hf
    have := (meetsHeap_iff (hp.handed f hf).1).mp hm
    omega
  refine ⟨⟨fun hall => ?_, hclear⟩, fun hsp => ?_⟩
  · by_contra hn
    obtain ⟨f, hf, hm⟩ := hp.lost hn
    exact hall f hf hm
  · obtain ⟨bs, hb⟩ := hp.held
    refine ⟨_, hb.blocks.walk, fun f hf hd hhd => .inl ?_⟩
    obtain ⟨b, hb', e, _⟩ := mem_headers hhd
    have hlt := hp.kept hsp f hf
    have haddr := (hp.handed f hf).1
    have hpage : pageSize.toNat = 4096 := rfl
    have hlow := hb.blocks.bounds hb'
    rw [e, (toNat_addr hb.blocks.tiles hb').1]
    unfold heapFrame at hlt
    omega

/-- a run of calls of `allocate_frame` uses up the frames below the heap -/
theorem use_up {t0 : Physical} (h0 : Run.Reachable physicalSystem t0)
    (hs : Run.Steps physicalSystem (fun _ => True) t0 t) (hsp : t.spared)
    (htot : heapFrame < t.frames.p.totalFrames.toNat) (n : Nat)
    (hn : t.frames.p.usedFrames.toNat + n = heapFrame) :
    ∃ t', Run.Steps physicalSystem (fun _ => True) t0 t' ∧
      heapFrame < t'.frames.p.totalFrames.toNat ∧ t'.frames.p.usedFrames.toNat = heapFrame := by
  induction n generalizing t with
  | zero => exact ⟨t, hs, htot, hn⟩
  | succ n ih =>
    have hp := parted_reachable (hs.reachable h0)
    have hspare : t.frames.p.Spare := .inr (by omega)
    obtain ⟨m, k, hfit, hres, ht⟩ := hp.tracks htot
    have hcover := words_cover m
    have htotal := ht.total
    have hle := hp.total_le
    have hstep : Run.Steps physicalSystem (fun _ => True) t0 _ :=
      @Run.Steps.step _ _ _ _ _ _ _ .allocateFrame hs trivial ⟨trivial, rfl⟩
    -- some frame below the heap is free, since fewer are used
    rcases firstFree_spec t.frames.p hle with ⟨n', e, _⟩ | ⟨_, hall⟩
    · have ea : t.frames.p.allocateFrame.2 = _ := congrArg Prod.snd (allocateFrame_some (by omega) e)
      refine ih hstep ⟨hsp, hspare⟩ ?_ ?_
      · show heapFrame < t.frames.p.allocateFrame.2.totalFrames.toNat
        rw [ea]
        exact htot
      · show t.frames.p.allocateFrame.2.usedFrames.toNat + n = heapFrame
        rw [ea]
        show (t.frames.p.usedFrames + 1#32).toNat + n = heapFrame
        unfold heapFrame at hn ⊢
        bv_omega
    · have := hp.full hall hsp
      omega

end

/-- what `initialize` leaves for sizes that fit, with the end of the bitmap below the heap -/
theorem start_reachable {m k : Word} (mem : Mem) (hfit : Fits m k) (hend : bitmapEnd m k ≤ 0x00800000) :
    ∃ p, Pmm.initialize (Pmm.boot mem k) m = .ok p ∧
      Run.Reachable physicalSystem (Physical.start p) ∧ p.totalFrames.toNat = frameCount m ∧
      p.usedFrames.toNat = reservedFrames m k := by
  obtain ⟨p, e, hbitmap, htotal, hused, _⟩ := initialize_spec mem hfit
  refine ⟨p, e, .init ⟨mem, m, k, p, e, ?_, rfl⟩, htotal, hused⟩
  unfold Pmm.BelowHeap
  rw [toNat_bitmapSize, hbitmap, htotal]
  exact hend

/-- 1 MiB with the kernel below `0x20010`: a frame and a block handed out -/
theorem frames_clear_iff_one : ∃ t : Physical, t.handed = [0x22000] ∧ t.live = [0x0080000C] ∧
    ∀ f ∈ t.handed, ¬ MeetsHeap f := by
  have hrun : (( Pmm.initialize (Pmm.boot (fun _ => 0) 0x20010) 0).toOption.bind fun p =>
      (PhysicalOp.exec (Physical.start p) .allocateFrame).toOption.bind fun t =>
        (PhysicalOp.exec t (.kmalloc 64)).toOption).map (fun t => (t.handed, t.live))
      = some ([0x22000], [0x0080000C]) := by decide +kernel
  obtain ⟨t2, e, hres⟩ := Option.map_eq_some_iff.mp hrun
  obtain ⟨p, e0, e⟩ := Option.bind_eq_some_iff.mp e
  obtain ⟨t1, e1, e2⟩ := Option.bind_eq_some_iff.mp e
  obtain ⟨hhanded, hlive⟩ := Prod.mk.inj hres
  obtain ⟨p', e0', h0, htotal, _⟩ := start_reachable (fun _ => 0) (m := 0) (k := 0x20010)
    ⟨by decide, by decide⟩ (by decide)
  rw [toOption_eq_some e0] at e0'
  cases e0'
  have h1 : Run.Reachable physicalSystem t1 :=
    @Run.Reachable.step _ _ _ _ _ .allocateFrame h0 ⟨trivial, toOption_eq_some e1⟩
  have h2 : Run.Reachable physicalSystem t2 :=
    @Run.Reachable.step _ _ _ _ _ (.kmalloc 64) h1 ⟨trivial, toOption_eq_some e2⟩
  cases e1
  obtain ⟨s, _, rfl⟩ := map_eq_ok (toOption_eq_some e2)
  refine ⟨_, hhanded, hlive, (frames_clear_iff _ h2).1.mpr ⟨trivial, .inl ?_⟩⟩
  show p.totalFrames.toNat ≤ heapFrame
  rw [htotal]
  decide

/-- with 16 MiB, and once the frames below the heap are used up, the next one is the first of the heap -/
theorem frame_in_heap : ∃ p t, Pmm.initialize (Pmm.boot (fun _ => 0) 0x00210000) 15360 = .ok p ∧
    Fits 15360 0x00210000 ∧ p.BelowHeap ∧
    Run.Steps physicalSystem (fun _ => True) (Physical.start p) t ∧ ∃ f ∈ t.handed, MeetsHeap f := by
  have hfit : Fits 15360 0x00210000 := ⟨by decide, by decide⟩
  obtain ⟨p, e, h0, htotal, hused⟩ := start_reachable (fun _ => 0) hfit (by decide)
  have htot : heapFrame < p.totalFrames.toNat := by
    rw [htotal]
    decide
  have hn : p.usedFrames.toNat + 1519 = heapFrame := by
    rw [hused]
    decide
  obtain ⟨t, ht, htot', hfull⟩ := use_up h0 .refl trivial htot 1519 hn
  have hnext : Run.Steps physicalSystem (fun _ => True) (Physical.start p) _ :=
    @Run.Steps.step _ _ _ _ _ _ _ .allocateFrame ht trivial ⟨trivial, rfl⟩
  have hp := parted_reachable (hnext.reachable h0)
  refine ⟨p, _, e, hfit, (parted_reachable h0).below, hnext, hp.lost ?_⟩
  intro ⟨_, hs⟩
  rcases hs with hs | hs
  · exact absurd htot' (Nat.not_lt.mpr hs)
  · exact absurd hs (by rw [hfull]; exact Nat.lt_irrefl _)

end FirstKernel
