import FirstKernel.Frames.Run

/-!
# `memtest.cpp`: the frame allocator under its own tests

The tests are clients of the allocator, so each of them is a run of `frameSystem`.

* `testAllocation`, `testFree`, `testMultipleAllocations`;
* `fillFrames_spec`   the loop that takes frames and writes a pattern into each;
* `tests_pass_iff`    when the tests pass, and what they leave behind.
-/

namespace FirstKernel
open ByteMem

def testPattern : Word := 0xAA55AA55

def numAllocations : Nat := 10

/-- `*ptr = x` -/
def Pmm.store (p : Pmm) (ptr x : Word) : Pmm := { p with mem := store32 p.mem ptr.toNat x }

/-- `*ptr` -/
def Pmm.load (p : Pmm) (ptr : Word) : Word := load32 p.mem ptr.toNat

def Pmm.testAllocation (p : Pmm) : Bool × Pmm :=
  let (frame, p) := p.allocateFrame
  if frame = 0 then (false, p)
  else
    let p := p.store frame testPattern
    let success := decide (p.load frame = testPattern)
    (success, p.freeFrame frame)

def Pmm.testFree (p : Pmm) : Bool × Pmm :=
  let (frame1, p) := p.allocateFrame
  if frame1 = 0 then (false, p)
  else
    let p := p.freeFrame frame1
    let (frame2, p) := p.allocateFrame
    let success := decide (frame1 = frame2)
    (success, p.freeFrame frame2)

/-- `n` rounds of the first loop, behind those that gave `frames`; `none` when a round gets no frame -/
def Pmm.fillFrames : Nat → List Word → Pmm → Option (List Word) × Pmm
  | 0, frames, p => (some frames, p)
  | n+1, frames, p =>
    let (frame, p) := p.allocateFrame
    if frame = 0 then (none, p)
    else Pmm.fillFrames n (frames ++ [frame]) (p.store frame (testPattern + BitVec.ofNat 32 frames.length))

/-- the second loop, from round `i` on -/
def Pmm.verify (p : Pmm) : Nat → List Word → Bool
  | _, [] => true
  | i, frame :: frames =>
    if p.load frame ≠ testPattern + BitVec.ofNat 32 i then false else p.verify (i + 1) frames

def Pmm.testMultipleAllocations (p : Pmm) : Bool × Pmm :=
  match p.fillFrames numAllocations [] with
  | (none, p) => (false, p)
  | (some frames, p) => (p.verify 0 frames, frames.foldl Pmm.freeFrame p)

section
variable {memUpper kernelEnd : Word} {p : Pmm} {out frames : List Word} {f : Word}

/-! ## the calls, in a session -/

/-- `out` is held by the clients of a reachable session -/
abbrev InSession (memUpper kernelEnd : Word) (p : Pmm) (out : List Word) : Prop :=
  Run.Reachable (frameSystem memUpper kernelEnd) ⟨p, out⟩

/-- the frames of `out` read as before -/
def SameIn (out : List Word) (p p' : Pmm) : Prop :=
  ∀ f ∈ out, ∀ x, f.toNat ≤ x → x < f.toNat + pageSize.toNat → p'.mem x = p.mem x

theorem SameIn.trans {p1 p2 : Pmm} (h : SameIn out p p1) (h' : SameIn out p1 p2) :
    SameIn out p p2 := by
  intro f hf x h1 h2
  rw [h' f hf x h1 h2, h f hf x h1 h2]

theorem SameIn.mono {p' : Pmm} (h : SameIn frames p p') (hsub : out ⊆ frames) : SameIn out p p' :=
  fun f hf => h f (hsub hf)

theorem SameIn.load {p' : Pmm} (h : SameIn out p p') (hf : f ∈ out) : p'.load f = p.load f := by
  refine load32_congr fun x h1 h2 => h f hf x h1 ?_
  have hpage : pageSize.toNat = 4096 := rfl
  omega

theorem store_spec (hr : InSession memUpper kernelEnd p out) (hf : f ∈ out) (x : Word) :
    InSession memUpper kernelEnd (p.store f x) out := by
  have hin : ∀ j, j < 4 → f.toNat ≤ f.toNat + j ∧ f.toNat + j < f.toNat + pageSize.toNat := by
    intro j hj
    have hpage : pageSize.toNat = 4096 := rfl
    omega
  have h0 := reachable_exec hr (.write f.toNat (BitVec.ofNat 8 x.toNat)) ⟨f, hf, hin 0 (by decide)⟩
  have h1 := reachable_exec h0 (.write (f.toNat + 1) (BitVec.ofNat 8 (x.toNat / 2^8)))
    ⟨f, hf, hin 1 (by decide)⟩
  have h2 := reachable_exec h1 (.write (f.toNat + 2) (BitVec.ofNat 8 (x.toNat / 2^16)))
    ⟨f, hf, hin 2 (by decide)⟩
  exact reachable_exec h2 (.write (f.toNat + 3) (BitVec.ofNat 8 (x.toNat / 2^24)))
    ⟨f, hf, hin 3 (by decide)⟩

/-- what is written into one frame is not seen in the others -/
theorem store_same (hfit : Fits memUpper kernelEnd) (hr : InSession memUpper kernelEnd p (f :: out))
    (x : Word) : SameIn out p (p.store f x) := by
  intro g hg y h1 h2
  have hpage : pageSize.toNat = 4096 := rfl
  have href := (tracks_reachable hfit hr).refines hfit
  have hne : f ≠ g := by
    rintro rfl
    exact (List.nodup_cons.mp href.distinct).1 hg
  have hapart := href.apart f List.mem_cons_self g (List.mem_cons_of_mem f hg) hne
  refine store32_out _ _ _ _ ?_
  omega

/-- a word of the bitmap lies below every frame -/
theorem setWord_same {i : Nat} (h : Tracks memUpper kernelEnd ⟨p, out⟩) (hfit : Fits memUpper kernelEnd)
    (hi : i < bitmapWords memUpper) (v : Word) : SameIn out p (p.setWord i v) := by
  intro f hf x hx _
  have hb : p.bitmap.toNat = bitmapStart kernelEnd := h.bitmap
  have hclear := ((h.refines hfit).clear f hf).2
  unfold bitmapEnd at hclear
  refine store32_out _ _ _ _ (.inr ?_)
  omega

theorem setFrame_same {n : Word} (h : Tracks memUpper kernelEnd ⟨p, out⟩) (hfit : Fits memUpper kernelEnd)
    (hn : (n / 32).toNat < bitmapWords memUpper) : SameIn out p (p.setFrame n) := by
  unfold Pmm.setFrame
  exact setWord_same h hfit hn _

theorem clearFrame_same {n : Word} (h : Tracks memUpper kernelEnd ⟨p, out⟩) (hfit : Fits memUpper kernelEnd)
    (hn : (n / 32).toNat < bitmapWords memUpper) : SameIn out p (p.clearFrame n) := by
  unfold Pmm.clearFrame
  exact setWord_same h hfit hn _

theorem Frame.word (h : Frame memUpper kernelEnd f) :
    (f / pageSize / 32 : Word).toNat < bitmapWords memUpper := by
  have hidx : (f / pageSize).toNat = frameIndex f := BitVec.toNat_udiv
  have htot := h.total
  rw [toNat_div32, hidx]
  unfold bitmapWords
  omega

/-- a call of `allocate_frame`: no frame is left, or the first free one is handed out -/
theorem allocate_cases (hfit : Fits memUpper kernelEnd) {t : FrameSession}
    (hr : Run.Reachable (frameSystem memUpper kernelEnd) t) :
    (t.p.allocateFrame = (0, t.p) ∧
      usedSet memUpper kernelEnd t.out = Finset.range (frameCount memUpper)) ∨
    ∃ f p', t.p.allocateFrame = (f, p') ∧ f ≠ 0 ∧ InSession memUpper kernelEnd p' (f :: t.out) ∧
      SameIn t.out t.p p' ∧
      SetAlloc.next (frameCount memUpper) (usedSet memUpper kernelEnd t.out) = some (frameIndex f) := by
  have ht := tracks_reachable hfit hr
  have hb := hfit.bounds
  have hspec := allocate_spec ht hfit
  cases hn : SetAlloc.next (frameCount memUpper) (usedSet memUpper kernelEnd t.out) with
  | none =>
    rw [hn] at hspec
    exact .inl ⟨hspec, (ht.full_iff hfit).mp hn⟩
  | some n =>
    rw [hn] at hspec
    obtain ⟨htot, hnew, _⟩ := SetAlloc.next_eq_some.mp hn
    obtain ⟨haddr, hidx⟩ := frame_addr (n := n) (by omega)
    have hne : (BitVec.ofNat 32 (4096 * n) : Word) ≠ 0 := by
      intro e
      have h0 : n ≠ 0 := by
        rintro rfl
        exact hnew (mem_usedSet.mpr (.inl (by omega)))
      rw [e] at haddr
      exact absurd haddr (by show 0 ≠ 4096 * n; omega)
    have hword : (BitVec.ofNat 32 n / 32 : Word).toNat < bitmapWords memUpper := by
      rw [toNat_div32, BitVec.toNat_ofNat, Nat.mod_eq_of_lt (by omega)]
      unfold bitmapWords
      omega
    have hkeep := reachable_exec hr .allocate trivial
    unfold FrameOp.exec at hkeep
    simp only [show t.p.allocateFrame = _ from hspec, if_neg hne] at hkeep
    have hsame := setFrame_same ht hfit hword
    exact .inr ⟨_, _, hspec, hne, hkeep, hsame, by rw [hidx]⟩

theorem free_spec (hfit : Fits memUpper kernelEnd) (hr : InSession memUpper kernelEnd p out) (hf : f ∈ out) :
    InSession memUpper kernelEnd (p.freeFrame f) (out.erase f) ∧ SameIn out p (p.freeFrame f) := by
  have ht := tracks_reachable hfit hr
  have hsame := clearFrame_same ht hfit (ht.frame f hf).word
  exact ⟨reachable_exec hr (.free f) hf, hsame⟩

theorem free_head (hfit : Fits memUpper kernelEnd) (hr : InSession memUpper kernelEnd p (f :: out)) :
    InSession memUpper kernelEnd (p.freeFrame f) out ∧ SameIn out p (p.freeFrame f) := by
  obtain ⟨h1, h2⟩ := free_spec hfit hr List.mem_cons_self
  rw [List.erase_cons_head] at h1
  exact ⟨h1, h2.mono (List.subset_cons_self f out)⟩

/-- every free frame counts -/
theorem frames_count (hfit : Fits memUpper kernelEnd) (hr : InSession memUpper kernelEnd p out) :
    reservedFrames memUpper kernelEnd + out.length + p.getFreeFrames.toNat = frameCount memUpper := by
  have ht := tracks_reachable hfit hr
  have href := ht.refines hfit
  have hcard : (usedSet memUpper kernelEnd out).card = reservedFrames memUpper kernelEnd + out.length := by
    have hnodup : (out.map frameIndex).Nodup :=
      ht.nodup.map_on fun f hf g hg e => (ht.frame f hf).inj (ht.frame g hg) e
    have hdis : Disjoint (Finset.range (reservedFrames memUpper kernelEnd))
        (out.map frameIndex).toFinset := by
      rw [Finset.disjoint_left]
      intro i hi hm
      obtain ⟨f, hf, rfl⟩ := List.mem_map.mp (List.mem_toFinset.mp hm)
      have hfresh := (ht.frame f hf).fresh
      rw [Finset.mem_range] at hi
      omega
    unfold usedSet
    rw [Finset.card_union_of_disjoint hdis, Finset.card_range, List.toFinset_card_of_nodup hnodup,
      List.length_map]
  have hle : (usedSet memUpper kernelEnd out).card ≤ frameCount memUpper := by
    have hsub := Finset.card_le_card href.inside
    rw [Finset.card_range] at hsub
    exact hsub
  have hfree : p.getFreeFrames.toNat = frameCount memUpper - (usedSet memUpper kernelEnd out).card :=
    href.free
  omega

theorem frames_full (hfit : Fits memUpper kernelEnd) (hr : InSession memUpper kernelEnd p out) :
    usedSet memUpper kernelEnd out = Finset.range (frameCount memUpper) ↔ p.getFreeFrames.toNat = 0 := by
  have href := (tracks_reachable hfit hr).refines hfit
  have hfree : p.getFreeFrames.toNat = frameCount memUpper - (usedSet memUpper kernelEnd out).card :=
    href.free
  constructor
  · intro e
    rw [hfree, e, Finset.card_range, Nat.sub_self]
  · intro e
    refine Finset.eq_of_subset_of_card_le href.inside ?_
    rw [Finset.card_range]
    omega

/-! ## the loops of `test_multiple_allocations` -/

/-- frame `i` of `frames` holds the pattern of round `i` -/
def Patterned (p : Pmm) (frames : List Word) : Prop :=
  ∀ i (hi : i < frames.length), p.load frames[i] = testPattern + BitVec.ofNat 32 i

theorem Patterned.snoc (h : Patterned p frames) (hf : p.load f = testPattern + BitVec.ofNat 32 frames.length) :
    Patterned p (frames ++ [f]) := by
  intro i hi
  rw [List.length_append, List.length_singleton] at hi
  rw [List.getElem_append]
  split
  · next hlt => exact h i hlt
  · next hge =>
    have hi' : i = frames.length := by omega
    subst hi'
    rw [List.getElem_singleton]
    exact hf

theorem Patterned.same {p' : Pmm} (h : Patterned p frames) (hsame : SameIn out p p')
    (hsub : frames ⊆ out) : Patterned p' frames := by
  intro i hi
  rw [hsame.load (hsub (List.getElem_mem hi))]
  exact h i hi

theorem verify_drop (h : Patterned p frames) (i : Nat) : p.verify i (frames.drop i) = true := by
  by_cases hi : i < frames.length
  · rw [List.drop_eq_getElem_cons hi, Pmm.verify, if_neg (by rw [h i hi]; exact not_not_intro rfl)]
    exact verify_drop h (i + 1)
  · rw [List.drop_eq_nil_of_le (by omega)]
    rfl
termination_by frames.length - i

/-- `n` more rounds: each takes a frame and leaves the ones before as they are, or there is none left -/
theorem fillFrames_spec (hfit : Fits memUpper kernelEnd) (n : Nat)
    (hr : InSession memUpper kernelEnd p (frames.reverse ++ out)) (hp : Patterned p frames) :
    (∃ (all : List Word) (p' : Pmm), p.fillFrames n frames = (some all, p') ∧ all.length = frames.length + n ∧
      InSession memUpper kernelEnd p' (all.reverse ++ out) ∧ Patterned p' all ∧ SameIn out p p') ∨
    (∃ (lost : List Word) (p' : Pmm), p.fillFrames n frames = (none, p') ∧ lost.length < frames.length + n ∧
      InSession memUpper kernelEnd p' (lost.reverse ++ out) ∧ p'.getFreeFrames.toNat = 0 ∧
      SameIn out p p') := by
  induction n generalizing frames p with
  | zero => exact .inl ⟨frames, p, rfl, rfl, hr, hp, fun _ _ _ _ _ => rfl⟩
  | succ n ih =>
    rw [Pmm.fillFrames]
    rcases allocate_cases hfit hr with ⟨e, hfull⟩ | ⟨f, p1, e, hne, hr1, hsame, _⟩
    · rw [e]
      exact .inr ⟨frames, p, if_pos rfl, by omega, hr, (frames_full hfit hr).mp hfull,
        fun _ _ _ _ _ => rfl⟩
    · simp only [e, if_neg hne]
      have hmem : f ∈ f :: (frames.reverse ++ out) := List.mem_cons_self
      have hr2 := store_spec hr1 hmem (testPattern + BitVec.ofNat 32 frames.length)
      have hsame2 := hsame.trans (store_same hfit hr1 (testPattern + BitVec.ofNat 32 frames.length))
      have hsub : frames ⊆ frames.reverse ++ out :=
        fun g hg => List.mem_append_left out (List.mem_reverse.mpr hg)
      have hp2 := (hp.same hsame2 hsub).snoc (load32_store32 _ _ _)
      have hrev : f :: (frames.reverse ++ out) = (frames ++ [f]).reverse ++ out := by
        rw [List.reverse_append, List.reverse_singleton, List.append_assoc, List.singleton_append]
      rw [hrev] at hr2
      have hsame3 := hsame2.mono (List.subset_append_right frames.reverse out)
      have hlen : (frames ++ [f]).length = frames.length + 1 := by simp
      rcases ih hr2 hp2 with ⟨all, p', e', h1, h2, h3, h4⟩ | ⟨lost, p', e', h1, h2, h3, h4⟩
      · exact .inl ⟨all, p', e', by omega, h2, h3, hsame3.trans h4⟩
      · exact .inr ⟨lost, p', e', by omega, h2, h3, hsame3.trans h4⟩

/-- the third loop gives the frames back, the first one first -/
theorem freeAll_spec (hfit : Fits memUpper kernelEnd)
    (hr : InSession memUpper kernelEnd p (frames.reverse ++ out)) :
    InSession memUpper kernelEnd (frames.foldl Pmm.freeFrame p) out ∧
      SameIn out p (frames.foldl Pmm.freeFrame p) := by
  induction frames generalizing p with
  | nil => exact ⟨hr, fun _ _ _ _ _ => rfl⟩
  | cons f frames ih =>
    have hlist : (f :: frames).reverse ++ out = frames.reverse ++ f :: out := by
      rw [List.reverse_cons, List.append_assoc, List.singleton_append]
    rw [hlist] at hr
    have hnodup := (tracks_reachable hfit hr).nodup
    have hnot : f ∉ frames.reverse :=
      fun hm => (List.disjoint_of_nodup_append hnodup) hm List.mem_cons_self
    obtain ⟨h1, h2⟩ := free_spec hfit hr (List.mem_append_right _ List.mem_cons_self)
    rw [List.erase_append_right _ hnot, List.erase_cons_head] at h1
    obtain ⟨h3, h4⟩ := ih h1
    refine ⟨h3, (h2.mono fun g hg => ?_).trans h4⟩
    exact List.mem_append_right _ (List.mem_cons_of_mem f hg)

/-! ## the tests -/

/-- a test gave back what it took, and left the clients' frames alone -/
structure GivenBack (memUpper kernelEnd : Word) (t : FrameSession) (p : Pmm) : Prop where
  reachable : Run.Reachable (frameSystem memUpper kernelEnd) ⟨p, t.out⟩
  free : p.getFreeFrames = t.p.getFreeFrames
  same : SameIn t.out t.p p

theorem givenBack (hfit : Fits memUpper kernelEnd) {p' : Pmm} (hr : InSession memUpper kernelEnd p out)
    (hr' : InSession memUpper kernelEnd p' out) (hs : SameIn out p p') :
    GivenBack memUpper kernelEnd ⟨p, out⟩ p' := by
  have h1 := frames_count hfit hr
  have h2 := frames_count hfit hr'
  have hfree : p'.getFreeFrames = p.getFreeFrames := BitVec.eq_of_toNat_eq (by omega)
  exact ⟨hr', hfree, hs⟩

theorem testAllocation_spec (hfit : Fits memUpper kernelEnd) (hr : InSession memUpper kernelEnd p out) :
    (p.testAllocation.1 = true ↔ 1 ≤ p.getFreeFrames.toNat) ∧
      GivenBack memUpper kernelEnd ⟨p, out⟩ p.testAllocation.2 := by
  unfold Pmm.testAllocation
  rcases allocate_cases hfit hr with ⟨e, hfull⟩ | ⟨f, p1, e, hne, hr1, hsame, _⟩
  · rw [e]
    have hzero := (frames_full hfit hr).mp hfull
    exact ⟨⟨fun h => absurd h Bool.false_ne_true, by omega⟩, givenBack hfit hr hr fun _ _ _ _ _ => rfl⟩
  · simp only [e, if_neg hne]
    have hr2 := store_spec hr1 List.mem_cons_self testPattern
    obtain ⟨hr3, hsame3⟩ := free_head hfit hr2
    have hload : (p1.store f testPattern).load f = testPattern := load32_store32 _ _ _
    have hcount := frames_count hfit hr
    have hcount1 : reservedFrames memUpper kernelEnd + (out.length + 1) + p1.getFreeFrames.toNat
        = frameCount memUpper := frames_count hfit hr1
    exact ⟨⟨fun _ => by omega, fun _ => decide_eq_true hload⟩,
      givenBack hfit hr hr3 ((hsame.trans (store_same hfit hr1 testPattern)).trans hsame3)⟩

theorem testFree_spec (hfit : Fits memUpper kernelEnd) (hr : InSession memUpper kernelEnd p out) :
    (p.testFree.1 = true ↔ 1 ≤ p.getFreeFrames.toNat) ∧
      GivenBack memUpper kernelEnd ⟨p, out⟩ p.testFree.2 := by
  unfold Pmm.testFree
  rcases allocate_cases hfit hr with ⟨e, hfull⟩ | ⟨f, p1, e, hne, hr1, hsame, hnext⟩
  · rw [e]
    have hzero := (frames_full hfit hr).mp hfull
    exact ⟨⟨fun h => absurd h Bool.false_ne_true, by omega⟩, givenBack hfit hr hr fun _ _ _ _ _ => rfl⟩
  · simp only [e, if_neg hne]
    obtain ⟨hr2, hsame2⟩ := free_head hfit hr1
    have hcount := frames_count hfit hr
    have hcount1 : reservedFrames memUpper kernelEnd + (out.length + 1) + p1.getFreeFrames.toNat
        = frameCount memUpper := frames_count hfit hr1
    -- the set is as before the first call, so first fit finds the same unit again
    rcases allocate_cases hfit hr2 with ⟨_, hfull⟩ | ⟨g, p3, e', _, hr3, hsame3, hnext'⟩
    · have hzero := (frames_full hfit hr).mp hfull
      omega
    · have hidx : frameIndex g = frameIndex f := by
        rw [hnext] at hnext'
        exact (Option.some.inj hnext').symm
      have hg := (tracks_reachable hfit hr3).frame g List.mem_cons_self
      have hf := (tracks_reachable hfit hr1).frame f List.mem_cons_self
      have hgf : f = g := hf.inj hg hidx.symm
      simp only [e']
      obtain ⟨hr4, hsame4⟩ := free_head hfit hr3
      exact ⟨⟨fun _ => by omega, fun _ => decide_eq_true hgf⟩,
        givenBack hfit hr hr4 (((hsame.trans hsame2).trans hsame3).trans hsame4)⟩

/-- what `test_multiple_allocations` leaves when it runs out of frames: those it took are lost -/
structure Lost (memUpper kernelEnd : Word) (t : FrameSession) (p : Pmm) : Prop where
  reachable : ∃ lost : List Word, lost.length = t.p.getFreeFrames.toNat ∧
    Run.Reachable (frameSystem memUpper kernelEnd) ⟨p, lost ++ t.out⟩
  free : p.getFreeFrames.toNat = 0
  same : SameIn t.out t.p p

theorem testMultiple_spec (hfit : Fits memUpper kernelEnd) (hr : InSession memUpper kernelEnd p out) :
    (numAllocations ≤ p.getFreeFrames.toNat ∧ p.testMultipleAllocations.1 = true ∧
      GivenBack memUpper kernelEnd ⟨p, out⟩ p.testMultipleAllocations.2) ∨
    (p.getFreeFrames.toNat < numAllocations ∧ p.testMultipleAllocations.1 = false ∧
      Lost memUpper kernelEnd ⟨p, out⟩ p.testMultipleAllocations.2) := by
  unfold Pmm.testMultipleAllocations
  have hcount := frames_count hfit hr
  have hnil : Patterned p [] := fun i hi => absurd hi (Nat.not_lt_zero i)
  have hstart : InSession memUpper kernelEnd p (List.reverse [] ++ out) := hr
  rcases fillFrames_spec hfit numAllocations hstart hnil with
    ⟨all, p1, e, hlen, hr1, hp, hsame⟩ | ⟨lost, p1, e, hlen, hr1, hfree, hsame⟩
  · have hcount1 := frames_count hfit hr1
    rw [List.length_append, List.length_reverse, hlen] at hcount1
    obtain ⟨hr2, hsame2⟩ := freeAll_spec hfit hr1
    rw [e]
    refine .inl ⟨?_, verify_drop hp 0, givenBack hfit hr hr2 (hsame.trans hsame2)⟩
    rw [List.length_nil] at hcount1
    omega
  · have hcount1 := frames_count hfit hr1
    rw [List.length_append, List.length_reverse] at hcount1
    rw [List.length_nil] at hlen
    have hlost : lost.reverse.length = p.getFreeFrames.toNat := by
      rw [List.length_reverse]
      omega
    rw [e]
    exact .inr ⟨by omega, rfl, ⟨lost.reverse, hlost, hr1⟩, hfree, hsame⟩

/-- **In every session the tests pass exactly when there are frames left for them, and give back what
they took; the last one loses every free frame when it finds fewer than ten.** -/
theorem tests_pass_iff (hfit : Fits memUpper kernelEnd) {t : FrameSession}
    (ht : Run.Reachable (frameSystem memUpper kernelEnd) t) :
    (t.p.testAllocation.1 = true ↔ 1 ≤ t.p.getFreeFrames.toNat) ∧
    GivenBack memUpper kernelEnd t t.p.testAllocation.2 ∧
    (t.p.testFree.1 = true ↔ 1 ≤ t.p.getFreeFrames.toNat) ∧
    GivenBack memUpper kernelEnd t t.p.testFree.2 ∧
    (t.p.testMultipleAllocations.1 = true ↔ numAllocations ≤ t.p.getFreeFrames.toNat) ∧
    (t.p.testMultipleAllocations.1 = true →
      GivenBack memUpper kernelEnd t t.p.testMultipleAllocations.2) ∧
    (t.p.testMultipleAllocations.1 = false → Lost memUpper kernelEnd t t.p.testMultipleAllocations.2) := by
  obtain ⟨h1, h2⟩ := testAllocation_spec hfit ht
  obtain ⟨h3, h4⟩ := testFree_spec hfit ht
  refine ⟨h1, h2, h3, h4, ?_⟩
  rcases testMultiple_spec hfit ht with ⟨hn, e, h⟩ | ⟨hn, e, h⟩
  · refine ⟨⟨fun _ => hn, fun _ => e⟩, fun _ => h, fun e' => ?_⟩
    rw [e] at e'
    exact absurd e'.symm Bool.false_ne_true
  · refine ⟨⟨fun e' => ?_, fun hge => by omega⟩, fun e' => ?_, fun _ => h⟩
    · rw [e] at e'
      exact absurd e' Bool.false_ne_true
    · rw [e] at e'
      exact absurd e' Bool.false_ne_true

end

/-- 1 MiB with the kernel below `0x20010`, right after `initialize` -/
theorem tests_pass_iff_boot :
    ∃ p, Pmm.initialize (Pmm.boot (fun _ => 0) 0x20010) 0 = .ok p ∧
      p.testMultipleAllocations.1 = true ∧
      GivenBack 0 0x20010 ⟨p, []⟩ p.testMultipleAllocations.2 := by
  obtain ⟨p, e, hfree⟩ : ∃ p, Pmm.initialize (Pmm.boot (fun _ => 0) 0x20010) 0 = .ok p ∧
      numAllocations ≤ p.getFreeFrames.toNat := ⟨_, rfl, by decide +kernel⟩
  have hr : Run.Reachable (frameSystem 0 0x20010) ⟨p, []⟩ := .init ⟨_, e, rfl⟩
  obtain ⟨_, _, _, _, hpass, hback, _⟩ := tests_pass_iff ⟨by decide, by decide⟩ hr
  exact ⟨p, e, hpass.mpr hfree, hback (hpass.mpr hfree)⟩

end FirstKernel
