import FirstKernel.Fs.FileRun
import FirstKernel.Heap.Twin

/-!
# Files with and without a buffer

`fs_touch` gives a file its node even when there is no memory for the buffer: `data` is null and the
first `fs_write` that needs room allocates it.  `Stored k fs bs` is `Files` for such files too.

* `Stored.set`      one struct changes, and the heap around it as the allocator changes it;
* `Stored.write`    `fs_write` at any offset: -1 and nothing changed, or the bytes are in place;
* `Stored.touch`    `fs_touch`: a file more, empty;
* `Stored.read`     `fs_read` delivers what `contents` says.
-/

namespace FirstKernel
open ByteMem Cells Tiling

/-- distinct files whose structs and buffers, as far as they have one, are live and apart -/
structure Stored (k : Kernel) (fs : List Word) (bs : List Block) : Prop where
  blocks : HeapBlocks k.heap bs
  nodup : fs.Nodup
  ne_zero : ∀ f ∈ fs, f ≠ 0
  type : ∀ f ∈ fs, (k.node f).type = .file
  live : ∀ f ∈ fs, ∃ n, Live bs f n
  buffer : ∀ f ∈ fs, ∃ c, Payload bs (k.node f).data c ∧ (k.node f).size.toNat ≤ c
  apart : ∀ f ∈ fs, ∀ g ∈ fs, f ≠ g → (k.node f).data ≠ 0 → (k.node f).data ≠ (k.node g).data
  nodeApart : ∀ f ∈ fs, ∀ g ∈ fs, f ≠ (k.node g).data

section
variable {k k' : Kernel} {fs fs' : List Word} {bs bs' : List Block} {f p q : Word} {s' : Machine}
  {c n : Nat}

theorem Payload.live (hp : Payload bs p n) (h0 : p ≠ 0) : Live bs p n :=
  hp.resolve_left fun h => h0 h.1

theorem Payload.bounds {s : Machine} (h : HeapBlocks s bs) (hp : Payload bs p n) :
    p.toNat + n ≤ 0x01000000 ∧ (n = 0 ∨ 0x0080000C ≤ p.toNat) := by
  rcases hp with ⟨rfl, rfl⟩ | hp
  · exact ⟨by decide, .inl rfl⟩
  · have := hp.bounds h
    exact ⟨this.2, .inr this.1⟩

theorem stored_nil (h : HeapBlocks k.heap bs) : Stored k [] bs :=
  ⟨h, List.nodup_nil, nofun, nofun, nofun, nofun, nofun, nofun⟩

/-- the files that have a buffer -/
theorem Stored.files (h : Stored k fs bs) :
    Files k (fs.filter fun f => (k.node f).data ≠ 0) bs := by
  have hmem : ∀ f ∈ fs.filter fun f => (k.node f).data ≠ 0, f ∈ fs ∧ (k.node f).data ≠ 0 := by
    intro f hf
    obtain ⟨h1, h2⟩ := List.mem_filter.mp hf
    exact ⟨h1, of_decide_eq_true h2⟩
  refine ⟨h.blocks, fun f hf => ?_, fun f hf g hg hne => ?_, fun f hf g hg => ?_⟩
  · obtain ⟨h1, h2⟩ := hmem f hf
    obtain ⟨c, hp, hs⟩ := h.buffer f h1
    exact ⟨h.ne_zero f h1, h.type f h1, h.live f h1, c, hp.live h2, hs⟩
  · exact h.apart f (hmem f hf).1 g (hmem g hg).1 hne (hmem f hf).2
  · exact h.nodeApart f (hmem f hf).1 g (hmem g hg).1

theorem Stored.contents_null (h : Stored k fs bs) (hf : f ∈ fs) (h0 : (k.node f).data = 0) :
    (k.node f).size = 0 := by
  obtain ⟨c, ⟨_, rfl⟩ | hp, hs⟩ := h.buffer f hf
  · exact BitVec.eq_of_toNat_eq (Nat.le_zero.mp hs)
  · exact absurd h0 (hp.ne_zero h.blocks)

/-- the bytes of a file's buffer stay, and so do its contents -/
theorem Stored.contents_keep {K : Word → Prop} (h : Stored k fs bs) (hf : f ∈ fs)
    (hk : Keeps bs k.heap bs' k'.heap K) (hnode : k'.node f = k.node f)
    (hK : (k.node f).data ≠ 0 → K (k.node f).data) : contents k' f = contents k f := by
  refine contents_congr (by rw [hnode]) (by rw [hnode]) fun x h1 h2 => ?_
  obtain ⟨c, hp, hs⟩ := h.buffer f hf
  by_cases h0 : (k.node f).data = 0
  · have hsize : (k.node f).size.toNat = 0 := by
      rw [h.contents_null hf h0]
      rfl
    omega
  · exact hk.bytes _ c (hp.live h0) (hK h0) x h1 (by omega)

theorem Keeps.mono {s : Machine} {K K' : Word → Prop} (h : Keeps bs s bs' s' K)
    (hK : ∀ p, K' p → K p) : Keeps bs s bs' s' K' :=
  ⟨fun p n hp h' => h.live p n hp (hK p h'), fun p n hp h' => h.bytes p n hp (hK p h'), h.off⟩

/-- **One struct changes and the heap with it**, except for the payloads other than `p`. -/
theorem Stored.set (k' : Kernel) (h : Stored k fs bs) (hb : HeapBlocks k'.heap bs')
    (hk : Keeps bs k.heap bs' k'.heap (· ≠ p)) (hmem : ∀ g ∈ fs', g = f ∨ g ∈ fs) (hnd : fs'.Nodup)
    (hp : ∀ g ∈ fs, g ≠ p ∧ (g ≠ f → (k.node g).data ≠ 0 → (k.node g).data ≠ p))
    (hf0 : f ≠ 0) (hlive : ∃ n, Live bs' f n) (nd : FSNode) (htype : nd.type = .file)
    (hbuf : Payload bs' nd.data c) (hsize : nd.size.toNat ≤ c) (hfq : f ≠ nd.data)
    (hq : ∀ g ∈ fs, g ≠ f → f ≠ (k.node g).data ∧ g ≠ nd.data ∧
      (nd.data ≠ 0 → (k.node g).data ≠ nd.data))
    (hnode : k'.node = Function.update k.node f nd) :
    Stored k' fs' bs' ∧ ∀ g ∈ fs, g ≠ f → contents k' g = contents k g := by
  have hself : k'.node f = nd := by rw [hnode, Function.update_self]
  have hother : ∀ g, g ≠ f → k'.node g = k.node g := fun g hg => by rw [hnode, update_node_of_ne hg]
  have hold : ∀ g ∈ fs', g ≠ f → g ∈ fs := fun g hg hne => (hmem g hg).resolve_left hne
  refine ⟨⟨hb, hnd, fun g hg => ?_, fun g hg => ?_, fun g hg => ?_, fun g hg => ?_,
    fun g hg g' hg' hne h0 => ?_, fun g hg g' hg' => ?_⟩, fun g hg hne => ?_⟩
  · by_cases hgf : g = f
    · rw [hgf]
      exact hf0
    · exact h.ne_zero g (hold g hg hgf)
  · by_cases hgf : g = f
    · rw [hgf, hself]
      exact htype
    · rw [hother g hgf]
      exact h.type g (hold g hg hgf)
  · by_cases hgf : g = f
    · rw [hgf]
      exact hlive
    · obtain ⟨i, hi⟩ := h.live g (hold g hg hgf)
      exact ⟨i, hk.live g i hi (hp g (hold g hg hgf)).1⟩
  · by_cases hgf : g = f
    · rw [hgf, hself]
      exact ⟨c, hbuf, hsize⟩
    · rw [hother g hgf]
      obtain ⟨i, ⟨hd, rfl⟩ | hi, his⟩ := h.buffer g (hold g hg hgf)
      · exact ⟨0, .inl ⟨hd, rfl⟩, his⟩
      · exact ⟨i, .inr (hk.live _ i hi ((hp g (hold g hg hgf)).2 hgf (hi.ne_zero h.blocks))), his⟩
  · by_cases hgf : g = f
    · subst hgf
      rw [hself] at h0 ⊢
      rw [hother g' (Ne.symm hne)]
      exact Ne.symm ((hq g' (hold g' hg' (Ne.symm hne)) (Ne.symm hne)).2.2 h0)
    · rw [hother g hgf] at h0 ⊢
      by_cases hgf' : g' = f
      · rw [hgf', hself]
        by_cases hd : nd.data = 0
        · rw [hd]
          exact h0
        · exact (hq g (hold g hg hgf) hgf).2.2 hd
      · rw [hother g' hgf']
        exact h.apart g (hold g hg hgf) g' (hold g' hg' hgf') hne h0
  · by_cases hgf' : g' = f
    · rw [hgf', hself]
      by_cases hgf : g = f
      · rw [hgf]
        exact hfq
      · exact (hq g (hold g hg hgf) hgf).2.1
    · rw [hother g' hgf']
      by_cases hgf : g = f
      · rw [hgf]
        exact (hq g' (hold g' hg' hgf') hgf').1
      · exact h.nodeApart g (hold g hg hgf) g' (hold g' hg' hgf')
  · exact h.contents_keep hg hk (hother g hne) ((hp g hg).2 hne)

/-- the tree, the output and the memory off the heap may change -/
theorem Stored.congr (k' : Kernel) (h : Stored k fs bs) (hb : HeapBlocks k'.heap bs)
    (htype : ∀ g, (k'.node g).type = (k.node g).type) (hsize : ∀ g, (k'.node g).size = (k.node g).size)
    (hdata : ∀ g, (k'.node g).data = (k.node g).data)
    (hm : ∀ x, ¬ Outside x → k'.heap.mem x = k.heap.mem x) :
    Stored k' fs bs ∧ ∀ g ∈ fs, contents k' g = contents k g := by
  refine ⟨⟨hb, h.nodup, h.ne_zero, fun g hg => ?_, h.live, fun g hg => ?_, ?_, ?_⟩, fun g hg => ?_⟩
  · rw [htype]
    exact h.type g hg
  · rw [hdata, hsize]
    exact h.buffer g hg
  · simp only [hdata]
    exact h.apart
  · simp only [hdata]
    exact h.nodeApart
  · refine contents_congr (hsize g) (hdata g) fun x h1 h2 => hm x ?_
    obtain ⟨c, hp, hs⟩ := h.buffer g hg
    have := hp.bounds h.blocks
    unfold Outside
    omega

theorem Stored.poke (h : Stored k fs bs) (mem : Mem) (hm : ∀ x, ¬ Outside x → mem x = k.heap.mem x) :
    Stored (k.withMem mem) fs bs ∧ ∀ g ∈ fs, contents (k.withMem mem) g = contents k g :=
  h.congr _ (h.blocks.store rfl fun x hx => hm x hx.1) (fun _ => rfl) (fun _ => rfl) (fun _ => rfl) hm

/-! ## `fs_write` -/

section
variable {offset n buffer : Word}

/-- a file with bytes has a buffer -/
theorem Stored.data_ne_zero (h : Stored k fs bs) (hf : f ∈ fs)
    (hle : offset.toNat + n.toNat ≤ (k.node f).size.toNat) (hn : n ≠ 0) : (k.node f).data ≠ 0 := by
  intro h0
  apply hn
  apply BitVec.eq_of_toNat_eq
  rw [h.contents_null hf h0] at hle
  exact Nat.le_zero.mp (Nat.le_trans (Nat.le_add_left _ _) hle)

/-- bytes written into the buffer of `f` -/
theorem Stored.memcpy (h : Stored k fs bs) (hf : f ∈ fs) (hp : Payload bs (k.node f).data c)
    (offset : Word) (hcap : offset.toNat + n.toNat ≤ c) (hbuf : Buffer buffer n) :
    (k.memcpy ((k.node f).data + offset) buffer n).heap.mem = copy k.heap.mem
      ((k.node f).data.toNat + offset.toNat) buffer.toNat n.toNat ∧
    Stored (k.memcpy ((k.node f).data + offset) buffer n) fs bs ∧
    ∀ g ∈ fs, g ≠ f → contents (k.memcpy ((k.node f).data + offset) buffer n) g = contents k g := by
  have hb := hp.bounds h.blocks
  have hfit := hbuf.fits
  have hdst : ((k.node f).data + offset).toNat = (k.node f).data.toNat + offset.toNat :=
    BitVec.toNat_add_of_lt (by omega)
  have hmem : (k.memcpy ((k.node f).data + offset) buffer n).heap.mem = copy k.heap.mem
      ((k.node f).data.toNat + offset.toNat) buffer.toNat n.toNat := by
    show FirstKernel.memcpy _ _ _ _ = _
    rw [memcpy_eq _ _ _ _ (by rw [hdst]; omega) (by omega), hdst]
  -- what is off the buffer stays
  have hout : ∀ x, x < (k.node f).data.toNat ∨ (k.node f).data.toNat + c ≤ x →
      (k.memcpy ((k.node f).data + offset) buffer n).heap.mem x = k.heap.mem x := fun x hx => by
    rw [hmem, copy_out _ _ _ _ _ (by omega)]
  have hblocks : HeapBlocks (k.memcpy ((k.node f).data + offset) buffer n).heap bs := by
    refine h.blocks.store rfl fun x hx => hout x ?_
    rcases hp with ⟨_, rfl⟩ | hp
    · omega
    · exact hx.2 _ _ hp
  refine ⟨hmem, ⟨hblocks, h.nodup, h.ne_zero, h.type, h.live, h.buffer, h.apart, h.nodeApart⟩,
    fun g hg hne => contents_congr rfl rfl fun x h1 h2 => hout x ?_⟩
  obtain ⟨j, hj, hjs⟩ := h.buffer g hg
  rcases hp with ⟨_, rfl⟩ | hp
  · omega
  rcases hj with ⟨_, rfl⟩ | hj
  · omega
  have := hj.apart h.blocks hp (h.apart g hg f hf hne (hj.ne_zero h.blocks))
  omega

/-- `krealloc` gave `f` a larger buffer, or found the old one large enough -/
theorem Stored.grow (h : Stored k fs bs) (hf : f ∈ fs) (size : Word)
    (hg : Grown bs k.heap (k.node f).data c size.toNat bs' s' q) :
    Stored (k.withNode s' f { k.node f with data := q, size := size }) fs bs' ∧
    ∀ g ∈ fs, g ≠ f → contents (k.withNode s' f { k.node f with data := q, size := size }) g
      = contents k g := by
  obtain ⟨j, hlive, hj⟩ := hg.live
  have hnew : ∀ r i, Live bs r i → r ≠ (k.node f).data → r ≠ q := by
    intro r i hr hne
    rcases hg.fresh with e | hfresh
    · rw [e]
      exact hne
    · intro e
      exact hfresh i (e ▸ hr)
  have hstruct : ∀ g ∈ fs, g ≠ q := fun g hg' => by
    obtain ⟨i, hi⟩ := h.live g hg'
    exact hnew g i hi (h.nodeApart g hg' f hf)
  have hdata : ∀ g ∈ fs, g ≠ f → (k.node g).data ≠ 0 → (k.node g).data ≠ (k.node f).data :=
    fun g hg' hne h0 => h.apart g hg' f hf hne h0
  obtain ⟨i, hi⟩ := h.live f hf
  refine h.set (p := (k.node f).data) (c := j) _ hg.blocks hg.keeps (fun g hg' => .inr hg') h.nodup
    (fun g hg' => ⟨h.nodeApart g hg' f hf, hdata g hg'⟩) (h.ne_zero f hf)
    ⟨i, hg.keeps.live f i hi (h.nodeApart f hf f hf)⟩ { k.node f with data := q, size := size }
    (h.type f hf) (.inr hlive) hj (hstruct f hf) ?_ rfl
  intro g hg' hne
  refine ⟨h.nodeApart f hf g hg', hstruct g hg', fun _ => ?_⟩
  obtain ⟨i', hp', _⟩ := h.buffer g hg'
  by_cases h0 : (k.node g).data = 0
  · rw [h0]
    exact Ne.symm hg.ne_zero
  · exact hnew _ i' (hp'.live h0) (hdata g hg' hne h0)

/-- a write within the size overwrites bytes of the contents -/
theorem Stored.write_inside (h : Stored k fs bs) (hf : f ∈ fs) (hsum : offset.toNat + n.toNat < 2^32)
    (hgrow : ¬ (k.node f).size < offset + n) (hbuf : Buffer buffer n) :
    ∃ k', fsWrite k f offset n buffer = .ok (n, k') ∧ Stored k' fs bs ∧
      (∀ g ∈ fs, g ≠ f → contents k' g = contents k g) ∧
      (offset.toNat ≤ (k.node f).size.toNat → contents k' f
        = splice (contents k f) offset.toNat (loadN k.heap.mem buffer.toNat n.toNat)) := by
  obtain ⟨c, hp, hcur⟩ := h.buffer f hf
  have hle : offset.toNat + n.toNat ≤ (k.node f).size.toNat := by
    rw [BitVec.lt_def, BitVec.toNat_add_of_lt hsum] at hgrow
    omega
  have hb := hp.bounds h.blocks
  have hd := h.data_ne_zero hf hle
  obtain ⟨hmem, h1, h2⟩ := h.memcpy hf hp offset (Nat.le_trans hle hcur) hbuf
  refine ⟨_, fsWrite_inside (h.ne_zero f hf) (h.type f hf) hgrow hd, h1, h2, fun hoff => ?_⟩
  have hcopy : contents (k.memcpy ((k.node f).data + offset) buffer n) f
      = loadN (copy k.heap.mem ((k.node f).data.toNat + offset.toNat) buffer.toNat n.toNat)
        (k.node f).data.toNat (max (k.node f).size.toNat (offset.toNat + n.toNat)) := by
    unfold contents
    rw [hmem, max_eq_left hle]
    rfl
  rw [hcopy]
  refine loadN_copy _ _ _ _ _ _ hoff ?_
  by_cases hn : n.toNat = 0
  · omega
  · exact hbuf.disjoint (Nat.le_refl _) (by omega) (by omega)

/-- a write past the size, with the buffer `krealloc` gave -/
theorem Stored.write_grown (h : Stored k fs bs) (hf : f ∈ fs) (hsum : offset.toNat + n.toNat < 2^32)
    (hgrow : (k.node f).size < offset + n) (hcur : (k.node f).size.toNat ≤ c)
    (e : krealloc k.heap (k.node f).data (offset + n) = .ok (q, s'))
    (hg : Grown bs k.heap (k.node f).data c (offset + n).toNat bs' s' q) (hbuf : Buffer buffer n) :
    ∃ k', fsWrite k f offset n buffer = .ok (n, k') ∧ Stored k' fs bs' ∧
      (∀ g ∈ fs, g ≠ f → contents k' g = contents k g) ∧
      (offset.toNat ≤ (k.node f).size.toNat → contents k' f
        = splice (contents k f) offset.toNat (loadN k.heap.mem buffer.toNat n.toNat)) := by
  have hadd : (offset + n).toNat = offset.toNat + n.toNat :=
    BitVec.toNat_add_of_lt hsum
  have hlt : (k.node f).size.toNat < offset.toNat + n.toNat := by
    rw [BitVec.lt_def, hadd] at hgrow
    exact hgrow
  obtain ⟨h1, h2⟩ := h.grow hf (offset + n) hg
  obtain ⟨j, hlive, hj⟩ := hg.live
  rw [hadd] at hj
  obtain ⟨hmem, h3, h4⟩ := h1.memcpy hf (c := j) (by
    rw [withNode_node_self]
    exact .inr hlive) offset hj hbuf
  simp only [withNode_node_self] at hmem h3 h4
  refine ⟨_, fsWrite_grow (h.ne_zero f hf) (h.type f hf) hgrow e hg.ne_zero, h3,
    fun g hg' hne' => (h4 g hg' hne').trans (h2 g hg' hne'), fun hoff => ?_⟩
  have hb := hlive.bounds hg.blocks
  have hmax : (offset + n).toNat = max (k.node f).size.toNat (offset.toNat + n.toNat) := by
    rw [hadd, max_eq_right (Nat.le_of_lt hlt)]
  -- the source is off the heap, and the old bytes have moved along
  have hbuffer : loadN s'.mem buffer.toNat n.toNat = loadN k.heap.mem buffer.toNat n.toNat :=
    loadN_congr fun i hi => hg.keeps.off _ (hbuf.off _ (by omega) (by omega))
  have hfront : loadN s'.mem q.toNat (k.node f).size.toNat = contents k f :=
    loadN_congr fun i hi => hg.bytes i (Nat.lt_of_lt_of_le hi hcur)
  have hself : ((k.withNode s' f { k.node f with data := q, size := offset + n }).memcpy (q + offset)
      buffer n).node f = { k.node f with data := q, size := offset + n } := Function.update_self ..
  unfold contents at hfront ⊢
  rw [hself, hmem, ← hfront, ← hbuffer]
  show loadN _ _ (offset + n).toNat = _
  rw [hmax]
  exact loadN_copy _ _ _ _ _ _ hoff (hbuf.disjoint (Nat.le_refl _) (by omega) (by omega))

/-- **`fs_write` at any offset**: -1 and no file changed, or the bytes are in place, in the contents
as they were when the offset is not past their end. -/
theorem Stored.write (h : Stored k fs bs) (hf : f ∈ fs) (hbig : offset.toNat + n.toNat ≤ 0xFFFFFFF0)
    (hbuf : Buffer buffer n) :
    ∃ r k' bs', fsWrite k f offset n buffer = .ok (r, k') ∧ Stored k' fs bs' ∧
      (∀ g ∈ fs, g ≠ f → contents k' g = contents k g) ∧
      (r = minusOne ∧ contents k' f = contents k f ∨
        r = n ∧ (offset.toNat ≤ (k.node f).size.toNat → contents k' f
          = splice (contents k f) offset.toNat (loadN k.heap.mem buffer.toNat n.toNat))) := by
  obtain ⟨c, hp, hcur⟩ := h.buffer f hf
  have hsum : offset.toNat + n.toNat < 2^32 := by omega
  have hadd : (offset + n).toNat = offset.toNat + n.toNat :=
    BitVec.toNat_add_of_lt hsum
  by_cases hgrow : (k.node f).size < offset + n
  · have hne : offset + n ≠ 0 := fun e => BitVec.not_lt_zero (e ▸ hgrow)
    rcases krealloc_grown h.blocks hp hne (by rw [hadd]; exact hbig) with ⟨s', e, hb, hm⟩ |
      ⟨q, s', bs', e, hg⟩
    · obtain ⟨h1, h2⟩ := h.congr ({ k with heap := s' }.printf "Write error: Out of memory for '%s'\n"
        [.str (k.node f).name]) (hb.store rfl fun _ _ => rfl) (fun _ => rfl) (fun _ => rfl)
        (fun _ => rfl) fun x _ => congrFun hm x
      exact ⟨minusOne, _, bs, fsWrite_refused (h.ne_zero f hf) (h.type f hf) hgrow e, h1,
        fun g hg _ => h2 g hg, .inl ⟨rfl, h2 f hf⟩⟩
    · obtain ⟨k', e', h1, h2, h3⟩ := h.write_grown hf hsum hgrow hcur e hg hbuf
      exact ⟨n, k', bs', e', h1, h2, .inr ⟨rfl, h3⟩⟩
  · obtain ⟨k', e', h1, h2, h3⟩ := h.write_inside hf hsum hgrow hbuf
    exact ⟨n, k', bs, e', h1, h2, .inr ⟨rfl, h3⟩⟩

end

/-! ## `fs_read` -/

/-- the bytes that `fs_read` finds: -1 past the end, the bytes from the offset on otherwise -/
theorem Stored.read (h : Stored k fs bs) (hf : f ∈ fs) (offset : Word) {n buffer : Word}
    (hbuf : Buffer buffer n) : ∃ r mem, fsRead k f offset n buffer = .ok (r, k.withMem mem) ∧
      Stored (k.withMem mem) fs bs ∧ (∀ g ∈ fs, contents (k.withMem mem) g = contents k g) ∧
      ((contents k f).length < offset.toNat ∧ r = minusOne ∨
        offset.toNat ≤ (contents k f).length ∧
          r.toNat = min n.toNat ((contents k f).length - offset.toNat) ∧
          loadN mem buffer.toNat r.toNat = ((contents k f).drop offset.toNat).take n.toNat) := by
  have hf0 := h.ne_zero f hf
  have ht := h.type f hf
  obtain ⟨c, hp, hcur⟩ := h.buffer f hf
  have hb := hp.bounds h.blocks
  have hsame : k.withMem k.heap.mem = k := rfl
  rw [contents_length]
  by_cases hpast : (k.node f).size < offset
  · refine ⟨minusOne, k.heap.mem, ?_, h, fun _ _ => rfl, .inl ⟨BitVec.lt_def.mp hpast, rfl⟩⟩
    rw [fsRead_past hf0 ht hpast, hsame]
  have hle : offset.toNat ≤ (k.node f).size.toNat := by
    rw [BitVec.lt_def] at hpast
    omega
  by_cases h0 : (k.node f).data = 0
  · -- no buffer, no bytes
    have hsize := h.contents_null hf h0
    have hoff : offset = 0 := by
      apply BitVec.eq_of_toNat_eq
      rw [hsize] at hle
      exact Nat.le_zero.mp hle
    have hr : (if (k.node f).size < offset + n then (k.node f).size - offset else n) = 0 := by
      have hsum : offset.toNat + n.toNat < 2^32 := by
        rw [hoff]
        show 0 + n.toNat < 2^32
        have := n.isLt
        omega
      apply BitVec.eq_of_toNat_eq
      rw [toNat_readSize hle hsum, hsize, hoff]
      exact Nat.min_zero _
    refine ⟨0, k.heap.mem, ?_, h, fun _ _ => rfl, .inr ⟨hle, ?_, ?_⟩⟩
    · exact fsRead_inside hf0 ht hpast hr fun h0 => absurd rfl h0
    · rw [hsize, hoff]
      exact (Nat.min_zero _).symm
    · unfold contents
      rw [hsize, hoff]
      exact List.take_nil.symm
  · have hsum : offset.toNat + n.toNat < 2^32 := by
      by_cases hn : n.toNat = 0
      · omega
      · have := hbuf.side hn
        have := hbuf.fits
        omega
    have hmem : f ∈ fs.filter fun f => (k.node f).data ≠ 0 :=
      List.mem_filter.mpr ⟨hf, decide_eq_true h0⟩
    rcases fsRead_file h.files hmem offset hsum hbuf with ⟨hlt, _⟩ | ⟨_, r, mem, e, hr, hbytes, hfiles,
      hsame⟩
    · rw [contents_length] at hlt
      omega
    · rw [contents_length] at hr
      refine ⟨r, mem, e, ?_, ?_, .inr ⟨hle, hr, hbytes⟩⟩
      · exact ⟨hfiles.blocks, h.nodup, h.ne_zero, h.type, h.live, h.buffer, h.apart, h.nodeApart⟩
      · intro g hg
        by_cases hg0 : (k.node g).data = 0
        · have hsize := h.contents_null hg hg0
          unfold contents
          rw [withMem_node, hsize]
          rfl
        · exact hsame g (List.mem_filter.mpr ⟨hg, decide_eq_true hg0⟩)

/-! ## `fs_touch` -/

theorem kmalloc_keeps {s : Machine} {n : Word} (h : HeapBlocks s bs) (e : kmalloc s n = .ok (p, s')) :
    ∃ bs', HeapBlocks s' bs' ∧ Keeps bs s bs' s' (fun _ => True) ∧ (p = 0 ∨ ∃ j, Live bs' p j) ∧
      (p ≠ 0 → ∀ j, ¬ Live bs p j) := by
  rcases kmalloc_client h n with ⟨s1, e', hb, hm⟩ | ⟨q, s1, bs1, j, e', h0, hb, hk, hlive, _, hfresh, _⟩
  · rw [e] at e'
    cases e'
    exact ⟨bs, hb, ⟨fun _ _ hq _ => hq, fun _ _ _ _ x _ _ => congrFun hm x,
      fun x _ => congrFun hm x⟩, .inl rfl, fun h0 => absurd rfl h0⟩
  · rw [e] at e'
    cases e'
    exact ⟨bs1, hb, hk, .inr ⟨j, hlive⟩, fun _ => hfresh⟩

/-- **`fs_touch`**: nothing, or a file more, empty. -/
theorem Stored.touch (h : Stored k fs bs) {path : Option CString} (e : fsTouch k path = .ok (f, k')) :
    f = 0 ∧ k' = k ∨ f ≠ 0 ∧ f ∉ fs ∧ contents k' f = [] ∧
      (∀ g ∈ fs, contents k' g = contents k g) ∧ ∃ bs', Stored k' (fs ++ [f]) bs' := by
  by_cases hf : f = 0
  · exact .inl ⟨hf, fsTouch_none (hf ▸ e)⟩
  obtain ⟨name, parent, q, h1, h2, e1, e2, e3⟩ := fsTouch_made e hf
  obtain ⟨bs1, hb1, hk1, hlive1, hfresh1⟩ := kmalloc_keeps h.blocks e1
  obtain ⟨bs2, hb2, hk2, hlive2, hfresh2⟩ := kmalloc_keeps hb1 e2
  obtain ⟨j, hj⟩ := hlive1.resolve_left hf
  have hk : Keeps bs k.heap bs2 h2 (· ≠ 0) := (hk1.trans hk2).mono fun _ _ => ⟨trivial, trivial⟩
  have hnew : ∀ r i, Live bs r i → r ≠ f ∧ (q ≠ 0 → r ≠ q) := by
    refine fun r i hr => ⟨fun er => hfresh1 hf i (er ▸ hr), fun hq er => ?_⟩
    exact hfresh2 hq i (er ▸ hk1.live r i hr trivial)
  have hfq : f ≠ q := by
    by_cases hq : q = 0
    · rw [hq]
      exact hf
    · exact fun eq => hfresh2 hq j (eq ▸ hj)
  obtain ⟨c, hp⟩ : ∃ c, Payload bs2 q c := by
    rcases hlive2 with hq | ⟨c, hc⟩
    · exact ⟨0, .inl ⟨hq, rfl⟩⟩
    · exact ⟨c, .inr hc⟩
  have hnotin : f ∉ fs := fun hm => by
    obtain ⟨i, hi⟩ := h.live f hm
    exact (hnew f i hi).1 rfl
  have hnodup : (fs ++ [f]).Nodup := by
    refine List.nodup_append.mpr ⟨h.nodup, List.pairwise_singleton _ f, fun g hg g' hg' eg => ?_⟩
    rw [List.mem_singleton.mp hg'] at eg
    exact hnotin (eg ▸ hg)
  have hmem : ∀ g ∈ fs ++ [f], g = f ∨ g ∈ fs := fun g hg =>
    (List.mem_append.mp hg).symm.imp_left List.mem_singleton.mp
  obtain ⟨hs1, hc1⟩ := h.set (k.withNode h2 f (fileNode name 0 q)) hb2 hk hmem hnodup
    (fun g hg => ⟨h.ne_zero g hg, fun _ h0 => h0⟩) hf ⟨j, hk2.live f j hj trivial⟩
    (fileNode name 0 q) rfl hp (Nat.zero_le _) hfq (fun g hg _ => by
      obtain ⟨i, hi⟩ := h.live g hg
      obtain ⟨i', hp', _⟩ := h.buffer g hg
      refine ⟨?_, ?_, fun hq => ?_⟩
      · rcases hp' with ⟨h0, _⟩ | hd
        · rw [h0]
          exact hf
        · exact Ne.symm (hnew _ i' hd).1
      · by_cases hq : q = 0
        · show g ≠ q
          rw [hq]
          exact h.ne_zero g hg
        · exact (hnew g i hi).2 hq
      · rcases hp' with ⟨h0, _⟩ | hd
        · rw [h0]
          exact Ne.symm hq
        · exact (hnew _ i' hd).2 hq) rfl
  have hsame := fsAddChild_sameFiles e3
  obtain ⟨hs2, hc2⟩ := hs1.congr k' (hs1.blocks.store hsame.freeList fun x _ => by rw [hsame.mem])
    hsame.type hsame.size hsame.data fun x _ => by rw [hsame.mem]
  refine .inr ⟨hf, hnotin, ?_, fun g hg => ?_, bs2, hs2⟩
  · rw [hc2 f (List.mem_append_right _ (List.mem_singleton.mpr rfl))]
    unfold contents
    rw [withNode_node_self]
    rfl
  · rw [hc2 g (List.mem_append_left _ hg), hc1 g hg fun eg => hnotin (eg ▸ hg)]

end

end FirstKernel
