import FirstKernel.Fs.Spec

/-!
# Files as byte arrays

`contents k f` is the file's data up to its size.  `Files k fs bs`: the files `fs` have live data
buffers that hold their sizes, one buffer each.

* `fsRead_file`    the bytes from the offset on, as many as there are;
* `fsWrite_file`   the bytes overwrite a part of the contents, or nothing changes.

Both keep the contents of every other file.
-/

namespace FirstKernel
open ByteMem Cells Tiling

def contents (k : Kernel) (f : Word) : List Byte :=
  loadN k.heap.mem (k.node f).data.toNat (k.node f).size.toNat

/-- a caller's buffer of `n` bytes: inside the address space and off the heap -/
structure Buffer (buf n : Word) : Prop where
  fits : buf.toNat + n.toNat ≤ 2^32
  off : ∀ x, buf.toNat ≤ x → x < buf.toNat + n.toNat → Outside x

structure IsFile (k : Kernel) (bs : List Block) (f : Word) : Prop where
  ne_zero : f ≠ 0
  type : (k.node f).type = .file
  live : ∃ n, Live bs f n
  data : ∃ n, Live bs (k.node f).data n ∧ (k.node f).size.toNat ≤ n

structure Files (k : Kernel) (fs : List Word) (bs : List Block) : Prop where
  blocks : HeapBlocks k.heap bs
  file : ∀ f ∈ fs, IsFile k bs f
  apart : ∀ f ∈ fs, ∀ g ∈ fs, f ≠ g → (k.node f).data ≠ (k.node g).data
  nodeApart : ∀ f ∈ fs, ∀ g ∈ fs, f ≠ (k.node g).data

section
variable {k k' : Kernel} {fs : List Word} {bs bs' : List Block} {f g : Word}

theorem contents_length (k : Kernel) (f : Word) : (contents k f).length = (k.node f).size.toNat :=
  loadN_length ..

/-- the contents of a file that keeps its struct and whose buffer keeps its bytes -/
theorem contents_congr (hs : (k'.node g).size = (k.node g).size)
    (hd : (k'.node g).data = (k.node g).data)
    (hm : ∀ x, (k.node g).data.toNat ≤ x → x < (k.node g).data.toNat + (k.node g).size.toNat →
      k'.heap.mem x = k.heap.mem x) : contents k' g = contents k g := by
  unfold contents
  rw [hs, hd]
  exact loadN_congr fun i hi => hm _ (by omega) (by omega)

/-- a buffer lies on one side of the heap -/
theorem Buffer.side {buf n : Word} (h : Buffer buf n) (hn : n.toNat ≠ 0) :
    buf.toNat + n.toNat ≤ 0x00800000 ∨ 0x01000000 ≤ buf.toNat := by
  have hstart := h.off buf.toNat (Nat.le_refl _) (by omega)
  unfold Outside at hstart
  by_cases hlt : buf.toNat < 0x00800000
  · left
    by_contra hcon
    have hmid := h.off 0x00800000 (by omega) (by omega)
    unfold Outside at hmid
    omega
  · right
    omega

/-- it meets no range of the heap -/
theorem Buffer.disjoint {buf n : Word} (h : Buffer buf n) {a r : Nat} (hr : r ≤ n.toNat)
    (h1 : 0x00800000 ≤ a) (h2 : a + r ≤ 0x01000000) : a + r ≤ buf.toNat ∨ buf.toNat + r ≤ a := by
  by_cases hn : n.toNat = 0
  · omega
  · have := h.side hn
    omega

/-! ## `fs_read` -/

theorem Files.bounds (h : Files k fs bs) (hf : f ∈ fs) :
    0x0080000C ≤ (k.node f).data.toNat ∧
      (k.node f).data.toNat + (k.node f).size.toNat ≤ 0x01000000 := by
  obtain ⟨n, hlive, hsize⟩ := (h.file f hf).data
  have := hlive.bounds h.blocks
  omega

/-- memory written off the heap leaves every file alone -/
theorem Files.poke (h : Files k fs bs) (mem : Mem) (hm : ∀ x, ¬ Outside x → mem x = k.heap.mem x) :
    Files (k.withMem mem) fs bs ∧ ∀ g ∈ fs, contents (k.withMem mem) g = contents k g := by
  refine ⟨⟨h.blocks.store rfl fun x hx => hm x hx.1, ?_, h.apart, h.nodeApart⟩, fun g hg => ?_⟩
  · exact fun f hf => ⟨(h.file f hf).ne_zero, (h.file f hf).type, (h.file f hf).live,
      (h.file f hf).data⟩
  · have hb := h.bounds hg
    refine contents_congr rfl rfl fun x h1 h2 => hm x ?_
    unfold Outside
    omega

theorem fsRead_past (hf : f ≠ 0) (ht : (k.node f).type = .file) {offset size buffer : Word}
    (h : (k.node f).size < offset) : fsRead k f offset size buffer = .ok (minusOne, k) := by
  unfold fsRead
  rw [if_neg (not_or.mpr ⟨hf, not_not.mpr ht⟩)]
  simp only [if_pos h]
  rfl

theorem fsRead_inside (hf : f ≠ 0) (ht : (k.node f).type = .file) {offset size buffer r : Word}
    (h : ¬ (k.node f).size < offset)
    (hr : (if (k.node f).size < offset + size then (k.node f).size - offset else size) = r)
    (hd : r ≠ 0 → (k.node f).data ≠ 0) :
    fsRead k f offset size buffer = .ok (r, k.memcpy buffer ((k.node f).data + offset) r) := by
  unfold fsRead
  rw [if_neg (not_or.mpr ⟨hf, not_not.mpr ht⟩)]
  simp only [if_neg h, hr]
  by_cases hr0 : r = 0
  · rw [if_neg (not_not.mpr hr0)]
    rfl
  · rw [if_pos hr0, deref_ok (hd hr0)]
    rfl

/-- the number of bytes a read takes -/
theorem toNat_readSize {total offset size : Word} (hle : offset.toNat ≤ total.toNat)
    (hsum : offset.toNat + size.toNat < 2^32) :
    (if total < offset + size then total - offset else size).toNat
      = min size.toNat (total.toNat - offset.toNat) := by
  have hadd : (offset + size).toNat = offset.toNat + size.toNat :=
    BitVec.toNat_add_of_lt hsum
  by_cases hshort : total < offset + size
  · rw [if_pos hshort, BitVec.toNat_sub_of_le (BitVec.le_def.mpr hle)]
    rw [BitVec.lt_def, hadd] at hshort
    omega
  · rw [if_neg hshort]
    rw [BitVec.lt_def, hadd] at hshort
    omega

theorem contents_drop_take (k : Kernel) (f : Word) {i : Nat} (hle : i ≤ (k.node f).size.toNat) (n : Nat) :
    ((contents k f).drop i).take n = loadN k.heap.mem ((k.node f).data.toNat + i)
      (min n ((k.node f).size.toNat - i)) := by
  unfold contents
  rw [loadN_drop _ _ _ _ hle]
  by_cases hlong : n ≤ (k.node f).size.toNat - i
  · rw [loadN_take _ _ _ _ hlong, min_eq_left hlong]
  · rw [List.take_of_length_le (by rw [loadN_length]; omega), min_eq_right (by omega)]

/-- **`fs_read` delivers the bytes from the offset on, as many as asked for and there.** -/
theorem fsRead_file (h : Files k fs bs) (hf : f ∈ fs) (offset : Word) {size buffer : Word}
    (hsum : offset.toNat + size.toNat < 2^32) (hbuf : Buffer buffer size) :
    ((contents k f).length < offset.toNat ∧ fsRead k f offset size buffer = .ok (minusOne, k)) ∨
    (offset.toNat ≤ (contents k f).length ∧ ∃ r mem,
      fsRead k f offset size buffer = .ok (r, k.withMem mem) ∧
      r.toNat = min size.toNat ((contents k f).length - offset.toNat) ∧
      loadN mem buffer.toNat r.toNat = ((contents k f).drop offset.toNat).take size.toNat ∧
      Files (k.withMem mem) fs bs ∧ ∀ g ∈ fs, contents (k.withMem mem) g = contents k g) := by
  have hfile := h.file f hf
  have hb := h.bounds hf
  rw [contents_length]
  by_cases hpast : (k.node f).size < offset
  · exact .inl ⟨BitVec.lt_def.mp hpast, fsRead_past hfile.ne_zero hfile.type hpast⟩
  right
  have hle : offset.toNat ≤ (k.node f).size.toNat := by
    rw [BitVec.lt_def] at hpast
    omega
  -- the number of bytes read
  obtain ⟨r, hr⟩ : ∃ r, r = (if (k.node f).size < offset + size then (k.node f).size - offset
    else size) := ⟨_, rfl⟩
  have hrn : r.toNat = min size.toNat ((k.node f).size.toNat - offset.toNat) := by
    rw [hr]
    exact toNat_readSize hle hsum
  have hsrc : ((k.node f).data + offset).toNat = (k.node f).data.toNat + offset.toNat :=
    BitVec.toNat_add_of_lt (by omega)
  have hfit := hbuf.fits
  have hmem : memcpy k.heap.mem buffer ((k.node f).data + offset) r.toNat
      = copy k.heap.mem buffer.toNat ((k.node f).data.toNat + offset.toNat) r.toNat := by
    rw [memcpy_eq _ _ _ _ (by omega) (by rw [hsrc]; omega), hsrc]
  have hdata : (k.node f).data ≠ 0 := by
    intro e
    rw [e] at hb
    exact absurd hb.1 (by decide)
  obtain ⟨hfiles, hsame⟩ := h.poke (memcpy k.heap.mem buffer
    ((k.node f).data + offset) r.toNat) fun x hx => by
      rw [hmem, copy_out _ _ _ _ _ ?_]
      by_contra hcon
      exact hx (hbuf.off x (by omega) (by omega))
  refine ⟨hle, r, _, fsRead_inside hfile.ne_zero hfile.type hpast hr.symm fun _ => hdata, hrn, ?_,
    hfiles, hsame⟩
  have hdisj := hbuf.disjoint (a := (k.node f).data.toNat + offset.toNat) (r := r.toNat) (by omega)
    (by omega) (by omega)
  rw [contents_drop_take k f hle, ← hrn, hmem]
  exact loadN_congr fun i hi => copy_in _ _ _ _ _ (by omega) hi

/-! ## `fs_write` -/

section
variable {s' : Machine} {q offset n buffer : Word}

theorem fsWrite_refused (hf : f ≠ 0) (ht : (k.node f).type = .file)
    (hgrow : (k.node f).size < offset + n)
    (e : FirstKernel.krealloc k.heap (k.node f).data (offset + n) = .ok (0, s')) :
    fsWrite k f offset n buffer = .ok (minusOne, { k with heap := s' }.printf
      "Write error: Out of memory for '%s'\n" [.str (k.node f).name]) := by
  have e1 : k.krealloc (k.node f).data (offset + n) = .ok (0, { k with heap := s' }) := by
    unfold Kernel.krealloc
    rw [e]
    rfl
  unfold fsWrite
  rw [if_neg (not_or.mpr ⟨hf, not_not.mpr ht⟩), if_pos hgrow, e1]
  rfl

theorem fsWrite_grow (hf : f ≠ 0) (ht : (k.node f).type = .file) (hgrow : (k.node f).size < offset + n)
    (e : FirstKernel.krealloc k.heap (k.node f).data (offset + n) = .ok (q, s')) (hq : q ≠ 0) :
    fsWrite k f offset n buffer = .ok (n, (k.withNode s' f
      { k.node f with data := q, size := offset + n }).memcpy (q + offset) buffer n) := by
  have e1 : k.krealloc (k.node f).data (offset + n) = .ok (q, { k with heap := s' }) := by
    unfold Kernel.krealloc
    rw [e]
    rfl
  unfold fsWrite
  rw [if_neg (not_or.mpr ⟨hf, not_not.mpr ht⟩), if_pos hgrow, e1, bind_ok]
  simp only [if_neg hq, modify_node_self]
  rfl

theorem fsWrite_inside (hf : f ≠ 0) (ht : (k.node f).type = .file)
    (hgrow : ¬ (k.node f).size < offset + n) (hd : n ≠ 0 → (k.node f).data ≠ 0) :
    fsWrite k f offset n buffer = .ok (n, k.memcpy ((k.node f).data + offset) buffer n) := by
  unfold fsWrite
  rw [if_neg (not_or.mpr ⟨hf, not_not.mpr ht⟩), if_neg hgrow]
  by_cases hn : n = 0
  · simp only [if_neg (not_not.mpr hn)]
    rfl
  · simp only [if_pos hn, deref_ok (hd hn)]
    rfl

end

/-- the struct of `f` with other fields, the rest of the kernel as it is -/
theorem update_node_of_ne {n : FSNode} (hg : g ≠ f) : Function.update k.node f n g = k.node g :=
  Function.update_of_ne hg ..

/-- memory written inside the buffer of `f` -/
theorem Files.inside (h : Files k fs bs) (hf : f ∈ fs) (mem : Mem) {c : Nat}
    (hlive : Live bs (k.node f).data c)
    (hmem : ∀ x, (x < (k.node f).data.toNat ∨ (k.node f).data.toNat + c ≤ x) →
      mem x = k.heap.mem x) :
    Files (k.withMem mem) fs bs ∧
    ∀ g ∈ fs, g ≠ f → contents (k.withMem mem) g = contents k g := by
  refine ⟨⟨h.blocks.store rfl fun x hx => hmem x (hx.2 _ _ hlive), fun g hg => ?_, h.apart,
    h.nodeApart⟩, fun g hg hne => ?_⟩
  · exact ⟨(h.file g hg).ne_zero, (h.file g hg).type, (h.file g hg).live, (h.file g hg).data⟩
  · obtain ⟨j, hj, hjs⟩ := (h.file g hg).data
    have hapart := hj.apart h.blocks hlive (h.apart g hg f hf hne)
    refine contents_congr rfl rfl fun x h1 h2 => hmem x ?_
    omega

/-- a new size for `f` that its buffer holds -/
theorem Files.resize (k' : Kernel) (h : Files k fs bs) {size : Word} {c : Nat} (hlive : Live bs (k.node f).data c)
    (hsize : size.toNat ≤ c) (hnode : k'.node = Function.update k.node f { k.node f with size := size })
    (hmem : k'.heap.mem = k.heap.mem) (hlist : k'.heap.freeList = k.heap.freeList) :
    Files k' fs bs ∧ ∀ g ∈ fs, g ≠ f → contents k' g = contents k g := by
  have hself : k'.node f = { k.node f with size := size } := by rw [hnode, Function.update_self]
  have hother : ∀ g, g ≠ f → k'.node g = k.node g := fun g hg => by rw [hnode, update_node_of_ne hg]
  have hdata : ∀ g, (k'.node g).data = (k.node g).data := by
    intro g
    by_cases hg : g = f
    · rw [hg, hself]
    · rw [hother g hg]
  have hblocks : HeapBlocks k'.heap bs := h.blocks.store hlist fun x _ => by rw [hmem]
  refine ⟨⟨hblocks, fun g hg => ?_, fun g hg g' hg' hne => ?_, fun g hg g' hg' => ?_⟩,
    fun g hg hne => ?_⟩
  · have hold := h.file g hg
    by_cases hgf : g = f
    · subst hgf
      exact ⟨hold.ne_zero, by rw [hself]; exact hold.type, hold.live, c, by rw [hdata]; exact hlive,
        by rw [hself]; exact hsize⟩
    · exact ⟨hold.ne_zero, by rw [hother g hgf]; exact hold.type, hold.live,
        by rw [hother g hgf]; exact hold.data⟩
  · rw [hdata, hdata]
    exact h.apart g hg g' hg' hne
  · rw [hdata]
    exact h.nodeApart g hg g' hg'
  · exact contents_congr (by rw [hother g hne]) (hdata g) fun x _ _ => by rw [hmem]

/-- bytes written inside the buffer of `f`, whose size grows to the end of the write -/
theorem Files.overwrite (k' : Kernel) (h : Files k fs bs) (hf : f ∈ fs) (offset size : Word)
    {n buffer : Word} {c : Nat}
    (hlive : Live bs (k.node f).data c) (hcap : offset.toNat + n.toNat ≤ c)
    (hoff : offset.toNat ≤ (k.node f).size.toNat) (hbuf : Buffer buffer n)
    (hsize : size.toNat = max (k.node f).size.toNat (offset.toNat + n.toNat))
    (hcur : (k.node f).size.toNat ≤ c)
    (hnode : k'.node = Function.update k.node f { k.node f with size := size })
    (hmem : k'.heap.mem = memcpy k.heap.mem ((k.node f).data + offset) buffer n.toNat)
    (hlist : k'.heap.freeList = k.heap.freeList) :
    Files k' fs bs ∧
    contents k' f = splice (contents k f) offset.toNat (loadN k.heap.mem buffer.toNat n.toNat) ∧
    ∀ g ∈ fs, g ≠ f → contents k' g = contents k g := by
  have hb := hlive.bounds h.blocks
  have hfit := hbuf.fits
  have hdst : ((k.node f).data + offset).toNat = (k.node f).data.toNat + offset.toNat :=
    BitVec.toNat_add_of_lt (by omega)
  rw [memcpy_eq _ _ _ _ (by rw [hdst]; omega) (by omega), hdst] at hmem
  obtain ⟨h1, h2⟩ := h.inside hf k'.heap.mem hlive fun x hx => by
    rw [hmem, copy_out _ _ _ _ _ (by omega)]
  obtain ⟨h3, h4⟩ := h1.resize k' hlive (by rw [hsize]; exact max_le hcur hcap) hnode rfl hlist
  refine ⟨h3, ?_, fun g hg hne => (h4 g hg hne).trans (h2 g hg hne)⟩
  unfold contents
  rw [hnode, Function.update_self, hsize, hmem]
  exact loadN_copy _ _ _ _ _ _ hoff (hbuf.disjoint (Nat.le_refl _) (by omega) (by omega))

/-- `krealloc` moved the data of `f` -/
theorem Files.move (k' : Kernel) (h : Files k fs bs) (hf : f ∈ fs) {q : Word} {s' : Machine} {c j : Nat}
    (hlive : Live bs (k.node f).data c) (hcur : (k.node f).size.toNat ≤ c) (hj : c ≤ j)
    (hblocks : HeapBlocks s' bs') (hkeep : Keeps bs k.heap bs' s' (· ≠ (k.node f).data))
    (hq : Live bs' q j) (hfresh : ∀ i, ¬ Live bs q i)
    (hbytes : ∀ i, i < c → s'.mem (q.toNat + i) = k.heap.mem ((k.node f).data.toNat + i))
    (hheap : k'.heap = s')
    (hnode : k'.node = Function.update k.node f { k.node f with data := q }) :
    Files k' fs bs' ∧ ∀ g ∈ fs, contents k' g = contents k g := by
  have hself : k'.node f = { k.node f with data := q } := by rw [hnode, Function.update_self]
  have hother : ∀ g, g ≠ f → k'.node g = k.node g := fun g hg => by rw [hnode, update_node_of_ne hg]
  have hlive' : ∀ g ∈ fs, ∃ i, Live bs' g i := by
    intro g hg
    obtain ⟨i, hi⟩ := (h.file g hg).live
    exact ⟨i, hkeep.live g i hi (h.nodeApart g hg f hf)⟩
  have hold : ∀ g i, Live bs (k.node g).data i → (k.node g).data ≠ q := by
    intro g i hi e
    exact hfresh i (e ▸ hi)
  refine ⟨⟨hheap ▸ hblocks, fun g hg => ?_, fun g hg g' hg' hne => ?_, fun g hg g' hg' => ?_⟩,
    fun g hg => ?_⟩
  · have hfile := h.file g hg
    by_cases hgf : g = f
    · subst hgf
      refine ⟨hfile.ne_zero, by rw [hself]; exact hfile.type, hlive' g hg, j, ?_, ?_⟩
      · rw [hself]
        exact hq
      · rw [hself]
        exact Nat.le_trans hcur hj
    · obtain ⟨i, hi, his⟩ := hfile.data
      refine ⟨hfile.ne_zero, by rw [hother g hgf]; exact hfile.type, hlive' g hg, i, ?_, ?_⟩
      · rw [hother g hgf]
        exact hkeep.live _ i hi (h.apart g hg f hf hgf)
      · rw [hother g hgf]
        exact his
  · obtain ⟨i, hi, _⟩ := (h.file g hg).data
    obtain ⟨i', hi', _⟩ := (h.file g' hg').data
    by_cases hgf : g = f
    · subst hgf
      rw [hself, hother g' (Ne.symm hne)]
      exact Ne.symm (hold g' i' hi')
    · by_cases hgf' : g' = f
      · subst hgf'
        rw [hself, hother g hgf]
        exact hold g i hi
      · rw [hother g hgf, hother g' hgf']
        exact h.apart g hg g' hg' hne
  · by_cases hgf' : g' = f
    · subst hgf'
      rw [hself]
      obtain ⟨i, hi⟩ := (h.file g hg).live
      have hne : g ≠ q := fun e => hfresh i (e ▸ hi)
      exact hne
    · rw [hother g' hgf']
      exact h.nodeApart g hg g' hg'
  · by_cases hgf : g = f
    · subst hgf
      unfold contents
      rw [hself, hheap]
      exact loadN_congr fun i hi => hbytes i (Nat.lt_of_lt_of_le hi hcur)
    · obtain ⟨i, hi, his⟩ := (h.file g hg).data
      refine contents_congr (by rw [hother g hgf]) (by rw [hother g hgf]) fun x h1 h2 => ?_
      rw [hheap]
      exact hkeep.bytes _ i hi (h.apart g hg f hf hgf) x h1 (by omega)

/-- a kernel with the same structs and the same memory -/
theorem Files.congr (k' : Kernel) (h : Files k fs bs) (hnode : k'.node = k.node) (hblocks : HeapBlocks k'.heap bs)
    (hmem : k'.heap.mem = k.heap.mem) : Files k' fs bs ∧ ∀ g, contents k' g = contents k g := by
  refine ⟨⟨hblocks, fun g hg => ?_, ?_, ?_⟩, fun g => ?_⟩
  · obtain ⟨h1, h2, h3, h4⟩ := h.file g hg
    exact ⟨h1, by rw [hnode]; exact h2, h3, by rw [hnode]; exact h4⟩
  · rw [hnode]
    exact h.apart
  · rw [hnode]
    exact h.nodeApart
  · unfold contents
    rw [hnode, hmem]

/-- **`fs_write` overwrites a part of the contents, or answers -1 and changes nothing; no other file
changes.** -/
theorem fsWrite_file (h : Files k fs bs) (hf : f ∈ fs) (offset : Word) {n buffer : Word}
    (hoff : offset.toNat ≤ (k.node f).size.toNat) (hbig : offset.toNat + n.toNat ≤ 0xFFFFFFF0)
    (hbuf : Buffer buffer n) :
    ∃ r k' bs', fsWrite k f offset n buffer = .ok (r, k') ∧ Files k' fs bs' ∧
      (r = n ∧ contents k' f
          = splice (contents k f) offset.toNat (loadN k.heap.mem buffer.toNat n.toNat) ∨
        r = minusOne ∧ contents k' f = contents k f) ∧
      ∀ g ∈ fs, g ≠ f → contents k' g = contents k g := by
  have hfile := h.file f hf
  obtain ⟨c, hlive, hcur⟩ := hfile.data
  have hf0 := hfile.ne_zero
  have ht := hfile.type
  have hadd : (offset + n).toNat = offset.toNat + n.toNat :=
    BitVec.toNat_add_of_lt (by omega)
  have hdata := hlive.ne_zero h.blocks
  by_cases hgrow : (k.node f).size < offset + n
  · have hlt : (k.node f).size.toNat < offset.toNat + n.toNat := by
      rw [BitVec.lt_def, hadd] at hgrow
      exact hgrow
    have hne : offset + n ≠ 0 := by
      intro e
      rw [e] at hadd
      exact absurd hadd (by show 0 ≠ _; omega)
    have hmax : (offset + n).toNat = max (k.node f).size.toNat (offset.toNat + n.toNat) := by
      rw [hadd, max_eq_right (Nat.le_of_lt hlt)]
    rcases krealloc_client h.blocks hlive hne (by rw [hadd]; exact hbig) with ⟨hfit, e⟩ |
      ⟨_, s', e, hb', hm⟩ | ⟨hmove, q, s', bs', j, e, hq0, _, hb', hkeep, hq, hj, hbytes, hfresh, _⟩
    -- the block is large enough
    · rw [hadd] at hfit
      obtain ⟨h1, h2, h3⟩ := h.overwrite ((k.withNode k.heap f { k.node f with
        data := (k.node f).data, size := offset + n }).memcpy ((k.node f).data + offset) buffer n) hf
        offset (offset + n) hlive hfit hoff hbuf hmax hcur rfl rfl rfl
      exact ⟨n, _, bs, fsWrite_grow hf0 ht hgrow e hdata, h1, .inl ⟨rfl, h2⟩, h3⟩
    -- no block is free for it
    · obtain ⟨h1, h2⟩ := h.congr ({ k with heap := s' }.printf
        "Write error: Out of memory for '%s'\n" [.str (k.node f).name]) rfl
        (hb'.store rfl fun _ _ => rfl) hm
      exact ⟨minusOne, _, bs, fsWrite_refused hf0 ht hgrow e, h1, .inr ⟨rfl, h2 f⟩, fun g _ _ => h2 g⟩
    -- the data moves
    · rw [hadd] at hmove hj
      let k1 : Kernel := { k with
        heap := s', node := Function.update k.node f { k.node f with data := q } }
      have hself : k1.node f = { k.node f with data := q } := Function.update_self ..
      obtain ⟨h1, h2⟩ := h.move k1 hf hlive hcur (by omega) hb' hkeep hq hfresh hbytes rfl rfl
      obtain ⟨h3, h4, h5⟩ := h1.overwrite ((k.withNode s' f { k.node f with
          data := q, size := offset + n }).memcpy (q + offset) buffer n) hf offset (offset + n)
        (by rw [hself]; exact hq) hj (by rw [hself]; exact hoff) hbuf (by rw [hself]; exact hmax)
        (by rw [hself]; exact Nat.le_trans hcur (by omega))
        (by show Function.update k.node f _ = Function.update (Function.update k.node f _) f _
            rw [hself, Function.update_idem])
        (by rw [hself]; rfl) rfl
      have hbuffer : loadN k1.heap.mem buffer.toNat n.toNat
          = loadN k.heap.mem buffer.toNat n.toNat :=
        loadN_congr fun i hi => hkeep.off _ (hbuf.off _ (by omega) (by omega))
      rw [h2 f hf, hbuffer] at h4
      exact ⟨n, _, bs', fsWrite_grow hf0 ht hgrow e hq0, h3, .inl ⟨rfl, h4⟩,
        fun g hg hne => (h5 g hg hne).trans (h2 g hg)⟩
  -- the bytes fit into the file
  · have hle : offset.toNat + n.toNat ≤ (k.node f).size.toNat := by
      rw [BitVec.lt_def, hadd] at hgrow
      omega
    obtain ⟨h1, h2, h3⟩ := h.overwrite (k.memcpy ((k.node f).data + offset) buffer n) hf offset
      (k.node f).size hlive (Nat.le_trans hle hcur) hoff hbuf
      (max_eq_left hle).symm hcur (Function.update_eq_self f k.node).symm rfl rfl
    exact ⟨n, _, bs, fsWrite_inside hf0 ht hgrow fun _ => hdata, h1, .inl ⟨rfl, h2⟩, h3⟩

end

end FirstKernel
