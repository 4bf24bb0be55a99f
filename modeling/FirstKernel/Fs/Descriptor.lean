import FirstKernel.Fs.FileRun
import FirstKernel.Lib.Chunks
import FirstKernel.Lib.Outcome

/-!
# Reading and writing through a descriptor

`fs_open` records the offset 0 and no call moves it, so every `sys_read` and every `sys_write` of a
fresh descriptor works at the start of the file.

* `sysRead_front`, `fsWrite_front`    one call;
* `readAll_front`, `writeAll_front`   a list of calls;
* `descriptor_sequential`             when the calls work as if the offset moved.
-/

namespace FirstKernel
open ByteMem Cells Tiling Chunks Outcome

/-- the calls `sys_read(fd, buf, n)` for the sizes `ns`: the bytes they delivered, joined -/
def readAll (k : Kernel) (fd buf : Word) : List Word → Res (List Byte × Kernel)
  | [] => return ([], k)
  | n :: ns => do
    let (r, k) ← sysRead k fd buf n
    let got := if r = minusOne then [] else loadN k.heap.mem buf.toNat r.toNat
    let (rest, k) ← readAll k fd buf ns
    return (got ++ rest, k)

/-- `sys_write` of strings that the caller puts into its buffers first, up to a call that fails;
whether all of them succeeded -/
def writeAll (k : Kernel) (fd : Word) : List (Word × List Byte) → Res (Bool × Kernel)
  | [] => return (true, k)
  | (buf, w) :: ws => do
    let k := k.withMem (storeN k.heap.mem buf.toNat w)
    let (r, k) ← sysWrite k fd buf (BitVec.ofNat 32 w.length)
    if r = minusOne then return (false, k)
    writeAll k fd ws

/-- a file whose buffer could not be allocated: no data, and no bytes -/
structure Unbacked (k : Kernel) (fs : List Word) (bs : List Block) (f : Word) : Prop where
  ne_zero : f ≠ 0
  type : (k.node f).type = .file
  live : ∃ n, Live bs f n
  data : (k.node f).data = 0
  size : (k.node f).size = 0
  apart : ∀ g ∈ fs, (k.node g).data ≠ f

/-- a file of a state in which every file has its own buffer or none -/
def FileNode (k : Kernel) (f : Word) : Prop :=
  ∃ fs bs, Files k fs bs ∧ (f ∈ fs ∨ Unbacked k fs bs f)

/-- `fd` is open on `f`, at the start of it -/
structure Fresh (k : Kernel) (fd f : Word) : Prop where
  isOpen : k.isOpen fd = true
  node : (k.fdTable fd.toNat).node = f
  offset : (k.fdTable fd.toNat).offset = 0

/-- the bytes a read of `n` from the start of `f` transfers -/
def frontSize (k : Kernel) (f n : Word) : Word :=
  if (k.node f).size < n then (k.node f).size else n

section
variable {k k' : Kernel} {fs : List Word} {bs : List Block} {f fd buf n : Word}

/-! ## `fs_open` -/

theorem freeDescriptor_lt {t : Nat → FileDescriptor} {m i j : Nat}
    (h : freeDescriptor t m i = some j) : j < i + m := by
  induction m generalizing i with
  | zero => cases h
  | succ m ih =>
    rw [freeDescriptor] at h
    by_cases hu : (t i).used
    · rw [if_pos hu] at h
      have := ih h
      omega
    · rw [if_neg hu] at h
      cases h
      omega

theorem fsOpen_fresh (e : fsOpen k f = (fd, k')) (hfd : fd ≠ minusOne) :
    Fresh k' fd f ∧ k'.node = k.node ∧ k'.heap = k.heap := by
  unfold fsOpen at e
  cases hi : freeDescriptor k.fdTable maxOpenFiles 0 with
  | none =>
    rw [hi] at e
    cases e
    exact absurd rfl hfd
  | some i =>
    rw [hi] at e
    cases e
    have hlt : i < 64 := by
      have := freeDescriptor_lt hi
      unfold maxOpenFiles at this
      omega
    have hnat : (BitVec.ofNat 32 i).toNat = i := by
      rw [BitVec.toNat_ofNat, Nat.mod_eq_of_lt (by omega)]
    have hint : (BitVec.ofNat 32 i).toInt = i := by
      rw [BitVec.toInt_eq_toNat_of_lt (by rw [hnat]; omega), hnat]
    refine ⟨⟨?_, ?_, ?_⟩, rfl, rfl⟩
    · unfold Kernel.isOpen
      have hneg : (0 : Int) ≤ i := Int.natCast_nonneg i
      have hpos : (i : Int) < maxOpenFiles := Int.ofNat_lt.mpr hlt
      rw [hnat, hint]
      simp only [Function.update_self, decide_eq_true hneg, decide_eq_true hpos, Bool.and_self]
    · show (Function.update k.fdTable i _ (BitVec.ofNat 32 i).toNat).node = f
      rw [hnat, Function.update_self]
    · show (Function.update k.fdTable i _ (BitVec.ofNat 32 i).toNat).offset = 0
      rw [hnat, Function.update_self]

theorem Fresh.congr (h : Fresh k fd f) (ht : k'.fdTable = k.fdTable) : Fresh k' fd f := by
  obtain ⟨h1, h2, h3⟩ := h
  unfold Kernel.isOpen at h1
  refine ⟨?_, by rw [ht]; exact h2, by rw [ht]; exact h3⟩
  unfold Kernel.isOpen
  rw [ht]
  exact h1

theorem Fresh.sysRead (h : Fresh k fd f) : sysRead k fd buf n = fsRead k f 0 n buf := by
  unfold FirstKernel.sysRead
  rw [if_neg (not_not.mpr h.isOpen), h.node, h.offset]

theorem Fresh.sysWrite (h : Fresh k fd f) : sysWrite k fd buf n = fsWrite k f 0 n buf := by
  unfold FirstKernel.sysWrite
  rw [if_neg (not_not.mpr h.isOpen), h.node, h.offset]

theorem FileNode.open (h : FileNode k f) (hnode : k'.node = k.node) (hheap : k'.heap = k.heap) :
    FileNode k' f ∧ contents k' f = contents k f := by
  obtain ⟨fs, bs, hfs, hf⟩ := h
  obtain ⟨h1, h2⟩ := hfs.congr _ hnode (hheap ▸ hfs.blocks) (by rw [hheap])
  refine ⟨⟨fs, bs, h1, hf.imp_right fun ⟨a, b, c, d, e, g⟩ => ⟨a, ?_, c, ?_, ?_, ?_⟩⟩, h2 f⟩
  · rw [hnode]
    exact b
  · rw [hnode]
    exact d
  · rw [hnode]
    exact e
  · rw [hnode]
    exact g

/-! ## one read -/

/-- a read from the start asks for no more than the file has -/
theorem fsRead_frontSize (k : Kernel) (f n buf : Word) :
    fsRead k f 0 n buf = fsRead k f 0 (frontSize k f n) buf := by
  have hadd : ∀ a : Word, 0 + a = a := BitVec.zero_add
  have hsub : ∀ a : Word, a - 0 = a := BitVec.sub_zero
  unfold fsRead frontSize
  by_cases h : (k.node f).size < n
  · simp only [hadd, hsub, if_pos h, if_neg (BitVec.lt_irrefl _)]
  · rw [if_neg h]

theorem frontSize_toNat (k : Kernel) (f n : Word) :
    (frontSize k f n).toNat = min n.toNat (contents k f).length := by
  rw [contents_length]
  unfold frontSize
  by_cases h : (k.node f).size < n
  · rw [if_pos h]
    rw [BitVec.lt_def] at h
    omega
  · rw [if_neg h]
    rw [BitVec.lt_def] at h
    omega

theorem contents_unbacked (h : Unbacked k fs bs f) : contents k f = [] := by
  unfold contents
  rw [h.size]
  rfl

/-- **A read through a fresh descriptor delivers the first bytes of the file.** -/
theorem sysRead_front (h : FileNode k f) (hfd : Fresh k fd f) (hbuf : Buffer buf (frontSize k f n)) :
    ∃ r mem, sysRead k fd buf n = .ok (r, k.withMem mem) ∧ r ≠ minusOne ∧
      loadN mem buf.toNat r.toNat = (contents k f).take n.toNat ∧
      FileNode (k.withMem mem) f ∧ contents (k.withMem mem) f = contents k f := by
  obtain ⟨fs, bs, hfs, hf⟩ := h
  rw [hfd.sysRead, fsRead_frontSize]
  have hsize := frontSize_toNat k f n
  rcases hf with hf | hf
  · have hlen := hfs.bounds hf
    rw [← contents_length] at hlen
    have hzero : (0 : Word).toNat = 0 := rfl
    rcases fsRead_file hfs hf 0 (by rw [hzero]; omega) hbuf with ⟨hlt, _⟩ |
      ⟨_, r, mem, e, hr, hc, h', hs⟩
    · exact absurd hlt (Nat.not_lt_zero _)
    rw [hzero, hsize, Nat.sub_zero] at hr
    refine ⟨r, mem, e, ?_, ?_, ⟨fs, bs, h', .inl hf⟩, hs f hf⟩
    · rintro rfl
      have : minusOne.toNat = 0xFFFFFFFF := rfl
      omega
    · rw [hc, hzero, List.drop_zero, hsize, List.take_eq_take_iff]
      omega
  · have hempty := contents_unbacked hf
    have hn : frontSize k f n = 0 := by
      apply BitVec.eq_of_toNat_eq
      rw [hsize, hempty]
      exact Nat.min_zero _
    have e : fsRead k f 0 (frontSize k f n) buf = .ok (0, k.withMem k.heap.mem) := by
      rw [hn]
      exact fsRead_inside hf.ne_zero hf.type (by rw [hf.size]; decide) (by rw [hf.size]; rfl)
        fun h0 => absurd rfl h0
    refine ⟨0, k.heap.mem, e, by decide, ?_, ⟨fs, bs, hfs, .inr hf⟩, rfl⟩
    rw [hempty, List.take_nil]
    rfl

/-! ## one write -/

theorem splice_front (c w : List Byte) : splice c 0 w = overlay c w := by
  unfold splice overlay
  rw [List.take_zero, List.nil_append, Nat.zero_add]

theorem fsWrite_table (k : Kernel) (p offset n buf : Word) :
    Yields (fsWrite k p offset n buf) fun r => r.2.fdTable = k.fdTable := by
  have hgrow : ∀ q size, Yields (k.krealloc q size) fun r => r.2.fdTable = k.fdTable := fun _ _ =>
    (Yields.trivial _).bind fun _ _ => .pure rfl
  unfold fsWrite
  refine .ite (fun _ => .pure rfl) fun _ => .ite (fun _ => ?_) fun _ => ?_
  · refine (hgrow _ _).bind fun ⟨q, k1⟩ h1 => ?_
    exact .ite (fun _ => .pure h1) fun _ => .pure h1
  · exact .ite (fun _ => (Yields.trivial _).bind fun _ _ => .pure rfl) fun _ => .pure rfl

theorem Unbacked.not_mem (hf : Unbacked k fs bs f) (h : Files k fs bs) : f ∉ fs := by
  intro hm
  obtain ⟨j, hj, _⟩ := (h.file f hm).data
  exact hj.ne_zero h.blocks hf.data

/-- a write to a file without data allocates its buffer first -/
theorem fsWrite_unbacked (h : Files k fs bs) (hf : Unbacked k fs bs f) (hbig : n.toNat ≤ 0xFFFFFFF0)
    (hbuf : Buffer buf n) :
    ∃ r k', fsWrite k f 0 n buf = .ok (r, k') ∧ FileNode k' f ∧
      (r = n ∧ contents k' f = loadN k.heap.mem buf.toNat n.toNat ∨
        r = minusOne ∧ contents k' f = []) := by
  have hadd : (0 : Word) + n = n := BitVec.zero_add n
  have hempty := contents_unbacked hf
  by_cases hn : n = 0
  · subst hn
    have hnot : ¬ (k.node f).size < (0 : Word) + 0 := by
      rw [hf.size]
      decide
    exact ⟨0, _, fsWrite_inside hf.ne_zero hf.type hnot fun h0 => absurd rfl h0,
      ⟨fs, bs, h, .inr hf⟩, .inl ⟨rfl, hempty⟩⟩
  have hgrow : (k.node f).size < 0 + n := by
    rw [hf.size, hadd, BitVec.lt_def]
    exact Nat.pos_of_ne_zero fun e => hn (BitVec.eq_of_toNat_eq e)
  have hre : krealloc k.heap (k.node f).data (0 + n) = kmalloc k.heap n := by
    rw [hf.data, hadd, krealloc_null _ hn]
  rcases kmalloc_client h.blocks n with ⟨s', e, hb, hm⟩ | ⟨q, s', bs', j, e, hq, hb, hkeep, hlive,
    hneed, hfresh, _⟩
  -- no block is free for it
  · obtain ⟨h1, h2⟩ := h.congr ({ k with heap := s' }.printf
      "Write error: Out of memory for '%s'\n" [.str (k.node f).name]) rfl
      (hb.store rfl fun _ _ => rfl) hm
    exact ⟨minusOne, _, fsWrite_refused hf.ne_zero hf.type hgrow (hre.trans e),
      ⟨fs, bs, h1, .inr ⟨hf.ne_zero, hf.type, hf.live, hf.data, hf.size, hf.apart⟩⟩,
      .inr ⟨rfl, (h2 f).trans hempty⟩⟩
  -- the new buffer
  · obtain ⟨bs1, hfs1, _, ⟨j1, hlive1, hneed1⟩, hfresh1, hlift1⟩ := h.kmalloc e hq
    obtain ⟨i, hi⟩ := hf.live
    have hfq : f ≠ q := fun eq => hfresh1 i (eq ▸ hi)
    let k1 : Kernel := { k with heap := s', node := Function.update k.node f { k.node f with data := q } }
    have hself : k1.node f = { k.node f with data := q } := Function.update_self ..
    obtain ⟨hfs2, _⟩ := hfs1.cons k1 hf.ne_zero ⟨i, hlift1 f i hi⟩ (fun g hg => by
      obtain ⟨i1, h1⟩ := (h.file g hg).live
      obtain ⟨i2, h2, _⟩ := (h.file g hg).data
      exact ⟨fun eg => hf.not_mem h (eg ▸ hg), hf.apart g hg, fun eg => hfresh1 i1 (eg ▸ h1),
        fun eg => hfresh1 i2 (eg ▸ h2)⟩) hfq { k.node f with data := q } hf.type rfl hlive1
      (by show (k.node f).size.toNat ≤ _; rw [hf.size]; exact Nat.zero_le _) rfl rfl
    have hzero : (0 : Word).toNat = 0 := rfl
    have hjn : n.toNat ≤ j1 := Nat.le_trans (le_need n hbig) hneed1
    obtain ⟨hfs3, hc3, _⟩ := hfs2.overwrite ((k.withNode s' f { k.node f with
        data := q, size := 0 + n }).memcpy (q + 0) buf n) List.mem_cons_self 0 (0 + n)
      (by rw [hself]; exact hlive1)
      (by rw [hzero, Nat.zero_add]; exact hjn) (Nat.zero_le _) hbuf
      (by rw [hself, hf.size, hzero, hadd]; omega) (by rw [hself, hf.size]; exact Nat.zero_le _)
      (by show Function.update k.node f _ = Function.update (Function.update k.node f _) f _
          rw [hself, Function.update_idem])
      (by rw [hself]; rfl) rfl
    have hbuffer : loadN k1.heap.mem buf.toNat n.toNat = loadN k.heap.mem buf.toNat n.toNat :=
      loadN_congr fun i hi => hkeep.off _ (hbuf.off _ (by omega) (by omega))
    have hempty1 : contents k1 f = [] := by
      unfold contents
      rw [hself, hf.size]
      rfl
    rw [hempty1, hzero, splice_front, nil_overlay, hbuffer] at hc3
    exact ⟨n, _, fsWrite_grow hf.ne_zero hf.type hgrow (hre.trans e) hq,
      ⟨_, _, hfs3, .inl List.mem_cons_self⟩, .inl ⟨rfl, hc3⟩⟩

theorem Buffer.lt_minusOne (h : Buffer buf n) : n.toNat ≤ 0xFFFFFFF0 := by
  by_cases hn : n.toNat = 0
  · omega
  · have := h.fits
    have := h.side hn
    omega

/-- **A write at the start goes over the first bytes of the file, or fails.** -/
theorem fsWrite_front (h : FileNode k f) (hbuf : Buffer buf n) :
    ∃ r k', fsWrite k f 0 n buf = .ok (r, k') ∧ FileNode k' f ∧
      (r = n ∧ contents k' f = overlay (contents k f) (loadN k.heap.mem buf.toNat n.toNat) ∨
        r = minusOne ∧ contents k' f = contents k f) := by
  have hbig := hbuf.lt_minusOne
  obtain ⟨fs, bs, hfs, hf | hf⟩ := h
  · have hzero : (0 : Word).toNat = 0 := rfl
    obtain ⟨r, k', bs', e, hfs', hr, _⟩ := fsWrite_file hfs hf 0 (Nat.zero_le _)
      (by rw [hzero, Nat.zero_add]; exact hbig) hbuf
    rw [hzero, splice_front] at hr
    exact ⟨r, k', e, ⟨fs, bs', hfs', .inl hf⟩, hr⟩
  · obtain ⟨r, k', e, h', hr⟩ := fsWrite_unbacked hfs hf hbig hbuf
    rw [contents_unbacked hf, nil_overlay]
    exact ⟨r, k', e, h', hr⟩

/-- the caller puts `w` into its buffer -/
theorem FileNode.poke (h : FileNode k f) {w : List Byte} (hbuf : Buffer buf (BitVec.ofNat 32 w.length))
    (hw : w.length < 2^32) :
    FileNode (k.withMem (storeN k.heap.mem buf.toNat w)) f ∧
      contents (k.withMem (storeN k.heap.mem buf.toNat w)) f = contents k f := by
  obtain ⟨fs, bs, hfs, hf⟩ := h
  have hlen : (BitVec.ofNat 32 w.length).toNat = w.length := by
    rw [BitVec.toNat_ofNat, Nat.mod_eq_of_lt hw]
  obtain ⟨hfs', hc⟩ := hfs.poke (storeN k.heap.mem buf.toNat w) fun x hx => by
    refine storeN_out _ _ _ _ ?_
    by_contra hcon
    exact hx (hbuf.off x (by omega) (by omega))
  rcases hf with hf | hf
  · exact ⟨⟨fs, bs, hfs', .inl hf⟩, hc f hf⟩
  · refine ⟨⟨fs, bs, hfs', .inr ⟨hf.ne_zero, hf.type, hf.live, hf.data, hf.size, hf.apart⟩⟩, ?_⟩
    exact contents_congr rfl rfl fun x h1 h2 => by
      rw [hf.size] at h2
      exact absurd (Nat.lt_of_le_of_lt h1 h2) (Nat.lt_irrefl _)

/-! ## a list of calls -/

theorem readAll_front (h : FileNode k f) (hfd : Fresh k fd f) (ns : List Word)
    (hbuf : ∀ n ∈ ns, Buffer buf (frontSize k f n)) :
    ∃ k', readAll k fd buf ns = .ok ((ns.map BitVec.toNat).flatMap ((contents k f).take ·), k') := by
  induction ns generalizing k with
  | nil => exact ⟨k, rfl⟩
  | cons n ns ih =>
    obtain ⟨r, mem, e, hr, hload, h', hc⟩ := sysRead_front h hfd (hbuf n List.mem_cons_self)
    obtain ⟨k', e'⟩ := ih (k := k.withMem mem) h' (hfd.congr rfl) fun m hm =>
      hbuf m (List.mem_cons_of_mem _ hm)
    refine ⟨k', ?_⟩
    rw [readAll, e, bind_ok]
    simp only [e', bind_ok, if_neg hr]
    rw [hc]
    show Except.ok (loadN mem buf.toNat r.toNat ++ _, k') = _
    rw [hload]
    rfl

/-- the buffers of a list of writes -/
def WriteBuffers (ws : List (Word × List Byte)) : Prop :=
  ∀ w ∈ ws, w.2.length < 2^32 ∧ Buffer w.1 (BitVec.ofNat 32 w.2.length)

theorem writeAll_front (h : FileNode k f) (hfd : Fresh k fd f) (ws : List (Word × List Byte))
    (hbuf : WriteBuffers ws) :
    ∃ ok k', writeAll k fd ws = .ok (ok, k') ∧
      (ok = true → contents k' f = (ws.map Prod.snd).foldl overlay (contents k f)) := by
  induction ws generalizing k with
  | nil => exact ⟨true, k, rfl, fun _ => rfl⟩
  | cons bw ws ih =>
    obtain ⟨b, w⟩ := bw
    obtain ⟨hw, hb⟩ : w.length < 2^32 ∧ Buffer b (BitVec.ofNat 32 w.length) :=
      hbuf _ List.mem_cons_self
    have hlen : (BitVec.ofNat 32 w.length).toNat = w.length := by
      rw [BitVec.toNat_ofNat, Nat.mod_eq_of_lt hw]
    obtain ⟨hk, hkc⟩ := h.poke hb hw
    have hfd1 : Fresh (k.withMem (storeN k.heap.mem b.toNat w)) fd f := hfd.congr rfl
    obtain ⟨r, k', e, h', hr⟩ := fsWrite_front hk hb
    have hsys : sysWrite (k.withMem (storeN k.heap.mem b.toNat w)) fd b (BitVec.ofNat 32 w.length)
        = .ok (r, k') := by
      rw [hfd1.sysWrite]
      exact e
    rw [writeAll]
    simp only [hsys, bind_ok]
    by_cases hfail : r = minusOne
    · rw [if_pos hfail]
      exact ⟨false, k', rfl, nofun⟩
    · rw [if_neg hfail]
      rcases hr with ⟨_, hc⟩ | ⟨hr, _⟩
      · have hmem : loadN (k.withMem (storeN k.heap.mem b.toNat w)).heap.mem b.toNat
            (BitVec.ofNat 32 w.length).toNat = w := by
          rw [hlen]
          exact loadN_storeN _ _ _
        rw [hmem, hkc] at hc
        obtain ⟨ok, k2, e2, hok⟩ := ih (k := k') h' (hfd1.congr (fsWrite_table _ _ _ _ _ _ e)) fun x hx =>
          hbuf x (List.mem_cons_of_mem _ hx)
        rw [hc] at hok
        exact ⟨ok, k2, e2, hok⟩
      · exact absurd hr hfail

end

/-! ## the law of sequential transfers -/

/-- the reads deliver the file's bytes one after the other -/
def ReadsOn (k : Kernel) (fd f buf : Word) (ns : List Word) : Prop :=
  ∃ k', readAll k fd buf ns = .ok ((contents k f).take (ns.map BitVec.toNat).sum, k')

/-- every read finds at its place the bytes the file starts with -/
def Repeats (c : List Byte) (ns : List Nat) : Prop :=
  ∀ i (h : i < ns.length), (c.drop (ns.take i).sum).take ns[i] = c.take ns[i]

/-- at most one of the strings has bytes -/
def OneString (ws : List (List Byte)) : Prop := ws.Pairwise fun v w => v = [] ∨ w = []

section
variable {k k' : Kernel} {f fd : Word}

/-- every file of a session is one -/
theorem fileNode_reachable {t : FileSession} (h : Run.Reachable fileSystem t) (hf : f ∈ t.files) :
    FileNode t.k f := by
  obtain ⟨bs, hb⟩ := files_reachable h
  exact ⟨t.files, bs, hb, .inl hf⟩

/-- **The reads of a fresh descriptor go through the file exactly when the file repeats itself; its
writes to an empty file join up exactly when at most one of them has bytes.** -/
theorem descriptor_sequential (h : FileNode k f) (ho : fsOpen k f = (fd, k')) (hfd : fd ≠ minusOne) :
    (∀ buf ns, (∀ n ∈ ns, Buffer buf (frontSize k f n)) →
      (ReadsOn k' fd f buf ns ↔ Repeats (contents k f) (ns.map BitVec.toNat))) ∧
    (contents k f = [] → ∀ ws, WriteBuffers ws → ∃ ok k2, writeAll k' fd ws = .ok (ok, k2) ∧
      (ok = true →
        (contents k2 f = (ws.map Prod.snd).flatten ↔ OneString (ws.map Prod.snd)))) := by
  obtain ⟨hfresh, hnode, hheap⟩ := fsOpen_fresh ho hfd
  obtain ⟨h', hc⟩ := h.open hnode hheap
  constructor
  · intro buf ns hbuf
    obtain ⟨k2, e⟩ := readAll_front h' hfresh ns fun n hn => by
      have : frontSize k' f n = frontSize k f n := by unfold frontSize; rw [hnode]
      rw [this]
      exact hbuf n hn
    rw [← hc]
    unfold ReadsOn Repeats
    rw [← flatMap_take_eq_iff]
    constructor
    · rintro ⟨k3, e'⟩
      rw [e] at e'
      exact (Prod.mk.inj (Except.ok.inj e')).1
    · intro heq
      exact ⟨k2, by rw [e, heq]⟩
  · intro hempty ws hbuf
    obtain ⟨ok, k2, e, hok⟩ := writeAll_front h' hfresh ws hbuf
    refine ⟨ok, k2, e, fun ht => ?_⟩
    rw [hok ht, hc, hempty]
    exact foldl_overlay_eq_iff _

end

/-- the strings 1 and 2, written from one buffer -/
def oneTwo : List (Word × List Byte) := [(0x1000, [1]), (0x1000, [2])]

theorem oneTwo_buffers : WriteBuffers oneTwo := by
  intro w hw
  have hbuf : Buffer (0x1000 : Word) 1 := buffer_low (by decide)
  rcases List.mem_cons.mp hw with rfl | hw
  · exact ⟨by decide, hbuf⟩
  · rw [List.mem_singleton.mp hw]
    exact ⟨by decide, hbuf⟩

/-- the start-up state with an empty file at `0x00800104`, open as descriptor 0 -/
theorem open_empty_file : ∃ k k' k2, FileNode k 0x00800104 ∧ fsOpen k 0x00800104 = (0, k') ∧
    contents k 0x00800104 = [] ∧
    writeAll k' 0 oneTwo = .ok (true, k2) := by
  obtain ⟨k0, k1, k2, k3, e0, e1, e2, e3, hd⟩ : ∃ k0 k1 k2 k3, fsInit (Kernel.boot bootMachine) = .ok k0 ∧
      fsTouch k0 (some ⟨str "/x/a", by decide⟩) = .ok (0x00800104, k1) ∧
      fsOpen k1 0x00800104 = (0, k2) ∧
      writeAll k2 0 oneTwo = .ok (true, k3) ∧
      (k1.node 0x00800104).data = 0x00800170 := ⟨_, _, _, _, rfl, rfl, rfl, rfl, rfl⟩
  have h0 : Run.Reachable fileSystem ⟨k0, []⟩ := .init ⟨bootMachine, e0, rfl⟩
  have hs : FileOp.step ⟨k0, []⟩ (.fsTouch (some ⟨str "/x/a", by decide⟩)) ⟨k1, [0x00800104]⟩ :=
    ⟨_, e1, by decide, by rw [hd]; decide, rfl⟩
  have h1 := reachable_step h0 _ hs
  obtain ⟨bs, hb⟩ := files_reachable h0
  obtain ⟨_, hc, _⟩ := fsTouch_file hb e1 (by decide) (by rw [hd]; decide)
  exact ⟨k1, k2, k3, fileNode_reachable h1 List.mem_cons_self, e2, hc, e3⟩

/-- the file `a` with 256 zeros, open as descriptor 0 -/
theorem open_touched_file : ∃ k k', FileNode k 0x00800104 ∧ fsOpen k 0x00800104 = (0, k') ∧
    contents k 0x00800104 = List.replicate 256 0 := by
  obtain ⟨k0, k, e0, e1, hreach, hc⟩ := touched_reachable
  have hopen : (((fsInit (Kernel.boot bootMachine)).toOption.bind fun k =>
      (cmdTouch k (some ⟨str "a", by decide⟩)).toOption).map fun k => (fsOpen k 0x00800104).1)
      = some 0 := by decide +kernel
  rw [e0] at hopen
  have hopen' : ((cmdTouch k0 (some ⟨str "a", by decide⟩)).toOption.map fun k =>
      (fsOpen k 0x00800104).1) = some 0 := hopen
  rw [e1] at hopen'
  exact ⟨k, (fsOpen k 0x00800104).2, fileNode_reachable hreach List.mem_cons_self,
    Prod.ext (Option.some.inj hopen') rfl, hc⟩

/-- both writes succeed and do not join up; two reads of 100 zeros find zeros at their places, and the
second of two reads of 200 does not -/
theorem descriptor_sequential_oneTwo :
    (∃ k k' k2, contents k 0x00800104 = [] ∧ fsOpen k 0x00800104 = (0, k') ∧
      writeAll k' 0 oneTwo = .ok (true, k2) ∧ contents k2 0x00800104 ≠ [1, 2]) ∧
    ∃ k k', contents k 0x00800104 = List.replicate 256 0 ∧ fsOpen k 0x00800104 = (0, k') ∧
      ReadsOn k' 0 0x00800104 0x1000 [100, 100] ∧ ¬ ReadsOn k' 0 0x00800104 0x1000 [200, 200] := by
  constructor
  · obtain ⟨k, k', k2, h, ho, hc, e⟩ := open_empty_file
    obtain ⟨ok, k3, e3, hok⟩ := (descriptor_sequential h ho (by decide)).2 hc oneTwo oneTwo_buffers
    obtain ⟨rfl, rfl⟩ := Prod.mk.inj (Except.ok.inj (e.symm.trans e3))
    refine ⟨k, k', k2, hc, ho, e, fun hjoin => ?_⟩
    have hone : OneString (oneTwo.map Prod.snd) := (hok rfl).mp hjoin
    unfold OneString at hone
    exact absurd hone (by decide)
  · obtain ⟨k, k', h, ho, hc⟩ := open_touched_file
    have hreads := (descriptor_sequential h ho (by decide)).1 0x1000
    have hbuf : ∀ n : Word, Buffer 0x1000 (frontSize k 0x00800104 n) := by
      intro n
      have hsize := frontSize_toNat k 0x00800104 n
      have hlen : (contents k 0x00800104).length = 256 := by rw [hc, List.length_replicate]
      have h1000 : (0x1000 : Word).toNat = 4096 := rfl
      exact ⟨by omega, fun x _ hx => .inl (by omega)⟩
    refine ⟨k, k', hc, ho, (hreads [100, 100] fun n _ => hbuf n).mpr ?_, fun hr => ?_⟩
    · rw [hc]
      unfold Repeats
      decide +kernel
    · have hrep := (hreads [200, 200] fun n _ => hbuf n).mp hr
      rw [hc] at hrep
      unfold Repeats at hrep
      exact absurd hrep (by decide +kernel)

/-- both calls succeed, and the second string stands where the first one was -/
theorem second_write_overwrites : ¬ ∀ (k k' : Kernel) (f fd : Word), FileNode k f →
    fsOpen k f = (fd, k') → fd ≠ minusOne → contents k f = [] → ∀ ws, WriteBuffers ws →
    ∀ k2, writeAll k' fd ws = .ok (true, k2) → contents k2 f = (ws.map Prod.snd).flatten := by
  intro hall
  obtain ⟨k, k', k2, h, ho, hc, e⟩ := open_empty_file
  have hsum := hall k k' _ _ h ho (by decide) hc oneTwo oneTwo_buffers k2 e
  obtain ⟨hfresh, hnode, hheap⟩ := fsOpen_fresh ho (by decide)
  obtain ⟨h', hc'⟩ := h.open hnode hheap
  obtain ⟨ok, k3, e3, hok⟩ := writeAll_front h' hfresh oneTwo oneTwo_buffers
  rw [e] at e3
  cases e3
  rw [hok rfl, hc', hc] at hsum
  exact absurd hsum (by decide)

end FirstKernel
