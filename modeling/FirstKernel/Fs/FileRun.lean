import FirstKernel.Fs.File
import FirstKernel.Lib.Run

/-!
# Runs on files

A session is the kernel together with the file nodes made so far.  Its steps make files with
`fs_touch` and `cmd_touch`, read and write them at any offset up to their ends, and change memory off
the heap.

* `files_reachable`      every file has its own live buffer in every run;
* `files_independent`    each file is a byte array of its own.
-/

namespace FirstKernel
open ByteMem Cells Tiling

structure FileSession where
  k : Kernel
  files : List Word

inductive FileOp where
  | fsTouch (path : Option CString)
  | cmdTouch (args : Option CString)
  | write (f offset n buffer : Word)
  | read (f offset n buffer : Word)
  | poke (x : Nat) (b : Byte)

/-- the file made by a call joins the session when the allocations of the call succeed -/
def FileOp.step (t : FileSession) (op : FileOp) (t' : FileSession) : Prop :=
  match op with
  | .fsTouch path => ∃ f, FirstKernel.fsTouch t.k path = .ok (f, t'.k) ∧ f ≠ 0 ∧
      (t'.k.node f).data ≠ 0 ∧ t'.files = f :: t.files
  | .cmdTouch args => noArgs args = false ∧ FirstKernel.cmdTouch t.k args = .ok t'.k ∧
      ∃ f h, FirstKernel.kmalloc t.k.heap sizeofFSNode = .ok (f, h) ∧ f ≠ 0 ∧ t'.files = f :: t.files
  | .write f offset n buffer => f ∈ t.files ∧ offset.toNat ≤ (t.k.node f).size.toNat ∧
      offset.toNat + n.toNat ≤ 0xFFFFFFF0 ∧ Buffer buffer n ∧
      (∃ r, fsWrite t.k f offset n buffer = .ok (r, t'.k)) ∧ t'.files = t.files
  | .read f offset n buffer => f ∈ t.files ∧ offset.toNat + n.toNat < 2^32 ∧ Buffer buffer n ∧
      (∃ r, fsRead t.k f offset n buffer = .ok (r, t'.k)) ∧ t'.files = t.files
  | .poke x b => Outside x ∧ t' = ⟨t.k.withMem (store8 t.k.heap.mem x b), t.files⟩

def fileSystem : Run.System FileSession FileOp where
  init t := ∃ s, fsInit (Kernel.boot s) = .ok t.k ∧ t.files = []
  step t op t' := op.step t t'

theorem reachable_step {t t' : FileSession} (h : Run.Reachable fileSystem t) (op : FileOp)
    (hs : op.step t t') : Run.Reachable fileSystem t' := @Run.Reachable.step _ _ _ _ _ op h hs

/-! ## making a file -/

section
variable {k k' : Kernel} {fs : List Word} {bs : List Block} {f q : Word}

/-- an allocation that succeeds: a fresh payload, and the files as they were -/
theorem Files.kmalloc (h : Files k fs bs) {n : Word} {p : Word} {h' : Machine}
    (e : FirstKernel.kmalloc k.heap n = .ok (p, h')) (hp : p ≠ 0) :
    ∃ bs', Files { k with heap := h' } fs bs' ∧
      (∀ g ∈ fs, contents { k with heap := h' } g = contents k g) ∧
      (∃ j, Live bs' p j ∧ need n ≤ j) ∧ (∀ j, ¬ Live bs p j) ∧
      ∀ r j, Live bs r j → Live bs' r j := by
  rcases kmalloc_client h.blocks n with ⟨s', e', _⟩ | ⟨p', s', bs', j, e', _, hb, hk, hlive, hneed,
    hfresh, _⟩
  · rw [e] at e'
    cases e'
    exact absurd rfl hp
  · rw [e] at e'
    cases e'
    have hlift : ∀ r j, Live bs r j → Live bs' r j := fun r j hr => hk.live r j hr trivial
    refine ⟨bs', ⟨hb, fun g hg => ?_, h.apart, h.nodeApart⟩, fun g hg => ?_, ⟨j, hlive, hneed⟩,
      hfresh, hlift⟩
    · obtain ⟨h1, h2, ⟨i, hi⟩, i', hi', his⟩ := h.file g hg
      exact ⟨h1, h2, ⟨i, hlift g i hi⟩, i', hlift _ i' hi', his⟩
    · obtain ⟨i, hi, his⟩ := (h.file g hg).data
      exact contents_congr rfl rfl fun x h1 h2 => hk.bytes _ i hi trivial x h1 (by omega)

/-- a struct and a buffer that no file has -/
theorem Files.cons (k' : Kernel) (h : Files k fs bs) (hf0 : f ≠ 0) (hlive : ∃ j, Live bs f j)
    (hnew : ∀ g ∈ fs, g ≠ f ∧ (k.node g).data ≠ f ∧ g ≠ q ∧ (k.node g).data ≠ q) (hfq : f ≠ q)
    (n : FSNode) (hn : n.type = .file) (hd : n.data = q) {j : Nat} (hq : Live bs q j)
    (hs : n.size.toNat ≤ j) (hheap : k'.heap = k.heap)
    (hnode : k'.node = Function.update k.node f n) :
    Files k' (f :: fs) bs ∧ ∀ g ∈ fs, contents k' g = contents k g := by
  have hself : k'.node f = n := by rw [hnode, Function.update_self]
  have hother : ∀ g ∈ fs, k'.node g = k.node g := fun g hg => by
    rw [hnode, update_node_of_ne (hnew g hg).1]
  refine ⟨⟨hheap ▸ h.blocks, fun g hg => ?_, fun g hg g' hg' hne => ?_, fun g hg g' hg' => ?_⟩,
    fun g hg => ?_⟩
  · rcases List.mem_cons.mp hg with rfl | hg
    · exact ⟨hf0, by rw [hself]; exact hn, hlive, j, by rw [hself, hd]; exact hq,
        by rw [hself]; exact hs⟩
    · obtain ⟨h1, h2, h3, h4⟩ := h.file g hg
      exact ⟨h1, by rw [hother g hg]; exact h2, h3, by rw [hother g hg]; exact h4⟩
  · rcases List.mem_cons.mp hg with e | hg1
    · rcases List.mem_cons.mp hg' with e' | hg1'
      · exact absurd (e.trans e'.symm) hne
      · rw [e, hself, hother g' hg1', hd]
        exact Ne.symm (hnew g' hg1').2.2.2
    · rcases List.mem_cons.mp hg' with e' | hg1'
      · rw [e', hself, hother g hg1, hd]
        exact (hnew g hg1).2.2.2
      · rw [hother g hg1, hother g' hg1']
        exact h.apart g hg1 g' hg1' hne
  · rcases List.mem_cons.mp hg with e | hg1
    · rcases List.mem_cons.mp hg' with e' | hg1'
      · rw [e, e', hself, hd]
        exact hfq
      · rw [e, hother g' hg1']
        exact Ne.symm (hnew g' hg1').2.1
    · rcases List.mem_cons.mp hg' with e' | hg1'
      · rw [e', hself, hd]
        exact (hnew g hg1).2.2.1
      · rw [hother g' hg1']
        exact h.nodeApart g hg1 g' hg1'
  · exact contents_congr (by rw [hother g hg]) (by rw [hother g hg]) fun x _ _ => by rw [hheap]

/-- the tree and the output may change -/
theorem Files.same (h : Files k fs bs) (hs : SameFiles k k') :
    Files k' fs bs ∧ ∀ g, contents k' g = contents k g := by
  refine ⟨⟨h.blocks.store hs.freeList fun x _ => by rw [hs.mem], fun g hg => ?_, ?_, ?_⟩, fun g => ?_⟩
  · obtain ⟨h1, h2, h3, h4⟩ := h.file g hg
    exact ⟨h1, by rw [hs.type]; exact h2, h3, by rw [hs.data, hs.size]; exact h4⟩
  · simp only [hs.data]
    exact h.apart
  · simp only [hs.data]
    exact h.nodeApart
  · exact contents_congr (hs.size g) (hs.data g) fun x _ _ => by rw [hs.mem]

/-- a struct from one allocation and a buffer from the next -/
theorem Files.create (k' : Kernel) (h : Files k fs bs) {n : Word} {h1 h2 : Machine}
    (e1 : FirstKernel.kmalloc k.heap sizeofFSNode = .ok (f, h1)) (hf : f ≠ 0)
    (e2 : FirstKernel.kmalloc h1 n = .ok (q, h2)) (hq : q ≠ 0) (nd : FSNode) (ht : nd.type = .file)
    (hd : nd.data = q) (hs : nd.size.toNat ≤ need n) (hheap : k'.heap = h2)
    (hnode : k'.node = Function.update k.node f nd) :
    f ∉ fs ∧ ∃ bs' j, Files k' (f :: fs) bs' ∧ (∀ g ∈ fs, contents k' g = contents k g) ∧
      Live bs' q j ∧ need n ≤ j ∧ ∀ g ∈ fs, (k.node g).data ≠ q := by
  obtain ⟨bs1, hfs1, hc1, ⟨j1, hlive1, _⟩, hfresh1, hlift1⟩ := h.kmalloc e1 hf
  obtain ⟨bs2, hfs2, hc2, ⟨j2, hlive2, hneed2⟩, hfresh2, hlift2⟩ := hfs1.kmalloc e2 hq
  have hnew : ∀ g ∈ fs, g ≠ f ∧ (k.node g).data ≠ f ∧ g ≠ q ∧ (k.node g).data ≠ q := by
    intro g hg
    obtain ⟨i, hi⟩ := (h.file g hg).live
    obtain ⟨i', hi', _⟩ := (h.file g hg).data
    exact ⟨fun e => hfresh1 i (e ▸ hi), fun e => hfresh1 i' (e ▸ hi'),
      fun e => hfresh2 i (e ▸ hlift1 g i hi), fun e => hfresh2 i' (e ▸ hlift1 _ i' hi')⟩
  have hfq : f ≠ q := fun e => hfresh2 j1 (e ▸ hlive1)
  obtain ⟨h3, h4⟩ := hfs2.cons k' hf ⟨j1, hlift2 f j1 hlive1⟩ hnew hfq nd ht hd hlive2
    (Nat.le_trans hs hneed2) hheap hnode
  exact ⟨fun hm => (hnew f hm).1 rfl, bs2, j2, h3,
    fun g hg => (h4 g hg).trans ((hc2 g hg).trans (hc1 g hg)), hlive2, hneed2,
    fun g hg => (hnew g hg).2.2.2⟩

/-- what `fs_touch` does when it makes a file, with or without a buffer -/
theorem fsTouch_made {path : Option CString} (e : fsTouch k path = .ok (f, k')) (hf : f ≠ 0) :
    ∃ (name : List Byte) (parent q : Word) (h1 h2 : Machine),
      FirstKernel.kmalloc k.heap sizeofFSNode = .ok (f, h1) ∧
      FirstKernel.kmalloc h1 1024 = .ok (q, h2) ∧
      fsAddChild (k.withNode h2 f (fileNode name 0 q)) parent f = .ok k' := by
  unfold fsTouch at e
  obtain ⟨⟨parentPath, name⟩, _, e⟩ := bind_eq_ok e
  obtain ⟨parent, _, e⟩ := bind_eq_ok e
  by_cases hguard : parent = 0 ∨ (k.node parent).type ≠ .directory
  · rw [if_pos hguard] at e
    cases e
    exact absurd rfl hf
  rw [if_neg hguard] at e
  obtain ⟨⟨p, k1⟩, e1, e⟩ := bind_eq_ok e
  obtain ⟨⟨q, k2⟩, e2, e⟩ := bind_eq_ok e
  obtain ⟨_, _, e⟩ := bind_eq_ok e
  obtain ⟨k3, e3, e⟩ := bind_eq_ok e
  cases e
  obtain ⟨h1, hm1, ⟨hp, _⟩ | ⟨_, rfl⟩⟩ := fsCreateNode_file_inv e1
  · exact absurd hp hf
  obtain ⟨h2, hm2, rfl⟩ := kernel_kmalloc_inv e2
  have estate : ({ k.withNode h1 f (newNode name.val .file 0) with heap := h2 } : Kernel).modify f
      (fun n => { n with data := q, size := 0 }) = k.withNode h2 f (fileNode name.val 0 q) :=
    withNode_modify ..
  rw [estate] at e3
  exact ⟨name.val, parent, q, h1, h2, hm1, hm2, e3⟩

/-- the test for the parent directory comes before every change -/
theorem fsTouch_none {path : Option CString} (e : fsTouch k path = .ok (0, k')) : k' = k := by
  unfold fsTouch at e
  obtain ⟨⟨parentPath, name⟩, _, e⟩ := bind_eq_ok e
  obtain ⟨parent, _, e⟩ := bind_eq_ok e
  by_cases hguard : parent = 0 ∨ (k.node parent).type ≠ .directory
  · rw [if_pos hguard] at e
    cases e
    rfl
  rw [if_neg hguard] at e
  obtain ⟨⟨p, k1⟩, _, e⟩ := bind_eq_ok e
  obtain ⟨⟨q, k2⟩, _, e⟩ := bind_eq_ok e
  obtain ⟨_, hd, e⟩ := bind_eq_ok e
  obtain ⟨k3, _, e⟩ := bind_eq_ok e
  cases e
  cases hd

/-- what `fs_touch` does when it makes a file with a buffer -/
theorem fsTouch_inv {path : Option CString} (e : fsTouch k path = .ok (f, k')) (hf : f ≠ 0)
    (hd : (k'.node f).data ≠ 0) : ∃ (name : List Byte) (parent q : Word) (h1 h2 : Machine),
      FirstKernel.kmalloc k.heap sizeofFSNode = .ok (f, h1) ∧
      FirstKernel.kmalloc h1 1024 = .ok (q, h2) ∧ q ≠ 0 ∧
      fsAddChild (k.withNode h2 f (fileNode name 0 q)) parent f = .ok k' := by
  obtain ⟨name, parent, q, h1, h2, hm1, hm2, e3⟩ := fsTouch_made e hf
  refine ⟨name, parent, q, h1, h2, hm1, hm2, ?_, e3⟩
  have hdata := (fsAddChild_sameFiles e3).data f
  rw [withNode_node_self] at hdata
  rw [hdata] at hd
  exact hd

/-- **`fs_touch` makes an empty file.** -/
theorem fsTouch_file (h : Files k fs bs) {path : Option CString}
    (e : fsTouch k path = .ok (f, k')) (hf : f ≠ 0) (hd : (k'.node f).data ≠ 0) :
    f ∉ fs ∧ contents k' f = [] ∧ (∀ g ∈ fs, contents k' g = contents k g) ∧
      ∃ bs', Files k' (f :: fs) bs' := by
  obtain ⟨name, parent, q, h1, h2, e1, e2, hq, e3⟩ := fsTouch_inv e hf hd
  obtain ⟨hnew, bs', j, hfs, hc, _⟩ := h.create (k.withNode h2 f (fileNode name 0 q)) e1 hf e2 hq
    (fileNode name 0 q) rfl rfl (Nat.zero_le _) rfl rfl
  obtain ⟨hfs', hc'⟩ := hfs.same (fsAddChild_sameFiles e3)
  refine ⟨hnew, ?_, fun g hg => (hc' g).trans (hc g hg), bs', hfs'⟩
  rw [hc' f]
  apply List.eq_nil_of_length_eq_zero
  rw [contents_length, withNode_node_self]
  rfl

/-- **`cmd_touch` makes a file of 256 zero bytes.** -/
theorem cmdTouch_file (h : Files k fs bs) {args : Option CString} (ha : noArgs args = false)
    (e : cmdTouch k args = .ok k') {h1 : Machine}
    (e1 : FirstKernel.kmalloc k.heap sizeofFSNode = .ok (f, h1)) (hf : f ≠ 0) :
    f ∉ fs ∧ contents k' f = List.replicate 256 0 ∧ (∀ g ∈ fs, contents k' g = contents k g) ∧
      ∃ bs', Files k' (f :: fs) bs' := by
  obtain ⟨bs1, hfs1, _⟩ := h.kmalloc e1 hf
  obtain ⟨q, h2, e2⟩ := kmalloc_returns hfs1.blocks 256
  have hq : q ≠ 0 := by
    rintro rfl
    rw [cmdTouch_fault ha e1 hf e2] at e
    cases e
  rw [cmdTouch_eq ha e1 hf e2 hq] at e
  obtain ⟨k3, e3, rfl⟩ := map_eq_ok e
  have hsize : (256 : Word).toNat = 256 := rfl
  obtain ⟨hnew, bs', j, hfs, hc, hlive, hj, hqs⟩ := h.create
    (k.enter.withNode h2 f (fileNode (argName args) 256 q)) e1 hf e2 hq
    (fileNode (argName args) 256 q) rfl rfl (by show 256 ≤ need 256; decide) rfl
    (by show Function.update k.enter.node f _ = _; rw [enter_node])
  have hneed : 256 ≤ j := Nat.le_trans (by decide) hj
  have hself : ((k.enter.withNode h2 f (fileNode (argName args) 256 q)).node f).data = q := by
    rw [withNode_node_self]
    rfl
  obtain ⟨hfs', hc'⟩ := hfs.inside (f := f) List.mem_cons_self (fill h2.mem q.toNat 0 256)
    (by rw [hself]; exact hlive) fun x hx => by
      rw [hself] at hx
      exact fill_out _ _ _ _ _ (by omega)
  obtain ⟨hfs'', hc''⟩ := hfs'.same (fsAddChild_sameFiles e3)
  obtain ⟨hfs3, hc3⟩ := hfs''.same (printf_sameFiles k3 "File '%s' created.\n" (argText args))
  refine ⟨hnew, ?_, fun g hg => ?_, bs', hfs3⟩
  · rw [hc3 f, hc'' f]
    unfold contents
    rw [withMem_node, withNode_node_self]
    refine List.eq_replicate_iff.mpr ⟨by rw [loadN_length]; rfl, fun b hb => ?_⟩
    obtain ⟨i, hi, rfl⟩ := List.getElem_of_mem hb
    rw [loadN_length] at hi
    rw [loadN_getElem]
    exact fill_in _ _ _ _ _ (Nat.le_add_right _ _) (Nat.add_lt_add_left hi _)
  · rw [hc3 g, hc'' g, hc' g (List.mem_cons_of_mem _ hg) (fun eg => hnew (eg ▸ hg)), hc g hg]

end

/-! ## runs -/

theorem fsCreateNode_blocks {k k' : Kernel} {bs : List Block} {name : List Byte} {type : FSNodeType}
    {p : Word} (h : HeapBlocks k.heap bs) (e : fsCreateNode k name type = .ok (p, k')) :
    ∃ bs', HeapBlocks k'.heap bs' := by
  have hstep : ∀ {h1 h2 : Machine} {bs1 : List Block} {n q : Word}, HeapBlocks h1 bs1 →
      FirstKernel.kmalloc h1 n = .ok (q, h2) → ∃ bs2, HeapBlocks h2 bs2 := by
    intro h1 h2 bs1 n q hb he
    rcases kmalloc_client hb n with ⟨s', e', hb', _⟩ | ⟨_, s', bs', _, e', _, hb', _⟩
    · rw [he] at e'
      cases e'
      exact ⟨bs1, hb'⟩
    · rw [he] at e'
      cases e'
      exact ⟨bs', hb'⟩
  obtain ⟨q, h1, e1⟩ := kmalloc_returns h sizeofFSNode
  obtain ⟨bs1, hb1⟩ := hstep h e1
  by_cases hq : q = 0
  · rw [hq] at e1
    rw [fsCreateNode_null type e1] at e
    cases e
    exact ⟨bs1, hb1⟩
  cases type with
  | file =>
    rw [fsCreateNode_file e1 hq] at e
    cases e
    exact ⟨bs1, hb1⟩
  | directory =>
    obtain ⟨c, h2, e2⟩ := kmalloc_returns hb1 sizeofChildren
    rw [fsCreateNode_dir e1 hq e2] at e
    cases e
    exact hstep hb1 e2

theorem fsInit_blocks {k k' : Kernel} {bs : List Block} (h : HeapBlocks k.heap bs)
    (e : fsInit k = .ok k') : ∃ bs', HeapBlocks k'.heap bs' := by
  obtain ⟨⟨root, k1⟩, e1, e2⟩ := bind_eq_ok e
  obtain ⟨bs', hb⟩ := fsCreateNode_blocks h e1
  refine ⟨bs', ?_⟩
  by_cases hr : root = 0
  · simp only [if_pos hr] at e2
    cases e2
    exact hb.store rfl fun _ _ => rfl
  · simp only [if_neg hr] at e2
    cases e2
    exact hb.store rfl fun _ _ => rfl

theorem files_nil {k : Kernel} {bs : List Block} (h : HeapBlocks k.heap bs) : Files k [] bs := by
  refine ⟨h, fun f hf => ?_, fun f hf => ?_, fun f hf => ?_⟩
  · cases hf
  · cases hf
  · cases hf

theorem files_step {t t' : FileSession} {bs : List Block} (h : Files t.k t.files bs) {op : FileOp}
    (hs : op.step t t') : ∃ bs', Files t'.k t'.files bs' := by
  cases op with
  | fsTouch path =>
    obtain ⟨f, e, hf, hd, hfs⟩ := hs
    obtain ⟨_, _, _, bs', h'⟩ := fsTouch_file h e hf hd
    exact ⟨bs', hfs ▸ h'⟩
  | cmdTouch args =>
    obtain ⟨ha, e, f, h1, e1, hf, hfs⟩ := hs
    obtain ⟨_, _, _, bs', h'⟩ := cmdTouch_file h ha e e1 hf
    exact ⟨bs', hfs ▸ h'⟩
  | write f offset n buffer =>
    obtain ⟨hf, hoff, hbig, hbuf, ⟨r, e⟩, hfs⟩ := hs
    obtain ⟨r', k', bs', e', h', _⟩ := fsWrite_file h hf offset hoff hbig hbuf
    rw [e] at e'
    cases e'
    exact ⟨bs', hfs ▸ h'⟩
  | read f offset n buffer =>
    obtain ⟨hf, hsum, hbuf, ⟨r, e⟩, hfs⟩ := hs
    rcases fsRead_file h hf offset hsum hbuf with ⟨_, e'⟩ | ⟨_, r', mem, e', _, _, h', _⟩
    · rw [e] at e'
      obtain ⟨_, ek⟩ := Prod.mk.inj (Except.ok.inj e')
      exact ⟨bs, by rw [hfs, ek]; exact h⟩
    · rw [e] at e'
      obtain ⟨_, ek⟩ := Prod.mk.inj (Except.ok.inj e')
      exact ⟨bs, by rw [hfs, ek]; exact h'⟩
  | poke x b =>
    obtain ⟨hx, rfl⟩ := hs
    refine ⟨bs, (h.poke _ fun y hy => store8_of_ne _ _ _ _ ?_).1⟩
    rintro rfl
    exact hy hx

/-- in every run every file has its own live buffer -/
theorem files_reachable {t : FileSession} (h : Run.Reachable fileSystem t) :
    ∃ bs, Files t.k t.files bs := by
  refine h.invariant ?_ ?_
  · rintro ⟨k, fs⟩ ⟨s, e, rfl⟩
    obtain ⟨bs, hb⟩ := fsInit_blocks (initHeap_blocks s) e
    exact ⟨bs, files_nil hb⟩
  · rintro t op t' _ ⟨bs, hb⟩ hs
    exact files_step hb hs

/-! ## each file as a byte array -/

/-- what the calls of a session do to the contents of its files -/
structure ByteArrays (t : FileSession) : Prop where
  fsTouch : ∀ path f k', fsTouch t.k path = .ok (f, k') → f ≠ 0 → (k'.node f).data ≠ 0 →
    f ∉ t.files ∧ contents k' f = [] ∧ ∀ g ∈ t.files, contents k' g = contents t.k g
  cmdTouch : ∀ args k' f h, noArgs args = false → cmdTouch t.k args = .ok k' →
    kmalloc t.k.heap sizeofFSNode = .ok (f, h) → f ≠ 0 →
    f ∉ t.files ∧ contents k' f = List.replicate 256 0 ∧
      ∀ g ∈ t.files, contents k' g = contents t.k g
  write : ∀ f ∈ t.files, ∀ offset n buffer, offset.toNat ≤ (contents t.k f).length →
    offset.toNat + n.toNat ≤ 0xFFFFFFF0 → Buffer buffer n →
    ∃ r k', fsWrite t.k f offset n buffer = .ok (r, k') ∧
      (r = n ∧ (contents k' f).length = max (contents t.k f).length (offset.toNat + n.toNat) ∧
          contents k' f = splice (contents t.k f) offset.toNat
            (loadN t.k.heap.mem buffer.toNat n.toNat) ∨
        r = minusOne ∧ contents k' f = contents t.k f) ∧
      ∀ g ∈ t.files, g ≠ f → contents k' g = contents t.k g
  read : ∀ f ∈ t.files, ∀ offset n buffer, offset.toNat + n.toNat < 2^32 → Buffer buffer n →
    ∃ r k', fsRead t.k f offset n buffer = .ok (r, k') ∧
      (∀ g ∈ t.files, contents k' g = contents t.k g) ∧
      ((contents t.k f).length < offset.toNat ∧ r = minusOne ∨
        offset.toNat ≤ (contents t.k f).length ∧
          r.toNat = min n.toNat ((contents t.k f).length - offset.toNat) ∧
          loadN k'.heap.mem buffer.toNat r.toNat
            = ((contents t.k f).drop offset.toNat).take n.toNat)
  poke : ∀ x b, Outside x → ∀ g ∈ t.files,
    contents (t.k.withMem (store8 t.k.heap.mem x b)) g = contents t.k g

theorem Files.byteArrays {t : FileSession} {bs : List Block} (h : Files t.k t.files bs) :
    ByteArrays t where
  fsTouch path f k' e hf hd := by
    obtain ⟨h1, h2, h3, _⟩ := fsTouch_file h e hf hd
    exact ⟨h1, h2, h3⟩
  cmdTouch args k' f h1 ha e e1 hf := by
    obtain ⟨h1, h2, h3, _⟩ := cmdTouch_file h ha e e1 hf
    exact ⟨h1, h2, h3⟩
  write f hf offset n buffer hoff hbig hbuf := by
    obtain ⟨r, k', _, e, _, hr, ho⟩ := fsWrite_file h hf offset (contents_length t.k f ▸ hoff) hbig hbuf
    refine ⟨r, k', e, hr.imp_left fun ⟨hrn, hc⟩ => ⟨hrn, ?_, hc⟩, ho⟩
    rw [hc, splice_length _ _ _ hoff, loadN_length]
  read f hf offset n buffer hsum hbuf := by
    rcases fsRead_file h hf offset hsum hbuf with ⟨hlt, e⟩ | ⟨hle, r, mem, e, hr, hc, _, hg⟩
    · exact ⟨minusOne, t.k, e, fun _ _ => rfl, .inl ⟨hlt, rfl⟩⟩
    · exact ⟨r, _, e, hg, .inr ⟨hle, hr, hc⟩⟩
  poke x b hx := by
    refine (h.poke _ fun y hy => store8_of_ne _ _ _ _ ?_).2
    rintro rfl
    exact hy hx

/-- **In every run each file is a byte array of its own.** -/
theorem files_independent (t : FileSession) (h : Run.Reachable fileSystem t) : ByteArrays t := by
  obtain ⟨bs, hb⟩ := files_reachable h
  exact hb.byteArrays

/-! ### the files of two sessions -/

/-- the file `a` made by `cmd_touch` after start-up -/
theorem touched_reachable : ∃ k0 k, fsInit (Kernel.boot bootMachine) = .ok k0 ∧
    cmdTouch k0 (some ⟨str "a", by decide⟩) = .ok k ∧
    Run.Reachable fileSystem ⟨k, [0x00800104]⟩ ∧ contents k 0x00800104 = List.replicate 256 0 := by
  obtain ⟨k0, k, h, e0, e1, e2⟩ : ∃ k0 k h, fsInit (Kernel.boot bootMachine) = .ok k0 ∧
      cmdTouch k0 (some ⟨str "a", by decide⟩) = .ok k ∧
      FirstKernel.kmalloc k0.heap sizeofFSNode = .ok (0x00800104, h) := ⟨_, _, _, rfl, rfl, rfl⟩
  have h0 : Run.Reachable fileSystem ⟨k0, []⟩ := .init ⟨bootMachine, e0, rfl⟩
  have h1 : Run.Reachable fileSystem ⟨k, [0x00800104]⟩ :=
    reachable_step h0 (.cmdTouch (some ⟨str "a", by decide⟩)) ⟨rfl, e1, _, h, e2, by decide, rfl⟩
  obtain ⟨bs, hb⟩ := files_reachable h0
  obtain ⟨_, hc, _⟩ := cmdTouch_file hb rfl e1 e2 (by decide)
  exact ⟨k0, k, e0, e1, h1, hc⟩

/-- a buffer below the heap -/
theorem buffer_low {buffer n : Word} (h : buffer.toNat + n.toNat ≤ 0x00800000) : Buffer buffer n :=
  ⟨by omega, fun x _ hx => .inl (by omega)⟩

/-- `cmd_touch` and `fs_touch`; a byte `7` behind the 256 bytes of the first file, which moves them; two
bytes to the second; and the bytes across the old end of the first read to address 8 -/
def growAndRead (args path : Option CString) : Res (Kernel × Option Word × List Word × List (List Byte)) := do
  let k0 ← fsInit (Kernel.boot bootMachine)
  let k1 ← cmdTouch k0 args
  let (f, k2) ← fsTouch k1 path
  let (_, k3) ← fsWrite (k2.withMem (store8 k2.heap.mem 0 7)) 0x00800104 256 1 0
  let (_, k4) ← fsWrite k3 f 0 2 0
  let (_, k5) ← fsRead k4 0x00800104 255 2 8
  return (k5, (FirstKernel.kmalloc k0.heap sizeofFSNode).toOption.map Prod.fst,
    [f, (k2.node f).data, (k2.node 0x00800104).size, (k3.node f).size],
    [contents k5 0x00800104, contents k5 f, loadN k5.heap.mem 8 2])

theorem growAndRead_shows :
    (growAndRead (some ⟨str "a", by decide⟩) (some ⟨str "//f", by decide⟩)).toOption.map Prod.snd =
    some (some 0x00800104, [0x0080027C, 0x008002E8, 256, 0],
      [List.replicate 256 0 ++ [7], [7, 0], [0, 7]]) := by
  -- `blit` evaluates where the loop of `copy` would move the 256 bytes one by one
  simp -zeta only [growAndRead, fsWrite, Kernel.krealloc, krealloc, copy_eq_blit]
  decide +kernel

/-- the growing write moved `a` and left `f` alone, and the read crossed the old end of `a` -/
theorem files_independent_two : ∃ t : FileSession, t.files = [0x0080027C, 0x00800104] ∧
    contents t.k 0x00800104 = List.replicate 256 0 ++ [7] ∧ contents t.k 0x0080027C = [7, 0] ∧
    loadN t.k.heap.mem 8 2 = [0, 7] ∧ ByteArrays t := by
  obtain ⟨⟨k5, v⟩, e, hv⟩ := Option.map_eq_some_iff.mp growAndRead_shows
  obtain ⟨k0, e0, e⟩ := bind_eq_ok (toOption_eq_some e)
  obtain ⟨k1, e1, e⟩ := bind_eq_ok e
  obtain ⟨⟨f, k2⟩, e2, e⟩ := bind_eq_ok e
  obtain ⟨⟨r3, k3⟩, e3, e⟩ := bind_eq_ok e
  obtain ⟨⟨r4, k4⟩, e4, e⟩ := bind_eq_ok e
  obtain ⟨⟨r5, k5⟩, e5, e⟩ := bind_eq_ok e
  obtain ⟨rfl, rfl⟩ := Prod.mk.inj (Except.ok.inj e)
  simp only [Prod.mk.injEq, List.cons.injEq, and_true] at hv
  obtain ⟨hk, ⟨rfl, hdata, hsize, hsize'⟩, ha, hf, hread⟩ := hv
  obtain ⟨⟨p, h⟩, ek, hp⟩ := Option.map_eq_some_iff.mp hk
  obtain rfl : p = 0x00800104 := hp
  have hlow : Buffer 0 1 ∧ Buffer 0 2 ∧ Buffer 8 2 :=
    ⟨buffer_low (by decide), buffer_low (by decide), buffer_low (by decide)⟩
  have hmem : (0x00800104 : Word) ∈ [0x0080027C, 0x00800104] ∧ (0x0080027C : Word) ∈
    [0x0080027C, 0x00800104] := by decide
  have h0 : Run.Reachable fileSystem ⟨k0, []⟩ := .init ⟨bootMachine, e0, rfl⟩
  have h1 : Run.Reachable fileSystem ⟨k1, [0x00800104]⟩ :=
    reachable_step h0 (.cmdTouch (some ⟨str "a", by decide⟩))
      ⟨rfl, e1, _, h, toOption_eq_some ek, by decide, rfl⟩
  have h2 : Run.Reachable fileSystem ⟨k2, [0x0080027C, 0x00800104]⟩ :=
    reachable_step h1 (.fsTouch (some ⟨str "//f", by decide⟩))
      ⟨_, e2, by decide, hdata ▸ by decide, rfl⟩
  have h3 : Run.Reachable fileSystem ⟨k2.withMem (store8 k2.heap.mem 0 7), [0x0080027C, 0x00800104]⟩ :=
    reachable_step h2 (.poke 0 7) ⟨.inl (by decide), rfl⟩
  have h4 : Run.Reachable fileSystem ⟨k3, [0x0080027C, 0x00800104]⟩ :=
    reachable_step h3 (.write 0x00800104 256 1 0)
      ⟨hmem.1, by rw [withMem_node, hsize], by decide, hlow.1, ⟨r3, e3⟩, rfl⟩
  have h5 : Run.Reachable fileSystem ⟨k4, [0x0080027C, 0x00800104]⟩ :=
    reachable_step h4 (.write 0x0080027C 0 2 0)
      ⟨hmem.2, by rw [hsize'], by decide, hlow.2.1, ⟨r4, e4⟩, rfl⟩
  have h6 : Run.Reachable fileSystem ⟨k5, [0x0080027C, 0x00800104]⟩ :=
    reachable_step h5 (.read 0x00800104 255 2 8) ⟨hmem.1, by decide, hlow.2.2, ⟨r5, e5⟩, rfl⟩
  exact ⟨_, rfl, ha, hf, hread, files_independent _ h6⟩

end FirstKernel
