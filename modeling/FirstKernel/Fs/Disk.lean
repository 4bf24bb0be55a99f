import FirstKernel.Fs.Effect
import FirstKernel.Fs.Transfer

/-!
# The blocks behind the nodes

The census knows which nodes there are.  `Disk` adds what a write needs: the buffers are no arrays, no
two files share one, and each holds the size of its file.

* `Disk.keep`      the nodes keep their buffers;
* `Disk.create`    a new node, with an array or a buffer;
* `Disk.offer`     it is put into a directory;
* `Disk.thin`      lists lose entries;
* `Disk.write`     `fs_write` below the wrap of its sum.
-/

namespace FirstKernel
open ByteMem Cells Tiling Outcome

structure Disk (k : Kernel) (bs : List Block) (N : Set Word) (born : Word → Nat) : Prop extends
    Census k bs N born where
  apart : ∀ p ∈ N, ∀ q ∈ N, (k.node p).children ≠ 0 → (k.node p).children ≠ (k.node q).data
  own : ∀ p ∈ N, ∀ q ∈ N, (k.node p).data ≠ 0 → (k.node p).data = (k.node q).data → p = q
  sized : ∀ p ∈ N, (k.node p).data ≠ 0 →
    ∃ n, Live bs (k.node p).data n ∧ (k.node p).size.toNat ≤ n

/-- a disk with the nodes of `N` and perhaps more -/
def DiskOver (N : Set Word) (k : Kernel) : Prop := ∃ bs N' born, N ⊆ N' ∧ Disk k bs N' born

section
variable {k k' : Kernel} {bs bs' : List Block} {N : Set Word} {born born' : Word → Nat}
  {p q f offset n buffer : Word}

/-- the nodes keep their pointers and sizes, and the blocks in use stay so -/
theorem Disk.keep (h : Disk k bs N born) (hc : Census k' bs' N born')
    (harray : ∀ p ∈ N, (k'.node p).children = (k.node p).children)
    (hdata : ∀ p ∈ N, (k'.node p).data = (k.node p).data)
    (hsize : ∀ p ∈ N, (k'.node p).size = (k.node p).size)
    (hlift : ∀ r j, Live bs r j → Live bs' r j) : Disk k' bs' N born' where
  toCensus := hc
  apart p hp q hq := by
    rw [harray p hp, hdata q hq]
    exact h.apart p hp q hq
  own p hp q hq := by
    rw [hdata p hp, hdata q hq]
    exact h.own p hp q hq
  sized p hp h0 := by
    rw [hdata p hp] at h0 ⊢
    rw [hsize p hp]
    obtain ⟨n, hn, hle⟩ := h.sized p hp h0
    exact ⟨n, hlift _ n hn, hle⟩

theorem Disk.same (h : Disk k bs N born) (hs : SameNodes N k k') (hb : HeapBlocks k'.heap bs)
    (hc : k'.currentDir = 0 ∨ k'.currentDir ∈ N ∧ (k.node k'.currentDir).type = .directory) :
    Disk k' bs N born :=
  h.keep (h.toCensus.same hs hb hc) (fun p hp => by rw [hs.node p hp])
    (fun p hp => by rw [hs.node p hp]) (fun p hp => by rw [hs.node p hp]) fun _ _ hr => hr

theorem Disk.printf (h : Disk k bs N born) (format : String) (args : List Arg) :
    Disk (k.printf format args) bs N born :=
  h.same (.of_eq rfl rfl rfl) (h.blocks.store rfl fun _ _ => rfl) h.current

theorem Disk.enter (h : Disk k bs N born) : Disk k.enter bs N born := by
  obtain ⟨hc, hN, hd⟩ := h.toCensus.enter
  rw [enter_node] at hd
  exact h.same (.of_eq (enter_root k) (enter_node k) (enter_slot k)) hc.blocks (.inr ⟨hN, hd⟩)

theorem Disk.thin (h : Disk k bs N born) (ht : Thinned N k k') : Disk k' bs N born :=
  h.keep (h.toCensus.thin ht) (fun p _ => by rw [ht.node p]) (fun p _ => by rw [ht.node p])
    (fun p _ => by rw [ht.node p]) fun _ _ hr => hr

theorem Disk.over (h : Disk k bs N born) : DiskOver N k := ⟨bs, N, born, subset_rfl, h⟩

theorem DiskOver.printf (h : DiskOver N k) (format : String) (args : List Arg) :
    DiskOver N (k.printf format args) := by
  obtain ⟨bs, N', born, hsub, h⟩ := h
  exact ⟨bs, N', born, hsub, h.printf format args⟩

/-- an allocation that came to nothing -/
theorem Disk.refused {s : Machine} (h : Disk k bs N born) (e : kmalloc k.heap n = .ok (0, s)) :
    Disk { k with heap := s } bs N born := by
  rcases kmalloc_client h.blocks n with ⟨s', e', hb, _⟩ | ⟨p, s', _, _, e', hp, _⟩
  · rw [e] at e'
    cases e'
    exact h.same (.of_eq rfl rfl rfl) hb h.current
  · rw [e] at e'
    cases e'
    exact absurd rfl hp

/-! ## a new node -/

/-- the second of two allocations is new as well -/
theorem kmalloc_second {s s1 s2 : Machine} {m : Word} (hb : HeapBlocks s bs)
    (e1 : kmalloc s m = .ok (f, s1)) (e2 : kmalloc s1 n = .ok (q, s2)) (hq : q ≠ 0) :
    ∀ j, ¬ Live bs q j := by
  obtain ⟨bs1, hb1, hlift, _⟩ := kmalloc_fresh hb e1
  obtain ⟨_, _, _, hnew⟩ := kmalloc_fresh hb1 e2
  exact fun j hj => (hnew hq).2 j (hlift q j hj)

/-- **A new node joins, with an array or with a buffer that holds its size.** -/
theorem Disk.create {h1 h2 : Machine} (h : Disk k bs N born)
    (e1 : kmalloc k.heap sizeofFSNode = .ok (f, h1)) (hf : f ≠ 0) (e2 : kmalloc h1 n = .ok (q, h2)) :
    ∃ bs', HeapBlocks h2 bs' ∧ (q ≠ 0 → ∃ j, Live bs' q j ∧ need n ≤ j) ∧ f ∉ N ∧
      ∀ (k' : Kernel) (nd : FSNode), HeapBlocks k'.heap bs' → k'.root = k.root →
        k'.currentDir = k.currentDir → k'.node = Function.update k.node f nd →
        (∀ a, (q = 0 ∨ a ≠ q) → k'.slot a = k.slot a) →
        nd.childCount = 0 → nd.parent = 0 → (0 : Byte) ∉ nd.name →
        (nd.children = q ∧ nd.data = 0 ∨ nd.children = 0 ∧ nd.data = q) →
        (nd.data ≠ 0 → nd.size.toNat ≤ need n) →
        SameNodes N k k' ∧ Disk k' bs' (insert f N) (bornLast born f) := by
  obtain ⟨bs', hb, hlift, hlive, hout, hnew⟩ := h.toCensus.create e1 hf e2
  refine ⟨bs', hb, hlive, hout, ?_⟩
  intro k' nd hb' hroot hcur hnode hslot hcount hparent hname hbuf hsize
  obtain ⟨hs, hc⟩ := hnew k' nd hb' hroot hcur hnode hslot hcount hparent hname hbuf
  have hself : k'.node f = nd := by rw [hnode, Function.update_self]
  have hfresh := fun hq => kmalloc_second h.blocks e1 e2 hq
  -- the pointers of the old nodes are not the new one
  have harray : q ≠ 0 → ∀ r ∈ N, (k.node r).children ≠ q := by
    rintro hq r hr rfl
    obtain ⟨j, hj⟩ := h.array r hr hq
    exact hfresh hq j hj
  have hbuffer : q ≠ 0 → ∀ r ∈ N, (k.node r).data ≠ q := by
    rintro hq r hr rfl
    obtain ⟨j, hj⟩ := h.buffer r hr hq
    exact hfresh hq j hj
  have hdata : nd.data ≠ 0 → nd.data = q := by
    intro h0
    exact hbuf.elim (fun hc => absurd hc.2 h0) fun hd => hd.2
  refine ⟨hs, ⟨hc, ?_, ?_, ?_⟩⟩
  · rintro r (rfl | hr) r' (rfl | hr') h0
    · rw [hself] at h0 ⊢
      rcases hbuf with ⟨_, e⟩ | ⟨e, _⟩
      · rw [e]
        exact h0
      · exact absurd e h0
    · rw [hself] at h0 ⊢
      rw [hs.node r' hr']
      rcases hbuf with ⟨e, _⟩ | ⟨e, _⟩
      · rw [e] at h0 ⊢
        exact (hbuffer h0 r' hr').symm
      · exact absurd e h0
    · rw [hs.node r hr] at h0 ⊢
      rw [hself]
      rcases hbuf with ⟨_, e⟩ | ⟨_, e⟩
      · rw [e]
        exact h0
      · rw [e]
        by_cases hq : q = 0
        · rw [hq]
          exact h0
        · exact harray hq r hr
    · rw [hs.node r hr] at h0 ⊢
      rw [hs.node r' hr']
      exact h.apart r hr r' hr' h0
  · refine distinct_insert (fun r hr => by rw [hs.node r hr]) h.own fun h0 r hr => ?_
    rw [hself] at h0 ⊢
    have e := hdata h0
    rw [e] at h0 ⊢
    exact hbuffer h0 r hr
  · rintro r (rfl | hr) h0
    · rw [hself] at h0 ⊢
      have e := hdata h0
      have hle := hsize h0
      rw [e] at h0 ⊢
      obtain ⟨j, hj, hneed⟩ := hlive h0
      exact ⟨j, hj, Nat.le_trans hle hneed⟩
    · rw [hs.node r hr] at h0 ⊢
      obtain ⟨j, hj, hle⟩ := h.sized r hr h0
      exact ⟨j, hlift _ j hj, hle⟩

theorem attach_children (k : Kernel) (p f q : Word) :
    ((k.attach p f).node q).children = (k.node q).children := by
  by_cases hqf : q = f
  · rw [hqf, attach_node_child]
    by_cases hfp : f = p
    · rw [if_pos hfp, hfp]
    · rw [if_neg hfp]
  · by_cases hqp : q = p
    · rw [hqp, attach_node_parent fun e => hqf (hqp.trans e.symm)]
    · rw [attach_node_of_ne hqp hqf]

/-- the new node is put into a directory, or not -/
theorem Disk.offer (h : Disk k bs (insert f N) (bornLast born f)) (hp : p ∈ N)
    (hd : (k.node p).type = .directory) (hf : f ∉ N) (hk : ∀ c ∈ kids k p, c ∈ N) :
    Yields (fsAddChild k p f) fun k' => Disk k' bs (insert f N) (bornLast born f) := by
  refine (fsAddChild_cases k p f).mono ?_
  rintro k' (⟨rfl, _⟩ | ⟨_, format, args, rfl⟩ | ⟨_, ha, rfl⟩)
  · exact h
  · exact h.printf format args
  · have hne : p ≠ f := fun e => hf (e ▸ hp)
    obtain ⟨hc, _⟩ := h.toCensus.attach (.inr hp) hd ha (.inl rfl) (born_lt_last hne) fun hm =>
      hf (hk f hm)
    have hsame := attach_sameFiles k p f
    exact h.keep hc (fun q _ => attach_children k p f q) (fun q _ => hsame.data q)
      (fun q _ => hsame.size q) fun _ _ hr => hr

/-- **A node made by two allocations and offered to a directory.** -/
theorem Disk.place {h1 h2 : Machine} {k1 : Kernel} {nd : FSNode} (h : Disk k bs N born)
    (e1 : kmalloc k.heap sizeofFSNode = .ok (f, h1)) (hf : f ≠ 0) (e2 : kmalloc h1 n = .ok (q, h2))
    (hp : p ∈ N) (hd : (k.node p).type = .directory)
    (hheap : ∀ bs', HeapBlocks h2 bs' → (q ≠ 0 → ∃ j, Live bs' q j ∧ need n ≤ j) →
      HeapBlocks k1.heap bs')
    (hroot : k1.root = k.root) (hcur : k1.currentDir = k.currentDir)
    (hnode : k1.node = Function.update k.node f nd)
    (hslot : ∀ a, (q = 0 ∨ a ≠ q) → k1.slot a = k.slot a)
    (hcount : nd.childCount = 0) (hparent : nd.parent = 0) (hname : (0 : Byte) ∉ nd.name)
    (hbuf : nd.children = q ∧ nd.data = 0 ∨ nd.children = 0 ∧ nd.data = q)
    (hsize : nd.data ≠ 0 → nd.size.toNat ≤ need n) :
    Yields (fsAddChild k1 p f) (DiskOver N) := by
  obtain ⟨bs', hb, hlive, hout, hnew⟩ := h.create e1 hf e2
  obtain ⟨hs, hdisk⟩ := hnew k1 nd (hheap bs' hb hlive) hroot hcur hnode hslot hcount hparent hname
    hbuf hsize
  refine (hdisk.offer hp ?_ hout ?_).mono fun k' hk' => ⟨bs', _, _, Set.subset_insert f N, hk'⟩
  · rw [hs.node p hp]
    exact hd
  · intro c hc
    rw [hs.kids p hp] at hc
    exact (h.younger p hp c hc).1

/-! ## `fs_write` -/

/-- the blocks after `krealloc` gave `q` for `p`, with room for `n` bytes -/
structure Regrown (bs : List Block) (p : Word) (n : Nat) (bs' : List Block) (q : Word) : Prop where
  ne_zero : q ≠ 0
  lift : ∀ r i, Live bs r i → r ≠ p → Live bs' r i
  live : ∃ j, Live bs' q j ∧ n ≤ j
  fresh : q = p ∨ ∀ i, ¬ Live bs q i
  old : ∀ r i, Live bs' r i → r = q ∨ (r ≠ p ∧ Live bs r i)

theorem krealloc_regrown {s : Machine} {c : Nat} (h : HeapBlocks s bs) (hp : Payload bs p c)
    (hn : n ≠ 0) (hbig : n.toNat ≤ 0xFFFFFFF0) :
    (∃ s', krealloc s p n = .ok (0, s') ∧ HeapBlocks s' bs) ∨
    ∃ q s' bs', krealloc s p n = .ok (q, s') ∧ HeapBlocks s' bs' ∧ Regrown bs p n.toNat bs' q := by
  rcases hp with ⟨rfl, rfl⟩ | hp
  · rw [krealloc_null s hn]
    rcases kmalloc_client h n with ⟨s', e, hb, _⟩ | ⟨q, s', bs', j, e, hq, hb, hk, hlive, hneed, hfresh,
      hold⟩
    · exact .inl ⟨s', e, hb⟩
    · refine .inr ⟨q, s', bs', e, hb, hq, fun r i hr _ => hk.live r i hr trivial, ⟨j, hlive, ?_⟩,
        .inr hfresh, fun r i hr => (hold r i hr).imp_right fun hr => ⟨hr.ne_zero h, hr⟩⟩
      exact Nat.le_trans (le_need n hbig) hneed
  · rcases krealloc_client h hp hn hbig with ⟨hfit, e⟩ | ⟨_, s', e, hb, _⟩ |
      ⟨_, q, s', bs', j, e, hq, _, hb, hk, hlive, hj, _, hfresh, hold⟩
    · refine .inr ⟨p, s, bs, e, h, hp.ne_zero h, fun _ _ hr _ => hr, ⟨c, hp, hfit⟩, .inl rfl,
        fun r i hr => ?_⟩
      by_cases hrp : r = p
      · exact .inl hrp
      · exact .inr ⟨hrp, hr⟩
    · exact .inl ⟨s', e, hb⟩
    · exact .inr ⟨q, s', bs', e, hb, hq, fun r i hr hrp => hk.live r i hr hrp, ⟨j, hlive, hj⟩,
        .inr hfresh, hold⟩

/-- a block in use other than the old one is not where the new one is -/
theorem Regrown.ne_of_live {r : Word} {m : Nat} (hg : Regrown bs p m bs' q) (hr : ∃ i, Live bs r i)
    (hne : r ≠ p) : r ≠ q := by
  obtain ⟨i, hi⟩ := hr
  rintro rfl
  rcases hg.fresh with e | hfresh
  · exact hne e
  · exact hfresh i hi

section
variable {size : Word}

/-- only `data` and `size` of one node have changed -/
theorem resized_node (hnode : k'.node = Function.update k.node f { k.node f with data := q, size := size })
    (p : Word) : k'.node p = { k.node p with data := (k'.node p).data, size := (k'.node p).size } := by
  by_cases hp : p = f
  · rw [hp, hnode, Function.update_self]
  · rw [hnode, Function.update_of_ne hp]

theorem Disk.data_ne (h : Disk k bs N born) (hf : f ∈ N) (hp : p ∈ N) (hpf : p ≠ f)
    (h0 : (k.node p).data ≠ 0) : (k.node p).data ≠ (k.node f).data :=
  fun e => hpf (h.own p hp f hf h0 e)

/-- the file owns its new block in place of the old one -/
theorem Disk.regrow_owns (h : Disk k bs N born) (hf : f ∈ N)
    (hg : Regrown bs (k.node f).data size.toNat bs' q)
    (hnode : k'.node = Function.update k.node f { k.node f with data := q, size := size }) :
    Ownership k' bs' N := by
  have hself : (k'.node f).data = q := by rw [hnode, Function.update_self]
  have hother : ∀ p, p ≠ f → k'.node p = k.node p := fun p hp => by rw [hnode, Function.update_of_ne hp]
  have hchildren : ∀ p, (k'.node p).children = (k.node p).children := fun p => by
    rw [resized_node hnode p]
  obtain ⟨j, hj, _⟩ := hg.live
  refine ⟨?_, ?_, ?_, ?_, ?_, ?_⟩
  · intro p hp
    obtain ⟨i, hi⟩ := h.live p hp
    exact ⟨i, hg.lift p i hi (h.struct p hp f hf).2⟩
  · intro p hp h0
    rw [hchildren p] at h0 ⊢
    obtain ⟨i, hi⟩ := h.array p hp h0
    exact ⟨i, hg.lift _ i hi (h.apart p hp f hf h0)⟩
  · intro p hp r hr h0 e
    rw [hchildren p] at h0 e
    rw [hchildren r] at e
    exact h.arrays p hp r hr h0 e
  · intro p hp h0
    by_cases hpf : p = f
    · rw [hpf, hself]
      exact ⟨j, hj⟩
    · rw [hother p hpf] at h0 ⊢
      obtain ⟨i, hi⟩ := h.buffer p hp h0
      exact ⟨i, hg.lift _ i hi (h.data_ne hf hp hpf h0)⟩
  · intro p hp r hr
    refine ⟨by rw [hchildren r]; exact (h.struct p hp r hr).1, ?_⟩
    by_cases hrf : r = f
    · rw [hrf, hself]
      exact hg.ne_of_live (h.live p hp) (h.struct p hp f hf).2
    · rw [hother r hrf]
      exact (h.struct p hp r hr).2
  · intro r i hr
    rcases hg.old r i hr with rfl | ⟨hne, hr⟩
    · exact ⟨f, hf, .inr (.inr hself.symm)⟩
    · obtain ⟨p, hp, e⟩ := h.owner r i hr
      refine ⟨p, hp, ?_⟩
      rcases e with e | e | e
      · exact .inl e
      · exact .inr (.inl (by rw [hchildren p]; exact e))
      · have hpf : p ≠ f := fun epf => hne (by rw [e, epf])
        exact .inr (.inr (by rw [hother p hpf]; exact e))

/-- the tree and the names do not depend on `data` and `size` -/
theorem Disk.regrow_census (h : Disk k bs N born) (hf : f ∈ N)
    (hg : Regrown bs (k.node f).data size.toNat bs' q) (hb : HeapBlocks k'.heap bs')
    (hroot : k'.root = k.root) (hcur : k'.currentDir = k.currentDir) (hslot : k'.slot = k.slot)
    (hnode : k'.node = Function.update k.node f { k.node f with data := q, size := size }) :
    Census k' bs' N born := by
  have hfield := resized_node hnode
  have hkids : ∀ p, kids k' p = kids k p := fun p =>
    kids_congr (by rw [hfield p]) (by rw [hfield p]) fun _ => by rw [hslot]
  refine ⟨h.regrow_owns hf hg hnode, hb, ?_, ?_, ?_, ?_, ?_, ?_, ?_, ?_⟩
  · intro p hp h0
    rw [hfield p] at h0 ⊢
    exact h.empty p hp h0
  · intro p hp
    rw [hkids p]
    exact h.younger p hp
  · intro p hp
    rw [hkids p]
    exact h.nodup p hp
  · intro p hp h0
    rw [hfield p] at h0 ⊢
    exact h.dir p hp h0
  · intro p hp
    have hparent : (k'.node p).parent = (k.node p).parent := by rw [hfield p]
    rw [hparent, hfield (k.node p).parent]
    exact h.parent p hp
  · intro p hp
    rw [hfield p]
    exact h.name p hp
  · rw [hroot, hfield k.root]
    exact h.root
  · rw [hcur, hfield k.currentDir]
    exact h.current

/-- **A file whose data has moved or grown.** -/
theorem Disk.regrow (h : Disk k bs N born) (hf : f ∈ N)
    (hg : Regrown bs (k.node f).data size.toNat bs' q) (hb : HeapBlocks k'.heap bs')
    (hroot : k'.root = k.root) (hcur : k'.currentDir = k.currentDir) (hslot : k'.slot = k.slot)
    (hnode : k'.node = Function.update k.node f { k.node f with data := q, size := size }) :
    Disk k' bs' N born := by
  have hself : k'.node f = { k.node f with data := q, size := size } := by
    rw [hnode, Function.update_self]
  have hother : ∀ p, p ≠ f → k'.node p = k.node p := fun p hp => by rw [hnode, Function.update_of_ne hp]
  -- the new pointer is no other file's
  have hdata : ∀ p ∈ N, p ≠ f → (k.node p).data ≠ 0 → (k.node p).data ≠ q := fun p hp hpf h0 =>
    hg.ne_of_live (h.buffer p hp h0) (h.data_ne hf hp hpf h0)
  obtain ⟨j, hj, hjs⟩ := hg.live
  refine ⟨h.regrow_census hf hg hb hroot hcur hslot hnode, ?_, ?_, ?_⟩
  · intro p hp r hr h0
    rw [resized_node hnode p] at h0 ⊢
    by_cases hrf : r = f
    · rw [hrf, hself]
      exact hg.ne_of_live (h.array p hp h0) (h.apart p hp f hf h0)
    · rw [hother r hrf]
      exact h.apart p hp r hr h0
  · intro p hp r hr h0 e
    by_cases hpf : p = f
    · by_cases hrf : r = f
      · rw [hpf, hrf]
      · rw [hpf, hself, hother r hrf] at e
        have hr0 : (k.node r).data ≠ 0 := fun e0 => hg.ne_zero (e.trans e0)
        exact absurd e.symm (hdata r hr hrf hr0)
    · rw [hother p hpf] at h0 e
      by_cases hrf : r = f
      · rw [hrf, hself] at e
        exact absurd e (hdata p hp hpf h0)
      · rw [hother r hrf] at e
        exact h.own p hp r hr h0 e
  · intro p hp h0
    by_cases hpf : p = f
    · rw [hpf, hself]
      exact ⟨j, hj, hjs⟩
    · rw [hother p hpf] at h0 ⊢
      obtain ⟨i, hi, hle⟩ := h.sized p hp h0
      exact ⟨i, hg.lift _ i hi (h.data_ne hf hp hpf h0), hle⟩

end

/-- bytes stored inside the data of a file -/
theorem Disk.copied (h : Disk k bs N born)
    (hlive : ∃ j, Live bs (k.node f).data j ∧ offset.toNat + n.toNat ≤ j) (src : Word) :
    Disk (k.memcpy ((k.node f).data + offset) src n) bs N born := by
  obtain ⟨j, hj, hle⟩ := hlive
  have hb := hj.bounds h.blocks
  have hin : Within ((k.node f).data + offset) n (k.node f).data.toNat ((k.node f).data.toNat + j) :=
    within_add (by omega) (Nat.le_add_right _ _) (by omega)
  exact h.same (.of_eq rfl rfl rfl) (h.blocks.store rfl fun x hx => memcpy_out _ src hin (hx.2 _ j hj))
    h.current

/-- **`fs_read` into a buffer off the heap keeps the disk**, whatever the offset and the size are. -/
theorem Disk.read (h : Disk k bs N born) (hbuf : Buffer buffer n) :
    Yields (fsRead k f offset n buffer) fun r => Disk r.2 bs N born := by
  have hcopied : ∀ src r : Word, r.toNat ≤ n.toNat → Disk (k.memcpy buffer src r) bs N born := by
    intro src r hle
    have hfits := hbuf.fits
    have hin : Within (buffer + 0#32) r buffer.toNat (buffer.toNat + r.toNat) :=
      within_add (by rw [BitVec.toNat_zero]; omega) (Nat.le_add_right _ _) (Nat.le_refl _)
    rw [BitVec.add_zero] at hin
    refine h.same (.of_eq rfl rfl rfl) (h.blocks.store rfl fun x hx => memcpy_out _ _ hin ?_) h.current
    by_contra hmeet
    exact hx.1 (hbuf.off x (by omega) (by omega))
  unfold fsRead
  refine .ite (fun _ => .pure h) fun _ => .ite (fun _ => .pure h) fun hoff => ?_
  have hle : (if (k.node f).size < offset + n then (k.node f).size - offset else n).toNat
      ≤ n.toNat := by
    split
    · bv_omega
    · exact Nat.le_refl _
  exact .ite (fun _ => (Yields.trivial _).bind fun _ _ => .pure (hcopied _ _ hle)) fun _ =>
    .pure (hcopied _ _ hle)

/-- **`fs_write` keeps every node and every buffer**, as long as its sum does not wrap. -/
theorem Disk.write (h : Disk k bs N born) (hf : f ∈ N) (hsum : offset.toNat + n.toNat ≤ 0xFFFFFFF0) :
    Yields (fsWrite k f offset n buffer) fun r => ∃ bs', Disk r.2 bs' N born := by
  have hf0 := h.ne_zero hf
  have hadd : (offset + n).toNat = offset.toNat + n.toNat :=
    BitVec.toNat_add_of_lt (by omega)
  intro r e
  by_cases ht : (k.node f).type = .file
  · by_cases hgrow : (k.node f).size < offset + n
    · have hne : offset + n ≠ 0 := fun e => BitVec.not_lt_zero (e ▸ hgrow)
      have hp : ∃ c, Payload bs (k.node f).data c := by
        by_cases hd : (k.node f).data = 0
        · exact ⟨0, .inl ⟨hd, rfl⟩⟩
        · exact (h.buffer f hf hd).imp fun c hc => .inr hc
      obtain ⟨c, hp⟩ := hp
      rcases krealloc_regrown h.blocks hp hne (by rw [hadd]; exact hsum) with ⟨s', e', hb⟩ |
        ⟨q, s', bs', e', hb, hg⟩
      · rw [fsWrite_refused hf0 ht hgrow e'] at e
        cases e
        have h1 : Disk { k with heap := s' } bs N born := h.same (.of_eq rfl rfl rfl) hb h.current
        exact ⟨bs, h1.printf _ _⟩
      · rw [fsWrite_grow hf0 ht hgrow e' hg.ne_zero] at e
        cases e
        let k1 := k.withNode s' f { k.node f with data := q, size := offset + n }
        have h1 : Disk k1 bs' N born := h.regrow hf hg hb rfl rfl rfl rfl
        obtain ⟨j, hj, hle⟩ := hg.live
        have hself : (k1.node f).data = q := by rw [withNode_node_self]
        have h2 : Disk (k1.memcpy ((k1.node f).data + offset) buffer n) bs' N born :=
          h1.copied ⟨j, by rw [hself]; exact hj, by rw [← hadd]; exact hle⟩ buffer
        rw [hself] at h2
        exact ⟨bs', h2⟩
    · by_cases hd : (k.node f).data = 0
      -- without a buffer only nothing can be written
      · by_cases hn : n = 0
        · rw [fsWrite_inside hf0 ht hgrow fun hn' => absurd hn hn', hn] at e
          cases e
          exact ⟨bs, h⟩
        · unfold fsWrite at e
          rw [if_neg (not_or.mpr ⟨hf0, not_not.mpr ht⟩), if_neg hgrow, if_pos hn, hd] at e
          cases e
      · rw [fsWrite_inside hf0 ht hgrow fun _ => hd] at e
        cases e
        obtain ⟨j, hj, hle⟩ := h.sized f hf hd
        rw [BitVec.lt_def, hadd] at hgrow
        exact ⟨bs, h.copied ⟨j, hj, by omega⟩ buffer⟩
  · unfold fsWrite at e
    rw [if_pos (.inr ht)] at e
    cases e
    exact ⟨bs, h⟩

end

end FirstKernel
