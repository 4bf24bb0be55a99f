import FirstKernel.Fs.TreeRun
import FirstKernel.Lib.Outcome
import Mathlib.Order.Lattice.Nat
import Mathlib.Data.Finset.Lattice.Fold

/-!
# All the nodes ever made

Nothing gives a node back, so the nodes a run has made stay where they are, in the tree or not.  The
census lists them with the order they were made in, and says which blocks they own; it holds in every
run, also when allocations fail or a node could not be attached.

* `Ownership`       whose blocks the blocks in use are;
* `Census`          the invariant; a directory is older than its entries;
* `Census.same`     nothing happened to the nodes;
* `Census.create`   a new node, not yet in a directory;
* `Census.attach`   a node becomes the last entry of a directory;
* `Census.thin`     lists lose entries, as `fs_remove_child` makes them (`thins`).
-/

namespace FirstKernel
open ByteMem Cells Tiling Outcome

/-- the blocks in use are the nodes `N` with an array or a buffer each -/
structure Ownership (k : Kernel) (bs : List Block) (N : Set Word) : Prop where
  live : ∀ p ∈ N, ∃ n, Live bs p n
  array : ∀ p ∈ N, (k.node p).children ≠ 0 → ∃ n, Live bs (k.node p).children n
  arrays : ∀ p ∈ N, ∀ q ∈ N, (k.node p).children ≠ 0 → (k.node p).children = (k.node q).children → p = q
  buffer : ∀ p ∈ N, (k.node p).data ≠ 0 → ∃ n, Live bs (k.node p).data n
  struct : ∀ p ∈ N, ∀ q ∈ N, p ≠ (k.node q).children ∧ p ≠ (k.node q).data
  owner : ∀ q j, Live bs q j → ∃ p ∈ N, q = p ∨ q = (k.node p).children ∨ q = (k.node p).data

/-- `N` are the nodes made so far, `born` the order they were made in, and `bs` the heap they and
their buffers and arrays live in -/
structure Census (k : Kernel) (bs : List Block) (N : Set Word) (born : Word → Nat) : Prop extends
    Ownership k bs N where
  blocks : HeapBlocks k.heap bs
  empty : ∀ p ∈ N, (k.node p).children = 0 → (k.node p).childCount = 0
  younger : ∀ p ∈ N, ∀ c ∈ kids k p, c ∈ N ∧ born p < born c
  nodup : ∀ p ∈ N, (kids k p).Nodup
  dir : ∀ p ∈ N, (k.node p).childCount ≠ 0 → (k.node p).type = .directory
  parent : ∀ p ∈ N, (k.node p).parent = 0 ∨
    (k.node p).parent ∈ N ∧ (k.node (k.node p).parent).type = .directory
  name : ∀ p ∈ N, (0 : Byte) ∉ (k.node p).name
  root : k.root ∈ N ∧ (k.node k.root).type = .directory
  current : k.currentDir = 0 ∨ k.currentDir ∈ N ∧ (k.node k.currentDir).type = .directory

/-- the nodes `N` have the same structs and lists in `k'` -/
structure SameNodes (N : Set Word) (k k' : Kernel) : Prop where
  root : k'.root = k.root
  node : ∀ p ∈ N, k'.node p = k.node p
  kids : ∀ p ∈ N, kids k' p = kids k p

/-- the nodes `N` of `k'` are those of `k` with entries of some lists gone -/
structure Thinned (N : Set Word) (k k' : Kernel) : Prop where
  heap : k'.heap = k.heap
  root : k'.root = k.root
  currentDir : k'.currentDir = k.currentDir
  node : ∀ q, k'.node q = { k.node q with childCount := (k'.node q).childCount }
  kids : ∀ q ∈ N, List.Sublist (kids k' q) (kids k q)

section
variable {k k' : Kernel} {bs bs' : List Block} {N : Set Word} {born : Word → Nat} {p q f c : Word}

theorem SameNodes.of_eq (hr : k'.root = k.root) (hn : k'.node = k.node) (hs : k'.slot = k.slot) :
    SameNodes N k k' :=
  ⟨hr, fun q _ => by rw [hn], fun q _ => kids_congr (by rw [hn]) (by rw [hn]) fun _ => by rw [hs]⟩

theorem SameNodes.trans {k'' : Kernel} (h : SameNodes N k k') (h' : SameNodes N k' k'') :
    SameNodes N k k'' where
  root := h'.root.trans h.root
  node q hq := (h'.node q hq).trans (h.node q hq)
  kids q hq := (h'.kids q hq).trans (h.kids q hq)

theorem Census.ne_zero (h : Census k bs N born) (hp : p ∈ N) : p ≠ 0 := by
  obtain ⟨n, hn⟩ := h.live p hp
  exact hn.ne_zero h.blocks

theorem Census.inTree (h : Census k bs N born) (hp : InTree k p) : p ∈ N := by
  induction hp with
  | root => exact h.root.1
  | child _ hc ih => exact (h.younger _ ih _ hc).1

theorem Ownership.congr (h : Ownership k bs N) (hc : ∀ p ∈ N, (k'.node p).children = (k.node p).children)
    (hd : ∀ p ∈ N, (k'.node p).data = (k.node p).data) : Ownership k' bs N where
  live := h.live
  array p hp := by
    rw [hc p hp]
    exact h.array p hp
  arrays p hp q hq := by
    rw [hc p hp, hc q hq]
    exact h.arrays p hp q hq
  buffer p hp := by
    rw [hd p hp]
    exact h.buffer p hp
  struct p hp q hq := by
    rw [hc q hq, hd q hq]
    exact h.struct p hp q hq
  owner q j hq := by
    obtain ⟨p, hp, e⟩ := h.owner q j hq
    exact ⟨p, hp, by rw [hc p hp, hd p hp]; exact e⟩

/-- nothing happened to the nodes, and the current directory is one of them -/
theorem Census.same (h : Census k bs N born) (hs : SameNodes N k k') (hb : HeapBlocks k'.heap bs)
    (hc : k'.currentDir = 0 ∨ k'.currentDir ∈ N ∧ (k.node k'.currentDir).type = .directory) :
    Census k' bs N born where
  toOwnership := h.congr (fun p hp => by rw [hs.node p hp]) fun p hp => by rw [hs.node p hp]
  blocks := hb
  empty p hp := by
    rw [hs.node p hp]
    exact h.empty p hp
  younger p hp := by
    rw [hs.kids p hp]
    exact h.younger p hp
  nodup p hp := by
    rw [hs.kids p hp]
    exact h.nodup p hp
  dir p hp := by
    rw [hs.node p hp]
    exact h.dir p hp
  parent p hp := by
    rw [hs.node p hp]
    refine (h.parent p hp).imp_right fun ⟨h1, h2⟩ => ⟨h1, ?_⟩
    rw [hs.node _ h1]
    exact h2
  name p hp := by
    rw [hs.node p hp]
    exact h.name p hp
  root := by
    rw [hs.root, hs.node _ h.root.1]
    exact h.root
  current := by
    refine hc.imp_right fun ⟨h1, h2⟩ => ⟨h1, ?_⟩
    rw [hs.node _ h1]
    exact h2

theorem Census.printf (h : Census k bs N born) (format : String) (args : List Arg) :
    Census (k.printf format args) bs N born :=
  h.same (.of_eq rfl rfl rfl) (h.blocks.store rfl fun _ _ => rfl) h.current

/-- after the first line of a command the current directory is set -/
theorem Census.enter (h : Census k bs N born) :
    Census k.enter bs N born ∧ k.enter.currentDir ∈ N ∧
      (k.enter.node k.enter.currentDir).type = .directory := by
  have hcur : k.enter.currentDir ∈ N ∧ (k.node k.enter.currentDir).type = .directory := by
    unfold Kernel.enter
    by_cases h0 : k.currentDir = 0
    · rw [if_pos h0]
      exact h.root
    · rw [if_neg h0]
      exact h.current.resolve_left h0
  refine ⟨h.same (.of_eq (enter_root k) (enter_node k) (enter_slot k)) ?_ (.inr hcur), hcur.1, ?_⟩
  · rw [enter_heap]
    exact h.blocks
  · rw [enter_node]
    exact hcur.2

/-! ## a new node -/

/-- the order of birth with `f` as the last one -/
def bornLast (born : Word → Nat) (f : Word) : Word → Nat :=
  Function.update born f (Finset.univ.sup born + 1)

theorem bornLast_self (born : Word → Nat) (f : Word) : bornLast born f f = Finset.univ.sup born + 1 :=
  Function.update_self ..

theorem bornLast_of_ne (h : q ≠ f) : bornLast born f q = born q := Function.update_of_ne h ..

theorem born_lt_last (h : q ≠ f) : bornLast born f q < bornLast born f f := by
  rw [bornLast_self, bornLast_of_ne h]
  exact Nat.lt_succ_of_le (Finset.le_sup (Finset.mem_univ q))

/-- pointers that differ from node to node still do with a node whose pointer is new -/
theorem distinct_insert {g g' : Word → Word} (hold : ∀ r ∈ N, g' r = g r)
    (h : ∀ r ∈ N, ∀ r' ∈ N, g r ≠ 0 → g r = g r' → r = r')
    (hnew : g' f ≠ 0 → ∀ r ∈ N, g r ≠ g' f) :
    ∀ r ∈ insert f N, ∀ r' ∈ insert f N, g' r ≠ 0 → g' r = g' r' → r = r' := by
  rintro r (rfl | hr) r' (rfl | hr') h0 e
  · rfl
  · rw [hold r' hr'] at e
    exact absurd e.symm (hnew h0 r' hr')
  · rw [hold r hr] at h0 e
    exact absurd e (hnew (e ▸ h0) r hr)
  · rw [hold r hr] at h0 e
    rw [hold r' hr'] at e
    exact h r hr r' hr' h0 e

/-- **Two allocations for a new node, and whose blocks they are.** -/
theorem Ownership.create {n : Word} {h1 h2 : Machine} (h : Ownership k bs N) (hb : HeapBlocks k.heap bs)
    (e1 : kmalloc k.heap sizeofFSNode = .ok (f, h1)) (hf : f ≠ 0)
    (e2 : kmalloc h1 n = .ok (q, h2)) :
    ∃ bs', HeapBlocks h2 bs' ∧ (∀ r j, Live bs r j → Live bs' r j) ∧
      (q ≠ 0 → ∃ j, Live bs' q j ∧ need n ≤ j) ∧ f ∉ N ∧ (q ≠ 0 → ∀ r ∈ N, (k.node r).children ≠ q) ∧
      ∀ (k' : Kernel) (nd : FSNode), k'.node = Function.update k.node f nd →
        (nd.children = q ∧ nd.data = 0 ∨ nd.children = 0 ∧ nd.data = q) →
        Ownership k' bs' (insert f N) := by
  obtain ⟨bs1, hb1, hlift1, hnew1, hold1⟩ := kmalloc_joins hb e1
  obtain ⟨bs2, hb2, hlift2, hnew2, hold2⟩ := kmalloc_joins hb1 e2
  obtain ⟨⟨j1, hlive1, _⟩, hfresh1⟩ := hnew1 hf
  have hout : f ∉ N := by
    intro hin
    obtain ⟨j, hj⟩ := h.live f hin
    exact hfresh1 j hj
  have hlift : ∀ r j, Live bs r j → Live bs2 r j := fun r j hr => hlift2 _ _ (hlift1 _ _ hr)
  -- no pointer to an old block is one of the new ones
  have hne1 : ∀ r, (r ≠ 0 → ∃ j, Live bs r j) → f ≠ r := by
    rintro r hr rfl
    obtain ⟨j, hj⟩ := hr hf
    exact hfresh1 j hj
  have hne2 : ∀ r, (r ≠ 0 → ∃ j, Live bs1 r j) → q ≠ 0 → r ≠ q := by
    rintro r hr hq rfl
    obtain ⟨j, hj⟩ := hr hq
    exact (hnew2 hq).2 j hj
  have hup : ∀ r, (r ≠ 0 → ∃ j, Live bs r j) → r ≠ 0 → ∃ j, Live bs1 r j := fun r hr h0 =>
    (hr h0).imp fun j hj => hlift1 _ _ hj
  have harray : q ≠ 0 → ∀ r ∈ N, (k.node r).children ≠ q := fun hq r hr =>
    hne2 _ (hup _ (h.array r hr)) hq
  refine ⟨bs2, hb2, hlift, fun hq => (hnew2 hq).1, hout, harray, fun k' nd hnode hbuf => ?_⟩
  have hself : k'.node f = nd := by rw [hnode, Function.update_self]
  have hold : ∀ r ∈ N, k'.node r = k.node r := by
    intro r hr
    rw [hnode, Function.update_of_ne fun e => hout (by rw [← e]; exact hr)]
  have hchild : nd.children ≠ 0 → nd.children = q := by
    intro h0
    exact hbuf.elim (fun hc => hc.1) fun hd => absurd hd.1 h0
  have hdata : nd.data ≠ 0 → nd.data = q := by
    intro h0
    exact hbuf.elim (fun hc => absurd hc.2 h0) fun hd => hd.2
  -- a node is none of the pointers of the new one
  have hstruct : ∀ r, r ≠ 0 → (∃ j, Live bs1 r j) → r ≠ nd.children ∧ r ≠ nd.data := by
    intro r h0 hr
    constructor
    · rintro rfl
      exact hne2 _ (fun _ => hr) (by rw [← hchild h0]; exact h0) (hchild h0)
    · rintro rfl
      exact hne2 _ (fun _ => hr) (by rw [← hdata h0]; exact h0) (hdata h0)
  refine ⟨?_, ?_, ?_, ?_, ?_, ?_⟩
  · rintro r (rfl | hr)
    · exact ⟨j1, hlift2 _ _ hlive1⟩
    · exact (h.live r hr).imp fun j hj => hlift r j hj
  · rintro r (rfl | hr) h0
    · rw [hself] at h0 ⊢
      have e := hchild h0
      rw [e] at h0 ⊢
      exact (hnew2 h0).1.imp fun j hj => hj.1
    · rw [hold r hr] at h0 ⊢
      exact (h.array r hr h0).imp fun j hj => hlift _ j hj
  · refine distinct_insert (fun r hr => by rw [hold r hr]) h.arrays fun h0 r hr => ?_
    rw [hself] at h0 ⊢
    have e := hchild h0
    rw [e] at h0 ⊢
    exact harray h0 r hr
  · rintro r (rfl | hr) h0
    · rw [hself] at h0 ⊢
      have e := hdata h0
      rw [e] at h0 ⊢
      exact (hnew2 h0).1.imp fun j hj => hj.1
    · rw [hold r hr] at h0 ⊢
      exact (h.buffer r hr h0).imp fun j hj => hlift _ j hj
  · rintro r hr r' (rfl | hr')
    · rw [hself]
      rcases hr with rfl | hr
      · exact hstruct r hf ⟨j1, hlive1⟩
      · obtain ⟨j, hj⟩ := h.live r hr
        exact hstruct r (hj.ne_zero hb) ⟨j, hlift1 _ _ hj⟩
    · rw [hold r' hr']
      rcases hr with rfl | hr
      · exact ⟨hne1 _ (h.array r' hr'), hne1 _ (h.buffer r' hr')⟩
      · exact h.struct r hr r' hr'
  · intro r j hr
    rcases hold2 r j hr with ⟨_, rfl⟩ | hr
    · refine ⟨f, .inl rfl, ?_⟩
      rw [hself]
      rcases hbuf with e | e
      · exact .inr (.inl e.1.symm)
      · exact .inr (.inr e.2.symm)
    · rcases hold1 r j hr with ⟨_, rfl⟩ | hr
      · exact ⟨r, .inl rfl, .inl rfl⟩
      · obtain ⟨p, hp, e⟩ := h.owner r j hr
        exact ⟨p, .inr hp, by rw [hold p hp]; exact e⟩

/-- **Whatever is stored in a new node, and in its array, it joins the nodes and the rest of them is as
before.** -/
theorem Census.create {n : Word} {h1 h2 : Machine} (h : Census k bs N born)
    (e1 : kmalloc k.heap sizeofFSNode = .ok (f, h1)) (hf : f ≠ 0)
    (e2 : kmalloc h1 n = .ok (q, h2)) :
    ∃ bs', HeapBlocks h2 bs' ∧ (∀ r j, Live bs r j → Live bs' r j) ∧
      (q ≠ 0 → ∃ j, Live bs' q j ∧ need n ≤ j) ∧ f ∉ N ∧
      ∀ (k' : Kernel) (nd : FSNode), HeapBlocks k'.heap bs' → k'.root = k.root →
        k'.currentDir = k.currentDir → k'.node = Function.update k.node f nd →
        (∀ a, (q = 0 ∨ a ≠ q) → k'.slot a = k.slot a) →
        nd.childCount = 0 → nd.parent = 0 → (0 : Byte) ∉ nd.name →
        (nd.children = q ∧ nd.data = 0 ∨ nd.children = 0 ∧ nd.data = q) →
        SameNodes N k k' ∧ Census k' bs' (insert f N) (bornLast born f) := by
  obtain ⟨bs2, hb2, hlift, hlive, hout, harray, hown⟩ := h.toOwnership.create h.blocks e1 hf e2
  refine ⟨bs2, hb2, hlift, hlive, hout, ?_⟩
  intro k' nd hb hroot hcur hnode hslot hcount hparent hname hbuf
  have hself : k'.node f = nd := by rw [hnode, Function.update_self]
  have hold : ∀ r ∈ N, k'.node r = k.node r := by
    intro r hr
    rw [hnode, Function.update_of_ne fun e => hout (by rw [← e]; exact hr)]
  have hnil : kids k' f = [] := kids_eq_nil (by rw [hself]; exact hcount)
  have hs : SameNodes N k k' := by
    refine ⟨hroot, hold, fun r hr => kids_congr (by rw [hold r hr]) (by rw [hold r hr]) fun hc => ?_⟩
    apply hslot
    by_cases hq : q = 0
    · exact .inl hq
    · exact .inr (harray hq r hr)
  have hne : ∀ r ∈ N, r ≠ f := fun r hr e => hout (by rw [← e]; exact hr)
  refine ⟨hs, ⟨hown k' nd hnode hbuf, hb, ?_, ?_, ?_, ?_, ?_, ?_, ?_, ?_⟩⟩
  · rintro r (rfl | hr)
    · rw [hself]
      exact fun _ => hcount
    · rw [hold r hr]
      exact h.empty r hr
  · rintro r (rfl | hr) c hc
    · rw [hnil] at hc
      cases hc
    · rw [hs.kids r hr] at hc
      obtain ⟨h1, h2⟩ := h.younger r hr c hc
      rw [bornLast_of_ne (hne r hr), bornLast_of_ne (hne c h1)]
      exact ⟨.inr h1, h2⟩
  · rintro r (rfl | hr)
    · rw [hnil]
      exact List.nodup_nil
    · rw [hs.kids r hr]
      exact h.nodup r hr
  · rintro r (rfl | hr) h0
    · rw [hself] at h0
      exact absurd hcount h0
    · rw [hold r hr] at h0 ⊢
      exact h.dir r hr h0
  · rintro r (rfl | hr)
    · rw [hself]
      exact .inl hparent
    · rw [hold r hr]
      refine (h.parent r hr).imp_right fun ⟨h1, h2⟩ => ⟨.inr h1, ?_⟩
      rw [hold _ h1]
      exact h2
  · rintro r (rfl | hr)
    · rw [hself]
      exact hname
    · rw [hold r hr]
      exact h.name r hr
  · rw [hroot, hold _ h.root.1]
    exact ⟨.inr h.root.1, h.root.2⟩
  · rw [hcur]
    refine h.current.imp_right fun ⟨h1, h2⟩ => ⟨.inr h1, ?_⟩
    rw [hold _ h1]
    exact h2

/-! ## a new entry -/

/-- **A node becomes the last child of an older directory that has an array.** -/
theorem Census.attach (h : Census k bs N born) (hp : p ∈ N) (hd : (k.node p).type = .directory)
    (harray : (k.node p).children ≠ 0) (hf : f ∈ N) (hlt : born p < born f) (hnew : f ∉ kids k p) :
    Census (k.attach p f) bs N born ∧ kids (k.attach p f) p = kids k p ++ [f] ∧
      (∀ q ∈ N, q ≠ p → kids (k.attach p f) q = kids k q) ∧
      ∀ q, ((k.attach p f).node q).name = (k.node q).name := by
  have hfp : f ≠ p := by
    rintro rfl
    exact absurd hlt (Nat.lt_irrefl _)
  -- counts change at `p` and parents at `f`
  have hnode : ∀ q, ∃ n r, (k.attach p f).node q = { k.node q with childCount := n, parent := r } ∧
      (q ≠ p → n = (k.node q).childCount) ∧ (r = (k.node q).parent ∨ r = p) := by
    intro q
    by_cases hqf : q = f
    · rw [hqf, attach_node_child, if_neg hfp]
      exact ⟨_, _, rfl, fun _ => rfl, .inr rfl⟩
    · by_cases hqp : q = p
      · rw [hqp, attach_node_parent hfp]
        exact ⟨_, _, rfl, fun hne => absurd rfl hne, .inl rfl⟩
      · rw [attach_node_of_ne hqp hqf]
        exact ⟨_, _, rfl, fun _ => rfl, .inl rfl⟩
  have hother : ∀ q ∈ N, q ≠ p → kids (k.attach p f) q = kids k q := by
    intro q hq hqp
    obtain ⟨n, r, e, hn, _⟩ := hnode q
    refine kids_congr (by rw [e]; exact hn hqp) (by rw [e]) fun hc => attach_slot_of_ne fun ea => ?_
    exact hqp (h.arrays p hp q hq harray ea.symm).symm
  have htype : ∀ q, ((k.attach p f).node q).type = (k.node q).type := (attach_sameFiles k p f).type
  have hself := kids_attach_self (k := k) hfp
  have hown : Ownership (k.attach p f) bs N := by
    apply h.congr
    · intro q _
      obtain ⟨n, r, e, _⟩ := hnode q
      rw [e]
    · intro q _
      obtain ⟨n, r, e, _⟩ := hnode q
      rw [e]
  refine ⟨⟨hown, h.blocks, ?_, ?_, ?_, ?_, ?_, ?_, ?_, ?_⟩, hself, hother, ?_⟩
  · intro q hq h0
    obtain ⟨n, r, e, hn, _⟩ := hnode q
    rw [e] at h0 ⊢
    have hqp : q ≠ p := by
      rintro rfl
      exact harray h0
    exact (hn hqp).trans (h.empty q hq h0)
  · intro q hq c hc
    by_cases hqp : q = p
    · rw [hqp, hself] at hc
      rcases List.mem_append.mp hc with hc | hc
      · rw [hqp]
        exact h.younger p hp c hc
      · rw [List.mem_singleton.mp hc, hqp]
        exact ⟨hf, hlt⟩
    · rw [hother q hq hqp] at hc
      exact h.younger q hq c hc
  · intro q hq
    by_cases hqp : q = p
    · rw [hqp, hself, List.nodup_append]
      refine ⟨h.nodup p hp, List.nodup_singleton f, fun a ha b hb => ?_⟩
      rw [List.mem_singleton.mp hb]
      exact fun e => hnew (e ▸ ha)
    · rw [hother q hq hqp]
      exact h.nodup q hq
  · intro q hq h0
    rw [htype]
    by_cases hqp : q = p
    · rw [hqp]
      exact hd
    · obtain ⟨n, r, e, hn, _⟩ := hnode q
      rw [e] at h0
      exact h.dir q hq (by rw [← hn hqp]; exact h0)
  · intro q hq
    obtain ⟨n, r, e, _, hr⟩ := hnode q
    rw [htype, e]
    rcases hr with rfl | rfl
    · exact h.parent q hq
    · exact .inr ⟨hp, hd⟩
  · intro q hq
    obtain ⟨n, r, e, _⟩ := hnode q
    rw [e]
    exact h.name q hq
  · rw [htype]
    exact h.root
  · rw [htype]
    exact h.current
  · intro q
    obtain ⟨n, r, e, _⟩ := hnode q
    rw [e]

/-- what `fs_add_child` does, if it returns -/
theorem fsAddChild_cases (k : Kernel) (p f : Word) : Yields (fsAddChild k p f) fun k' =>
    (k' = k ∧ ¬ IsDir k p) ∨
    (maxChildren ≤ (k.node p).childCount ∧ ∃ format args, k' = k.printf format args) ∨
    ((k.node p).childCount < maxChildren ∧ (k.node p).children ≠ 0 ∧ k' = k.attach p f) := by
  intro k' e
  by_cases hp : IsDir k p
  · by_cases hfull : maxChildren ≤ (k.node p).childCount
    · rw [fsAddChild_full hp hfull] at e
      cases e
      exact .inr (.inl ⟨hfull, _, _, rfl⟩)
    · have hroom := Nat.lt_of_not_le hfull
      by_cases hf : f = 0
      · rw [hf, fsAddChild_fault hp hroom] at e
        cases e
      by_cases ha : (k.node p).children = 0
      · unfold fsAddChild at e
        rw [if_neg hp.guard, if_neg hfull, ha] at e
        cases e
      · rw [fsAddChild_attach hp hroom ha hf] at e
        cases e
        exact .inr (.inr ⟨hroom, ha, rfl⟩)
  · have hguard : p = 0 ∨ (k.node p).type ≠ .directory := by
      by_contra hcon
      obtain ⟨h0, ht⟩ := not_or.mp hcon
      exact hp ⟨h0, not_not.mp ht⟩
    unfold fsAddChild at e
    rw [if_pos hguard] at e
    cases e
    exact .inl ⟨rfl, hp⟩

/-! ## entries that leave -/

theorem Thinned.refl (k : Kernel) : Thinned N k k :=
  ⟨rfl, rfl, rfl, fun _ => rfl, fun _ _ => List.Sublist.refl _⟩

theorem Thinned.count_le (h : Thinned N k k') (hq : q ∈ N) :
    (k'.node q).childCount ≤ (k.node q).childCount := by
  have := (h.kids q hq).length_le
  rwa [kids_length, kids_length] at this

/-- one entry of `p` leaves -/
theorem Thinned.dropSlot {i : Nat} (h : Census k bs N born) (ht : Thinned N k k') (hp : p ∈ N)
    (ha : (k.node p).children ≠ 0) (hi : i < (FirstKernel.kids k' p).length) :
    Thinned N k (k'.dropSlot p i) ∧
      ∀ q ∈ N, q ≠ p → FirstKernel.kids (k'.dropSlot p i) q = FirstKernel.kids k' q := by
  have hchildren : ∀ q, (k'.node q).children = (k.node q).children := fun q => by rw [ht.node q]
  have hother : ∀ q ∈ N, q ≠ p → FirstKernel.kids (k'.dropSlot p i) q = FirstKernel.kids k' q := by
    intro q hq hne
    refine kids_dropSlot_of_ne hne fun _ e => ?_
    rw [hchildren, hchildren] at e
    exact hne (h.arrays p hp q hq ha e.symm).symm
  refine ⟨⟨ht.heap, ht.root, ht.currentDir, fun q => ?_, fun q hq => ?_⟩, hother⟩
  · by_cases hqp : q = p
    · rw [hqp, dropSlot_node_self, ht.node p]
    · rw [dropSlot_node_of_ne hqp, ← ht.node q]
  · by_cases hqp : q = p
    · rw [hqp, kids_dropSlot_self hi]
      exact (List.eraseIdx_sublist _ _).trans (ht.kids p hp)
    · rw [hother q hq hqp]
      exact ht.kids q hq

/-- the lists of the nodes in `N` that are no younger than `p`, itself apart, are kept -/
def KeepsOlder (N : Set Word) (born : Word → Nat) (p : Word) (k k' : Kernel) : Prop :=
  ∀ q ∈ N, q ≠ p → born q ≤ born p → kids k' q = kids k q

/-- **The recursion of `fs_remove_child` and its loop thin the lists out**; a call takes its argument
out of the list of its directory. -/
theorem thins (h : Census k bs N born) (fuel : Nat) :
    (∀ k1 p c, Thinned N k k1 → p ∈ N → Yields (fsRemoveChild fuel k1 p c) fun k2 =>
      Thinned N k k2 ∧ kids k2 p = (kids k1 p).erase c ∧ KeepsOlder N born p k1 k2) ∧
    ∀ k1 c j, Thinned N k k1 → c ∈ N → Yields (removeChildren fuel k1 c j) fun k2 =>
      Thinned N k k2 ∧ KeepsOlder N born c k1 k2 := by
  induction fuel with
  | zero =>
    refine ⟨fun k1 p c _ _ => ?_, fun k1 c j _ _ => ?_⟩
    · rw [fsRemoveChild]
      exact .error _
    · rw [removeChildren]
      exact .error _
  | succ fuel ih =>
    obtain ⟨ihCall, ihLoop⟩ := ih
    refine ⟨fun k1 p c ht hp => ?_, fun k1 c j ht hc => ?_⟩
    · have hgone : c ∉ kids k1 p → Thinned N k k1 ∧ kids k1 p = (kids k1 p).erase c ∧
          KeepsOlder N born p k1 k1 := fun hc =>
        ⟨ht, (List.erase_of_not_mem hc).symm, fun _ _ _ _ => rfl⟩
      rw [fsRemoveChild]
      refine .ite (fun hguard => .pure (hgone fun hc => ?_)) fun hguard => ?_
      · -- only directories have entries
        have hcount : (k1.node p).childCount ≠ 0 := fun h0 => by
          rw [kids_eq_nil h0] at hc
          cases hc
        have hle := ht.count_le hp
        have hdir := h.dir p hp (by omega)
        rcases hguard with h0 | hne
        · exact h.ne_zero hp h0
        · rw [ht.node p] at hne
          exact hne hdir
      extract_lets search
      have hsearch : ∀ u, Yields (search u) fun k2 =>
          Thinned N k k2 ∧ kids k2 p = (kids k1 p).erase c ∧ KeepsOlder N born p k1 k2 := by
        intro u
        simp only [search]
        by_cases hc : c ∈ kids k1 p
        · obtain ⟨i, hi, hfind, hget⟩ := findSlot_kids hc
          rw [hfind]
          have hck := (ht.kids p hp).subset hc
          obtain ⟨hcN, hlt⟩ := h.younger p hp c hck
          have ha : (k.node p).children ≠ 0 := by
            intro h0
            rw [kids_eq_nil (h.empty p hp h0)] at hck
            cases hck
          -- the loop works on younger nodes, so the entry is still at its place
          have hdrop : ∀ k2, Thinned N k k2 → KeepsOlder N born c k1 k2 →
              Thinned N k (k2.dropSlot p i) ∧ kids (k2.dropSlot p i) p = (kids k1 p).erase c ∧
                KeepsOlder N born p k1 (k2.dropSlot p i) := by
            intro k2 ht2 hkeep
            have hpc : p ≠ c := by
              rintro rfl
              exact absurd hlt (Nat.lt_irrefl _)
            have hlist : kids k2 p = kids k1 p := hkeep p hp hpc (Nat.le_of_lt hlt)
            obtain ⟨ht3, hother⟩ := ht2.dropSlot h hp ha (i := i) (by rw [hlist]; exact hi)
            refine ⟨ht3, ?_, fun q hq hne hle => ?_⟩
            · rw [kids_dropSlot_self (by rw [hlist]; exact hi), hlist, ← hget]
              exact (((h.nodup p hp).sublist (ht.kids p hp)).erase_getElem i hi).symm
            · have hqc : q ≠ c := by
                rintro rfl
                omega
              rw [hother q hq hne]
              exact hkeep q hq hqc (by omega)
          refine (Yields.trivial _).bind fun _ _ => ?_
          refine .ite (fun _ => ?_) fun _ => .pure (hdrop k1 ht fun _ _ _ _ => rfl)
          exact (ihLoop k1 c 0 ht hcN).bind fun k2 h2 => .pure (hdrop k2 h2.1 h2.2)
        · have hnone : findSlot (k1.slot (k1.node p).children) c (k1.node p).childCount 0 = none := by
            rcases findSlot_spec (k1.slot (k1.node p).children) c (k1.node p).childCount 0 with
              ⟨i, _, _, hi, hs⟩ | ⟨e, _⟩
            · exact absurd (mem_kids.mpr ⟨i, by omega, hs⟩) hc
            · exact e
          rw [hnone]
          exact .pure (hgone hc)
      exact .ite (fun _ => (Yields.trivial _).bind fun u _ => hsearch u) fun _ => hsearch ()
    · rw [removeChildren]
      refine .ite (fun hj => ?_) fun _ => .pure ⟨ht, fun _ _ _ _ => rfl⟩
      refine (ihCall k1 c _ ht hc).bind fun k2 ⟨ht2, _, hkeep⟩ => ?_
      refine (ihLoop k2 c (j + 1) ht2 hc).mono fun k3 ⟨ht3, hkeep'⟩ => ⟨ht3, ?_⟩
      exact fun q hq hne hle => (hkeep' q hq hne hle).trans (hkeep q hq hne hle)

theorem Census.thin (h : Census k bs N born) (ht : Thinned N k k') : Census k' bs N born := by
  have htype : ∀ q, (k'.node q).type = (k.node q).type := fun q => by rw [ht.node q]
  refine ⟨h.congr (fun q _ => by rw [ht.node q]) fun q _ => by rw [ht.node q],
    by rw [ht.heap]; exact h.blocks, ?_, ?_, ?_, ?_, ?_, ?_, ?_, ?_⟩
  · intro q hq h0
    rw [ht.node q] at h0
    have := ht.count_le hq
    have := h.empty q hq h0
    omega
  · exact fun q hq c hc => h.younger q hq c ((ht.kids q hq).subset hc)
  · exact fun q hq => (h.nodup q hq).sublist (ht.kids q hq)
  · intro q hq h0
    have := ht.count_le hq
    rw [htype]
    exact h.dir q hq (by omega)
  · intro q hq
    rw [htype, ht.node q]
    exact h.parent q hq
  · intro q hq
    rw [ht.node q]
    exact h.name q hq
  · rw [htype, ht.root]
    exact h.root
  · rw [htype, ht.currentDir]
    exact h.current

end

end FirstKernel
