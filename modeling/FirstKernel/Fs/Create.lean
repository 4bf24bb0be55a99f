import FirstKernel.Fs.Tree

/-!
# New nodes in the tree

`Grounded k bs`: the tree is well formed and its structs and arrays are live blocks, so what `kmalloc`
returns is none of them.

* `Grounded.create`    a struct and a buffer or array from two allocations, not yet attached;
* `Grounded.attach`    the new node as the last child of a directory.
-/

namespace FirstKernel
open Cells Arbor Tiling

structure Grounded (k : Kernel) (bs : List Block) : Prop where
  wf : WellFormed k
  blocks : HeapBlocks k.heap bs
  node : ∀ p, InTree k p → ∃ n, Live bs p n
  array : ∀ p, InTree k p → (k.node p).type = .directory → ∃ n, Live bs (k.node p).children n

/-- `f` is a live node outside the tree, without entries and with an array of its own if it is a
directory -/
structure Detached (k : Kernel) (bs : List Block) (f : Word) : Prop where
  ne_zero : f ≠ 0
  outside : ¬ InTree k f
  live : ∃ n, Live bs f n
  count : (k.node f).childCount = 0
  array : (k.node f).type = .directory → (k.node f).children ≠ 0 ∧
    (∃ n, Live bs (k.node f).children n) ∧
    ∀ q, InTree k q → (k.node q).type = .directory → (k.node q).children ≠ (k.node f).children

section
variable {k k' : Kernel} {bs bs' : List Block} {p q f : Word} {n : Word} {s s' h1 h2 : Machine}

theorem Grounded.same (h : Grounded k bs) (hs : SameTree k k') (hb : HeapBlocks k'.heap bs')
    (hlift : ∀ p n, Live bs p n → Live bs' p n) : Grounded k' bs' where
  wf := h.wf.same hs
  blocks := hb
  node p hp := (h.node p (hs.inTree.mp hp)).imp fun _ hn => hlift _ _ hn
  array p hp := by
    have hp := hs.inTree.mp hp
    rw [hs.node p hp]
    exact fun ht => (h.array p hp ht).imp fun _ hn => hlift _ _ hn

/-- the tree after memory changed outside headers and payloads, and anything was printed -/
theorem Grounded.same_blocks (h : Grounded k bs) (hs : SameTree k k') (hb : HeapBlocks k'.heap bs) :
    Grounded k' bs := h.same hs hb fun _ _ hn => hn

theorem Grounded.enter (h : Grounded k bs) : Grounded k.enter bs :=
  h.same_blocks (.of_eq (enter_root k) (enter_node k) (enter_slot k)) (by rw [enter_heap]; exact h.blocks)

/-- **Two allocations for a new node: whatever is stored in it, and in its array, the tree is the
same and the node is detached.** -/
theorem Grounded.create (h : Grounded k bs) (e1 : kmalloc k.heap sizeofFSNode = .ok (f, h1)) (hf : f ≠ 0)
    (e2 : kmalloc h1 n = .ok (q, h2)) :
    ∃ bs', HeapBlocks h2 bs' ∧ (q ≠ 0 → ∃ j, Live bs' q j ∧ need n ≤ j) ∧
      ∀ (k' : Kernel) (nd : FSNode), HeapBlocks k'.heap bs' → k'.root = k.root →
        k'.node = Function.update k.node f nd → (∀ a, (q = 0 ∨ a ≠ q) → k'.slot a = k.slot a) →
        SameTree k k' ∧ Grounded k' bs' ∧ ¬ InTree k f ∧
          (nd.childCount = 0 → (nd.type = .directory → q ≠ 0 ∧ nd.children = q) →
            Detached k' bs' f) := by
  obtain ⟨bs1, hb1, hlift1, hnew1⟩ := kmalloc_fresh h.blocks e1
  obtain ⟨bs2, hb2, hlift2, hnew2⟩ := kmalloc_fresh hb1 e2
  obtain ⟨⟨j1, hlive1, _⟩, hfresh1⟩ := hnew1 hf
  have hout : ¬ InTree k f := fun hin => (h.node f hin).elim fun j hj => hfresh1 j hj
  have harray : q ≠ 0 → ∀ r, InTree k r → (k.node r).type = .directory → (k.node r).children ≠ q := by
    rintro hq r hr ht rfl
    obtain ⟨j, hj⟩ := h.array r hr ht
    exact (hnew2 hq).2 j (hlift1 _ _ hj)
  refine ⟨bs2, hb2, fun hq => (hnew2 hq).1, fun k' nd hb hroot hnode hslot => ?_⟩
  have hold : ∀ r, InTree k r → k'.node r = k.node r := by
    intro r hr
    rw [hnode, Function.update_of_ne fun e => hout (by rw [← e]; exact hr)]
  have hself : k'.node f = nd := by rw [hnode, Function.update_self]
  have hs : SameTree k k' := by
    refine ⟨hroot, hold, fun r hr => kids_congr (by rw [hold r hr]) (by rw [hold r hr]) fun hc => ?_⟩
    apply hslot
    by_cases hq : q = 0
    · exact .inl hq
    · exact .inr (harray hq r hr (h.wf.dir_of_count hr hc))
  refine ⟨hs, h.same hs hb fun r j hj => hlift2 _ _ (hlift1 _ _ hj), hout, fun hcount hdir => ?_⟩
  refine ⟨hf, fun hin => hout (hs.inTree.mp hin), ⟨j1, hlift2 _ _ hlive1⟩,
    by rw [hself]; exact hcount, ?_⟩
  rw [hself]
  intro ht
  obtain ⟨hq, hch⟩ := hdir ht
  rw [hch]
  obtain ⟨j, hj, _⟩ := (hnew2 hq).1
  refine ⟨hq, ⟨j, hj⟩, fun r hr => ?_⟩
  have hr := hs.inTree.mp hr
  rw [hold r hr]
  exact harray hq r hr

/-- **A detached node becomes the last child of a directory with room.** -/
theorem Grounded.attach (h : Grounded k bs) (hf : Detached k bs f) (hp : InTree k p)
    (hd : (k.node p).type = .directory) (hroom : (k.node p).childCount < maxChildren) :
    fsAddChild k p f = .ok (k.attach p f) ∧ Grounded (k.attach p f) bs ∧
      ∀ q, InTree (k.attach p f) q ↔ InTree k q ∨ q = f := by
  obtain ⟨hwf, hin⟩ := h.wf.attach hp hd hroom hf.outside hf.ne_zero hf.count fun ht =>
    ⟨(hf.array ht).1, (hf.array ht).2.2⟩
  have hfp : f ≠ p := fun e => hf.outside (e ▸ hp)
  have hnodef : (k.attach p f).node f = { k.node f with parent := p } := by
    rw [attach_node_child, if_neg hfp]
  refine ⟨fsAddChild_attach (h.wf.isDir hp hd) hroom ((h.wf.node p hp).array hd) hf.ne_zero,
    ⟨hwf, h.blocks, fun q hq => ?_, fun q hq => ?_⟩, hin⟩
  · rcases (hin q).mp hq with hq | rfl
    · exact h.node q hq
    · exact hf.live
  · rcases (hin q).mp hq with hq | rfl
    · have hne : q ≠ f := fun e => hf.outside (by rw [← e]; exact hq)
      by_cases hqp : q = p
      · rw [hqp, attach_node_parent hfp]
        exact h.array p hp
      · rw [attach_node_of_ne hqp hne]
        exact h.array q hq
    · rw [hnodef]
      exact fun ht => (hf.array ht).2.1

end

end FirstKernel
