import FirstKernel.Heap.Coalesce

/-!
# Allocation in stack order

A client that frees in the reverse order of its allocations keeps a stack of the pointers it
got, null for a failed call.  `Stacked bs0 st bs`: freeing the pointers of `st` from the top
leads from the list `bs` back to `bs0`.  The induction over the calls carries it, together with
the list being coalesced, because a forward merge undoes a split only then.
-/

namespace FirstKernel
open ByteMem Tiling

inductive StackOp where
  | push (n : Word)
  | pop

/-- properly nested with `d` pointers still to be freed: none is popped from an empty stack and
the stack is empty at the end -/
def nested : Nat → List StackOp → Prop
  | d, [] => d = 0
  | d, .push _ :: ops => nested (d + 1) ops
  | 0, .pop :: _ => False
  | d + 1, .pop :: ops => nested d ops

/-- `push n` calls `kmalloc(n)`; `pop` frees the pointer obtained last -/
def runStack (s : Machine) : List Word → List StackOp → Option (Machine × List Word)
  | st, [] => some (s, st)
  | st, .push n :: ops =>
    match kmalloc s n with
    | .ok (p, s') => runStack s' (p :: st) ops
    | .error _ => none
  | [], .pop :: _ => none
  | p :: st, .pop :: ops => runStack (kfree s p) st ops

/-- freeing the pointers of the stack from the top leads back to `bs0` -/
def Stacked (bs0 : List Block) : List Word → List Block → Prop
  | [], bs => bs = bs0
  | p :: st, bs => ∃ bs1, Stacked bs0 st bs1 ∧ Tiles 12 kernelHeapStart.toNat bs1 heapEnd ∧
      NoAdj bs1 ∧ ((p = 0 ∧ bs = bs1) ∨
        ∃ r a, alloc 12 16 r bs1 = some (a, bs) ∧ p.toNat = a + 12)

section
variable {s : Machine} {bs bs0 : List Block} {st : List Word} {p : Word}

theorem stacked_push (h : HeapBlocks s bs) (hna : NoAdj bs) (hst : Stacked bs0 st bs) (n : Word) :
    ∃ p s' bs', kmalloc s n = .ok (p, s') ∧ HeapBlocks s' bs' ∧ NoAdj bs' ∧
      Stacked bs0 (p :: st) bs' := by
  by_cases hn : n = 0 ∨ alloc 12 16 (need n) bs = none
  · obtain ⟨s', e, hm, hl⟩ := kmalloc_none h hn
    exact ⟨0, s', bs, e, h.congr hl fun b _ x _ _ => by rw [hm], hna, bs, hst, h.tiles, hna,
      .inl ⟨rfl, rfl⟩⟩
  · obtain ⟨hn0, hne⟩ := not_or.mp hn
    obtain ⟨⟨a, bs'⟩, ha⟩ := Option.ne_none_iff_exists'.mp hne
    obtain ⟨p, s', e, hp, h', _⟩ := kmalloc_some h hn0 ha
    exact ⟨p, s', bs', e, h', hna.alloc ha, bs, hst, h.tiles, hna, .inr ⟨_, a, ha, hp⟩⟩

theorem stacked_pop (h : HeapBlocks s bs) (hst : Stacked bs0 (p :: st) bs) :
    ∃ bs', HeapBlocks (kfree s p) bs' ∧ NoAdj bs' ∧ Stacked bs0 st bs' := by
  obtain ⟨bs1, hst1, ht1, hna1, ⟨rfl, rfl⟩ | ⟨r, a, ha, hp⟩⟩ := hst
  · rw [kfree_null]
    exact ⟨bs, h, hna1, hst1⟩
  · have hu : a ∈ used bs := (used_alloc ha).mem_iff.mpr List.mem_cons_self
    obtain ⟨h', _⟩ := kfree_blocks h hu hp
    rw [release_alloc (by decide) ht1 hna1 ha] at h'
    exact ⟨bs1, h', hna1, hst1⟩

theorem stacked_run (ops : List StackOp) (h : HeapBlocks s bs) (hna : NoAdj bs)
    (hst : Stacked bs0 st bs) (hops : nested st.length ops) :
    ∃ s', runStack s st ops = some (s', []) ∧ HeapBlocks s' bs0 := by
  induction ops generalizing s bs st with
  | nil =>
    have hnil : st = [] := List.length_eq_zero_iff.mp hops
    subst hnil
    have e : bs = bs0 := hst
    subst e
    exact ⟨s, rfl, h⟩
  | cons op ops ih =>
    cases op with
    | push n =>
      obtain ⟨p, s', bs', e, h', hna', hst'⟩ := stacked_push h hna hst n
      obtain ⟨s'', e', h''⟩ := ih h' hna' hst' hops
      refine ⟨s'', ?_, h''⟩
      rw [runStack, e]
      exact e'
    | pop =>
      cases st with
      | nil => exact absurd hops id
      | cons p st =>
        obtain ⟨bs', h', hna', hst'⟩ := stacked_pop h hst
        exact ih h' hna' hst' hops

end

/-- **Allocation and free in stack order restore a coalesced heap exactly**: the same addresses,
sizes, links and flags. -/
theorem nested_restores (t : Session) (hr : Run.Reachable plainSystem t) (hs : List Header)
    (hw : heapList t.s = some hs) (hna : NoAdjacentFree hs) (ops : List StackOp)
    (hops : nested 0 ops) :
    ∃ s', runStack t.s [] ops = some (s', []) ∧ heapList s' = some hs := by
  obtain ⟨bs, h⟩ := held_reachable hr.of_restrict
  rw [h.blocks.walk] at hw
  cases hw
  have hst : Stacked bs [] bs := rfl
  obtain ⟨s', e, h'⟩ := stacked_run ops h.blocks (noAdjacentFree_headers.mp hna) hst hops
  exact ⟨s', e, h'.walk⟩

/-- two nested allocations, the inner one too large for the heap -/
theorem nested_restores_two : ∃ s', runStack (initHeap bootMachine) []
    [.push 64, .push 0x02000000, .pop, .pop] = some (s', []) ∧ heapList s' = some initList :=
  nested_restores ⟨initHeap bootMachine, []⟩ (.init ⟨bootMachine, rfl⟩) initList rfl
    (.singleton _) _ rfl

end FirstKernel
