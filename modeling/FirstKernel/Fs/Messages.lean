import FirstKernel.Fs.Disk
import FirstKernel.Fs.Dispatch
import FirstKernel.Console.Calls

/-!
# What the commands print

`Speaks s s'`: the calls of `printf` between two machines can be carried out.

* `kmalloc_speaks`    the numbers in the messages of the allocator are in the range of `itoa`;
* `command_speaks`    the commands on files and directories;
* `cmdHelp_speaks`, `cmdCat_speaks`   the others.
-/

namespace FirstKernel
open ByteMem Cells Tiling Outcome

def Speaks (s s' : Machine) : Prop :=
  ∃ calls out, s'.console = s.console ++ calls ∧ render calls = .ok out

section
variable {s s' s'' : Machine} {k k' : Kernel} {bs : List Block} {N : Set Word} {born : Word → Nat}
  {p q f n : Word} {args : Option CString}

theorem Speaks.of_eq (h : s'.console = s.console) : Speaks s s' :=
  ⟨[], [], by rw [h, List.append_nil], rfl⟩

theorem Speaks.refl (s : Machine) : Speaks s s := .of_eq rfl

theorem Speaks.trans (h : Speaks s s') (h' : Speaks s' s'') : Speaks s s'' := by
  obtain ⟨calls, out, hc, ho⟩ := h
  obtain ⟨calls', out', hc', ho'⟩ := h'
  refine ⟨calls ++ calls', _, ?_, render_append ho ho'⟩
  rw [hc', hc, List.append_assoc]

theorem Speaks.printf (s : Machine) {format : String} {xs : List Arg}
    (h : wellTyped (str format) xs = true) : Speaks s (s.printf format xs) := by
  obtain ⟨out, ho⟩ := @render_one ⟨format, xs⟩ h
  exact ⟨_, out, rfl, ho⟩

/-- a message behind what is said so far -/
theorem Speaks.then_printf (h : Speaks s k.heap) {format : String} {xs : List Arg}
    (hf : wellTyped (str format) xs = true) : Speaks s (k.printf format xs).heap :=
  h.trans (.printf k.heap hf)

/-! ## the allocator -/

theorem kmalloc_speaks (h : HeapBlocks s bs) (hn : align16 n ≠ 0x80000000)
    (e : kmalloc s n = .ok (p, s')) : Speaks s s' := by
  -- an address that is given out lies in the heap
  have haddr : p.toNat < 2^31 := by
    obtain ⟨bs', hb, _, hnew⟩ := kmalloc_fresh h e
    by_cases h0 : p = 0
    · rw [h0]
      decide
    · obtain ⟨⟨j, hj, _⟩, _⟩ := hnew h0
      have := (hj.bounds hb).2
      omega
  unfold kmalloc at e
  by_cases h0 : n = 0
  · rw [if_pos h0] at e
    cases e
    exact .refl s
  rw [if_neg h0] at e
  by_cases hl : s.freeList = 0
  · simp only [if_pos hl] at e
    cases e
    exact .printf s rfl
  simp only [if_neg hl] at e
  cases hfit : findFit s.mem (align16 n) heapWalkBound s.freeList with
  | none =>
    rw [hfit] at e
    cases e
  | some current =>
    rw [hfit] at e
    by_cases hc : current = 0
    · simp only [if_pos hc] at e
      cases e
      refine .printf s ?_
      show wellTyped (str "[HEAP] Error: No free block large enough for "
        ++ chr '%' :: chr 'd' :: str " bytes!\n") _ = true
      rw [wellTyped_literal (by decide), wellTyped_directive (takes_decimal hn _)]
      rfl
    · simp only [if_neg hc] at e
      cases e
      refine .printf _ ?_
      show wellTyped (str "[HEAP] Allocated " ++ chr '%' :: chr 'd' :: (str " bytes at 0x"
        ++ chr '%' :: chr 'x' :: str "\n")) _ = true
      rw [wellTyped_literal (by decide), wellTyped_directive (takes_decimal hn _),
        wellTyped_literal (by decide), wellTyped_directive (takes_hex haddr _)]
      rfl

/-! ## the commands -/

theorem fsAddChild_speaks (k : Kernel) (p f : Word) :
    Yields (fsAddChild k p f) fun k' => Speaks k.heap k'.heap := by
  unfold fsAddChild
  refine .ite (fun _ => .pure (.refl _)) fun _ => .ite (fun _ => .pure (.printf _ rfl)) fun _ => ?_
  exact (Yields.trivial _).bind fun _ _ => (Yields.trivial _).bind fun _ _ => .pure (.refl _)

theorem cmdTouch_speaks (h : HeapBlocks k.heap bs) :
    Yields (cmdTouch k args) fun k' => Speaks k.heap k'.heap := by
  have henter : Speaks k.heap k.enter.heap := .of_eq (by rw [enter_heap])
  cases ha : noArgs args with
  | true =>
    rw [cmdTouch_usage ha]
    exact .ok (henter.then_printf rfl)
  | false =>
    obtain ⟨f, h1, e1⟩ := kmalloc_returns h sizeofFSNode
    have hs1 := kmalloc_speaks h (by decide) e1
    obtain ⟨bs1, hb1, _⟩ := kmalloc_fresh h e1
    obtain ⟨q, h2, e2⟩ := kmalloc_returns hb1 256
    have hs2 := hs1.trans (kmalloc_speaks hb1 (by decide) e2)
    by_cases hf : f = 0
    · rw [hf] at e1
      rw [cmdTouch_null ha e1]
      exact .ok hs1
    by_cases hq : q = 0
    · rw [hq] at e2
      rw [cmdTouch_fault ha e1 hf e2]
      exact .error _
    rw [cmdTouch_eq ha e1 hf e2 hq]
    intro k' e
    obtain ⟨k2, e3, rfl⟩ := map_eq_ok e
    exact (hs2.trans (fsAddChild_speaks _ _ _ k2 e3)).then_printf rfl

theorem cmdMkdir_speaks (h : HeapBlocks k.heap bs) :
    Yields (cmdMkdir k args) fun k' => Speaks k.heap k'.heap := by
  have henter : Speaks k.heap k.enter.heap := .of_eq (by rw [enter_heap])
  cases ha : noArgs args with
  | true =>
    rw [cmdMkdir_usage ha]
    exact .ok (henter.then_printf rfl)
  | false =>
    obtain ⟨f, h1, e1⟩ := kmalloc_returns h sizeofFSNode
    have hs1 := kmalloc_speaks h (by decide) e1
    obtain ⟨bs1, hb1, _⟩ := kmalloc_fresh h e1
    obtain ⟨q, h2, e2⟩ := kmalloc_returns hb1 sizeofChildren
    have hs2 := hs1.trans (kmalloc_speaks hb1 (by decide) e2)
    by_cases hf : f = 0
    · rw [hf] at e1
      rw [cmdMkdir_null ha e1]
      exact .ok hs1
    rw [cmdMkdir_eq ha e1 hf e2]
    intro k' e
    obtain ⟨k2, e3, rfl⟩ := map_eq_ok e
    exact (hs2.trans (fsAddChild_speaks _ _ _ k2 e3)).then_printf rfl

/-- the formats take the argument -/
theorem removeNamed_speaks (h : Census k bs N born) (type : FSNodeType) {usage removed missing : String}
    (hu : wellTyped (str usage) [] = true) (hr : ∀ x, wellTyped (str removed) [.str x] = true)
    (hm : ∀ x, wellTyped (str missing) [.str x] = true) :
    Yields (removeNamed type usage removed missing k args) fun k' => Speaks k.heap k'.heap := by
  have henter : Speaks k.heap k.enter.heap := .of_eq (by rw [enter_heap])
  obtain ⟨hc, hN, _⟩ := h.enter
  unfold removeNamed
  refine .ite (fun _ => .pure (henter.then_printf hu)) fun _ => ?_
  refine (Yields.trivial _).bind fun node _ => .ite (fun _ => ?_) fun _ =>
    .pure (henter.then_printf (hm _))
  refine ((thins hc removeBound).1 k.enter _ node (Thinned.refl _) hN).bind fun k2 ⟨ht, _⟩ => .pure ?_
  exact (henter.trans (.of_eq (by rw [ht.heap]))).then_printf (hr _)

theorem cmdCd_speaks : Yields (cmdCd k args) fun k' => Speaks k.heap k'.heap := by
  have henter : Speaks k.heap k.enter.heap := .of_eq (by rw [enter_heap])
  unfold cmdCd
  refine .ite (fun _ => .pure (henter.then_printf rfl)) fun _ => .ite (fun _ => ?_) fun _ => ?_
  · exact .ite (fun _ => .pure henter) fun _ => .pure (henter.then_printf rfl)
  · exact (Yields.trivial _).bind fun _ _ => .ite (fun _ => .pure henter) fun _ =>
      .pure (henter.then_printf rfl)

theorem lsLoop_speaks (array : Word) (n i : Nat) (k : Kernel) :
    Yields (lsLoop array n i k) fun k' => Speaks k.heap k'.heap := by
  induction n generalizing i k with
  | zero => exact .pure (.refl _)
  | succ n ih =>
    rw [lsLoop]
    refine (Yields.trivial _).bind fun _ _ => (Yields.trivial _).bind fun _ _ => ?_
    refine (ih (i + 1) (k.printf _ _)).mono fun k' hk => (Speaks.printf k.heap ?_).trans hk
    split
    · rfl
    · rfl

theorem cmdLs_speaks (k : Kernel) (args : Option CString) :
    Yields (cmdLs k args) fun k' => Speaks k.heap k'.heap := by
  have henter : Speaks k.heap k.enter.heap := .of_eq (by rw [enter_heap])
  unfold cmdLs
  refine (Yields.trivial _).bind fun _ _ => ?_
  exact (lsLoop_speaks _ _ _ k.enter).bind fun k1 hk => .pure ((henter.trans hk).then_printf rfl)

/-- **The commands on files and directories print only what can be printed.** -/
theorem command_speaks (h : Census k bs N born) (cmd : Command) (args : Option CString) :
    Yields (cmd.exec k args) fun k' => Speaks k.heap k'.heap := by
  cases cmd with
  | touch => exact cmdTouch_speaks h.blocks
  | mkdir => exact cmdMkdir_speaks h.blocks
  | rm => exact removeNamed_speaks h _ rfl (fun _ => rfl) fun _ => rfl
  | rmdir => exact removeNamed_speaks h _ rfl (fun _ => rfl) fun _ => rfl
  | cd => exact cmdCd_speaks
  | ls => exact cmdLs_speaks k args

theorem cmdHelp_speaks (k : Kernel) (args : Option CString) :
    Yields (cmdHelp k args) fun k' => Speaks k.heap k'.heap := by
  rw [cmdHelp_eq]
  have hall : ∀ (cs : List ShellCommand) (k : Kernel), Speaks k.heap (cs.foldl helpLine k).heap := by
    intro cs
    induction cs with
    | nil => exact fun k => .refl _
    | cons c cs ih => exact fun k => (Speaks.printf k.heap rfl).trans (ih (helpLine k c))
  exact .ok ((Speaks.printf k.heap rfl).trans (hall _ _))

theorem cmdCat_speaks : Yields (cmdCat k args) fun r => Speaks k.heap r.2.heap := by
  have henter : Speaks k.heap k.enter.heap := .of_eq (by rw [enter_heap])
  unfold cmdCat
  refine .ite (fun _ => .pure (henter.then_printf rfl)) fun _ => ?_
  refine (Yields.trivial _).bind fun _ _ => .ite (fun _ => ?_) fun _ => .pure (henter.then_printf rfl)
  exact (Yields.trivial _).bind fun _ _ => (Yields.trivial _).bind fun _ _ =>
    .pure (henter.then_printf rfl)

end

end FirstKernel
