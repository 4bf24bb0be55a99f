import FirstKernel.Fs.DiskRun
import FirstKernel.Fs.Total
import FirstKernel.Fs.Dispatch

/-!
# What the shell's files hold

No command writes into a file.  `Stock readme k bs N born`: a disk on which `readme` holds the text of
`kernel_main` and every other file is empty, with a buffer of zeros.

* `kmalloc_bytes`    an allocation leaves the bytes of the blocks in use;
* `Stock.place`      a new node joins;
* `Stock.exec`       every command keeps the files as they are.
-/

namespace FirstKernel
open ByteMem Cells Tiling Outcome

/-- the 128 bytes of the built-in file -/
def readmeText : List Byte := str "Welcome to ContinuumOS!" ++ List.replicate 105 0

/-- what the file `p` holds -/
def fileText (readme p : Word) : List Byte := if p = readme then readmeText else List.replicate 256 0

structure Stock (readme : Word) (k : Kernel) (bs : List Block) (N : Set Word) (born : Word → Nat) : Prop
    extends Disk k bs N born where
  capped : ∀ p ∈ N, (k.node p).childCount ≤ maxChildren
  file : ∀ p ∈ N, (k.node p).type = .file → (k.node p).data ≠ 0 ∧ contents k p = fileText readme p

/-- a stock with the nodes of `N` and perhaps more -/
def StockOver (readme : Word) (N : Set Word) (k : Kernel) : Prop :=
  ∃ bs N' born, N ⊆ N' ∧ Stock readme k bs N' born

section
variable {k k' : Kernel} {bs bs' : List Block} {N N' : Set Word} {born : Word → Nat}
  {readme p q f n : Word} {args : Option CString} {cmd : Command}

theorem fileText_nul (readme p : Word) : 0 ∈ fileText readme p := by
  unfold fileText
  split
  · decide
  · decide

/-- an allocation leaves the bytes of the blocks in use -/
theorem kmalloc_bytes {s s' : Machine} {j x : Nat} (h : HeapBlocks s bs) (e : kmalloc s n = .ok (p, s'))
    (hq : Live bs q j) (h1 : q.toNat ≤ x) (h2 : x < q.toNat + j) : s'.mem x = s.mem x := by
  rcases kmalloc_client h n with ⟨s1, e', _, hmem⟩ | ⟨_, s1, _, _, e', _, _, hk, _⟩
  · rw [e] at e'
    cases e'
    rw [hmem]
  · rw [e] at e'
    cases e'
    exact hk.bytes q j hq trivial x h1 h2

/-- the same nodes with the same buffers -/
theorem Stock.keep (h : Stock readme k bs N born) (hd : Disk k' bs' N born)
    (hcount : ∀ p ∈ N, (k'.node p).childCount ≤ maxChildren)
    (htype : ∀ p ∈ N, (k'.node p).type = (k.node p).type)
    (hdata : ∀ p ∈ N, (k'.node p).data = (k.node p).data)
    (hsize : ∀ p ∈ N, (k'.node p).size = (k.node p).size)
    (hmem : ∀ q j, Live bs q j → ∀ x, q.toNat ≤ x → x < q.toNat + j → k'.heap.mem x = k.heap.mem x) :
    Stock readme k' bs' N born where
  toDisk := hd
  capped := hcount
  file p hp ht := by
    rw [htype p hp] at ht
    obtain ⟨h0, htext⟩ := h.file p hp ht
    obtain ⟨j, hj, hle⟩ := h.sized p hp h0
    refine ⟨by rw [hdata p hp]; exact h0, ?_⟩
    rw [← htext]
    exact contents_congr (hsize p hp) (hdata p hp) fun x h1 h2 => hmem _ j hj x h1 (by omega)

theorem Stock.same (h : Stock readme k bs N born) (hs : SameNodes N k k') (hb : HeapBlocks k'.heap bs)
    (hmem : k'.heap.mem = k.heap.mem)
    (hc : k'.currentDir = 0 ∨ k'.currentDir ∈ N ∧ (k.node k'.currentDir).type = .directory) :
    Stock readme k' bs N born :=
  h.keep (h.toDisk.same hs hb hc) (fun p hp => by rw [hs.node p hp]; exact h.capped p hp)
    (fun p hp => by rw [hs.node p hp]) (fun p hp => by rw [hs.node p hp])
    (fun p hp => by rw [hs.node p hp]) fun _ _ _ _ _ _ => by rw [hmem]

theorem Stock.printf (h : Stock readme k bs N born) (format : String) (xs : List Arg) :
    Stock readme (k.printf format xs) bs N born :=
  h.same (.of_eq rfl rfl rfl) (h.blocks.store rfl fun _ _ => rfl) rfl h.current

theorem Stock.enter (h : Stock readme k bs N born) : Stock readme k.enter bs N born := by
  obtain ⟨hc, hN, hd⟩ := h.toCensus.enter
  rw [enter_node] at hd
  exact h.same (.of_eq (enter_root k) (enter_node k) (enter_slot k)) hc.blocks (by rw [enter_heap])
    (.inr ⟨hN, hd⟩)

theorem Stock.thin (h : Stock readme k bs N born) (ht : Thinned N k k') : Stock readme k' bs N born :=
  h.keep (h.toDisk.thin ht) (fun p hp => Nat.le_trans (ht.count_le hp) (h.capped p hp))
    (fun p _ => by rw [ht.node p]) (fun p _ => by rw [ht.node p]) (fun p _ => by rw [ht.node p])
    fun _ _ _ _ _ _ => by rw [ht.heap]

theorem Stock.over (h : Stock readme k bs N born) : StockOver readme N k := ⟨bs, N, born, subset_rfl, h⟩

theorem StockOver.printf (h : StockOver readme N k) (format : String) (xs : List Arg) :
    StockOver readme N (k.printf format xs) := by
  obtain ⟨bs, N', born, hsub, h⟩ := h
  exact ⟨bs, N', born, hsub, h.printf format xs⟩

theorem Stock.refused {s : Machine} (h : Stock readme k bs N born) (e : kmalloc k.heap n = .ok (0, s)) :
    Stock readme { k with heap := s } bs N born :=
  h.keep (h.toDisk.refused e) h.capped (fun _ _ => rfl) (fun _ _ => rfl) (fun _ _ => rfl)
    fun _ _ hq _ h1 h2 => kmalloc_bytes h.blocks e hq h1 h2

/-! ## a new node -/

/-- no directory gets more than `maxChildren` entries -/
theorem attach_capped (hne : p ≠ f) (hroom : (k.node p).childCount < maxChildren) (hq : q ∈ N)
    (hcap : ∀ q ∈ N, (k.node q).childCount ≤ maxChildren) :
    ((k.attach p f).node q).childCount ≤ maxChildren := by
  by_cases hqf : q = f
  · rw [hqf, attach_node_child, if_neg hne.symm]
    exact hcap f (hqf ▸ hq)
  · by_cases hqp : q = p
    · rw [hqp, attach_node_parent hne.symm]
      exact hroom
    · rw [attach_node_of_ne hqp hqf]
      exact hcap q hq

theorem Stock.offer (h : Stock readme k bs (insert f N) (bornLast born f)) (hp : p ∈ N)
    (hd : (k.node p).type = .directory) (hf : f ∉ N) (hk : ∀ c ∈ kids k p, c ∈ N) :
    Yields (fsAddChild k p f) fun k' => Stock readme k' bs (insert f N) (bornLast born f) := by
  intro k' e
  have hdisk := h.toDisk.offer hp hd hf hk k' e
  have hsame := fsAddChild_sameFiles e
  refine h.keep hdisk (fun q hq => ?_) (fun q _ => hsame.type q) (fun q _ => hsame.data q)
    (fun q _ => hsame.size q) fun _ _ _ _ _ _ => by rw [hsame.mem]
  rcases fsAddChild_cases k p f k' e with ⟨rfl, _⟩ | ⟨_, format, xs, rfl⟩ | ⟨hroom, _, rfl⟩
  · exact h.capped q hq
  · exact h.capped q hq
  · have hne : p ≠ f := fun epf => hf (epf ▸ hp)
    exact attach_capped hne hroom hq h.capped

/-- **A node made by two allocations joins, with what it holds.** -/
theorem Stock.place {h1 h2 : Machine} {nd : FSNode} (h : Stock readme k bs N born) (k1 : Kernel)
    (e1 : kmalloc k.heap sizeofFSNode = .ok (f, h1)) (hf : f ≠ 0) (e2 : kmalloc h1 n = .ok (q, h2))
    (hp : p ∈ N) (hd : (k.node p).type = .directory)
    (hheap : ∀ bs', HeapBlocks h2 bs' → (q ≠ 0 → ∃ j, Live bs' q j ∧ need n ≤ j) →
      HeapBlocks k1.heap bs')
    (hroot : k1.root = k.root) (hcur : k1.currentDir = k.currentDir)
    (hnode : k1.node = Function.update k.node f nd)
    (hslot : ∀ a, (q = 0 ∨ a ≠ q) → k1.slot a = k.slot a)
    (hcount : nd.childCount = 0) (hparent : nd.parent = 0) (hname : (0 : Byte) ∉ nd.name)
    (hbuf : nd.children = q ∧ nd.data = 0 ∨ nd.children = 0 ∧ nd.data = q)
    (hsize : nd.data ≠ 0 → nd.size.toNat ≤ need n)
    (hmem : ∀ x, (q = 0 ∨ x < q.toNat ∨ q.toNat + need n ≤ x) → k1.heap.mem x = h2.mem x)
    (hnew : nd.type = .file → nd.data ≠ 0 ∧
      loadN k1.heap.mem nd.data.toNat nd.size.toNat = fileText readme f) :
    Yields (fsAddChild k1 p f) fun k' => StockOver readme N k' ∧
      ∃ bs' N' born', f ∈ N' ∧ Stock readme k' bs' N' born' := by
  obtain ⟨bs', hb, hlive, hout, hdisk⟩ := h.toDisk.create e1 hf e2
  obtain ⟨hs, hdisk⟩ := hdisk k1 nd (hheap bs' hb hlive) hroot hcur hnode hslot hcount hparent hname
    hbuf hsize
  have hself : k1.node f = nd := by rw [hnode, Function.update_self]
  obtain ⟨bs1, hb1, hlift, _⟩ := kmalloc_fresh h.blocks e1
  obtain ⟨bs2, hb2, hlift2, hfresh2⟩ := kmalloc_fresh hb1 e2
  -- the bytes of the old buffers
  have hbytes : ∀ r j, Live bs r j → ∀ x, r.toNat ≤ x → x < r.toNat + j →
      k1.heap.mem x = k.heap.mem x := by
    intro r j hr x hx1 hx2
    have hkeep := (kmalloc_bytes hb1 e2 (hlift r j hr) hx1 hx2).trans
      (kmalloc_bytes h.blocks e1 hr hx1 hx2)
    rw [← hkeep]
    refine hmem x ?_
    by_cases hq : q = 0
    · exact .inl hq
    · obtain ⟨⟨i, hi, hle⟩, hno⟩ := hfresh2 hq
      have hne : r ≠ q := by
        rintro rfl
        exact hno j (hlift _ j hr)
      have := (hlift2 r j (hlift r j hr)).apart hb2 hi hne
      omega
  have hstock : Stock readme k1 bs' (insert f N) (bornLast born f) := by
    refine ⟨hdisk, ?_, ?_⟩
    · rintro r (rfl | hr)
      · rw [hself, hcount]
        exact Nat.zero_le _
      · rw [hs.node r hr]
        exact h.capped r hr
    · rintro r (rfl | hr) ht
      · unfold contents
        rw [hself] at ht ⊢
        exact hnew ht
      · rw [hs.node r hr] at ht
        obtain ⟨h0, htext⟩ := h.file r hr ht
        obtain ⟨j, hj, hle⟩ := h.sized r hr h0
        refine ⟨by rw [hs.node r hr]; exact h0, ?_⟩
        rw [← htext]
        exact contents_congr (by rw [hs.node r hr]) (by rw [hs.node r hr]) fun x hx1 hx2 =>
          hbytes _ j hj x hx1 (by omega)
  refine (hstock.offer hp ?_ hout ?_).mono fun k' hk' =>
    ⟨⟨bs', _, _, Set.subset_insert f N, hk'⟩, bs', _, _, Set.mem_insert f N, hk'⟩
  · rw [hs.node p hp]
    exact hd
  · intro c hc
    rw [hs.kids p hp] at hc
    exact (h.younger p hp c hc).1

/-! ## the commands -/

theorem Stock.touch (h : Stock readme k bs N born) (hr : readme ∈ N) :
    Yields (cmdTouch k args) (StockOver readme N) := by
  obtain ⟨_, hN, hd⟩ := h.toCensus.enter
  have henter := h.enter
  intro k' e
  cases hargs : noArgs args with
  | true =>
    rw [cmdTouch_usage hargs] at e
    cases e
    exact (henter.printf _ _).over
  | false =>
    obtain ⟨f, h1, e1⟩ := kmalloc_returns h.blocks sizeofFSNode
    obtain ⟨bs1, hb1, _⟩ := kmalloc_fresh h.blocks e1
    by_cases hf : f = 0
    · rw [hf] at e1
      rw [cmdTouch_null hargs e1] at e
      cases e
      rw [← enter_heap k] at e1
      exact (henter.refused e1).over
    obtain ⟨q, h2, e2⟩ := kmalloc_returns hb1 256
    by_cases hq : q = 0
    · rw [hq] at e2
      rw [cmdTouch_fault hargs e1 hf e2] at e
      cases e
    rw [cmdTouch_eq hargs e1 hf e2 hq] at e
    obtain ⟨k2, e', rfl⟩ := map_eq_ok e
    have hother : f ≠ readme := fun efr => h.toCensus.new_node e1 hf (efr ▸ hr)
    rw [← enter_heap k] at e1
    have hneed : need 256 = 256 := by decide
    have hplace := henter.place ((k.enter.withNode h2 f (fileNode (argName args) 256 q)).withMem
      (fill h2.mem q.toNat 0 256)) e1 hf e2 hN hd (fun bs' hb hlive => ?_) rfl rfl rfl (fun _ _ => rfl)
      rfl rfl (argName_take_no_nul args) (.inr ⟨rfl, rfl⟩) (fun _ => (by decide : 256 ≤ need 256))
      (fun x hx => ?_) fun _ => ⟨hq, ?_⟩
    · exact (hplace k2 e').1.printf _ _
    · -- the buffer is cleared inside its payload
      obtain ⟨j, hj, hle⟩ := hlive hq
      refine hb.store rfl fun x hx => ?_
      have := hx.2 q j hj
      exact fill_out _ _ _ _ _ (by omega)
    · exact fill_out _ _ _ _ _ (hx.resolve_left hq)
    · unfold fileText
      rw [if_neg hother]
      exact loadN_fill ..

theorem Stock.mkdir (h : Stock readme k bs N born) :
    Yields (cmdMkdir k args) (StockOver readme N) := by
  obtain ⟨_, hN, hd⟩ := h.toCensus.enter
  have henter := h.enter
  intro k' e
  cases hargs : noArgs args with
  | true =>
    rw [cmdMkdir_usage hargs] at e
    cases e
    exact (henter.printf _ _).over
  | false =>
    obtain ⟨f, h1, e1⟩ := kmalloc_returns h.blocks sizeofFSNode
    obtain ⟨bs1, hb1, _⟩ := kmalloc_fresh h.blocks e1
    by_cases hf : f = 0
    · rw [hf] at e1
      rw [cmdMkdir_null hargs e1] at e
      cases e
      rw [← enter_heap k] at e1
      exact (henter.refused e1).over
    obtain ⟨q, h2, e2⟩ := kmalloc_returns hb1 sizeofChildren
    rw [cmdMkdir_eq hargs e1 hf e2] at e
    obtain ⟨k2, e', rfl⟩ := map_eq_ok e
    rw [← enter_heap k] at e1
    have hplace := henter.place (k.enter.withDir h2 f q (argName args)) e1 hf e2 hN hd
      (fun _ hb _ => hb) rfl rfl rfl (fun a ha => withDir_slot _ _ _ _ ha) rfl rfl
      (argName_take_no_nul args) (.inl ⟨rfl, rfl⟩) (fun h0 => absurd rfl h0) (fun _ _ => rfl) nofun
    exact (hplace k2 e').1.printf _ _

theorem Stock.remove (h : Stock readme k bs N born) (type : FSNodeType)
    (usage removed missing : String) :
    Yields (removeNamed type usage removed missing k args) (StockOver readme N) := by
  obtain ⟨_, hN, _⟩ := h.toCensus.enter
  have henter := h.enter
  unfold removeNamed
  refine .ite (fun _ => .pure (henter.printf _ _).over) fun _ => ?_
  refine (Yields.trivial _).bind fun node _ => ?_
  refine .ite (fun _ => ?_) fun _ => .pure (henter.printf _ _).over
  have hthin := (thins henter.toCensus removeBound).1 k.enter _ node (Thinned.refl _) hN
  exact hthin.bind fun k2 ⟨ht, _⟩ => .pure ((henter.thin ht).printf _ _).over

theorem cmdCd_mem : Yields (cmdCd k args) fun k' => k'.heap.mem = k.heap.mem := by
  have henter : k.enter.heap.mem = k.heap.mem := by rw [enter_heap]
  unfold cmdCd
  refine .ite (fun _ => .pure henter) fun _ => .ite (fun _ => ?_) fun _ => ?_
  · exact .ite (fun _ => .pure henter) fun _ => .pure henter
  · exact (Yields.trivial _).bind fun _ _ => .ite (fun _ => .pure henter) fun _ => .pure henter

theorem cmdLs_mem : Yields (cmdLs k args) fun k' => k'.heap.mem = k.heap.mem := by
  unfold cmdLs
  refine (Yields.trivial _).bind fun _ _ => ?_
  refine (lsLoop_yields _ _ _ k.enter).bind fun k1 ⟨out, e⟩ => .pure ?_
  rw [e]
  show k.enter.heap.mem = k.heap.mem
  rw [enter_heap]

/-- `cd` and `ls` leave the nodes and the memory alone -/
theorem Stock.quiet (h : Stock readme k bs N born) (hcmd : cmd = .cd ∨ cmd = .ls) :
    Yields (cmd.exec k args) (StockOver readme N) := by
  have hmem : Yields (cmd.exec k args) fun k' => k'.heap.mem = k.heap.mem := by
    rcases hcmd with rfl | rfl
    · exact cmdCd_mem
    · exact @cmdLs_mem k args
  intro k' e
  have he := command_effect h.toCensus cmd args k' e
  cases he with
  | quiet _ same hc =>
    have hn := same.node
    have hdisk := h.toDisk.keep hc (fun p hp => by rw [hn p hp]) (fun p hp => by rw [hn p hp])
      (fun p hp => by rw [hn p hp]) fun _ _ hr => hr
    exact (h.keep hdisk (fun p hp => by rw [hn p hp]; exact h.capped p hp)
      (fun p hp => by rw [hn p hp]) (fun p hp => by rw [hn p hp]) (fun p hp => by rw [hn p hp])
      fun _ _ _ _ _ _ => by rw [hmem k' e]).over
  | orphan _ _ creates => rcases hcmd with rfl | rfl <;> exact absurd creates.1 (by decide)
  | added _ _ creates => rcases hcmd with rfl | rfl <;> exact absurd creates.1 (by decide)
  | removed _ removes => rcases hcmd with rfl | rfl <;> cases removes

/-- **Every command keeps the files as they are.** -/
theorem Stock.exec (h : Stock readme k bs N born) (hr : readme ∈ N) (cmd : Command)
    (args : Option CString) : Yields (cmd.exec k args) (StockOver readme N) := by
  cases cmd with
  | touch => exact h.touch hr
  | mkdir => exact h.mkdir
  | rm => exact h.remove _ _ _ _
  | rmdir => exact h.remove _ _ _ _
  | cd => exact h.quiet (.inl rfl)
  | ls => exact h.quiet (.inr rfl)

theorem Stock.help (h : Stock readme k bs N born) (args : Option CString) :
    ∃ k', cmdHelp k args = .ok k' ∧ Stock readme k' bs N born := by
  have hall : ∀ (cs : List ShellCommand) (k : Kernel), Stock readme k bs N born →
      Stock readme (cs.foldl helpLine k) bs N born := by
    intro cs
    induction cs with
    | nil => exact fun k h => h
    | cons c cs ih => exact fun k h => ih (helpLine k c) (h.printf _ _)
  exact ⟨_, cmdHelp_eq k args, hall _ _ (h.printf _ _)⟩

/-- the bytes of a file, as `cat` reads them -/
theorem Stock.bytes (h : Stock readme k bs N born) (hp : p ∈ N) (ht : (k.node p).type = .file) :
    (k.node p).data ≠ 0 ∧ fileBytes k p = fileText readme p := by
  obtain ⟨h0, htext⟩ := h.file p hp ht
  obtain ⟨j, hj, hle⟩ := h.sized p hp h0
  have := (hj.bounds h.blocks).2
  exact ⟨h0, (fileBytes_eq_contents (by omega)).trans htext⟩

theorem Stock.cat (h : Stock readme k bs N born) (args : Option CString) :
    ∃ r, cmdCat k args = .ok r ∧ Stock readme r.2 bs N born := by
  obtain ⟨r, e⟩ := cmdCat_returns h.toCensus args fun p hp ht => by
    obtain ⟨h0, hb⟩ := h.bytes hp ht
    exact ⟨h0, by rw [hb]; exact fileText_nul readme p⟩
  have hout : Yields (cmdCat k args) fun r => Stock readme r.2 bs N born := by
    unfold cmdCat
    refine .ite (fun _ => .pure (h.enter.printf _ _)) fun _ => ?_
    refine (Yields.trivial _).bind fun _ _ => .ite (fun _ => ?_) fun _ => .pure (h.enter.printf _ _)
    exact (Yields.trivial _).bind fun _ _ => (Yields.trivial _).bind fun _ _ =>
      .pure (h.enter.printf _ _)
  exact ⟨r, e, hout r e⟩

end

/-! ## the start -/

/-- `fs_init` makes the root, and leaves room for the built-in file -/
theorem fsInit_root {k : Kernel} {s : Machine} (e : fsInit (Kernel.boot s) = .ok k) :
    k.node k.root = newNode (str "/") .directory (k.node k.root).children ∧
    (k.node k.root).children ≠ 0 ∧ k.currentDir = 0 ∧ ∃ f h1 q h2,
      kmalloc k.heap sizeofFSNode = .ok (f, h1) ∧ f ≠ 0 ∧ kmalloc h1 128 = .ok (q, h2) ∧ q ≠ 0 := by
  have ha1 : alloc 12 16 (need sizeofFSNode) [initBlock] = some (0x00800000,
      [⟨0x00800000, 96, false⟩, ⟨0x0080006C, 0x007FFF88, true⟩]) := rfl
  have ha2 : alloc 12 16 (need sizeofChildren) [⟨0x00800000, 96, false⟩, ⟨0x0080006C, 0x007FFF88, true⟩]
      = some (0x0080006C, [⟨0x00800000, 96, false⟩, ⟨0x0080006C, 128, false⟩,
        ⟨0x008000F8, 0x007FFEFC, true⟩]) := rfl
  have ha3 : alloc 12 16 (need sizeofFSNode) [⟨0x00800000, 96, false⟩, ⟨0x0080006C, 128, false⟩,
      ⟨0x008000F8, 0x007FFEFC, true⟩] = some (0x008000F8, [⟨0x00800000, 96, false⟩,
        ⟨0x0080006C, 128, false⟩, ⟨0x008000F8, 96, false⟩, ⟨0x00800164, 0x007FFE90, true⟩]) := rfl
  have ha4 : alloc 12 16 (need 128) [⟨0x00800000, 96, false⟩, ⟨0x0080006C, 128, false⟩,
      ⟨0x008000F8, 96, false⟩, ⟨0x00800164, 0x007FFE90, true⟩] = some (0x00800164,
        [⟨0x00800000, 96, false⟩, ⟨0x0080006C, 128, false⟩, ⟨0x008000F8, 96, false⟩,
          ⟨0x00800164, 128, false⟩, ⟨0x008001F0, 0x007FFE04, true⟩]) := rfl
  obtain ⟨f, h1, e1, hf, hb1, _⟩ := kmalloc_some (initHeap_blocks s) (by decide) ha1
  obtain ⟨q, h2, e2, hq, hb2, _⟩ := kmalloc_some hb1 (by decide) ha2
  have hf0 : f ≠ 0 := fun e => by
    rw [e] at hf
    exact absurd hf (by decide)
  have hq0 : q ≠ 0 := fun e => by
    rw [e] at hq
    exact absurd hq (by decide)
  have e3 : fsCreateNode (Kernel.boot s) (str "/") .directory
      = .ok (f, (Kernel.boot s).withDir h2 f q (str "/")) := fsCreateNode_dir e1 hf0 e2
  unfold fsInit at e
  rw [e3, bind_ok] at e
  simp only [if_neg hf0] at e
  cases e
  refine ⟨?_, ?_, ?_, ?_⟩
  · show Function.update (Kernel.boot s).node f _ f
      = newNode (str "/") .directory (Function.update (Kernel.boot s).node f _ f).children
    rw [Function.update_self]
    rfl
  · show (Function.update (Kernel.boot s).node f _ f).children ≠ 0
    rw [Function.update_self]
    exact hq0
  · rfl
  · have hb : HeapBlocks (h2.printf "[RAMFS] Filesystem initialized.\n" []) [⟨0x00800000, 96, false⟩,
        ⟨0x0080006C, 128, false⟩, ⟨0x008000F8, 0x007FFEFC, true⟩] := hb2.store rfl fun _ _ => rfl
    obtain ⟨g, h3, e4, hg, hb3, _⟩ := kmalloc_some hb (by decide) ha3
    obtain ⟨r, h4, e5, hr, _⟩ := kmalloc_some hb3 (by decide) ha4
    refine ⟨g, h3, r, h4, e4, fun e => ?_, e5, fun e => ?_⟩
    · rw [e] at hg
      exact absurd hg (by decide)
    · rw [e] at hr
      exact absurd hr (by decide)

theorem loadN_strncpy (m : Mem) (dst : Nat) {src : List Byte} {n : Nat} (h : src.length ≤ n) :
    loadN (strncpy m dst src n) dst n = src ++ List.replicate (n - src.length) 0 := by
  refine List.ext_getElem (by rw [loadN_length, List.length_append, List.length_replicate]; omega)
    fun i h1 _ => ?_
  rw [loadN_length] at h1
  rw [loadN_getElem]
  show (if dst ≤ dst + i ∧ dst + i < dst + n then src.getD (dst + i - dst) 0 else _) = _
  rw [if_pos (by omega), Nat.add_sub_cancel_left, List.getD_eq_getElem?_getD, List.getElem_append]
  by_cases hi : i < src.length
  · rw [dif_pos hi, List.getElem?_eq_getElem hi]
    rfl
  · rw [dif_neg hi, List.getElem?_eq_none (by omega), List.getElem_replicate]
    rfl

/-- at the start the root is the only node -/
theorem stock_init {k : Kernel} {s : Machine} (e : fsInit (Kernel.boot s) = .ok k) (readme : Word) :
    ∃ bs, Stock readme k bs {k.root} fun _ => 0 := by
  obtain ⟨bs, hc, _⟩ := census_init e
  obtain ⟨hroot, _⟩ := fsInit_root e
  have hdata : (k.node k.root).data = 0 := by
    rw [hroot]
    rfl
  refine ⟨bs, ⟨hc, ?_, ?_, ?_⟩, ?_, ?_⟩
  · rintro p rfl r rfl h0
    rw [hdata]
    exact h0
  · rintro p rfl r rfl _ _
    rfl
  · rintro p rfl h0
    exact absurd hdata h0
  · rintro p rfl
    rw [hroot]
    exact Nat.zero_le _
  · rintro p rfl ht
    rw [hroot] at ht
    cases ht

/-- the built-in file is all there is, and no command has run -/
structure JustBooted (readme : Word) (k : Kernel) : Prop where
  kids : kids k k.root = [readme]
  name : (k.node readme).name = str "README"
  type : (k.node readme).type = .file
  currentDir : k.currentDir = 0

/-- **`kernel_main` gets its file.** -/
theorem stock_readme {k : Kernel} {s : Machine} (e : fsInit (Kernel.boot s) = .ok k) :
    ∃ readme k' bs N born, createReadme k = .ok k' ∧ readme ∈ N ∧ Stock readme k' bs N born ∧
      JustBooted readme k' := by
  obtain ⟨hroot, ha, hcur, f, h1, q, h2, e1, hf, e2, hq⟩ := fsInit_root e
  obtain ⟨bs, h⟩ := stock_init e f
  obtain ⟨hN, hd⟩ := h.root
  have hneed : need 128 = 128 := by decide
  have hname : (0 : Byte) ∉ (str "README").take (sizeofName - 1) := by decide
  have hout : ∀ x, x < q.toNat ∨ q.toNat + 128 ≤ x →
      strncpy h2.mem q.toNat (str "Welcome to ContinuumOS!") 128 x = h2.mem x := by
    intro x hx
    exact if_neg (by omega)
  have hplace := h.place ((k.withNode h2 f (fileNode (str "README") 128 q)).withMem
    (strncpy h2.mem q.toNat (str "Welcome to ContinuumOS!") 128)) e1 hf e2 hN hd
    (fun bs' hb hlive => ?_) rfl rfl rfl (fun _ _ => rfl) rfl rfl hname (.inr ⟨rfl, rfl⟩)
    (fun _ => (by decide : 128 ≤ need 128)) (fun x hx => hout x (hx.resolve_left hq)) fun _ => ⟨hq, ?_⟩
  · have hne : k.root ≠ f := fun erf => h.toCensus.new_node e1 hf (erf ▸ hN)
    have hnode : ((k.withNode h2 f (fileNode (str "README") 128 q)).withMem
        (strncpy h2.mem q.toNat (str "Welcome to ContinuumOS!") 128)).node k.root = k.node k.root :=
      Function.update_of_ne hne ..
    have ek := @fsAddChild_attach _ _ f ⟨h.ne_zero hN, by rw [hnode]; exact hd⟩
      (by rw [hnode, hroot]; exact (by decide : 0 < maxChildren)) (by rw [hnode]; exact ha) hf
    obtain ⟨_, bs', N', born', hmem, hk'⟩ := hplace _ ek
    have hfile : (((k.withNode h2 f (fileNode (str "README") 128 q)).withMem
        (strncpy h2.mem q.toNat (str "Welcome to ContinuumOS!") 128)).attach k.root f).node f
        = { fileNode (str "README") 128 q with parent := k.root } := by
      rw [attach_node_child, if_neg hne.symm]
      show { Function.update k.node f (fileNode (str "README") 128 q) f with parent := k.root } = _
      rw [Function.update_self]
    refine ⟨f, _, bs', N', born', ?_, hmem, hk', ?_, ?_, ?_, hcur⟩
    · rw [createReadme_eq e1 hf e2, if_pos hq]
      exact ek
    · have hnil : (k.node k.root).childCount = 0 := by
        rw [hroot]
        rfl
      refine (kids_attach_self hne.symm).trans ?_
      rw [kids_eq_nil (by rw [hnode]; exact hnil)]
      rfl
    · rw [hfile]
      rfl
    · rw [hfile]
      rfl
  · -- the text goes into the new buffer
    obtain ⟨j, hj, hle⟩ := hlive hq
    refine hb.store rfl fun x hx => ?_
    have := hx.2 q j hj
    exact hout x (by omega)
  · unfold fileText
    rw [if_pos rfl]
    exact loadN_strncpy _ _ (by decide)

end FirstKernel
