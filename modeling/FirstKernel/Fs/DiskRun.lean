import FirstKernel.Fs.Disk
import FirstKernel.Fs.Table

/-!
# Runs of the file system

After `fs_init` come, in any order, the commands of the shell, the file that `kernel_main` makes, and
the calls of `ramfs.cpp` and `syscalls.cpp` on paths, descriptors and nodes of the tree.  Allocations
may fail.

* `Disk.exec`, `Disk.readme`, `Disk.byPath`   what each call keeps;
* `Disk.sysOpen`, `Disk.sysWrite`, …          descriptors stay on nodes, also on removed ones;
* `disk_reachable`                            every state of a run is a `Disk`.
-/

namespace FirstKernel
open ByteMem Cells Tiling Outcome

/-- `n` bytes at `dst`: those of `src`, then zeros -/
def strncpy (m : Mem) (dst : Nat) (src : List Byte) (n : Nat) : Mem := fun x =>
  if dst ≤ x ∧ x < dst + n then src.getD (x - dst) 0 else m x

/-- the built-in file of `kernel_main` -/
def createReadme (k : Kernel) : Res Kernel := do
  let root := k.root
  let (readme, k) ← fsCreateNode k (str "README") .file
  if readme = 0 then return k
  let k := k.modify readme fun n => { n with size := 128 }
  let (data, k) ← k.kmalloc (k.node readme).size
  let k := k.modify readme fun n => { n with data := data }
  if (k.node readme).data ≠ 0 then
    let mem := strncpy k.heap.mem (k.node readme).data.toNat (str "Welcome to ContinuumOS!")
      (k.node readme).size.toNat
    fsAddChild (k.withMem mem) root readme
  else fsAddChild k root readme

inductive FsCall where
  | command (c : Command) (args : Option CString)
  | createReadme
  | fsMkdir (path : Option CString)
  | fsTouch (path : Option CString)
  | fsRemoveChild (parent child : Word)
  | fsRead (file offset size buffer : Word)
  | fsWrite (file offset size buffer : Word)
  | sysOpen (path : Option CString)
  | sysRead (fd buffer size : Word)
  | sysWrite (fd buffer size : Word)
  | sysClose (fd : Word)
  | poke (x : Nat) (b : Byte)

/-- nodes are passed from the tree, buffers lie off the heap, and the sum of a write does not wrap -/
def FsCall.step (k : Kernel) (op : FsCall) (k' : Kernel) : Prop :=
  match op with
  | .command c args => c.exec k args = .ok k'
  | .createReadme => FirstKernel.createReadme k = .ok k'
  | .fsMkdir path => ∃ r, FirstKernel.fsMkdir k path = .ok (r, k')
  | .fsTouch path => ∃ r, FirstKernel.fsTouch k path = .ok (r, k')
  | .fsRemoveChild parent child => InTree k parent ∧
      FirstKernel.fsRemoveChild removeBound k parent child = .ok k'
  | .fsRead file offset size buffer => InTree k file ∧ Buffer buffer size ∧
      ∃ r, FirstKernel.fsRead k file offset size buffer = .ok (r, k')
  | .fsWrite file offset size buffer => InTree k file ∧ offset.toNat + size.toNat ≤ 0xFFFFFFF0 ∧
      ∃ r, FirstKernel.fsWrite k file offset size buffer = .ok (r, k')
  | .sysOpen path => ∃ r, FirstKernel.sysOpen k path = .ok (r, k')
  | .sysRead fd buffer size => Buffer buffer size ∧
      ∃ r, FirstKernel.sysRead k fd buffer size = .ok (r, k')
  | .sysWrite fd buffer size => size.toNat ≤ 0xFFFFFFF0 ∧
      ∃ r, FirstKernel.sysWrite k fd buffer size = .ok (r, k')
  | .sysClose fd => k' = FirstKernel.sysClose k fd
  | .poke x b => Outside x ∧ k' = k.withMem (store8 k.heap.mem x b)

def fsRuns : Run.System Kernel FsCall where
  init k := ∃ s, fsInit (Kernel.boot s) = .ok k
  step k op k' := op.step k k'

section
variable {k k' : Kernel} {bs bs' : List Block} {N : Set Word} {born born' : Word → Nat}
  {p q f : Word} {args path : Option CString} {cmd : Command}

/-! ## the commands -/

theorem Disk.touch (h : Disk k bs N born) : Yields (cmdTouch k args) (DiskOver N) := by
  obtain ⟨_, hN, hd⟩ := h.toCensus.enter
  have henter := h.enter
  intro k' e
  cases hargs : noArgs args with
  | true =>
    rw [cmdTouch_usage hargs] at e
    cases e
    exact (henter.printf _ _).over
  | false =>
    obtain ⟨f, h1, e1⟩ := kmalloc_returns h.blocks sizeofFSNode
    obtain ⟨bs1, hb1, _⟩ := kmalloc_fresh h.blocks e1
    by_cases hf : f = 0
    · rw [hf] at e1
      rw [cmdTouch_null hargs e1] at e
      cases e
      rw [← enter_heap k] at e1
      exact (henter.refused e1).over
    obtain ⟨q, h2, e2⟩ := kmalloc_returns hb1 256
    by_cases hq : q = 0
    · rw [hq] at e2
      rw [cmdTouch_fault hargs e1 hf e2] at e
      cases e
    rw [cmdTouch_eq hargs e1 hf e2 hq] at e
    obtain ⟨k2, e', rfl⟩ := map_eq_ok e
    rw [← enter_heap k] at e1
    have hplace : Yields (fsAddChild ((k.enter.withNode h2 f (fileNode (argName args) 256 q)).withMem
        (fill h2.mem q.toNat 0 256)) k.enter.currentDir f) (DiskOver N) := by
      refine henter.place e1 hf e2 hN hd (fun bs' hb hlive => ?_) rfl rfl rfl (fun _ _ => rfl) rfl rfl
        (argName_take_no_nul args) (.inr ⟨rfl, rfl⟩) fun _ => (by decide : 256 ≤ need 256)
      -- the buffer is cleared inside its payload
      obtain ⟨j, hj, hneed⟩ := hlive hq
      have hsize : 256 ≤ j := Nat.le_trans (by decide : 256 ≤ need 256) hneed
      refine hb.store rfl fun x hx => ?_
      have := hx.2 q j hj
      exact fill_out _ _ _ _ _ (by omega)
    exact (hplace k2 e').printf _ _

theorem Disk.mkdir (h : Disk k bs N born) : Yields (cmdMkdir k args) (DiskOver N) := by
  obtain ⟨_, hN, hd⟩ := h.toCensus.enter
  have henter := h.enter
  intro k' e
  cases hargs : noArgs args with
  | true =>
    rw [cmdMkdir_usage hargs] at e
    cases e
    exact (henter.printf _ _).over
  | false =>
    obtain ⟨f, h1, e1⟩ := kmalloc_returns h.blocks sizeofFSNode
    obtain ⟨bs1, hb1, _⟩ := kmalloc_fresh h.blocks e1
    by_cases hf : f = 0
    · rw [hf] at e1
      rw [cmdMkdir_null hargs e1] at e
      cases e
      rw [← enter_heap k] at e1
      exact (henter.refused e1).over
    obtain ⟨q, h2, e2⟩ := kmalloc_returns hb1 sizeofChildren
    rw [cmdMkdir_eq hargs e1 hf e2] at e
    obtain ⟨k2, e', rfl⟩ := map_eq_ok e
    rw [← enter_heap k] at e1
    have hplace : Yields (fsAddChild (k.enter.withDir h2 f q (argName args)) k.enter.currentDir f)
        (DiskOver N) :=
      henter.place e1 hf e2 hN hd (fun _ hb _ => hb) rfl rfl rfl
        (fun a ha => withDir_slot _ _ _ _ ha) rfl rfl (argName_take_no_nul args) (.inl ⟨rfl, rfl⟩)
        fun h0 => absurd rfl h0
    exact (hplace k2 e').printf _ _

theorem Disk.remove (h : Disk k bs N born) (type : FSNodeType) (usage removed missing : String) :
    Yields (removeNamed type usage removed missing k args) (DiskOver N) := by
  obtain ⟨_, hN, _⟩ := h.toCensus.enter
  have henter := h.enter
  unfold removeNamed
  refine .ite (fun _ => .pure (henter.printf _ _).over) fun _ => ?_
  refine (Yields.trivial _).bind fun node _ => ?_
  refine .ite (fun _ => ?_) fun _ => .pure (henter.printf _ _).over
  have hthin := (thins henter.toCensus removeBound).1 k.enter _ node (Thinned.refl _) hN
  exact hthin.bind fun k2 ⟨ht, _⟩ => .pure ((henter.thin ht).printf _ _).over

/-- **Each command keeps the disk.** -/
theorem Disk.exec (h : Disk k bs N born) (cmd : Command) (args : Option CString) :
    Yields (cmd.exec k args) (DiskOver N) := by
  -- `cd` and `ls` leave the nodes alone
  have hquiet : Yields (cmd.exec k args) (Effect k bs N born cmd args) :=
    command_effect h.toCensus cmd args
  have hsame : cmd = .cd ∨ cmd = .ls → Yields (cmd.exec k args) (DiskOver N) := by
    intro hcmd
    refine hquiet.mono fun k' he => ?_
    cases he with
    | quiet _ same hc =>
      exact (h.keep hc (fun p hp => by rw [same.node p hp]) (fun p hp => by rw [same.node p hp])
        (fun p hp => by rw [same.node p hp]) fun _ _ hr => hr).over
    | orphan _ _ creates => rcases hcmd with rfl | rfl <;> exact absurd creates.1 (by decide)
    | added _ _ creates => rcases hcmd with rfl | rfl <;> exact absurd creates.1 (by decide)
    | removed _ removes => rcases hcmd with rfl | rfl <;> cases removes
  cases cmd with
  | touch => exact h.touch
  | mkdir => exact h.mkdir
  | rm => exact h.remove _ _ _ _
  | rmdir => exact h.remove _ _ _ _
  | cd => exact hsame (.inl rfl)
  | ls => exact hsame (.inr rfl)

/-! ## the built-in file -/

theorem createReadme_eq {h1 h2 : Machine} (e1 : kmalloc k.heap sizeofFSNode = .ok (f, h1)) (hf : f ≠ 0)
    (e2 : kmalloc h1 128 = .ok (q, h2)) : createReadme k = if q ≠ 0 then
      fsAddChild ((k.withNode h2 f (fileNode (str "README") 128 q)).withMem
        (strncpy h2.mem q.toNat (str "Welcome to ContinuumOS!") 128)) k.root f
      else fsAddChild (k.withNode h2 f (fileNode (str "README") 128 q)) k.root f := by
  have e0 : (k.withNode h1 f (newNode (str "README") .file 0)).modify f
      (fun n => { n with size := 128 }) = k.withNode h1 f (fileNode (str "README") 128 0) :=
    withNode_modify _ h1 h1 _ _ _
  have esize : (fileNode (str "README") 128 0).size = 128 := rfl
  have e3 : (k.withNode h1 f (fileNode (str "README") 128 0)).kmalloc 128
      = .ok (q, { k.withNode h1 f (fileNode (str "README") 128 0) with heap := h2 }) :=
    kernel_kmalloc e2
  unfold createReadme
  simp only [fsCreateNode_file e1 hf, bind_ok, if_neg hf, e0, withNode_node_self, esize, e3, withNode_modify]
  rfl

theorem Disk.readme (h : Disk k bs N born) : Yields (createReadme k) (DiskOver N) := by
  obtain ⟨f, h1, e1⟩ := kmalloc_returns h.blocks sizeofFSNode
  obtain ⟨bs1, hb1, _⟩ := kmalloc_fresh h.blocks e1
  obtain ⟨q, h2, e2⟩ := kmalloc_returns hb1 128
  by_cases hf : f = 0
  · rw [hf] at e1
    unfold createReadme
    rw [fsCreateNode_null .file e1, bind_ok]
    exact .pure (h.refused e1).over
  have hneed : (128 : Word).toNat ≤ need 128 := by decide
  have hname : (0 : Byte) ∉ (str "README").take (sizeofName - 1) := by decide
  rw [createReadme_eq e1 hf e2]
  refine .ite (fun hq => ?_) fun _ => ?_
  · refine h.place e1 hf e2 h.root.1 h.root.2 (fun bs' hb hlive => ?_) rfl rfl rfl (fun _ _ => rfl)
      rfl rfl hname (.inr ⟨rfl, rfl⟩) fun _ => hneed
    -- the text goes into the new buffer
    obtain ⟨j, hj, hle⟩ := hlive hq
    refine hb.store rfl fun x hx => if_neg ?_
    have := hx.2 q j hj
    have : 128 ≤ j := Nat.le_trans (by decide : 128 ≤ need 128) hle
    omega
  · exact h.place e1 hf e2 h.root.1 h.root.2 (fun _ hb _ => hb) rfl rfl rfl (fun _ _ => rfl) rfl rfl
      hname (.inr ⟨rfl, rfl⟩) fun _ => hneed

/-! ## the calls by path -/

theorem Disk.find (h : Disk k bs N born) (hp : p ∈ N) (name : List Byte) :
    Yields (fsFindChild k p name) fun c => c ≠ 0 → c ∈ N := by
  cases ht : (k.node p).type with
  | file =>
    unfold fsFindChild
    rw [if_pos (.inr (by rw [ht]; exact FSNodeType.noConfusion))]
    exact .pure fun h0 => absurd rfl h0
  | directory =>
    rw [h.toCensus.find hp ht]
    exact .ok fun h0 => h.childNamed_mem hp h0

/-- the resolver walks over nodes -/
theorem Disk.pathLoop (h : Disk k bs N born) (s : List Byte) (hp : p ∈ N) (temp : List Byte) :
    Yields (pathLoop k s p temp) fun r => ∀ x, r = some x → x.1 ∈ N := by
  induction s generalizing p temp with
  | nil =>
    refine .pure fun x e => ?_
    cases e
    exact hp
  | cons c s ih =>
    rw [FirstKernel.pathLoop]
    refine (Yields.trivial _).bind fun _ _ => ?_
    refine .ite (fun _ => .ite (fun _ => ?_) fun _ => ih hp []) fun _ => ih hp _
    refine (h.find hp temp).bind fun q hq => .ite (fun _ => .pure nofun) fun h0 => ih (hq h0) []

theorem Disk.findByPath (h : Disk k bs N born) (path : Option CString) :
    Yields (fsFindByPath k path) fun p => p ≠ 0 → p ∈ N := by
  cases path with
  | none => exact .pure fun h0 => absurd rfl h0
  | some path =>
    refine .ite (fun _ => .pure fun h0 => absurd rfl h0) fun _ => ?_
    refine (h.pathLoop path.val h.root.1 []).bind fun r hr => ?_
    cases r with
    | none => exact .pure fun h0 => absurd rfl h0
    | some x => exact .pure fun _ => hr x rfl

/-- **The calls by path keep the disk.** -/
theorem Disk.byPath (h : Disk k bs N born) (path : Option CString) :
    Yields (fsMkdir k path) (fun r => DiskOver N r.2) ∧
      Yields (fsTouch k path) fun r => DiskOver N r.2 := by
  cases hsplit : splitPath path with
  | error x =>
    unfold fsMkdir fsTouch
    rw [hsplit]
    exact ⟨.error x, .error x⟩
  | ok parts =>
    obtain ⟨parentPath, name⟩ := parts
    cases hr : fsFindByPath k (some parentPath) with
    | error x =>
      unfold fsMkdir fsTouch
      rw [hsplit]
      simp only [bind_ok, hr]
      exact ⟨.error x, .error x⟩
    | ok p =>
      have hp := h.findByPath (some parentPath) p hr
      by_cases hdir : IsDir k p
      · have hN := hp hdir.ne_zero
        have hname : (0 : Byte) ∉ name.val.take (sizeofName - 1) := fun h0 =>
          name.property (List.mem_of_mem_take h0)
        obtain ⟨f, h1, e1⟩ := kmalloc_returns h.blocks sizeofFSNode
        obtain ⟨bs1, hb1, _⟩ := kmalloc_fresh h.blocks e1
        obtain ⟨q, h2, e2⟩ := kmalloc_returns hb1 sizeofChildren
        obtain ⟨q', h2', e2'⟩ := kmalloc_returns hb1 1024
        by_cases hf : f = 0
        -- only a full directory survives the null node
        · rw [hf] at e1
          rw [fsMkdir_null hsplit hr hdir e1, fsTouch_fault hsplit hr hdir e1 e2']
          refine ⟨fun r e => ?_, .error _⟩
          obtain ⟨k', e', rfl⟩ := map_eq_ok e
          have hdir' : IsDir { k with heap := h1 } p := ⟨hdir.ne_zero, hdir.type⟩
          by_cases hfull : maxChildren ≤ (k.node p).childCount
          · rw [fsAddChild_full hdir' hfull] at e'
            cases e'
            exact ((h.refused e1).printf _ _).over
          · rw [fsAddChild_fault hdir' (Nat.lt_of_not_le hfull)] at e'
            cases e'
        · rw [fsMkdir_eq hsplit hr hdir e1 hf e2, fsTouch_eq hsplit hr hdir e1 hf e2']
          have hdisk : Yields (fsAddChild (k.withDir h2 f q name.val) p f) (DiskOver N) :=
            h.place e1 hf e2 hN hdir.type (fun _ hb _ => hb) rfl rfl rfl
              (fun a ha => withDir_slot _ _ _ _ ha) rfl rfl hname (.inl ⟨rfl, rfl⟩)
              fun h0 => absurd rfl h0
          have hdisk' : Yields (fsAddChild (k.withNode h2' f (fileNode name.val 0 q')) p f)
              (DiskOver N) :=
            h.place e1 hf e2' hN hdir.type (fun _ hb _ => hb) rfl rfl rfl (fun _ _ => rfl) rfl rfl hname
              (.inr ⟨rfl, rfl⟩) fun _ => Nat.zero_le _
          constructor
          · intro r e
            obtain ⟨k', e', rfl⟩ := map_eq_ok e
            exact hdisk k' e'
          · intro r e
            obtain ⟨k', e', rfl⟩ := map_eq_ok e
            exact hdisk' k' e'
      · obtain ⟨em, et⟩ := create_unresolved hsplit hr hdir
        rw [em, et]
        exact ⟨.ok h.over, .ok h.over⟩

/-! ## descriptors -/

/-- the descriptors in use are at the start of nodes -/
def Opened (k : Kernel) (N : Set Word) : Prop :=
  ∀ i, (k.fdTable i).used = true → (k.fdTable i).node ∈ N ∧ (k.fdTable i).offset = 0

/-- a disk with its descriptors, whatever the nodes and blocks are -/
def IsDisk (k : Kernel) : Prop := ∃ bs N born, Disk k bs N born ∧ Opened k N

/-- a call that makes nodes and leaves the table alone -/
theorem DiskOver.isDisk (h : DiskOver N k') (ho : Opened k N) (ht : k'.fdTable = k.fdTable) :
    IsDisk k' := by
  obtain ⟨bs, N', born, hsub, h⟩ := h
  refine ⟨bs, N', born, h, fun i hi => ?_⟩
  rw [ht] at hi ⊢
  exact (ho i hi).imp_left fun hN => hsub hN

theorem createReadme_table (k : Kernel) : Yields (createReadme k) fun k' => k'.fdTable = k.fdTable := by
  unfold createReadme
  refine (fsCreateNode_table k (str "README") .file).bind fun ⟨readme, k1⟩ h1 => ?_
  refine .ite (fun _ => .pure h1) fun _ => ?_
  refine (kmalloc_table _ _).bind fun ⟨data, k2⟩ h2 => ?_
  have h12 : k2.fdTable = k.fdTable := h2.trans h1
  exact .ite (fun _ => (fsAddChild_table _ _ _).mono fun _ h3 => h3.trans h12) fun _ =>
    (fsAddChild_table _ _ _).mono fun _ h3 => h3.trans h12

theorem Disk.table (h : Disk k bs N born) (t : Nat → FileDescriptor) :
    Disk { k with fdTable := t } bs N born := h.same (.of_eq rfl rfl rfl) h.blocks h.current

theorem Disk.sysOpen (h : Disk k bs N born) (ho : Opened k N) (path : Option CString) :
    Yields (sysOpen k path) fun r => IsDisk r.2 := by
  intro r e
  obtain ⟨p, hp, _⟩ := bind_eq_ok e
  rw [sysOpen_eq hp] at e
  by_cases h0 : p = 0
  · rw [if_pos h0] at e
    cases e
    exact ⟨bs, N, born, h, ho⟩
  rw [if_neg h0] at e
  unfold fsOpen at e
  cases hfree : freeDescriptor k.fdTable maxOpenFiles 0 with
  | none =>
    rw [hfree] at e
    cases e
    exact ⟨bs, N, born, h, ho⟩
  | some i =>
    rw [hfree] at e
    cases e
    refine ⟨bs, N, born, h.table _, fun j hj => ?_⟩
    by_cases hji : j = i
    · rw [hji]
      simp only [Function.update_self]
      exact ⟨h.findByPath path p hp h0, trivial⟩
    · simp only [Function.update_of_ne hji] at hj ⊢
      exact ho j hj

theorem Disk.sysClose (h : Disk k bs N born) (ho : Opened k N) (fd : Word) :
    IsDisk (sysClose k fd) := by
  unfold FirstKernel.sysClose fsClose
  by_cases hopen : k.isOpen fd = true
  · rw [if_pos hopen]
    refine ⟨bs, N, born, h.table _, fun j hj => ?_⟩
    by_cases hjd : j = fd.toNat
    · rw [hjd] at hj
      simp only [Function.update_self] at hj
      cases hj
    · simp only [Function.update_of_ne hjd] at hj ⊢
      exact ho j hj
  · rw [if_neg hopen]
    exact ⟨bs, N, born, h, ho⟩

theorem Opened.entry (ho : Opened k N) {fd : Word} (hopen : k.isOpen fd = true) :
    (k.fdTable fd.toNat).node ∈ N ∧ (k.fdTable fd.toNat).offset = 0 := by
  refine ho fd.toNat ?_
  unfold Kernel.isOpen at hopen
  rw [Bool.and_eq_true] at hopen
  exact hopen.2

theorem Disk.sysRead (h : Disk k bs N born) (fd : Word) {buffer size : Word}
    (hbuf : Buffer buffer size) : Yields (sysRead k fd buffer size) fun r => DiskOver N r.2 :=
  .ite (fun _ => .ok h.over) fun _ => (h.read hbuf).mono fun _ h' => h'.over

theorem Disk.sysWrite (h : Disk k bs N born) (ho : Opened k N) (fd buffer : Word) {size : Word}
    (hsize : size.toNat ≤ 0xFFFFFFF0) : Yields (sysWrite k fd buffer size) fun r => DiskOver N r.2 := by
  refine .ite (fun _ => .ok h.over) fun hopen => ?_
  obtain ⟨hN, h0⟩ := ho.entry (not_not.mp hopen)
  rw [h0]
  refine (h.write hN ?_).mono fun r ⟨bs', h'⟩ => h'.over
  show 0 + size.toNat ≤ 0xFFFFFFF0
  rw [Nat.zero_add]
  exact hsize

theorem Disk.poke (h : Disk k bs N born) {x : Nat} (hout : Outside x) (b : Byte) :
    Disk (k.withMem (store8 k.heap.mem x b)) bs N born := by
  refine h.same (.of_eq rfl rfl rfl) (h.blocks.store rfl fun y hy => ?_) h.current
  exact store8_of_ne _ _ _ _ fun hyx => hy.1 (hyx ▸ hout)

/-! ## runs -/

/-- **Every step keeps the disk.** -/
theorem Disk.step (h : Disk k bs N born) (ho : Opened k N) {op : FsCall} (e : op.step k k') :
    IsDisk k' := by
  cases op with
  | command c args => exact (h.exec c args k' e).isDisk ho (command_table k args c k' e)
  | createReadme => exact (h.readme k' e).isDisk ho (createReadme_table k k' e)
  | fsMkdir path =>
    obtain ⟨r, e⟩ := e
    exact ((h.byPath path).1 _ e).isDisk ho (fsMkdir_table k path _ e)
  | fsTouch path =>
    obtain ⟨r, e⟩ := e
    exact ((h.byPath path).2 _ e).isDisk ho (fsTouch_table k path _ e)
  | fsRemoveChild parent child =>
    obtain ⟨hin, e⟩ := e
    obtain ⟨ht, _⟩ := (thins h.toCensus removeBound).1 k parent child (Thinned.refl _)
      (h.toCensus.inTree hin) k' e
    exact (h.thin ht).over.isDisk ho ((remove_table removeBound).1 k parent child k' e)
  | fsRead file offset size buffer =>
    obtain ⟨_, hbuf, r, e⟩ := e
    exact (h.read hbuf _ e).over.isDisk ho (fsRead_table k file offset size buffer _ e)
  | fsWrite file offset size buffer =>
    obtain ⟨hin, hsum, r, e⟩ := e
    obtain ⟨bs', h'⟩ := h.write (h.toCensus.inTree hin) hsum _ e
    exact h'.over.isDisk ho (fsWrite_table k file offset size buffer _ e)
  | sysOpen path =>
    obtain ⟨r, e⟩ := e
    exact h.sysOpen ho path _ e
  | sysRead fd buffer size =>
    obtain ⟨hbuf, r, e⟩ := e
    exact (h.sysRead fd hbuf _ e).isDisk ho (sysRead_table k fd buffer size _ e)
  | sysWrite fd buffer size =>
    obtain ⟨hsize, r, e⟩ := e
    exact (h.sysWrite ho fd buffer hsize _ e).isDisk ho (sysWrite_table k fd buffer size _ e)
  | sysClose fd =>
    rw [show k' = FirstKernel.sysClose k fd from e]
    exact h.sysClose ho fd
  | poke x b =>
    obtain ⟨hout, rfl⟩ := e
    exact (h.poke hout b).over.isDisk ho rfl

end

theorem disk_init {k : Kernel} {s : Machine} (e : fsInit (Kernel.boot s) = .ok k) : IsDisk k := by
  obtain ⟨bs, hc, _⟩ := census_init e
  obtain ⟨f, h1, q, h2, e1, hf, e2, _⟩ := boot_allocations s
  have e3 : fsCreateNode (Kernel.boot s) (str "/") .directory
      = .ok (f, (Kernel.boot s).withDir h2 f q (str "/")) := fsCreateNode_dir e1 hf e2
  have hdata : (k.node k.root).data = 0 := by
    unfold fsInit at e
    rw [e3, bind_ok] at e
    simp only [if_neg hf] at e
    cases e
    show (Function.update (Kernel.boot s).node f (newNode (str "/") .directory q) f).data = 0
    rw [Function.update_self]
    rfl
  have htable : k.fdTable = (Kernel.boot s).fdTable := by
    unfold fsInit at e
    rw [e3, bind_ok] at e
    simp only [if_neg hf] at e
    cases e
    rfl
  refine ⟨bs, {k.root}, fun _ => 0, ⟨hc, ?_, ?_, ?_⟩, fun i hi => ?_⟩
  · rintro p rfl r rfl h0
    rw [hdata]
    exact h0
  · rintro p rfl r rfl _ _
    rfl
  · rintro p rfl h0
    exact absurd hdata h0
  · rw [htable] at hi
    cases hi

theorem disk_reachable {k : Kernel} (h : Run.Reachable fsRuns k) : IsDisk k := by
  refine h.invariant ?_ ?_
  · rintro k ⟨s, e⟩
    exact disk_init e
  · rintro k op k' _ ⟨bs, N, born, h, ho⟩ e
    exact h.step ho e

end FirstKernel
