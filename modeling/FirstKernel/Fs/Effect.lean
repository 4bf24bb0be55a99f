import FirstKernel.Fs.Census

/-!
# What a command does to the nodes

* `Effect`             nothing, a new node in the current directory or in none, or one entry less;
* `command_effect`     each command that returns did one of these;
* `census_reachable`   so every state of a run has a census.
-/

namespace FirstKernel
open ByteMem Cells Tiling Outcome

/-! ## what a command can do -/

/-- `f` is a new node called `name`, without entries; the old ones keep their names -/
structure Newborn (k : Kernel) (N : Set Word) (name : List Byte) (f : Word) (k' : Kernel) : Prop where
  fresh : f ∉ N
  root : k'.root = k.root
  name : (k'.node f).name = name.take (sizeofName - 1)
  names : ∀ p ∈ N, (k'.node p).name = (k.node p).name
  empty : kids k' f = []

/-- the directory a command works in -/
def Kernel.workDir (k : Kernel) : Word := k.enter.currentDir

/-- `touch` or `mkdir` with a name -/
def Creates (c : Command) (args : Option CString) : Prop :=
  (c = .touch ∨ c = .mkdir) ∧ noArgs args = false

/-- the type of node a command removes -/
def Command.removes : Command → Option FSNodeType
  | .rm => some .file
  | .rmdir => some .directory
  | _ => none

/-- the argument names a child of the current directory of the type the command removes -/
def Removable (k : Kernel) (type : FSNodeType) (args : Option CString) : Prop :=
  noArgs args = false ∧ childNamed k k.workDir (argName args) ≠ 0 ∧
    (k.node (childNamed k k.workDir (argName args))).type = type

/-- nothing to remove, and no memory for what it would make -/
structure Idle (k : Kernel) (c : Command) (args : Option CString) : Prop where
  creates : Creates c args → grants k.heap (c.sizes args) = false
  removes : ∀ type, c.removes = some type → ¬ Removable k type args

/-- what the command `c` did to the nodes `N`; a node it made is in the current directory or, when
that is full, in none -/
inductive Effect (k : Kernel) (bs : List Block) (N : Set Word) (born : Word → Nat) (c : Command)
    (args : Option CString) (k' : Kernel) : Prop where
  | quiet (idle : Idle k c args) (same : SameNodes N k k') (census : Census k' bs N born)
  | orphan (f : Word) (bs' : List Block) (creates : Creates c args)
      (made : Newborn k N (argName args) f k') (full : maxChildren ≤ (k.node k.workDir).childCount)
      (lists : ∀ p ∈ N, kids k' p = kids k p) (live : ∀ p n, Live bs p n → Live bs' p n)
      (census : Census k' bs' (insert f N) (bornLast born f))
  | added (f : Word) (bs' : List Block) (creates : Creates c args)
      (made : Newborn k N (argName args) f k') (room : (k.node k.workDir).childCount < maxChildren)
      (list : kids k' k.workDir = kids k k.workDir ++ [f])
      (others : ∀ p ∈ N, p ≠ k.workDir → kids k' p = kids k p)
      (live : ∀ p n, Live bs p n → Live bs' p n)
      (census : Census k' bs' (insert f N) (bornLast born f))
  | removed (type : FSNodeType) (removes : c.removes = some type) (removable : Removable k type args)
      (list : kids k' k.workDir = (kids k k.workDir).erase (childNamed k k.workDir (argName args)))
      (thinned : ∀ p ∈ N, List.Sublist (kids k' p) (kids k p))
      (names : ∀ p, (k'.node p).name = (k.node p).name) (root : k'.root = k.root)
      (census : Census k' bs N born)

section
variable {k k' : Kernel} {bs bs' : List Block} {N : Set Word} {born : Word → Nat} {p q f c : Word}
  {args : Option CString} {cmd : Command}

theorem kids_enter (k : Kernel) (p : Word) : kids k.enter p = kids k p := by
  unfold kids
  rw [enter_node, enter_slot]

theorem childNamed_enter (k : Kernel) (p : Word) (name : List Byte) :
    childNamed k.enter p name = childNamed k p name := by
  unfold childNamed
  rw [kids_enter, enter_node]

theorem Census.workDir (h : Census k bs N born) : k.workDir ∈ N ∧ IsDir k k.workDir := by
  obtain ⟨_, hN, hd⟩ := h.enter
  rw [enter_node] at hd
  exact ⟨hN, h.ne_zero hN, hd⟩

theorem Idle.usage (hargs : noArgs args = true) : Idle k cmd args where
  creates hc := absurd (hargs.symm.trans hc.2) (by decide)
  removes _ _ hr := absurd (hargs.symm.trans hr.1) (by decide)

theorem Idle.keeps (hc : cmd = .cd ∨ cmd = .ls) : Idle k cmd args where
  creates h := by
    rcases hc with rfl | rfl
    · exact absurd h.1 (by decide)
    · exact absurd h.1 (by decide)
  removes type e := by
    rcases hc with rfl | rfl
    · cases e
    · cases e

theorem Idle.failed (hr : cmd.removes = none) (hg : grants k.heap (cmd.sizes args) = false) :
    Idle k cmd args where
  creates _ := hg
  removes type e := by
    rw [hr] at e
    cases e

theorem Idle.missing {type : FSNodeType} (hc : cmd.removes = some type) (hr : ¬ Removable k type args) :
    Idle k cmd args where
  creates h := by
    rcases h.1 with rfl | rfl
    · cases hc
    · cases hc
  removes type' e := by
    rw [hc] at e
    cases e
    exact hr

/-- printing, and nothing else since the first line -/
theorem Effect.said (h : Census k bs N born) (hi : Idle k cmd args) (hs : SameNodes N k.enter k')
    (hb : HeapBlocks k'.heap bs)
    (hc : k'.currentDir = 0 ∨ k'.currentDir ∈ N ∧ (k.node k'.currentDir).type = .directory) :
    Effect k bs N born cmd args k' := by
  have hs' : SameNodes N k k' :=
    SameNodes.trans (.of_eq (enter_root k) (enter_node k) (enter_slot k)) hs
  exact .quiet hi hs' (h.same hs' hb hc)

theorem Effect.printed (h : Census k bs N born) (hi : Idle k cmd args) (format : String) (xs : List Arg) :
    Effect k bs N born cmd args (k.enter.printf format xs) := by
  obtain ⟨henter, hN, hd⟩ := h.enter
  rw [enter_node] at hd
  exact Effect.said h hi (.of_eq rfl rfl rfl) (henter.printf format xs).blocks (.inr ⟨hN, hd⟩)

/-- the allocation of the struct failed and left the blocks alone -/
theorem Effect.refused (h : Census k bs N born) (hi : Idle k cmd args) {h1 : Machine}
    (e1 : kmalloc k.heap sizeofFSNode = .ok (0, h1)) :
    Effect k bs N born cmd args { k.enter with heap := h1 } := by
  obtain ⟨_, hN, hd⟩ := h.enter
  rw [enter_node] at hd
  rcases kmalloc_client h.blocks sizeofFSNode with ⟨s', e', hb, _⟩ | ⟨p, s', _, _, e', hp, _⟩
  · rw [e1] at e'
    cases e'
    exact Effect.said h hi (.of_eq rfl rfl rfl) hb (.inr ⟨hN, hd⟩)
  · rw [e1] at e'
    cases e'
    exact absurd rfl hp

/-- a new node is offered to the current directory -/
theorem Effect.offered (h : Census k bs N born) {k1 k2 : Kernel} (hf : f ∉ N)
    (hs : SameNodes N k k1) (hlift : ∀ r j, Live bs r j → Live bs' r j)
    (hc : Census k1 bs' (insert f N) (bornLast born f))
    (hname : (k1.node f).name = (argName args).take (sizeofName - 1)) (hnil : kids k1 f = [])
    (hcmd : Creates cmd args) (e : fsAddChild k1 k.workDir f = .ok k2)
    (format : String) (xs : List Arg) : Effect k bs N born cmd args (k2.printf format xs) := by
  obtain ⟨hN, hdir⟩ := h.workDir
  have hnode := hs.node _ hN
  have hprint : SameNodes (insert f N) k2 (k2.printf format xs) := .of_eq rfl rfl rfl
  rcases fsAddChild_cases k1 k.workDir f k2 e with ⟨_, hno⟩ | ⟨hfull, fmt, ys, rfl⟩ | ⟨hroom, ha, rfl⟩
  · exact absurd ⟨hdir.ne_zero, by rw [hnode]; exact hdir.type⟩ hno
  · rw [hnode] at hfull
    refine .orphan f bs' hcmd ⟨hf, hs.root, hname, fun p hp => ?_, hnil⟩ hfull (fun p hp => ?_)
      hlift ((hc.printf fmt ys).printf format xs)
    · rw [← hs.node p hp]
      rfl
    · exact hs.kids p hp
  · have hne : k.workDir ≠ f := fun e => hf (e ▸ hN)
    have hnew : f ∉ kids k1 k.workDir := by
      rw [hs.kids _ hN]
      exact fun hm => hf (h.younger _ hN f hm).1
    obtain ⟨hc', hlist, hother, hnames⟩ := hc.attach (.inr hN) (by rw [hnode]; exact hdir.type) ha
      (.inl rfl) (born_lt_last hne) hnew
    rw [hnode] at hroom
    rw [hs.kids _ hN] at hlist
    refine .added f bs' hcmd ⟨hf, hs.root, (hnames f).trans hname, fun p hp => ?_, ?_⟩ hroom hlist
      (fun p hp hpw => ?_) hlift (hc'.printf format xs)
    · rw [← hs.node p hp]
      exact hnames p
    · exact (hother f (.inl rfl) hne.symm).trans hnil
    · exact (hother p (.inr hp) hpw).trans (hs.kids p hp)

theorem argName_no_nul (args : Option CString) : (0 : Byte) ∉ argName args := by
  intro h0
  cases args with
  | none => cases h0
  | some a => exact a.property h0

/-- what a new node keeps of its name -/
theorem argName_take_no_nul (args : Option CString) :
    (0 : Byte) ∉ (argName args).take (sizeofName - 1) :=
  fun h0 => argName_no_nul args (List.mem_of_mem_take h0)

theorem cmdTouch_effect (h : Census k bs N born) :
    Yields (cmdTouch k args) (Effect k bs N born .touch args) := by
  obtain ⟨henter, hN, hd⟩ := h.enter
  intro k' e
  cases hargs : noArgs args with
  | true =>
    rw [cmdTouch_usage hargs] at e
    cases e
    exact Effect.printed h (.usage hargs) _ _
  | false =>
    obtain ⟨f, h1, e1⟩ := kmalloc_returns h.blocks sizeofFSNode
    obtain ⟨bs1, hb1, _⟩ := kmalloc_fresh h.blocks e1
    by_cases hf : f = 0
    · rw [hf] at e1
      rw [cmdTouch_null hargs e1] at e
      cases e
      exact Effect.refused h (.failed rfl (by rw [Command.sizes, hargs]; exact grants_null e1 _)) e1
    obtain ⟨q, h2, e2⟩ := kmalloc_returns hb1 256
    by_cases hq : q = 0
    · rw [hq] at e2
      rw [cmdTouch_fault hargs e1 hf e2] at e
      cases e
    rw [cmdTouch_eq hargs e1 hf e2 hq] at e
    obtain ⟨k2, e', rfl⟩ := map_eq_ok e
    rw [← enter_heap k] at e1
    obtain ⟨bs', hb, hlift, hlive, hout, hnew⟩ := henter.create e1 hf e2
    obtain ⟨j, hj, hneed⟩ := hlive hq
    have hsize : 256 ≤ j := Nat.le_trans (by decide : 256 ≤ need 256) hneed
    -- the buffer is cleared inside its payload
    have hb' : HeapBlocks { h2 with mem := fill h2.mem q.toNat 0 256 } bs' :=
      hb.store rfl fun x hx => by
        have := hx.2 q j hj
        exact fill_out _ _ _ _ _ (by omega)
    obtain ⟨hs, hc⟩ := hnew ((k.enter.withNode h2 f (fileNode (argName args) 256 q)).withMem
      (fill h2.mem q.toNat 0 256)) (fileNode (argName args) 256 q) hb' rfl rfl rfl (fun _ _ => rfl)
      rfl rfl (argName_take_no_nul args) (.inr ⟨rfl, rfl⟩)
    have hself : ((k.enter.withNode h2 f (fileNode (argName args) 256 q)).withMem
        (fill h2.mem q.toNat 0 256)).node f = fileNode (argName args) 256 q := Function.update_self ..
    exact Effect.offered h hout (SameNodes.trans (.of_eq (enter_root k) (enter_node k)
      (enter_slot k)) hs) hlift hc (by rw [hself]; rfl) (kids_eq_nil (by rw [hself]; rfl)) ⟨.inl rfl, hargs⟩
      e' _ _

theorem cmdMkdir_effect (h : Census k bs N born) :
    Yields (cmdMkdir k args) (Effect k bs N born .mkdir args) := by
  obtain ⟨henter, hN, hd⟩ := h.enter
  intro k' e
  cases hargs : noArgs args with
  | true =>
    rw [cmdMkdir_usage hargs] at e
    cases e
    exact Effect.printed h (.usage hargs) _ _
  | false =>
    obtain ⟨f, h1, e1⟩ := kmalloc_returns h.blocks sizeofFSNode
    obtain ⟨bs1, hb1, _⟩ := kmalloc_fresh h.blocks e1
    by_cases hf : f = 0
    · rw [hf] at e1
      rw [cmdMkdir_null hargs e1] at e
      cases e
      exact Effect.refused h (.failed rfl (by rw [Command.sizes, hargs]; exact grants_null e1 _)) e1
    obtain ⟨q, h2, e2⟩ := kmalloc_returns hb1 sizeofChildren
    rw [cmdMkdir_eq hargs e1 hf e2] at e
    obtain ⟨k2, e', rfl⟩ := map_eq_ok e
    rw [← enter_heap k] at e1
    obtain ⟨bs', hb, hlift, _, hout, hnew⟩ := henter.create e1 hf e2
    obtain ⟨hs, hc⟩ := hnew (k.enter.withDir h2 f q (argName args))
      (newNode (argName args) .directory q) hb rfl rfl rfl (fun a ha => withDir_slot _ _ _ _ ha)
      rfl rfl (argName_take_no_nul args) (.inl ⟨rfl, rfl⟩)
    have hself : (k.enter.withDir h2 f q (argName args)).node f
        = newNode (argName args) .directory q := Function.update_self ..
    exact Effect.offered h hout (SameNodes.trans (.of_eq (enter_root k) (enter_node k)
      (enter_slot k)) hs) hlift hc (by rw [hself]; rfl) (kids_eq_nil (by rw [hself]; rfl)) ⟨.inr rfl, hargs⟩
      e' _ _

/-! ## lookups, and the commands that use them -/

/-- `fs_find_child` returns on a directory of the census -/
theorem Census.find (h : Census k bs N born) (hp : p ∈ N) (hd : (k.node p).type = .directory)
    (name : List Byte) : fsFindChild k p name = .ok (childNamed k p name) := by
  unfold fsFindChild childNamed
  rw [if_neg (not_or.mpr ⟨h.ne_zero hp, not_not.mpr hd⟩)]
  by_cases h0 : (k.node p).childCount = 0
  · rw [kids_eq_nil h0, h0]
    rfl
  · exact findNamed_eq _ (mt (h.empty p hp) h0) _ _ fun c hc => h.ne_zero (h.younger p hp c hc).1

theorem Census.findEnter (h : Census k bs N born) (name : List Byte) :
    fsFindChild k.enter k.workDir name = .ok (childNamed k k.workDir name) := by
  obtain ⟨henter, hN, hd⟩ := h.enter
  rw [← childNamed_enter]
  exact henter.find hN hd name

theorem Census.childNamed_mem (h : Census k bs N born) (hp : p ∈ N) {name : List Byte}
    (h0 : childNamed k p name ≠ 0) : childNamed k p name ∈ N :=
  (h.younger p hp _ (FirstKernel.childNamed_mem h0).1).1

/-- the child found leaves the current directory -/
theorem removeNamed_found (h : Census k bs N born) {type : FSNodeType} (usage removed missing : String)
    (hr : Removable k type args) (hcmd : cmd.removes = some type) :
    Yields (removeNamed type usage removed missing k args) fun k' =>
      Effect k bs N born cmd args k' ∧ Census k' bs N born ∧
      kids k' k.workDir = (kids k k.workDir).erase (childNamed k k.workDir (argName args)) ∧
      ∀ p, (k'.node p).name = (k.node p).name ∧ (k'.node p).type = (k.node p).type := by
  obtain ⟨hargs, hx, ht⟩ := id hr
  obtain ⟨henter, hN, _⟩ := h.enter
  have hname : args.elim [] Subtype.val = argName args := rfl
  have hfound : childNamed k k.workDir (argName args) ≠ 0 ∧
      (k.enter.node (childNamed k k.workDir (argName args))).type = type := by
    rw [enter_node]
    exact ⟨hx, ht⟩
  have hfind : fsFindChild k.enter k.enter.currentDir (argName args) = _ := h.findEnter _
  unfold removeNamed
  simp only [hargs, hname, if_neg Bool.false_ne_true, hfind, bind_ok, if_pos hfound]
  refine ((thins henter removeBound).1 k.enter k.workDir _ (Thinned.refl _) hN).bind
    fun k2 ⟨hthin, hlist, _⟩ => .pure ?_
  rw [kids_enter] at hlist
  have hnode : ∀ p, (k2.node p).name = (k.node p).name ∧ (k2.node p).type = (k.node p).type := by
    intro p
    rw [hthin.node p, enter_node]
    exact ⟨rfl, rfl⟩
  have hc := (henter.thin hthin).printf removed (argText args)
  refine ⟨.removed type hcmd hr hlist (fun p hp => ?_) (fun p => (hnode p).1) ?_ hc, hc, hlist, hnode⟩
  · rw [← kids_enter k]
    exact hthin.kids p hp
  · exact hthin.root.trans (enter_root k)

theorem removeNamed_effect (h : Census k bs N born) {type : FSNodeType} (usage removed missing : String)
    (hcmd : cmd.removes = some type) :
    Yields (removeNamed type usage removed missing k args) (Effect k bs N born cmd args) := by
  by_cases hr : Removable k type args
  · exact (removeNamed_found h usage removed missing hr hcmd).mono fun _ hk => hk.1
  · have hname : args.elim [] Subtype.val = argName args := rfl
    have hfind : fsFindChild k.enter k.enter.currentDir (argName args) = _ := h.findEnter _
    unfold removeNamed
    refine .ite (fun hargs => .pure (Effect.printed h (.usage hargs) _ _)) fun hargs => ?_
    simp only [hname, hfind, bind_ok]
    refine .ite (fun hfound => absurd ⟨?_, hfound.1, ?_⟩ hr) fun _ =>
      .pure (Effect.printed h (.missing hcmd hr) _ _)
    · exact Bool.eq_false_iff.mpr hargs
    · rw [← enter_node k]
      exact hfound.2

theorem cmdCd_effect (h : Census k bs N born) :
    Yields (cmdCd k args) (Effect k bs N born .cd args) := by
  obtain ⟨henter, hN, hd⟩ := h.enter
  have hmove : ∀ q, q ∈ N → (k.enter.node q).type = .directory →
      Effect k bs N born .cd args { k.enter with currentDir := q } := by
    intro q hq ht
    rw [enter_node] at ht
    exact Effect.said h (.keeps (.inl rfl)) (.of_eq rfl rfl rfl) henter.blocks (.inr ⟨hq, ht⟩)
  unfold cmdCd
  refine .ite (fun _ => .pure (Effect.printed h (.keeps (.inl rfl)) _ _)) fun _ => ?_
  refine .ite (fun _ => ?_) fun _ => ?_
  · refine .ite (fun hup => .pure ?_) fun _ => .pure (Effect.printed h (.keeps (.inl rfl)) _ _)
    obtain ⟨h1, h2⟩ := (henter.parent _ hN).resolve_left hup.2
    exact hmove _ h1 h2
  · have hfind : fsFindChild k.enter k.enter.currentDir (args.elim [] Subtype.val) = _ :=
      h.findEnter _
    simp only [hfind, bind_ok]
    refine .ite (fun hfound => .pure ?_) fun _ => .pure (Effect.printed h (.keeps (.inl rfl)) _ _)
    exact hmove _ (h.childNamed_mem hN hfound.1) hfound.2

/-- the loop of `ls` prints -/
theorem lsLoop_yields (array : Word) (n i : Nat) (k : Kernel) : Yields (lsLoop array n i k) fun k' =>
    ∃ out, k' = { k with heap := { k.heap with console := out } } := by
  induction n generalizing i k with
  | zero => exact .pure ⟨k.heap.console, rfl⟩
  | succ n ih =>
    rw [lsLoop]
    refine (Yields.trivial _).bind fun _ _ => (Yields.trivial _).bind fun _ _ => ?_
    refine (ih (i + 1) (k.printf _ _)).mono ?_
    rintro k' ⟨out, rfl⟩
    exact ⟨out, rfl⟩

theorem cmdLs_effect (h : Census k bs N born) :
    Yields (cmdLs k args) (Effect k bs N born .ls args) := by
  obtain ⟨henter, hN, hd⟩ := h.enter
  rw [enter_node] at hd
  unfold cmdLs
  refine (Yields.trivial _).bind fun _ _ => ?_
  refine (lsLoop_yields _ _ _ k.enter).bind fun k1 ⟨out, e⟩ => .pure ?_
  rw [e]
  exact Effect.said h (.keeps (.inr rfl)) (.of_eq rfl rfl rfl) (henter.blocks.store rfl fun _ _ => rfl)
    (.inr ⟨hN, hd⟩)

/-- **A command that returns did one of the four.** -/
theorem command_effect (h : Census k bs N born) (cmd : Command) (args : Option CString) :
    Yields (cmd.exec k args) (Effect k bs N born cmd args) := by
  cases cmd with
  | touch => exact cmdTouch_effect h
  | mkdir => exact cmdMkdir_effect h
  | rm => exact removeNamed_effect h _ _ _ rfl
  | rmdir => exact removeNamed_effect h _ _ _ rfl
  | cd => exact cmdCd_effect h
  | ls => exact cmdLs_effect h

end

/-! ## runs -/

/-- the commands with any arguments, from `fs_init` on; an allocation may fail -/
def shellRuns : Run.System Kernel (Command × Option CString) where
  init k := ∃ s, fsInit (Kernel.boot s) = .ok k
  step k op k' := op.1.exec k op.2 = .ok k'

/-- the fresh heap has room for the root and its array -/
theorem boot_allocations (s : Machine) : ∃ f h1 q h2,
    kmalloc (initHeap s) sizeofFSNode = .ok (f, h1) ∧ f ≠ 0 ∧
      kmalloc h1 sizeofChildren = .ok (q, h2) ∧ q ≠ 0 := by
  have ha1 : alloc 12 16 (need sizeofFSNode) [initBlock] = some (0x00800000,
      [⟨0x00800000, 96, false⟩, ⟨0x0080006C, 0x007FFF88, true⟩]) := rfl
  have ha2 : alloc 12 16 (need sizeofChildren) [⟨0x00800000, 96, false⟩, ⟨0x0080006C, 0x007FFF88, true⟩]
      = some (0x0080006C, [⟨0x00800000, 96, false⟩, ⟨0x0080006C, 128, false⟩,
        ⟨0x008000F8, 0x007FFEFC, true⟩]) := rfl
  obtain ⟨f, h1, e1, hf, hb1, _⟩ := kmalloc_some (initHeap_blocks s) (by decide) ha1
  obtain ⟨q, h2, e2, hq, _⟩ := kmalloc_some hb1 (by decide) ha2
  refine ⟨f, h1, q, h2, e1, fun e => ?_, e2, fun e => ?_⟩
  · rw [e] at hf
    exact absurd hf (by decide)
  · rw [e] at hq
    exact absurd hq (by decide)

/-- the fresh heap has no block in use -/
theorem ownership_start (k : Kernel) : Ownership k [initBlock] ∅ where
  live p hp := False.elim hp
  array p hp := False.elim hp
  arrays p hp := False.elim hp
  buffer p hp := False.elim hp
  struct p hp := False.elim hp
  owner q j hq := by
    obtain ⟨b, hb, hfree, _⟩ := hq
    rw [List.mem_singleton.mp hb] at hfree
    cases hfree

/-- at the start the root is the only node -/
theorem census_init {k : Kernel} {s : Machine} (e : fsInit (Kernel.boot s) = .ok k) :
    ∃ bs, Census k bs {k.root} (fun _ => 0) ∧ kids k k.root = [] := by
  obtain ⟨f, h1, q, h2, e1, hf, e2, hq⟩ := boot_allocations s
  obtain ⟨bs, hb, _, _, _, _, hown⟩ :=
    (ownership_start (Kernel.boot s)).create (initHeap_blocks s) e1 hf e2
  have e3 : fsCreateNode (Kernel.boot s) (str "/") .directory
      = .ok (f, (Kernel.boot s).withDir h2 f q (str "/")) := fsCreateNode_dir e1 hf e2
  unfold fsInit at e
  rw [e3, bind_ok] at e
  simp only [if_neg hf] at e
  cases e
  let k1 : Kernel := { (Kernel.boot s).withDir h2 f q (str "/") with root := f }
  have hself : k1.node f = newNode (str "/") .directory q := Function.update_self ..
  have hnil : kids k1 f = [] := kids_eq_nil (by rw [hself]; rfl)
  have hroot : Ownership k1 bs {f} := by
    have h := hown k1 (newNode (str "/") .directory q) rfl (.inl ⟨rfl, rfl⟩)
    rw [insert_empty_eq] at h
    exact h
  refine ⟨bs, Census.printf (k := k1) ⟨hroot, hb, ?_, ?_, ?_, ?_, ?_, ?_, ?_, .inl rfl⟩ _ _, hnil⟩
  · intro p (hp : p = f) _
    show (k1.node p).childCount = 0
    rw [hp, hself]
    rfl
  · intro p (hp : p = f) c hc
    rw [hp, show kids _ f = [] from hnil] at hc
    cases hc
  · intro p (hp : p = f)
    rw [hp, show kids _ f = [] from hnil]
    exact List.nodup_nil
  · intro p (hp : p = f) _
    show (k1.node p).type = _
    rw [hp, hself]
    rfl
  · intro p (hp : p = f)
    left
    show (k1.node p).parent = 0
    rw [hp, hself]
    rfl
  · intro p (hp : p = f)
    show (0 : Byte) ∉ (k1.node p).name
    rw [hp, hself]
    show (0 : Byte) ∉ (str "/").take (sizeofName - 1)
    decide
  · refine ⟨rfl, ?_⟩
    show (k1.node f).type = _
    rw [hself]
    rfl

theorem Effect.census {k k' : Kernel} {bs : List Block} {N : Set Word} {born : Word → Nat}
    {cmd : Command} {args : Option CString} (h : Effect k bs N born cmd args k') :
    ∃ bs' N' born', Census k' bs' N' born' := by
  cases h with
  | quiet _ _ hc => exact ⟨_, _, _, hc⟩
  | orphan _ _ _ _ _ _ _ hc => exact ⟨_, _, _, hc⟩
  | added _ _ _ _ _ _ _ _ hc => exact ⟨_, _, _, hc⟩
  | removed _ _ _ _ _ _ _ hc => exact ⟨_, _, _, hc⟩

/-- **Every state of a run has a census.** -/
theorem census_reachable {k : Kernel} (h : Run.Reachable shellRuns k) :
    ∃ bs N born, Census k bs N born := by
  refine h.invariant ?_ ?_
  · intro k ⟨s, e⟩
    obtain ⟨bs, hc, _⟩ := census_init e
    exact ⟨_, _, _, hc⟩
  · intro k op k' _ ⟨bs, N, born, hc⟩ e
    exact (command_effect hc op.1 op.2 k' e).census

end FirstKernel
