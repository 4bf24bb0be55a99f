import FirstKernel.Fs.Create
import FirstKernel.Fs.Lookup
import FirstKernel.Fs.Remove
import FirstKernel.Lib.Run

/-!
# Runs of the shell commands on the tree

A step is `touch`, `mkdir`, `rm`, `rmdir`, `cd` or `ls` with any argument, when the allocations it
makes succeed.

* `command_spec`   each command returns, and keeps the tree grounded and the current directory in it;
* `cd_back`        `cd ..` undoes a `cd` to a child;
* `fs_tree`        the tree in every run.
-/

namespace FirstKernel
open ByteMem Cells Arbor Tiling

inductive Command where
  | touch
  | mkdir
  | rm
  | rmdir
  | cd
  | ls
deriving DecidableEq, Repr

def Command.exec : Command → Kernel → Option CString → Res Kernel
  | .touch => cmdTouch
  | .mkdir => cmdMkdir
  | .rm => cmdRm
  | .rmdir => cmdRmdir
  | .cd => cmdCd
  | .ls => cmdLs

/-- the sizes of the blocks a command asks `kmalloc` for -/
def Command.sizes (c : Command) (args : Option CString) : List Word :=
  if noArgs args then [] else
    match c with
    | .touch => [sizeofFSNode, 256]
    | .mkdir => [sizeofFSNode, sizeofChildren]
    | _ => []

def commands : Run.System Kernel (Command × Option CString) where
  init k := ∃ s, fsInit (Kernel.boot s) = .ok k ∧
    grants (initHeap s) [sizeofFSNode, sizeofChildren] = true
  step k op k' := grants k.heap (op.1.sizes op.2) = true ∧ op.1.exec k op.2 = .ok k'

/-- a grounded tree, and a current directory in it once it is set -/
structure Shelled (k : Kernel) (bs : List Block) : Prop where
  tree : Grounded k bs
  current : k.currentDir ≠ 0 → InTree k k.currentDir ∧ (k.node k.currentDir).type = .directory

section
variable {k k' : Kernel} {bs bs' : List Block} {p q f : Word} {args : Option CString}

/-! ## allocations -/

theorem grants_two {s : Machine} {m n : Word} (h : grants s [m, n] = true) :
    ∃ p s1 q s2, kmalloc s m = .ok (p, s1) ∧ p ≠ 0 ∧ kmalloc s1 n = .ok (q, s2) ∧ q ≠ 0 := by
  rw [grants] at h
  cases e1 : kmalloc s m with
  | error _ =>
    rw [e1] at h
    cases h
  | ok r =>
    obtain ⟨p, s1⟩ := r
    rw [e1] at h
    obtain ⟨hp, h⟩ := Bool.and_eq_true_iff.mp h
    rw [grants] at h
    cases e2 : kmalloc s1 n with
    | error _ =>
      rw [e2] at h
      cases h
    | ok r =>
      obtain ⟨q, s2⟩ := r
      rw [e2] at h
      exact ⟨p, s1, q, s2, rfl, of_decide_eq_true hp, e2,
        of_decide_eq_true (Bool.and_eq_true_iff.mp h).1⟩

/-! ## the current directory -/

/-- after the first line of a command the current directory is set -/
theorem Shelled.enter (h : Shelled k bs) :
    Shelled k.enter bs ∧ InTree k.enter k.enter.currentDir ∧
      (k.enter.node k.enter.currentDir).type = .directory := by
  have hs : SameTree k k.enter := .of_eq (enter_root k) (enter_node k) (enter_slot k)
  have hcur : InTree k.enter k.enter.currentDir ∧
      (k.enter.node k.enter.currentDir).type = .directory := by
    rw [hs.inTree, enter_node]
    by_cases h0 : k.currentDir = 0
    · have e : k.enter.currentDir = k.root := by
        unfold Kernel.enter
        rw [if_pos h0]
      rw [e]
      exact ⟨.root, h.tree.wf.root_dir⟩
    · have e : k.enter = k := by
        unfold Kernel.enter
        rw [if_neg h0]
      rw [e]
      exact h.current h0
  exact ⟨⟨h.tree.enter, fun _ => hcur⟩, hcur⟩

theorem Shelled.same (h : Shelled k bs) (hs : SameTree k k') (hb : HeapBlocks k'.heap bs')
    (hlift : ∀ p n, Live bs p n → Live bs' p n) (hc : k'.currentDir = k.currentDir) :
    Shelled k' bs' := by
  refine ⟨h.tree.same hs hb hlift, fun h0 => ?_⟩
  rw [hc] at h0 ⊢
  obtain ⟨h1, h2⟩ := h.current h0
  exact ⟨hs.inTree.mpr h1, by rw [hs.node _ h1]; exact h2⟩

theorem Shelled.printf (h : Shelled k bs) (format : String) (args : List Arg) :
    Shelled (k.printf format args) bs :=
  h.same (.of_eq rfl rfl rfl) (h.tree.blocks.store rfl fun _ _ => rfl) (fun _ _ hn => hn) rfl

/-! ## `touch` and `mkdir` -/

/-- a detached node is offered to the current directory, which may be full -/
theorem Shelled.addChild (h : Shelled k bs) (hf : Detached k bs f) (hp : InTree k p)
    (hd : (k.node p).type = .directory) :
    ∃ k', fsAddChild k p f = .ok k' ∧ Shelled k' bs := by
  by_cases hroom : (k.node p).childCount < maxChildren
  · obtain ⟨e, hg, hin⟩ := h.tree.attach hf hp hd hroom
    refine ⟨_, e, hg, fun h0 => ?_⟩
    obtain ⟨h1, h2⟩ := h.current h0
    refine ⟨(hin _).mpr (.inl h1), ?_⟩
    rw [(attach_sameFiles k p f).type]
    exact h2
  · exact ⟨_, fsAddChild_full (h.tree.wf.isDir hp hd) (Nat.le_of_not_lt hroom), h.printf _ _⟩

/-- the same for a node just made, with the current directory of the state before -/
theorem addCreated (hcur : InTree k k.currentDir)
    (hd : (k.node k.currentDir).type = .directory) (hs : SameTree k k') (hg : Grounded k' bs')
    (hf : Detached k' bs' f) (hc : k'.currentDir = k.currentDir) :
    ∃ k2, fsAddChild k' k.currentDir f = .ok k2 ∧ Shelled k2 bs' := by
  have hcur' := hs.inTree.mpr hcur
  have hd' : (k'.node k.currentDir).type = .directory := by
    rw [hs.node _ hcur]
    exact hd
  refine Shelled.addChild ⟨hg, fun _ => ?_⟩ hf hcur' hd'
  rw [hc]
  exact ⟨hcur', hd'⟩

theorem cmdTouch_spec (h : Shelled k bs) (hg : grants k.heap (Command.touch.sizes args) = true) :
    ∃ k' bs', cmdTouch k args = .ok k' ∧ Shelled k' bs' := by
  obtain ⟨henter, hcur, hd⟩ := h.enter
  cases ha : noArgs args with
  | true => exact ⟨_, bs, cmdTouch_usage ha, henter.printf _ _⟩
  | false =>
    unfold Command.sizes at hg
    rw [ha] at hg
    obtain ⟨f, h1, q, h2, e1, hf, e2, hq⟩ := grants_two hg
    rw [cmdTouch_eq ha e1 hf e2 hq]
    rw [← enter_heap k] at e1
    obtain ⟨bs', hb, hlive, hnew⟩ := henter.tree.create e1 hf e2
    obtain ⟨j, hj, hneed⟩ := hlive hq
    have hsize : 256 ≤ j := Nat.le_trans (by decide : 256 ≤ need 256) hneed
    -- the buffer is cleared inside its payload
    have hb' : HeapBlocks { h2 with mem := fill h2.mem q.toNat 0 256 } bs' :=
      hb.store rfl fun x hx => by
        have := hx.2 q j hj
        exact fill_out _ _ _ _ _ (by omega)
    obtain ⟨hs, hgr, _, hdet⟩ := hnew ((k.enter.withNode h2 f (fileNode (argName args) 256 q)).withMem
      (fill h2.mem q.toNat 0 256)) (fileNode (argName args) 256 q) hb' rfl rfl fun _ _ => rfl
    obtain ⟨k2, e, hk2⟩ := addCreated hcur hd hs hgr (hdet rfl FSNodeType.noConfusion) rfl
    refine ⟨_, bs', ?_, hk2.printf "File '%s' created.\n" (argText args)⟩
    rw [e]
    rfl

theorem cmdMkdir_spec (h : Shelled k bs) (hg : grants k.heap (Command.mkdir.sizes args) = true) :
    ∃ k' bs', cmdMkdir k args = .ok k' ∧ Shelled k' bs' := by
  obtain ⟨henter, hcur, hd⟩ := h.enter
  cases ha : noArgs args with
  | true => exact ⟨_, bs, cmdMkdir_usage ha, henter.printf _ _⟩
  | false =>
    unfold Command.sizes at hg
    rw [ha] at hg
    obtain ⟨f, h1, q, h2, e1, hf, e2, hq⟩ := grants_two hg
    rw [cmdMkdir_eq ha e1 hf e2]
    rw [← enter_heap k] at e1
    obtain ⟨bs', hb, _, hnew⟩ := henter.tree.create e1 hf e2
    obtain ⟨hs, hgr, _, hdet⟩ := hnew (k.enter.withDir h2 f q (argName args))
      (newNode (argName args) .directory q) hb rfl rfl fun a ha => withDir_slot _ _ _ _ ha
    obtain ⟨k2, e, hk2⟩ := addCreated hcur hd hs hgr (hdet rfl fun _ => ⟨hq, rfl⟩) rfl
    refine ⟨_, bs', ?_, hk2.printf "Directory '%s' created.\n" (argText args)⟩
    rw [e]
    rfl

/-! ## `rm` and `rmdir` -/

theorem removeNamed_spec (h : Shelled k bs) (type : FSNodeType) (usage removed missing : String)
    (args : Option CString) :
    ∃ k', removeNamed type usage removed missing k args = .ok k' ∧ Shelled k' bs := by
  obtain ⟨henter, hcur, hd⟩ := h.enter
  have hwf := henter.tree.wf
  unfold removeNamed
  cases ha : noArgs args with
  | true => exact ⟨_, rfl, henter.printf _ _⟩
  | false =>
    simp only [fsFindChild_eq hwf hcur, bind_ok]
    by_cases hfound : childNamed k.enter k.enter.currentDir (args.elim [] Subtype.val) ≠ 0 ∧
        (k.enter.node (childNamed k.enter k.enter.currentDir (args.elim [] Subtype.val))).type = type
    · have hmem := (childNamed_mem hfound.1).1
      obtain ⟨k2, e, hpr, _, hframe⟩ := fsRemoveChild_spec hwf hcur hmem
      obtain ⟨hwf2, hin⟩ := hwf.prune hpr
      have hcur2 := inTree_of_remove hwf hcur hmem hpr fun q hq hne hb => (hframe q hq hne hb).2
      have hg : Grounded k2 bs := by
        refine ⟨hwf2, by rw [hpr.heap]; exact henter.tree.blocks, fun q hq => ?_, fun q hq => ?_⟩
        · exact henter.tree.node q (hin q hq)
        · rw [hpr.type, hpr.children]
          exact henter.tree.array q (hin q hq)
      have hk2 : Shelled k2 bs := by
        refine ⟨hg, fun _ => ?_⟩
        rw [hpr.currentDir, hpr.type]
        exact ⟨hcur2, hd⟩
      refine ⟨k2.printf removed (argText args), ?_, hk2.printf _ _⟩
      rw [if_pos hfound, e]
      rfl
    · rw [if_neg hfound]
      exact ⟨_, rfl, henter.printf _ _⟩

/-! ## `cd` and `ls` -/

theorem cmdCd_spec (h : Shelled k bs) (args : Option CString) :
    ∃ k', cmdCd k args = .ok k' ∧ Shelled k' bs := by
  obtain ⟨henter, hcur, hd⟩ := h.enter
  have hwf := henter.tree.wf
  unfold cmdCd
  cases ha : noArgs args with
  | true => exact ⟨_, rfl, henter.printf _ _⟩
  | false =>
    have hmove : ∀ q, InTree k.enter q → (k.enter.node q).type = .directory →
        Shelled { k.enter with currentDir := q } bs := by
      intro q hq ht
      have hs : SameTree k.enter { k.enter with currentDir := q } := .of_eq rfl rfl rfl
      exact ⟨henter.tree.same_blocks hs henter.tree.blocks, fun _ => ⟨hs.inTree.mpr hq, ht⟩⟩
    by_cases hdots : strcmp (args.elim [] Subtype.val) (str "..") = 0
    · simp only [if_pos hdots]
      by_cases hup : k.enter.currentDir ≠ 0 ∧ (k.enter.node k.enter.currentDir).parent ≠ 0
      · rw [if_pos hup]
        refine ⟨_, rfl, ?_⟩
        -- the parent of a node of the tree lists it
        rcases hcur.cases with e | ⟨q, hq, hc⟩
        · rw [e] at hup
          exact absurd hwf.root_parent hup.2
        · rw [((hwf.node q hq).entry _ hc).2]
          exact hmove q hq (hwf.dir_of_mem hq hc)
      · rw [if_neg hup]
        exact ⟨_, rfl, henter.printf _ _⟩
    · simp only [if_neg hdots, fsFindChild_eq hwf hcur, bind_ok]
      by_cases hfound : childNamed k.enter k.enter.currentDir (args.elim [] Subtype.val) ≠ 0 ∧
          (k.enter.node (childNamed k.enter k.enter.currentDir
            (args.elim [] Subtype.val))).type = .directory
      · rw [if_pos hfound]
        exact ⟨_, rfl, hmove _ (inTree_childNamed hcur hfound.1) hfound.2⟩
      · rw [if_neg hfound]
        exact ⟨_, rfl, henter.printf _ _⟩

theorem Kernel.enter_of_ne (h : k.currentDir ≠ 0) : k.enter = k := by
  unfold Kernel.enter
  rw [if_neg h]

/-- a `cd` to a child that printed nothing moved there -/
theorem cmdCd_inv (h : Shelled k bs) {d : CString} (hd : d.val ≠ str "..")
    (e : cmdCd k (some d) = .ok k') (hc : k'.heap.console = k.heap.console) :
    childNamed k.enter k.enter.currentDir d.val ≠ 0 ∧
      k' = { k.enter with currentDir := childNamed k.enter k.enter.currentDir d.val } := by
  obtain ⟨henter, hcur, _⟩ := h.enter
  have hprint : ∀ fmt args, (k.enter.printf fmt args).heap.console ≠ k.heap.console := by
    intro fmt args h'
    have : (k.enter.heap.console ++ [Printf.mk fmt args]).length = k.heap.console.length :=
      congrArg List.length h'
    rw [enter_heap, List.length_append] at this
    exact absurd this (by simp)
  have hdots : ¬ strcmp d.val (str "..") = 0 := fun h0 =>
    hd ((strcmp_eq_zero d.property (by decide)).mp h0)
  unfold cmdCd at e
  cases ha : noArgs (some d) with
  | true =>
    rw [ha] at e
    cases e
    exact absurd hc (hprint _ _)
  | false =>
    rw [ha] at e
    have hname : (some d : Option CString).elim [] Subtype.val = d.val := rfl
    simp only [hname, if_neg hdots, fsFindChild_eq henter.tree.wf hcur, bind_ok] at e
    by_cases hfound : childNamed k.enter k.enter.currentDir d.val ≠ 0 ∧
        (k.enter.node (childNamed k.enter k.enter.currentDir d.val)).type = .directory
    · rw [if_pos hfound] at e
      cases e
      exact ⟨hfound.1, rfl⟩
    · rw [if_neg hfound] at e
      cases e
      exact absurd hc (hprint _ _)

def dotDot : CString := ⟨str "..", by decide⟩

/-- **`cd ..` undoes a `cd` to a child.** -/
theorem cd_back (h : Shelled k bs) {d : CString} (hd : d.val ≠ str "..")
    (e : cmdCd k (some d) = .ok k') (hc : k'.heap.console = k.heap.console) :
    ∃ k2, cmdCd k' (some dotDot) = .ok k2 ∧ k2.currentDir = k.enter.currentDir := by
  obtain ⟨henter, hcur, _⟩ := h.enter
  obtain ⟨hfound, rfl⟩ := cmdCd_inv h hd e hc
  have hparent := ((henter.tree.wf.node _ hcur).entry _ (childNamed_mem hfound).1).2
  have hne : k.enter.currentDir ≠ 0 := henter.tree.wf.ne_zero hcur
  have hdots : strcmp (str "..") (str "..") = 0 := by decide
  refine ⟨{ k.enter with currentDir := k.enter.currentDir }, ?_, rfl⟩
  unfold cmdCd
  rw [Kernel.enter_of_ne hfound]
  have hname : (some dotDot : Option CString).elim [] Subtype.val = str ".." := rfl
  have ha : ¬ noArgs (some dotDot) = true := Bool.false_ne_true
  simp only [if_neg ha, hname, if_pos hdots, hparent]
  rw [if_pos ⟨hfound, hne⟩]
  rfl

theorem lsLoop_spec {array : Word} (ha : array ≠ 0) (n i : Nat) (k : Kernel)
    (hc : ∀ c ∈ loadN (k.slot array) i n, c ≠ 0) :
    ∃ out, lsLoop array n i k = .ok { k with heap := { k.heap with console := out } } := by
  induction n generalizing i k with
  | zero => exact ⟨k.heap.console, rfl⟩
  | succ n ih =>
    rw [loadN_cons] at hc
    rw [lsLoop, deref_ok ha, bind_ok]
    simp only [deref_ok (hc _ List.mem_cons_self), bind_ok]
    obtain ⟨out, e⟩ := ih (i + 1) (k.printf (if (k.node (k.slot array i)).type = .file then "%s  "
      else "%s/  ") [.str (k.node (k.slot array i)).name]) fun c hm => hc c (List.mem_cons_of_mem _ hm)
    exact ⟨out, e⟩

theorem cmdLs_spec (h : Shelled k bs) (args : Option CString) :
    ∃ k', cmdLs k args = .ok k' ∧ Shelled k' bs := by
  obtain ⟨henter, hcur, hd⟩ := h.enter
  have hok := henter.tree.wf.node _ hcur
  obtain ⟨out, e⟩ := lsLoop_spec (hok.array hd) (k.enter.node k.enter.currentDir).childCount 0 k.enter
    fun c hc => (hok.entry c hc).1
  have hout : Shelled { k.enter with heap := { k.enter.heap with console := out } } bs :=
    henter.same (.of_eq rfl rfl rfl) (henter.tree.blocks.store rfl fun _ _ => rfl) (fun _ _ hn => hn)
      rfl
  refine ⟨_, ?_, hout.printf "\n" []⟩
  unfold cmdLs
  simp only [deref_ok (henter.tree.wf.ne_zero hcur), bind_ok, e]
  rfl

/-- **Each command returns and keeps the tree.** -/
theorem command_spec (h : Shelled k bs) (c : Command) (args : Option CString)
    (hg : grants k.heap (c.sizes args) = true) :
    ∃ k' bs', c.exec k args = .ok k' ∧ Shelled k' bs' := by
  cases c with
  | touch => exact cmdTouch_spec h hg
  | mkdir => exact cmdMkdir_spec h hg
  | rm =>
    obtain ⟨k', e, hk⟩ := removeNamed_spec h .file "Usage: rm <filename>\n" "File '%s' removed.\n"
      "rm: No such file '%s'\n" args
    exact ⟨k', bs, e, hk⟩
  | rmdir =>
    obtain ⟨k', e, hk⟩ := removeNamed_spec h .directory "Usage: rmdir <dirname>\n"
      "Directory '%s' removed.\n" "rmdir: No such directory '%s'\n" args
    exact ⟨k', bs, e, hk⟩
  | cd =>
    obtain ⟨k', e, hk⟩ := cmdCd_spec h args
    exact ⟨k', bs, e, hk⟩
  | ls =>
    obtain ⟨k', e, hk⟩ := cmdLs_spec h args
    exact ⟨k', bs, e, hk⟩

/-! ## runs -/

/-- a root without entries -/
theorem wellFormed_single (h0 : k.root ≠ 0) (hd : (k.node k.root).type = .directory)
    (hp : (k.node k.root).parent = 0) (hc : (k.node k.root).childCount = 0)
    (ha : (k.node k.root).children ≠ 0) : WellFormed k ∧ ∀ q, InTree k q → q = k.root := by
  have hin : ∀ q, InTree k q → q = k.root := by
    intro q hq
    induction hq with
    | root => rfl
    | child _ hm ih =>
      rw [ih, kids_eq_nil hc] at hm
      cases hm
  have hnil : ∀ q, InTree k q → kids k q = [] := fun q hq => by rw [hin q hq, kids_eq_nil hc]
  refine ⟨⟨h0, hd, hp, ⟨fun p hp hr => ?_, fun p hp => ?_, fun p q c hp _ hm => ?_⟩, fun p hp => ?_,
    fun p q hp hq _ _ _ => (hin p hp).trans (hin q hq).symm⟩, hin⟩
  · rw [hnil p hp] at hr
    cases hr
  · rw [hnil p hp]
    exact List.nodup_nil
  · rw [hnil p hp] at hm
    cases hm
  · refine ⟨fun c hm => ?_, ?_, ?_, ?_⟩
    · rw [hnil p hp] at hm
      cases hm
    · rw [hin p hp, hc]
      exact Nat.zero_le _
    · rw [hin p hp]
      exact fun _ => hc
    · rw [hin p hp]
      exact fun _ => ha

theorem shelled_init {s : Machine} (e : fsInit (Kernel.boot s) = .ok k)
    (hg : grants (initHeap s) [sizeofFSNode, sizeofChildren] = true) : ∃ bs, Shelled k bs := by
  obtain ⟨f, h1, q, h2, e1, hf, e2, hq⟩ := grants_two hg
  obtain ⟨bs1, hb1, _, hnew1⟩ := kmalloc_fresh (initHeap_blocks s) e1
  obtain ⟨bs2, hb2, hlift2, hnew2⟩ := kmalloc_fresh hb1 e2
  obtain ⟨⟨i, hi, _⟩, _⟩ := hnew1 hf
  obtain ⟨⟨j, hj, _⟩, _⟩ := hnew2 hq
  have e3 : fsCreateNode (Kernel.boot s) (str "/") .directory
      = .ok (f, (Kernel.boot s).withDir h2 f q (str "/")) := fsCreateNode_dir e1 hf e2
  unfold fsInit at e
  rw [e3, bind_ok] at e
  simp only [if_neg hf] at e
  cases e
  let k1 : Kernel := { (Kernel.boot s).withDir h2 f q (str "/") with root := f }
  have hself : k1.node k1.root = newNode (str "/") .directory q := Function.update_self ..
  obtain ⟨hwf, hin⟩ : WellFormed k1 ∧ ∀ q, InTree k1 q → q = k1.root :=
    wellFormed_single hf (by rw [hself]; rfl) (by rw [hself]; rfl) (by rw [hself]; rfl)
      (by rw [hself]; exact hq)
  have hk1 : Shelled k1 bs2 := by
    refine ⟨⟨hwf, hb2, fun p hp => ?_, fun p hp _ => ?_⟩, fun h0 => absurd rfl h0⟩
    · rw [hin p hp]
      exact ⟨i, hlift2 f i hi⟩
    · rw [hin p hp, hself]
      exact ⟨j, hj⟩
  exact ⟨bs2, hk1.printf "[RAMFS] Filesystem initialized.\n" []⟩

theorem shelled_reachable (h : Run.Reachable commands k) : ∃ bs, Shelled k bs := by
  refine h.invariant ?_ ?_
  · rintro k ⟨s, e, hg⟩
    exact shelled_init e hg
  · rintro k op k' _ ⟨bs, hk⟩ ⟨hg, e⟩
    obtain ⟨k2, bs', e', hk'⟩ := command_spec hk op.1 op.2 hg
    rw [e] at e'
    cases e'
    exact ⟨bs', hk'⟩

/-! ## the tree as it is seen from the root -/

structure FsTree (k : Kernel) : Prop where
  finite : {p | InTree k p}.Finite
  acyclic : ∀ p, InTree k p → ¬ Relation.TransGen (fun a b => b ∈ kids k a) p p
  listedOnce : ∀ c, InTree k c → c ≠ k.root → ∃! e : Word × Nat, InTree k e.1 ∧
    e.2 < (k.node e.1).childCount ∧ k.slot (k.node e.1).children e.2 = c
  rootUnlisted : ∀ p, InTree k p → k.root ∉ kids k p
  maxChildren : ∀ p, InTree k p → (k.node p).childCount ≤ FirstKernel.maxChildren
  nonNull : ∀ p, InTree k p → ∀ c ∈ kids k p, c ≠ 0
  parent : ∀ p, InTree k p → ∀ c ∈ kids k p, (k.node c).parent = p
  rootParent : (k.node k.root).parent = 0
  current : k.currentDir ≠ 0 → InTree k k.currentDir ∧
    (k.node k.currentDir).type = .directory ∧
    ∃ n, (fun p => (k.node p).parent)^[n] k.currentDir = k.root

/-- the parent pointers lead to the root -/
theorem WellFormed.parent_path (h : WellFormed k) (hp : InTree k p) :
    ∃ n, (fun q => (k.node q).parent)^[n] p = k.root := by
  induction hp with
  | root => exact ⟨0, rfl⟩
  | @child q c hq hc ih =>
    obtain ⟨n, hn⟩ := ih
    refine ⟨n + 1, ?_⟩
    rw [Function.iterate_succ_apply]
    simp only [((h.node q hq).entry c hc).2]
    exact hn

theorem WellFormed.listed_once (h : WellFormed k) {c : Word} (hc : InTree k c) (hne : c ≠ k.root) :
    ∃! e : Word × Nat, InTree k e.1 ∧ e.2 < (k.node e.1).childCount ∧
      k.slot (k.node e.1).children e.2 = c := by
  rcases hc.cases with e | ⟨q, hq, hm⟩
  · exact absurd e hne
  obtain ⟨i, hi, hs⟩ := mem_kids.mp hm
  refine ⟨(q, i), ⟨hq, hi, hs⟩, ?_⟩
  rintro ⟨q', i'⟩ ⟨hq', hi', hs'⟩
  have hm' : c ∈ kids k q' := mem_kids.mpr ⟨i', hi', hs'⟩
  have hqq := h.tree.once q' q c hq' hq hm' hm
  subst hqq
  have h1 : i < (kids k q').length := by rw [kids_length]; exact hi
  have h2 : i' < (kids k q').length := by rw [kids_length]; exact hi'
  have hget : (kids k q')[i'] = (kids k q')[i] := by
    rw [kids_getElem, kids_getElem]
    exact hs'.trans hs.symm
  rw [(h.tree.nodup q' hq).getElem_inj_iff.mp hget]

theorem Shelled.fsTree (h : Shelled k bs) : FsTree k where
  finite := Set.toFinite _
  acyclic p hp := h.tree.wf.tree.acyclic hp
  listedOnce c hc hne := h.tree.wf.listed_once hc hne
  rootUnlisted := h.tree.wf.tree.root
  maxChildren p hp := (h.tree.wf.node p hp).count
  nonNull p hp c hc := ((h.tree.wf.node p hp).entry c hc).1
  parent p hp c hc := ((h.tree.wf.node p hp).entry c hc).2
  rootParent := h.tree.wf.root_parent
  current h0 := by
    obtain ⟨h1, h2⟩ := h.current h0
    exact ⟨h1, h2, h.tree.wf.parent_path h1⟩

/-- **In every run the nodes are a tree with the current directory in it**, every command returns, and
`cd ..` undoes a `cd` to a child. -/
theorem fs_tree (k : Kernel) (h : Run.Reachable commands k) : FsTree k ∧
    (∀ c args, grants k.heap (Command.sizes c args) = true → ∃ k', c.exec k args = .ok k') ∧
    ∀ (d : CString) (k1 : Kernel), d.val ≠ str ".." → cmdCd k (some d) = .ok k1 →
      k1.heap.console = k.heap.console →
      ∃ k2, cmdCd k1 (some dotDot) = .ok k2 ∧ k2.currentDir = k.enter.currentDir := by
  obtain ⟨bs, hk⟩ := shelled_reachable h
  refine ⟨hk.fsTree, fun c args hg => ?_, fun d k1 hd e hc => cd_back hk hd e hc⟩
  obtain ⟨k', _, e, _⟩ := command_spec hk c args hg
  exact ⟨k', e⟩

/-- a list of commands, as long as they return with their allocations granted -/
def Kernel.run (k : Kernel) : List (Command × Option CString) → Option Kernel
  | [] => some k
  | (c, args) :: ops =>
    match grants k.heap (c.sizes args), c.exec k args with
    | true, .ok k' => k'.run ops
    | _, _ => none

theorem reachable_commands {ops : List (Command × Option CString)} (h : Run.Reachable commands k)
    (e : k.run ops = some k') : Run.Reachable commands k' := by
  induction ops generalizing k with
  | nil =>
    cases e
    exact h
  | cons op ops ih =>
    obtain ⟨c, args⟩ := op
    unfold Kernel.run at e
    cases hg : grants k.heap (c.sizes args) with
    | false =>
      rw [hg] at e
      cases e
    | true =>
      cases hx : c.exec k args with
      | error _ =>
        rw [hg, hx] at e
        cases e
      | ok k1 =>
        rw [hg, hx] at e
        exact ih (@Run.Reachable.step _ _ _ _ _ (c, args) h ⟨hg, hx⟩) e

/-- `mkdir a`, `cd a`, `touch b` after start-up -/
theorem fs_tree_three : ∃ k, k.currentDir = 0x00800104 ∧ FsTree k := by
  have hrun : ((fsInit (Kernel.boot bootMachine)).toOption.bind fun k => k.run
      [(.mkdir, some ⟨str "a", by decide⟩), (.cd, some ⟨str "a", by decide⟩),
        (.touch, some ⟨str "b", by decide⟩)]).map Kernel.currentDir = some 0x00800104 := by
    decide +kernel
  obtain ⟨k, e, hc⟩ := Option.map_eq_some_iff.mp hrun
  obtain ⟨k0, e0, e⟩ := Option.bind_eq_some_iff.mp e
  have h0 : Run.Reachable commands k0 := .init ⟨bootMachine, toOption_eq_some e0, by decide +kernel⟩
  exact ⟨k, hc, (fs_tree k (reachable_commands h0 e)).1⟩

end

end FirstKernel
