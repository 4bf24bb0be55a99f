import FirstKernel.Fs.Names
import FirstKernel.Heap.Realloc

/-!
# What becomes of the memory of a node

No command frees a block.  `Ledger` keeps beside the kernel whether a run has removed an entry, and
whether it has made a node for a full directory.

* `Effect.blocks`   blocks in use stay in use, and only a new node changes the list;
* `Tally`           a node was lost when one of the two happened;
* `leak_iff`        without nodes for full directories the blocks in use belong to nodes of the tree
                    exactly as long as nothing was removed.
-/

namespace FirstKernel
open ByteMem Cells Tiling Arbor Outcome

/-- `q` is the struct, the array or the buffer of a node of the tree -/
def OfTree (k : Kernel) (q : Word) : Prop :=
  ∃ p, InTree k p ∧ (q = p ∨ q = (k.node p).children ∨ q = (k.node p).data)

def NoLeak (k : Kernel) : Prop :=
  ∃ hs, heapList k.heap = some hs ∧ ∀ q n, InUse hs q n → OfTree k q

structure Ledger where
  k : Kernel
  removed : Prop
  overfull : Prop

/-- the commands with all allocations granted -/
def ledger : Run.System Ledger (Command × Option CString) where
  init t := commands.init t.k ∧ ¬ t.removed ∧ ¬ t.overfull
  step t op t' := commands.step t.k op t'.k ∧
    (t'.removed ↔ t.removed ∨ ∃ type, op.1.removes = some type ∧ Removable t.k type op.2) ∧
    (t'.overfull ↔ t.overfull ∨
      Creates op.1 op.2 ∧ maxChildren ≤ (t.k.node t.k.workDir).childCount)

section
variable {k k' : Kernel} {bs : List Block} {N : Set Word} {born : Word → Nat} {p q f d : Word}
  {args : Option CString} {cmd : Command}

/-! ## blocks -/

/-- **Blocks in use stay in use, and the list changes only for a new node.** -/
theorem Effect.blocks (he : Effect k bs N born cmd args k') :
    ∃ bs', HeapBlocks k'.heap bs' ∧ (∀ p n, Live bs p n → Live bs' p n) ∧
      (¬ Creates cmd args → bs' = bs) := by
  cases he with
  | quiet _ _ hc => exact ⟨bs, hc.blocks, fun _ _ hp => hp, fun _ => rfl⟩
  | orphan _ bs' creates _ _ _ live hc => exact ⟨bs', hc.blocks, live, fun hn => absurd creates hn⟩
  | added _ bs' creates _ _ _ _ live hc => exact ⟨bs', hc.blocks, live, fun hn => absurd creates hn⟩
  | removed _ _ _ _ _ _ _ hc => exact ⟨bs, hc.blocks, fun _ _ hp => hp, fun _ => rfl⟩

/-- nothing leaks as long as all nodes are in the tree -/
theorem Census.noLeak_iff (h : Census k bs N born) : NoLeak k ↔ ¬ ∃ d ∈ N, ¬ InTree k d := by
  constructor
  · intro ⟨hs, hlist, hall⟩ ⟨d, hd, hout⟩
    rw [h.blocks.walk] at hlist
    cases hlist
    obtain ⟨n, hn⟩ := h.live d hd
    obtain ⟨p, hp, e⟩ := hall d n ((inUse_iff h.blocks).mpr hn)
    obtain ⟨h1, h2⟩ := h.struct d hd p (h.inTree hp)
    rcases e with rfl | e | e
    · exact hout hp
    · exact h1 e
    · exact h2 e
  · intro hall
    refine ⟨_, h.blocks.walk, fun q n hq => ?_⟩
    obtain ⟨p, hp, e⟩ := h.owner q n ((inUse_iff h.blocks).mp hq)
    exact ⟨p, by_contra fun hout => hall ⟨p, hp, hout⟩, e⟩

/-! ## nodes in the tree -/

/-- with the same lists the tree has the same nodes -/
theorem Census.inTree_congr (h : Census k bs N born) (hr : k'.root = k.root)
    (hk : ∀ p ∈ N, kids k' p = kids k p) : InTree k' q ↔ InTree k q := by
  unfold InTree
  rw [hr]
  exact Reach.congr fun p hp => hk p (h.inTree hp)

theorem Census.inTree_thinned (h : Census k bs N born) (hr : k'.root = k.root)
    (hk : ∀ p ∈ N, List.Sublist (kids k' p) (kids k p)) (hq : InTree k' q) : InTree k q := by
  unfold InTree at hq
  rw [hr] at hq
  exact hq.mono fun p hp c hc => (hk p (h.inTree hp)).subset hc

/-- a new entry without entries of its own -/
theorem Census.inTree_added (h : Census k bs N born) (hr : k'.root = k.root)
    (hlist : kids k' p = kids k p ++ [f]) (hother : ∀ q ∈ N, q ≠ p → kids k' q = kids k q)
    (hnil : kids k' f = []) : InTree k' q ↔ InTree k q ∨ (q = f ∧ InTree k p) := by
  have hup : ∀ q c, InTree k q → c ∈ kids k q → c ∈ kids k' q := by
    intro q c hq hc
    by_cases hqp : q = p
    · rw [hqp] at hc ⊢
      rw [hlist]
      exact List.mem_append_left _ hc
    · rw [hother q (h.inTree hq) hqp]
      exact hc
  have hold : ∀ q, InTree k q → InTree k' q := by
    intro q hq
    induction hq with
    | root =>
      rw [← hr]
      exact .root
    | child hq hc ih => exact ih.child (hup _ _ hq hc)
  constructor
  · intro hq
    induction hq with
    | root =>
      rw [hr]
      exact .inl .root
    | @child q c _ hc ih =>
      rcases ih with hq | ⟨rfl, _⟩
      · by_cases hqp : q = p
        · rw [hqp, hlist] at hc
          rw [hqp] at hq
          rcases List.mem_append.mp hc with hc | hc
          · exact .inl (hq.child hc)
          · exact .inr ⟨List.mem_singleton.mp hc, hq⟩
        · rw [hother q (h.inTree hq) hqp] at hc
          exact .inl (hq.child hc)
      · rw [hnil] at hc
        cases hc
  · rintro (hq | ⟨rfl, hq⟩)
    · exact hold q hq
    · refine (hold p hq).child ?_
      rw [hlist]
      exact List.mem_append_right _ List.mem_cons_self

/-- a child that leaves its directory leaves the tree -/
theorem WellFormed.removed (h : WellFormed k) (hp : InTree k p) (hd : d ∈ kids k p)
    (hnodup : (kids k p).Nodup) (hr : k'.root = k.root) (hlist : kids k' p = (kids k p).erase d)
    (hk : ∀ q, InTree k' q → InTree k q ∧ List.Sublist (kids k' q) (kids k q)) : ¬ InTree k' d := by
  intro hin
  have hparent : (k.node d).parent = p := ((h.node p hp).entry d hd).2
  rcases hin.cases with e | ⟨q, hq, hc⟩
  · -- the root has no parent
    rw [e, hr, h.root_parent] at hparent
    exact h.ne_zero hp hparent.symm
  · obtain ⟨hq', hsub⟩ := hk q hq
    have hqp : q = p := ((h.node q hq').entry d (hsub.subset hc)).2.symm.trans hparent
    rw [hqp, hlist] at hc
    exact hnodup.not_mem_erase hc

/-! ## the ledger -/

/-- a node was lost when an entry was removed or a node made for a full directory -/
def Tally (t : Ledger) : Prop :=
  ∃ bs N born, Census t.k bs N born ∧ (t.removed ∨ t.overfull ↔ ∃ d ∈ N, ¬ InTree t.k d)

theorem Creates.not_removes (hc : Creates cmd args) : cmd.removes = none := by
  rcases hc.1 with rfl | rfl
  · rfl
  · rfl

end

theorem Tally.step {t t' : Ledger} {op : Command × Option CString} (h : Tally t) (hwf : WellFormed t.k)
    (hs : ledger.step t op t') : Tally t' := by
  obtain ⟨bs, N, born, hc, hlost⟩ := h
  obtain ⟨⟨hg, e⟩, hrem, hover⟩ := hs
  cases command_effect hc op.1 op.2 t'.k e with
  | quiet idle same hc' =>
    refine ⟨_, _, _, hc', ?_⟩
    have h1 : t'.removed ↔ t.removed := by
      rw [hrem]
      exact or_iff_left fun ⟨type, hr, hrm⟩ => idle.removes type hr hrm
    have h2 : t'.overfull ↔ t.overfull := by
      rw [hover]
      exact or_iff_left fun ⟨hcr, _⟩ => absurd (hg.symm.trans (idle.creates hcr)) (by decide)
    rw [h1, h2, hlost]
    simp only [hc.inTree_congr same.root same.kids]
  | orphan f bs' creates made full lists live hc' =>
    refine ⟨_, _, _, hc', iff_of_true ?_ ?_⟩
    · exact .inr (hover.mpr (.inr ⟨creates, full⟩))
    · refine ⟨f, .inl rfl, fun hin => made.fresh ?_⟩
      exact hc.inTree ((hc.inTree_congr made.root lists).mp hin)
  | added f bs' creates made room list others live hc' =>
    refine ⟨_, _, _, hc', ?_⟩
    have h1 : t'.removed ↔ t.removed := by
      rw [hrem, creates.not_removes]
      exact or_iff_left fun ⟨type, hr, _⟩ => nomatch hr
    have h2 : t'.overfull ↔ t.overfull := by
      rw [hover]
      exact or_iff_left fun ⟨_, hfull⟩ => absurd room (Nat.not_lt.mpr hfull)
    have hin : ∀ q, InTree t'.k q ↔ InTree t.k q ∨ (q = f ∧ InTree t.k t.k.workDir) := fun q =>
      hc.inTree_added made.root list others made.empty
    rw [h1, h2, hlost]
    constructor
    · intro ⟨d, hd, hout⟩
      refine ⟨d, .inr hd, fun hin' => ?_⟩
      rcases (hin d).mp hin' with hin' | ⟨rfl, _⟩
      · exact hout hin'
      · exact made.fresh hd
    · rintro ⟨d, rfl | hd, hout⟩
      · exact ⟨_, hc.workDir.1, fun hw => hout ((hin d).mpr (.inr ⟨rfl, hw⟩))⟩
      · exact ⟨d, hd, fun hin' => hout ((hin d).mpr (.inl hin'))⟩
  | removed type removes removable list thinned names root hc' =>
    refine ⟨_, _, _, hc', iff_of_true ?_ ?_⟩
    · exact .inl (hrem.mpr (.inr ⟨type, removes, removable⟩))
    · have hsub : ∀ q, InTree t'.k q → InTree t.k q ∧ List.Sublist (kids t'.k q) (kids t.k q) := by
        intro q hq
        have hq' := hc.inTree_thinned root thinned hq
        exact ⟨hq', thinned q (hc.inTree hq')⟩
      obtain ⟨hN, _⟩ := hc.workDir
      have hx := (childNamed_mem removable.2.1).1
      by_cases hw : InTree t.k t.k.workDir
      · exact ⟨_, (hc.younger _ hN _ hx).1, hwf.removed hw hx (hc.nodup _ hN) root list hsub⟩
      · exact ⟨_, hN, fun hin => hw (hsub _ hin).1⟩

theorem ledger_commands {t : Ledger} (h : Run.Reachable ledger t) : Run.Reachable commands t.k := by
  refine h.invariant (fun t ht => .init ht.1) fun t op t' _ ih hs => ?_
  exact @Run.Reachable.step _ _ _ _ _ op ih hs.1

theorem tally_reachable {t : Ledger} (h : Run.Reachable ledger t) : Tally t := by
  refine h.invariant ?_ ?_
  · intro t ⟨⟨s, e, _⟩, h1, h2⟩
    obtain ⟨bs, hc, _⟩ := census_init e
    refine ⟨_, _, _, hc, iff_of_false (not_or.mpr ⟨h1, h2⟩) ?_⟩
    intro ⟨d, (hd : d = t.k.root), hout⟩
    rw [hd] at hout
    exact hout .root
  · intro t op t' ht ih hs
    obtain ⟨bs, hk⟩ := shelled_reachable (ledger_commands ht)
    exact ih.step hk.tree.wf hs

/-- **No command gives a block back: as long as no node was made for a full directory, the blocks in
use belong to nodes of the tree exactly when nothing was removed.** -/
theorem leak_iff (t : Ledger) (h : Run.Reachable ledger t) :
    (¬ t.overfull → (NoLeak t.k ↔ ¬ t.removed)) ∧
    ∀ (cmd : Command) args k', cmd.exec t.k args = .ok k' →
      ∃ hs hs', heapList t.k.heap = some hs ∧ heapList k'.heap = some hs' ∧
        (∀ q n, InUse hs q n → InUse hs' q n) ∧ (¬ Creates cmd args → hs' = hs) := by
  obtain ⟨bs, N, born, hc, hlost⟩ := tally_reachable h
  constructor
  · intro hover
    rw [hc.noLeak_iff, ← hlost, or_iff_left hover]
  · intro cmd args k' e
    obtain ⟨bs', hb', hlive, hsame⟩ := (command_effect hc cmd args k' e).blocks
    refine ⟨_, _, hc.blocks.walk, hb'.walk, fun q n hq => ?_, fun hn => ?_⟩
    · exact (inUse_iff hb').mpr (hlive q n ((inUse_iff hc.blocks).mp hq))
    · rw [hsame hn]

theorem ledger_step {t : Ledger} {op : Command × Option CString} {k' : Kernel}
    (h : Run.Reachable ledger t) (hs : commands.step t.k op k') : Run.Reachable ledger ⟨k',
      t.removed ∨ ∃ type, op.1.removes = some type ∧ Removable t.k type op.2,
      t.overfull ∨ Creates op.1 op.2 ∧ maxChildren ≤ (t.k.node t.k.workDir).childCount⟩ :=
  @Run.Reachable.step _ _ _ _ _ op h ⟨hs, Iff.rfl, Iff.rfl⟩

/-- `mkdir a` in a fresh filesystem, and `rmdir a` after it -/
theorem made_removed : ∃ k0 k1 k2, Run.Reachable ledger ⟨k0, False, False⟩ ∧
    commands.step k0 (.mkdir, argA) k1 ∧ (k0.node k0.workDir).childCount = 0 ∧
    names k1 k1.root = [str "a"] ∧ commands.step k1 (.rmdir, argA) k2 ∧
    Removable k1 .directory argA := by
  have hrun : ((fsInit (Kernel.boot bootMachine)).toOption.bind fun k0 =>
      (cmdMkdir k0 argA).toOption.bind fun k1 => (cmdRmdir k1 argA).toOption.map fun _ =>
        (grants k0.heap (Command.mkdir.sizes argA), (k0.node k0.workDir).childCount,
          names k1 k1.root, grants k1.heap (Command.rmdir.sizes argA),
          decide (Removable k1 .directory argA)))
      = some (true, 0, [str "a"], true, true) := by decide +kernel
  obtain ⟨k0, e0, e⟩ := Option.bind_eq_some_iff.mp hrun
  obtain ⟨k1, e1, e⟩ := Option.bind_eq_some_iff.mp e
  obtain ⟨k2, e2, e⟩ := Option.map_eq_some_iff.mp e
  obtain ⟨hg1, e⟩ := Prod.mk.inj e
  obtain ⟨hcount, e⟩ := Prod.mk.inj e
  obtain ⟨hnames, e⟩ := Prod.mk.inj e
  obtain ⟨hg2, hr⟩ := Prod.mk.inj e
  have h0 : Run.Reachable ledger ⟨k0, False, False⟩ :=
    .init ⟨⟨bootMachine, toOption_eq_some e0, by decide +kernel⟩, id, id⟩
  exact ⟨k0, k1, k2, h0, ⟨hg1, toOption_eq_some e1⟩, hcount, hnames, ⟨hg2, toOption_eq_some e2⟩,
    of_decide_eq_true hr⟩

theorem leak_iff_mkdir : ∃ k, Run.Reachable commands k ∧ names k k.root = [str "a"] ∧ NoLeak k := by
  obtain ⟨k0, k1, k2, h0, h1, hcount, hnames, _⟩ := made_removed
  have hk := ledger_step h0 h1
  have hover : ¬ (False ∨ Creates .mkdir argA ∧ maxChildren ≤ (k0.node k0.workDir).childCount) := by
    rintro (hf | ⟨_, hfull⟩)
    · exact hf
    · rw [hcount] at hfull
      exact absurd hfull (by decide)
  refine ⟨k1, ledger_commands hk, hnames, ((leak_iff _ hk).1 hover).mpr ?_⟩
  rintro (hf | ⟨type, hr, _⟩)
  · exact hf
  · cases hr

/-- a directory that was made and removed keeps its blocks -/
theorem made_removed_leaks : ∃ k, Run.Reachable commands k ∧ ¬ NoLeak k := by
  obtain ⟨k0, k1, k2, h0, h1, _, _, h2, hr⟩ := made_removed
  have hk := ledger_step (ledger_step h0 h1) h2
  obtain ⟨bs, N, born, hc, hlost⟩ := tally_reachable hk
  refine ⟨k2, ledger_commands hk, ?_⟩
  rw [hc.noLeak_iff, not_not]
  exact hlost.mp (.inl (.inr ⟨.directory, rfl, hr⟩))

end FirstKernel
