import FirstKernel.Fs.Disk
import FirstKernel.Fs.Cat

/-!
# Which commands return

An allocation that fails leaves a directory without an array, or no file at all.

* `removal_returns`                   the recursion of `fs_remove_child` ends within its bound;
* `cmdTouch_returns`, `cmdMkdir_returns`   exactly when the two commands that allocate return;
* `cmdCat_returns`                    `cat` returns where the files end in a NUL.
-/

namespace FirstKernel
open ByteMem Cells Tiling Outcome

/-- how many addresses were born after `p` -/
def younger (born : Word → Nat) (p : Word) : Nat := (Finset.univ.filter fun q => born p < born q).card

section
variable {k k' : Kernel} {bs : List Block} {N : Set Word} {born : Word → Nat} {p q f c : Word}
  {args : Option CString}

theorem younger_lt (h : born p < born c) : younger born c < younger born p := by
  refine Finset.card_lt_card ⟨fun q hq => ?_, fun hsub => ?_⟩
  · have hq := (Finset.mem_filter.mp hq).2
    exact Finset.mem_filter.mpr ⟨Finset.mem_univ q, Nat.lt_trans h hq⟩
  · have hc := hsub (Finset.mem_filter.mpr ⟨Finset.mem_univ c, h⟩)
    exact absurd (Finset.mem_filter.mp hc).2 (Nat.lt_irrefl _)

theorem younger_bound (born : Word → Nat) (p : Word) : younger born p < 2^32 := by
  have h := Finset.card_lt_univ_of_notMem (s := Finset.univ.filter fun q => born p < born q) (x := p)
    fun hp => Nat.lt_irrefl _ (Finset.mem_filter.mp hp).2
  rwa [card_word] at h

/-! ## removal -/

/-- **The recursion of `fs_remove_child` and its loop end**: children are younger than their
directory, and no directory has more than `maxChildren` of them. -/
theorem removal_returns (h : Census k bs N born) (hcap : ∀ p ∈ N, (k.node p).childCount ≤ maxChildren)
    (fuel : Nat) :
    (∀ k1 p c, Thinned N k k1 → p ∈ N → 40 * (younger born p + 1) ≤ fuel →
      ∃ k2, fsRemoveChild fuel k1 p c = .ok k2) ∧
    ∀ k1 c j, Thinned N k k1 → c ∈ N →
      40 * (younger born c + 1) + ((k1.node c).childCount - j) + 1 ≤ fuel →
      ∃ k2, removeChildren fuel k1 c j = .ok k2 := by
  induction fuel with
  | zero => exact ⟨fun _ _ _ _ _ hf => absurd hf (by omega), fun _ _ _ _ _ hf => absurd hf (by omega)⟩
  | succ fuel ih =>
    obtain ⟨ihCall, ihLoop⟩ := ih
    refine ⟨fun k1 p c ht hp hfuel => ?_, fun k1 c j ht hc hfuel => ?_⟩
    · by_cases hguard : p = 0 ∨ (k1.node p).type ≠ .directory
      · rw [fsRemoveChild, if_pos hguard]
        exact ⟨k1, rfl⟩
      -- an array that is read is there
      have harray : (k1.node p).childCount ≠ 0 → (k1.node p).children ≠ 0 := by
        intro h0 ha
        rw [ht.node p] at ha
        have := ht.count_le hp
        have := h.empty p hp ha
        omega
      by_cases hc : c ∈ kids k1 p
      · obtain ⟨i, _, hfind, _⟩ := findSlot_kids hc
        obtain ⟨hcN, hlt⟩ := h.younger p hp c ((ht.kids p hp).subset hc)
        have h0 : (k1.node p).childCount ≠ 0 := by
          intro h0
          rw [kids_eq_nil h0] at hc
          cases hc
        rw [fsRemoveChild, if_neg hguard, if_pos h0, hfind]
        simp only [deref_ok (harray h0), deref_ok (h.ne_zero hcN), bind_ok]
        by_cases hd : (k1.node c).type = .directory
        · have hle := ht.count_le hcN
          have hmax := hcap c hcN
          have hlow := younger_lt hlt
          unfold maxChildren at hmax
          obtain ⟨k2, e⟩ := ihLoop k1 c 0 ht hcN (by omega)
          rw [if_pos hd, e]
          exact ⟨_, rfl⟩
        · rw [if_neg hd]
          exact ⟨_, rfl⟩
      · have hnone : findSlot (k1.slot (k1.node p).children) c (k1.node p).childCount 0 = none := by
          rcases findSlot_spec (k1.slot (k1.node p).children) c (k1.node p).childCount 0 with
            ⟨i, _, _, hi, hs⟩ | ⟨e, _⟩
          · exact absurd (mem_kids.mpr ⟨i, by omega, hs⟩) hc
          · exact e
        rw [fsRemoveChild, if_neg hguard, hnone]
        by_cases h0 : (k1.node p).childCount ≠ 0
        · rw [if_pos h0, deref_ok (harray h0)]
          exact ⟨k1, rfl⟩
        · rw [if_neg h0]
          exact ⟨k1, rfl⟩
    · rw [removeChildren]
      by_cases hj : j < (k1.node c).childCount
      · rw [if_pos hj]
        obtain ⟨k2, e⟩ := ihCall k1 c (k1.slot (k1.node c).children j) ht hc (by omega)
        obtain ⟨ht2, hlist, _⟩ := (thins h fuel).1 k1 c _ ht hc k2 e
        have hle : (k2.node c).childCount ≤ (k1.node c).childCount := by
          rw [← kids_length k2, ← kids_length k1, hlist]
          exact List.length_erase_le
        rw [e, bind_ok]
        exact ihLoop k2 c (j + 1) ht2 hc (by omega)
      · rw [if_neg hj]
        exact ⟨k1, rfl⟩

theorem fsRemoveChild_returns (h : Census k bs N born)
    (hcap : ∀ p ∈ N, (k.node p).childCount ≤ maxChildren) (hp : p ∈ N) (c : Word) :
    ∃ k', fsRemoveChild removeBound k p c = .ok k' := by
  refine (removal_returns h hcap removeBound).1 k p c (Thinned.refl k) hp ?_
  have := younger_bound born p
  unfold removeBound
  omega

theorem removeNamed_returns (h : Census k bs N born)
    (hcap : ∀ p ∈ N, (k.node p).childCount ≤ maxChildren) (type : FSNodeType)
    (usage removed missing : String) (args : Option CString) :
    ∃ k', removeNamed type usage removed missing k args = .ok k' := by
  obtain ⟨henter, hN, _⟩ := h.enter
  have hcap' : ∀ p ∈ N, (k.enter.node p).childCount ≤ maxChildren := by
    intro p hp
    rw [enter_node]
    exact hcap p hp
  have hfind : fsFindChild k.enter k.enter.currentDir (args.elim [] Subtype.val) = _ := h.findEnter _
  unfold removeNamed
  cases ha : noArgs args with
  | true => exact ⟨_, rfl⟩
  | false =>
    simp only [Bool.false_eq_true, if_false, hfind, bind_ok]
    split
    · obtain ⟨k', e⟩ := fsRemoveChild_returns henter hcap' hN
        (childNamed k k.workDir (args.elim [] Subtype.val))
      rw [e]
      exact ⟨_, rfl⟩
    · exact ⟨_, rfl⟩

/-! ## the commands that change no node -/

theorem cmdCd_returns (h : Census k bs N born) (args : Option CString) :
    ∃ k', cmdCd k args = .ok k' := by
  have hfind : fsFindChild k.enter k.enter.currentDir (args.elim [] Subtype.val) = _ := h.findEnter _
  unfold cmdCd
  cases ha : noArgs args with
  | true => exact ⟨_, rfl⟩
  | false =>
    simp only [Bool.false_eq_true, if_false, hfind, bind_ok]
    split
    · split
      · exact ⟨_, rfl⟩
      · exact ⟨_, rfl⟩
    · split
      · exact ⟨_, rfl⟩
      · exact ⟨_, rfl⟩

theorem cmdLs_returns (h : Census k bs N born) (args : Option CString) :
    ∃ k', cmdLs k args = .ok k' := by
  obtain ⟨henter, hN, _⟩ := h.enter
  unfold cmdLs
  simp only [deref_ok (henter.ne_zero hN), bind_ok]
  by_cases h0 : (k.enter.node k.enter.currentDir).childCount = 0
  · rw [h0]
    exact ⟨_, rfl⟩
  · obtain ⟨out, e⟩ := lsLoop_spec (mt (henter.empty _ hN) h0)
      (k.enter.node k.enter.currentDir).childCount 0 k.enter
      fun c hc => henter.ne_zero (henter.younger _ hN c hc).1
    rw [e]
    exact ⟨_, rfl⟩

/-- **`cat` returns, if every file has a buffer with a NUL in it.** -/
theorem cmdCat_returns (h : Census k bs N born) (args : Option CString)
    (hfile : ∀ p ∈ N, (k.node p).type = .file → (k.node p).data ≠ 0 ∧ 0 ∈ fileBytes k p) :
    ∃ r, cmdCat k args = .ok r := by
  have hname : args.elim [] Subtype.val = argName args := rfl
  have hfind : fsFindChild k.enter k.enter.currentDir (argName args) = _ := h.findEnter _
  cases ha : noArgs args with
  | true =>
    unfold cmdCat
    simp only [ha, if_true]
    exact ⟨_, rfl⟩
  | false =>
    by_cases hf : childNamed k k.workDir (argName args) ≠ 0 ∧
        (k.node (childNamed k k.workDir (argName args))).type = .file
    · have hmem := h.childNamed_mem h.workDir.1 hf.1
      obtain ⟨hd, h0⟩ := hfile _ hmem hf.2
      have hsize : (k.node (childNamed k k.workDir (argName args))).size.toNat ≤ writestringBound :=
        Nat.le_of_lt (BitVec.isLt _)
      obtain ⟨reads, e, _⟩ := writestring_stops h0 hsize
      rw [cmdCat_file ha hfind hf.1 hf.2 hd, e]
      exact ⟨_, rfl⟩
    · have hmiss : ¬ (childNamed k k.workDir (argName args) ≠ 0 ∧
          (k.enter.node (childNamed k k.workDir (argName args))).type = .file) := by
        rw [enter_node]
        exact hf
      unfold cmdCat
      simp only [ha, hname, Bool.false_eq_true, if_false, hfind, bind_ok]
      rw [if_neg hmiss]
      exact ⟨_, rfl⟩

/-! ## the commands that allocate -/

theorem fsAddChild_returns (hp : IsDir k p)
    (hempty : (k.node p).children = 0 → (k.node p).childCount = 0) (hc : c ≠ 0) : (∃ k', fsAddChild k p c = .ok k') ↔ (k.node p).children ≠ 0 := by
  constructor
  · rintro ⟨k', e⟩ ha
    have hroom : (k.node p).childCount < maxChildren := by
      rw [hempty ha]
      decide
    unfold fsAddChild at e
    rw [if_neg hp.guard, if_neg (Nat.not_le.mpr hroom), ha] at e
    cases e
  · intro ha
    by_cases hroom : (k.node p).childCount < maxChildren
    · exact ⟨_, fsAddChild_attach hp hroom ha hc⟩
    · exact ⟨_, fsAddChild_full hp (Nat.le_of_not_lt hroom)⟩

/-- an allocation is no node -/
theorem Census.new_node (h : Census k bs N born) {n : Word} {s : Machine}
    (e : kmalloc k.heap n = .ok (f, s)) (hf : f ≠ 0) : f ∉ N := by
  intro hN
  obtain ⟨_, _, _, hnew⟩ := kmalloc_fresh h.blocks e
  obtain ⟨i, hi⟩ := h.live f hN
  exact (hnew hf).2 i hi

/-- the working directory in a state that has one more struct -/
theorem Census.offer_returns (h : Census k bs N born) (hf0 : f ≠ 0)
    (hnode : k'.node k.workDir = k.node k.workDir) :
    (∃ k2, fsAddChild k' k.workDir f = .ok k2) ↔ (k.node k.workDir).children ≠ 0 := by
  obtain ⟨hN, hdir⟩ := h.workDir
  rw [← hnode]
  refine fsAddChild_returns ⟨hdir.ne_zero, by rw [hnode]; exact hdir.type⟩ (fun ha => ?_) hf0
  rw [hnode] at ha ⊢
  exact h.empty _ hN ha

theorem returns_map {α β : Type} {x : Res α} (F : α → β) : (∃ b, x.map F = .ok b) ↔ ∃ a, x = .ok a := by
  cases x with
  | error e => exact ⟨nofun, nofun⟩
  | ok a => exact ⟨fun _ => ⟨a, rfl⟩, fun _ => ⟨F a, rfl⟩⟩

/-- **`touch` returns exactly when both its allocations succeed and there is an array to list the file
in, or already the first allocation fails.** -/
theorem cmdTouch_returns (h : Census k bs N born) (ha : noArgs args = false) :
    (∃ k', cmdTouch k args = .ok k') ↔ (grants k.heap [sizeofFSNode] = true →
      grants k.heap [sizeofFSNode, 256] = true ∧ (k.node k.workDir).children ≠ 0) := by
  obtain ⟨f, h1, e1⟩ := kmalloc_returns h.blocks sizeofFSNode
  by_cases hf : f = 0
  · rw [hf] at e1
    rw [cmdTouch_null ha e1, grants_null e1]
    exact ⟨fun _ hno => absurd hno Bool.false_ne_true, fun _ => ⟨_, rfl⟩⟩
  obtain ⟨bs1, hb1, _⟩ := kmalloc_fresh h.blocks e1
  obtain ⟨q, h2, e2⟩ := kmalloc_returns hb1 256
  have hfirst : grants k.heap [sizeofFSNode] = true := by
    rw [grants_cons e1]
    simpa [grants] using hf
  have hboth : grants k.heap [sizeofFSNode, 256] = true ↔ q ≠ 0 := by
    rw [grants_cons e1, grants_cons e2, decide_eq_true hf, Bool.true_and]
    simp [grants]
  rw [hboth]
  by_cases hq : q = 0
  · rw [hq] at e2
    rw [cmdTouch_fault ha e1 hf e2]
    constructor
    · rintro ⟨k', e⟩
      cases e
    · exact fun hall => absurd hq (hall hfirst).1
  rw [cmdTouch_eq ha e1 hf e2 hq, returns_map]
  have hnew := h.new_node e1 hf
  refine (h.offer_returns hf ?_).trans ⟨fun hd _ => ⟨hq, hd⟩, fun hall => (hall hfirst).2⟩
  have hne : k.workDir ≠ f := fun e => hnew (e ▸ h.workDir.1)
  show Function.update k.enter.node f _ k.workDir = _
  rw [Function.update_of_ne hne, enter_node]

/-- **`mkdir` returns exactly when there is an array to list the directory in, or the allocation of its
struct fails.** -/
theorem cmdMkdir_returns (h : Census k bs N born) (ha : noArgs args = false) :
    (∃ k', cmdMkdir k args = .ok k') ↔
      (grants k.heap [sizeofFSNode] = true → (k.node k.workDir).children ≠ 0) := by
  obtain ⟨f, h1, e1⟩ := kmalloc_returns h.blocks sizeofFSNode
  by_cases hf : f = 0
  · rw [hf] at e1
    rw [cmdMkdir_null ha e1, grants_null e1]
    exact ⟨fun _ hno => absurd hno Bool.false_ne_true, fun _ => ⟨_, rfl⟩⟩
  obtain ⟨bs1, hb1, _⟩ := kmalloc_fresh h.blocks e1
  obtain ⟨q, h2, e2⟩ := kmalloc_returns hb1 sizeofChildren
  have hfirst : grants k.heap [sizeofFSNode] = true := by
    rw [grants_cons e1]
    simpa [grants] using hf
  rw [cmdMkdir_eq ha e1 hf e2, returns_map]
  have hnew := h.new_node e1 hf
  refine (h.offer_returns hf ?_).trans ⟨fun hd _ => hd, fun hall => hall hfirst⟩
  have hne : k.workDir ≠ f := fun e => hnew (e ▸ h.workDir.1)
  show Function.update k.enter.node f _ k.workDir = _
  rw [Function.update_of_ne hne, enter_node]

end

end FirstKernel
