import FirstKernel.Fs.Volume
import FirstKernel.Fs.Stock
import FirstKernel.Heap.Twin

/-!
# The kernel holds the volume

`Depicts readme k v`: the nodes below the root unfold to the tree of `v`, the path leads to the current
directory, and the free end of the heap is what `v` has left.

* `Depicts.same`, `Depicts.changed`       states that agree below the root, or everywhere but below the
                                          current directory;
* `kmalloc_takes`, `Depicts.find`         an allocation, and a name;
* `fsAddChild_depicts`, `Depicts.offer`   a new entry.
-/

namespace FirstKernel
open ByteMem Cells Tiling Outcome Arbor Rose

/-- what the node `p` shows of itself -/
def itemOf (readme : Word) (k : Kernel) (p : Word) : Item where
  name := (k.node p).name
  content := match (k.node p).type with
    | .file => .file (if p = readme then str "Welcome to ContinuumOS!" else [])
    | .directory => .directory ((k.node p).children ≠ 0)

/-- no path is longer -/
def depthBound : Nat := 2^32

structure Depicts (readme : Word) (k : Kernel) (v : Volume) : Prop where
  left : ∃ bs, HeapBlocks k.heap bs ∧ Leaves bs v.left
  acyclic : IsTree (kids k) k.root
  back : ∀ p, InTree k p → ∀ c ∈ kids k p, (k.node c).parent = p
  top : (k.node k.root).parent = 0
  tree : v.tree = unfold (kids k) (itemOf readme k) depthBound k.root
  path : follow (kids k) v.path k.root = some k.workDir

/-- what a command says, and what it leaves -/
def Tells (readme : Word) (k k' : Kernel) (r : List Printf × Volume) : Prop :=
  k'.heap.console = k.heap.console ++ r.1 ∧ Depicts readme k' r.2

section
variable {k k' : Kernel} {bs : List Block} {N : Set Word} {born : Word → Nat} {readme p q f c n : Word}
  {v : Volume} {args : Option CString} {s s' : Machine}

theorem workDir_eq (h : k.currentDir ≠ 0) : k.workDir = k.currentDir := by
  unfold Kernel.workDir Kernel.enter
  rw [if_neg h]

theorem workDir_congr (hc : k'.currentDir = k.currentDir) (hr : k'.root = k.root) :
    k'.workDir = k.workDir := by
  unfold Kernel.workDir Kernel.enter
  by_cases h : k.currentDir = 0
  · rw [if_pos h, if_pos (hc.trans h)]
    exact hr
  · rw [if_neg h, if_neg (by rw [hc]; exact h)]
    exact hc

theorem workDir_enter (h : k.root ≠ 0) : k.enter.workDir = k.workDir := by
  by_cases h0 : k.currentDir = 0
  · have e : k.enter.currentDir = k.root := by
      unfold Kernel.enter
      rw [if_pos h0]
    exact workDir_eq (by rw [e]; exact h)
  · unfold Kernel.enter
    rw [if_neg h0]

theorem itemOf_type (readme : Word) (k : Kernel) (p : Word) :
    (itemOf readme k p).content.type = (k.node p).type := by
  unfold itemOf
  cases (k.node p).type with
  | file => rfl
  | directory => rfl

theorem itemOf_file (readme : Word) (h : (k.node p).type = .file) : itemOf readme k p
    = ⟨(k.node p).name, .file (if p = readme then str "Welcome to ContinuumOS!" else [])⟩ := by
  unfold itemOf
  rw [h]

theorem itemOf_directory (readme : Word) (h : (k.node p).type = .directory) :
    itemOf readme k p = ⟨(k.node p).name, .directory ((k.node p).children ≠ 0)⟩ := by
  unfold itemOf
  rw [h]

theorem itemOf_congr (h : k'.node p = k.node p) : itemOf readme k' p = itemOf readme k p := by
  unfold itemOf
  rw [h]

/-! ## the tree and the path -/

theorem Depicts.inTree (h : Depicts readme k v) : InTree k k.workDir := follow_reach h.path

theorem Depicts.length_lt (h : Depicts readme k v) : v.path.length < depthBound := by
  have := h.acyclic.depth_lt (follow_at h.path)
  rwa [card_word] at this

/-- the working directory of the volume is the unfolded current directory -/
theorem Depicts.here (h : Depicts readme k v) : ∃ m, depthBound - v.path.length = m + 1 ∧
    v.here = unfold (kids k) (itemOf readme k) (m + 1) k.workDir := by
  have hlt := h.length_lt
  refine ⟨depthBound - v.path.length - 1, by omega, ?_⟩
  unfold Volume.here
  rw [h.tree, unfold_at h.path (Nat.le_of_lt hlt), Option.getD_some]
  congr 1
  omega

/-- the same nodes below the root -/
theorem Depicts.same (h : Depicts readme k v) (hs : SameTree k k') {left : Arena} {path : List Nat}
    (hl : ∃ bs, HeapBlocks k'.heap bs ∧ Leaves bs left)
    (hp : follow (kids k) path k.root = some k'.workDir) : Depicts readme k' ⟨left, v.tree, path⟩ where
  left := hl
  acyclic := by
    rw [hs.root]
    exact (h.acyclic.shrink fun q hq => by rw [hs.kids q hq]).1
  back p hp c hc := by
    have hp := hs.inTree.mp hp
    rw [hs.kids p hp] at hc
    rw [hs.node c (hp.child hc)]
    exact h.back p hp c hc
  top := by
    rw [hs.root, hs.node _ .root]
    exact h.top
  tree := by
    rw [hs.root]
    refine h.tree.trans (unfold_congr (fun q hq => ?_) depthBound).symm
    exact ⟨hs.kids q hq, itemOf_congr (hs.node q hq)⟩
  path := by
    rw [hs.root]
    exact follow_congr h.acyclic .root hp fun q hq _ _ => hs.kids q hq

theorem Depicts.printf (h : Depicts readme k v) (format : String) (xs : List Arg) :
    Depicts readme (k.printf format xs) v := by
  obtain ⟨bs, hb, hl⟩ := h.left
  have hs : SameTree k (k.printf format xs) := .of_eq rfl rfl rfl
  have hw : (k.printf format xs).workDir = k.workDir := workDir_congr rfl rfl
  exact h.same hs ⟨bs, hb.store rfl fun _ _ => rfl, hl⟩ (by rw [hw]; exact h.path)

theorem Depicts.enter (h : Depicts readme k v) (h0 : k.root ≠ 0) : Depicts readme k.enter v := by
  refine h.same (.of_eq (enter_root k) (enter_node k) (enter_slot k)) ?_ ?_
  · rw [enter_heap]
    exact h.left
  · rw [workDir_enter h0]
    exact h.path

/-- a message behind what is said so far -/
theorem Tells.printf {r : List Printf × Volume} (h : Tells readme k k' r) (format : String)
    (xs : List Arg) : Tells readme k (k'.printf format xs) (r.1 ++ [⟨format, xs⟩], r.2) := by
  refine ⟨?_, h.2.printf format xs⟩
  show k'.heap.console ++ [_] = _
  rw [h.1, List.append_assoc]

/-- a command that goes on behind `k1`, with a message at its end -/
theorem Tells.behind {k1 : Kernel} {r : List Printf × Volume} {out : List Printf}
    (h : Tells readme k1 k' r) (hout : k1.heap.console = k.heap.console ++ out) (format : String)
    (xs : List Arg) : Tells readme k (k'.printf format xs) (out ++ r.1 ++ [⟨format, xs⟩], r.2) := by
  refine Tells.printf (r := (out ++ r.1, r.2)) ⟨?_, h.2⟩ format xs
  rw [h.1, hout, List.append_assoc]

/-- a message, once `current_dir` is set -/
theorem Depicts.tells (h : Depicts readme k v) (h0 : k.root ≠ 0) (format : String) (xs : List Arg) :
    Tells readme k (k.enter.printf format xs) ([⟨format, xs⟩], v) := by
  refine Tells.printf (r := ([], v)) ⟨?_, h.enter h0⟩ format xs
  rw [enter_heap, List.append_nil]

/-- another current directory, and nothing else -/
theorem Depicts.move (h : Depicts readme k v) {path : List Nat} (hq : q ≠ 0)
    (hp : follow (kids k) path k.root = some q) :
    Tells readme k { k.enter with currentDir := q } ([], { v with path := path }) := by
  have hs : SameTree k { k.enter with currentDir := q } :=
    .of_eq (enter_root k) (enter_node k) (enter_slot k)
  refine ⟨?_, h.same hs ?_ ?_⟩
  · show k.enter.heap.console = _
    rw [enter_heap, List.append_nil]
  · show ∃ bs, HeapBlocks k.enter.heap bs ∧ _
    rw [enter_heap]
    exact h.left
  · rw [hp]
    exact congrArg some (workDir_eq (k := { k.enter with currentDir := q }) hq).symm

/-- **Lists and structs that change below the current directory only.** -/
theorem Depicts.changed (h : Depicts readme k v) {g : RoseTree Item → RoseTree Item}
    (hroot : k'.root = k.root) (hwork : k'.workDir = k.workDir)
    (hleft : ∃ bs, HeapBlocks k'.heap bs ∧ Leaves bs v.left) (htree : IsTree (kids k') k.root)
    (hback : ∀ p, InTree k' p → ∀ c ∈ kids k' p, (k'.node c).parent = p)
    (htop : (k'.node k.root).parent = 0)
    (hout : ∀ q, InTree k q → ¬ Reach (kids k) k.workDir q →
      kids k' q = kids k q ∧ itemOf readme k' q = itemOf readme k q)
    (hg : ∀ m, unfold (kids k') (itemOf readme k') (m + 1) k.workDir
      = g (unfold (kids k) (itemOf readme k) (m + 1) k.workDir)) :
    Depicts readme k' { v with tree := v.tree.modify g v.path } where
  left := hleft
  acyclic := by
    rw [hroot]
    exact htree
  back := hback
  top := by
    rw [hroot]
    exact htop
  tree := by
    obtain ⟨m, hm, _⟩ := h.here
    rw [hroot]
    show v.tree.modify g v.path = _
    rw [h.tree]
    refine (unfold_modify h.acyclic .root h.path (Nat.le_of_lt h.length_lt) hout ?_).symm
    rw [hm]
    exact hg m
  path := by
    rw [hroot, hwork]
    refine follow_congr h.acyclic .root h.path fun q hq hqw hne => (hout q hq fun hwq => ?_).1
    -- a node above the current directory is not below it
    rcases hqw.head_cases with e | ⟨c, hc, hcw⟩
    · exact hne e.symm
    · exact h.acyclic.not_below hq hc (hcw.trans hwq)

/-! ## memory -/

theorem kmalloc_given (e : kmalloc s n = .ok (p, s')) (hp : p ≠ 0) : s'.console = s.console
    ++ [⟨"[HEAP] Allocated %d bytes at 0x%x\n", [.num (align16 n), .num p]⟩] := by
  unfold kmalloc at e
  by_cases h0 : n = 0
  · rw [if_pos h0] at e
    cases e
    exact absurd rfl hp
  rw [if_neg h0] at e
  by_cases hl : s.freeList = 0
  · simp only [if_pos hl] at e
    cases e
    exact absurd rfl hp
  simp only [if_neg hl] at e
  cases hfit : findFit s.mem (align16 n) heapWalkBound s.freeList with
  | none =>
    rw [hfit] at e
    cases e
  | some current =>
    rw [hfit] at e
    by_cases hc : current = 0
    · simp only [if_pos hc] at e
      cases e
      exact absurd rfl hp
    · simp only [if_neg hc] at e
      cases e
      rfl

theorem kmalloc_denied (h : HeapBlocks s bs) (hn : n ≠ 0) (ha : alloc 12 16 (need n) bs = none) :
    kmalloc s n = .ok (0, s.printf "[HEAP] Error: No free block large enough for %d bytes!\n"
      [.num (align16 n)]) := by
  have hmiss := findFit_miss h.seg (alloc_eq_none.mp ha) _ h.length_lt
  have hl : s.freeList ≠ 0 := by
    rw [h.start]
    decide
  unfold kmalloc
  simp only [hn, if_false, hl, hmiss, if_true]

theorem take_tree (v : Volume) (n : Nat) : (v.take n).2.2.tree = v.tree := by
  unfold Volume.take
  split
  · rfl
  · rfl

theorem take_path (v : Volume) (n : Nat) : (v.take n).2.2.path = v.path := by
  unfold Volume.take
  split
  · rfl
  · rfl

/-- **An allocation, with what it says.** -/
theorem kmalloc_take (hl : ∃ bs, HeapBlocks s bs ∧ Leaves bs v.left) (hn : n ≠ 0) :
    ∃ p s', kmalloc s n = .ok (p, s') ∧ (v.take (need n)).1 = decide (p ≠ 0) ∧
      s'.console = s.console ++ (v.take (need n)).2.1 ∧
      ∃ bs, HeapBlocks s' bs ∧ Leaves bs (v.take (need n)).2.2.left := by
  obtain ⟨bs, hb, hl⟩ := hl
  have hword : BitVec.ofNat 32 (need n) = align16 n := BitVec.eq_of_toNat_eq (by
    rw [BitVec.toNat_ofNat]
    exact Nat.mod_eq_of_lt (align16 n).isLt)
  unfold Volume.take
  rcases hl.grab 12 16 (need n) with ⟨hgrab, ha⟩ | ⟨a, left', bs', hgrab, ha, hl'⟩
  · rw [hgrab, hword]
    exact ⟨0, _, kmalloc_denied hb hn ha, rfl, rfl, bs, hb.store rfl fun _ _ => rfl, hl⟩
  · obtain ⟨p, s', e, hp, hb', _⟩ := kmalloc_some hb hn ha
    have hp0 : p ≠ 0 := by
      rintro rfl
      exact absurd hp (by rw [show (0 : Word).toNat = 0 from rfl]; omega)
    have hpa : BitVec.ofNat 32 (a + 12) = p := BitVec.eq_of_toNat_eq (by
      rw [BitVec.toNat_ofNat, ← hp]
      exact Nat.mod_eq_of_lt p.isLt)
    rw [hgrab, hword]
    dsimp only
    rw [hpa]
    exact ⟨p, s', e, (decide_eq_true hp0).symm, kmalloc_given e hp0, bs', hb', hl'⟩

/-- and as one equation on the volume, whose tree and path stay -/
theorem kmalloc_takes (hl : ∃ bs, HeapBlocks s bs ∧ Leaves bs v.left) (hn : n ≠ 0) :
    ∃ p s' out left, kmalloc s n = .ok (p, s') ∧
      v.take (need n) = (decide (p ≠ 0), out, ⟨left, v.tree, v.path⟩) ∧
      s'.console = s.console ++ out ∧ ∃ bs, HeapBlocks s' bs ∧ Leaves bs left := by
  obtain ⟨p, s', e, hg, hsay, hl'⟩ := kmalloc_take hl hn
  refine ⟨p, s', _, _, e, ?_, hsay, hl'⟩
  rw [← hg, ← take_tree v (need n), ← take_path v (need n)]

/-! ## names -/

/-- **A name stands for the same entry.** -/
theorem Depicts.find (h : Depicts readme k v) (hc : Census k bs N born) {name : List Byte}
    (hname : (0 : Byte) ∉ name) :
    (childNamed k k.workDir name = 0 ∧ v.find name = none) ∨
    ∃ i c, (kids k k.workDir)[i]? = some c ∧ c ≠ 0 ∧ childNamed k k.workDir name = c ∧
      v.find name = some (i, itemOf readme k c) := by
  obtain ⟨m, _, hhere⟩ := h.here
  have hN := hc.workDir.1
  have hmatch : ∀ c ∈ kids k k.workDir, (strcmp (k.node c).name name = 0 ↔ (k.node c).name = name) :=
    fun c hm => strcmp_eq_zero (hc.name c (hc.younger _ hN c hm).1) hname
  have hindex : v.here.children.findIdx? (fun t => t.label.name = name)
      = (kids k k.workDir).findIdx? fun c => (k.node c).name = name := by
    rw [hhere, unfold_children, List.findIdx?_map]
    congr 1
    funext c
    show decide ((unfold (kids k) (itemOf readme k) m c).label.name = name) = _
    rw [unfold_label]
    rfl
  unfold Volume.find childNamed
  rw [hindex]
  cases hi : (kids k k.workDir).findIdx? fun c => (k.node c).name = name with
  | none =>
    left
    refine ⟨?_, rfl⟩
    rw [List.find?_eq_none.mpr fun c hm => ?_]
    · rfl
    · have hno := List.findIdx?_eq_none_iff.mp hi c hm
      rw [decide_eq_true_iff, hmatch c hm]
      exact of_decide_eq_false hno
  | some i =>
    right
    obtain ⟨hlt, hyes, hbefore⟩ := List.findIdx?_eq_some_iff_getElem.mp hi
    have hmem := List.getElem_mem hlt
    have hfound : (kids k k.workDir).find? (fun c => strcmp (k.node c).name name = 0)
        = some (kids k k.workDir)[i] := by
      refine List.find?_eq_some_iff_getElem.mpr ⟨?_, i, hlt, rfl, fun j hj => ?_⟩
      · exact decide_eq_true ((hmatch _ hmem).mpr (of_decide_eq_true hyes))
      · have hno := hbefore j hj
        rw [decide_eq_true_iff, ← hmatch _ (List.getElem_mem _)] at hno
        rw [decide_eq_false hno]
        rfl
    refine ⟨i, (kids k k.workDir)[i], List.getElem?_eq_getElem hlt, ?_, ?_, ?_⟩
    · exact hc.ne_zero (hc.younger _ hN _ hmem).1
    · rw [hfound]
      rfl
    · rw [Option.bind_some, hhere, unfold_children, List.getElem?_map, List.getElem?_eq_getElem hlt]
      show some (i, (unfold (kids k) (itemOf readme k) m _).label) = _
      rw [unfold_label]

/-! ## a new entry -/

/-- names, types and arrays are kept -/
theorem itemOf_attach (hf : f ≠ p) (q : Word) : itemOf readme (k.attach p f) q = itemOf readme k q := by
  unfold itemOf
  by_cases hqf : q = f
  · rw [hqf, attach_node_child, if_neg hf]
  · by_cases hqp : q = p
    · rw [hqp, attach_node_parent hf]
    · rw [attach_node_of_ne hqp hqf]

/-- and the parents of the other nodes -/
theorem attach_parent (hf : f ≠ p) (hq : q ≠ f) :
    ((k.attach p f).node q).parent = (k.node q).parent := by
  by_cases hqp : q = p
  · rw [hqp, attach_node_parent hf]
  · rw [attach_node_of_ne hqp hq]

/-- a new node at the end of the current directory -/
theorem attach_depicts (h : Depicts readme k v)
    (harray : ∀ q, InTree k q → q ≠ k.workDir → (k.node q).childCount ≠ 0 →
      (k.node q).children ≠ (k.node k.workDir).children)
    (hf : ¬ InTree k f) (hcount : (k.node f).childCount = 0) :
    Depicts readme (k.attach k.workDir f) { v with
      tree := v.tree.modify (fun t => t.setChildren (t.children ++ [.leaf (itemOf readme k f)])) v.path } := by
  have hin := h.inTree
  have hfw : f ≠ k.workDir := fun e => hf (e ▸ hin)
  have hnew : ∀ q, InTree k q → q ≠ f := fun q hq e => hf (e ▸ hq)
  have hother : ∀ q, InTree k q → q ≠ k.workDir → kids (k.attach k.workDir f) q = kids k q :=
    fun q hq hne => kids_attach_of_ne hne (hnew q hq) (harray q hq hne)
  have hkf : kids (k.attach k.workDir f) f = [] := by
    refine kids_eq_nil ?_
    rw [attach_node_child, if_neg hfw]
    exact hcount
  have hkw := kids_attach_self (k := k) hfw
  obtain ⟨htree, hreach⟩ := h.acyclic.insert hin hf hkw hkf hother
  refine h.changed rfl (workDir_congr rfl rfl) h.left htree ?_ ?_ ?_ ?_
  · intro p hp c hc
    rcases (hreach p).mp hp with hp | rfl
    · by_cases hpw : p = k.workDir
      · rw [hpw, hkw] at hc
        rcases List.mem_append.mp hc with hc | hc
        · rw [attach_parent hfw (hnew c (hin.child hc)), hpw]
          exact h.back _ hin c hc
        · rw [List.mem_singleton.mp hc, attach_node_child, hpw]
      · rw [hother p hp hpw] at hc
        rw [attach_parent hfw (hnew c (hp.child hc))]
        exact h.back p hp c hc
    · rw [hkf] at hc
      cases hc
  · exact (attach_parent hfw (hnew _ .root)).trans h.top
  · intro q hq hnot
    exact ⟨hother q hq fun e => hnot (e ▸ .root), itemOf_attach hfw q⟩
  · intro m
    -- nothing below an older entry changes
    have hold : ∀ c ∈ kids k k.workDir, unfold (kids (k.attach k.workDir f))
        (itemOf readme (k.attach k.workDir f)) m c = unfold (kids k) (itemOf readme k) m c := by
      refine fun c hc => unfold_congr (fun q hq => ⟨hother q ((hin.child hc).trans hq) ?_,
        itemOf_attach hfw q⟩) m
      rintro rfl
      exact h.acyclic.not_below hin hc hq
    show RoseTree.node _ _ = RoseTree.node _ (List.map _ _ ++ [_])
    rw [itemOf_attach hfw, hkw, List.map_append, List.map_congr_left hold]
    refine congrArg (RoseTree.node _) (congrArg (_ ++ ·) ?_)
    show [unfold _ _ m f] = _
    rw [unfold_leaf hkf, itemOf_attach hfw]

/-- **`fs_add_child` of a new node to the current directory.** -/
theorem fsAddChild_depicts (h : Depicts readme k v) (hd : IsDir k k.workDir)
    (hempty : (k.node k.workDir).children = 0 → (k.node k.workDir).childCount = 0)
    (harray : ∀ q, InTree k q → q ≠ k.workDir → (k.node q).childCount ≠ 0 →
      (k.node q).children ≠ (k.node k.workDir).children)
    (hf : ¬ InTree k f) (hf0 : f ≠ 0) (hcount : (k.node f).childCount = 0) :
    Agree (fsAddChild k k.workDir f) (v.add (itemOf readme k f)) (Tells readme k) := by
  obtain ⟨m, _, hhere⟩ := h.here
  have hlen : v.here.children.length = (k.node k.workDir).childCount := by
    rw [hhere, unfold_children, List.length_map, kids_length]
  have hlabel : v.here.label = itemOf readme k k.workDir := by
    rw [hhere]
    rfl
  have hlists : v.here.label.content = .directory false ↔ (k.node k.workDir).children = 0 := by
    rw [hlabel]
    unfold itemOf
    rw [hd.type]
    simp
  unfold Volume.add
  rw [hlen]
  by_cases hfull : (k.node k.workDir).childCount ≥ maxChildren
  · rw [if_pos hfull, fsAddChild_full hd hfull, hlabel]
    exact .ok ⟨rfl, h.printf _ _⟩
  rw [if_neg hfull]
  have hroom := Nat.lt_of_not_le hfull
  by_cases h0 : (k.node k.workDir).children = 0
  · rw [if_pos (hlists.mpr h0)]
    have hno : ¬ ∃ k', fsAddChild k k.workDir f = .ok k' := fun hex =>
      (fsAddChild_returns hd hempty hf0).mp hex h0
    cases e : fsAddChild k k.workDir f with
    | error e => exact .error _ _
    | ok k' => exact absurd ⟨k', e⟩ hno
  rw [if_neg fun hl => h0 (hlists.mp hl), fsAddChild_attach hd hroom h0 hf0]
  exact .ok ⟨(List.append_nil _).symm, attach_depicts h harray hf hcount⟩

theorem SameNodes.sameTree (hc : Census k bs N born) (h : SameNodes N k k') : SameTree k k' :=
  ⟨h.root, fun q hq => h.node q (hc.inTree hq), fun q hq => h.kids q (hc.inTree hq)⟩

/-- a new node, made behind `k`, is offered to the current directory -/
theorem Depicts.offer (h : Depicts readme k v) (hc : Census k bs N born) {k1 : Kernel}
    {bs1 : List Block} {born1 : Word → Nat} {left : Arena} (hs : SameNodes N k k1)
    (hc1 : Census k1 bs1 (insert f N) born1) (hwork : k1.workDir = k.workDir) (hf : f ∉ N)
    (hcount : (k1.node f).childCount = 0) (hl : Leaves bs1 left) :
    Agree (fsAddChild k1 k.workDir f) (Volume.add ⟨left, v.tree, v.path⟩ (itemOf readme k1 f))
      (Tells readme k1) := by
  obtain ⟨hN, hdir⟩ := hc.workDir
  have hsame := hs.sameTree hc
  have h1 : Depicts readme k1 ⟨left, v.tree, v.path⟩ :=
    h.same hsame ⟨bs1, hc1.blocks, hl⟩ (by rw [hwork]; exact h.path)
  have hnode := hs.node _ hN
  rw [← hwork]
  refine fsAddChild_depicts h1 ?_ ?_ ?_ ?_ ?_ hcount
  · rw [hwork]
    exact ⟨hdir.ne_zero, by rw [hnode]; exact hdir.type⟩
  · rw [hwork]
    exact hc1.empty _ (.inr hN)
  · intro q hq hne h0 ea
    have hqN := hc1.inTree hq
    have harray : (k1.node q).children ≠ 0 := fun ha => h0 (hc1.empty q hqN ha)
    rw [hwork] at hne ea
    exact hne (hc1.arrays q hqN _ (.inr hN) harray ea)
  · exact fun hin => hf (hc.inTree (hsame.inTree.mp hin))
  · exact hc1.ne_zero (.inl rfl)

end

end FirstKernel
