import FirstKernel.Fs.Spec
import FirstKernel.Lib.Arbor

/-!
# The tree of nodes

`kids k p` is `children[0..child_count)` of `p`.  `WellFormed k`: the nodes below `root` are a tree
whose directories have an array each, at most `maxChildren` entries, no null entry, and entries that
point back.

* `WellFormed.same`     a state that agrees on the nodes of the tree;
* `WellFormed.attach`   a new node as the last child of a directory;
* `WellFormed.prune`    directories that lose entries.
-/

namespace FirstKernel
open Cells Arbor

def kids (k : Kernel) (p : Word) : List Word :=
  loadN (k.slot (k.node p).children) 0 (k.node p).childCount

/-- `p` is the root or below it -/
def InTree (k : Kernel) (p : Word) : Prop := Reach (kids k) k.root p

structure NodeOk (k : Kernel) (p : Word) : Prop where
  entry : ∀ c ∈ kids k p, c ≠ 0 ∧ (k.node c).parent = p
  count : (k.node p).childCount ≤ maxChildren
  file : (k.node p).type = .file → (k.node p).childCount = 0
  array : (k.node p).type = .directory → (k.node p).children ≠ 0

structure WellFormed (k : Kernel) : Prop where
  root_ne : k.root ≠ 0
  root_dir : (k.node k.root).type = .directory
  root_parent : (k.node k.root).parent = 0
  tree : IsTree (kids k) k.root
  node : ∀ p, InTree k p → NodeOk k p
  arrays : ∀ p q, InTree k p → InTree k q → (k.node p).type = .directory →
    (k.node q).type = .directory → (k.node p).children = (k.node q).children → p = q

section
variable {k k' : Kernel} {p q c f : Word}

/-! ## entries -/

@[simp] theorem kids_length (k : Kernel) (p : Word) : (kids k p).length = (k.node p).childCount :=
  loadN_length ..

theorem kids_getElem (k : Kernel) (p : Word) (i : Nat) (h : i < (kids k p).length) :
    (kids k p)[i] = k.slot (k.node p).children i := by
  have := loadN_getElem (k.slot (k.node p).children) 0 (k.node p).childCount i h
  rwa [Nat.zero_add] at this

theorem kids_eq_nil (h : (k.node p).childCount = 0) : kids k p = [] :=
  List.eq_nil_of_length_eq_zero ((kids_length k p).trans h)

theorem mem_kids : c ∈ kids k p ↔
    ∃ i, i < (k.node p).childCount ∧ k.slot (k.node p).children i = c := by
  unfold kids loadN
  rw [List.mem_map]
  constructor
  · rintro ⟨i, hi, rfl⟩
    exact ⟨i, List.mem_range.mp hi, by rw [Nat.zero_add]⟩
  · rintro ⟨i, hi, rfl⟩
    exact ⟨i, List.mem_range.mpr hi, by rw [Nat.zero_add]⟩

theorem kids_congr (hn : (k'.node p).childCount = (k.node p).childCount)
    (ha : (k'.node p).children = (k.node p).children)
    (hs : (k.node p).childCount ≠ 0 → k'.slot (k.node p).children = k.slot (k.node p).children) :
    kids k' p = kids k p := by
  unfold kids
  rw [hn, ha]
  by_cases h0 : (k.node p).childCount = 0
  · rw [h0]
    rfl
  · rw [hs h0]

theorem InTree.cases (h : InTree k p) : p = k.root ∨ ∃ q, InTree k q ∧ p ∈ kids k q := by
  cases h with
  | root => exact .inl rfl
  | child hq hc => exact .inr ⟨_, hq, hc⟩

theorem WellFormed.ne_zero (h : WellFormed k) (hp : InTree k p) : p ≠ 0 := by
  cases hp with
  | root => exact h.root_ne
  | child hq hc => exact ((h.node _ hq).entry _ hc).1

/-- only directories have entries -/
theorem WellFormed.dir_of_count (h : WellFormed k) (hp : InTree k p)
    (hc : (k.node p).childCount ≠ 0) : (k.node p).type = .directory := by
  cases ht : (k.node p).type with
  | file => exact absurd ((h.node p hp).file ht) hc
  | directory => rfl

theorem WellFormed.dir_of_mem (h : WellFormed k) (hp : InTree k p) (hc : c ∈ kids k p) :
    (k.node p).type = .directory := by
  refine h.dir_of_count hp fun h0 => ?_
  rw [kids_eq_nil h0] at hc
  cases hc

theorem WellFormed.isDir (h : WellFormed k) (hp : InTree k p) (hd : (k.node p).type = .directory) :
    IsDir k p := ⟨h.ne_zero hp, hd⟩

/-- the array of `p` is not the one another node lists its entries in -/
theorem WellFormed.array_ne (h : WellFormed k) (hp : InTree k p) (hq : InTree k q) (hne : q ≠ p)
    (hc : (k.node q).childCount ≠ 0) (hd : (k.node p).type = .directory) :
    (k.node q).children ≠ (k.node p).children :=
  fun e => hne (h.arrays q p hq hp (h.dir_of_count hq hc) hd e)

/-! ## a state that agrees -/

/-- the trees of `k` and `k'` have the same nodes, with the same structs and lists -/
structure SameTree (k k' : Kernel) : Prop where
  root : k'.root = k.root
  node : ∀ q, InTree k q → k'.node q = k.node q
  kids : ∀ q, InTree k q → FirstKernel.kids k' q = FirstKernel.kids k q

theorem SameTree.refl (k : Kernel) : SameTree k k := ⟨rfl, fun _ _ => rfl, fun _ _ => rfl⟩

theorem SameTree.inTree (h : SameTree k k') : InTree k' q ↔ InTree k q := by
  unfold InTree
  rw [h.root]
  exact Reach.congr h.kids

theorem SameTree.trans {k'' : Kernel} (h : SameTree k k') (h' : SameTree k' k'') :
    SameTree k k'' where
  root := h'.root.trans h.root
  node q hq := (h'.node q (h.inTree.mpr hq)).trans (h.node q hq)
  kids q hq := (h'.kids q (h.inTree.mpr hq)).trans (h.kids q hq)

/-- the same structs and arrays -/
theorem SameTree.of_eq (hr : k'.root = k.root) (hn : k'.node = k.node) (hs : k'.slot = k.slot) :
    SameTree k k' :=
  ⟨hr, fun q _ => by rw [hn], fun q _ => kids_congr (by rw [hn]) (by rw [hn]) fun _ => by rw [hs]⟩

theorem WellFormed.same (h : WellFormed k) (hs : SameTree k k') : WellFormed k' := by
  have hsub : ∀ q, InTree k q → List.Sublist (kids k' q) (kids k q) := fun q hq => by
    rw [hs.kids q hq]
  refine ⟨?_, ?_, ?_, ?_, fun p hp => ?_, fun p q hp hq => ?_⟩
  · rw [hs.root]
    exact h.root_ne
  · rw [hs.root, hs.node _ .root]
    exact h.root_dir
  · rw [hs.root, hs.node _ .root]
    exact h.root_parent
  · rw [hs.root]
    exact (h.tree.shrink hsub).1
  · have hp := hs.inTree.mp hp
    have hok := h.node p hp
    refine ⟨fun c hc => ?_, ?_, ?_, ?_⟩
    · rw [hs.kids p hp] at hc
      rw [hs.node c (hp.child hc)]
      exact hok.entry c hc
    · rw [hs.node p hp]
      exact hok.count
    · rw [hs.node p hp]
      exact hok.file
    · rw [hs.node p hp]
      exact hok.array
  · rw [hs.node p (hs.inTree.mp hp), hs.node q (hs.inTree.mp hq)]
    exact h.arrays p q (hs.inTree.mp hp) (hs.inTree.mp hq)

/-! ## a new node -/

theorem attach_node_child (k : Kernel) (p f : Word) :
    (k.attach p f).node f = { (if f = p then { k.node p with childCount := (k.node p).childCount + 1 }
      else k.node f) with parent := p } := by
  unfold Kernel.attach
  rw [modify_node_self]
  by_cases e : f = p
  · rw [if_pos e, e, modify_node_self]
    rfl
  · rw [if_neg e, modify_node_of_ne _ _ _ _ e]
    rfl

theorem attach_node_parent (hf : f ≠ p) :
    (k.attach p f).node p = { k.node p with childCount := (k.node p).childCount + 1 } := by
  unfold Kernel.attach
  rw [modify_node_of_ne _ _ _ _ hf.symm, modify_node_self]
  rfl

theorem attach_node_of_ne (hp : q ≠ p) (hf : q ≠ f) : (k.attach p f).node q = k.node q := by
  unfold Kernel.attach
  rw [modify_node_of_ne _ _ _ _ hf, modify_node_of_ne _ _ _ _ hp]
  rfl

theorem attach_slot_self (k : Kernel) (p f : Word) :
    (k.attach p f).slot (k.node p).children
      = Function.update (k.slot (k.node p).children) (k.node p).childCount f :=
  Function.update_self ..

theorem attach_slot_of_ne {a : Word} (h : a ≠ (k.node p).children) :
    (k.attach p f).slot a = k.slot a := Function.update_of_ne h ..

theorem kids_attach_self (hf : f ≠ p) : kids (k.attach p f) p = kids k p ++ [f] := by
  unfold kids
  rw [attach_node_parent hf]
  show loadN ((k.attach p f).slot (k.node p).children) 0 ((k.node p).childCount + 1) = _
  rw [attach_slot_self, loadN_succ, Nat.zero_add, Function.update_self]
  congr 1
  exact loadN_congr fun i hi => Function.update_of_ne (by omega) ..

theorem kids_attach_of_ne (hp : q ≠ p) (hf : q ≠ f)
    (ha : (k.node q).childCount ≠ 0 → (k.node q).children ≠ (k.node p).children) :
    kids (k.attach p f) q = kids k q := by
  have hn : (k.attach p f).node q = k.node q := attach_node_of_ne hp hf
  exact kids_congr (by rw [hn]) (by rw [hn]) fun h0 => attach_slot_of_ne (ha h0)

/-- **A complete node becomes the last child of a directory with room.** -/
theorem WellFormed.attach (h : WellFormed k) (hp : InTree k p) (hd : (k.node p).type = .directory)
    (hroom : (k.node p).childCount < maxChildren) (hf : ¬ InTree k f) (hf0 : f ≠ 0)
    (hcount : (k.node f).childCount = 0)
    (harray : (k.node f).type = .directory → (k.node f).children ≠ 0 ∧
      ∀ q, InTree k q → (k.node q).type = .directory → (k.node q).children ≠ (k.node f).children) :
    WellFormed (k.attach p f) ∧ ∀ q, InTree (k.attach p f) q ↔ InTree k q ∨ q = f := by
  have hfp : f ≠ p := fun e => hf (e ▸ hp)
  have hother : ∀ q, InTree k q → q ≠ p → kids (k.attach p f) q = kids k q := by
    intro q hq hne
    exact kids_attach_of_ne hne (fun e => hf (e ▸ hq)) fun hc => h.array_ne hp hq hne hc hd
  have hnodef : (k.attach p f).node f = { k.node f with parent := p } := by
    rw [attach_node_child, if_neg hfp]
  have hkidsf : kids (k.attach p f) f = [] := kids_eq_nil (by rw [hnodef]; exact hcount)
  obtain ⟨htree, hin⟩ := h.tree.insert hp hf (kids_attach_self hfp) hkidsf hother
  -- every field but the count of `p` is kept
  have hnode : ∀ q, InTree k q → ∃ n, (k.attach p f).node q = { k.node q with childCount := n } ∧
      n ≤ maxChildren ∧ (q ≠ p → n = (k.node q).childCount) := by
    intro q hq
    by_cases hqp : q = p
    · rw [hqp, attach_node_parent hfp]
      exact ⟨_, rfl, hroom, fun hne => absurd rfl hne⟩
    · rw [attach_node_of_ne hqp fun e => hf (by rw [← e]; exact hq)]
      exact ⟨_, rfl, (h.node q hq).count, fun _ => rfl⟩
  have hcases : ∀ q, InTree (k.attach p f) q → InTree k q ∨ q = f := fun q hq => (hin q).mp hq
  refine ⟨⟨h.root_ne, ?_, ?_, htree, fun q hq => ?_, fun q q' hq hq' => ?_⟩, hin⟩
  · obtain ⟨n, hn, _⟩ := hnode _ .root
    show ((k.attach p f).node k.root).type = _
    rw [hn]
    exact h.root_dir
  · obtain ⟨n, hn, _⟩ := hnode _ .root
    show ((k.attach p f).node k.root).parent = _
    rw [hn]
    exact h.root_parent
  · rcases hcases q hq with hq | rfl
    · obtain ⟨n, hn, hn', hne⟩ := hnode q hq
      have hok := h.node q hq
      refine ⟨fun c hc => ?_, by rw [hn]; exact hn', fun ht => ?_, by rw [hn]; exact hok.array⟩
      · by_cases hqp : q = p
        · rw [hqp, kids_attach_self hfp] at hc
          rcases List.mem_append.mp hc with hc | hc
          · obtain ⟨h0, hpar⟩ := (h.node p hp).entry c hc
            obtain ⟨m, hm, _⟩ := hnode c (hp.child hc)
            rw [hm, hqp]
            exact ⟨h0, hpar⟩
          · rw [List.mem_singleton.mp hc, hnodef, hqp]
            exact ⟨hf0, rfl⟩
        · rw [hother q hq hqp] at hc
          obtain ⟨h0, hpar⟩ := hok.entry c hc
          obtain ⟨m, hm, _⟩ := hnode c (hq.child hc)
          rw [hm]
          exact ⟨h0, hpar⟩
      · rw [hn] at ht ⊢
        have hqp : q ≠ p := by
          rintro rfl
          rw [hd] at ht
          cases ht
        exact (hne hqp).trans (hok.file ht)
    · refine ⟨fun c hc => ?_, ?_, ?_, ?_⟩
      · rw [hkidsf] at hc
        cases hc
      · rw [hnodef]
        show (k.node q).childCount ≤ _
        rw [hcount]
        exact Nat.zero_le _
      · rw [hnodef]
        exact fun _ => hcount
      · rw [hnodef]
        exact fun ht => (harray ht).1
  · rcases hcases q hq with h1 | rfl
    · obtain ⟨n, hn, _⟩ := hnode q h1
      rcases hcases q' hq' with h2 | rfl
      · obtain ⟨n', hn', _⟩ := hnode q' h2
        rw [hn, hn']
        exact h.arrays q q' h1 h2
      · rw [hn, hnodef]
        exact fun ht ht' e => absurd e ((harray ht').2 q h1 ht)
    · rcases hcases q' hq' with h2 | rfl
      · obtain ⟨n', hn', _⟩ := hnode q' h2
        rw [hn', hnodef]
        exact fun ht ht' e => absurd e.symm ((harray ht).2 q' h2 ht')
      · exact fun _ _ _ => rfl

/-! ## lists that lose entries -/

/-- `k'` is `k` with entries of some directories gone -/
structure Pruned (k k' : Kernel) : Prop where
  heap : k'.heap = k.heap
  root : k'.root = k.root
  fdTable : k'.fdTable = k.fdTable
  currentDir : k'.currentDir = k.currentDir
  node : ∀ q, k'.node q = { k.node q with childCount := (k'.node q).childCount }
  kids : ∀ q, InTree k q → List.Sublist (kids k' q) (FirstKernel.kids k q)

theorem Pruned.refl (k : Kernel) : Pruned k k :=
  ⟨rfl, rfl, rfl, rfl, fun _ => rfl, fun _ _ => List.Sublist.refl _⟩

theorem Pruned.type (h : Pruned k k') (q : Word) : (k'.node q).type = (k.node q).type := by
  rw [h.node q]

theorem Pruned.children (h : Pruned k k') (q : Word) : (k'.node q).children = (k.node q).children := by
  rw [h.node q]

theorem Pruned.parent (h : Pruned k k') (q : Word) : (k'.node q).parent = (k.node q).parent := by
  rw [h.node q]

theorem Pruned.count_le (h : Pruned k k') (hq : InTree k q) :
    (k'.node q).childCount ≤ (k.node q).childCount := by
  have := (h.kids q hq).length_le
  rwa [kids_length, kids_length] at this

theorem WellFormed.prune (h : WellFormed k) (hp : Pruned k k') :
    WellFormed k' ∧ ∀ q, InTree k' q → InTree k q := by
  obtain ⟨htree, hsub⟩ := h.tree.shrink hp.kids
  have hin : ∀ q, InTree k' q → InTree k q := by
    intro q hq
    unfold InTree at hq
    rw [hp.root] at hq
    exact hsub q hq
  refine ⟨⟨?_, ?_, ?_, ?_, fun q hq => ?_, fun q q' hq hq' => ?_⟩, hin⟩
  · rw [hp.root]
    exact h.root_ne
  · rw [hp.root, hp.type]
    exact h.root_dir
  · rw [hp.root, hp.parent]
    exact h.root_parent
  · rw [hp.root]
    exact htree
  · have hok := h.node q (hin q hq)
    have hle := hp.count_le (hin q hq)
    refine ⟨fun c hc => ?_, Nat.le_trans hle hok.count, fun ht => ?_, fun ht => ?_⟩
    · rw [hp.parent]
      exact hok.entry c ((hp.kids q (hin q hq)).subset hc)
    · rw [hp.type] at ht
      have := hok.file ht
      omega
    · rw [hp.type] at ht
      rw [hp.children]
      exact hok.array ht
  · rw [hp.type, hp.type, hp.children, hp.children]
    exact h.arrays q q' (hin q hq) (hin q' hq')

end

end FirstKernel
