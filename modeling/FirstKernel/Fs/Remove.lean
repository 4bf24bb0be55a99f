import FirstKernel.Fs.Tree
import Mathlib.Data.FinEnum

/-!
# `fs_remove_child`

The recursion works through a state `k` pruned from the well-formed tree `k₀` it started in; which
nodes are below which is read in `k₀`.

* `Pruned.dropSlot`     one entry leaves one list;
* `removal_spec`        a call and the loop over the children of a removed directory;
* `fsRemoveChild_spec`  the list of `parent` without `child`, and nothing else outside the subtree
                        of `child`.
-/

namespace FirstKernel
open Cells Arbor

theorem card_word : Fintype.card Word = 2^32 :=
  FinEnum.card_eq_fintypeCard.symm.trans (FinEnum.card_bitVec 32)

/-- the fuel for a call on a directory at depth `d`: a call and its loop take less than 40 rounds -/
def fuelAt (d : Nat) : Nat := 40 * (2^32 - d)

/-! ## the search for the entry -/

theorem findSlot_spec (array : Nat → Word) (child : Word) (n i : Nat) :
    (∃ j, findSlot array child n i = some j ∧ i ≤ j ∧ j < i + n ∧ array j = child) ∨
    (findSlot array child n i = none ∧ ∀ j, i ≤ j → j < i + n → array j ≠ child) := by
  induction n generalizing i with
  | zero => exact .inr ⟨rfl, fun j h1 h2 => by omega⟩
  | succ n ih =>
    rw [findSlot]
    by_cases h : array i = child
    · rw [if_pos h]
      exact .inl ⟨i, rfl, Nat.le_refl _, by omega, h⟩
    · rw [if_neg h]
      rcases ih (i + 1) with ⟨j, e, h1, h2, h3⟩ | ⟨e, hno⟩
      · exact .inl ⟨j, e, by omega, by omega, h3⟩
      · refine .inr ⟨e, fun j h1 h2 => ?_⟩
        by_cases hj : j = i
        · rw [hj]
          exact h
        · exact hno j (by omega) (by omega)

section
variable {k₀ k k' : Kernel} {p q c : Word} {i d : Nat}

theorem findSlot_kids (hc : c ∈ kids k p) :
    ∃ i, ∃ h : i < (kids k p).length,
      findSlot (k.slot (k.node p).children) c (k.node p).childCount 0 = some i ∧ (kids k p)[i] = c := by
  rcases findSlot_spec (k.slot (k.node p).children) c (k.node p).childCount 0 with
    ⟨i, e, _, hi, hs⟩ | ⟨_, hno⟩
  · have hlt : i < (kids k p).length := by
      rw [kids_length]
      omega
    exact ⟨i, hlt, e, (kids_getElem k p i hlt).trans hs⟩
  · obtain ⟨i, hi, hs⟩ := mem_kids.mp hc
    exact absurd hs (hno i (Nat.zero_le _) (by omega))

/-! ## one entry leaves -/

@[simp] theorem dropSlot_heap (k : Kernel) (p : Word) (i : Nat) : (k.dropSlot p i).heap = k.heap := rfl
@[simp] theorem dropSlot_root (k : Kernel) (p : Word) (i : Nat) : (k.dropSlot p i).root = k.root := rfl

theorem dropSlot_node_self (k : Kernel) (p : Word) (i : Nat) : (k.dropSlot p i).node p
    = { k.node p with childCount := (k.node p).childCount - 1 } := Function.update_self ..

theorem dropSlot_node_of_ne (h : q ≠ p) : (k.dropSlot p i).node q = k.node q :=
  Function.update_of_ne h ..

theorem kids_dropSlot_self (hi : i < (kids k p).length) :
    kids (k.dropSlot p i) p = (kids k p).eraseIdx i := by
  rw [kids_length] at hi
  unfold kids
  rw [dropSlot_node_self, ← loadN_shift _ _ _ hi]
  show loadN ((k.dropSlot p i).slot (k.node p).children) 0 ((k.node p).childCount - 1) = _
  unfold Kernel.dropSlot
  rw [modify_slot]
  simp only [Function.update_self]

theorem kids_dropSlot_of_ne (h : q ≠ p)
    (ha : (k.node q).childCount ≠ 0 → (k.node q).children ≠ (k.node p).children) :
    kids (k.dropSlot p i) q = kids k q := by
  have hn : (k.dropSlot p i).node q = k.node q := dropSlot_node_of_ne h
  exact kids_congr (by rw [hn]) (by rw [hn]) fun h0 => Function.update_of_ne (ha h0) ..

/-- in a state pruned from a well-formed one the lists of other nodes are kept -/
theorem Pruned.dropSlot (h₀ : WellFormed k₀) (h : Pruned k₀ k) (hp : InTree k₀ p)
    (hd : (k₀.node p).type = .directory) (hi : i < (FirstKernel.kids k p).length) :
    Pruned k₀ (k.dropSlot p i) ∧
    ∀ q, InTree k₀ q → q ≠ p → (k.dropSlot p i).node q = k.node q ∧
      FirstKernel.kids (k.dropSlot p i) q = FirstKernel.kids k q := by
  have hother : ∀ q, InTree k₀ q → q ≠ p → (k.dropSlot p i).node q = k.node q ∧
      FirstKernel.kids (k.dropSlot p i) q = FirstKernel.kids k q := by
    intro q hq hne
    refine ⟨dropSlot_node_of_ne hne, kids_dropSlot_of_ne hne fun hc => ?_⟩
    rw [h.children, h.children]
    have hle := h.count_le hq
    exact h₀.array_ne hp hq hne (by omega) hd
  refine ⟨⟨h.heap, h.root, h.fdTable, h.currentDir, fun q => ?_, fun q hq => ?_⟩, hother⟩
  · by_cases hqp : q = p
    · rw [hqp, dropSlot_node_self, h.node p]
    · rw [dropSlot_node_of_ne hqp, ← h.node q]
  · by_cases hqp : q = p
    · rw [hqp, kids_dropSlot_self hi]
      exact (List.eraseIdx_sublist _ _).trans (h.kids p hp)
    · rw [(hother q hq hqp).2]
      exact h.kids q hq

/-! ## the recursion -/

/-- what a call on `parent` and `child` does, `parent` at depth `d` -/
def Removes (k₀ : Kernel) (fuel : Nat) : Prop :=
  ∀ (d : Nat) (k : Kernel) (p c : Word), Pruned k₀ k → At (kids k₀) k₀.root d p → c ∈ kids k p →
    fuelAt d ≤ fuel →
    ∃ k', fsRemoveChild fuel k p c = .ok k' ∧ Pruned k₀ k' ∧ kids k' p = (kids k p).erase c ∧
      ∀ q, InTree k₀ q → q ≠ p → ¬ Reach (kids k₀) c q → k'.node q = k.node q ∧ kids k' q = kids k q

/-- what the loop over the children of `c` from entry `j` on does -/
def RemovesRest (k₀ : Kernel) (fuel : Nat) : Prop :=
  ∀ (d : Nat) (k : Kernel) (c : Word) (j : Nat), Pruned k₀ k → At (kids k₀) k₀.root d c →
    fuelAt d + ((k.node c).childCount - j) + 1 ≤ fuel →
    ∃ k', removeChildren fuel k c j = .ok k' ∧ Pruned k₀ k' ∧
      ∀ q, InTree k₀ q → ¬ Reach (kids k₀) c q → k'.node q = k.node q ∧ kids k' q = kids k q

theorem fuelAt_pos (h₀ : WellFormed k₀) (hp : At (kids k₀) k₀.root d p) : 40 ≤ fuelAt d := by
  have := h₀.tree.depth_lt hp
  rw [card_word] at this
  unfold fuelAt
  omega

theorem fuelAt_succ (h₀ : WellFormed k₀) (hp : At (kids k₀) k₀.root d p) :
    fuelAt (d + 1) + 40 = fuelAt d := by
  have := h₀.tree.depth_lt hp
  rw [card_word] at this
  unfold fuelAt
  omega

/-- a call on a listed child: the loop over its children, and its entry leaves the list -/
theorem fsRemoveChild_eq (h₀ : WellFormed k₀) (hk : Pruned k₀ k) (hp₀ : InTree k₀ p)
    (hc : c ∈ kids k p) :
    ∃ i, ∃ hi : i < (kids k p).length, (kids k p)[i] = c ∧ ∀ fuel, fsRemoveChild (fuel + 1) k p c
      = (if (k.node c).type = .directory then removeChildren fuel k c 0 else .ok k).map
        (·.dropSlot p i) := by
  have hc₀ : c ∈ kids k₀ p := (hk.kids p hp₀).subset hc
  have hcount : (k.node p).childCount ≠ 0 := by
    intro h0
    rw [kids_eq_nil h0] at hc
    cases hc
  have hd₀ := h₀.dir_of_mem hp₀ hc₀
  have hdir : IsDir k p := ⟨h₀.ne_zero hp₀, by rw [hk.type]; exact hd₀⟩
  have harray : (k.node p).children ≠ 0 := by
    rw [hk.children]
    exact (h₀.node p hp₀).array hd₀
  have hc0 : c ≠ 0 := ((h₀.node p hp₀).entry c hc₀).1
  obtain ⟨i, hi, hfind, hget⟩ := findSlot_kids hc
  refine ⟨i, hi, hget, fun fuel => ?_⟩
  unfold fsRemoveChild
  rw [if_neg hdir.guard, if_pos hcount, hfind]
  simp only [deref_ok harray, deref_ok hc0, bind_ok]
  by_cases ht : (k.node c).type = .directory
  · rw [if_pos ht, if_pos ht]
    cases removeChildren fuel k c 0 with
    | error e => rfl
    | ok k' => rfl
  · rw [if_neg ht, if_neg ht]
    rfl

theorem removes_succ {fuel : Nat} (h₀ : WellFormed k₀) (hrest : RemovesRest k₀ fuel) :
    Removes k₀ (fuel + 1) := by
  intro d k p c hk hp hc hfuel
  have hp₀ : InTree k₀ p := hp.reach
  have hc₀ : c ∈ kids k₀ p := (hk.kids p hp₀).subset hc
  have hd₀ := h₀.dir_of_mem hp₀ hc₀
  obtain ⟨i, hi, hget, heq⟩ := fsRemoveChild_eq h₀ hk hp₀ hc
  -- the loop over the children of `c`, when it has any
  obtain ⟨k1, e1, hk1, hframe⟩ : ∃ k1, (if (k.node c).type = .directory then
      removeChildren fuel k c 0 else .ok k : Res Kernel) = .ok k1 ∧ Pruned k₀ k1 ∧
      ∀ q, InTree k₀ q → ¬ Reach (kids k₀) c q → k1.node q = k.node q ∧ kids k1 q = kids k q := by
    by_cases ht : (k.node c).type = .directory
    · rw [if_pos ht]
      have hcc := hk.count_le (hp₀.child hc₀)
      have hmax := (h₀.node c (hp₀.child hc₀)).count
      have hsucc := fuelAt_succ h₀ hp
      unfold maxChildren at hmax
      exact hrest (d + 1) k c 0 hk (hp.child hc₀) (by omega)
    · rw [if_neg ht]
      exact ⟨k, rfl, hk, fun _ _ _ => ⟨rfl, rfl⟩⟩
  -- `p` is not below its child, so its list is the same after the loop
  obtain ⟨hnode, hkids⟩ := hframe p hp₀ (h₀.tree.not_below hp₀ hc₀)
  obtain ⟨hk2, hother⟩ := hk1.dropSlot h₀ hp₀ hd₀ (i := i) (by rw [hkids]; exact hi)
  refine ⟨k1.dropSlot p i, ?_, hk2, ?_, fun q hq hne hbelow => ?_⟩
  · rw [heq, e1]
    rfl
  · rw [kids_dropSlot_self (by rw [hkids]; exact hi), hkids, ← hget]
    have hnodup := (h₀.tree.nodup p hp₀).sublist (hk.kids p hp₀)
    exact (hnodup.erase_getElem i hi).symm
  · obtain ⟨h1, h2⟩ := hother q hq hne
    obtain ⟨h3, h4⟩ := hframe q hq hbelow
    exact ⟨h1.trans h3, h2.trans h4⟩

theorem removesRest_succ {fuel : Nat} (hcall : Removes k₀ fuel)
    (hrest : RemovesRest k₀ fuel) : RemovesRest k₀ (fuel + 1) := by
  intro d k c j hk hc hfuel
  have hc₀ : InTree k₀ c := hc.reach
  unfold removeChildren
  by_cases hj : j < (k.node c).childCount
  · rw [if_pos hj]
    have hmem : k.slot (k.node c).children j ∈ kids k c := mem_kids.mpr ⟨j, hj, rfl⟩
    have hmem₀ := (hk.kids c hc₀).subset hmem
    obtain ⟨k1, e1, hk1, hlist, hframe⟩ := hcall d k c _ hk hc hmem (by omega)
    have hcount : (k1.node c).childCount = (k.node c).childCount - 1 := by
      rw [← kids_length, hlist, List.length_erase_of_mem hmem, kids_length]
    obtain ⟨k2, e2, hk2, hframe'⟩ := hrest d k1 c (j + 1) hk1 hc (by omega)
    refine ⟨k2, ?_, hk2, fun q hq hbelow => ?_⟩
    · rw [e1, bind_ok]
      exact e2
    · obtain ⟨h1, h2⟩ := hframe' q hq hbelow
      obtain ⟨h3, h4⟩ := hframe q hq (fun e => hbelow (e ▸ .root)) fun hb =>
        hbelow ((Reach.root.child hmem₀).trans hb)
      exact ⟨h1.trans h3, h2.trans h4⟩
  · rw [if_neg hj]
    exact ⟨k, rfl, hk, fun _ _ _ => ⟨rfl, rfl⟩⟩

/-- the fuel drops by one at each call and each round, and its bound by more from one depth to the
next -/
theorem removal_spec (h₀ : WellFormed k₀) (fuel : Nat) : Removes k₀ fuel ∧ RemovesRest k₀ fuel := by
  induction fuel with
  | zero =>
    refine ⟨fun d k p c _ hp _ hfuel => ?_, fun d k c j _ _ hfuel => ?_⟩
    · have := fuelAt_pos h₀ hp
      omega
    · omega
  | succ fuel ih => exact ⟨removes_succ h₀ ih.2, removesRest_succ ih.1 ih.2⟩

/-- **`fs_remove_child` takes `child` out of the list of `parent`, and changes nothing else outside
the subtree of `child`.** -/
theorem fsRemoveChild_spec (h : WellFormed k) (hp : InTree k p) (hc : c ∈ kids k p) :
    ∃ k', fsRemoveChild removeBound k p c = .ok k' ∧ Pruned k k' ∧ kids k' p = (kids k p).erase c ∧
      ∀ q, InTree k q → q ≠ p → ¬ Reach (kids k) c q → k'.node q = k.node q ∧ kids k' q = kids k q := by
  obtain ⟨d, hd⟩ := hp.exists_at
  refine (removal_spec h removeBound).1 d k p c (Pruned.refl k) hd hc ?_
  unfold fuelAt removeBound
  omega

/-- the directory it is called on stays in the tree -/
theorem inTree_of_remove (h : WellFormed k) (hp : InTree k p) (hc : c ∈ kids k p) (hk : Pruned k k')
    (hframe : ∀ q, InTree k q → q ≠ p → ¬ Reach (kids k) c q → kids k' q = kids k q) :
    InTree k' p := by
  unfold InTree
  rw [hk.root]
  refine h.tree.reach_of_frame hp fun q hq hqp hne => hframe q hq hne fun hb => ?_
  exact h.tree.not_below hp hc (hb.trans hqp)

end

end FirstKernel
