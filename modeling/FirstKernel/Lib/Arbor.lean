import Mathlib.Data.Fintype.Card
import Mathlib.Data.List.Nodup
import Mathlib.Logic.Relation

/-!
# Trees given by child lists

`kids p` lists the children of `p`; `Reach kids r` are the nodes below `r`.  `IsTree kids r` says that
no list reachable from `r` names `r`, a node twice, or a node of another list.

* `IsTree.depth_unique`, `IsTree.acyclic`, `IsTree.depth_lt`   each node has one depth;
* `IsTree.shrink`      lists that lose entries still make a tree;
* `IsTree.reach_of_frame`   a node stays reachable when no list above it changes;
* `IsTree.insert`      a new leaf at the end of one list.
-/

namespace Arbor

section
variable {α : Type} {kids kids' : α → List α} {r p q c x : α} {n m : Nat}

inductive Reach (kids : α → List α) (r : α) : α → Prop where
  | root : Reach kids r r
  | child {p c : α} : Reach kids r p → c ∈ kids p → Reach kids r c

/-- reached by a path of `n` entries -/
inductive At (kids : α → List α) (r : α) : Nat → α → Prop where
  | root : At kids r 0 r
  | child {n : Nat} {p c : α} : At kids r n p → c ∈ kids p → At kids r (n + 1) c

structure IsTree (kids : α → List α) (r : α) : Prop where
  root : ∀ p, Reach kids r p → r ∉ kids p
  nodup : ∀ p, Reach kids r p → (kids p).Nodup
  once : ∀ p q c, Reach kids r p → Reach kids r q → c ∈ kids p → c ∈ kids q → p = q

/-! ## paths -/

theorem Reach.trans (h : Reach kids r p) (h' : Reach kids p q) : Reach kids r q := by
  induction h' with
  | root => exact h
  | child _ hc ih => exact ih.child hc

theorem At.reach (h : At kids r n p) : Reach kids r p := by
  induction h with
  | root => exact .root
  | child _ hc ih => exact ih.child hc

theorem Reach.exists_at (h : Reach kids r p) : ∃ n, At kids r n p := by
  induction h with
  | root => exact ⟨0, .root⟩
  | child _ hc ih =>
    obtain ⟨n, hn⟩ := ih
    exact ⟨n + 1, hn.child hc⟩

theorem At.add (h : At kids r n p) (h' : At kids p m q) : At kids r (n + m) q := by
  induction h' with
  | root => exact h
  | child _ hc ih => exact ih.child hc

theorem At.pred (h : At kids r n p) : ∀ i, i ≤ n → ∃ q, At kids r i q := by
  induction h with
  | root =>
    intro i hi
    exact ⟨r, Nat.le_zero.mp hi ▸ .root⟩
  | @child n p c hp hc ih =>
    intro i hi
    by_cases hin : i = n + 1
    · exact ⟨c, hin ▸ hp.child hc⟩
    · exact ih i (by omega)

theorem Reach.of_transGen (h : Relation.TransGen (fun a b => b ∈ kids a) p q) :
    ∃ c, c ∈ kids p ∧ Reach kids c q := by
  induction h with
  | single h => exact ⟨_, h, .root⟩
  | tail _ h ih =>
    obtain ⟨c, hc, hr⟩ := ih
    exact ⟨c, hc, hr.child h⟩

theorem Reach.head_cases (h : Reach kids p q) : q = p ∨ ∃ c, c ∈ kids p ∧ Reach kids c q := by
  induction h with
  | root => exact .inl rfl
  | child _ hc ih =>
    rcases ih with rfl | ⟨d, hd, hr⟩
    · exact .inr ⟨_, hc, .root⟩
    · exact .inr ⟨d, hd, hr.child hc⟩

theorem Reach.mono (h : Reach kids' r p) (hk : ∀ q, Reach kids r q → ∀ c ∈ kids' q, c ∈ kids q) :
    Reach kids r p := by
  induction h with
  | root => exact .root
  | child _ hc ih => exact ih.child (hk _ ih _ hc)

theorem Reach.congr (hk : ∀ q, Reach kids r q → kids' q = kids q) :
    Reach kids' r p ↔ Reach kids r p := by
  constructor
  · intro h
    exact h.mono fun q hq c hc => by rwa [hk q hq] at hc
  · intro h
    induction h with
    | root => exact .root
    | @child q c hq hc ih => exact ih.child (by rwa [hk q hq])

/-! ## depths -/

theorem IsTree.depth_unique (h : IsTree kids r) (hn : At kids r n p) (hm : At kids r m p) : n = m := by
  induction hn generalizing m with
  | root =>
    cases hm with
    | root => rfl
    | child hq hc => exact absurd hc (h.root _ hq.reach)
  | child hp hc ih =>
    cases hm with
    | root => exact absurd hc (h.root _ hp.reach)
    | child hq hc' =>
      have := h.once _ _ _ hp.reach hq.reach hc hc'
      subst this
      rw [ih hq]

/-- no node is below one of its children -/
theorem IsTree.not_below (h : IsTree kids r) (hp : Reach kids r p) (hc : c ∈ kids p) :
    ¬ Reach kids c p := by
  intro hback
  obtain ⟨n, hn⟩ := hp.exists_at
  obtain ⟨m, hm⟩ := hback.exists_at
  have := h.depth_unique hn ((hn.child hc).add hm)
  omega

theorem IsTree.ne_child (h : IsTree kids r) (hp : Reach kids r p) (hc : c ∈ kids p) : c ≠ p := by
  intro e
  exact h.not_below hp hc (e ▸ .root)

/-- two nodes of one depth have no node below both -/
theorem IsTree.above_unique {a b : α} (h : IsTree kids r) (ha : At kids r n a) (hb : At kids r n b)
    (hqa : Reach kids a q) (hqb : Reach kids b q) : a = b := by
  induction hqa with
  | root =>
    obtain ⟨m, hm⟩ := hqb.exists_at
    have hdepth := h.depth_unique ha (hb.add hm)
    obtain rfl : m = 0 := by omega
    cases hm with
    | root => rfl
  | @child p c hap hc ih =>
    cases hqb with
    | root =>
      obtain ⟨m, hm⟩ := hap.exists_at
      have hdepth := h.depth_unique hb ((ha.add hm).child hc)
      omega
    | child hbp hc' =>
      apply ih
      rwa [h.once _ _ _ (ha.reach.trans hap) (hb.reach.trans hbp) hc hc']

theorem IsTree.sibling_unique {a b : α} (h : IsTree kids r) (hp : Reach kids r p) (ha : a ∈ kids p)
    (hb : b ∈ kids p) (hqa : Reach kids a q) (hqb : Reach kids b q) : a = b := by
  obtain ⟨n, hn⟩ := hp.exists_at
  exact h.above_unique (hn.child ha) (hn.child hb) hqa hqb

theorem IsTree.acyclic (h : IsTree kids r) (hp : Reach kids r p) :
    ¬ Relation.TransGen (fun a b => b ∈ kids a) p p := by
  intro hcycle
  obtain ⟨c, hc, hr⟩ := Reach.of_transGen hcycle
  exact h.not_below hp hc hr

/-- the nodes of a path are pairwise distinct, so it is shorter than the type is large -/
theorem IsTree.depth_lt [Fintype α] (h : IsTree kids r) (hn : At kids r n p) :
    n < Fintype.card α := by
  choose f hf using fun i : Fin (n + 1) => hn.pred i.val (Nat.le_of_lt_succ i.isLt)
  have hinj : Function.Injective f := by
    intro i j hij
    exact Fin.ext (h.depth_unique (hf i) (hij ▸ hf j))
  have := Fintype.card_le_of_injective f hinj
  rw [Fintype.card_fin] at this
  omega

/-! ## changes -/

theorem IsTree.shrink (h : IsTree kids r) (hk : ∀ q, Reach kids r q → List.Sublist (kids' q) (kids q)) :
    IsTree kids' r ∧ ∀ q, Reach kids' r q → Reach kids r q := by
  have hreach : ∀ q, Reach kids' r q → Reach kids r q := fun q hq =>
    hq.mono fun p hp c hc => (hk p hp).subset hc
  refine ⟨⟨fun p hp hr => ?_, fun p hp => ?_, fun p q c hp hq hc hc' => ?_⟩, hreach⟩
  · exact h.root p (hreach p hp) ((hk p (hreach p hp)).subset hr)
  · exact (h.nodup p (hreach p hp)).sublist (hk p (hreach p hp))
  · exact h.once p q c (hreach p hp) (hreach q hq) ((hk p (hreach p hp)).subset hc)
      ((hk q (hreach q hq)).subset hc')

/-- a path to `p` only uses the lists of the other nodes above `p` -/
theorem IsTree.reach_of_frame (h : IsTree kids r) (hp : Reach kids r p)
    (hk : ∀ q, Reach kids r q → Reach kids q p → q ≠ p → kids' q = kids q) : Reach kids' r p := by
  induction hp with
  | root => exact .root
  | @child p c hp hc ih =>
    refine (ih fun q hq hqp hne => hk q hq (hqp.child hc) ?_).child ?_
    · rintro rfl
      exact h.not_below hp hc hqp
    · rw [hk p hp (Reach.root.child hc) (h.ne_child hp hc).symm]
      exact hc

theorem IsTree.insert (h : IsTree kids r) (hp : Reach kids r p) (hx : ¬ Reach kids r x)
    (hkp : kids' p = kids p ++ [x]) (hkx : kids' x = [])
    (hk : ∀ q, Reach kids r q → q ≠ p → kids' q = kids q) :
    IsTree kids' r ∧ ∀ q, Reach kids' r q ↔ Reach kids r q ∨ q = x := by
  have hxr : x ≠ r := fun e => hx (e ▸ .root)
  have hmem : ∀ q c, Reach kids r q → (c ∈ kids' q ↔ c ∈ kids q ∨ q = p ∧ c = x) := by
    intro q c hq
    by_cases hqp : q = p
    · rw [hqp, hkp, List.mem_append, List.mem_singleton]
      simp
    · rw [hk q hq hqp]
      simp [hqp]
  have hold : ∀ q, Reach kids r q → Reach kids' r q := by
    intro q hq
    induction hq with
    | root => exact .root
    | child hq hc ih => exact ih.child ((hmem _ _ hq).mpr (.inl hc))
  have hreach : ∀ q, Reach kids' r q ↔ Reach kids r q ∨ q = x := by
    intro q
    constructor
    · intro hq
      induction hq with
      | root => exact .inl .root
      | @child q c _ hc ih =>
        rcases ih with hq | rfl
        · rcases (hmem q c hq).mp hc with hc | ⟨_, hcx⟩
          · exact .inl (hq.child hc)
          · exact .inr hcx
        · rw [hkx] at hc
          cases hc
    · rintro (hq | rfl)
      · exact hold q hq
      · exact (hold p hp).child ((hmem p _ hp).mpr (.inr ⟨rfl, rfl⟩))
  -- a list of the new tree is empty or belongs to an old node
  have hcases : ∀ q c, Reach kids' r q → c ∈ kids' q →
      Reach kids r q ∧ (c ∈ kids q ∨ q = p ∧ c = x) := by
    intro q c hq hc
    rcases (hreach q).mp hq with hq | rfl
    · exact ⟨hq, (hmem q c hq).mp hc⟩
    · rw [hkx] at hc
      cases hc
  refine ⟨⟨fun q hq hr => ?_, fun q hq => ?_, fun q q' c hq hq' hc hc' => ?_⟩, hreach⟩
  · obtain ⟨hq, hc | ⟨_, e⟩⟩ := hcases q r hq hr
    · exact h.root q hq hc
    · exact hxr e.symm
  · rcases (hreach q).mp hq with hq | rfl
    · by_cases hqp : q = p
      · rw [hqp, hkp]
        refine List.Nodup.append (h.nodup p hp) (List.nodup_singleton x) ?_
        intro c hc hcx
        exact hx (List.mem_singleton.mp hcx ▸ hp.child hc)
      · rw [hk q hq hqp]
        exact h.nodup q hq
    · rw [hkx]
      exact List.nodup_nil
  · obtain ⟨hq, hc⟩ := hcases q c hq hc
    obtain ⟨hq', hc'⟩ := hcases q' c hq' hc'
    rcases hc with hc | ⟨rfl, rfl⟩
    · rcases hc' with hc' | ⟨_, rfl⟩
      · exact h.once q q' c hq hq' hc hc'
      · exact absurd (hq.child hc) hx
    · rcases hc' with hc' | ⟨rfl, _⟩
      · exact absurd (hq'.child hc') hx
      · rfl

end

end Arbor
