import FirstKernel.Fs.TreeRun
import FirstKernel.Lib.Alternate

/-!
# What `fs_remove_child` leaves

The loop over the children of a removed directory removes entry `j` and goes on to entry `j + 1` of the
list that is left, so it skips every second child.  `Halved k k' c` says so of the whole subtree of `c`.

* `halves_spec`            a call and the loop;
* `Halved.dismantled_iff`  when the subtree of the removed directory is empty afterwards;
* `fsRemoveChild_frame`    what is outside of it, for every pair of nodes.
-/

namespace FirstKernel
open Cells Arbor Alternate

/-- every second entry of `c` is left with all that is below it, the others are halved in turn -/
inductive Halved (k k' : Kernel) : Word → Prop where
  | intro {c : Word} : kids k' c = odds (kids k c) →
      (∀ d ∈ evens (kids k c), Halved k k' d) →
      (∀ d ∈ odds (kids k c), ∀ q, Reach (kids k) d q → kids k' q = kids k q) → Halved k k' c

section
variable {k₀ k k' : Kernel} {p q c : Word}

theorem mem_of_evens {d : Word} {l : List Word} (h : d ∈ evens l) : d ∈ l :=
  (sublist_evens_odds l).1.subset h
theorem mem_of_odds {d : Word} {l : List Word} (h : d ∈ odds l) : d ∈ l :=
  (sublist_evens_odds l).2.subset h

theorem Halved.congr {k'' : Kernel} (h : Halved k k' c)
    (hk : ∀ q, Reach (kids k) c q → kids k'' q = kids k' q) : Halved k k'' c := by
  induction h with
  | @intro c hl _ ho ih =>
    apply Halved.intro
    · exact (hk c .root).trans hl
    · intro d hd
      exact ih d hd fun q hq => hk q ((Reach.root.child (mem_of_evens hd)).trans hq)
    · intro d hd q hq
      exact (hk q ((Reach.root.child (mem_of_odds hd)).trans hq)).trans (ho d hd q hq)

/-- a directory with two entries or more keeps one -/
theorem Halved.length_le (h : Halved k k' c) (hq : Reach (kids k) c q) :
    (kids k q).length ≤ 2 * (kids k' q).length + 1 := by
  induction h with
  | @intro c hl _ ho ih =>
    rcases hq.head_cases with rfl | ⟨d, hd, hr⟩
    · rw [hl, length_odds]
      omega
    · rcases mem_evens_or_odds hd with hd | hd
      · exact ih d hd hr
      · rw [ho d hd q hr]
        omega

theorem Halved.eq_nil (h : Halved k k' c) (hone : ∀ q, Reach (kids k) c q → (kids k q).length ≤ 1)
    (hq : Reach (kids k) c q) : kids k' q = [] := by
  induction h with
  | @intro c hl _ _ ih =>
    have hc := hone c .root
    have hodds : odds (kids k c) = [] := by
      apply List.eq_nil_of_length_eq_zero
      rw [length_odds]
      omega
    rcases hq.head_cases with rfl | ⟨d, hd, hr⟩
    · exact hl.trans hodds
    · rcases mem_evens_or_odds hd with he | ho
      · exact ih d he (fun q hq => hone q ((Reach.root.child hd).trans hq)) hr
      · rw [hodds] at ho
        cases ho

/-! ## the recursion -/

/-- what a call on `p` and `c` leaves of `c`, when nothing below `c` was removed before -/
def Halves (k₀ : Kernel) (fuel : Nat) : Prop :=
  ∀ (d : Nat) (k : Kernel) (p c : Word) (k' : Kernel), Pruned k₀ k → At (kids k₀) k₀.root d p →
    c ∈ kids k p → fuelAt d ≤ fuel → (∀ q, Reach (kids k₀) c q → kids k q = kids k₀ q) →
    fsRemoveChild fuel k p c = .ok k' → Halved k₀ k' c

/-- what the loop over the children of `c` leaves from entry `j` on -/
def HalvesRest (k₀ : Kernel) (fuel : Nat) : Prop :=
  ∀ (d : Nat) (k : Kernel) (c : Word) (j : Nat) (k' : Kernel), Pruned k₀ k →
    At (kids k₀) k₀.root d c → fuelAt d + ((k.node c).childCount - j) + 1 ≤ fuel →
    (∀ x ∈ (kids k c).drop j, ∀ q, Reach (kids k₀) x q → kids k q = kids k₀ q) →
    removeChildren fuel k c j = .ok k' →
    kids k' c = (kids k c).take j ++ odds ((kids k c).drop j) ∧
    (∀ x ∈ evens ((kids k c).drop j), Halved k₀ k' x) ∧
    ∀ q, InTree k₀ q → q ≠ c → (∀ x ∈ evens ((kids k c).drop j), ¬ Reach (kids k₀) x q) →
      kids k' q = kids k q

theorem halves_succ {fuel : Nat} (h₀ : WellFormed k₀) (hrest : HalvesRest k₀ fuel) :
    Halves k₀ (fuel + 1) := by
  intro d k p c k' hk hp hc hfuel hintact e
  have hp₀ : InTree k₀ p := hp.reach
  have hc₀ : c ∈ kids k₀ p := (hk.kids p hp₀).subset hc
  have hcin : InTree k₀ c := hp₀.child hc₀
  have hd₀ := h₀.dir_of_mem hp₀ hc₀
  obtain ⟨i, hi, _, heq⟩ := fsRemoveChild_eq h₀ hk hp₀ hc
  rw [heq] at e
  obtain ⟨k1, e1, rfl⟩ := map_eq_ok e
  have hself : kids k c = kids k₀ c := hintact c .root
  -- what the loop over the children of `c` leaves
  obtain ⟨hk1, hlist, hhalf⟩ : Pruned k₀ k1 ∧ kids k1 p = kids k p ∧ Halved k₀ k1 c := by
    by_cases ht : (k.node c).type = .directory
    · rw [if_pos ht] at e1
      have hsucc := fuelAt_succ h₀ hp
      have hcc := hk.count_le hcin
      have hmax := (h₀.node c hcin).count
      unfold maxChildren at hmax
      have hbound : fuelAt (d + 1) + ((k.node c).childCount - 0) + 1 ≤ fuel := by omega
      obtain ⟨k2, e2, hk2, hframe⟩ := (removal_spec h₀ fuel).2 (d + 1) k c 0 hk (hp.child hc₀) hbound
      obtain rfl : k2 = k1 := Except.ok.inj (e2.symm.trans e1)
      obtain ⟨h1, h2, h3⟩ := hrest (d + 1) k c 0 k2 hk (hp.child hc₀) hbound
        (fun x hx q hq => hintact q ((Reach.root.child (hself ▸ hx)).trans hq)) e1
      rw [List.take_zero, List.nil_append, List.drop_zero, hself] at h1
      rw [List.drop_zero, hself] at h2 h3
      refine ⟨hk2, (hframe p hp₀ (h₀.tree.not_below hp₀ hc₀)).2, .intro h1 h2 fun x hx q hq => ?_⟩
      have hxc := mem_of_odds hx
      rw [← hintact q ((Reach.root.child hxc).trans hq)]
      refine h3 q (hcin.trans ((Reach.root.child hxc).trans hq)) ?_ fun y hy hyq => ?_
      · rintro rfl
        exact h₀.tree.not_below hcin hxc hq
      · have hxy := h₀.tree.sibling_unique hcin hxc (mem_of_evens hy) hq hyq
        exact disjoint_evens_odds (h₀.tree.nodup c hcin) (hxy ▸ hy) hx
    · rw [if_neg ht] at e1
      cases e1
      have hnil : kids k₀ c = [] := by
        apply kids_eq_nil
        apply (h₀.node c hcin).file
        rw [hk.type] at ht
        cases htype : (k₀.node c).type with
        | file => rfl
        | directory => exact absurd htype ht
      refine ⟨hk, rfl, .intro ?_ ?_ ?_⟩
      · rw [hself, hnil]
        rfl
      · rw [hnil]
        exact nofun
      · rw [hnil]
        exact nofun
  obtain ⟨_, hother⟩ := hk1.dropSlot h₀ hp₀ hd₀ (i := i) (by rw [hlist]; exact hi)
  apply hhalf.congr
  intro q hq
  refine (hother q (hcin.trans hq) ?_).2
  rintro rfl
  exact h₀.tree.not_below hp₀ hc₀ hq

theorem halvesRest_succ {fuel : Nat} (h₀ : WellFormed k₀) (hcall : Halves k₀ fuel)
    (hrest : HalvesRest k₀ fuel) : HalvesRest k₀ (fuel + 1) := by
  intro d k c j k' hk hc hfuel hintact e
  have hc₀ : InTree k₀ c := hc.reach
  unfold removeChildren at e
  by_cases hj : j < (k.node c).childCount
  · rw [if_pos hj] at e
    have hj' : j < (kids k c).length := by rwa [kids_length]
    obtain ⟨k1, e1, e2⟩ := bind_eq_ok e
    -- the entry of this round
    obtain ⟨x, hx, hget⟩ : ∃ x, k.slot (k.node c).children j = x ∧ (kids k c)[j] = x :=
      ⟨_, rfl, kids_getElem k c j hj'⟩
    rw [hx] at e1
    have hmem : x ∈ kids k c := hget ▸ List.getElem_mem hj'
    have hsub : ∀ y, y ∈ kids k c → y ∈ kids k₀ c := fun y hy => (hk.kids c hc₀).subset hy
    have hnodup : (kids k c).Nodup := (h₀.tree.nodup c hc₀).sublist (hk.kids c hc₀)
    have hdrop : (kids k c).drop j = x :: (kids k c).drop (j + 1) := by
      rw [List.drop_eq_getElem_cons hj', hget]
    obtain ⟨k1', e1', hk1, hlist, hframe⟩ := (removal_spec h₀ fuel).1 d k c x hk hc hmem (by omega)
    obtain rfl : k1' = k1 := Except.ok.inj (e1'.symm.trans e1)
    have hhalf := hcall d k c x k1' hk hc hmem (by omega)
      (hintact x (hdrop ▸ List.mem_cons_self)) e1
    rw [← hget, hnodup.erase_getElem j hj'] at hlist
    have hcount : (k1'.node c).childCount = (k.node c).childCount - 1 := by
      rw [← kids_length, hlist, List.length_eraseIdx_of_lt hj', kids_length]
    -- an entry after it is another one
    have hlater : ∀ y ∈ ((kids k c).eraseIdx j).drop (j + 1),
        y ∈ (kids k c).drop j ∧ y ∈ kids k c ∧ y ≠ x := by
      intro y hy
      rw [drop_eraseIdx hj'] at hy
      have hy' := List.mem_of_mem_drop hy
      refine ⟨hdrop ▸ List.mem_cons_of_mem _ hy', List.mem_of_mem_drop hy', ?_⟩
      rintro rfl
      have hnd : ((kids k c).drop j).Nodup := hnodup.sublist (List.drop_sublist _ _)
      rw [hdrop] at hnd
      exact (List.nodup_cons.mp hnd).1 hy'
    have hapart : ∀ y ∈ ((kids k c).eraseIdx j).drop (j + 1), ∀ q, Reach (kids k₀) y q →
        ¬ Reach (kids k₀) x q := fun y hy q hq hxq =>
      (hlater y hy).2.2 (h₀.tree.sibling_unique hc₀ (hsub y (hlater y hy).2.1) (hsub x hmem) hq hxq)
    have hbelow : ∀ y ∈ kids k c, ∀ q, Reach (kids k₀) y q → InTree k₀ q ∧ q ≠ c := by
      intro y hy q hq
      refine ⟨hc₀.trans ((Reach.root.child (hsub y hy)).trans hq), ?_⟩
      rintro rfl
      exact h₀.tree.not_below hc₀ (hsub y hy) hq
    obtain ⟨h1, h2, h3⟩ := hrest d k1' c (j + 1) k' hk1 hc (by omega) (by
      intro y hy q hq
      rw [hlist] at hy
      obtain ⟨hyj, hyc, _⟩ := hlater y hy
      obtain ⟨hq₀, hqc⟩ := hbelow y hyc q hq
      rw [(hframe q hq₀ hqc (hapart y hy q hq)).2]
      exact hintact y hyj q hq) e2
    rw [hlist] at h1 h2 h3
    refine ⟨h1.trans (take_append_odds hj'), ?_, ?_⟩
    · rw [evens_drop hj', hget]
      intro y hy
      rcases List.mem_cons.mp hy with rfl | hy
      · apply hhalf.congr
        intro q hq
        obtain ⟨hq₀, hqc⟩ := hbelow y hmem q hq
        exact h3 q hq₀ hqc fun z hz hzq => hapart z (mem_of_evens hz) q hzq hq
      · exact h2 y hy
    · rw [evens_drop hj', hget]
      intro q hq hqc hno
      rw [h3 q hq hqc fun z hz => hno z (List.mem_cons_of_mem _ hz)]
      exact (hframe q hq hqc (hno x List.mem_cons_self)).2
  · rw [if_neg hj] at e
    cases e
    have hlen : (kids k c).length ≤ j := by
      rw [kids_length]
      omega
    rw [List.drop_eq_nil_of_le hlen, List.take_of_length_le hlen]
    refine ⟨(List.append_nil _).symm, fun y hy => ?_, fun _ _ _ _ => rfl⟩
    cases hy

theorem halves_spec (h₀ : WellFormed k₀) (fuel : Nat) : Halves k₀ fuel ∧ HalvesRest k₀ fuel := by
  induction fuel with
  | zero =>
    refine ⟨fun d k p c k' _ hp _ hfuel => ?_, fun d k c j k' _ _ hfuel => ?_⟩
    · have := fuelAt_pos h₀ hp
      omega
    · omega
  | succ fuel ih => exact ⟨halves_succ h₀ ih.2, halvesRest_succ h₀ ih.1 ih.2⟩

/-- **What is left below a removed child: every second entry of each list it goes through.** -/
theorem fsRemoveChild_halved (h : WellFormed k) (hp : InTree k p) (hc : c ∈ kids k p) :
    ∃ k', fsRemoveChild removeBound k p c = .ok k' ∧ Pruned k k' ∧ Halved k k' c := by
  obtain ⟨k', e, hk, _⟩ := fsRemoveChild_spec h hp hc
  obtain ⟨d, hd⟩ := hp.exists_at
  refine ⟨k', e, hk, (halves_spec h removeBound).1 d k p c k' (Pruned.refl k) hd hc ?_
    (fun _ _ => rfl) e⟩
  unfold fuelAt removeBound
  omega

end

/-! ## a directory with two files -/

/-- `mkdir a`, `cd a`, `touch b`, `touch c`, `cd ..` -/
theorem two_files : ∃ k, WellFormed k ∧ kids k k.root = [0x00800104] ∧
    (k.node 0x00800104).type = .directory ∧ kids k 0x00800104 = [0x008001FC, 0x00800374] := by
  have hrun : ((fsInit (Kernel.boot bootMachine)).toOption.bind fun k => k.run
      [(.mkdir, some ⟨str "a", by decide⟩), (.cd, some ⟨str "a", by decide⟩),
        (.touch, some ⟨str "b", by decide⟩), (.touch, some ⟨str "c", by decide⟩),
        (.cd, some dotDot)]).map
      (fun k => (kids k k.root, (k.node 0x00800104).type, kids k 0x00800104))
      = some ([0x00800104], .directory, [0x008001FC, 0x00800374]) := by decide +kernel
  obtain ⟨k, e, hres⟩ := Option.map_eq_some_iff.mp hrun
  obtain ⟨k0, e0, e⟩ := Option.bind_eq_some_iff.mp e
  have h0 : Run.Reachable commands k0 := .init ⟨bootMachine, toOption_eq_some e0, by decide +kernel⟩
  obtain ⟨bs, hk⟩ := shelled_reachable (reachable_commands h0 e)
  obtain ⟨h1, h2⟩ := Prod.mk.inj hres
  obtain ⟨h2, h3⟩ := Prod.mk.inj h2
  exact ⟨k, hk.tree.wf, h1, h2, h3⟩

section
variable {k₀ k k' : Kernel} {p q c : Word}

/-! ## the subtree of the removed child -/

/-- the directories that were below `c`, `c` included, have no entries left -/
def Dismantled (k k' : Kernel) (c : Word) : Prop :=
  ∀ q, Reach (kids k) c q → (k.node q).type = .directory → (k'.node q).childCount = 0

theorem Halved.dismantled_iff (h : WellFormed k) (hc : InTree k c) (hh : Halved k k' c) :
    Dismantled k k' c ↔
      ∀ q, Reach (kids k) c q → (k.node q).type = .directory → (k.node q).childCount ≤ 1 := by
  constructor
  · intro hall q hq hd
    have hle := hh.length_le hq
    rw [kids_length, kids_length, hall q hq hd] at hle
    exact hle
  · intro hone q hq _
    rw [← kids_length, hh.eq_nil (fun r hr => ?_) hq]
    · rfl
    · rw [kids_length]
      by_cases h0 : (k.node r).childCount = 0
      · rw [h0]
        exact Nat.zero_le 1
      · exact hone r hr (h.dir_of_count (hc.trans hr) h0)

/-- **The subtree of a removed directory is dismantled exactly when none of its directories has more
than one entry.** -/
theorem remove_dismantles_iff (h : WellFormed k) (hp : InTree k p) (hc : c ∈ kids k p) :
    ∃ k', fsRemoveChild removeBound k p c = .ok k' ∧ (Dismantled k k' c ↔
      ∀ q, Reach (kids k) c q → (k.node q).type = .directory → (k.node q).childCount ≤ 1) := by
  obtain ⟨k', e, _, hh⟩ := fsRemoveChild_halved h hp hc
  exact ⟨k', e, hh.dismantled_iff h (hp.child hc)⟩

theorem remove_dismantles_iff_two_files : ∃ k k', WellFormed k ∧
    fsRemoveChild removeBound k k.root 0x00800104 = .ok k' ∧ (Dismantled k k' 0x00800104 ↔
      ∀ q, Reach (kids k) 0x00800104 q → (k.node q).type = .directory → (k.node q).childCount ≤ 1) := by
  obtain ⟨k, h, hroot, _⟩ := two_files
  obtain ⟨k', e, hiff⟩ := remove_dismantles_iff h .root (c := 0x00800104)
    (by rw [hroot]; exact List.mem_cons_self)
  exact ⟨k, k', h, e, hiff⟩

/-- **A directory with two files keeps one of them when it is removed.** -/
theorem remove_keeps_entries : ¬ ∀ (k : Kernel) (p c : Word), WellFormed k → InTree k p → IsDir k p →
    c ∈ kids k p → (k.node c).type = .directory →
    ∃ k', fsRemoveChild removeBound k p c = .ok k' ∧ Dismantled k k' c := by
  intro hall
  obtain ⟨k, h, hroot, hd, hlist⟩ := two_files
  have hc : 0x00800104 ∈ kids k k.root := by
    rw [hroot]
    exact List.mem_cons_self
  obtain ⟨k', e, hdis⟩ := hall k k.root 0x00800104 h .root (h.isDir .root h.root_dir) hc hd
  obtain ⟨k'', e', _, hh⟩ := fsRemoveChild_halved h .root hc
  obtain rfl : k'' = k' := Except.ok.inj (e'.symm.trans e)
  have hone := (hh.dismantled_iff h (Reach.root.child hc)).mp hdis 0x00800104 .root hd
  rw [← kids_length, hlist] at hone
  exact absurd hone (by decide)

/-! ## everything else -/

theorem fsRemoveChild_absent (h : WellFormed k) (hp : IsDir k p → InTree k p)
    (hc : ¬ (IsDir k p ∧ c ∈ kids k p)) : fsRemoveChild removeBound k p c = .ok k := by
  have hfuel : removeBound = (removeBound - 1) + 1 := rfl
  rw [hfuel]
  unfold fsRemoveChild
  by_cases hguard : p = 0 ∨ (k.node p).type ≠ .directory
  · rw [if_pos hguard]
    rfl
  obtain ⟨h0, hd⟩ := not_or.mp hguard
  have hdir : IsDir k p := ⟨h0, not_not.mp hd⟩
  have harray := (h.node p (hp hdir)).array hdir.type
  have hfind : findSlot (k.slot (k.node p).children) c (k.node p).childCount 0 = none := by
    rcases findSlot_spec (k.slot (k.node p).children) c (k.node p).childCount 0 with
      ⟨i, _, _, hi, hs⟩ | ⟨e, _⟩
    · exact absurd ⟨hdir, mem_kids.mpr ⟨i, by omega, hs⟩⟩ hc
    · exact e
  rw [if_neg hguard, hfind]
  by_cases hcount : (k.node p).childCount = 0
  · rw [if_neg (not_not.mpr hcount)]
    rfl
  · rw [if_pos hcount, deref_ok harray]
    rfl

/-- **`fs_remove_child` returns, takes a listed child out of the list and touches nothing else outside
the subtree of the child.** -/
theorem fsRemoveChild_frame (h : WellFormed k) (p c : Word) (hp : IsDir k p → InTree k p) :
    ∃ k', fsRemoveChild removeBound k p c = .ok k' ∧
      (IsDir k p ∧ c ∈ kids k p → kids k' p = (kids k p).filter (· ≠ c) ∧
        (k'.node p).childCount + 1 = (k.node p).childCount) ∧
      (¬ (IsDir k p ∧ c ∈ kids k p) → k' = k) ∧
      (∀ q, InTree k q → q ≠ p → ¬ Reach (kids k) c q → kids k' q = kids k q) ∧
      ∀ q, (k'.node q).name = (k.node q).name ∧ (k'.node q).parent = (k.node q).parent ∧
        (k'.node q).size = (k.node q).size ∧ (k'.node q).data = (k.node q).data := by
  by_cases hlisted : IsDir k p ∧ c ∈ kids k p
  · obtain ⟨hdir, hc⟩ := hlisted
    have hin := hp hdir
    obtain ⟨k', e, hk, hlist, hframe⟩ := fsRemoveChild_spec h hin hc
    refine ⟨k', e, fun _ => ⟨?_, ?_⟩, fun hn => absurd ⟨hdir, hc⟩ hn,
      fun q hq hne hbelow => (hframe q hq hne hbelow).2, fun q => ?_⟩
    · rw [hlist, (h.tree.nodup p hin).erase_eq_filter]
      apply List.filter_congr
      intro x _
      rw [Bool.eq_iff_iff, bne_iff_ne, decide_eq_true_iff]
    · have hpos := List.length_pos_of_mem hc
      rw [← kids_length, hlist, List.length_erase_of_mem hc, ← kids_length]
      omega
    · rw [hk.node q]
      exact ⟨rfl, rfl, rfl, rfl⟩
  · exact ⟨k, fsRemoveChild_absent h hp hlisted, fun hl => absurd hl hlisted, fun _ => rfl,
      fun _ _ _ _ => rfl, fun _ => ⟨rfl, rfl, rfl, rfl⟩⟩

theorem fsRemoveChild_frame_two_files : ∃ k k', fsRemoveChild removeBound k k.root 0x00800104 = .ok k' ∧
    kids k' k.root = [] ∧ (k'.node k.root).childCount = 0 := by
  obtain ⟨k, h, hroot, _⟩ := two_files
  have hc : 0x00800104 ∈ kids k k.root := by
    rw [hroot]
    exact List.mem_cons_self
  obtain ⟨k', e, hlist, _⟩ := fsRemoveChild_frame h k.root 0x00800104 fun _ => .root
  obtain ⟨h1, h2⟩ := hlist ⟨h.isDir .root h.root_dir, hc⟩
  rw [hroot] at h1
  have hnil : kids k' k.root = [] := h1.trans (by decide)
  refine ⟨k, k', e, hnil, ?_⟩
  rw [← kids_length, hnil]
  rfl

end

end FirstKernel
