import FirstKernel.Fs.Effect

/-!
# The names in a directory

Nothing compares the name of a new entry with those already in the directory.

* `NameFree`         the step makes no entry under a name the directory has;
* `Unique.effect`    such a step keeps the names in each directory distinct;
* `find_removed`     after a removal the lookup finds the next entry with the name;
* `sibling_names`    both over runs.
-/

namespace FirstKernel
open ByteMem Cells Tiling Outcome

/-- the names of the entries of `p` -/
def names (k : Kernel) (p : Word) : List (List Byte) := (kids k p).map fun c => (k.node c).name

/-- no directory of the tree has two entries with one name -/
def SiblingsUnique (k : Kernel) : Prop := ∀ p, InTree k p → (names k p).Nodup

instance (c : Command) (args : Option CString) : Decidable (Creates c args) :=
  inferInstanceAs (Decidable (_ ∧ _))

/-- a new entry has a name, of which `sizeofName - 1` bytes are kept, that the directory does not have -/
def NameFree (k : Kernel) (op : Command × Option CString) : Prop :=
  Creates op.1 op.2 → (k.node k.workDir).childCount < maxChildren →
    (argName op.2).take (sizeofName - 1) ∉ names k k.workDir

instance (k : Kernel) (op : Command × Option CString) : Decidable (NameFree k op) :=
  inferInstanceAs (Decidable (_ → _))

instance (k : Kernel) (type : FSNodeType) (args : Option CString) : Decidable (Removable k type args) :=
  inferInstanceAs (Decidable (_ ∧ _))

/-- the entries of the current directory with the name in `args` -/
def sameName (k : Kernel) (args : Option CString) : List Word :=
  (kids k k.workDir).filter fun c => (k.node c).name = argName args

section
variable {k k' : Kernel} {bs : List Block} {N : Set Word} {born : Word → Nat} {p : Word}
  {args : Option CString} {cmd : Command} {type : FSNodeType}

/-! ## distinct names -/

/-- the nodes `N` list no name twice -/
def Unique (k : Kernel) (N : Set Word) : Prop := ∀ p ∈ N, (names k p).Nodup

theorem Census.names_congr (h : Census k bs N born) (hp : p ∈ N) (hk : kids k' p = kids k p)
    (hn : ∀ c ∈ N, (k'.node c).name = (k.node c).name) : names k' p = names k p := by
  unfold names
  rw [hk]
  apply List.map_congr_left
  intro c hc
  exact hn c (h.younger p hp c hc).1

theorem Unique.newborn {f : Word} (hN : Unique k' N) (hf : Newborn k N (argName args) f k') :
    Unique k' (insert f N) := by
  intro p hp
  rcases hp with rfl | hp
  · unfold names
    rw [hf.empty]
    exact List.nodup_nil
  · exact hN p hp

/-- **A step that makes no entry under a name in use keeps the names distinct.** -/
theorem Unique.effect (hu : Unique k N) (h : Census k bs N born) (hfree : NameFree k (cmd, args))
    (he : Effect k bs N born cmd args k') :
    ∃ bs' N' born', Census k' bs' N' born' ∧ Unique k' N' := by
  cases he with
  | quiet _ same hc =>
    refine ⟨_, _, _, hc, fun p hp => ?_⟩
    rw [h.names_congr hp (same.kids p hp) fun c hc => by rw [same.node c hc]]
    exact hu p hp
  | orphan f bs' _ made _ lists _ hc =>
    refine ⟨_, _, _, hc, Unique.newborn (fun p hp => ?_) made⟩
    rw [h.names_congr hp (lists p hp) made.names]
    exact hu p hp
  | added f bs' creates made room list others _ hc =>
    refine ⟨_, _, _, hc, Unique.newborn (fun p hp => ?_) made⟩
    by_cases hpw : p = k.workDir
    · have hlist : names k' p = names k p ++ [(argName args).take (sizeofName - 1)] := by
        unfold names
        rw [hpw, list, List.map_append, List.map_singleton, made.name]
        congr 1
        apply List.map_congr_left
        intro c hc
        exact made.names c (h.younger _ h.workDir.1 c hc).1
      rw [hlist, List.nodup_append]
      refine ⟨hu p hp, List.nodup_singleton _, fun a ha b hb => ?_⟩
      rw [List.mem_singleton.mp hb]
      rintro rfl
      rw [hpw] at ha
      exact hfree creates room ha
    · rw [h.names_congr hp (others p hp hpw) made.names]
      exact hu p hp
  | removed _ _ _ _ thinned hnames _ hc =>
    refine ⟨_, _, _, hc, fun p hp => ?_⟩
    have hsub : List.Sublist (names k' p) (names k p) := by
      have hmap : names k' p = (kids k' p).map fun c => (k.node c).name := by
        apply List.map_congr_left
        intro c _
        exact hnames c
      rw [hmap]
      exact (thinned p hp).map _
    exact hsub.nodup (hu p hp)

/-! ## the lookup after a removal -/

/-- without its first element with a property a list starts with the second -/
theorem find?_erase_first {α : Type} [DecidableEq α] {f : α → Bool} {l : List α} {x : α}
    (h : l.find? f = some x) : (l.erase x).find? f = (l.filter f)[1]? := by
  rw [← List.head?_filter, ← List.erase_filter]
  rw [← List.head?_filter] at h
  obtain ⟨rest, e⟩ := List.head?_eq_some_iff.mp h
  rw [e, List.erase_cons_head, List.getElem?_cons_succ, List.head?_eq_getElem?]

/-- the lookup compares names -/
theorem Census.childNamed_eq (h : Census k bs N born) (hp : p ∈ N) (args : Option CString) :
    childNamed k p (argName args)
      = ((kids k p).find? fun c => (k.node c).name = argName args).getD 0 := by
  unfold childNamed
  have hsame : ∀ c ∈ kids k p, strcmp (k.node c).name (argName args) = 0 ↔
      (k.node c).name = argName args := fun c hc =>
    strcmp_eq_zero (h.name c (h.younger p hp c hc).1) (argName_no_nul args)
  rw [← List.head?_filter, ← List.head?_filter, List.filter_congr]
  intro c hc
  rw [decide_eq_decide]
  exact hsame c hc

theorem Command.removes_eq (hc : cmd.removes = some type) :
    ∃ usage removed missing, ∀ k args,
      cmd.exec k args = removeNamed type usage removed missing k args := by
  cases cmd with
  | rm =>
    cases hc
    exact ⟨_, _, _, fun _ _ => rfl⟩
  | rmdir =>
    cases hc
    exact ⟨_, _, _, fun _ _ => rfl⟩
  | touch => cases hc
  | mkdir => cases hc
  | cd => cases hc
  | ls => cases hc

/-- **After a removal the lookup finds the second entry that had the name.** -/
theorem find_removed (h : Census k bs N born) (hc : cmd.removes = some type)
    (hr : Removable k type args) : Yields (cmd.exec k args) fun k' =>
      fsFindChild k' k.workDir (argName args) = .ok ((sameName k args)[1]?.getD 0) := by
  obtain ⟨usage, removed, missing, hexec⟩ := Command.removes_eq hc
  rw [hexec]
  refine (removeNamed_found h usage removed missing hr hc).mono fun k' ⟨_, hc', hlist, hsame⟩ => ?_
  obtain ⟨hN, hdir⟩ := h.workDir
  have htype : (k'.node k.workDir).type = .directory := by
    rw [(hsame _).2]
    exact hdir.type
  rw [hc'.find hN htype, hc'.childNamed_eq hN, hlist]
  simp only [(hsame _).1]
  -- the child that was found is the first with the name
  have hfirst : (kids k k.workDir).find? (fun c => (k.node c).name = argName args)
      = some (childNamed k k.workDir (argName args)) := by
    have h0 := hr.2.1
    rw [h.childNamed_eq hN] at h0 ⊢
    cases e : (kids k k.workDir).find? fun c => (k.node c).name = argName args with
    | none =>
      rw [e] at h0
      exact absurd rfl h0
    | some c => rfl
  rw [find?_erase_first hfirst]
  rfl

end

/-! ## runs -/

/-- **In the runs that give each new entry a name its directory does not have, siblings have distinct
names and a removed name is gone; in every run the lookup after a removal finds the second entry
with the name.** -/
theorem sibling_names (k : Kernel) :
    (Run.Reachable (shellRuns.restrict NameFree) k → SiblingsUnique k ∧
      ∀ (cmd : Command) type args k', cmd.removes = some type → Removable k type args →
        cmd.exec k args = .ok k' → fsFindChild k' k.workDir (argName args) = .ok 0) ∧
    (Run.Reachable shellRuns k → ∀ (cmd : Command) type args k', cmd.removes = some type →
      Removable k type args → cmd.exec k args = .ok k' →
        fsFindChild k' k.workDir (argName args) = .ok ((sameName k args)[1]?.getD 0)) := by
  constructor
  · intro hk
    obtain ⟨bs, N, born, h, hu⟩ : ∃ bs N born, Census k bs N born ∧ Unique k N := by
      refine hk.invariant ?_ ?_
      · intro k ⟨s, e⟩
        obtain ⟨bs, hc, hnil⟩ := census_init e
        refine ⟨_, _, _, hc, fun p (hp : p = k.root) => ?_⟩
        unfold names
        rw [hp, hnil]
        exact List.nodup_nil
      · intro k op k' _ ⟨bs, N, born, hc, hu⟩ ⟨hfree, e⟩
        exact hu.effect hc hfree (command_effect hc op.1 op.2 k' e)
    refine ⟨fun p hp => hu p (h.inTree hp), fun cmd type args k' hc hr e => ?_⟩
    rw [find_removed h hc hr k' e]
    -- with distinct names there is no second entry
    have hnodup := hu _ h.workDir.1
    have hone : (sameName k args).length ≤ 1 := by
      have hcount := List.nodup_iff_count_le_one.mp hnodup (argName args)
      unfold names at hcount
      rw [List.count_eq_countP, List.countP_map, List.countP_eq_length_filter] at hcount
      refine Nat.le_trans (Nat.le_of_eq (congrArg List.length (List.filter_congr ?_))) hcount
      intro c _
      rw [Function.comp_apply, beq_eq_decide]
    rw [List.getElem?_eq_none hone]
    rfl
  · intro hk cmd type args k' hc hr e
    obtain ⟨bs, N, born, h⟩ := census_reachable hk
    exact find_removed h hc hr k' e

def argA : Option CString := some ⟨str "a", by decide⟩
def argB : Option CString := some ⟨str "b", by decide⟩

/-- in a directory `b` the directories `a` and `b` are made, and `a` removed -/
theorem sibling_names_b : ∃ k k', names k k.workDir = [str "a", str "b"] ∧ SiblingsUnique k ∧
    cmdRmdir k argA = .ok k' ∧ fsFindChild k' k.workDir (str "a") = .ok 0 := by
  have hrun : ((fsInit (Kernel.boot bootMachine)).toOption.bind fun k =>
      Run.drive (fun k (op : Command × Option CString) => op.1.exec k op.2) NameFree k
        [(.mkdir, argB), (.cd, argB), (.mkdir, argA), (.mkdir, argB)]).map
      (fun k => (names k k.workDir, decide (Removable k .directory argA), (cmdRmdir k argA).isOk))
      = some ([str "a", str "b"], true, true) := by decide +kernel
  obtain ⟨k, e, hres⟩ := Option.map_eq_some_iff.mp hrun
  obtain ⟨k0, e0, e⟩ := Option.bind_eq_some_iff.mp e
  have h0 : Run.Reachable (shellRuns.restrict NameFree) k0 := .init ⟨bootMachine, toOption_eq_some e0⟩
  have hk := h0.drive (fun _ _ _ he => he) e
  obtain ⟨hnames, hrest⟩ := Prod.mk.inj hres
  obtain ⟨hr, hok⟩ := Prod.mk.inj hrest
  obtain ⟨hu, hgone⟩ := (sibling_names k).1 hk
  cases e' : cmdRmdir k argA with
  | error _ =>
    rw [e'] at hok
    cases hok
  | ok k' =>
    exact ⟨k, k', hnames, hu, e', hgone .rmdir .directory argA k' rfl (of_decide_eq_true hr) e'⟩

/-- two directories of one name, and `rmdir` leaves the second -/
theorem mkdir_twice : ∃ k k' q, Run.Reachable shellRuns k ∧ ¬ SiblingsUnique k ∧
    cmdRmdir k argA = .ok k' ∧ fsFindChild k' k.workDir (str "a") = .ok q ∧ q ≠ 0 := by
  have hrun : ((fsInit (Kernel.boot bootMachine)).toOption.bind fun k =>
      Run.drive (fun k (op : Command × Option CString) => op.1.exec k op.2) (fun _ _ => True) k
        [(.mkdir, argA), (.mkdir, argA)]).map
      (fun k => (names k k.root, (cmdRmdir k argA).toOption.bind fun k' =>
        (fsFindChild k' k.workDir (str "a")).toOption))
      = some ([str "a", str "a"], some 0x008001FC) := by decide +kernel
  obtain ⟨k, e, hres⟩ := Option.map_eq_some_iff.mp hrun
  obtain ⟨k0, e0, e⟩ := Option.bind_eq_some_iff.mp e
  have h0 : Run.Reachable (shellRuns.restrict fun _ _ => True) k0 :=
    .init ⟨bootMachine, toOption_eq_some e0⟩
  have hk := (h0.drive (fun _ _ _ he => he) e).of_restrict
  obtain ⟨hnames, hfound⟩ := Prod.mk.inj hres
  obtain ⟨k', e1, e2⟩ := Option.bind_eq_some_iff.mp hfound
  refine ⟨k, k', _, hk, fun hu => ?_, toOption_eq_some e1, toOption_eq_some e2, by decide⟩
  have := hu k.root .root
  rw [hnames] at this
  exact absurd this (by decide)

end FirstKernel
