import FirstKernel.Fs.DiskRun
import FirstKernel.Fs.Names
import Mathlib.Data.List.Find

/-!
# Looking for what was created

`fs_create_node` keeps the first 63 bytes of a name and `fs_find_child` compares all of it.

* `FoundAs`         what the lookups answer after a node was made;
* `command_added`   a command that makes a node;
* `created_found`   from any state of a run.
-/

namespace FirstKernel
open ByteMem Cells Tiling Outcome

/-- `f` is a new node in the directory a command with the argument `a` works in: found under `a` if
that has at most 63 bytes and under its first 63 bytes if not, when no older node is; older nodes are
found as before -/
structure FoundAs (k k' : Kernel) (a : CString) (f : Word) : Prop where
  dir : k'.currentDir = k.workDir
  isNew : f ≠ 0 ∧ ¬ InTree k f
  list : kids k' k.workDir = kids k k.workDir ++ [f]
  short : a.val.length < sizeofName → fsFindChild k' k'.currentDir a.val = .ok f
  long : sizeofName ≤ a.val.length → fsFindChild k' k'.currentDir a.val = .ok 0
  cut : fsFindChild k k.workDir (a.val.take (sizeofName - 1)) = .ok 0 →
    fsFindChild k' k'.currentDir (a.val.take (sizeofName - 1)) = .ok f
  kept : ∀ name x, fsFindChild k k.workDir name = .ok x → x ≠ 0 →
    fsFindChild k' k'.currentDir name = .ok x

section
variable {k k' : Kernel} {bs bs' : List Block} {N : Set Word} {born born' : Word → Nat}
  {d p f : Word} {name : List Byte} {a : CString} {cmd : Command}

/-! ## one more entry -/

/-- a new last entry is found under its name, unless an older one is -/
theorem childNamed_append (hlist : kids k' d = kids k d ++ [f])
    (hnames : ∀ c ∈ kids k d, (k'.node c).name = (k.node c).name) (hne : ∀ c ∈ kids k d, c ≠ 0)
    (name : List Byte) : childNamed k' d name = if childNamed k d name ≠ 0 then childNamed k d name
      else if strcmp (k'.node f).name name = 0 then f else 0 := by
  have hfind : (kids k d).find? (fun c => strcmp (k'.node c).name name = 0)
      = (kids k d).find? fun c => strcmp (k.node c).name name = 0 := by
    apply List.find?_congr
    intro c hc
    rw [hnames c hc]
  unfold childNamed
  rw [hlist, List.find?_append, hfind]
  cases hold : (kids k d).find? fun c => strcmp (k.node c).name name = 0 with
  | some c =>
    have hc := hne c (List.mem_of_find?_eq_some hold)
    rw [Option.some_or, Option.getD_some, if_pos hc]
  | none =>
    rw [Option.none_or, Option.getD_none, if_neg (not_not.mpr rfl), List.find?_singleton]
    by_cases hn : strcmp (k'.node f).name name = 0
    · rw [if_pos hn, if_pos (decide_eq_true hn), Option.getD_some]
    · rw [if_neg hn, if_neg (by rw [decide_eq_true_iff]; exact hn), Option.getD_none]

/-- the first 63 bytes of a name -/
theorem strcmp_take (a : CString) (hname : (0 : Byte) ∉ name) :
    strcmp (a.val.take (sizeofName - 1)) name = 0 ↔ a.val.take (sizeofName - 1) = name :=
  strcmp_eq_zero (fun h => a.property (List.mem_of_mem_take h)) hname

/-! ## the command returns -/

/-- a node in a state that differs from `k` in this node, offered to a directory with room for it -/
theorem offer_returns {k1 : Kernel} {nd : FSNode} (hnode : k1.node = Function.update k.node f nd)
    (hd : IsDir k d) (hdf : d ≠ f) (hroom : (k.node d).childCount < maxChildren)
    (ha : (k.node d).children ≠ 0) (hf : f ≠ 0) :
    fsAddChild k1 d f = .ok (k1.attach d f) := by
  have e : k1.node d = k.node d := by rw [hnode, Function.update_of_ne hdf]
  exact fsAddChild_attach ⟨hd.ne_zero, by rw [e]; exact hd.type⟩ (by rw [e]; exact hroom)
    (by rw [e]; exact ha) hf

theorem command_returns (h : Disk k bs N born) (hc : cmd = .touch ∨ cmd = .mkdir) (hne : a.val ≠ [])
    (hroom : (k.node k.workDir).childCount < maxChildren) (ha : (k.node k.workDir).children ≠ 0)
    (hg : grants k.heap (cmd.sizes (some a)) = true) :
    ∃ k', cmd.exec k (some a) = .ok k' ∧ k'.currentDir = k.workDir := by
  have hargs : noArgs (some a) = false := decide_eq_false fun h0 =>
    hne (List.eq_nil_of_length_eq_zero h0)
  obtain ⟨hN, hd⟩ := h.toCensus.workDir
  have hnew : ∀ {f : Word} {h1 : Machine}, kmalloc k.heap sizeofFSNode = .ok (f, h1) → f ≠ 0 →
      k.workDir ≠ f := by
    rintro f h1 e1 hf rfl
    obtain ⟨_, _, _, hfresh⟩ := kmalloc_fresh h.blocks e1
    obtain ⟨j, hj⟩ := h.live _ hN
    exact (hfresh hf).2 j hj
  unfold Command.sizes at hg
  rw [hargs] at hg
  rcases hc with rfl | rfl
  · obtain ⟨f, h1, q, h2, e1, hf, e2, hq⟩ := grants_two hg
    have e := cmdTouch_eq hargs e1 hf e2 hq
    have hnode : ((k.enter.withNode h2 f (fileNode (argName (some a)) 256 q)).withMem
        (fill h2.mem q.toNat 0 256)).node
          = Function.update k.node f (fileNode (argName (some a)) 256 q) := by
      show Function.update k.enter.node f _ = _
      rw [enter_node]
    rw [show k.enter.currentDir = k.workDir from rfl,
      offer_returns hnode hd (hnew e1 hf) hroom ha hf] at e
    exact ⟨_, e, rfl⟩
  · obtain ⟨f, h1, q, h2, e1, hf, e2, hq⟩ := grants_two hg
    have e := cmdMkdir_eq hargs e1 hf e2
    have hnode : (k.enter.withDir h2 f q (argName (some a))).node
        = Function.update k.node f (newNode (argName (some a)) .directory q) := by
      show Function.update k.enter.node f _ = _
      rw [enter_node]
    rw [show k.enter.currentDir = k.workDir from rfl,
      offer_returns hnode hd (hnew e1 hf) hroom ha hf] at e
    exact ⟨_, e, rfl⟩

/-- **A command that makes a node with a name no older one has.** -/
theorem command_added (h : Disk k bs N born) (hc : cmd = .touch ∨ cmd = .mkdir) (hne : a.val ≠ [])
    (hroom : (k.node k.workDir).childCount < maxChildren) (ha : (k.node k.workDir).children ≠ 0)
    (hg : grants k.heap (cmd.sizes (some a)) = true) (hfree : fsFindChild k k.workDir a.val = .ok 0) :
    ∃ k' f, cmd.exec k (some a) = .ok k' ∧ FoundAs k k' a f := by
  have hargs : noArgs (some a) = false := decide_eq_false fun h0 =>
    hne (List.eq_nil_of_length_eq_zero h0)
  obtain ⟨k', e, hcur⟩ := command_returns h hc hne hroom ha hg
  obtain ⟨hN, hdir⟩ := h.toCensus.workDir
  refine ⟨k', ?_⟩
  cases command_effect h.toCensus cmd (some a) k' e with
  | quiet idle =>
    have := idle.creates ⟨hc, hargs⟩
    rw [hg] at this
    cases this
  | orphan f bs' _ _ full => exact absurd hroom (Nat.not_lt_of_le full)
  | removed type removes =>
    rcases hc with rfl | rfl
    · cases removes
    · cases removes
  | added f bs' _ made _ list _ _ census =>
    have hkids : ∀ c ∈ kids k k.workDir, c ∈ N := fun c hc => (h.younger _ hN c hc).1
    have hmade : f ≠ 0 := census.ne_zero (.inl rfl)
    have hd' : (k'.node k.workDir).type = .directory := by
      refine census.dir _ (.inr hN) fun h0 => ?_
      have hnil := kids_eq_nil h0
      rw [list] at hnil
      exact absurd hnil (List.append_ne_nil_of_right_ne_nil _ (List.cons_ne_nil f []))
    -- the lookups before and after, in terms of the lists
    have hold : ∀ name, fsFindChild k k.workDir name = .ok (childNamed k k.workDir name) :=
      h.toCensus.find hN hdir.type
    have hnow : ∀ name, fsFindChild k' k'.currentDir name = .ok (childNamed k' k.workDir name) := by
      rw [hcur]
      exact census.find (.inr hN) hd'
    have happ := childNamed_append list (fun c hc => made.names c (hkids c hc)) fun c hc =>
      h.ne_zero (hkids c hc)
    have hname : (k'.node f).name = a.val.take (sizeofName - 1) := made.name
    refine ⟨f, e, hcur, ⟨hmade, fun hin => made.fresh (h.toCensus.inTree hin)⟩, list, fun hlt => ?_,
      fun hle => ?_, fun hcut => ?_, fun name x hx hx0 => ?_⟩
    · rw [hold] at hfree
      rw [hnow, happ, if_neg (not_not.mpr (Except.ok.inj hfree)), hname, if_pos]
      rw [strcmp_take a a.property]
      exact List.take_of_length_le (Nat.le_of_lt_succ hlt)
    · rw [hold] at hfree
      rw [hnow, happ, if_neg (not_not.mpr (Except.ok.inj hfree)), hname, if_neg]
      rw [strcmp_take a a.property]
      intro e
      have hlen := congrArg List.length e
      rw [List.length_take] at hlen
      unfold sizeofName at hle hlen
      omega
    · rw [hold] at hcut
      rw [hnow, happ, if_neg (not_not.mpr (Except.ok.inj hcut)), hname, if_pos]
      exact (strcmp_take a fun h => a.property (List.mem_of_mem_take h)).mpr rfl
    · rw [hold] at hx
      have hx : childNamed k k.workDir name = x := Except.ok.inj hx
      rw [hnow, happ, hx, if_pos hx0]

end

/-- **In every run, what `cmd_touch` or `cmd_mkdir` makes is found under the first 63 bytes of its name,
which is all of a name of that length; whatever was found before is found still.** -/
theorem created_found (k : Kernel) (h : Run.Reachable fsRuns k) (cmd : Command)
    (hc : cmd = .touch ∨ cmd = .mkdir) (a : CString) (hne : a.val ≠ [])
    (hroom : (k.node k.workDir).childCount < maxChildren)
    (hfree : fsFindChild k k.workDir a.val = .ok 0) (harray : (k.node k.workDir).children ≠ 0)
    (hg : grants k.heap (cmd.sizes (some a)) = true) :
    ∃ k' f, cmd.exec k (some a) = .ok k' ∧ FoundAs k k' a f := by
  obtain ⟨bs, N, born, hd, _⟩ := disk_reachable h
  exact command_added hd hc hne hroom harray hg hfree

/-- the argument of a command, 64 letters -/
def longArg : CString := ⟨List.replicate 64 (chr 'a'), by decide⟩

/-- the current directory has room and an array and nothing called `a`, and the heap has room for a
file -/
def roomFor (k : Kernel) (a : CString) : Bool :=
  decide ((k.node k.workDir).childCount < maxChildren) && decide ((k.node k.workDir).children ≠ 0) &&
    grants k.heap (Command.touch.sizes (some a)) &&
    decide ((fsFindChild k k.workDir a.val).toOption = some 0)

theorem roomFor_iff {k : Kernel} {a : CString} (h : roomFor k a = true) :
    (k.node k.workDir).childCount < maxChildren ∧ (k.node k.workDir).children ≠ 0 ∧
      grants k.heap (Command.touch.sizes (some a)) = true ∧ fsFindChild k k.workDir a.val = .ok 0 := by
  unfold roomFor at h
  simp only [Bool.and_eq_true, decide_eq_true_eq] at h
  obtain ⟨⟨⟨hroom, harray⟩, hg⟩, hfree⟩ := h
  exact ⟨hroom, harray, hg, toOption_eq_some hfree⟩

/-- `touch a` after start-up -/
theorem created_found_a : ∃ k k' f, fsInit (Kernel.boot bootMachine) = .ok k ∧
    Command.touch.exec k (some ⟨str "a", by decide⟩) = .ok k' ∧
    FoundAs k k' ⟨str "a", by decide⟩ f := by
  have hrun : ((fsInit (Kernel.boot bootMachine)).toOption.map fun k => roomFor k ⟨str "a", by decide⟩)
      = some true := by decide +kernel
  obtain ⟨k, e0, hres⟩ := Option.map_eq_some_iff.mp hrun
  obtain ⟨hroom, harray, hg, hfree⟩ := roomFor_iff hres
  obtain ⟨k', f, e, hfound⟩ := created_found k (.init ⟨bootMachine, toOption_eq_some e0⟩) .touch
    (.inl rfl) ⟨str "a", by decide⟩ (List.cons_ne_nil _ _) hroom hfree harray hg
  exact ⟨k, k', f, toOption_eq_some e0, e, hfound⟩

/-- after `touch` with 64 letters nothing is found under them -/
theorem long_name_not_found : ∃ k k', Run.Reachable fsRuns k ∧ roomFor k longArg = true ∧
    Command.touch.exec k (some longArg) = .ok k' ∧ (kids k' k'.currentDir).length = 1 ∧
    fsFindChild k' k'.currentDir longArg.val = .ok 0 := by
  have hrun : ((fsInit (Kernel.boot bootMachine)).toOption.bind fun k =>
      (Command.touch.exec k (some longArg)).toOption.map fun k' => (roomFor k longArg,
        (kids k' k'.currentDir).length, (fsFindChild k' k'.currentDir longArg.val).toOption))
      = some (true, 1, some 0) := by decide +kernel
  obtain ⟨k, e0, hres⟩ := Option.bind_eq_some_iff.mp hrun
  obtain ⟨k', e, hres⟩ := Option.map_eq_some_iff.mp hres
  obtain ⟨hroom, hres⟩ := Prod.mk.inj hres
  obtain ⟨hone, hgone⟩ := Prod.mk.inj hres
  exact ⟨k, k', .init ⟨bootMachine, toOption_eq_some e0⟩, hroom, toOption_eq_some e, hone,
    toOption_eq_some hgone⟩

end FirstKernel
