import FirstKernel.Fs.Depict

/-!
# The commands do what they do on the volume

From a state that depicts a volume, each command fails where the one on the volume does, or both print
the same and the new state depicts the new volume.

* `cmdLs_depicts`, `cmdCat_depicts`, `cmdCd_depicts`, `cmdHelp_depicts`   the commands that only look;
* `cmdTouch_depicts`, `cmdMkdir_depicts`                                  the commands that make an entry;
* `removal_frame`        `fs_remove_child` changes one list, and lists below the node that it takes out;
* `removeNamed_depicts`  the commands that remove one.
-/

namespace FirstKernel
open ByteMem Cells Tiling Outcome Arbor Rose

section
variable {k k' : Kernel} {bs : List Block} {N : Set Word} {born : Word → Nat} {readme p q f c n : Word}
  {v : Volume} {args : Option CString} {s s' : Machine}

/-! ## the commands that only look -/

/-- the loop prints one item for each slot -/
theorem lsLoop_depicts {array : Word} {n : Nat} (ha : n ≠ 0 → array ≠ 0) (i : Nat)
    (h : Depicts readme k v) (hc : ∀ c ∈ loadN (k.slot array) i n, c ≠ 0) :
    ∃ k', lsLoop array n i k = .ok k' ∧
      Tells readme k k' ((loadN (k.slot array) i n).map fun c => (itemOf readme k c).listing, v) := by
  induction n generalizing i k with
  | zero => exact ⟨k, rfl, (List.append_nil _).symm, h⟩
  | succ n ih =>
    have ha := ha (Nat.succ_ne_zero n)
    rw [loadN_cons] at hc ⊢
    rw [lsLoop, deref_ok ha, bind_ok]
    simp only [deref_ok (hc _ List.mem_cons_self), bind_ok]
    have hitem : (itemOf readme k (k.slot array i)).listing = ⟨if (k.node (k.slot array i)).type = .file
        then "%s  " else "%s/  ", [.str (k.node (k.slot array i)).name]⟩ := by
      unfold Item.listing
      rw [itemOf_type]
      rfl
    obtain ⟨k', e, hsay, hk'⟩ := ih (fun _ => ha) (i + 1) (h.printf _ _) fun c hm =>
      hc c (List.mem_cons_of_mem _ hm)
    refine ⟨k', e, hsay.trans ?_, hk'⟩
    rw [List.map_cons, hitem, List.append_cons]
    rfl

theorem cmdLs_depicts (h : Depicts readme k v) (hc : Census k bs N born) (args : Option CString) :
    ∃ k', cmdLs k args = .ok k' ∧ Tells readme k k' v.ls := by
  obtain ⟨m, _, hhere⟩ := h.here
  obtain ⟨henter, hN, _⟩ := hc.enter
  obtain ⟨k1, e, hsay, h1⟩ := lsLoop_depicts
    (fun hn h0 => hn (henter.empty _ hN h0) : (k.enter.node k.enter.currentDir).childCount ≠ 0 → _) 0
    (h.enter (hc.ne_zero hc.root.1)) fun c hm => henter.ne_zero (henter.younger _ hN c hm).1
  have hitems : (kids k.enter k.enter.currentDir).map (fun c => (itemOf readme k.enter c).listing)
      = v.here.children.map fun t => t.label.listing := by
    have hwork : k.enter.currentDir = k.workDir := rfl
    rw [hhere, unfold_children, List.map_map, kids_enter, hwork]
    refine List.map_congr_left fun c _ => ?_
    show _ = (unfold (kids k) (itemOf readme k) m c).label.listing
    rw [unfold_label, itemOf_congr (congrFun (enter_node k) c)]
  have hall : Tells readme k k1 (v.here.children.map fun t => t.label.listing, v) := by
    refine ⟨?_, h1⟩
    rw [hsay, enter_heap, ← hitems]
    rfl
  refine ⟨k1.printf "\n" [], ?_, hall.printf _ _⟩
  unfold cmdLs
  simp only [deref_ok (henter.ne_zero hN), bind_ok, e]
  rfl

theorem cmdCat_depicts (h : Depicts readme k v) (hk : Stock readme k bs N born)
    (ha : noArgs args = false) :
    ∃ r, cmdCat k args = .ok r ∧ Tells readme k r.2 (v.cat (argName args)) := by
  have hc := hk.toCensus
  have hroot0 := hc.ne_zero hc.root.1
  have hfind : fsFindChild k.enter k.enter.currentDir (argName args) = _ := hc.findEnter _
  have hmissing : ¬ (childNamed k k.workDir (argName args) ≠ 0 ∧
      (k.node (childNamed k k.workDir (argName args))).type = .file) →
      cmdCat k args = .ok ([], k.enter.printf "cat: No such file '%s'\n" (argText args)) := by
    intro hno
    rw [← enter_node k] at hno
    unfold cmdCat
    rw [show args.elim [] Subtype.val = argName args from rfl]
    simp only [ha, Bool.false_eq_true, if_false, hfind, bind_ok, if_neg hno]
    rfl
  unfold Volume.cat
  rcases h.find hc (argName_no_nul args) with ⟨h0, hv⟩ | ⟨i, c, hi, hc0, hchild, hv⟩
  · rw [hv]
    exact ⟨_, hmissing fun hn => hn.1 h0, h.tells hroot0 _ _⟩
  have hcN := (hc.younger _ hc.workDir.1 c (List.mem_of_getElem? hi)).1
  rw [hchild] at hmissing hfind
  cases ht : (k.node c).type with
  | directory =>
    rw [hv, itemOf_directory readme ht]
    refine ⟨_, hmissing fun hn => ?_, h.tells hroot0 _ _⟩
    rw [ht] at hn
    exact absurd hn.2 (by decide)
  | file =>
    obtain ⟨hd, hbytes⟩ := hk.bytes hcN ht
    have hsize : (k.node c).size.toNat ≤ writestringBound := Nat.le_of_lt (k.node c).size.isLt
    have hnul : 0 ∈ fileBytes k c := by
      rw [hbytes]
      exact fileText_nul readme c
    obtain ⟨reads, e1, _⟩ := writestring_stops hnul hsize
    have htext : (fileBytes k c).takeWhile (· ≠ 0)
        = if c = readme then str "Welcome to ContinuumOS!" else [] := by
      rw [hbytes]
      unfold fileText
      split
      · decide +kernel
      · decide +kernel
    refine ⟨_, (cmdCat_file ha hfind hc0 ht hd).trans (congrArg _ e1), ?_⟩
    rw [hv, itemOf_file readme ht, ← htext]
    exact h.tells hroot0 _ _

theorem cmdCd_depicts (h : Depicts readme k v) (hc : Census k bs N born) (ha : noArgs args = false) :
    ∃ k', cmdCd k args = .ok k' ∧ Tells readme k k' (v.cd (argName args)) := by
  have hroot0 := hc.ne_zero hc.root.1
  have henter := h.enter hroot0
  have hwork : k.enter.currentDir = k.workDir := rfl
  have hcur0 : k.workDir ≠ 0 := hc.workDir.2.ne_zero
  have hfind : fsFindChild k.enter k.enter.currentDir (argName args) = _ := hc.findEnter _
  have hdots : strcmp (argName args) (str "..") = 0 ↔ argName args = str ".." :=
    strcmp_eq_zero (argName_no_nul args) (by decide)
  unfold cmdCd Volume.cd
  rw [show args.elim [] Subtype.val = argName args from rfl]
  simp only [ha, Bool.false_eq_true, if_false, hdots, hfind, bind_ok]
  rw [hwork]
  by_cases hd : argName args = str ".."
  · rw [if_pos hd, if_pos hd]
    by_cases hp : v.path = []
    · have hroot : k.workDir = k.root := by
        have hpath := h.path
        rw [hp] at hpath
        exact (Option.some.inj hpath).symm
      rw [if_pos hp, hroot, if_neg fun hn => hn.2 (by rw [enter_node]; exact h.top)]
      exact ⟨_, rfl, h.tells hroot0 _ _⟩
    · obtain ⟨q, hq, hmem⟩ := follow_back h.path hp
      have hparent := h.back q (follow_reach hq) _ hmem
      have hq0 : q ≠ 0 := hc.ne_zero (hc.inTree (follow_reach hq))
      rw [← enter_node k] at hparent
      rw [if_neg hp, hparent, if_pos ⟨hcur0, hq0⟩]
      exact ⟨_, rfl, h.move hq0 hq⟩
  rw [if_neg hd, if_neg hd]
  rcases h.find hc (argName_no_nul args) with ⟨h0, hv⟩ | ⟨i, c, hi, hc0, hchild, hv⟩
  · rw [h0, hv, if_neg fun hn => hn.1 rfl]
    exact ⟨_, rfl, h.tells hroot0 _ _⟩
  rw [hchild, hv]
  have hnode := congrFun (enter_node k) c
  cases ht : (k.node c).type with
  | file =>
    have hno : ¬ (c ≠ 0 ∧ (k.enter.node c).type = .directory) := by
      rw [hnode, ht]
      exact fun hn => absurd hn.2 (by decide)
    rw [if_neg hno, itemOf_file readme ht]
    exact ⟨_, rfl, h.tells hroot0 _ _⟩
  | directory =>
    rw [if_pos ⟨hc0, by rw [hnode]; exact ht⟩, itemOf_directory readme ht]
    exact ⟨_, rfl, h.move hc0 ((follow_snoc h.path i).trans hi)⟩

/-- **`cmd_help` prints a line for each command.** -/
theorem cmdHelp_depicts (h : Depicts readme k v) (args : Option CString) :
    ∃ k', cmdHelp k args = .ok k' ∧
      Tells readme k k' (⟨"Available commands:\n", []⟩ :: registered.map ShellCommand.line, v) := by
  have hall : ∀ (cs : List ShellCommand) (k1 : Kernel) (out : List Printf), Tells readme k k1 (out, v) →
      Tells readme k (cs.foldl helpLine k1) (out ++ cs.map ShellCommand.line, v) := by
    intro cs
    induction cs with
    | nil =>
      intro k1 out h1
      rw [List.map_nil, List.append_nil]
      exact h1
    | cons c cs ih =>
      intro k1 out h1
      rw [List.map_cons, List.append_cons]
      exact ih _ _ (h1.printf _ _)
  refine ⟨_, cmdHelp_eq k args, hall registered _ [_] ?_⟩
  exact Tells.printf (r := ([], v)) ⟨(List.append_nil _).symm, h⟩ _ _

/-! ## the commands that make an entry -/

theorem map_eq_bind {α β : Type} (x : Res α) (F : α → β) : x.map F = x >>= fun a => .ok (F a) := by
  cases x with
  | error e => rfl
  | ok a => rfl

/-- the struct was not granted -/
theorem Depicts.refused (h : Depicts readme k v) (hc : Census k bs N born) {left : Arena}
    {out : List Printf} (hout : s.console = k.heap.console ++ out)
    (hl : ∃ bs, HeapBlocks s bs ∧ Leaves bs left) :
    Tells readme k { k.enter with heap := s } (out, ⟨left, v.tree, v.path⟩) := by
  have hs : SameTree k { k.enter with heap := s } := .of_eq (enter_root k) (enter_node k) (enter_slot k)
  have hw0 : ({ k.enter with heap := s } : Kernel).workDir = k.enter.workDir := workDir_congr rfl rfl
  have hw := hw0.trans (workDir_enter (hc.ne_zero hc.root.1))
  exact ⟨hout, h.same hs hl (by rw [hw]; exact h.path)⟩

theorem need_struct : need sizeofFSNode = 96 := by decide

theorem need_array : need sizeofChildren = 128 := by decide

theorem need_buffer : need 256 = 256 := by decide

theorem cmdTouch_depicts (h : Depicts readme k v) (hc : Census k bs N born) (hr : readme ∈ N)
    (ha : noArgs args = false) :
    Agree (cmdTouch k args) (v.touch (argName args)) (Tells readme k) := by
  obtain ⟨f, h1, out1, left1, e1, ht1, hsay1, hl1⟩ := kmalloc_takes h.left (n := sizeofFSNode) (by decide)
  rw [need_struct] at ht1
  unfold Volume.touch
  rw [ht1]
  by_cases hf : f = 0
  · rw [hf] at e1
    rw [cmdTouch_null ha e1, decide_eq_false (not_not.mpr hf)]
    exact .ok (h.refused hc hsay1 hl1)
  obtain ⟨q, h2, out2, left2, e2, ht2, hsay2, hl2⟩ :=
    kmalloc_takes (v := ⟨left1, v.tree, v.path⟩) hl1 (n := 256) (by decide)
  rw [need_buffer] at ht2
  dsimp only
  rw [ht2, decide_eq_true hf]
  by_cases hq : q = 0
  · rw [hq] at e2
    rw [cmdTouch_fault ha e1 hf e2, decide_eq_false (not_not.mpr hq)]
    exact .error _ _
  rw [cmdTouch_eq ha e1 hf e2 hq, decide_eq_true hq, map_eq_bind]
  obtain ⟨henter, hN, hd⟩ := hc.enter
  have hother : f ≠ readme := fun efr => hc.new_node e1 hf (efr ▸ hr)
  rw [← enter_heap k] at e1
  obtain ⟨bs', hb, _, hlive, hout, hnew⟩ := henter.create e1 hf e2
  obtain ⟨j, hj, hle⟩ := hlive hq
  obtain ⟨bs2, hb2, hleaves⟩ := hl2
  have hsize : 256 ≤ j := Nat.le_trans (by decide : 256 ≤ need 256) hle
  have hb' : HeapBlocks { h2 with mem := fill h2.mem q.toNat 0 256 } bs' :=
    hb.store rfl fun x hx => by
      have := hx.2 q j hj
      exact fill_out _ _ _ _ _ (by omega)
  let k1 : Kernel := (k.enter.withNode h2 f (fileNode (argName args) 256 q)).withMem
    (fill h2.mem q.toNat 0 256)
  obtain ⟨hs, hc1⟩ := hnew k1 (fileNode (argName args) 256 q) hb' rfl rfl rfl (fun _ _ => rfl)
    rfl rfl (argName_take_no_nul args) (.inr ⟨rfl, rfl⟩)
  have hself : k1.node f = fileNode (argName args) 256 q := Function.update_self ..
  have hitem : itemOf readme k1 f = ⟨(argName args).take 63, .file []⟩ := by
    unfold itemOf
    rw [hself, if_neg hother]
    rfl
  have hwork := workDir_enter (hc.ne_zero hc.root.1)
  have hsay : k1.heap.console = k.heap.console ++ (out1 ++ out2) := by
    show h2.console = _
    rw [hsay2, hsay1, List.append_assoc]
  have hoffer := (h.enter (hc.ne_zero hc.root.1)).offer henter hs hc1 (workDir_congr rfl rfl) hout
    (by rw [hself]; rfl) (by rw [hb.unique hb2]; exact hleaves)
  rw [hwork, hitem] at hoffer
  exact hoffer.bind fun _ _ ht => .ok (ht.behind hsay _ _)

theorem cmdMkdir_depicts (h : Depicts readme k v) (hc : Census k bs N born)
    (ha : noArgs args = false) :
    Agree (cmdMkdir k args) (v.mkdir (argName args)) (Tells readme k) := by
  obtain ⟨f, h1, out1, left1, e1, ht1, hsay1, hl1⟩ := kmalloc_takes h.left (n := sizeofFSNode) (by decide)
  rw [need_struct] at ht1
  unfold Volume.mkdir
  rw [ht1]
  by_cases hf : f = 0
  · rw [hf] at e1
    rw [cmdMkdir_null ha e1, decide_eq_false (not_not.mpr hf)]
    exact .ok (h.refused hc hsay1 hl1)
  obtain ⟨q, h2, out2, left2, e2, ht2, hsay2, hl2⟩ :=
    kmalloc_takes (v := ⟨left1, v.tree, v.path⟩) hl1 (n := sizeofChildren) (by decide)
  rw [need_array] at ht2
  dsimp only
  rw [ht2, decide_eq_true hf, cmdMkdir_eq ha e1 hf e2, map_eq_bind]
  obtain ⟨henter, hN, hd⟩ := hc.enter
  rw [← enter_heap k] at e1
  obtain ⟨bs', hb, _, _, hout, hnew⟩ := henter.create e1 hf e2
  obtain ⟨bs2, hb2, hleaves⟩ := hl2
  let k1 : Kernel := k.enter.withDir h2 f q (argName args)
  obtain ⟨hs, hc1⟩ := hnew k1 (newNode (argName args) .directory q) hb rfl rfl rfl
    (fun a ha => withDir_slot _ _ _ _ ha) rfl rfl (argName_take_no_nul args) (.inl ⟨rfl, rfl⟩)
  have hself : k1.node f = newNode (argName args) .directory q := Function.update_self ..
  have hitem : itemOf readme k1 f = ⟨(argName args).take 63, .directory (q ≠ 0)⟩ := by
    unfold itemOf
    rw [hself]
    rfl
  have hwork := workDir_enter (hc.ne_zero hc.root.1)
  have hsay : k1.heap.console = k.heap.console ++ (out1 ++ out2) := by
    show h2.console = _
    rw [hsay2, hsay1, List.append_assoc]
  have hoffer := (h.enter (hc.ne_zero hc.root.1)).offer henter hs hc1 (workDir_congr rfl rfl) hout
    (by rw [hself]; rfl) (by rw [hb.unique hb2]; exact hleaves)
  rw [hwork, hitem] at hoffer
  exact hoffer.bind fun _ _ ht => .ok (ht.behind hsay _ _)

/-! ## the commands that remove an entry -/

/-- **`fs_remove_child` changes the list of its directory, and lists below the node that it takes
out.** -/
theorem removal_frame (h : Census k bs N born) (fuel : Nat) :
    (∀ k1 p c, Thinned N k k1 → p ∈ N → Yields (fsRemoveChild fuel k1 p c) fun k2 =>
      ∀ q ∈ N, q ≠ p → ¬ Reach (kids k) c q → kids k2 q = kids k1 q) ∧
    ∀ k1 c j, Thinned N k k1 → c ∈ N → Yields (removeChildren fuel k1 c j) fun k2 =>
      ∀ q ∈ N, ¬ Reach (kids k) c q → kids k2 q = kids k1 q := by
  induction fuel with
  | zero =>
    refine ⟨fun k1 p c _ _ => ?_, fun k1 c j _ _ => ?_⟩
    · rw [fsRemoveChild]
      exact .error _
    · rw [removeChildren]
      exact .error _
  | succ fuel ih =>
    obtain ⟨ihCall, ihLoop⟩ := ih
    refine ⟨fun k1 p c ht hp => ?_, fun k1 c j ht hc => ?_⟩
    · rw [fsRemoveChild]
      refine .ite (fun _ => .pure fun _ _ _ _ => rfl) fun _ => ?_
      extract_lets search
      have hsearch : ∀ u, Yields (search u) fun k2 =>
          ∀ q ∈ N, q ≠ p → ¬ Reach (kids k) c q → kids k2 q = kids k1 q := by
        intro u
        simp only [search]
        cases hfind : findSlot (k1.slot (k1.node p).children) c (k1.node p).childCount 0 with
        | none => exact .pure fun _ _ _ _ => rfl
        | some i =>
          have hc : c ∈ kids k1 p := by
            rcases findSlot_spec (k1.slot (k1.node p).children) c (k1.node p).childCount 0 with
              ⟨i', _, _, hi, hs⟩ | ⟨e, _⟩
            · exact mem_kids.mpr ⟨i', by omega, hs⟩
            · rw [hfind] at e
              cases e
          obtain ⟨i', hi, hfind', _⟩ := findSlot_kids hc
          obtain rfl : i = i' := Option.some.inj (hfind.symm.trans hfind')
          have hck := (ht.kids p hp).subset hc
          obtain ⟨hcN, hlt⟩ := h.younger p hp c hck
          have ha : (k.node p).children ≠ 0 := by
            intro h0
            rw [kids_eq_nil (h.empty p hp h0)] at hck
            cases hck
          have hdrop : ∀ k2, Thinned N k k2 → kids k2 p = kids k1 p →
              (∀ q ∈ N, ¬ Reach (kids k) c q → kids k2 q = kids k1 q) →
              ∀ q ∈ N, q ≠ p → ¬ Reach (kids k) c q → kids (k2.dropSlot p i) q = kids k1 q := by
            intro k2 ht2 hlist hkeep q hq hne hno
            obtain ⟨_, hother⟩ := ht2.dropSlot h hp ha (i := i) (by rw [hlist]; exact hi)
            rw [hother q hq hne]
            exact hkeep q hq hno
          refine (Yields.trivial _).bind fun _ _ => ?_
          refine .ite (fun _ => ?_) fun _ => .pure (hdrop k1 ht rfl fun _ _ _ => rfl)
          intro k3 e3
          obtain ⟨k2, e2, e3⟩ := bind_eq_ok e3
          obtain ⟨ht2, hkeep⟩ := (thins h fuel).2 k1 c 0 ht hcN k2 e2
          have hpc : p ≠ c := by
            rintro rfl
            exact absurd hlt (Nat.lt_irrefl _)
          cases e3
          exact hdrop k2 ht2 (hkeep p hp hpc (Nat.le_of_lt hlt)) (ihLoop k1 c 0 ht hcN k2 e2)
      exact .ite (fun _ => (Yields.trivial _).bind fun u _ => hsearch u) fun _ => hsearch ()
    · rw [removeChildren]
      refine .ite (fun hj => ?_) fun _ => .pure fun _ _ _ => rfl
      intro k3 e3
      obtain ⟨k2, e2, e3⟩ := bind_eq_ok e3
      obtain ⟨ht2, _⟩ := (thins h fuel).1 k1 c _ ht hc k2 e2
      have hd : k1.slot (k1.node c).children j ∈ kids k c :=
        (ht.kids c hc).subset (mem_kids.mpr ⟨j, hj, rfl⟩)
      intro q hq hno
      have hqc : q ≠ c := by
        rintro rfl
        exact hno .root
      rw [ihLoop k2 c (j + 1) ht2 hc k3 e3 q hq hno]
      exact ihCall k1 c _ ht hc k2 e2 q hq hqc fun hr => hno ((Reach.root.child hd).trans hr)

theorem removed_depicts (h : Depicts readme k v) (hc : Census k bs N born) {k2 : Kernel} {i : Nat}
    (hi : (kids k k.workDir)[i]? = some c) (ht : Thinned N k k2)
    (hlist : kids k2 k.workDir = (kids k k.workDir).erase c)
    (hframe : ∀ q ∈ N, q ≠ k.workDir → ¬ Reach (kids k) c q → kids k2 q = kids k q) :
    Depicts readme k2 { v with
      tree := v.tree.modify (fun t => t.setChildren (t.children.eraseIdx i)) v.path } := by
  have hin := h.inTree
  obtain ⟨hlt, hget⟩ := List.getElem?_eq_some_iff.mp hi
  have hcmem := List.mem_of_getElem? hi
  have hnodup := h.acyclic.nodup _ hin
  have hitem : ∀ q, itemOf readme k2 q = itemOf readme k q := by
    intro q
    unfold itemOf
    rw [ht.node q]
  obtain ⟨htree, hsub⟩ := h.acyclic.shrink fun q hq => ht.kids q (hc.inTree hq)
  have hwork : k2.workDir = k.workDir := workDir_congr ht.currentDir ht.root
  obtain ⟨bs0, hb, hl⟩ := h.left
  have hroot := ht.root
  refine h.changed hroot hwork ⟨bs0, by rw [ht.heap]; exact hb, hl⟩ htree ?_ ?_ ?_ ?_
  · intro p hp d hd
    have hp' : InTree k p := by
      unfold InTree at hp
      rw [hroot] at hp
      exact hsub p hp
    rw [ht.node d]
    exact h.back p hp' d ((ht.kids p (hc.inTree hp')).subset hd)
  · rw [ht.node]
    exact h.top
  · intro q hq hno
    refine ⟨hframe q (hc.inTree hq) ?_ fun hr => hno ((Reach.root.child hcmem).trans hr), hitem q⟩
    rintro rfl
    exact hno .root
  · intro m
    have herase : (kids k k.workDir).erase c = (kids k k.workDir).eraseIdx i := by
      rw [← hget]
      exact hnodup.erase_getElem i hlt
    -- nothing below another entry is below the one removed
    have hold : ∀ d ∈ (kids k k.workDir).erase c,
        unfold (kids k2) (itemOf readme k2) m d = unfold (kids k) (itemOf readme k) m d := by
      intro d hd
      obtain ⟨hne, hdmem⟩ := hnodup.mem_erase_iff.mp hd
      refine unfold_congr (fun q hq => ⟨?_, hitem q⟩) m
      refine hframe q (hc.inTree ((hin.child hdmem).trans hq)) ?_ fun hr => ?_
      · rintro rfl
        exact h.acyclic.not_below hin hdmem hq
      · exact hne (h.acyclic.sibling_unique hin hdmem hcmem hq hr)
    show RoseTree.node _ _ = RoseTree.node _ (List.eraseIdx (List.map _ _) i)
    rw [hitem, hlist, List.map_congr_left hold, herase, List.eraseIdx_map]
    rfl

theorem removeNamed_depicts (h : Depicts readme k v) (hk : Stock readme k bs N born)
    (ha : noArgs args = false) (type : FSNodeType) (usage removed missing : String) :
    Agree (removeNamed type usage removed missing k args)
      (.ok (v.remove type removed missing (argName args)) : Res (List Printf × Volume))
      (Tells readme k) := by
  have hc := hk.toCensus
  have hroot0 := hc.ne_zero hc.root.1
  have henter := h.enter hroot0
  obtain ⟨hcenter, hN, _⟩ := hc.enter
  have hconsole : k.enter.heap.console = k.heap.console := by rw [enter_heap]
  have hfind : fsFindChild k.enter k.enter.currentDir (argName args) = _ := hc.findEnter _
  have hmissing : Tells readme k (k.enter.printf missing (argText args))
      (v.say missing (argName args)) := h.tells hroot0 _ _
  unfold removeNamed Volume.remove
  rw [show args.elim [] Subtype.val = argName args from rfl]
  simp only [ha, Bool.false_eq_true, if_false, hfind, bind_ok]
  rcases h.find hc (argName_no_nul args) with ⟨h0, hv⟩ | ⟨i, c, hi, hc0, hchild, hv⟩
  · rw [h0, hv, if_neg fun hn => hn.1 rfl]
    exact .ok hmissing
  rw [hchild, hv, enter_node]
  dsimp only
  rw [itemOf_type]
  by_cases ht : (k.node c).type = type
  · rw [if_pos ⟨hc0, ht⟩, if_pos ht]
    have hcap : ∀ p ∈ N, (k.enter.node p).childCount ≤ maxChildren := by
      intro p hp
      rw [enter_node]
      exact hk.capped p hp
    obtain ⟨k2, e⟩ := fsRemoveChild_returns hcenter hcap hN c
    obtain ⟨hthin, hlist, _⟩ := (thins hcenter removeBound).1 k.enter _ c (Thinned.refl _) hN k2 e
    have hframe := (removal_frame hcenter removeBound).1 k.enter _ c (Thinned.refl _) hN k2 e
    have hwork := workDir_eq (hcenter.ne_zero hN : k.enter.currentDir ≠ 0)
    rw [← hwork] at hlist hframe
    have hi' : (kids k.enter k.enter.workDir)[i]? = some c := by
      rw [workDir_enter hroot0, kids_enter]
      exact hi
    have hdone := removed_depicts henter hcenter hi' hthin hlist hframe
    rw [e]
    refine .ok (Tells.printf (r := ([], _)) ⟨?_, hdone⟩ removed (argText args))
    rw [hthin.heap, hconsole, List.append_nil]
  · rw [if_neg fun hn => ht hn.2, if_neg ht]
    exact .ok hmissing

end

end FirstKernel
