import FirstKernel.Fs.Buffers

/-!
# Where a path puts a new node

`Placed k k' type d f name`: the new node `f` is called `name` and is the last entry of `d`, and no
other list changed.

* `parent_resolved`       the directory that the parent part of a path is resolved to;
* `places_offer`          a node offered to a directory is placed in that one;
* `make_at_path_iff`      when `fs_mkdir` and `fs_touch` put the node where the path leads.
-/

namespace FirstKernel
open ByteMem Cells Arbor Split

/-- `f` is a new and empty node called `name` at the end of the list of `d`; the other directories keep
theirs -/
structure Placed (k k' : Kernel) (type : FSNodeType) (d f : Word) (name : List Byte) : Prop where
  ne_zero : f ≠ 0
  isNew : ¬ InTree k f
  list : kids k' d = kids k d ++ [f]
  name : (k'.node f).name = name
  type : (k'.node f).type = type
  empty : kids k' f = [] ∧ (k'.node f).size = 0
  other : ∀ q, InTree k q → (k.node q).type = .directory → q ≠ d → kids k' q = kids k q

/-- a call that answers such a node -/
def Places (k : Kernel) (type : FSNodeType) (d : Word) (name : List Byte)
    (r : Res (Word × Kernel)) : Prop :=
  ∃ f k', r = .ok (f, k') ∧ Placed k k' type d f name

section
variable {k k1 k' : Kernel} {bs : List Tiling.Block} {p d f q : Word} {type : FSNodeType}
  {name : List Byte} {nd : FSNode}

theorem not_places_null : ¬ Places k type d name (.ok (0, k')) := by
  rintro ⟨f, k2, e, hplaced⟩
  cases e
  exact hplaced.ne_zero rfl

/-- **A node offered to `p` is placed in `d` when these are one.** -/
theorem places_offer (h : WellFormed k) (hm : Made k k1 f) (hself : k1.node f = nd)
    (hname : nd.name = name)
    (htype : nd.type = type) (hsize : nd.size = 0) (hc : Complete nd) (hp : InTree k p)
    (hpd : (k.node p).type = .directory) (hd : InTree k d) (hroom : HasRoom k d) :
    Places k type d name ((fsAddChild k1 p f).map (f, ·)) ↔ p = d := by
  -- a list that grows by one is not the old one
  have hgrows : ∀ k2, kids k2 d = kids k d → ¬ kids k2 d = kids k d ++ [f] := by
    intro k2 e e'
    have := congrArg List.length (e.symm.trans e')
    rw [List.length_append, List.length_singleton] at this
    omega
  rcases addChild_cases h hm.same hp hpd f with ⟨hfull, k2, e, hs2, _⟩ | ⟨_, hf, _⟩ | ⟨_, hf, e⟩
  · rw [e]
    constructor
    · rintro ⟨f', k', hr, hplaced⟩
      cases hr
      exact absurd hplaced.list (hgrows k2 (hs2.kids d hd))
    · rintro rfl
      exact absurd hroom (Nat.not_lt.mpr hfull)
  · exact absurd hf hm.ne_zero
  · rw [e]
    have ha : Attached k (k1.attach p f) type p f :=
      attached_attach h hm hp hpd (by rw [hself, htype]) (by rw [hself]; exact hc)
    constructor
    · rintro ⟨f', k', hr, hplaced⟩
      cases hr
      by_contra hne
      exact hgrows _ (ha.other d hd fun e => hne e.symm).2 hplaced.list
    · rintro rfl
      refine ⟨f, _, rfl, hf, ha.isNew, ha.list, ?_, ha.type, ⟨ha.empty, ?_⟩,
        fun q hq _ hne => (ha.other q hq hne).2⟩
      · rw [hm.node_attach hp, hself]
        exact hname
      · rw [hm.node_attach hp, hself]
        exact hsize

/-! ## the parent part -/

theorem inTree_walk {comps : List (List Byte)} (hp : InTree k p)
    (e : componentWalk k p comps = some q) :
    InTree k q := by
  induction comps generalizing p with
  | nil =>
    cases e
    exact hp
  | cons name comps ih =>
    rw [componentWalk_cons] at e
    obtain ⟨r, e1, e2⟩ := Option.bind_eq_some_iff.mp e
    exact ih (inTree_entryOf (.inr hp) e1) e2

/-- **The parent part that leads to `d` is resolved to `d` only with a slash at its end.** -/
theorem parent_resolved (h : WellFormed k) {parentPath : CString}
    (habs : parentPath.val.head? = some (chr '/')) (hlen : parentPath.val.length < sizeofTemp)
    (hd : componentWalk k k.root (steps (components parentPath.val)) = some d)
    (hdir : (k.node d).type = .directory) :
    ∃ p, fsFindByPath k (some parentPath) = .ok p ∧ InTree k p ∧ (k.node p).type = .directory ∧
      (p = d ↔ parentPath.val.getLast? = some (chr '/')) := by
  have hslash : chr '/' ∈ parentPath.val := List.mem_of_head? habs
  obtain ⟨pre, post, e, hpost⟩ := (last_sep (chr '/') parentPath.val).resolve_left fun hno => hno hslash
  have hcomps : components parentPath.val = components pre ++ [post] := by
    rw [e, components_slash pre hpost]
  have hshort : ∀ c ∈ components parentPath.val, c.length ≤ 127 := fun c hc =>
    Nat.le_of_lt_succ (Nat.lt_of_le_of_lt (length_le_of_mem_splitOn hc) hlen)
  rw [hcomps, steps_append] at hd
  obtain ⟨p, hp, hlast⟩ := Option.bind_eq_some_iff.mp hd
  have hin := inTree_walk .root hp
  refine ⟨p, ?_, hin, ?_⟩
  · rw [fsFindByPath_spec h habs, walkFits_of_short (by decide) hshort, if_pos rfl, hcomps,
      List.dropLast_concat, hp]
    rfl
  · rw [e]
    cases post with
    | nil =>
      have hpd : p = d := Option.some.inj hlast
      rw [hpd, List.getLast?_concat]
      exact ⟨hdir, fun _ => rfl, fun _ => rfl⟩
    | cons a post =>
      rw [steps_cons] at hlast
      obtain ⟨r, hr, hrd⟩ := Option.bind_eq_some_iff.mp hlast
      obtain rfl : r = d := Option.some.inj hrd
      have hinto : stepInto k p (a :: post) = entryOf k p (a :: post) := if_neg (List.cons_ne_nil _ _)
      rw [hinto] at hr
      obtain ⟨_, hpd, hkid⟩ := entryOf_mem hr
      refine ⟨hpd, fun e => absurd e.symm (h.tree.ne_child hin hkid), fun hlast => ?_⟩
      exfalso
      apply hpost
      rw [List.getLast?_append_of_ne_nil _ (List.cons_ne_nil _ _), List.getLast?_cons_cons] at hlast
      exact List.mem_of_getLast? hlast

/-! ## `fs_mkdir` and `fs_touch` -/

/-- what both calls find out before they allocate -/
theorem path_parts (h : WellFormed k) {path : CString} {dir : List Byte}
    (hpath : path.val = dir ++ chr '/' :: name) (habs : dir = [] ∨ dir.head? = some (chr '/'))
    (hslash : chr '/' ∉ name) (hname : name.length < sizeofName) (hlen : path.val.length < 128)
    (hd : componentWalk k k.root (steps (components dir)) = some d)
    (hdir : (k.node d).type = .directory) :
    ∃ parentPath nm p, splitPath (some path) = .ok (parentPath, nm) ∧ nm.val = name ∧
      fsFindByPath k (some parentPath) = .ok p ∧
      ((p = 0 ∧ dir = []) ∨ (InTree k p ∧ (k.node p).type = .directory ∧
        (p = d ↔ dir.getLast? = some (chr '/')))) := by
  obtain ⟨hsplit, hparent, hnm⟩ := splitPath_slash hpath hslash
  have hlt : dir.length < sizeofParentPath := by
    rw [hpath, List.length_append] at hlen
    exact Nat.lt_of_le_of_lt (Nat.le_add_right _ _) hlen
  rw [storeAt_ok hlt, storeAt_ok hname] at hsplit
  rcases habs with h0 | habs
  · refine ⟨_, _, 0, hsplit, hnm, fsFindByPath_relative ?_, .inl ⟨rfl, h0⟩⟩
    rw [hparent, h0]
    exact nofun
  · obtain ⟨p, hp, hin, hpd, hiff⟩ := parent_resolved h
      (show (path.take dir.length).val.head? = _ by rw [hparent]; exact habs)
      (by rw [hparent]; exact hlt) (by rw [hparent]; exact hd) hdir
    rw [hparent] at hiff
    exact ⟨_, _, p, hsplit, hnm, hp, .inr ⟨hin, hpd, hiff⟩⟩

theorem newNode_name (type : FSNodeType) (c : Word) (hname : name.length < sizeofName) :
    (newNode name type c).name = name := List.take_of_length_le (Nat.le_of_lt_succ hname)

/-- **When the allocations succeed, the node is put where the path `dir ++ "/" ++ name` leads exactly
when `dir` ends with a slash.** -/
theorem make_at_path_iff (h : Grounded k bs) (path : CString) (dir name : List Byte) (d : Word)
    (hpath : path.val = dir ++ chr '/' :: name) (habs : dir = [] ∨ dir.head? = some (chr '/'))
    (hslash : chr '/' ∉ name) (hname : name.length < sizeofName) (hlen : path.val.length < 128)
    (hd : componentWalk k k.root (steps (components dir)) = some d)
    (hdir : (k.node d).type = .directory)
    (hroom : HasRoom k d) :
    (grants k.heap [sizeofFSNode, sizeofChildren] = true →
      (Places k .directory d name (fsMkdir k (some path)) ↔ dir.getLast? = some (chr '/'))) ∧
    (grants k.heap [sizeofFSNode, 1024] = true →
      (Places k .file d name (fsTouch k (some path)) ↔ dir.getLast? = some (chr '/'))) := by
  obtain ⟨parentPath, nm, p, hsplit, hnm, hp, hcase⟩ :=
    path_parts h.wf hpath habs hslash hname hlen hd hdir
  subst hnm
  rcases hcase with ⟨rfl, rfl⟩ | ⟨hin, hpd, hiff⟩
  · -- the root, with an empty parent part: both calls answer null
    obtain ⟨e1, e2⟩ := create_unresolved hsplit hp fun hdir0 => hdir0.ne_zero rfl
    rw [e1, e2]
    exact ⟨fun _ => ⟨fun hplaces => absurd hplaces not_places_null, nofun⟩,
      fun _ => ⟨fun hplaces => absurd hplaces not_places_null, nofun⟩⟩
  have hpdir := h.wf.isDir hin hpd
  have hdin := inTree_walk .root hd
  rw [← hiff]
  constructor
  · intro hg
    obtain ⟨f, h1, q, h2, e1, e2, _, g2⟩ := kmalloc_pair h.blocks sizeofChildren
    obtain ⟨hf, hq⟩ := g2.mp hg
    obtain ⟨hm, hself⟩ := h.made (k.withDir h2 f q nm.val) e1 hf e2
      (newNode nm.val .directory q) rfl rfl (fun a ha => withDir_slot _ _ _ _ ha) rfl
    rw [fsMkdir_eq hsplit hp hpdir e1 hf e2]
    exact places_offer h.wf hm hself (newNode_name _ _ hname) rfl rfl hq hin hpd hdin hroom
  · intro hg
    obtain ⟨f, h1, q, h2, e1, e2, _, g2⟩ := kmalloc_pair h.blocks 1024
    obtain ⟨hf, hq⟩ := g2.mp hg
    obtain ⟨hm, hself⟩ := h.made (k.withNode h2 f (fileNode nm.val 0 q)) e1 hf e2
      (fileNode nm.val 0 q) rfl rfl (fun _ _ => rfl) rfl
    rw [fsTouch_eq hsplit hp hpdir e1 hf e2]
    exact places_offer h.wf hm hself (newNode_name .file 0 hname) rfl rfl hq hin hpd hdin hroom

end

theorem boot_root_empty : ∃ k bs, Shelled k bs ∧ grants k.heap [sizeofFSNode, sizeofChildren] = true ∧
    (k.node k.root).childCount = 0 ∧ HasRoom k k.root := by
  obtain ⟨k, bs, e, hk⟩ := shelled_boot
  have hrun : ((fsInit (Kernel.boot bootMachine)).toOption.map fun k =>
      (grants k.heap [sizeofFSNode, sizeofChildren], (k.node k.root).childCount)) = some (true, 0) := by
    decide +kernel
  rw [e] at hrun
  obtain ⟨hg, hcount⟩ := Prod.mk.inj (Option.some.inj hrun)
  have hroom : HasRoom k k.root := by
    unfold HasRoom
    rw [hcount]
    decide
  exact ⟨k, bs, hk, hg, hcount, hroom⟩

/-- `//a` puts `a` below the root -/
theorem make_at_path_iff_root : ∃ k, Places k .directory k.root (str "a")
    (fsMkdir k (some ⟨str "//a", by decide⟩)) := by
  obtain ⟨k, bs, hk, hg, hcount, hroom⟩ := boot_root_empty
  have hiff := make_at_path_iff hk.tree ⟨str "//a", by decide⟩ (str "/") (str "a") k.root rfl
    (.inr (by decide))
    (by decide) (by decide) (by decide) rfl hk.tree.wf.root_dir hroom
  exact ⟨k, (hiff.1 hg).mpr (by decide)⟩

/-- **`/a` puts nothing below the root.** -/
theorem root_gets_nothing : ¬ ∀ (k : Kernel) (bs : List Tiling.Block) (path : CString)
    (dir name : List Byte) (d : Word), Grounded k bs → path.val = dir ++ chr '/' :: name →
    (dir = [] ∨ dir.head? = some (chr '/')) → chr '/' ∉ name →
    1 ≤ name.length → name.length < sizeofName →
    path.val.length < 128 → componentWalk k k.root (steps (components dir)) = some d →
    (k.node d).type = .directory → HasRoom k d → (∀ c ∈ kids k d, textOf k c ≠ name) →
    grants k.heap [sizeofFSNode, sizeofChildren] = true →
    Places k .directory d name (fsMkdir k (some path)) := by
  intro hall
  obtain ⟨k, bs, hk, hg, hcount, hroom⟩ := boot_root_empty
  have hplaces := hall k bs ⟨str "/a", by decide⟩ [] (str "a") k.root hk.tree rfl (.inl rfl) (by decide)
    (by decide) (by decide) (by decide) rfl hk.tree.wf.root_dir hroom
    (by rw [kids_eq_nil hcount]; exact nofun) hg
  have hnull : fsMkdir k (some ⟨str "/a", by decide⟩) = .ok (0, k) :=
    (create_unresolved rfl (fsFindByPath_relative (by decide)) fun hdir0 => hdir0.ne_zero rfl).1
  rw [hnull] at hplaces
  exact not_places_null hplaces

end FirstKernel
