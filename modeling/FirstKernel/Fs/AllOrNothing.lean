import FirstKernel.Fs.Resolve

/-!
# Creating a node: all of it or nothing

A creation either attaches a complete node to its directory and reports success, or leaves the tree
alone and reports nothing.

* `attached_attach`                      what `fs_add_child` does to a directory with room;
* `fsMkdir_iff`, `fsTouch_iff`           when the calls by path keep to this;
* `cmdMkdir_iff`, `cmdTouch_iff`         when the commands do;
* `creation_iff`                         the four together.
-/

namespace FirstKernel
open ByteMem Cells Arbor Split

/-- a directory has an array, a file has a buffer -/
def Complete (n : FSNode) : Prop :=
  match n.type with
  | .directory => n.children ≠ 0
  | .file => n.data ≠ 0

/-- `f` is a new and complete node at the end of the list of `p`; nothing else changed -/
structure Attached (k k' : Kernel) (type : FSNodeType) (p f : Word) : Prop where
  root : k'.root = k.root
  isNew : ¬ InTree k f
  inTree : ∀ q, InTree k' q ↔ InTree k q ∨ q = f
  list : kids k' p = kids k p ++ [f]
  empty : kids k' f = []
  parent : (k'.node f).parent = p
  type : (k'.node f).type = type
  complete : Complete (k'.node f)
  self : k'.node p = { k.node p with childCount := (k.node p).childCount + 1 }
  other : ∀ q, InTree k q → q ≠ p → k'.node q = k.node q ∧ kids k' q = kids k q

/-- the node `fs_find_by_path` answers for the parent part of `path` -/
def fsTarget (k : Kernel) (path : Option CString) : Word :=
  match splitPath path with
  | .ok (parentPath, _) =>
    match fsFindByPath k (some parentPath) with
    | .ok p => p
    | .error _ => 0
  | .error _ => 0

/-- a call that answers the new node, or null -/
def FsCreates (k : Kernel) (type : FSNodeType) (p : Word) (r : Res (Word × Kernel)) : Prop :=
  (∃ f k', r = .ok (f, k') ∧ f ≠ 0 ∧ Attached k k' type p f) ∨ ∃ k', r = .ok (0, k') ∧ SameTree k k'

/-- the message was printed on the way from `k` to `k'` -/
def Reports (k k' : Kernel) (message : Printf) : Prop :=
  ∃ new, k'.heap.console = k.heap.console ++ new ∧ message ∈ new

/-- nothing with this format was printed -/
def Silent (k k' : Kernel) (format : String) : Prop :=
  ∃ new, k'.heap.console = k.heap.console ++ new ∧ ∀ x ∈ new, x.format ≠ format

/-- a command that prints `created` for a new node, or does not -/
def CmdCreates (k : Kernel) (type : FSNodeType) (created : String) (args : Option CString)
    (r : Res Kernel) : Prop :=
  (∃ f k', r = .ok k' ∧ Attached k k' type k.enter.currentDir f ∧
    Reports k k' ⟨created, argText args⟩) ∨
  ∃ k', r = .ok k' ∧ SameTree k k' ∧ Silent k k' created

def fileCreated : String := "File '%s' created.\n"
def dirCreated : String := "Directory '%s' created.\n"

section
variable {k k1 k' : Kernel} {bs : List Tiling.Block} {p f q : Word} {type : FSNodeType}

/-! ## `fs_add_child` on a node that is not in the tree -/

theorem not_attached_of_same (h : SameTree k k') : ¬ Attached k k' type p f := by
  intro ha
  exact ha.isNew (h.inTree.mp ((ha.inTree f).mpr (.inr rfl)))

theorem Silent.not_reports {format : String} (h : Silent k k' format) (args : List Arg) :
    ¬ Reports k k' ⟨format, args⟩ := by
  obtain ⟨new, e, hs⟩ := h
  rintro ⟨new', e', hm⟩
  rw [e, List.append_cancel_left_eq] at e'
  exact hs ⟨format, args⟩ (e' ▸ hm) rfl

theorem attached_printf {format : String} {args : List Arg} :
    Attached k (k'.printf format args) type p f ↔ Attached k k' type p f :=
  ⟨fun ⟨a, b, c, d, e, g, h, i, j, l⟩ => ⟨a, b, c, d, e, g, h, i, j, l⟩,
    fun ⟨a, b, c, d, e, g, h, i, j, l⟩ => ⟨a, b, c, d, e, g, h, i, j, l⟩⟩

/-- a node with a null or fresh array, made on the way from `k` to `k1` -/
structure Made (k k1 : Kernel) (f : Word) : Prop where
  same : SameTree k k1
  isNew : ¬ InTree k f
  ne_zero : f ≠ 0
  count : (k1.node f).childCount = 0

theorem Made.ne (hm : Made k k1 f) (hp : InTree k p) : f ≠ p := by
  rintro rfl
  exact hm.isNew hp

theorem Made.kids_attach (hm : Made k k1 f) (hp : InTree k p) :
    kids (k1.attach p f) p = kids k p ++ [f] := by
  rw [kids_attach_self (hm.ne hp), hm.same.kids p hp]

theorem Made.node_attach (hm : Made k k1 f) (hp : InTree k p) :
    (k1.attach p f).node f = { k1.node f with parent := p } := by
  rw [attach_node_child, if_neg (hm.ne hp)]

/-- the node is the only new one, so it is complete if any new node is -/
theorem complete_of_attached (hm : Made k k1 f) (hp : InTree k p)
    (ha : Attached k (k1.attach p f) type p q) : q = f ∧ Complete (k1.node f) := by
  have h1 := ha.list.symm.trans (hm.kids_attach hp)
  have hqf : q = f := by simpa using h1
  refine ⟨hqf, ?_⟩
  have hc := ha.complete
  rw [hqf, hm.node_attach hp] at hc
  exact hc

theorem attached_attach (h : WellFormed k) (hm : Made k k1 f) (hp : InTree k p)
    (hd : (k.node p).type = .directory) (ht : (k1.node f).type = type)
    (hc : Complete (k1.node f)) : Attached k (k1.attach p f) type p f := by
  have hfp := hm.ne hp
  have hnodep := hm.same.node p hp
  have hother : ∀ q, InTree k q → q ≠ p → (k1.attach p f).node q = k.node q ∧
      kids (k1.attach p f) q = kids k q := by
    intro q hq hne
    have hqf : q ≠ f := fun e => hm.isNew (by rw [← e]; exact hq)
    refine ⟨(attach_node_of_ne hne hqf).trans (hm.same.node q hq), ?_⟩
    rw [kids_attach_of_ne hne hqf fun hcnt => ?_, hm.same.kids q hq]
    rw [hm.same.node q hq] at hcnt ⊢
    rw [hnodep]
    exact h.array_ne hp hq hne hcnt hd
  have hempty : kids (k1.attach p f) f = [] := kids_eq_nil (by rw [hm.node_attach hp]; exact hm.count)
  have hlist := hm.kids_attach hp
  refine ⟨hm.same.root, hm.isNew, ?_, hlist, hempty, ?_, ?_, ?_, ?_, hother⟩
  · obtain ⟨_, hin⟩ := h.tree.insert hp hm.isNew hlist hempty fun q hq hne => (hother q hq hne).2
    intro q
    show Reach (kids (k1.attach p f)) k1.root q ↔ _
    rw [hm.same.root]
    exact hin q
  · rw [hm.node_attach hp]
  · rw [hm.node_attach hp]
    exact ht
  · rw [hm.node_attach hp]
    exact hc
  · rw [attach_node_parent hfp, hnodep]

/-- the three outcomes of `fs_add_child` on a directory of the tree -/
theorem addChild_cases (h : WellFormed k) (hs : SameTree k k1) (hp : InTree k p)
    (hd : (k.node p).type = .directory) (f : Word) :
    (maxChildren ≤ (k.node p).childCount ∧ ∃ k2, fsAddChild k1 p f = .ok k2 ∧ SameTree k k2 ∧
      k2 = k1.printf "Error: directory '%s' is full.\n" [.str (k.node p).name]) ∨
    ((k.node p).childCount < maxChildren ∧ f = 0 ∧ fsAddChild k1 p f = .error .nullDeref) ∨
    ((k.node p).childCount < maxChildren ∧ f ≠ 0 ∧ fsAddChild k1 p f = .ok (k1.attach p f)) := by
  have hnode := hs.node p hp
  have hdir : IsDir k1 p := ⟨h.ne_zero hp, by rw [hnode]; exact hd⟩
  by_cases hfull : maxChildren ≤ (k.node p).childCount
  · refine .inl ⟨hfull, _, fsAddChild_full hdir (by rw [hnode]; exact hfull),
      hs.trans (.of_eq rfl rfl rfl), by rw [hnode]⟩
  have hroom : (k.node p).childCount < maxChildren := Nat.lt_of_not_le hfull
  have hroom1 : (k1.node p).childCount < maxChildren := by rw [hnode]; exact hroom
  by_cases hf : f = 0
  · rw [hf]
    exact .inr (.inl ⟨hroom, rfl, fsAddChild_fault hdir hroom1⟩)
  · have ha : (k1.node p).children ≠ 0 := by
      rw [hnode]
      exact (h.node p hp).array hd
    exact .inr (.inr ⟨hroom, hf, fsAddChild_attach hdir hroom1 ha hf⟩)

def HasRoom (k : Kernel) (p : Word) : Prop := (k.node p).childCount < maxChildren

/-- a call that offers the node `f` to `p` and answers it -/
theorem fsCreates_offer (h : WellFormed k) (hs : SameTree k k1) (hp : InTree k p)
    (hd : (k.node p).type = .directory) (hm : f ≠ 0 → Made k k1 f ∧ (k1.node f).type = type) :
    FsCreates k type p ((fsAddChild k1 p f).map (f, ·)) ↔
      (HasRoom k p ∧ f ≠ 0 ∧ Complete (k1.node f)) ∨ (¬ HasRoom k p ∧ f = 0) := by
  rcases addChild_cases h hs hp hd f with ⟨hfull, k2, e, hs2, _⟩ | ⟨hroom, hf, e⟩ | ⟨hroom, hf, e⟩
  -- a full directory: the node is answered all the same
  · rw [e]
    have hno : ¬ HasRoom k p := Nat.not_lt.mpr hfull
    constructor
    · rintro (⟨f', k', hr, _, ha⟩ | ⟨k', hr, _⟩)
      · cases hr
        exact absurd ha (not_attached_of_same hs2)
      · obtain ⟨hf0, _⟩ := Prod.mk.inj (Except.ok.inj hr)
        exact .inr ⟨hno, hf0⟩
    · rintro (⟨hroom, _⟩ | ⟨_, rfl⟩)
      · exact absurd hroom hno
      · exact .inr ⟨k2, rfl, hs2⟩
  -- a null node is written through
  · rw [e]
    constructor
    · rintro (⟨f', k', hr, _⟩ | ⟨k', hr, _⟩) <;> cases hr
    · rintro (⟨_, hf0, _⟩ | ⟨hno, _⟩)
      · exact absurd hf hf0
      · exact absurd hroom hno
  · rw [e]
    obtain ⟨hmade, ht⟩ := hm hf
    constructor
    · rintro (⟨f', k', hr, _, ha⟩ | ⟨k', hr, hs'⟩)
      · cases hr
        exact .inl ⟨hroom, hf, (complete_of_attached hmade hp ha).2⟩
      · obtain ⟨hf0, _⟩ := Prod.mk.inj (Except.ok.inj hr)
        exact absurd hf0 hf
    · rintro (⟨_, _, hc⟩ | ⟨_, hf0⟩)
      · exact .inl ⟨f, _, rfl, hf, attached_attach h hmade hp hd ht hc⟩
      · exact absurd hf0 hf

/-- a command that offers the node `f` to the current directory and says that it did -/
theorem cmdCreates_offer (h : WellFormed k) (hp : InTree k k.enter.currentDir)
    (hd : (k.node k.enter.currentDir).type = .directory) (hm : Made k k1 f)
    (ht : (k1.node f).type = type) (hcons : ∃ new, k1.heap.console = k.heap.console ++ new)
    (created : String) (args : Option CString) :
    CmdCreates k type created args ((fsAddChild k1 k.enter.currentDir f).map
        (·.printf created (argText args))) ↔
      HasRoom k k.enter.currentDir ∧ Complete (k1.node f) := by
  obtain ⟨new, hnew⟩ := hcons
  have hreports : ∀ k2 : Kernel, (∃ more, k2.heap.console = k1.heap.console ++ more) →
      Reports k (k2.printf created (argText args)) ⟨created, argText args⟩ := by
    rintro k2 ⟨more, hmore⟩
    refine ⟨new ++ (more ++ [⟨created, argText args⟩]), ?_, by simp⟩
    show k2.heap.console ++ _ = _
    rw [hmore, hnew, List.append_assoc, List.append_assoc]
  rcases addChild_cases h hm.same hp hd f with ⟨hfull, k2, e, hs2, hk2⟩ | ⟨_, hf, _⟩ | ⟨hroom, _, e⟩
  -- a full directory: the message is printed all the same
  · rw [e]
    have hrep := hreports k2 ⟨_, by rw [hk2]; rfl⟩
    have hs3 : SameTree k (k2.printf created (argText args)) := hs2.trans (.of_eq rfl rfl rfl)
    constructor
    · rintro (⟨f', k', hr, ha, _⟩ | ⟨k', hr, _, hsilent⟩)
      · cases hr
        exact absurd ha (not_attached_of_same hs3)
      · cases hr
        exact absurd hrep (hsilent.not_reports _)
    · rintro ⟨hroom, _⟩
      exact absurd hroom (Nat.not_lt.mpr hfull)
  · exact absurd hf hm.ne_zero
  · rw [e]
    have hrep := hreports (k1.attach k.enter.currentDir f) ⟨[], (List.append_nil _).symm⟩
    constructor
    · rintro (⟨f', k', hr, ha, _⟩ | ⟨k', hr, _, hsilent⟩)
      · cases hr
        exact ⟨hroom, (complete_of_attached hm hp (attached_printf.mp ha)).2⟩
      · cases hr
        exact absurd hrep (hsilent.not_reports _)
    · rintro ⟨_, hc⟩
      exact .inl ⟨f, _, rfl, attached_printf.mpr (attached_attach h hm hp hd ht hc), hrep⟩

/-! ## the calls by path -/

/-- a path that `split_path` takes leads to a node of the tree or nowhere -/
theorem splitPath_target (h : WellFormed k) {path : Option CString} {parentPath name : CString}
    (e : splitPath path = .ok (parentPath, name)) :
    ∃ p, fsFindByPath k (some parentPath) = .ok p ∧ fsTarget k path = p ∧ (p ≠ 0 → InTree k p) := by
  have hlen : parentPath.val.length < sizeofTemp := by
    unfold splitPath at e
    cases path with
    | none => cases e
    | some s =>
      simp only at e
      cases hi : strrchr (chr '/') s.val 0 none with
      | none =>
        rw [hi] at e
        obtain ⟨_, _, e⟩ := bind_eq_ok e
        cases e
        exact (by decide : 0 < 128)
      | some i =>
        rw [hi] at e
        obtain ⟨_, e1, e⟩ := bind_eq_ok e
        obtain ⟨_, _, e⟩ := bind_eq_ok e
        cases e
        unfold storeAt at e1
        by_cases hlt : i < sizeofParentPath
        · show (s.val.take i).length < sizeofTemp
          rw [List.length_take]
          exact Nat.lt_of_le_of_lt (Nat.min_le_left _ _) hlt
        · rw [if_neg hlt] at e1
          cases e1
  have hres : ∃ p, fsFindByPath k (some parentPath) = .ok p ∧ (p ≠ 0 → InTree k p) := by
    by_cases habs : parentPath.val.head? = some (chr '/')
    · refine ⟨_, fsFindByPath_eq h habs fun c hc =>
        Nat.lt_of_le_of_lt (length_le_of_mem_splitOn hc) hlen, fun hne => ?_⟩
      cases hd : descend k k.root (components parentPath.val).dropLast with
      | none =>
        rw [hd] at hne
        exact absurd rfl hne
      | some q => exact inTree_descend .root hd
    · refine ⟨0, ?_, fun h0 => absurd rfl h0⟩
      unfold fsFindByPath
      exact if_pos habs
  obtain ⟨p, hp, hin⟩ := hres
  refine ⟨p, hp, ?_, hin⟩
  unfold fsTarget
  rw [e]
  simp only [hp]

/-- the buffers of `split_path` hold the parts of `path` -/
def SplitsPath (path : Option CString) : Prop := ∃ parts, splitPath path = .ok parts

/-- what the calls of `kmalloc` for a struct and for `n` more bytes answer -/
theorem kmalloc_pair (h : HeapBlocks k.heap bs) (n : Word) :
    ∃ f h1 q h2, kmalloc k.heap sizeofFSNode = .ok (f, h1) ∧ kmalloc h1 n = .ok (q, h2) ∧
      (grants k.heap [sizeofFSNode] = true ↔ f ≠ 0) ∧
      (grants k.heap [sizeofFSNode, n] = true ↔ f ≠ 0 ∧ q ≠ 0) := by
  obtain ⟨f, h1, e1⟩ := kmalloc_returns h sizeofFSNode
  obtain ⟨bs1, hb1, _⟩ := kmalloc_fresh h e1
  obtain ⟨q, h2, e2⟩ := kmalloc_returns hb1 n
  refine ⟨f, h1, q, h2, e1, e2, ?_, ?_⟩
  · rw [grants_cons e1]
    simp [grants]
  · rw [grants_cons e1, grants_cons e2]
    simp [grants]

/-- the calls for a struct and an array or a buffer leave the tree alone, and a struct behind -/
theorem Grounded.made (k1 : Kernel) (h : Grounded k bs) {n : Word} {h1 h2 : Machine}
    (e1 : kmalloc k.heap sizeofFSNode = .ok (f, h1)) (hf : f ≠ 0) (e2 : kmalloc h1 n = .ok (q, h2))
    (nd : FSNode) (hroot : k1.root = k.root) (hnode : k1.node = Function.update k.node f nd)
    (hslot : ∀ a, (q = 0 ∨ a ≠ q) → k1.slot a = k.slot a) (hcount : nd.childCount = 0) :
    Made k k1 f ∧ k1.node f = nd := by
  obtain ⟨bs', hb, _, hnew⟩ := h.create e1 hf e2
  have hself : k1.node f = nd := by rw [hnode, Function.update_self]
  obtain ⟨hs, _, hout, _⟩ := hnew { k1 with heap := h2 } nd hb hroot hnode hslot
  exact ⟨⟨hs.trans (.of_eq rfl rfl rfl), hout, hf, by rw [hself]; exact hcount⟩, hself⟩

/-- outside the paths the buffers take, the calls end in a fault -/
theorem not_fsCreates_error {x : Fault} : ¬ FsCreates k type p (.error x) := by
  rintro (⟨f, k', hr, _⟩ | ⟨k', hr, _⟩) <;> cases hr

/-- **`fs_mkdir` keeps to all or nothing exactly when the path fits and leads nowhere, or to a
directory with room and both allocations succeed, or to a full one and the first fails.** -/
theorem fsMkdir_iff (h : Grounded k bs) (path : Option CString) :
    FsCreates k .directory (fsTarget k path) (fsMkdir k path) ↔
      SplitsPath path ∧ (¬ IsDir k (fsTarget k path) ∨
        (HasRoom k (fsTarget k path) ∧ grants k.heap [sizeofFSNode, sizeofChildren] = true) ∨
        (¬ HasRoom k (fsTarget k path) ∧ grants k.heap [sizeofFSNode] = false)) := by
  cases hsplit : splitPath path with
  | error x =>
    have e : fsMkdir k path = .error x := by
      unfold fsMkdir
      rw [hsplit]
      rfl
    rw [e]
    refine ⟨fun hc => absurd hc not_fsCreates_error, ?_⟩
    rintro ⟨⟨parts, hs⟩, _⟩
    rw [hsplit] at hs
    cases hs
  | ok parts =>
    obtain ⟨parentPath, name⟩ := parts
    obtain ⟨p, hres, htarget, hin⟩ := splitPath_target h.wf hsplit
    have hfits : SplitsPath path := ⟨_, hsplit⟩
    rw [htarget]
    by_cases hdir : IsDir k p
    · have hp := hin hdir.ne_zero
      obtain ⟨f, h1, q, h2, e1, e2, g1, g2⟩ := kmalloc_pair h.blocks sizeofChildren
      rw [g2, ← Bool.not_eq_true, g1]
      by_cases hf : f = 0
      · subst hf
        have hs : SameTree k { k with heap := h1 } := .of_eq rfl rfl rfl
        rw [fsMkdir_null hsplit hres hdir e1, fsCreates_offer h.wf hs hp hdir.type
          fun h0 => absurd rfl h0]
        simp [hfits, hdir]
      · obtain ⟨hm, hself⟩ := h.made (k.withDir h2 f q name.val) e1 hf e2
          (newNode name.val .directory q) rfl rfl (fun a ha => withDir_slot _ _ _ _ ha) rfl
        rw [fsMkdir_eq hsplit hres hdir e1 hf e2, fsCreates_offer h.wf hm.same hp hdir.type
          fun _ => ⟨hm, by rw [hself]; rfl⟩, hself]
        have hc : Complete (newNode name.val .directory q) ↔ q ≠ 0 := Iff.rfl
        rw [hc]
        simp [hfits, hdir]
    · rw [(create_unresolved hsplit hres hdir).1]
      exact ⟨fun _ => ⟨hfits, .inl hdir⟩, fun _ => .inr ⟨k, rfl, .refl k⟩⟩

/-- **`fs_touch` keeps to it exactly when the path fits and leads nowhere, or to a directory with room
and both allocations succeed.** -/
theorem fsTouch_iff (h : Grounded k bs) (path : Option CString) :
    FsCreates k .file (fsTarget k path) (fsTouch k path) ↔
      SplitsPath path ∧ (¬ IsDir k (fsTarget k path) ∨
        (HasRoom k (fsTarget k path) ∧ grants k.heap [sizeofFSNode, 1024] = true)) := by
  cases hsplit : splitPath path with
  | error x =>
    have e : fsTouch k path = .error x := by
      unfold fsTouch
      rw [hsplit]
      rfl
    rw [e]
    refine ⟨fun hc => absurd hc not_fsCreates_error, ?_⟩
    rintro ⟨⟨parts, hs⟩, _⟩
    rw [hsplit] at hs
    cases hs
  | ok parts =>
    obtain ⟨parentPath, name⟩ := parts
    obtain ⟨p, hres, htarget, hin⟩ := splitPath_target h.wf hsplit
    have hfits : SplitsPath path := ⟨_, hsplit⟩
    rw [htarget]
    by_cases hdir : IsDir k p
    · have hp := hin hdir.ne_zero
      obtain ⟨f, h1, q, h2, e1, e2, g1, g2⟩ := kmalloc_pair h.blocks 1024
      rw [g2]
      by_cases hf : f = 0
      · subst hf
        rw [fsTouch_fault hsplit hres hdir e1 e2]
        refine ⟨fun hc => absurd hc not_fsCreates_error, ?_⟩
        rintro ⟨_, hno | ⟨_, h0, _⟩⟩
        · exact absurd hdir hno
        · exact absurd rfl h0
      · obtain ⟨hm, hself⟩ := h.made (k.withNode h2 f (fileNode name.val 0 q)) e1 hf e2
          (fileNode name.val 0 q) rfl rfl (fun _ _ => rfl) rfl
        rw [fsTouch_eq hsplit hres hdir e1 hf e2, fsCreates_offer h.wf hm.same hp hdir.type
          fun _ => ⟨hm, by rw [hself]; rfl⟩, hself]
        have hc : Complete (fileNode name.val 0 q) ↔ q ≠ 0 := Iff.rfl
        rw [hc]
        simp only [hfits, hdir, hf, ne_eq, not_false_eq_true, not_true_eq_false, true_and, false_or,
          and_false, or_false]
    · rw [(create_unresolved hsplit hres hdir).2]
      exact ⟨fun _ => ⟨hfits, .inl hdir⟩, fun _ => .inr ⟨k, rfl, .refl k⟩⟩

/-! ## the commands -/

theorem silent_enter (k : Kernel) {h' : Machine} {created : String}
    (hc : ∃ new, h'.console = k.heap.console ++ new ∧ ∀ x ∈ new, x.format ≠ created)
    (type : FSNodeType) (args : Option CString) :
    CmdCreates k type created args (.ok { k.enter with heap := h' }) :=
  .inr ⟨_, rfl, .of_eq (enter_root k) (enter_node k) (enter_slot k), hc⟩

/-- a usage line is not the message of success -/
theorem silent_usage (k : Kernel) {usage created : String} (hne : usage ≠ created)
    (type : FSNodeType) (args : Option CString) :
    CmdCreates k type created args (.ok (k.enter.printf usage [])) := by
  refine silent_enter k ⟨[⟨usage, []⟩], ?_, fun x hx => ?_⟩ type args
  · show k.enter.heap.console ++ _ = _
    rw [enter_heap]
  · rw [List.mem_singleton.mp hx]
    exact hne

/-- neither are the messages of `kmalloc` -/
theorem silent_kmalloc {h1 : Machine} {n : Word} (e : kmalloc k.heap n = .ok (q, h1)) {created : String}
    (hne : created ∉ kmallocFormats) (type : FSNodeType) (args : Option CString) :
    CmdCreates k type created args (.ok { k.enter with heap := h1 }) := by
  obtain ⟨new, hnew, hformats⟩ := kmalloc_console e
  exact silent_enter k ⟨new, hnew, fun x hx hf => hne (by rw [← hf]; exact hformats x hx)⟩ type args

theorem console_pair {m n : Word} {h1 h2 : Machine} (e1 : kmalloc k.heap m = .ok (f, h1))
    (e2 : kmalloc h1 n = .ok (q, h2)) : ∃ new, h2.console = k.heap.console ++ new := by
  obtain ⟨new1, c1, _⟩ := kmalloc_console e1
  obtain ⟨new2, c2, _⟩ := kmalloc_console e2
  exact ⟨new1 ++ new2, by rw [c2, c1, List.append_assoc]⟩

/-- what a command asks of the state to keep to all or nothing -/
def CmdFits (k : Kernel) (args : Option CString) (sizes : List Word) : Prop :=
  noArgs args = true ∨ grants k.heap [sizeofFSNode] = false ∨
    (HasRoom k k.enter.currentDir ∧ grants k.heap sizes = true)

theorem cmdMkdir_iff (h : Shelled k bs) (args : Option CString) :
    CmdCreates k .directory dirCreated args (cmdMkdir k args) ↔
      CmdFits k args [sizeofFSNode, sizeofChildren] := by
  obtain ⟨henter, hcur, hd⟩ := h.enter
  have hs : SameTree k k.enter := .of_eq (enter_root k) (enter_node k) (enter_slot k)
  rw [enter_node] at hd
  unfold CmdFits
  cases ha : noArgs args with
  | true =>
    rw [cmdMkdir_usage ha]
    exact ⟨fun _ => .inl rfl, fun _ => silent_usage k (by decide) _ _⟩
  | false =>
    obtain ⟨f, h1, q, h2, e1, e2, g1, g2⟩ := kmalloc_pair h.tree.blocks sizeofChildren
    rw [g2, ← Bool.not_eq_true (grants _ _), g1]
    by_cases hf : f = 0
    · subst hf
      rw [cmdMkdir_null ha e1]
      exact ⟨fun _ => .inr (.inl (not_not.mpr rfl)), fun _ => silent_kmalloc e1 (by decide) _ _⟩
    · obtain ⟨hm, hself⟩ := h.tree.made (k.enter.withDir h2 f q (argName args)) e1 hf e2
        (newNode (argName args) .directory q) (enter_root k)
        (by unfold Kernel.withDir; rw [enter_node])
        (fun a ha => (withDir_slot _ _ _ _ ha).trans (by rw [enter_slot])) rfl
      rw [cmdMkdir_eq ha e1 hf e2]
      have := cmdCreates_offer h.tree.wf (hs.inTree.mp hcur) hd hm (congrArg FSNode.type hself)
        (console_pair e1 e2) dirCreated args
      rw [hself] at this
      have hc : Complete (newNode (argName args) .directory q) ↔ q ≠ 0 := Iff.rfl
      rw [hc] at this
      refine Iff.trans this ?_
      simp only [hf, ne_eq, not_false_eq_true, not_true_eq_false, true_and, false_or,
        Bool.false_eq_true]

theorem cmdTouch_iff (h : Shelled k bs) (args : Option CString) :
    CmdCreates k .file fileCreated args (cmdTouch k args) ↔ CmdFits k args [sizeofFSNode, 256] := by
  obtain ⟨henter, hcur, hd⟩ := h.enter
  have hs : SameTree k k.enter := .of_eq (enter_root k) (enter_node k) (enter_slot k)
  rw [enter_node] at hd
  unfold CmdFits
  cases ha : noArgs args with
  | true =>
    rw [cmdTouch_usage ha]
    exact ⟨fun _ => .inl rfl, fun _ => silent_usage k (by decide) _ _⟩
  | false =>
    obtain ⟨f, h1, q, h2, e1, e2, g1, g2⟩ := kmalloc_pair h.tree.blocks 256
    rw [g2, ← Bool.not_eq_true (grants _ _), g1]
    by_cases hf : f = 0
    · subst hf
      rw [cmdTouch_null ha e1]
      exact ⟨fun _ => .inr (.inl (not_not.mpr rfl)), fun _ => silent_kmalloc e1 (by decide) _ _⟩
    by_cases hq : q = 0
    -- the null buffer is cleared
    · subst hq
      rw [cmdTouch_fault ha e1 hf e2]
      constructor
      · rintro (⟨f', k', hr, _⟩ | ⟨k', hr, _⟩) <;> cases hr
      · simp only [hf, ne_eq, not_false_eq_true, not_true_eq_false, false_or, and_false,
          Bool.false_eq_true, false_imp_iff]
    · obtain ⟨hm, hself⟩ := h.tree.made ((k.enter.withNode h2 f
        (fileNode (argName args) 256 q)).withMem (fill h2.mem q.toNat 0 256)) e1 hf e2
        (fileNode (argName args) 256 q) (enter_root k)
        (by show Function.update k.enter.node f _ = _; rw [enter_node])
        (fun a _ => by show k.enter.slot a = _; rw [enter_slot]) rfl
      obtain ⟨new, hnew⟩ := console_pair e1 e2
      rw [cmdTouch_eq ha e1 hf e2 hq]
      have := cmdCreates_offer h.tree.wf (hs.inTree.mp hcur) hd hm
        (congrArg FSNode.type hself) (Exists.intro new hnew) fileCreated args
      rw [hself] at this
      have hc : Complete (fileNode (argName args) 256 q) ↔ q ≠ 0 := Iff.rfl
      rw [hc] at this
      refine Iff.trans this ?_
      simp only [hf, hq, ne_eq, not_false_eq_true, not_true_eq_false, and_true, false_or,
        Bool.false_eq_true]

/-! ## the four creators -/

structure AllOrNothing (k : Kernel) (path args : Option CString) : Prop where
  fsMkdir : FsCreates k .directory (fsTarget k path) (FirstKernel.fsMkdir k path)
  fsTouch : FsCreates k .file (fsTarget k path) (FirstKernel.fsTouch k path)
  cmdMkdir : CmdCreates k .directory dirCreated args (FirstKernel.cmdMkdir k args)
  cmdTouch : CmdCreates k .file fileCreated args (FirstKernel.cmdTouch k args)

/-- when each of the creators keeps to all or nothing -/
structure CreationIff (k : Kernel) (path args : Option CString) : Prop where
  fsMkdir : FsCreates k .directory (fsTarget k path) (FirstKernel.fsMkdir k path) ↔
    SplitsPath path ∧ (¬ IsDir k (fsTarget k path) ∨
      (HasRoom k (fsTarget k path) ∧ grants k.heap [sizeofFSNode, sizeofChildren] = true) ∨
      (¬ HasRoom k (fsTarget k path) ∧ grants k.heap [sizeofFSNode] = false))
  fsTouch : FsCreates k .file (fsTarget k path) (FirstKernel.fsTouch k path) ↔
    SplitsPath path ∧ (¬ IsDir k (fsTarget k path) ∨
      (HasRoom k (fsTarget k path) ∧ grants k.heap [sizeofFSNode, 1024] = true))
  cmdMkdir : CmdCreates k .directory dirCreated args (FirstKernel.cmdMkdir k args) ↔
    CmdFits k args [sizeofFSNode, sizeofChildren]
  cmdTouch : CmdCreates k .file fileCreated args (FirstKernel.cmdTouch k args) ↔
    CmdFits k args [sizeofFSNode, 256]

/-- **When creation is all or nothing**, for every tree, every heap and all arguments. -/
theorem creation_iff (h : Shelled k bs) (path args : Option CString) : CreationIff k path args :=
  ⟨fsMkdir_iff h.tree path, fsTouch_iff h.tree path, cmdMkdir_iff h args, cmdTouch_iff h args⟩

end

/-- the path of a file below the root, for a resolver that leaves out the last component -/
def slashXA : CString := ⟨str "/x/a", by decide⟩

theorem shelled_boot : ∃ k bs, fsInit (Kernel.boot bootMachine) = .ok k ∧ Shelled k bs := by
  obtain ⟨k, e⟩ : ∃ k, fsInit (Kernel.boot bootMachine) = .ok k := ⟨_, rfl⟩
  obtain ⟨bs, hk⟩ := shelled_init e (by decide +kernel)
  exact ⟨k, bs, e, hk⟩

/-- after start-up the root has room and the heap has every block that a creator asks for -/
theorem boot_grants : (fsInit (Kernel.boot bootMachine)).toOption.map (fun k =>
    ((k.node (fsTarget k (some slashXA))).childCount, (k.node k.enter.currentDir).childCount,
      [sizeofChildren, 1024, 256].map fun n => grants k.heap [sizeofFSNode, n]))
    = some (0, 0, [true, true, true]) := by decide +kernel

/-- so there each of the creators keeps to all or nothing -/
theorem creation_iff_boot : ∃ k, fsInit (Kernel.boot bootMachine) = .ok k ∧
    AllOrNothing k (some slashXA) (some slashXA) := by
  obtain ⟨k, bs, e, hk⟩ := shelled_boot
  have hboot := boot_grants
  rw [e] at hboot
  have hval := Option.some.inj hboot
  simp only [Prod.mk.injEq, List.map_cons, List.map_nil, List.cons.injEq, and_true] at hval
  obtain ⟨htarget, hcur, hchildren, hdata, hfile⟩ := hval
  obtain ⟨h1, h2, h3, h4⟩ := creation_iff hk (some slashXA) (some slashXA)
  have hsplit : SplitsPath (some slashXA) := ⟨_, rfl⟩
  have hroom : HasRoom k (fsTarget k (some slashXA)) := by
    unfold HasRoom
    rw [htarget]
    decide
  have hroom' : HasRoom k k.enter.currentDir := by
    unfold HasRoom
    rw [hcur]
    decide
  exact ⟨k, e, h1.mpr ⟨hsplit, .inr (.inl ⟨hroom, hchildren⟩)⟩, h2.mpr ⟨hsplit, .inr ⟨hroom, hdata⟩⟩,
    h3.mpr (.inr (.inr ⟨hroom', hchildren⟩)), h4.mpr (.inr (.inr ⟨hroom', hfile⟩))⟩

/-- **With the heap used up `fs_touch` writes through a null pointer.** -/
theorem fsTouch_null_write : ¬ ∀ (k : Kernel) (bs : List Tiling.Block) (path args : Option CString),
    Shelled k bs → AllOrNothing k path args := by
  intro hall
  obtain ⟨k, bs, e, hk⟩ := shelled_boot
  -- one block takes all that is left
  have hrun : ((fsInit (Kernel.boot bootMachine)).toOption.bind fun k =>
      (kmalloc k.heap 0x7FFEF0).toOption.map fun r =>
        match fsTouch { k with heap := r.2 } (some slashXA) with
        | .ok _ => true
        | .error _ => false) = some false := by decide +kernel
  rw [e] at hrun
  obtain ⟨⟨p, h1⟩, e1, e2⟩ := Option.map_eq_some_iff.mp hrun
  obtain ⟨bs', hb, hlift, _⟩ := kmalloc_fresh hk.tree.blocks (toOption_eq_some e1)
  have hk' : Shelled { k with heap := h1 } bs' := hk.same (.of_eq rfl rfl rfl) hb hlift rfl
  rcases (hall _ _ (some slashXA) none hk').fsTouch with ⟨f, k', hr, _⟩ | ⟨k', hr, _⟩
  · rw [hr] at e2
    cases e2
  · rw [hr] at e2
    cases e2

end FirstKernel
