import FirstKernel.Fs.Path
import FirstKernel.Fs.Commands
import FirstKernel.Heap.Client

/-!
# One lemma for each function of the file system

* `fsCreateNode_null`, `fsCreateNode_file`, `fsCreateNode_dir`   by the answers of `kmalloc`;
* `fsAddChild_full`, `fsAddChild_attach`                         and `fsAddChild_fault`;
* `fsAddChild_sameFiles`                                         what no outcome changes;
* `memcpy_eq`                                                    a copy that does not wrap.

`grants h sizes` says that `kmalloc` answers the calls for `sizes`, one after the other, without a
null pointer.
-/

namespace FirstKernel
open ByteMem Cells Tiling

/-- the calls of `kmalloc` for `sizes` all succeed -/
def grants (h : Machine) : List Word → Bool
  | [] => true
  | n :: sizes =>
    match kmalloc h n with
    | .ok (p, h) => p ≠ 0 && grants h sizes
    | .error _ => false

theorem grants_cons {h h' : Machine} {n p : Word} (e : kmalloc h n = .ok (p, h'))
    (sizes : List Word) : grants h (n :: sizes) = (p ≠ 0 && grants h' sizes) := by
  rw [grants, e]

theorem grants_null {h h' : Machine} {n : Word} (e : kmalloc h n = .ok (0, h')) (sizes : List Word) :
    grants h (n :: sizes) = false := by
  rw [grants_cons e]
  rfl

theorem memcpy_eq (m : Mem) (dst src : Word) (n : Nat) (hd : dst.toNat + n ≤ 2^32)
    (hs : src.toNat + n ≤ 2^32) : memcpy m dst src n = copy m dst.toNat src.toNat n := by
  induction n with
  | zero => rfl
  | succ n ih =>
    have e : ∀ a : Word, a.toNat + (n + 1) ≤ 2^32 → (a + BitVec.ofNat 32 n).toNat = a.toNat + n := by
      intro a ha
      rw [BitVec.toNat_add, BitVec.toNat_ofNat, Nat.mod_eq_of_lt (by omega : n < 2^32),
        Nat.mod_eq_of_lt (by omega)]
    rw [memcpy, copy]
    simp only [ih (by omega) (by omega), e dst hd, e src hs]
    rfl

/-! ## updates of one struct or one array -/

section
variable (k : Kernel) (p q : Word) (f : FSNode → FSNode)

@[simp] theorem modify_node_self : (k.modify p f).node p = f (k.node p) := Function.update_self ..

theorem modify_node_of_ne (h : q ≠ p) : (k.modify p f).node q = k.node q :=
  Function.update_of_ne h ..

@[simp] theorem modify_heap : (k.modify p f).heap = k.heap := rfl
@[simp] theorem modify_slot : (k.modify p f).slot = k.slot := rfl
@[simp] theorem modify_root : (k.modify p f).root = k.root := rfl
@[simp] theorem modify_fdTable : (k.modify p f).fdTable = k.fdTable := rfl
@[simp] theorem modify_currentDir : (k.modify p f).currentDir = k.currentDir := rfl

variable (a : Word) (i : Nat) (v : Word)

@[simp] theorem setSlot_node : (k.setSlot a i v).node = k.node := rfl
@[simp] theorem setSlot_heap : (k.setSlot a i v).heap = k.heap := rfl

@[simp] theorem setSlot_slot_self : (k.setSlot a i v).slot a = Function.update (k.slot a) i v :=
  Function.update_self ..

@[simp] theorem printf_node (fmt : String) (args : List Arg) : (k.printf fmt args).node = k.node := rfl
@[simp] theorem printf_slot (fmt : String) (args : List Arg) : (k.printf fmt args).slot = k.slot := rfl
@[simp] theorem printf_heap_mem (fmt : String) (args : List Arg) :
    (k.printf fmt args).heap.mem = k.heap.mem := rfl

end

theorem deref_ok {p : Word} (h : p ≠ 0) : deref p = .ok () := if_neg h

theorem deref_null : deref 0 = .error .nullDeref := rfl

/-- `p` passes the test for a directory that opens every function on one -/
structure IsDir (k : Kernel) (p : Word) : Prop where
  ne_zero : p ≠ 0
  type : (k.node p).type = .directory

theorem IsDir.guard {k : Kernel} {p : Word} (h : IsDir k p) :
    ¬ (p = 0 ∨ (k.node p).type ≠ .directory) := not_or.mpr ⟨h.ne_zero, not_not.mpr h.type⟩

/-! ## `fs_create_node` -/

/-- the struct `fs_create_node` leaves -/
def newNode (name : List Byte) (type : FSNodeType) (children : Word) : FSNode :=
  { name := name.take (sizeofName - 1), type := type, size := 0, data := 0, parent := 0,
    children := children, childCount := 0 }

section
variable {k : Kernel} {name : List Byte} {p c : Word} {h h' : Machine}

theorem kernel_kmalloc {n : Word} (e : kmalloc k.heap n = .ok (p, h)) :
    k.kmalloc n = .ok (p, { k with heap := h }) := by
  unfold Kernel.kmalloc
  rw [e]
  rfl

theorem kernel_kmalloc_inv {k' : Kernel} {n : Word} (e : k.kmalloc n = .ok (p, k')) :
    ∃ h, kmalloc k.heap n = .ok (p, h) ∧ k' = { k with heap := h } := by
  unfold Kernel.kmalloc at e
  obtain ⟨⟨p', h⟩, e1, e2⟩ := bind_eq_ok e
  cases e2
  exact ⟨h, e1, rfl⟩

theorem fsCreateNode_null (type : FSNodeType) (e : kmalloc k.heap sizeofFSNode = .ok (0, h)) :
    fsCreateNode k name type = .ok (0, { k with heap := h }) := by
  unfold fsCreateNode
  rw [kernel_kmalloc e]
  rfl

/-- the state with a new heap and a struct at `p` -/
def Kernel.withNode (k : Kernel) (h : Machine) (p : Word) (n : FSNode) : Kernel :=
  { k with heap := h, node := Function.update k.node p n }

@[simp] theorem withNode_node_self (k : Kernel) (h : Machine) (p : Word) (n : FSNode) :
    (k.withNode h p n).node p = n := Function.update_self ..

theorem fsCreateNode_file (e : kmalloc k.heap sizeofFSNode = .ok (p, h)) (hp : p ≠ 0) :
    fsCreateNode k name .file = .ok (p, k.withNode h p (newNode name .file 0)) := by
  unfold fsCreateNode
  rw [kernel_kmalloc e]
  simp only [bind_ok, if_neg hp]
  rfl

/-- a new file is one allocation, and nothing else when that fails -/
theorem fsCreateNode_file_inv {k' : Kernel} (e : fsCreateNode k name .file = .ok (p, k')) :
    ∃ h, kmalloc k.heap sizeofFSNode = .ok (p, h) ∧
      (p = 0 ∧ k' = { k with heap := h } ∨
        p ≠ 0 ∧ k' = k.withNode h p (newNode name .file 0)) := by
  obtain ⟨⟨p', k1⟩, e1, _⟩ := bind_eq_ok e
  obtain ⟨h, e2, _⟩ := kernel_kmalloc_inv e1
  by_cases hp : p' = 0
  · rw [hp] at e2
    rw [fsCreateNode_null .file e2] at e
    cases e
    exact ⟨h, e2, .inl ⟨rfl, rfl⟩⟩
  · rw [fsCreateNode_file e2 hp] at e
    cases e
    exact ⟨h, e2, .inr ⟨hp, rfl⟩⟩

/-- the state with a new directory, whose array was cleared if there is one -/
def Kernel.withDir (k : Kernel) (h : Machine) (p c : Word) (name : List Byte) : Kernel :=
  { k with
    heap := h
    node := Function.update k.node p (newNode name .directory c)
    slot := if c = 0 then k.slot else Function.update k.slot c fun _ => 0 }

theorem withDir_slot (k : Kernel) (h : Machine) (p : Word) (name : List Byte) {a : Word}
    (ha : c = 0 ∨ a ≠ c) : (k.withDir h p c name).slot a = k.slot a := by
  unfold Kernel.withDir
  by_cases hc : c = 0
  · simp only [if_pos hc]
  · simp only [if_neg hc]
    exact Function.update_of_ne (ha.resolve_left hc) ..

theorem fsCreateNode_dir (e : kmalloc k.heap sizeofFSNode = .ok (p, h)) (hp : p ≠ 0)
    (e' : kmalloc h sizeofChildren = .ok (c, h')) :
    fsCreateNode k name .directory = .ok (p, k.withDir h' p c name) := by
  unfold fsCreateNode
  rw [kernel_kmalloc e]
  simp only [bind_ok, if_neg hp]
  have e1 : ({ k with heap := h }.modify p fun _ => newNode name .directory 0).kmalloc
      sizeofChildren = .ok (c, { k with heap := h' }.modify p fun _ => newNode name .directory 0) := kernel_kmalloc e'
  have e2 : ({ k with heap := h' }.modify p fun _ => newNode name .directory 0).modify p
      (fun n => { n with children := c }) = { k with
        heap := h', node := Function.update k.node p (newNode name .directory c) } := by
    unfold Kernel.modify
    simp only [Function.update_self, Function.update_idem]
    rfl
  show (Kernel.kmalloc ({ k with heap := h }.modify p fun _ => newNode name .directory 0) _ >>= _) = _
  rw [e1, bind_ok]
  simp only [e2]
  unfold Kernel.withDir
  by_cases hc : c = 0
  · rw [if_pos hc, if_pos hc]
    rfl
  · rw [if_neg hc, if_neg hc]
    rfl

end

/-! ## `fs_add_child` -/

/-- `child` becomes the last child of `parent` -/
def Kernel.attach (k : Kernel) (parent child : Word) : Kernel :=
  (((k.setSlot (k.node parent).children (k.node parent).childCount child).modify parent fun n =>
    { n with childCount := n.childCount + 1 })).modify child fun n => { n with parent := parent }

section
variable {k k' : Kernel} {parent child : Word}

theorem fsAddChild_full (hp : IsDir k parent) (hfull : maxChildren ≤ (k.node parent).childCount) :
    fsAddChild k parent child
      = .ok (k.printf "Error: directory '%s' is full.\n" [.str (k.node parent).name]) := by
  unfold fsAddChild
  rw [if_neg hp.guard, if_pos hfull]
  rfl

theorem fsAddChild_attach (hp : IsDir k parent) (hroom : (k.node parent).childCount < maxChildren)
    (ha : (k.node parent).children ≠ 0) (hc : child ≠ 0) :
    fsAddChild k parent child = .ok (k.attach parent child) := by
  unfold fsAddChild
  rw [if_neg hp.guard, if_neg (Nat.not_le.mpr hroom)]
  simp only [deref_ok ha, deref_ok hc, bind_ok]
  rfl

/-- a null child is stored, then written through -/
theorem fsAddChild_fault (hp : IsDir k parent) (hroom : (k.node parent).childCount < maxChildren) :
    fsAddChild k parent 0 = .error .nullDeref := by
  unfold fsAddChild
  rw [if_neg hp.guard, if_neg (Nat.not_le.mpr hroom)]
  by_cases ha : (k.node parent).children = 0
  · rw [ha]
    rfl
  · simp only [deref_ok ha, bind_ok]
    rfl

/-- `k'` differs from `k` in the tree and in what was printed at most -/
structure SameFiles (k k' : Kernel) : Prop where
  mem : k'.heap.mem = k.heap.mem
  freeList : k'.heap.freeList = k.heap.freeList
  type : ∀ q, (k'.node q).type = (k.node q).type
  size : ∀ q, (k'.node q).size = (k.node q).size
  data : ∀ q, (k'.node q).data = (k.node q).data
  fdTable : k'.fdTable = k.fdTable

theorem SameFiles.refl (k : Kernel) : SameFiles k k :=
  ⟨rfl, rfl, fun _ => rfl, fun _ => rfl, fun _ => rfl, rfl⟩

theorem printf_sameFiles (k : Kernel) (fmt : String) (args : List Arg) :
    SameFiles k (k.printf fmt args) :=
  ⟨rfl, rfl, fun _ => rfl, fun _ => rfl, fun _ => rfl, rfl⟩

theorem attach_sameFiles (k : Kernel) (parent child : Word) : SameFiles k (k.attach parent child) := by
  have hnode : ∀ {β : Type} (g : FSNode → β), (∀ n c, g { n with childCount := c } = g n) →
      (∀ n q, g { n with parent := q } = g n) → ∀ q, g ((k.attach parent child).node q)
        = g (k.node q) := by
    intro β g h1 h2 q
    unfold Kernel.attach
    by_cases hq : q = child
    · rw [hq, modify_node_self, h2]
      by_cases hc : child = parent
      · rw [hc, modify_node_self, h1]
        rfl
      · rw [modify_node_of_ne _ _ _ _ hc]
        rfl
    · rw [modify_node_of_ne _ _ _ _ hq]
      by_cases hc : q = parent
      · rw [hc, modify_node_self, h1]
        rfl
      · rw [modify_node_of_ne _ _ _ _ hc]
        rfl
  exact ⟨rfl, rfl, hnode _ (fun _ _ => rfl) fun _ _ => rfl, hnode _ (fun _ _ => rfl) fun _ _ => rfl,
    hnode _ (fun _ _ => rfl) fun _ _ => rfl, rfl⟩

theorem fsAddChild_sameFiles (e : fsAddChild k parent child = .ok k') : SameFiles k k' := by
  unfold fsAddChild at e
  by_cases hp : parent = 0 ∨ (k.node parent).type ≠ .directory
  · rw [if_pos hp] at e
    cases e
    exact SameFiles.refl k
  rw [if_neg hp] at e
  by_cases hfull : (k.node parent).childCount ≥ maxChildren
  · rw [if_pos hfull] at e
    cases e
    exact printf_sameFiles ..
  rw [if_neg hfull] at e
  by_cases ha : (k.node parent).children = 0
  · rw [ha] at e
    cases e
  simp only [deref_ok ha, bind_ok] at e
  by_cases hc : child = 0
  · rw [hc] at e
    cases e
  simp only [deref_ok hc, bind_ok] at e
  cases e
  exact attach_sameFiles k parent child

end

/-! ## the four functions that make nodes -/

/-- the struct of a file with a buffer -/
def fileNode (name : List Byte) (size data : Word) : FSNode :=
  { newNode name .file 0 with size := size, data := data }

/-- the state with another memory -/
def Kernel.withMem (k : Kernel) (mem : Mem) : Kernel := { k with heap := { k.heap with mem := mem } }

@[simp] theorem withMem_node (k : Kernel) (mem : Mem) : (k.withMem mem).node = k.node := rfl

@[simp] theorem enter_heap (k : Kernel) : k.enter.heap = k.heap := by
  unfold Kernel.enter
  by_cases h : k.currentDir = 0
  · rw [if_pos h]
  · rw [if_neg h]

@[simp] theorem enter_node (k : Kernel) : k.enter.node = k.node := by
  unfold Kernel.enter
  by_cases h : k.currentDir = 0
  · rw [if_pos h]
  · rw [if_neg h]

@[simp] theorem enter_slot (k : Kernel) : k.enter.slot = k.slot := by
  unfold Kernel.enter
  by_cases h : k.currentDir = 0
  · rw [if_pos h]
  · rw [if_neg h]

@[simp] theorem enter_root (k : Kernel) : k.enter.root = k.root := by
  unfold Kernel.enter
  by_cases h : k.currentDir = 0
  · rw [if_pos h]
  · rw [if_neg h]

theorem withNode_modify (k : Kernel) (h h' : Machine) (p : Word) (n : FSNode) (f : FSNode → FSNode) :
    ({ k.withNode h p n with heap := h' } : Kernel).modify p f = k.withNode h' p (f n) := by
  unfold Kernel.modify Kernel.withNode
  simp only [Function.update_self, Function.update_idem]

section
variable {k : Kernel} {path : Option CString} {parentPath name : CString} {parent f q : Word}
  {args : Option CString} {h1 h2 : Machine}

/-- the text of an argument -/
def argName (args : Option CString) : List Byte := args.elim [] Subtype.val

theorem fsTouch_eq (hs : splitPath path = .ok (parentPath, name))
    (hr : fsFindByPath k (some parentPath) = .ok parent) (hp : IsDir k parent)
    (e1 : kmalloc k.heap sizeofFSNode = .ok (f, h1)) (hf : f ≠ 0) (e2 : kmalloc h1 1024 = .ok (q, h2)) :
    fsTouch k path = (fsAddChild (k.withNode h2 f (fileNode name.val 0 q)) parent f).map (f, ·) := by
  have e3 : (k.withNode h1 f (newNode name.val .file 0)).kmalloc 1024
      = .ok (q, { k.withNode h1 f (newNode name.val .file 0) with heap := h2 }) := kernel_kmalloc e2
  unfold fsTouch
  simp only [hs, hr, bind_ok, if_neg hp.guard, fsCreateNode_file e1 hf, e3, deref_ok hf,
    withNode_modify]
  rfl

/-- without a node the new pointer is written through -/
theorem fsTouch_fault (hs : splitPath path = .ok (parentPath, name))
    (hr : fsFindByPath k (some parentPath) = .ok parent) (hp : IsDir k parent)
    (e1 : kmalloc k.heap sizeofFSNode = .ok (0, h1)) (e2 : kmalloc h1 1024 = .ok (q, h2)) :
    fsTouch k path = .error .nullDeref := by
  have e3 : ({ k with heap := h1 } : Kernel).kmalloc 1024 = .ok (q, { k with heap := h2 }) :=
    kernel_kmalloc e2
  unfold fsTouch
  simp only [hs, hr, bind_ok, if_neg hp.guard, fsCreateNode_null .file e1, e3]
  rfl

theorem cmdTouch_usage (ha : noArgs args = true) :
    cmdTouch k args = .ok (k.enter.printf "Usage: touch <filename>\n" []) := by
  unfold cmdTouch
  simp only [ha, if_true]
  rfl

theorem cmdTouch_null (ha : noArgs args = false) (e1 : kmalloc k.heap sizeofFSNode = .ok (0, h1)) :
    cmdTouch k args = .ok { k.enter with heap := h1 } := by
  rw [← enter_heap k] at e1
  unfold cmdTouch
  simp only [ha, fsCreateNode_null .file e1, bind_ok]
  rfl

theorem cmdTouch_eq (ha : noArgs args = false) (e1 : kmalloc k.heap sizeofFSNode = .ok (f, h1))
    (hf : f ≠ 0) (e2 : kmalloc h1 256 = .ok (q, h2)) (hq : q ≠ 0) :
    cmdTouch k args = (fsAddChild ((k.enter.withNode h2 f (fileNode (argName args) 256 q)).withMem
      (fill h2.mem q.toNat 0 256)) k.enter.currentDir f).map
        (·.printf "File '%s' created.\n" (argText args)) := by
  rw [← enter_heap k] at e1
  have e0 : (k.enter.withNode h1 f (newNode (argName args) .file 0)).modify f
      (fun n => { n with size := 256 })
      = k.enter.withNode h1 f { newNode (argName args) .file 0 with size := 256 } :=
    withNode_modify _ h1 h1 _ _ _
  have e3 : (k.enter.withNode h1 f { newNode (argName args) .file 0 with size := 256 }).kmalloc 256
      = .ok (q, { k.enter.withNode h1 f { newNode (argName args) .file 0 with size := 256 } with
        heap := h2 }) := kernel_kmalloc e2
  unfold cmdTouch
  rw [show args.elim [] Subtype.val = argName args from rfl]
  simp only [ha, fsCreateNode_file e1 hf, bind_ok, if_neg hf, e0, withNode_node_self, e3,
    withNode_modify, deref_ok hq]
  rfl

/-- without a buffer the null pointer is cleared -/
theorem cmdTouch_fault (ha : noArgs args = false) (e1 : kmalloc k.heap sizeofFSNode = .ok (f, h1))
    (hf : f ≠ 0) (e2 : kmalloc h1 256 = .ok (0, h2)) : cmdTouch k args = .error .nullDeref := by
  rw [← enter_heap k] at e1
  have e0 : (k.enter.withNode h1 f (newNode (argName args) .file 0)).modify f
      (fun n => { n with size := 256 })
      = k.enter.withNode h1 f { newNode (argName args) .file 0 with size := 256 } :=
    withNode_modify _ h1 h1 _ _ _
  have e3 : (k.enter.withNode h1 f { newNode (argName args) .file 0 with size := 256 }).kmalloc 256
      = .ok (0, { k.enter.withNode h1 f { newNode (argName args) .file 0 with size := 256 } with
        heap := h2 }) := kernel_kmalloc e2
  unfold cmdTouch
  rw [show args.elim [] Subtype.val = argName args from rfl]
  simp only [ha, fsCreateNode_file e1 hf, bind_ok, if_neg hf, e0, withNode_node_self, e3,
    withNode_modify, deref_null]
  rfl

theorem fsMkdir_eq (hs : splitPath path = .ok (parentPath, name))
    (hr : fsFindByPath k (some parentPath) = .ok parent) (hp : IsDir k parent)
    (e1 : kmalloc k.heap sizeofFSNode = .ok (f, h1)) (hf : f ≠ 0)
    (e2 : kmalloc h1 sizeofChildren = .ok (q, h2)) :
    fsMkdir k path = (fsAddChild (k.withDir h2 f q name.val) parent f).map (f, ·) := by
  unfold fsMkdir
  simp only [hs, hr, bind_ok, if_neg hp.guard, fsCreateNode_dir e1 hf e2]
  rfl

theorem fsMkdir_null (hs : splitPath path = .ok (parentPath, name))
    (hr : fsFindByPath k (some parentPath) = .ok parent) (hp : IsDir k parent)
    (e1 : kmalloc k.heap sizeofFSNode = .ok (0, h1)) :
    fsMkdir k path = (fsAddChild { k with heap := h1 } parent 0).map (0, ·) := by
  unfold fsMkdir
  simp only [hs, hr, bind_ok, if_neg hp.guard, fsCreateNode_null .directory e1]
  rfl

/-- both creators answer null when the parent part leads to no directory -/
theorem create_unresolved (hs : splitPath path = .ok (parentPath, name))
    (hr : fsFindByPath k (some parentPath) = .ok parent) (hp : ¬ IsDir k parent) :
    fsMkdir k path = .ok (0, k) ∧ fsTouch k path = .ok (0, k) := by
  have hguard : parent = 0 ∨ (k.node parent).type ≠ .directory := by
    by_contra hcon
    obtain ⟨h0, ht⟩ := not_or.mp hcon
    exact hp ⟨h0, not_not.mp ht⟩
  unfold fsMkdir fsTouch
  simp only [hs, hr, bind_ok, if_pos hguard]
  exact ⟨rfl, rfl⟩

theorem cmdMkdir_usage (ha : noArgs args = true) :
    cmdMkdir k args = .ok (k.enter.printf "Usage: mkdir <dirname>\n" []) := by
  unfold cmdMkdir
  simp only [ha, if_true]
  rfl

theorem cmdMkdir_null (ha : noArgs args = false) (e1 : kmalloc k.heap sizeofFSNode = .ok (0, h1)) :
    cmdMkdir k args = .ok { k.enter with heap := h1 } := by
  rw [← enter_heap k] at e1
  unfold cmdMkdir
  simp only [ha, fsCreateNode_null .directory e1, bind_ok]
  rfl

theorem cmdMkdir_eq (ha : noArgs args = false) (e1 : kmalloc k.heap sizeofFSNode = .ok (f, h1))
    (hf : f ≠ 0) (e2 : kmalloc h1 sizeofChildren = .ok (q, h2)) :
    cmdMkdir k args = (fsAddChild (k.enter.withDir h2 f q (argName args)) k.enter.currentDir f).map
      (·.printf "Directory '%s' created.\n" (argText args)) := by
  rw [← enter_heap k] at e1
  unfold cmdMkdir
  rw [show args.elim [] Subtype.val = argName args from rfl]
  simp only [ha, fsCreateNode_dir e1 hf e2, bind_ok, if_neg hf]
  rfl

end

end FirstKernel
