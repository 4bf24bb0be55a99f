import FirstKernel.Fs.Descriptor
import FirstKernel.Fs.TreeRun

/-!
# The descriptor table is a finite map

`fs_open` takes the least entry that is not used and `fs_close` gives it back; no other call writes
`fd_table`.

* `*_table`             a function leaves the table alone;
* `freeDescriptor_some`, `freeDescriptor_none`   the search of `fs_open`;
* `descriptor_map`      in every run the table is the map the calls of `sys_open` and `sys_close`
                        have built, and `sys_open` picks the least number out of it.
-/

namespace FirstKernel
open ByteMem Cells Outcome

/-! ## calls that leave the table alone -/

section
variable (k : Kernel) (p q : Word)

theorem kmalloc_table (n : Word) : Yields (k.kmalloc n) fun r => r.2.fdTable = k.fdTable :=
  (Yields.trivial _).bind fun _ _ => .pure rfl

theorem fsCreateNode_table (name : List Byte) (type : FSNodeType) :
    Yields (fsCreateNode k name type) fun r => r.2.fdTable = k.fdTable := by
  unfold fsCreateNode
  refine (kmalloc_table k _).bind fun ⟨node, k1⟩ h1 => ?_
  refine .ite (fun _ => .pure h1) fun _ => ?_
  refine .ite (fun _ => ?_) fun _ => .pure h1
  refine (kmalloc_table _ _).bind fun ⟨children, k2⟩ h2 => ?_
  have h12 : k2.fdTable = k.fdTable := h2.trans h1
  exact .ite (fun _ => .pure h12) fun _ => .pure h12

theorem fsAddChild_table : Yields (fsAddChild k p q) fun k' => k'.fdTable = k.fdTable := by
  unfold fsAddChild
  refine .ite (fun _ => .pure rfl) fun _ => ?_
  refine .ite (fun _ => .pure rfl) fun _ => ?_
  refine (Yields.trivial _).bind fun _ _ => ?_
  exact (Yields.trivial _).bind fun _ _ => .pure rfl

/-- the recursion of `fs_remove_child` and its loop, together by induction on the bound -/
theorem remove_table (fuel : Nat) :
    (∀ k p q, Yields (fsRemoveChild fuel k p q) fun k' => k'.fdTable = k.fdTable) ∧
    ∀ k q j, Yields (removeChildren fuel k q j) fun k' => k'.fdTable = k.fdTable := by
  induction fuel with
  | zero =>
    refine ⟨fun k p q => ?_, fun k q j => ?_⟩
    · rw [fsRemoveChild]
      exact .error _
    · rw [removeChildren]
      exact .error _
  | succ fuel ih =>
    obtain ⟨ihRemove, ihLoop⟩ := ih
    refine ⟨fun k p q => ?_, fun k q j => ?_⟩
    · rw [fsRemoveChild]
      refine .ite (fun _ => .pure rfl) fun _ => ?_
      extract_lets search
      have hsearch : ∀ u, Yields (search u) fun k' => k'.fdTable = k.fdTable := by
        intro u
        simp only [search]
        cases findSlot (k.slot (k.node p).children) q (k.node p).childCount 0 with
        | none => exact .pure rfl
        | some i =>
          refine (Yields.trivial _).bind fun _ _ => ?_
          exact .ite (fun _ => (ihLoop k q 0).bind fun _ h => .pure h) fun _ => .pure rfl
      exact .ite (fun _ => (Yields.trivial _).bind fun u _ => hsearch u) fun _ => hsearch ()
    · rw [removeChildren]
      refine .ite (fun _ => ?_) fun _ => .pure rfl
      refine (ihRemove k q _).bind fun k' h => ?_
      exact (ihLoop k' q (j + 1)).mono fun _ h' => h'.trans h

theorem fsRead_table (offset n buf : Word) :
    Yields (fsRead k p offset n buf) fun r => r.2.fdTable = k.fdTable := by
  unfold fsRead
  refine .ite (fun _ => .pure rfl) fun _ => ?_
  extract_lets
  refine .ite (fun _ => .pure rfl) fun _ => ?_
  extract_lets
  exact .ite (fun _ => (Yields.trivial _).bind fun _ _ => .pure rfl) fun _ => .pure rfl

theorem sysRead_table (fd buf n : Word) :
    Yields (sysRead k fd buf n) fun r => r.2.fdTable = k.fdTable := by
  unfold sysRead
  exact .ite (fun _ => .ok rfl) fun _ => fsRead_table k _ _ _ _

theorem sysWrite_table (fd buf n : Word) :
    Yields (sysWrite k fd buf n) fun r => r.2.fdTable = k.fdTable := by
  unfold sysWrite
  exact .ite (fun _ => .ok rfl) fun _ => fsWrite_table k _ _ _ _

/-! ## creation by path -/

theorem fsMkdir_table (path : Option CString) :
    Yields (fsMkdir k path) fun r => r.2.fdTable = k.fdTable := by
  unfold fsMkdir
  refine (Yields.trivial _).bind fun ⟨parentPath, name⟩ _ => ?_
  refine (Yields.trivial _).bind fun parent _ => ?_
  refine .ite (fun _ => .pure rfl) fun _ => ?_
  refine (fsCreateNode_table k name.val .directory).bind fun ⟨newDir, k1⟩ h1 => ?_
  exact (fsAddChild_table k1 parent newDir).bind fun k2 h2 => .pure (h2.trans h1)

theorem fsTouch_table (path : Option CString) :
    Yields (fsTouch k path) fun r => r.2.fdTable = k.fdTable := by
  unfold fsTouch
  refine (Yields.trivial _).bind fun ⟨parentPath, name⟩ _ => ?_
  refine (Yields.trivial _).bind fun parent _ => ?_
  refine .ite (fun _ => .pure rfl) fun _ => ?_
  refine (fsCreateNode_table k name.val .file).bind fun ⟨newFile, k1⟩ h1 => ?_
  refine (kmalloc_table k1 1024).bind fun ⟨data, k2⟩ h2 => ?_
  refine (Yields.trivial _).bind fun _ _ => ?_
  refine (fsAddChild_table _ parent newFile).bind fun k3 h3 => .pure ?_
  exact h3.trans (h2.trans h1)

/-! ## commands -/

theorem lsLoop_table (array : Word) (n i : Nat) :
    Yields (lsLoop array n i k) fun k' => k'.fdTable = k.fdTable := by
  induction n generalizing i k with
  | zero => exact .pure rfl
  | succ n ih =>
    rw [lsLoop]
    refine (Yields.trivial _).bind fun _ _ => ?_
    refine (Yields.trivial _).bind fun _ _ => ?_
    exact ih (k.printf _ _) (i + 1)

theorem enter_table : k.enter.fdTable = k.fdTable := by
  unfold Kernel.enter
  split <;> rfl

variable (args : Option CString)

theorem cmdLs_table : Yields (cmdLs k args) fun k' => k'.fdTable = k.fdTable := by
  unfold cmdLs
  refine (Yields.trivial _).bind fun _ _ => ?_
  exact (lsLoop_table k.enter _ _ _).bind fun _ h => .pure (h.trans (enter_table k))

theorem cmdCd_table : Yields (cmdCd k args) fun k' => k'.fdTable = k.fdTable := by
  have h := enter_table k
  unfold cmdCd
  refine .ite (fun _ => .pure h) fun _ => ?_
  refine .ite (fun _ => .ite (fun _ => .pure h) fun _ => .pure h) fun _ => ?_
  exact (Yields.trivial _).bind fun _ _ => .ite (fun _ => .pure h) fun _ => .pure h

theorem cmdTouch_table : Yields (cmdTouch k args) fun k' => k'.fdTable = k.fdTable := by
  have h := enter_table k
  unfold cmdTouch
  refine .ite (fun _ => .pure h) fun _ => ?_
  refine (fsCreateNode_table k.enter _ .file).bind fun ⟨file, k1⟩ h1 => ?_
  refine .ite (fun _ => .pure (h1.trans h)) fun _ => ?_
  refine (kmalloc_table _ _).bind fun ⟨data, k2⟩ h2 => ?_
  refine (Yields.trivial _).bind fun _ _ => ?_
  refine (fsAddChild_table _ _ file).bind fun k3 h3 => .pure ?_
  exact h3.trans (h2.trans (h1.trans h))

theorem cmdMkdir_table : Yields (cmdMkdir k args) fun k' => k'.fdTable = k.fdTable := by
  have h := enter_table k
  unfold cmdMkdir
  refine .ite (fun _ => .pure h) fun _ => ?_
  refine (fsCreateNode_table k.enter _ .directory).bind fun ⟨dir, k1⟩ h1 => ?_
  refine .ite (fun _ => .pure (h1.trans h)) fun _ => ?_
  exact (fsAddChild_table k1 _ dir).bind fun k2 h2 => .pure (h2.trans (h1.trans h))

theorem removeNamed_table (type : FSNodeType) (usage removed missing : String) :
    Yields (removeNamed type usage removed missing k args) fun k' => k'.fdTable = k.fdTable := by
  have h := enter_table k
  unfold removeNamed
  refine .ite (fun _ => .pure h) fun _ => ?_
  refine (Yields.trivial _).bind fun node _ => ?_
  refine .ite (fun _ => ?_) fun _ => .pure h
  exact ((remove_table removeBound).1 k.enter _ node).bind fun _ h1 => .pure (h1.trans h)

theorem command_table (c : Command) : Yields (c.exec k args) fun k' => k'.fdTable = k.fdTable := by
  cases c with
  | touch => exact cmdTouch_table k args
  | mkdir => exact cmdMkdir_table k args
  | rm => exact removeNamed_table k args _ _ _ _
  | rmdir => exact removeNamed_table k args _ _ _ _
  | cd => exact cmdCd_table k args
  | ls => exact cmdLs_table k args

end

/-! ## `fs_open` and `fs_close` -/

/-- the node behind an open number -/
def Kernel.descriptor (k : Kernel) (fd : Word) : Option Word :=
  if k.isOpen fd then some (k.fdTable fd.toNat).node else none

/-- the number of a descriptor, if it is in range -/
def fdIndex (fd : Word) : Option Nat :=
  if 0 ≤ fd.toInt ∧ fd.toInt < maxOpenFiles then some fd.toNat else none

section
variable {t : Nat → FileDescriptor} {k : Kernel} {fd : Word} {i j : Nat}

/-- the search stops at the least entry that is not used -/
theorem freeDescriptor_some {n : Nat} (h : freeDescriptor t n i = some j) :
    i ≤ j ∧ j < i + n ∧ (t j).used = false ∧ ∀ m, i ≤ m → m < j → (t m).used = true := by
  induction n generalizing i with
  | zero => cases h
  | succ n ih =>
    rw [freeDescriptor] at h
    cases hu : (t i).used with
    | true =>
      rw [if_pos hu] at h
      obtain ⟨h1, h2, h3, h4⟩ := ih h
      refine ⟨by omega, by omega, h3, fun m hm hmj => ?_⟩
      by_cases e : m = i
      · rw [e]
        exact hu
      · exact h4 m (by omega) hmj
    | false =>
      rw [if_neg (by rw [hu]; decide)] at h
      cases h
      exact ⟨Nat.le_refl _, by omega, hu, fun m hm hmj => by omega⟩

theorem freeDescriptor_none {n : Nat} : freeDescriptor t n i = none ↔
    ∀ m, i ≤ m → m < i + n → (t m).used = true := by
  induction n generalizing i with
  | zero =>
    refine ⟨fun _ m h1 h2 => by omega, fun _ => rfl⟩
  | succ n ih =>
    rw [freeDescriptor]
    cases hu : (t i).used with
    | true =>
      rw [if_pos rfl, ih]
      constructor
      · intro h m h1 h2
        by_cases e : m = i
        · rw [e]
          exact hu
        · exact h m (by omega) (by omega)
      · intro h m h1 h2
        exact h m (by omega) (by omega)
    | false =>
      rw [if_neg Bool.false_ne_true]
      refine ⟨fun h => absurd h (Option.some_ne_none i), fun h => ?_⟩
      rw [h i (Nat.le_refl _) (by omega)] at hu
      cases hu

theorem fdIndex_ofNat (h : i < maxOpenFiles) : fdIndex (BitVec.ofNat 32 i) = some i := by
  unfold maxOpenFiles at h
  have hnat : (BitVec.ofNat 32 i).toNat = i := by
    rw [BitVec.toNat_ofNat, Nat.mod_eq_of_lt (by omega)]
  have hint : (BitVec.ofNat 32 i).toInt = i := by
    rw [BitVec.toInt_eq_toNat_of_lt (by rw [hnat]; omega), hnat]
  unfold fdIndex maxOpenFiles
  rw [hint, hnat, if_pos ⟨by omega, by omega⟩]

theorem fdIndex_some (h : fdIndex fd = some i) : fd = BitVec.ofNat 32 i ∧ i < maxOpenFiles := by
  unfold fdIndex at h
  by_cases hr : 0 ≤ fd.toInt ∧ fd.toInt < maxOpenFiles
  · rw [if_pos hr] at h
    cases h
    refine ⟨by rw [BitVec.ofNat_toNat, BitVec.setWidth_eq], ?_⟩
    have hint : fd.toInt = fd.toNat := by
      rw [BitVec.toInt_eq_toNat_cond] at hr ⊢
      split at hr <;> rename_i hc
      · rw [if_pos hc]
      · exfalso
        have := fd.isLt
        omega
    have := hr.2
    rw [hint] at this
    exact Int.ofNat_lt.mp this
  · rw [if_neg hr] at h
    cases h

theorem isOpen_eq (k : Kernel) (fd : Word) :
    k.isOpen fd = (fdIndex fd).any fun i => (k.fdTable i).used := by
  unfold Kernel.isOpen fdIndex
  by_cases h1 : 0 ≤ fd.toInt
  · by_cases h2 : fd.toInt < maxOpenFiles
    · simp [h1, h2]
    · simp [h1, h2]
  · simp [h1]

theorem descriptor_eq (k : Kernel) (fd : Word) : k.descriptor fd = (fdIndex fd).bind fun i =>
    if (k.fdTable i).used then some (k.fdTable i).node else none := by
  unfold Kernel.descriptor
  rw [isOpen_eq]
  cases h : fdIndex fd with
  | none => rfl
  | some i =>
    obtain ⟨rfl, hi⟩ := fdIndex_some h
    have hnat : (BitVec.ofNat 32 i).toNat = i := by
      unfold maxOpenFiles at hi
      rw [BitVec.toNat_ofNat, Nat.mod_eq_of_lt (by omega)]
    rw [hnat]
    rfl

end

/-! ## runs -/

inductive TableOp where
  | sysOpen (path : Option CString)
  | sysClose (fd : Word)
  | sysRead (fd buf n : Word)
  | sysWrite (fd buf n : Word)
  | fsRead (file offset n buf : Word)
  | fsWrite (file offset n buf : Word)
  | fsTouch (path : Option CString)
  | fsMkdir (path : Option CString)
  | fsRemoveChild (parent child : Word)
  | command (c : Command) (args : Option CString)
  | poke (x : Nat) (b : Byte)

/-- the call, with its result where it has one -/
def TableOp.exec (k : Kernel) : TableOp → Res (Word × Kernel)
  | .sysOpen path => FirstKernel.sysOpen k path
  | .sysClose fd => .ok (0, FirstKernel.sysClose k fd)
  | .sysRead fd buf n => FirstKernel.sysRead k fd buf n
  | .sysWrite fd buf n => FirstKernel.sysWrite k fd buf n
  | .fsRead file offset n buf => FirstKernel.fsRead k file offset n buf
  | .fsWrite file offset n buf => FirstKernel.fsWrite k file offset n buf
  | .fsTouch path => FirstKernel.fsTouch k path
  | .fsMkdir path => FirstKernel.fsMkdir k path
  | .fsRemoveChild parent child =>
    (FirstKernel.fsRemoveChild removeBound k parent child).map fun k' => (0, k')
  | .command c args => (c.exec k args).map fun k' => (0, k')
  | .poke x b => .ok (0, k.withMem (store8 k.heap.mem x b))

/-- the nodes the numbers are bound to, by the calls alone: `sys_open` binds what it returns to the
node the resolver found before the call, `sys_close` unbinds its argument -/
def TableOp.record (k : Kernel) (bound : Nat → Option Word) (r : Word) : TableOp → Nat → Option Word
  | .sysOpen path =>
    match fdIndex r, fsFindByPath k path with
    | some i, .ok node => Function.update bound i (some node)
    | _, _ => bound
  | .sysClose fd =>
    match fdIndex fd with
    | some i => Function.update bound i none
    | none => bound
  | _ => bound

/-- the kernel and what its callers know of the table -/
structure TableSession where
  k : Kernel
  bound : Nat → Option Word

/-- runs from a zeroed table over any file system -/
def tableSystem : Run.System TableSession TableOp where
  init t := (∀ i, (t.k.fdTable i).used = false) ∧ t.bound = fun _ => none
  step t op t' := ∃ r, op.exec t.k = .ok (r, t'.k) ∧ t'.bound = op.record t.k t.bound r

/-- the table holds the nodes the numbers are bound to -/
def Bound (t : TableSession) : Prop :=
  ∀ i, i < maxOpenFiles →
    t.bound i = if (t.k.fdTable i).used then some (t.k.fdTable i).node else none

/-- what `sys_open` answers, given the node the resolver finds -/
theorem sysOpen_eq {k : Kernel} {path : Option CString} {node : Word}
    (h : fsFindByPath k path = .ok node) :
    sysOpen k path = .ok (if node = 0 then (minusOne, k) else fsOpen k node) := by
  unfold sysOpen
  rw [h, bind_ok]
  split <;> rfl

section
variable {t t' : TableSession}

theorem Bound.lookup (h : Bound t) (fd : Word) : t.k.descriptor fd = (fdIndex fd).bind t.bound := by
  rw [descriptor_eq]
  cases e : fdIndex fd with
  | none => rfl
  | some i => exact (h i (fdIndex_some e).2).symm

/-- a call that leaves the table alone and is neither `sys_open` nor `sys_close` -/
theorem Bound.same (h : Bound t) (hk : t'.k.fdTable = t.k.fdTable) (hb : t'.bound = t.bound) :
    Bound t' := by
  intro i hi
  rw [hk, hb]
  exact h i hi

theorem Bound.sysOpen (h : Bound t) {path : Option CString} {r : Word}
    (e : sysOpen t.k path = .ok (r, t'.k))
    (hb : t'.bound = TableOp.record t.k t.bound r (.sysOpen path)) : Bound t' := by
  obtain ⟨node, hnode, _⟩ := bind_eq_ok e
  rw [sysOpen_eq hnode] at e
  have hnone : fdIndex minusOne = none := by decide
  simp only [TableOp.record, hnode] at hb
  by_cases hz : node = 0
  · rw [if_pos hz] at e
    obtain ⟨hr, hk⟩ := Prod.mk.inj (Except.ok.inj e)
    rw [← hr, hnone] at hb
    exact h.same (by rw [← hk]) hb
  rw [if_neg hz] at e
  unfold fsOpen at e
  cases hfree : freeDescriptor t.k.fdTable maxOpenFiles 0 with
  | none =>
    rw [hfree] at e
    obtain ⟨hr, hk⟩ := Prod.mk.inj (Except.ok.inj e)
    rw [← hr, hnone] at hb
    exact h.same (by rw [← hk]) hb
  | some i =>
    rw [hfree] at e
    obtain ⟨hr, hk⟩ := Prod.mk.inj (Except.ok.inj e)
    obtain ⟨_, hi, _, _⟩ := freeDescriptor_some hfree
    rw [Nat.zero_add] at hi
    rw [← hr, fdIndex_ofNat hi] at hb
    intro j hj
    rw [hb, ← hk]
    by_cases hji : j = i
    · rw [hji]
      simp only [Function.update_self]
      rfl
    · simp only [Function.update_of_ne hji]
      exact h j hj

theorem Bound.sysClose (h : Bound t) {fd : Word} (hk : t'.k = FirstKernel.sysClose t.k fd)
    (hb : t'.bound = TableOp.record t.k t.bound 0 (.sysClose fd)) : Bound t' := by
  unfold FirstKernel.sysClose fsClose at hk
  simp only [TableOp.record] at hb
  rw [isOpen_eq] at hk
  cases e : fdIndex fd with
  | none =>
    rw [e] at hk hb
    exact h.same (by rw [hk]; rfl) hb
  | some i =>
    obtain ⟨rfl, hi⟩ := fdIndex_some e
    have hnat : (BitVec.ofNat 32 i).toNat = i := by
      unfold maxOpenFiles at hi
      rw [BitVec.toNat_ofNat, Nat.mod_eq_of_lt (by omega)]
    rw [e, Option.any_some, hnat] at hk
    rw [e] at hb
    have hb' : t'.bound = Function.update t.bound i none := hb
    cases hu : (t.k.fdTable i).used with
    | true =>
      rw [if_pos hu] at hk
      intro j hj
      rw [hb', hk]
      by_cases hji : j = i
      · rw [hji]
        simp only [Function.update_self]
        rfl
      · simp only [Function.update_of_ne hji]
        exact h j hj
    | false =>
      -- nothing was bound to the number
      rw [if_neg (by rw [hu]; exact Bool.false_ne_true)] at hk
      refine h.same (by rw [hk]) (hb'.trans ?_)
      apply Function.update_eq_self_iff.mpr
      rw [h i hi, hu]
      rfl

theorem Bound.step (h : Bound t) {op : TableOp} (hs : tableSystem.step t op t') : Bound t' := by
  obtain ⟨r, e, hb⟩ := hs
  cases op with
  | sysOpen path => exact h.sysOpen e hb
  | sysClose fd =>
    obtain ⟨hr, hk⟩ := Prod.mk.inj (Except.ok.inj e)
    rw [← hr] at hb
    exact h.sysClose hk.symm hb
  | sysRead fd buf n => exact h.same (sysRead_table t.k fd buf n _ e) hb
  | sysWrite fd buf n => exact h.same (sysWrite_table t.k fd buf n _ e) hb
  | fsRead file offset n buf => exact h.same (fsRead_table t.k file offset n buf _ e) hb
  | fsWrite file offset n buf => exact h.same (fsWrite_table t.k file offset n buf _ e) hb
  | fsTouch path => exact h.same (fsTouch_table t.k path _ e) hb
  | fsMkdir path => exact h.same (fsMkdir_table t.k path _ e) hb
  | fsRemoveChild parent child =>
    obtain ⟨k1, e1, hk⟩ := map_eq_ok e
    have hk' : k1 = t'.k := (Prod.mk.inj hk).2
    rw [hk'] at e1
    exact h.same ((remove_table removeBound).1 t.k parent child t'.k e1) hb
  | command c args =>
    obtain ⟨k1, e1, hk⟩ := map_eq_ok e
    have hk' : k1 = t'.k := (Prod.mk.inj hk).2
    rw [hk'] at e1
    exact h.same (command_table t.k args c t'.k e1) hb
  | poke x b =>
    obtain ⟨_, hk⟩ := Prod.mk.inj (Except.ok.inj e)
    exact h.same (by rw [← hk]; rfl) hb

theorem bound_reachable (h : Run.Reachable tableSystem t) : Bound t := by
  refine h.invariant ?_ ?_
  · intro t ⟨h0, hb⟩ i _
    rw [hb, h0 i]
    rfl
  · intro t op t' _ ih hs
    exact ih.step hs

end

/-! ## the map -/

/-- the table of `k` is the finite map `bound`, and `sys_open` and `sys_close` work on it -/
structure FiniteMap (k : Kernel) (bound : Nat → Option Word) : Prop where
  lookup : ∀ fd, k.descriptor fd = (fdIndex fd).bind bound
  fails : ∀ path node, fsFindByPath k path = .ok node →
    (node = 0 ∨ ∀ i, i < maxOpenFiles → bound i ≠ none) → sysOpen k path = .ok (minusOne, k)
  opens : ∀ path node, fsFindByPath k path = .ok node →
    ¬ (node = 0 ∨ ∀ i, i < maxOpenFiles → bound i ≠ none) →
    ∃ i k', sysOpen k path = .ok (BitVec.ofNat 32 i, k') ∧ i < maxOpenFiles ∧ bound i = none ∧
      (∀ j, j < i → bound j ≠ none) ∧
      ∀ fd, k'.descriptor fd = if fd = BitVec.ofNat 32 i then some node else k.descriptor fd
  closed : ∀ fd, (fdIndex fd).bind bound = none → sysClose k fd = k

section
variable {t : TableSession}

theorem Bound.ne_none (h : Bound t) {i : Nat} (hi : i < maxOpenFiles) :
    t.bound i ≠ none ↔ (t.k.fdTable i).used = true := by
  rw [h i hi]
  cases (t.k.fdTable i).used <;> simp

/-- the search of `fs_open` fails exactly when every number is bound -/
theorem Bound.full_iff (h : Bound t) : freeDescriptor t.k.fdTable maxOpenFiles 0 = none ↔
    ∀ i, i < maxOpenFiles → t.bound i ≠ none := by
  rw [freeDescriptor_none]
  constructor
  · intro hall i hi
    exact (h.ne_none hi).mpr (hall i (Nat.zero_le _) (by omega))
  · intro hall i _ hi
    exact (h.ne_none (by omega)).mp (hall i (by omega))

theorem Bound.fails (h : Bound t) {path : Option CString} {node : Word}
    (hnode : fsFindByPath t.k path = .ok node)
    (hf : node = 0 ∨ ∀ i, i < maxOpenFiles → t.bound i ≠ none) :
    FirstKernel.sysOpen t.k path = .ok (minusOne, t.k) := by
  rw [sysOpen_eq hnode]
  rcases hf with hz | hfull
  · rw [if_pos hz]
  · unfold fsOpen
    rw [h.full_iff.mpr hfull]
    simp only [ite_self]

theorem Bound.opens (h : Bound t) {path : Option CString} {node : Word}
    (hnode : fsFindByPath t.k path = .ok node)
    (hf : ¬ (node = 0 ∨ ∀ i, i < maxOpenFiles → t.bound i ≠ none)) :
    ∃ i k', FirstKernel.sysOpen t.k path = .ok (BitVec.ofNat 32 i, k') ∧ i < maxOpenFiles ∧
      t.bound i = none ∧ (∀ j, j < i → t.bound j ≠ none) ∧
      ∀ fd, k'.descriptor fd = if fd = BitVec.ofNat 32 i then some node else t.k.descriptor fd := by
  obtain ⟨hz, hfull⟩ := not_or.mp hf
  rw [sysOpen_eq hnode, if_neg hz]
  unfold fsOpen
  cases hfree : freeDescriptor t.k.fdTable maxOpenFiles 0 with
  | none => exact absurd (h.full_iff.mp hfree) hfull
  | some i =>
    obtain ⟨_, hi, hu, hleast⟩ := freeDescriptor_some hfree
    rw [Nat.zero_add] at hi
    refine ⟨i, _, rfl, hi, ?_, fun j hj => ?_, fun fd => ?_⟩
    · rw [h i hi, hu]
      rfl
    · exact (h.ne_none (by omega)).mpr (hleast j (Nat.zero_le _) hj)
    · rw [descriptor_eq, descriptor_eq]
      by_cases hfd : fd = BitVec.ofNat 32 i
      · rw [if_pos hfd, hfd, fdIndex_ofNat hi, Option.bind_some]
        simp only [Function.update_self]
        rfl
      · rw [if_neg hfd]
        cases e : fdIndex fd with
        | none => rfl
        | some j =>
          have hji : j ≠ i := fun hji => hfd (by rw [(fdIndex_some e).1, hji])
          simp only [Option.bind_some, Function.update_of_ne hji]

theorem Bound.closed (h : Bound t) {fd : Word} (hfd : (fdIndex fd).bind t.bound = none) :
    FirstKernel.sysClose t.k fd = t.k := by
  have hopen : ¬ t.k.isOpen fd = true := by
    intro ho
    rw [← h.lookup] at hfd
    unfold Kernel.descriptor at hfd
    rw [if_pos ho] at hfd
    cases hfd
  unfold FirstKernel.sysClose fsClose
  rw [if_neg hopen]

end

/-- a number stays bound to its node until it is closed -/
theorem bound_stays {t t' : TableSession} {op : TableOp} {i : Nat} {node : Word}
    (hs : tableSystem.step t op t') (hb : Bound t)
    (hop : op ≠ .sysClose (BitVec.ofNat 32 i)) (h : t.bound i = some node) :
    t'.bound i = some node := by
  obtain ⟨r, e, hrec⟩ := hs
  cases op with
  | sysOpen path =>
    obtain ⟨node', hnode, _⟩ := bind_eq_ok e
    simp only [TableOp.record, hnode] at hrec
    by_cases hf : node' = 0 ∨ ∀ i, i < maxOpenFiles → t.bound i ≠ none
    · have e' : FirstKernel.sysOpen t.k path = .ok (r, t'.k) := e
      rw [hb.fails hnode hf] at e'
      obtain ⟨hr, _⟩ := Prod.mk.inj (Except.ok.inj e')
      have hnone : fdIndex minusOne = none := by decide
      rw [← hr, hnone] at hrec
      rw [hrec]
      exact h
    · obtain ⟨j, k', e', hj, hfree, _⟩ := hb.opens hnode hf
      have e'' : FirstKernel.sysOpen t.k path = .ok (r, t'.k) := e
      rw [e'] at e''
      obtain ⟨hr, _⟩ := Prod.mk.inj (Except.ok.inj e'')
      rw [← hr, fdIndex_ofNat hj] at hrec
      have hij : i ≠ j := by
        intro eij
        rw [← eij, h] at hfree
        cases hfree
      rw [hrec]
      exact (Function.update_of_ne hij ..).trans h
  | sysClose fd =>
    have hfd : fdIndex fd ≠ some i := by
      intro e'
      rw [(fdIndex_some e').1] at hop
      exact hop rfl
    simp only [TableOp.record] at hrec
    cases e' : fdIndex fd with
    | none =>
      rw [e'] at hrec
      rw [hrec]
      exact h
    | some j =>
      rw [e'] at hrec hfd
      have hij : i ≠ j := fun eij => hfd (by rw [eij])
      rw [hrec]
      exact (Function.update_of_ne hij ..).trans h
  | sysRead fd buf n => exact hrec ▸ h
  | sysWrite fd buf n => exact hrec ▸ h
  | fsRead file offset n buf => exact hrec ▸ h
  | fsWrite file offset n buf => exact hrec ▸ h
  | fsTouch path => exact hrec ▸ h
  | fsMkdir path => exact hrec ▸ h
  | fsRemoveChild parent child => exact hrec ▸ h
  | command c args => exact hrec ▸ h
  | poke x b => exact hrec ▸ h

/-- **In every run the descriptor table is the finite map that the calls of `sys_open` and
`sys_close` have built, and an open number keeps its node up to its own `sys_close`.** -/
theorem descriptor_map (t : TableSession) (h : Run.Reachable tableSystem t) :
    FiniteMap t.k t.bound ∧
    ∀ fd node, t.k.descriptor fd = some node →
      ∀ t', Run.Steps tableSystem (· ≠ .sysClose fd) t t' → t'.k.descriptor fd = some node := by
  have hb := bound_reachable h
  refine ⟨⟨hb.lookup, fun _ _ => hb.fails, fun _ _ => hb.opens, fun _ => hb.closed⟩, ?_⟩
  intro fd node hfd t' hsteps
  rw [hb.lookup] at hfd
  obtain ⟨i, hi, hbi⟩ := Option.bind_eq_some_iff.mp hfd
  obtain ⟨hfd', _⟩ := fdIndex_some hi
  have hkeep : t'.bound i = some node := by
    refine hsteps.invariant (P := fun t => t.bound i = some node) hbi ?_
    intro t1 op t2 h1 hb1 hop hs
    rw [hfd'] at hop
    exact bound_stays hs (bound_reachable (h1.reachable h)) hop hb1
  rw [(bound_reachable (hsteps.reachable h)).lookup, hi]
  exact hkeep

/-- the root opened twice and the first number closed -/
theorem descriptor_map_two : ∃ t : TableSession, t.bound 0 = none ∧ t.bound 1 = some 0x0080000C ∧
    FiniteMap t.k t.bound := by
  obtain ⟨k0, k1, k2, e0, hu, e1, e2, hp0, hp1⟩ : ∃ k0 k1 k2,
      fsInit (Kernel.boot bootMachine) = .ok k0 ∧ (∀ i, (k0.fdTable i).used = false) ∧
      sysOpen k0 (some ⟨str "/", by decide⟩) = .ok (0, k1) ∧
      sysOpen k1 (some ⟨str "/", by decide⟩) = .ok (1, k2) ∧
      fsFindByPath k0 (some ⟨str "/", by decide⟩) = .ok 0x0080000C ∧
      fsFindByPath k1 (some ⟨str "/", by decide⟩) = .ok 0x0080000C :=
    ⟨_, _, _, rfl, fun _ => rfl, rfl, rfl, rfl, rfl⟩
  have h0 : Run.Reachable tableSystem ⟨k0, fun _ => none⟩ := .init ⟨hu, rfl⟩
  have h1 : Run.Reachable tableSystem ⟨k1, Function.update (fun _ => none) 0 (some 0x0080000C)⟩ :=
    @Run.Reachable.step _ _ _ _ _ (.sysOpen (some ⟨str "/", by decide⟩)) h0 ⟨0, e1, by
      simp only [TableOp.record, hp0]
      rfl⟩
  have h2 : Run.Reachable tableSystem ⟨k2, Function.update (Function.update (fun _ => none) 0
      (some 0x0080000C)) 1 (some 0x0080000C)⟩ :=
    @Run.Reachable.step _ _ _ _ _ (.sysOpen (some ⟨str "/", by decide⟩)) h1 ⟨1, e2, by
      simp only [TableOp.record, hp1]
      rfl⟩
  have h3 : Run.Reachable tableSystem ⟨sysClose k2 0, Function.update (Function.update
      (Function.update (fun _ => none) 0 (some 0x0080000C)) 1 (some 0x0080000C)) 0 none⟩ :=
    @Run.Reachable.step _ _ _ _ _ (.sysClose 0) h2 ⟨0, rfl, rfl⟩
  exact ⟨_, rfl, rfl, (descriptor_map _ h3).1⟩

end FirstKernel
