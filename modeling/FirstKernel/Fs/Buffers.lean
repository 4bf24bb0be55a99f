import FirstKernel.Fs.AllOrNothing
import FirstKernel.Lib.Outcome

/-!
# The local arrays that a path is copied to

`temp`, `parent_path` and `name` are filled without a test of their sizes.

* `splitPath_slash`, `splitPath_plain`     what `split_path` does to a path with and without a slash;
* `path_buffers_iff`                       when each of the five functions stays inside the arrays.
-/

namespace FirstKernel
open ByteMem Arbor Split Outcome

section
variable {k : Kernel} {path : CString} {pre post : List Byte} {p q : Word} {name : List Byte}

/-! ## `split_path` -/

theorem strrchr_of_not_mem {c : Byte} {s : List Byte} (h : c ∉ s) (i : Nat) (last : Option Nat) :
    strrchr c s i last = last := by
  induction s generalizing i with
  | nil => rfl
  | cons a s ih =>
    have ha : a ≠ c := (List.ne_of_not_mem_cons h).symm
    rw [strrchr, if_neg ha]
    exact ih (List.not_mem_of_not_mem_cons h) (i + 1)

theorem strrchr_append {c : Byte} (hpost : c ∉ post) (i : Nat) (last : Option Nat) :
    strrchr c (pre ++ c :: post) i last = some (i + pre.length) := by
  induction pre generalizing i last with
  | nil =>
    show strrchr c (c :: post) i last = _
    rw [strrchr, if_pos rfl, strrchr_of_not_mem hpost]
    rfl
  | cons a pre ih =>
    rw [List.cons_append, strrchr, ih, List.length_cons]
    congr 1
    omega

/-- the bytes in front of and behind the last slash -/
theorem splitPath_slash (e : path.val = pre ++ chr '/' :: post) (hpost : chr '/' ∉ post) :
    splitPath (some path) = (do
      storeAt pre.length sizeofParentPath
      storeAt post.length sizeofName
      return (path.take pre.length, path.drop (pre.length + 1))) ∧
    (path.take pre.length).val = pre ∧ (path.drop (pre.length + 1)).val = post := by
  have htake : (path.take pre.length).val = pre := by
    show path.val.take pre.length = pre
    rw [e, List.take_left']
    rfl
  have hdrop : (path.drop (pre.length + 1)).val = post := by
    show path.val.drop (pre.length + 1) = post
    have e' : path.val = (pre ++ [chr '/']) ++ post := by rw [e, List.append_assoc]; rfl
    rw [e', List.drop_left']
    rw [List.length_append]
    rfl
  refine ⟨?_, htake, hdrop⟩
  have hidx : strrchr (chr '/') path.val 0 none = some pre.length := by
    rw [e, strrchr_append hpost, Nat.zero_add]
  unfold splitPath
  simp only [hidx, hdrop]

theorem splitPath_plain (hno : chr '/' ∉ path.val) :
    splitPath (some path) = (do
      storeAt path.val.length sizeofName
      return (path.take 0, path)) := by
  unfold splitPath
  simp only [strrchr_of_not_mem hno]

/-- the part of a path behind its last slash -/
def lastPart (path : List Byte) : List Byte := (components path).getLastD []

/-- the name has room in `name` and what is in front of its slash in `parent_path` -/
def splitFits (path : List Byte) : Prop :=
  (lastPart path).length < sizeofName ∧ path.length - (lastPart path).length - 1 < sizeofParentPath

instance (path : List Byte) : Decidable (splitFits path) := inferInstanceAs (Decidable (_ ∧ _))

theorem components_slash (pre : List Byte) (hpost : chr '/' ∉ post) :
    components (pre ++ chr '/' :: post) = components pre ++ [post] := by
  unfold components
  rw [List.splitOn_append_cons_self, List.splitOn_eq_singleton hpost]

theorem lastPart_slash (pre : List Byte) (hpost : chr '/' ∉ post) :
    lastPart (pre ++ chr '/' :: post) = post := by
  unfold lastPart
  rw [components_slash pre hpost, List.getLastD_concat]

theorem lastPart_plain {path : List Byte} (hno : chr '/' ∉ path) : lastPart path = path := by
  unfold lastPart components
  rw [List.splitOn_eq_singleton hno]
  rfl

theorem storeAt_ok {i n : Nat} (h : i < n) : storeAt i n = .ok () := if_pos h

theorem storeAt_out {i n : Nat} (h : ¬ i < n) : storeAt i n = .error .outOfBounds := if_neg h

/-- **`split_path` stays inside `parent_path` and `name` exactly when the two parts have room.** -/
theorem splitPath_iff (path : CString) :
    (splitFits path.val → ∃ parts, splitPath (some path) = .ok parts) ∧
    (¬ splitFits path.val → splitPath (some path) = .error .outOfBounds) := by
  unfold splitFits
  rcases last_sep (chr '/') path.val with hno | ⟨pre, post, e, hpost⟩
  · rw [lastPart_plain hno, splitPath_plain hno]
    constructor
    · intro hfit
      rw [storeAt_ok hfit.1]
      exact ⟨_, rfl⟩
    · intro hbig
      have hzero : path.val.length - path.val.length - 1 < sizeofParentPath := by
        rw [Nat.sub_self]
        decide
      rw [storeAt_out fun hlt => hbig ⟨hlt, hzero⟩]
      rfl
  · have hlen : path.val.length - post.length - 1 = pre.length := by
      rw [e, List.length_append, List.length_cons]
      omega
    have hlast : lastPart path.val = post := by rw [e, lastPart_slash pre hpost]
    rw [hlast, hlen, (splitPath_slash e hpost).1]
    constructor
    · intro hfit
      rw [storeAt_ok hfit.2, storeAt_ok hfit.1]
      exact ⟨_, rfl⟩
    · intro hbig
      by_cases hpre : pre.length < sizeofParentPath
      · rw [storeAt_ok hpre, storeAt_out fun hlt => hbig ⟨hlt, hpre⟩]
        rfl
      · rw [storeAt_out hpre]
        rfl

/-! ## the calls behind `split_path` write to no local array -/

theorem kmalloc_avoids (s : Machine) (n : Word) : Avoids .outOfBounds (kmalloc s n) := by
  unfold kmalloc
  apply Avoids.ite
  · exact fun _ => .ok _
  intro _
  apply Avoids.ite
  · exact fun _ => .ok _
  intro _
  cases findFit s.mem (align16 n) heapWalkBound s.freeList with
  | none => exact .error Fault.noConfusion
  | some current => exact .ite (fun _ => .ok _) fun _ => .ok _

theorem kernel_kmalloc_avoids (k : Kernel) (n : Word) : Avoids .outOfBounds (k.kmalloc n) :=
  (kmalloc_avoids k.heap n).bind fun _ _ => .ok _

theorem deref_avoids (p : Word) : Avoids .outOfBounds (deref p) :=
  .ite (fun _ => .error Fault.noConfusion) fun _ => .ok _

theorem fsCreateNode_avoids (k : Kernel) (name : List Byte) (type : FSNodeType) :
    Avoids .outOfBounds (fsCreateNode k name type) := by
  unfold fsCreateNode
  refine (kernel_kmalloc_avoids k _).bind fun r _ => .ite (fun _ => .ok _) fun _ =>
    .ite (fun _ => ?_) fun _ => .ok _
  exact (kernel_kmalloc_avoids _ _).bind fun _ _ => .ite (fun _ => .ok _) fun _ => .ok _

theorem fsAddChild_avoids (k : Kernel) (parent child : Word) :
    Avoids .outOfBounds (fsAddChild k parent child) := by
  unfold fsAddChild
  refine .ite (fun _ => .ok _) fun _ => .ite (fun _ => .ok _) fun _ => ?_
  exact (deref_avoids _).bind fun _ _ => (deref_avoids _).bind fun _ _ => .ok _

/-! ## the five functions -/

/-- the one-argument resolver stays inside `temp` -/
def resolveFits (k : Kernel) (path : List Byte) : Prop :=
  path.head? = some (chr '/') → walkFits k sizeofTemp k.root (components path) = true

/-- the one with a starting node does -/
def resolveFromFits (k : Kernel) (path : CString) (current : Word) : Prop :=
  walkFits k 127 (startOf k path current) (components path.val) = true

theorem fsFindByPath_avoids_iff (h : WellFormed k) (path : CString) :
    Avoids .outOfBounds (fsFindByPath k (some path)) ↔ resolveFits k path.val := by
  unfold resolveFits
  by_cases habs : path.val.head? = some (chr '/')
  · rw [fsFindByPath_spec h habs]
    by_cases hfits : walkFits k sizeofTemp k.root (components path.val) = true
    · rw [if_pos hfits]
      exact ⟨fun _ _ => hfits, fun _ => .ok _⟩
    · rw [if_neg hfits]
      exact ⟨fun hbad => absurd hbad (not_avoids _), fun hf => absurd (hf habs) hfits⟩
  · rw [fsFindByPath_relative habs]
    exact ⟨fun _ ha => absurd ha habs, fun _ => .ok _⟩

theorem fsFindByPathFrom_avoids_iff (h : WellFormed k) (path : CString) (current : Word)
    (hstart : Start k (startOf k path current)) :
    Avoids .outOfBounds (fsFindByPathFrom k (some path) current) ↔ resolveFromFits k path current := by
  unfold resolveFromFits
  rw [fsFindByPathFrom_spec h path current hstart]
  by_cases hfits : walkFits k 127 (startOf k path current) (components path.val) = true
  · rw [if_pos hfits]
    exact ⟨fun _ => hfits, fun _ => .ok _⟩
  · rw [if_neg hfits]
    exact ⟨fun hbad => absurd hbad (not_avoids _), fun hf => absurd hf hfits⟩

theorem sysOpen_avoids_iff (h : WellFormed k) (path : CString) :
    Avoids .outOfBounds (sysOpen k (some path)) ↔ resolveFits k path.val := by
  rw [← fsFindByPath_avoids_iff h]
  unfold sysOpen
  constructor
  · intro hopen e
    rw [e] at hopen
    exact not_avoids _ hopen
  · intro hfind
    exact hfind.bind fun _ _ => .ite (fun _ => .ok _) fun _ => .ok _

/-- once the path is split, the parent part is short enough for the resolver -/
theorem create_avoids_iff {r : Res (Word × Kernel)} (h : WellFormed k) (path : CString)
    (rest : CString → Word → Res (Word × Kernel))
    (hr : r = do
      let (parentPath, name) ← splitPath (some path)
      let parent ← fsFindByPath k (some parentPath)
      if parent = 0 ∨ (k.node parent).type ≠ .directory then return (0, k)
      rest name parent)
    (hrest : ∀ name parent, Avoids .outOfBounds (rest name parent)) :
    Avoids .outOfBounds r ↔ splitFits path.val := by
  obtain ⟨hfit, hbig⟩ := splitPath_iff path
  by_cases hf : splitFits path.val
  · obtain ⟨⟨parentPath, name⟩, e⟩ := hfit hf
    obtain ⟨p, hp, _⟩ := splitPath_target h e
    refine ⟨fun _ => hf, fun _ => ?_⟩
    simp only [hr, e, hp, bind_ok]
    exact .ite (fun _ => .ok _) fun _ => hrest name p
  · refine ⟨fun hbad => ?_, fun hf' => absurd hf' hf⟩
    simp only [hr, hbig hf, bind_error] at hbad
    exact absurd hbad (not_avoids _)

theorem fsMkdir_avoids_iff (h : WellFormed k) (path : CString) :
    Avoids .outOfBounds (fsMkdir k (some path)) ↔ splitFits path.val := by
  refine create_avoids_iff h path (fun name parent => do
    let made ← fsCreateNode k name.val .directory
    let k ← fsAddChild made.2 parent made.1
    return (made.1, k)) rfl fun name parent => ?_
  refine (fsCreateNode_avoids _ _ _).bind fun _ _ => ?_
  exact (fsAddChild_avoids _ _ _).bind fun _ _ => .ok _

theorem fsTouch_avoids_iff (h : WellFormed k) (path : CString) :
    Avoids .outOfBounds (fsTouch k (some path)) ↔ splitFits path.val := by
  refine create_avoids_iff h path (fun name parent => do
    let made ← fsCreateNode k name.val .file
    let granted ← made.2.kmalloc 1024
    deref made.1
    let k := granted.2.modify made.1 fun n => { n with data := granted.1, size := 0 }
    let k ← fsAddChild k parent made.1
    return (made.1, k)) rfl fun name parent => ?_
  refine (fsCreateNode_avoids _ _ _).bind fun _ _ => (kernel_kmalloc_avoids _ _).bind fun _ _ => ?_
  refine (deref_avoids _).bind fun _ _ => ?_
  exact (fsAddChild_avoids _ _ _).bind fun _ _ => .ok _

/-- **The five functions stay inside their arrays exactly when the components that the resolver gets to
fit `temp`, and the two parts of the path `parent_path` and `name`.** -/
theorem path_buffers_iff (h : WellFormed k) (path : CString) (current : Word)
    (hstart : path.val.head? = some (chr '/') ∨ current = 0 ∨ InTree k current) :
    (Avoids .outOfBounds (fsFindByPath k (some path)) ↔ resolveFits k path.val) ∧
    (Avoids .outOfBounds (fsFindByPathFrom k (some path) current) ↔ resolveFromFits k path current) ∧
    (Avoids .outOfBounds (sysOpen k (some path)) ↔ resolveFits k path.val) ∧
    (Avoids .outOfBounds (fsMkdir k (some path)) ↔ splitFits path.val) ∧
    (Avoids .outOfBounds (fsTouch k (some path)) ↔ splitFits path.val) :=
  ⟨fsFindByPath_avoids_iff h path, fsFindByPathFrom_avoids_iff h path current (start_startOf hstart),
    sysOpen_avoids_iff h path, fsMkdir_avoids_iff h path, fsTouch_avoids_iff h path⟩

end

/-- `/README` fits everywhere -/
theorem path_buffers_iff_readme : ∃ k, WellFormed k ∧
    Avoids .outOfBounds (fsFindByPathFrom k (some readme) k.root) ∧
    Avoids .outOfBounds (fsMkdir k (some readme)) := by
  obtain ⟨k, h, _⟩ := readme_resolved
  obtain ⟨_, hfrom, _, hmkdir, _⟩ := path_buffers_iff h readme k.root (.inl (by decide))
  exact ⟨k, h, hfrom.mpr (walkFits_of_short (Nat.le_refl _) (by decide)), hmkdir.mpr (by decide)⟩

/-- a slash and 64 letters -/
def longName : CString := ⟨chr '/' :: List.replicate 64 (chr 'a'), by decide⟩

/-- **A last component of 64 bytes leaves `name`.** -/
theorem long_name_overflows : ¬ ∀ (k : Kernel) (path : CString), WellFormed k →
    Avoids .outOfBounds (fsFindByPath k (some path)) ∧
    Avoids .outOfBounds (fsFindByPathFrom k (some path) k.root) ∧
    Avoids .outOfBounds (sysOpen k (some path)) ∧
    Avoids .outOfBounds (fsMkdir k (some path)) ∧ Avoids .outOfBounds (fsTouch k (some path)) := by
  intro hall
  obtain ⟨k, h, _⟩ := readme_resolved
  have hfits := (fsMkdir_avoids_iff h longName).mp (hall k longName h).2.2.2.1
  exact absurd hfits (by decide)

end FirstKernel
