import FirstKernel.Fs.Shelf
import FirstKernel.Heap.FirstFit

/-!
# Two runs that differ in the bytes of other files

`fs_touch`, `fs_write` and `fs_read` are called in the same order, with the same arguments and the
same bytes for one file; the bytes written to the other files may differ.

* `Twins`                the kernels of two such runs: all but the payloads agree;
* `Twins.touch`, `Twins.write`, `Common.read`   the same calls have the same answers;
* `reads_independent`    as long as no write leaves a gap behind the end of the file, every read of
                         it delivers the same bytes in both runs;
* `gap_shows_other_file` a write past the end shows what the block held before.
-/

namespace FirstKernel
open ByteMem Cells Tiling Outcome

/-! ## the calls -/

/-- files are numbered in the order in which they were made; the caller puts the bytes to write into
its buffer first -/
inductive FileCall where
  | touch (path : Option CString)
  | write (j : Nat) (offset : Word) (bytes : List Byte) (buffer : Word)
  | read (j : Nat) (offset n buffer : Word)

/-- the node of file `j`, null if there is none -/
def FileSession.file (t : FileSession) (j : Nat) : Word := t.files.getD j 0

def FileCall.Allowed : FileCall → Prop
  | .touch _ => True
  | .write _ offset bytes buffer => offset.toNat + bytes.length ≤ 0xFFFFFFF0 ∧
      Buffer buffer (BitVec.ofNat 32 bytes.length)
  | .read _ _ n buffer => Buffer buffer n

def FileCall.exec (t : FileSession) : FileCall → Res FileSession
  | .touch path => do
    let (f, k) ← fsTouch t.k path
    return ⟨k, if f = 0 then t.files else t.files ++ [f]⟩
  | .write j offset bytes buffer => do
    let k := t.k.withMem (storeN t.k.heap.mem buffer.toNat bytes)
    let (_, k) ← fsWrite k (t.file j) offset (BitVec.ofNat 32 bytes.length) buffer
    return ⟨k, t.files⟩
  | .read j offset n buffer => do
    let (_, k) ← fsRead t.k (t.file j) offset n buffer
    return ⟨k, t.files⟩

def fileCalls : Run.System FileSession FileCall where
  init t := ∃ s, fsInit (Kernel.boot s) = .ok t.k ∧ t.files = []
  step t c t' := c.Allowed ∧ c.exec t = .ok t'

/-- the same call, up to the buffers and, for files other than `i`, the bytes written -/
def SameCall (i : Nat) : FileCall → FileCall → Prop
  | .touch path, .touch path' => path = path'
  | .write j offset bytes _, .write j' offset' bytes' _ =>
    j = j' ∧ offset = offset' ∧ bytes.length = bytes'.length ∧ (j = i → bytes = bytes')
  | .read j offset n _, .read j' offset' n' _ => j = j' ∧ offset = offset' ∧ n = n'
  | _, _ => False

/-- two runs of the same calls, up to the bytes written to files other than `i` -/
def twoRuns (i : Nat) : Run.System (FileSession × FileSession) (FileCall × FileCall) :=
  fileCalls.pair.restrict fun _ c => SameCall i c.1 c.2

/-- every `fs_read` of file `i` has the same answer and delivers the same bytes -/
def SameReads (i : Nat) (t u : FileSession) : Prop :=
  ∀ offset n buffer buffer', Buffer buffer n → Buffer buffer' n → ∃ r k k',
    fsRead t.k (t.file i) offset n buffer = .ok (r, k) ∧
    fsRead u.k (u.file i) offset n buffer' = .ok (r, k') ∧
    (r ≠ minusOne → loadN k.heap.mem buffer.toNat r.toNat = loadN k'.heap.mem buffer'.toNat r.toNat)

/-- the block of `f` or a free one has room for `n` bytes -/
def Room (k : Kernel) (f n : Word) : Prop :=
  ∃ hs, heapList k.heap = some hs ∧ ∃ b ∈ hs,
    (b.addr + sizeofHeapBlock = (k.node f).data ∧ n ≤ b.size) ∨ b.Serves (roundUp n)

/-- a write to file `i` that has room starts in the file or right at its end -/
def NoGap (i : Nat) (t : FileSession) : FileCall → Prop
  | .write j offset bytes _ => j = i → ∀ f, t.files[i]? = some f →
    offset ≤ (t.k.node f).size ∨ ¬ Room t.k f (offset + BitVec.ofNat 32 bytes.length)
  | _ => True

/-! ## the same calls on two kernels -/

/-- two kernels that differ in payloads, in memory off the heap and in the output at most -/
structure Twins (k u : Kernel) : Prop where
  same : u = { k with heap := u.heap }
  blocks : SameBlocks k.heap u.heap

section
variable {k u : Kernel} {fs : List Word} {bs : List Block} {f p : Word} {t : Machine}

theorem Twins.node (h : Twins k u) : u.node = k.node := by rw [h.same]

theorem Twins.modify (h : Twins k u) (p : Word) (f : FSNode → FSNode) :
    Twins (k.modify p f) (u.modify p f) := by
  refine ⟨?_, h.blocks⟩
  rw [h.same]
  rfl

theorem Twins.printf (h : Twins k u) (format : String) (args args' : List Arg) :
    Twins (k.printf format args) (u.printf format args') := by
  obtain ⟨bs, hk, hu⟩ := h.blocks
  refine ⟨?_, bs, hk.store rfl fun _ _ => rfl, hu.store rfl fun _ _ => rfl⟩
  unfold Kernel.printf
  rw [h.same]

/-- the heaps and one struct replaced -/
theorem Twins.withNode {s : Machine} (h : Twins k u) (hb : SameBlocks s t) (f : Word) (n : FSNode) :
    Twins (k.withNode s f n) (u.withNode t f n) := by
  refine ⟨?_, hb⟩
  unfold Kernel.withNode
  rw [h.same]

theorem Stored.twin (h : Stored k fs bs) (ht : Twins k u) : Stored u fs bs := by
  obtain ⟨bs', hk, hu⟩ := ht.blocks
  have hbs := hk.unique h.blocks
  rw [hbs] at hu
  have hnode := ht.node
  refine ⟨hu, h.nodup, h.ne_zero, ?_, h.live, ?_, ?_, ?_⟩
  · rw [hnode]
    exact h.type
  · rw [hnode]
    exact h.buffer
  · rw [hnode]
    exact h.apart
  · rw [hnode]
    exact h.nodeApart

theorem Twins.kmalloc (h : Twins k u) (n : Word) :
    Relates (k.kmalloc n) (u.kmalloc n) fun x y => x.1 = y.1 ∧ Twins x.2 y.2 := by
  unfold Kernel.kmalloc
  refine (kmalloc_twin h.blocks n).bind fun ⟨p, h1⟩ ⟨q, h2⟩ ⟨e, hb⟩ => .pure ⟨e, ?_, hb⟩
  rw [h.same]

/-! ### `fs_touch` -/

theorem findNamed_heap (array : Word) (name : List Byte) (n i : Nat) :
    findNamed { k with heap := t } array name n i = findNamed k array name n i := by
  induction n generalizing i with
  | zero => rfl
  | succ n ih =>
    unfold findNamed
    simp only [ih]

theorem pathLoop_heap (path temp : List Byte) (p : Word) :
    pathLoop { k with heap := t } path p temp = pathLoop k path p temp := by
  induction path generalizing p temp with
  | nil => rfl
  | cons c path ih =>
    unfold pathLoop fsFindChild
    simp only [ih, findNamed_heap]

/-- a path leads to the same node -/
theorem fsFindByPath_heap (path : Option CString) :
    fsFindByPath { k with heap := t } path = fsFindByPath k path := by
  unfold fsFindByPath
  simp only [pathLoop_heap]

theorem Twins.createNode (h : Twins k u) (name : List Byte) :
    Relates (fsCreateNode k name .file) (fsCreateNode u name .file)
      fun x y => x.1 = y.1 ∧ Twins x.2 y.2 := by
  unfold fsCreateNode
  refine (h.kmalloc _).bind fun ⟨p, k1⟩ ⟨q, u1⟩ ⟨e, h1⟩ => ?_
  have e : p = q := e
  subst e
  refine .ite (fun _ => .pure ⟨rfl, h1⟩) fun _ => .ite nofun fun _ => .pure ⟨rfl, ?_⟩
  exact Twins.modify h1 p fun _ => newNode name .file 0

theorem Twins.addChild (h : Twins k u) (p f : Word) :
    Relates (fsAddChild k p f) (fsAddChild u p f) Twins := by
  obtain ⟨t, rfl⟩ : ∃ t, u = { k with heap := t } := ⟨_, h.same⟩
  have hb := h.blocks
  unfold fsAddChild
  refine .ite (fun _ => .pure h) fun _ => .ite (fun _ => .pure ⟨rfl, ?_⟩) fun _ => ?_
  · obtain ⟨bs, hk, hu⟩ := hb
    exact ⟨bs, hk.store rfl fun _ _ => rfl, hu.store rfl fun _ _ => rfl⟩
  · refine (Relates.refl _).bind fun _ _ _ => ?_
    exact (Relates.refl _).bind fun _ _ _ => .pure ⟨rfl, hb⟩

/-- **`fs_touch` has the same answer.** -/
theorem Twins.touch (h : Twins k u) (path : Option CString) :
    Relates (fsTouch k path) (fsTouch u path) fun x y => x.1 = y.1 ∧ Twins x.2 y.2 := by
  unfold fsTouch
  refine (Relates.refl _).bind fun ⟨parentPath, name⟩ _ e => ?_
  subst e
  have hfind : fsFindByPath u (some parentPath) = fsFindByPath k (some parentPath) := by
    rw [h.same, fsFindByPath_heap]
  simp only [hfind]
  refine (Relates.refl _).bind fun parent _ e => ?_
  subst e
  simp only [h.node]
  refine .ite (fun _ => .pure ⟨rfl, h⟩) fun _ => ?_
  refine (h.createNode name.val).bind fun ⟨f, k1⟩ ⟨g, u1⟩ ⟨e, h1⟩ => ?_
  have e : f = g := e
  subst e
  refine (h1.kmalloc 1024).bind fun ⟨p, k2⟩ ⟨q, u2⟩ ⟨e, h2⟩ => ?_
  have e : p = q := e
  subst e
  refine (Relates.refl _).bind fun _ _ _ => ?_
  exact ((h2.modify f _).addChild parent f).bind fun _ _ h3 => .pure ⟨rfl, h3⟩

/-! ### `fs_write` and `fs_read` -/

/-- memory changed off the heap -/
theorem Twins.poke (h : Twins k u) (hs : Stored k fs bs) (m m' : Mem)
    (hm : ∀ x, ¬ Outside x → m x = k.heap.mem x) (hm' : ∀ x, ¬ Outside x → m' x = u.heap.mem x) :
    Twins (k.withMem m) (u.withMem m') := by
  refine ⟨?_, bs, (hs.poke m hm).1.blocks, ((hs.twin h).poke m' hm').1.blocks⟩
  unfold Kernel.withMem
  rw [h.same]

variable {offset n buffer buffer' : Word}

theorem Twins.memcpy {c : Nat} (h : Twins k u) (hs : Stored k fs bs) (hf : f ∈ fs)
    (hp : Payload bs (k.node f).data c) (offset : Word) (hcap : offset.toNat + n.toNat ≤ c)
    (hbuf : Buffer buffer n) (hbuf' : Buffer buffer' n) :
    Twins (k.memcpy ((k.node f).data + offset) buffer n) (u.memcpy ((u.node f).data + offset) buffer' n) := by
  obtain ⟨_, h1, _⟩ := hs.memcpy hf hp offset hcap hbuf
  obtain ⟨_, h2, _⟩ := (hs.twin h).memcpy hf (by rw [h.node]; exact hp) offset hcap hbuf'
  refine ⟨?_, bs, h1.blocks, h2.blocks⟩
  unfold Kernel.memcpy
  rw [h.same]

/-- **`fs_write` has the same answer.** -/
theorem Twins.write (h : Twins k u) (hs : Stored k fs bs) (hf : f ∈ fs)
    (hbig : offset.toNat + n.toNat ≤ 0xFFFFFFF0) (hbuf : Buffer buffer n) (hbuf' : Buffer buffer' n) :
    Relates (fsWrite k f offset n buffer) (fsWrite u f offset n buffer')
      fun x y => x.1 = y.1 ∧ Twins x.2 y.2 := by
  have hu := hs.twin h
  have hf0 := hs.ne_zero f hf
  have ht := hs.type f hf
  have ht' := hu.type f hf
  obtain ⟨c, hp, hcur⟩ := hs.buffer f hf
  have hadd : (offset + n).toNat = offset.toNat + n.toNat :=
    BitVec.toNat_add_of_lt (by omega)
  by_cases hgrow : (k.node f).size < offset + n
  · have hgrow' : (u.node f).size < offset + n := by
      rw [h.node]
      exact hgrow
    have hne : offset + n ≠ 0 := fun e => BitVec.not_lt_zero (e ▸ hgrow)
    have hbig' : (offset + n).toNat ≤ 0xFFFFFFF0 := by
      rw [hadd]
      exact hbig
    have hp' : Payload bs (u.node f).data c := by
      rw [h.node]
      exact hp
    have hr := krealloc_twin h.blocks (fun bs' hb => ⟨c, hs.blocks.unique hb ▸ hp⟩) hne hbig'
    rcases krealloc_grown hs.blocks hp hne hbig' with ⟨s1, e1, _, _⟩ | ⟨q, s1, bs1, e1, hg⟩
    · rcases krealloc_grown hu.blocks hp' hne hbig' with ⟨t1, e2, _, _⟩ | ⟨q, t1, _, e2, hg⟩
      · rw [fsWrite_refused hf0 ht hgrow e1, fsWrite_refused hf0 ht' hgrow' e2]
        rw [h.node] at e2
        have h1 : Twins { k with heap := s1 } { u with heap := t1 } :=
          ⟨by rw [h.same], (hr _ _ e1 e2).2⟩
        exact .pure ⟨rfl, h1.printf _ _ _⟩
      · rw [h.node] at e2
        exact absurd (hr _ _ e1 e2).1.symm hg.ne_zero
    · rcases krealloc_grown hu.blocks hp' hne hbig' with ⟨t1, e2, _, _⟩ | ⟨q', t1, _, e2, hg'⟩
      · rw [h.node] at e2
        exact absurd (hr _ _ e1 e2).1 hg.ne_zero
      · rw [fsWrite_grow hf0 ht hgrow e1 hg.ne_zero, fsWrite_grow hf0 ht' hgrow' e2 hg'.ne_zero]
        rw [h.node] at e2 ⊢
        have hq : q = q' := (hr _ _ e1 e2).1
        subst hq
        obtain ⟨j, hlive, hj⟩ := hg.live
        have h1 := h.withNode (hr _ _ e1 e2).2 f { k.node f with data := q, size := offset + n }
        obtain ⟨hs1, _⟩ := hs.grow hf (offset + n) hg
        have h2 := h1.memcpy (c := j) hs1 hf (by
          rw [withNode_node_self]
          exact .inr hlive) offset (by rw [← hadd]; exact hj) hbuf hbuf'
        rw [withNode_node_self, withNode_node_self] at h2
        exact .pure ⟨rfl, h2⟩
  · have hgrow' : ¬ (u.node f).size < offset + n := by
      rw [h.node]
      exact hgrow
    have hle : offset.toNat + n.toNat ≤ (k.node f).size.toNat := by
      rw [BitVec.lt_def, hadd] at hgrow
      omega
    have hd := hs.data_ne_zero hf hle
    rw [fsWrite_inside hf0 ht hgrow hd, fsWrite_inside hf0 ht' hgrow' (by rw [h.node]; exact hd)]
    exact .pure ⟨rfl, h.memcpy hs hf hp offset (Nat.le_trans hle hcur) hbuf hbuf'⟩

/-- no room: `fs_write` past the end answers -1 -/
theorem Stored.no_room (hs : Stored k fs bs) (buffer : Word) (hf : f ∈ fs)
    (hbig : offset.toNat + n.toNat ≤ 0xFFFFFFF0) (hgap : ¬ offset ≤ (k.node f).size) (hroom : ¬ Room k f (offset + n)) :
    ∃ k', fsWrite k f offset n buffer = .ok (minusOne, k') := by
  have hadd : (offset + n).toNat = offset.toNat + n.toNat :=
    BitVec.toNat_add_of_lt (by omega)
  rw [BitVec.le_def] at hgap
  have hgrow : (k.node f).size < offset + n := by
    rw [BitVec.lt_def, hadd]
    omega
  have hr : need (offset + n) = roundUp (offset + n) := need_eq_roundUp (by rw [hadd]; exact hbig)
  obtain ⟨c, hp, hcur⟩ := hs.buffer f hf
  have hwalk := hs.blocks.walk
  have hfit : ∀ b ∈ bs, fits (need (offset + n)) b = false := by
    intro b hb
    by_contra hcon
    obtain ⟨hd, hmem, _, e2, e3⟩ := header_of hs.blocks.tiles hb
    refine hroom ⟨_, hwalk, hd, hmem, .inr ?_⟩
    rw [serves_iff e2 e3, ← hr]
    exact eq_true_of_ne_false hcon
  have hc : c < (offset + n).toNat := by
    by_contra hcon
    rcases hp with ⟨_, rfl⟩ | ⟨b, hb, _, e, rfl⟩
    · omega
    · obtain ⟨hd, hmem, e1, e2, _⟩ := header_of hs.blocks.tiles hb
      refine hroom ⟨_, hwalk, hd, hmem, .inl ⟨?_, ?_⟩⟩
      · have := hs.blocks.bounds hb
        apply BitVec.eq_of_toNat_eq
        unfold sizeofHeapBlock
        bv_omega
      · rw [BitVec.le_def, e2]
        omega
  obtain ⟨s', e, _⟩ := krealloc_refused hs.blocks hp hc hfit
  exact ⟨_, fsWrite_refused (hs.ne_zero f hf) (hs.type f hf) hgrow e⟩

end

/-! ## runs -/

/-- what two runs have in common -/
structure Common (i : Nat) (t u : FileSession) : Prop where
  stored : ∃ bs, Stored t.k t.files bs
  twins : Twins t.k u.k
  files : u.files = t.files
  contents : ∀ f, t.files[i]? = some f → contents u.k f = contents t.k f

section
variable {i : Nat} {t t' u u' : FileSession}

theorem file_cases (t : FileSession) (j : Nat) :
    t.files[j]? = none ∧ t.file j = 0 ∨ t.files[j]? = some (t.file j) ∧ t.file j ∈ t.files := by
  unfold FileSession.file
  rw [List.getD_eq_getElem?_getD]
  cases h : t.files[j]? with
  | none => exact .inl ⟨rfl, rfl⟩
  | some f => exact .inr ⟨rfl, List.mem_of_getElem? h⟩

theorem fsWrite_null (k : Kernel) (offset n buffer : Word) :
    fsWrite k 0 offset n buffer = .ok (minusOne, k) := by
  unfold fsWrite
  rw [if_pos (.inl rfl)]
  rfl

theorem fsRead_null (k : Kernel) (offset n buffer : Word) :
    fsRead k 0 offset n buffer = .ok (minusOne, k) := by
  unfold fsRead
  rw [if_pos (.inl rfl)]
  rfl

/-- the files have the same nodes in both runs -/
theorem Common.file (h : Common i t u) (j : Nat) : u.file j = t.file j := by
  unfold FileSession.file
  rw [h.files]

/-- **Equal contents are read alike.** -/
theorem Common.sameReads (h : Common i t u) : SameReads i t u := by
  intro offset n buffer buffer' hbuf hbuf'
  rw [h.file]
  rcases file_cases t i with ⟨_, h0⟩ | ⟨hi, hmem⟩
  · rw [h0, fsRead_null, fsRead_null]
    exact ⟨minusOne, t.k, u.k, rfl, rfl, fun hr => absurd rfl hr⟩
  · obtain ⟨bs, hs⟩ := h.stored
    have hc := h.contents _ hi
    obtain ⟨r, m, e, _, _, hr⟩ := hs.read hmem offset hbuf
    obtain ⟨r', m', e', _, _, hr'⟩ := (hs.twin h.twins).read hmem offset hbuf'
    rw [hc] at hr'
    rcases hr with ⟨hlt, rfl⟩ | ⟨hle, hn, hb⟩
    · rcases hr' with ⟨_, rfl⟩ | ⟨hle', _⟩
      · exact ⟨minusOne, _, _, e, e', fun hr => absurd rfl hr⟩
      · omega
    · rcases hr' with ⟨hlt', _⟩ | ⟨_, hn', hb'⟩
      · omega
      · have hrr : r' = r := BitVec.eq_of_toNat_eq (hn'.trans hn.symm)
        rw [hrr] at e' hb'
        exact ⟨r, _, _, e, e', fun _ => hb.trans hb'.symm⟩

theorem Common.touch (h : Common i t u) {path : Option CString}
    (e : FileCall.exec t (.touch path) = .ok t') (e' : FileCall.exec u (.touch path) = .ok u') :
    Common i t' u' := by
  obtain ⟨⟨f, k'⟩, e1, e⟩ := bind_eq_ok e
  obtain ⟨⟨g, l'⟩, e2, e'⟩ := bind_eq_ok e'
  cases e
  cases e'
  obtain ⟨hfg, ht⟩ := h.twins.touch path _ _ e1 e2
  have hfg : f = g := hfg
  subst hfg
  obtain ⟨bs, hs⟩ := h.stored
  have hu : Stored u.k t.files bs := hs.twin h.twins
  rcases hs.touch e1 with ⟨hf, hk⟩ | ⟨hf, _, hnew, hold, bs', hs'⟩
  · have hl := fsTouch_none (hf ▸ e2)
    refine ⟨?_, ht, ?_, ?_⟩
    · simp only [if_pos hf, hk]
      exact ⟨bs, hs⟩
    · simp only [if_pos hf, h.files]
    · simp only [if_pos hf, hk, hl]
      exact h.contents
  · obtain ⟨_, _, hnew', hold', _⟩ := (hu.touch e2).resolve_left fun hn => hf hn.1
    refine ⟨?_, ht, ?_, ?_⟩
    · simp only [if_neg hf]
      exact ⟨bs', hs'⟩
    · simp only [if_neg hf, h.files]
    · simp only [if_neg hf]
      intro g hg
      by_cases hi : i < t.files.length
      · rw [List.getElem?_append_left hi] at hg
        have hmem := List.mem_of_getElem? hg
        rw [hold g hmem, hold' g hmem]
        exact h.contents g hg
      · rw [List.getElem?_append_right (Nat.le_of_not_lt hi)] at hg
        rw [List.mem_singleton.mp (List.mem_of_getElem? hg), hnew, hnew']

theorem Common.read (h : Common i t u) {j : Nat} {offset n buffer buffer' : Word}
    (hbuf : Buffer buffer n) (hbuf' : Buffer buffer' n)
    (e : FileCall.exec t (.read j offset n buffer) = .ok t')
    (e' : FileCall.exec u (.read j offset n buffer') = .ok u') : Common i t' u' := by
  obtain ⟨⟨r, k'⟩, e1, e⟩ := bind_eq_ok e
  obtain ⟨⟨r', l'⟩, e2, e'⟩ := bind_eq_ok e'
  cases e
  cases e'
  rw [h.file] at e2
  rcases file_cases t j with ⟨_, h0⟩ | ⟨_, hmem⟩
  · rw [h0, fsRead_null] at e1 e2
    cases e1
    cases e2
    exact ⟨h.stored, h.twins, h.files, h.contents⟩
  · obtain ⟨bs, hs⟩ := h.stored
    obtain ⟨_, m, e3, hs1, hc1, _⟩ := hs.read hmem offset hbuf
    obtain ⟨_, m', e4, hs2, hc2, _⟩ := (hs.twin h.twins).read hmem offset hbuf'
    rw [e3] at e1
    rw [e4] at e2
    cases e1
    cases e2
    refine ⟨⟨bs, hs1⟩, ⟨?_, bs, hs1.blocks, hs2.blocks⟩, h.files, fun g hg => ?_⟩
    · unfold Kernel.withMem
      rw [h.twins.same]
    · have hg' := List.mem_of_getElem? hg
      rw [hc1 g hg', hc2 g hg']
      exact h.contents g hg

/-- the caller fills its buffer -/
theorem storeN_buffer {bytes : List Byte} {buffer : Word}
    (hbuf : Buffer buffer (BitVec.ofNat 32 bytes.length)) (hlt : bytes.length < 2^32) (m : Mem) (x : Nat)
    (hx : ¬ Outside x) : storeN m buffer.toNat bytes x = m x := by
  refine storeN_out _ _ _ _ ?_
  by_contra hcon
  refine hx (hbuf.off x (by omega) ?_)
  rw [BitVec.toNat_ofNat, Nat.mod_eq_of_lt hlt]
  omega

/-- memory changed off the heap, in both runs -/
theorem Common.poke (h : Common i t u) {m m' : Mem} (hm : ∀ x, ¬ Outside x → m x = t.k.heap.mem x)
    (hm' : ∀ x, ¬ Outside x → m' x = u.k.heap.mem x) :
    Common i ⟨t.k.withMem m, t.files⟩ ⟨u.k.withMem m', u.files⟩ ∧
      heapList (t.k.withMem m).heap = heapList t.k.heap := by
  obtain ⟨bs, hs⟩ := h.stored
  obtain ⟨hs1, hc1⟩ := hs.poke m hm
  obtain ⟨_, hc2⟩ := (hs.twin h.twins).poke m' hm'
  refine ⟨⟨⟨bs, hs1⟩, h.twins.poke hs _ _ hm hm', h.files, fun g hg => ?_⟩,
    hs1.blocks.walk.trans hs.blocks.walk.symm⟩
  rw [hc1 g (List.mem_of_getElem? hg), hc2 g (List.mem_of_getElem? hg)]
  exact h.contents g hg

/-- `fs_write` in both runs, with the same bytes when the file is `i` -/
theorem Common.fsWrite (h : Common i t u) {j : Nat} {offset n buffer buffer' r r' : Word} {k' l' : Kernel}
    (hbig : offset.toNat + n.toNat ≤ 0xFFFFFFF0) (hbuf : Buffer buffer n) (hbuf' : Buffer buffer' n)
    (hsame : j = i → loadN t.k.heap.mem buffer.toNat n.toNat = loadN u.k.heap.mem buffer'.toNat n.toNat)
    (hgap : j = i → ∀ f, t.files[i]? = some f →
      offset ≤ (t.k.node f).size ∨ ¬ Room t.k f (offset + n))
    (e : fsWrite t.k (t.file j) offset n buffer = .ok (r, k'))
    (e' : fsWrite u.k (u.file j) offset n buffer' = .ok (r', l')) :
    Common i ⟨k', t.files⟩ ⟨l', u.files⟩ := by
  rw [h.file] at e'
  rcases file_cases t j with ⟨_, h0⟩ | ⟨hj, hmem⟩
  · rw [h0, fsWrite_null] at e e'
    cases e
    cases e'
    exact h
  obtain ⟨bs, hs⟩ := h.stored
  obtain ⟨hrr, htwins⟩ := h.twins.write hs hmem hbig hbuf hbuf' _ _ e e'
  have hrr : r = r' := hrr
  obtain ⟨_, _, bs', e1, hs1, ho1, hr1⟩ := hs.write hmem hbig hbuf
  obtain ⟨_, _, _, e2, _, ho2, hr2⟩ := (hs.twin h.twins).write hmem hbig hbuf'
  rw [e] at e1
  rw [e'] at e2
  cases e1
  cases e2
  refine ⟨⟨bs', hs1⟩, htwins, h.files, fun g hg => ?_⟩
  have hgm := List.mem_of_getElem? hg
  have hold := h.contents g hg
  by_cases hgf : g = t.file j
  · subst hgf
    have hlt : j < t.files.length := (List.getElem?_eq_some_iff.mp hj).1
    have hij : j = i := (List.getElem?_inj hlt hs.nodup).mp (hj.trans hg.symm)
    have hne : n ≠ minusOne := by
      intro e0
      rw [e0] at hbig
      exact absurd (Nat.le_trans (Nat.le_add_left _ _) hbig) (by decide)
    rcases hr1 with ⟨hr, hk⟩ | ⟨hr, hk⟩
    · rcases hr2 with ⟨_, hl⟩ | ⟨hr', _⟩
      · rw [hk, hl]
        exact hold
      · exact absurd (hr'.symm.trans (hrr.symm.trans hr)) hne
    · rcases hr2 with ⟨hr', _⟩ | ⟨_, hl⟩
      · exact absurd (hr.symm.trans (hrr.trans hr')) hne
      · -- the write was made, so there was room for it and no gap
        have hoff : offset ≤ (t.k.node (t.file j)).size := by
          by_contra hcon
          obtain ⟨k2, e3⟩ := hs.no_room buffer hmem hbig hcon ((hgap hij _ hg).resolve_left hcon)
          rw [e] at e3
          cases e3
          exact hne hr.symm
        have hoff' : offset.toNat ≤ (u.k.node (t.file j)).size.toNat := by
          rw [h.twins.node]
          exact hoff
        rw [hk hoff, hl hoff', hold, hsame hij]
  · rw [ho1 g hgm hgf, ho2 g hgm hgf]
    exact hold

theorem Common.write (h : Common i t u) {j : Nat} {offset : Word} {bytes bytes' : List Byte}
    {buffer buffer' : Word} (hlen : bytes.length = bytes'.length) (hsame : j = i → bytes = bytes')
    (hbig : offset.toNat + bytes.length ≤ 0xFFFFFFF0)
    (hbuf : Buffer buffer (BitVec.ofNat 32 bytes.length))
    (hbuf' : Buffer buffer' (BitVec.ofNat 32 bytes'.length))
    (hgap : NoGap i t (.write j offset bytes buffer))
    (e : FileCall.exec t (.write j offset bytes buffer) = .ok t')
    (e' : FileCall.exec u (.write j offset bytes' buffer') = .ok u') : Common i t' u' := by
  obtain ⟨⟨r, k'⟩, e1, e⟩ := bind_eq_ok e
  obtain ⟨⟨r', l'⟩, e2, e'⟩ := bind_eq_ok e'
  cases e
  cases e'
  obtain ⟨h1, hlist⟩ := h.poke (storeN_buffer hbuf (by omega) t.k.heap.mem)
    (storeN_buffer hbuf' (by omega) u.k.heap.mem)
  -- the buffers hold the bytes
  have hn : (BitVec.ofNat 32 bytes.length).toNat = bytes.length := by
    rw [BitVec.toNat_ofNat, Nat.mod_eq_of_lt (by omega)]
  have hb : loadN (storeN t.k.heap.mem buffer.toNat bytes) buffer.toNat
      (BitVec.ofNat 32 bytes.length).toNat = bytes := by
    rw [hn, loadN_storeN]
  have hb' : loadN (storeN u.k.heap.mem buffer'.toNat bytes') buffer'.toNat
      (BitVec.ofNat 32 bytes.length).toNat = bytes' := by
    rw [hn, hlen, loadN_storeN]
  rw [← hlen] at e2 hbuf'
  refine h1.fsWrite (by rw [hn]; exact hbig) hbuf hbuf' (fun hij => ?_) (fun hij f hf => ?_) e1 e2
  · exact hb.trans ((hsame hij).trans hb'.symm)
  · have := hgap hij f hf
    unfold Room at this ⊢
    rw [← hlist] at this
    exact this

/-- **One call in both runs.** -/
theorem Common.step (h : Common i t u) {c d : FileCall} (hs : SameCall i c d) (ha : c.Allowed)
    (ha' : d.Allowed) (hgap : NoGap i t c) (e : c.exec t = .ok t') (e' : d.exec u = .ok u') :
    Common i t' u' := by
  cases c with
  | touch path =>
    cases d with
    | touch path' =>
      have hp : path = path' := hs
      subst hp
      exact h.touch e e'
    | write => exact absurd hs not_false
    | read => exact absurd hs not_false
  | write j offset bytes buffer =>
    cases d with
    | touch => exact absurd hs not_false
    | write j' offset' bytes' buffer' =>
      obtain ⟨rfl, rfl, hlen, hsame⟩ := hs
      exact h.write hlen hsame ha.1 ha.2 ha'.2 hgap e e'
    | read => exact absurd hs not_false
  | read j offset n buffer =>
    cases d with
    | touch => exact absurd hs not_false
    | write => exact absurd hs not_false
    | read j' offset' n' buffer' =>
      obtain ⟨rfl, rfl, rfl⟩ := hs
      exact h.read ha ha' e e'

end

theorem common_init {i : Nat} {t : FileSession × FileSession} (h : (twoRuns i).init t) :
    Common i t.1 t.2 := by
  obtain ⟨⟨s, e, hfiles⟩, heq⟩ := h
  obtain ⟨bs, hb⟩ := fsInit_blocks (initHeap_blocks s) e
  rw [heq]
  refine ⟨⟨bs, ?_⟩, ⟨rfl, bs, hb, hb⟩, rfl, fun _ _ => rfl⟩
  rw [hfiles]
  exact stored_nil hb

/-- **A file shows nothing of the bytes of other files, as long as no write to it that has room leaves
a gap behind its end.** -/
theorem reads_independent (i : Nat) (t : FileSession × FileSession)
    (h : Run.Reachable ((twoRuns i).restrict fun t c => NoGap i t.1 c.1) t) : SameReads i t.1 t.2 := by
  have hc : Common i t.1 t.2 := by
    refine h.invariant (fun _ hi => common_init hi) ?_
    rintro t ⟨c, d⟩ t' _ hc ⟨hgap, hs, ⟨ha, e⟩, ha', e'⟩
    exact hc.step hs ha ha' hgap e e'
  exact hc.sameReads

/-! ### runs of given calls -/

theorem reachable_calls {i : Nat} {C : FileSession × FileSession → FileCall × FileCall → Prop}
    {t t' : FileSession × FileSession} (h : Run.Reachable ((twoRuns i).restrict C) t)
    (cs : List (FileCall × FileCall))
    (hcs : ∀ c ∈ cs, SameCall i c.1 c.2 ∧ c.1.Allowed ∧ c.2.Allowed ∧ ∀ t, C t c)
    (e : (cs.map Prod.fst).foldlM FileCall.exec t.1 = .ok t'.1)
    (e' : (cs.map Prod.snd).foldlM FileCall.exec t.2 = .ok t'.2) :
    Run.Reachable ((twoRuns i).restrict C) t' := by
  induction cs generalizing t with
  | nil =>
    have h1 : t = t' := Prod.ext (Except.ok.inj e) (Except.ok.inj e')
    rw [← h1]
    exact h
  | cons c cs ih =>
    obtain ⟨t1, e1, e⟩ := bind_eq_ok e
    obtain ⟨t2, e2, e'⟩ := bind_eq_ok e'
    obtain ⟨hs, ha, ha', hC⟩ := hcs c List.mem_cons_self
    have hstep : ((twoRuns i).restrict C).step t c (t1, t2) := ⟨hC t, hs, ⟨ha, e1⟩, ha', e2⟩
    exact ih (@Run.Reachable.step _ _ _ _ _ c h hstep) (fun d hd => hcs d (List.mem_cons_of_mem _ hd)) e e'

/-- the calls `cs` after start-up -/
def runCalls (cs : List FileCall) : Res FileSession := do
  let k ← fsInit (Kernel.boot bootMachine)
  cs.foldlM FileCall.exec ⟨k, []⟩

theorem reachable_runCalls {i : Nat} {C : FileSession × FileSession → FileCall × FileCall → Prop}
    {t u : FileSession} (cs : List (FileCall × FileCall))
    (hcs : ∀ c ∈ cs, SameCall i c.1 c.2 ∧ c.1.Allowed ∧ c.2.Allowed ∧ ∀ t, C t c)
    (e : runCalls (cs.map Prod.fst) = .ok t) (e' : runCalls (cs.map Prod.snd) = .ok u) :
    Run.Reachable ((twoRuns i).restrict C) (t, u) := by
  obtain ⟨k, ek, e⟩ := bind_eq_ok e
  obtain ⟨k', ek', e'⟩ := bind_eq_ok e'
  rw [ek] at ek'
  cases ek'
  have h0 : Run.Reachable ((twoRuns i).restrict C) (⟨k, []⟩, ⟨k, []⟩) :=
    .init ⟨⟨bootMachine, ek, rfl⟩, rfl⟩
  exact reachable_calls h0 cs hcs e e'

def pathA : Option CString := some ⟨str "//a", by decide⟩
def pathF : Option CString := some ⟨str "//f", by decide⟩

/-- two files of one byte each -/
def twoFiles (x : Byte) : List FileCall :=
  [.touch pathA, .touch pathF, .write 0 0 [x] 0, .write 1 0 [7] 0]

/-- `a` is written and moves twice; then `f` is made and written one byte past its end -/
def gapInF (x : Byte) : List FileCall :=
  [.touch pathA, .write 0 0 [x] 0, .write 0 1024 [0] 0, .write 0 1040 [0] 0, .touch pathF,
    .write 1 1 [0] 0]

theorem twoFiles_same : ∀ c ∈ (twoFiles 1).zip (twoFiles 2), SameCall 1 c.1 c.2 ∧ c.1.Allowed ∧
    c.2.Allowed ∧ ∀ t : FileSession × FileSession, NoGap 1 t.1 c.1 := by
  have hbuf : Buffer 0 (BitVec.ofNat 32 1) := buffer_low (by decide)
  intro c hc
  simp only [twoFiles, List.zip_cons_cons, List.zip_nil_left, List.mem_cons, List.not_mem_nil,
    or_false] at hc
  rcases hc with rfl | rfl | rfl | rfl
  · exact ⟨rfl, trivial, trivial, fun _ => trivial⟩
  · exact ⟨rfl, trivial, trivial, fun _ => trivial⟩
  · exact ⟨⟨rfl, rfl, rfl, nofun⟩, ⟨by decide, hbuf⟩, ⟨by decide, hbuf⟩, fun _ e => nomatch e⟩
  · exact ⟨⟨rfl, rfl, rfl, fun _ => rfl⟩, ⟨by decide, hbuf⟩, ⟨by decide, hbuf⟩,
      fun _ _ _ _ => .inl (BitVec.le_def.mpr (Nat.zero_le _))⟩

theorem reads_independent_two : ∃ t u : FileSession, contents t.k (t.file 0) = [1] ∧
    contents u.k (u.file 0) = [2] ∧ SameReads 1 t u := by
  have e : (runCalls (twoFiles 1)).toOption.map (fun t => contents t.k (t.file 0)) = some [1] ∧
      (runCalls (twoFiles 2)).toOption.map (fun t => contents t.k (t.file 0)) = some [2] := by
    decide +kernel
  obtain ⟨e1, e2⟩ := e
  obtain ⟨t, ht, h1⟩ := Option.map_eq_some_iff.mp e1
  obtain ⟨u, hu, h2⟩ := Option.map_eq_some_iff.mp e2
  refine ⟨t, u, h1, h2, reads_independent 1 (t, u) ?_⟩
  exact reachable_runCalls ((twoFiles 1).zip (twoFiles 2)) twoFiles_same (toOption_eq_some ht)
    (toOption_eq_some hu)

theorem gapInF_same : ∀ c ∈ (gapInF 1).zip (gapInF 2), SameCall 1 c.1 c.2 ∧ c.1.Allowed ∧
    c.2.Allowed ∧ ∀ _ : FileSession × FileSession, True := by
  have hbuf : Buffer 0 (BitVec.ofNat 32 1) := buffer_low (by decide)
  intro c hc
  simp only [gapInF, List.zip_cons_cons, List.zip_nil_left, List.mem_cons, List.not_mem_nil,
    or_false] at hc
  rcases hc with rfl | rfl | rfl | rfl | rfl | rfl
  · exact ⟨rfl, trivial, trivial, fun _ => trivial⟩
  · exact ⟨⟨rfl, rfl, rfl, nofun⟩, ⟨by decide, hbuf⟩, ⟨by decide, hbuf⟩, fun _ => trivial⟩
  · exact ⟨⟨rfl, rfl, rfl, nofun⟩, ⟨by decide, hbuf⟩, ⟨by decide, hbuf⟩, fun _ => trivial⟩
  · exact ⟨⟨rfl, rfl, rfl, nofun⟩, ⟨by decide, hbuf⟩, ⟨by decide, hbuf⟩, fun _ => trivial⟩
  · exact ⟨rfl, trivial, trivial, fun _ => trivial⟩
  · exact ⟨⟨rfl, rfl, rfl, fun _ => rfl⟩, ⟨by decide, hbuf⟩, ⟨by decide, hbuf⟩, fun _ => trivial⟩

/-- one byte of file `f` after the calls `cs` -/
def readAfter (cs : List FileCall) : Res (FileSession × Word × List Byte) := do
  let t ← runCalls cs
  let (r, k) ← fsRead t.k (t.file 1) 0 1 0
  return (t, r, loadN k.heap.mem 0 1)

theorem gapInF_reads : (readAfter (gapInF 1)).toOption.map Prod.snd = some (1, [1]) ∧
    (readAfter (gapInF 2)).toOption.map Prod.snd = some (1, [2]) := by
  -- `blit` evaluates where the loop of `copy` would take a thousand rounds
  simp -zeta only [readAfter, runCalls, gapInF, List.foldlM_cons, List.foldlM_nil, FileCall.exec,
    fsWrite, Kernel.krealloc, krealloc, copy_eq_blit]
  decide +kernel

/-- **A write past the end of `f` shows what the other file held.** -/
theorem gap_shows_other_file : ¬ ∀ i t, Run.Reachable (twoRuns i) t → SameReads i t.1 t.2 := by
  intro h
  obtain ⟨e1, e2⟩ := gapInF_reads
  obtain ⟨⟨t, r, x⟩, ht, hx⟩ := Option.map_eq_some_iff.mp e1
  obtain ⟨⟨u, r', y⟩, hu, hy⟩ := Option.map_eq_some_iff.mp e2
  obtain ⟨rfl, rfl⟩ := Prod.mk.inj hx
  obtain ⟨rfl, rfl⟩ := Prod.mk.inj hy
  obtain ⟨t, e1, ht⟩ := bind_eq_ok (toOption_eq_some ht)
  obtain ⟨u, e2, hu⟩ := bind_eq_ok (toOption_eq_some hu)
  obtain ⟨⟨r, k⟩, e3, ht⟩ := bind_eq_ok ht
  obtain ⟨⟨r', l⟩, e4, hu⟩ := bind_eq_ok hu
  obtain ⟨_, ht⟩ := Prod.mk.inj (Except.ok.inj ht)
  obtain ⟨_, hu⟩ := Prod.mk.inj (Except.ok.inj hu)
  obtain ⟨hr, hk⟩ := Prod.mk.inj ht
  obtain ⟨_, hl⟩ := Prod.mk.inj hu
  have hreach := reachable_runCalls (i := 1) ((gapInF 1).zip (gapInF 2)) gapInF_same e1 e2
  have hbuf : Buffer 0 1 := buffer_low (by decide)
  obtain ⟨r1, k1, l1, e5, e6, hbytes⟩ := h 1 _ hreach.of_restrict 0 1 0 0 hbuf hbuf
  rw [e3] at e5
  rw [e4] at e6
  obtain ⟨hr1, hk1⟩ := Prod.mk.inj (Except.ok.inj e5)
  obtain ⟨_, hl1⟩ := Prod.mk.inj (Except.ok.inj e6)
  rw [← hr1, ← hk1, ← hl1, show r = 1 from hr] at hbytes
  have hsame : loadN k.heap.mem 0 1 = loadN l.heap.mem 0 1 := hbytes (by decide)
  rw [show loadN k.heap.mem 0 1 = [1] from hk, show loadN l.heap.mem 0 1 = [2] from hl] at hsame
  exact absurd hsame (by decide)

end FirstKernel
