import FirstKernel.Fs.FileRun
import FirstKernel.Heap.Twin

/-!
# The bytes that `fs_read` and `fs_write` move

`fsReadCopy` and `fsWriteCopy` are the two functions up to their last line, the `memcpy`, which they
give back as a `Copy`.  Both decide on the wrapped sum of the offset and the size.

* `fsRead_copy`, `fsWrite_copy`   the calls are those copies;
* `readInside_iff`, `writeInside_iff`   when the copies stay inside the data of the file, for all
                                  offsets and sizes.
-/

namespace FirstKernel
open ByteMem Cells Tiling

/-- the arguments of a `memcpy` -/
structure Copy where
  dst : Word
  src : Word
  n : Word
deriving DecidableEq, Repr

/-- `fs_read` up to its `memcpy` -/
def fsReadCopy (k : Kernel) (file offset size buffer : Word) : Res (Option Copy) := do
  if file = 0 ∨ (k.node file).type ≠ .file then return none
  let f := k.node file
  if f.size < offset then return none
  let readSize := if f.size < offset + size then f.size - offset else size
  if readSize ≠ 0 then deref f.data
  return some ⟨buffer, f.data + offset, readSize⟩

/-- `fs_write` up to its `memcpy` -/
def fsWriteCopy (k : Kernel) (file offset size buffer : Word) : Res (Kernel × Option Copy) := do
  if file = 0 ∨ (k.node file).type ≠ .file then return (k, none)
  if (k.node file).size < offset + size then
    let (newData, k) ← k.krealloc (k.node file).data (offset + size)
    if newData = 0 then
      return (k.printf "Write error: Out of memory for '%s'\n" [.str (k.node file).name], none)
    let k := k.modify file fun n => { n with data := newData, size := offset + size }
    return (k, some ⟨(k.node file).data + offset, buffer, size⟩)
  else
    if size ≠ 0 then deref (k.node file).data
    return (k, some ⟨(k.node file).data + offset, buffer, size⟩)

/-- the copy is done and its length returned, or -1 -/
def Kernel.transfer (k : Kernel) : Option Copy → Word × Kernel
  | none => (minusOne, k)
  | some c => (c.n, k.memcpy c.dst c.src c.n)

/-- `n` bytes from `p` on, with the wrap of addresses, lie in the bytes from `lo` up to `hi` -/
def Within (p n : Word) (lo hi : Nat) : Prop :=
  ∀ i, i < n.toNat → lo ≤ (p + BitVec.ofNat 32 i).toNat ∧ (p + BitVec.ofNat 32 i).toNat < hi

/-- -1 and no copy, or a copy out of the bytes of the file, no more than there are from the offset on -/
def ReadInside (k : Kernel) (f offset size buffer : Word) : Prop :=
  (fsReadCopy k f offset size buffer = .ok none ∧
    fsRead k f offset size buffer = .ok (minusOne, k)) ∨
  ∃ c, fsReadCopy k f offset size buffer = .ok (some c) ∧
    fsRead k f offset size buffer = .ok (c.n, k.memcpy c.dst c.src c.n) ∧
    offset.toNat + c.n.toNat ≤ (k.node f).size.toNat ∧
    Within c.src c.n (k.node f).data.toNat ((k.node f).data.toNat + (k.node f).size.toNat)

/-- -1 and nothing but a message, or a copy to the bytes `offset..offset+size-1` of a live data block
that holds them; the file ends after them, and `krealloc` has kept every other payload -/
def WriteInside (k : Kernel) (bs : List Block) (f offset size buffer : Word) : Prop :=
  (∃ console, fsWriteCopy k f offset size buffer
      = .ok ({ k with heap := { k.heap with console := console } }, none) ∧
    fsWrite k f offset size buffer
      = .ok (minusOne, { k with heap := { k.heap with console := console } })) ∨
  ∃ k' c bs' j, fsWriteCopy k f offset size buffer = .ok (k', some c) ∧
    fsWrite k f offset size buffer = .ok (c.n, k'.memcpy c.dst c.src c.n) ∧
    HeapBlocks k'.heap bs' ∧ Live bs' (k'.node f).data j ∧ offset.toNat + size.toNat ≤ j ∧
    Keeps bs k.heap bs' k'.heap (· ≠ (k.node f).data) ∧
    Within c.dst c.n ((k'.node f).data.toNat + offset.toNat)
      ((k'.node f).data.toNat + offset.toNat + size.toNat) ∧
    offset.toNat + size.toNat ≤ (k'.node f).size.toNat

section
variable {k k' : Kernel} {bs : List Block} {f offset size buffer p n q : Word} {c lo hi : Nat}
  {s' : Machine}

/-! ## the calls as copies -/

theorem fsRead_copy (k : Kernel) (f offset size buffer : Word) :
    fsRead k f offset size buffer = (fsReadCopy k f offset size buffer).map k.transfer := by
  unfold fsRead fsReadCopy
  by_cases hf : f = 0 ∨ (k.node f).type ≠ .file
  · rw [if_pos hf, if_pos hf]
    rfl
  rw [if_neg hf, if_neg hf]
  by_cases hpast : (k.node f).size < offset
  · simp only [if_pos hpast]
    rfl
  simp only [if_neg hpast]
  generalize (if (k.node f).size < offset + size then (k.node f).size - offset else size) = r
  by_cases hr : r = 0
  · simp only [if_neg (not_not.mpr hr)]
    rfl
  · simp only [if_pos hr]
    cases deref (k.node f).data with
    | error e => rfl
    | ok u => rfl

theorem fsWrite_copy (k : Kernel) (f offset size buffer : Word) :
    fsWrite k f offset size buffer
      = (fsWriteCopy k f offset size buffer).map fun x => x.1.transfer x.2 := by
  unfold fsWrite fsWriteCopy
  by_cases hf : f = 0 ∨ (k.node f).type ≠ .file
  · rw [if_pos hf, if_pos hf]
    rfl
  rw [if_neg hf, if_neg hf]
  by_cases hgrow : (k.node f).size < offset + size
  · rw [if_pos hgrow, if_pos hgrow]
    cases k.krealloc (k.node f).data (offset + size) with
    | error e => rfl
    | ok x =>
      by_cases hx : x.1 = 0
      · simp only [bind_ok, if_pos hx]
        rfl
      · simp only [bind_ok, if_neg hx]
        rfl
  · rw [if_neg hgrow, if_neg hgrow]
    by_cases hs : size = 0
    · simp only [if_neg (not_not.mpr hs)]
      rfl
    · simp only [if_pos hs]
      cases deref (k.node f).data with
      | error e => rfl
      | ok u => rfl

/-- a range of addresses that does not wrap -/
theorem within_add (hfit : p.toNat + offset.toNat + n.toNat ≤ 2^32) (hlo : lo ≤ p.toNat + offset.toNat)
    (hhi : p.toNat + offset.toNat + n.toNat ≤ hi) : Within (p + offset) n lo hi := by
  intro i hi'
  have h32 : i < 2^32 := Nat.lt_trans hi' n.isLt
  have e : (p + offset + BitVec.ofNat 32 i).toNat = p.toNat + offset.toNat + i := by
    rw [BitVec.toNat_add, BitVec.toNat_add, BitVec.toNat_ofNat, Nat.mod_eq_of_lt h32,
      Nat.mod_eq_of_lt (show p.toNat + offset.toNat < 2^32 by omega), Nat.mod_eq_of_lt (by omega)]
  rw [e]
  constructor
  · omega
  · omega

/-- a copy changes its destination only -/
theorem memcpy_out (m : Mem) (src : Word) (h : Within p n lo hi) {x : Nat} (hx : x < lo ∨ hi ≤ x) :
    memcpy m p src n.toNat x = m x := by
  have hrounds : ∀ j, j ≤ n.toNat → memcpy m p src j x = m x := by
    intro j
    induction j with
    | zero => exact fun _ => rfl
    | succ j ih =>
      intro hj
      obtain ⟨h1, h2⟩ := h j hj
      rw [memcpy, store8_of_ne _ _ _ _ (by omega)]
      exact ih (Nat.le_of_succ_le hj)
  exact hrounds n.toNat (Nat.le_refl _)

/-! ## `fs_read` -/

theorem fsReadCopy_past (size buffer : Word) (hf : f ≠ 0) (ht : (k.node f).type = .file)
    (h : (k.node f).size < offset) : fsReadCopy k f offset size buffer = .ok none := by
  unfold fsReadCopy
  rw [if_neg (not_or.mpr ⟨hf, not_not.mpr ht⟩)]
  simp only [if_pos h]
  rfl

theorem fsReadCopy_inside (buffer : Word) (hf : f ≠ 0) (ht : (k.node f).type = .file)
    (h : ¬ (k.node f).size < offset)
    (hr : (if (k.node f).size < offset + size then (k.node f).size - offset else size) = n)
    (hd : (k.node f).data ≠ 0) :
    fsReadCopy k f offset size buffer = .ok (some ⟨buffer, (k.node f).data + offset, n⟩) := by
  unfold fsReadCopy
  rw [if_neg (not_or.mpr ⟨hf, not_not.mpr ht⟩)]
  simp only [if_neg h, hr]
  by_cases hn : n = 0
  · rw [if_neg (not_not.mpr hn)]
    rfl
  · rw [if_pos hn, deref_ok hd]
    rfl

/-- **`fs_read` stays inside the file exactly when it starts behind the end or the sum does not
wrap.** -/
theorem readInside_iff (h : HeapBlocks k.heap bs) (hf : f ≠ 0) (ht : (k.node f).type = .file)
    (hlive : Live bs (k.node f).data c) (hsize : (k.node f).size.toNat ≤ c)
    (offset size buffer : Word) :
    ReadInside k f offset size buffer ↔
      (k.node f).size < offset ∨ offset.toNat + size.toNat < 2^32 := by
  have hb := hlive.bounds h
  have hd := hlive.ne_zero h
  by_cases hpast : (k.node f).size < offset
  · have e := fsReadCopy_past size buffer hf ht hpast
    have e' := fsRead_copy k f offset size buffer
    rw [e] at e'
    exact iff_of_true (.inl ⟨e, e'⟩) (.inl hpast)
  have hle : offset.toNat ≤ (k.node f).size.toNat := by
    rw [BitVec.lt_def] at hpast
    exact Nat.le_of_not_lt hpast
  obtain ⟨n, hn⟩ : ∃ n, (if (k.node f).size < offset + size then (k.node f).size - offset else size)
      = n := ⟨_, rfl⟩
  have e := fsReadCopy_inside buffer hf ht hpast hn hd
  have e' := fsRead_copy k f offset size buffer
  rw [e] at e'
  by_cases hsum : offset.toNat + size.toNat < 2^32
  · have hread : n.toNat = min size.toNat ((k.node f).size.toNat - offset.toNat) := by
      rw [← hn]
      exact toNat_readSize hle hsum
    have hlen : offset.toNat + n.toNat ≤ (k.node f).size.toNat := by omega
    refine iff_of_true (.inr ⟨_, e, e', hlen, ?_⟩) (.inr hsum)
    show Within ((k.node f).data + offset) n _ _
    exact within_add (by omega) (Nat.le_add_right _ _) (by omega)
  -- the sum wraps below the offset, and the whole size is read
  · have hadd : (offset + size).toNat = offset.toNat + size.toNat - 2^32 := by
      rw [BitVec.toNat_add, Nat.mod_eq_sub_mod (Nat.le_of_not_lt hsum), Nat.mod_eq_of_lt]
      have := offset.isLt
      have := size.isLt
      omega
    have hshort : ¬ (k.node f).size < offset + size := by
      have := size.isLt
      rw [BitVec.lt_def, hadd]
      omega
    rw [if_neg hshort] at hn
    refine iff_of_false ?_ (not_or.mpr ⟨hpast, hsum⟩)
    rintro (⟨e2, _⟩ | ⟨_, e2, _, hlen, _⟩)
    · rw [e] at e2
      cases e2
    · rw [e] at e2
      cases e2
      have hlen : offset.toNat + n.toNat ≤ (k.node f).size.toNat := hlen
      rw [← hn] at hlen
      omega

/-! ## `fs_write` -/

theorem fsWriteCopy_refused (buffer : Word) (hf : f ≠ 0) (ht : (k.node f).type = .file)
    (hgrow : (k.node f).size < offset + size)
    (e : FirstKernel.krealloc k.heap (k.node f).data (offset + size) = .ok (0, s')) :
    fsWriteCopy k f offset size buffer = .ok ({ k with heap := s' }.printf
      "Write error: Out of memory for '%s'\n" [.str (k.node f).name], none) := by
  have e1 : k.krealloc (k.node f).data (offset + size) = .ok (0, { k with heap := s' }) := by
    unfold Kernel.krealloc
    rw [e]
    rfl
  unfold fsWriteCopy
  rw [if_neg (not_or.mpr ⟨hf, not_not.mpr ht⟩), if_pos hgrow, e1]
  rfl

theorem fsWriteCopy_grow (buffer : Word) (hf : f ≠ 0) (ht : (k.node f).type = .file)
    (hgrow : (k.node f).size < offset + size)
    (e : FirstKernel.krealloc k.heap (k.node f).data (offset + size) = .ok (q, s')) (hq : q ≠ 0) :
    fsWriteCopy k f offset size buffer = .ok (k.withNode s' f
      { k.node f with data := q, size := offset + size }, some ⟨q + offset, buffer, size⟩) := by
  have e1 : k.krealloc (k.node f).data (offset + size) = .ok (q, { k with heap := s' }) := by
    unfold Kernel.krealloc
    rw [e]
    rfl
  unfold fsWriteCopy
  rw [if_neg (not_or.mpr ⟨hf, not_not.mpr ht⟩), if_pos hgrow, e1, bind_ok]
  simp only [if_neg hq, modify_node_self]
  rfl

theorem fsWriteCopy_stay (buffer : Word) (hf : f ≠ 0) (ht : (k.node f).type = .file)
    (hgrow : ¬ (k.node f).size < offset + size) (hd : (k.node f).data ≠ 0) :
    fsWriteCopy k f offset size buffer
      = .ok (k, some ⟨(k.node f).data + offset, buffer, size⟩) := by
  unfold fsWriteCopy
  rw [if_neg (not_or.mpr ⟨hf, not_not.mpr ht⟩), if_neg hgrow]
  by_cases hn : size = 0
  · simp only [if_neg (not_not.mpr hn)]
    rfl
  · simp only [if_pos hn, deref_ok hd]
    rfl

/-- the data of a file is left alone only when `krealloc` finds no room -/
theorem fsWriteCopy_none (hf : f ≠ 0) (ht : (k.node f).type = .file) (hd : (k.node f).data ≠ 0)
    (e : fsWriteCopy k f offset size buffer = .ok (k', none)) :
    (k.node f).size < offset + size ∧
      ∃ s', FirstKernel.krealloc k.heap (k.node f).data (offset + size) = .ok (0, s') := by
  by_cases hgrow : (k.node f).size < offset + size
  · refine ⟨hgrow, ?_⟩
    cases e1 : FirstKernel.krealloc k.heap (k.node f).data (offset + size) with
    | error x =>
      unfold fsWriteCopy Kernel.krealloc at e
      rw [if_neg (not_or.mpr ⟨hf, not_not.mpr ht⟩), if_pos hgrow, e1] at e
      cases e
    | ok x =>
      obtain ⟨q, s'⟩ := x
      by_cases hq : q = 0
      · exact ⟨s', by rw [hq]⟩
      · rw [fsWriteCopy_grow buffer hf ht hgrow e1 hq] at e
        cases e
  · rw [fsWriteCopy_stay buffer hf ht hgrow hd] at e
    cases e

/-- a write that `krealloc` refuses changes nothing but the console -/
theorem writeInside_refused (hf : f ≠ 0) (ht : (k.node f).type = .file)
    (hgrow : (k.node f).size < offset + size)
    (e : FirstKernel.krealloc k.heap (k.node f).data (offset + size) = .ok (0, s'))
    (hm : s'.mem = k.heap.mem) (hl : s'.freeList = k.heap.freeList) :
    WriteInside k bs f offset size buffer := by
  have e1 := fsWriteCopy_refused buffer hf ht hgrow e
  have es : s' = { k.heap with console := s'.console } := by
    show s' = ⟨k.heap.mem, k.heap.freeList, s'.console⟩
    rw [← hm, ← hl]
  rw [es] at e1
  have e2 := fsWrite_copy k f offset size buffer
  rw [e1] at e2
  exact .inl ⟨_, e1, e2⟩

/-- a write of bytes that end inside the address space -/
theorem writeInside_short (h : HeapBlocks k.heap bs) (hf : f ≠ 0) (ht : (k.node f).type = .file)
    (hlive : Live bs (k.node f).data c) (hsize : (k.node f).size.toNat ≤ c)
    (hsum : offset.toNat + size.toNat ≤ 0xFFFFFFF0) (buffer : Word) :
    WriteInside k bs f offset size buffer := by
  have hadd : (offset + size).toNat = offset.toNat + size.toNat :=
    BitVec.toNat_add_of_lt (by omega)
  have e2 := fsWrite_copy k f offset size buffer
  by_cases hgrow : (k.node f).size < offset + size
  · have hne : offset + size ≠ 0 := fun e => BitVec.not_lt_zero (e ▸ hgrow)
    rcases krealloc_grown h (.inr hlive) hne (by rw [hadd]; exact hsum) with ⟨s', e, hb, hm⟩ |
      ⟨q, s', bs', e, hq⟩
    · exact writeInside_refused hf ht hgrow e hm (hb.start.trans h.start.symm)
    · obtain ⟨j, hj, hn⟩ := hq.live
      rw [hadd] at hn
      have hb := hj.bounds hq.blocks
      have e1 := fsWriteCopy_grow buffer hf ht hgrow e hq.ne_zero
      rw [e1] at e2
      refine .inr ⟨_, _, bs', j, e1, e2, hq.blocks, ?_⟩
      rw [withNode_node_self]
      refine ⟨hj, hn, hq.keeps, ?_, Nat.le_of_eq hadd.symm⟩
      show Within (q + offset) size (q.toNat + offset.toNat) (q.toNat + offset.toNat + size.toNat)
      exact within_add (by omega) (Nat.le_refl _) (Nat.le_refl _)
  · have hle : offset.toNat + size.toNat ≤ (k.node f).size.toNat := by
      rw [BitVec.lt_def, hadd] at hgrow
      exact Nat.le_of_not_lt hgrow
    have hb := hlive.bounds h
    have e1 := fsWriteCopy_stay buffer hf ht hgrow (hlive.ne_zero h)
    rw [e1] at e2
    refine .inr ⟨k, _, bs, c, e1, e2, h, hlive, Nat.le_trans hle hsize, ?_, ?_, hle⟩
    · exact ⟨fun _ _ hp _ => hp, fun _ _ _ _ _ _ _ => rfl, fun _ _ => rfl⟩
    · show Within ((k.node f).data + offset) size _ _
      exact within_add (by omega) (Nat.le_refl _) (Nat.le_refl _)

/-- **`fs_write` stays inside the file exactly when the sum is at most `0xFFFFFFF0`, or no room is
found for the wrapped sum.** -/
theorem writeInside_iff (h : HeapBlocks k.heap bs) (hf : f ≠ 0) (ht : (k.node f).type = .file)
    (hlive : Live bs (k.node f).data c) (hsize : (k.node f).size.toNat ≤ c)
    (offset size buffer : Word) :
    WriteInside k bs f offset size buffer ↔
      offset.toNat + size.toNat ≤ 0xFFFFFFF0 ∨
        (c < (offset + size).toNat ∧ ∀ b ∈ bs, fits (need (offset + size)) b = false) := by
  constructor
  · rintro (⟨_, e, _⟩ | ⟨k', _, bs', j, _, _, hb, hj, hle, _⟩)
    · right
      obtain ⟨hgrow, s', e'⟩ := fsWriteCopy_none hf ht (hlive.ne_zero h) e
      have hne : offset + size ≠ 0 := fun e => BitVec.not_lt_zero (e ▸ hgrow)
      exact krealloc_eq_null h hlive hne e'
    -- no block has room for a sum that wraps
    · left
      have := hj.bounds hb
      omega
  · rintro (hsum | ⟨hc, hfit⟩)
    · exact writeInside_short h hf ht hlive hsize hsum buffer
    · have hgrow : (k.node f).size < offset + size := by
        rw [BitVec.lt_def]
        exact Nat.lt_of_le_of_lt hsize hc
      obtain ⟨s', e, hm, hl⟩ := krealloc_refused h (.inr hlive) hc hfit
      exact writeInside_refused hf ht hgrow e hm hl

/-- **When the transfers of a file stay inside its data.** -/
theorem transfers_iff (h : HeapBlocks k.heap bs) (hf : f ≠ 0) (ht : (k.node f).type = .file)
    (hlive : Live bs (k.node f).data c) (hsize : (k.node f).size.toNat ≤ c)
    (offset size buffer : Word) :
    (ReadInside k f offset size buffer ↔
      (k.node f).size < offset ∨ offset.toNat + size.toNat < 2^32) ∧
    (WriteInside k bs f offset size buffer ↔
      offset.toNat + size.toNat ≤ 0xFFFFFFF0 ∨
        (c < (offset + size).toNat ∧ ∀ b ∈ bs, fits (need (offset + size)) b = false)) :=
  ⟨readInside_iff h hf ht hlive hsize offset size buffer,
    writeInside_iff h hf ht hlive hsize offset size buffer⟩

end

/-- the file `a` made by `cmd_touch` after start-up -/
theorem touched_file : ∃ k k' bs c, fsInit (Kernel.boot bootMachine) = .ok k ∧
    cmdTouch k (some ⟨str "a", by decide⟩) = .ok k' ∧ HeapBlocks k'.heap bs ∧
    (k'.node 0x00800104).type = .file ∧ Live bs (k'.node 0x00800104).data c ∧
    (k'.node 0x00800104).size.toNat = 256 ∧ 256 ≤ c := by
  obtain ⟨k0, k1, e0, e1, hreach, hc⟩ := touched_reachable
  obtain ⟨bs, hfs⟩ := files_reachable hreach
  have hfile := hfs.file 0x00800104 List.mem_cons_self
  obtain ⟨c, hlive, hle⟩ := hfile.data
  have hlen := contents_length k1 0x00800104
  rw [hc, List.length_replicate] at hlen
  exact ⟨k0, k1, bs, c, e0, e1, hfs.blocks, hfile.type, hlive, hlen.symm, hlen ▸ hle⟩

/-- 100 bytes at offset 250 of its 256 are read short and written with the file grown; `0xFFFFFFF0`
bytes at offset 16 are copied past the end -/
theorem transfers_iff_touched : ∃ k bs c, Live bs (k.node 0x00800104).data c ∧
    (k.node 0x00800104).size.toNat = 256 ∧ ∀ buffer,
      ReadInside k 0x00800104 250 100 buffer ∧ WriteInside k bs 0x00800104 250 100 buffer ∧
      ¬ ReadInside k 0x00800104 16 0xFFFFFFF0 buffer := by
  obtain ⟨_, k, bs, c, _, _, hb, ht, hlive, hsize, hc⟩ := touched_file
  have hiff := transfers_iff hb (by decide) ht hlive (hsize ▸ hc)
  refine ⟨k, bs, c, hlive, hsize, fun buffer => ⟨?_, ?_, ?_⟩⟩
  · exact (hiff 250 100 buffer).1.mpr (.inr (by decide))
  · exact (hiff 250 100 buffer).2.mpr (.inl (by decide))
  · rw [(hiff 16 0xFFFFFFF0 buffer).1, BitVec.lt_def, hsize]
    decide

/-- offset 16 and size `0xFFFFFFF0` have the sum 0 in 32 bits: both calls copy `0xFFFFFFF0` bytes -/
theorem wrapped_sum_overruns : ∃ k k' bs c, fsInit (Kernel.boot bootMachine) = .ok k ∧
    cmdTouch k (some ⟨str "a", by decide⟩) = .ok k' ∧ HeapBlocks k'.heap bs ∧
    (k'.node 0x00800104).type = .file ∧ Live bs (k'.node 0x00800104).data c ∧
    (k'.node 0x00800104).size.toNat ≤ c ∧
    ∀ buffer, ¬ ReadInside k' 0x00800104 16 0xFFFFFFF0 buffer ∧
      ¬ WriteInside k' bs 0x00800104 16 0xFFFFFFF0 buffer := by
  obtain ⟨k0, k, bs, c, e0, e1, hb, ht, hlive, hsize, hc⟩ := touched_file
  have hle : (k.node 0x00800104).size.toNat ≤ c := hsize ▸ hc
  refine ⟨k0, k, bs, c, e0, e1, hb, ht, hlive, hle, fun buffer => ⟨?_, ?_⟩⟩
  · rw [readInside_iff hb (by decide) ht hlive hle, BitVec.lt_def, hsize]
    decide
  · rw [writeInside_iff hb (by decide) ht hlive hle]
    rintro (hsum | ⟨hlt, _⟩)
    · exact absurd hsum (by decide)
    · exact absurd hlt (Nat.not_lt_zero c)

end FirstKernel
