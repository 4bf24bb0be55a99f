import FirstKernel.Heap.Model
import FirstKernel.Lib.Tiling

/-!
# Headers in memory and the block list they form

* `Seg m a bs z`       following `next` from `a` meets the blocks `bs` and arrives at `z`;
* `HeapBlocks s bs`    the heap of `s` holds exactly `bs`, which tile the heap range;
* `walk`, `headers`    the walk of the list as a C debugger would print it, and the same list
                       computed from the blocks (`HeapBlocks.walk`);
* `findFit_hit`, `findFit_miss`   the search loop finds the first block that fits.
-/

namespace FirstKernel
open ByteMem Tiling

/-! ## reads after writes of a header -/

section
variable (m : Mem) (b c v : Word) (f : Byte)

@[simp] theorem blockSize_setSize : blockSize (setSize m b v) b = v := load32_store32 ..
@[simp] theorem blockNext_setSize : blockNext (setSize m b v) b = blockNext m b :=
  load32_store32_of_ne _ _ _ _ (by omega)
@[simp] theorem blockFree_setSize : blockFree (setSize m b v) b = blockFree m b :=
  store32_out _ _ _ _ (by omega)
@[simp] theorem blockSize_setNext : blockSize (setNext m b v) b = blockSize m b :=
  load32_store32_of_ne _ _ _ _ (by omega)
@[simp] theorem blockNext_setNext : blockNext (setNext m b v) b = v := load32_store32 ..
@[simp] theorem blockFree_setNext : blockFree (setNext m b v) b = blockFree m b :=
  store32_out _ _ _ _ (by omega)
@[simp] theorem blockSize_setFree : blockSize (setFree m b f) b = blockSize m b :=
  load32_store8_of_ne _ _ _ _ (by omega)
@[simp] theorem blockNext_setFree : blockNext (setFree m b f) b = blockNext m b :=
  load32_store8_of_ne _ _ _ _ (by omega)
@[simp] theorem blockFree_setFree : blockFree (setFree m b f) b = f := store8_self ..

variable {x : Nat} (hx : x < b.toNat ∨ b.toNat + 12 ≤ x)
include hx

theorem setSize_out : setSize m b v x = m x := store32_out _ _ _ _ (by omega)
theorem setNext_out : setNext m b v x = m x := store32_out _ _ _ _ (by omega)
theorem setFree_out : setFree m b f x = m x := store8_of_ne _ _ _ _ (by omega)

end

/-- the three fields of a header only depend on its twelve bytes -/
theorem fields_congr {m m' : Mem} {c : Word}
    (h : ∀ x, c.toNat ≤ x → x < c.toNat + 12 → m' x = m x) :
    blockSize m' c = blockSize m c ∧ blockNext m' c = blockNext m c ∧
      blockFree m' c = blockFree m c :=
  ⟨load32_congr fun x h1 h2 => h x (by omega) (by omega),
    load32_congr fun x h1 h2 => h x (by omega) (by omega), h _ (by omega) (by omega)⟩

theorem splitBlock_out (m : Mem) (cur size : Word) {x : Nat}
    (h1 : x < cur.toNat ∨ cur.toNat + 12 ≤ x)
    (h2 : x < (cur + sizeofHeapBlock + size).toNat ∨ (cur + sizeofHeapBlock + size).toNat + 12 ≤ x) :
    splitBlock m cur size x = m x := by
  unfold splitBlock
  rw [setNext_out _ _ _ h1, setSize_out _ _ _ h1, setFree_out _ _ _ h2, setNext_out _ _ _ h2,
    setSize_out _ _ _ h2]

theorem splitBlock_cur (m : Mem) (cur size : Word)
    (hd : cur.toNat + 12 ≤ (cur + sizeofHeapBlock + size).toNat) :
    blockSize (splitBlock m cur size) cur = size ∧
      blockNext (splitBlock m cur size) cur = cur + sizeofHeapBlock + size ∧
      blockFree (splitBlock m cur size) cur = blockFree m cur := by
  refine ⟨by simp [splitBlock], by simp [splitBlock], ?_⟩
  unfold splitBlock
  rw [blockFree_setNext, blockFree_setSize]
  refine (fields_congr fun x hx hx' => ?_).2.2
  rw [setFree_out _ _ _ (by omega), setNext_out _ _ _ (by omega), setSize_out _ _ _ (by omega)]

theorem splitBlock_new (m : Mem) (cur size : Word)
    (hd : cur.toNat + 12 ≤ (cur + sizeofHeapBlock + size).toNat) :
    blockSize (splitBlock m cur size) (cur + sizeofHeapBlock + size)
        = blockSize m cur - size - sizeofHeapBlock ∧
      blockNext (splitBlock m cur size) (cur + sizeofHeapBlock + size) = blockNext m cur ∧
      blockFree (splitBlock m cur size) (cur + sizeofHeapBlock + size) = 1 := by
  have hcur : blockNext (setSize m (cur + sizeofHeapBlock + size)
      (blockSize m cur - size - sizeofHeapBlock)) cur = blockNext m cur :=
    (fields_congr fun x hx hx' => setSize_out _ _ _ (by omega)).2.1
  -- the two writes to the old header come last and do not reach the new one
  have hout : ∀ x, (cur + sizeofHeapBlock + size).toNat ≤ x → splitBlock m cur size x
      = setFree (setNext (setSize m (cur + sizeofHeapBlock + size)
        (blockSize m cur - size - sizeofHeapBlock)) (cur + sizeofHeapBlock + size)
        (blockNext m cur)) (cur + sizeofHeapBlock + size) 1 x := by
    intro x hx
    unfold splitBlock
    rw [setNext_out _ _ _ (by omega), setSize_out _ _ _ (by omega)]
    simp only [hcur]
  obtain ⟨e1, e2, e3⟩ := fields_congr (c := cur + sizeofHeapBlock + size) fun x hx _ => hout x hx
  exact ⟨e1.trans (by simp), e2.trans (by simp), e3.trans (by simp)⟩

/-! ## the list in memory -/

def flag (free : Bool) : Byte := if free then 1 else 0

theorem flag_ne_zero (f : Bool) : flag f ≠ 0 ↔ f = true := by cases f <;> decide

/-- following `next` from `a` meets the blocks `bs` and arrives at `z` -/
def Seg (m : Mem) : Word → List Block → Word → Prop
  | a, [], z => a = z
  | a, b :: bs, z => a.toNat = b.addr ∧ a ≠ 0 ∧ (blockSize m a).toNat = b.size ∧
      blockFree m a = flag b.free ∧ Seg m (blockNext m a) bs z

section
variable {m m' : Mem} {a z : Word} {bs pre post : List Block} {b : Block}

theorem seg_append : Seg m a (pre ++ post) z ↔ ∃ p, Seg m a pre p ∧ Seg m p post z := by
  induction pre generalizing a with
  | nil => exact ⟨fun h => ⟨a, rfl, h⟩, fun ⟨p, h1, h2⟩ => by cases h1; exact h2⟩
  | cons b pre ih =>
    constructor
    · rintro ⟨h1, h2, h3, h4, h5⟩
      obtain ⟨p, h6, h7⟩ := ih.mp h5
      exact ⟨p, ⟨h1, h2, h3, h4, h6⟩, h7⟩
    · rintro ⟨p, ⟨h1, h2, h3, h4, h6⟩, h7⟩
      exact ⟨h1, h2, h3, h4, ih.mpr ⟨p, h6, h7⟩⟩

/-- a segment only depends on the headers of its blocks -/
theorem Seg.congr (h : Seg m a bs z)
    (hm : ∀ b ∈ bs, ∀ x, b.addr ≤ x → x < b.addr + 12 → m' x = m x) : Seg m' a bs z := by
  induction bs generalizing a with
  | nil => exact h
  | cons b bs ih =>
    obtain ⟨h1, h2, h3, h4, h5⟩ := h
    obtain ⟨e1, e2, e3⟩ := @fields_congr m m' a fun x hx hx' =>
      hm b List.mem_cons_self x (by omega) (by omega)
    refine ⟨h1, h2, by rw [e1]; exact h3, by rw [e3]; exact h4, ?_⟩
    rw [e2]
    exact ih h5 fun c hc => hm c (List.mem_cons_of_mem _ hc)

theorem Seg.mem (h : Seg m a bs z) (hb : b ∈ bs) : ∃ p : Word, p.toNat = b.addr ∧ p ≠ 0 ∧
    (blockSize m p).toNat = b.size ∧ blockFree m p = flag b.free := by
  obtain ⟨pre, post, rfl⟩ := List.append_of_mem hb
  obtain ⟨p, _, h1, h2, h3, h4, _⟩ := seg_append.mp h
  exact ⟨p, h1, h2, h3, h4⟩

end

/-- end of the heap -/
def heapEnd : Nat := 0x01000000

/-- the heap of `s` consists of the blocks `bs`, which tile the heap range -/
structure HeapBlocks (s : Machine) (bs : List Block) : Prop where
  start : s.freeList = kernelHeapStart
  seg : Seg s.mem s.freeList bs 0
  tiles : Tiles 12 kernelHeapStart.toNat bs heapEnd

section
variable {s : Machine} {bs : List Block} {b : Block}

theorem HeapBlocks.bounds (h : HeapBlocks s bs) (hb : b ∈ bs) :
    0x00800000 ≤ b.addr ∧ b.addr + 12 + b.size ≤ 0x01000000 := h.tiles.bounds hb

theorem HeapBlocks.length_lt (h : HeapBlocks s bs) : bs.length < heapWalkBound := by
  have h1 : 0x00800000 + bs.length * 12 ≤ 0x01000000 := h.tiles.length
  unfold heapWalkBound
  omega

/-- any memory with the same headers and the same list head holds the same blocks -/
theorem HeapBlocks.congr {s' : Machine} (h : HeapBlocks s bs) (hl : s'.freeList = s.freeList)
    (hm : ∀ b ∈ bs, ∀ x, b.addr ≤ x → x < b.addr + 12 → s'.mem x = s.mem x) :
    HeapBlocks s' bs :=
  ⟨by rw [hl]; exact h.start, by rw [hl]; exact h.seg.congr hm, h.tiles⟩

end

/-! ## the search loop -/

section
variable {m : Mem} {a r : Word} {pre post bs : List Block} {b : Block}

theorem findFit_hit (h : Seg m a (pre ++ b :: post) 0) (hpre : ∀ c ∈ pre, fits r.toNat c = false)
    (hb : fits r.toNat b = true) (fuel : Nat) (hf : pre.length < fuel) :
    ∃ p, findFit m r fuel a = some p ∧ Seg m a pre p ∧ Seg m p (b :: post) 0 := by
  induction pre generalizing a fuel with
  | nil =>
    obtain ⟨fuel, rfl⟩ := Nat.exists_eq_add_one_of_ne_zero (Nat.ne_zero_of_lt hf)
    obtain ⟨h1, h2, h3, h4, h5⟩ := h
    obtain ⟨hb1, hb2⟩ := fits_iff.mp hb
    refine ⟨a, ?_, rfl, h1, h2, h3, h4, h5⟩
    rw [findFit, if_neg h2, if_pos]
    refine ⟨by rw [h4, flag_ne_zero]; exact hb1, ?_⟩
    rw [BitVec.le_def, h3]
    exact hb2
  | cons c pre ih =>
    obtain ⟨fuel, rfl⟩ := Nat.exists_eq_add_one_of_ne_zero (Nat.ne_zero_of_lt hf)
    obtain ⟨h1, h2, h3, h4, h5⟩ := h
    have hc := hpre c List.mem_cons_self
    obtain ⟨p, e, h6, h7⟩ := ih h5 (fun d hd => hpre d (List.mem_cons_of_mem _ hd)) fuel
      (by simpa using hf)
    refine ⟨p, ?_, ⟨h1, h2, h3, h4, h6⟩, h7⟩
    rw [findFit, if_neg h2, if_neg, e]
    rw [h4, flag_ne_zero, BitVec.le_def, h3, ← fits_iff, hc]
    decide

theorem findFit_miss (h : Seg m a bs 0) (hbs : ∀ c ∈ bs, fits r.toNat c = false) (fuel : Nat)
    (hf : bs.length < fuel) : findFit m r fuel a = some 0 := by
  induction bs generalizing a fuel with
  | nil =>
    obtain ⟨fuel, rfl⟩ := Nat.exists_eq_add_one_of_ne_zero (Nat.ne_zero_of_lt hf)
    have e : a = 0 := h
    rw [findFit, if_pos e]
  | cons c bs ih =>
    obtain ⟨fuel, rfl⟩ := Nat.exists_eq_add_one_of_ne_zero (Nat.ne_zero_of_lt hf)
    obtain ⟨h1, h2, h3, h4, h5⟩ := h
    have hc := hbs c List.mem_cons_self
    have ih' := ih h5 (fun d hd => hbs d (List.mem_cons_of_mem _ hd)) fuel (by simpa using hf)
    rw [findFit, if_neg h2, if_neg, ih']
    rw [h4, flag_ne_zero, BitVec.le_def, h3, ← fits_iff, hc]
    decide

end

/-! ## the walk of the list -/

/-- a header as found at `addr` -/
structure Header where
  addr : Word
  size : Word
  next : Word
  free : Byte
deriving DecidableEq, Repr

/-- the headers met from `cur` on, if the list ends within the bound -/
def walk (m : Mem) : Nat → Word → Option (List Header)
  | 0, _ => none
  | fuel+1, cur =>
    if cur = 0 then some []
    else (walk m fuel (blockNext m cur)).map
      (⟨cur, blockSize m cur, blockNext m cur, blockFree m cur⟩ :: ·)

/-- the block list of the heap -/
def heapList (s : Machine) : Option (List Header) := walk s.mem heapWalkBound s.freeList

def addrWord (bs : List Block) : Word :=
  match bs with
  | [] => 0
  | b :: _ => BitVec.ofNat 32 b.addr

/-- the headers of a list of blocks -/
def headers : List Block → List Header
  | [] => []
  | b :: bs => ⟨BitVec.ofNat 32 b.addr, BitVec.ofNat 32 b.size, addrWord bs, flag b.free⟩ :: headers bs

theorem ofNat_toNat_eq {w : Word} {n : Nat} (h : w.toNat = n) : BitVec.ofNat 32 n = w := by
  rw [← h, BitVec.ofNat_toNat, BitVec.setWidth_eq]

theorem Seg.addrWord {m : Mem} {a : Word} {bs : List Block} (h : Seg m a bs 0) : addrWord bs = a := by
  cases bs with
  | nil => exact h.symm
  | cons b bs => exact ofNat_toNat_eq h.1

theorem Seg.walk {m : Mem} {a : Word} {bs : List Block} (h : Seg m a bs 0) (fuel : Nat)
    (hf : bs.length < fuel) : walk m fuel a = some (headers bs) := by
  induction bs generalizing a fuel with
  | nil =>
    obtain ⟨fuel, rfl⟩ := Nat.exists_eq_add_one_of_ne_zero (Nat.ne_zero_of_lt hf)
    have e : a = 0 := h
    rw [FirstKernel.walk, if_pos e, headers]
  | cons b bs ih =>
    obtain ⟨fuel, rfl⟩ := Nat.exists_eq_add_one_of_ne_zero (Nat.ne_zero_of_lt hf)
    obtain ⟨h1, h2, h3, h4, h5⟩ := h
    rw [FirstKernel.walk, if_neg h2, ih h5 fuel (by simpa using hf), headers, ofNat_toNat_eq h1,
      ofNat_toNat_eq h3, h5.addrWord, h4]
    rfl

/-- **The walk of a heap that holds `bs` ends within the bound and lists `bs`.** -/
theorem HeapBlocks.walk {s : Machine} {bs : List Block} (h : HeapBlocks s bs) :
    heapList s = some (headers bs) :=
  h.seg.walk _ h.length_lt

end FirstKernel
