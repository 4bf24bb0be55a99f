import Mathlib.Data.List.Chain
import Mathlib.Data.List.Perm.Basic

/-!
# First fit over a tiled interval

An interval `[lo, hi)` is cut into blocks; every block is a header of `hdr` cells followed by
`size` payload cells.  This file has the block-list algorithms of a first-fit allocator with
forward merging, for any header size and any splitting threshold `slack`:

* `Tiles hdr lo bs hi`   the blocks `bs` cut `[lo, hi)` without gap or overlap;
* `alloc hdr slack r`    first free block of size at least `r`, split when `slack` cells would
                         remain behind a new header;
* `release hdr a`        the block at `a` becomes free and absorbs its successor if that is free;
* `NoAdj`                no two consecutive free blocks.

`alloc_eq_some`, `release_append` say what the two operations do to a list cut at the block they
work on; the invariants (`Tiles.alloc`, `Tiles.release`, `used_alloc`, `used_release`,
`NoAdj.alloc`, `noAdj_release_iff`), the cancellation law `release_alloc` and the reuse law
`alloc_release` follow from them.
-/

namespace Tiling

structure Block where
  addr : Nat
  size : Nat
  free : Bool
deriving DecidableEq, Repr

/-- the blocks cut `[lo, hi)` -/
def Tiles (hdr : Nat) : Nat → List Block → Nat → Prop
  | lo, [], hi => lo = hi
  | lo, b :: bs, hi => b.addr = lo ∧ Tiles hdr (lo + hdr + b.size) bs hi

/-- addresses of the blocks in use -/
def used (bs : List Block) : List Nat := (bs.filter fun b => !b.free).map Block.addr

def NoAdj (bs : List Block) : Prop := bs.IsChain fun b c => ¬ (b.free = true ∧ c.free = true)

def fits (r : Nat) (b : Block) : Bool := b.free && decide (r ≤ b.size)

/-- the chosen block after the allocation: split if enough is left, whole otherwise -/
def carve (hdr slack r : Nat) (b : Block) : List Block :=
  if r + hdr + slack ≤ b.size then
    [⟨b.addr, r, false⟩, ⟨b.addr + hdr + r, b.size - r - hdr, true⟩]
  else [⟨b.addr, b.size, false⟩]

def alloc (hdr slack r : Nat) : List Block → Option (Nat × List Block)
  | [] => none
  | b :: bs =>
    if fits r b then some (b.addr, carve hdr slack r b ++ bs)
    else (alloc hdr slack r bs).map fun p => (p.1, b :: p.2)

/-- `b` in front of `bs`, absorbing the first block of `bs` if that is free -/
def absorb (hdr : Nat) (b : Block) : List Block → List Block
  | [] => [b]
  | c :: cs => if c.free then ⟨b.addr, b.size + (c.size + hdr), b.free⟩ :: cs else b :: c :: cs

def release (hdr a : Nat) : List Block → List Block
  | [] => []
  | b :: bs => if b.addr = a then absorb hdr ⟨b.addr, b.size, true⟩ bs else b :: release hdr a bs

section
variable {hdr slack r lo hi a : Nat} {bs bs' pre post : List Block} {b c : Block}

/-! ## tilings -/

theorem tiles_append : Tiles hdr lo (pre ++ post) hi ↔
    ∃ mid, Tiles hdr lo pre mid ∧ Tiles hdr mid post hi := by
  induction pre generalizing lo with
  | nil => exact ⟨fun h => ⟨lo, rfl, h⟩, fun ⟨mid, h1, h2⟩ => by cases h1; exact h2⟩
  | cons b pre ih =>
    constructor
    · rintro ⟨h1, h2⟩
      obtain ⟨mid, h3, h4⟩ := ih.mp h2
      exact ⟨mid, ⟨h1, h3⟩, h4⟩
    · rintro ⟨mid, ⟨h1, h3⟩, h4⟩
      exact ⟨h1, ih.mpr ⟨mid, h3, h4⟩⟩

theorem Tiles.le (h : Tiles hdr lo bs hi) : lo ≤ hi := by
  induction bs generalizing lo with
  | nil => exact Nat.le_of_eq h
  | cons b bs ih => have := ih h.2; omega

theorem Tiles.bounds (h : Tiles hdr lo bs hi) (hb : b ∈ bs) :
    lo ≤ b.addr ∧ b.addr + hdr + b.size ≤ hi := by
  induction bs generalizing lo with
  | nil => cases hb
  | cons c bs ih =>
    obtain ⟨h1, h2⟩ := h
    rcases List.mem_cons.mp hb with rfl | hb'
    · have := h2.le
      exact ⟨h1.ge, by rw [h1]; exact this⟩
    · have := ih h2 hb'
      exact ⟨by omega, this.2⟩

/-- a block ends where the blocks after it begin -/
theorem Tiles.sorted (h : Tiles hdr lo bs hi) :
    bs.Pairwise fun b c => b.addr + hdr + b.size ≤ c.addr := by
  induction bs generalizing lo with
  | nil => exact List.Pairwise.nil
  | cons b bs ih =>
    refine List.pairwise_cons.mpr ⟨fun c hc => ?_, ih h.2⟩
    have := (h.2.bounds hc).1
    rw [h.1]
    exact this

theorem Tiles.pre_lt (h : Tiles hdr lo (pre ++ b :: post) hi) (hc : c ∈ pre) :
    c.addr + hdr + c.size ≤ b.addr :=
  (List.pairwise_append.mp h.sorted).2.2 c hc b List.mem_cons_self

theorem Tiles.lt_post (h : Tiles hdr lo (pre ++ b :: post) hi) (hc : c ∈ post) :
    b.addr + hdr + b.size ≤ c.addr :=
  (List.pairwise_cons.mp (List.pairwise_append.mp h.sorted).2.1).1 c hc

/-- a tiling has room for at most `(hi - lo) / hdr` blocks -/
theorem Tiles.length (h : Tiles hdr lo bs hi) : lo + bs.length * hdr ≤ hi := by
  induction bs generalizing lo with
  | nil => simpa using h.le
  | cons b bs ih =>
    have := ih h.2
    rw [List.length_cons, Nat.succ_mul]
    omega

/-- two blocks of a tiling at one address are one block -/
theorem Tiles.addr_inj (hh : 0 < hdr) (h : Tiles hdr lo bs hi) (hb : b ∈ bs) (hc : c ∈ bs)
    (e : b.addr = c.addr) : b = c := by
  induction bs generalizing lo with
  | nil => cases hb
  | cons d bs ih =>
    obtain ⟨h1, h2⟩ := h
    rcases List.mem_cons.mp hb with hbd | hb' <;> rcases List.mem_cons.mp hc with hcd | hc'
    · rw [hbd, hcd]
    · have := (h2.bounds hc').1
      rw [hbd] at e
      omega
    · have := (h2.bounds hb').1
      rw [hcd] at e
      omega
    · exact ih h2 hb' hc'

theorem Tiles.used_nodup (hh : 0 < hdr) (h : Tiles hdr lo bs hi) : (used bs).Nodup := by
  have h1 : bs.Pairwise fun b c => b.addr ≠ c.addr :=
    h.sorted.imp fun hbc => by omega
  exact List.pairwise_map.mpr (h1.filter _)

theorem mem_used : a ∈ used bs ↔ ∃ b ∈ bs, b.free = false ∧ b.addr = a := by
  simp [used, and_assoc]

theorem used_append : used (pre ++ post) = used pre ++ used post := by
  simp [used]

theorem used_cons_free (h : b.free = true) : used (b :: bs) = used bs := by simp [used, h]

theorem used_cons_used (h : b.free = false) : used (b :: bs) = b.addr :: used bs := by
  simp [used, h]

/-! ## allocation -/

theorem alloc_eq_none : alloc hdr slack r bs = none ↔ ∀ b ∈ bs, fits r b = false := by
  induction bs with
  | nil => simp [alloc]
  | cons b bs ih =>
    cases hb : fits r b with
    | true => simp [alloc, hb]
    | false => simp [alloc, hb, ih]

theorem alloc_eq_some (h : alloc hdr slack r bs = some (a, bs')) :
    ∃ pre b post, bs = pre ++ b :: post ∧ (∀ c ∈ pre, fits r c = false) ∧ fits r b = true ∧
      a = b.addr ∧ bs' = pre ++ carve hdr slack r b ++ post := by
  induction bs generalizing a bs' with
  | nil => cases h
  | cons b bs ih =>
    cases hb : fits r b with
    | true =>
      rw [alloc, if_pos hb] at h
      cases h
      exact ⟨[], b, bs, rfl, by simp, hb, rfl, rfl⟩
    | false =>
      rw [alloc, if_neg (by simp [hb])] at h
      obtain ⟨⟨a', bs''⟩, h1, h2⟩ := Option.map_eq_some_iff.mp h
      cases h2
      obtain ⟨pre, d, post, e, hpre, hd, ea, e'⟩ := ih h1
      refine ⟨b :: pre, d, post, by rw [e]; rfl, ?_, hd, ea, by rw [e']; rfl⟩
      intro c hc
      rcases List.mem_cons.mp hc with rfl | hc
      · exact hb
      · exact hpre c hc

/-- a block that fits is taken, unless one in front of it is -/
theorem alloc_hit (hb : fits r b = true) :
    ∃ a bs', alloc hdr slack r (pre ++ b :: post) = some (a, bs') ∧
    (a = b.addr ∨ ∃ c ∈ pre, fits r c = true ∧ a = c.addr) := by
  induction pre with
  | nil => exact ⟨_, _, if_pos hb, .inl rfl⟩
  | cons c pre ih =>
    cases hc : fits r c with
    | true => exact ⟨_, _, if_pos hc, .inr ⟨c, List.mem_cons_self, hc, rfl⟩⟩
    | false =>
      obtain ⟨a, bs', e, hcase⟩ := ih
      refine ⟨a, c :: bs', ?_, hcase.imp_right fun ⟨d, hd, h⟩ => ⟨d, List.mem_cons_of_mem _ hd, h⟩⟩
      rw [List.cons_append, alloc, hc, if_neg Bool.false_ne_true, e]
      rfl

theorem fits_iff : fits r b = true ↔ b.free = true ∧ r ≤ b.size := by simp [fits]

theorem tiles_carve (h : Tiles hdr lo (b :: post) hi) :
    Tiles hdr lo (carve hdr slack r b ++ post) hi := by
  obtain ⟨h1, h2⟩ := h
  unfold carve
  split
  · refine ⟨h1, ?_, ?_⟩
    · show b.addr + hdr + r = lo + hdr + r
      rw [h1]
    · have e : lo + hdr + r + hdr + (b.size - r - hdr) = lo + hdr + b.size := by omega
      show Tiles hdr (lo + hdr + r + hdr + (b.size - r - hdr)) post hi
      rw [e]
      exact h2
  · exact ⟨h1, h2⟩

theorem Tiles.alloc (h : Tiles hdr lo bs hi) (ha : alloc hdr slack r bs = some (a, bs')) :
    Tiles hdr lo bs' hi := by
  obtain ⟨pre, b, post, rfl, _, _, _, rfl⟩ := alloc_eq_some ha
  obtain ⟨mid, h1, h2⟩ := tiles_append.mp h
  rw [List.append_assoc]
  exact tiles_append.mpr ⟨mid, h1, tiles_carve h2⟩

theorem used_carve : used (carve hdr slack r b) = [b.addr] := by
  unfold carve used
  split <;> simp

/-- the allocated block joins the blocks in use -/
theorem used_alloc (ha : alloc hdr slack r bs = some (a, bs')) : (used bs').Perm (a :: used bs) := by
  obtain ⟨pre, b, post, rfl, _, hb, rfl, rfl⟩ := alloc_eq_some ha
  have hf := (fits_iff.mp hb).1
  rw [used_append, used_append, used_append, used_carve, used_cons_free hf, List.append_assoc]
  exact List.perm_middle

theorem alloc_fresh (hh : 0 < hdr) (h : Tiles hdr lo bs hi)
    (ha : Tiling.alloc hdr slack r bs = some (a, bs')) : a ∉ used bs := by
  obtain ⟨pre, b, post, rfl, _, hb, rfl, rfl⟩ := alloc_eq_some ha
  intro hm
  obtain ⟨c, hc, hcf, e⟩ := mem_used.mp hm
  have hcb := h.addr_inj hh hc (List.mem_append_right _ List.mem_cons_self) e
  have hf := (fits_iff.mp hb).1
  rw [← hcb, hcf] at hf
  cases hf

theorem alloc_new (ha : Tiling.alloc hdr slack r bs = some (a, bs')) :
    ∃ c ∈ bs', c.addr = a ∧ c.free = false ∧ r ≤ c.size := by
  obtain ⟨pre, b, post, rfl, _, hb, rfl, rfl⟩ := alloc_eq_some ha
  have hr := (fits_iff.mp hb).2
  unfold carve
  split
  · exact ⟨⟨b.addr, r, false⟩, by simp, rfl, rfl, Nat.le_refl r⟩
  · exact ⟨⟨b.addr, b.size, false⟩, by simp, rfl, rfl, hr⟩

/-- a block in use keeps its size when another block is allocated -/
theorem alloc_keep (ha : Tiling.alloc hdr slack r bs = some (a, bs')) (hc : c ∈ bs)
    (hf : c.free = false) : c ∈ bs' := by
  obtain ⟨pre, b, post, rfl, _, hb, rfl, rfl⟩ := alloc_eq_some ha
  have hbf := (fits_iff.mp hb).1
  have hne : c ≠ b := by
    intro e
    rw [e, hbf] at hf
    cases hf
  have hc' : c ∈ pre ∨ c ∈ post := by simpa [hne] using hc
  rcases hc' with h | h <;> simp [h]

/-! ## release -/

theorem release_append (hpre : ∀ c ∈ pre, c.addr ≠ b.addr) :
    release hdr b.addr (pre ++ b :: post)
      = pre ++ absorb hdr ⟨b.addr, b.size, true⟩ post := by
  induction pre with
  | nil => simp [release]
  | cons c pre ih =>
    have hc := hpre c List.mem_cons_self
    have ih' := ih fun d hd => hpre d (List.mem_cons_of_mem _ hd)
    simp [release, hc, ih']

theorem Tiles.release_eq (hh : 0 < hdr) (h : Tiles hdr lo (pre ++ b :: post) hi) :
    release hdr b.addr (pre ++ b :: post) = pre ++ absorb hdr ⟨b.addr, b.size, true⟩ post := by
  apply release_append
  intro c hc e
  have := h.pre_lt hc
  omega

theorem absorb_free (hc : c.free = true) :
    absorb hdr b (c :: post) = ⟨b.addr, b.size + (c.size + hdr), b.free⟩ :: post := by
  simp [absorb, hc]

theorem absorb_used (hc : c.free = false) : absorb hdr b (c :: post) = b :: c :: post := by
  simp [absorb, hc]

theorem tiles_absorb (h : Tiles hdr lo (b :: post) hi) : Tiles hdr lo (absorb hdr b post) hi := by
  cases post with
  | nil => exact h
  | cons c cs =>
    obtain ⟨h1, h2, h3⟩ := h
    cases hc : c.free with
    | true =>
      rw [absorb_free hc]
      refine ⟨h1, ?_⟩
      have e : lo + hdr + (b.size + (c.size + hdr)) = lo + hdr + b.size + hdr + c.size := by omega
      show Tiles hdr (lo + hdr + (b.size + (c.size + hdr))) cs hi
      rw [e]
      exact h3
    | false =>
      rw [absorb_used hc]
      exact ⟨h1, h2, h3⟩

theorem mem_used_split (ha : a ∈ used bs) :
    ∃ pre b post, bs = pre ++ b :: post ∧ b.free = false ∧ b.addr = a := by
  obtain ⟨b, hb, hf, e⟩ := mem_used.mp ha
  obtain ⟨pre, post, rfl⟩ := List.append_of_mem hb
  exact ⟨pre, b, post, rfl, hf, e⟩

theorem Tiles.release (hh : 0 < hdr) (h : Tiles hdr lo bs hi) (ha : a ∈ used bs) :
    Tiles hdr lo (Tiling.release hdr a bs) hi := by
  obtain ⟨pre, b, post, rfl, _, rfl⟩ := mem_used_split ha
  rw [h.release_eq hh]
  obtain ⟨mid, h1, h2⟩ := tiles_append.mp h
  exact tiles_append.mpr ⟨mid, h1, tiles_absorb h2⟩

theorem used_absorb (hb : b.free = true) : used (absorb hdr b post) = used post := by
  cases post with
  | nil => simp [absorb, used, hb]
  | cons c cs =>
    cases hc : c.free with
    | true =>
      rw [absorb_free hc, used_cons_free hc]
      exact used_cons_free hb
    | false => rw [absorb_used hc, used_cons_free hb]

/-- the released block is in front, as large as before or larger -/
theorem absorb_head (hdr : Nat) (b : Block) (post : List Block) : ∃ d post',
    absorb hdr b post = d :: post' ∧ d.addr = b.addr ∧ d.free = b.free ∧ b.size ≤ d.size := by
  cases post with
  | nil => exact ⟨b, [], rfl, rfl, rfl, Nat.le_refl _⟩
  | cons c cs =>
    cases hc : c.free with
    | true => exact ⟨_, _, absorb_free hc, rfl, rfl, Nat.le_add_right _ _⟩
    | false => exact ⟨_, _, absorb_used hc, rfl, rfl, Nat.le_refl _⟩

/-- a request that fits the released block is served there or in front of it -/
theorem alloc_release (hh : 0 < hdr) (slack : Nat) (h : Tiles hdr lo (pre ++ b :: post) hi)
    (hr : r ≤ b.size) : ∃ a bs',
      Tiling.alloc hdr slack r (Tiling.release hdr b.addr (pre ++ b :: post)) = some (a, bs') ∧
      a ≤ b.addr ∧ ((∀ c ∈ pre, fits r c = false) → a = b.addr) := by
  obtain ⟨d, post', e, hd, hdf, hds⟩ := absorb_head hdr ⟨b.addr, b.size, true⟩ post
  have hfit : fits r d = true := fits_iff.mpr ⟨hdf, Nat.le_trans hr hds⟩
  rw [h.release_eq hh, e]
  obtain ⟨a, bs', ea, hcase⟩ : ∃ a bs', alloc hdr slack r (pre ++ d :: post') = some (a, bs') ∧ _ :=
    alloc_hit hfit
  refine ⟨a, bs', ea, ?_, fun hno => ?_⟩
  · rcases hcase with rfl | ⟨c, hc, _, rfl⟩
    · exact Nat.le_of_eq hd
    · have := h.pre_lt hc
      omega
  · rcases hcase with rfl | ⟨c, hc, hcf, rfl⟩
    · exact hd
    · rw [hno c hc] at hcf
      cases hcf

/-- the released block, and only that one, leaves the blocks in use -/
theorem used_release (hh : 0 < hdr) (h : Tiles hdr lo bs hi) (ha : a ∈ used bs) :
    (used bs).Perm (a :: used (Tiling.release hdr a bs)) := by
  obtain ⟨pre, b, post, rfl, hf, rfl⟩ := mem_used_split ha
  rw [h.release_eq hh, used_append, used_append, used_absorb rfl, used_cons_used hf]
  exact List.perm_middle

/-- a block in use keeps its size when another block is released -/
theorem release_keep (hh : 0 < hdr) (h : Tiles hdr lo bs hi) (ha : a ∈ used bs) (hc : c ∈ bs)
    (hf : c.free = false) (hne : c.addr ≠ a) : c ∈ Tiling.release hdr a bs := by
  obtain ⟨pre, b, post, rfl, _, rfl⟩ := mem_used_split ha
  rw [h.release_eq hh]
  have hcb : c ≠ b := fun e => hne (by rw [e])
  have hc' : c ∈ pre ∨ c ∈ post := by simpa [hcb] using hc
  rcases hc' with h1 | h1
  · exact List.mem_append_left _ h1
  · apply List.mem_append_right
    cases post with
    | nil => cases h1
    | cons d ds =>
      cases hd : d.free with
      | true =>
        have hcd : c ≠ d := by
          intro e
          rw [e, hd] at hf
          cases hf
        rw [absorb_free hd]
        exact List.mem_cons_of_mem _ ((List.mem_cons.mp h1).resolve_left hcd)
      | false =>
        rw [absorb_used hd]
        exact List.mem_cons_of_mem _ h1

/-! ## adjacent free blocks -/

theorem NoAdj.alloc (h : NoAdj bs) (ha : Tiling.alloc hdr slack r bs = some (a, bs')) :
    NoAdj bs' := by
  obtain ⟨pre, b, post, rfl, _, hb, _, rfl⟩ := alloc_eq_some ha
  have hf := (fits_iff.mp hb).1
  unfold NoAdj at h ⊢
  rw [List.isChain_append] at h
  obtain ⟨h1, h2, h3⟩ := h
  have hpost : post.IsChain fun b c => ¬ (b.free = true ∧ c.free = true) := h2.tail
  have hhead : ∀ c ∈ post.head?, c.free = false := by
    intro c hc
    have := (List.isChain_cons.mp h2).1 c hc
    simpa [hf] using this
  unfold carve
  split
  · rw [List.append_assoc, List.isChain_append]
    refine ⟨h1, ?_, fun x _ y hy => ?_⟩
    · refine List.isChain_cons.mpr ⟨fun y hy => by simp at hy; simp, ?_⟩
      refine List.isChain_cons.mpr ⟨fun c hc => ?_, hpost⟩
      rw [hhead c hc]
      simp
    · simp at hy
      simp [← hy]
  · rw [List.append_assoc, List.isChain_append]
    refine ⟨h1, List.isChain_cons.mpr ⟨fun c _ => by simp, hpost⟩, fun x _ y hy => ?_⟩
    simp at hy
    simp [← hy]

/-- **The forward merge keeps the list coalesced exactly when the predecessor is in use.** -/
theorem noAdj_release_iff (hh : 0 < hdr) (ht : Tiles hdr lo (pre ++ b :: post) hi)
    (h : NoAdj (pre ++ b :: post)) :
    NoAdj (Tiling.release hdr b.addr (pre ++ b :: post)) ↔ ∀ c ∈ pre.getLast?, c.free = false := by
  rw [ht.release_eq hh]
  unfold NoAdj at h ⊢
  rw [List.isChain_append] at h
  obtain ⟨h1, h2, _⟩ := h
  have hpost : post.IsChain fun b c => ¬ (b.free = true ∧ c.free = true) := h2.tail
  have habs : (absorb hdr ⟨b.addr, b.size, true⟩ post).IsChain
      fun b c => ¬ (b.free = true ∧ c.free = true) := by
    cases post with
    | nil => exact List.isChain_singleton _
    | cons c cs =>
      cases hc : c.free with
      | true =>
        rw [absorb_free hc]
        refine List.isChain_cons.mpr ⟨fun d hd => ?_, hpost.tail⟩
        have := (List.isChain_cons.mp hpost).1 d hd
        simpa [hc] using this
      | false =>
        rw [absorb_used hc]
        exact List.isChain_cons.mpr ⟨fun d hd => by simp at hd; simp [← hd, hc], hpost⟩
  have hhead : ∃ d, (absorb hdr ⟨b.addr, b.size, true⟩ post).head? = some d ∧ d.free = true := by
    cases post with
    | nil => exact ⟨_, rfl, rfl⟩
    | cons c cs =>
      cases hc : c.free with
      | true => rw [absorb_free hc]; exact ⟨_, rfl, rfl⟩
      | false => rw [absorb_used hc]; exact ⟨_, rfl, rfl⟩
  obtain ⟨d, hd, hdf⟩ := hhead
  rw [List.isChain_append]
  constructor
  · rintro ⟨_, _, h3⟩ c hc
    have := h3 c hc d hd
    simpa [hdf] using this
  · intro hp
    refine ⟨h1, habs, fun c hc y hy => ?_⟩
    simp [hp c hc]

/-- **Releasing the block just allocated restores the list.** -/
theorem release_alloc (hh : 0 < hdr) (ht : Tiles hdr lo bs hi) (h : NoAdj bs)
    (ha : Tiling.alloc hdr slack r bs = some (a, bs')) : Tiling.release hdr a bs' = bs := by
  have ht' := ht.alloc ha
  obtain ⟨pre, b, post, rfl, _, hb, rfl, rfl⟩ := alloc_eq_some ha
  obtain ⟨hf, hr⟩ := fits_iff.mp hb
  have hpost : ∀ c ∈ post.head?, c.free = false := by
    intro c hc
    have := (List.isChain_cons.mp (List.isChain_append.mp h).2.1).1 c hc
    simpa [hf] using this
  have heta : (⟨b.addr, b.size, true⟩ : Block) = b := by cases b; simp_all
  unfold carve at ht' ⊢
  split
  · next hs =>
    rw [if_pos hs, List.append_assoc] at ht'
    rw [List.append_assoc]
    refine (ht'.release_eq (b := ⟨b.addr, r, false⟩) hh).trans ?_
    have e : r + (b.size - r - hdr + hdr) = b.size := by omega
    show pre ++ (⟨b.addr, r + (b.size - r - hdr + hdr), true⟩ :: post) = pre ++ b :: post
    rw [e, heta]
  · next hs =>
    rw [if_neg hs, List.append_assoc] at ht'
    rw [List.append_assoc]
    refine (ht'.release_eq (b := ⟨b.addr, b.size, false⟩) hh).trans ?_
    show pre ++ absorb hdr ⟨b.addr, b.size, true⟩ post = pre ++ b :: post
    rw [heta]
    cases post with
    | nil => rfl
    | cons c cs => rw [absorb_used (hpost c rfl)]

end

end Tiling
