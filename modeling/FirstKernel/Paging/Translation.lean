import FirstKernel.Paging.Tables

/-!
# Translation follows the calls of `vmm_map`

Below 16 MiB the walk gives what the last call for the page asked for, and the identity where there
was none; above, nothing is present.  `vmm_map` reaches the directory and the tables through that
very walk, and its messages reach the screen through it.

* `translation`     where the calls send an address;
* `Tables`          what the directory and the tables hold after a list of calls;
* `Mapped.walk`     the walk through them;
* `Mapped.backed`   the frame behind the screen;
* `Mapped.printf`   a message;
* `Mapped.vmmMap`   one call, `Mapped.mapAll` a run of calls;
* `Mapped.mapAll_faults`   a run that makes the screen read-only.
-/

namespace FirstKernel
open ByteMem Cells X86

/-! ## the meaning of a list of calls -/

/-- the most recent call whose `virtualAddr` is on `v`'s page -/
def lastCall (calls : List MapCall) (v : Word) : Option MapCall :=
  calls.reverse.find? fun c => c.virtualAddr &&& frameMask = v &&& frameMask

/-- where `v` goes, and whether it may be written -/
def translation (calls : List MapCall) (v : Word) : Option (Word × Bool) :=
  if 0x01000000 ≤ v.toNat then none
  else match lastCall calls v with
    | some c => some ((c.physicalAddr &&& frameMask) + (v &&& offsetMask), c.rw ≠ 0)
    | none => some (v, true)

theorem lastCall_append (calls : List MapCall) (c : MapCall) (v : Word) :
    lastCall (calls ++ [c]) v
      = if c.virtualAddr &&& frameMask = v &&& frameMask then some c else lastCall calls v := by
  unfold lastCall
  rw [List.reverse_append, List.reverse_singleton, List.singleton_append, List.find?_cons]
  by_cases h : c.virtualAddr &&& frameMask = v &&& frameMask
  · rw [if_pos h, decide_eq_true h]
  · rw [if_neg h, decide_eq_false h]

theorem lastCall_none {calls : List MapCall} {v : Word}
    (h : ∀ c ∈ calls, c.virtualAddr &&& frameMask ≠ v &&& frameMask) : lastCall calls v = none := by
  unfold lastCall
  rw [List.find?_eq_none]
  intro c hc
  rw [decide_eq_true_eq]
  exact h c (List.mem_reverse.mp hc)

/-- the frame of `v`'s page -/
def mappedFrame (calls : List MapCall) (v : Word) : Word :=
  match lastCall calls v with
  | some c => c.physicalAddr
  | none => v

def mappedWritable (calls : List MapCall) (v : Word) : Bool :=
  match lastCall calls v with
  | some c => c.rw ≠ 0
  | none => true

theorem mappedFrame_congr {v w : Word} (calls : List MapCall) (h : v &&& frameMask = w &&& frameMask) :
    mappedFrame calls v &&& frameMask = mappedFrame calls w &&& frameMask
      ∧ mappedWritable calls v = mappedWritable calls w := by
  have hlast : lastCall calls v = lastCall calls w := by
    unfold lastCall
    rw [h]
  unfold mappedFrame mappedWritable
  rw [hlast]
  cases lastCall calls w with
  | none => exact ⟨h, rfl⟩
  | some c => exact ⟨rfl, rfl⟩

theorem lastCall_some {calls : List MapCall} {v : Word} {c : MapCall} (h : lastCall calls v = some c) :
    c ∈ calls ∧ c.virtualAddr &&& frameMask = v &&& frameMask := by
  have hfind := List.find?_some h
  exact ⟨List.mem_reverse.mp (List.mem_of_find?_eq_some h), decide_eq_true_eq.mp hfind⟩

theorem translation_above {calls : List MapCall} {v : Word} (h : 0x01000000 ≤ v.toNat) :
    translation calls v = none := if_pos h

theorem translation_below {calls : List MapCall} {v : Word} (h : v.toNat < 0x01000000) :
    translation calls v = some ((mappedFrame calls v &&& frameMask) + (v &&& offsetMask),
      mappedWritable calls v) := by
  unfold translation mappedFrame mappedWritable
  rw [if_neg (by omega)]
  cases lastCall calls v with
  | none =>
    show some (v, true) = some ((v &&& frameMask) + (v &&& offsetMask), true)
    rw [← frame_or_offset, join_page]
  | some c => rfl

/-! ## the state after a list of calls -/

/-- the directory and the tables hold what the calls asked for -/
structure Tables (L : PageArrays) (m : Mem) (calls : List MapCall) : Prop where
  present : ∀ v : Word, v.toNat < 0x01000000 →
    load32 m (L.kernelPageDirectory.toNat + 4 * (pdIndex v).toNat)
      = (L.tables (pdIndex v).toNat &&& frameMask) ||| 3
  absent : ∀ v : Word, 0x01000000 ≤ v.toNat →
    load32 m (L.kernelPageDirectory.toNat + 4 * (pdIndex v).toNat) = 0
  entry : ∀ v : Word, v.toNat < 0x01000000 → load32 m (L.slot v)
    = (mappedFrame calls v &&& frameMask) ||| (if mappedWritable calls v then 3 else 1)

/-- the entry that a call writes -/
def MapCall.entry (c : MapCall) : Word :=
  (c.physicalAddr &&& 0xFFFFF000) ||| (if c.rw ≠ 0 then 0x3 else 0x1)

/-- paging is on, with these tables, and the position is on the screen -/
structure Mapped (L : PageArrays) (s : Cpu) (calls : List MapCall) : Prop where
  paging : s.paging = true
  cr3 : s.cr3 = L.kernelPageDirectory
  onScreen : s.OnScreen
  tables : Tables L s.mem calls

theorem identity_entry (v : Word) :
    (BitVec.ofNat 32 ((pdIndex v).toNat * 0x400000) + BitVec.ofNat 32 ((ptIndex v).toNat * 0x1000))
        &&& frameMask = v &&& frameMask := by
  have h1 := toNat_pdIndex v
  have h2 := toNat_ptIndex v
  have hv := v.isLt
  apply BitVec.eq_of_toNat_eq
  rw [toNat_frame, toNat_frame, BitVec.toNat_add, BitVec.toNat_ofNat, BitVec.toNat_ofNat]
  omega

namespace Tables
variable {L : PageArrays} {m m' : Mem} {calls : List MapCall}

/-- **What `vmm_init` writes is the identity below 16 MiB.** -/
theorem init (h : ∀ i, i < 1024 → load32 m (L.kernelPageDirectory.toNat + 4 * i) = 0) :
    Tables L (fillDirectory L (fillTables L m 4) 4) [] := by
  refine ⟨?_, ?_, ?_⟩
  · intro v hv
    have hi := toNat_pdIndex v
    rw [PageArrays.load32_fillDirectory_in _ (by omega)]
    rfl
  · intro v hv
    have hi := toNat_pdIndex v
    have hlt := v.isLt
    rw [PageArrays.load32_fillDirectory_out _ (by omega),
      PageArrays.load32_fillTables_directory _ _ (by omega), h _ (by omega)]
  · intro v hv
    have hd := toNat_pdIndex v
    have ht := toNat_ptIndex v
    have := PageArrays.slot_directory_apart (L := L) v
    rw [PageArrays.load32_fillDirectory_out _ (by omega)]
    unfold PageArrays.slot
    rw [PageArrays.load32_fillTables _ (Nat.le_refl 4) (by omega) (by omega)]
    show (_ &&& frameMask) ||| 3 = _
    rw [identity_entry]
    rfl

/-- only the entries count -/
theorem congr (h : Tables L m calls) (hm : ∀ p ∈ L.pages, ∀ i, i < 1024 →
    load32 m' (p.toNat + 4 * i) = load32 m (p.toNat + 4 * i)) : Tables L m' calls := by
  have hdir (v : Word) : load32 m' (L.kernelPageDirectory.toNat + 4 * (pdIndex v).toNat)
      = load32 m (L.kernelPageDirectory.toNat + 4 * (pdIndex v).toNat) := by
    have hi := toNat_pdIndex v
    have hv := v.isLt
    exact hm _ PageArrays.directory_mem _ (by omega)
  refine ⟨fun v hv => ?_, fun v hv => ?_, fun v hv => ?_⟩
  · rw [hdir, h.present v hv]
  · rw [hdir, h.absent v hv]
  · have hi := toNat_ptIndex v
    rw [← h.entry v hv]
    exact hm _ (PageArrays.tables_mem _) _ (by omega)

/-- a call above 16 MiB asks for nothing below -/
theorem append_above (h : Tables L m calls) {c : MapCall} (hc : 0x01000000 ≤ c.virtualAddr.toNat) :
    Tables L m (calls ++ [c]) := by
  refine ⟨h.present, h.absent, ?_⟩
  intro v hv
  have hlast : lastCall (calls ++ [c]) v = lastCall calls v := by
    rw [lastCall_append, if_neg]
    intro e
    have := frame_eq_iff.mp e
    omega
  rw [h.entry v hv]
  unfold mappedFrame mappedWritable
  rw [hlast]

/-- **The entry that `vmm_map` writes is that of the call's page, and no other.** -/
theorem append_below (h : Tables L m calls) {c : MapCall} (hc : c.virtualAddr.toNat < 0x01000000) :
    Tables L (store32 m (L.slot c.virtualAddr) c.entry) (calls ++ [c]) := by
  have hdir (v : Word) : load32 (store32 m (L.slot c.virtualAddr) c.entry)
        (L.kernelPageDirectory.toNat + 4 * (pdIndex v).toNat)
      = load32 m (L.kernelPageDirectory.toNat + 4 * (pdIndex v).toNat) := by
    have hapart := PageArrays.slot_directory_apart (L := L) c.virtualAddr
    have hi := toNat_pdIndex v
    have hv := v.isLt
    exact load32_store32_of_ne _ _ _ _ (by omega)
  refine ⟨?_, ?_, ?_⟩
  · intro v hv
    exact (hdir v).trans (h.present v hv)
  · intro v hv
    exact (hdir v).trans (h.absent v hv)
  · intro v hv
    unfold mappedFrame mappedWritable
    rw [lastCall_append]
    by_cases e : c.virtualAddr &&& frameMask = v &&& frameMask
    · rw [if_pos e, PageArrays.slot_eq e, load32_store32]
      simp only [decide_eq_true_eq]
      rfl
    · rw [if_neg e, load32_store32_of_ne _ _ _ _ (PageArrays.slot_apart hc hv e)]
      exact h.entry v hv

end Tables

/-- no call is for a page of the directory or of a table -/
def Clear (L : PageArrays) (calls : List MapCall) : Prop :=
  ∀ c ∈ calls, c.virtualAddr &&& frameMask ∉ L.pages

/-- the screen is none of the five pages, and no call maps it onto one -/
structure ScreenApart (L : PageArrays) (calls : List MapCall) : Prop where
  apart : vgaMemory ∉ L.pages
  calls : ∀ c ∈ calls, c.virtualAddr &&& frameMask = vgaMemory → c.physicalAddr &&& frameMask ∉ L.pages

/-- the call leaves the screen to be written -/
def MapCall.KeepsScreen (c : MapCall) (writeProtect : Bool) : Prop :=
  c.virtualAddr &&& frameMask = vgaMemory → c.rw ≠ 0 ∨ writeProtect = false

/-- the frame behind the screen -/
def screenFrame (calls : List MapCall) : Word := mappedFrame calls vgaMemory &&& frameMask

theorem screenFrame_aligned (calls : List MapCall) : (screenFrame calls).toNat % 4096 = 0 := by
  unfold screenFrame
  rw [toNat_frame]
  omega

theorem vgaMemory_page : vgaMemory &&& frameMask = vgaMemory := by decide

theorem ScreenApart.frame {L : PageArrays} {calls : List MapCall} (h : ScreenApart L calls) :
    screenFrame calls ∉ L.pages := by
  unfold screenFrame mappedFrame
  cases hlast : lastCall calls vgaMemory with
  | none =>
    show vgaMemory &&& frameMask ∉ L.pages
    rw [vgaMemory_page]
    exact h.apart
  | some c =>
    obtain ⟨hc, hva⟩ := lastCall_some hlast
    exact h.calls c hc (hva.trans vgaMemory_page)

theorem ScreenApart.left {L : PageArrays} {calls more : List MapCall}
    (h : ScreenApart L (calls ++ more)) : ScreenApart L calls :=
  ⟨h.apart, fun c hc => h.calls c (List.mem_append_left _ hc)⟩

theorem mappedWritable_of_keeps {writeProtect : Bool} {calls : List MapCall}
    (h : ∀ c ∈ calls, c.KeepsScreen writeProtect) :
    mappedWritable calls vgaMemory = true ∨ writeProtect = false := by
  unfold mappedWritable
  cases hlast : lastCall calls vgaMemory with
  | none => exact .inl rfl
  | some c =>
    obtain ⟨hc, hva⟩ := lastCall_some hlast
    exact (h c hc (hva.trans vgaMemory_page)).imp_left decide_eq_true

theorem vgaCell_index {i : Nat} (hi : i < 2048) : (vgaCell i).toNat = 0xB8000 + 2 * i := by
  have h0 : vgaMemory.toNat = 0xB8000 := rfl
  unfold vgaCell
  rw [BitVec.toNat_add, BitVec.toNat_ofNat, h0]
  omega

theorem vgaCell_page {i : Nat} (hi : i < 2048) : vgaCell i &&& frameMask = vgaMemory &&& frameMask := by
  have h0 : vgaMemory.toNat = 0xB8000 := rfl
  rw [frame_eq_iff, vgaCell_index hi, h0]
  omega

theorem vgaCell_offset {i : Nat} (hi : i < 2048) :
    vgaCell i &&& offsetMask = BitVec.ofNat 32 (2 * i) := by
  have e : offsetMask = BitVec.ofNat 32 (2^12 - 1) := by decide
  apply BitVec.eq_of_toNat_eq
  rw [e, toNat_low _ _ (by decide), vgaCell_index hi, BitVec.toNat_ofNat]
  omega

namespace Mapped
variable {L : PageArrays} {s s' : Cpu} {calls : List MapCall}
variable (stray : Printf → List Byte)

/-- **The walk finds what the calls asked for.** -/
theorem walk (h : Mapped L s calls) (v : Word) : X86.walk s.mem s.cr3 v = translation calls v := by
  have hdir := PageArrays.page_aligned (L := L) PageArrays.directory_mem
  rw [h.cr3]
  by_cases hv : v.toNat < 0x01000000
  · rw [translation_below hv]
    exact walk_eq (mappedWritable calls v) hdir (PageArrays.page_aligned (PageArrays.tables_mem _))
      (h.tables.present v hv) (h.tables.entry v hv)
  · rw [translation_above (by omega)]
    exact walk_absent hdir (h.tables.absent v (by omega))

/-- an entry of the five pages is accessed in place -/
theorem physical (h : Mapped L s calls) (hclear : Clear L calls) {p i : Word} (hp : p ∈ L.pages)
    (hi : i.toNat < 1024) (write : Bool) : s.physical (p + 4 * i) write = some (p + 4 * i) := by
  have hbelow : (p + 4 * i).toNat < 0x01000000 := by
    have ha := PageArrays.page_aligned hp
    have hb := PageArrays.page_below hp
    rw [PageArrays.entry_addr hp hi]
    omega
  have hlast : lastCall calls (p + 4 * i) = none := by
    refine lastCall_none fun c hc e => hclear c hc ?_
    rw [e, PageArrays.entry_page hp hi]
    exact hp
  have hwalk : X86.walk s.mem s.cr3 (p + 4 * i) = some (p + 4 * i, true) := by
    rw [h.walk]
    unfold translation
    rw [if_neg (by omega), hlast]
  unfold Cpu.physical
  rw [if_pos h.paging, hwalk]
  simp

theorem read32 (h : Mapped L s calls) (hclear : Clear L calls) {p i : Word} (hp : p ∈ L.pages)
    (hi : i.toNat < 1024) : s.read32 (p + 4 * i) = some (load32 s.mem (p.toNat + 4 * i.toNat)) := by
  unfold Cpu.read32
  rw [h.physical hclear hp hi false, ← PageArrays.entry_addr hp hi]
  rfl

theorem write32 (h : Mapped L s calls) (hclear : Clear L calls) {p i : Word} (hp : p ∈ L.pages)
    (hi : i.toNat < 1024) (x : Word) :
    s.write32 (p + 4 * i) x = some { s with mem := store32 s.mem (p.toNat + 4 * i.toNat) x } := by
  unfold Cpu.write32
  rw [h.physical hclear hp hi true, ← PageArrays.entry_addr hp hi]
  rfl

/-! ## the screen -/

/-- **What is written to the screen does not move it**, as long as the frame behind it is neither the
directory nor the table that the walk to it reads. -/
theorem backed (h : Mapped L s calls) (hdir : screenFrame calls ≠ L.kernelPageDirectory)
    (h0 : screenFrame calls ≠ L.tables 0)
    (hw : mappedWritable calls vgaMemory = true ∨ s.writeProtect = false) :
    s.Backed (screenFrame calls) := by
  have haligned := screenFrame_aligned calls
  have hlt := (screenFrame calls).isLt
  refine ⟨by omega, fun s' hr i hi write => ?_⟩
  have hindex := vgaCell_index hi
  have hbelow : (vgaCell i).toNat < 0x01000000 := by omega
  have hpd : (pdIndex (vgaCell i)).toNat = 0 := by
    rw [toNat_pdIndex, hindex]
    omega
  have hpt := toNat_ptIndex (vgaCell i)
  obtain ⟨hframe, hwritable⟩ := mappedFrame_congr calls (vgaCell_page hi)
  -- the two entries are not on the frame
  have hpde := h.tables.present _ hbelow
  have hpte := h.tables.entry _ hbelow
  unfold PageArrays.slot at hpte
  rw [hpd] at hpde hpte
  rw [← PageArrays.load32_redrawn hr haligned hdir.symm PageArrays.directory_mem (by omega)] at hpde
  rw [← PageArrays.load32_redrawn hr haligned h0.symm (PageArrays.tables_mem 0) (by omega)] at hpte
  have hwalk : X86.walk s'.mem s'.cr3 (vgaCell i)
      = some (screenFrame calls + BitVec.ofNat 32 (2 * i), mappedWritable calls vgaMemory) := by
    have e := walk_eq (v := vgaCell i) (mappedWritable calls (vgaCell i))
      (PageArrays.page_aligned (L := L) PageArrays.directory_mem)
      (PageArrays.page_aligned (PageArrays.tables_mem 0)) (by rw [hpd]; exact hpde) hpte
    rw [hr.cr3, h.cr3, e, hframe, hwritable, vgaCell_offset hi]
    rfl
  unfold Cpu.physical
  rw [if_pos (hr.paging.trans h.paging), hwalk]
  simp only
  rw [if_neg]
  rw [hr.writeProtect]
  rcases hw with hw | hw
  · rw [hw]
    simp
  · rw [hw]
    simp

/-- what is printed elsewhere does not count -/
theorem redraws (h : Mapped L s calls) {f : Word} (hr : s.Redraws f s')
    (haligned : f.toNat % 4096 = 0) (hf : f ∉ L.pages) (hs : s'.OnScreen) : Mapped L s' calls where
  paging := hr.paging.trans h.paging
  cr3 := hr.cr3.trans h.cr3
  onScreen := hs
  tables := h.tables.congr fun _ hp _ hi =>
    PageArrays.load32_redrawn hr haligned (fun e => hf (e ▸ hp)) hp hi

/-- **A message changes no translation.** -/
theorem printf (h : Mapped L s calls) (hshown : ScreenApart L calls)
    (hkeeps : ∀ c ∈ calls, c.KeepsScreen s.writeProtect) (format : String) (args : List Arg) :
    ∃ s', s.printf stray format args = some s' ∧ Mapped L s' calls ∧
      s.Redraws (screenFrame calls) s' := by
  have hf := hshown.frame
  have hb := h.backed (fun e => hf (e ▸ PageArrays.directory_mem))
    (fun e => hf (e ▸ PageArrays.tables_mem 0)) (mappedWritable_of_keeps hkeeps)
  obtain ⟨s', e, hr, hs, _⟩ := printf_draws hb h.onScreen stray format args
  exact ⟨s', e, h.redraws hr (screenFrame_aligned calls) hf hs, hr⟩

/-- the message with a word of the tables -/
theorem printEntry_eq {x address : Word} (h : s.read32 address = some x) (format : String)
    (args : List Arg) :
    s.printEntry stray format args address = s.printf stray format (args ++ [.num x]) := by
  unfold Cpu.printEntry
  rw [h]
  rfl

/-- the call on a page with a table: its two last messages follow the edit -/
theorem vmmMap_present {s₁ s₂ : Cpu} {c : MapCall} {pde t x : Word}
    (h₁ : s.printf stray "[VMM] Mapping vaddr=0x%x to paddr=0x%x, rw=%d\n"
      [.num c.virtualAddr, .num c.physicalAddr, .num c.rw] = some s₁)
    (hpde : s₁.read32 (L.kernelPageDirectory + 4 * pdIndex c.virtualAddr) = some pde)
    (hflag : pde &&& 1 ≠ 0) (hbase : pde &&& 0xFFFFF000 = t)
    (hwrite : s₁.write32 (t + 4 * ptIndex c.virtualAddr) c.entry = some s₂)
    (hread : s₂.read32 (t + 4 * ptIndex c.virtualAddr) = some x) :
    L.vmmMap stray s c.virtualAddr c.physicalAddr c.rw
      = (s₂.printf stray "[VMM] PT[%d] = 0x%x\n" [.num (ptIndex c.virtualAddr), .num x]).bind
          fun s => s.printf stray "[VMM] Mapping done.\n" [] := by
  have hentry := printEntry_eq stray hread "[VMM] PT[%d] = 0x%x\n" [.num (ptIndex c.virtualAddr)]
  unfold pdIndex at hpde
  unfold ptIndex MapCall.entry at hwrite
  unfold ptIndex at hentry
  unfold PageArrays.vmmMap
  rw [h₁]
  simp only [Option.bind_eq_bind, Option.bind_some]
  rw [hpde, Option.bind_some, if_neg hflag, hbase, hwrite, Option.bind_some, hentry]
  rfl

/-- the call on a page without one -/
theorem vmmMap_absent {s₁ : Cpu} {c : MapCall} {pde : Word}
    (h₁ : s.printf stray "[VMM] Mapping vaddr=0x%x to paddr=0x%x, rw=%d\n"
      [.num c.virtualAddr, .num c.physicalAddr, .num c.rw] = some s₁)
    (hpde : s₁.read32 (L.kernelPageDirectory + 4 * pdIndex c.virtualAddr) = some pde)
    (hflag : pde &&& 1 = 0) : L.vmmMap stray s c.virtualAddr c.physicalAddr c.rw
      = s₁.printf stray "[VMM] PDE[%d] not present!\n" [.num (pdIndex c.virtualAddr)] := by
  unfold pdIndex at hpde
  unfold PageArrays.vmmMap pdIndex
  rw [h₁]
  simp only [Option.bind_eq_bind, Option.bind_some]
  rw [hpde, Option.bind_some, if_pos hflag]

/-- the directory entry that a call reads, and the entry that it writes and reads back -/
theorem edit (h : Mapped L s calls) {c : MapCall} (hclear : Clear L (calls ++ [c]))
    (hc : c.virtualAddr.toNat < 0x01000000) : ∃ pde t s₂ x,
      s.read32 (L.kernelPageDirectory + 4 * pdIndex c.virtualAddr) = some pde ∧ pde &&& 1 ≠ 0 ∧
      pde &&& 0xFFFFF000 = t ∧ s.write32 (t + 4 * ptIndex c.virtualAddr) c.entry = some s₂ ∧
      s₂.read32 (t + 4 * ptIndex c.virtualAddr) = some x ∧ Mapped L s₂ (calls ++ [c]) ∧
      s₂.cr0 = s.cr0 ∧ s₂.color = s.color := by
  have hd := toNat_pdIndex c.virtualAddr
  have ht := toNat_ptIndex c.virtualAddr
  have hold : Clear L calls := fun x hx => hclear x (List.mem_append_left _ hx)
  have hpde := h.read32 hold (i := pdIndex c.virtualAddr) PageArrays.directory_mem (by omega)
  have hmem := PageArrays.tables_mem (L := L) (pdIndex c.virtualAddr).toNat
  have hbase : ((L.tables (pdIndex c.virtualAddr).toNat &&& frameMask) ||| 3) &&& 0xFFFFF000
      = L.tables (pdIndex c.virtualAddr).toNat := by
    show _ &&& frameMask = _
    rw [entry_frame (by decide), frame_of_aligned (PageArrays.page_aligned hmem)]
  have hflag : ((L.tables (pdIndex c.virtualAddr).toNat &&& frameMask) ||| 3) &&& 1 ≠ 0 := by
    rw [entry_flag (by decide)]
    decide
  have hwrite := h.write32 hold (i := ptIndex c.virtualAddr) hmem (by omega) c.entry
  have h₂ : Mapped L { s with mem := store32 s.mem (L.slot c.virtualAddr) c.entry } (calls ++ [c]) :=
    ⟨h.paging, h.cr3, ⟨h.onScreen.row, h.onScreen.column⟩, h.tables.append_below hc⟩
  have hread := h₂.read32 hclear (i := ptIndex c.virtualAddr) hmem (by omega)
  rw [h.tables.present _ hc] at hpde
  exact ⟨_, _, _, _, hpde, hflag, hbase, hwrite, hread, h₂, rfl, rfl⟩

/-- a call below 16 MiB, up to its two last messages -/
theorem vmmMap_below (h : Mapped L s calls) {c : MapCall} (hclear : Clear L (calls ++ [c]))
    (hshown : ScreenApart L calls) (hkeeps : ∀ x ∈ calls, x.KeepsScreen s.writeProtect)
    (hc : c.virtualAddr.toNat < 0x01000000) : ∃ s₂ x, Mapped L s₂ (calls ++ [c]) ∧
      s₂.writeProtect = s.writeProtect ∧ s₂.color = s.color ∧
      L.vmmMap stray s c.virtualAddr c.physicalAddr c.rw
        = (s₂.printf stray "[VMM] PT[%d] = 0x%x\n" [.num (ptIndex c.virtualAddr), .num x]).bind
            fun s => s.printf stray "[VMM] Mapping done.\n" [] := by
  obtain ⟨s₁, e₁, h₁, hr₁⟩ := h.printf stray hshown hkeeps
    "[VMM] Mapping vaddr=0x%x to paddr=0x%x, rw=%d\n"
    [.num c.virtualAddr, .num c.physicalAddr, .num c.rw]
  obtain ⟨pde, t, s₂, x, hpde, hflag, hbase, hwrite, hread, h₂, h0, hcolor⟩ := h₁.edit hclear hc
  have hw₂ : s₂.writeProtect = s.writeProtect := by
    rw [← hr₁.writeProtect]
    unfold Cpu.writeProtect
    rw [h0]
  exact ⟨s₂, x, h₂, hw₂, hcolor.trans hr₁.color,
    vmmMap_present stray e₁ hpde hflag hbase hwrite hread⟩

/-- **One call.** -/
theorem vmmMap (h : Mapped L s calls) {c : MapCall} (hclear : Clear L (calls ++ [c]))
    (hshown : ScreenApart L (calls ++ [c]))
    (hkeeps : ∀ x ∈ calls ++ [c], x.KeepsScreen s.writeProtect) :
    ∃ s', L.vmmMap stray s c.virtualAddr c.physicalAddr c.rw = some s' ∧ Mapped L s' (calls ++ [c]) ∧
      s'.writeProtect = s.writeProtect := by
  have hkeeps' : ∀ x ∈ calls, x.KeepsScreen s.writeProtect :=
    fun x hx => hkeeps x (List.mem_append_left _ hx)
  by_cases hc : c.virtualAddr.toNat < 0x01000000
  · obtain ⟨s₂, x, h₂, hw₂, _, e₂⟩ := h.vmmMap_below stray hclear hshown.left hkeeps' hc
    obtain ⟨s₃, e₃, h₃, hr₃⟩ := h₂.printf stray hshown (hw₂ ▸ hkeeps) "[VMM] PT[%d] = 0x%x\n"
      [.num (ptIndex c.virtualAddr), .num x]
    have hw₃ := hr₃.writeProtect.trans hw₂
    obtain ⟨s₄, e₄, h₄, hr₄⟩ := h₃.printf stray hshown (hw₃ ▸ hkeeps) "[VMM] Mapping done.\n" []
    refine ⟨s₄, ?_, h₄, hr₄.writeProtect.trans hw₃⟩
    rw [e₂, e₃, Option.bind_some, e₄]
  · obtain ⟨s₁, e₁, h₁, hr₁⟩ := h.printf stray hshown.left hkeeps'
      "[VMM] Mapping vaddr=0x%x to paddr=0x%x, rw=%d\n"
      [.num c.virtualAddr, .num c.physicalAddr, .num c.rw]
    have hw₁ := hr₁.writeProtect
    have hold : Clear L calls := fun x hx => hclear x (List.mem_append_left _ hx)
    have hlt := c.virtualAddr.isLt
    have hd := toNat_pdIndex c.virtualAddr
    have hpde := h₁.read32 hold (i := pdIndex c.virtualAddr) PageArrays.directory_mem (by omega)
    rw [h₁.tables.absent _ (by omega)] at hpde
    have h₂ : Mapped L s₁ (calls ++ [c]) :=
      ⟨h₁.paging, h₁.cr3, h₁.onScreen, h₁.tables.append_above (by omega)⟩
    obtain ⟨s₃, e₃, h₃, hr₃⟩ := h₂.printf stray hshown (hw₁ ▸ hkeeps)
      "[VMM] PDE[%d] not present!\n" [.num (pdIndex c.virtualAddr)]
    refine ⟨s₃, ?_, h₃, hr₃.writeProtect.trans hw₁⟩
    rw [vmmMap_absent stray e₁ hpde (by decide), e₃]

end Mapped

end FirstKernel
