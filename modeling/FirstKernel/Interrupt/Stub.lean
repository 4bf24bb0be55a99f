import FirstKernel.Machine
import Mathlib.Tactic.IntervalCases
import FirstKernel.Lib.Ia32List

/-!
# `isr_stub.s`: from the gate to the handler and back

Every stub pushes its number, an error code first where it takes the processor to push none, and jumps
to a common part that saves the registers, calls a C function with a pointer to them and restores them.

* `isrStubTable`, `irqStubTable`, `commonStub`   the code, in the order of the source;
* `Registers.read`                              `registers_t`, the frame as the C function reads it;
* `commonStub_spec`                             the common part;
* `service_spec`, `service_ends`                the whole service, seen from the interrupted code;
* `interrupt_transparent`                       both.
-/

namespace FirstKernel
open ByteMem Ia32

/-- the functions that the stubs call -/
inductive CFunction where
  | isrHandler
  | irqHandler
deriving DecidableEq, Repr

/-- the addresses of the two common parts -/
structure CommonStubs where
  isr : Word
  irq : Word

/-- `cli; pushl $0; pushl $n; jmp target` -/
def dummyStub (target : Word) (n : Nat) : List (Instr CFunction) :=
  [.cli, .pushl 0, .pushl (BitVec.ofNat 32 n), .jmp target]

/-- `cli; pushl $n; jmp target`, behind an error code of the processor -/
def codedStub (target : Word) (n : Nat) : List (Instr CFunction) :=
  [.cli, .pushl (BitVec.ofNat 32 n), .jmp target]

/-- `isr_common_stub` and `irq_common_stub` -/
def commonStub (f : CFunction) : List (Instr CFunction) :=
  [.cli, .pusha, .movwFrom .ds, .pushr .eax,
    .movw 0x10, .movwTo .ds, .movwTo .es, .movwTo .fs, .movwTo .gs,
    .pushr .esp, .call f, .addl 4 .esp,
    .popr .eax, .movwTo .ds, .movwTo .es, .movwTo .fs, .movwTo .gs,
    .popa, .addl 8 .esp, .sti, .iret]

def isrStubTable (c : CommonStubs) : List (List (Instr CFunction)) :=
  [dummyStub c.isr 0, dummyStub c.isr 1, dummyStub c.isr 2, dummyStub c.isr 3,
    dummyStub c.isr 4, dummyStub c.isr 5, dummyStub c.isr 6, dummyStub c.isr 7,
    codedStub c.isr 8, dummyStub c.isr 9, codedStub c.isr 10, codedStub c.isr 11,
    codedStub c.isr 12, codedStub c.isr 13, codedStub c.isr 14, dummyStub c.isr 15,
    dummyStub c.isr 16, codedStub c.isr 17, dummyStub c.isr 18, dummyStub c.isr 19,
    dummyStub c.isr 20, dummyStub c.isr 21, dummyStub c.isr 22, dummyStub c.isr 23,
    dummyStub c.isr 24, dummyStub c.isr 25, dummyStub c.isr 26, dummyStub c.isr 27,
    dummyStub c.isr 28, dummyStub c.isr 29, codedStub c.isr 30, dummyStub c.isr 31]

def irqStubTable (c : CommonStubs) : List (List (Instr CFunction)) :=
  [dummyStub c.irq 32, dummyStub c.irq 33, dummyStub c.irq 34, dummyStub c.irq 35,
    dummyStub c.irq 36, dummyStub c.irq 37, dummyStub c.irq 38, dummyStub c.irq 39,
    dummyStub c.irq 40, dummyStub c.irq 41, dummyStub c.irq 42, dummyStub c.irq 43,
    dummyStub c.irq 44, dummyStub c.irq 45, dummyStub c.irq 46, dummyStub c.irq 47]

/-- what runs from the entry of stub `v` to its `iret` -/
def service (c : CommonStubs) (v : Nat) : List (Instr CFunction) :=
  if v < 32 then (isrStubTable c).getD v [] ++ commonStub .isrHandler
  else (irqStubTable c).getD (v - 32) [] ++ commonStub .irqHandler

/-- `registers_t` -/
structure Registers where
  ds : Word
  edi : Word
  esi : Word
  ebp : Word
  esp : Word
  ebx : Word
  edx : Word
  ecx : Word
  eax : Word
  intNo : Word
  errCode : Word
  eip : Word
  cs : Word
  eflags : Word
  useresp : Word
  ss : Word
deriving DecidableEq, Repr

def Registers.read (m : Mem) (p : Word) : Registers where
  ds := load32 m p.toNat
  edi := load32 m (p.toNat + 4)
  esi := load32 m (p.toNat + 8)
  ebp := load32 m (p.toNat + 12)
  esp := load32 m (p.toNat + 16)
  ebx := load32 m (p.toNat + 20)
  edx := load32 m (p.toNat + 24)
  ecx := load32 m (p.toNat + 28)
  eax := load32 m (p.toNat + 32)
  intNo := load32 m (p.toNat + 36)
  errCode := load32 m (p.toNat + 40)
  eip := load32 m (p.toNat + 44)
  cs := load32 m (p.toNat + 48)
  eflags := load32 m (p.toNat + 52)
  useresp := load32 m (p.toNat + 56)
  ss := load32 m (p.toNat + 60)

/-- the low half is the data segment, the high half is that of `eax` -/
def dsWord (g : Reg → Word) (q : SegReg → BitVec 16) : Word := (g .eax).extractLsb' 16 16 ++ q .ds

/-- the frame over the five words `n`, `err`, `eip`, `cs`, `fl` that end at `base` -/
def frameOf (m : Mem) (base : Word) (g : Reg → Word) (q : SegReg → BitVec 16) (n err eip cs fl : Word) :
    Registers where
  ds := dsWord g q
  edi := g .edi
  esi := g .esi
  ebp := g .ebp
  esp := base - 20
  ebx := g .ebx
  edx := g .edx
  ecx := g .ecx
  eax := g .eax
  intNo := n
  errCode := err
  eip := eip
  cs := cs
  eflags := fl
  useresp := load32 m base.toNat
  ss := load32 m (base.toNat + 4)

section
variable {σ : Type} {b : Board CFunction σ} {s s' t : State σ} {m : Mem} {base n err eip cs fl : Word}
  {p : Plan} {f : CFunction}

/-! ## the common part -/

def commonEntry : List (Instr CFunction) :=
  [.cli, .pusha, .movwFrom .ds, .pushr .eax,
    .movw 0x10, .movwTo .ds, .movwTo .es, .movwTo .fs, .movwTo .gs, .pushr .esp]

def commonExit : List (Instr CFunction) :=
  [.addl 4 .esp, .popr .eax, .movwTo .ds, .movwTo .es, .movwTo .fs, .movwTo .gs,
    .popa, .addl 8 .esp, .sti]

theorem commonStub_parts (f : CFunction) :
    commonStub f = commonEntry ++ [.call f] ++ commonExit ++ [.iret] := rfl

theorem low_half (a b : BitVec 16) : (a ++ b).setWidth 16 = b := by
  apply BitVec.eq_of_getLsbD_eq
  intro i hi
  rw [BitVec.getLsbD_setWidth, BitVec.getLsbD_append]
  simp [hi]

/-- the words between the call and the interrupted code, with the argument `w` -/
def saved (w base : Word) (g : Reg → Word) (q : SegReg → BitVec 16) (n err eip cs fl : Word) : List Word :=
  [w, dsWord g q, g .edi, g .esi, g .ebp, base - 20, g .ebx, g .edx, g .ecx, g .eax, n, err, eip, cs, fl]

/-- what the pointer handed to the C function points to -/
theorem read_frame {ptr w : Word} {g : Reg → Word} {q : SegReg → BitVec 16}
    (h : OnStack m base (saved ptr base g q n err eip cs fl) s)
    (hw : w.toNat = (s.gpr .esp).toNat + 4) :
    Registers.read s.mem w = frameOf m base g q n err eip cs fl := by
  have hdepth := h.depth
  obtain ⟨_, h0, h1, h2, h3, h4, h5, h6, h7, h8, h9, h10, h11, h12, h13, _⟩ := h.words
  simp only [saved, List.length_cons, List.length_nil] at hdepth
  have habove : ∀ a, base.toNat ≤ a → load32 s.mem a = load32 m a := fun a ha =>
    load32_congr fun x hx _ => h.above x (by omega)
  have huse := habove base.toNat (Nat.le_refl _)
  have hss := habove (base.toNat + 4) (by omega)
  unfold Registers.read frameOf
  rw [hw]
  simp only [Nat.add_assoc, Nat.reduceAdd] at h0 h1 h2 h3 h4 h5 h6 h7 h8 h9 h10 h11 h12 h13 ⊢
  rw [h0, h1, h2, h3, h4, h5, h6, h7, h8, h9, h10, h11, h12, h13,
    show (s.gpr .esp).toNat + 60 = base.toNat by omega, huse,
    show (s.gpr .esp).toNat + 64 = base.toNat + 4 by omega, hss]

/-- the segment registers behind `iret`: `es`, `fs` and `gs` come back as `ds` -/
def restoredSeg (q : SegReg → BitVec 16) (cs : BitVec 16) : SegReg → BitVec 16
  | .cs => cs
  | .ss => q .ss
  | .ds | .es | .fs | .gs => q .ds

/-- the state behind `iret` -/
structure Resumed (m : Mem) (base : Word) (g : Reg → Word) (q : SegReg → BitVec 16) (eip cs fl : Word)
    (s : State σ) : Prop where
  gpr : ∀ r, r ≠ .esp → s.gpr r = g r
  esp : s.gpr .esp = base
  seg : s.seg = restoredSeg q (cs.setWidth 16)
  eip : s.eip = eip
  eflags : s.eflags = fl
  mem : ∀ x, base.toNat ≤ x → s.mem x = m x

variable {g : Reg → Word} {q : SegReg → BitVec 16}

def kernelData (q : SegReg → BitVec 16) : SegReg → BitVec 16
  | .cs => q .cs
  | .ss => q .ss
  | .ds | .es | .fs | .gs => 0x10

theorem commonEntry_list (base : Word) (g : Reg → Word) (q : SegReg → BitVec 16) (n err eip cs fl : Word) :
    ∃ p', onLists base commonEntry ⟨g, q, [n, err, eip, cs, fl]⟩ = some p' ∧
      p'.seg = kernelData q ∧ p'.words = saved (base - 56) base g q n err eip cs fl := by
  refine ⟨_, rfl, ?_, ?_⟩
  · funext r
    cases r <;> simp [Plan.push, Plan.setReg, kernelData, low_half]
  · simp [Plan.push, Plan.setReg, Plan.get, dsWord, saved]

theorem commonExit_list (w base : Word) (g g' : Reg → Word) {q q' : SegReg → BitVec 16}
    (hss : q' .ss = q .ss) (n err eip cs fl : Word) :
    ∃ p', onLists base commonExit ⟨g', q', saved w base g q n err eip cs fl⟩ = some p' ∧
      (∀ r, r ≠ .esp → p'.gpr r = g r) ∧ p'.seg = restoredSeg q (q' .cs) ∧ p'.words = [eip, cs, fl] := by
  refine ⟨_, rfl, fun r hr => ?_, ?_, rfl⟩
  · cases r <;> simp [Plan.setReg] at hr ⊢
  · funext r
    cases r <;> simp [Plan.setReg, dsWord, low_half, restoredSeg, hss]

/-- `iret` takes the three words off -/
theorem iret_resumes (h : Follows m base p s) (hp : p.words = [eip, cs, fl])
    (hg : ∀ r, r ≠ .esp → p.gpr r = g r) (hq : p.seg = restoredSeg q (p.seg .cs)) :
    Resumed m base g q eip cs fl s.iret := by
  have hstack := h.stack
  rw [hp] at hstack
  have hend := hstack.drop.drop.drop
  have hesp : (s.drop.drop.drop).gpr .esp = base := BitVec.eq_of_toNat_eq (by simpa using hend.depth)
  refine ⟨fun r hr => ?_, hesp, ?_, hstack.top, hstack.drop.drop.top, hend.above⟩
  · rw [← hg r hr, ← h.gpr r hr]
    show s.drop.drop.drop.gpr r = s.gpr r
    simp [State.drop, State.setReg, Function.update_of_ne hr]
  · show Function.update s.seg .cs (s.drop.top.setWidth 16) = _
    rw [hstack.drop.top, h.seg, hq]
    funext r
    cases r <;> rfl

/-- **The common part hands the saved registers to the C function and puts them back.** -/
theorem commonStub_spec (h : Path b (commonStub f) s s')
    (hw : Follows m base ⟨g, q, [n, err, eip, cs, fl]⟩ s) (hroom : 60 ≤ base.toNat) :
    Resumed m base g q eip cs fl s' ∧ ∃ mem ptr, b.effect f mem ptr s.world s'.world ∧
      Registers.read mem ptr = frameOf m base g q n err eip cs fl := by
  rw [commonStub_parts] at h
  obtain ⟨t3, h, next4, t4, _, h4, rfl⟩ := path_append.mp h
  obtain ⟨t2, h, h3⟩ := path_append.mp h
  obtain ⟨t1, h1, next2, t2', _, h2, rfl⟩ := path_append.mp h
  obtain ⟨p1, e1, hq1, hp1⟩ := commonEntry_list base g q n err eip cs fl
  obtain ⟨hf1, hworld1⟩ := path_follows hw e1 (by simpa [commonEntry, Instr.pushes] using hroom) h1
  have hcall : Returns (b.effect f) (t1.step next2) t2 := h2
  have hstack := (hf1.step next2).stack
  rw [hp1] at hstack
  have hdepth := hstack.depth
  -- the call
  have hptr : (base - 56).toNat = ((t1.step next2).gpr .esp).toNat + 4 := by
    simp only [saved, List.length_cons, List.length_nil] at hdepth
    bv_omega
  have hread := read_frame hstack hptr
  obtain ⟨w, hstack2⟩ := hstack.returns hcall
  have hworld := hcall.world
  rw [hstack.top] at hworld
  -- back
  have hseg : t2.seg = kernelData q := by
    rw [hcall.seg, ← hq1]
    exact hf1.seg
  have hf2 : Follows m base ⟨t2.gpr, t2.seg, saved w base g q n err eip cs fl⟩ t2 :=
    ⟨fun _ _ => rfl, rfl, hstack2⟩
  obtain ⟨p3, e3, hg3, hq3, hp3⟩ := commonExit_list w base g t2.gpr
    (by rw [hseg]; rfl : t2.seg .ss = q .ss) n err eip cs fl
  obtain ⟨hf3, hworld3⟩ := path_follows hf2 e3 (by simpa [commonExit, Instr.pushes, saved] using hroom) h3
  have hcs : p3.seg = restoredSeg q (p3.seg .cs) := by
    rw [hq3]
    rfl
  have hres := iret_resumes (hf3.step next4) hp3 hg3 hcs
  refine ⟨?_, t1.mem, base - 56, ?_, hread⟩
  · rw [show s' = (t3.step next4).iret from h4]
    exact hres
  · rw [show s' = (t3.step next4).iret from h4, ← hworld1]
    show b.effect f t1.mem (base - 56) t1.world t3.world
    rw [hworld3]
    exact hworld

/-- the common part ends, if the C function returns -/
theorem commonStub_ends (hl : Loaded b.code s.eip (commonStub f))
    (hw : Follows m base ⟨g, q, [n, err, eip, cs, fl]⟩ s) (hroom : 60 ≤ base.toNat)
    (hret : ∀ mem ptr, Registers.read mem ptr = frameOf m base g q n err eip cs fl →
      ∃ w, b.effect f mem ptr s.world w) : ∃ s', Path b (commonStub f) s s' := by
  rw [commonStub_parts, List.append_assoc, List.append_assoc] at hl
  obtain ⟨t1, h1, next2, hc2, hl2⟩ := path_exists commonEntry _ hl (by simp [commonEntry, Instr.Plain])
  obtain ⟨p1, e1, hq1, hp1⟩ := commonEntry_list base g q n err eip cs fl
  obtain ⟨hf1, hworld1⟩ := path_follows hw e1 (by simpa [commonEntry, Instr.pushes] using hroom) h1
  have hstack := (hf1.step next2).stack
  rw [hp1] at hstack
  have hdepth := hstack.depth
  have hptr : (base - 56).toNat = ((t1.step next2).gpr .esp).toNat + 4 := by
    simp only [saved, List.length_cons, List.length_nil] at hdepth
    bv_omega
  obtain ⟨w, hw'⟩ := hret (t1.step next2).mem (base - 56) (read_frame hstack hptr)
  have hcall : Returns (b.effect f) (t1.step next2) { t1.step next2 with world := w } := by
    refine ⟨fun _ _ => rfl, rfl, rfl, rfl, rfl, fun _ _ => rfl, ?_⟩
    rw [hstack.top]
    show b.effect f t1.mem (base - 56) t1.world w
    rw [hworld1]
    exact hw'
  have hplain : ∀ i ∈ commonExit, i.Plain := by simp [commonExit, Instr.Plain]
  obtain ⟨t3, h3, next4, hc4, _⟩ := path_exists (b := b) (s := { t1.step next2 with world := w })
    commonExit [.iret] hl2 hplain
  rw [commonStub_parts]
  refine ⟨(t3.step next4).iret, path_append.mpr ⟨t3, path_append.mpr ⟨_, path_append.mpr ⟨t1, h1, ?_⟩, h3⟩,
    next4, _, hc4, rfl, rfl⟩⟩
  exact ⟨next2, _, hc2, hcall, rfl⟩

/-! ## the stubs -/

/-- the vectors whose stubs rely on an error code of the processor -/
def codedVectors : List Nat := [8, 10, 11, 12, 13, 14, 17, 30]

/-- entry through a gate, with the error code that the processor pushes for some exceptions -/
def enter (s : State σ) (selector : BitVec 16) (offset : Word) (w : σ) (code : Option Word) : State σ :=
  match code with
  | none => s.deliver selector offset w
  | some err => (s.deliver selector offset w).push err

def calls (v : Nat) : CFunction := if v < 32 then .isrHandler else .irqHandler

def commonOf (c : CommonStubs) (v : Nat) : Word := if v < 32 then c.isr else c.irq

theorem service_eq (c : CommonStubs) {v : Nat} (hv : v < 48) : service c v
    = (if v ∈ codedVectors then codedStub (commonOf c v) v else dummyStub (commonOf c v) v)
      ++ commonStub (calls v) := by
  interval_cases v <;> rfl

/-- the words that the processor and the stub push -/
theorem stub_follows {c : CommonStubs} {v : Nat} {code : Option Word} {selector : BitVec 16}
    {offset : Word} {w : σ} (hc : code.isSome = decide (v ∈ codedVectors)) (hroom : 60 ≤ (s.gpr .esp).toNat)
    (h : Path b (if v ∈ codedVectors then codedStub (commonOf c v) v else dummyStub (commonOf c v) v)
      (enter s selector offset w code) t) :
    Follows s.mem (s.gpr .esp) ⟨s.gpr, Function.update s.seg .cs selector,
        [BitVec.ofNat 32 v, code.getD 0, s.eip, (s.seg .cs).setWidth 32, s.eflags]⟩ t ∧ t.world = w := by
  have hdeliver : Follows s.mem (s.gpr .esp) ⟨s.gpr, Function.update s.seg .cs selector,
      [s.eip, (s.seg .cs).setWidth 32, s.eflags]⟩ (s.deliver selector offset w) := by
    have h3 := (((Follows.start s).push (by simp; omega) s.eflags).push (by simp [Plan.push]; omega)
      ((s.seg .cs).setWidth 32)).push (by simp [Plan.push]; omega) s.eip
    exact ⟨h3.gpr, rfl, h3.stack.congr rfl fun _ _ => rfl⟩
  cases code with
  | none =>
    rw [if_neg (by simpa using hc)] at h
    obtain ⟨hf, hw⟩ := path_follows hdeliver rfl (by simp [dummyStub, Instr.pushes]; omega) h
    exact ⟨hf, hw⟩
  | some err =>
    rw [if_pos (by simpa using hc)] at h
    have herr := hdeliver.push (by simp; omega) err
    obtain ⟨hf, hw⟩ := path_follows herr rfl (by simp [codedStub, Instr.pushes, Plan.push]; omega) h
    exact ⟨hf, hw⟩

/-- the interrupted code finds its registers, its flags and its stack as they were, and in `es`, `fs` and
`gs` what it has in `ds` -/
structure Unnoticed (s s' : State σ) : Prop where
  gpr : s'.gpr = s.gpr
  seg : s'.seg = restoredSeg s.seg (s.seg .cs)
  eip : s'.eip = s.eip
  eflags : s'.eflags = s.eflags
  mem : ∀ x, (s.gpr .esp).toNat ≤ x → s'.mem x = s.mem x

/-- the frame of an interrupt that `s` lets in -/
def frameAt (s : State σ) (v : Nat) (code : Option Word) : Registers :=
  frameOf s.mem (s.gpr .esp) s.gpr s.seg (BitVec.ofNat 32 v) (code.getD 0) s.eip
    ((s.seg .cs).setWidth 32) s.eflags

variable {c : CommonStubs} {v : Nat} {code : Option Word} {selector : BitVec 16} {offset : Word} {w : σ}

theorem service_spec (hv : v < 48) (hc : code.isSome = decide (v ∈ codedVectors))
    (hroom : 60 ≤ (s.gpr .esp).toNat)
    (h : Path b (service c v) (enter s selector offset w code) s') :
    Unnoticed s s' ∧ ∃ mem ptr, b.effect (calls v) mem ptr w s'.world ∧
      Registers.read mem ptr = frameAt s v code := by
  rw [service_eq c hv] at h
  obtain ⟨t, h1, h2⟩ := path_append.mp h
  obtain ⟨hf, hw⟩ := stub_follows hc hroom h1
  obtain ⟨hres, mem, ptr, heff, hread⟩ := commonStub_spec h2 hf hroom
  rw [hw] at heff
  refine ⟨⟨?_, ?_, hres.eip, hres.eflags, hres.mem⟩, mem, ptr, heff, hread⟩
  · funext r
    by_cases hr : r = .esp
    · rw [hr, hres.esp]
    · exact hres.gpr r hr
  · rw [hres.seg]
    have hlow : ((s.seg .cs).setWidth 32).setWidth 16 = s.seg .cs := by
      rw [BitVec.setWidth_setWidth_of_le _ (by decide), BitVec.setWidth_eq]
    rw [hlow]
    funext r
    cases r <;> rfl

theorem service_ends (hv : v < 48) (hc : code.isSome = decide (v ∈ codedVectors))
    (hroom : 60 ≤ (s.gpr .esp).toNat) (hl : Loaded b.code offset (service c v))
    (hret : ∀ mem ptr, Registers.read mem ptr = frameAt s v code →
      ∃ w', b.effect (calls v) mem ptr w w') :
    ∃ s', Path b (service c v) (enter s selector offset w code) s' := by
  have heip : (enter s selector offset w code).eip = offset := by
    cases code <;> rfl
  rw [service_eq c hv] at hl ⊢
  have hplain : ∀ i ∈ (if v ∈ codedVectors then codedStub (commonOf c v) v
      else dummyStub (commonOf c v) v), i.Plain := by
    split <;> simp [codedStub, dummyStub, Instr.Plain]
  obtain ⟨t, h1, hl⟩ := path_exists _ _ (by rw [heip]; exact hl) hplain
  obtain ⟨hf, hw⟩ := stub_follows hc hroom h1
  obtain ⟨s', h2⟩ := commonStub_ends hl hf hroom (by rw [hw]; exact hret)
  exact ⟨s', path_append.mpr ⟨t, h1, h2⟩⟩

/-- **An interrupt goes unnoticed by the code it interrupts, the C function reads the interrupted
registers, and the service ends if the function returns.** -/
theorem interrupt_transparent (hv : v < 48) (hc : code.isSome = decide (v ∈ codedVectors))
    (hroom : 60 ≤ (s.gpr .esp).toNat) (hl : Loaded b.code offset (service c v)) :
    (∀ s', Path b (service c v) (enter s selector offset w code) s' →
      Unnoticed s s' ∧ ∃ mem ptr, b.effect (calls v) mem ptr w s'.world ∧
        Registers.read mem ptr = frameAt s v code) ∧
    ((∀ mem ptr, Registers.read mem ptr = frameAt s v code → ∃ w', b.effect (calls v) mem ptr w w') →
      ∃ s', Path b (service c v) (enter s selector offset w code) s') :=
  ⟨fun _ h => service_spec hv hc hroom h, service_ends hv hc hroom hl⟩

end

/-- the code of stub 32 from address 0 on, and a C function that does nothing -/
def stubBoard : Board CFunction Unit where
  code a := (service ⟨0, 4⟩ 32)[a.toNat]?.map fun i => (i, a + 1)
  effect _ _ _ _ _ := True
  gate _ := none
  ack _ _ _ := False

theorem interrupt_transparent_timer : ∃ s s' : State Unit, s.gpr .eax = 0xBEEF0042 ∧ s.seg .es = 0x10 ∧
    Path stubBoard (service ⟨0, 4⟩ 32) (enter s 0x08 0 () none) s' ∧ s'.gpr = s.gpr ∧ s'.seg = s.seg := by
  let s : State Unit := ⟨fun r => if r = .esp then 0x1000 else 0xBEEF0042, fun _ => 0x10, 0x2000, 0x202,
    false, fun _ => 0, ()⟩
  have hl : Loaded stubBoard.code 0 (service ⟨0, 4⟩ 32) := by
    repeat refine ⟨_, rfl, ?_⟩
    trivial
  have h := @interrupt_transparent Unit stubBoard s ⟨0, 4⟩ 32 none 0x08 0 () (by decide) (by decide)
    (by decide) hl
  obtain ⟨s', hs'⟩ := h.2 fun _ _ _ => ⟨(), trivial⟩
  obtain ⟨hun, _⟩ := h.1 s' hs'
  refine ⟨s, s', rfl, rfl, hs', hun.gpr, ?_⟩
  rw [hun.seg]
  funext r
  cases r <;> rfl

end FirstKernel
