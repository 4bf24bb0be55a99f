import FirstKernel.Lib.ByteMem
import FirstKernel.Lib.Run

/-!
# A part of the IA-32 processor

Ring 0, flat segments.  The state has the general registers, the segment registers, `eip`, `eflags`,
the memory of the stack and a `world` on which the functions that are called work.

* `Instr.Does`            what an instruction does, a call by what the function may leave behind;
* `Path`                  a list of instructions, fetched and executed one after the other;
* `machine`               the processor with interrupts at any instruction where they are enabled;
* `Stack`, `OnStack`      words on the stack, and what is kept above them;
* `atomic`, `machine_atomic`  code that runs with interrupts disabled up to its `iret` is not
                          interrupted: the machine is a system whose interrupts are single steps.
-/

namespace Ia32
open ByteMem

inductive Reg where
  | eax | ecx | edx | ebx | esp | ebp | esi | edi
deriving DecidableEq, Repr

inductive SegReg where
  | cs | ds | es | fs | gs | ss
deriving DecidableEq, Repr

structure State (σ : Type) where
  gpr : Reg → BitVec 32
  seg : SegReg → BitVec 16
  eip : BitVec 32
  eflags : BitVec 32
  /-- interrupts stay off for the instruction after `sti` -/
  shadow : Bool
  mem : Mem
  world : σ

inductive Instr (φ : Type) where
  | cli
  | sti
  | hlt
  | iret
  | pusha
  | popa
  | pushl (imm : BitVec 32)
  | pushr (r : Reg)
  | popr (r : Reg)
  /-- `movw $imm, %ax` -/
  | movw (imm : BitVec 16)
  /-- `movw %s, %ax` -/
  | movwFrom (s : SegReg)
  /-- `movw %ax, %s` -/
  | movwTo (s : SegReg)
  | addl (imm : BitVec 32) (r : Reg)
  | jmp (target : BitVec 32)
  | call (f : φ)
deriving DecidableEq

def flagIF : BitVec 32 := 0x200

/-- carry, parity, adjust, zero, sign and overflow -/
def arithFlags : BitVec 32 := 0x8D5

/-- the flags that an interrupt gate clears: `TF`, `IF`, `NT`, `RF`, `VM` -/
def gateFlags : BitVec 32 := 0x34300

section
variable {σ φ : Type}

def State.setReg (s : State σ) (r : Reg) (v : BitVec 32) : State σ :=
  { s with gpr := Function.update s.gpr r v }

def State.push (s : State σ) (v : BitVec 32) : State σ :=
  { s with gpr := Function.update s.gpr .esp (s.gpr .esp - 4),
           mem := store32 s.mem (s.gpr .esp - 4).toNat v }

/-- the word on top of the stack -/
def State.top (s : State σ) : BitVec 32 := load32 s.mem (s.gpr .esp).toNat

def State.drop (s : State σ) : State σ := s.setReg .esp (s.gpr .esp + 4)

def State.pop (s : State σ) (r : Reg) : State σ := s.drop.setReg r s.top

/-- the flags of `a + b` -/
def addFlags (a b : BitVec 32) : BitVec 32 :=
  let r := a + b
  (if r < a then 0x001 else 0)
    ||| (if ((List.range 8).countP fun i => r.getLsbD i) % 2 = 0 then 0x004 else 0)
    ||| (if (a ^^^ b ^^^ r).getLsbD 4 then 0x010 else 0)
    ||| (if r = 0 then 0x040 else 0)
    ||| (if r.msb then 0x080 else 0)
    ||| (if a.msb = b.msb ∧ r.msb ≠ a.msb then 0x800 else 0)

def State.iret (s : State σ) : State σ :=
  let t := s.drop
  let u := t.drop
  { u.drop with eip := s.top, seg := Function.update s.seg .cs (t.top.setWidth 16), eflags := u.top }

/-- an instruction other than a call -/
def Instr.apply (s : State σ) : Instr φ → State σ
  | .cli => { s with eflags := s.eflags &&& ~~~flagIF }
  | .sti => { s with eflags := s.eflags ||| flagIF, shadow := decide (s.eflags &&& flagIF = 0#32) }
  | .hlt => s
  | .iret => s.iret
  | .pusha => ((((((((s.push (s.gpr .eax)).push (s.gpr .ecx)).push (s.gpr .edx)).push
      (s.gpr .ebx)).push (s.gpr .esp)).push (s.gpr .ebp)).push (s.gpr .esi)).push (s.gpr .edi))
  | .popa => ((((((((s.pop .edi).pop .esi).pop .ebp).drop).pop .ebx).pop .edx).pop .ecx).pop .eax)
  | .pushl imm => s.push imm
  | .pushr r => s.push (s.gpr r)
  | .popr r => s.pop r
  | .movw imm => s.setReg .eax ((s.gpr .eax).extractLsb' 16 16 ++ imm)
  | .movwFrom r => s.setReg .eax ((s.gpr .eax).extractLsb' 16 16 ++ s.seg r)
  | .movwTo r => { s with seg := Function.update s.seg r ((s.gpr .eax).setWidth 16) }
  | .addl imm r => { s.setReg r (s.gpr r + imm) with
      eflags := s.eflags &&& ~~~arithFlags ||| addFlags (s.gpr r) imm &&& arithFlags }
  | .jmp target => { s with eip := target }
  | .call _ => s

/-- what a called function may leave behind: it works on the `world` and its argument, keeps `ebx`,
`ebp`, `esi`, `edi`, the segment registers, the interrupt flag and the stack above its argument -/
structure Returns (effect : Mem → BitVec 32 → σ → σ → Prop) (s s' : State σ) : Prop where
  kept : ∀ r, r = .esp ∨ r = .ebx ∨ r = .ebp ∨ r = .esi ∨ r = .edi → s'.gpr r = s.gpr r
  seg : s'.seg = s.seg
  eip : s'.eip = s.eip
  flag : s'.eflags &&& flagIF = s.eflags &&& flagIF
  shadow : s'.shadow = false
  mem : ∀ x, (s.gpr .esp).toNat + 4 ≤ x → s'.mem x = s.mem x
  world : effect s.mem s.top s.world s'.world

/-- the next instruction is no longer the one after `sti` -/
def State.step (s : State σ) (next : BitVec 32) : State σ := { s with eip := next, shadow := false }

def Instr.Does (effect : φ → Mem → BitVec 32 → σ → σ → Prop) (s s' : State σ) (i : Instr φ) : Prop :=
  match i with
  | .call f => Returns (effect f) s s'
  | i => s' = i.apply s

/-- what the processor runs on: the code in memory, with the address behind each instruction, the
functions called, the gates and how a vector is acknowledged -/
structure Board (φ σ : Type) where
  code : BitVec 32 → Option (Instr φ × BitVec 32)
  effect : φ → Mem → BitVec 32 → σ → σ → Prop
  gate : Nat → Option (BitVec 16 × BitVec 32)
  ack : Nat → σ → σ → Prop

/-- `is` is fetched from `eip` on and executed -/
def Path (b : Board φ σ) : List (Instr φ) → State σ → State σ → Prop
  | [], s, s' => s' = s
  | i :: is, s, s' => ∃ next t, b.code s.eip = some (i, next) ∧ i.Does b.effect (s.step next) t ∧
      Path b is t s'

/-- entry through an interrupt gate, in the same ring -/
def State.deliver (s : State σ) (selector : BitVec 16) (offset : BitVec 32) (w : σ) : State σ :=
  let t := ((s.push s.eflags).push ((s.seg .cs).setWidth 32)).push s.eip
  { t with eip := offset, seg := Function.update s.seg .cs selector,
           eflags := s.eflags &&& ~~~gateFlags, shadow := false, world := w }

/-- interrupts are enabled -/
def State.Open (s : State σ) : Prop := s.eflags &&& flagIF ≠ 0#32 ∧ s.shadow = false

/-- an instruction, or a vector that is let in -/
inductive Event where
  | exec
  | vector (v : Nat)

def machine (b : Board φ σ) (start : State σ → Prop) : Run.System (State σ) Event where
  init := start
  step s e s' := match e with
    | .exec => ∃ i next, b.code s.eip = some (i, next) ∧ i.Does b.effect (s.step next) s'
    | .vector v => s.Open ∧ ∃ selector offset w, b.gate v = some (selector, offset) ∧
        b.ack v s.world w ∧ s' = s.deliver selector offset w

/-- the machine with the whole service of an interrupt as one step -/
def atomic (b : Board φ σ) (service : Nat → List (Instr φ)) (start : State σ → Prop) :
    Run.System (State σ) Event where
  init := start
  step s e s' := match e with
    | .exec => ∃ i next, b.code s.eip = some (i, next) ∧ i.Does b.effect (s.step next) s'
    | .vector v => s.Open ∧ ∃ selector offset w, b.gate v = some (selector, offset) ∧
        b.ack v s.world w ∧ Path b (service v) (s.deliver selector offset w) s'

/-! ## words on the stack -/

/-- the words from `a` on -/
def Stack (m : Mem) : Nat → List (BitVec 32) → Prop
  | _, [] => True
  | a, w :: ws => load32 m a = w ∧ Stack m (a + 4) ws

/-- the words pushed below `base`, above which the memory is still `m` -/
structure OnStack (m : Mem) (base : BitVec 32) (ws : List (BitVec 32)) (s : State σ) : Prop where
  depth : (s.gpr .esp).toNat + 4 * ws.length = base.toNat
  words : Stack s.mem (s.gpr .esp).toNat ws
  above : ∀ x, base.toNat ≤ x → s.mem x = m x

variable {b : Board φ σ} {s s' t : State σ} {i : Instr φ} {is is1 is2 : List (Instr φ)}
  {m : Mem} {base v w : BitVec 32} {ws : List (BitVec 32)} {r : Reg}

@[simp] theorem setReg_mem (s : State σ) (r : Reg) (v : BitVec 32) : (s.setReg r v).mem = s.mem := rfl
@[simp] theorem drop_mem (s : State σ) : s.drop.mem = s.mem := rfl
@[simp] theorem setReg_self (s : State σ) (r : Reg) (v : BitVec 32) : (s.setReg r v).gpr r = v := by
  simp [State.setReg]
@[simp] theorem push_esp (s : State σ) (v : BitVec 32) : (s.push v).gpr .esp = s.gpr .esp - 4 :=
  Function.update_self Reg.esp _ s.gpr
@[simp] theorem drop_esp (s : State σ) : s.drop.gpr .esp = s.gpr .esp + 4 :=
  Function.update_self Reg.esp _ s.gpr
@[simp] theorem pop_mem (s : State σ) (r : Reg) : (s.pop r).mem = s.mem := rfl

theorem Stack.congr {m' : Mem} {a : Nat} (h : Stack m a ws)
    (hm : ∀ x, a ≤ x → x < a + 4 * ws.length → m' x = m x) : Stack m' a ws := by
  induction ws generalizing a with
  | nil => trivial
  | cons w ws ih =>
    obtain ⟨hw, hws⟩ := h
    rw [List.length_cons] at hm
    refine ⟨?_, ih hws fun x h1 h2 => hm x (by omega) (by omega)⟩
    rw [← hw]
    exact load32_congr fun x h1 h2 => hm x h1 (by omega)

theorem Stack.drop {a : Nat} (h : Stack m a ws) (n : Nat) : Stack m (a + 4 * n) (ws.drop n) := by
  induction n generalizing a ws with
  | zero => exact h
  | succ n ih =>
    cases ws with
    | nil => trivial
    | cons w ws =>
      have hn := ih h.2
      rw [show a + 4 + 4 * n = a + 4 * (n + 1) by omega] at hn
      exact hn

theorem OnStack.start (s : State σ) : OnStack s.mem (s.gpr .esp) [] s :=
  ⟨rfl, trivial, fun _ _ => rfl⟩

theorem OnStack.congr (h : OnStack m base ws s) (hesp : s'.gpr .esp = s.gpr .esp)
    (hmem : ∀ x, (s.gpr .esp).toNat ≤ x → s'.mem x = s.mem x) : OnStack m base ws s' := by
  refine ⟨by rw [hesp]; exact h.depth, ?_, fun x hx => ?_⟩
  · rw [hesp]
    exact h.words.congr fun x hx _ => hmem x hx
  · rw [hmem x (by have := h.depth; omega)]
    exact h.above x hx

theorem OnStack.push (h : OnStack m base ws s) (hroom : 4 * (ws.length + 1) ≤ base.toNat)
    (v : BitVec 32) : OnStack m base (v :: ws) (s.push v) := by
  have hdepth := h.depth
  have hsub : (s.gpr .esp - 4).toNat = (s.gpr .esp).toNat - 4 := by bv_omega
  have hesp : ((s.push v).gpr .esp).toNat = (s.gpr .esp).toNat - 4 := by
    rw [push_esp, hsub]
  have hmem : (s.push v).mem = store32 s.mem ((s.gpr .esp).toNat - 4) v := by
    rw [← hsub]
    rfl
  refine ⟨?_, ?_, fun x hx => ?_⟩
  · rw [hesp, List.length_cons]
    omega
  · rw [hesp, hmem]
    refine ⟨load32_store32 .., ?_⟩
    rw [show (s.gpr .esp).toNat - 4 + 4 = (s.gpr .esp).toNat by omega]
    exact h.words.congr fun x hx _ => store32_out _ _ _ _ (.inr (by omega))
  · rw [hmem, store32_out _ _ _ _ (.inr (by omega))]
    exact h.above x hx

theorem OnStack.top (h : OnStack m base (w :: ws) s) : s.top = w := h.words.1

theorem OnStack.drop (h : OnStack m base (w :: ws) s) : OnStack m base ws s.drop := by
  have hdepth := h.depth
  rw [List.length_cons] at hdepth
  have hlt := base.isLt
  have hesp : (s.drop.gpr .esp).toNat = (s.gpr .esp).toNat + 4 := by
    have hadd : (s.gpr .esp + 4).toNat = (s.gpr .esp).toNat + 4 := by bv_omega
    rw [drop_esp, hadd]
  refine ⟨by rw [hesp]; omega, ?_, h.above⟩
  rw [hesp]
  exact h.words.2

theorem OnStack.setReg (h : OnStack m base ws s) (hr : r ≠ .esp) (v : BitVec 32) :
    OnStack m base ws (s.setReg r v) :=
  h.congr (Function.update_of_ne hr.symm ..) fun _ _ => rfl

theorem OnStack.pop (h : OnStack m base (w :: ws) s) (hr : r ≠ .esp) : OnStack m base ws (s.pop r) :=
  h.drop.setReg hr _

/-- a function that returns leaves the words behind its argument -/
theorem OnStack.returns {effect : Mem → BitVec 32 → σ → σ → Prop} (h : OnStack m base (w :: ws) s)
    (hr : Returns effect s s') : ∃ w', OnStack m base (w' :: ws) s' := by
  have hesp := hr.kept .esp (.inl rfl)
  have hdepth := h.depth
  rw [List.length_cons] at hdepth
  refine ⟨load32 s'.mem (s'.gpr .esp).toNat, ?_, ⟨rfl, ?_⟩, fun x hx => ?_⟩
  · rw [hesp]
    exact h.depth
  · rw [hesp]
    exact h.words.2.congr fun x hx _ => hr.mem x hx
  · rw [hr.mem x (by omega)]
    exact h.above x hx

/-! ## code that is not interrupted -/

/-- where the code goes on after `i` -/
def Instr.goes (next : BitVec 32) : Instr φ → BitVec 32
  | .jmp target => target
  | _ => next

/-- `is` lies in memory from `a` on, along its jumps -/
def Loaded (code : BitVec 32 → Option (Instr φ × BitVec 32)) : BitVec 32 → List (Instr φ) → Prop
  | _, [] => True
  | a, i :: is => ∃ next, code a = some (i, next) ∧ Loaded code (i.goes next) is

def loads [DecidableEq φ] (code : BitVec 32 → Option (Instr φ × BitVec 32)) :
    BitVec 32 → List (Instr φ) → Bool
  | _, [] => true
  | a, i :: is =>
    match code a with
    | some (j, next) => decide (j = i) && loads code (i.goes next) is
    | none => false

theorem loads_iff [DecidableEq φ] {code : BitVec 32 → Option (Instr φ × BitVec 32)} {a : BitVec 32} :
    loads code a is = true ↔ Loaded code a is := by
  induction is generalizing a with
  | nil => exact ⟨fun _ => trivial, fun _ => rfl⟩
  | cons i is ih =>
    unfold loads Loaded
    cases code a with
    | none => simp
    | some jn =>
      obtain ⟨j, next⟩ := jn
      simp [ih]

instance [DecidableEq φ] (code : BitVec 32 → Option (Instr φ × BitVec 32)) (a : BitVec 32)
    (is : List (Instr φ)) : Decidable (Loaded code a is) :=
  decidable_of_iff _ loads_iff

/-- interrupts are enabled for the last instruction, and before it for none -/
def ClosedUntilIret (is : List (Instr φ)) : Prop :=
  ∃ body, is = body ++ [.sti, .iret] ∧ ∀ i ∈ body, i ≠ .sti ∧ i ≠ .iret

/-- the code behind the gates that can be taken is `service` -/
structure Served (b : Board φ σ) (service : Nat → List (Instr φ)) : Prop where
  loaded : ∀ v selector offset, b.gate v = some (selector, offset) → Loaded b.code offset (service v)
  closed : ∀ v selector offset, b.gate v = some (selector, offset) → ClosedUntilIret (service v)

theorem path_append : Path b (is1 ++ is2) s s' ↔ ∃ t, Path b is1 s t ∧ Path b is2 t s' := by
  induction is1 generalizing s with
  | nil =>
    constructor
    · exact fun h => ⟨s, rfl, h⟩
    · rintro ⟨t, rfl, h⟩
      exact h
  | cons i is1 ih =>
    constructor
    · rintro ⟨next, t, hc, hd, h⟩
      obtain ⟨u, h1, h2⟩ := ih.mp h
      exact ⟨u, ⟨next, t, hc, hd, h1⟩, h2⟩
    · rintro ⟨u, ⟨next, t, hc, hd, h1⟩, h2⟩
      exact ⟨next, t, hc, hd, ih.mpr ⟨u, h1, h2⟩⟩

theorem and_mask_zero (a m : BitVec 32) : a &&& ~~~m &&& m = 0#32 := by
  have h : ~~~m &&& m = 0#32 := by
    rw [BitVec.and_comm]
    exact BitVec.and_not_self m
  rw [BitVec.and_assoc, h, BitVec.and_zero]

theorem or_mask_self (a m : BitVec 32) : (a ||| m) &&& m = m := by
  apply BitVec.eq_of_getLsbD_eq
  intro i hi
  rw [BitVec.getLsbD_and, BitVec.getLsbD_or]
  cases m.getLsbD i <;> simp

/-- only `sti` and `iret` enable interrupts -/
theorem Instr.Does.flag (h : i.Does b.effect s t) (hsti : i ≠ .sti) (hiret : i ≠ .iret)
    (hf : s.eflags &&& flagIF = 0#32) : t.eflags &&& flagIF = 0#32 := by
  cases i with
  | sti => exact absurd rfl hsti
  | iret => exact absurd rfl hiret
  | call f =>
    have hr : Returns (b.effect f) s t := h
    rw [hr.flag]
    exact hf
  | cli =>
    cases h
    exact and_mask_zero s.eflags flagIF
  | addl imm r =>
    cases h
    show (s.eflags &&& ~~~arithFlags ||| _ &&& arithFlags) &&& flagIF = 0#32
    have hdisj : arithFlags &&& flagIF = 0#32 := by decide
    have hnot : ~~~arithFlags &&& flagIF = flagIF := by decide
    rw [BitVec.and_or_distrib_right, BitVec.and_assoc, hnot, hf, BitVec.and_assoc, hdisj,
      BitVec.and_zero, BitVec.or_zero]
  | hlt => cases h; exact hf
  | pusha => cases h; exact hf
  | popa => cases h; exact hf
  | pushl imm => cases h; exact hf
  | pushr r => cases h; exact hf
  | popr r => cases h; exact hf
  | movw imm => cases h; exact hf
  | movwFrom r => cases h; exact hf
  | movwTo r => cases h; exact hf
  | jmp target => cases h; exact hf

theorem Instr.Does.eip {next : BitVec 32} (h : i.Does b.effect (s.step next) t) (hiret : i ≠ .iret) :
    t.eip = i.goes next := by
  cases i with
  | iret => exact absurd rfl hiret
  | call f => exact Returns.eip h
  | cli => cases h; rfl
  | sti => cases h; rfl
  | hlt => cases h; rfl
  | pusha => cases h; rfl
  | popa => cases h; rfl
  | pushl imm => cases h; rfl
  | pushr r => cases h; rfl
  | popr r => cases h; rfl
  | movw imm => cases h; rfl
  | movwFrom r => cases h; rfl
  | movwTo r => cases h; rfl
  | addl imm r => cases h; rfl
  | jmp target => cases h; rfl

theorem Path.flag (h : Path b is s t) (hno : ∀ i ∈ is, i ≠ .sti ∧ i ≠ .iret)
    (hf : s.eflags &&& flagIF = 0#32) : t.eflags &&& flagIF = 0#32 := by
  induction is generalizing s with
  | nil =>
    cases h
    exact hf
  | cons i is ih =>
    obtain ⟨next, u, _, hd, h⟩ := h
    obtain ⟨hi, hno⟩ := List.forall_mem_cons.mp hno
    exact ih h hno (hd.flag hi.1 hi.2 hf)

theorem Path.loaded (is2 : List (Instr φ)) (h : Path b is1 s t) (hno : ∀ i ∈ is1, i ≠ .iret)
    (hl : Loaded b.code s.eip (is1 ++ is2)) : Loaded b.code t.eip is2 := by
  induction is1 generalizing s with
  | nil =>
    cases h
    exact hl
  | cons i is1 ih =>
    obtain ⟨next, u, hc, hd, h⟩ := h
    obtain ⟨next', hc', hl⟩ := hl
    obtain ⟨hi, hno⟩ := List.forall_mem_cons.mp hno
    rw [hc] at hc'
    cases hc'
    rw [← hd.eip hi] at hl
    exact ih h hno hl

/-- an instruction after which the code goes on, whatever the functions do -/
def Instr.Plain (i : Instr φ) : Prop := i ≠ .iret ∧ ∀ f, i ≠ .call f

theorem Instr.Plain.does (h : i.Plain) (effect : φ → Mem → BitVec 32 → σ → σ → Prop) (s : State σ) :
    i.Does effect s (i.apply s) := by
  cases i with
  | call f => exact absurd rfl (h.2 f)
  | _ => rfl

theorem path_exists (is1 is2 : List (Instr φ)) (hl : Loaded b.code s.eip (is1 ++ is2))
    (hno : ∀ i ∈ is1, i.Plain) :
    ∃ t, Path b is1 s t ∧ Loaded b.code t.eip is2 := by
  induction is1 generalizing s with
  | nil => exact ⟨s, rfl, hl⟩
  | cons i is1 ih =>
    obtain ⟨next, hc, hl⟩ := hl
    obtain ⟨hi, hno⟩ := List.forall_mem_cons.mp hno
    have hd := hi.does b.effect (s.step next)
    rw [← hd.eip hi.1] at hl
    obtain ⟨t, hp, ht⟩ := ih hl hno
    exact ⟨t, ⟨next, _, hc, hd, hp⟩, ht⟩

/-- a proper front part of such code contains no `iret`, and interrupts are disabled behind it -/
theorem ClosedUntilIret.front (h : ClosedUntilIret is) (he : is = is1 ++ is2) (hne : is2 ≠ []) :
    (∀ i ∈ is1, i ≠ .iret) ∧
      ∀ s t : State σ, s.eflags &&& flagIF = 0#32 → Path b is1 s t → ¬ t.Open := by
  obtain ⟨body, rfl, hbody⟩ := h
  obtain ⟨last, i2, rfl⟩ : ∃ l i, is2 = l ++ [i] := ⟨_, _, (List.dropLast_concat_getLast hne).symm⟩
  have hsnoc : (body ++ [Instr.sti]) ++ [Instr.iret] = (is1 ++ last) ++ [i2] := by
    rw [List.append_assoc, List.append_assoc]
    exact he
  obtain ⟨hfront, _⟩ := List.append_inj' hsnoc rfl
  -- either `is1` is a part of the body, or all of it with `sti`
  rcases List.eq_nil_or_concat last with rfl | ⟨last', j, rfl⟩
  · rw [List.append_nil] at hfront
    subst hfront
    refine ⟨fun i hi => ?_, fun s t hf hp hopen => ?_⟩
    · rcases List.mem_append.mp hi with hi | hi
      · exact (hbody i hi).2
      · rw [List.mem_singleton.mp hi]
        exact nofun
    · obtain ⟨u, hp, next, v, _, hd, rfl⟩ := path_append.mp hp
      have hoff := hp.flag hbody hf
      have hshadow := hopen.2
      rw [show t = _ from hd] at hshadow
      exact of_decide_eq_false hshadow hoff
  · have hcat : is1 ++ (last' ++ [j]) = (is1 ++ last') ++ [j] := (List.append_assoc ..).symm
    rw [List.concat_eq_append, hcat] at hfront
    obtain ⟨hb, _⟩ := List.append_inj' hfront rfl
    have hsub : ∀ i ∈ is1, i ≠ .sti ∧ i ≠ .iret := fun i hi =>
      hbody i (hb ▸ List.mem_append_left _ hi)
    exact ⟨fun i hi => (hsub i hi).2, fun s t hf hp hopen => hopen.1 (hp.flag hsub hf)⟩

theorem deliver_flag (s : State σ) (selector : BitVec 16) (offset : BitVec 32) (w : σ) :
    (s.deliver selector offset w).eflags &&& flagIF = 0#32 := by
  show s.eflags &&& ~~~gateFlags &&& flagIF = 0#32
  have hsub : ~~~gateFlags &&& flagIF = 0#32 := by decide
  rw [BitVec.and_assoc, hsub, BitVec.and_zero]

/-- `s` is inside the service of a vector that `m` let in -/
structure Inside (b : Board φ σ) (service : Nat → List (Instr φ)) (m s : State σ) (v : Nat) : Prop where
  opened : m.Open
  part : ∃ selector offset w is1 is2, b.gate v = some (selector, offset) ∧ b.ack v m.world w ∧
    service v = is1 ++ is2 ∧ is2 ≠ [] ∧ Path b is1 (m.deliver selector offset w) s

theorem Inside.not_open {service : Nat → List (Instr φ)} {m : State σ} {v : Nat}
    (h : Inside b service m s v) (hs : Served b service) : ¬ s.Open := by
  obtain ⟨selector, offset, w, is1, is2, hg, _, he, hne, hp⟩ := h.part
  exact ((hs.closed v selector offset hg).front he hne).2 _ _ (deliver_flag ..) hp

/-- **A service that runs with interrupts disabled up to its `iret` is one step**: in every run the
processor is in a state of the atomic system, or inside a service that one of them let in. -/
theorem machine_atomic {service : Nat → List (Instr φ)} {start : State σ → Prop} (hs : Served b service)
    (h : Run.Reachable (machine b start) s) :
    Run.Reachable (atomic b service start) s ∨
      ∃ m v, Run.Reachable (atomic b service start) m ∧ Inside b service m s v := by
  refine h.invariant (fun s h0 => .inl (.init h0)) fun s e s' _ ih hstep => ?_
  rcases ih with ih | ⟨m, v, hm, hin⟩
  · cases e with
    | exec => exact .inl (ih.step (i := .exec) hstep)
    | vector v =>
      obtain ⟨hopen, selector, offset, w, hg, hack, rfl⟩ := hstep
      obtain ⟨body, he, _⟩ := hs.closed v selector offset hg
      refine .inr ⟨s, v, ih, hopen, selector, offset, w, [], service v, hg, hack, rfl, ?_, rfl⟩
      rw [he]
      simp
  · cases e with
    | vector u => exact absurd hstep.1 (hin.not_open hs)
    | exec =>
      obtain ⟨hopen, selector, offset, w, is1, is2, hg, hack, he, hne, hp⟩ := hin
      obtain ⟨i, next, hc, hd⟩ := hstep
      cases is2 with
      | nil => exact absurd rfl hne
      | cons j is2 =>
        have hfront := ((hs.closed v selector offset hg).front (b := b) he hne).1
        have hl := hs.loaded v selector offset hg
        rw [he] at hl
        obtain ⟨next', hc', _⟩ := hp.loaded (j :: is2) hfront hl
        rw [hc] at hc'
        cases hc'
        have hp' : Path b (is1 ++ [i]) (m.deliver selector offset w) s' :=
          path_append.mpr ⟨s, hp, next, s', hc, hd, rfl⟩
        by_cases hend : is2 = []
        · subst hend
          refine .inl (hm.step (i := .vector v) ⟨hopen, selector, offset, w, hg, hack, ?_⟩)
          rw [he]
          exact hp'
        · refine .inr ⟨m, v, hm, hopen, selector, offset, w, is1 ++ [i], is2, hg, hack, ?_, hend, hp'⟩
          rw [he, List.append_assoc]
          rfl

end

end Ia32
