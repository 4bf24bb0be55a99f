import FirstKernel.Lib.Ia32

/-!
# The stack as a list

What code does to the registers and the stack can be computed on the list of the words it has pushed,
as long as it takes no more off than it has put on.

* `Instr.onList`, `onLists`   an instruction, and a list of them, on registers and pushed words;
* `Follows`                   a processor state and what has been computed so far agree;
* `path_follows`              a path follows the computation, if there is room for the words.
-/

namespace Ia32
open ByteMem

/-- the registers other than `esp`, the segment registers and the words pushed, the last one first -/
structure Plan where
  gpr : Reg → BitVec 32
  seg : SegReg → BitVec 16
  words : List (BitVec 32)

section
variable {σ φ : Type}

def Plan.push (p : Plan) (v : BitVec 32) : Plan := { p with words := v :: p.words }

def Plan.setReg (p : Plan) (r : Reg) (v : BitVec 32) : Plan := { p with gpr := Function.update p.gpr r v }

/-- a register, `esp` below `base` by the words pushed -/
def Plan.get (base : BitVec 32) (p : Plan) (r : Reg) : BitVec 32 :=
  if r = .esp then base - BitVec.ofNat 32 (4 * p.words.length) else p.gpr r

def Plan.pop (p : Plan) (r : Reg) : Option Plan :=
  match p.words with
  | w :: ws => if r = .esp then none else some ({ p with words := ws }.setReg r w)
  | [] => none

def Instr.onList (base : BitVec 32) (p : Plan) : Instr φ → Option Plan
  | .cli | .sti | .hlt | .jmp _ => some p
  | .pusha => some (((((((p.push (p.gpr .eax)).push (p.gpr .ecx)).push (p.gpr .edx)).push
      (p.gpr .ebx)).push (p.get base .esp)).push (p.gpr .ebp)).push (p.gpr .esi) |>.push (p.gpr .edi))
  | .popa => do
    let p ← p.pop .edi
    let p ← p.pop .esi
    let p ← p.pop .ebp
    let p := { p with words := p.words.tail }
    let p ← p.pop .ebx
    let p ← p.pop .edx
    let p ← p.pop .ecx
    p.pop .eax
  | .pushl imm => some (p.push imm)
  | .pushr r => some (p.push (p.get base r))
  | .popr r => p.pop r
  | .movw imm => some (p.setReg .eax ((p.gpr .eax).extractLsb' 16 16 ++ imm))
  | .movwFrom r => some (p.setReg .eax ((p.gpr .eax).extractLsb' 16 16 ++ p.seg r))
  | .movwTo r => some { p with seg := Function.update p.seg r ((p.gpr .eax).setWidth 16) }
  | .addl imm r =>
    if r = .esp then
      if imm.toNat % 4 = 0 ∧ imm.toNat / 4 ≤ p.words.length then
        some { p with words := p.words.drop (imm.toNat / 4) }
      else none
    else some (p.setReg r (p.gpr r + imm))
  | .iret | .call _ => none

/-- as long as it takes no more off than it has put on -/
def onLists (base : BitVec 32) : List (Instr φ) → Plan → Option Plan
  | [], p => some p
  | i :: is, p => (i.onList base p).bind (onLists base is)

/-- the words an instruction pushes -/
def Instr.pushes : Instr φ → Nat
  | .pusha => 8
  | .pushl _ | .pushr _ => 1
  | _ => 0

structure Follows (m : Mem) (base : BitVec 32) (p : Plan) (s : State σ) : Prop where
  gpr : ∀ r, r ≠ .esp → s.gpr r = p.gpr r
  seg : s.seg = p.seg
  stack : OnStack m base p.words s

variable {b : Board φ σ} {s s' t : State σ} {i : Instr φ} {is : List (Instr φ)} {m : Mem}
  {base v : BitVec 32} {p p' : Plan} {r : Reg}

theorem Follows.start (s : State σ) : Follows s.mem (s.gpr .esp) ⟨s.gpr, s.seg, []⟩ s :=
  ⟨fun _ _ => rfl, rfl, OnStack.start s⟩

theorem Follows.get (h : Follows m base p s) (r : Reg) : s.gpr r = p.get base r := by
  unfold Plan.get
  by_cases hr : r = .esp
  · rw [if_pos hr, hr]
    have hdepth := h.stack.depth
    have hlt := base.isLt
    apply BitVec.eq_of_toNat_eq
    rw [BitVec.toNat_sub, BitVec.toNat_ofNat]
    omega
  · rw [if_neg hr]
    exact h.gpr r hr

theorem Follows.congr (h : Follows m base p s) (hgpr : s'.gpr = s.gpr) (hmem : s'.mem = s.mem)
    (hseg : s'.seg = s.seg) : Follows m base p s' :=
  ⟨fun r hr => by rw [hgpr]; exact h.gpr r hr, hseg.trans h.seg,
    h.stack.congr (by rw [hgpr]) fun _ _ => by rw [hmem]⟩

theorem Follows.step (h : Follows m base p s) (next : BitVec 32) : Follows m base p (s.step next) :=
  h.congr rfl rfl rfl

theorem Follows.push (h : Follows m base p s) (hroom : 4 * (p.words.length + 1) ≤ base.toNat)
    (v : BitVec 32) : Follows m base (p.push v) (s.push v) := by
  refine ⟨fun r hr => ?_, h.seg, h.stack.push hroom v⟩
  rw [← show p.gpr r = (p.push v).gpr r from rfl, ← h.gpr r hr]
  exact Function.update_of_ne hr ..

theorem Follows.setReg (h : Follows m base p s) (hr : r ≠ .esp) (v : BitVec 32) :
    Follows m base (p.setReg r v) (s.setReg r v) := by
  refine ⟨fun q hq => ?_, h.seg, h.stack.setReg hr v⟩
  show Function.update s.gpr r v q = Function.update p.gpr r v q
  by_cases hqr : q = r
  · rw [hqr, Function.update_self, Function.update_self]
  · rw [Function.update_of_ne hqr, Function.update_of_ne hqr]
    exact h.gpr q hq

theorem Follows.drop {w : BitVec 32} {ws : List (BitVec 32)} (h : Follows m base p s)
    (hw : p.words = w :: ws) : Follows m base { p with words := ws } s.drop := by
  have hstack := h.stack
  rw [hw] at hstack
  refine ⟨fun r hr => ?_, h.seg, hstack.drop⟩
  rw [← h.gpr r hr]
  exact Function.update_of_ne hr ..

theorem Follows.pop (h : Follows m base p s) (hp : p.pop r = some p') : Follows m base p' (s.pop r) := by
  unfold Plan.pop at hp
  cases hw : p.words with
  | nil =>
    rw [hw] at hp
    cases hp
  | cons w ws =>
    simp only [hw] at hp
    split at hp
    · cases hp
    · next hr =>
      cases hp
      have hstack := h.stack
      rw [hw] at hstack
      unfold State.pop
      rw [hstack.top]
      exact (h.drop hw).setReg hr w

/-- the slot of `esp` that `popa` passes over -/
theorem Follows.skip (h : Follows m base p s) (hne : p.words ≠ []) :
    Follows m base { p with words := p.words.tail } s.drop := by
  cases hw : p.words with
  | nil => exact absurd hw hne
  | cons w ws => exact h.drop hw

theorem drop_words (n : Nat) (h : Follows m base p s) (hn : n ≤ p.words.length) :
    Follows m base { p with words := p.words.drop n }
      (s.setReg .esp (s.gpr .esp + BitVec.ofNat 32 (4 * n))) := by
  refine ⟨fun r hr => ?_, h.seg, ?_⟩
  · rw [← h.gpr r hr]
    exact Function.update_of_ne hr ..
  · have hdepth := h.stack.depth
    have hlt := base.isLt
    have hesp : ((s.setReg .esp (s.gpr .esp + BitVec.ofNat 32 (4 * n))).gpr .esp).toNat
        = (s.gpr .esp).toNat + 4 * n := by
      rw [setReg_self, BitVec.toNat_add, BitVec.toNat_ofNat]
      omega
    refine ⟨?_, ?_, h.stack.above⟩
    · rw [hesp, List.length_drop]
      omega
    · rw [hesp]
      exact h.stack.words.drop n

/-! ## a path follows the computation -/

theorem Follows.pusha (h : Follows m base p s) (hroom : 4 * (p.words.length + 8) ≤ base.toNat)
    (hp : (Instr.pusha (φ := φ)).onList base p = some p') :
    Follows m base p' (Instr.apply s (Instr.pusha (φ := φ))) := by
  cases hp
  have hesp := h.get .esp
  unfold Instr.apply
  rw [h.gpr .eax (by decide), h.gpr .ecx (by decide), h.gpr .edx (by decide),
    h.gpr .ebx (by decide), hesp, h.gpr .ebp (by decide), h.gpr .esi (by decide),
    h.gpr .edi (by decide)]
  have h1 := h.push (by omega) (p.gpr .eax)
  have h2 := h1.push (by simp only [Plan.push, List.length_cons]; omega) (p.gpr .ecx)
  have h3 := h2.push (by simp only [Plan.push, List.length_cons]; omega) (p.gpr .edx)
  have h4 := h3.push (by simp only [Plan.push, List.length_cons]; omega) (p.gpr .ebx)
  have h5 := h4.push (by simp only [Plan.push, List.length_cons]; omega) (p.get base .esp)
  have h6 := h5.push (by simp only [Plan.push, List.length_cons]; omega) (p.gpr .ebp)
  have h7 := h6.push (by simp only [Plan.push, List.length_cons]; omega) (p.gpr .esi)
  exact h7.push (by simp only [Plan.push, List.length_cons]; omega) (p.gpr .edi)

theorem Follows.popa (h : Follows m base p s) (hp : (Instr.popa (φ := φ)).onList base p = some p') :
    Follows m base p' (Instr.apply s (Instr.popa (φ := φ))) := by
  obtain ⟨p1, e1, hp⟩ := Option.bind_eq_some_iff.mp hp
  obtain ⟨p2, e2, hp⟩ := Option.bind_eq_some_iff.mp hp
  obtain ⟨p3, e3, hp⟩ := Option.bind_eq_some_iff.mp hp
  obtain ⟨p5, e5, hp⟩ := Option.bind_eq_some_iff.mp hp
  obtain ⟨p6, e6, hp⟩ := Option.bind_eq_some_iff.mp hp
  obtain ⟨p7, e7, hp⟩ := Option.bind_eq_some_iff.mp hp
  have hne : p3.words ≠ [] := by
    intro h0
    unfold Plan.pop at e5
    simp only [h0, List.tail_nil] at e5
    cases e5
  have h3 := ((h.pop e1).pop e2).pop e3
  exact ((((h3.skip hne).pop e5).pop e6).pop e7).pop hp

theorem Follows.does {effect : φ → Mem → BitVec 32 → σ → σ → Prop} (h : Follows m base p s)
    (hp : i.onList base p = some p') (hroom : 4 * (p.words.length + i.pushes) ≤ base.toNat)
    (hd : i.Does effect s t) :
    Follows m base p' t ∧ t.world = s.world := by
  cases i with
  | cli => cases hp; cases hd; exact ⟨h.congr rfl rfl rfl, rfl⟩
  | sti => cases hp; cases hd; exact ⟨h.congr rfl rfl rfl, rfl⟩
  | hlt => cases hp; cases hd; exact ⟨h, rfl⟩
  | jmp target => cases hp; cases hd; exact ⟨h.congr rfl rfl rfl, rfl⟩
  | pusha => cases hd; exact ⟨h.pusha hroom hp, rfl⟩
  | popa => cases hd; exact ⟨h.popa hp, rfl⟩
  | pushl imm => cases hp; cases hd; exact ⟨h.push hroom imm, rfl⟩
  | pushr r =>
    cases hp
    cases hd
    refine ⟨?_, rfl⟩
    show Follows m base (p.push (p.get base r)) (s.push (s.gpr r))
    rw [h.get r]
    exact h.push hroom _
  | popr r => cases hd; exact ⟨h.pop hp, rfl⟩
  | movw imm =>
    cases hp
    cases hd
    refine ⟨?_, rfl⟩
    rw [← h.gpr .eax (by decide)]
    exact h.setReg (by decide : Reg.eax ≠ .esp) _
  | movwFrom r =>
    cases hp
    cases hd
    refine ⟨?_, rfl⟩
    rw [← h.gpr .eax (by decide), ← h.seg]
    exact h.setReg (by decide : Reg.eax ≠ .esp) _
  | movwTo r =>
    cases hp
    cases hd
    refine ⟨⟨h.gpr, ?_, h.stack.congr rfl fun _ _ => rfl⟩, rfl⟩
    show Function.update s.seg r ((s.gpr .eax).setWidth 16) = _
    rw [h.seg, h.gpr .eax (by decide)]
  | addl imm r =>
    cases hd
    refine ⟨?_, rfl⟩
    simp only [Instr.onList] at hp
    split at hp
    · next hr =>
      split at hp
      · next hi =>
        cases hp
        have himm : imm = BitVec.ofNat 32 (4 * (imm.toNat / 4)) := by
          rw [Nat.mul_div_cancel' (Nat.dvd_of_mod_eq_zero hi.1), BitVec.ofNat_toNat, BitVec.setWidth_eq]
        have hd := drop_words (imm.toNat / 4) h hi.2
        rw [← himm, ← hr] at hd
        exact hd.congr rfl rfl rfl
      · cases hp
    · next hr =>
      cases hp
      have hs := h.setReg hr (p.gpr r + imm)
      rw [← h.gpr r hr] at hs ⊢
      exact hs.congr rfl rfl rfl
  | iret => cases hp
  | call f => cases hp

theorem pop_length (hp : p.pop r = some p') : p'.words.length ≤ p.words.length := by
  unfold Plan.pop at hp
  cases hw : p.words with
  | nil =>
    rw [hw] at hp
    cases hp
  | cons w ws =>
    simp only [hw] at hp
    split at hp
    · cases hp
    · cases hp
      exact Nat.le_succ _

theorem onList_length (hp : i.onList base p = some p') :
    p'.words.length ≤ p.words.length + i.pushes := by
  cases i with
  | popa =>
    obtain ⟨p1, e1, hp⟩ := Option.bind_eq_some_iff.mp hp
    obtain ⟨p2, e2, hp⟩ := Option.bind_eq_some_iff.mp hp
    obtain ⟨p3, e3, hp⟩ := Option.bind_eq_some_iff.mp hp
    obtain ⟨p5, e5, hp⟩ := Option.bind_eq_some_iff.mp hp
    obtain ⟨p6, e6, hp⟩ := Option.bind_eq_some_iff.mp hp
    obtain ⟨p7, e7, hp⟩ := Option.bind_eq_some_iff.mp hp
    have h1 := pop_length e1
    have h2 := pop_length e2
    have h3 := pop_length e3
    have h5 := pop_length e5
    have h6 := pop_length e6
    have h7 := pop_length e7
    have h8 := pop_length hp
    rw [List.length_tail] at h5
    omega
  | popr r => exact pop_length hp
  | addl imm r =>
    simp only [Instr.onList] at hp
    split at hp
    · split at hp
      · cases hp
        exact List.length_drop .. ▸ Nat.sub_le ..
      · cases hp
    · cases hp
      exact Nat.le_refl _
  | cli => cases hp; exact Nat.le_refl _
  | sti => cases hp; exact Nat.le_refl _
  | hlt => cases hp; exact Nat.le_refl _
  | jmp target => cases hp; exact Nat.le_refl _
  | pusha => cases hp; exact Nat.le_refl _
  | pushl imm => cases hp; exact Nat.le_refl _
  | pushr r => cases hp; exact Nat.le_refl _
  | movw imm => cases hp; exact Nat.le_refl _
  | movwFrom r => cases hp; exact Nat.le_refl _
  | movwTo r => cases hp; exact Nat.le_refl _
  | iret => cases hp
  | call f => cases hp

/-- **A path does to the registers and the stack what is computed on the list, and leaves the
`world` alone.** -/
theorem path_follows (h : Follows m base p s) (hp : onLists base is p = some p')
    (hroom : 4 * (p.words.length + (is.map Instr.pushes).sum) ≤ base.toNat) (hs : Path b is s t) :
    Follows m base p' t ∧ t.world = s.world := by
  induction is generalizing s p with
  | nil =>
    cases hp
    cases hs
    exact ⟨h, rfl⟩
  | cons i is ih =>
    obtain ⟨p1, e1, hp⟩ := Option.bind_eq_some_iff.mp hp
    obtain ⟨next, u, _, hd, hs⟩ := hs
    rw [List.map_cons, List.sum_cons] at hroom
    obtain ⟨h1, hw⟩ := (h.step next).does e1 (by omega) hd
    have hlen := onList_length e1
    obtain ⟨h2, hw2⟩ := ih h1 hp (by omega) hs
    exact ⟨h2, hw2.trans hw⟩

end

end Ia32
