import FirstKernel.Interrupt.Stub
import FirstKernel.Interrupt.Tables
import FirstKernel.Interrupt.Pic
import FirstKernel.Session.Run

/-!
# The kernel with its interrupts

`isr.cpp`, `timer.cpp` and the end of `kernel_main`: the boot code enables interrupts and halts in a
loop, and from then on everything is done by the handlers.

* `isrHandler`, `irqHandler`     what the stubs call;
* `Image`, `Image.board`         the code in memory, the tables and the controllers;
* `serve`                        what an interrupt does, without processor and controllers;
* `AtLoop`                       the kernel between two interrupts: the loop, the controllers ready again,
                                 and `serve` of each interrupt so far, one after the other;
* `AtLoop.exec`, `AtLoop.service`, `atLoop_run`   what keeps it;
* `kernel_serves`                so in every run, whenever the interrupts come;
* `kernel_ends_iff`              the services that end with no step left undefined.

What the C code does behind a null pointer, an index outside an array or an overflow it leaves undefined:
such a call has no effect here, and the runs are those up to the first one.
-/

namespace FirstKernel
open ByteMem Ia32 I8259 Outcome

/-- the functions that are registered -/
inductive Isr where
  | pageFaultHandler
  | timerHandler
  | keyboardCallback
deriving DecidableEq, Repr

/-- what the handlers work on; `given` is the history of the vectors given by the controllers, each with
what port `0x60` holds from then on -/
structure World where
  pics : Pair
  port60 : Byte
  cr2 : Word
  interruptHandlers : Nat → Option Isr
  timerTicks : Word
  session : ShellSession
  given : List (Nat × Byte)

def isrCount : Nat := 256

def registerInterruptHandler (handlers : Nat → Option Isr) (n : Byte) (handler : Isr) :
    Nat → Option Isr :=
  Function.update handlers n.toNat (some handler)

def World.printf (w : World) (format : String) (args : List Arg) : Res World := do
  return { w with session := { w.session with shell := ← w.session.shell.printf (str format) args } }

/-- the loop at the end is not left -/
def pageFaultHandler (w : World) (regs : Registers) : Res World := do
  let names (bit : Word) (set clear : String) : List Arg :=
    [.str (str (if regs.errCode &&& bit ≠ 0 then set else clear))]
  let w ← w.printf "[VMM] Page Fault at 0x%x\n" [.num w.cr2]
  let w ← w.printf "[VMM] Page info: 0x%x\n" [.num regs.eip]
  let w ← w.printf "[VMM] Page fault caused by %s access\n" (names 1 "write" "read")
  let w ← w.printf "[VMM] Page fault %s\n" (names 2 "protection" "non-present")
  let w ← w.printf "[VMM] Page fault in %s mode\n" (names 4 "user" "supervisor")
  let _ ← w.printf "[VMM] Page fault caused by %s operation\n" (names 8 "instruction fetch" "data access")
  .error .noFuel

/-- `event` is the local of `keyboard_callback` -/
def Isr.call (w : World) (regs : Registers) (event : KeyboardEvent) : Isr → Res World
  | .pageFaultHandler => FirstKernel.pageFaultHandler w regs
  | .timerHandler => return { w with timerTicks := w.timerTicks + 1 }
  | .keyboardCallback => do
    return { w with session := ← FirstKernel.keyboardCallback w.session w.timerTicks event w.port60 }

/-- `if (interrupt_handlers[int_no]) handler(regs)` -/
def World.dispatch (w : World) (regs : Registers) (event : KeyboardEvent) : Res World :=
  if regs.intNo.toNat < isrCount then
    match w.interruptHandlers regs.intNo.toNat with
    | some handler => handler.call w regs event
    | none => return w
  else .error .outOfBounds

/-- the loop at the end is left by no exception -/
def isrHandler (w : World) (regs : Registers) (event : KeyboardEvent) : Res World := do
  let w ← w.printf "ISR Exception: Interrupt %d, Error Code: %d\n" [.num regs.intNo, .num regs.errCode]
  let w ← w.dispatch regs event
  if regs.intNo < 32 then
    let _ ← w.printf "Critical CPU Exception! Halting...\n" []
    .error .noFuel
  else return w

def irqHandler (w : World) (regs : Registers) (event : KeyboardEvent) : Res World :=
  { w with pics := irqEoi w.pics regs.intNo }.dispatch regs event

/-- a call that returns, with no step on the way that C leaves undefined: a call that runs into a `Fault`
has no successor, whatever the processor does in its place -/
def CFunction.effect (f : CFunction) (m : Mem) (ptr : Word) (w w' : World) : Prop :=
  match f with
  | .isrHandler => ∃ event, FirstKernel.isrHandler w (Registers.read m ptr) event = .ok w'
  | .irqHandler => ∃ event, FirstKernel.irqHandler w (Registers.read m ptr) event = .ok w'

/-- the code of the kernel in memory: the 48 stubs, and `sti; loop: hlt; back: jmp loop` -/
structure Image where
  code : Word → Option (Instr CFunction × Word)
  stubs : CommonStubs
  isrStub : Nat → Word
  irqStub : Nat → Word
  entry : Word
  loop : Word
  back : Word
  behind : Word
  loaded : ∀ v, v < 48 → Loaded code (if v < 32 then isrStub v else irqStub (v - 32)) (service stubs v)
  sti : code entry = some (.sti, loop)
  hlt : code loop = some (.hlt, back)
  jmp : code back = some (.jmp loop, behind)

/-- the processor behind `init_gdt`, `init_idt` and `init_pic` -/
def Image.board (g : Image) (gdt : Nat → GDTEntry) (idt : Nat → IDTEntry) : Board CFunction World where
  code := g.code
  effect := CFunction.effect
  gate := gateway (gdtTable (initGdt gdt)) (idtTable (initIdt g.isrStub g.irqStub idt))
  ack v w w' := ∃ p c, w.pics.Acks v p ∧
    w' = { w with pics := p, port60 := c, given := w.given ++ [(v, c)] }

/-- the handlers behind `vmm_init`, `keyboard_install` and `init_timer` -/
def bootHandlers : Nat → Option Isr :=
  let handlers := registerInterruptHandler (fun _ => none) 14 .pageFaultHandler
  let handlers := registerInterruptHandler handlers 33 .keyboardCallback
  registerInterruptHandler handlers 32 .timerHandler

/-- what `kernel_main` has set up at its `sti`, from controllers in any state -/
def bootWorld (p : Pair) (s : Machine) (term : Terminal) (out : List Byte) : Res World := do
  return ⟨(picUnmaskIrq (picRemap p) 1).1, 0, 0, bootHandlers, 0, ← bootSession s term out, []⟩

/-- `kernel_main` at its `sti`, with `p` as the controllers were before -/
structure Image.Started (g : Image) (p : Pair) (s : State World) : Prop where
  eip : s.eip = g.entry
  seg : s.seg = gdtFlush
  room : 60 ≤ (s.gpr .esp).toNat
  world : ∃ m term out, bootWorld p m term out = .ok s.world

def blankEvent : KeyboardEvent := ⟨0, false, false, false, false, false, false, false, false⟩

/-- what an interrupt does to the ticks and the session -/
def serve (w : Word × ShellSession) (x : Nat × Byte) : Res (Word × ShellSession) :=
  if x.1 = 32 then return (w.1 + 1, w.2)
  else if x.1 = 33 then do return (w.1, ← keyboardCallback w.2 w.1 blankEvent x.2)
  else return w

/-- the stub of vector `v` at `16 v`, the common parts at `0x1000` and `0x2000`, the loop at `0x3000` -/
def imageCode (a : Word) : Option (Instr CFunction × Word) :=
  let stubs : CommonStubs := ⟨0x1000, 0x2000⟩
  let table := isrStubTable stubs ++ irqStubTable stubs
  let instr :=
    if a < 0x1000 then (table.getD (a / 16).toNat [])[(a % 16).toNat]?
    else if a < 0x2000 then (commonStub .isrHandler)[(a - 0x1000).toNat]?
    else if a < 0x3000 then (commonStub .irqHandler)[(a - 0x2000).toNat]?
    else [.sti, .hlt, .jmp 0x3001][(a - 0x3000).toNat]?
  instr.map fun i => (i, a + 1)

def testImage : Image where
  code := imageCode
  stubs := ⟨0x1000, 0x2000⟩
  isrStub v := BitVec.ofNat 32 (16 * v)
  irqStub v := BitVec.ofNat 32 (16 * (v + 32))
  entry := 0x3000
  loop := 0x3001
  back := 0x3002
  behind := 0x3003
  loaded := by decide +kernel
  sti := rfl
  hlt := rfl
  jmp := rfl

/-- controllers that mask the lines of `mask` -/
def testChips (mask : Byte) : Pair :=
  let c : Chip := ⟨mask, 0, 0, 0, false, 0, .nothing⟩
  ⟨c, c⟩

def testPics (mask : Byte) : Pair := (picUnmaskIrq (picRemap (testChips mask)) 1).1

/-- `testImage` at the `sti` -/
def testState (mask : Byte) (t : ShellSession) : State World where
  gpr _ := 0x9000
  seg := gdtFlush
  eip := 0x3000
  eflags := 0x2
  shadow := false
  mem _ := 0
  world := ⟨testPics mask, 0, 0, bootHandlers, 0, t, []⟩

/-- its processor -/
def testBoard : Board CFunction World :=
  testImage.board (fun _ => ⟨0, 0, 0, 0, 0, 0⟩) fun _ => ⟨0, 0, 0, 0, 0⟩

/-- what is on the screen before -/
def testTerm : Terminal := ⟨0, 0, 0, fun _ => 0, 0, 0⟩

theorem testState_started (mask : Byte) : ∃ t, bootSession bootMachine testTerm [] = .ok t ∧
    testImage.Started (testChips mask) (testState mask t) := by
  obtain ⟨t, _, e, _⟩ := @boot_atWork bootMachine testTerm []
  have hw : bootWorld (testChips mask) bootMachine testTerm [] = .ok (testState mask t).world := by
    unfold bootWorld
    rw [e]
    rfl
  exact ⟨t, e, rfl, rfl, (by decide : 60 ≤ (0x9000 : Word).toNat), _, _, _, hw⟩

section
variable {g : Image} {gdt : Nat → GDTEntry} {idt : Nat → IDTEntry} {s s' s0 : State World}
  {w w' : World} {p q : Pair} {v : Nat} {c : Byte} {event : KeyboardEvent}

/-! ## the handlers -/

theorem bootHandlers_keyboard : bootHandlers 33 = some .keyboardCallback := rfl

theorem bootHandlers_other (h14 : v ≠ 14) (h32 : v ≠ 32) (h33 : v ≠ 33) : bootHandlers v = none := by
  show Function.update (Function.update (Function.update (fun _ => none) 14 _) 33 _) 32 _ v = _
  rw [Function.update_of_ne h32, Function.update_of_ne h33, Function.update_of_ne h14]

/-- the fields that `read_keyboard` leaves as they are do not matter -/
theorem callback_event (t : ShellSession) (timerTicks : Word) (event : KeyboardEvent) (c : Byte) :
    keyboardCallback t timerTicks event c = keyboardCallback t timerTicks blankEvent c := rfl

/-- the end of interrupt, and what `serve` says -/
theorem irqHandler_serve (hv : v < 48) (h32 : 32 ≤ v) (hh : w.interruptHandlers = bootHandlers) {regs : Registers}
    (hr : regs.intNo = BitVec.ofNat 32 v) : irqHandler w regs event
      = (serve (w.timerTicks, w.session) (v, w.port60)).map fun r =>
          { w with pics := irqEoi w.pics (BitVec.ofNat 32 v), timerTicks := r.1, session := r.2 } := by
  have hnum : (BitVec.ofNat 32 v).toNat = v := by
    rw [BitVec.toNat_ofNat]
    omega
  unfold irqHandler World.dispatch serve
  simp only [hr, hnum]
  rw [if_pos (by unfold isrCount; omega), hh]
  by_cases htimer : v = 32
  · subst htimer
    rfl
  · rw [if_neg htimer]
    by_cases h33 : v = 33
    · subst h33
      rw [bootHandlers_keyboard, if_pos rfl]
      unfold Isr.call
      simp only [callback_event _ _ event]
      cases keyboardCallback w.session w.timerTicks blankEvent w.port60 <;> rfl
    · rw [bootHandlers_other (by omega) htimer h33, if_neg h33]
      rfl

/-- an exception is the end -/
theorem isrHandler_halts {regs : Registers} (h : regs.intNo < 32) : isrHandler w regs event ≠ .ok w' := by
  unfold isrHandler
  intro e
  obtain ⟨w1, _, e⟩ := bind_eq_ok e
  obtain ⟨w2, _, e⟩ := bind_eq_ok e
  rw [if_pos h] at e
  obtain ⟨_, _, e⟩ := bind_eq_ok e
  cases e

/-! ## the code behind the gates -/

theorem service_closed (stubs : CommonStubs) (hv : v < 48) : ClosedUntilIret (service stubs v) := by
  rw [service_eq stubs hv, commonStub_parts]
  refine ⟨(if v ∈ codedVectors then codedStub (commonOf stubs v) v else dummyStub (commonOf stubs v) v)
    ++ (commonEntry ++ [.call (calls v)] ++ commonExit.dropLast), ?_, fun i hi => ?_⟩
  · simp [commonExit]
  · rcases List.mem_append.mp hi with hi | hi
    · have hplain : i = .cli ∨ (∃ n, i = .pushl n) ∨ ∃ a, i = .jmp a := by
        revert hi
        split <;> simp [codedStub, dummyStub] <;> grind
      rcases hplain with rfl | ⟨n, rfl⟩ | ⟨a, rfl⟩ <;> simp
    · simp only [commonEntry, commonExit, List.dropLast] at hi
      simp at hi
      grind

theorem gate_some {selector : BitVec 16} {offset : Word}
    (h : (g.board gdt idt).gate v = some (selector, offset)) :
    v < 48 ∧ selector = 0x08 ∧ offset = if v < 32 then g.isrStub v else g.irqStub (v - 32) := by
  have h' : gateway (gdtTable (initGdt gdt)) (idtTable (initIdt g.isrStub g.irqStub idt)) v
      = some (selector, offset) := h
  by_cases hv : v < 48
  · rw [gate_stub gdt idt g.isrStub g.irqStub hv] at h'
    obtain ⟨h1, h2⟩ := Prod.mk.inj (Option.some.inj h')
    exact ⟨hv, h1.symm, h2.symm⟩
  · rw [gate_nowhere gdt idt g.isrStub g.irqStub (by omega)] at h'
    cases h'

theorem Image.served (g : Image) (gdt : Nat → GDTEntry) (idt : Nat → IDTEntry) :
    Served (g.board gdt idt) (service g.stubs) where
  loaded v selector offset h := by
    obtain ⟨hv, _, rfl⟩ := gate_some h
    exact g.loaded v hv
  closed v _ _ h := service_closed g.stubs (gate_some h).1

/-! ## between two interrupts -/

/-- `s` is in the loop that `s0` has entered: only lines that `p` did not mask have been served, and that
of the keyboard -/
structure AtLoop (g : Image) (p : Pair) (s0 s : State World) : Prop where
  gpr : s.gpr = s0.gpr
  seg : s.seg = gdtFlush
  mem : ∀ x, (s0.gpr .esp).toNat ≤ x → s.mem x = s0.mem x
  place : s.eip = g.entry ∨ (s.eip = g.loop ∨ s.eip = g.back) ∧ s.eflags &&& flagIF ≠ 0#32
  pics : Settled s0.world.pics s.world.pics
  handlers : s.world.interruptHandlers = bootHandlers
  vectors : ∀ x ∈ s.world.given, 32 ≤ x.1 ∧ x.1 < 48 ∧
    (Masked p (x.1 - 32) = false ∨ x.1 = 33 ∨ x.1 = 39 ∨ x.1 = 47)
  served : s.world.given.foldlM serve (0, s0.world.session) = .ok (s.world.timerTicks, s.world.session)

theorem bootWorld_eq {m : Machine} {term : Terminal} {out : List Byte}
    (e : bootWorld p m term out = .ok w) : ∃ t, bootSession m term out = .ok t ∧
      w = ⟨(picUnmaskIrq (picRemap p) 1).1, 0, 0, bootHandlers, 0, t, []⟩ := by
  obtain ⟨t, e1, e⟩ := bind_eq_ok e
  exact ⟨t, e1, (Except.ok.inj e).symm⟩

theorem Image.Started.pics (h : g.Started p s) : s.world.pics = (picUnmaskIrq (picRemap p) 1).1 := by
  obtain ⟨m, term, out, e⟩ := h.world
  obtain ⟨t, _, hw⟩ := bootWorld_eq e
  rw [hw]

theorem Image.Started.programmed (h : g.Started p s) : Programmed s.world.pics := by
  have hp := programmed_remap p
  rw [h.pics, @picUnmaskIrq_low (picRemap p) 1 hp.master.await (by decide)]
  exact ⟨⟨hp.master.base, hp.master.cascade, hp.master.autoEoi, hp.master.await⟩, hp.slave⟩

/-- the lines masked before, without that of the keyboard -/
theorem Image.Started.masked (h : g.Started p s) {i : Nat} (hi : i < 16) :
    Masked s.world.pics i = (Masked p i && decide (i ≠ 1)) := by
  have hp := programmed_remap p
  have hmask := (@picUnmaskIrq_spec (picRemap p) 1 hp.master.await hp.slave.await (by decide)).2.1 i hi
  rw [h.pics, hmask, masked_remap]
  rfl

theorem Image.Started.atLoop (h : g.Started p s) : AtLoop g p s s := by
  obtain ⟨m, term, out, e⟩ := h.world
  obtain ⟨t, _, hw⟩ := bootWorld_eq e
  refine ⟨rfl, h.seg, fun _ _ => rfl, .inl h.eip, .refl _, ?_, ?_, ?_⟩
  · rw [hw]
  · rw [hw]
    exact fun x hx => absurd hx List.not_mem_nil
  · rw [hw]
    rfl

/-- an instruction of the loop -/
theorem AtLoop.exec (h : AtLoop g p s0 s) {i : Instr CFunction} {next : Word}
    (hc : g.code s.eip = some (i, next)) (hd : i.Does CFunction.effect (s.step next) s') :
    AtLoop g p s0 s' := by
  rcases h.place with he | ⟨he | he, hf⟩
  · rw [he, g.sti] at hc
    cases hc
    cases hd
    refine ⟨h.gpr, h.seg, h.mem, .inr ⟨.inl rfl, ?_⟩, h.pics, h.handlers, h.vectors, h.served⟩
    show (s.eflags ||| flagIF) &&& flagIF ≠ 0#32
    rw [or_mask_self]
    decide
  · rw [he, g.hlt] at hc
    cases hc
    cases hd
    exact ⟨h.gpr, h.seg, h.mem, .inr ⟨.inr rfl, hf⟩, h.pics, h.handlers, h.vectors, h.served⟩
  · rw [he, g.jmp] at hc
    cases hc
    cases hd
    exact ⟨h.gpr, h.seg, h.mem, .inr ⟨.inl rfl, hf⟩, h.pics, h.handlers, h.vectors, h.served⟩

/-- the processor pushes no error code for an interrupt -/
theorem not_coded (h : 32 ≤ v) : (none : Option Word).isSome = decide (v ∈ codedVectors) := by
  have hno : v ∉ codedVectors := by
    simp [codedVectors]
    omega
  rw [decide_eq_false hno]
  rfl

theorem Settled.masked (h : Settled p q) (i : Nat) : Masked q i = Masked p i := by
  obtain ⟨a, b, rfl, _⟩ := h
  rfl

/-- the service of an interrupt that is let in, up to its `iret` -/
theorem AtLoop.service (h : AtLoop g p s0 s) (hs : g.Started p s0) {selector : BitVec 16} {offset : Word}
    (hg : (g.board gdt idt).gate v = some (selector, offset)) (ha : (g.board gdt idt).ack v s.world w)
    (hp : Path (g.board gdt idt) (FirstKernel.service g.stubs v) (s.deliver selector offset w) s') :
    AtLoop g p s0 s' := by
  obtain ⟨hv, rfl, _⟩ := gate_some hg
  obtain ⟨q, c, hacks, rfl⟩ := ha
  obtain ⟨⟨h32, h48, hmask⟩, hsettled⟩ := (h.pics.programmed hs.programmed).acks hacks
  have hcode := not_coded h32
  obtain ⟨hun, mem, ptr, heff, hread⟩ :=
    @service_spec _ _ s s' _ v none 0x08 offset _ hv hcode (by rw [h.gpr]; exact hs.room) hp
  have hcalls : calls v = .irqHandler := if_neg (by omega)
  rw [hcalls] at heff
  obtain ⟨event, e⟩ := heff
  have hnum : (Registers.read mem ptr).intNo = BitVec.ofNat 32 v := by rw [hread]; rfl
  have e := (irqHandler_serve hv h32 (by exact h.handlers) hnum).symm.trans e
  obtain ⟨r, er, hw⟩ := map_eq_ok e
  refine ⟨hun.gpr.trans h.gpr, ?_, fun x hx => ?_, ?_, ?_, ?_, ?_, ?_⟩
  · rw [hun.seg, h.seg]
    funext r
    cases r <;> rfl
  · rw [hun.mem x (by rw [h.gpr]; exact hx)]
    exact h.mem x hx
  · rw [hun.eip, hun.eflags]
    exact h.place
  · rw [← hw]
    exact h.pics.trans hsettled
  · rw [← hw]
    exact h.handlers
  · rw [← hw]
    intro x hx
    rcases List.mem_append.mp hx with hx | hx
    · exact h.vectors x hx
    · rw [List.mem_singleton.mp hx]
      refine ⟨h32, h48, ?_⟩
      rw [h.pics.masked, hs.masked (by omega)] at hmask
      rcases hmask with hm | hm
      · rcases Bool.and_eq_false_iff.mp hm with hm | hm
        · exact .inl hm
        · have h1 : v - 32 = 1 := not_not.mp (of_decide_eq_false hm)
          exact .inr (.inl (by omega))
      · exact .inr (.inr hm)
  · rw [← hw]
    show (s.world.given ++ [(v, c)]).foldlM serve _ = _
    rw [List.foldlM_append, h.served, bind_ok, List.foldlM_cons, er, bind_ok]
    rfl

/-! ## runs -/

theorem atLoop_run (hs : g.Started p s0)
    (h : Run.Reachable (atomic (g.board gdt idt) (service g.stubs) fun t => t = s0) s) : AtLoop g p s0 s := by
  refine h.invariant ?_ ?_
  · rintro t rfl
    exact hs.atLoop
  · intro t e t' _ ih hstep
    cases e with
    | exec =>
      obtain ⟨i, next, hc, hd⟩ := hstep
      exact ih.exec hc hd
    | vector v =>
      obtain ⟨_, selector, offset, w, hg, ha, hp⟩ := hstep
      exact ih.service hs hg ha hp

theorem serve_ticks {xs : List (Nat × Byte)} {r r' : Word × ShellSession}
    (e : xs.foldlM serve r = .ok r') :
    r'.1 = r.1 + BitVec.ofNat 32 (xs.countP fun x => decide (x.1 = 32)) := by
  induction xs generalizing r with
  | nil =>
    cases e
    exact (BitVec.add_zero _).symm
  | cons x xs ih =>
    obtain ⟨r1, e1, e⟩ := bind_eq_ok e
    rw [ih e, List.countP_cons]
    unfold serve at e1
    by_cases h32 : x.1 = 32
    · rw [if_pos h32] at e1
      cases e1
      rw [if_pos (decide_eq_true h32), BitVec.ofNat_add, BitVec.add_assoc, BitVec.add_comm 1]
      rfl
    · rw [if_neg h32] at e1
      have hsame : r1.1 = r.1 := by
        by_cases h33 : x.1 = 33
        · rw [if_pos h33] at e1
          obtain ⟨t, _, e1⟩ := bind_eq_ok e1
          cases e1
          rfl
        · rw [if_neg h33] at e1
          cases e1
          rfl
      rw [hsame, if_neg (by simpa using h32), Nat.add_zero]

theorem serve_session {x : Nat × Byte} {r r' : Word × ShellSession} (e : serve r x = .ok r')
    (h : Run.Reachable shellSessions r.2) : Run.Reachable shellSessions r'.2 := by
  unfold serve at e
  by_cases h32 : x.1 = 32
  · rw [if_pos h32] at e
    cases e
    exact h
  · rw [if_neg h32] at e
    by_cases h33 : x.1 = 33
    · rw [if_pos h33] at e
      obtain ⟨t, et, e⟩ := bind_eq_ok e
      cases e
      exact h.step (i := ⟨r.1, blankEvent, x.2⟩) et
    · rw [if_neg h33] at e
      cases e
      exact h

theorem serve_sessions {xs : List (Nat × Byte)} {r r' : Word × ShellSession}
    (e : xs.foldlM serve r = .ok r') (h : Run.Reachable shellSessions r.2) :
    Run.Reachable shellSessions r'.2 := by
  induction xs generalizing r with
  | nil =>
    cases e
    exact h
  | cons x xs ih =>
    obtain ⟨r1, e1, e⟩ := bind_eq_ok e
    exact ih e (serve_session e1 h)

/-- the session in the kernel is one of the sessions -/
theorem AtLoop.session (h : AtLoop g p s0 s) (hs : g.Started p s0) :
    Run.Reachable shellSessions s.world.session := by
  obtain ⟨m, term, out, e⟩ := hs.world
  obtain ⟨t, et, hw⟩ := bootWorld_eq e
  refine serve_sessions h.served (.init ⟨m, term, out, ?_⟩)
  rw [hw]
  exact et

/-- when the handlers of an interrupt come back -/
theorem serve_returns_iff {readme : Word} (h : AtWork readme w.session) :
    (∃ r, serve (w.timerTicks, w.session) (v, c) = .ok r) ↔ ¬ (v = 33 ∧ Submits c ∧
      Crashes w.session.kernel w.timerTicks (cString w.session.shell.line)) := by
  have hkey := (callback_iff h ⟨w.timerTicks, blankEvent, c⟩).2
  unfold serve
  by_cases h32 : v = 32
  · rw [if_pos h32]
    exact ⟨fun _ hn => absurd hn.1 (by omega), fun _ => ⟨_, rfl⟩⟩
  · rw [if_neg h32]
    by_cases h33 : v = 33
    · rw [if_pos h33]
      constructor
      · rintro ⟨r, e⟩ ⟨_, hc, hcrash⟩
        obtain ⟨t, et, _⟩ := bind_eq_ok e
        exact hkey.mp ⟨t, et⟩ hc hcrash
      · intro hn
        obtain ⟨t, et⟩ := hkey.mpr fun hc hcrash => hn ⟨h33, hc, hcrash⟩
        exact ⟨_, by rw [et]; rfl⟩
    · rw [if_neg h33]
      exact ⟨fun _ hn => absurd hn.1 h33, fun _ => ⟨_, rfl⟩⟩

/-- the controllers pass again what they passed at the start -/
theorem Settled.passes (h : Settled p q) {i : Nat} :
    (p.master.Passes i → q.master.Passes i) ∧ (p.slave.Passes i → q.slave.Passes i) := by
  obtain ⟨a, b, rfl, hab⟩ := h
  exact ⟨fun ⟨h1, h2, h3, h4⟩ => ⟨h1, h2, h3, fun j hj => (hab j).1 (h4 j hj)⟩,
    fun ⟨h1, h2, h3, h4⟩ => ⟨h1, h2, h3, fun j hj => (hab j).2 (h4 j hj)⟩⟩

/-- **Whenever the interrupts come, the kernel is in its loop, or in the service of one interrupt with
interrupts disabled.**  In the loop the registers and the stack are as at the start, only lines that are
not masked have been served, and ticks and session are those of the handlers run one after the other. -/
theorem kernel_serves (hs : g.Started p s0)
    (h : Run.Reachable (machine (g.board gdt idt) fun t => t = s0) s) :
    (AtLoop g p s0 s ∧
      s.world.timerTicks = BitVec.ofNat 32 (s.world.given.countP fun x => decide (x.1 = 32))) ∨
    ∃ m v, AtLoop g p s0 m ∧ Inside (g.board gdt idt) (service g.stubs) m s v ∧ ¬ s.Open := by
  have hserved := g.served gdt idt
  rcases machine_atomic hserved h with h | ⟨m, v, hm, hin⟩
  · have hl := atLoop_run hs h
    refine .inl ⟨hl, ?_⟩
    exact (serve_ticks hl.served).trans (BitVec.zero_add _)
  · exact .inr ⟨m, v, atLoop_run hs hm, hin, hin.not_open hserved⟩

/-- a tick behind the `hlt` -/
theorem tick_run : ∃ s0 s : State World, testImage.Started (testChips 0) s0 ∧
    bootSession bootMachine testTerm [] = .ok s0.world.session ∧
    Run.Reachable (machine testBoard fun t => t = s0) s ∧ s.eip = 0x200 ∧ s.world.given = [(32, 0)] := by
  obtain ⟨t, ht, hs⟩ := testState_started 0
  let s0 := testState 0 t
  let s1 := (Instr.sti (φ := CFunction)).apply (s0.step 0x3001)
  let s2 := (Instr.hlt (φ := CFunction)).apply (s1.step 0x3002)
  let p := { testPics 0 with master := (testPics 0).master.serve 0 }
  let w : World := { s0.world with pics := p, port60 := 0, given := [(32, 0)] }
  have hpass : (testPics 0).master.Passes 0 := ⟨by decide, by decide, by decide, by decide⟩
  have hack : testBoard.ack 32 s2.world w := ⟨p, 0, .master hpass (by decide), rfl⟩
  have hgate : testBoard.gate 32 = some (0x08, 0x200) := gate_stub _ _ _ _ (by decide)
  have hopen : s2.Open := ⟨(by decide : ((0x2 : Word) ||| flagIF) &&& flagIF ≠ 0#32), rfl⟩
  have hsti : testBoard.code 0x3000 = some (.sti, 0x3001) := rfl
  have hhlt : testBoard.code 0x3001 = some (.hlt, 0x3002) := rfl
  have h0 : Run.Reachable (machine testBoard fun t => t = s0) s0 := .init rfl
  have h1 : Run.Reachable (machine testBoard fun t => t = s0) s1 :=
    h0.step (i := .exec) ⟨.sti, 0x3001, hsti, rfl⟩
  have h2 : Run.Reachable (machine testBoard fun t => t = s0) s2 :=
    h1.step (i := .exec) ⟨.hlt, 0x3002, hhlt, rfl⟩
  have h3 : Run.Reachable (machine testBoard fun t => t = s0) (s2.deliver 0x08 0x200 w) :=
    h2.step (i := .vector 32) ⟨hopen, 0x08, 0x200, w, hgate, hack, rfl⟩
  exact ⟨s0, _, hs, ht, h3, rfl, rfl⟩

/-- the stub of the timer is not the loop -/
theorem stub_not_loop (heip : s.eip = 0x200) : ¬ AtLoop testImage p s0 s := by
  intro h
  rcases h.place with h0 | ⟨h0 | h0, _⟩
  · cases (by decide : (0x200 : Word) ≠ 0x3000) (heip.symm.trans h0)
  · cases (by decide : (0x200 : Word) ≠ 0x3001) (heip.symm.trans h0)
  · cases (by decide : (0x200 : Word) ≠ 0x3002) (heip.symm.trans h0)

theorem kernel_serves_tick : ∃ s0 s : State World, testImage.Started (testChips 0) s0 ∧
    s.world.given = [(32, 0)] ∧ ∃ m v, AtLoop testImage (testChips 0) s0 m ∧
      Inside testBoard (service testImage.stubs) m s v ∧ ¬ s.Open := by
  obtain ⟨s0, s, hs, _, h, heip, hgiven⟩ := tick_run
  refine ⟨s0, s, hs, hgiven, ?_⟩
  rcases kernel_serves hs h with ⟨hl, _⟩ | h
  · exact absurd hl (stub_not_loop heip)
  · exact h

/-- **In the loop every line that the controllers passed at the start is passed again, and the service of
a vector gets to its `iret` with no step that C leaves undefined exactly unless it is that of a key that
passes on a line that `Crashes`; that of an exception never gets there.** -/
theorem kernel_ends_iff (hs : g.Started p s0) (h : AtLoop g p s0 s) :
    (∀ i, (s0.world.pics.master.Passes i → s.world.pics.master.Passes i) ∧
      (s0.world.pics.slave.Passes i → s.world.pics.slave.Passes i)) ∧
    (∀ v w, (g.board gdt idt).ack v s.world w → ∃ offset, (g.board gdt idt).gate v = some (0x08, offset) ∧
      ((∃ s', Path (g.board gdt idt) (service g.stubs v) (s.deliver 0x08 offset w) s') ↔
        ¬ (v = 33 ∧ Submits w.port60 ∧
          Crashes w.session.kernel w.timerTicks (cString w.session.shell.line)))) ∧
    ∀ v offset w code, v < 32 → code.isSome = decide (v ∈ codedVectors) →
      ¬ ∃ s', Path (g.board gdt idt) (service g.stubs v) (enter s 0x08 offset w code) s' := by
  have hroom : 60 ≤ (s.gpr .esp).toNat := by rw [h.gpr]; exact hs.room
  refine ⟨fun i => h.pics.passes, fun v w ha => ?_, fun v offset w code hv hcode ⟨s', hp⟩ => ?_⟩
  · obtain ⟨q, c, hacks, hw⟩ := ha
    obtain ⟨⟨h32, hv, _⟩, _⟩ := (h.pics.programmed hs.programmed).acks hacks
    have hh : w.interruptHandlers = bootHandlers := by rw [hw]; exact h.handlers
    have hgate := gate_stub gdt idt g.isrStub g.irqStub hv
    obtain ⟨readme, hwork⟩ : ∃ readme, AtWork readme w.session := by
      rw [hw]
      exact atWork_reachable (h.session hs)
    have hcode : (none : Option Word).isSome = decide (v ∈ codedVectors) := not_coded h32
    have hcalls : calls v = .irqHandler := if_neg (by omega)
    refine ⟨_, hgate, Iff.trans ?_ (serve_returns_iff hwork)⟩
    constructor
    · rintro ⟨s', hp⟩
      obtain ⟨_, mem, ptr, heff, hread⟩ := @service_spec _ _ s s' _ v none 0x08 _ _ hv hcode hroom hp
      rw [hcalls] at heff
      obtain ⟨event, e⟩ := heff
      have hnum : (Registers.read mem ptr).intNo = BitVec.ofNat 32 v := by rw [hread]; rfl
      obtain ⟨r, er, _⟩ := map_eq_ok ((irqHandler_serve hv h32 hh hnum).symm.trans e)
      exact ⟨r, er⟩
    · rintro ⟨r, er⟩
      refine @service_ends _ (g.board gdt idt) s _ v none 0x08 _ _ hv hcode hroom (g.loaded v hv) ?_
      intro mem ptr hread
      have hnum : (Registers.read mem ptr).intNo = BitVec.ofNat 32 v := by rw [hread]; rfl
      have hmap : irqHandler w (Registers.read mem ptr) blankEvent = _ := irqHandler_serve hv h32 hh hnum
      rw [er] at hmap
      rw [hcalls]
      exact ⟨_, blankEvent, hmap⟩
  · obtain ⟨_, mem, ptr, heff, hread⟩ := service_spec (by omega) hcode hroom hp
    have hcalls : calls v = .isrHandler := if_pos hv
    rw [hcalls] at heff
    obtain ⟨event, e⟩ := heff
    refine isrHandler_halts ?_ e
    rw [hread, BitVec.lt_def]
    show (BitVec.ofNat 32 v).toNat < 32
    rw [BitVec.toNat_ofNat]
    omega

/-- a key at the first prompt, with all lines but that of the keyboard masked -/
def firstKey (t : ShellSession) (c : Byte) : World :=
  { (testState 0xFF t).world with
    pics := { testPics 0xFF with master := (testPics 0xFF).master.serve 1 }
    port60 := c
    given := [(33, c)] }

theorem firstKey_ack (t : ShellSession) (c : Byte) :
    testBoard.ack 33 (testState 0xFF t).world (firstKey t c) := by
  have hpass : (testPics 0xFF).master.Passes 1 := ⟨by decide, by decide, by decide, by decide⟩
  exact ⟨_, c, .master hpass (by decide), rfl⟩

/-- the key `a` is served, Enter on the empty line runs into a null pointer -/
theorem kernel_ends_iff_keys : ∃ (t : ShellSession) (offset : Word),
    testImage.Started (testChips 0xFF) (testState 0xFF t) ∧
      (∃ s', Path testBoard (service testImage.stubs 33)
        ((testState 0xFF t).deliver 0x08 offset (firstKey t 0x1E)) s') ∧
      ¬ ∃ s', Path testBoard (service testImage.stubs 33)
        ((testState 0xFF t).deliver 0x08 offset (firstKey t 0x1C)) s' := by
  obtain ⟨t, ht, hs⟩ := testState_started 0xFF
  obtain ⟨offset, hgate, hiff⟩ := (kernel_ends_iff hs hs.atLoop).2.1 33 _ (firstKey_ack t 0x1E)
  obtain ⟨offset', hgate', hiff'⟩ := (kernel_ends_iff hs hs.atLoop).2.1 33 _ (firstKey_ack t 0x1C)
  have hsame : offset' = offset := (Prod.mk.inj (Option.some.inj (hgate'.symm.trans hgate))).2
  rw [hsame] at hiff'
  refine ⟨t, offset, hs, hiff.mpr fun hn => ?_, fun hp => hiff'.mp hp ⟨rfl, .inl rfl, ?_⟩⟩
  · rcases hn.2.1 with h | h | h <;> cases h
  · have hline : (firstKey t 0x1C).session.shell.line = [] := boot_line ht
    intro w ws f hw _
    rw [hline] at hw
    cases hw

end

end FirstKernel
