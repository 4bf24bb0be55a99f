import FirstKernel.Interrupt.Irq
import FirstKernel.Lib.Ports
import FirstKernel.Lib.I8253

/-!
# `keyboard_install` and `init_timer`

What `kernel_main` does to the keyboard and to the timer before its `sti`.  The controller of the keyboard
may be any device behind the ports `0x60` and `0x64`.

* `CommandRule`            what may follow what on these ports;
* `Answered`               the end of the log, where the acknowledgement is awaited;
* `keyboard_handshake`     `keyboard_enable` with any controller, and with one that does not keep it waiting;
* `initTimer_period_iff`   the frequencies that `init_timer` can set up;
* `installed_boot`         the state at the `sti` is what the two calls leave.
-/

namespace FirstKernel
open ByteMem I8259 I8253 Ports

def kbdDataPort : BitVec 16 := 0x60

section
variable {σ : Type}

def waitForInputClear (D : Device σ) : Nat → Bus σ → Res (Bus σ) :=
  readWhile D 0x64 (fun status => status &&& 2 ≠ 0) id .noFuel

def keyboardFlush (D : Device σ) : Nat → Bus σ → Res (Bus σ) :=
  readWhile D 0x64 (fun status => status &&& 1 ≠ 0) (fun b => (D.inb 0x60 b).2) .noFuel

/-- the response is read and not looked at -/
def keyboardReset (D : Device σ) (fuel : Nat) (b : Bus σ) : Res (Bus σ) := do
  let b ← waitForInputClear D fuel b
  let b := D.outb 0x64 0xFF b
  return (D.inb 0x60 b).2

def responseLine (response : Byte) : Printf :=
  ⟨"Keyboard response: 0x%x\n", [.num (response.setWidth 32)]⟩

def noAckLine : Printf := ⟨"Warning: No ACK received from keyboard\n", []⟩

/-- the `for` loop with `n` rounds left -/
def awaitAck (D : Device σ) : Nat → Bus σ → Bus σ × List Printf
  | 0, b => (b, [noAckLine])
  | n+1, b =>
    let status := D.inb 0x64 b
    if status.1 &&& 1 ≠ 0 then
      let response := D.inb 0x60 status.2
      if response.1 = 0xFA then (response.2, [responseLine response.1])
      else
        let rest := awaitAck D n response.2
        (rest.1, responseLine response.1 :: rest.2)
    else awaitAck D n status.2

/-- `fuel` bounds each of the loops that wait -/
def keyboardEnable (D : Device σ) (fuel : Nat) (b : Bus σ) : Res (Bus σ × List Printf) := do
  let b ← keyboardReset D fuel b
  let b ← keyboardFlush D fuel b
  let b ← waitForInputClear D fuel b
  let b := D.outb 0x64 0xAE b
  let b ← waitForInputClear D fuel b
  let b := D.outb kbdDataPort 0xF4 b
  return awaitAck D 1000 b

/-- what a call leaves: the handlers, the interrupt controllers and the output -/
structure Install where
  interruptHandlers : Nat → Option Isr
  pics : Pair
  console : List Printf

def keyboardInstall (D : Device σ) (fuel : Nat) (b : Bus σ) (w : Install) : Res (Bus σ × Install) := do
  let (b, lines) ← keyboardEnable D fuel b
  let (pics, errors) := picUnmaskIrq w.pics 1
  return (b, ⟨registerInterruptHandler w.interruptHandlers 33 .keyboardCallback, pics,
    w.console ++ ⟨"[KB] Enabling keyboard...", []⟩ :: lines ++ errors⟩)

end

/-- `none` is a division by zero -/
def initTimer (c : Counter) (w : Install) (frequency : Word) : Option (Counter × Install) :=
  if frequency = 0 then none
  else
    let divisor := 1193180 / frequency
    let c := c.control 0x36
    let c := c.data ((divisor &&& 0xFF).setWidth 8)
    let c := c.data ((divisor >>> 8 &&& 0xFF).setWidth 8)
    some (c, ⟨registerInterruptHandler w.interruptHandlers 32 .timerHandler, w.pics,
      w.console ++ [⟨"[TIMER] Timer initialized to %d Hz\n", [.num frequency]⟩]⟩)

/-! ## the handshake with the keyboard -/

/-- behind the last access: a command only when the input buffer was seen empty, and data is read only
when there was some, or in answer to the reset -/
def CommandRule (last : Option Access) : Access → Prop
  | .outb _ _ => ∃ status, last = some (.inb 0x64 status) ∧ status &&& 2 = 0
  | .inb port _ => port = 0x64 ∨ port = 0x60 ∧
      ((∃ status, last = some (.inb 0x64 status) ∧ status &&& 1 ≠ 0) ∨ last = some (.outb 0x64 0xFF))

/-- `more` is the end of a log in which `n` polls awaited the acknowledgement, with the lines printed -/
structure Answered (n : Nat) (more : List Access) (lines : List Printf) : Prop where
  silent : writes more = []
  polls : (readings 0x64 more).length ≤ n
  lines : lines = (readings 0x60 more).map responseLine ++
    if 0xFA ∈ readings 0x60 more then [] else [noAckLine]
  first : 0xFA ∉ (readings 0x60 more).dropLast
  last : 0xFA ∈ readings 0x60 more → more.head? = some (.inb 0x60 0xFA)
  all : 0xFA ∉ readings 0x60 more → (readings 0x64 more).length = n

/-- a controller that keeps no loop waiting: `rank` bounds what it has still to do -/
structure Prompt {σ : Type} (D : Device σ) (rank : σ → Nat) : Prop where
  input : ∀ s, (D.read 0x64 s).1 &&& 2 ≠ 0 → rank (D.read 0x64 s).2 < rank s
  output : ∀ s, (D.read 0x64 s).1 &&& 1 ≠ 0 → rank (D.read 0x60 (D.read 0x64 s).2).2 < rank s

section
variable {σ : Type} {D : Device σ} {fuel n : Nat} {b b' : Bus σ} {lines : List Printf}

theorem commandRule_status (last : Option Access) (value : Byte) : CommandRule last (.inb 0x64 value) :=
  .inl rfl

theorem waitForInputClear_spec (e : waitForInputClear D fuel b = .ok b') (hb : Obeys CommandRule b.log) :
    Obeys CommandRule b'.log ∧ (∃ status, b'.log.head? = some (.inb 0x64 status) ∧ status &&& 2 = 0) ∧
      writes b'.log = writes b.log := by
  obtain ⟨h1, ⟨status, h2, h3⟩, h4⟩ := readWhile_spec e commandRule_status (fun _ _ _ _ h => ⟨h, rfl⟩) hb
  exact ⟨h1, ⟨status, h2, not_not.mp (of_decide_eq_false h3)⟩, h4⟩

/-- a command behind the loop that waits for an empty input buffer -/
theorem afterWait_spec (e : waitForInputClear D fuel b = .ok b') (hb : Obeys CommandRule b.log)
    (port : BitVec 16) (value : Byte) : Obeys CommandRule (D.outb port value b').log ∧
      writes (D.outb port value b').log = writes b.log ++ [(port, value)] := by
  obtain ⟨h1, h2, h3⟩ := waitForInputClear_spec e hb
  refine ⟨⟨h2, h1⟩, ?_⟩
  rw [← h3]
  exact writes_outb port value b'.log

theorem keyboardReset_spec (e : keyboardReset D fuel b = .ok b') (hb : Obeys CommandRule b.log) :
    Obeys CommandRule b'.log ∧ writes b'.log = writes b.log ++ [(0x64, 0xFF)] := by
  unfold keyboardReset at e
  obtain ⟨b1, e1, e⟩ := bind_eq_ok e
  obtain ⟨h1, h2⟩ := afterWait_spec e1 hb 0x64 0xFF
  rw [← Except.ok.inj e]
  exact ⟨⟨.inr ⟨rfl, .inr rfl⟩, h1⟩, h2⟩

theorem keyboardFlush_spec (e : keyboardFlush D fuel b = .ok b') (hb : Obeys CommandRule b.log) :
    Obeys CommandRule b'.log ∧ writes b'.log = writes b.log := by
  obtain ⟨h1, _, h2⟩ := readWhile_spec e commandRule_status
    (fun b status hhead hdata h => ⟨⟨.inr ⟨rfl, .inl ⟨status, hhead, of_decide_eq_true hdata⟩⟩, h⟩, rfl⟩) hb
  exact ⟨h1, h2⟩

/-! ## the acknowledgement -/

theorem Answered.none : Answered 0 [] [noAckLine] :=
  ⟨rfl, le_refl 0, rfl, List.not_mem_nil, fun h => absurd h List.not_mem_nil, fun _ => rfl⟩

/-- a round before which there was nothing to read -/
theorem Answered.idle {more : List Access} (h : Answered n more lines) (status : Byte) :
    Answered (n + 1) (more ++ [.inb 0x64 status]) lines := by
  have h60 : readings 0x60 (more ++ [.inb 0x64 status]) = readings 0x60 more := by
    rw [readings_append]
    rfl
  have h64 : (readings 0x64 (more ++ [.inb 0x64 status])).length = (readings 0x64 more).length + 1 := by
    rw [readings_append, List.length_append, Nat.add_comm]
    rfl
  refine ⟨?_, ?_, ?_, ?_, fun hm => ?_, fun hm => ?_⟩
  · rw [writes_append, h.silent]
    rfl
  · rw [h64]
    exact Nat.succ_le_succ h.polls
  · rw [h60]
    exact h.lines
  · rw [h60]
    exact h.first
  · rw [h60] at hm
    rw [List.head?_append, h.last hm]
    rfl
  · rw [h60] at hm
    rw [h64, h.all hm]

/-- a round that has read something else -/
theorem Answered.other {more : List Access} (h : Answered n more lines) (status : Byte) {response : Byte}
    (hr : response ≠ 0xFA) : Answered (n + 1) (more ++ [.inb 0x60 response, .inb 0x64 status])
      (responseLine response :: lines) := by
  have h60 : readings 0x60 (more ++ [.inb 0x60 response, .inb 0x64 status])
      = response :: readings 0x60 more := by
    rw [readings_append]
    rfl
  have h64 : (readings 0x64 (more ++ [.inb 0x60 response, .inb 0x64 status])).length
      = (readings 0x64 more).length + 1 := by
    rw [readings_append, List.length_append, Nat.add_comm]
    rfl
  have hmem : 0xFA ∈ response :: readings 0x60 more ↔ 0xFA ∈ readings 0x60 more := by
    rw [List.mem_cons, or_iff_right hr.symm]
  refine ⟨?_, ?_, ?_, ?_, fun hm => ?_, fun hm => ?_⟩
  · rw [writes_append, h.silent]
    rfl
  · rw [h64]
    exact Nat.succ_le_succ h.polls
  · rw [h60, h.lines, List.map_cons, List.cons_append]
    simp only [hmem]
  · rw [h60]
    cases hrest : readings 0x60 more with
    | nil => exact List.not_mem_nil
    | cons v vs =>
      have hfirst := h.first
      rw [hrest] at hfirst
      rw [List.dropLast_cons_cons]
      exact List.not_mem_cons_of_ne_of_not_mem hr.symm hfirst
  · rw [h60, hmem] at hm
    rw [List.head?_append, h.last hm]
    rfl
  · rw [h60, hmem] at hm
    rw [h64, h.all hm]

theorem Answered.ack (n : Nat) (status : Byte) :
    Answered (n + 1) [.inb 0x60 0xFA, .inb 0x64 status] [responseLine 0xFA] := by
  have h60 : readings 0x60 [.inb 0x60 0xFA, .inb 0x64 status] = [0xFA] := rfl
  refine ⟨rfl, Nat.succ_le_succ (Nat.zero_le n), ?_, ?_, fun _ => rfl, fun hm => ?_⟩
  · rw [h60, if_pos List.mem_cons_self]
    rfl
  · rw [h60]
    exact List.not_mem_nil
  · exact absurd List.mem_cons_self hm

theorem awaitAck_spec (n : Nat) (hb : Obeys CommandRule b.log) : ∃ more,
    (awaitAck D n b).1.log = more ++ b.log ∧ Obeys CommandRule (awaitAck D n b).1.log ∧
      Answered n more (awaitAck D n b).2 := by
  induction n generalizing b with
  | zero => exact ⟨[], rfl, hb, .none⟩
  | succ n ih =>
    have hstatus : Obeys CommandRule (D.inb 0x64 b).2.log := ⟨commandRule_status _ _, hb⟩
    unfold awaitAck
    by_cases hdata : (D.inb 0x64 b).1 &&& 1 ≠ 0
    · have hresponse : Obeys CommandRule (D.inb 0x60 (D.inb 0x64 b).2).2.log :=
        ⟨.inr ⟨rfl, .inl ⟨_, rfl, hdata⟩⟩, hstatus⟩
      simp only [if_pos hdata]
      by_cases hack : (D.inb 0x60 (D.inb 0x64 b).2).1 = 0xFA
      · simp only [if_pos hack]
        have hlog : (D.inb 0x60 (D.inb 0x64 b).2).2.log
            = [.inb 0x60 (D.inb 0x60 (D.inb 0x64 b).2).1, .inb 0x64 (D.inb 0x64 b).1] ++ b.log := rfl
        refine ⟨_, hlog, hresponse, ?_⟩
        rw [hack]
        exact .ack n _
      · simp only [if_neg hack]
        obtain ⟨more, h1, h2, h3⟩ := ih hresponse
        refine ⟨more ++ [.inb 0x60 _, .inb 0x64 (D.inb 0x64 b).1], ?_, h2, h3.other _ hack⟩
        rw [h1, List.append_assoc]
        rfl
    · simp only [if_neg hdata]
      obtain ⟨more, h1, h2, h3⟩ := ih hstatus
      refine ⟨more ++ [.inb 0x64 (D.inb 0x64 b).1], ?_, h2, h3.idle _⟩
      rw [h1, List.append_assoc]
      rfl

/-! ## the whole handshake -/

theorem keyboardEnable_spec (s : σ) (e : keyboardEnable D fuel ⟨s, []⟩ = .ok (b', lines)) :
    Obeys CommandRule b'.log ∧ writes b'.log = [(0x64, 0xFF), (0x64, 0xAE), (0x60, 0xF4)] ∧
    ∃ more older, b'.log = more ++ .outb 0x60 0xF4 :: older ∧ Answered 1000 more lines := by
  unfold keyboardEnable at e
  obtain ⟨b1, e1, e⟩ := bind_eq_ok e
  obtain ⟨b2, e2, e⟩ := bind_eq_ok e
  obtain ⟨b3, e3, e⟩ := bind_eq_ok e
  obtain ⟨b4, e4, e⟩ := bind_eq_ok e
  obtain ⟨h1, w1⟩ := keyboardReset_spec e1 trivial
  obtain ⟨h2, w2⟩ := keyboardFlush_spec e2 h1
  obtain ⟨h3, w3⟩ := afterWait_spec e3 h2 0x64 0xAE
  obtain ⟨h4, w4⟩ := afterWait_spec e4 h3 0x60 0xF4
  obtain ⟨more, h5, h6, h7⟩ := awaitAck_spec (D := D) 1000 h4
  have he := Except.ok.inj e
  rw [show (D.outb kbdDataPort 0xF4 b4) = D.outb 0x60 0xF4 b4 from rfl] at he
  rw [he] at h5 h6 h7
  refine ⟨h6, ?_, more, b4.log, h5, h7⟩
  rw [h5, writes_append, h7.silent, List.append_nil, w4, w3, w2, w1]
  rfl

theorem Prompt.wait {rank : σ → Nat} (h : Prompt D rank) (b : Bus σ) :
    ∃ fuel b', waitForInputClear D fuel b = .ok b' :=
  readWhile_ends rank (fun b hc => h.input b.state (of_decide_eq_true hc)) b

theorem Prompt.flush {rank : σ → Nat} (h : Prompt D rank) (b : Bus σ) :
    ∃ fuel b', keyboardFlush D fuel b = .ok b' :=
  readWhile_ends rank (fun b hc => h.output b.state (of_decide_eq_true hc)) b

theorem Prompt.returns {rank : σ → Nat} (h : Prompt D rank) (b : Bus σ) :
    ∃ r least, ∀ fuel, least ≤ fuel → keyboardEnable D fuel b = .ok r := by
  obtain ⟨n1, b1, e1⟩ := h.wait b
  obtain ⟨n2, b2, e2⟩ := h.flush (D.inb 0x60 (D.outb 0x64 0xFF b1)).2
  obtain ⟨n3, b3, e3⟩ := h.wait b2
  obtain ⟨n4, b4, e4⟩ := h.wait (D.outb 0x64 0xAE b3)
  refine ⟨awaitAck D 1000 (D.outb kbdDataPort 0xF4 b4), n1 + n2 + n3 + n4, fun fuel hfuel => ?_⟩
  have f1 : waitForInputClear D fuel b = .ok b1 := readWhile_more e1 (by omega)
  have f2 : keyboardFlush D fuel (D.inb 0x60 (D.outb 0x64 0xFF b1)).2 = .ok b2 :=
    readWhile_more e2 (by omega)
  have f3 : waitForInputClear D fuel b2 = .ok b3 := readWhile_more e3 (by omega)
  have f4 : waitForInputClear D fuel (D.outb 0x64 0xAE b3) = .ok b4 := readWhile_more e4 (by omega)
  unfold keyboardEnable keyboardReset
  simp only [f1, bind_ok, pure_ok, f2, f3, f4]

/-- **With every controller each command of `keyboard_enable` comes right behind a status that shows room
for it, and data is read only where there is some; a controller that keeps no loop waiting is enabled.** -/
theorem keyboard_handshake (D : Device σ) (s : σ) :
    (∀ fuel b' lines, keyboardEnable D fuel ⟨s, []⟩ = .ok (b', lines) →
      Obeys CommandRule b'.log ∧ writes b'.log = [(0x64, 0xFF), (0x64, 0xAE), (0x60, 0xF4)] ∧
      ∃ more older, b'.log = more ++ .outb 0x60 0xF4 :: older ∧ Answered 1000 more lines) ∧
    ∀ rank, Prompt D rank → ∃ r least, ∀ fuel, least ≤ fuel → keyboardEnable D fuel ⟨s, []⟩ = .ok r :=
  ⟨fun _ _ _ e => keyboardEnable_spec s e, fun _ h => h.returns _⟩

end

/-- a controller that is busy for three polls after a command and has a queue of answers -/
def testController : Device (Nat × List Byte) where
  read port s :=
    if port = 0x60 then (s.2.headD 0, (s.1, s.2.tail))
    else ((if s.2 = [] then 0 else 1) ||| (if s.1 = 0 then 0 else 2), (s.1 - 1, s.2))
  write port value s := (3, if port = 0x60 ∧ value = 0xF4 then s.2 ++ [0xFA] else s.2)

/-- its state is the polls left and the answers -/
theorem testController_prompt : Prompt testController fun s => s.1 + s.2.length := by
  refine ⟨fun s h => ?_, fun s h => ?_⟩
  · have hbusy : s.1 ≠ 0 := by
      intro e
      refine h ?_
      show ((if s.2 = [] then 0 else 1) ||| (if s.1 = 0 then 0 else 2) : Byte) &&& 2 = 0
      rw [if_pos e]
      split <;> decide
    show s.1 - 1 + s.2.length < s.1 + s.2.length
    omega
  · have hdata : s.2 ≠ [] := by
      intro e
      refine h ?_
      show ((if s.2 = [] then 0 else 1) ||| (if s.1 = 0 then 0 else 2) : Byte) &&& 1 = 0
      rw [if_pos e]
      split <;> decide
    show s.1 - 1 + s.2.tail.length < s.1 + s.2.length
    have hlen := List.length_pos_iff.mpr hdata
    rw [List.length_tail]
    omega

/-- with an answer left in its queue from before -/
theorem keyboard_handshake_queue :
    (∃ b, keyboardEnable testController 10 ⟨(2, [0xAA]), []⟩ = .ok (b, [responseLine 0xFA]) ∧
      Obeys CommandRule b.log) ∧
    ∃ r least, ∀ fuel, least ≤ fuel → keyboardEnable testController fuel ⟨(2, [0xAA]), []⟩ = .ok r := by
  obtain ⟨hsafe, hreturns⟩ := keyboard_handshake testController (2, [0xAA])
  obtain ⟨b, e⟩ : ∃ b, keyboardEnable testController 10 ⟨(2, [0xAA]), []⟩ = .ok (b, [responseLine 0xFA]) :=
    ⟨_, rfl⟩
  exact ⟨⟨b, e, (hsafe 10 b _ e).1⟩, hreturns _ testController_prompt⟩

/-! ## the timer -/

theorem low_high (d : Word) :
    ((d >>> 8 &&& 0xFF).setWidth 8 : Byte) ++ ((d &&& 0xFF).setWidth 8 : Byte) = d.setWidth 16 := by
  apply BitVec.eq_of_toNat_eq
  rw [BitVec.toNat_append, BitVec.toNat_setWidth, BitVec.toNat_setWidth, BitVec.toNat_setWidth,
    BitVec.toNat_and, BitVec.toNat_and, BitVec.toNat_ushiftRight, Nat.shiftRight_eq_div_pow]
  show ((d.toNat / 2^8 &&& (2^8 - 1)) % 2^8) <<< 8 ||| (d.toNat &&& (2^8 - 1)) % 2^8 = d.toNat % 2^16
  rw [Nat.and_two_pow_sub_one_eq_mod, Nat.and_two_pow_sub_one_eq_mod, Nat.mod_mod, Nat.mod_mod,
    ← Nat.shiftLeft_add_eq_or_of_lt (Nat.mod_lt _ (by decide)), Nat.shiftLeft_eq]
  omega

section
variable {c : Counter} {w : Install} {frequency : Word}

/-- the period behind the low half of `n` -/
def countFrom (n : Nat) : Nat := if n % 65536 = 0 then 65536 else n % 65536

theorem counter_period (c : Counter) (d : Word) : (((c.control 0x36).data ((d &&& 0xFF).setWidth 8)).data
    ((d >>> 8 &&& 0xFF).setWidth 8)).period = some (countFrom d.toNat) := by
  have hnat : (d.setWidth 16 : BitVec 16).toNat = d.toNat % 65536 := BitVec.toNat_setWidth 16 d
  have hzero : (d.setWidth 16 : BitVec 16) = 0 ↔ d.toNat % 65536 = 0 := by
    rw [← BitVec.toNat_inj, hnat]
    rfl
  rw [control_data_data c rfl rfl, low_high]
  unfold Counter.period countFrom
  rw [Option.map_some, hnat]
  simp only [hzero]

theorem initTimer_period (c : Counter) (w : Install) (h : frequency ≠ 0) : ∃ r,
    initTimer c w frequency = some r ∧ r.1.period = some (countFrom (1193180 / frequency.toNat)) := by
  unfold initTimer
  rw [if_neg h]
  refine ⟨_, rfl, (counter_period c (1193180 / frequency)).trans ?_⟩
  rw [BitVec.toNat_udiv]
  rfl

/-- **The counter runs at the frequency asked for exactly when its divisor is between 1 and 65535.** -/
theorem initTimer_period_iff (c : Counter) (w : Install) (frequency : Word) :
    (∃ r, initTimer c w frequency = some r ∧ r.1.period = some (1193180 / frequency.toNat)) ↔
      19 ≤ frequency.toNat ∧ frequency.toNat ≤ 1193180 := by
  by_cases h0 : frequency = 0
  · rw [h0]
    refine ⟨fun ⟨r, e, _⟩ => absurd e (by simp [initTimer]), fun h => absurd h.1 (by decide)⟩
  obtain ⟨r, e, hperiod⟩ := initTimer_period c w h0
  have hpos : 0 < frequency.toNat := by
    have hne : frequency.toNat ≠ 0 := fun e => h0 (BitVec.eq_of_toNat_eq e)
    omega
  constructor
  · rintro ⟨r', e', h⟩
    rw [e] at e'
    cases e'
    rw [hperiod] at h
    have heq : countFrom (1193180 / frequency.toNat) = 1193180 / frequency.toNat := Option.some.inj h
    have hd : 1 ≤ 1193180 / frequency.toNat ∧ 1193180 / frequency.toNat ≤ 65536 := by
      unfold countFrom at heq
      split at heq <;> omega
    constructor
    · by_contra hlow
      have hle : 1193180 / 18 ≤ 1193180 / frequency.toNat := Nat.div_le_div_left (by omega) hpos
      omega
    · by_contra hhigh
      have hzero := Nat.div_eq_of_lt (Nat.lt_of_not_le hhigh)
      omega
  · rintro ⟨hlow, hhigh⟩
    refine ⟨r, e, ?_⟩
    have h1 : 1 ≤ 1193180 / frequency.toNat := (Nat.one_le_div_iff hpos).mpr hhigh
    have h2 : 1193180 / frequency.toNat ≤ 1193180 / 19 := Nat.div_le_div_left hlow (by decide)
    rw [hperiod]
    unfold countFrom
    rw [Nat.mod_eq_of_lt (by omega), if_neg (by omega)]

end

/-- `kernel_main` from `keyboard_install` to `init_timer` -/
theorem installed_boot {σ : Type} (D : Device σ) {fuel : Nat} {b b' : Bus σ} {p : Pair} {c : Counter}
    {console : List Printf} {w : Install}
    (e : keyboardInstall D fuel b ⟨registerInterruptHandler (fun _ => none) 14 .pageFaultHandler,
      picRemap p, console⟩ = .ok (b', w)) :
    ∃ r, initTimer c w 1000 = some r ∧ r.2.interruptHandlers = bootHandlers ∧
      r.2.pics = (picUnmaskIrq (picRemap p) 1).1 ∧ r.1.period = some 1193 := by
  obtain ⟨x, _, e⟩ := bind_eq_ok e
  cases e
  obtain ⟨r, er, hperiod⟩ := @initTimer_period 1000 c _ (by decide)
  refine ⟨r, er, ?_, ?_, hperiod⟩
  · cases er
    rfl
  · cases er
    rfl

end FirstKernel
