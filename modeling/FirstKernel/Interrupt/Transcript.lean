import FirstKernel.Interrupt.Irq
import FirstKernel.Session.TreeShell

/-!
# The kernel as a read-eval-print loop

The processor with its stubs, tables, controllers and handlers does what `Repl` does on the keys given,
with the ticks given as its clock, and what `TreeShell` does.

* `replServe`, `treeServe`        what an interrupt does to the ticks and the loop;
* `serve_agrees`, `given_agrees`  the handlers do the same, for one interrupt and for all;
* `kernel_transcript`             the terminal shows the transcript, whenever the interrupts come;
* `kernel_plays`                  and it is the transcript of the shell on a tree of names.
-/

namespace FirstKernel
open ByteMem Ia32 Outcome

/-- what an interrupt does to the ticks and a shell, given what a key does -/
def serveBy {σ : Type} (press : σ → Stroke → Res σ) (w : Word × σ) (x : Nat × Byte) : Res (Word × σ) :=
  if x.1 = 32 then return (w.1 + 1, w.2)
  else if x.1 = 33 then do return (w.1, ← press w.2 ⟨w.1, blankEvent, x.2⟩)
  else return w

def replServe : Word × Repl → Nat × Byte → Res (Word × Repl) := serveBy Repl.press

def treeServe : Word × TreeShell → Nat × Byte → Res (Word × TreeShell) := serveBy TreeShell.press

section
variable {g : Image} {gdt : Nat → GDTEntry} {idt : Nat → IDTEntry} {p : I8259.Pair} {s s0 : State World}
  {σ : Type} {press : σ → Stroke → Res σ} {R : ShellSession → σ → Prop} {w : Word × ShellSession}
  {r : Word × σ} {m0 : Machine} {term : Terminal} {out : List Byte}

/-- an interrupt, when a key keeps the relation `R` -/
theorem serve_agrees (hpress : ∀ t b x, R t b →
      Agree (keyboardCallback t x.timerTicks x.event x.scancode) (press b x) R)
    (h : w.1 = r.1 ∧ R w.2 r.2) (x : Nat × Byte) :
    Agree (serve w x) (serveBy press r x) fun w r => w.1 = r.1 ∧ R w.2 r.2 := by
  obtain ⟨ticks, t⟩ := w
  obtain ⟨ticks', b⟩ := r
  obtain ⟨rfl, hb⟩ := h
  unfold serve serveBy
  by_cases h32 : x.1 = 32
  · rw [if_pos h32, if_pos h32]
    exact .ok ⟨rfl, hb⟩
  · rw [if_neg h32, if_neg h32]
    by_cases h33 : x.1 = 33
    · rw [if_pos h33, if_pos h33]
      exact (hpress t b ⟨ticks, blankEvent, x.2⟩ hb).bind fun _ _ hab => .ok ⟨rfl, hab⟩
    · rw [if_neg h33, if_neg h33]
      exact .ok ⟨rfl, hb⟩

/-- the last time at the loop -/
theorem loop_before (hs : g.Started p s0)
    (h : Run.Reachable (machine (g.board gdt idt) fun t => t = s0) s) : ∃ m, AtLoop g p s0 m ∧
      (m = s ∨ ∃ v, Inside (g.board gdt idt) (service g.stubs) m s v) := by
  rcases machine_atomic (g.served gdt idt) h with h | ⟨m, v, hm, hin⟩
  · exact ⟨s, atLoop_run hs h, .inl rfl⟩
  · exact ⟨m, atLoop_run hs hm, .inr ⟨v, hin⟩⟩

/-- what the handlers of the vectors given have yielded -/
theorem given_agrees {m : State World} (hpress : ∀ t b x, R t b →
      Agree (keyboardCallback t x.timerTicks x.event x.scancode) (press b x) R) {b : σ}
    (hb : R s0.world.session b) (hm : AtLoop g p s0 m) : ∃ b',
      m.world.given.foldlM (serveBy press) (0, b) = .ok (m.world.timerTicks, b') ∧
      R m.world.session b' := by
  have hfold : Agree (m.world.given.foldlM serve (0, s0.world.session))
      (m.world.given.foldlM (serveBy press) (0, b)) fun w r => w.1 = r.1 ∧ R w.2 r.2 :=
    Agree.foldlM (fun _ _ x hab => serve_agrees hpress hab x) ⟨rfl, hb⟩ m.world.given
  obtain ⟨⟨ticks, b'⟩, er, hticks, hb'⟩ := hfold.1 _ hm.served
  cases hticks
  exact ⟨b', er, hb'⟩

/-- **In every run of the processor, whenever the interrupts come, the terminal of the last loop state
is what the read-eval-print loop has written on the keys given until then, over what was on it at the
start, and line, flags, kernel and ticks are the loop's.** -/
theorem kernel_transcript (hs : g.Started p s0) (hb : bootSession m0 term out = .ok s0.world.session)
    (h : Run.Reachable (machine (g.board gdt idt) fun t => t = s0) s) :
    ∃ m, AtLoop g p s0 m ∧ (m = s ∨ ∃ v, Inside (g.board gdt idt) (service g.stubs) m s v) ∧
      ∃ loop : Repl, m.world.given.foldlM replServe (0, .start s0.world.session.kernel)
          = .ok (m.world.timerTicks, loop) ∧
        Mirrors (Terminal.write term.initialize out) m.world.session loop := by
  obtain ⟨m, hm, hplace⟩ := loop_before hs h
  obtain ⟨t, readme, et, hwork, _⟩ := @boot_atWork m0 term out
  cases Except.ok.inj (et.symm.trans hb)
  obtain ⟨loop, er, _, hm'⟩ :=
    given_agrees (fun _ _ x h => press_agrees h.1 h.2 x) ⟨hwork, boot_mirrors hb⟩ hm
  exact ⟨m, hm, hplace, loop, er, hm'⟩

/-- in the stub of a tick, behind the `hlt` -/
theorem kernel_transcript_tick : ∃ s0 s m : State World, testImage.Started (testChips 0) s0 ∧
    s.world.given = [(32, 0)] ∧ AtLoop testImage (testChips 0) s0 m ∧
    (∃ v, Inside testBoard (service testImage.stubs) m s v) ∧
    ∃ loop : Repl, m.world.given.foldlM replServe (0, .start s0.world.session.kernel)
        = .ok (m.world.timerTicks, loop) ∧
      Mirrors (Terminal.write testTerm.initialize []) m.world.session loop := by
  obtain ⟨s0, s, hs, hb, h, heip, hgiven⟩ := tick_run
  obtain ⟨m, hm, rfl | hin, hloop⟩ := kernel_transcript hs hb h
  · exact absurd hm (stub_not_loop heip)
  · exact ⟨s0, s, m, hs, hgiven, hm, hin, hloop⟩

/-! ## the shell on a tree of names -/

/-- **In every run of the processor, whenever the interrupts come, the terminal of the last loop state
is what the shell on a tree of names has written on the keys given until then, from its one start, and
its tree and its place in it are those of the kernel.** -/
theorem kernel_plays (hs : g.Started p s0) (hb : bootSession m0 term out = .ok s0.world.session) :
    ∃ readme, ∀ s, Run.Reachable (machine (g.board gdt idt) fun t => t = s0) s →
      ∃ m, AtLoop g p s0 m ∧ (m = s ∨ ∃ v, Inside (g.board gdt idt) (service g.stubs) m s v) ∧
        ∃ shell : TreeShell,
          m.world.given.foldlM treeServe (0, .start) = .ok (m.world.timerTicks, shell) ∧
          Plays readme (Terminal.write term.initialize out) m.world.session shell := by
  obtain ⟨readme, hwork, hp⟩ := boot_plays hb
  refine ⟨readme, fun s h => ?_⟩
  obtain ⟨m, hm, hplace⟩ := loop_before hs h
  obtain ⟨shell, er, _, hp'⟩ := given_agrees (fun _ _ x h => press_plays h.1 h.2 x) ⟨hwork, hp⟩ hm
  exact ⟨m, hm, hplace, shell, er, hp'⟩

/-- in the stub of a tick, behind the `hlt` -/
theorem kernel_plays_tick : ∃ (s0 s m : State World) (readme : Word),
    testImage.Started (testChips 0) s0 ∧ s.world.given = [(32, 0)] ∧
    AtLoop testImage (testChips 0) s0 m ∧ (∃ v, Inside testBoard (service testImage.stubs) m s v) ∧
    ∃ shell : TreeShell,
      m.world.given.foldlM treeServe (0, .start) = .ok (m.world.timerTicks, shell) ∧
      Plays readme (Terminal.write testTerm.initialize []) m.world.session shell := by
  obtain ⟨s0, s, hs, hb, h, heip, hgiven⟩ := tick_run
  obtain ⟨readme, hall⟩ := @kernel_plays _ (fun _ => ⟨0, 0, 0, 0, 0, 0⟩) (fun _ => ⟨0, 0, 0, 0, 0⟩)
    _ _ _ _ _ hs hb
  obtain ⟨m, hm, rfl | hin, hshell⟩ := hall s h
  · exact absurd hm (stub_not_loop heip)
  · exact ⟨s0, s, m, readme, hs, hgiven, hm, hin, hshell⟩

end

end FirstKernel
