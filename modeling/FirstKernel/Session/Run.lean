import FirstKernel.Session.Model

/-!
# Runs of a session

* `call_returns_iff`       which commands return, and what they keep;
* `AtWork`                 what holds between two keys: the line is on the screen, the disk is in order;
* `callback_iff`           a key faults on the lines that `Crashes` lists, and on no other;
* `session_crashes_iff`    so in every run;
* `session_files`          what `cat` shows of the files, in every run.
-/

namespace FirstKernel
open ByteMem Cells Tiling Outcome

/-- the command `f` runs into a fault; `given` if it has an argument -/
def Fails (k : Kernel) (timerTicks : Word) (f : CommandFunc) (given : Bool) : Prop :=
  match f with
  | .cmdTouch => given = true ∧ grants k.heap [sizeofFSNode] = true ∧
      (grants k.heap [sizeofFSNode, 256] = false ∨ (k.node k.workDir).children = 0)
  | .cmdMkdir => given = true ∧ grants k.heap [sizeofFSNode] = true ∧ (k.node k.workDir).children = 0
  | .cmdUptime => timerTicks = 0x80000000
  | _ => False

/-- a line that names no command, and one whose command fails -/
def Crashes (k : Kernel) (timerTicks : Word) (line : CString) : Prop :=
  ∀ t ts f, words line = t :: ts → Names t f → Fails k timerTicks f (!ts.isEmpty)

section
variable {k k' : Kernel} {bs : List Block} {N : Set Word} {born : Word → Nat} {readme timerTicks : Word}
  {args : Option CString} {f : CommandFunc} {line : CString}

/-! ## one command -/

/-- what a command that returns leaves: it has only added to what was printed, and the files are as
they were -/
def Adds (readme : Word) (N : Set Word) (k k' : Kernel) : Prop :=
  (∃ calls, k'.heap.console = k.heap.console ++ calls) ∧ StockOver readme N k'

/-- the commands on files and directories -/
theorem command_keeps (h : Stock readme k bs N born) (hr : readme ∈ N) (cmd : Command)
    (args : Option CString) : Yields (cmd.exec k args) (Adds readme N k) := by
  intro k' e
  obtain ⟨calls, _, hc, _⟩ := command_speaks h.toCensus cmd args k' e
  exact ⟨⟨calls, hc⟩, h.exec hr cmd args k' e⟩

theorem call_keeps (h : Stock readme k bs N born) (hr : readme ∈ N) (f : CommandFunc)
    (args : Option CString) : Yields (f.call timerTicks k args) (Adds readme N k) := by
  cases f with
  | cmdHelp =>
    intro k' e
    obtain ⟨k2, e2, hk⟩ := h.help args
    obtain ⟨calls, _, hc, _⟩ := cmdHelp_speaks k args k' e
    cases Except.ok.inj (e2.symm.trans e)
    exact ⟨⟨calls, hc⟩, hk.over⟩
  | cmdLs => exact command_keeps h hr .ls args
  | cmdCd => exact command_keeps h hr .cd args
  | cmdTouch => exact command_keeps h hr .touch args
  | cmdMkdir => exact command_keeps h hr .mkdir args
  | cmdRm => exact command_keeps h hr .rm args
  | cmdRmdir => exact command_keeps h hr .rmdir args
  | cmdCat =>
    intro k' e
    obtain ⟨r, e1, rfl⟩ := map_eq_ok (show (cmdCat k args).map Prod.snd = .ok k' from e)
    obtain ⟨r2, e2, hk⟩ := h.cat args
    obtain ⟨calls, _, hc, _⟩ := cmdCat_speaks r e1
    cases Except.ok.inj (e2.symm.trans e1)
    exact ⟨⟨calls, hc⟩, hk.over⟩
  | cmdUptime => exact .pure ⟨⟨_, rfl⟩, (h.printf _ _).over⟩

theorem uptime_text (w : Word) :
    (∃ out, render [⟨"Uptime: %u ms\n", [.num w]⟩] = .ok out) ↔ w ≠ 0x80000000 := by
  constructor
  · rintro ⟨out, e⟩ rfl
    cases e
  · intro hw
    refine render_one (?_ : wellTyped (str "Uptime: %u ms\n") [.num w] = true)
    have hparts : str "Uptime: %u ms\n" = str "Uptime: " ++ chr '%' :: chr 'u' :: str " ms\n" := rfl
    have htakes : takes (chr 'u') [.num w] = some [] := by
      unfold takes
      rw [if_pos (.inr rfl)]
      exact if_neg hw
    rw [hparts, wellTyped_literal (by decide), wellTyped_directive htakes]
    rfl

/-- **A command returns, and what it prints can be shown, exactly unless it `Fails`.** -/
theorem call_returns_iff (h : Stock readme k bs N born) (f : CommandFunc) (args : Option CString) :
    (∃ k', f.call timerTicks k args = .ok k' ∧ Speaks k.heap k'.heap) ↔
      ¬ Fails k timerTicks f (!noArgs args) := by
  have hcommand : ∀ cmd : Command, (∃ k', cmd.exec k args = .ok k') →
      ∃ k', cmd.exec k args = .ok k' ∧ Speaks k.heap k'.heap := by
    rintro cmd ⟨k', e⟩
    exact ⟨k', e, command_speaks h.toCensus cmd args k' e⟩
  cases f with
  | cmdHelp =>
    obtain ⟨k', e, _⟩ := h.help args
    exact ⟨fun _ => id, fun _ => ⟨k', e, cmdHelp_speaks k args k' e⟩⟩
  | cmdLs => exact ⟨fun _ => id, fun _ => hcommand .ls (cmdLs_returns h.toCensus args)⟩
  | cmdCd => exact ⟨fun _ => id, fun _ => hcommand .cd (cmdCd_returns h.toCensus args)⟩
  | cmdRm =>
    exact ⟨fun _ => id, fun _ => hcommand .rm (removeNamed_returns h.toCensus h.capped _ _ _ _ args)⟩
  | cmdRmdir =>
    exact ⟨fun _ => id, fun _ => hcommand .rmdir (removeNamed_returns h.toCensus h.capped _ _ _ _ args)⟩
  | cmdCat =>
    obtain ⟨r, e, _⟩ := h.cat args
    refine ⟨fun _ => id, fun _ => ⟨r.2, ?_, cmdCat_speaks r e⟩⟩
    show (cmdCat k args).map Prod.snd = _
    rw [e]
    rfl
  | cmdUptime =>
    constructor
    · rintro ⟨k', e, calls, out, hc, ho⟩
      cases e
      have hcalls : calls = [⟨"Uptime: %u ms\n", [.num timerTicks]⟩] :=
        (List.append_cancel_left hc).symm
      rw [hcalls] at ho
      exact (uptime_text timerTicks).mp ⟨out, ho⟩
    · intro hw
      obtain ⟨out, ho⟩ := (uptime_text timerTicks).mpr hw
      exact ⟨_, rfl, _, out, rfl, ho⟩
  | cmdTouch =>
    cases ha : noArgs args with
    | true =>
      refine ⟨fun _ hf => Bool.false_ne_true hf.1, fun _ => hcommand .touch ⟨_, cmdTouch_usage ha⟩⟩
    | false =>
      have hiff := cmdTouch_returns h.toCensus ha
      constructor
      · rintro ⟨k', e, _⟩ ⟨_, hone, hbad⟩
        obtain ⟨hboth, hchildren⟩ := hiff.mp ⟨k', e⟩ hone
        rcases hbad with hno | h0
        · rw [hboth] at hno
          cases hno
        · exact hchildren h0
      · intro hf
        refine hcommand .touch (hiff.mpr fun hone => ?_)
        have hboth : grants k.heap [sizeofFSNode, 256] ≠ false := fun hno =>
          hf ⟨rfl, hone, .inl hno⟩
        exact ⟨Bool.eq_true_of_not_eq_false hboth, fun h0 => hf ⟨rfl, hone, .inr h0⟩⟩
  | cmdMkdir =>
    cases ha : noArgs args with
    | true =>
      exact ⟨fun _ hf => Bool.false_ne_true hf.1, fun _ => hcommand .mkdir ⟨_, cmdMkdir_usage ha⟩⟩
    | false =>
      have hiff := cmdMkdir_returns h.toCensus ha
      constructor
      · rintro ⟨k', e, _⟩ ⟨_, hone, h0⟩
        exact hiff.mp ⟨k', e⟩ hone h0
      · intro hf
        exact hcommand .mkdir (hiff.mpr fun hone h0 => hf ⟨rfl, hone, h0⟩)

/-! ## one line -/

theorem word_ne_nil {t : List Byte} (h : t ∈ words line) : t ≠ [] := by
  intro e
  have hne := (List.mem_filter.mp h).2
  rw [e] at hne
  cases hne

/-- the second word of a line as an argument -/
theorem noArgs_words {t : List Byte} {ts : List (List Byte)} (hw : words line = t :: ts)
    (ha : args.map Subtype.val = ts.head?) : (!noArgs args) = !ts.isEmpty := by
  cases ts with
  | nil =>
    cases args with
    | none => rfl
    | some a => cases ha
  | cons u us =>
    cases args with
    | none => cases ha
    | some a =>
      have hu : a.val = u := Option.some.inj ha
      have hne : u ≠ [] := @word_ne_nil line u (by rw [hw]; simp)
      have hlen : noArgs (some a) = false := by
        rw [← hu] at hne
        exact decide_eq_false fun h0 => hne (List.length_eq_zero_iff.mp h0)
      rw [hlen]
      rfl

theorem line_keeps (h : Stock readme k bs N born) (hr : readme ∈ N) (timerTicks : Word) (s : Strtok)
    (line : CString) :
    Yields (shellProcessCommand (CommandFunc.call timerTicks) s k line)
      fun r => Adds readme N k r.2 := by
  by_cases hnamed : ∃ t ts f, words line = t :: ts ∧ Names t f
  · obtain ⟨t, ts, f, hw, hf⟩ := hnamed
    obtain ⟨s', args, _, e⟩ := shellProcessCommand_found s k hw hf
    intro r er
    rw [e] at er
    obtain ⟨k', e1, rfl⟩ := map_eq_ok er
    exact call_keeps h hr f args k' e1
  · rw [shellProcessCommand_null _ s k fun t ts f hw hf => hnamed ⟨t, ts, f, hw, hf⟩]
    exact .error _

/-- **A command line returns, and what it prints can be shown, exactly unless it `Crashes`.** -/
theorem line_returns_iff (h : Stock readme k bs N born) (s : Strtok) (line : CString) :
    (∃ r, shellProcessCommand (CommandFunc.call timerTicks) s k line = .ok r ∧ Speaks k.heap r.2.heap) ↔
      ¬ Crashes k timerTicks line := by
  by_cases hnamed : ∃ t ts f, words line = t :: ts ∧ Names t f
  · obtain ⟨t, ts, f, hw, hf⟩ := hnamed
    obtain ⟨s', args, ha, e⟩ := shellProcessCommand_found s k hw hf
    have hfail : Crashes k timerTicks line ↔ Fails k timerTicks f (!noArgs args) := by
      rw [noArgs_words hw ha]
      constructor
      · exact fun hc => hc t ts f hw hf
      · intro hc t' ts' f' hw' hf'
        rw [hw] at hw'
        cases hw'
        rw [names_unique hf' hf]
        exact hc
    rw [hfail, ← call_returns_iff h, e]
    constructor
    · rintro ⟨r, e2, hs⟩
      obtain ⟨k', e3, rfl⟩ := map_eq_ok e2
      exact ⟨k', e3, hs⟩
    · rintro ⟨k', e2, hs⟩
      rw [e2]
      exact ⟨(s', k'), rfl, hs⟩
  · constructor
    · rintro ⟨r, e, _⟩
      rw [shellProcessCommand_null _ s k fun t ts f hw hf => hnamed ⟨t, ts, f, hw, hf⟩] at e
      cases e
    · exact fun hno => absurd (fun t ts f hw hf => absurd ⟨t, ts, f, hw, hf⟩ hnamed) hno

/-! ## one key -/

/-- what holds between two keys -/
structure AtWork (readme : Word) (t : ShellSession) : Prop where
  shown : Shown t.shell
  stock : ∃ bs N born, readme ∈ N ∧ Stock readme t.kernel bs N born

variable {t t' : ShellSession}

/-- the command behind the line, with its output on the way to the screen -/
theorem ShellSession.processCommand_spec (h : Stock readme t.kernel bs N born) (hr : readme ∈ N)
    (line : CString) :
    Yields (t.processCommand timerTicks line) (fun r => StockOver readme N r.2.2) ∧
    ((∃ r, t.processCommand timerTicks line = .ok r) ↔ ¬ Crashes t.kernel timerTicks line) := by
  have hkeep := line_keeps h hr timerTicks t.strtok line
  constructor
  · unfold ShellSession.processCommand
    refine hkeep.bind fun r hk => (Yields.trivial _).bind fun _ _ => .pure hk.2
  · rw [← line_returns_iff h t.strtok line]
    unfold ShellSession.processCommand
    constructor
    · rintro ⟨r, e⟩
      obtain ⟨r1, e1, e⟩ := bind_eq_ok e
      obtain ⟨out, e2, _⟩ := bind_eq_ok e
      obtain ⟨⟨calls, hc⟩, _⟩ := hkeep r1 e1
      rw [hc, List.drop_left] at e2
      exact ⟨r1, e1, calls, out, hc, e2⟩
    · rintro ⟨r1, e1, calls, out, hc, ho⟩
      rw [e1, bind_ok]
      simp only [hc, List.drop_left, ho, bind_ok]
      exact ⟨_, rfl⟩

/-- the scancodes on which the handler passes the line on: Enter, and two that are taken for line ends -/
def Submits (scancode : Byte) : Prop := scancode = 0x1C ∨ scancode = 0x0A ∨ scancode = 0x0D

theorem commandLine_eq (h : Tidy t.shell) (event : KeyboardEvent) (c : Byte) :
    (Submits c → shellCommandLine t.shell (readKeyboard t.keyboard event c).1 = some t.shell.line) ∧
    (¬ Submits c → shellCommandLine t.shell (readKeyboard t.keyboard event c).1 = none) := by
  unfold shellCommandLine
  rw [if_neg (by decide), bufferString_line h]
  have henter : (readKeyboard t.keyboard event c).1.enter = decide (c = 0x1C) := rfl
  have hcode : (readKeyboard t.keyboard event c).1.scancode = c := rfl
  rw [henter, hcode]
  constructor
  · intro hs
    have hback : ¬ (c = chr '\x08' ∨ c = 127) := by
      rcases hs with rfl | rfl | rfl
      · decide
      · decide
      · decide
    have hline : c = chr '\n' ∨ c = chr '\r' ∨ decide (c = 0x1C) = true := by
      rcases hs with h1 | h1 | h1
      · exact .inr (.inr (decide_eq_true h1))
      · exact .inl h1
      · exact .inr (.inl h1)
    rw [if_neg hback, if_pos hline]
  · intro hs
    have hline : ¬ (c = chr '\n' ∨ c = chr '\r' ∨ decide (c = 0x1C) = true) := by
      rintro (h1 | h1 | h1)
      · exact hs (.inr (.inl h1))
      · exact hs (.inr (.inr h1))
      · exact hs (.inl (of_decide_eq_true h1))
    rw [if_neg hline]
    exact ite_self none

theorem Shown.tidy {k : Shell} (h : Shown k) : Tidy k := ⟨h.index, h.nonNul⟩

/-- a key that passes no line on -/
theorem callback_quiet (h : AtWork readme t) (event : KeyboardEvent) {c : Byte} (hc : ¬ Submits c) :
    ∃ t', keyboardCallback t timerTicks event c = .ok t' ∧ AtWork readme t' := by
  have hnone := (commandLine_eq h.shown.tidy event c).2 hc
  obtain ⟨shell, e, hs⟩ := shown_handleKey h.shown (readKeyboard t.keyboard event c).2.capsLockActive
    (readKeyboard t.keyboard event c).1 ⟨[], t.shell.buffer⟩
  unfold keyboardCallback
  simp only [hnone, e, bind_ok]
  exact ⟨_, rfl, hs, h.stock⟩

/-- a key that passes the line on -/
theorem callback_line (h : AtWork readme t) (event : KeyboardEvent) {c : Byte} (hc : Submits c) :
    Yields (keyboardCallback t timerTicks event c) (AtWork readme) ∧
    ((∃ t', keyboardCallback t timerTicks event c = .ok t') ↔
      ¬ Crashes t.kernel timerTicks (cString t.shell.line)) := by
  have hsome := (commandLine_eq h.shown.tidy event c).1 hc
  obtain ⟨bs, N, born, hr, hk⟩ := h.stock
  obtain ⟨hkeep, hiff⟩ := t.processCommand_spec hk hr (cString t.shell.line)
  unfold keyboardCallback
  simp only [hsome]
  constructor
  · refine hkeep.bind fun r hr' => ?_
    obtain ⟨shell, e, hs⟩ := shown_handleKey h.shown (readKeyboard t.keyboard event c).2.capsLockActive
      (readKeyboard t.keyboard event c).1 r.1
    obtain ⟨bs', N', born', hsub, hk'⟩ := hr'
    rw [e, bind_ok]
    exact .pure ⟨hs, bs', N', born', hsub hr, hk'⟩
  · rw [← hiff]
    constructor
    · rintro ⟨t', e⟩
      obtain ⟨r, e1, _⟩ := bind_eq_ok e
      exact ⟨r, e1⟩
    · rintro ⟨r, e⟩
      obtain ⟨shell, e1, _⟩ := shown_handleKey h.shown
        (readKeyboard t.keyboard event c).2.capsLockActive (readKeyboard t.keyboard event c).1 r.1
      rw [e, bind_ok, e1, bind_ok]
      exact ⟨_, rfl⟩

/-- **A key returns exactly unless it passes on a line that `Crashes`, and the session goes on.** -/
theorem callback_iff (h : AtWork readme t) (x : Stroke) :
    Yields (keyboardCallback t x.timerTicks x.event x.scancode) (AtWork readme) ∧
    ((∃ t', keyboardCallback t x.timerTicks x.event x.scancode = .ok t') ↔
      (Submits x.scancode → ¬ Crashes t.kernel x.timerTicks (cString t.shell.line))) := by
  by_cases hc : Submits x.scancode
  · obtain ⟨hkeep, hiff⟩ := callback_line h x.event hc
    exact ⟨hkeep, hiff.trans ⟨fun hn _ => hn, fun hn => hn hc⟩⟩
  · obtain ⟨t', e, ht⟩ := callback_quiet h x.event hc
    rw [e]
    exact ⟨.ok ht, fun _ h' => absurd h' hc, fun _ => ⟨t', rfl⟩⟩

/-! ## runs -/

theorem boot_atWork {s : Machine} {term : Terminal} {out : List Byte} :
    ∃ t readme, bootSession s term out = .ok t ∧ AtWork readme t ∧ JustBooted readme t.kernel := by
  obtain ⟨k0, e0⟩ : ∃ k, fsInit (Kernel.boot s) = .ok k := by
    obtain ⟨f, h1, q, h2, e1, hf, e2, _⟩ := boot_allocations s
    have e3 : fsCreateNode (Kernel.boot s) (str "/") .directory
        = .ok (f, (Kernel.boot s).withDir h2 f q (str "/")) := fsCreateNode_dir e1 hf e2
    unfold fsInit
    rw [e3, bind_ok]
    simp only [if_neg hf]
    exact ⟨_, rfl⟩
  obtain ⟨readme, k, bs, N, born, e1, hr, hk, hfresh⟩ := stock_readme e0
  obtain ⟨shell, e2, hs⟩ := shown_init term out
  refine ⟨⟨⟨false, false⟩, shell, ⟨[], none⟩, k⟩, readme, ?_, ⟨hs, bs, N, born, hr, hk⟩, hfresh⟩
  unfold bootSession
  rw [e0, bind_ok, e1, bind_ok, e2]
  rfl

end

/-- no key has been typed -/
theorem boot_line {s : Machine} {term : Terminal} {out : List Byte} {t : ShellSession}
    (e : bootSession s term out = .ok t) : t.shell.line = [] := by
  obtain ⟨k0, _, e⟩ := bind_eq_ok e
  obtain ⟨k, _, e⟩ := bind_eq_ok e
  obtain ⟨shell, es, e⟩ := bind_eq_ok e
  cases e
  rw [shellInit_eq] at es
  show shell.line = []
  rw [← Except.ok.inj es]
  exact loadN_zero _ _

theorem atWork_steps {readme : Word} {t t' : ShellSession} (h : AtWork readme t)
    (hs : Run.Steps shellSessions (fun _ => True) t t') : AtWork readme t' :=
  hs.invariant h fun _ x t2 _ ht _ e => (callback_iff ht x).1 t2 e

theorem atWork_reachable {t : ShellSession} (h : Run.Reachable shellSessions t) :
    ∃ readme, AtWork readme t := by
  refine h.invariant ?_ ?_
  · rintro t ⟨s, term, out, e⟩
    obtain ⟨t', readme, e', ht, _⟩ := @boot_atWork s term out
    cases Except.ok.inj (e'.symm.trans e)
    exact ⟨readme, ht⟩
  · rintro t x t' _ ⟨readme, ht⟩ e
    exact ⟨readme, (callback_iff ht x).1 t' e⟩

/-- **Every session starts, and from every state of it a key runs into a fault exactly when it passes
on a line that `Crashes`.** -/
theorem session_crashes_iff :
    (∀ s term out, ∃ t, bootSession s term out = .ok t) ∧
    ∀ t, Run.Reachable shellSessions t → ∀ x : Stroke,
      (∃ t', keyboardCallback t x.timerTicks x.event x.scancode = .ok t') ↔
        (Submits x.scancode → ¬ Crashes t.kernel x.timerTicks (cString t.shell.line)) := by
  constructor
  · intro s term out
    obtain ⟨t, _, e, _⟩ := @boot_atWork s term out
    exact ⟨t, e⟩
  · intro t h x
    obtain ⟨readme, ht⟩ := atWork_reachable h
    exact (callback_iff ht x).2

/-- Enter at the first prompt -/
theorem session_crashes_iff_enter : ∃ t, Run.Reachable shellSessions t ∧
    ¬ ∃ t', keyboardCallback t 0 ⟨0, false, false, false, false, false, false, false, false⟩ 0x1C
      = .ok t' := by
  let term : Terminal := ⟨0, 0, 0, fun _ => 0, 0, 0⟩
  obtain ⟨t, e⟩ := session_crashes_iff.1 bootMachine term []
  have ht : Run.Reachable shellSessions t := .init ⟨_, _, _, e⟩
  have hline := boot_line e
  refine ⟨t, ht, fun hok => ?_⟩
  refine (session_crashes_iff.2 t ht ⟨0, _, 0x1C⟩).mp hok (.inl rfl) fun w ws f hw _ => ?_
  rw [hline] at hw
  cases hw

/-! ## the files -/

/-- what `cat` shows of a file -/
def shownText (readme p : Word) : List Byte :=
  if p = readme then str "Welcome to ContinuumOS!\n" else str "\n"

theorem fileText_shown (readme p : Word) :
    (fileText readme p).takeWhile (· ≠ 0) ++ [chr '\n'] = shownText readme p := by
  unfold fileText shownText
  split
  · decide +kernel
  · decide +kernel

/-- **From the start of a session on the screen shows the line, and `cat` shows the text that
`kernel_main` wrote into `README` and an empty line for every other file.** -/
theorem session_files {s : Machine} {term : Terminal} {out : List Byte} {t0 : ShellSession}
    (e : bootSession s term out = .ok t0) :
    ∃ readme, JustBooted readme t0.kernel ∧ ∀ t, Run.Steps shellSessions (fun _ => True) t0 t →
      ScreenShowsLine t.shell ∧ ∀ args p, noArgs args = false →
        childNamed t.kernel t.kernel.workDir (argName args) = p → p ≠ 0 →
        (t.kernel.node p).type = .file → ∃ reads k' call, cmdCat t.kernel args = .ok (reads, k') ∧
          k'.heap.console = t.kernel.heap.console ++ [call] ∧ call.text = .ok (shownText readme p) := by
  obtain ⟨t', readme, e', ht, hfresh⟩ := @boot_atWork s term out
  cases Except.ok.inj (e'.symm.trans e)
  refine ⟨readme, hfresh, fun t hs => ?_⟩
  have hwork := atWork_steps ht hs
  refine ⟨hwork.shown.screen, fun args p ha hp hp0 hfile => ?_⟩
  obtain ⟨bs, N, born, _, hk⟩ := hwork.stock
  have hN : p ∈ N := by
    rw [← hp] at hp0 ⊢
    exact hk.childNamed_mem hk.toCensus.workDir.1 hp0
  obtain ⟨hd, hbytes⟩ := hk.bytes hN hfile
  have hfind : fsFindChild t.kernel.enter t.kernel.enter.currentDir (argName args) = .ok p := by
    rw [← hp]
    exact hk.findEnter _
  obtain ⟨reads, k', call, ecat, hc, htext, _⟩ := (catsExactly_iff ha hfind hp0 hfile hd).mpr
    (by rw [hbytes]; exact fileText_nul readme p)
  refine ⟨reads, k', call, ecat, hc, ?_⟩
  rw [htext, hbytes, fileText_shown]

def readmeArg : CString := ⟨str "README", by decide⟩

/-- `cat README` at the first prompt -/
theorem session_files_readme : ∃ (t : ShellSession) (reads : List Word) (k' : Kernel) (call : Printf),
    cmdCat t.kernel (some readmeArg) = .ok (reads, k') ∧
      k'.heap.console = t.kernel.heap.console ++ [call] ∧
      call.text = .ok (str "Welcome to ContinuumOS!\n") := by
  obtain ⟨t, _, e, hwork, _⟩ := @boot_atWork bootMachine ⟨0, 0, 0, fun _ => 0, 0, 0⟩ []
  obtain ⟨readme, hfresh, hrun⟩ := session_files e
  obtain ⟨bs, N, born, _, hk⟩ := hwork.stock
  have hdir : t.kernel.workDir = t.kernel.root := by
    unfold Kernel.workDir Kernel.enter
    rw [if_pos hfresh.currentDir]
  have hname : decide (strcmp (t.kernel.node readme).name (argName (some readmeArg)) = 0) = true := by
    rw [hfresh.name]
    rfl
  have hchild : childNamed t.kernel t.kernel.workDir (argName (some readmeArg)) = readme := by
    unfold childNamed
    rw [hdir, hfresh.kids, List.find?_cons, hname]
    rfl
  have h0 : readme ≠ 0 := by
    refine hk.toCensus.ne_zero (hk.younger _ hk.root.1 readme ?_).1
    rw [hfresh.kids]
    exact List.mem_singleton_self readme
  obtain ⟨reads, k', call, e', hc, ht⟩ :=
    (hrun t .refl).2 (some readmeArg) readme rfl hchild h0 hfresh.type
  refine ⟨t, reads, k', call, e', hc, ht.trans ?_⟩
  unfold shownText
  rw [if_pos rfl]

end FirstKernel
