import FirstKernel.Session.Run

/-!
# What the shell is for

`Repl` reads, evaluates and prints on lists of bytes: no buffers, no cells of the screen, no state of a
tokenizer.  The shell does the same, key by key.

* `echo`, `evalLine`, `Repl.press`   what a key writes, what a command line does, what a key does;
* `handleKey_term`                   what `shell_handle_key` writes on the terminal;
* `processCommand_eval`              `shell_process_command` evaluates the line;
* `press_mirrors`, `press_agrees`    one key;
* `session_refines`                  every list of keys: both fail, or the terminal is what the loop has
                                     written, and line, flags and kernel are the same.
-/

namespace FirstKernel
open ByteMem Cells Outcome

structure Repl where
  keyboard : Keyboard
  line : List Byte
  kernel : Kernel
  /-- all that has been written so far -/
  written : List Byte

/-- what a key writes that only edits the line -/
def echo (line line' : List Byte) : List Byte :=
  if line'.length < line.length then str "\x08 \x08" else line'.drop line.length

/-- the command that a word names -/
def commandNamed (t : List Byte) : Option CommandFunc :=
  (registered.find? fun c => decide (c.name = some t)).bind ShellCommand.function

/-- the command of a line, with the second word: what it prints, and the kernel behind it -/
def evalLine (timerTicks : Word) (k : Kernel) (line : List Byte) : Res (List Byte × Kernel) :=
  match words (cString line) with
  | [] => .error .nullDeref
  | t :: ts =>
    match commandNamed t with
    | none => .error .nullDeref
    | some f => do
      let k' ← f.call timerTicks k (ts.head?.map cString)
      let out ← render (k'.heap.console.drop k.heap.console.length)
      return (out, k')

def Repl.press (r : Repl) (x : Stroke) : Res Repl :=
  let ke := (readKeyboard r.keyboard x.event x.scancode).1
  let keyboard := (readKeyboard r.keyboard x.event x.scancode).2
  let edit := editLine keyboard.capsLockActive ke r.line
  match edit.1 with
  | none => return ⟨keyboard, edit.2, r.kernel, r.written ++ echo r.line edit.2⟩
  | some line => do
    let (out, kernel) ← evalLine x.timerTicks r.kernel line
    return ⟨keyboard, edit.2, kernel, r.written ++ (str "\n" ++ out ++ prompt)⟩

/-- at the first prompt -/
def Repl.start (k : Kernel) : Repl := ⟨⟨false, false⟩, [], k, str "Welcome to nutshell!\n" ++ prompt⟩

section
variable {k k' : Shell} {t : ShellSession} {r : Repl} {start : Terminal} {readme : Word}

/-! ## the terminal -/

theorem backspace_term (e : k.backspace = .ok k') :
    k'.term = k.term.write (echo k.line k.line.dropLast) := by
  have hlen := line_length k
  unfold Shell.backspace at e
  by_cases hpos : k.index > 0
  · rw [if_pos hpos, printf_text _ _ (by decide +kernel)] at e
    have hshort : k.line.dropLast.length < k.line.length := by
      rw [List.length_dropLast]
      omega
    unfold echo
    rw [if_pos hshort, ← Except.ok.inj e]
  · rw [if_neg hpos] at e
    have hnil : k.line = [] := List.eq_nil_of_length_eq_zero (by omega)
    rw [hnil, ← Except.ok.inj e]
    rfl

/-- what is written for an edit of `line`, with the output of the command line if one is passed on -/
def reply (line : List Byte) (edit : Option (List Byte) × List Byte) (out : List Byte) : List Byte :=
  match edit.1 with
  | none => echo line edit.2
  | some _ => str "\n" ++ out ++ prompt

/-- what is written for a key event -/
theorem handleKey_term (h : Tidy k) (caps : Bool) (ke : KeyboardEvent) (answer : Answer)
    (e : shellHandleKey k caps ke answer = .ok k') :
    k'.term = k.term.write (reply k.line (editLine caps ke k.line) answer.out) := by
  have hin : ¬ ¬ inputEnabled = true := by decide
  have hsame : echo k.line k.line = [] := by
    unfold echo
    rw [if_neg (Nat.lt_irrefl _), List.drop_length]
  unfold shellHandleKey at e
  unfold editLine
  rw [if_neg hin] at e
  by_cases h1 : ke.scancode = chr '\x08' ∨ ke.scancode = 127
  · rw [if_pos h1] at e
    rw [if_pos h1]
    exact backspace_term e
  rw [if_neg h1] at e
  rw [if_neg h1]
  by_cases h2 : ke.scancode = chr '\n' ∨ ke.scancode = chr '\r' ∨ ke.enter
  · rw [if_pos h2, setBuffer_ok h.index, bind_ok, printf_text _ _ (by decide +kernel), bind_ok,
      printf_text _ _ (by decide +kernel)] at e
    rw [if_pos h2, ← Except.ok.inj e]
    show _ = k.term.write (str "\n" ++ answer.out ++ prompt)
    rw [write_append, write_append]
    rfl
  rw [if_neg h2] at e
  rw [if_neg h2]
  by_cases h3 : ke.backspace
  · rw [if_pos h3] at e
    rw [if_pos h3]
    exact backspace_term e
  rw [if_neg h3] at e
  rw [if_neg h3]
  by_cases hc : kbToAscii caps ke = 0
  · rw [if_neg (not_not.mpr hc)] at e
    rw [if_neg fun hn => hn.1 hc, ← Except.ok.inj e]
    show _ = k.term.write (echo k.line k.line)
    rw [hsame]
    rfl
  rw [if_pos hc] at e
  by_cases hroom : k.index < shellBufferSize - 1
  · rw [if_pos hroom, setBuffer_ok h.index, bind_ok] at e
    have hecho := Except.ok.inj ((printf_echo _ _).symm.trans e)
    rw [line_length, if_pos ⟨hc, hroom⟩, ← hecho]
    show _ = k.term.write (echo k.line (k.line ++ [kbToAscii caps ke]))
    unfold echo
    rw [if_neg (by rw [List.length_append]; omega), List.drop_left]
    rfl
  · rw [if_neg hroom] at e
    rw [line_length, if_neg fun hn => hroom hn.2, ← Except.ok.inj e]
    show _ = k.term.write (echo k.line k.line)
    rw [hsame]
    rfl

/-! ## one command line -/

theorem commandNamed_iff {w : List Byte} {f : CommandFunc} : commandNamed w = some f ↔ Names w f := by
  unfold commandNamed
  constructor
  · intro h
    obtain ⟨c, hc, hf⟩ := Option.bind_eq_some_iff.mp h
    exact ⟨c, List.mem_of_find?_eq_some hc, by simpa using List.find?_some hc, hf⟩
  · rintro ⟨c, hc, hn, hf⟩
    obtain ⟨d, hd⟩ : ∃ d, registered.find? (fun c => decide (c.name = some w)) = some d := by
      refine Option.isSome_iff_exists.mp (List.find?_isSome.mpr ⟨c, hc, decide_eq_true hn⟩)
    obtain ⟨n, g, b, hfill, _⟩ := registered_filled d (List.mem_of_find?_eq_some hd)
    have hg : Names w g :=
      ⟨d, List.mem_of_find?_eq_some hd, by simpa using List.find?_some hd, by rw [hfill]⟩
    rw [hd, names_unique ⟨c, hc, hn, hf⟩ hg, Option.bind_some, hfill]

theorem cString_val {w : List Byte} (h : (0 : Byte) ∉ w) : (cString w).val = w :=
  List.takeWhile_eq_self_iff.mpr fun _ hc => decide_eq_true fun h0 => h (h0 ▸ hc)

/-- **The tokenizer with its state and the search of the table evaluate the line.** -/
theorem processCommand_eval (t : ShellSession) (timerTicks : Word) (line : List Byte) :
    (t.processCommand timerTicks (cString line)).map (fun a => (a.1.out, a.2.2))
      = evalLine timerTicks t.kernel line := by
  unfold ShellSession.processCommand evalLine
  by_cases hnamed : ∃ w ws f, words (cString line) = w :: ws ∧ Names w f
  · obtain ⟨w, ws, f, hw, hf⟩ := hnamed
    obtain ⟨s', args, ha, e⟩ := shellProcessCommand_found t.strtok t.kernel hw hf
    have hargs : args = ws.head?.map cString := by
      cases ws with
      | nil =>
        cases args with
        | none => rfl
        | some a => cases ha
      | cons u us =>
        cases args with
        | none => cases ha
        | some a =>
          have hu : a.val = u := Option.some.inj ha
          have hnul : (0 : Byte) ∉ u := word_no_nul (hw ▸ List.mem_cons_of_mem _ List.mem_cons_self)
          exact congrArg some (Subtype.ext (hu.trans (cString_val hnul).symm))
    rw [e, hw, hargs]
    simp only [commandNamed_iff.mpr hf]
    cases f.call timerTicks t.kernel (ws.head?.map cString) with
    | error e => rfl
    | ok k' =>
      simp only [Except.map, bind_ok]
      cases render (k'.heap.console.drop t.kernel.heap.console.length) with
      | error e => rfl
      | ok out => rfl
  · rw [shellProcessCommand_null _ _ _ fun w ws f hw hf => hnamed ⟨w, ws, f, hw, hf⟩]
    cases hw : words (cString line) with
    | nil => rfl
    | cons w ws =>
      have hno : commandNamed w = none := by
        refine Option.eq_none_iff_forall_ne_some.mpr fun f hf => hnamed ⟨w, ws, f, hw, ?_⟩
        exact commandNamed_iff.mp hf
      simp only [hno]
      rfl

/-! ## one key -/

/-- the shell and the loop are at the same point, and the terminal is `start` with all that was
written -/
structure Mirrors (start : Terminal) (t : ShellSession) (r : Repl) : Prop where
  keyboard : t.keyboard = r.keyboard
  line : t.shell.line = r.line
  kernel : t.kernel = r.kernel
  term : t.shell.term = start.write r.written

theorem press_mirrors (h : AtWork readme t) (hr : Mirrors start t r) (x : Stroke) :
    Agree (keyboardCallback t x.timerTicks x.event x.scancode) (r.press x) (Mirrors start) := by
  obtain ⟨keyboard, line, kernel, written⟩ := r
  obtain ⟨rfl, rfl, rfl, hterm⟩ := hr
  have hkey := handleKey_line h.shown.tidy (readKeyboard t.keyboard x.event x.scancode).2.capsLockActive
    (readKeyboard t.keyboard x.event x.scancode).1
  unfold keyboardCallback Repl.press
  simp only []
  cases hline : shellCommandLine t.shell (readKeyboard t.keyboard x.event x.scancode).1 with
  | none =>
    obtain ⟨shell, e, _, hedit⟩ := hkey ⟨[], t.shell.buffer⟩
    rw [hline] at hedit
    have hterm' := handleKey_term h.shown.tidy _ _ _ e
    rw [← hedit] at hterm' ⊢
    simp only [e, bind_ok]
    refine .ok ⟨rfl, rfl, rfl, ?_⟩
    rw [hterm', hterm, ← write_append]
    rfl
  | some line =>
    have hsubmit : (editLine (readKeyboard t.keyboard x.event x.scancode).2.capsLockActive
        (readKeyboard t.keyboard x.event x.scancode).1 t.shell.line).1 = some line := by
      obtain ⟨shell, _, _, hedit⟩ := hkey ⟨[], t.shell.buffer⟩
      rw [← hedit, hline]
    simp only [hsubmit]
    have heval : Agree (t.processCommand x.timerTicks (cString line))
        (evalLine x.timerTicks t.kernel line) fun a b => b = (a.1.out, a.2.2) := by
      rw [← processCommand_eval]
      cases t.processCommand x.timerTicks (cString line) with
      | error e => exact .error e e
      | ok a => exact .ok rfl
    refine heval.bind ?_
    rintro ⟨answer, strtok, kernel⟩ _ rfl
    obtain ⟨shell, e, _, hedit⟩ := hkey answer
    have hterm' := handleKey_term h.shown.tidy _ _ _ e
    rw [hline] at hedit
    rw [← hedit] at hterm' ⊢
    simp only [e, bind_ok]
    refine .ok ⟨rfl, rfl, rfl, ?_⟩
    rw [hterm', hterm, ← write_append]
    rfl

theorem press_agrees (h : AtWork readme t) (hr : Mirrors start t r) (x : Stroke) :
    Agree (keyboardCallback t x.timerTicks x.event x.scancode) (r.press x)
      fun t' r' => AtWork readme t' ∧ Mirrors start t' r' := by
  have hag := press_mirrors h hr x
  have hkeep := (callback_iff h x).1
  refine ⟨fun t' et => ?_, fun r' er => ?_⟩
  · obtain ⟨r', er, hm⟩ := hag.1 t' et
    exact ⟨r', er, hkeep t' et, hm⟩
  · obtain ⟨t', et, hm⟩ := hag.2 r' er
    exact ⟨t', et, hkeep t' et, hm⟩

/-! ## runs -/

theorem boot_mirrors {s : Machine} {term : Terminal} {out : List Byte}
    (e : bootSession s term out = .ok t) :
    Mirrors (Terminal.write term.initialize out) t (.start t.kernel) := by
  obtain ⟨k0, _, e⟩ := bind_eq_ok e
  obtain ⟨k, _, e⟩ := bind_eq_ok e
  obtain ⟨shell, es, e⟩ := bind_eq_ok e
  cases e
  rw [shellInit_eq] at es
  have hshell := (Except.ok.inj es).symm
  exact ⟨rfl, by rw [hshell]; rfl, rfl, by rw [hshell]; rfl⟩

end

/-- **Every session starts, and for every list of keys from then on the shell and the loop both fail, or
the line, the flags and the kernel are the same and the terminal is what the loop has written.** -/
theorem session_refines (s : Machine) (term : Terminal) (out : List Byte) :
    ∃ t0, bootSession s term out = .ok t0 ∧ ∀ xs : List Stroke,
      Agree (xs.foldlM (fun t x => keyboardCallback t x.timerTicks x.event x.scancode) t0)
        (xs.foldlM Repl.press (.start t0.kernel)) (Mirrors (Terminal.write term.initialize out)) := by
  obtain ⟨t0, readme, e, hwork, _⟩ := @boot_atWork s term out
  refine ⟨t0, e, fun xs => ?_⟩
  have hboth : Agree (xs.foldlM (fun t x => keyboardCallback t x.timerTicks x.event x.scancode) t0)
      (xs.foldlM Repl.press (.start t0.kernel))
      (fun t r => AtWork readme t ∧ Mirrors (Terminal.write term.initialize out) t r) :=
    Agree.foldlM (fun _ _ x h => press_agrees h.1 h.2 x) ⟨hwork, boot_mirrors e⟩ xs
  exact hboth.mono fun _ _ h => h.2

end FirstKernel
