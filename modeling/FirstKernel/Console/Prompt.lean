import FirstKernel.Console.Shell
import FirstKernel.Lib.Run

/-!
# The screen and the line buffer

A run starts from an initialised terminal, any output and `shell_init`; each step is one key event,
with the answer of the command it may start.

* `Shown`               the cells before the position show the prompt and the line held;
* `shown_handleKey`     one key event keeps it;
* `screen_shows_line`   it holds in every run.
-/

namespace FirstKernel
open ByteMem Cells

def prompt : List Byte := str "nutshell> "

/-- the characters of the line being typed -/
def Shell.line (k : Shell) : List Byte := loadN k.buffer 0 k.index

structure Press where
  event : KeyboardEvent
  capsLockActive : Bool
  answer : Answer

def consoleSystem : Run.System Shell Press where
  init k := ∃ (t : Terminal) (out : List Byte), shellInit ⟨Terminal.write t.initialize out, fun _ => 0, 0⟩ = .ok k
  step k p k' := shellHandleKey k p.capsLockActive p.event p.answer = .ok k'

/-- the line held is on the screen, right behind the prompt and right before the position -/
structure Shown (k : Shell) : Prop where
  onScreen : k.term.OnScreen
  index : k.index ≤ shellBufferSize - 1
  nonNul : ∀ i, i < k.index → k.buffer i ≠ 0
  ends : Ends k.term (prompt ++ k.line)

/-! ## what the shell prints -/

theorem signExtend_setWidth (c : Byte) : (c.signExtend 32).setWidth 8 = c := by
  apply BitVec.eq_of_getLsbD_eq
  intro i hi
  rw [BitVec.getLsbD_setWidth, BitVec.getLsbD_signExtend]
  simp [hi, show i < 32 by omega]

section
variable {k : Shell}

theorem printf_text (k : Shell) (cs : List Byte) (h : chr '%' ∉ cs) :
    k.printf cs [] = .ok { k with term := k.term.write cs } := by
  unfold Shell.printf Terminal.printf
  rw [printf_literal cs [] h]
  rfl

theorem printf_echo (k : Shell) (c : Byte) :
    k.printf (str "%c") [.num (c.signExtend 32)] = .ok { k with term := k.term.putchar c } := by
  unfold Shell.printf Terminal.printf
  rw [printf_char, signExtend_setWidth]
  rfl

/-- the table holds printable characters and zeros -/
theorem scancodeToAscii_printable {c : Byte} (h : c ∈ scancodeToAscii) :
    c.toNat = 0 ∨ 32 ≤ c.toNat ∧ c.toNat < 127 := by
  have hall : (scancodeToAscii.all fun c => c.toNat == 0 || 32 ≤ c.toNat && c.toNat < 127) = true := by
    decide +kernel
  have := List.all_eq_true.mp hall c h
  simpa using this

theorem toupper_printable {c : Byte} (h : 32 ≤ c.toNat ∧ c.toNat < 127) :
    32 ≤ (toupper c).toNat ∧ (toupper c).toNat < 127 := by
  have ha : chr 'a' = 97 := rfl
  have hz : chr 'z' = 122 := rfl
  have hA : chr 'A' = 65 := rfl
  unfold toupper
  rw [ha, hz, hA]
  by_cases hc : (97 : Byte) ≤ c ∧ c ≤ (122 : Byte)
  · rw [if_pos hc]
    bv_omega
  · rw [if_neg hc]
    exact h

theorem kbToAscii_printable (caps : Bool) (ke : KeyboardEvent) :
    (kbToAscii caps ke).toNat = 0 ∨
      32 ≤ (kbToAscii caps ke).toNat ∧ (kbToAscii caps ke).toNat < 127 := by
  have hentry : (scancodeToAscii.getD ke.scancode.toNat 0).toNat = 0 ∨
      32 ≤ (scancodeToAscii.getD ke.scancode.toNat 0).toNat ∧
        (scancodeToAscii.getD ke.scancode.toNat 0).toNat < 127 := by
    rw [List.getD_eq_getElem?_getD]
    cases e : scancodeToAscii[ke.scancode.toNat]? with
    | none => exact .inl rfl
    | some c => exact scancodeToAscii_printable (List.mem_of_getElem? e)
  unfold kbToAscii
  simp only []
  split_ifs with hcode hup hletter
  · refine .inr (toupper_printable (hentry.resolve_left fun h0 => ?_))
    have hle := BitVec.le_def.mp hletter.1
    rw [h0] at hle
    exact absurd hle (by decide)
  · exact hentry
  · exact hentry
  · exact .inl rfl

theorem printable_ordinary {c : Byte} (h : c.toNat = 0 ∨ 32 ≤ c.toNat ∧ c.toNat < 127) :
    c ≠ chr '\x08' ∧ c ≠ chr '\n' := by
  constructor
  · rintro rfl
    exact absurd h (by decide)
  · rintro rfl
    exact absurd h (by decide)

/-- a fresh prompt after any output -/
theorem shown_prompt (h : k.term.OnScreen) :
    ∃ k', Shell.printf { k with index := 0 } prompt [] = .ok k' ∧ Shown k' := by
  refine ⟨_, printf_text _ _ (by decide +kernel), (write_onScreen h prompt).1, Nat.zero_le _, ?_, ?_⟩
  · intro i hi
    exact absurd hi (Nat.not_lt_zero i)
  · show Ends (k.term.write prompt) (prompt ++ [])
    rw [List.append_nil]
    exact (Ends.nil k.term).write h (by decide) (by decide)

theorem shellInit_eq (k : Shell) : shellInit k
    = .ok { k with term := k.term.write (str "Welcome to nutshell!\n" ++ prompt) } := by
  unfold shellInit
  rw [printf_text _ _ (by decide +kernel), bind_ok, printf_text _ _ (by decide +kernel), write_append]
  rfl

theorem shown_init (t : Terminal) (out : List Byte) :
    ∃ k, shellInit ⟨Terminal.write t.initialize out, fun _ => 0, 0⟩ = .ok k ∧ Shown k := by
  have h1 := (write_onScreen (initialize_onScreen t) out).1
  have h2 := (write_onScreen h1 (str "Welcome to nutshell!\n")).1
  obtain ⟨k, e, h⟩ := shown_prompt (k := ⟨_, fun _ => 0, 0⟩) h2
  refine ⟨k, ?_, h⟩
  unfold shellInit
  rw [printf_text _ _ (by decide +kernel)]
  exact e

/-- the last character of the line leaves the buffer and the screen -/
theorem shown_backspace (h : Shown k) : ∃ k', k.backspace = .ok k' ∧ Shown k' := by
  unfold Shell.backspace
  by_cases hpos : k.index > 0
  · rw [if_pos hpos]
    refine ⟨_, printf_text _ _ (by decide +kernel), (write_onScreen h.onScreen _).1, ?_, ?_, ?_⟩
    · have := h.index
      show k.index - 1 ≤ _
      omega
    · intro i hi
      have hi' : i < k.index - 1 := hi
      exact h.nonNul i (by omega)
    · have hline : k.line = loadN k.buffer 0 (k.index - 1) ++ [k.buffer (k.index - 1)] := by
        have hsucc : k.index = k.index - 1 + 1 := by omega
        have := loadN_succ k.buffer 0 (k.index - 1)
        rw [← hsucc, Nat.zero_add] at this
        exact this
      have hends := h.ends
      rw [hline, ← List.append_assoc] at hends
      exact hends.erase h.onScreen
  · rw [if_neg hpos]
    exact ⟨k, rfl, h⟩

/-- a character joins the line and the screen -/
theorem shown_type (h : Shown k) {c : Byte} (hc : c ≠ 0) (hb : c ≠ chr '\x08') (hn : c ≠ chr '\n')
    (hroom : k.index < shellBufferSize - 1) :
    Shown ⟨k.term.putchar c, store8 k.buffer k.index c, k.index + 1⟩ := by
  have hline : loadN (store8 k.buffer k.index c) 0 (k.index + 1) = k.line ++ [c] := by
    rw [loadN_succ, Nat.zero_add, store8_self]
    congr 1
    exact loadN_congr fun i hi => store8_of_ne _ _ _ _ (by omega)
  have hlen : (prompt ++ k.line).length = 10 + k.index := by
    rw [List.length_append]
    show prompt.length + (loadN k.buffer 0 k.index).length = _
    rw [loadN_length]
    rfl
  unfold shellBufferSize at *
  refine ⟨(putchar_onScreen h.onScreen c).1, ?_, ?_, ?_⟩
  · show k.index + 1 ≤ 255
    omega
  · intro i hi
    show store8 k.buffer k.index c i ≠ 0
    by_cases e : i = k.index
    · rw [e, store8_self]
      exact hc
    · have hi' : i < k.index + 1 := hi
      rw [store8_of_ne _ _ _ _ e]
      exact h.nonNul i (by omega)
  · show Ends _ (prompt ++ loadN (store8 k.buffer k.index c) 0 (k.index + 1))
    rw [hline, ← List.append_assoc]
    exact h.ends.push h.onScreen (by omega) hb hn

/-- **One key event keeps the line on the screen, whatever the command it starts prints.** -/
theorem shown_handleKey (h : Shown k) (caps : Bool) (ke : KeyboardEvent) (answer : Answer) :
    ∃ k', shellHandleKey k caps ke answer = .ok k' ∧ Shown k' := by
  have hidx := h.index
  unfold shellBufferSize at hidx
  unfold shellHandleKey
  rw [if_neg (by decide)]
  by_cases h1 : ke.scancode = chr '\x08' ∨ ke.scancode = 127
  · rw [if_pos h1]
    exact shown_backspace h
  rw [if_neg h1]
  by_cases h2 : ke.scancode = chr '\n' ∨ ke.scancode = chr '\r' ∨ ke.enter
  · rw [if_pos h2]
    have e : k.setBuffer k.index 0 = .ok { k with buffer := store8 k.buffer k.index 0 } := by
      unfold Shell.setBuffer shellBufferSize
      rw [if_pos (by omega)]
    have ht := (write_onScreen (write_onScreen h.onScreen (str "\n")).1 answer.out).1
    obtain ⟨k', e', h'⟩ := shown_prompt (k := ⟨_, answer.buffer, k.index⟩) ht
    refine ⟨k', ?_, h'⟩
    simp only [e, bind_ok]
    rw [printf_text _ _ (by decide +kernel), bind_ok]
    exact e'
  rw [if_neg h2]
  by_cases h3 : ke.backspace
  · rw [if_pos h3]
    exact shown_backspace h
  rw [if_neg h3]
  simp only []
  obtain ⟨hb, hn⟩ := printable_ordinary (kbToAscii_printable caps ke)
  by_cases hc : kbToAscii caps ke = 0
  · rw [if_neg (not_not.mpr hc)]
    exact ⟨k, rfl, h⟩
  rw [if_pos hc]
  by_cases hroom : k.index < shellBufferSize - 1
  · rw [if_pos hroom]
    have e : k.setBuffer k.index (kbToAscii caps ke)
        = .ok { k with buffer := store8 k.buffer k.index (kbToAscii caps ke) } := by
      unfold Shell.setBuffer shellBufferSize
      rw [if_pos (by omega)]
    refine ⟨_, ?_, shown_type h hc hb hn hroom⟩
    rw [e, bind_ok]
    exact printf_echo _ _
  · rw [if_neg hroom]
    exact ⟨k, rfl, h⟩

end

theorem shown_reachable {k : Shell} (h : Run.Reachable consoleSystem k) : Shown k := by
  refine h.invariant ?_ ?_
  · rintro k ⟨t, out, e⟩
    obtain ⟨k', e', h'⟩ := shown_init t out
    rw [e] at e'
    cases e'
    exact h'
  · rintro k p k' _ hk e
    obtain ⟨k'', e', h'⟩ := shown_handleKey hk p.capsLockActive p.event p.answer
    rw [show shellHandleKey k p.capsLockActive p.event p.answer = .ok k' from e] at e'
    cases e'
    exact h'

/-- the screen and the buffer as the user sees them: the `10 + shell_index` cells before the
position show the prompt and the bytes held -/
structure ScreenShowsLine (k : Shell) : Prop where
  index : k.index ≤ shellBufferSize - 1
  nonNul : ∀ i, i < k.index → k.buffer i ≠ 0
  room : 10 + k.index ≤ k.term.row * 80 + k.term.column
  prompt : ∀ i, i < 10 → k.term.buffer (k.term.row * 80 + k.term.column - (10 + k.index) + i)
    = makeEntry ((str "nutshell> ").getD i 0) k.term.color
  line : ∀ i, i < k.index → k.term.buffer (k.term.row * 80 + k.term.column - k.index + i)
    = makeEntry (k.buffer i) k.term.color

theorem Shown.screen {k : Shell} (h : Shown k) : ScreenShowsLine k := by
  obtain ⟨p, hp, hshow⟩ := h.ends
  have hten : prompt.length = 10 := rfl
  have hline : k.line.length = k.index := loadN_length ..
  have hcur : p + (10 + k.index) = k.term.row * 80 + k.term.column := by
    rw [← hten, ← hline, ← List.length_append]
    exact hp
  have hlen : (prompt ++ k.line).length = 10 + k.index := by
    rw [List.length_append, hten, hline]
  refine ⟨h.index, h.nonNul, by omega, fun i hi => ?_, fun i hi => ?_⟩
  · have e := hshow i (by omega)
    rw [List.getElem_append_left (by omega)] at e
    rw [show k.term.row * 80 + k.term.column - (10 + k.index) + i = p + i by omega, e]
    show _ = makeEntry (prompt.getD i 0) _
    rw [List.getD_eq_getElem?_getD, List.getElem?_eq_getElem (by omega)]
    rfl
  · have e := hshow (10 + i) (by omega)
    rw [List.getElem_append_right (by omega)] at e
    rw [show k.term.row * 80 + k.term.column - k.index + i = p + (10 + i) by omega, e]
    congr 1
    refine (loadN_getElem k.buffer 0 k.index _ _).trans ?_
    rw [hten, show 0 + (10 + i - 10) = i by omega]

/-- **In every run the screen shows the prompt and the line the shell holds, and every key event
returns.** -/
theorem screen_shows_line :
    (∀ (t : Terminal) (out : List Byte),
      ∃ k, shellInit ⟨Terminal.write t.initialize out, fun _ => 0, 0⟩ = .ok k) ∧
    ∀ k, Run.Reachable consoleSystem k → ScreenShowsLine k ∧
      ∀ p : Press, ∃ k', shellHandleKey k p.capsLockActive p.event p.answer = .ok k' := by
  constructor
  · intro t out
    obtain ⟨k, e, _⟩ := shown_init t out
    exact ⟨k, e⟩
  · intro k h
    refine ⟨(shown_reachable h).screen, fun p => ?_⟩
    obtain ⟨k', e, _⟩ := shown_handleKey (shown_reachable h) p.capsLockActive p.event p.answer
    exact ⟨k', e⟩

/-- the key `a` after start-up -/
theorem screen_shows_line_key : ∃ k : Shell, k.index = 1 ∧ ScreenShowsLine k := by
  let t : Terminal := ⟨0, 0, 0, fun _ => 0, 0, 0⟩
  let p : Press := ⟨⟨30, false, false, false, false, false, false, false, false⟩, false,
    ⟨[], fun _ => 0⟩⟩
  obtain ⟨k0, e0⟩ := screen_shows_line.1 t []
  have h0 : Run.Reachable consoleSystem k0 := .init ⟨t, [], e0⟩
  obtain ⟨k1, e1⟩ := (screen_shows_line.2 k0 h0).2 p
  have hindex : (shellInit ⟨Terminal.write t.initialize [], fun _ => 0, 0⟩ >>= fun k =>
      shellHandleKey k p.capsLockActive p.event p.answer).map Shell.index = .ok 1 := by
    decide +kernel
  rw [e0, bind_ok, e1] at hindex
  exact ⟨k1, Except.ok.inj hindex, (screen_shows_line.2 k1 (h0.step e1)).1⟩

end FirstKernel
