import FirstKernel.Console.ShiftKeys

/-!
# The line editor, from scancodes to command lines

`readKeyboard` decodes a scancode and `shellHandleKey` edits the line.  The handler compares the
scancode with ASCII control codes before it looks at the decoded flags, and four scancodes are such
codes: `0x08` is the key `7`, `0x0A` the key `9`, `0x0D` the key `=`, and `0x7F` no key at all.  The
editor that the user expects types under shift while one of the two shift keys is held; the driver
does so until one of them is released.

* `editLine`            the handler on the characters held (`handleKey_line`);
* `LineEditor.feed`     the editor the user expects, on scancodes;
* `feed_eq_editLine`    they agree away from the four codes, with the shift flag right;
* `submits_typed`       so do the command lines of every run, and of no other step.
-/

namespace FirstKernel
open ByteMem Cells

/-! ## the driver and the shell -/

/-- the C string in `shell_buffer` -/
def Shell.bufferString (k : Shell) : List Byte := (loadN k.buffer 0 shellBufferSize).takeWhile (· ≠ 0)

/-- what `shell_handle_key` passes to `shell_process_command`, if it calls it -/
def shellCommandLine (k : Shell) (ke : KeyboardEvent) : Option (List Byte) :=
  if ¬ inputEnabled then none
  else if ke.scancode = chr '\x08' ∨ ke.scancode = 127 then none
  else if ke.scancode = chr '\n' ∨ ke.scancode = chr '\r' ∨ ke.enter then
    some (Shell.bufferString { k with buffer := store8 k.buffer k.index 0 })
  else none

structure Keystroke where
  scancode : Byte
  event : KeyboardEvent
  answer : Answer

/-- the driver, the shell, and what went in and came out so far -/
structure Desk where
  keyboard : Keyboard
  shell : Shell
  /-- the scancodes fed -/
  typed : List Byte
  /-- for each of them the line passed to `shell_process_command`, if any -/
  passed : List (Option (List Byte))

/-- `keyboard_callback` -/
def Desk.press (d : Desk) (x : Keystroke) : Res Desk := do
  let r := readKeyboard d.keyboard x.event x.scancode
  let shell ← shellHandleKey d.shell r.2.capsLockActive r.1 x.answer
  return ⟨r.2, shell, d.typed ++ [x.scancode], d.passed ++ [shellCommandLine d.shell r.1]⟩

/-- nothing typed yet, before any terminal -/
def Desk.start (t : Terminal) : Desk := ⟨⟨false, false⟩, ⟨t, fun _ => 0, 0⟩, [], []⟩

def deskSystem : Run.System Desk Keystroke where
  init d := ∃ t, d = Desk.start t
  step d x d' := d.press x = .ok d'

/-! ## the handler on the characters held -/

/-- the line passed on and the line held after a key event -/
def editLine (capsLockActive : Bool) (ke : KeyboardEvent) (line : List Byte) :
    Option (List Byte) × List Byte :=
  if ke.scancode = chr '\x08' ∨ ke.scancode = 127 then (none, line.dropLast)
  else if ke.scancode = chr '\n' ∨ ke.scancode = chr '\r' ∨ ke.enter then (some line, [])
  else if ke.backspace then (none, line.dropLast)
  else if kbToAscii capsLockActive ke ≠ 0 ∧ line.length < shellBufferSize - 1 then
    (none, line ++ [kbToAscii capsLockActive ke])
  else (none, line)

/-- the line held fits, with room for a terminator, and has no terminator inside -/
structure Tidy (k : Shell) : Prop where
  index : k.index ≤ shellBufferSize - 1
  nonNul : ∀ i, i < k.index → k.buffer i ≠ 0

section
variable {k : Shell}

theorem line_length (k : Shell) : k.line.length = k.index := loadN_length ..

theorem setBuffer_ok (h : k.index ≤ shellBufferSize - 1) (c : Byte) :
    k.setBuffer k.index c = .ok { k with buffer := store8 k.buffer k.index c } := by
  unfold shellBufferSize at h
  unfold Shell.setBuffer shellBufferSize
  rw [if_pos (by omega)]

/-- the terminated buffer reads as the line held -/
theorem bufferString_line (h : Tidy k) :
    Shell.bufferString { k with buffer := store8 k.buffer k.index 0 } = k.line := by
  have hidx := h.index
  unfold shellBufferSize at hidx
  have hsplit : shellBufferSize = k.index + (255 - k.index + 1) := by
    unfold shellBufferSize
    omega
  have hfront : loadN (store8 k.buffer k.index 0) 0 k.index = k.line :=
    loadN_congr fun i hi => store8_of_ne _ _ _ _ (by omega)
  have hnul : ∀ c ∈ k.line, c ≠ 0 := by
    intro c hc
    obtain ⟨i, hi, rfl⟩ := List.getElem_of_mem hc
    have e : k.line[i] = k.buffer i := by
      refine (loadN_getElem k.buffer 0 k.index i _).trans ?_
      rw [Nat.zero_add]
    rw [line_length] at hi
    rw [e]
    exact h.nonNul i hi
  unfold Shell.bufferString
  show (loadN (store8 k.buffer k.index 0) 0 shellBufferSize).takeWhile _ = _
  rw [hsplit, loadN_add, hfront, Nat.zero_add, loadN_cons, store8_self,
    List.takeWhile_append_of_pos (by simpa using hnul), List.takeWhile_cons_of_neg (by decide),
    List.append_nil]

/-- both backspace branches -/
theorem backspace_line (h : Tidy k) :
    ∃ k', k.backspace = .ok k' ∧ Tidy k' ∧ k'.line = k.line.dropLast := by
  have hidx := h.index
  unfold Shell.backspace
  by_cases hpos : k.index > 0
  · rw [if_pos hpos]
    refine ⟨_, printf_text _ _ (by decide +kernel), ⟨?_, ?_⟩, ?_⟩
    · show k.index - 1 ≤ _
      omega
    · intro i hi
      have hi' : i < k.index - 1 := hi
      exact h.nonNul i (by omega)
    · rw [List.dropLast_eq_take, line_length]
      exact (loadN_take k.buffer 0 k.index (k.index - 1) (by omega)).symm
  · rw [if_neg hpos]
    refine ⟨k, rfl, h, ?_⟩
    have : k.line = [] := List.length_eq_zero_iff.mp (by rw [line_length]; omega)
    rw [this]
    rfl

/-- a character behind the line held -/
theorem type_line (h : Tidy k) {c : Byte} (hc : c ≠ 0) (hroom : k.index < shellBufferSize - 1)
    (t : Terminal) : Tidy ⟨t, store8 k.buffer k.index c, k.index + 1⟩ ∧
      Shell.line ⟨t, store8 k.buffer k.index c, k.index + 1⟩ = k.line ++ [c] := by
  refine ⟨⟨hroom, ?_⟩, ?_⟩
  · intro i hi
    show store8 k.buffer k.index c i ≠ 0
    by_cases e : i = k.index
    · rw [e, store8_self]
      exact hc
    · have hi' : i < k.index + 1 := hi
      rw [store8_of_ne _ _ _ _ e]
      exact h.nonNul i (by omega)
  · show loadN (store8 k.buffer k.index c) 0 (k.index + 1) = _
    rw [loadN_succ, Nat.zero_add, store8_self]
    congr 1
    exact loadN_congr fun i hi => store8_of_ne _ _ _ _ (by omega)

/-- **A key event returns and edits the line held as `editLine` says.** -/
theorem handleKey_line (h : Tidy k) (caps : Bool) (ke : KeyboardEvent) (answer : Answer) :
    ∃ k', shellHandleKey k caps ke answer = .ok k' ∧ Tidy k' ∧
      (shellCommandLine k ke, k'.line) = editLine caps ke k.line := by
  have hin : ¬ ¬ inputEnabled = true := by decide
  unfold shellHandleKey shellCommandLine editLine
  simp only [if_neg hin]
  by_cases h1 : ke.scancode = chr '\x08' ∨ ke.scancode = 127
  · simp only [if_pos h1]
    obtain ⟨k', e, ht, hl⟩ := backspace_line h
    exact ⟨k', e, ht, by rw [hl]⟩
  simp only [if_neg h1]
  by_cases h2 : ke.scancode = chr '\n' ∨ ke.scancode = chr '\r' ∨ ke.enter
  · simp only [if_pos h2, setBuffer_ok h.index, bind_ok, bufferString_line h]
    rw [printf_text _ _ (by decide +kernel), bind_ok]
    refine ⟨_, printf_text _ _ (by decide +kernel), ⟨Nat.zero_le _, ?_⟩, rfl⟩
    intro i hi
    exact absurd hi (Nat.not_lt_zero i)
  simp only [if_neg h2]
  by_cases h3 : ke.backspace
  · simp only [if_pos h3]
    obtain ⟨k', e, ht, hl⟩ := backspace_line h
    exact ⟨k', e, ht, by rw [hl]⟩
  simp only [if_neg h3]
  by_cases hc : kbToAscii caps ke = 0
  · rw [if_neg (not_not.mpr hc), if_neg fun hn => hn.1 hc]
    exact ⟨k, rfl, h, rfl⟩
  rw [if_pos hc, line_length]
  by_cases hroom : k.index < shellBufferSize - 1
  · rw [if_pos hroom, if_pos ⟨hc, hroom⟩, setBuffer_ok h.index, bind_ok]
    obtain ⟨ht, hl⟩ := type_line h hc hroom (k.term.putchar (kbToAscii caps ke))
    exact ⟨_, printf_echo _ _, ht, by rw [hl]⟩
  · rw [if_neg hroom, if_neg fun hn => hroom hn.2]
    exact ⟨k, rfl, h, rfl⟩

end

/-! ## the editor the user expects -/

/-- the scancodes so far, caps lock and the line -/
structure LineEditor where
  seen : List Byte
  caps : Bool
  line : List Byte

def LineEditor.start : LineEditor := ⟨[], false, []⟩

def upperCase (c : Byte) : Byte := if 97 ≤ c.toNat ∧ c.toNat ≤ 122 then c - 32 else c

/-- press and release of the modifier keys -/
def LineEditor.modify (r : LineEditor) (scancode : Byte) : LineEditor where
  seen := r.seen ++ [scancode]
  caps := if scancode = 0x3A then !r.caps else r.caps
  line := r.line

/-- the character of a key, 0 if it has none; releases are beyond the table -/
def LineEditor.char (r : LineEditor) (scancode : Byte) : Byte :=
  let c := scancodeToAscii.getD scancode.toNat 0
  if shiftHeld r.seen ∨ r.caps then upperCase c else c

/-- the line submitted by a scancode, if any, and the editor after it -/
def LineEditor.feed (r : LineEditor) (scancode : Byte) : Option (List Byte) × LineEditor :=
  let r := r.modify scancode
  if scancode = 0x1C then (some r.line, { r with line := [] })
  else if scancode = 0x0E then (none, { r with line := r.line.dropLast })
  else if r.char scancode ≠ 0 ∧ r.line.length < 255 then
    (none, { r with line := r.line ++ [r.char scancode] })
  else (none, r)

/-- what each of the scancodes submits, and the editor after them -/
def LineEditor.feedAll (scancodes : List Byte) : List (Option (List Byte)) × LineEditor :=
  scancodes.foldl (fun a c => (a.1 ++ [(a.2.feed c).1], (a.2.feed c).2)) ([], .start)

theorem feed_modify (r : LineEditor) (c : Byte) :
    (r.feed c).2.seen = (r.modify c).seen ∧ (r.feed c).2.caps = (r.modify c).caps := by
  unfold LineEditor.feed
  simp only []
  split_ifs <;> exact ⟨rfl, rfl⟩

theorem feedAll_snoc (cs : List Byte) (c : Byte) :
    LineEditor.feedAll (cs ++ [c])
      = ((LineEditor.feedAll cs).1 ++ [((LineEditor.feedAll cs).2.feed c).1],
        ((LineEditor.feedAll cs).2.feed c).2) := by
  unfold LineEditor.feedAll
  rw [List.foldl_append]
  rfl

theorem feedAll_seen (cs : List Byte) : (LineEditor.feedAll cs).2.seen = cs := by
  induction cs using List.reverseRecOn with
  | nil => rfl
  | append_singleton cs c ih =>
    rw [feedAll_snoc, (feed_modify _ c).1]
    exact congrArg (· ++ [c]) ih

/-! ## where the two agree -/

/-- a scancode the handler takes for a scancode: not one of the control codes, and `0x7F`, which no
key sends, only on an empty line -/
def TakenAsKey (line : List Byte) (scancode : Byte) : Prop :=
  scancode ≠ 0x08 ∧ scancode ≠ 0x0A ∧ scancode ≠ 0x0D ∧ (scancode = 0x7F → line = [])

instance (line : List Byte) (scancode : Byte) : Decidable (TakenAsKey line scancode) :=
  inferInstanceAs (Decidable (scancode ≠ 0x08 ∧ scancode ≠ 0x0A ∧ scancode ≠ 0x0D ∧
    (scancode = 0x7F → line = [])))

/-- the driver's statics and the editor's modifiers -/
def InStep (k : Keyboard) (r : LineEditor) : Prop :=
  k.shiftPressed = shiftHeld r.seen ∧ k.capsLockActive = r.caps

section
variable {k : Keyboard} {r : LineEditor} (event : KeyboardEvent) (c : Byte)

theorem InStep.read (h : InStep k r) (ha : ReleasesAlone r.seen c) :
    InStep (readKeyboard k event c).2 (r.modify c) := by
  obtain ⟨h1, h2⟩ := h
  refine ⟨shift_step h1 event ha, ?_⟩
  show (if _ then !k.capsLockActive else k.capsLockActive) = _
  rw [h2]
  rfl

/-- beyond the table there is no character -/
theorem char_release (r : LineEditor) (hc : ¬ c < 128) : r.char c = 0 := by
  have hlen : scancodeToAscii.length ≤ c.toNat := Nat.le_of_not_lt hc
  have h0 : scancodeToAscii.getD c.toNat 0 = 0 := by
    rw [List.getD_eq_getElem?_getD, List.getElem?_eq_none hlen]
    rfl
  unfold LineEditor.char
  rw [h0]
  split <;> rfl

theorem upperCase_eq (c : Byte) :
    (if chr 'a' ≤ c ∧ c ≤ chr 'z' then toupper c else c) = upperCase c := by
  have hletter : (chr 'a' ≤ c ∧ c ≤ chr 'z') ↔ 97 ≤ c.toNat ∧ c.toNat ≤ 122 := by
    rw [BitVec.le_def, BitVec.le_def]
    exact Iff.rfl
  unfold toupper upperCase
  by_cases h : 97 ≤ c.toNat ∧ c.toNat ≤ 122
  · rw [if_pos (hletter.mpr h), if_pos (hletter.mpr h), if_pos h]
    rfl
  · rw [if_neg (mt hletter.mp h), if_neg h]

/-- the translation of the driver, after it decoded the scancode -/
theorem kbToAscii_read (h : InStep k r) :
    kbToAscii (readKeyboard k event c).2.capsLockActive (readKeyboard k event c).1
      = (r.modify c).char c := by
  have hsc : (readKeyboard k event c).1.scancode = c := rfl
  have hsh : (readKeyboard k event c).1.shift = (readKeyboard k event c).2.shiftPressed := rfl
  by_cases hlt : c < 128
  · -- a press: the flags are right after it
    obtain ⟨h1, h2⟩ := h.read event c (releasesAlone_press hlt)
    unfold kbToAscii LineEditor.char
    simp only [hsc, hsh, h1, h2, upperCase_eq]
    rw [if_pos hlt]
  · rw [char_release c _ hlt]
    unfold kbToAscii
    simp only [hsc, if_neg hlt]

/-- a scancode taken as a key does what the user expects -/
theorem feed_eq_editLine (h : InStep k r) (hc : TakenAsKey r.line c) :
    editLine (readKeyboard k event c).2.capsLockActive (readKeyboard k event c).1 r.line
      = ((r.feed c).1, (r.feed c).2.line) := by
  obtain ⟨h8, h10, h13, h127⟩ := hc
  have hread := kbToAscii_read event c h
  have hsc : (readKeyboard k event c).1.scancode = c := rfl
  have hent : (readKeyboard k event c).1.enter = decide (c = 0x1C) := rfl
  have hbsp : (readKeyboard k event c).1.backspace = decide (c = 0x0E) := rfl
  have hline : (r.modify c).line = r.line := rfl
  have h10' : c ≠ chr '\n' := h10
  have h13' : c ≠ chr '\r' := h13
  have h8' : c ≠ chr '\x08' := h8
  unfold editLine LineEditor.feed
  simp only [hread, hsc, hent, hbsp, hline, h8', h10', h13', false_or, decide_eq_true_eq]
  by_cases hdel : c = 127
  · -- no key: the line is empty on both sides
    rw [if_pos hdel, h127 hdel]
    subst hdel
    have h0 : (r.modify 127).char 127 = 0 := by
      unfold LineEditor.char
      have e : scancodeToAscii.getD (127 : Byte).toNat 0 = 0 := by decide +kernel
      simp only [e]
      split <;> rfl
    rw [if_neg (by decide), if_neg (by decide), if_neg fun hn => hn.1 h0, hline, h127 rfl]
    rfl
  rw [if_neg hdel]
  unfold shellBufferSize
  split_ifs <;> rfl

/-- the digits `7` and `9` and the sign `=` have a character -/
theorem char_ne_zero (r : LineEditor) {c : Byte} (h : c = 0x08 ∨ c = 0x0A ∨ c = 0x0D) :
    r.char c ≠ 0 := by
  have hup : ∀ b : Byte, b ∈ [chr '7', chr '9', chr '='] → upperCase b = b ∧ b ≠ 0 := by
    decide +kernel
  have hc : scancodeToAscii.getD c.toNat 0 ∈ [chr '7', chr '9', chr '='] := by
    rcases h with rfl | rfl | rfl <;> decide +kernel
  unfold LineEditor.char
  simp only [(hup _ hc).1]
  rw [ite_self]
  exact (hup _ hc).2

end

/-! ## runs -/

/-- what each of the scancodes submits -/
def LineEditor.submitted (scancodes : List Byte) : List (Option (List Byte)) :=
  (LineEditor.feedAll scancodes).1

/-- the desk holds and passed on what the expected editor does after the same scancodes -/
structure Matched (d : Desk) : Prop where
  tidy : Tidy d.shell
  line : d.shell.line = (LineEditor.feedAll d.typed).2.line
  passed : d.passed = LineEditor.submitted d.typed

/-- and the modifiers are those of the expected editor -/
structure Synced (d : Desk) : Prop extends Matched d where
  modifiers : InStep d.keyboard (LineEditor.feedAll d.typed).2

theorem synced_start (t : Terminal) : Synced (.start t) where
  tidy := ⟨Nat.zero_le _, fun i hi => absurd hi (Nat.not_lt_zero i)⟩
  line := rfl
  passed := rfl
  modifiers := ⟨rfl, rfl⟩

section
variable {d : Desk}

/-- one scancode, with the line passed on and the line held after it -/
theorem press_spec (h : Tidy d.shell) (x : Keystroke) :
    ∃ d' o, d.press x = .ok d' ∧ Tidy d'.shell ∧
      d'.keyboard = (readKeyboard d.keyboard x.event x.scancode).2 ∧
      d'.typed = d.typed ++ [x.scancode] ∧ d'.passed = d.passed ++ [o] ∧
      (o, d'.shell.line) = editLine (readKeyboard d.keyboard x.event x.scancode).2.capsLockActive
        (readKeyboard d.keyboard x.event x.scancode).1 d.shell.line := by
  obtain ⟨k', e, ht, hl⟩ := handleKey_line h
    (readKeyboard d.keyboard x.event x.scancode).2.capsLockActive
    (readKeyboard d.keyboard x.event x.scancode).1 x.answer
  let r := readKeyboard d.keyboard x.event x.scancode
  refine ⟨⟨r.2, k', d.typed ++ [x.scancode], d.passed ++ [shellCommandLine d.shell r.1]⟩, _, ?_, ht,
    rfl, rfl, rfl, hl⟩
  unfold Desk.press
  simp only [e, bind_ok]
  rfl

/-- a scancode that edits the line as expected -/
theorem Matched.press (h : Matched d) {x : Keystroke} {d' : Desk} (e : d.press x = .ok d')
    (hx : editLine (readKeyboard d.keyboard x.event x.scancode).2.capsLockActive
        (readKeyboard d.keyboard x.event x.scancode).1 (LineEditor.feedAll d.typed).2.line
      = (((LineEditor.feedAll d.typed).2.feed x.scancode).1,
        ((LineEditor.feedAll d.typed).2.feed x.scancode).2.line)) : Matched d' := by
  obtain ⟨d1, o, e1, ht, _, htyped, hpassed, hedit⟩ := press_spec h.tidy x
  rw [e] at e1
  cases e1
  rw [h.line, hx] at hedit
  obtain ⟨ho, hline⟩ := Prod.mk.inj hedit
  refine ⟨ht, ?_, ?_⟩
  · rw [hline, htyped, feedAll_snoc]
  · unfold LineEditor.submitted
    rw [hpassed, htyped, feedAll_snoc, ho, h.passed]
    rfl

/-- a scancode taken as a key, whether or not it leaves the shift flag right -/
theorem Synced.key (h : Synced d) {x : Keystroke} (hx : TakenAsKey d.shell.line x.scancode)
    {d' : Desk} (e : d.press x = .ok d') : Matched d' := by
  rw [h.line] at hx
  exact h.toMatched.press e (feed_eq_editLine x.event x.scancode h.modifiers hx)

theorem Synced.press (h : Synced d) {x : Keystroke} (hx : TakenAsKey d.shell.line x.scancode)
    (ha : ReleasesAlone d.typed x.scancode) {d' : Desk} (e : d.press x = .ok d') : Synced d' := by
  refine ⟨h.key hx e, ?_⟩
  obtain ⟨d1, _, e1, _, hk, htyped, _, _⟩ := press_spec h.tidy x
  rw [e] at e1
  cases e1
  rw [← feedAll_seen d.typed] at ha
  obtain ⟨h1, h2⟩ := h.modifiers.read x.event x.scancode ha
  obtain ⟨hseen, hcaps⟩ := feed_modify (LineEditor.feedAll d.typed).2 x.scancode
  rw [hk, htyped, feedAll_snoc]
  unfold InStep
  rw [hseen, hcaps]
  exact ⟨h1, h2⟩

/-- the Enter key passes on the line held -/
theorem press_enter (h : Tidy d.shell) {y : Keystroke} (hy : y.scancode = 0x1C) {d' : Desk}
    (e : d.press y = .ok d') :
    d'.passed = d.passed ++ [some d.shell.line] ∧ d'.typed = d.typed ++ [0x1C] := by
  obtain ⟨d1, o, e1, _, _, htyped, hpassed, hedit⟩ := press_spec h y
  rw [e] at e1
  cases e1
  have hent : editLine (readKeyboard d.keyboard y.event y.scancode).2.capsLockActive
      (readKeyboard d.keyboard y.event y.scancode).1 d.shell.line = (some d.shell.line, []) := by
    rw [hy]
    rfl
  rw [hent] at hedit
  rw [hpassed, htyped, hy, (Prod.mk.inj hedit).1]
  exact ⟨rfl, rfl⟩

/-- the expected editor submits on Enter what it holds -/
theorem submitted_enter (cs : List Byte) (c : Byte) :
    LineEditor.submitted (cs ++ [c] ++ [0x1C]) = LineEditor.submitted cs ++
      [((LineEditor.feedAll cs).2.feed c).1] ++ [some ((LineEditor.feedAll cs).2.feed c).2.line] := by
  unfold LineEditor.submitted
  rw [feedAll_snoc, feedAll_snoc]
  rfl

/-- what a key that is taken for a control code does, and what it should do -/
theorem feed_ne_editLine {k : Keyboard} {r : LineEditor} (event : KeyboardEvent) {c : Byte}
    (hc : ¬ TakenAsKey r.line c) :
    editLine (readKeyboard k event c).2.capsLockActive (readKeyboard k event c).1 r.line
      ≠ ((r.feed c).1, (r.feed c).2.line) := by
  intro e
  unfold TakenAsKey at hc
  have hsc : (readKeyboard k event c).1.scancode = c := rfl
  have hdrop : c = 0x08 ∨ (c = 0x7F ∧ r.line ≠ []) ∨ c = 0x0A ∨ c = 0x0D := by tauto
  -- the line of the expected editor is never shorter after such a scancode
  have hlonger : c ≠ 0x1C ∧ c ≠ 0x0E → (r.feed c).1 = none ∧
      ((r.feed c).2.line = r.line ++ [(r.modify c).char c] ∨ (r.feed c).2.line = r.line ∧
        (r.line ≠ [] ∨ (r.modify c).char c = 0)) := by
    rintro ⟨h1, h2⟩
    unfold LineEditor.feed
    simp only [if_neg h1, if_neg h2]
    by_cases ha : (r.modify c).char c ≠ 0 ∧ (r.modify c).line.length < 255
    · rw [if_pos ha]
      exact ⟨rfl, .inl rfl⟩
    · rw [if_neg ha]
      refine ⟨rfl, .inr ⟨rfl, ?_⟩⟩
      by_cases h0 : (r.modify c).char c = 0
      · exact .inr h0
      · left
        intro hnil
        refine ha ⟨h0, ?_⟩
        show r.line.length < 255
        rw [hnil]
        decide
  rcases hdrop with rfl | ⟨rfl, hne⟩ | rfl | rfl
  · obtain ⟨_, hl⟩ := hlonger (by decide)
    have hedit : r.line.dropLast = (r.feed 0x08).2.line := (Prod.mk.inj e).2
    have hlen := congrArg List.length hedit
    rw [List.length_dropLast] at hlen
    rcases hl with hl | ⟨hl, hne | h0⟩
    · rw [hl, List.length_append, List.length_singleton] at hlen
      omega
    · rw [hl] at hlen
      have := List.length_pos_iff.mpr hne
      omega
    · exact char_ne_zero _ (.inl rfl) h0
  · obtain ⟨_, hl⟩ := hlonger (by decide)
    have hedit : r.line.dropLast = (r.feed 0x7F).2.line := (Prod.mk.inj e).2
    have hlen := congrArg List.length hedit
    have hpos := List.length_pos_iff.mpr hne
    rw [List.length_dropLast] at hlen
    rcases hl with hl | ⟨hl, _⟩
    · rw [hl, List.length_append, List.length_singleton] at hlen
      omega
    · rw [hl] at hlen
      omega
  · have := (hlonger (by decide)).1
    rw [← (Prod.mk.inj e).1] at this
    cases this
  · have := (hlonger (by decide)).1
    rw [← (Prod.mk.inj e).1] at this
    cases this

/-- one more scancode and Enter pass on what was typed exactly when that scancode edits the line as
expected -/
theorem enter_iff (h : Matched d) {x y : Keystroke} {d' d'' : Desk} (ex : d.press x = .ok d')
    (hy : y.scancode = 0x1C) (ey : d'.press y = .ok d'') :
    d''.passed = LineEditor.submitted d''.typed ↔
      editLine (readKeyboard d.keyboard x.event x.scancode).2.capsLockActive
        (readKeyboard d.keyboard x.event x.scancode).1 (LineEditor.feedAll d.typed).2.line
      = (((LineEditor.feedAll d.typed).2.feed x.scancode).1,
        ((LineEditor.feedAll d.typed).2.feed x.scancode).2.line) := by
  obtain ⟨d1, o, e1, ht, _, htyped, hpassed, hedit⟩ := press_spec h.tidy x
  rw [ex] at e1
  cases e1
  obtain ⟨hp2, ht2⟩ := press_enter ht hy ey
  rw [hp2, ht2, hpassed, htyped, submitted_enter, h.passed, ← h.line, ← hedit]
  constructor
  · intro hall
    have hboth := List.append_inj hall (by simp)
    have hfirst := List.append_inj hboth.1 (by simp)
    rw [List.singleton_inj.mp hfirst.2, Option.some.inj (List.singleton_inj.mp hboth.2)]
  · intro hfeed
    obtain ⟨ho, hline⟩ := Prod.mk.inj hfeed
    rw [← ho, ← hline]

/-- the code of a letter -/
def aKey : Byte := 0x1E

theorem aKey_taken (line : List Byte) : TakenAsKey line aKey :=
  ⟨by decide, by decide, by decide, fun h => absurd h (by decide)⟩

/-- without the shift flag the driver types the letter in lower case, under shift it is expected in
upper case -/
theorem letter_lost {k : Keyboard} {r : LineEditor} (event : KeyboardEvent)
    (hk : k.shiftPressed = false) (hcaps : k.capsLockActive = false) (hheld : shiftHeld r.seen = true)
    (hroom : r.line.length < 255) :
    editLine (readKeyboard k event aKey).2.capsLockActive (readKeyboard k event aKey).1 r.line
      ≠ ((r.feed aKey).1, (r.feed aKey).2.line) := by
  have hread : kbToAscii (readKeyboard k event aKey).2.capsLockActive (readKeyboard k event aKey).1
      = chr 'a' := by
    have hsh : (readKeyboard k event aKey).1.shift = k.shiftPressed := rfl
    have hca : (readKeyboard k event aKey).2.capsLockActive = k.capsLockActive := rfl
    have hsc : (readKeyboard k event aKey).1.scancode = aKey := rfl
    unfold kbToAscii
    rw [hsh, hca, hsc, hk, hcaps]
    decide +kernel
  have hchar : (r.modify aKey).char aKey = chr 'A' := by
    have hheld' : shiftHeld (r.modify aKey).seen = true := (shiftHeld_snoc aKey r.seen).trans hheld
    unfold LineEditor.char
    rw [hheld']
    exact (if_pos (.inl rfl)).trans (by decide +kernel)
  have hsc : (readKeyboard k event aKey).1.scancode = aKey := rfl
  have hent : (readKeyboard k event aKey).1.enter = false := rfl
  have hbsp : (readKeyboard k event aKey).1.backspace = false := rfl
  have hcode : editLine (readKeyboard k event aKey).2.capsLockActive (readKeyboard k event aKey).1
      r.line = (none, r.line ++ [chr 'a']) := by
    unfold editLine
    rw [hread, hsc, hent, hbsp, if_neg (by decide), if_neg (by decide), if_neg (by decide),
      if_pos ⟨by decide, hroom⟩]
  have hfeed : ((r.feed aKey).1, (r.feed aKey).2.line) = (none, r.line ++ [chr 'A']) := by
    have hline : (r.modify aKey).line = r.line := rfl
    unfold LineEditor.feed
    simp only [hchar, hline]
    rw [if_neg (by decide), if_neg (by decide), if_pos ⟨by decide, hroom⟩]
  rw [hcode, hfeed]
  intro e
  have hlast := List.append_cancel_left (Prod.mk.inj e).2
  exact absurd hlast (by decide)

/-- the release of a shift key is neither a control code nor Enter nor Backspace, and has no
character -/
theorem release_taken (line : List Byte) {c : Byte} (hc : c = 0xAA ∨ c = 0xB6) :
    TakenAsKey line c := by
  rcases hc with rfl | rfl
  · exact ⟨by decide, by decide, by decide, fun h => absurd h (by decide)⟩
  · exact ⟨by decide, by decide, by decide, fun h => absurd h (by decide)⟩

theorem feed_release (r : LineEditor) {c : Byte} (hc : c = 0xAA ∨ c = 0xB6) :
    (r.feed c).2.line = r.line := by
  have hlt : ¬ c < 128 := by rcases hc with rfl | rfl <;> decide
  have h1 : c ≠ 0x1C := by rcases hc with rfl | rfl <;> decide
  have h2 : c ≠ 0x0E := by rcases hc with rfl | rfl <;> decide
  unfold LineEditor.feed
  simp only [char_release c (r.modify c) hlt]
  rw [if_neg h1, if_neg h2, if_neg fun hn => hn.1 rfl]
  rfl

/-- a shift key released while the other one is held: the driver's flag is gone, shift is not -/
theorem release_lost (h : Synced d) {x : Keystroke} (hx : x.scancode = 0xAA ∨ x.scancode = 0xB6)
    (ha : ¬ ReleasesAlone d.typed x.scancode) (hcaps : d.keyboard.capsLockActive = false) {d' : Desk}
    (e : d.press x = .ok d') : d'.keyboard.shiftPressed = false ∧
      d'.keyboard.capsLockActive = false ∧
      shiftHeld (LineEditor.feedAll d'.typed).2.seen = true ∧
      (LineEditor.feedAll d'.typed).2.line = d.shell.line := by
  obtain ⟨d1, _, e1, _, hk, htyped, _, _⟩ := press_spec h.tidy x
  rw [e] at e1
  cases e1
  obtain ⟨hlost, hheld⟩ := shift_lost (k := d.keyboard) x.event ha
  have hcapsKey : x.scancode ≠ 0x3A := by
    rcases hx with hx | hx
    · rw [hx]
      decide
    · rw [hx]
      decide
  refine ⟨by rw [hk, hlost], ?_, ?_, ?_⟩
  · rw [hk]
    show (if x.scancode = 0x3A then !d.keyboard.capsLockActive else d.keyboard.capsLockActive) = _
    rw [if_neg hcapsKey, hcaps]
  · rw [feedAll_seen, htyped, hheld]
  · rw [htyped, feedAll_snoc, feed_release _ hx, h.line]

end

/-- the runs in which no scancode is taken for a control code and no shift key is released while the
other one is held -/
def typingSystem : Run.System Desk Keystroke :=
  deskSystem.restrict fun d x =>
    TakenAsKey d.shell.line x.scancode ∧ ReleasesAlone d.typed x.scancode

theorem synced_reachable {d : Desk} (h : Run.Reachable typingSystem d) : Synced d := by
  refine h.invariant ?_ ?_
  · intro d ⟨t, e⟩
    rw [e]
    exact synced_start t
  · intro d x d' _ ih ⟨⟨hx, ha⟩, e⟩
    exact ih.press hx ha e

/-- **The lines passed to `shell_process_command` are the ones typed, in every run in which no
scancode is taken for a control code and no shift key is released while the other one is held.**
After any such run, one more scancode and Enter pass on what was typed exactly when that scancode is
not taken for a control code; and the release of a shift key, a letter and Enter do exactly when the
other shift key is not held, unless caps lock or a full line hides it. -/
theorem submits_typed (d : Desk) (h : Run.Reachable typingSystem d) :
    d.passed = LineEditor.submitted d.typed ∧ (∀ x, ∃ d', d.press x = .ok d') ∧
    (∀ x y d' d'', d.press x = .ok d' → y.scancode = 0x1C → d'.press y = .ok d'' →
      (d''.passed = LineEditor.submitted d''.typed ↔ TakenAsKey d.shell.line x.scancode)) ∧
    ∀ x y z d1 d2 d3, d.press x = .ok d1 → x.scancode = 0xAA ∨ x.scancode = 0xB6 →
      d1.press y = .ok d2 → y.scancode = aKey → d2.press z = .ok d3 → z.scancode = 0x1C →
      d.keyboard.capsLockActive = false → d.shell.line.length < 255 →
      (d3.passed = LineEditor.submitted d3.typed ↔ ReleasesAlone d.typed x.scancode) := by
  have hs := synced_reachable h
  refine ⟨hs.passed, ?_, ?_, ?_⟩
  · intro x
    obtain ⟨d', _, e, _⟩ := press_spec hs.tidy x
    exact ⟨d', e⟩
  · intro x y d' d'' ex hy ey
    rw [enter_iff hs.toMatched ex hy ey, hs.line]
    constructor
    · intro e
      by_contra hx
      exact feed_ne_editLine x.event hx e
    · intro hx
      exact feed_eq_editLine x.event x.scancode hs.modifiers hx
  · intro x y z d1 d2 d3 ex hx ey hy ez hz hcaps hroom
    have hkey := release_taken d.shell.line hx
    rw [enter_iff (hs.key hkey ex) ey hz ez, hy]
    by_cases ha : ReleasesAlone d.typed x.scancode
    · have hs1 := hs.press hkey ha ex
      exact ⟨fun _ => ha, fun _ => feed_eq_editLine y.event aKey hs1.modifiers (aKey_taken _)⟩
    · obtain ⟨hshift, hcaps1, hheld, hline⟩ := release_lost hs hx ha hcaps ex
      refine ⟨fun e => absurd e ?_, fun e => absurd e ha⟩
      exact letter_lost y.event hshift hcaps1 hheld (by rw [hline]; exact hroom)

/-- a scancode whose command, if it starts one, prints nothing -/
def key (scancode : Byte) : Keystroke :=
  ⟨scancode, ⟨0, false, false, false, false, false, false, false, false⟩, ⟨[], fun _ => 0⟩⟩

/-- shift down, `a`, shift up, `b`, Backspace, `c`, Enter -/
theorem submits_typed_line : ∃ d : Desk, d.passed.getLast? = some (some (str "Ac")) ∧
    d.passed = LineEditor.submitted d.typed := by
  let t : Terminal := ⟨0, 0, 0, fun _ => 0, 0, 0⟩
  have hrun : (Run.drive Desk.press (fun d x => TakenAsKey d.shell.line x.scancode ∧
        ReleasesAlone d.typed x.scancode) (Desk.start t)
      ([0x2A, 30, 0xAA, 48, 0x0E, 46, 0x1C].map key)).map (fun d => d.passed.getLast?)
        = some (some (some (str "Ac"))) := by decide +kernel
  obtain ⟨d, e, hl⟩ := Option.map_eq_some_iff.mp hrun
  have h0 : Run.Reachable typingSystem (Desk.start t) := .init ⟨t, rfl⟩
  have hr : Run.Reachable typingSystem d := h0.drive (fun _ _ _ hs => hs) e
  exact ⟨d, hl, (submits_typed d hr).1⟩

/-- **The key `7` and Enter submit the empty line.** -/
theorem seven_not_submitted : ¬ ∀ d, Run.Reachable deskSystem d →
    d.passed = LineEditor.submitted d.typed := by
  intro h
  let t : Terminal := ⟨0, 0, 0, fun _ => 0, 0, 0⟩
  have hrun : (Run.drive Desk.press (fun _ _ => True) (Desk.start t) [key 0x08, key 0x1C]).map
      (fun d => (d.passed, LineEditor.submitted d.typed))
        = some ([none, some []], [none, some [chr '7']]) := by decide +kernel
  obtain ⟨d, e, hl⟩ := Option.map_eq_some_iff.mp hrun
  have h0 : Run.Reachable (deskSystem.restrict fun _ _ => True) (Desk.start t) := .init ⟨t, rfl⟩
  have hr := h0.drive (fun _ _ _ hs => hs) e
  have hd := h d hr.of_restrict
  obtain ⟨h1, h2⟩ := Prod.mk.inj hl
  rw [h1, h2] at hd
  exact absurd hd (by decide)

end FirstKernel
