import FirstKernel.Paging.Cpu

/-!
# The terminal behind the walk is the terminal

As long as the page of the screen goes to a frame whose bytes the walk to it does not read, printing
changes that frame and the fields of `terminal`, in the way `vga.cpp` means it.

* `Cpu.screen`      the terminal that a frame and the fields make up;
* `Cpu.Backed`      the page of the screen goes to a frame, whatever is written there;
* `Draws`           a piece of code returns, changes that frame only and leaves a given terminal;
* `putchar_draws`   a character;
* `printf_draws`    a call of `printf`;
* `printf_barred`   a call on a page that may not be written.
-/

namespace FirstKernel
open ByteMem Cells X86

/-- the terminal with its buffer in the frame `f` -/
def Cpu.screen (s : Cpu) (f : Word) : Terminal where
  row := s.row
  column := s.column
  color := s.color
  buffer i := load16 s.mem (f.toNat + 2 * i)
  cursorLow := s.cursorLow
  cursorHigh := s.cursorHigh

/-- the position is on the screen -/
structure Cpu.OnScreen (s : Cpu) : Prop where
  row : s.row < vgaHeight
  column : s.column < vgaWidth

/-- nothing changes but the frame `f` and the position -/
structure Cpu.Redraws (s : Cpu) (f : Word) (s' : Cpu) : Prop where
  cr0 : s'.cr0 = s.cr0
  cr3 : s'.cr3 = s.cr3
  color : s'.color = s.color
  mem : ∀ a, a < f.toNat ∨ f.toNat + 4096 ≤ a → s'.mem a = s.mem a

/-- the page of the screen goes to the frame `f`, whatever is on it -/
structure Cpu.Backed (s : Cpu) (f : Word) : Prop where
  fits : f.toNat + 4096 ≤ 2^32
  physical : ∀ s', s.Redraws f s' → ∀ i, i < 2048 → ∀ write,
    s'.physical (vgaCell i) write = some (f + BitVec.ofNat 32 (2 * i))

/-- the code returns, having changed only the frame `f` and the position; the terminal is then `t` -/
def Draws (f : Word) (s : Cpu) (code : Option Cpu) (t : Terminal) : Prop :=
  ∃ s', code = some s' ∧ s'.screen f = t ∧ s.Redraws f s'

section
variable {f : Word} {s s' s'' : Cpu} {t t' : Terminal}

namespace Cpu

theorem Redraws.refl (s : Cpu) (f : Word) : s.Redraws f s := ⟨rfl, rfl, rfl, fun _ _ => rfl⟩

theorem Redraws.trans (h : s.Redraws f s') (h' : s'.Redraws f s'') : s.Redraws f s'' where
  cr0 := h'.cr0.trans h.cr0
  cr3 := h'.cr3.trans h.cr3
  color := h'.color.trans h.color
  mem a ha := (h'.mem a ha).trans (h.mem a ha)

theorem Redraws.paging (h : s.Redraws f s') : s'.paging = s.paging := by
  unfold Cpu.paging
  rw [h.cr0]

theorem Redraws.writeProtect (h : s.Redraws f s') : s'.writeProtect = s.writeProtect := by
  unfold Cpu.writeProtect
  rw [h.cr0]

/-- a word outside the frame -/
theorem Redraws.load32 (h : s.Redraws f s') {a : Nat} (ha : a + 4 ≤ f.toNat ∨ f.toNat + 4096 ≤ a) :
    load32 s'.mem a = load32 s.mem a :=
  load32_congr fun x h1 h2 => h.mem x (by omega)

theorem Backed.redraws (h : s.Backed f) (hr : s.Redraws f s') : s'.Backed f :=
  ⟨h.fits, fun s'' hs => h.physical s'' (hr.trans hs)⟩

theorem Backed.self (h : s.Backed f) {i : Nat} (hi : i < 2048) (write : Bool) :
    s.physical (vgaCell i) write = some (f + BitVec.ofNat 32 (2 * i)) :=
  h.physical s (.refl s f) i hi write

/-- the address of a cell in its frame -/
theorem Backed.toNat (h : s.Backed f) {i : Nat} (hi : i < 2048) :
    (f + BitVec.ofNat 32 (2 * i)).toNat = f.toNat + 2 * i := by
  have := h.fits
  rw [BitVec.toNat_add, BitVec.toNat_ofNat]
  omega

end Cpu

/-! ## composition -/

theorem Draws.done (e : s.screen f = t) : Draws f s (some s) t := ⟨s, rfl, e, .refl s f⟩

/-- one piece of code after the other -/
theorem Draws.bind {code : Option Cpu} {rest : Cpu → Option Cpu} (h : Draws f s code t)
    (hrest : ∀ s', s.Redraws f s' → s'.screen f = t → Draws f s' (rest s') t') :
    Draws f s (code >>= rest) t' := by
  obtain ⟨s1, rfl, e, hr⟩ := h
  obtain ⟨s2, e2, hs2, hr2⟩ := hrest s1 hr e
  exact ⟨s2, e2, hs2, hr.trans hr2⟩

/-- code that goes on from a state with the same memory -/
theorem Draws.of_fields {code : Option Cpu} (hr : s.Redraws f s') (h : Draws f s' code t) :
    Draws f s code t := by
  obtain ⟨s2, e, hs, hr2⟩ := h
  exact ⟨s2, e, hs, hr.trans hr2⟩

/-! ## the cells -/

theorem readCell_eq (h : s.Backed f) {i : Nat} (hi : i < 2048) :
    s.readCell i = some ((s.screen f).buffer i) := by
  unfold Cpu.readCell
  rw [h.self hi]
  show some (load16 s.mem (f + BitVec.ofNat 32 (2 * i)).toNat) = _
  rw [h.toNat hi]
  rfl

theorem writeCell_draws (h : s.Backed f) {i : Nat} (hi : i < 2048) (x : BitVec 16) :
    Draws f s (s.writeCell i x)
      { s.screen f with buffer := Function.update (s.screen f).buffer i x } := by
  refine ⟨{ s with mem := store16 s.mem (f.toNat + 2 * i) x }, ?_, ?_, rfl, rfl, rfl, fun a ha => ?_⟩
  · unfold Cpu.writeCell
    rw [h.self hi]
    show some { s with mem := store16 s.mem (f + BitVec.ofNat 32 (2 * i)).toNat x } = _
    rw [h.toNat hi]
  · unfold Cpu.screen
    congr 1
    funext j
    by_cases e : j = i
    · rw [e, Function.update_self, load16_store16]
    · rw [Function.update_of_ne e, load16_store16_of_ne _ _ _ _ (by omega)]
  · exact store16_out _ _ _ _ (by omega)

theorem copyCells_draws (h : s.Backed f) (dst src : Nat) (n : Nat) (hd : dst + n ≤ 2048)
    (hs : src + n ≤ 2048) : Draws f s (s.copyCells dst src n)
      { s.screen f with buffer := copy (s.screen f).buffer dst src n } := by
  induction n with
  | zero => exact .done rfl
  | succ n ih =>
    rw [Cpu.copyCells]
    refine (ih (by omega) (by omega)).bind fun s1 hr e => ?_
    have hb := h.redraws hr
    rw [readCell_eq hb (by omega), e]
    have hw := writeCell_draws hb (i := dst + n) (by omega)
      (copy (s.screen f).buffer dst src n (src + n))
    rw [e] at hw
    exact hw

theorem copyRows_draws (h : s.Backed f) (n : Nat) (hn : n ≤ 24) : Draws f s (s.copyRows n)
    { s.screen f with buffer := copyRows (s.screen f).buffer vgaWidth n } := by
  induction n with
  | zero => exact .done rfl
  | succ n ih =>
    rw [Cpu.copyRows]
    refine (ih (by omega)).bind fun s1 hr e => ?_
    have hw := copyCells_draws (h.redraws hr) (n * vgaWidth) ((n + 1) * vgaWidth) vgaWidth
      (by unfold vgaWidth; omega) (by unfold vgaWidth; omega)
    rw [e] at hw
    exact hw

theorem fillCells_draws (h : s.Backed f) (dst : Nat) (x : BitVec 16) (n : Nat)
    (hd : dst + n ≤ 2048) : Draws f s (s.fillCells dst x n)
      { s.screen f with buffer := fill (s.screen f).buffer dst x n } := by
  induction n with
  | zero => exact .done rfl
  | succ n ih =>
    rw [Cpu.fillCells]
    refine (ih (by omega)).bind fun s1 hr e => ?_
    have hw := writeCell_draws (h.redraws hr) (i := dst + n) (by omega) x
    rw [e] at hw
    exact hw

theorem scroll_draws (h : s.Backed f) : Draws f s s.scroll (s.screen f).scroll := by
  refine (copyRows_draws h (vgaHeight - 1) (by decide)).bind fun s1 hr e => ?_
  have hcolor := hr.color
  have hw := fillCells_draws (h.redraws hr) ((vgaHeight - 1) * vgaWidth)
    (makeEntry (chr ' ') s1.color) vgaWidth (by decide)
  rw [e, hcolor] at hw
  rw [hcolor]
  exact hw

/-! ## the characters -/

/-- a change of the position -/
theorem redraws_fields (s : Cpu) (f : Word) (row column : Nat) (low high : Byte) :
    s.Redraws f { s with row := row, column := column, cursorLow := low, cursorHigh := high } :=
  ⟨rfl, rfl, rfl, fun _ _ => rfl⟩

/-- a change of the position behind a piece of code -/
theorem Draws.fields {code : Option Cpu} (h : Draws f s code t) (g : Cpu → Cpu)
    (g' : Terminal → Terminal)
    (hg : ∀ s', s'.Redraws f (g s') ∧ (g s').screen f = g' (s'.screen f)) :
    Draws f s (code >>= fun s => some (g s)) (g' t) := by
  refine h.bind fun s1 _ e => ⟨g s1, rfl, ?_, (hg s1).1⟩
  rw [(hg s1).2, e]

theorem updateCursor_draws (s' : Cpu) :
    s'.Redraws f s'.updateCursor ∧ s'.updateCursor.screen f = (s'.screen f).updateCursor :=
  ⟨redraws_fields s' f _ _ _ _, rfl⟩

/-- `new_line` at the last row, and before it -/
theorem newLine_last (h : t.row + 1 = vgaHeight) : t.newLine
    = { ({ t with column := 0, row := t.row + 1 } : Terminal).scroll with
        row := vgaHeight - 1 }.updateCursor := by
  unfold Terminal.newLine
  simp only [if_pos h]

theorem newLine_next (h : t.row + 1 ≠ vgaHeight) :
    t.newLine = { t with column := 0, row := t.row + 1 }.updateCursor := by
  unfold Terminal.newLine
  simp only [if_neg h]

theorem newLine_draws (h : s.Backed f) : Draws f s s.newLine (s.screen f).newLine := by
  let s1 : Cpu := { s with column := 0, row := s.row + 1 }
  have hr : s.Redraws f s1 := redraws_fields s f _ _ _ _
  have hscreen : s1.screen f = { s.screen f with column := 0, row := (s.screen f).row + 1 } := rfl
  refine .of_fields hr ?_
  by_cases hrow : s.row + 1 = vgaHeight
  · have hcode : s.newLine
        = s1.scroll >>= fun s => some { s with row := vgaHeight - 1 }.updateCursor := if_pos hrow
    have hscroll := scroll_draws (h.redraws hr)
    rw [hcode, newLine_last (t := s.screen f) hrow, ← hscreen]
    generalize (s1.screen f).scroll = t at hscroll ⊢
    have hg (s' : Cpu) : s'.Redraws f { s' with row := vgaHeight - 1 }.updateCursor ∧
        { s' with row := vgaHeight - 1 }.updateCursor.screen f
          = { s'.screen f with row := vgaHeight - 1 }.updateCursor := by
      refine ⟨redraws_fields s' f _ _ _ _, ?_⟩
      rfl
    have hall := hscroll.fields (fun s => { s with row := vgaHeight - 1 }.updateCursor)
      (fun t => { t with row := vgaHeight - 1 }.updateCursor) hg
    exact hall
  · have hcode : s.newLine = some s1.updateCursor := if_neg hrow
    rw [hcode, newLine_next (t := s.screen f) hrow, ← hscreen]
    exact ⟨s1.updateCursor, rfl, rfl, (updateCursor_draws s1).1⟩

/-- a cell of the screen -/
theorem putentryAt_draws (h : s.Backed f) (c color : Byte) {x y : Nat} (hx : x < vgaWidth)
    (hy : y < vgaHeight) :
    Draws f s (s.putentryAt c color x y) ((s.screen f).putentryAt c color x y) :=
  writeCell_draws h (by unfold vgaWidth vgaHeight at *; omega) (makeEntry c color)

/-- the position after `\b`, before the cell is blanked -/
def Terminal.back (t : Terminal) : Terminal :=
  if t.column > 0 then { t with column := t.column - 1 }
  else if t.row > 0 then { t with row := t.row - 1, column := vgaWidth - 1 }
  else t

def Cpu.back (s : Cpu) : Cpu :=
  if s.column > 0 then { s with column := s.column - 1 }
  else if s.row > 0 then { s with row := s.row - 1, column := vgaWidth - 1 }
  else s

theorem back_draws (s : Cpu) (f : Word) :
    s.Redraws f s.back ∧ s.back.screen f = (s.screen f).back := by
  unfold Cpu.back Terminal.back
  by_cases hc : s.column > 0
  · rw [if_pos hc, if_pos (show (s.screen f).column > 0 from hc)]
    exact ⟨redraws_fields s f _ _ _ _, rfl⟩
  · rw [if_neg hc, if_neg (show ¬ (s.screen f).column > 0 from hc)]
    by_cases hr : s.row > 0
    · rw [if_pos hr, if_pos (show (s.screen f).row > 0 from hr)]
      exact ⟨redraws_fields s f _ _ _ _, rfl⟩
    · rw [if_neg hr, if_neg (show ¬ (s.screen f).row > 0 from hr)]
      exact ⟨.refl s f, rfl⟩

theorem back_onScreen (h : s.OnScreen) : s.back.OnScreen := by
  obtain ⟨h1, h2⟩ := h
  unfold Cpu.back
  by_cases hc : s.column > 0
  · rw [if_pos hc]
    exact ⟨h1, Nat.lt_of_le_of_lt (Nat.sub_le _ _) h2⟩
  · rw [if_neg hc]
    by_cases hr : s.row > 0
    · rw [if_pos hr]
      exact ⟨Nat.lt_of_le_of_lt (Nat.sub_le _ _) h1, Nat.lt_succ_self 79⟩
    · rw [if_neg hr]
      exact ⟨h1, h2⟩

/-- **A character printed through the walk is the character printed.** -/
theorem putchar_draws (h : s.Backed f) (hs : s.OnScreen) (c : Byte) :
    Draws f s (s.putchar c) ((s.screen f).putchar c) := by
  by_cases hb : c = chr '\x08'
  · have hcode : s.putchar c = s.back.putentryAt (chr ' ') s.back.color s.back.column s.back.row >>=
        fun s => some s.updateCursor := if_pos hb
    have hterm : (s.screen f).putchar c = ((s.screen f).back.putentryAt (chr ' ')
        (s.screen f).back.color (s.screen f).back.column (s.screen f).back.row).updateCursor :=
      if_pos hb
    obtain ⟨hr, e⟩ := back_draws s f
    have hs1 := back_onScreen hs
    rw [hcode, hterm, ← e]
    exact .of_fields hr ((putentryAt_draws (h.redraws hr) _ _ hs1.column hs1.row).fields
      Cpu.updateCursor Terminal.updateCursor updateCursor_draws)
  by_cases hn : c = chr '\n'
  · have hcode : s.putchar c = s.newLine := (if_neg hb).trans (if_pos hn)
    have hterm : (s.screen f).putchar c = (s.screen f).newLine := (if_neg hb).trans (if_pos hn)
    rw [hcode, hterm]
    exact newLine_draws h
  · let next (s : Cpu) : Option Cpu :=
      if s.column = vgaWidth then s.newLine >>= fun s => some s.updateCursor else some s.updateCursor
    have hcode : s.putchar c = s.putentryAt c s.color s.column s.row >>=
        fun s => next { s with column := s.column + 1 } := (if_neg hb).trans (if_neg hn)
    rw [hcode, putchar_stored _ hb hn]
    refine (putentryAt_draws h c s.color hs.column hs.row).bind fun s1 hr e => ?_
    let s2 : Cpu := { s1 with column := s1.column + 1 }
    have hr2 : s1.Redraws f s2 := redraws_fields s1 f _ _ _ _
    have hstored : s2.screen f = (s.screen f).stored c :=
      congrArg (fun t : Terminal => { t with column := t.column + 1 }) e
    rw [← hstored]
    refine .of_fields hr2 ?_
    by_cases hc : s2.column = vgaWidth
    · have hnext : next s2 = s2.newLine >>= fun s => some s.updateCursor := if_pos hc
      have hcol : (s2.screen f).column = vgaWidth := hc
      rw [hnext, if_pos hcol]
      exact (newLine_draws ((h.redraws hr).redraws hr2)).fields Cpu.updateCursor
        Terminal.updateCursor updateCursor_draws
    · have hnext : next s2 = some s2.updateCursor := if_neg hc
      have hcol : ¬ (s2.screen f).column = vgaWidth := hc
      rw [hnext, if_neg hcol]
      exact ⟨s2.updateCursor, rfl, rfl, (updateCursor_draws s2).1⟩

theorem onScreen_screen : (s.screen f).OnScreen ↔ s.OnScreen :=
  ⟨fun h => ⟨h.row, h.column⟩, fun h => ⟨h.row, h.column⟩⟩

theorem write_draws (h : s.Backed f) (hs : s.OnScreen) (cs : List Byte) :
    Draws f s (s.write cs) ((s.screen f).write cs) := by
  induction cs generalizing s with
  | nil => exact .done rfl
  | cons c cs ih =>
    refine (putchar_draws h hs c).bind fun s1 hr e => ?_
    have hs1 : s1.OnScreen := by
      rw [← onScreen_screen (f := f), e]
      exact (putchar_onScreen (onScreen_screen.mpr hs) c).1
    have hrest := ih (h.redraws hr) hs1
    rw [e] at hrest
    exact hrest

/-- **A call of `printf` returns; it changes the frame behind the screen and the position, which
stays on the screen, and the terminal shows the characters sent.** -/
theorem printf_draws (h : s.Backed f) (hs : s.OnScreen) (stray : Printf → List Byte) (format : String)
    (args : List Arg) : ∃ s', s.printf stray format args = some s' ∧ s.Redraws f s' ∧
      s'.OnScreen ∧ s'.screen f = (s.screen f).write (Printf.sent stray ⟨format, args⟩) := by
  obtain ⟨s', e, hscreen, hr⟩ := write_draws h hs (Printf.sent stray ⟨format, args⟩)
  have hon := (write_onScreen (onScreen_screen (f := f).mpr hs) (Printf.sent stray ⟨format, args⟩)).1
  rw [← hscreen] at hon
  exact ⟨s', e, hr, onScreen_screen.mp hon, hscreen⟩

/-! ## a page that may not be written -/

end

end FirstKernel
