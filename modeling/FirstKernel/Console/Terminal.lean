import FirstKernel.Machine

/-!
# `vga.cpp`: the text terminal

The 80 by 25 cells of the screen, a cell position and the two cursor registers of the CRT
controller.  `putchar` writes a cell and moves on, `new_line` scrolls at the last row.

* `putchar_ordinary`    one cell, and the move to the next one, possibly over a scroll;
* `putchar_backspace`   one cell back, blanked;
* `Ends t cs`           the cells right before the position show `cs`; `Ends.push`, `Ends.erase`,
                        `Ends.newline`.
-/

namespace FirstKernel
open ByteMem Cells

def vgaWidth : Nat := 80
def vgaHeight : Nat := 25

def vgaColorBlack : Byte := 0
def vgaColorLightGrey : Byte := 7

/-- `cursorLow` and `cursorHigh` are registers 0x0F and 0x0E of the CRT controller -/
structure Terminal where
  row : Nat
  column : Nat
  color : Byte
  buffer : Nat → BitVec 16
  cursorLow : Byte
  cursorHigh : Byte

def makeColor (fg bg : Byte) : Byte := fg ||| bg <<< 4

def makeEntry (uc color : Byte) : BitVec 16 := uc.setWidth 16 ||| color.setWidth 16 <<< 8

def Terminal.initialize (t : Terminal) : Terminal :=
  let color := makeColor vgaColorLightGrey vgaColorBlack
  { t with
    row := 0
    column := 0
    color := color
    buffer := fillRows t.buffer vgaWidth (makeEntry (chr ' ') color) vgaHeight }

def Terminal.putentryAt (t : Terminal) (c color : Byte) (x y : Nat) : Terminal :=
  let index := y * vgaWidth + x
  { t with buffer := Function.update t.buffer index (makeEntry c color) }

def Terminal.updateCursor (t : Terminal) : Terminal :=
  let pos := BitVec.ofNat 16 (t.row * vgaWidth + t.column)
  { t with
    cursorLow := (pos &&& 0xFF).setWidth 8
    cursorHigh := (pos >>> 8 &&& 0xFF).setWidth 8 }

def Terminal.scroll (t : Terminal) : Terminal :=
  let buffer := copyRows t.buffer vgaWidth (vgaHeight - 1)
  { t with buffer := fill buffer ((vgaHeight - 1) * vgaWidth) (makeEntry (chr ' ') t.color) vgaWidth }

def Terminal.newLine (t : Terminal) : Terminal :=
  let t := { t with column := 0, row := t.row + 1 }
  let t := if t.row = vgaHeight then { t.scroll with row := vgaHeight - 1 } else t
  t.updateCursor

def Terminal.putchar (t : Terminal) (c : Byte) : Terminal :=
  if c = chr '\x08' then
    let t :=
      if t.column > 0 then { t with column := t.column - 1 }
      else if t.row > 0 then { t with row := t.row - 1, column := vgaWidth - 1 }
      else t
    (t.putentryAt (chr ' ') t.color t.column t.row).updateCursor
  else if c = chr '\n' then t.newLine
  else
    let t := t.putentryAt c t.color t.column t.row
    let t := { t with column := t.column + 1 }
    let t := if t.column = vgaWidth then t.newLine else t
    t.updateCursor

/-- the characters `cs`, one after the other -/
def Terminal.write (t : Terminal) (cs : List Byte) : Terminal := cs.foldl Terminal.putchar t

/-! ## one character -/

/-- the position as a cell index -/
def Terminal.cur (t : Terminal) : Nat := t.row * vgaWidth + t.column

structure Terminal.OnScreen (t : Terminal) : Prop where
  row : t.row < vgaHeight
  column : t.column < vgaWidth

section
variable {t : Terminal}

@[simp] theorem updateCursor_row (t : Terminal) : t.updateCursor.row = t.row := rfl
@[simp] theorem updateCursor_column (t : Terminal) : t.updateCursor.column = t.column := rfl
@[simp] theorem updateCursor_color (t : Terminal) : t.updateCursor.color = t.color := rfl
@[simp] theorem updateCursor_buffer (t : Terminal) : t.updateCursor.buffer = t.buffer := rfl

theorem Terminal.OnScreen.cur_lt (h : t.OnScreen) : t.cur < 2000 := by
  obtain ⟨h1, h2⟩ := h
  unfold Terminal.cur vgaWidth vgaHeight at *
  omega

theorem scroll_buffer (t : Terminal) (i : Nat) (h : i < 1920) :
    t.scroll.buffer i = t.buffer (i + 80) := by
  show fill (copyRows t.buffer 80 24) 1920 _ 80 i = _
  rw [fill_out _ _ _ _ _ (.inl h), copyRows_apply, if_pos (by omega)]

/-- `new_line` goes to the start of the next row, over a scroll if there is none -/
theorem newLine_spec (h : t.row < 25) :
    (t.row < 24 ∧ t.newLine.row = t.row + 1 ∧ t.newLine.buffer = t.buffer ∨
      t.row = 24 ∧ t.newLine.row = 24 ∧ ∀ i, i < 1920 → t.newLine.buffer i = t.buffer (i + 80)) ∧
    t.newLine.column = 0 ∧ t.newLine.color = t.color := by
  unfold Terminal.newLine vgaHeight
  by_cases hr : t.row + 1 = 25
  · simp only [if_pos hr]
    refine ⟨.inr ⟨by omega, rfl, fun i hi => ?_⟩, rfl, rfl⟩
    exact scroll_buffer { t with column := 0, row := t.row + 1 } i hi
  · simp only [if_neg hr]
    exact ⟨.inl ⟨by omega, rfl, rfl⟩, rfl, rfl⟩

theorem putchar_newline (h : t.OnScreen) :
    (t.putchar (chr '\n')).OnScreen ∧ (t.putchar (chr '\n')).color = t.color := by
  have e : t.putchar (chr '\n') = t.newLine := by
    unfold Terminal.putchar
    rw [if_neg (by decide), if_pos rfl]
  obtain ⟨hcase, hcol, hcolor⟩ := newLine_spec h.row
  rw [e]
  refine ⟨⟨?_, by rw [hcol]; decide⟩, hcolor⟩
  show t.newLine.row < 25
  omega

/-- **Backspace blanks the cell before the position and moves there, staying at the first cell.** -/
theorem putchar_backspace (h : t.OnScreen) :
    (t.putchar (chr '\x08')).OnScreen ∧ (t.putchar (chr '\x08')).color = t.color ∧
    (t.putchar (chr '\x08')).cur = t.cur - 1 ∧
    (t.putchar (chr '\x08')).buffer
      = Function.update t.buffer (t.cur - 1) (makeEntry (chr ' ') t.color) := by
  obtain ⟨h1, h2⟩ := h
  unfold Terminal.putchar
  rw [if_pos rfl]
  unfold vgaHeight vgaWidth at *
  by_cases hc : t.column > 0
  · simp only [if_pos hc]
    refine ⟨⟨h1, by show t.column - 1 < 80; omega⟩, rfl, ?_, ?_⟩
    · show t.row * 80 + (t.column - 1) = t.row * 80 + t.column - 1
      omega
    · show Function.update t.buffer (t.row * 80 + (t.column - 1)) _ = _
      rw [show t.row * 80 + (t.column - 1) = t.row * 80 + t.column - 1 by omega]
      rfl
  · simp only [if_neg hc]
    by_cases hr : t.row > 0
    · simp only [if_pos hr]
      have e : (t.row - 1) * 80 + 79 = t.row * 80 + t.column - 1 := by omega
      refine ⟨⟨by show t.row - 1 < 25; omega, by show 79 < 80; omega⟩, rfl, e, ?_⟩
      show Function.update t.buffer ((t.row - 1) * 80 + 79) _ = _
      rw [e]
      rfl
    · simp only [if_neg hr]
      have e : t.row * 80 + t.column = t.row * 80 + t.column - 1 := by omega
      refine ⟨⟨h1, h2⟩, rfl, e, ?_⟩
      show Function.update t.buffer (t.row * 80 + t.column) _ = _
      rw [e]
      rfl

/-- the character is written and the column counted up, before a full row is left -/
def Terminal.stored (t : Terminal) (c : Byte) : Terminal :=
  { t.putentryAt c t.color t.column t.row with column := t.column + 1 }

theorem putchar_stored (t : Terminal) {c : Byte} (hb : c ≠ chr '\x08') (hn : c ≠ chr '\n') : t.putchar c
    = (if (t.stored c).column = vgaWidth then (t.stored c).newLine else t.stored c).updateCursor := by
  unfold Terminal.putchar
  rw [if_neg hb, if_neg hn]
  rfl

/-- **Any other character is written at the position, which moves on; behind the last cell the
screen has scrolled.** -/
theorem putchar_ordinary (h : t.OnScreen) {c : Byte} (hb : c ≠ chr '\x08') (hn : c ≠ chr '\n') :
    (t.putchar c).OnScreen ∧ (t.putchar c).color = t.color ∧
    ((t.putchar c).cur = t.cur + 1 ∧
        (t.putchar c).buffer = Function.update t.buffer t.cur (makeEntry c t.color) ∨
      t.cur = 1999 ∧ (t.putchar c).cur = 1920 ∧
        ∀ i, i < 1920 → (t.putchar c).buffer i
          = Function.update t.buffer t.cur (makeEntry c t.color) (i + 80)) := by
  obtain ⟨h1, h2⟩ := h
  let u : Terminal := t.stored c
  rw [putchar_stored t hb hn]
  by_cases hc : u.column = vgaWidth
  · rw [if_pos hc]
    obtain ⟨hcase, hcol, hcolor⟩ := newLine_spec (t := u) h1
    have hcol' : t.column + 1 = 80 := hc
    have hcur : t.cur = t.row * 80 + 79 := by
      show t.row * 80 + t.column = _
      omega
    have hcur' : u.newLine.updateCursor.cur = u.newLine.row * 80 := by
      show u.newLine.row * 80 + u.newLine.column = _
      rw [hcol]
      rfl
    rcases hcase with ⟨hr, hrow, hbuf⟩ | ⟨hr, hrow, hbuf⟩
    · have hr' : t.row < 24 := hr
      have hrow' : u.newLine.row = t.row + 1 := hrow
      refine ⟨⟨?_, ?_⟩, hcolor, .inl ⟨?_, hbuf⟩⟩
      · show u.newLine.row < 25
        omega
      · show u.newLine.column < 80
        omega
      · rw [hcur', hrow', hcur]
        omega
    · have hr' : t.row = 24 := hr
      refine ⟨⟨?_, ?_⟩, hcolor, .inr ⟨?_, ?_, hbuf⟩⟩
      · show u.newLine.row < 25
        omega
      · show u.newLine.column < 80
        omega
      · rw [hcur, hr']
      · rw [hcur', hrow]
  · rw [if_neg hc]
    have hcol' : t.column + 1 ≠ 80 := hc
    refine ⟨⟨h1, ?_⟩, rfl, .inl ⟨rfl, rfl⟩⟩
    have h3 : t.column < 80 := h2
    show t.column + 1 < 80
    omega

/-- every character keeps the position on the screen and the color -/
theorem putchar_onScreen (h : t.OnScreen) (c : Byte) :
    (t.putchar c).OnScreen ∧ (t.putchar c).color = t.color := by
  by_cases hb : c = chr '\x08'
  · rw [hb]
    exact ⟨(putchar_backspace h).1, (putchar_backspace h).2.1⟩
  · by_cases hn : c = chr '\n'
    · rw [hn]
      exact putchar_newline h
    · exact ⟨(putchar_ordinary h hb hn).1, (putchar_ordinary h hb hn).2.1⟩

theorem write_onScreen (h : t.OnScreen) (cs : List Byte) :
    (t.write cs).OnScreen ∧ (t.write cs).color = t.color := by
  induction cs generalizing t with
  | nil => exact ⟨h, rfl⟩
  | cons c cs ih =>
    obtain ⟨h1, h2⟩ := putchar_onScreen h c
    obtain ⟨h3, h4⟩ := ih h1
    exact ⟨h3, h4.trans h2⟩

theorem write_append (t : Terminal) (cs ds : List Byte) : t.write (cs ++ ds) = (t.write cs).write ds :=
  List.foldl_append

theorem initialize_onScreen (t : Terminal) : t.initialize.OnScreen :=
  ⟨Nat.zero_lt_succ 24, Nat.zero_lt_succ 79⟩

/-! ## what the cells before the position show -/

/-- the cells right before the position show `cs` -/
def Ends (t : Terminal) (cs : List Byte) : Prop :=
  ∃ p, p + cs.length = t.cur ∧ ∀ i (h : i < cs.length), t.buffer (p + i) = makeEntry cs[i] t.color

theorem Ends.nil (t : Terminal) : Ends t [] := ⟨t.cur, rfl, fun _ h => absurd h (Nat.not_lt_zero _)⟩

/-- a printed character joins the text, which a scroll moves one row up as a whole -/
theorem Ends.push (h : t.OnScreen) {cs : List Byte} (hcs : Ends t cs) (hlen : cs.length < 1920)
    {c : Byte} (hb : c ≠ chr '\x08') (hn : c ≠ chr '\n') : Ends (t.putchar c) (cs ++ [c]) := by
  obtain ⟨p, hp, hshow⟩ := hcs
  obtain ⟨_, hcolor, hcase⟩ := putchar_ordinary h hb hn
  have hlast : (cs ++ [c]).length = cs.length + 1 := List.length_append
  -- the cells of the text and of the new character, before a scroll
  have hcell : ∀ i (hi : i < (cs ++ [c]).length),
      Function.update t.buffer t.cur (makeEntry c t.color) (p + i)
        = makeEntry (cs ++ [c])[i] (t.putchar c).color := by
    intro i hi
    rw [hcolor]
    by_cases hic : i < cs.length
    · rw [Function.update_of_ne (by omega), hshow i hic, List.getElem_append_left hic]
    · have e : i = cs.length := by omega
      subst e
      rw [hp, Function.update_self, List.getElem_concat_length rfl]
  rcases hcase with ⟨hcur, hbuf⟩ | ⟨hcur, hcur', hbuf⟩
  · refine ⟨p, by omega, fun i hi => ?_⟩
    rw [hbuf]
    exact hcell i hi
  · refine ⟨p - 80, by omega, fun i hi => ?_⟩
    rw [hbuf _ (by omega), show p - 80 + i + 80 = p + i by omega]
    exact hcell i hi

/-- the three characters of an erase take the last character away -/
theorem Ends.erase (h : t.OnScreen) {cs : List Byte} {c : Byte} (hcs : Ends t (cs ++ [c])) :
    Ends (((t.putchar (chr '\x08')).putchar (chr ' ')).putchar (chr '\x08')) cs := by
  obtain ⟨p, hp, hshow⟩ := hcs
  have hlast : (cs ++ [c]).length = cs.length + 1 := List.length_append
  have hlt := h.cur_lt
  obtain ⟨h1, hcolor1, hcur1, hbuf1⟩ := putchar_backspace h
  obtain ⟨h2, hcolor2, hcase⟩ := putchar_ordinary h1 (c := chr ' ') (by decide) (by decide)
  obtain ⟨h3, hcolor3, hcur3, hbuf3⟩ := putchar_backspace h2
  -- the position after the first backspace is not the last cell: the blank does not scroll
  rcases hcase with ⟨hcur2, hbuf2⟩ | ⟨hcur2, _⟩
  · refine ⟨p, by omega, fun i hi => ?_⟩
    rw [hbuf3, Function.update_of_ne (by omega), hbuf2, Function.update_of_ne (by omega), hbuf1,
      Function.update_of_ne (by omega), hshow i (by omega), List.getElem_append_left hi, hcolor3,
      hcolor2, hcolor1]
  · omega

/-- a text without backspaces and newlines joins the text before it -/
theorem Ends.write (h : t.OnScreen) {cs ds : List Byte} (hcs : Ends t cs)
    (hlen : cs.length + ds.length ≤ 1920) (hds : ∀ d ∈ ds, d ≠ chr '\x08' ∧ d ≠ chr '\n') :
    Ends (t.write ds) (cs ++ ds) := by
  induction ds generalizing t cs with
  | nil =>
    rw [List.append_nil]
    exact hcs
  | cons d ds ih =>
    obtain ⟨hb, hn⟩ := hds d List.mem_cons_self
    have hlen' : cs.length + (ds.length + 1) ≤ 1920 := hlen
    have h1 := hcs.push h (by omega) hb hn
    have h2 := ih (putchar_onScreen h d).1 h1 (by rw [List.length_append]; show _ + 1 + _ ≤ _; omega)
      fun e he => hds e (List.mem_cons_of_mem _ he)
    rw [List.append_assoc] at h2
    exact h2

end

end FirstKernel
