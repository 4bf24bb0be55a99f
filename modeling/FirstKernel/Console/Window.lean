import FirstKernel.Console.Terminal
import FirstKernel.Lib.Page

/-!
# The screen as a window

`putPage` is what a character does to a page without end.  The screen shows the last 25 rows that were
reached on it.

* `Shows t p`          the cells and the position of the terminal are those of the window on `p`;
* `Shows.putchar`      every character keeps it;
* `terminal_window`    so it holds after any characters from a fresh terminal on.
-/

namespace FirstKernel
open ByteMem Cells Scroll

/-- a printable character is stored, `\n` and `\b` move -/
def putPage (p : Page Byte) (c : Byte) : Page Byte :=
  if c = chr '\x08' then (p.back vgaWidth vgaHeight).store (chr ' ')
  else if c = chr '\n' then p.nextRow
  else (p.store c).advance vgaWidth

/-- rows `top` to `top + 24` of the page are on the screen -/
structure OnWindow (t : Terminal) (p : Page Byte) : Prop where
  inside : p.Inside vgaWidth vgaHeight (chr ' ')
  row : p.row = p.top vgaHeight + t.row
  cell : ∀ r c, r < vgaHeight → c < vgaWidth →
    t.buffer (r * vgaWidth + c) = makeEntry (p.cell (p.top vgaHeight + r) c) t.color

/-- the screen and the position are those of the window -/
structure Shows (t : Terminal) (p : Page Byte) : Prop extends OnWindow t p where
  column : p.column = t.column

section
variable {t : Terminal} {p : Page Byte}

theorem OnWindow.row_lt (h : OnWindow t p) : t.row < 25 := by
  have h1 := h.inside.row_lt
  have h2 := h.row
  unfold vgaHeight at *
  omega

theorem Shows.onScreen (h : Shows t p) : t.OnScreen := by
  refine ⟨h.row_lt, ?_⟩
  have := h.inside.column
  rw [h.column] at this
  exact this

/-! ## the parts of a character -/

/-- a cell is written at the position -/
theorem Shows.store (h : Shows t p) (c : Byte) :
    Shows (t.putentryAt c t.color t.column t.row) (p.store c) := by
  refine ⟨⟨h.inside.store c, h.row, fun r k hr hk => ?_⟩, h.column⟩
  obtain ⟨_, hcol⟩ := h.onScreen
  have hrow : p.row = p.top vgaHeight + t.row := h.row
  have hcolumn := h.column
  show Function.update t.buffer (t.row * vgaWidth + t.column) (makeEntry c t.color) (r * vgaWidth + k)
    = makeEntry ((p.store c).cell (p.top vgaHeight + r) k) t.color
  rw [store_cell]
  by_cases he : r = t.row ∧ k = t.column
  · rw [he.1, he.2, Function.update_self, if_pos ⟨hrow.symm, hcolumn.symm⟩]
  · -- two cells of the screen with one index are the same
    have hne : r * vgaWidth + k ≠ t.row * vgaWidth + t.column := by
      unfold vgaWidth at *
      omega
    rw [Function.update_of_ne hne, if_neg (by omega)]
    exact h.cell r k hr hk

/-- the buffer after `scroll` -/
theorem scroll_cells (t : Terminal) (i : Nat) : t.scroll.buffer i =
    if i < 1920 then t.buffer (i + 80)
    else if i < 2000 then makeEntry (chr ' ') t.color else t.buffer i := by
  by_cases h1 : i < 1920
  · rw [if_pos h1]
    exact scroll_buffer t i h1
  · rw [if_neg h1]
    show fill (copyRows t.buffer 80 24) 1920 _ 80 i = _
    by_cases h2 : i < 2000
    · rw [if_pos h2, fill_in _ _ _ _ _ (by omega) (by omega)]
    · rw [if_neg h2, fill_out _ _ _ _ _ (by omega), copyRows_apply, if_neg (by omega)]

/-- **A new line goes to the next row of the page, of which a scroll shows one more.** -/
theorem OnWindow.newLine (h : OnWindow t p) : Shows t.newLine p.nextRow := by
  have hrow : p.row = p.top vgaHeight + t.row := h.row
  have hlt := h.row_lt
  have hin := h.inside.nextRow (by decide)
  by_cases hr : t.row + 1 = vgaHeight
  · -- the last row: the page grows, and the window with it
    have e : t.newLine = ({ ({ t with column := 0, row := t.row + 1 } : Terminal).scroll with
        row := vgaHeight - 1 }).updateCursor := by
      unfold Terminal.newLine
      simp only [if_pos hr]
    have hr' : t.row = 24 := Nat.succ.inj hr
    obtain ⟨htop, hreached⟩ := top_nextRow_last h.inside (by rw [hrow, ← hr]; rfl)
    rw [e]
    refine ⟨⟨hin, ?_, fun r k hr hk => ?_⟩, rfl⟩
    · rw [htop]
      show p.row + 1 = p.top vgaHeight + 1 + 24
      rw [hrow, hr']
    · have hr25 : r < 25 := hr
      have hk80 : k < 80 := hk
      rw [htop]
      clear htop
      have hcells := scroll_cells { t with column := 0, row := t.row + 1 } (r * vgaWidth + k)
      have hrow80 : r * vgaWidth = r * 80 := rfl
      refine hcells.trans ?_
      rw [hrow80]
      show (if _ then t.buffer _ else if _ then makeEntry _ t.color else t.buffer _) =
        makeEntry (p.cell _ k) t.color
      by_cases hlast : r < 24
      · rw [if_pos (by omega), show r * 80 + k + 80 = (r + 1) * 80 + k by omega, Nat.add_assoc,
          Nat.add_comm 1 r]
        exact h.cell (r + 1) k (Nat.succ_lt_succ hlast) hk
      · rw [if_neg (by omega), if_pos (by omega), h.inside.blank _ _ ?_]
        rw [hreached, hrow, hr']
        omega
  · have e : t.newLine = ({ t with column := 0, row := t.row + 1 } : Terminal).updateCursor := by
      unfold Terminal.newLine
      simp only [if_neg hr]
    have hr' : t.row + 1 ≠ 25 := hr
    have htop : p.nextRow.top vgaHeight = p.top vgaHeight := by
      refine top_nextRow ?_
      show p.row + 1 < p.top vgaHeight + 25
      omega
    rw [e]
    refine ⟨⟨hin, ?_, fun r k hr hk => ?_⟩, rfl⟩
    · rw [htop]
      show p.row + 1 = p.top vgaHeight + (t.row + 1)
      rw [hrow, Nat.add_assoc]
    · rw [htop]
      exact h.cell r k hr hk

/-- the position moves, and with it nothing on the screen -/
theorem Shows.move (h : Shows t p) {t' : Terminal} {p' : Page Byte}
    (hin : p'.Inside vgaWidth vgaHeight (chr ' ')) (htop : p'.top vgaHeight = p.top vgaHeight)
    (hcell : p'.cell = p.cell) (hbuf : t'.buffer = t.buffer) (hcolor : t'.color = t.color)
    (hrow : p'.row = p.top vgaHeight + t'.row) (hcol : p'.column = t'.column) : Shows t' p' := by
  refine ⟨⟨hin, by rw [htop, hrow], fun r c hr hc => ?_⟩, hcol⟩
  rw [hbuf, htop, hcell, hcolor]
  exact h.cell r c hr hc

/-- **Backspace goes to the cell before the position of both, and stays at the first of the window.** -/
theorem Shows.back (h : Shows t p) : Shows
    (if t.column > 0 then { t with column := t.column - 1 }
      else if t.row > 0 then { t with row := t.row - 1, column := vgaWidth - 1 } else t)
    (p.back vgaWidth vgaHeight) := by
  have hin := h.inside.back (h := vgaHeight)
  have hrow : p.row = p.top vgaHeight + t.row := h.row
  unfold Page.back at hin ⊢
  rw [h.column] at hin ⊢
  by_cases hc : t.column > 0
  · rw [if_pos hc] at hin
    rw [if_pos hc, if_pos hc]
    exact h.move hin rfl rfl rfl rfl hrow rfl
  · rw [if_neg hc] at hin
    rw [if_neg hc, if_neg hc]
    by_cases hr : t.row > 0
    · have hr' : p.row > p.top vgaHeight := by omega
      rw [if_pos hr'] at hin
      rw [if_pos hr, if_pos hr']
      refine h.move hin rfl rfl rfl rfl ?_ rfl
      show p.row - 1 = p.top vgaHeight + (t.row - 1)
      omega
    · rw [if_neg hr, if_neg (by omega)]
      exact h

theorem Shows.updateCursor (h : Shows t p) : Shows t.updateCursor p := ⟨⟨h.inside, h.row, h.cell⟩, h.column⟩

theorem OnWindow.stored (h : Shows t p) (c : Byte) : OnWindow (t.stored c) (p.store c) := by
  obtain ⟨hin, hrow, hcell⟩ := (h.store c).toOnWindow
  exact ⟨hin, hrow, hcell⟩

/-- **Every character does to the screen what it does to the page.** -/
theorem Shows.putchar (h : Shows t p) (c : Byte) : Shows (t.putchar c) (putPage p c) := by
  unfold putPage
  by_cases hb : c = chr '\x08'
  · unfold Terminal.putchar
    rw [if_pos hb, if_pos hb]
    exact (h.back.store (chr ' ')).updateCursor
  rw [if_neg hb]
  by_cases hn : c = chr '\n'
  · unfold Terminal.putchar
    rw [if_neg hb, if_pos hn, if_pos hn]
    exact h.newLine
  have hs := OnWindow.stored h c
  have hin := hs.inside.advance (h := vgaHeight) (by decide)
  have hcol : (p.store c).column + 1 = (t.stored c).column := congrArg (· + 1) (h.store c).column
  rw [if_neg hn, putchar_stored t hb hn]
  unfold Page.advance at hin ⊢
  rw [hcol] at hin ⊢
  by_cases hw : (t.stored c).column = vgaWidth
  · rw [if_pos hw, if_pos hw]
    exact hs.newLine.updateCursor
  · rw [if_neg hw] at hin
    rw [if_neg hw, if_neg hw]
    exact ⟨⟨hin, hs.row, hs.cell⟩, rfl⟩

/-! ## cells and cursor -/

/-- past the screen nothing is written -/
theorem newLine_past (t : Terminal) {i : Nat} (hi : 2000 ≤ i) : t.newLine.buffer i = t.buffer i := by
  unfold Terminal.newLine
  by_cases hr : t.row + 1 = vgaHeight
  · simp only [if_pos hr]
    refine (scroll_cells { t with column := 0, row := t.row + 1 } i).trans ?_
    rw [if_neg (by omega), if_neg (by omega)]
  · simp only [if_neg hr]
    rfl

theorem stored_past (h : t.OnScreen) (c : Byte) {i : Nat} (hi : 2000 ≤ i) :
    (t.stored c).buffer i = t.buffer i := by
  have hlt := h.cur_lt
  refine Function.update_of_ne ?_ _ _
  unfold Terminal.cur at hlt
  omega

theorem putchar_past (h : t.OnScreen) (c : Byte) {i : Nat} (hi : 2000 ≤ i) :
    (t.putchar c).buffer i = t.buffer i := by
  by_cases hb : c = chr '\x08'
  · have hlt := h.cur_lt
    rw [hb, (putchar_backspace h).2.2.2, Function.update_of_ne (by omega)]
  by_cases hn : c = chr '\n'
  · unfold Terminal.putchar
    rw [if_neg hb, if_pos hn]
    exact newLine_past t hi
  · rw [putchar_stored t hb hn]
    by_cases hw : (t.stored c).column = vgaWidth
    · rw [if_pos hw]
      exact (newLine_past _ hi).trans (stored_past h c hi)
    · rw [if_neg hw]
      exact stored_past h c hi

/-- the registers of the CRT controller hold the position -/
def CursorAt (t : Terminal) : Prop := t.cursorHigh.toNat * 256 + t.cursorLow.toNat = t.cur

theorem cursorAt_update (h : t.OnScreen) : CursorAt t.updateCursor := by
  have hlt := h.cur_lt
  have hlow : t.updateCursor.cursorLow.toNat = t.cur % 256 := by
    show ((BitVec.ofNat 16 t.cur &&& 0xFF#16).setWidth 8).toNat = _
    rw [BitVec.toNat_setWidth, BitVec.toNat_and, BitVec.toNat_ofNat]
    show (t.cur % 2^16 &&& (2^8 - 1)) % 2^8 = _
    rw [Nat.and_two_pow_sub_one_eq_mod]
    omega
  have hhigh : t.updateCursor.cursorHigh.toNat = t.cur / 256 := by
    show ((BitVec.ofNat 16 t.cur >>> 8 &&& 0xFF#16).setWidth 8).toNat = _
    rw [BitVec.toNat_setWidth, BitVec.toNat_and, BitVec.toNat_ushiftRight, BitVec.toNat_ofNat,
      Nat.shiftRight_eq_div_pow]
    show (t.cur % 2^16 / 2^8 &&& (2^8 - 1)) % 2^8 = _
    rw [Nat.and_two_pow_sub_one_eq_mod]
    omega
  have hcur : t.updateCursor.cur = t.cur := rfl
  unfold CursorAt
  rw [hlow, hhigh, hcur]
  omega

/-- every character ends with an update of the registers -/
theorem putchar_update (t : Terminal) (c : Byte) : ∃ u : Terminal, t.putchar c = u.updateCursor := by
  by_cases hb : c = chr '\x08'
  · unfold Terminal.putchar
    rw [if_pos hb]
    exact ⟨_, rfl⟩
  by_cases hn : c = chr '\n'
  · unfold Terminal.putchar
    rw [if_neg hb, if_pos hn]
    exact ⟨_, rfl⟩
  · exact ⟨_, putchar_stored t hb hn⟩

theorem putchar_cursor (h : t.OnScreen) (c : Byte) : CursorAt (t.putchar c) := by
  have hon := (putchar_onScreen h c).1
  obtain ⟨u, e⟩ := putchar_update t c
  rw [e] at hon ⊢
  exact cursorAt_update ⟨hon.row, hon.column⟩

end

/-! ## runs -/

/-- `initialize` and the characters `cs` -/
def Terminal.shown (t : Terminal) (cs : List Byte) : Terminal := Terminal.write t.initialize cs

/-- the page with the characters `cs` -/
def pageOf (cs : List Byte) : Page Byte := cs.foldl putPage (Page.blank (chr ' '))

theorem shows_start (t : Terminal) : Shows t.initialize (Page.blank (chr ' ')) := by
  refine ⟨⟨inside_blank (by decide) (by decide), ?_, fun r c hr hc => ?_⟩, rfl⟩
  · show 0 = firstRow 25 0 + 0
    unfold firstRow
    rfl
  · show fillRows t.buffer 80 _ 25 (r * 80 + c) = _
    have hr25 : r < 25 := hr
    have hc80 : c < 80 := hc
    rw [fillRows_apply, if_pos (by omega)]
    rfl

theorem initialize_past (t : Terminal) {i : Nat} (hi : 2000 ≤ i) : t.initialize.buffer i = t.buffer i := by
  show fillRows t.buffer 80 _ 25 i = _
  rw [fillRows_apply, if_neg (by omega)]

theorem shows_write {t : Terminal} {p : Page Byte} (h : Shows t p) (cs : List Byte) :
    Shows (t.write cs) (cs.foldl putPage p) ∧ (t.write cs).color = t.color ∧
      (∀ i, 2000 ≤ i → (t.write cs).buffer i = t.buffer i) ∧ (cs ≠ [] → CursorAt (t.write cs)) := by
  induction cs generalizing t p with
  | nil => exact ⟨h, rfl, fun _ _ => rfl, fun hne => absurd rfl hne⟩
  | cons c cs ih =>
    have hon := h.onScreen
    obtain ⟨h1, h2, h3, h4⟩ := ih (h.putchar c)
    refine ⟨h1, h2.trans (putchar_onScreen hon c).2, fun i hi => ?_, fun _ => ?_⟩
    · exact (h3 i hi).trans (putchar_past hon c hi)
    · by_cases hnil : cs = []
      · rw [hnil]
        exact putchar_cursor hon c
      · exact h4 hnil

/-- the screen of `u` is the window on `p`, and the position on the screen the one on the page -/
structure IsWindow (u : Terminal) (p : Page Byte) : Prop where
  row : u.row < vgaHeight
  column : u.column < vgaWidth
  window : p.top vgaHeight = p.reached - (vgaHeight - 1)
  reached : p.row ≤ p.reached
  position : p.row = p.top vgaHeight + u.row ∧ p.column = u.column
  cell : ∀ r c, r < vgaHeight → c < vgaWidth →
    u.buffer (r * vgaWidth + c) = makeEntry (p.cell (p.top vgaHeight + r) c) u.color

/-- **After any characters the screen and the cursor are those of the window on the page, and no cell
past the screen was written.** -/
theorem terminal_window (t : Terminal) (cs : List Byte) :
    IsWindow (t.shown cs) (pageOf cs) ∧ (∀ i, 2000 ≤ i → (t.shown cs).buffer i = t.buffer i) ∧
      (cs ≠ [] → CursorAt (t.shown cs)) := by
  obtain ⟨h, _, hpast, hcursor⟩ := shows_write (shows_start t) cs
  refine ⟨⟨h.row_lt, h.onScreen.column, ?_, h.inside.reached, ⟨h.row, h.column⟩, h.cell⟩,
    fun i hi => (hpast i hi).trans (initialize_past t hi), hcursor⟩
  unfold Page.top firstRow vgaHeight
  omega

end FirstKernel
