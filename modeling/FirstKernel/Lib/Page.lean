import Mathlib.Logic.Function.Basic

/-!
# A page without end and the window on it

Rows of cells, unboundedly many, with a position and the last row it has reached.  The window is the
last `h` rows reached; the position moves inside it.

* `nextRow`, `advance`, `back`   how the position moves, in rows of `w` cells;
* `Inside`                       the position is in the window and the rows not reached are blank.
-/

namespace Scroll

structure Page (α : Type) where
  cell : Nat → Nat → α
  row : Nat
  column : Nat
  reached : Nat

/-- the first of the last `h` rows up to `reached` -/
@[irreducible] def firstRow (h reached : Nat) : Nat := reached + 1 - h

section
variable {α : Type}

def Page.blank (b : α) : Page α := ⟨fun _ _ => b, 0, 0, 0⟩

/-- the first row of the window -/
def Page.top (h : Nat) (p : Page α) : Nat := firstRow h p.reached

def Page.store (p : Page α) (a : α) : Page α :=
  { p with cell := Function.update p.cell p.row (Function.update (p.cell p.row) p.column a) }

def Page.nextRow (p : Page α) : Page α :=
  { p with row := p.row + 1, column := 0, reached := max p.reached (p.row + 1) }

def Page.advance (w : Nat) (p : Page α) : Page α :=
  if p.column + 1 = w then p.nextRow else { p with column := p.column + 1 }

/-- one cell back, over the start of a row, but not out of the window -/
def Page.back (w h : Nat) (p : Page α) : Page α :=
  if p.column > 0 then { p with column := p.column - 1 }
  else if p.row > p.top h then { p with row := p.row - 1, column := w - 1 }
  else p

structure Page.Inside (w h : Nat) (b : α) (p : Page α) : Prop where
  top : p.top h ≤ p.row
  reached : p.row ≤ p.reached
  column : p.column < w
  blank : ∀ r c, p.reached < r → p.cell r c = b

variable {w h : Nat} {b a : α} {p : Page α}

theorem inside_blank (hw : 0 < w) (hh : 0 < h) : (Page.blank b).Inside w h b := by
  refine ⟨?_, Nat.le_refl _, hw, fun _ _ _ => rfl⟩
  show firstRow h 0 ≤ 0
  unfold firstRow
  omega

theorem Page.Inside.row_lt (hp : p.Inside w h b) : p.row < p.top h + h := by
  have := hp.reached
  unfold Page.top firstRow
  omega

/-- below the last row of the window the next row is one of it -/
theorem top_nextRow (hr : p.row + 1 < p.top h + h) : p.nextRow.top h = p.top h := by
  show firstRow h (max p.reached (p.row + 1)) = firstRow h p.reached
  unfold Page.top at hr
  unfold firstRow at hr ⊢
  omega

/-- in the last row of the window the next row is a new one -/
theorem top_nextRow_last (hp : p.Inside w h b) (hr : p.row + 1 = p.top h + h) :
    p.nextRow.top h = p.top h + 1 ∧ p.reached = p.row := by
  have h1 := hp.reached
  unfold Page.top at hr
  constructor
  · show firstRow h (max p.reached (p.row + 1)) = firstRow h p.reached + 1
    unfold firstRow at hr ⊢
    omega
  · unfold firstRow at hr
    omega

theorem store_cell (r c : Nat) : (p.store a).cell r c
    = if r = p.row ∧ c = p.column then a else p.cell r c := by
  show Function.update p.cell p.row (Function.update (p.cell p.row) p.column a) r c = _
  by_cases hr : r = p.row
  · rw [hr, Function.update_self]
    by_cases hc : c = p.column
    · rw [hc, Function.update_self, if_pos ⟨rfl, rfl⟩]
    · rw [Function.update_of_ne hc, if_neg fun e => hc e.2]
  · rw [Function.update_of_ne hr, if_neg fun e => hr e.1]

theorem Page.Inside.store (hp : p.Inside w h b) (a : α) : (p.store a).Inside w h b := by
  refine ⟨hp.top, hp.reached, hp.column, fun r c hr => ?_⟩
  have hreached : p.reached < r := hr
  have hrow := hp.reached
  rw [store_cell, if_neg (by omega)]
  exact hp.blank r c hr

theorem Page.Inside.nextRow (hp : p.Inside w h b) (hh : 0 < h) : p.nextRow.Inside w h b := by
  have hw := hp.column
  have hrow := hp.reached
  have htop := hp.top
  unfold Page.top firstRow at htop
  refine ⟨?_, Nat.le_max_right _ _, Nat.lt_of_le_of_lt (Nat.zero_le _) hw, fun r c hr => ?_⟩
  · show firstRow h (max p.reached (p.row + 1)) ≤ p.row + 1
    unfold firstRow
    omega
  · exact hp.blank r c (Nat.lt_of_le_of_lt (Nat.le_max_left _ _) hr)

theorem Page.Inside.advance (hp : p.Inside w h b) (hh : 0 < h) : (p.advance w).Inside w h b := by
  have hw := hp.column
  unfold Page.advance
  by_cases hc : p.column + 1 = w
  · rw [if_pos hc]
    exact hp.nextRow hh
  · rw [if_neg hc]
    exact ⟨hp.top, hp.reached, by show p.column + 1 < w; omega, hp.blank⟩

theorem Page.Inside.back (hp : p.Inside w h b) : (p.back w h).Inside w h b := by
  have hw := hp.column
  have hrow := hp.reached
  unfold Page.back
  by_cases hc : p.column > 0
  · rw [if_pos hc]
    exact ⟨hp.top, hrow, by show p.column - 1 < w; omega, hp.blank⟩
  · rw [if_neg hc]
    by_cases hr : p.row > p.top h
    · rw [if_pos hr]
      refine ⟨?_, ?_, ?_, hp.blank⟩
      · show p.top h ≤ p.row - 1
        omega
      · show p.row - 1 ≤ p.reached
        omega
      · show w - 1 < w
        omega
    · rw [if_neg hr]
      exact hp

end

end Scroll
