import Mathlib.Data.Nat.Notation

/-! A text terminal: a grid of characters with a cursor that is always inside it. Lines wrap,
and a full grid scrolls up by a row. -/
namespace Leg

/-- A terminal of `rows` by `cols` cells; `cell r c` is the character in row `r`, column `c`. -/
structure Terminal (rows cols : ℕ) (α : Type*) where
  cell : ℕ → ℕ → α
  row : ℕ
  col : ℕ
  row_lt : row < rows
  col_lt : col < cols

namespace Terminal
variable {rows cols : ℕ} {α : Type*} (blank : α) (t : Terminal rows cols α)

/-- An empty grid with the cursor at its first cell. -/
def clear (hr : 0 < rows) (hc : 0 < cols) : Terminal rows cols α := ⟨fun _ _ => blank, 0, 0, hr, hc⟩

/-- Each row holds what the next one held; the last is blank. -/
def scrolled (rows : ℕ) (blank : α) (cell : ℕ → ℕ → α) (r c : ℕ) : α :=
  if r + 1 < rows then cell (r + 1) c else blank

/-- To the start of the next row; in the last row the grid scrolls instead. -/
def nextRow : Terminal rows cols α :=
  if h : t.row + 1 < rows then
    { t with row := t.row + 1, col := 0, row_lt := h, col_lt := Nat.zero_lt_of_lt t.col_lt }
  else
    { t with
      cell := scrolled rows blank t.cell
      col := 0
      col_lt := Nat.zero_lt_of_lt t.col_lt }

/-- To a column of the row, or to the next row when there is no such column. -/
def moveTo (c : ℕ) : Terminal rows cols α :=
  if h : c < cols then { t with col := c, col_lt := h } else t.nextRow blank

/-- Put a character into a cell of the cursor's row. -/
def setCell (c : ℕ) (a : α) : Terminal rows cols α :=
  { t with cell := fun r k => if r = t.row ∧ k = c then a else t.cell r k }

/-- Place a character at the cursor and advance. -/
def place (a : α) : Terminal rows cols α := (t.setCell t.col a).moveTo blank (t.col + 1)

/-- To the next multiple of `n`. -/
def tab (n : ℕ) : Terminal rows cols α := t.moveTo blank ((t.col / n + 1) * n)

/-- Erase the cell before the cursor and go there; at the start of the row do nothing. -/
def backspace : Terminal rows cols α :=
  if t.col = 0 then t
  else
    { t.setCell (t.col - 1) blank with
      col := t.col - 1
      col_lt := Nat.lt_of_le_of_lt (Nat.sub_le t.col 1) t.col_lt }

/-- What takes back the last character: back, a blank over it, and back again. -/
def rubout : Terminal rows cols α := ((t.backspace blank).place blank blank).backspace blank

/-- From the cursor on the grid is blank. -/
def BlankAhead : Prop :=
  ∀ r c, r < rows → c < cols → t.row < r ∨ r = t.row ∧ t.col ≤ c → t.cell r c = blank

theorem moveTo_of_lt {c : ℕ} (h : c < cols) :
    t.moveTo blank c = { t with col := c, col_lt := h } := dif_pos h

theorem nextRow_col : (t.nextRow blank).col = 0 := by
  unfold nextRow
  split <;> rfl

theorem moveTo_of_not_lt {c : ℕ} (h : ¬c < cols) : (t.moveTo blank c).col = 0 := by
  unfold moveTo
  rw [dif_neg h]
  exact t.nextRow_col blank

theorem place_backspace {a : α} (h : t.col + 1 < cols) :
    (t.place blank a).backspace blank = t.setCell t.col blank := by
  unfold place backspace
  rw [moveTo_of_lt blank _ h, if_neg (Nat.succ_ne_zero _)]
  simp only [setCell, Nat.add_sub_cancel]
  congr 1
  funext r k
  by_cases hk : r = t.row ∧ k = t.col
  · rw [if_pos hk, if_pos hk]
  · rw [if_neg hk, if_neg hk, if_neg hk]

theorem backspace_col : (t.backspace blank).col = t.col - 1 := by
  unfold backspace
  split
  next h => rw [h]
  next => rfl

theorem rubout_eq (h : 1 < cols) :
    t.rubout blank = (t.backspace blank).setCell (t.col - 1) blank := by
  have hlt := t.col_lt
  have hcol := t.backspace_col blank
  unfold rubout
  rw [place_backspace blank _ (by omega), hcol]

theorem rubout_col (h : 1 < cols) : (t.rubout blank).col = t.col - 1 := by
  rw [rubout_eq blank t h]
  exact t.backspace_col blank

section Blank
variable {blank t} {u : Terminal rows cols α}

/-- Where the cursor has moved on by one cell, which was blank before, the character in it can be
taken back. -/
theorem BlankAhead.rubout_moved (hblank : t.BlankAhead blank) (hrow : u.row = t.row)
    (hcol : u.col = t.col + 1)
    (hcell : ∀ r c, ¬(r = t.row ∧ c = t.col) → u.cell r c = t.cell r c) : u.rubout blank = t := by
  have hlt := u.col_lt
  rw [rubout_eq blank u (by omega), backspace, if_neg (by omega)]
  obtain ⟨cell, row, col, hr, hc⟩ := t
  obtain ⟨cell', row', col', hr', hc'⟩ := u
  dsimp only at hrow hcol
  subst hrow hcol
  simp only [setCell, Nat.add_sub_cancel, Terminal.mk.injEq, and_self, and_true]
  funext r k
  by_cases hk : r = row' ∧ k = col
  · rw [if_pos hk, hk.1, hk.2]
    exact (hblank row' col hr hc (.inr ⟨rfl, Nat.le_refl _⟩)).symm
  · rw [if_neg hk, if_neg hk]
    exact hcell r k hk

theorem nextRow_blankAhead (h : ∀ r c, r < rows → c < cols → t.row < r → t.cell r c = blank) :
    (t.nextRow blank).BlankAhead blank := by
  intro r c hr hc hahead
  unfold nextRow at hahead ⊢
  split
  next hnext =>
    rw [dif_pos hnext] at hahead
    dsimp only at hahead
    exact h r c hr hc (by omega)
  next hlast =>
    rw [dif_neg hlast] at hahead
    dsimp only at hahead
    exact if_neg (by omega)

theorem moveTo_blankAhead {k : ℕ}
    (h : ∀ r c, r < rows → c < cols → t.row < r ∨ r = t.row ∧ k ≤ c → t.cell r c = blank) :
    (t.moveTo blank k).BlankAhead blank := by
  unfold moveTo
  split
  next => exact h
  next => exact nextRow_blankAhead fun r c hr hc hlt => h r c hr hc (.inl hlt)

theorem BlankAhead.place (h : t.BlankAhead blank) (a : α) :
    (t.place blank a).BlankAhead blank := by
  apply moveTo_blankAhead
  intro r c hr hc hahead
  change t.row < r ∨ r = t.row ∧ t.col + 1 ≤ c at hahead
  refine (if_neg ?_).trans (h r c hr hc ?_) <;> omega

theorem BlankAhead.tab (h : t.BlankAhead blank) {n : ℕ} (hn : 0 < n) :
    (t.tab blank n).BlankAhead blank := by
  have hle : t.col ≤ (t.col / n + 1) * n := by
    have := Nat.lt_div_mul_add (a := t.col) hn
    rw [Nat.add_mul, Nat.one_mul]
    exact Nat.le_of_lt this
  exact moveTo_blankAhead fun r c hr hc hahead => h r c hr hc (by omega)

end Blank

end Terminal
end Leg
