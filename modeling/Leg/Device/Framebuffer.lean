import Leg.Word
import Leg.Device.Fonts
import Leg.Lib.CountedLoop
import Leg.Lib.TextTerminal

/-! The framebuffer console of `dev/fb.c`, pixel by pixel, and the terminal whose picture it
is. An access outside the framebuffer fails. -/
namespace Leg

def fbWidth : ℕ := 800
def fbHeight : ℕ := 600
def fontW : ℕ := 8
def fontH : ℕ := 8
def fbCols : ℕ := fbWidth / fontW
def fbRows : ℕ := fbHeight / fontH

/-- The statics of `fb.c`: the address of the framebuffer, its pixels, and the cursor. -/
structure Fb where
  base : ℕ
  pixel : ℕ → ℕ
  cursorCol : ℕ
  cursorRow : ℕ

namespace Fb

/-- `fb_base[i]`. -/
def read (fb : Fb) (i : ℕ) : Option ℕ := if i < fbWidth * fbHeight then some (fb.pixel i) else none

/-- `fb_base[i] = color`. -/
def write (i color : ℕ) (fb : Fb) : Option Fb :=
  if i < fbWidth * fbHeight then some { fb with pixel := Function.update fb.pixel i color }
  else none

end Fb

def fbClear (color : ℕ) (fb : Fb) : Option Fb :=
  let total := fbWidth * fbHeight
  (forUp (fun i => Fb.write i color) 0 total fb).map fun fb =>
    { fb with cursorCol := 0, cursorRow := 0 }

/-- The colour of a pixel of a glyph's row. -/
def glyphColor (bits col fg bg : ℕ) : ℕ := if bits &&& (0x80 >>> col) ≠ 0 then fg else bg

def drawGlyph (cx cy : ℕ) (ch : UInt8) (fg bg : ℕ) : Fb → Option Fb :=
  let px := u32 (cx * fontW)
  let py := u32 (cy * fontH)
  forUp (fun row =>
    let bits := sansData.getD (ch.toNat * 8 + row) 0
    forUp (fun col =>
      Fb.write (u32 ((py + row) * fbWidth + px + col)) (glyphColor bits col fg bg)) 0 fontW) 0 fontH

def scrollUp (bg : ℕ) (fb : Fb) : Option Fb :=
  let rowPixels := fontH * fbWidth
  let total := (fbHeight - fontH) * fbWidth
  (forUp (fun i fb => (fb.read (i + rowPixels)).bind fun v => fb.write i v) 0 total fb).bind
    fun fb =>
    forUp (fun i => Fb.write i bg) total rowPixels fb

/-- The last loop of `fb_putc`. Each round lowers `cursor_row`, so as many rounds as it counts
are enough. -/
def scrollWhile (bg : ℕ) : ℕ → Fb → Option Fb
  | 0, fb => some fb
  | n + 1, fb =>
    if fbRows ≤ fb.cursorRow then
      (scrollUp bg fb).bind fun fb => scrollWhile bg n { fb with cursorRow := fb.cursorRow - 1 }
    else some fb

/-- The end of `fb_putc`: the line wraps and the screen scrolls. -/
def wrapCursor (bg : ℕ) (fb : Fb) : Option Fb :=
  let fb :=
    if fbCols ≤ fb.cursorCol then { fb with cursorCol := 0, cursorRow := u32 (fb.cursorRow + 1) }
    else fb
  scrollWhile bg fb.cursorRow fb

def fbPutc (fg bg : ℕ) (fb : Fb) (c : UInt8) : Option Fb :=
  if fb.base = 0 then some fb
  else
    let moved :=
      if c = 10 ∨ c = 13 then some { fb with cursorCol := 0, cursorRow := u32 (fb.cursorRow + 1) }
      else if c = 8 then
        if 0 < fb.cursorCol then
          let fb := { fb with cursorCol := fb.cursorCol - 1 }
          drawGlyph fb.cursorCol fb.cursorRow 32 fg bg fb
        else some fb
      else if c = 9 then some { fb with cursorCol := u32 (fb.cursorCol + 4) &&& bnot 3 }
      else
        (drawGlyph fb.cursorCol fb.cursorRow c fg bg fb).map fun fb =>
          { fb with cursorCol := u32 (fb.cursorCol + 1) }
    moved.bind (wrapCursor bg)

/-- The terminal that the console is meant to be. -/
abbrev Console := Terminal fbRows fbCols UInt8

/-- What a printed character does to the terminal. -/
def Console.print (t : Console) (c : UInt8) : Console :=
  if c = 10 ∨ c = 13 then t.nextRow 32
  else if c = 8 then t.backspace 32
  else if c = 9 then t.tab 32 4
  else t.place 32 c

/-- The pixel at `i` in the picture of a grid of characters. -/
def render (fg bg : ℕ) (cell : ℕ → ℕ → UInt8) (i : ℕ) : ℕ :=
  let y := i / fbWidth
  let x := i % fbWidth
  glyphColor (sansData.getD ((cell (y / fontH) (x / fontW)).toNat * 8 + y % fontH) 0)
    (x % fontW) fg bg

/-- The console shows the grid of the terminal, its cursor in the same row. -/
structure ShowsRow (fg bg : ℕ) (fb : Fb) (t : Console) : Prop where
  base : fb.base ≠ 0
  row : fb.cursorRow = t.row
  pixels : ∀ i < fbWidth * fbHeight, fb.pixel i = render fg bg t.cell i

/-- The console shows the terminal. -/
structure Shows (fg bg : ℕ) (fb : Fb) (t : Console) : Prop extends ShowsRow fg bg fb t where
  col : fb.cursorCol = t.col

/-- `s` is `fb` with the pixels in `S` painted. -/
structure Painted (fb : Fb) (color : ℕ → ℕ) (S : ℕ → Prop) (s : Fb) : Prop where
  base : s.base = fb.base
  col : s.cursorCol = fb.cursorCol
  row : s.cursorRow = fb.cursorRow
  inside : ∀ i, S i → s.pixel i = color i
  outside : ∀ i, ¬S i → s.pixel i = fb.pixel i

section Painting
variable {fb s : Fb} {color : ℕ → ℕ} {S : ℕ → Prop}

theorem Painted.refl (fb : Fb) (color : ℕ → ℕ) (hS : ∀ i, ¬S i) : Painted fb color S fb :=
  ⟨rfl, rfl, rfl, fun i hi => absurd hi (hS i), fun _ _ => rfl⟩

theorem Painted.congr {S' : ℕ → Prop} (h : Painted fb color S s) (hS : ∀ i, S' i ↔ S i) :
    Painted fb color S' s :=
  ⟨h.base, h.col, h.row, fun i hi => h.inside i ((hS i).mp hi),
    fun i hi => h.outside i fun hs => hi ((hS i).mpr hs)⟩

theorem Painted.write {S' : ℕ → Prop} {k v : ℕ} (h : Painted fb color S s)
    (hk : k < fbWidth * fbHeight) (hv : v = color k) (hS : ∀ i, S' i ↔ S i ∨ i = k) :
    ∃ t, s.write k v = some t ∧ Painted fb color S' t := by
  refine ⟨_, if_pos hk, h.base, h.col, h.row, ?_, ?_⟩
  · intro i hi
    dsimp only
    by_cases hik : i = k
    · rw [hik, Function.update_self, hv]
    · rw [Function.update_of_ne hik]
      exact h.inside i (((hS i).mp hi).resolve_right hik)
  · intro i hi
    have hik : i ≠ k := fun e => hi ((hS i).mpr (.inr e))
    exact (Function.update_of_ne hik _ _).trans (h.outside i fun hs => hi ((hS i).mpr (.inl hs)))

theorem fbClear_spec (fb : Fb) (color : ℕ) :
    ∃ s, fbClear color fb = some s ∧ s.base = fb.base ∧ s.cursorCol = 0 ∧ s.cursorRow = 0 ∧
      ∀ i < fbWidth * fbHeight, s.pixel i = color := by
  have hstep : ∀ i s, 0 ≤ i → i < 0 + fbWidth * fbHeight →
      Painted fb (fun _ => color) (fun j => j < i) s →
      ∃ t, s.write i color = some t ∧ Painted fb (fun _ => color) (fun j => j < i + 1) t := by
    intro i s _ hi h
    exact h.write (by omega) rfl fun j => Nat.lt_succ_iff_lt_or_eq
  obtain ⟨s, hs, hp⟩ := forUp_spec (fun i => Painted fb (fun _ => color) fun j => j < i) 0
    (fbWidth * fbHeight) hstep (Painted.refl fb _ fun i => Nat.not_lt_zero i)
  refine ⟨{ s with cursorCol := 0, cursorRow := 0 }, ?_, hp.base, rfl, rfl, ?_⟩
  · unfold fbClear
    dsimp only
    rw [hs, Option.map_some]
  · intro i hi
    exact hp.inside i (by omega)

/-- The pixels of a cell. -/
def InCell (cx cy i : ℕ) : Prop := i / fbWidth / fontH = cy ∧ i % fbWidth / fontW = cx

/-- The colour that a glyph has at a pixel of its cell. -/
def glyphPixel (ch : UInt8) (fg bg i : ℕ) : ℕ :=
  glyphColor (sansData.getD (ch.toNat * 8 + i / fbWidth % fontH) 0) (i % fbWidth % fontW) fg bg

theorem glyph_index {cx cy row col : ℕ} (hx : cx < fbCols) (hy : cy < fbRows) (hr : row < fontH)
    (hc : col < fontW) :
    u32 ((u32 (cy * fontH) + row) * fbWidth + u32 (cx * fontW) + col) =
      (cy * fontH + row) * fbWidth + (cx * fontW + col) := by
  unfold fbCols fbRows fbWidth fbHeight fontW fontH at *
  rw [u32_of_lt (by omega : cy * 8 < 4294967296), u32_of_lt (by omega : cx * 8 < 4294967296),
    Nat.add_assoc, u32_of_lt (by omega)]

theorem glyph_place {cx cy row col : ℕ} (hx : cx < fbCols) (hr : row < fontH)
    (hc : col < fontW) (i : ℕ) : i = (cy * fontH + row) * fbWidth + (cx * fontW + col) ↔
      InCell cx cy i ∧ i / fbWidth % fontH = row ∧ i % fbWidth % fontW = col := by
  unfold InCell
  unfold fbCols fbWidth fontW fontH at *
  constructor
  · intro h
    omega
  · rintro ⟨⟨h1, h2⟩, h3, h4⟩
    omega

/-- The pixels of a cell in the glyph's rows above `row`, and in `row` those to the left of
`col`. -/
def GlyphDone (cx cy row col i : ℕ) : Prop :=
  InCell cx cy i ∧
    (i / fbWidth % fontH < row ∨ i / fbWidth % fontH = row ∧ i % fbWidth % fontW < col)

theorem glyphDone_zero (cx cy row i : ℕ) :
    GlyphDone cx cy row 0 i ↔ InCell cx cy i ∧ i / fbWidth % fontH < row := by
  unfold GlyphDone InCell
  omega

theorem glyphDone_full (cx cy row i : ℕ) :
    GlyphDone cx cy row fontW i ↔ GlyphDone cx cy (row + 1) 0 i := by
  have hlt : i % fbWidth % fontW < fontW := Nat.mod_lt _ (by decide)
  unfold GlyphDone InCell
  omega

/-- One row of a glyph. -/
theorem drawGlyph_row {cx cy row : ℕ} (hx : cx < fbCols) (hy : cy < fbRows) (hr : row < fontH)
    {ch : UInt8} {fg bg : ℕ} (h : Painted fb (glyphPixel ch fg bg) (GlyphDone cx cy row 0) s) :
    ∃ t, forUp (fun col =>
        Fb.write (u32 ((u32 (cy * fontH) + row) * fbWidth + u32 (cx * fontW) + col))
          (glyphColor (sansData.getD (ch.toNat * 8 + row) 0) col fg bg)) 0 fontW s = some t ∧
      Painted fb (glyphPixel ch fg bg) (GlyphDone cx cy (row + 1) 0) t := by
  have hstep : ∀ col s, 0 ≤ col → col < 0 + fontW →
      Painted fb (glyphPixel ch fg bg) (GlyphDone cx cy row col) s →
      ∃ t, s.write (u32 ((u32 (cy * fontH) + row) * fbWidth + u32 (cx * fontW) + col))
          (glyphColor (sansData.getD (ch.toNat * 8 + row) 0) col fg bg) = some t ∧
        Painted fb (glyphPixel ch fg bg) (GlyphDone cx cy row (col + 1)) t := by
    intro col s _ hc h
    rw [Nat.zero_add] at hc
    rw [glyph_index hx hy hr hc]
    obtain ⟨hcell, hrow, hcol⟩ := (@glyph_place cx cy row col hx hr hc _).mp rfl
    apply h.write
    · unfold fbCols fbRows fbWidth fbHeight fontW fontH at *
      omega
    · rw [glyphPixel, hrow, hcol]
    · intro i
      rw [glyph_place hx hr hc]
      unfold GlyphDone InCell
      omega
  obtain ⟨t, ht, hp⟩ := forUp_spec
    (fun col => Painted fb (glyphPixel ch fg bg) (GlyphDone cx cy row col)) 0 fontW hstep h
  exact ⟨t, ht, hp.congr fun i => ((glyphDone_full cx cy row i).symm.trans (by rw [Nat.zero_add]))⟩

theorem drawGlyph_spec {cx cy : ℕ} (hx : cx < fbCols) (hy : cy < fbRows) (ch : UInt8)
    (fg bg : ℕ) (fb : Fb) :
    ∃ s, drawGlyph cx cy ch fg bg fb = some s ∧
      Painted fb (glyphPixel ch fg bg) (InCell cx cy) s := by
  have hstart : Painted fb (glyphPixel ch fg bg) (GlyphDone cx cy 0 0) fb := by
    apply Painted.refl
    intro i
    rw [glyphDone_zero]
    omega
  obtain ⟨s, hs, hp⟩ := forUp_spec
    (fun row => Painted fb (glyphPixel ch fg bg) (GlyphDone cx cy row 0)) 0 fontH
    (fun row s _ hr h => drawGlyph_row hx hy (by rwa [Nat.zero_add] at hr) h) hstart
  refine ⟨s, hs, hp.congr fun i => ?_⟩
  have hlt : i / fbWidth % fontH < 0 + fontH := by
    rw [Nat.zero_add]
    exact Nat.mod_lt _ (by decide)
  rw [glyphDone_zero]
  exact (and_iff_left hlt).symm

/-- `scroll_up` moves the picture up by a row of text and clears the last one. -/
theorem scrollUp_spec (fb : Fb) (bg : ℕ) :
    ∃ s, scrollUp bg fb = some s ∧ s.base = fb.base ∧ s.cursorCol = fb.cursorCol ∧
      s.cursorRow = fb.cursorRow ∧ ∀ i < fbWidth * fbHeight, s.pixel i =
        if i < (fbHeight - fontH) * fbWidth then fb.pixel (i + fontH * fbWidth) else bg := by
  have hbound : (fbHeight - fontH) * fbWidth + fontH * fbWidth = fbWidth * fbHeight := rfl
  unfold scrollUp
  dsimp only
  generalize (fbHeight - fontH) * fbWidth = total at hbound ⊢
  generalize fontH * fbWidth = rowPixels at hbound ⊢
  have hmove : ∀ i s, 0 ≤ i → i < 0 + total →
      Painted fb (fun j => fb.pixel (j + rowPixels)) (fun j => j < i) s →
      ∃ t, ((s.read (i + rowPixels)).bind fun v => s.write i v) = some t ∧
        Painted fb (fun j => fb.pixel (j + rowPixels)) (fun j => j < i + 1) t := by
    intro i s _ hi h
    have hread : s.read (i + rowPixels) = some (fb.pixel (i + rowPixels)) := by
      unfold Fb.read
      rw [if_pos (by omega), h.outside _ (by omega)]
    rw [hread, Option.bind_some]
    exact h.write (by omega) rfl fun j => Nat.lt_succ_iff_lt_or_eq
  obtain ⟨s, hs, hp⟩ := forUp_spec
    (fun i => Painted fb (fun j => fb.pixel (j + rowPixels)) fun j => j < i) 0 total hmove
    (Painted.refl fb _ fun i => Nat.not_lt_zero i)
  have hclear : ∀ i t, total ≤ i → i < total + rowPixels →
      Painted s (fun _ => bg) (fun j => total ≤ j ∧ j < i) t →
      ∃ u, t.write i bg = some u ∧ Painted s (fun _ => bg) (fun j => total ≤ j ∧ j < i + 1) u := by
    intro i t hlo hi h
    exact h.write (by omega) rfl fun j => by omega
  obtain ⟨t, ht, hq⟩ := forUp_spec
    (fun i => Painted s (fun _ => bg) fun j => total ≤ j ∧ j < i) total rowPixels hclear
    (Painted.refl s _ fun i hi => absurd hi.1 (Nat.not_le.mpr hi.2))
  refine ⟨t, by rw [hs, Option.bind_some, ht], hq.base.trans hp.base, hq.col.trans hp.col,
    hq.row.trans hp.row, ?_⟩
  intro i hi
  by_cases hlow : i < total
  · rw [if_pos hlow, hq.outside i fun h => absurd h.1 (Nat.not_le.mpr hlow),
      hp.inside i (by omega)]
  · rw [if_neg hlow, hq.inside i ⟨Nat.le_of_not_lt hlow, by omega⟩]

end Painting

section Console
variable {fg bg : ℕ} {fb : Fb} {t : Console}

theorem glyphPixel_space (i : ℕ) : glyphPixel 32 fg bg i = bg := by
  have hrow : sansData.getD (32 * 8 + i / fbWidth % fontH) 0 = 0 :=
    sansData_space _ (Nat.mod_lt _ (by decide))
  have hspace : (32 : UInt8).toNat = 32 := rfl
  unfold glyphPixel glyphColor
  rw [hspace, hrow, Nat.zero_and, if_neg (not_not.mpr rfl)]

theorem render_eq (cell : ℕ → ℕ → UInt8) (i : ℕ) :
    render fg bg cell i =
      glyphPixel (cell (i / fbWidth / fontH) (i % fbWidth / fontW)) fg bg i := rfl

theorem Painted.render {s : Fb} {ch : UInt8} {r c : ℕ} {cell : ℕ → ℕ → UInt8}
    (h : Painted fb (glyphPixel ch fg bg) (InCell c r) s)
    (hfb : ∀ i < fbWidth * fbHeight, fb.pixel i = render fg bg cell i) :
    ∀ i < fbWidth * fbHeight,
      s.pixel i = render fg bg (fun y x => if y = r ∧ x = c then ch else cell y x) i := by
  intro i hi
  rw [render_eq]
  by_cases hin : InCell c r i
  · have hcell : i / fbWidth / fontH = r ∧ i % fbWidth / fontW = c := hin
    rw [h.inside i hin, if_pos hcell]
  · have hcell : ¬(i / fbWidth / fontH = r ∧ i % fbWidth / fontW = c) := hin
    rw [h.outside i hin, if_neg hcell, hfb i hi, render_eq]

theorem scrollWhile_of_lt (bg n : ℕ) {fb : Fb} (h : fb.cursorRow < fbRows) :
    scrollWhile bg n fb = some fb := by
  cases n with
  | zero => rfl
  | succ n => rw [scrollWhile, if_neg (Nat.not_le.mpr h)]

/-- The picture of a scrolled grid. -/
theorem render_scrolled (cell : ℕ → ℕ → UInt8) {i : ℕ} (hi : i < fbWidth * fbHeight) :
    render fg bg (Terminal.scrolled fbRows 32 cell) i =
      if i < (fbHeight - fontH) * fbWidth then render fg bg cell (i + fontH * fbWidth) else bg := by
  have hrow : i / fbWidth / fontH + 1 < fbRows ↔ i < (fbHeight - fontH) * fbWidth := by
    unfold fbRows fbWidth fbHeight fontH at *
    omega
  rw [render_eq, Terminal.scrolled]
  by_cases hlow : i < (fbHeight - fontH) * fbWidth
  · have hy : (i + fontH * fbWidth) / fbWidth / fontH = i / fbWidth / fontH + 1 := by
      unfold fbWidth fontH
      omega
    have hx : (i + fontH * fbWidth) % fbWidth = i % fbWidth := by
      unfold fbWidth fontH
      omega
    have hglyph : (i + fontH * fbWidth) / fbWidth % fontH = i / fbWidth % fontH := by
      unfold fbWidth fontH
      omega
    rw [if_pos (hrow.mpr hlow), if_pos hlow, render_eq]
    unfold glyphPixel
    rw [hy, hx, hglyph]
  · rw [if_neg fun h => hlow (hrow.mp h), if_neg hlow]
    exact glyphPixel_space i

/-- The start of the next row, with the loop that scrolls. -/
theorem ShowsRow.nextRow (h : ShowsRow fg bg fb t) :
    ∃ s, scrollWhile bg (u32 (fb.cursorRow + 1))
        { fb with cursorCol := 0, cursorRow := u32 (fb.cursorRow + 1) } = some s ∧
      Shows fg bg s (t.nextRow 32) := by
  have hrow := t.row_lt
  have hsmall : u32 (fb.cursorRow + 1) = t.row + 1 := by
    rw [h.row]
    exact u32_of_lt (by unfold fbRows fbHeight fontH at hrow; omega)
  rw [hsmall]
  unfold Terminal.nextRow
  by_cases hnext : t.row + 1 < fbRows
  · rw [dif_pos hnext]
    exact ⟨_, scrollWhile_of_lt bg _ hnext, ⟨h.base, rfl, h.pixels⟩, rfl⟩
  · rw [dif_neg hnext, scrollWhile, if_pos (Nat.le_of_not_lt hnext)]
    obtain ⟨s, hs, hbase, hcol, hrow', hpix⟩ :=
      scrollUp_spec { fb with cursorCol := 0, cursorRow := t.row + 1 } bg
    have hback : s.cursorRow - 1 = t.row := by rw [hrow', Nat.add_sub_cancel]
    rw [hs, Option.bind_some, hback]
    refine ⟨_, scrollWhile_of_lt bg _ hrow, ⟨fun h0 => h.base (hbase.symm.trans h0), rfl, ?_⟩, hcol⟩
    intro i hi
    dsimp only at hpix ⊢
    rw [render_scrolled t.cell hi, hpix i hi]
    split
    next hlow =>
      apply h.pixels
      unfold fbWidth fbHeight fontH at *
      omega
    next => rfl

theorem ShowsRow.wrapCursor (h : ShowsRow fg bg fb t) :
    ∃ s, wrapCursor bg fb = some s ∧ Shows fg bg s (t.moveTo 32 fb.cursorCol) := by
  unfold Leg.wrapCursor Terminal.moveTo
  dsimp only
  by_cases hk : fb.cursorCol < fbCols
  · have hrow : fb.cursorRow < fbRows := h.row ▸ t.row_lt
    rw [if_neg (Nat.not_le.mpr hk), dif_pos hk]
    exact ⟨_, scrollWhile_of_lt bg _ hrow, ⟨h.base, h.row, h.pixels⟩, rfl⟩
  · rw [if_pos (Nat.le_of_not_lt hk), dif_neg hk]
    exact h.nextRow

theorem ShowsRow.draw (h : ShowsRow fg bg fb t) {c : ℕ} (hc : c < fbCols) (ch : UInt8) :
    ∃ s, drawGlyph c fb.cursorRow ch fg bg fb = some s ∧ s.cursorCol = fb.cursorCol ∧
      ShowsRow fg bg s (t.setCell c ch) := by
  have hrow : fb.cursorRow < fbRows := h.row ▸ t.row_lt
  obtain ⟨s, hs, hp⟩ := drawGlyph_spec hc hrow ch fg bg fb
  refine ⟨s, hs, hp.col, fun h0 => h.base (hp.base.symm.trans h0), hp.row.trans h.row, ?_⟩
  rw [h.row] at hp
  exact hp.render h.pixels

/-- A printed character does to the console what it does to the terminal, and every access is
inside the framebuffer. -/
theorem fbPutc_shows (h : Shows fg bg fb t) (c : UInt8) :
    ∃ s, fbPutc fg bg fb c = some s ∧ Shows fg bg s (t.print c) := by
  have hcol := t.col_lt
  have hc := h.col
  have hsmall (n : ℕ) (hn : n ≤ t.col + 4) : u32 n = n :=
    u32_of_lt (by unfold fbCols fbWidth fontW at hcol; omega)
  have hbase := h.base
  unfold fbPutc Console.print
  rw [if_neg hbase]
  dsimp only
  by_cases hnl : c = 10 ∨ c = 13
  · rw [if_pos hnl, if_pos hnl, Option.bind_some]
    exact h.toShowsRow.nextRow
  rw [if_neg hnl, if_neg hnl]
  by_cases hbs : c = 8
  · rw [if_pos hbs, if_pos hbs]
    unfold Terminal.backspace
    by_cases h0 : t.col = 0
    · rw [if_neg (by omega), if_pos h0, Option.bind_some]
      have hstay := h.toShowsRow.wrapCursor
      rwa [hc, Terminal.moveTo_of_lt 32 t hcol] at hstay
    · have hleft : t.col - 1 < fbCols := by omega
      have hrow : ShowsRow fg bg { fb with cursorCol := fb.cursorCol - 1 } t :=
        ⟨hbase, h.row, h.pixels⟩
      obtain ⟨s, hs, hk, hshow⟩ := hrow.draw hleft 32
      have hback := hshow.wrapCursor
      rw [if_pos (by omega), if_neg h0, hc]
      rw [hc] at hs hk
      rw [hk, Terminal.moveTo_of_lt 32 _ hleft] at hback
      rwa [hs, Option.bind_some]
  rw [if_neg hbs, if_neg hbs]
  by_cases htab : c = 9
  · rw [if_pos htab, if_pos htab, Option.bind_some]
    have hstop : u32 (fb.cursorCol + 4) &&& bnot 3 = (t.col / 4 + 1) * 4 := by
      rw [hc, hsmall _ (le_refl _)]
      have hmask := @land_bnot_two_pow (t.col + 4) 2
        (by unfold fbCols fbWidth fontW at hcol; omega) (by decide)
      rw [show 3 = 2 ^ 2 - 1 from rfl, hmask]
      omega
    rw [hstop]
    have hrow : ShowsRow fg bg { fb with cursorCol := (t.col / 4 + 1) * 4 } t :=
      ⟨hbase, h.row, h.pixels⟩
    exact hrow.wrapCursor
  rw [if_neg htab, if_neg htab]
  obtain ⟨s, hs, hk, hshow⟩ := h.toShowsRow.draw hcol c
  have hnext : ShowsRow fg bg { s with cursorCol := t.col + 1 } (t.setCell t.col c) :=
    ⟨hshow.base, hshow.row, hshow.pixels⟩
  rw [← hc] at hs
  rw [hs, Option.map_some, Option.bind_some, hk, hc, hsmall _ (by omega)]
  exact hnext.wrapCursor

/-- `fb_print`, or any sequence of calls of `fb_putc` with the same colours. -/
def fbPutcs (fg bg : ℕ) : List UInt8 → Fb → Option Fb
  | [], fb => some fb
  | c :: cs, fb => (fbPutc fg bg fb c).bind (fbPutcs fg bg cs)

theorem fbPutcs_shows (h : Shows fg bg fb t) (cs : List UInt8) :
    ∃ s, fbPutcs fg bg cs fb = some s ∧ Shows fg bg s (cs.foldl Console.print t) := by
  induction cs generalizing fb t with
  | nil => exact ⟨fb, rfl, h⟩
  | cons c cs ih =>
    obtain ⟨s, hs, hshow⟩ := fbPutc_shows h c
    obtain ⟨u, hu, hfinal⟩ := ih hshow
    refine ⟨u, ?_, hfinal⟩
    rw [fbPutcs, hs]
    exact hu

theorem fbClear_shows (fg : ℕ) (h : fb.base ≠ 0) : ∃ s, fbClear bg fb = some s ∧
    Shows fg bg s (Terminal.clear 32 (by decide) (by decide)) := by
  obtain ⟨s, hs, hbase, hcol, hrow, hpix⟩ := fbClear_spec fb bg
  refine ⟨s, hs, ⟨fun h0 => h (hbase.symm.trans h0), hrow, ?_⟩, hcol⟩
  intro i hi
  rw [hpix i hi, render_eq]
  exact (glyphPixel_space i).symm

/-- After `fb_clear`, whatever is printed, no access leaves the framebuffer, the cursor is
inside the screen, and the screen shows what the terminal holds. -/
theorem fb_console_refines (fg bg : ℕ) (fb : Fb) (h : fb.base ≠ 0) (cs : List UInt8) :
    ∃ t : Console, t = cs.foldl Console.print (Terminal.clear 32 (by decide) (by decide)) ∧
      ∃ s, (fbClear bg fb).bind (fbPutcs fg bg cs) = some s ∧
        s.cursorCol < fbCols ∧ s.cursorRow < fbRows ∧ s.cursorCol = t.col ∧ s.cursorRow = t.row ∧
        ∀ i < fbWidth * fbHeight, s.pixel i = render fg bg t.cell i := by
  obtain ⟨s₀, hclear, hshow⟩ := fbClear_shows fg h
  obtain ⟨s, hs, hfinal⟩ := fbPutcs_shows hshow cs
  refine ⟨_, rfl, s, ?_, hfinal.col ▸ Terminal.col_lt _, hfinal.row ▸ Terminal.row_lt _,
    hfinal.col, hfinal.row, hfinal.pixels⟩
  rw [hclear]
  exact hs

/-- Two letters, one erased, then a tab, a new line and a mark. -/
theorem fb_console_hello :
    ∃ s, (fbClear 0x333333 ⟨0x40500000, fun _ => 7, 3, 9⟩).bind
        (fbPutcs 0xFFFFFF 0x333333 [72, 105, 8, 9, 10, 33]) = some s ∧
      s.cursorCol = 1 ∧ s.cursorRow = 1 := by
  obtain ⟨t, rfl, s, hs, -, -, hcol, hrow, -⟩ := fb_console_refines 0xFFFFFF 0x333333
    ⟨0x40500000, fun _ => 7, 3, 9⟩ (by decide) [72, 105, 8, 9, 10, 33]
  exact ⟨s, hs, hcol, hrow⟩

end Console

end Leg
