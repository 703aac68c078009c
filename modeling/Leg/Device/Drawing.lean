import Leg.Device.Framebuffer

/-! All the calls of `dev/fb.c` together: pixels, rectangles and glyphs anywhere on the screen, and
the console with its own colours for each character. The screen is a terminal whose cells are
little pictures. -/
namespace Leg
open Terminal

section Model

def fbPutpixel (x y color : ℕ) (fb : Fb) : Option Fb :=
  if x < fbWidth ∧ y < fbHeight then fb.write (u32 (y * fbWidth + x)) color else some fb

/-- The inner loop of `fb_fill_rect`, from `col` on. It ends in column `FB_WIDTH`, so as many rounds
are enough. -/
def fillCols (row right color : ℕ) : (n col : ℕ) → Fb → Option Fb
  | 0, _, fb => some fb
  | n + 1, col, fb =>
    if col < right ∧ col < fbWidth then
      (fb.write (u32 (row * fbWidth + col)) color).bind (fillCols row right color n (col + 1))
    else some fb

/-- The outer loop, which ends in row `FB_HEIGHT`. -/
def fillRows (x right bottom color : ℕ) : (n row : ℕ) → Fb → Option Fb
  | 0, _, fb => some fb
  | n + 1, row, fb =>
    if row < bottom ∧ row < fbHeight then
      (fillCols row right color fbWidth x fb).bind (fillRows x right bottom color n (row + 1))
    else some fb

def fbFillRect (x y w h color : ℕ) : Fb → Option Fb :=
  fillRows x (u32 (x + w)) (u32 (y + h)) color fbHeight y

def fbPutcAt (col row : ℕ) (c : UInt8) (fg bg : ℕ) (fb : Fb) : Option Fb :=
  if col < fbCols ∧ row < fbRows then drawGlyph col row c fg bg fb else some fb

end Model

/-- A call of the driver. -/
inductive DrawCall where
  | clear (color : ℕ)
  | putpixel (x y : UInt32) (color : ℕ)
  | fillRect (x y w h : UInt32) (color : ℕ)
  | putcAt (col row : UInt32) (c : UInt8) (fg bg : ℕ)
  | putc (c : UInt8) (fg bg : ℕ)
  | print (cs : List UInt8) (fg bg : ℕ)

def DrawCall.run : DrawCall → Fb → Option Fb
  | clear color => fbClear color
  | putpixel x y color => fbPutpixel x.toNat y.toNat color
  | fillRect x y w h color => fbFillRect x.toNat y.toNat w.toNat h.toNat color
  | putcAt col row c fg bg => fbPutcAt col.toNat row.toNat c fg bg
  | putc c fg bg => fun fb => fbPutc fg bg fb c
  | print cs fg bg => fbPutcs fg bg cs

/-- The calls one after the other. -/
def drawAll : List DrawCall → Fb → Option Fb
  | [], fb => some fb
  | call :: calls, fb => (call.run fb).bind (drawAll calls)

/-- The colours of a cell by the row and the column in it. -/
abbrev Tile : Type := ℕ → ℕ → ℕ

/-- A terminal of pictures. -/
abbrev Display : Type := Terminal fbRows fbCols Tile

/-- A cell of one colour. -/
def plain (color : ℕ) : Tile := fun _ _ => color

/-- The picture of a character. -/
def glyphTile (c : UInt8) (fg bg : ℕ) : Tile :=
  fun y x => glyphColor (sansData.getD (c.toNat * 8 + y) 0) x fg bg

namespace Display

/-- The colour in row `y`, column `x` of the screen. -/
def pixel (t : Display) (y x : ℕ) : ℕ := t.cell (y / fontH) (x / fontW) (y % fontH) (x % fontW)

/-- Change the colours in a set of pixels. -/
def paint (S : ℕ → ℕ → Prop) [∀ y x, Decidable (S y x)] (color : ℕ) (t : Display) : Display :=
  { t with
    cell := fun r c y x => if S (r * fontH + y) (c * fontW + x) then color else t.cell r c y x }

def putc (fg bg : ℕ) (t : Display) (c : UInt8) : Display :=
  if c = 10 ∨ c = 13 then t.nextRow (plain bg)
  else if c = 8 then t.backspace (plain bg)
  else if c = 9 then t.tab (plain bg) 4
  else t.place (plain bg) (glyphTile c fg bg)

/-- What a call does to the screen. A rectangle is clipped; one whose right or lower edge lies
beyond the 32-bit numbers is empty. -/
def draw (t : Display) : DrawCall → Display
  | .clear color => clear (plain color) (by decide) (by decide)
  | .putpixel x₀ y₀ color => t.paint (fun y x => y = y₀.toNat ∧ x = x₀.toNat) color
  | .fillRect x₀ y₀ w h color =>
    t.paint (fun y x => (x₀.toNat ≤ x ∧ x < x₀.toNat + w.toNat ∧ y₀.toNat ≤ y ∧
      y < y₀.toNat + h.toNat) ∧ x₀.toNat + w.toNat < 4294967296 ∧
        y₀.toNat + h.toNat < 4294967296) color
  | .putcAt col row c fg bg =>
    { t with
      cell := fun r k =>
        if r = row.toNat ∧ k = col.toNat then glyphTile c fg bg else t.cell r k }
  | .putc c fg bg => t.putc fg bg c
  | .print cs fg bg => cs.foldl (putc fg bg) t

end Display

/-- The framebuffer holds the screen, its cursor in the same row. -/
structure DisplaysRow (fb : Fb) (t : Display) : Prop where
  base : fb.base ≠ 0
  row : fb.cursorRow = t.row
  pixels : ∀ i < fbWidth * fbHeight, fb.pixel i = t.pixel (i / fbWidth) (i % fbWidth)

/-- The framebuffer holds the screen. -/
structure Displays (fb : Fb) (t : Display) : Prop extends DisplaysRow fb t where
  col : fb.cursorCol = t.col

section Painting
variable {fb s u : Fb} {color : ℕ → ℕ} {S T : ℕ → Prop}

theorem Painted.trans (h : Painted fb color S s) (h' : Painted s color T u) :
    Painted fb color (fun i => S i ∨ T i) u := by
  refine ⟨h'.base.trans h.base, h'.col.trans h.col, h'.row.trans h.row, fun i hi => ?_,
    fun i hi => ?_⟩
  · by_cases hT : T i
    · exact h'.inside i hT
    · rw [h'.outside i hT]
      exact h.inside i (hi.resolve_right hT)
  · rw [h'.outside i fun hT => hi (.inr hT)]
    exact h.outside i fun hS => hi (.inl hS)

theorem Painted.none (fb : Fb) (color : ℕ → ℕ) : Painted fb color (fun _ => False) fb :=
  .refl fb color fun _ h => h

theorem Painted.single (fb : Fb) {k : ℕ} (hk : k < fbWidth * fbHeight) (v : ℕ) :
    ∃ t, fb.write k v = some t ∧ Painted fb (fun _ => v) (fun i => i = k) t := by
  exact (Painted.none fb _).write hk rfl fun i => by rw [false_or]

/-- The columns of a row from `col` to `right`. -/
theorem fillCols_spec {row : ℕ} (hrow : row < fbHeight) (right v : ℕ) (n col : ℕ) (fb : Fb)
    (hn : fbWidth ≤ col + n) : ∃ t, fillCols row right v n col fb = some t ∧
      Painted fb (fun _ => v)
        (fun i => i / fbWidth = row ∧ col ≤ i % fbWidth ∧ i % fbWidth < right) t := by
  have hwidth (i : ℕ) : i % fbWidth < fbWidth := Nat.mod_lt _ (by decide)
  induction n generalizing col fb with
  | zero =>
    refine ⟨fb, rfl, .refl fb _ fun i hi => ?_⟩
    have := hwidth i
    omega
  | succ n ih =>
    unfold fillCols
    split
    next hin =>
      have hk : row * fbWidth + col < fbWidth * fbHeight := by
        unfold fbWidth fbHeight at *
        omega
      rw [u32_of_lt (by unfold fbWidth fbHeight at *; omega)]
      obtain ⟨s, hs, hone⟩ := Painted.single fb hk v
      obtain ⟨t, ht, hrest⟩ := ih (col + 1) s (by omega)
      rw [hs]
      refine ⟨t, ht, (hone.trans hrest).congr fun i => ?_⟩
      unfold fbWidth at *
      omega
    next hout =>
      refine ⟨fb, rfl, .refl fb _ fun i hi => ?_⟩
      have := hwidth i
      omega

theorem fillRows_spec (x right bottom v : ℕ) (n row : ℕ) (fb : Fb) (hn : fbHeight ≤ row + n) :
    ∃ t, fillRows x right bottom v n row fb = some t ∧
      Painted fb (fun _ => v) (fun i => (row ≤ i / fbWidth ∧ i / fbWidth < bottom ∧
        i / fbWidth < fbHeight) ∧ x ≤ i % fbWidth ∧ i % fbWidth < right) t := by
  induction n generalizing row fb with
  | zero =>
    refine ⟨fb, rfl, .refl fb _ fun i hi => ?_⟩
    omega
  | succ n ih =>
    unfold fillRows
    split
    next hin =>
      obtain ⟨s, hs, hone⟩ := fillCols_spec hin.2 right v fbWidth x fb (Nat.le_add_left _ _)
      obtain ⟨t, ht, hrest⟩ := ih (row + 1) s (by omega)
      rw [hs]
      refine ⟨t, ht, (hone.trans hrest).congr fun i => ?_⟩
      omega
    next hout =>
      refine ⟨fb, rfl, .refl fb _ fun i hi => ?_⟩
      omega

end Painting

section Refines
variable {fb s : Fb} {t : Display}

@[simp] theorem Display.paint_pixel (t : Display) (S : ℕ → ℕ → Prop) [∀ y x, Decidable (S y x)]
    (color y x : ℕ) : (t.paint S color).pixel y x = if S y x then color else t.pixel y x := by
  have hy : y / fontH * fontH + y % fontH = y := Nat.div_add_mod' y fontH
  have hx : x / fontW * fontW + x % fontW = x := Nat.div_add_mod' x fontW
  unfold Display.pixel Display.paint
  dsimp only
  rw [hy, hx]

theorem Displays.paint (h : Displays fb t) {S : ℕ → ℕ → Prop} [∀ y x, Decidable (S y x)] {v : ℕ}
    {P : ℕ → Prop} (hp : Painted fb (fun _ => v) P s)
    (hS : ∀ i < fbWidth * fbHeight, P i ↔ S (i / fbWidth) (i % fbWidth)) :
    Displays s (t.paint S v) := by
  refine ⟨⟨fun h0 => h.base (hp.base.symm.trans h0), hp.row.trans h.row, fun i hi => ?_⟩,
    hp.col.trans h.col⟩
  rw [Display.paint_pixel]
  by_cases hin : P i
  · rw [if_pos ((hS i hi).mp hin), hp.inside i hin]
  · rw [if_neg fun hs => hin ((hS i hi).mpr hs), hp.outside i hin, h.pixels i hi]

theorem DisplaysRow.glyph (h : DisplaysRow fb t) {col row : ℕ} (hc : col < fbCols)
    (hr : row < fbRows) (c : UInt8) (fg bg : ℕ) :
    ∃ s, drawGlyph col row c fg bg fb = some s ∧ s.cursorCol = fb.cursorCol ∧
      DisplaysRow s { t with
        cell := fun r k => if r = row ∧ k = col then glyphTile c fg bg else t.cell r k } := by
  obtain ⟨s, hs, hp⟩ := drawGlyph_spec hc hr c fg bg fb
  refine ⟨s, hs, hp.col, fun h0 => h.base (hp.base.symm.trans h0), hp.row.trans h.row,
    fun i hi => ?_⟩
  unfold Display.pixel
  dsimp only
  by_cases hin : InCell col row i
  · rw [if_pos ⟨hin.1, hin.2⟩, hp.inside i hin]
    rfl
  · rw [if_neg fun hs => hin ⟨hs.1, hs.2⟩, hp.outside i hin, h.pixels i hi]
    rfl

/-- The start of the next row, with the loop that scrolls. -/
theorem DisplaysRow.nextRow (h : DisplaysRow fb t) (bg : ℕ) :
    ∃ s, scrollWhile bg (u32 (fb.cursorRow + 1))
        { fb with cursorCol := 0, cursorRow := u32 (fb.cursorRow + 1) } = some s ∧
      Displays s (t.nextRow (plain bg)) := by
  have hrow := t.row_lt
  have hsmall : u32 (fb.cursorRow + 1) = t.row + 1 := by
    rw [h.row]
    exact u32_of_lt (by unfold fbRows fbHeight fontH at hrow; omega)
  rw [hsmall]
  unfold Terminal.nextRow
  by_cases hnext : t.row + 1 < fbRows
  · rw [dif_pos hnext]
    exact ⟨_, scrollWhile_of_lt bg _ hnext, ⟨h.base, rfl, h.pixels⟩, rfl⟩
  · rw [dif_neg hnext, scrollWhile, if_pos (Nat.le_of_not_lt hnext)]
    obtain ⟨s, hs, hbase, hcol, hrow', hpix⟩ :=
      scrollUp_spec { fb with cursorCol := 0, cursorRow := t.row + 1 } bg
    have hback : s.cursorRow - 1 = t.row := by rw [hrow', Nat.add_sub_cancel]
    rw [hs, Option.bind_some, hback]
    refine ⟨_, scrollWhile_of_lt bg _ hrow, ⟨fun h0 => h.base (hbase.symm.trans h0), rfl, ?_⟩, hcol⟩
    intro i hi
    dsimp only at hpix ⊢
    unfold Display.pixel scrolled
    dsimp only
    rw [hpix i hi]
    by_cases hlow : i < (fbHeight - fontH) * fbWidth
    · have hmoved := h.pixels (i + fontH * fbWidth)
        (by unfold fbWidth fbHeight fontH at *; omega)
      have hy : (i + fontH * fbWidth) / fbWidth = i / fbWidth + fontH :=
        Nat.add_mul_div_right _ _ (by decide)
      have hx : (i + fontH * fbWidth) % fbWidth = i % fbWidth := Nat.add_mul_mod_self_right _ _ _
      unfold Display.pixel at hmoved
      rw [hy, hx, Nat.add_div_right _ (by decide : 0 < fontH), Nat.add_mod_right] at hmoved
      rw [if_pos hlow, if_pos (by unfold fbRows fbWidth fbHeight fontH at *; omega), hmoved]
    · rw [if_neg hlow, if_neg (by unfold fbRows fbWidth fbHeight fontH at *; omega)]
      rfl

theorem DisplaysRow.wrapCursor (h : DisplaysRow fb t) (bg : ℕ) :
    ∃ s, wrapCursor bg fb = some s ∧ Displays s (t.moveTo (plain bg) fb.cursorCol) := by
  unfold Leg.wrapCursor Terminal.moveTo
  dsimp only
  by_cases hk : fb.cursorCol < fbCols
  · have hrow : fb.cursorRow < fbRows := h.row ▸ t.row_lt
    rw [if_neg (Nat.not_le.mpr hk), dif_pos hk]
    exact ⟨_, scrollWhile_of_lt bg _ hrow, ⟨h.base, h.row, h.pixels⟩, rfl⟩
  · rw [if_pos (Nat.le_of_not_lt hk), dif_neg hk]
    exact h.nextRow bg

theorem glyphTile_space (fg bg y x : ℕ) (hy : y < 8) : glyphTile 32 fg bg y x = bg := by
  have hspace : (32 : UInt8).toNat = 32 := rfl
  unfold glyphTile glyphColor
  rw [hspace, sansData_space y hy, Nat.zero_and, if_neg (not_not.mpr rfl)]

/-- A printed character does to the framebuffer what it does to the screen. -/
theorem fbPutc_displays (h : Displays fb t) (c : UInt8) (fg bg : ℕ) :
    ∃ s, fbPutc fg bg fb c = some s ∧ Displays s (t.putc fg bg c) := by
  have hcol := t.col_lt
  have hrow : fb.cursorRow < fbRows := h.row ▸ t.row_lt
  have hc := h.col
  have hsmall (n : ℕ) (hn : n ≤ t.col + 4) : u32 n = n :=
    u32_of_lt (by unfold fbCols fbWidth fontW at hcol; omega)
  have hbase := h.base
  unfold fbPutc Display.putc
  rw [if_neg hbase]
  dsimp only
  by_cases hnl : c = 10 ∨ c = 13
  · rw [if_pos hnl, if_pos hnl, Option.bind_some]
    exact h.toDisplaysRow.nextRow bg
  rw [if_neg hnl, if_neg hnl]
  by_cases hbs : c = 8
  · rw [if_pos hbs, if_pos hbs]
    unfold Terminal.backspace
    by_cases h0 : t.col = 0
    · rw [if_neg (by omega), if_pos h0, Option.bind_some]
      have hstay := h.toDisplaysRow.wrapCursor bg
      rwa [hc, moveTo_of_lt (plain bg) t hcol] at hstay
    · have hleft : t.col - 1 < fbCols := by omega
      have hback : DisplaysRow { fb with cursorCol := fb.cursorCol - 1 } t :=
        ⟨hbase, h.row, h.pixels⟩
      obtain ⟨s, hs, hk, hshow⟩ := hback.glyph hleft hrow 32 fg bg
      rw [if_pos (by omega), if_neg h0, hc]
      rw [hc] at hs hk
      -- the glyph of the space is the cell that the terminal leaves blank
      have hblank : DisplaysRow s (t.setCell (t.col - 1) (plain bg)) := by
        refine ⟨hshow.base, hshow.row, fun i hi => (hshow.pixels i hi).trans ?_⟩
        unfold Display.pixel setCell
        dsimp only
        rw [h.row]
        split
        next => exact glyphTile_space fg bg _ _ (Nat.mod_lt _ (by decide))
        next => rfl
      have hwrap := hblank.wrapCursor bg
      rw [hk, moveTo_of_lt (plain bg) _ hleft] at hwrap
      rwa [hs, Option.bind_some]
  rw [if_neg hbs, if_neg hbs]
  by_cases htab : c = 9
  · rw [if_pos htab, if_pos htab, Option.bind_some]
    have hstop : u32 (fb.cursorCol + 4) &&& bnot 3 = (t.col / 4 + 1) * 4 := by
      rw [hc, hsmall _ (le_refl _)]
      have hmask := @land_bnot_two_pow (t.col + 4) 2
        (by unfold fbCols fbWidth fontW at hcol; omega) (by decide)
      rw [show 3 = 2 ^ 2 - 1 from rfl, hmask]
      omega
    rw [hstop]
    have hmoved : DisplaysRow { fb with cursorCol := (t.col / 4 + 1) * 4 } t :=
      ⟨hbase, h.row, h.pixels⟩
    exact hmoved.wrapCursor bg
  rw [if_neg htab, if_neg htab]
  obtain ⟨s, hs, hk, hshow⟩ := h.toDisplaysRow.glyph hcol hrow c fg bg
  have hnext : DisplaysRow { s with cursorCol := t.col + 1 }
      (t.setCell t.col (glyphTile c fg bg)) := by
    refine ⟨hshow.base, hshow.row, fun i hi => (hshow.pixels i hi).trans ?_⟩
    rw [h.row]
    rfl
  rw [← hc] at hs
  rw [hs, Option.map_some, Option.bind_some, hk, hc, hsmall _ (by omega)]
  exact hnext.wrapCursor bg

theorem fbPutcs_displays (h : Displays fb t) (cs : List UInt8) (fg bg : ℕ) :
    ∃ s, fbPutcs fg bg cs fb = some s ∧ Displays s (cs.foldl (Display.putc fg bg) t) := by
  induction cs generalizing fb t with
  | nil => exact ⟨fb, rfl, h⟩
  | cons c cs ih =>
    obtain ⟨s, hs, hshow⟩ := fbPutc_displays h c fg bg
    obtain ⟨u, hu, hfinal⟩ := ih hshow
    refine ⟨u, ?_, hfinal⟩
    rw [fbPutcs, hs]
    exact hu

/-- Every call does to the framebuffer what it does to the screen, and every access is inside. -/
theorem DrawCall.displays (h : Displays fb t) (call : DrawCall) :
    ∃ s, call.run fb = some s ∧ Displays s (t.draw call) := by
  have hsize : fbWidth * fbHeight < 4294967296 := by decide
  cases call with
  | clear color =>
    obtain ⟨s, hs, hbase, hcol, hrow, hpix⟩ := fbClear_spec fb color
    exact ⟨s, hs, ⟨fun h0 => h.base (hbase.symm.trans h0), hrow, hpix⟩, hcol⟩
  | putpixel x y color =>
    change ∃ s, fbPutpixel x.toNat y.toNat color fb = some s ∧ _
    unfold fbPutpixel
    split
    next hin =>
      have hk : y.toNat * fbWidth + x.toNat < fbWidth * fbHeight := by
        unfold fbWidth fbHeight at *
        omega
      obtain ⟨s, hs, hp⟩ := Painted.single fb hk color
      rw [u32_of_lt (by omega)]
      refine ⟨s, hs, h.paint (S := fun y' x' => y' = y.toNat ∧ x' = x.toNat) hp fun i hi => ?_⟩
      unfold fbWidth fbHeight at *
      omega
    next hout =>
      refine ⟨fb, rfl, h.paint (S := fun y' x' => y' = y.toNat ∧ x' = x.toNat)
        (.none fb _) fun i hi => iff_of_false id ?_⟩
      rintro ⟨hy, hx⟩
      apply hout
      rw [← hy, ← hx]
      exact ⟨Nat.mod_lt i (by decide), Nat.div_lt_of_lt_mul hi⟩
  | fillRect x y w h' color =>
    have hx := x.toNat_lt
    have hy := y.toNat_lt
    have hw := w.toNat_lt
    have hh := h'.toNat_lt
    obtain ⟨s, hs, hp⟩ := fillRows_spec x.toNat (u32 (x.toNat + w.toNat))
      (u32 (y.toNat + h'.toNat)) color fbHeight y.toNat fb (Nat.le_add_left _ _)
    refine ⟨s, hs, h.paint (S := fun y' x' => (x.toNat ≤ x' ∧ x' < x.toNat + w.toNat ∧
      y.toNat ≤ y' ∧ y' < y.toNat + h'.toNat) ∧ x.toNat + w.toNat < 4294967296 ∧
        y.toNat + h'.toNat < 4294967296) hp fun i hi => ?_⟩
    have hrow : i / fbWidth < fbHeight := Nat.div_lt_of_lt_mul hi
    unfold u32
    omega
  | putcAt col row c fg bg =>
    change ∃ s, fbPutcAt col.toNat row.toNat c fg bg fb = some s ∧ _
    unfold fbPutcAt
    split
    next hin =>
      obtain ⟨s, hs, hk, hshow⟩ := h.toDisplaysRow.glyph hin.1 hin.2 c fg bg
      exact ⟨s, hs, hshow, hk.trans h.col⟩
    next hout =>
      refine ⟨fb, rfl, ⟨h.base, h.row, fun i hi => (h.pixels i hi).trans ?_⟩, h.col⟩
      unfold Display.pixel Display.draw
      dsimp only
      rw [if_neg]
      unfold fbCols fbRows fbWidth fbHeight fontW fontH at *
      omega
  | putc c fg bg => exact fbPutc_displays h c fg bg
  | print cs fg bg => exact fbPutcs_displays h cs fg bg

theorem drawAll_displays (h : Displays fb t) (calls : List DrawCall) :
    ∃ s, drawAll calls fb = some s ∧ Displays s (calls.foldl Display.draw t) := by
  induction calls generalizing fb t with
  | nil => exact ⟨fb, rfl, h⟩
  | cons call calls ih =>
    obtain ⟨s, hs, hshow⟩ := call.displays h
    obtain ⟨u, hu, hfinal⟩ := ih hshow
    refine ⟨u, ?_, hfinal⟩
    rw [drawAll, hs]
    exact hu

end Refines

/-- The screen of a framebuffer with its cursor inside. -/
def displayed (fb : Fb) (hc : fb.cursorCol < fbCols) (hr : fb.cursorRow < fbRows) : Display where
  cell r c y x := fb.pixel ((r * fontH + y) * fbWidth + (c * fontW + x))
  row := fb.cursorRow
  col := fb.cursorCol
  row_lt := hr
  col_lt := hc

/-- Whatever calls are made with whatever arguments, no access leaves the framebuffer, the cursor
stays inside the screen, and each pixel has the colour that the calls give it on the screen. -/
theorem draw_calls_refine (fb : Fb) (hbase : fb.base ≠ 0) (hc : fb.cursorCol < fbCols)
    (hr : fb.cursorRow < fbRows) (calls : List DrawCall) :
    ∃ s, drawAll calls fb = some s ∧
      let t := calls.foldl Display.draw (displayed fb hc hr)
      s.cursorCol = t.col ∧ s.cursorRow = t.row ∧
        ∀ y < fbHeight, ∀ x < fbWidth, s.pixel (y * fbWidth + x) = t.pixel y x := by
  have hstart : Displays fb (displayed fb hc hr) := by
    refine ⟨⟨hbase, rfl, fun i _ => ?_⟩, rfl⟩
    unfold Display.pixel displayed
    dsimp only
    rw [Nat.div_add_mod', Nat.div_add_mod', Nat.div_add_mod']
  obtain ⟨s, hs, hshow⟩ := drawAll_displays hstart calls
  refine ⟨s, hs, hshow.col, hshow.row, fun y hy x hx => ?_⟩
  have hmod : (y * fbWidth + x) % fbWidth = x := by
    rw [Nat.mul_add_mod_self_right, Nat.mod_eq_of_lt hx]
  have hdiv : (y * fbWidth + x) / fbWidth = y := by
    unfold fbWidth at *
    omega
  rw [hshow.pixels _ (by unfold fbWidth fbHeight at *; omega), hdiv, hmod]

/-- A clipped rectangle, an empty one with its right edge too far, a pixel and a new line. -/
theorem draw_calls_rects : ∃ s, drawAll [.clear 0x333333, .fillRect 790 8 0x1000 16 0xFF0000,
      .fillRect 1 0 0xFFFFFFFF 600 0xFF00, .putpixel 799 599 7, .putc 10 0xFFFFFF 0]
        ⟨0x40500000, fun _ => 7, 3, 9⟩ = some s ∧ s.cursorCol = 0 ∧ s.cursorRow = 1 ∧
    s.pixel (8 * fbWidth + 799) = 0xFF0000 ∧ s.pixel (8 * fbWidth + 789) = 0x333333 ∧
      s.pixel (599 * fbWidth + 799) = 7 := by
  obtain ⟨s, hs, hcol, hrow, hpix⟩ := draw_calls_refine ⟨0x40500000, fun _ => 7, 3, 9⟩
    (by decide) (by decide) (by decide) [.clear 0x333333, .fillRect 790 8 0x1000 16 0xFF0000,
      .fillRect 1 0 0xFFFFFFFF 600 0xFF00, .putpixel 799 599 7, .putc 10 0xFFFFFF 0]
  refine ⟨s, hs, hcol, hrow, ?_, ?_, ?_⟩
  · exact hpix 8 (by decide) 799 (by decide)
  · exact hpix 8 (by decide) 789 (by decide)
  · exact hpix 599 (by decide) 799 (by decide)

end Leg
