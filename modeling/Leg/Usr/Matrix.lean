import Leg.Device.Drawing
import Mathlib.Logic.Function.Basic

/-! The falling characters of `matrix.c`: what the main loop draws, drop by drop, and what can be
seen of it on the screen. -/
namespace Leg
open Function

section Model

def trailLen : ℕ := 16

/-- `BRIGHT_GREEN`, `MED_GREEN`, `DIM_GREEN`, `FAINT_GREEN` and `FB_GREEN`. -/
def brightGreen : ℕ := 0x00CCFFCC

def medGreen : ℕ := 0x0000CC00

def dimGreen : ℕ := 0x00006600

def faintGreen : ℕ := 0x00003300

def fbGreen : ℕ := 0x0000FF00

/-- An entry of `drops`. -/
structure Drop where
  speed : ℕ
  tick : ℕ
  y : ℕ
  len : ℕ
  active : Bool

/-- What has been drawn for a column: the length of the last drop that was drawn before the one
there is, and whether this one has been drawn. -/
structure Past where
  left : Option ℕ
  drawn : Bool

/-- The statics of `matrix.c`, how many random words have been taken, the calls of the
framebuffer's driver in their order, and what they have drawn. -/
structure Rain where
  drops : ℕ → Drop
  grid : ℕ → ℕ → UInt8
  taken : ℕ
  calls : List DrawCall
  past : ℕ → Past

/-- `rand_char`, for a random word. -/
def randChar (word : ℕ) : UInt8 :=
  let r := word % 63
  if r < 10 then UInt8.ofNat (48 + r)
  else if r < 36 then UInt8.ofNat (65 + (r - 10))
  else UInt8.ofNat (33 + (r - 36))

def fadeColor (dist : ℕ) : ℕ :=
  if dist = 0 then brightGreen
  else if dist = 1 then fbGreen
  else if dist ≤ 3 then medGreen
  else if dist ≤ 6 then dimGreen
  else if dist ≤ 10 then faintGreen
  else 0

namespace Rain

def setDrop (c : ℕ) (d : Drop) (s : Rain) : Rain := { s with drops := update s.drops c d }

def setGrid (c r : ℕ) (ch : UInt8) (s : Rain) : Rain :=
  { s with grid := update s.grid c (update (s.grid c) r ch) }

def take (n : ℕ) (s : Rain) : Rain := { s with taken := s.taken + n }

/-- The column's drop has been drawn. -/
def markDrawn (c : ℕ) (s : Rain) : Rain :=
  { s with past := update s.past c ⟨(s.past c).left, true⟩ }

/-- The column's drop makes way for a new one. -/
def markNew (c : ℕ) (s : Rain) : Rain :=
  { s with
    past := update s.past c
      ⟨if (s.past c).drawn then some (s.drops c).len else (s.past c).left, false⟩ }

/-- `fb_putc_at` on black. -/
def putcAt (c r : ℕ) (ch : UInt8) (color : ℕ) (s : Rain) : Rain :=
  { s with calls := s.calls ++ [.putcAt (UInt32.ofNat c) (UInt32.ofNat r) ch color 0] }

variable (rand : ℕ → ℕ)

def initDrop (c : ℕ) (s : Rain) : Rain :=
  ((s.markNew c).setDrop c
    ⟨1 + rand s.taken % 3, 0, 0, 8 + rand (s.taken + 1) % (trailLen + 1), true⟩).take 2

/-- A round of the loop of `init_drops`. -/
def initColumn (c : ℕ) (s : Rain) : Rain :=
  let s := s.initDrop rand c
  let s := (s.setDrop c { s.drops c with
    y := rand s.taken % fbRows
    active := decide (rand (s.taken + 1) % 3 ≠ 0) }).take 2
  { s.take fbRows with
    grid := update s.grid c fun r =>
      if r < fbRows then randChar (rand (s.taken + r)) else s.grid c r }

def initDrops (s : Rain) : Rain :=
  (List.range fbCols).foldl (fun s c => s.initColumn rand c) s

/-- A random character somewhere in the trail. -/
def mutate (c head : ℕ) (s : Rain) : Rain :=
  if 2 ≤ head ∧ head ≤ fbRows then
    let mr := head - 2 + rand s.taken % 3
    if mr < fbRows then (s.setGrid c mr (randChar (rand (s.taken + 1)))).take 2 else s.take 1
  else s

/-- The new character at the head. -/
def drawHead (c head : ℕ) (s : Rain) : Rain :=
  if head < fbRows then
    let s := (s.setGrid c head (randChar (rand s.taken))).take 1
    s.putcAt c head (s.grid c head) brightGreen
  else s

/-- The loop over the trail from the distance `d` on, with `n` rounds left. -/
def drawTrail (c head : ℕ) : (n d : ℕ) → Rain → Rain
  | 0, _, s => s
  | n + 1, d, s =>
    if head < d then s
    else
      let r := head - d
      if fbRows ≤ r then drawTrail c head n (d + 1) s
      else drawTrail c head n (d + 1) (s.putcAt c r (s.grid c r) (fadeColor d))

/-- The cell behind the trail. -/
def eraseTail (c head len : ℕ) (s : Rain) : Rain :=
  let erase := if len + 4 < head then head - len - 4 else 0
  if erase < fbRows ∧ len + 4 < head then s.putcAt c erase 32 0 else s

/-- The end of the main loop's body: everything that is drawn for a head. -/
def drawDrop (c head len : ℕ) (s : Rain) : Rain :=
  (((s.mutate rand c head).drawHead rand c head).drawTrail c head (len + 4) 1).eraseTail c head len

/-- A round of the main loop's inner loop. -/
def column (c : ℕ) (s : Rain) : Rain :=
  let d := s.drops c
  if d.active = false then
    let s' := s.take 1
    if rand s.taken % 40 = 0 then s'.initDrop rand c else s'
  else if u32 (d.tick + 1) < d.speed then s.setDrop c { d with tick := u32 (d.tick + 1) }
  else
    let head := (d.y + 1) % 256
    let s := s.setDrop c { d with tick := 0, y := head }
    if fbRows + d.len < head then
      s.setDrop c { d with tick := 0, y := head, active := false }
    else (s.drawDrop rand c head d.len).markDrawn c

/-- A round of the main loop. -/
def frame (s : Rain) : Rain := (List.range fbCols).foldl (fun s c => s.column rand c) s

/-- `main` up to its loop, from zeroed statics. -/
def start : Rain :=
  initDrops rand ⟨fun _ => ⟨0, 0, 0, 0, false⟩, fun _ _ => 0, 0, [.clear 0],
    fun _ => ⟨none, false⟩⟩

/-- The first `n` frames. -/
def frames : ℕ → Rain
  | 0 => start rand
  | n + 1 => (frames n).frame rand

/-- The screen behind the calls. -/
def screen (t : Display) (s : Rain) : Display := s.calls.foldl Display.draw t

end Rain

/-- The colour of row `r` in a column. A drop that has been drawn lights the rows down to its head,
the last of which is the one before it is deactivated. Below there is what the drop before it has
left. -/
def Drop.shade (p : Past) (d : Drop) (r : ℕ) : ℕ :=
  let head := min d.y (fbRows + d.len)
  if p.drawn = true ∧ r ≤ head then fadeColor (head - r)
  else p.left.elim 0 fun len => fadeColor (fbRows + len - r)

end Model

section Screen
variable {t : Display} {s : Rain} {c r k : ℕ}

@[simp] theorem Rain.setGrid_screen (ch : UInt8) : (s.setGrid c r ch).screen t = s.screen t := rfl

@[simp] theorem Rain.take_screen (n : ℕ) : (s.take n).screen t = s.screen t := rfl

theorem Rain.putcAt_cell (hc : c < fbCols) (hr : r < fbRows) (ch : UInt8) (color i j : ℕ) :
    ((s.putcAt c r ch color).screen t).cell i j =
      if i = r ∧ j = c then glyphTile ch color 0 else (s.screen t).cell i j := by
  have hcols : (UInt32.ofNat c).toNat = c := by
    rw [UInt32.toNat_ofNat']
    exact Nat.mod_eq_of_lt (hc.trans (by decide))
  have hrows : (UInt32.ofNat r).toNat = r := by
    rw [UInt32.toNat_ofNat']
    exact Nat.mod_eq_of_lt (hr.trans (by decide))
  unfold Rain.screen Rain.putcAt
  dsimp only
  rw [List.foldl_append]
  simp only [List.foldl_cons, List.foldl_nil, Display.draw, hcols, hrows]

theorem glyphTile_black (ch : UInt8) : glyphTile ch 0 0 = plain 0 := by
  funext y x
  unfold glyphTile glyphColor
  rw [ite_self]
  rfl

theorem fadeColor_far {d : ℕ} (h : 10 < d) : fadeColor d = 0 := by
  unfold fadeColor
  split_ifs <;> first | rfl | omega

theorem fadeColor_eq_zero_iff {d : ℕ} : fadeColor d = 0 ↔ 10 < d := by
  refine ⟨fun h => Nat.lt_of_not_le fun hle => ?_, fadeColor_far⟩
  unfold fadeColor at h
  split_ifs at h <;> first | omega | exact absurd h (by decide)

end Screen

namespace Rain
variable {rand : ℕ → ℕ} {t : Display} {s s' u : Rain} {c head len : ℕ}

/-- What a round for the column `c` leaves alone. -/
structure Keeps (t : Display) (c : ℕ) (s s' : Rain) : Prop where
  drops : ∀ k ≠ c, s'.drops k = s.drops k
  grid : ∀ k ≠ c, s'.grid k = s.grid k
  past : ∀ k ≠ c, s'.past k = s.past k
  cell : ∀ r, ∀ k ≠ c, (s'.screen t).cell r k = (s.screen t).cell r k

theorem Keeps.refl (t : Display) (c : ℕ) (s : Rain) : Keeps t c s s :=
  ⟨fun _ _ => rfl, fun _ _ => rfl, fun _ _ => rfl, fun _ _ _ => rfl⟩

theorem Keeps.trans (h : Keeps t c s s') (h' : Keeps t c s' u) : Keeps t c s u :=
  ⟨fun k hk => (h'.drops k hk).trans (h.drops k hk), fun k hk => (h'.grid k hk).trans (h.grid k hk),
    fun k hk => (h'.past k hk).trans (h.past k hk),
    fun r k hk => (h'.cell r k hk).trans (h.cell r k hk)⟩

theorem take_keeps (n : ℕ) : Keeps t c s (s.take n) :=
  ⟨fun _ _ => rfl, fun _ _ => rfl, fun _ _ => rfl, fun _ _ _ => rfl⟩

theorem markDrawn_keeps : Keeps t c s (s.markDrawn c) :=
  ⟨fun _ _ => rfl, fun _ _ => rfl, fun _ hk => update_of_ne hk _ _, fun _ _ _ => rfl⟩

theorem markNew_keeps : Keeps t c s (s.markNew c) :=
  ⟨fun _ _ => rfl, fun _ _ => rfl, fun _ hk => update_of_ne hk _ _, fun _ _ _ => rfl⟩

theorem setDrop_keeps (d : Drop) : Keeps t c s (s.setDrop c d) :=
  ⟨fun _ hk => update_of_ne hk _ _, fun _ _ => rfl, fun _ _ => rfl, fun _ _ _ => rfl⟩

theorem setGrid_keeps (r : ℕ) (ch : UInt8) : Keeps t c s (s.setGrid c r ch) :=
  ⟨fun _ _ => rfl, fun _ hk => update_of_ne hk _ _, fun _ _ => rfl, fun _ _ _ => rfl⟩

theorem putcAt_keeps (hc : c < fbCols) {r : ℕ} (hr : r < fbRows) (ch : UInt8) (color : ℕ) :
    Keeps t c s (s.putcAt c r ch color) := by
  refine ⟨fun _ _ => rfl, fun _ _ => rfl, fun _ _ => rfl, fun i k hk => ?_⟩
  rw [putcAt_cell hc hr, if_neg fun h => hk h.2]

/-- What drawing a column's head and trail does to it. -/
structure Drew (t : Display) (c head len : ℕ) (s s' : Rain) : Prop where
  keeps : Keeps t c s s'
  own : s'.drops c = s.drops c ∧ s'.past c = s.past c
  grid : ∀ r, r + 2 < head ∨ head < r → s'.grid c r = s.grid c r
  lit : ∀ r < fbRows, r ≤ head → head ≤ r + len + 4 →
    (s'.screen t).cell r c = glyphTile (s'.grid c r) (fadeColor (head - r)) 0
  unlit : ∀ r < fbRows, ¬(r ≤ head ∧ head ≤ r + len + 4) →
    (s'.screen t).cell r c = (s.screen t).cell r c

theorem mutate_spec (t : Display) (rand : ℕ → ℕ) (c head : ℕ) (s : Rain) :
    Keeps t c s (s.mutate rand c head) ∧ ((s.mutate rand c head).drops c = s.drops c ∧
        (s.mutate rand c head).past c = s.past c) ∧
      (∀ r, r + 2 < head ∨ head < r → (s.mutate rand c head).grid c r = s.grid c r) ∧
      (s.mutate rand c head).screen t = s.screen t := by
  unfold mutate
  dsimp only
  split_ifs with hin hmr
  · refine ⟨(setGrid_keeps _ _).trans (take_keeps 2), ⟨rfl, rfl⟩, fun r hr => ?_, rfl⟩
    have hmod : rand s.taken % 3 < 3 := Nat.mod_lt _ (by decide)
    have hne : r ≠ head - 2 + rand s.taken % 3 := by omega
    simp [take, setGrid, hne]
  · exact ⟨take_keeps 1, ⟨rfl, rfl⟩, fun _ _ => rfl, rfl⟩
  · exact ⟨.refl .., ⟨rfl, rfl⟩, fun _ _ => rfl, rfl⟩

theorem drawHead_spec (t : Display) (rand : ℕ → ℕ) (hc : c < fbCols) (head : ℕ) (s : Rain) :
    Keeps t c s (s.drawHead rand c head) ∧ ((s.drawHead rand c head).drops c = s.drops c ∧
        (s.drawHead rand c head).past c = s.past c) ∧
      (∀ r ≠ head, (s.drawHead rand c head).grid c r = s.grid c r) ∧
      ∀ r < fbRows, ((s.drawHead rand c head).screen t).cell r c =
        if r = head then glyphTile ((s.drawHead rand c head).grid c head) brightGreen 0
        else (s.screen t).cell r c := by
  unfold drawHead
  dsimp only
  split_ifs with hin
  · refine ⟨((setGrid_keeps _ _).trans (take_keeps 1)).trans (putcAt_keeps hc hin _ _), ⟨rfl, rfl⟩,
      fun r hr => ?_, fun r _ => ?_⟩
    · simp [putcAt, take, setGrid, hr]
    · rw [putcAt_cell hc hin]
      simp [putcAt]
  · refine ⟨.refl .., ⟨rfl, rfl⟩, fun _ _ => rfl, fun r hr => ?_⟩
    rw [if_neg (by omega)]

theorem drawTrail_spec (t : Display) (hc : c < fbCols) (head n d : ℕ) (s : Rain) :
    Keeps t c s (s.drawTrail c head n d) ∧ ((s.drawTrail c head n d).drops c = s.drops c ∧
        (s.drawTrail c head n d).past c = s.past c) ∧
      (s.drawTrail c head n d).grid = s.grid ∧
      ∀ r < fbRows, ((s.drawTrail c head n d).screen t).cell r c =
        if r + d ≤ head ∧ head < r + d + n then glyphTile (s.grid c r) (fadeColor (head - r)) 0
        else (s.screen t).cell r c := by
  induction n generalizing d s with
  | zero =>
    refine ⟨.refl .., ⟨rfl, rfl⟩, rfl, fun r _ => ?_⟩
    rw [if_neg (by omega)]
    rfl
  | succ n ih =>
    unfold drawTrail
    dsimp only
    split_ifs with hend hout
    · refine ⟨.refl .., ⟨rfl, rfl⟩, rfl, fun r _ => ?_⟩
      rw [if_neg (by omega)]
    · obtain ⟨hkeeps, hdrop, hgrid, hcell⟩ := ih (d + 1) s
      refine ⟨hkeeps, hdrop, hgrid, fun r hr => ?_⟩
      rw [hcell r hr]
      exact if_congr (by omega) rfl rfl
    · rw [Nat.not_le] at hout
      obtain ⟨hkeeps, hdrop, hgrid, hcell⟩ :=
        ih (d + 1) (s.putcAt c (head - d) (s.grid c (head - d)) (fadeColor d))
      refine ⟨(putcAt_keeps hc hout _ _).trans hkeeps, hdrop, hgrid, fun r hr => ?_⟩
      rw [hcell r hr, putcAt_cell hc hout]
      change (if _ then glyphTile (s.grid c r) _ 0 else _) = _
      by_cases hrow : r = head - d
      · have hdist : head - (head - d) = d := by omega
        rw [if_neg (by omega), if_pos ⟨hrow, rfl⟩, if_pos (by omega), hrow, hdist]
      · rw [if_neg (c := r = head - d ∧ c = c) fun h => hrow h.1]
        exact if_congr (by omega) rfl rfl

theorem eraseTail_spec (t : Display) (hc : c < fbCols) (head len : ℕ) (s : Rain) :
    Keeps t c s (s.eraseTail c head len) ∧ ((s.eraseTail c head len).drops c = s.drops c ∧
        (s.eraseTail c head len).past c = s.past c) ∧
      (s.eraseTail c head len).grid = s.grid ∧
      ∀ r < fbRows, ((s.eraseTail c head len).screen t).cell r c =
        if r + len + 4 = head ∧ 0 < r then plain 0 else (s.screen t).cell r c := by
  unfold eraseTail
  dsimp only
  split_ifs with hlong hin hin
  · refine ⟨putcAt_keeps hc hin.1 _ _, ⟨rfl, rfl⟩, rfl, fun r hr => ?_⟩
    rw [putcAt_cell hc hin.1, glyphTile_black]
    exact if_congr (by omega) rfl rfl
  · refine ⟨.refl .., ⟨rfl, rfl⟩, rfl, fun r hr => ?_⟩
    rw [if_neg (by omega)]
  · exact absurd hin.2 hlong
  · refine ⟨.refl .., ⟨rfl, rfl⟩, rfl, fun r hr => ?_⟩
    rw [if_neg (by omega)]

/-- A trail is long enough for its end to be black. -/
theorem drawDrop_drew (t : Display) (rand : ℕ → ℕ) (hc : c < fbCols) (head : ℕ) (hlen : 8 ≤ len)
    (s : Rain) : Drew t c head len s (s.drawDrop rand c head len) := by
  unfold drawDrop
  obtain ⟨hk₁, hd₁, hg₁, hs₁⟩ := mutate_spec t rand c head s
  generalize s.mutate rand c head = s₁ at *
  obtain ⟨hk₂, hd₂, hg₂, hs₂⟩ := drawHead_spec t rand hc head s₁
  generalize s₁.drawHead rand c head = s₂ at *
  obtain ⟨hk₃, hd₃, hg₃, hs₃⟩ := drawTrail_spec t hc head (len + 4) 1 s₂
  generalize s₂.drawTrail c head (len + 4) 1 = s₃ at *
  obtain ⟨hk₄, hd₄, hg₄, hs₄⟩ := eraseTail_spec t hc head len s₃
  generalize s₃.eraseTail c head len = s₄ at *
  refine ⟨((hk₁.trans hk₂).trans hk₃).trans hk₄, ?_, fun r hr => ?_, fun r hr hle hlong => ?_,
    fun r hr hout => ?_⟩
  · exact ⟨hd₄.1.trans (hd₃.1.trans (hd₂.1.trans hd₁.1)),
      hd₄.2.trans (hd₃.2.trans (hd₂.2.trans hd₁.2))⟩
  · rw [hg₄, hg₃, hg₂ r (by omega), hg₁ r hr]
  · rw [hs₄ r hr, hs₃ r hr, hs₂ r hr, hg₄, hg₃]
    by_cases herase : r + len + 4 = head ∧ 0 < r
    · rw [if_pos herase, fadeColor_far (by omega), glyphTile_black]
    · rw [if_neg herase]
      by_cases hhead : r = head
      · subst hhead
        rw [if_neg (by omega), if_pos rfl, Nat.sub_self]
        rfl
      · rw [if_pos (by omega)]
  · rw [hs₄ r hr, hs₃ r hr, hs₂ r hr, hs₁, if_neg (by omega), if_neg (by omega), if_neg (by omega)]

/-- The column shows the characters of its grid, lit by its drop and by what the one before has
left. -/
structure ColumnOk (s : Rain) (t : Display) (c : ℕ) : Prop where
  len_lo : 8 ≤ (s.drops c).len
  len_hi : (s.drops c).len ≤ 24
  left_lo : ∀ len ∈ (s.past c).left, 8 ≤ len
  fresh : (s.past c).drawn = false → (s.drops c).y < fbRows
  falling : (s.drops c).active = true → (s.drops c).y ≤ fbRows + (s.drops c).len
  gone : (s.drops c).active = false →
    ((s.past c).drawn = true ∧ (s.drops c).y = fbRows + (s.drops c).len + 1) ∨
      ((s.past c).drawn = false ∧ (s.past c).left = none)
  shows : ∀ r < fbRows, (s.screen t).cell r c =
    glyphTile (s.grid c r) ((s.drops c).shade (s.past c) r) 0

def Ok (s : Rain) (t : Display) : Prop := ∀ c < fbCols, s.ColumnOk t c

theorem ColumnOk.retick {k : ℕ} (h : s.ColumnOk t c)
    (hdrop : s'.drops c = { s.drops c with tick := k }) (hpast : s'.past c = s.past c)
    (hgrid : s'.grid c = s.grid c)
    (hcell : ∀ r, (s'.screen t).cell r c = (s.screen t).cell r c) : s'.ColumnOk t c := by
  refine ⟨?_, ?_, ?_, ?_, ?_, ?_, fun r hr => ?_⟩
  all_goals simp only [hdrop, hpast]
  · exact h.len_lo
  · exact h.len_hi
  · exact h.left_lo
  · exact h.fresh
  · exact h.falling
  · exact h.gone
  · rw [hcell r, hgrid]
    exact h.shows r hr

theorem ColumnOk.congr {k : ℕ} (h : s.ColumnOk t k) (hs : Keeps t c s s') (hk : k ≠ c) :
    s'.ColumnOk t k :=
  h.retick (hs.drops k hk) (hs.past k hk) (hs.grid k hk) fun r => hs.cell r k hk

theorem ColumnOk.left_dark (h : s.ColumnOk t c) {r : ℕ} (hr : r + 3 ≤ fbRows) :
    ((s.past c).left.elim 0 fun len => fadeColor (fbRows + len - r)) = 0 := by
  cases hleft : (s.past c).left with
  | none => rfl
  | some len =>
    have := h.left_lo len hleft
    exact fadeColor_far (by omega)

theorem initDrop_keeps : Keeps t c s (s.initDrop rand c) :=
  (markNew_keeps.trans (setDrop_keeps _)).trans (take_keeps 2)

/-- A new drop is dark, and its column shows what the one before has left. -/
theorem initDrop_ok (h : s.ColumnOk t c) (hgone : (s.drops c).active = false) :
    (s.initDrop rand c).ColumnOk t c := by
  have hdrop : (s.initDrop rand c).drops c =
      ⟨1 + rand s.taken % 3, 0, 0, 8 + rand (s.taken + 1) % (trailLen + 1), true⟩ :=
    update_self c _ s.drops
  have hpast : (s.initDrop rand c).past c =
      ⟨if (s.past c).drawn then some (s.drops c).len else (s.past c).left, false⟩ :=
    update_self c _ s.past
  have hmod : rand (s.taken + 1) % (trailLen + 1) < trailLen + 1 := Nat.mod_lt _ (by decide)
  refine ⟨?_, ?_, fun len hlen => ?_, fun _ => ?_, fun _ => ?_, fun hno => ?_, fun r hr => ?_⟩
  all_goals rw [hdrop] at *
  · exact Nat.le_add_right _ _
  · change 8 + rand (s.taken + 1) % (trailLen + 1) ≤ 24
    unfold trailLen at *
    omega
  · rw [hpast] at hlen
    dsimp only at hlen
    split_ifs at hlen
    · obtain rfl := Option.some.inj hlen
      exact h.len_lo
    · exact h.left_lo len hlen
  · exact Nat.zero_lt_of_lt (show 0 < 75 by decide)
  · exact Nat.zero_le _
  · exact absurd hno (by simp)
  · change (s.screen t).cell r c = glyphTile (s.grid c r) _ 0
    have hleft : (s.drops c).shade (s.past c) r =
        (if (s.past c).drawn then some (s.drops c).len else (s.past c).left).elim 0
          fun len => fadeColor (fbRows + len - r) := by
      unfold Drop.shade
      dsimp only
      rcases h.gone hgone with ⟨hdrawn, hy⟩ | ⟨hdrawn, -⟩
      · rw [hy, Nat.min_eq_right (Nat.le_succ _), if_pos ⟨hdrawn, by omega⟩, if_pos hdrawn]
        rfl
      · rw [hdrawn, if_neg (by simp), if_neg (by simp)]
    rw [h.shows r hr, hpast, hleft]
    unfold Drop.shade
    rw [if_neg (c := false = true ∧ _) (by simp)]

/-- A head that is drawn relights its column: what the trail and the erased cell do not reach was
dark, or lies below. -/
theorem drawDrop_ok (h : s.ColumnOk t c) (hactive : (s.drops c).active = true)
    (hon : (s.drops c).y + 1 ≤ fbRows + (s.drops c).len)
    (hs : Drew t c ((s.drops c).y + 1) (s.drops c).len
      (s.setDrop c { s.drops c with tick := 0, y := (s.drops c).y + 1 }) s') :
    (s'.markDrawn c).ColumnOk t c := by
  have hdrop : s'.drops c = { s.drops c with tick := 0, y := (s.drops c).y + 1 } :=
    hs.own.1.trans (update_self c _ s.drops)
  have hpast : (s'.markDrawn c).past c = ⟨(s.past c).left, true⟩ := by
    rw [← show s'.past c = s.past c from hs.own.2]
    exact update_self c _ s'.past
  have hlen := h.len_lo
  change ((s'.markDrawn c).drops c = _) at hdrop
  refine ⟨?_, ?_, ?_, fun hno => ?_, fun _ => ?_, fun hno => ?_, fun r hr => ?_⟩
  all_goals rw [hdrop] at *
  · exact h.len_lo
  · exact h.len_hi
  · rw [hpast]
    exact h.left_lo
  · rw [hpast] at hno
    exact absurd hno (by simp)
  · exact hon
  · exact absurd (hactive.symm.trans hno) (by simp)
  · change (s'.screen t).cell r c = glyphTile (s'.grid c r) _ 0
    rw [hpast]
    have hshade : Drop.shade ⟨(s.past c).left, true⟩
        { s.drops c with tick := 0, y := (s.drops c).y + 1 } r =
        if r ≤ (s.drops c).y + 1 then fadeColor ((s.drops c).y + 1 - r)
        else (s.past c).left.elim 0 fun len => fadeColor (fbRows + len - r) := by
      unfold Drop.shade
      dsimp only
      rw [Nat.min_eq_left hon]
      simp
    have hold : (s.drops c).shade (s.past c) r =
        if (s.past c).drawn = true ∧ r ≤ (s.drops c).y then fadeColor ((s.drops c).y - r)
        else (s.past c).left.elim 0 fun len => fadeColor (fbRows + len - r) := by
      unfold Drop.shade
      dsimp only
      rw [Nat.min_eq_left (by omega)]
    rw [hshade]
    by_cases hlit : r ≤ (s.drops c).y + 1 ∧ (s.drops c).y + 1 ≤ r + (s.drops c).len + 4
    · rw [if_pos hlit.1]
      exact hs.lit r hr hlit.1 hlit.2
    · have hgrid : s'.grid c r = s.grid c r := hs.grid r (by omega)
      have hcell : (s'.screen t).cell r c = (s.screen t).cell r c := hs.unlit r hr hlit
      rw [hgrid, hcell, h.shows r hr, hold]
      by_cases hbelow : r ≤ (s.drops c).y + 1
      · rw [if_pos hbelow, fadeColor_far (show 10 < (s.drops c).y + 1 - r by omega)]
        split_ifs
        · rw [fadeColor_far (by omega)]
        · rw [h.left_dark (by omega)]
      · rw [if_neg hbelow, if_neg (by omega)]

/-- A drop that has been drawn to its last head is deactivated. -/
theorem ColumnOk.deactivate (h : s.ColumnOk t c)
    (hy : (s.drops c).y = fbRows + (s.drops c).len)
    (hdrop : s'.drops c = { s.drops c with tick := 0, y := (s.drops c).y + 1, active := false })
    (hpast : s'.past = s.past) (hgrid : s'.grid = s.grid)
    (hscreen : s'.screen t = s.screen t) : s'.ColumnOk t c := by
  have hdrawn : (s.past c).drawn = true := by
    by_contra hno
    have := h.fresh (by simpa using hno)
    omega
  refine ⟨?_, ?_, hpast ▸ h.left_lo, fun hno => ?_, fun hno => ?_, fun _ => .inl ⟨?_, ?_⟩,
    fun r hr => ?_⟩
  all_goals rw [hpast] at *
  all_goals rw [hdrop] at *
  · exact h.len_lo
  · exact h.len_hi
  · exact absurd (hdrawn.symm.trans hno) (by simp)
  · exact absurd hno (by simp)
  · exact hdrawn
  · exact congrArg (· + 1) hy
  · rw [hscreen, hgrid, h.shows r hr]
    unfold Drop.shade
    dsimp only
    rw [hy, Nat.min_self, Nat.min_eq_right (Nat.le_succ _)]

/-- A round for a column that is right leaves it so, and all the others alone. -/
theorem column_ok (h : s.ColumnOk t c) (hc : c < fbCols) :
    Keeps t c s (s.column rand c) ∧ (s.column rand c).ColumnOk t c := by
  have hhi := h.len_hi
  have hhead (hon : (s.drops c).active = true) :
      ((s.drops c).y + 1) % 256 = (s.drops c).y + 1 := by
    have := h.falling hon
    unfold fbRows fbHeight fontH at *
    omega
  unfold column
  dsimp only
  split_ifs with hoff hnew htick hend
  · have htake : (s.take 1).ColumnOk t c := h.retick rfl rfl rfl fun _ => rfl
    exact ⟨(take_keeps 1).trans initDrop_keeps, initDrop_ok htake hoff⟩
  · exact ⟨take_keeps 1, h.retick rfl rfl rfl fun _ => rfl⟩
  · exact ⟨setDrop_keeps _, h.retick (update_self c _ s.drops) rfl rfl fun _ => rfl⟩
  · have hon : (s.drops c).active = true := by simpa using hoff
    rw [hhead hon] at hend ⊢
    have hy : (s.drops c).y = fbRows + (s.drops c).len := by
      have := h.falling hon
      omega
    refine ⟨(setDrop_keeps _).trans (setDrop_keeps _), h.deactivate hy ?_ rfl rfl rfl⟩
    exact update_self c _ _
  · have hon : (s.drops c).active = true := by simpa using hoff
    rw [hhead hon] at hend ⊢
    have hdrew := drawDrop_drew t rand hc ((s.drops c).y + 1) h.len_lo
      (s.setDrop c { s.drops c with tick := 0, y := (s.drops c).y + 1 })
    exact ⟨((setDrop_keeps _).trans hdrew.keeps).trans markDrawn_keeps,
      drawDrop_ok h hon (Nat.le_of_not_lt hend) hdrew⟩

/-- When a drop is deactivated, its column is dark if it was long enough. -/
theorem ColumnOk.dark_iff (h : s.ColumnOk t c) (hoff : (s.drops c).active = false) :
    (∀ r < fbRows, (s.drops c).shade (s.past c) r = 0) ↔
      (s.past c).drawn = false ∨ 10 ≤ (s.drops c).len := by
  rcases h.gone hoff with ⟨hdrawn, hy⟩ | ⟨hdrawn, hnone⟩
  · have hshade (r : ℕ) (hr : r < fbRows) :
        (s.drops c).shade (s.past c) r = fadeColor (fbRows + (s.drops c).len - r) := by
      unfold Drop.shade
      dsimp only
      rw [hy, Nat.min_eq_right (Nat.le_succ _), if_pos ⟨hdrawn, by omega⟩]
    constructor
    · intro hdark
      right
      have hlast := hdark (fbRows - 1) (by decide)
      rw [hshade _ (by decide), fadeColor_eq_zero_iff] at hlast
      unfold fbRows fbHeight fontH at *
      omega
    · rintro (hno | hlong) r hr
      · exact absurd (hdrawn.symm.trans hno) (by simp)
      · rw [hshade r hr, fadeColor_eq_zero_iff]
        omega
  · refine iff_of_true (fun r _ => ?_) (.inl hdrawn)
    unfold Drop.shade
    rw [hdrawn, hnone, if_neg (by simp)]
    rfl

theorem column_all (h : s.Ok t) (hc : c < fbCols) : (s.column rand c).Ok t := by
  intro k hk
  have hround : Keeps t c s (s.column rand c) ∧ (s.column rand c).ColumnOk t c :=
    column_ok (h c hc) hc
  obtain ⟨hkeeps, hcol⟩ := hround
  by_cases hkc : k = c
  · exact hkc ▸ hcol
  · exact (h k hk).congr hkeeps hkc

theorem frame_ok (h : s.Ok t) : (s.frame rand).Ok t := by
  have hall (cs : List ℕ) (hcs : ∀ c ∈ cs, c < fbCols) (s : Rain) (h : s.Ok t) :
      (cs.foldl (fun s c => s.column rand c) s).Ok t := by
    induction cs generalizing s with
    | nil => exact h
    | cons c cs ih =>
      refine ih (fun k hk => hcs k (List.mem_cons_of_mem _ hk)) _ ?_
      exact column_all h (hcs c (List.mem_cons_self ..))
  exact hall _ (fun c hc => List.mem_range.mp hc) s h

/-- What `init_drops` makes of the first `n` columns. -/
theorem initDrops_spec (rand : ℕ → ℕ) (s : Rain) (hs : ∀ c, s.past c = ⟨none, false⟩) (n : ℕ) :
    let s' := (List.range n).foldl (fun s c => s.initColumn rand c) s
    s'.calls = s.calls ∧ (∀ c, s'.past c = ⟨none, false⟩) ∧
      ∀ c < n, 8 ≤ (s'.drops c).len ∧ (s'.drops c).len ≤ 24 ∧ (s'.drops c).y < fbRows := by
  induction n with
  | zero => exact ⟨rfl, hs, fun c hc => absurd hc (Nat.not_lt_zero c)⟩
  | succ n ih =>
    obtain ⟨hcalls, hpast, hdrops⟩ := ih
    dsimp only at hcalls hpast hdrops ⊢
    rw [List.range_succ, List.foldl_append, List.foldl_cons, List.foldl_nil]
    generalize (List.range n).foldl (fun s c => s.initColumn rand c) s = u at *
    refine ⟨hcalls, fun c => ?_, fun c hc => ?_⟩
    · have hmark : (u.initColumn rand n).past = (u.markNew n).past := rfl
      rw [hmark]
      by_cases hcn : c = n
      · subst hcn
        refine (update_self c _ u.past).trans ?_
        rw [hpast c]
        rfl
      · exact (update_of_ne hcn _ u.past).trans (hpast c)
    by_cases hcn : c = n
    · subst hcn
      have hmod : rand (u.taken + 1) % (trailLen + 1) < trailLen + 1 := Nat.mod_lt _ (by decide)
      have hrow : rand (u.taken + 2) % fbRows < fbRows := Nat.mod_lt _ (by decide)
      simp only [initColumn, initDrop, markNew, setDrop, take, update_self]
      unfold trailLen at *
      exact ⟨by omega, by omega, hrow⟩
    · have hsame : (u.initColumn rand n).drops c = u.drops c := by
        simp [initColumn, initDrop, markNew, setDrop, take, hcn]
      rw [hsame]
      exact hdrops c (by omega)

theorem start_ok (rand : ℕ → ℕ) (t : Display) : (start rand).Ok t := by
  intro c hc
  obtain ⟨hcalls, hpast, hdrops⟩ := initDrops_spec rand
    ⟨fun _ => ⟨0, 0, 0, 0, false⟩, fun _ _ => 0, 0, [.clear 0], fun _ => ⟨none, false⟩⟩
    (fun _ => rfl) fbCols
  obtain ⟨hlo, hhi, hy⟩ := hdrops c hc
  have hnew : (start rand).past c = ⟨none, false⟩ := hpast c
  have hscreen : (start rand).screen t = Display.draw t (.clear 0) := by
    unfold screen start initDrops
    rw [hcalls]
    rfl
  refine ⟨hlo, hhi, fun len hlen => ?_, fun _ => hy, fun _ => ?_, fun _ => .inr ?_, fun r hr => ?_⟩
  · rw [hnew] at hlen
    exact absurd hlen (by simp)
  · exact (Nat.le_of_lt hy).trans (Nat.le_add_right _ _)
  · rw [hnew]
    exact ⟨rfl, rfl⟩
  · rw [hscreen, hnew]
    unfold Drop.shade
    rw [if_neg (by simp)]
    exact (glyphTile_black _).symm

theorem frames_ok (rand : ℕ → ℕ) (t : Display) (n : ℕ) : (frames rand n).Ok t := by
  induction n with
  | zero => exact start_ok rand t
  | succ n ih => exact frame_ok ih

/-- Whatever the random words, after any number of frames each cell shows the character of the grid
in the colour that its column's drop gives it, or the one before. When a drop is deactivated, its
column is dark exactly if it was at least ten characters long: of a shorter one the last rows stay
lit. -/
theorem frames_show (rand : ℕ → ℕ) (n : ℕ) (fb : Fb) (hbase : fb.base ≠ 0)
    (hcol : fb.cursorCol < fbCols) (hrow : fb.cursorRow < fbRows) :
    let s := frames rand n
    ∃ fb', drawAll s.calls fb = some fb' ∧ ∀ c < fbCols,
      (∀ r < fbRows, ∀ y < fontH, ∀ x < fontW,
        fb'.pixel ((r * fontH + y) * fbWidth + (c * fontW + x)) =
          glyphTile (s.grid c r) ((s.drops c).shade (s.past c) r) 0 y x) ∧
      ((s.drops c).active = false → ((∀ r < fbRows, (s.drops c).shade (s.past c) r = 0) ↔
        (s.past c).drawn = false ∨ 10 ≤ (s.drops c).len)) := by
  obtain ⟨fb', hrun, -, -, hpixel⟩ := draw_calls_refine fb hbase hcol hrow (frames rand n).calls
  refine ⟨fb', hrun, fun c hc => ?_⟩
  have hok := frames_ok rand (displayed fb hcol hrow) n c hc
  refine ⟨fun r hr y hy x hx => ?_, hok.dark_iff⟩
  have hshow := hok.shows r hr
  unfold fbRows fbCols fbHeight fbWidth fontH fontW at *
  rw [hpixel _ (by omega) _ (by omega)]
  unfold Display.pixel
  unfold fontH fontW
  have hr' : (r * 8 + y) / 8 = r := by omega
  have hc' : (c * 8 + x) / 8 = c := by omega
  have hy' : (r * 8 + y) % 8 = y := by omega
  have hx' : (c * 8 + x) % 8 = x := by omega
  rw [hr', hc', hy', hx']
  exact congrFun (congrFun hshow y) x

/-- With the random word one every drop starts at row 1 and moves at each second frame: it has
drawn a one at row 2, bright at its head. -/
theorem frames_show_head : ∃ fb', drawAll (frames (fun _ => 1) 2).calls
    ⟨0x40500000, fun _ => 7, 3, 9⟩ = some fb' ∧
      fb'.pixel ((2 * fontH + 1) * fbWidth + 2) = brightGreen := by
  obtain ⟨fb', hrun, hshow⟩ := frames_show (fun _ => 1) 2 ⟨0x40500000, fun _ => 7, 3, 9⟩
    (by decide) (by decide) (by decide)
  obtain ⟨hpixel, -⟩ := hshow 0 (by decide)
  have hchar : (frames (fun _ => 1) 2).grid 0 2 = 49 := by decide +kernel
  have hshade : ((frames (fun _ => 1) 2).drops 0).shade ((frames (fun _ => 1) 2).past 0) 2 =
      brightGreen := by
    decide +kernel
  have hlit := hpixel 2 (by decide) 1 (by decide) 2 (by decide)
  rw [hchar, hshade] at hlit
  exact ⟨fb', hrun, hlit.trans (by decide +kernel)⟩

end Rain
end Leg
