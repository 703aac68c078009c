import Leg.Device.Framebuffer
import Leg.Device.Tty

/-! Editing a line on the screen: while a reader waits, `tty_input` echoes what is typed through
`fb_putc`. The screen is to show the line in the buffer, as if it had been typed without its
mistakes. -/
namespace Leg
open Runs RingBuffer

/-- `FB_WHITE` and `FB_BLACK`, the colours of `tty_putchar`. -/
def fbWhite : ℕ := 0x00FFFFFF
def fbBlack : ℕ := 0

namespace Console
variable {t : Console}

/-- The console once the characters are printed on it. -/
def printed (t : Console) (cs : List ℕ) : Console := (cs.map UInt8.ofNat).foldl print t

theorem printed_append (cs ds : List ℕ) : t.printed (cs ++ ds) = (t.printed cs).printed ds := by
  unfold printed
  rw [List.map_append, List.foldl_append]

theorem printed_concat (cs : List ℕ) (c : ℕ) :
    t.printed (cs ++ [c]) = (t.printed cs).print (UInt8.ofNat c) := printed_append cs [c]

theorem printed_rubout :
    t.printed [charBackspace, charSpace, charBackspace] = t.rubout 32 := by
  have hback (t : Console) : t.print 8 = t.backspace 32 := by
    unfold print
    rw [if_neg (by decide), if_pos rfl]
  have hspace (t : Console) : t.print 32 = t.place 32 32 := by
    unfold print
    rw [if_neg (by decide), if_neg (by decide), if_neg (by decide)]
  change ((t.print 8).print 32).print 8 = _
  rw [hback, hspace, hback]
  rfl

theorem blankAhead_print (h : t.BlankAhead 32) (c : UInt8) : (t.print c).BlankAhead 32 := by
  unfold print
  split
  next => exact Terminal.nextRow_blankAhead fun r c hr hc hlt => h r c hr hc (.inl hlt)
  next =>
    split
    next =>
      unfold Terminal.backspace
      split
      next => exact h
      next h0 =>
        intro r k hr hk hahead
        dsimp only [Terminal.setCell] at hahead ⊢
        split
        next => rfl
        next hne => exact h r k hr hk (by omega)
    next =>
      split
      next => exact h.tab (by decide)
      next => exact h.place c

theorem blankAhead_printed (h : t.BlankAhead 32) (cs : List ℕ) : (t.printed cs).BlankAhead 32 := by
  unfold printed
  induction cs generalizing t with
  | nil => exact h
  | cons c cs ih => exact ih (blankAhead_print h _)

theorem ofNat_eq_iff {c k : ℕ} (hc : c < 256) (hk : k < 256) :
    UInt8.ofNat c = UInt8.ofNat k ↔ c = k := by
  constructor
  · intro h
    have htoNat := congrArg UInt8.toNat h
    rwa [UInt8.toNat_ofNat_of_lt' hc, UInt8.toNat_ofNat_of_lt' hk] at htoNat
  · exact congrArg _

/-- The characters that stay in a line: neither backspaces nor ends of lines. -/
def InLine (c : ℕ) : Prop := c < 256 ∧ ¬Tty.Erases c ∧ c ≠ charNewline ∧ c ≠ charReturn

theorem print_inLine {c : ℕ} (h : InLine c) :
    t.print (UInt8.ofNat c) = if c = 9 then t.tab 32 4 else t.place 32 (UInt8.ofNat c) := by
  obtain ⟨hlt, herase, hnl, hcr⟩ := h
  have hne : UInt8.ofNat c ≠ 10 := fun he => hnl ((ofNat_eq_iff hlt (by decide)).mp he)
  have hne' : UInt8.ofNat c ≠ 13 := fun he => hcr ((ofNat_eq_iff hlt (by decide)).mp he)
  have hbs : UInt8.ofNat c ≠ 8 :=
    fun he => herase (.inl ((ofNat_eq_iff hlt (by decide)).mp he))
  unfold print
  rw [if_neg (not_or.mpr ⟨hne, hne'⟩), if_neg hbs]
  exact if_congr (ofNat_eq_iff hlt (by decide)) rfl rfl

theorem print_inLine_pos {c : ℕ} (h : InLine c) (h0 : t.col = 0) :
    (t.print (UInt8.ofNat c)).col ≠ 0 := by
  rw [print_inLine h]
  split
  next =>
    rw [Terminal.tab, h0, Terminal.moveTo_of_lt 32 t (by decide)]
    exact Nat.succ_ne_zero _
  next =>
    unfold Terminal.place
    rw [h0, Terminal.moveTo_of_lt 32 _ (by decide)]
    exact Nat.succ_ne_zero _

/-- A character of a line that moves the cursor on by one cell changes no other one. -/
theorem print_inLine_moved {c : ℕ} (h : InLine c)
    (hcol : (t.print (UInt8.ofNat c)).col = t.col + 1) :
    (t.print (UInt8.ofNat c)).row = t.row ∧
      ∀ r k, ¬(r = t.row ∧ k = t.col) → (t.print (UInt8.ofNat c)).cell r k = t.cell r k := by
  rw [print_inLine h] at hcol ⊢
  split at hcol
  next htab =>
    rw [if_pos htab]
    unfold Terminal.tab at hcol ⊢
    by_cases hlt : (t.col / 4 + 1) * 4 < fbCols
    · rw [Terminal.moveTo_of_lt 32 t hlt]
      exact ⟨rfl, fun _ _ _ => rfl⟩
    · rw [Terminal.moveTo_of_not_lt 32 t hlt] at hcol
      exact absurd hcol (by omega)
  next htab =>
    rw [if_neg htab]
    unfold Terminal.place at hcol ⊢
    by_cases hlt : t.col + 1 < fbCols
    · rw [Terminal.moveTo_of_lt 32 _ hlt]
      exact ⟨rfl, fun r k hk => if_neg hk⟩
    · rw [Terminal.moveTo_of_not_lt 32 _ hlt] at hcol
      exact absurd hcol (by omega)

theorem rubout_print_iff (hblank : t.BlankAhead 32) {c : ℕ} (h : InLine c) :
    (t.print (UInt8.ofNat c)).rubout 32 = t ↔ (t.print (UInt8.ofNat c)).col = t.col + 1 := by
  constructor
  · intro heq
    have hcol := Terminal.rubout_col 32 (t.print (UInt8.ofNat c)) (by decide)
    rw [heq] at hcol
    have hpos := print_inLine_pos (t := t) h
    omega
  · intro hcol
    obtain ⟨hrow, hcell⟩ := print_inLine_moved h hcol
    exact hblank.rubout_moved hrow hcol hcell

end Console

namespace Tty
variable {start : Console} {t u : Tty} {c : ℕ}

/-- The characters in the buffer. -/
def pending (t : Tty) : List ℕ :=
  (List.range t.lineLen).map fun k => t.lineBuf ((t.lineStart + k) % lineBufSize)

@[simp] theorem pending_length : t.pending.length = t.lineLen := by simp [pending]

/-- A character is typed while a reader waits for its line. -/
def Typed (t : Tty) (c : ℕ) (u : Tty) : Prop := c < 256 ∧ t.lineReady = false ∧ u = t.input c

/-- A reader begins to wait, and nothing is typed ahead. -/
structure Begun (t : Tty) : Prop where
  echo : t.echoChars = true
  ready : t.lineReady = false
  len : t.lineLen = 0
  screen : t.screen = []

/-- What has been echoed has led to the screen on which the line in the buffer is printed. -/
def Mirrors (start : Console) (t : Tty) : Prop := start.printed t.screen = start.printed t.pending

/-- A backspace takes back a character that has moved the cursor on by one cell of its row, and
what is typed when the buffer is full changes nothing on the screen. -/
def Mirrored (start : Console) (t : Tty) (c : ℕ) : Prop :=
  if Erases c then
    ∀ line last, t.pending = line ++ [last] →
      (start.printed t.pending).col = (start.printed line).col + 1
  else t.lineLen < lineBufSize - 1 ∨
    (start.printed t.pending).print (UInt8.ofNat (typed c)) = start.printed t.pending

theorem mirrored_of_room (he : ¬Erases c) (h : t.lineLen < lineBufSize - 1) :
    t.Mirrored start c := by
  unfold Mirrored
  rw [if_neg he]
  exact .inl h

structure EchoOk (t : Tty) : Prop where
  holds : Holds lineBufSize t.lineBuf t.lineStart t.pending
  room : t.lineLen ≤ lineBufSize - 1
  echo : t.echoChars = true
  line : t.lineReady = false → ∀ c ∈ t.pending, Console.InLine c

theorem pending_eq {xs : List ℕ} (h : Holds lineBufSize t.lineBuf t.lineStart xs)
    (hlen : t.lineLen = xs.length) : t.pending = xs := by
  unfold pending
  rw [hlen]
  exact h.read

theorem typed_lt (hc : c < 256) : typed c < 256 := by
  unfold typed
  split
  · decide
  · exact hc

/-- A backspace takes the last character out of the buffer, if there is one. -/
theorem input_erases (h : t.EchoOk) (he : Erases c) :
    (t.input c).EchoOk ∧ (t.input c).pending = t.pending.dropLast ∧
      (t.input c).screen = t.screen ++
        if t.lineLen > 0 then [charBackspace, charSpace, charBackspace] else [] := by
  obtain ⟨hbuf, hlen, hstart, hready, hecho⟩ := t.input_of_erases he
  have hroom := h.room
  have hholds : Holds lineBufSize (t.input c).lineBuf (t.input c).lineStart t.pending.dropLast := by
    rw [hbuf, hstart]
    exact h.holds.dropLast
  have hp := pending_eq hholds (by rw [hlen, List.length_dropLast, pending_length])
  refine ⟨⟨by rwa [hp], by omega, hecho.trans h.echo, ?_⟩, hp, ?_⟩
  · intro hr d hd
    rw [hp] at hd
    exact h.line (hready.symm.trans hr) d (List.dropLast_subset _ hd)
  · have hr : c ≠ charReturn := by
      rcases he with rfl | rfl
      all_goals decide
    have he' : c = charBackspace ∨ c = charDelete := he
    unfold input
    simp only [if_neg hr, if_pos he']
    split
    next => simp [putchar]
    next => simp

theorem store_echo (h : t.echoChars = true) :
    (t.store c).screen = t.screen ++ [c] ∧ (t.store c).echoChars = true := by
  unfold store
  by_cases hroom : t.lineLen < lineBufSize - 1 <;> by_cases hc : c = charNewline <;>
    simp [h, hroom, hc, putchar]

/-- Any other character is echoed, and stored if there is room. -/
theorem input_typed (h : t.EchoOk) (hs : t.Typed c u) (he : ¬Erases c) :
    u.EchoOk ∧ u.screen = t.screen ++ [typed c] ∧
      u.pending = if t.lineLen < lineBufSize - 1 then t.pending ++ [typed c] else t.pending := by
  obtain ⟨hc, hready, rfl⟩ := hs
  rw [input_of_typed t he]
  obtain ⟨hscreen, hecho⟩ := store_echo (c := typed c) h.echo
  by_cases hroom : t.lineLen < lineBufSize - 1
  · obtain ⟨hbuf, hlen, hstart, hr, -⟩ := t.store_of_room (typed c) hroom
    have hholds : Holds lineBufSize (t.store (typed c)).lineBuf (t.store (typed c)).lineStart
        (t.pending ++ [typed c]) := by
      rw [hbuf, hstart, u32_mod_lineBufSize, ← pending_length (t := t)]
      exact h.holds.push (by rw [pending_length]; unfold lineBufSize at *; omega) _
    have hp := pending_eq hholds (by rw [hlen, List.length_append, pending_length]; rfl)
    refine ⟨⟨by rwa [hp], by omega, hecho, ?_⟩, hscreen, by rw [if_pos hroom, hp]⟩
    intro hr' d hd
    rw [hr, hready, Bool.false_or, decide_eq_false_iff_not] at hr'
    rw [hp] at hd
    rcases List.mem_append.mp hd with hd | hd
    · exact h.line hready d hd
    · obtain rfl := List.mem_singleton.mp hd
      refine ⟨typed_lt hc, ?_, hr', ?_⟩
      · unfold typed
        split
        · decide
        · exact he
      · unfold typed
        split
        · decide
        next hne => exact hne
  · obtain ⟨hbuf, hlen, hstart⟩ := t.store_of_full (typed c) hroom
    have hholds : Holds lineBufSize (t.store (typed c)).lineBuf (t.store (typed c)).lineStart
        t.pending := by
      rw [hbuf, hstart]
      exact h.holds
    have hp := pending_eq hholds (by rw [hlen, pending_length])
    refine ⟨⟨by rwa [hp], hlen ▸ h.room, hecho, ?_⟩, hscreen, by rw [if_neg hroom, hp]⟩
    intro _ d hd
    rw [hp] at hd
    exact h.line hready d hd

/-- From a screen that shows the line, a character leads to one that does exactly if it meets the
condition. -/
theorem step_mirrors_iff (hblank : start.BlankAhead 32) (h : t.EchoOk) (hm : t.Mirrors start)
    (hs : t.Typed c u) : u.Mirrors start ↔ t.Mirrored start c := by
  unfold Mirrors Mirrored at *
  by_cases he : Erases c
  · obtain ⟨-, hready, rfl⟩ := hs
    obtain ⟨-, hp, hscreen⟩ := input_erases h he
    rw [if_pos he, hp, hscreen]
    rcases List.eq_nil_or_concat t.pending with h0 | ⟨line, last, hline⟩
    · have hlen : t.lineLen = 0 := by rw [← pending_length (t := t), h0, List.length_nil]
      rw [if_neg (by omega), List.append_nil, hm, h0]
      refine ⟨fun _ line last hne => absurd hne (by simp), fun _ => rfl⟩
    · rw [List.concat_eq_append] at hline
      have hlen : t.lineLen = line.length + 1 := by rw [← pending_length (t := t), hline]; simp
      have hlast : Console.InLine last := h.line hready last (by rw [hline]; simp)
      rw [if_pos (by omega), Console.printed_append, Console.printed_rubout, hm, hline,
        List.dropLast_concat, Console.printed_concat]
      refine (Console.rubout_print_iff (Console.blankAhead_printed hblank line) hlast).trans ?_
      constructor
      · intro hcol line' last' heq
        obtain ⟨rfl, -⟩ := List.append_inj' heq rfl
        exact hcol
      · exact fun hall => hall line last rfl
  · obtain ⟨-, hscreen, hp⟩ := input_typed h hs he
    rw [if_neg he, hscreen, Console.printed_concat, hm, hp]
    split
    next hroom => exact ⟨fun _ => .inl hroom, fun _ => (Console.printed_concat _ _).symm⟩
    next hroom => exact ⟨.inr, fun hor => hor.resolve_left hroom⟩

theorem step_echoOk (h : t.EchoOk) (hs : t.Typed c u) : u.EchoOk := by
  by_cases he : Erases c
  · obtain ⟨-, -, rfl⟩ := hs
    exact (input_erases h he).1
  · exact (input_typed h hs he).1

theorem Begun.ok (h : t.Begun) : t.EchoOk ∧ t.Mirrors start := by
  have hp : t.pending = [] := List.length_eq_zero_iff.mp (pending_length.trans h.len)
  refine ⟨⟨hp ▸ .nil, by rw [h.len]; exact Nat.zero_le _, h.echo, ?_⟩, ?_⟩
  · intro _ c hc
    rw [hp] at hc
    exact absurd hc List.not_mem_nil
  · unfold Mirrors
    rw [h.screen, hp]

/-- While a reader waits, the screen shows the line in the buffer after every character exactly if
each one meets the condition; and then the framebuffer has the picture of the screen on which that
line is printed. -/
theorem typed_mirrors_iff {fb : Fb} (hshow : Shows fbWhite fbBlack fb start)
    (hblank : start.BlankAhead 32) (ht : t.Begun) {cs : List ℕ} :
    (Run (Along (Mirrors start) Typed) t cs u ↔ Run (Meeting (Mirrored start) Typed) t cs u) ∧
    (Run (Meeting (Mirrored start) Typed) t cs u →
      ∃ s, fbPutcs fbWhite fbBlack (u.screen.map UInt8.ofNat) fb = some s ∧
        Shows fbWhite fbBlack s (start.printed u.pending)) := by
  have hok := @Begun.ok start t ht
  refine ⟨along_iff_meeting Typed (Mirrored start) (fun _ _ _ hi _ hs => step_echoOk hi hs)
    (fun _ _ _ hi hp hs => step_mirrors_iff hblank hi hp hs) hok.1 hok.2, fun hrun => ?_⟩
  have hend : u.EchoOk ∧ u.Mirrors start := by
    refine hrun.preserves (I := fun t => t.EchoOk ∧ t.Mirrors start) ?_ hok
    intro s c v ⟨hi, hp⟩ ⟨hc, hs⟩
    exact ⟨step_echoOk hi hs, (step_mirrors_iff hblank hi hp hs).mpr hc⟩
  obtain ⟨s, hs, hshown⟩ := fbPutcs_shows hshow (u.screen.map UInt8.ofNat)
  refine ⟨s, hs, ?_⟩
  rw [← hend.2]
  exact hshown

/-- A terminal after boot, with a reader. -/
def reading : Tty := readlineCall ⟨fun _ => 0, 0, false, 0, false, []⟩

theorem fbRows_pos : 0 < fbRows := by decide

theorem fbCols_pos : 0 < fbCols := by decide

/-- A cleared screen. -/
def emptyScreen : Console := Terminal.clear 32 fbRows_pos fbCols_pos

theorem tab_not_mirrored : ∃ u, Run Typed reading [97, 9, charBackspace] u ∧
    u.pending = [97] ∧ ¬u.Mirrors emptyScreen := by
  have hrun : Run Typed reading [97, 9, charBackspace]
      (((reading.input 97).input 9).input charBackspace) :=
    .cons ⟨by decide, rfl, rfl⟩ (.cons ⟨by decide, rfl, rfl⟩ (.single ⟨by decide, rfl, rfl⟩))
  refine ⟨_, hrun, by decide, fun h => ?_⟩
  exact absurd (congrArg Terminal.col h) (by decide)

/-- Two letters, the second of them taken back. -/
theorem typed_mirrors_letters : ∃ fb s u, Shows fbWhite fbBlack fb emptyScreen ∧
    Run (Along (Mirrors emptyScreen) Typed) reading [97, 98, charBackspace] u ∧
    u.pending = [97] ∧ fbPutcs fbWhite fbBlack (u.screen.map UInt8.ofNat) fb = some s ∧
    Shows fbWhite fbBlack s (emptyScreen.printed u.pending) := by
  have hclear : ∃ fb, fbClear fbBlack ⟨0x40500000, fun _ => 7, 3, 9⟩ = some fb ∧
      Shows fbWhite fbBlack fb emptyScreen := fbClear_shows fbWhite (by decide)
  obtain ⟨fb, -, hshow⟩ := hclear
  have hrun : Run (Meeting (Mirrored emptyScreen) Typed) reading [97, 98, charBackspace]
      (((reading.input 97).input 98).input charBackspace) := by
    have ha : reading.Mirrored emptyScreen 97 := mirrored_of_room (by decide) (by decide)
    have hb : (reading.input 97).Mirrored emptyScreen 98 :=
      mirrored_of_room (by decide) (by decide)
    have herase : ((reading.input 97).input 98).Mirrored emptyScreen charBackspace := by
      have hpending : ((reading.input 97).input 98).pending = [97] ++ [98] := by decide
      unfold Mirrored
      rw [if_pos (by decide), hpending]
      intro line last hline
      obtain ⟨rfl, -⟩ := List.append_inj' hline rfl
      decide
    exact .cons ⟨ha, by decide, rfl, rfl⟩ (.cons ⟨hb, by decide, rfl, rfl⟩
      (.single ⟨herase, by decide, rfl, rfl⟩))
  obtain ⟨hiff, hpicture⟩ := @typed_mirrors_iff emptyScreen reading
    (((reading.input 97).input 98).input charBackspace) fb hshow (fun _ _ _ _ _ => rfl)
    ⟨rfl, rfl, rfl, rfl⟩ [97, 98, charBackspace]
  obtain ⟨s, hs, hshown⟩ := hpicture hrun
  exact ⟨fb, s, _, hshow, hiff.mpr hrun, by decide, hs, hshown⟩

end Tty
end Leg
