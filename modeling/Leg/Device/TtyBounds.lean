import Leg.Device.Tty

/-! Which bytes of its caller's buffer `tty_readline` writes. The loop copies the whole of the
pending characters, whatever room the caller said there was; only the length that is returned
and the place of the terminator go by that. -/
namespace Leg
open Runs RingBuffer

namespace Tty
variable (t : Tty) (max : ℕ)

/-- The length `tty_readline` returns when something is pending. -/
def readlineLength : ℕ := if t.lineLen < wsub max 1 then t.lineLen - 1 else wsub max 1

/-- The stores of `tty_readline` into the caller's buffer, in order. -/
def readlineStores : List (ℕ × ℕ) :=
  if t.lineLen = 0 then []
  else (List.range t.lineLen).map (fun i => (i, t.lineBuf (u32 (t.lineStart + i) % lineBufSize))) ++
    [(t.readlineLength max, 0)]

theorem readlineReturn_of_pos (h : t.lineLen ≠ 0) (buf : ℕ → ℕ) :
    t.readlineReturn buf max = ({ t with
      lineStart := u32 (t.lineStart + t.lineLen) % lineBufSize
      lineLen := 0
      lineReady := false
      echoChars := false }, t.readlineLength max, Function.update
        (fun i => if i < t.lineLen then t.lineBuf (u32 (t.lineStart + i) % lineBufSize) else buf i)
        (t.readlineLength max) 0) := if_neg h

end Tty

/-- The terminal with the characters that are pending in its buffer. -/
structure TtyPending where
  tty : Tty
  pending : List ℕ

inductive TtyCall where
  | input (c : ℕ)
  | getchar
  | getcharNb
  /-- `tty_readline` up to its wait loop. -/
  | call
  /-- It finds `g_line_ready` set, and returns. -/
  | ret (max : ℕ) (buf : ℕ → ℕ)

namespace TtyPending

def next (t : TtyPending) : TtyCall → Option TtyPending
  | .input c => some ⟨t.tty.input c,
      if Tty.Erases c then t.pending.dropLast
      else if t.tty.lineLen < lineBufSize - 1 then t.pending ++ [Tty.typed c] else t.pending⟩
  | .getchar => t.tty.getchar.map fun r => ⟨r.1, t.pending.tail⟩
  | .getcharNb => some ⟨t.tty.getcharNb.1, t.pending.tail⟩
  | .call => some ⟨t.tty.readlineCall, t.pending⟩
  | .ret max buf =>
    if t.tty.lineReady then some ⟨(t.tty.readlineReturn buf max).1, []⟩ else none

def Step (t : TtyPending) (op : TtyCall) (u : TtyPending) : Prop := t.next op = some u

def Boot (t : TtyPending) : Prop := t.tty.lineLen = 0 ∧ t.tty.lineStart = 0 ∧ t.pending = []

/-- The states that typing and reading lead to. -/
def Reachable (t : TtyPending) : Prop := Runs.Reachable Boot Step t

/-- The pending characters lie in the ring, which is never full. -/
structure PendingOk (t : TtyPending) : Prop where
  holds : Holds lineBufSize t.tty.lineBuf t.tty.lineStart t.pending
  len : t.tty.lineLen = t.pending.length
  room : t.tty.lineLen < lineBufSize

/-- `tty_readline` returns from `t`, with `max` bytes of room in the buffer `buf`: it stores
within them, and leaves there a terminated piece of the pending characters. -/
structure ReadBounded (t : TtyPending) (buf : ℕ → ℕ) (max : ℕ) : Prop where
  inside : ∀ w ∈ t.tty.readlineStores max, w.1 < max
  length : (t.tty.readlineReturn buf max).2.1 < max
  terminated : (t.tty.readlineReturn buf max).2.2 (t.tty.readlineReturn buf max).2.1 = 0
  characters : (List.range (t.tty.readlineReturn buf max).2.1).map
    (t.tty.readlineReturn buf max).2.2 <+: t.pending

variable {t u : TtyPending} {op : TtyCall} {buf : ℕ → ℕ} {max : ℕ}

theorem take_pendingOk (h : t.PendingOk) (h0 : t.tty.lineLen ≠ 0) :
    PendingOk ⟨{ t.tty with lineStart := u32 (t.tty.lineStart + 1), lineLen := t.tty.lineLen - 1 },
      t.pending.tail⟩ := by
  have hlen := h.len
  have hroom := h.room
  obtain ⟨x, xs, hq⟩ : ∃ x xs, t.pending = x :: xs :=
    List.exists_cons_of_ne_nil fun hnil => h0 (by rw [hlen, hnil]; rfl)
  have hholds := h.holds
  rw [hq] at hholds hlen
  rw [List.length_cons] at hlen
  rw [hq, List.tail_cons]
  exact ⟨hholds.pop.congr (u32_mod_lineBufSize _), by dsimp only; omega, by dsimp only; omega⟩

theorem input_pendingOk {c : ℕ} (h : t.PendingOk) (hs : t.Step (.input c) u) : u.PendingOk := by
  have hlen := h.len
  have hroom := h.room
  rw [Step, next, Option.some.injEq] at hs
  subst hs
  by_cases he : Tty.Erases c
  · obtain ⟨hbuf, hl, hst, -, -⟩ := t.tty.input_of_erases he
    simp only [if_pos he]
    refine ⟨?_, ?_, by dsimp only; omega⟩
    · rw [hbuf, hst]
      exact h.holds.dropLast
    · rw [hl, List.length_dropLast, hlen]
  · simp only [if_neg he, Tty.input_of_typed _ he]
    by_cases hr : t.tty.lineLen < lineBufSize - 1
    · obtain ⟨hbuf, hl, hst, -, -⟩ := t.tty.store_of_room (Tty.typed c) hr
      simp only [if_pos hr]
      refine ⟨?_, ?_, by dsimp only; omega⟩
      · rw [hbuf, hst, u32_mod_lineBufSize, hlen]
        exact h.holds.push (by omega) _
      · rw [hl, List.length_append, List.length_singleton, hlen]
    · obtain ⟨hbuf, hl, hst⟩ := t.tty.store_of_full (Tty.typed c) hr
      simp only [if_neg hr]
      refine ⟨?_, by rw [hl, hlen], by dsimp only; omega⟩
      rw [hbuf, hst]
      exact h.holds

theorem step_pendingOk (h : t.PendingOk) (hs : t.Step op u) : u.PendingOk := by
  have hlen := h.len
  have hn : t.next op = some u := hs
  cases op with
  | input c => exact input_pendingOk h hs
  | getchar =>
    by_cases h0 : t.tty.lineLen = 0
    · simp [next, Tty.getchar, h0] at hn
    · simp only [next, Tty.getchar, if_neg h0, Option.map_some, Option.some.injEq] at hn
      exact hn ▸ take_pendingOk h h0
  | getcharNb =>
    by_cases h0 : t.tty.lineLen = 0
    · have hnil : t.pending = [] := List.length_eq_zero_iff.mp (by omega)
      simp only [next, Tty.getcharNb, if_pos h0, hnil, List.tail_nil, Option.some.injEq] at hn
      rw [← hn, ← hnil]
      exact h
    · simp only [next, Tty.getcharNb, if_neg h0, Option.some.injEq] at hn
      exact hn ▸ take_pendingOk h h0
  | call =>
    rw [← Option.some.inj hn]
    exact ⟨h.holds, h.len, h.room⟩
  | ret max buf =>
    rw [next] at hn
    split at hn
    next =>
      rw [← Option.some.inj hn]
      unfold Tty.readlineReturn
      split
      next h0 => exact ⟨.nil, h0, h.room⟩
      next => exact ⟨.nil, rfl, Nat.zero_lt_succ 255⟩
    next => exact absurd hn (by simp)

theorem Reachable.pendingOk (h : Reachable t) : t.PendingOk := by
  obtain ⟨s, ops, ⟨hl, hst, hp⟩, hr⟩ := h
  refine hr.preserves (I := PendingOk) (fun _ _ _ hi hs => step_pendingOk hi hs) ⟨?_, ?_, ?_⟩
  · rw [hp]
    exact .nil
  · rw [hl, hp]
    rfl
  · rw [hl]
    decide

theorem readlineReturn_pending (h : t.PendingOk) (buf : ℕ → ℕ) (h0 : t.pending ≠ [])
    (hmax : 0 < max) (hlt : max < 4294967296) :
    let r := t.tty.readlineReturn buf max
    t.tty.readlineLength max < max ∧ r.2.1 = t.tty.readlineLength max ∧ r.2.2 r.2.1 = 0 ∧
      (List.range r.2.1).map r.2.2 = t.pending.take r.2.1 := by
  have hlen := h.len
  have hpos : 0 < t.pending.length := List.length_pos_iff.mpr h0
  have hn : t.tty.readlineLength max < max ∧ t.tty.readlineLength max ≤ t.tty.lineLen := by
    unfold Tty.readlineLength
    rw [wsub_of_le (by omega) hlt]
    split <;> omega
  have hne : t.tty.lineLen ≠ 0 := by omega
  rw [t.tty.readlineReturn_of_pos max hne]
  dsimp only
  generalize t.tty.readlineLength max = n at hn
  refine ⟨hn.1, rfl, by simp, ?_⟩
  refine List.ext_getElem (by simp; omega) fun k hk hk' => ?_
  have hkn : k < n := by simpa using hk
  rw [List.getElem_map, List.getElem_range, Function.update_of_ne (by omega), if_pos (by omega),
    u32_mod_lineBufSize, h.holds.get k (by omega), List.getElem_take]

/-- In every state that typing and reading lead to, and for every room of at least one byte,
`tty_readline` keeps to its buffer and leaves a terminated piece of the pending characters
there exactly when they fit, and are there unless the buffer begins with a null. -/
theorem readline_bounded_iff (h : Reachable t) (hmax : 0 < max) (hlt : max < 4294967296) :
    ReadBounded t buf max ↔ t.pending.length ≤ max ∧ (t.pending = [] → buf 0 = 0) := by
  have hok := h.pendingOk
  have hlen := hok.len
  by_cases hnil : t.pending = []
  · have h0 : t.tty.lineLen = 0 := by rw [hlen, hnil]; rfl
    have hr : t.tty.readlineReturn buf max =
        ({ t.tty with lineReady := false, echoChars := false }, 0, buf) := if_pos h0
    have hs : t.tty.readlineStores max = [] := if_pos h0
    constructor
    · intro hb
      refine ⟨by simp [hnil], fun _ => ?_⟩
      have := hb.terminated
      rwa [hr] at this
    · rintro ⟨-, hz⟩
      refine ⟨by simp [hs], by rw [hr]; exact hmax, by rw [hr]; exact hz hnil, by simp [hr]⟩
  · obtain ⟨hn, hlength, hzero, hchars⟩ := readlineReturn_pending hok buf hnil hmax hlt
    have hs : t.tty.readlineStores max = (List.range t.tty.lineLen).map (fun i =>
        (i, t.tty.lineBuf (u32 (t.tty.lineStart + i) % lineBufSize))) ++
          [(t.tty.readlineLength max, 0)] :=
      if_neg fun h0 => hnil (List.length_eq_zero_iff.mp (hlen ▸ h0))
    constructor
    · intro hb
      refine ⟨?_, fun h0 => absurd h0 hnil⟩
      -- the last of the pending characters is stored too
      have hpos : 0 < t.pending.length := List.length_pos_iff.mpr hnil
      have := hb.inside (t.pending.length - 1, _) (by
        rw [hs]
        exact List.mem_append_left _ (List.mem_map.mpr ⟨_, List.mem_range.mpr (by omega), rfl⟩))
      dsimp only at this
      omega
    · rintro ⟨hfit, -⟩
      refine ⟨fun w hw => ?_, hlength.symm ▸ hn, hzero, hchars ▸ List.take_prefix _ _⟩
      rw [hs] at hw
      rcases List.mem_append.mp hw with hw | hw
      · obtain ⟨i, hi, rfl⟩ := List.mem_map.mp hw
        have := List.mem_range.mp hi
        dsimp only
        omega
      · rw [List.mem_singleton.mp hw]
        dsimp only
        exact hn

/-- The terminal after boot. -/
def first : TtyPending := ⟨⟨fun _ => 0, 0, false, 0, false, []⟩, []⟩

/-- A reader is there, and these characters are typed. -/
def typing (cs : List ℕ) : List TtyCall := .call :: cs.map .input

theorem exists_typed (cs : List ℕ) (P : TtyPending → Prop) [DecidablePred P]
    (h : (execute (fun _ _ => true) next first (typing cs)).any fun t => decide (P t)) :
    ∃ t, Reachable t ∧ P t := by
  obtain ⟨t, ht, hp⟩ := (Option.any_eq_true _ _).mp h
  exact ⟨t, ⟨first, _, ⟨rfl, rfl, rfl⟩, .of_execute (fun _ _ _ _ hn => hn) ht⟩,
    of_decide_eq_true hp⟩

/-- A letter and Return, into four bytes. -/
theorem readline_bounded_letter : ∃ t, Reachable t ∧ t.tty.lineReady = true ∧
    ReadBounded t (fun _ => 1) 4 := by
  obtain ⟨t, ht, hready, hp⟩ := exists_typed [97, charReturn]
    (fun t => t.tty.lineReady = true ∧ t.pending = [97, charNewline]) (by decide +kernel)
  refine ⟨t, ht, hready, (readline_bounded_iff ht (by decide) (by decide)).mpr ?_⟩
  rw [hp]
  exact ⟨by decide, fun h => absurd h (by decide)⟩

/-- Five letters and Return, into two bytes: six are written. And Return taken back: nothing is
pending, and nothing is written. -/
theorem readline_unbounded :
    (∃ t, Reachable t ∧ t.tty.lineReady = true ∧ t.pending.length = 6 ∧
      ¬ ReadBounded t (fun _ => 1) 2) ∧
    ∃ t, Reachable t ∧ t.tty.lineReady = true ∧ t.pending = [] ∧
      ¬ ReadBounded t (fun _ => 1) 2 := by
  constructor
  · obtain ⟨t, ht, hready, hlen, w, hw, hout⟩ := exists_typed [97, 98, 99, 100, 101, charReturn]
      (fun t => t.tty.lineReady = true ∧ t.pending.length = 6 ∧
        ∃ w ∈ t.tty.readlineStores 2, ¬ w.1 < 2) (by decide +kernel)
    exact ⟨t, ht, hready, hlen, fun hb => hout (hb.inside w hw)⟩
  · obtain ⟨t, ht, hready, hnil, hone⟩ := exists_typed [charReturn, charBackspace]
      (fun t => t.tty.lineReady = true ∧ t.pending = [] ∧
        (t.tty.readlineReturn (fun _ => 1) 2).2.2 (t.tty.readlineReturn (fun _ => 1) 2).2.1 = 1)
      (by decide +kernel)
    exact ⟨t, ht, hready, hnil, fun hb => absurd (hone.symm.trans hb.terminated) (by decide)⟩

end TtyPending

end Leg
