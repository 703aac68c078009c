import Leg.Device.Tty

/-! The line buffer as a line editor: the lines `tty_readline` returns against those that were
completed. -/
namespace Leg
open Runs RingBuffer

/-- The first completed line of the pending characters, and those behind its newline. -/
def firstLine : List ℕ → Option (List ℕ × List ℕ)
  | [] => none
  | c :: cs =>
    if c = charNewline then some ([], cs) else (firstLine cs).map fun l => (c :: l.1, l.2)

theorem firstLine_eq_some {pending line rest : List ℕ} :
    firstLine pending = some (line, rest) ↔
      pending = line ++ charNewline :: rest ∧ charNewline ∉ line := by
  induction pending generalizing line with
  | nil => simp [firstLine]
  | cons c cs ih =>
    rw [firstLine]
    split
    next hc =>
      subst hc
      cases line with
      | nil => simp
      | cons d ds =>
        simp only [Option.some.injEq, Prod.mk.injEq, List.cons_append, List.cons.injEq,
          List.mem_cons, not_or]
        exact ⟨fun h => absurd h.1 (by simp), fun h => absurd h.1.1 h.2.1⟩
    next hc =>
      simp only [Option.map_eq_some_iff, Prod.exists, Prod.mk.injEq]
      cases line with
      | nil =>
        refine ⟨fun ⟨_, _, _, h, _⟩ => absurd h (by simp), fun h => ?_⟩
        exact absurd (List.cons.inj h.1).1 hc
      | cons d ds =>
        constructor
        · rintro ⟨l, r, hl, heq, rfl⟩
          obtain ⟨rfl, rfl⟩ := List.cons.inj heq
          obtain ⟨hcs, hno⟩ := ih.mp hl
          exact ⟨by rw [hcs]; rfl, fun h => (List.mem_cons.mp h).elim (fun h => hc h.symm) hno⟩
        · rintro ⟨heq, hno⟩
          obtain ⟨rfl, hcs⟩ := List.cons.inj heq
          exact ⟨ds, rest, ih.mpr ⟨hcs, fun h => hno (List.mem_cons_of_mem _ h)⟩, rfl, rfl⟩

/-- A return of `tty_readline`: the line that was due, the length and the caller's memory. -/
structure LineRead where
  due : Option (List ℕ)
  length : ℕ
  mem : ℕ → ℕ

/-- The line was due, and is returned with its length and a terminator. -/
def LineRead.Right (r : LineRead) : Prop :=
  ∃ line, r.due = some line ∧ r.length = line.length ∧
    (List.range r.length).map r.mem = line ∧ r.mem r.length = 0

inductive LineOp where
  | input (c : ℕ)
  /-- `tty_readline` is called with this `max` over this memory, up to its wait loop. -/
  | call (max : ℕ) (buf : ℕ → ℕ)
  /-- It finds `g_line_ready` set, and returns. -/
  | ret

/-- The terminal with the characters that are pending by the editor's account, and every return
so far. -/
structure LineRun where
  tty : Tty
  reading : Option (ℕ × (ℕ → ℕ))
  pending : List ℕ
  returns : List LineRead

namespace LineRun

def next (t : LineRun) : LineOp → Option LineRun
  | .input c => some { t with
      tty := t.tty.input c
      pending := if Tty.Erases c then t.pending.dropLast else t.pending ++ [Tty.typed c] }
  | .call max buf =>
    if t.reading = none then some { t with tty := t.tty.readlineCall, reading := some (max, buf) }
    else none
  | .ret => match t.reading with
    | none => none
    | some (max, buf) =>
      if t.tty.lineReady then
        let (tty, n, mem) := t.tty.readlineReturn buf max
        some {
          tty := tty
          reading := none
          pending := ((firstLine t.pending).map Prod.snd).getD t.pending
          returns := ⟨(firstLine t.pending).map Prod.fst, n, mem⟩ :: t.returns }
      else none

/-- Readers pass room for a whole buffer, and the buffer stays short of full. -/
def Within (t : LineRun) : LineOp → Prop
  | .input c => Tty.Erases c ∨ t.pending.length + 1 < lineBufSize - 1
  | .call max _ => lineBufSize ≤ max ∧ max < 4294967296
  | .ret => True

def Step (t : LineRun) (op : LineOp) (u : LineRun) : Prop := t.Within op ∧ t.next op = some u

def Boot (t : LineRun) : Prop :=
  t.tty.lineLen = 0 ∧ t.tty.lineReady = false ∧ t.reading = none ∧ t.pending = [] ∧ t.returns = []

/-- Every reader got the line it was due, and a completed line keeps no reader waiting. -/
structure ReadsLines (t : LineRun) : Prop where
  right : ∀ r ∈ t.returns, r.Right
  ready : charNewline ∈ t.pending → t.tty.lineReady = true

/-- A reader returns while the pending characters are one line and its newline. -/
def OneLine (t : LineRun) : LineOp → Prop
  | .ret => ∃ line, t.pending = line ++ [charNewline] ∧ charNewline ∉ line
  | _ => True

structure LinesOk (t : LineRun) : Prop where
  holds : Holds lineBufSize t.tty.lineBuf t.tty.lineStart t.pending
  len : t.tty.lineLen = t.pending.length
  room : t.pending.length < lineBufSize - 1
  max : ∀ max buf, t.reading = some (max, buf) → lineBufSize ≤ max ∧ max < 4294967296

variable {t u : LineRun}

theorem input_linesOk {c : ℕ} (h : t.LinesOk) (hs : t.Step (.input c) u) :
    u.LinesOk ∧ u.returns = t.returns ∧
      (charNewline ∈ u.pending → charNewline ∈ t.pending ∨ u.tty.lineReady = true) ∧
      (t.tty.lineReady = true → u.tty.lineReady = true) := by
  obtain ⟨hw, hn⟩ := hs
  have hlen := h.len
  have hroom := h.room
  rw [next, Option.some.injEq] at hn
  subst hn
  by_cases he : Tty.Erases c
  · obtain ⟨hbuf, hl, hst, hr, -⟩ := t.tty.input_of_erases he
    simp only [if_pos he]
    refine ⟨⟨?_, ?_, ?_, h.max⟩, trivial, fun hmem => .inl (List.dropLast_subset _ hmem),
      fun hready => hr.trans hready⟩
    · rw [hbuf, hst]
      exact h.holds.dropLast
    · rw [hl, List.length_dropLast, hlen]
    · dsimp only
      rw [List.length_dropLast]
      omega
  · have hstore : t.tty.lineLen < lineBufSize - 1 := by omega
    obtain ⟨hbuf, hl, hst, hr, -⟩ := t.tty.store_of_room (Tty.typed c) hstore
    simp only [if_neg he, Tty.input_of_typed _ he]
    have hlt := hw.resolve_left he
    refine ⟨⟨?_, ?_, ?_, h.max⟩, trivial, fun hmem => ?_, fun hready => ?_⟩
    · rw [hbuf, hst, u32_mod_lineBufSize, hlen]
      exact h.holds.push (by omega) _
    · rw [hl, List.length_append, List.length_singleton, hlen]
    · rw [List.length_append, List.length_singleton]
      exact hlt
    · refine (List.mem_append.mp hmem).imp id fun hc => ?_
      rw [hr, decide_eq_true (List.mem_singleton.mp hc).symm, Bool.or_true]
    · rw [hr, hready, Bool.true_or]

/-- What `tty_readline` returns when something is pending: all of it but the last character. -/
theorem readlineReturn_pending (h : t.LinesOk) (buf : ℕ → ℕ) {max : ℕ}
    (hmax : lineBufSize ≤ max ∧ max < 4294967296) (h0 : t.pending ≠ []) :
    let r := t.tty.readlineReturn buf max
    r.2.1 = t.pending.length - 1 ∧ (List.range r.2.1).map r.2.2 = t.pending.dropLast ∧
      r.2.2 r.2.1 = 0 ∧ r.1.lineLen = 0 := by
  have hlen := h.len
  have hroom := h.room
  have hpos : 0 < t.pending.length := List.length_pos_iff.mpr h0
  have hne : t.tty.lineLen ≠ 0 := by omega
  have hlt : t.tty.lineLen < wsub max 1 := by
    unfold lineBufSize at *
    rw [wsub_of_le (by omega) hmax.2]
    omega
  rw [hlen] at hne hlt
  simp only [Tty.readlineReturn, hlen, if_neg hne, if_pos hlt, Function.update_self]
  refine ⟨trivial, ?_, trivial, trivial⟩
  refine List.ext_getElem (by simp) fun k hk hk' => ?_
  have hk₁ : k < t.pending.length - 1 := by simpa using hk
  have hk₂ : k < t.pending.length := by omega
  rw [List.getElem_map, List.getElem_range, Function.update_of_ne (by omega), if_pos hk₂,
    u32_mod_lineBufSize, h.holds.get k hk₂, List.getElem_dropLast]

theorem ret_cases (hs : t.Step .ret u) : ∃ max buf, t.reading = some (max, buf) ∧
    t.tty.lineReady = true ∧
    u = ⟨(t.tty.readlineReturn buf max).1, none,
      ((firstLine t.pending).map Prod.snd).getD t.pending,
      ⟨(firstLine t.pending).map Prod.fst, (t.tty.readlineReturn buf max).2.1,
        (t.tty.readlineReturn buf max).2.2⟩ :: t.returns⟩ := by
  have hn := hs.2
  rw [next] at hn
  split at hn
  next => exact absurd hn (by simp)
  next max buf hr =>
    split at hn
    next hready => exact ⟨max, buf, hr, hready, (Option.some.inj hn).symm⟩
    next => exact absurd hn (by simp)

/-- The return is right exactly if one line was pending. -/
theorem ret_right_iff (h : t.LinesOk) {max : ℕ} {buf : ℕ → ℕ}
    (hmax : lineBufSize ≤ max ∧ max < 4294967296) :
    LineRead.Right ⟨(firstLine t.pending).map Prod.fst, (t.tty.readlineReturn buf max).2.1,
      (t.tty.readlineReturn buf max).2.2⟩ ↔ t.OneLine .ret := by
  constructor
  · rintro ⟨line, hdue, hn, -, -⟩
    obtain ⟨⟨line', rest⟩, hfirst, rfl⟩ := Option.map_eq_some_iff.mp hdue
    obtain ⟨hp, hno⟩ := firstLine_eq_some.mp hfirst
    have hne : t.pending ≠ [] := by
      rw [hp]
      simp
    rw [(readlineReturn_pending h buf hmax hne).1, hp, List.length_append, List.length_cons] at hn
    dsimp only at hn
    have hrest : rest = [] := List.length_eq_zero_iff.mp (by omega)
    exact ⟨line', by rw [hp, hrest], hno⟩
  · rintro ⟨line, hp, hno⟩
    have hfirst : firstLine t.pending = some (line, []) := firstLine_eq_some.mpr ⟨hp, hno⟩
    have hne : t.pending ≠ [] := by
      rw [hp]
      simp
    obtain ⟨hn, hmem, hz, -⟩ := readlineReturn_pending h buf hmax hne
    refine ⟨line, by rw [hfirst]; rfl, ?_, ?_, hz⟩
    · dsimp only
      rw [hn, hp]
      simp
    · dsimp only
      rw [hmem, hp, List.dropLast_concat]

theorem ret_linesOk (h : t.LinesOk) (hone : t.OneLine .ret) (hs : t.Step .ret u) :
    u.LinesOk ∧ u.pending = [] := by
  obtain ⟨max, buf, hr, -, rfl⟩ := ret_cases hs
  obtain ⟨line, hp, hno⟩ := hone
  have hfirst : firstLine t.pending = some (line, []) := firstLine_eq_some.mpr ⟨hp, hno⟩
  have hne : t.pending ≠ [] := by
    rw [hp]
    simp
  obtain ⟨-, -, -, hlen⟩ := readlineReturn_pending h buf (h.max max buf hr) hne
  have hempty : ((firstLine t.pending).map Prod.snd).getD t.pending = [] := by
    rw [hfirst]
    rfl
  refine ⟨⟨?_, ?_, ?_, fun _ _ hc => absurd hc (by simp)⟩, hempty⟩
  · simp only [hempty]
    exact .nil
  · simp only [hempty, hlen, List.length_nil]
  · simp only [hempty]
    decide

theorem call_step {max : ℕ} {buf : ℕ → ℕ} (hs : t.Step (.call max buf) u) :
    u = { t with tty := t.tty.readlineCall, reading := some (max, buf) } := by
  have hn := hs.2
  rw [next] at hn
  split at hn
  next => exact (Option.some.inj hn).symm
  next => exact absurd hn (by simp)

theorem call_linesOk {max : ℕ} {buf : ℕ → ℕ} (h : t.LinesOk) (hs : t.Step (.call max buf) u) :
    u.LinesOk := by
  rw [call_step hs]
  refine ⟨h.holds, h.len, h.room, fun max' buf' hc => ?_⟩
  obtain ⟨rfl, rfl⟩ := Prod.mk.inj (Option.some.inj hc)
  exact hs.1

/-- From a state in which every reader has got its line, a step leads to such a state exactly if
it is no return over more or less than one line. -/
theorem step_readsLines_iff {op : LineOp} (h : t.LinesOk) (hp : t.ReadsLines) (hs : t.Step op u) :
    u.ReadsLines ↔ t.OneLine op := by
  cases op with
  | input c =>
    obtain ⟨-, hret, hnl, hready⟩ := input_linesOk h hs
    refine ⟨fun _ => trivial, fun _ => ⟨by rw [hret]; exact hp.right, fun hc => ?_⟩⟩
    exact (hnl hc).elim (fun hold => hready (hp.ready hold)) id
  | call max buf =>
    rw [call_step hs]
    exact ⟨fun _ => trivial, fun _ => ⟨hp.right, hp.ready⟩⟩
  | ret =>
    have hiff : u.ReadsLines → t.OneLine .ret := by
      intro hu
      obtain ⟨max, buf, hr, -, rfl⟩ := ret_cases hs
      exact (ret_right_iff h (h.max max buf hr)).mp (hu.right _ (List.mem_cons_self ..))
    refine ⟨hiff, fun hone => ?_⟩
    have hempty := (ret_linesOk h hone hs).2
    refine ⟨fun r hr => ?_, fun hc => absurd hc (by simp [hempty])⟩
    obtain ⟨max, buf, hreading, -, rfl⟩ := ret_cases hs
    rcases List.mem_cons.mp hr with rfl | hr
    · exact (ret_right_iff h (h.max max buf hreading)).mpr hone
    · exact hp.right r hr

theorem step_linesOk {op : LineOp} (h : t.LinesOk) (hone : t.OneLine op) (hs : t.Step op u) :
    u.LinesOk := by
  cases op with
  | input c => exact (input_linesOk h hs).1
  | call max buf => exact call_linesOk h hs
  | ret => exact (ret_linesOk h hone hs).1

theorem boot_linesOk (h : t.Boot) : t.LinesOk ∧ t.ReadsLines := by
  obtain ⟨hl, -, hr, hp, hret⟩ := h
  refine ⟨⟨?_, ?_, ?_, ?_⟩, ⟨?_, ?_⟩⟩
  · rw [hp]
    exact .nil
  · rw [hl, hp]
    rfl
  · rw [hp]
    decide
  · rw [hr]
    exact fun _ _ hc => absurd hc (by simp)
  · rw [hret]
    exact fun _ hc => absurd hc (by simp)
  · rw [hp]
    exact fun hc => absurd hc (by simp)

/-- The runs in which every reader gets the line it is due are those in which each reader returns
while the pending characters are one line and its newline. -/
theorem run_readsLines_iff {ops : List LineOp} (h : t.Boot) :
    Run (Along ReadsLines Step) t ops u ↔ Run (Meeting OneLine Step) t ops u :=
  along_iff_meeting (I := fun t => t.ReadsLines → t.LinesOk) Step OneLine
    (fun _ _ _ hi hp hs hu => step_linesOk (hi hp) ((step_readsLines_iff (hi hp) hp hs).mp hu) hs)
    (fun _ _ _ hi hp hs => step_readsLines_iff (hi hp) hp hs) (fun _ => (boot_linesOk h).1)
    (boot_linesOk h).2

instance (t : LineRun) (op : LineOp) : Decidable (t.Within op) :=
  match op with
  | .input _ => inferInstanceAs (Decidable (_ ∨ _))
  | .call _ _ => inferInstanceAs (Decidable (_ ∧ _))
  | .ret => isTrue trivial

/-- The terminal after boot. -/
def first : LineRun := ⟨⟨fun _ => 0, 0, false, 0, false, []⟩, none, [], []⟩

theorem first_boot : first.Boot := ⟨rfl, rfl, rfl, rfl, rfl⟩

/-- The pending characters end in their only newline. -/
def endsLine (t : LineRun) : Bool := firstLine t.pending = some (t.pending.dropLast, [])

theorem oneLine_of_endsLine (h : t.endsLine = true) : t.OneLine .ret := by
  obtain ⟨hp, hno⟩ := firstLine_eq_some.mp (of_decide_eq_true h)
  exact ⟨_, hp, hno⟩

/-- A test of the steps that keep readers right. -/
def accepts (t : LineRun) (op : LineOp) : Bool :=
  decide (t.Within op) && match op with
    | .ret => t.endsLine
    | _ => true

theorem accepts_meeting {op : LineOp} (h : t.accepts op = true) (hn : t.next op = some u) :
    Meeting OneLine Step t op u := by
  obtain ⟨hw, hone⟩ := (Bool.and_eq_true _ _).mp h
  refine ⟨?_, of_decide_eq_true hw, hn⟩
  cases op with
  | ret => exact oneLine_of_endsLine hone
  | input c => trivial
  | call max buf => trivial

/-- A line with a correction, and a second one that is typed before the reader comes. -/
def twoLines : List LineOp :=
  [.call 256 fun _ => 0, .input 97, .input 98, .input charBackspace, .input 99, .input charReturn,
    .ret, .input 100, .input charNewline, .call 300 fun _ => 0, .ret]

theorem twoLines_readsLines : ∃ u, Run (Along ReadsLines Step) first twoLines u ∧
    u.returns.map LineRead.due = [some [100], some [97, 99]] := by
  have hsome : ((execute accepts next first twoLines).any fun u =>
      decide (u.returns.map LineRead.due = [some [100], some [97, 99]])) = true := by decide +kernel
  obtain ⟨u, hu, hdue⟩ := (Option.any_eq_true _ _).mp hsome
  have hrun : Run (Meeting OneLine Step) first twoLines u :=
    Run.of_execute (fun _ _ _ => accepts_meeting) hu
  exact ⟨u, (run_readsLines_iff first_boot).mpr hrun, of_decide_eq_true hdue⟩

/-- Two lines typed ahead of the reader, who gets both as one. -/
def typedAhead : List LineOp :=
  [.input 97, .input charReturn, .input 98, .input charReturn, .call 256 fun _ => 0, .ret]

theorem readline_merges_lines : ¬ ∀ t ops u, Boot t → Run Step t ops u → u.ReadsLines := by
  intro h
  have hbad : ((execute (fun t op => decide (t.Within op)) next first typedAhead).any fun u =>
      u.returns.any fun r => decide (r.due = some [97] ∧ r.length = 3)) = true := by decide +kernel
  obtain ⟨u, hu, hread⟩ := (Option.any_eq_true _ _).mp hbad
  obtain ⟨r, hr, hwrong⟩ := List.any_eq_true.mp hread
  obtain ⟨hdue, hlen⟩ := of_decide_eq_true hwrong
  have hrun : Run Step first typedAhead u :=
    Run.of_execute (fun _ _ _ hok hn => ⟨of_decide_eq_true hok, hn⟩) hu
  obtain ⟨line, hline, hsame, -⟩ := (h _ _ _ first_boot hrun).right r hr
  obtain rfl := Option.some.inj (hdue.symm.trans hline)
  rw [hlen] at hsame
  exact absurd hsame (by decide)

end LineRun

end Leg
