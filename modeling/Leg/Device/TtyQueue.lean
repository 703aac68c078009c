import Leg.Device.Tty

/-! The line buffer as a queue of characters: what `tty_input` puts in, the last of them erased by
backspaces, against what the two `tty_getchar`s take out. -/
namespace Leg
open Runs RingBuffer

/-- A queue whose last entry can be erased; `out` is what has been taken from it. -/
structure EraseQueue where
  queue : List ℕ
  out : List ℕ

namespace EraseQueue

def put (q : EraseQueue) (c : ℕ) : EraseQueue := { q with queue := q.queue ++ [c] }

def erase (q : EraseQueue) : EraseQueue := { q with queue := q.queue.dropLast }

def take (q : EraseQueue) : EraseQueue := ⟨q.queue.tail, q.out ++ q.queue.head?.toList⟩

end EraseQueue

inductive TtyOp where
  | input (c : ℕ)
  | getchar
  | getcharNb

/-- The buffer with the queue it stands for, the characters it has delivered and the indices at
which `g_line_buf` was accessed. -/
structure TtyRun where
  tty : Tty
  queue : EraseQueue
  delivered : List ℕ
  indices : List ℕ

namespace TtyRun

/-- What a character does to the queue. -/
def accept (q : EraseQueue) (room : Prop) [Decidable room] (c : ℕ) : EraseQueue :=
  if Tty.Erases c then q.erase else if room then q.put (Tty.typed c) else q

/-- The index at which `tty_input` stores the character, if it does. -/
def stored (t : Tty) (c : ℕ) : Option ℕ :=
  if Tty.Erases c then none
  else if t.lineLen < lineBufSize - 1 then some (u32 (t.lineStart + t.lineLen) % lineBufSize)
  else none

/-- One call; `tty_getchar` is called when a character is pending. -/
def next (t : TtyRun) : TtyOp → Option TtyRun
  | .input c => some { t with
      tty := t.tty.input c
      queue := accept t.queue (t.tty.lineLen < lineBufSize - 1) c
      indices := t.indices ++ (stored t.tty c).toList }
  | .getchar => t.tty.getchar.map fun (tty, c, i) =>
    ⟨tty, t.queue.take, t.delivered ++ [c], t.indices ++ [i]⟩
  | .getcharNb => match t.tty.getcharNb with
    | (tty, c, some i) => some ⟨tty, t.queue.take, t.delivered ++ [c], t.indices ++ [i]⟩
    | (tty, _, none) => some { t with tty := tty, queue := t.queue.take }

def Step (t : TtyRun) (op : TtyOp) (u : TtyRun) : Prop := t.next op = some u

/-- The zeroed globals. -/
def Boot (t : TtyRun) : Prop :=
  t.tty.lineLen = 0 ∧ t.tty.lineStart = 0 ∧ t.queue = ⟨[], []⟩ ∧ t.delivered = [] ∧ t.indices = []

/-- What has come out is what the queue says, and no access was outside the buffer. -/
def Delivers (t : TtyRun) : Prop :=
  t.delivered = t.queue.out ∧ ∀ i ∈ t.indices, i < lineBufSize

structure QueueOk (t : TtyRun) : Prop where
  holds : Holds lineBufSize t.tty.lineBuf t.tty.lineStart t.queue.queue
  len : t.tty.lineLen = t.queue.queue.length
  room : t.tty.lineLen < lineBufSize
  start : t.tty.lineStart = u32 t.queue.out.length
  delivers : t.Delivers ↔ t.queue.out.length ≤ lineBufSize

variable {t u : TtyRun}

theorem input_delivers {c : ℕ} (h : t.QueueOk) (hn : t.next (.input c) = some u)
    (hout : u.queue.out = t.queue.out) : u.Delivers ↔ u.queue.out.length ≤ lineBufSize := by
  rw [hout, ← h.delivers, Delivers, Delivers, hout]
  rw [← Option.some.inj hn]
  have hindex : ∀ i ∈ (stored t.tty c).toList, i < lineBufSize := by
    intro i hi
    unfold stored at hi
    split at hi
    · exact absurd hi (by simp)
    · split at hi
      · rw [Option.toList_some, List.mem_singleton] at hi
        exact hi ▸ Nat.mod_lt _ (by decide)
      · exact absurd hi (by simp)
  refine and_congr_right fun _ =>
    ⟨fun ha i hi => ha i (List.mem_append_left _ hi), fun ha i hi => ?_⟩
  exact (List.mem_append.mp hi).elim (ha i) (hindex i)

theorem input_queueOk {c : ℕ} (h : t.QueueOk) (hn : t.next (.input c) = some u) : u.QueueOk := by
  have hgood := input_delivers h hn
  have hlen := h.len
  have hroom := h.room
  rw [next, Option.some.injEq] at hn
  have htty : u.tty = t.tty.input c := by rw [← hn]
  have hqueue : u.queue = accept t.queue (t.tty.lineLen < lineBufSize - 1) c := by rw [← hn]
  unfold accept at hqueue
  by_cases he : Tty.Erases c
  · obtain ⟨hbuf, hl, hs, -, -⟩ := t.tty.input_of_erases he
    rw [if_pos he] at hqueue
    rw [← htty] at hbuf hl hs
    have hout : u.queue.out = t.queue.out := by rw [hqueue]; rfl
    have hq : u.queue.queue = t.queue.queue.dropLast := by rw [hqueue]; rfl
    refine ⟨?_, ?_, by omega, ?_, hgood hout⟩
    · rw [hbuf, hs, hq]
      exact h.holds.dropLast
    · rw [hl, hq, List.length_dropLast, hlen]
    · rw [hs, hout, h.start]
  · rw [if_neg he] at hqueue
    rw [Tty.input_of_typed _ he] at htty
    by_cases hr : t.tty.lineLen < lineBufSize - 1
    · obtain ⟨hbuf, hl, hs, -, -⟩ := t.tty.store_of_room (Tty.typed c) hr
      rw [if_pos hr] at hqueue
      rw [← htty] at hbuf hl hs
      have hout : u.queue.out = t.queue.out := by rw [hqueue]; rfl
      have hq : u.queue.queue = t.queue.queue ++ [Tty.typed c] := by rw [hqueue]; rfl
      refine ⟨?_, ?_, by omega, ?_, hgood hout⟩
      · rw [hbuf, hs, hq, u32_mod_lineBufSize, hlen]
        exact h.holds.push (by omega) _
      · rw [hl, hq, List.length_append, List.length_singleton, hlen]
      · rw [hs, hout, h.start]
    · obtain ⟨hbuf, hl, hs⟩ := t.tty.store_of_full (Tty.typed c) hr
      rw [if_neg hr] at hqueue
      rw [← htty] at hbuf hl hs
      have hout : u.queue.out = t.queue.out := by rw [hqueue]
      refine ⟨?_, ?_, by omega, ?_, hgood hout⟩
      · rw [hbuf, hs, hqueue]
        exact h.holds
      · rw [hl, hqueue, hlen]
      · rw [hs, hout, h.start]

/-- Both `tty_getchar`s take a pending character in the same way. -/
theorem take_queueOk (h : t.QueueOk) (h0 : t.tty.lineLen ≠ 0) :
    QueueOk ⟨{ t.tty with lineStart := u32 (t.tty.lineStart + 1), lineLen := t.tty.lineLen - 1 },
      t.queue.take, t.delivered ++ [t.tty.lineBuf t.tty.lineStart],
      t.indices ++ [t.tty.lineStart]⟩ := by
  have hlen := h.len
  have hroom := h.room
  obtain ⟨x, xs, hq⟩ : ∃ x xs, t.queue.queue = x :: xs :=
    List.exists_cons_of_ne_nil fun hnil => h0 (by rw [hlen, hnil]; rfl)
  have htake : t.queue.take = ⟨xs, t.queue.out ++ [x]⟩ := by simp [EraseQueue.take, hq]
  have hholds := h.holds
  rw [hq] at hholds hlen
  rw [List.length_cons] at hlen
  rw [htake]
  refine ⟨hholds.pop.congr (u32_mod_lineBufSize _), by dsimp only; omega,
    by dsimp only; omega, ?_, ?_⟩
  · rw [h.start]
    simp [u32]
  · -- the index read is the number of characters taken so far
    have hdel := h.delivers
    simp only [Delivers, List.length_append, List.length_singleton, List.forall_mem_append,
      List.forall_mem_singleton] at hdel ⊢
    constructor
    · rintro ⟨hout, hin, hlt⟩
      have hle := hdel.mp ⟨(List.append_inj' hout rfl).1, hin⟩
      rw [h.start, u32_of_lt (lt_of_le_of_lt hle (by decide))] at hlt
      exact hlt
    · intro hle
      obtain ⟨hout, hin⟩ := hdel.mpr (by omega)
      have hstart : t.tty.lineStart = t.queue.out.length := by
        rw [h.start, u32_of_lt (lt_of_lt_of_le hle (by decide))]
      have hhead := hholds.head
      rw [hstart, Nat.mod_eq_of_lt hle] at hhead
      exact ⟨by rw [hout, hstart, hhead], hin, by rw [hstart]; exact hle⟩

theorem step_queueOk {op : TtyOp} (h : t.QueueOk) (hs : t.Step op u) : u.QueueOk := by
  have hn : t.next op = some u := hs
  cases op with
  | input c => exact input_queueOk h hn
  | getchar =>
    by_cases h0 : t.tty.lineLen = 0
    · simp [next, Tty.getchar, h0] at hn
    · simp only [next, Tty.getchar, if_neg h0, Option.map_some, Option.some.injEq] at hn
      exact hn ▸ take_queueOk h h0
  | getcharNb =>
    by_cases h0 : t.tty.lineLen = 0
    · have hq : t.queue.queue = [] := List.length_eq_zero_iff.mp (h.len ▸ h0)
      simp only [next, Tty.getcharNb, if_pos h0, Option.some.injEq] at hn
      have htake : t.queue.take = t.queue := by
        rw [EraseQueue.take, hq, List.tail_nil, List.head?_nil, Option.toList_none, List.append_nil,
          ← hq]
      rw [htake] at hn
      exact hn ▸ h
    · simp only [next, Tty.getcharNb, if_neg h0, Option.some.injEq] at hn
      exact hn ▸ take_queueOk h h0

theorem boot_queueOk (h : t.Boot) : t.QueueOk := by
  obtain ⟨hl, hs, hq, hd, hi⟩ := h
  refine ⟨?_, ?_, ?_, ?_, ?_⟩
  · rw [hq]
    exact .nil
  · rw [hl, hq]
    rfl
  · rw [hl]
    decide
  · rw [hs, hq]
    rfl
  · simp [Delivers, hq, hd, hi]

/-- The characters come out as they went in, from inside the buffer, exactly as long as no more
than `LINE_BUF_SIZE` of them have been taken. -/
theorem run_delivers_iff {ops : List TtyOp} (h : t.Boot) (hr : Run Step t ops u) :
    u.Delivers ↔ u.queue.out.length ≤ lineBufSize :=
  (hr.preserves (I := QueueOk) (fun _ _ _ hi hs => step_queueOk hi hs) (boot_queueOk h)).delivers

/-- The terminal after boot. -/
def first : TtyRun := ⟨⟨fun _ => 0, 0, false, 0, false, []⟩, ⟨[], []⟩, [], []⟩

theorem first_boot : first.Boot := ⟨rfl, rfl, rfl, rfl, rfl⟩

/-- Two letters, the second of them erased, and Return; then both readers. -/
def typingRun : List TtyOp :=
  [.input 97, .input 98, .input charDelete, .input charReturn, .getchar, .getcharNb, .getcharNb]

theorem typingRun_delivers : ∃ u, Run Step first typingRun u ∧ u.delivered = [97, charNewline] ∧
    u.Delivers := by
  have hsome : ((execute (fun _ _ => true) next first typingRun).any fun u =>
      decide (u.delivered = [97, charNewline] ∧ u.queue.out.length ≤ lineBufSize)) = true := by
    decide +kernel
  obtain ⟨u, hu, hok⟩ := (Option.any_eq_true _ _).mp hsome
  obtain ⟨hd, hle⟩ := of_decide_eq_true hok
  have hrun : Run Step first typingRun u := Run.of_execute (fun _ _ _ _ ht => ht) hu
  exact ⟨u, hrun, hd, (run_delivers_iff first_boot hrun).mpr hle⟩

/-- A character typed and taken, `k` times over. -/
theorem typed_taken (k : ℕ) : ∃ ops u, Run Step first ops u ∧ u.QueueOk ∧ u.tty.lineLen = 0 ∧
    u.queue.out.length = k := by
  induction k with
  | zero => exact ⟨[], first, .nil _, boot_queueOk first_boot, rfl, rfl⟩
  | succ k ih =>
    obtain ⟨ops, t, hr, hok, h0, hk⟩ := ih
    have hq : t.queue.queue = [] := List.length_eq_zero_iff.mp (hok.len ▸ h0)
    have he : ¬ Tty.Erases 97 := by decide
    have hroom : t.tty.lineLen < lineBufSize - 1 := by
      rw [h0]
      decide
    have hput : t.Step (.input 97)
        ⟨t.tty.input 97, accept t.queue (t.tty.lineLen < lineBufSize - 1) 97,
        t.delivered, t.indices ++ (stored t.tty 97).toList⟩ := rfl
    have hok' := step_queueOk hok hput
    have hlen : (t.tty.input 97).lineLen ≠ 0 := by
      rw [Tty.input_of_typed _ he, (t.tty.store_of_room _ hroom).2.1]
      exact Nat.succ_ne_zero _
    have htake := take_queueOk hok' hlen
    refine ⟨ops ++ [.input 97, .getchar], _, hr.append (.cons hput (.single ?_)), htake, ?_, ?_⟩
    · simp only [Step, next, Tty.getchar, if_neg hlen, Option.map_some]
    · dsimp only
      rw [Tty.input_of_typed _ he, (t.tty.store_of_room _ hroom).2.1, h0]
    · simp [accept, he, hroom, EraseQueue.put, EraseQueue.take, hq, hk]

/-- The 257th character is read behind the buffer. -/
theorem getchar_behind_buffer : ¬ ∀ t ops u, Boot t → Run Step t ops u → u.Delivers := by
  intro h
  obtain ⟨ops, u, hr, hok, -, hk⟩ := typed_taken 257
  have hle := hok.delivers.mp (h _ _ _ first_boot hr)
  rw [hk] at hle
  exact absurd hle (by decide)

end TtyRun

end Leg
