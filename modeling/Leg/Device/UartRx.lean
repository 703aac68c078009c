import Leg.Lib.Runs
import Mathlib.Data.List.Basic

/-! The receive side of the serial line: `uart_irq_handler` empties the FIFO of the PL011, one
access after the other, while characters go on arriving. -/
namespace Leg
open Runs

/-- Where `uart_irq_handler` stands: outside, before each access of its loop, and before it writes
`UARTICR`. -/
inductive UartPc where
  | idle
  | test
  | read
  | input (c : ℕ)
  | clear

/-- The receiver has a FIFO of `depth` words and an interrupt that is asserted when the FIFO comes
to hold `trigger` of them. -/
structure Pl011 where
  depth : ℕ
  trigger : ℕ

/-- The driver and the device: what the FIFO holds, whether the receive interrupt is asserted, the
words that the FIFO has taken, and the characters that `tty_input` was given. -/
structure UartSystem where
  pc : UartPc
  fifo : List ℕ
  rxis : Bool
  taken : List ℕ
  delivered : List ℕ

inductive UartOp where
  /-- A character arrives, with its error flags; a full FIFO drops it. -/
  | receive (word : ℕ)
  /-- The next access of the handler; outside, the interrupt is taken. -/
  | driver

namespace UartSystem
variable (d : Pl011) (s : UartSystem)

def receive (word : ℕ) : UartSystem :=
  if s.fifo.length < d.depth then
    { s with
      fifo := s.fifo ++ [word]
      rxis := s.rxis || decide (s.fifo.length + 1 = d.trigger)
      taken := s.taken ++ [word] }
  else s

/-- `*UARTDR & 0xFF`, which takes the word out; below the trigger level the interrupt goes away. -/
def readData : UartSystem :=
  { s with
    pc := .input (s.fifo.headD 0 % 256)
    fifo := s.fifo.tail
    rxis := s.rxis && decide (d.trigger ≤ s.fifo.tail.length) }

/-- The next access of `uart_irq_handler`. -/
def driver : Option UartSystem :=
  match s.pc with
  | .idle => if s.rxis then some { s with pc := .test } else none
  | .test => some { s with pc := if s.fifo = [] then .clear else .read }
  | .read => some (s.readData d)
  | .input c => some { s with pc := .test, delivered := s.delivered ++ [c] }
  | .clear => some { s with pc := .idle, rxis := false }

def next : UartOp → Option UartSystem
  | .receive word => some (s.receive d word)
  | .driver => s.driver d

def Step (s : UartSystem) (op : UartOp) (t : UartSystem) : Prop := s.next d op = some t

/-- The line after `pl011_reset`. -/
def start : UartSystem := ⟨.idle, [], false, [], []⟩

/-- The character that has been read and not yet passed on. -/
def inHand : List ℕ :=
  match s.pc with
  | .input c => [c]
  | _ => []

/-- Outside the handler, a FIFO that holds as much as the trigger level has its interrupt
asserted. -/
def Attentive (s : UartSystem) : Prop :=
  s.pc = .idle → d.trigger ≤ s.fifo.length → s.rxis = true

/-- The handler clears the interrupt while the FIFO is below the trigger level. -/
def ClearsBelow (s : UartSystem) : UartOp → Prop
  | .receive _ => True
  | .driver => s.pc = .clear → s.fifo.length < d.trigger

structure Ok (s : UartSystem) : Prop where
  order : s.delivered ++ s.inHand ++ s.fifo.map (· % 256) = s.taken.map (· % 256)
  reading : s.pc = .read → s.fifo ≠ []

section Steps
variable {d} {s} {t : UartSystem}

theorem receive_ok (h : s.Ok) (word : ℕ) : (s.receive d word).Ok := by
  unfold receive
  split
  next =>
    refine ⟨?_, fun _ => by simp⟩
    change s.delivered ++ s.inHand ++ (s.fifo ++ [word]).map (· % 256) =
      (s.taken ++ [word]).map (· % 256)
    rw [List.map_append, List.map_append, ← List.append_assoc, h.order]
  next => exact h

theorem driver_ok (h : s.Ok) (hs : s.driver d = some t) : t.Ok := by
  obtain ⟨pc, fifo, rxis, taken, delivered⟩ := s
  have horder := h.order
  cases pc with
  | idle =>
    unfold driver at hs
    dsimp only at hs
    split at hs
    next =>
      obtain rfl := Option.some.inj hs
      exact ⟨horder, fun h => UartPc.noConfusion h⟩
    next => exact absurd hs (by simp)
  | test =>
    obtain rfl := Option.some.inj hs
    dsimp only
    split
    next => exact ⟨horder, fun h => UartPc.noConfusion h⟩
    next hne => exact ⟨horder, fun _ => hne⟩
  | read =>
    obtain rfl := Option.some.inj hs
    cases fifo with
    | nil => exact absurd rfl (h.reading rfl)
    | cons word fifo =>
      refine ⟨?_, fun h => UartPc.noConfusion h⟩
      simpa [readData, inHand] using horder
  | input c =>
    obtain rfl := Option.some.inj hs
    refine ⟨?_, fun h => UartPc.noConfusion h⟩
    simpa [inHand] using horder
  | clear =>
    obtain rfl := Option.some.inj hs
    exact ⟨horder, fun h => UartPc.noConfusion h⟩

theorem step_ok {op : UartOp} (h : s.Ok) (hs : Step d s op t) : t.Ok := by
  cases op with
  | receive word =>
    obtain rfl := Option.some.inj hs
    exact receive_ok h word
  | driver => exact driver_ok h hs

theorem receive_pc (word : ℕ) : (s.receive d word).pc = s.pc := by
  unfold receive
  split <;> rfl

theorem receive_attentive (h : s.Attentive d) (word : ℕ) : (s.receive d word).Attentive d := by
  intro hidle hlevel
  rw [receive_pc] at hidle
  unfold receive at hlevel ⊢
  split at hlevel
  next hroom =>
    rw [if_pos hroom]
    change (s.rxis || decide (s.fifo.length + 1 = d.trigger)) = true
    change d.trigger ≤ (s.fifo ++ [word]).length at hlevel
    rw [List.length_append, List.length_singleton] at hlevel
    rw [Bool.or_eq_true, decide_eq_true_eq]
    by_cases heq : s.fifo.length + 1 = d.trigger
    · exact .inr heq
    · exact .inl (h hidle (by omega))
  next hroom =>
    rw [if_neg hroom]
    exact h hidle hlevel

/-- Only the access that clears the interrupt can leave a filled FIFO without one. -/
theorem step_attentive_iff {op : UartOp} (h : s.Attentive d) (hs : Step d s op t) :
    t.Attentive d ↔ s.ClearsBelow d op := by
  cases op with
  | receive word =>
    obtain rfl := Option.some.inj hs
    exact iff_of_true (receive_attentive h word) trivial
  | driver =>
    obtain ⟨pc, fifo, rxis, taken, delivered⟩ := s
    cases pc with
    | idle =>
      unfold Step next driver at hs
      dsimp only at hs
      split at hs
      next =>
        obtain rfl := Option.some.inj hs
        exact iff_of_true (fun h => UartPc.noConfusion h) fun h => UartPc.noConfusion h
      next => exact absurd hs (by simp)
    | test =>
      obtain rfl := Option.some.inj hs
      refine iff_of_true ?_ fun h => UartPc.noConfusion h
      intro hidle
      dsimp only at hidle
      split at hidle <;> exact UartPc.noConfusion hidle
    | read =>
      obtain rfl := Option.some.inj hs
      exact iff_of_true (fun h => UartPc.noConfusion h) fun h => UartPc.noConfusion h
    | input c =>
      obtain rfl := Option.some.inj hs
      exact iff_of_true (fun h => UartPc.noConfusion h) fun h => UartPc.noConfusion h
    | clear =>
      obtain rfl := Option.some.inj hs
      constructor
      · intro hatt _
        refine Nat.lt_of_not_le fun hle => ?_
        exact absurd (hatt rfl hle) Bool.false_ne_true
      · intro hbelow _ hle
        exact absurd (hbelow rfl) (Nat.not_lt.mpr hle)

/-- Nothing asserts the interrupt of a filled FIFO any more, and without it nothing empties the
FIFO. -/
theorem step_deaf {op : UartOp} (h : ¬s.Attentive d) (hs : Step d s op t) :
    t.delivered = s.delivered ∧ ¬t.Attentive d := by
  unfold Attentive at h
  simp only [Classical.not_imp, Bool.not_eq_true] at h
  obtain ⟨hidle, hlevel, hoff⟩ := h
  cases op with
  | receive word =>
    obtain rfl := Option.some.inj hs
    unfold receive
    split
    next =>
      refine ⟨rfl, fun hatt => ?_⟩
      have hon : (s.rxis || decide (s.fifo.length + 1 = d.trigger)) = true := by
        refine hatt hidle ?_
        change d.trigger ≤ (s.fifo ++ [word]).length
        rw [List.length_append]
        omega
      rw [hoff, Bool.false_or, decide_eq_true_eq] at hon
      omega
    next => exact ⟨rfl, fun hatt => absurd (hatt hidle hlevel) (by simp [hoff])⟩
  | driver =>
    unfold Step next driver at hs
    rw [hidle] at hs
    simp [hoff] at hs

theorem drains (h : s.Ok) (htest : s.pc = .test) :
    ∃ t, Run (Step d) s (List.replicate (3 * s.fifo.length + 2) .driver) t ∧ t.pc = .idle ∧
      t.delivered = s.taken.map (· % 256) := by
  obtain ⟨pc, fifo, rxis, taken, delivered⟩ := s
  obtain rfl : pc = .test := htest
  have horder := h.order
  induction fifo generalizing rxis delivered with
  | nil =>
    refine ⟨_, .cons rfl (.single rfl), rfl, ?_⟩
    simpa [inHand] using horder
  | cons word fifo ih =>
    have horder' : Ok ⟨.test, fifo, rxis && decide (d.trigger ≤ fifo.length), taken,
        delivered ++ [word % 256]⟩ :=
      ⟨by simpa [inHand] using horder, fun h => UartPc.noConfusion h⟩
    obtain ⟨t, hrun, hidle, hall⟩ := ih _ _ horder' horder'.order
    exact ⟨t, .cons rfl (.cons rfl (.cons rfl hrun)), hidle, hall⟩

end Steps

/-- Whatever the order of arrivals and accesses: no character that the FIFO took is lost, doubled
or overtaken. The line stays attentive exactly if the handler never clears the interrupt of a
FIFO that has filled up since its last test; once that has happened, no character is delivered any
more. -/
theorem uartRun_attentive_iff {d : Pl011} (hd : 0 < d.trigger) {ops : List UartOp}
    {s : UartSystem} :
    (Run (Along (Attentive d) (Step d)) start ops s ↔
      Run (Meeting (ClearsBelow d) (Step d)) start ops s) ∧
    (Run (Step d) start ops s →
      s.delivered ++ s.inHand ++ s.fifo.map (· % 256) = s.taken.map (· % 256) ∧
      (s.pc = .test → ∃ t, Run (Step d) s (List.replicate (3 * s.fifo.length + 2) .driver) t ∧
        t.pc = .idle ∧ t.delivered = s.taken.map (· % 256)) ∧
      (¬s.Attentive d → ∀ ops' t, Run (Step d) s ops' t →
        t.delivered = s.delivered ∧ ¬t.Attentive d)) := by
  refine ⟨along_iff_meeting _ _ (I := fun _ => True) (fun _ _ _ _ _ _ => trivial)
    (fun _ _ _ _ hp hs => step_attentive_iff hp hs) trivial ?_, fun hrun => ?_⟩
  · exact fun _ hle => absurd hle (Nat.not_le.mpr hd)
  · have hok : s.Ok :=
      hrun.preserves (fun _ _ _ h hs => step_ok h hs) ⟨rfl, fun h => UartPc.noConfusion h⟩
    refine ⟨hok.order, drains hok, fun hdeaf ops' t hrun' => ?_⟩
    refine hrun'.preserves (I := fun t => t.delivered = s.delivered ∧ ¬t.Attentive d) ?_
      ⟨rfl, hdeaf⟩
    intro u op v ⟨hsame, hu⟩ hs
    obtain ⟨hdel, hv⟩ := step_deaf hu hs
    exact ⟨hdel.trans hsame, hv⟩

/-- One letter is served; then a second one arrives as the handler goes on to clear the interrupt,
and with a trigger level of one nothing is served any more. -/
theorem uartRun_secondLetter : ∃ s t, Run (Along (Attentive ⟨16, 1⟩) (Step ⟨16, 1⟩)) start
      (.receive 97 :: List.replicate 6 .driver) s ∧ s.delivered = [97] ∧
    Run (Step ⟨16, 1⟩) start
      (.receive 97 :: List.replicate 5 .driver ++ [.receive 98, .driver]) t ∧
    ∀ ops u, Run (Step ⟨16, 1⟩) t ops u → u.delivered = [97] := by
  have hserved := (@uartRun_attentive_iff ⟨16, 1⟩ Nat.one_pos
    (.receive 97 :: List.replicate 6 .driver) ⟨.idle, [], false, [97], [97]⟩).1
  have hdeaf := (@uartRun_attentive_iff ⟨16, 1⟩ Nat.one_pos
    (.receive 97 :: List.replicate 5 .driver ++ [.receive 98, .driver])
    ⟨.idle, [98], false, [97, 98], [97]⟩).2
  have hrun : Run (Step ⟨16, 1⟩) start
      (.receive 97 :: List.replicate 5 .driver ++ [.receive 98, .driver])
      ⟨.idle, [98], false, [97, 98], [97]⟩ :=
    .cons rfl (.cons rfl (.cons rfl (.cons rfl (.cons rfl (.cons rfl (.cons rfl
      (.single rfl)))))))
  refine ⟨_, _, hserved.mpr ?_, rfl, hrun, fun ops u hu => ?_⟩
  · have hcalm (s : UartSystem) (hs : s.fifo = []) : s.ClearsBelow ⟨16, 1⟩ .driver :=
      fun _ => by rw [hs]; exact Nat.one_pos
    have hbusy (s : UartSystem) (hs : s.pc ≠ .clear) : s.ClearsBelow ⟨16, 1⟩ .driver :=
      fun h => absurd h hs
    refine .cons ⟨trivial, rfl⟩ (.cons ⟨hbusy _ ?_, rfl⟩ (.cons ⟨hbusy _ ?_, rfl⟩
      (.cons ⟨hbusy _ ?_, rfl⟩ (.cons ⟨hcalm _ rfl, rfl⟩ (.cons ⟨hcalm _ rfl, rfl⟩
        (.single ⟨hcalm _ rfl, rfl⟩))))))
    all_goals exact fun h => UartPc.noConfusion h
  · exact ((hdeaf hrun).2.2 (fun h => absurd (h rfl Nat.one_pos) Bool.false_ne_true) ops u hu).1

end UartSystem
end Leg
