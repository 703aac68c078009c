import Leg.Process.LostWakeup

/-! The periodic timer and the deadlines of sleeping processes. `rtc_timer_fired` moves the compare
value on by one interval and calls `sched_tick`, which wakes the sleepers whose deadline has
passed. -/
namespace Leg
open Runs Sched

/-- `us_to_ticks`, at a counter of `freq` Hz. -/
def usToTicks (freq us : ℕ) : ℕ :=
  let freqKhz := freq / 1000
  let ms := us / 1000
  u32 (freqKhz * if ms = 0 then 1 else ms)

/-- The process table with the generic timer's counter and compare value, and the number of timer
interrupts that have been served. -/
structure Timed where
  sched : Sched
  counter : ℕ
  cval : ℕ
  ticks : ℕ

inductive TimedOp where
  /-- The counter goes on. -/
  | elapse (d : ℕ)
  /-- The timer interrupt is served; the counter goes on by `d` before `sched_tick` reads it. -/
  | fired (d : ℕ)
  /-- Any other operation on the process table. -/
  | call (op : SchedOp)

namespace Timed
variable (freq us : ℕ) (s : Timed)

def timerAdvanceCval : Timed := { s with cval := u64 (s.cval + usToTicks freq us) }

/-- `rtc_timer_fired`, where `timer_set_tick` has set `sched_tick`. -/
def rtcTimerFired (d : ℕ) : Timed :=
  let s := s.timerAdvanceCval freq us
  { s with
    sched := schedTick s.sched (s.counter + d)
    counter := s.counter + d
    ticks := s.ticks + 1 }

def next : TimedOp → Option Timed
  | .elapse d => some { s with counter := s.counter + d }
  | .fired d => some (s.rtcTimerFired freq us d)
  | .call op => (schedOp s.sched op).map fun t => { s with sched := t }

/-- The interrupt is taken when the counter has reached the compare value. `svc_sleep` reads the
same counter, which stays below half its range. -/
def Admits : TimedOp → Prop
  | .elapse d => s.counter + d < 2 ^ 63
  | .fired d => s.cval ≤ s.counter ∧ s.counter + d < 2 ^ 63
  | .call (.sleep _ now f) => now = s.counter ∧ f = freq
  | .call (.tick _) => False
  | .call op => FreshStruct s.sched op

def Step (s : Timed) (op : TimedOp) (t : Timed) : Prop :=
  s.Admits freq op ∧ s.next freq us op = some t

/-- `timer_set_tick` at counter `now`. -/
def timerSetTick (boot : Sched) (now : ℕ) : Timed := ⟨boot, now, u64 (now + usToTicks freq us), 0⟩

end Timed

section Deadlines
variable {s t : Sched}

/-- A tick clears every deadline that has passed, and no other one. -/
theorem schedTick_wakeTick (h : TableOk s) {now p : ℕ} (hm : (schedTick s now).Mem p)
    (hw : ((schedTick s now).proc p).wakeTick ≠ 0) :
    s.Mem p ∧ ((schedTick s now).proc p).wakeTick = (s.proc p).wakeTick ∧
      now < (s.proc p).wakeTick := by
  have hlist : s.Mem p := by
    unfold Mem at hm ⊢
    rwa [(schedTick_frame now h).1] at hm
  have hsame : ((schedTick s now).proc p).wakeTick = ((wakeSleepers s now).proc p).wakeTick := by
    rcases schedTick_cases now h.distinct h.current with ⟨-, ht⟩ | ⟨-, n, -, -, -, ht⟩
    · rw [ht]
    · rw [ht]
      by_cases hp : p = s.currentProc
      · subst hp
        simp
      · simp [write_proc_of_ne _ _ hp]
  rw [hsame] at hw ⊢
  rw [wakeSleepers_proc] at hw ⊢
  split at hw
  next => exact absurd rfl hw
  next hnot =>
    rw [if_neg hnot]
    refine ⟨hlist, rfl, Nat.lt_of_not_le fun hle => hnot ⟨hlist, hw, hle⟩⟩

/-- Where a deadline comes from that is there after any other operation. -/
theorem schedOp_wakeTick {op : SchedOp} (hs : SchedStep s op t) (hop : ∀ now, op ≠ .tick now)
    {p : ℕ} (hm : t.Mem p) (hw : (t.proc p).wakeTick ≠ 0) :
    (s.Mem p ∧ (s.proc p).wakeTick = (t.proc p).wakeTick) ∨
      ∃ us now freq, op = .sleep us now freq ∧
        (t.proc p).wakeTick = sleepDeadline us now freq := by
  obtain ⟨hf, ht⟩ := hs
  cases op with
  | fork alloc lrSvc spUsr cpsr =>
    obtain rfl := Option.some.inj ht
    obtain ⟨-, hold, hmem, hchild⟩ := processFork_frame lrSvc spUsr cpsr hf
    rcases hmem p hm with hp | rfl
    · exact .inl ⟨hp, by rw [hold p hp]⟩
    · obtain ⟨-, pgd, hnew⟩ := hchild hm.1
      rw [hnew] at hw
      exact absurd rfl hw
  | sleep us now freq =>
    obtain rfl := Option.some.inj ht
    by_cases hp : p = s.currentProc
    · right
      refine ⟨us, now, freq, rfl, ?_⟩
      simp [svcSleep, hp]
    · left
      refine ⟨hm, ?_⟩
      simp [svcSleep, write_proc_of_ne _ _ hp]
  | join target =>
    obtain rfl := Option.some.inj ht
    left
    unfold svcJoin at hm ⊢
    split at hm
    next h0 => exact ⟨hm, by rw [if_pos h0]⟩
    next h0 =>
      refine ⟨hm, ?_⟩
      rw [if_neg h0]
      by_cases hp : p = s.currentProc
      · simp [hp]
      · simp [write_proc_of_ne _ _ hp]
  | exit code =>
    obtain ⟨hmem, -, hproc⟩ := processExit_frame ht
    left
    refine ⟨hmem p hm, ?_⟩
    rcases (hproc p).2 with heq | ⟨-, -, heq⟩
    · rw [heq]
    · rw [heq]
      rfl
  | switch =>
    obtain rfl := Option.some.inj ht
    left
    unfold switchNext at hm ⊢
    dsimp only at hm ⊢
    split at hm
    next h0 => exact ⟨hm, by rw [if_pos h0]⟩
    next h0 => exact ⟨hm, by rw [if_neg h0]; rfl⟩
  | tick now => exact absurd rfl (hop now)

theorem schedBoot_only (h : SchedBoot s) {p : ℕ} (hm : s.Mem p) : s.currentProc = p := by
  obtain ⟨q, proc, pid, hq, rfl⟩ := h
  obtain ⟨-, hcur, honly, -⟩ := processExec_first proc pid hq
  exact hcur.trans (honly p hm).symm

end Deadlines

namespace Timed
variable {freq us now : ℕ} {s t : Timed}

/-- The compare value counts the intervals since the start, and no deadline lies more than an
interval below it. -/
structure Ok (freq us now : ℕ) (s : Timed) : Prop where
  table : TableOk s.sched
  small : s.counter < 2 ^ 63
  cval : s.cval = now + (s.ticks + 1) * usToTicks freq us
  served : now + s.ticks * usToTicks freq us ≤ s.counter
  deadlines : ∀ p, s.sched.Mem p → (s.sched.proc p).wakeTick ≠ 0 →
    s.cval ≤ (s.sched.proc p).wakeTick + usToTicks freq us

theorem usToTicks_lt : usToTicks freq us < 2 ^ 32 := by
  unfold usToTicks
  dsimp only
  exact Nat.mod_lt _ (by decide)

theorem le_sleepDeadline {us' : ℕ} (h : s.counter < 2 ^ 63) :
    s.counter ≤ sleepDeadline us' s.counter freq := by
  unfold sleepDeadline u64
  have hle : us' * freq % 18446744073709551616 / 1000000 < 2 ^ 62 := by
    have := Nat.mod_lt (us' * freq) (show 0 < 18446744073709551616 by decide)
    omega
  omega

theorem fired_ok (h : s.Ok freq us now) {d : ℕ} (hd : s.Admits freq (.fired d)) :
    (s.rtcTimerFired freq us d).Ok freq us now := by
  obtain ⟨hreached, hsmall⟩ := hd
  have hT := @usToTicks_lt freq us
  have hnext : u64 (s.cval + usToTicks freq us) = s.cval + usToTicks freq us := by
    unfold u64
    have := h.small
    omega
  have hcval : (s.rtcTimerFired freq us d).cval = s.cval + usToTicks freq us := hnext
  refine ⟨schedTick_tableOk h.table, hsmall, ?_, ?_, fun p hm hw => ?_⟩
  · rw [hcval, h.cval]
    change _ = now + (s.ticks + 1 + 1) * usToTicks freq us
    rw [Nat.succ_mul (s.ticks + 1), Nat.add_assoc]
  · change now + (s.ticks + 1) * usToTicks freq us ≤ s.counter + d
    rw [← h.cval]
    omega
  · have hold : s.sched.Mem p ∧
        ((schedTick s.sched (s.counter + d)).proc p).wakeTick = (s.sched.proc p).wakeTick ∧
        s.counter + d < (s.sched.proc p).wakeTick := schedTick_wakeTick h.table hm hw
    have hsame : ((s.rtcTimerFired freq us d).sched.proc p).wakeTick =
        (s.sched.proc p).wakeTick := hold.2.1
    rw [hcval, hsame]
    omega

theorem call_ok (h : s.Ok freq us now) {op : SchedOp} (hop : s.Admits freq (.call op))
    (hs : s.next freq us (.call op) = some t) : t.Ok freq us now := by
  obtain ⟨u, hu, rfl⟩ := Option.map_eq_some_iff.mp hs
  have htick : ∀ n, op ≠ .tick n := by
    rintro n rfl
    exact hop
  have hfresh : FreshStruct s.sched op := by
    cases op with
    | fork alloc lrSvc spUsr cpsr => exact hop
    | tick n => exact absurd rfl (htick n)
    | sleep | join | exit | switch => trivial
  have hstep : SchedStep s.sched op u := ⟨hfresh, hu⟩
  refine ⟨schedStep_tableOk h.table hstep, h.small, h.cval, h.served, fun p hm hw => ?_⟩
  rcases schedOp_wakeTick hstep htick hm hw with ⟨hp, hsame⟩ | ⟨us', n, f, rfl, hnew⟩
  · dsimp only
    rw [← hsame] at hw ⊢
    exact h.deadlines p hp hw
  · obtain ⟨rfl, rfl⟩ := hop
    dsimp only
    have hle := @le_sleepDeadline f s us' h.small
    have hserved := h.served
    rw [hnew, h.cval, Nat.succ_mul]
    omega

theorem step_ok {op : TimedOp} (h : s.Ok freq us now) (hs : Step freq us s op t) :
    t.Ok freq us now := by
  obtain ⟨hadmits, hnext⟩ := hs
  cases op with
  | elapse d =>
    obtain rfl := Option.some.inj hnext
    exact ⟨h.table, hadmits, h.cval, Nat.le_add_right_of_le h.served, h.deadlines⟩
  | fired d =>
    obtain rfl := Option.some.inj hnext
    exact fired_ok h hadmits
  | call op => exact call_ok h hadmits hnext

theorem start_ok {boot : Sched} (hb : SchedBoot boot)
    (hclear : (boot.proc boot.currentProc).wakeTick = 0) (hnow : now < 2 ^ 63) :
    (timerSetTick freq us boot now).Ok freq us now := by
  have hT := @usToTicks_lt freq us
  refine ⟨(schedBoot_ok hb).1, hnow, ?_, by simp [timerSetTick], fun p hm hw => ?_⟩
  · change u64 (now + usToTicks freq us) = now + (0 + 1) * usToTicks freq us
    rw [Nat.zero_add, Nat.one_mul]
    unfold u64
    omega
  · exact absurd (schedBoot_only hb hm ▸ hclear) hw

end Timed

/-- From the start of the periodic tick on, whatever the processes do and however late an interrupt
is served, the compare value has moved on by exactly one interval for each served tick, no tick is
served early, and no process that is still listed with a deadline is an interval or more past it
unless a timer interrupt is pending. -/
theorem timedRun_deadlines {freq us now : ℕ} {boot : Sched} {s : Timed} {ops : List TimedOp}
    (hb : SchedBoot boot) (hclear : (boot.proc boot.currentProc).wakeTick = 0)
    (hnow : now < 2 ^ 63)
    (hr : Run (Timed.Step freq us) (Timed.timerSetTick freq us boot now) ops s) :
    s.cval = now + (s.ticks + 1) * usToTicks freq us ∧
      now + s.ticks * usToTicks freq us ≤ s.counter ∧
      ∀ p, s.sched.Mem p → (s.sched.proc p).wakeTick ≠ 0 → s.counter < s.cval →
        s.counter < (s.sched.proc p).wakeTick + usToTicks freq us := by
  have hok : s.Ok freq us now :=
    hr.preserves (fun _ _ _ h hs => Timed.step_ok h hs) (Timed.start_ok hb hclear hnow)
  refine ⟨hok.cval, hok.served, fun p hm hw hpending => ?_⟩
  exact hpending.trans_le (hok.deadlines p hm hw)

/-- The first process forks, goes to sleep for a second at 1 MHz and the switch enters its child;
the first interval of 10 ms is served a little late. -/
theorem timedRun_deadlines_sleeper :
    ∃ s : Timed, s.sched.Mem 0x4000 ∧ (s.sched.proc 0x4000).wakeTick = 1000100 ∧
      s.counter = 10125 ∧ s.ticks = 1 ∧ s.cval = 20100 ∧
      ∀ p, s.sched.Mem p → (s.sched.proc p).wakeTick ≠ 0 → s.counter < s.cval →
        s.counter < (s.sched.proc p).wakeTick + usToTicks 1000000 10000 := by
  have hrun : Run (Timed.Step 1000000 10000) (Timed.timerSetTick 1000000 10000 initTable 100)
      [.call (.fork (some (0x8000, 0xC000)) 0 0 0), .call (.sleep 1000000 100 1000000),
        .call .switch, .elapse 10020, .fired 5]
      _ :=
    .cons ⟨⟨by decide, by decide +kernel⟩, rfl⟩ <| .cons ⟨⟨rfl, rfl⟩, rfl⟩ <|
    .cons ⟨trivial, rfl⟩ <| .cons ⟨show 100 + 10020 < 2 ^ 63 by decide, rfl⟩ <|
    .single ⟨⟨show 10100 ≤ 10120 by decide, show 10120 + 5 < 2 ^ 63 by decide⟩, rfl⟩
  have h := timedRun_deadlines initTable_boot (by decide +kernel) (by decide) hrun
  exact ⟨_, by decide +kernel, by decide +kernel, by decide +kernel, by decide +kernel,
    by decide +kernel, h.2.2⟩

end Leg
