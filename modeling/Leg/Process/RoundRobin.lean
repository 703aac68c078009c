import Leg.Process.LostWakeup

/-! How long a runnable process waits. Every switch goes to the first runnable slot behind the
current one, so the process that waits comes closer with each of them; but an exit starts the
search over at slot 1, and a process in a later slot can be passed over again. -/
namespace Leg
open Runs Sched

theorem maxProcesses_neZero : NeZero maxProcesses := ⟨by decide⟩

/-- `p` is `d` slots behind the current process, round the table. -/
def Ahead (s : Sched) (p d : ℕ) : Prop :=
  0 < d ∧ d < maxProcesses ∧ ∃ c : Fin maxProcesses, s.procs c = s.currentProc ∧
    s.procs (@Fin.ofNat maxProcesses maxProcesses_neZero (c.val + d)) = p

/-- `p` is listed and runnable, and another process runs. -/
structure Waiting (s : Sched) (p : ℕ) : Prop where
  mem : s.Mem p
  runnable : (s.proc p).suspended = 0
  other : s.currentProc ≠ p

/-- A table, and how often the current process has changed. -/
structure Switched where
  sched : Sched
  switches : ℕ

/-- One operation after which `p` does not run. -/
def PassesOver (p : ℕ) (m : Switched) (op : SchedOp) (n : Switched) : Prop :=
  SchedStep m.sched op n.sched ∧ n.sched.currentProc ≠ p ∧
    n.switches = m.switches + if n.sched.currentProc = m.sched.currentProc then 0 else 1

def SchedOp.isExit : SchedOp → Bool
  | .exit _ => true
  | _ => false

/-- The number of exits. -/
def exits (ops : List SchedOp) : ℕ := ops.countP SchedOp.isExit

section Slots
variable {s t : Sched} {p d : ℕ}

theorem slot_add (c : Fin maxProcesses) {j d : ℕ} (h : j ≤ d) :
    Fin.ofNat maxProcesses ((Fin.ofNat maxProcesses (c.val + j)).val + (d - j)) =
      Fin.ofNat maxProcesses (c.val + d) := by
  apply Fin.ext
  simp only [Fin.ofNat]
  unfold maxProcesses
  omega

theorem Waiting.ahead (h : Waiting s p) (ht : TableOk s) : ∃ d, Ahead s p d := by
  obtain ⟨-, c, hc⟩ := ht.current
  obtain ⟨-, i, hi⟩ := h.mem
  have hne : i ≠ c := by
    rintro rfl
    exact h.other (hc.symm.trans hi)
  obtain ⟨j, hj, hslot⟩ := (slot_after c i).mp hne
  refine ⟨j + 1, Nat.succ_pos j, ?_, c, hc, by rw [hslot, hi]⟩
  omega

theorem Ahead.congr (h : Ahead s p d) (hp : p ≠ 0) (hcur : t.currentProc = s.currentProc)
    (h0 : s.currentProc ≠ 0)
    (hprocs : ∀ i, s.procs i ≠ 0 → t.procs i = s.procs i) : Ahead t p d := by
  obtain ⟨hpos, hlt, c, hc, hslot⟩ := h
  refine ⟨hpos, hlt, c, ?_, ?_⟩
  · rw [hprocs c (by rwa [hc]), hc, hcur]
  · rw [hprocs _ (by rwa [hslot]), hslot]

theorem nextRunnable_first {cur n : ℕ} (h : s.nextRunnable cur n ≠ 0) : ∃ j < n,
    s.procs (Fin.ofNat maxProcesses (cur + (j + 1))) = s.nextRunnable cur n ∧
      ∀ i < j, s.procs (Fin.ofNat maxProcesses (cur + (i + 1))) ≠ 0 →
        (s.proc (s.procs (Fin.ofNat maxProcesses (cur + (i + 1))))).suspended ≠ 0 := by
  unfold nextRunnable at h ⊢
  rw [List.find?_map] at h ⊢
  generalize hf : List.find? _ _ = o at h ⊢
  cases o with
  | none => exact absurd rfl h
  | some j =>
    obtain ⟨-, hj, hbefore⟩ := List.find?_range_eq_some.mp hf
    refine ⟨j, List.mem_range.mp hj, rfl, fun i hi h0 hrun => ?_⟩
    have hno := hbefore i hi
    simp only [Function.comp_apply, decide_not, Bool.not_eq_true', Bool.and_eq_false_iff,
      Bool.decide_and, Bool.not_eq_false', decide_eq_true_eq, decide_eq_false_iff_not] at hno
    rcases hno with hno | hno
    · exact h0 hno
    · exact hno hrun

/-- A search from the current slot that is long enough finds a process, and one that is not behind
`p`. -/
theorem Ahead.search {u : Sched} (h : Ahead u p d) (hp : p ≠ 0) (hd : u.Distinct)
    (hrun : (u.proc p).suspended = 0) {c : Fin maxProcesses} (hc : u.procs c = u.currentProc)
    (h0 : u.currentProc ≠ 0) {n : ℕ} (hn : maxProcesses - 1 ≤ n) :
    u.nextRunnable c.val n ≠ 0 ∧ (u.nextRunnable c.val n = p ∨
      ∃ d' < d, ∀ v : Sched, v.procs = u.procs → v.currentProc = u.nextRunnable c.val n →
        Ahead v p d') := by
  obtain ⟨hpos, hlt, c', hc', hslot⟩ := h
  obtain rfl : c' = c := hd c' c (hc'.trans hc.symm) (by rwa [hc'])
  have hback : c'.val + d = c'.val + (d - 1 + 1) := by omega
  have hfound : u.nextRunnable c'.val n ≠ 0 := by
    intro hz
    have hno := nextRunnable_zero hz (j := d - 1) (by omega) (by rw [← hback, hslot]; exact hp)
    rw [← hback, hslot] at hno
    exact hno hrun
  refine ⟨hfound, ?_⟩
  obtain ⟨j, hj, hat, hbefore⟩ := nextRunnable_first hfound
  have hle : j + 1 ≤ d := by
    by_contra hgt
    have hno := hbefore (d - 1) (by omega)
    rw [← hback, hslot] at hno
    exact hno hp hrun
  by_cases heq : j + 1 = d
  · left
    rw [← hat, heq, hslot]
  · right
    refine ⟨d - (j + 1), by omega, fun v hv hcur => ⟨by omega, by omega,
      Fin.ofNat maxProcesses (c'.val + (j + 1)), ?_, ?_⟩⟩
    · rw [hv, hat, hcur]
    · rw [hv, slot_add c' hle, hslot]

end Slots

section Step
variable {s t : Sched} {p d : ℕ}

/-- What a step leaves of the wait: `p` still waits, and each switch brings it closer. -/
def Closer (s t : Sched) (p d : ℕ) : Prop :=
  Waiting t p ∧ ∃ d', Ahead t p d' ∧
    d' + (if t.currentProc = s.currentProc then 0 else 1) ≤ d

theorem fork_closer (ht : TableOk s) (hw : Waiting s p) (ha : Ahead s p d)
    {alloc : Option (ℕ × ℕ)} (hf : FreshAlloc s alloc) (lrSvc spUsr cpsr : ℕ) :
    Closer s (processFork s alloc lrSvc spUsr cpsr).1 p d := by
  obtain ⟨hcur, hproc, -, -⟩ := processFork_frame lrSvc spUsr cpsr hf
  have hprocs : ∀ i, s.procs i ≠ 0 →
      (processFork s alloc lrSvc spUsr cpsr).1.procs i = s.procs i := by
    intro i hi
    rcases alloc with _ | ⟨child, pgd⟩
    · rfl
    · obtain ⟨-, -, -, ⟨k, hk, hp, -⟩ | ⟨-, hp, -⟩⟩ :=
        processFork_some s child pgd lrSvc spUsr cpsr
      · rw [hp, Function.update_of_ne]
        rintro rfl
        exact hi hk
      · rw [hp]
  obtain ⟨hp0, i, hi⟩ := hw.mem
  refine ⟨⟨⟨hp0, i, (hprocs i (by rwa [hi])).trans hi⟩, ?_, ?_⟩, d,
    ha.congr hp0 hcur ht.current.1 hprocs, by rw [if_pos hcur, Nat.add_zero]⟩
  · rw [hproc p hw.mem]
    exact hw.runnable
  · rw [hcur]
    exact hw.other

theorem write_closer (ht : TableOk s) (hw : Waiting s p) (ha : Ahead s p d)
    (f : Process → Process) : Closer s (s.write s.currentProc f) p d := by
  refine ⟨⟨hw.mem, ?_, hw.other⟩, d, ha.congr hw.mem.1 rfl ht.current.1 fun _ _ => rfl, ?_⟩
  · rw [write_proc_of_ne _ _ hw.other.symm]
    exact hw.runnable
  · exact (if_pos rfl).symm ▸ Nat.le_refl d

theorem same_closer (hw : Waiting s p) (ha : Ahead s p d) : Closer s s p d :=
  ⟨hw, d, ha, (if_pos rfl).symm ▸ Nat.le_refl d⟩

theorem switch_closer (ht : TableOk s) (hw : Waiting s p) (ha : Ahead s p d)
    (hother : (switchNext s).currentProc ≠ p) : Closer s (switchNext s) p d := by
  obtain ⟨h0, c, hc⟩ := ht.current
  unfold switchNext schedPickNext at *
  rw [if_neg h0] at *
  generalize hf : s.findSlot _ = o at *
  cases o with
  | none =>
    have hno := findSlot_none hf c
    simp [hc] at hno
  | some cur =>
    have hcur : s.procs cur = s.currentProc := of_decide_eq_true (findSlot_some hf)
    obtain ⟨hfound, hnext⟩ := ha.search hw.mem.1 ht.distinct hw.runnable hcur h0
      (n := maxProcesses) (Nat.sub_le _ _)
    dsimp only at hother ⊢
    rw [if_neg hfound] at hother ⊢
    rcases hnext with heq | ⟨d', hd', hahead⟩
    · exact absurd heq hother
    · refine ⟨⟨hw.mem, hw.runnable, hother⟩, d', hahead _ rfl rfl, ?_⟩
      split <;> omega

/-- The switch of a tick. -/
theorem tick_closer (ht : TableOk s) (hw : Waiting s p) (ha : Ahead s p d) {now : ℕ}
    (hother : (schedTick s now).currentProc ≠ p) : Closer s (schedTick s now) p d := by
  obtain ⟨h0, c, hc⟩ := ht.current
  have hrun : ((wakeSleepers s now).proc p).suspended = 0 :=
    (wakeSleepers_suspended hw.mem).mpr (.inl hw.runnable)
  have hd : (wakeSleepers s now).Distinct := by
    intro i j hij hi
    rw [wakeSleepers_procs] at hij hi
    exact ht.distinct i j hij hi
  have hmem : (wakeSleepers s now).Mem p := by simpa [Mem] using hw.mem
  have haw : Ahead (wakeSleepers s now) p d := ha.congr hw.mem.1 (wakeSleepers_currentProc s now)
    h0 fun i _ => by rw [wakeSleepers_procs]
  unfold schedTick at *
  rw [if_neg h0] at *
  dsimp only at *
  generalize hf : (wakeSleepers s now).findSlot _ = o at *
  cases o with
  | none =>
    have hno := findSlot_none hf c
    simp [hc] at hno
  | some cur =>
    have hcur : (wakeSleepers s now).procs cur = (wakeSleepers s now).currentProc :=
      of_decide_eq_true (findSlot_some hf)
    obtain ⟨hfound, hnext⟩ := haw.search hw.mem.1 hd hrun hcur
      (by rwa [wakeSleepers_currentProc]) (n := maxProcesses - 1) (le_refl _)
    dsimp only at hother ⊢
    rw [if_neg hfound] at hother ⊢
    rcases hnext with heq | ⟨d', hd', hahead⟩
    · exact absurd heq hother
    · refine ⟨⟨hmem, ?_, hother⟩, d', hahead _ rfl rfl, ?_⟩
      · dsimp only
        rw [write_proc_of_ne _ _ (by rw [wakeSleepers_currentProc]; exact hw.other.symm)]
        exact hrun
      · split <;> omega

theorem exit_waiting (hw : Waiting s p) {pid code : ℕ}
    (h : processExit s pid code = some t) (hother : t.currentProc ≠ p) : Waiting t p := by
  obtain ⟨i, next, hi, -, -, -, -, rfl⟩ := processExit_some h
  obtain ⟨hp0, j, hj⟩ := hw.mem
  have hji : j ≠ i := by
    rintro rfl
    exact hw.other (hi.symm.trans hj)
  refine ⟨⟨hp0, j, ?_⟩, ?_, hother⟩
  · simp only [contextSwitch, schedWakeJoiners_procs]
    rw [Function.update_of_ne hji, hj]
  · simp only [contextSwitch]
    rw [schedWakeJoiners_proc]
    split
    next => rfl
    next => exact hw.runnable

/-- One step: with `d` slots to go, or any number of them behind an exit. -/
theorem PassesOver.step {m n : Switched} {op : SchedOp} (h : PassesOver p m op n)
    (ht : TableOk m.sched) (hw : Waiting m.sched p) (ha : Ahead m.sched p d) :
    TableOk n.sched ∧ Waiting n.sched p ∧ ∃ d', Ahead n.sched p d' ∧
      n.switches + d' ≤ m.switches + d + 7 * exits [op] := by
  obtain ⟨⟨hfresh, hop⟩, hother, hswitches⟩ := h
  have htable : TableOk n.sched := schedStep_tableOk ht ⟨hfresh, hop⟩
  refine ⟨htable, ?_⟩
  have hcloser (h : Closer m.sched n.sched p d) : Waiting n.sched p ∧ ∃ d', Ahead n.sched p d' ∧
      n.switches + d' ≤ m.switches + d + 7 * exits [op] := by
    obtain ⟨hwait, d', hahead, hle⟩ := h
    exact ⟨hwait, d', hahead, by omega⟩
  cases op with
  | fork alloc lrSvc spUsr cpsr =>
    apply hcloser
    rw [← Option.some.inj hop]
    exact fork_closer ht hw ha hfresh lrSvc spUsr cpsr
  | sleep us now freq =>
    apply hcloser
    rw [← Option.some.inj hop]
    exact write_closer ht hw ha fun q =>
      { q with wakeTick := sleepDeadline us now freq, suspended := 1 }
  | join target =>
    apply hcloser
    rw [← Option.some.inj hop]
    unfold svcJoin
    split
    next => exact same_closer hw ha
    next => exact write_closer ht hw ha fun q => { q with joinTarget := target, suspended := 1 }
  | switch =>
    have hop := Option.some.inj hop
    rw [← hop] at hother
    apply hcloser
    rw [← hop]
    exact switch_closer ht hw ha hother
  | tick now =>
    have hop := Option.some.inj hop
    rw [← hop] at hother
    apply hcloser
    rw [← hop]
    exact tick_closer ht hw ha hother
  | exit code =>
    have hwait := exit_waiting hw hop hother
    obtain ⟨d', hahead⟩ := hwait.ahead htable
    have hone : exits [SchedOp.exit code] = 1 := rfl
    have hpos := ha.1
    have hlt := hahead.2.1
    refine ⟨hwait, d', hahead, ?_⟩
    rw [hswitches, hone]
    unfold maxProcesses at hlt
    split <;> omega

theorem passesOver_run {m n : Switched} {ops : List SchedOp} (h : Run (PassesOver p) m ops n)
    (ht : TableOk m.sched) (hw : Waiting m.sched p) (ha : Ahead m.sched p d) :
    n.switches + 1 ≤ m.switches + d + 7 * exits ops := by
  induction h generalizing d with
  | nil m =>
    have := ha.1
    omega
  | @cons m k n op ops hstep _ ih =>
    obtain ⟨ht', hw', d', ha', hle⟩ := hstep.step ht hw ha
    have hrest := ih ht' hw' ha'
    have hsplit : exits (op :: ops) = exits [op] + exits ops := by
      unfold exits
      rw [← List.countP_append, List.singleton_append]
    omega

theorem passesOver_along {m n : Switched} {ops : List SchedOp} (h : Run (PassesOver p) m ops n)
    (ht : TableOk m.sched) (hw : Waiting m.sched p) :
    Run (Along (fun k => Waiting k.sched p) (PassesOver p)) m ops n := by
  induction h with
  | nil m => exact .nil m
  | cons hstep _ ih =>
    obtain ⟨d, ha⟩ := hw.ahead ht
    obtain ⟨ht', hw', -⟩ := hstep.step ht hw ha
    exact .cons ⟨hstep, hw'⟩ (ih ht' hw')

end Step

/-- In every reachable state a runnable process waits for at most six changes of the running
process, and seven more for each exit in between. -/
theorem schedRun_wait_bounded {boot s : Sched} {ops₀ ops : List SchedOp} {p : ℕ} {n : Switched}
    (hb : SchedBoot boot) (hr : Run SchedStep boot ops₀ s) (hw : Waiting s p)
    (h : Run (PassesOver p) ⟨s, 0⟩ ops n) : n.switches ≤ 6 + 7 * exits ops := by
  have htable : TableOk s := hr.preserves (fun _ _ _ ht hs => schedStep_tableOk ht hs)
    (schedBoot_ok hb).1
  obtain ⟨d, ha⟩ := hw.ahead htable
  have hle := passesOver_run h htable hw ha
  have hlt := ha.2.1
  unfold maxProcesses at hlt
  dsimp only at hle
  omega

/-- The table once the first process has forked a second struct. -/
def twoForked : Sched := (processFork forkedTable (some (0xC000, 0x8400)) 0 0 0).1

/-- The first process falls asleep and the first of its children runs, past the second. -/
theorem twoForked_wait_bounded : ∃ n : Switched,
    Run (PassesOver 0xC000) ⟨twoForked, 0⟩ [.sleep 5 100 1000000, .switch] n ∧
      n.switches = 1 ∧ n.switches ≤ 6 + 7 * exits [.sleep 5 100 1000000, .switch] := by
  have hr : Run SchedStep initTable
      [.fork (some (0x8000, 0xC000)) 0 0 0, .fork (some (0xC000, 0x8400)) 0 0 0] twoForked :=
    .cons ⟨⟨by decide, by decide +kernel⟩, rfl⟩ (.single ⟨⟨by decide, by decide +kernel⟩, rfl⟩)
  have hw : Waiting twoForked 0xC000 :=
    ⟨by decide +kernel, by decide +kernel, by decide +kernel⟩
  have h : Run (PassesOver 0xC000) ⟨twoForked, 0⟩ [.sleep 5 100 1000000, .switch]
      ⟨switchNext (svcSleep twoForked 5 100 1000000).1, 1⟩ := by
    refine .cons (t := ⟨(svcSleep twoForked 5 100 1000000).1, 0⟩)
      ⟨⟨trivial, rfl⟩, by decide +kernel, by decide +kernel⟩ ?_
    exact .single ⟨⟨trivial, rfl⟩, by decide +kernel, by decide +kernel⟩
  exact ⟨_, h, rfl, schedRun_wait_bounded initTable_boot hr hw h⟩

section Starve
variable {s t u : Sched} {c i : Fin maxProcesses} {cur child pid : ℕ}

/-- Only the first slot and slot `c` are taken, and the process in slot `c` runs. -/
structure Chained (s : Sched) (c : Fin maxProcesses) (cur pid : ℕ) : Prop where
  apart : c ≠ 0 ∧ cur ≠ 0 ∧ cur ≠ 0x4000
  first : s.procs 0 = 0x4000 ∧ (s.proc 0x4000).pid = 1 ∧ (s.proc 0x4000).suspended = 0
  last : s.procs c = cur ∧ (s.proc cur).pid = pid
  free : ∀ i, i ≠ 0 → i ≠ c → s.procs i = 0
  running : s.currentProc = cur
  nextPid : s.nextPid = pid + 1

theorem Chained.waiting (h : Chained s c cur pid) : Waiting s 0x4000 :=
  ⟨⟨by decide, 0, h.first.1⟩, h.first.2.2, by rw [h.running]; exact h.apart.2.2⟩

/-- Between the fork and the exit: the child is in slot `i`. -/
structure Forked (t : Sched) (c i : Fin maxProcesses) (cur child pid : ℕ) : Prop where
  apart : c ≠ 0 ∧ i ≠ 0 ∧ i ≠ c ∧ cur ≠ 0 ∧ cur ≠ 0x4000
  fresh : child ≠ 0 ∧ child ≠ 0x4000 ∧ child ≠ cur
  first : t.procs 0 = 0x4000 ∧ (t.proc 0x4000).pid = 1 ∧ (t.proc 0x4000).suspended = 0
  last : t.procs c = cur ∧ (t.proc cur).pid = pid
  child : t.procs i = child ∧ (t.proc child).pid = pid + 1 ∧ (t.proc child).suspended = 0
  free : ∀ j, j ≠ 0 → j ≠ c → j ≠ i → t.procs j = 0
  running : t.currentProc = cur
  nextPid : t.nextPid = pid + 2

theorem Chained.fork (h : Chained s c cur pid) (hchild : child ≠ 0 ∧ child ≠ 0x4000 ∧ child ≠ cur)
    (hpid : pid + 2 < 4294967296) : FreshAlloc s (some (child, 0)) ∧
      ∃ i, Forked (processFork s (some (child, 0)) 0 0 0).1 c i cur child pid := by
  obtain ⟨hc, hcur0, hcur1⟩ := h.apart
  have hfresh : FreshAlloc s (some (child, 0)) := by
    refine ⟨hchild.1, ?_⟩
    rintro ⟨-, i, hi⟩
    by_cases hi0 : i = 0
    · exact hchild.2.1 (by rw [← hi, hi0, h.first.1])
    · by_cases hic : i = c
      · exact hchild.2.2 (by rw [← hi, hic, h.last.1])
      · exact hchild.1 (by rw [← hi, h.free i hi0 hic])
  refine ⟨hfresh, ?_⟩
  obtain ⟨hproc, hcurrent, hnext, hslot⟩ := processFork_some s child 0 0 0 0
  rcases hslot with ⟨i, hi, hprocs, -⟩ | ⟨hfull, -⟩
  · have hi0 : i ≠ 0 := by
      rintro rfl
      exact absurd (h.first.1.symm.trans hi) (by decide)
    have hic : i ≠ c := by
      rintro rfl
      exact hcur0 (h.last.1.symm.trans hi)
    have hfirst : (0x4000 : ℕ) ≠ child := Ne.symm hchild.2.1
    refine ⟨i, ⟨hc, hi0, hic, hcur0, hcur1⟩, hchild, ?_, ?_, ?_, ?_, ?_, ?_⟩
    · rw [hprocs, hproc, Function.update_of_ne hi0.symm, Function.update_of_ne hfirst]
      exact h.first
    · rw [hprocs, hproc, Function.update_of_ne hic.symm, Function.update_of_ne hchild.2.2.symm]
      exact h.last
    · rw [hprocs, hproc, Function.update_self, Function.update_self]
      exact ⟨rfl, h.nextPid, rfl⟩
    · intro j hj0 hjc hji
      rw [hprocs, Function.update_of_ne hji]
      exact h.free j hj0 hjc
    · rw [hcurrent, h.running]
    · rw [hnext, h.nextPid]
      exact Nat.mod_eq_of_lt hpid
  · -- slots are left: the first process and the current one take only two
    have htwo : ∀ k : Fin maxProcesses, ∃ j, j ≠ 0 ∧ j ≠ k := by decide
    obtain ⟨j, hj0, hjc⟩ := htwo c
    exact absurd (h.free j hj0 hjc) (hfull j)

/-- The search after the exit starts at slot 1 and comes to the child before the first process. -/
theorem nextRunnable_child (hi : i ≠ 0) (hchild : s.procs i = child) (h0 : child ≠ 0)
    (hrun : (s.proc child).suspended = 0) (hfree : ∀ j, j ≠ 0 → j ≠ i → s.procs j = 0) :
    s.nextRunnable maxProcesses maxProcesses = child := by
  have hlt := i.isLt
  have hpos : 0 < i.val := Nat.pos_of_ne_zero fun h => hi (Fin.ext h)
  have hslot : Fin.ofNat maxProcesses (maxProcesses + (i.val - 1 + 1)) = i := by
    apply Fin.ext
    simp only [Fin.ofNat]
    unfold maxProcesses at *
    omega
  have hfound : s.nextRunnable maxProcesses maxProcesses ≠ 0 := by
    intro hz
    have hno := nextRunnable_zero hz (j := i.val - 1) (by omega) (by rw [hslot, hchild]; exact h0)
    rw [hslot, hchild] at hno
    exact hno hrun
  obtain ⟨j, hj, hat, hbefore⟩ := nextRunnable_first hfound
  have hle : j + 1 ≤ i.val := by
    by_contra hgt
    have hno := hbefore (i.val - 1) (by omega) (by rw [hslot, hchild]; exact h0)
    rw [hslot, hchild] at hno
    exact hno hrun
  have hji : Fin.ofNat maxProcesses (maxProcesses + (j + 1)) = i := by
    by_contra hne
    refine hfound (hat ▸ hfree _ ?_ hne)
    intro hz
    have hval := congrArg Fin.val hz
    simp only [Fin.ofNat] at hval
    unfold maxProcesses at *
    omega
  rw [← hat, hji, hchild]

theorem Forked.exit (h : Forked t c i cur child pid) (hpid : 2 ≤ pid) :
    ∃ u, schedOp t (.exit 0) = some u ∧ Chained u i child (pid + 1) := by
  obtain ⟨hc, hi, hic, hcur0, hcur1⟩ := h.apart
  obtain ⟨hchild0, hchild1, hchild2⟩ := h.fresh
  have hslots (j : Fin maxProcesses) : t.procs j ≠ 0 → (t.proc (t.procs j)).pid = pid → j = c := by
    intro hj hp
    by_contra hne
    by_cases hj0 : j = 0
    · rw [hj0, h.first.1, h.first.2.1] at hp
      omega
    · by_cases hji : j = i
      · rw [hji, h.child.1, h.child.2.1] at hp
        omega
      · exact hj (h.free j hj0 hne hji)
  have hlive : schedGet t pid ≠ 0 := by
    intro hz
    refine schedGet_eq_zero.mp hz ⟨c, ?_, ?_⟩ <;> rw [h.last.1]
    · exact hcur0
    · exact h.last.2
  obtain ⟨j, hj, hpj, hrem⟩ := schedRemove_schedGet hlive
  obtain rfl : j = c := hslots j (by rwa [hj]) (by rwa [hj])
  have hget : schedGet t pid = t.currentProc := by rw [← hj, h.last.1, h.running]
  set v : Sched := schedWakeJoiners { t with procs := Function.update t.procs j 0 } pid 0 with hv
  have hprocs : v.procs = Function.update t.procs j 0 := schedWakeJoiners_procs _ _ _
  have hproc (p : ℕ) : (v.proc p).pid = (t.proc p).pid ∧
      ((t.proc p).suspended = 0 → (v.proc p).suspended = 0) := by
    rw [hv, schedWakeJoiners_proc]
    split
    next => exact ⟨rfl, fun _ => rfl⟩
    next => exact ⟨rfl, id⟩
  have hfree (k : Fin maxProcesses) (hk : k ≠ 0) (hki : k ≠ i) : v.procs k = 0 := by
    rw [hprocs]
    by_cases hkj : k = j
    · rw [hkj, Function.update_self]
    · rw [Function.update_of_ne hkj]
      exact h.free k hk hkj hki
  have hat : v.procs i = child := by
    rw [hprocs, Function.update_of_ne hic]
    exact h.child.1
  have hrun : (v.proc child).suspended = 0 := (hproc child).2 h.child.2.2
  have hpick : schedPickNext v = child := by
    have hcurrent : v.currentProc = cur := (schedWakeJoiners_currentProc _ _ _).trans h.running
    have hgone : v.findSlot (fun p => p = v.currentProc) = none := by
      generalize hf : v.findSlot _ = o
      cases o with
      | none => rfl
      | some k =>
        have hk : v.procs k = cur := (of_decide_eq_true (findSlot_some hf)).trans hcurrent
        by_cases hk0 : k = 0
        · rw [hk0, hprocs, Function.update_of_ne hc.symm, h.first.1] at hk
          exact absurd hk.symm hcur1
        · by_cases hki : k = i
          · exact absurd (hat.symm.trans (hki ▸ hk)) hchild2
          · exact absurd ((hfree k hk0 hki).symm.trans hk) hcur0.symm
    unfold schedPickNext
    rw [if_neg (by rw [hcurrent]; exact hcur0), hgone]
    exact nextRunnable_child hi hat hchild0 hrun hfree
  have hexit : schedOp t (.exit 0) = some (contextSwitch v child) := by
    simp only [schedOp]
    rw [h.running, h.last.2]
    unfold processExit
    dsimp only
    rw [if_neg hlive, if_pos hget, hrem, ← hv, hpick, if_neg hchild0]
  refine ⟨_, hexit, ⟨hi, hchild0, hchild1⟩, ?_, ?_, hfree, rfl, ?_⟩
  · refine ⟨?_, (hproc _).1.trans h.first.2.1, (hproc _).2 h.first.2.2⟩
    change v.procs 0 = _
    rw [hprocs, Function.update_of_ne hc.symm, h.first.1]
  · exact ⟨hat, (hproc child).1.trans h.child.2.1⟩
  · exact (schedWakeJoiners_nextPid _ _ _).trans h.nextPid

theorem Chained.handOver (h : Chained s c cur pid)
    (hchild : child ≠ 0 ∧ child ≠ 0x4000 ∧ child ≠ cur) (hpid : 2 ≤ pid)
    (hlast : pid + 2 < 4294967296) (n : ℕ) : ∃ i u, Chained u i child (pid + 1) ∧
      Run (PassesOver 0x4000) ⟨s, n⟩ [.fork (some (child, 0)) 0 0 0, .exit 0] ⟨u, n + 1⟩ := by
  obtain ⟨hfresh, i, hf⟩ := h.fork hchild hlast
  obtain ⟨u, hexit, hu⟩ := hf.exit hpid
  have hbehind : cur ≠ 0x4000 := h.apart.2.2
  refine ⟨i, u, hu, .cons (t := ⟨_, n⟩) ⟨⟨hfresh, rfl⟩, ?_, ?_⟩
    (.single ⟨⟨trivial, hexit⟩, ?_, ?_⟩)⟩
  · rwa [hf.running]
  · rw [hf.running, h.running, if_pos rfl]
    rfl
  · rw [hu.running]
    exact hchild.2.1
  · rw [hu.running, hf.running, if_neg hchild.2.2]

/-- The two structs the chain of children lives in by turns. -/
def childStruct (k : ℕ) : ℕ := if k % 2 = 0 then 0x8000 else 0xC000

theorem Chained.generations (h : Chained s c (childStruct 0) 2) (k : ℕ)
    (hk : k + 3 < 4294967296) : ∃ ops i u, Chained u i (childStruct k) (k + 2) ∧
      Run (PassesOver 0x4000) ⟨s, 0⟩ ops ⟨u, k⟩ := by
  induction k with
  | zero => exact ⟨[], c, s, h, .nil _⟩
  | succ k ih =>
    obtain ⟨ops, j, u, hu, hrun⟩ := ih (by omega)
    have hchild : childStruct (k + 1) ≠ 0 ∧ childStruct (k + 1) ≠ 0x4000 ∧
        childStruct (k + 1) ≠ childStruct k := by
      unfold childStruct
      split_ifs <;> omega
    obtain ⟨i, v, hv, hstep⟩ := hu.handOver hchild (by omega) (by omega) k
    exact ⟨_, i, v, hv, hrun.append hstep⟩

theorem forkedTable_chained : Chained (switchNext forkedTable) 1 (childStruct 0) 2 where
  apart := by decide
  first := by decide +kernel
  last := by decide +kernel
  free := by decide +kernel
  running := by decide +kernel
  nextPid := by decide +kernel

/-- Exits starve: a process that is runnable the whole time is passed over by any number of
switches, as long as there are pids. -/
theorem schedRun_starves (k : ℕ) (hk : k + 3 < 4294967296) : ∃ ops₀ s ops n,
    Run SchedStep initTable ops₀ s ∧ Waiting s 0x4000 ∧
      Run (Along (fun m => Waiting m.sched 0x4000) (PassesOver 0x4000)) ⟨s, 0⟩ ops n ∧
      Waiting n.sched 0x4000 ∧ n.switches = k := by
  have hr : Run SchedStep initTable [.fork (some (0x8000, 0xC000)) 0 0 0, .switch]
      (switchNext forkedTable) :=
    .cons ⟨⟨by decide, by decide +kernel⟩, rfl⟩ (.single ⟨trivial, rfl⟩)
  obtain ⟨ops, i, u, hu, hrun⟩ := forkedTable_chained.generations k hk
  have htable : TableOk (switchNext forkedTable) :=
    hr.preserves (fun _ _ _ ht hs => schedStep_tableOk ht hs) (schedBoot_ok initTable_boot).1
  have halong := passesOver_along hrun htable forkedTable_chained.waiting
  exact ⟨_, _, ops, ⟨u, k⟩, hr, forkedTable_chained.waiting, halong, hu.waiting, rfl⟩

/-- A thousand generations. -/
theorem schedRun_starves_thousand : ∃ ops₀ s ops n, Run SchedStep initTable ops₀ s ∧
    Waiting s 0x4000 ∧
      Run (Along (fun m => Waiting m.sched 0x4000) (PassesOver 0x4000)) ⟨s, 0⟩ ops n ∧
      Waiting n.sched 0x4000 ∧ n.switches = 1000 :=
  schedRun_starves 1000 (by decide)

end Starve

end Leg
