import Leg.Process.JoinSleep

/-! How long a join and a sleep last and what the joiner gets back, in every run in which each
process that exits has a pid of its own that is not 0; and the run past `next_pid`'s wrap-around
in which the exit of pid 0 ends a sleep early. -/
namespace Leg.Machine
open Runs Sched

section Own
variable {s : Sched}

theorem schedGet_own (ht : TableOk s) (ho : OwnPid s) :
    schedGet s (s.proc s.currentProc).pid = s.currentProc := by
  have hlive : s.Live (s.proc s.currentProc).pid := (live_iff_mem s _).mpr ⟨_, ht.current, rfl⟩
  have h0 : schedGet s (s.proc s.currentProc).pid ≠ 0 := fun hz =>
    schedGet_eq_zero.mp hz hlive
  obtain ⟨⟨-, i, hi⟩, hpid⟩ := schedGet_mem h0
  rw [← hi] at hpid h0 ⊢
  exact ho.2 i h0 hpid

end Own

section Law

/-- What the calls promise from the state `m` on, when every event meets `ok`. -/
structure JoinSleepLaw (kernelPhysBase kernelTable : ℕ) (ok : Machine → Event → Prop)
    (m : Machine) : Prop where
  /-- A join on a listed process lasts at least until that process exits. -/
  join_lasts : ∀ n t, Meeting ok (Step kernelPhysBase kernelTable) m (.svc .join) n →
    schedGet m.sched (m.regs.r 0) = t → t ≠ 0 →
    ∀ es k, Run (Meeting (fun s e => ok s e ∧ ¬ (e = .svc .exit ∧ s.sched.currentProc = t))
        (Step kernelPhysBase kernelTable)) n es k →
      Blocked k.sched m.sched.currentProc (m.regs.r 0) 0
  /-- An exit makes those joined on it runnable, and leaves the other structs as they are. -/
  exit_wakes : m.mode = .user → ok m (.svc .exit) → ∀ p, m.sched.Mem p → p ≠ m.sched.currentProc →
    let pid := (m.sched.proc m.sched.currentProc).pid
    let left := exitTable m.sched pid (m.regs.r 0)
    left.Mem p ∧ (if (m.sched.proc p).joinTarget = pid then (left.proc p).suspended = 0
      else left.proc p = m.sched.proc p) ∧
    ∀ n, m.Step kernelPhysBase kernelTable (.svc .exit) n → n.sched.proc = left.proc
  /-- The first time a joiner runs again its `r0` is the exit code. -/
  joiner_resumes : ∀ n p, Meeting ok (Step kernelPhysBase kernelTable) m (.svc .exit) n →
    m.sched.Mem p → p ≠ m.sched.currentProc →
    (m.sched.proc p).joinTarget = (m.sched.proc m.sched.currentProc).pid →
    (Running n p → ResumedWith n p (m.regs.r 0)) ∧
    (¬ Running n p → ∀ es k, Run (Along (fun s => ¬ Running s p)
        (Meeting ok (Step kernelPhysBase kernelTable))) n es k →
      ∀ e k', Meeting ok (Step kernelPhysBase kernelTable) k e k' → Running k' p →
        ResumedWith k' p (m.regs.r 0))
  /-- A sleep lasts at least until a tick at its deadline. -/
  sleep_lasts : ∀ n now freq,
    Meeting ok (Step kernelPhysBase kernelTable) m (.svc (.sleep now freq)) n →
    let deadline := sleepDeadline (m.regs.r 0) now freq
    ∀ es k, Run (Meeting (fun s e => ok s e ∧ ∀ c, e = .irq (some c) → c < deadline)
        (Step kernelPhysBase kernelTable)) n es k →
      Blocked k.sched m.sched.currentProc 0 deadline

variable {kernelPhysBase kernelTable : ℕ} {m n : Machine}

theorem svc_user {call : Svc} (hs : m.Step kernelPhysBase kernelTable (.svc call) n) :
    m.mode = .user ∧ m.svcDispatch kernelPhysBase kernelTable call = some n := by
  have hn := hs.2
  simp only [next] at hn
  split at hn
  next hm => exact ⟨hm, hn⟩
  next => exact absurd hn (by simp)

theorem running_current {m : Machine} (hm : m.mode = .user) : Running m m.sched.currentProc :=
  ⟨rfl, by rw [hm]; decide, by rw [hm]; decide⟩

theorem join_lasts (h : ProtocolOk m) {t : ℕ}
    (hs : m.Step kernelPhysBase kernelTable (.svc .join) n)
    (ht : schedGet m.sched (m.regs.r 0) = t) (ht0 : t ≠ 0) {es : List Event} {k : Machine}
    (hr : Run (Meeting (fun s e => s.KeepsProtocol e ∧
        ¬ (e = .svc .exit ∧ s.sched.currentProc = t)) (Step kernelPhysBase kernelTable)) n es k) :
    Blocked k.sched m.sched.currentProc (m.regs.r 0) 0 := by
  obtain ⟨hm, hn⟩ := svc_user hs
  obtain ⟨-, -, hw⟩ := h.running_clear hm (running_current hm)
  have hk : m.KeepsProtocol (.svc .join) := ⟨trivial, trivial⟩
  have hok := step_protocolOk h hk hs
  obtain ⟨htm, htp⟩ := schedGet_mem (s := m.sched) (ht ▸ ht0 : schedGet m.sched (m.regs.r 0) ≠ 0)
  rw [ht] at htm htp
  have hpid := step_pid h hk hs htm fun hc => by simp at hc
  have hblocked : Blocked n.sched m.sched.currentProc (m.regs.r 0) 0 := by
    rw [svcDispatch, svcJoin, if_neg (ht ▸ ht0)] at hn
    rw [← Option.some.inj hn]
    refine ⟨h.table.current, ?_, ?_, ?_⟩
    · simp
    · simp
    · simpa using hw
  -- the target keeps its pid, so nobody else exits under it
  have hall : ProtocolOk k ∧ Blocked k.sched m.sched.currentProc (m.regs.r 0) 0 ∧
      k.sched.Mem t ∧ (k.sched.proc t).pid = m.regs.r 0 := by
    refine hr.preserves (I := fun k => ProtocolOk k ∧
      Blocked k.sched m.sched.currentProc (m.regs.r 0) 0 ∧
      k.sched.Mem t ∧ (k.sched.proc t).pid = m.regs.r 0) ?_
        ⟨hok, hblocked, hpid.1, hpid.2.trans htp⟩
    rintro u e v ⟨hu, hb, htu, hpu⟩ ⟨⟨hk, hno⟩, hstep⟩
    obtain ⟨htv, hpv⟩ := step_pid hu hk hstep htu hno
    refine ⟨step_protocolOk hu hk hstep, step_blocked hu hk hstep hb (fun he hc => ?_)
      (fun _ _ h0 => absurd rfl h0), htv, hpv.trans hpu⟩
    subst he
    obtain ⟨ht0, i, hi⟩ := htu
    exact hno ⟨rfl, (hi.symm.trans (hk.2.2 i (hi ▸ ht0) (by rw [hi, hpu, hc]))).symm⟩
  exact hall.2.1

theorem sleep_lasts (h : ProtocolOk m) {now freq : ℕ}
    (hs : m.Step kernelPhysBase kernelTable (.svc (.sleep now freq)) n) {es : List Event}
    {k : Machine} (hr : Run (Meeting (fun s e => s.KeepsProtocol e ∧
      ∀ c, e = .irq (some c) → c < sleepDeadline (m.regs.r 0) now freq)
      (Step kernelPhysBase kernelTable)) n es k) :
    Blocked k.sched m.sched.currentProc 0 (sleepDeadline (m.regs.r 0) now freq) := by
  obtain ⟨hm, hn⟩ := svc_user hs
  obtain ⟨-, hj, -⟩ := h.running_clear hm (running_current hm)
  have hk : m.KeepsProtocol (.svc (.sleep now freq)) := ⟨trivial, trivial⟩
  have hok := step_protocolOk h hk hs
  have hblocked : Blocked n.sched m.sched.currentProc 0 (sleepDeadline (m.regs.r 0) now freq) := by
    rw [← Option.some.inj hn]
    refine ⟨h.table.current, ?_, ?_, ?_⟩
    · simp [svcSleep]
    · simpa [svcSleep] using hj
    · simp [svcSleep]
  have hall : ProtocolOk k ∧
      Blocked k.sched m.sched.currentProc 0 (sleepDeadline (m.regs.r 0) now freq) := by
    refine hr.preserves (I := fun k => ProtocolOk k ∧ Blocked k.sched m.sched.currentProc 0
      (sleepDeadline (m.regs.r 0) now freq)) ?_ ⟨hok, hblocked⟩
    rintro u e v ⟨hu, hb⟩ ⟨⟨hk, hearly⟩, hstep⟩
    refine ⟨step_protocolOk hu hk hstep, step_blocked hu hk hstep hb (fun he => ?_)
      fun c he _ => hearly c he⟩
    subst he
    exact hk.2.1
  exact hall.2

theorem exit_wakes (h : ProtocolOk m) (ho : OwnPid m.sched) {p : ℕ} (hp : m.sched.Mem p)
    (hpc : p ≠ m.sched.currentProc) :
    let left := exitTable m.sched (m.sched.proc m.sched.currentProc).pid (m.regs.r 0)
    left.Mem p ∧ left.proc p =
      if (m.sched.proc p).joinTarget = (m.sched.proc m.sched.currentProc).pid
        then wakeJoiner (m.regs.r 0) (m.sched.proc p) else m.sched.proc p := by
  have hcur := schedGet_own h.table ho
  have h0 : schedGet m.sched (m.sched.proc m.sched.currentProc).pid ≠ 0 := by
    rw [hcur]
    exact h.table.current.1
  exact ⟨(exitTable_mem _ h.table.distinct h0 hcur p).mpr ⟨hp, hpc⟩,
    exitTable_proc _ h.table.distinct h0 hcur hp hpc⟩

theorem exit_proc (hs : m.Step kernelPhysBase kernelTable (.svc .exit) n) :
    n.sched.proc =
      (exitTable m.sched (m.sched.proc m.sched.currentProc).pid (m.regs.r 0)).proc := by
  have hn := (svc_user hs).2
  rw [svcDispatch] at hn
  split at hn
  next s hx =>
    obtain ⟨-, -, -, rfl⟩ := processExit_eq hx
    rw [← Option.some.inj hn]
    rfl
  next => exact absurd hn (by simp)

theorem joiner_resumes (h : ProtocolOk m) (ho : OwnPid m.sched) {p : ℕ}
    (hs : m.Step kernelPhysBase kernelTable (.svc .exit) n) (hp : m.sched.Mem p)
    (hpc : p ≠ m.sched.currentProc)
    (hj : (m.sched.proc p).joinTarget = (m.sched.proc m.sched.currentProc).pid) :
    Woken n p (m.regs.r 0) ∨ ResumedWith n p (m.regs.r 0) := by
  have hk : m.KeepsProtocol (.svc .exit) := ⟨trivial, ho⟩
  obtain ⟨-, hq⟩ := exit_wakes h ho hp hpc
  rw [if_pos hj, ← exit_proc hs] at hq
  have hw : (m.sched.proc p).wakeTick = 0 := (h.one p hp).resolve_left (hj ▸ ho.1)
  have hmem : n.sched.Mem p := by
    cases step_change h hk hs hp with
    | gone he hr hm hgone => exact absurd hr.1.symm hpc
    | joined he hmem ht hq => exact hmem
    | blocks hr hm hmem => exact hmem
    | due he hmem => exact hmem
    | kept hmem => exact hmem
  have hr0 : (n.sched.proc p).ctx.r 0 = m.regs.r 0 := by
    rw [hq]
    simp [wakeJoiner]
  by_cases hn : Running n p
  · right
    cases step_outcome h hk hs with
    | restored hm hr hsus =>
      refine ⟨hm, hn, ?_⟩
      rw [hr, hn.1]
      exact hr0
    | idle hm => exact absurd hm (not_or.mpr hn.2)
    | same hc hi hi' hsus => exact absurd (hc.symm.trans hn.1).symm hpc
  · exact .inl ⟨hmem, by rw [hq]; rfl, by rw [hq]; exact hw, hr0, hn⟩

theorem ProtocolOk.law (h : ProtocolOk m) :
    JoinSleepLaw kernelPhysBase kernelTable KeepsProtocol m where
  join_lasts n t hs ht ht0 es k hr := join_lasts h hs.2 ht ht0 hr
  exit_wakes hm hk p hp hpc := by
    obtain ⟨hmem, hq⟩ := exit_wakes h hk.2 hp hpc
    refine ⟨hmem, ?_, fun n hs => exit_proc hs⟩
    rw [hq]
    split <;> rfl
  joiner_resumes n p hs hp hpc hj := by
    have hstart := joiner_resumes h hs.1.2 hs.2 hp hpc hj
    have hok := step_protocolOk h hs.1 hs.2
    refine ⟨fun hn => hstart.resolve_left fun hw => hw.2.2.2.2 hn,
      fun hn es k hr e k' hs' hk' => ?_⟩
    have hall : ProtocolOk k ∧ Woken k p (m.regs.r 0) := by
      refine hr.preserves (I := fun k => ProtocolOk k ∧ Woken k p (m.regs.r 0)) ?_
        ⟨hok, hstart.resolve_right fun hres => hn hres.2.1⟩
      rintro u e v ⟨hu, hw⟩ ⟨⟨hk, hstep⟩, hv⟩
      exact ⟨step_protocolOk hu hk hstep, (step_woken hu hk hstep hw).resolve_right
        fun hres => hv hres.2.1⟩
    exact (step_woken hall.1 hs'.1 hs'.2 hall.2).resolve_left fun hw => hw.2.2.2.2 hk'
  sleep_lasts n now freq hs es k hr := sleep_lasts h hs.2 hr

/-- The processes that are there at the start wait for nothing. -/
def StartsClear (m : Machine) : Prop := ∀ p, m.sched.Mem p →
  (m.sched.proc p).joinTarget = 0 ∧ (m.sched.proc p).wakeTick = 0

theorem boot_protocolOk (h : m.Boot kernelPhysBase) (hc : m.StartsClear) : ProtocolOk m := by
  obtain ⟨p, proc, pid, hp, hsched, -, -, -⟩ := h
  obtain ⟨ht, hcur, -, hsus⟩ := processExec_first proc pid hp
  refine ⟨hsched ▸ ht, fun q hq _ => hc q hq, fun q hq => .inl (hc q hq).1, fun _ => ?_⟩
  rw [hsched, hcur]
  exact hsus

/-- In every run from the first process on in which processes exit under pids of their own,
joins and sleeps last as long as they should and joiners get the exit code. -/
theorem run_joinSleepLaw {es : List Event} (h : m.Boot kernelPhysBase) (hc : m.StartsClear)
    (hr : Run (Meeting KeepsProtocol (Step kernelPhysBase kernelTable)) m es n) :
    JoinSleepLaw kernelPhysBase kernelTable KeepsProtocol n :=
  ProtocolOk.law (hr.preserves (I := ProtocolOk)
    (fun _ _ _ hok hs => step_protocolOk hok hs.1 hs.2) (boot_protocolOk h hc))

theorem init_startsClear : init.StartsClear := by
  intro p hp
  obtain ⟨-, -, honly, -⟩ := processExec_first (p := 0xC0104000) (fun _ =>
    { (default : Process) with pid := 1, pgd := 0xC0104400 }) 2 (by decide)
  rw [honly p hp]
  decide +kernel

/-- The registers of a caller with `n` in `r0`. -/
def argRegs (n : ℕ) : CpuCtx := { (default : CpuCtx) with r := Function.update (fun _ => 0) 0 n }

/-- A fork, a join on the child, the child's exit and a sleep that ends in the idle loop. -/
def joiningRun : List Event :=
  [.svc (.fork (some (0xC0108000, 0xC0108400))), .svcReturn, .run (argRegs 2), .svc .join,
    .svcReturn,
    .run (argRegs 7), .svc .exit, .svc (.sleep 10 1000000), .svcReturn, .irq (some 30), .wake]

theorem joiningRun_joinSleepLaw : ∃ n,
    Run (Meeting KeepsProtocol (Step 0x40200000 0xC0008000)) init joiningRun n ∧
      JoinSleepLaw 0x40200000 0xC0008000 KeepsProtocol n := by
  have hsome : (execute (fun m e => decide (m.KeepsProtocol e ∧ m.Fresh e))
      (next 0x40200000 0xC0008000) init joiningRun).isSome := by decide +kernel
  obtain ⟨n, hn⟩ := Option.isSome_iff_exists.mp hsome
  have hrun : Run (Meeting KeepsProtocol (Step 0x40200000 0xC0008000)) init joiningRun n :=
    Run.of_execute (fun _ _ _ hok ht =>
      ⟨(of_decide_eq_true hok).1, (of_decide_eq_true hok).2, ht⟩) hn
  exact ⟨n, hrun, run_joinSleepLaw init_boot init_startsClear hrun⟩

end Law

section Wrap
variable {m : Machine} {child pgd : ℕ}

/-- `m` after `k + 1` forks that got a struct at `child` but no slot in the table. -/
def refused (m : Machine) (child pgd k : ℕ) : Machine :=
  { m with
    sched := { m.sched with
      proc := Function.update m.sched.proc child
        { forkChild m.sched child pgd m.regs.pc m.regs.sp m.regs.cpsr with
          pid := u32 (m.sched.nextPid + k) }
      nextPid := u32 (m.sched.nextPid + k + 1) }
    regs := { m.regs with r := Function.update m.regs.r 0 u32Max } }

/-- A fork that finds the table full still takes a pid. -/
theorem fork_refused {kernelPhysBase kernelTable : ℕ} (hm : m.mode = .user)
    (hfull : ∀ i, m.sched.procs i ≠ 0)
    (hrun : (m.sched.proc m.sched.currentProc).suspended = 0) (hc : m.sched.currentProc ≠ child)
    (hchild : child ≠ 0 ∧ ¬ m.sched.Mem child) (hj : (m.sched.proc child).joinTarget = 0)
    (hpid : u32 m.sched.nextPid = m.sched.nextPid) :
    Run (Meeting InProtocol (Step kernelPhysBase kernelTable)) m
      [.svc (.fork (some (child, pgd))), .svcReturn] (m.refused child pgd 0) := by
  obtain ⟨hproc, hcur, hnext, hslot⟩ :=
    processFork_some m.sched child pgd m.regs.pc m.regs.sp m.regs.cpsr
  obtain ⟨hprocs, hnull⟩ : (processFork m.sched (some (child, pgd)) m.regs.pc m.regs.sp
      m.regs.cpsr).1.procs = m.sched.procs ∧ (processFork m.sched (some (child, pgd)) m.regs.pc
      m.regs.sp m.regs.cpsr).2 = 0 := by
    rcases hslot with ⟨i, hi, -⟩ | ⟨-, hprocs, hnull⟩
    · exact absurd hi (hfull i)
    · exact ⟨hprocs, hnull⟩
  have hsched : (processFork m.sched (some (child, pgd)) m.regs.pc m.regs.sp m.regs.cpsr).1 =
      (m.refused child pgd 0).sched := by
    cases h : (processFork m.sched (some (child, pgd)) m.regs.pc m.regs.sp m.regs.cpsr).1
    simp only [h] at hproc hcur hnext hprocs
    simp only [refused, hproc, hcur, hnext, hprocs, Nat.add_zero, hpid]
    rfl
  refine .cons (t := { m with sched := (m.refused child pgd 0).sched, mode := .svcDone u32Max })
    ⟨hj, hchild, ?_⟩ (.single ⟨trivial, trivial, ?_⟩)
  · simp only [next, if_pos hm, svcDispatch, hnull, if_true, hsched]
  · have hsus : ((m.refused child pgd 0).sched.proc m.sched.currentProc).suspended = 0 := by
      simpa [refused, Function.update_of_ne hc] using hrun
    have hcur' : (m.refused child pgd 0).sched.currentProc = m.sched.currentProc := rfl
    simp only [next, svcReturn, hcur', hsus, ne_eq, not_true_eq_false, if_false]
    simp [refused, hm]

/-- The counter values that ticks and sleeps read, in order. -/
def counters : List Event → List ℕ :=
  List.filterMap fun
    | .irq (some now) => some now
    | .svc (.sleep now _) => some now
    | _ => none

theorem refused_refused (hc : m.sched.currentProc ≠ child) (k : ℕ) :
    (m.refused child pgd k).refused child pgd 0 = m.refused child pgd (k + 1) := by
  have hproc : (m.refused child pgd k).sched.proc m.sched.currentProc =
      m.sched.proc m.sched.currentProc := Function.update_of_ne hc _ _
  have hcur : (m.refused child pgd k).sched.currentProc = m.sched.currentProc := rfl
  have hpid : u32 (u32 (m.sched.nextPid + k + 1)) = u32 (m.sched.nextPid + (k + 1)) := by
    simp [u32, Nat.add_assoc]
  have hnext : u32 (u32 (m.sched.nextPid + k + 1) + 1) = u32 (m.sched.nextPid + (k + 1) + 1) := by
    simp [u32, Nat.add_assoc]
  conv_lhs => rw [refused]
  rw [forkChild, hcur, hproc]
  simp only [refused, Function.update_idem, Nat.add_zero, hpid, hnext]
  simp [forkChild]

/-- Forks that find the table full, over and over. -/
theorem forks_refused (kernelPhysBase kernelTable pgd : ℕ) (hm : m.mode = .user)
    (hfull : ∀ i, m.sched.procs i ≠ 0)
    (hrun : (m.sched.proc m.sched.currentProc).suspended = 0) (hc : m.sched.currentProc ≠ child)
    (hchild : child ≠ 0 ∧ ¬ m.sched.Mem child) (hj : (m.sched.proc child).joinTarget = 0)
    (hpid : u32 m.sched.nextPid = m.sched.nextPid) (k : ℕ) :
    ∃ es, counters es = [] ∧ Run (Meeting InProtocol (Step kernelPhysBase kernelTable)) m es
      (m.refused child pgd k) := by
  induction k with
  | zero => exact ⟨_, rfl, fork_refused hm hfull hrun hc hchild hj hpid⟩
  | succ k ih =>
    obtain ⟨es, hes, hr⟩ := ih
    refine ⟨es ++ [.svc (.fork (some (child, pgd))), .svcReturn], ?_, hr.append ?_⟩
    · rw [counters, List.filterMap_append, ← counters, hes]
      rfl
    rw [← refused_refused hc k]
    refine fork_refused hm hfull ?_ hc hchild ?_ ?_
    · rw [show ((m.refused child pgd k).sched.proc (m.refused child pgd k).sched.currentProc) =
        m.sched.proc m.sched.currentProc from Function.update_of_ne hc _ _]
      exact hrun
    · simpa [refused, forkChild] using hj
    · simp [refused, u32]

/-- Seven forks fill the table. -/
def fillingRun : List Event :=
  (List.range 7).flatMap fun i =>
    [.svc (.fork (some (0xC0108000 + 0x4000 * i, 0xC0108400 + 0x4000 * i))), .svcReturn]

/-- The first and the second process join the third; the third exits and the second goes on; it
forks. -/
def freeingRun : List Event :=
  [.run (argRegs 3), .svc .join, .svcReturn, .run (argRegs 3), .svc .join, .svcReturn, .svc .exit,
    .svc (.fork (some (0xC0148000, 0xC0148400))), .svcReturn, .run (argRegs 20)]

/-- The run of a machine as far as it stays in the protocol. -/
def tryRun (m : Machine) (es : List Event) : Option Machine :=
  execute (fun m e => decide (m.InProtocol e ∧ m.Fresh e)) (next 0x40200000 0xC0008000) m es

theorem tryRun_run {m n : Machine} {es : List Event} (h : tryRun m es = some n) :
    Run (Meeting InProtocol (Step 0x40200000 0xC0008000)) m es n :=
  Run.of_execute (fun _ _ _ hok hn =>
    ⟨(of_decide_eq_true hok).1, (of_decide_eq_true hok).2, hn⟩) h

theorem counters_append (es fs : List Event) : counters (es ++ fs) = counters es ++ counters fs :=
  List.filterMap_append

/-- `next_pid` wraps, a process gets pid 0, and its exit wakes those who are joined on nobody: a
sleep ends without a tick. -/
theorem exit_wakes_sleeper : ¬ ∀ kernelPhysBase kernelTable m pre u now freq n post k,
    m.Boot kernelPhysBase → m.StartsClear →
    Run (Meeting InProtocol (Step kernelPhysBase kernelTable)) m pre u →
    Meeting InProtocol (Step kernelPhysBase kernelTable) u (.svc (.sleep now freq)) n →
    Run (Meeting InProtocol (Step kernelPhysBase kernelTable)) n post k →
    (counters (pre ++ .svc (.sleep now freq) :: post)).Pairwise (· ≤ ·) →
    (∀ c, .irq (some c) ∈ post → c < sleepDeadline (u.regs.r 0) now freq) →
    Blocked k.sched u.sched.currentProc 0 (sleepDeadline (u.regs.r 0) now freq) := by
  intro h
  have hfill : (tryRun init fillingRun).any (fun m =>
      decide (m.mode = .user ∧ (∀ i, m.sched.procs i ≠ 0) ∧
        (m.sched.proc m.sched.currentProc).suspended = 0 ∧ m.sched.currentProc ≠ 0xC0144000 ∧
        FreshAlloc m.sched (some (0xC0144000, 0xC0144400)) ∧
        (m.sched.proc 0xC0144000).joinTarget = 0 ∧ u32 m.sched.nextPid = m.sched.nextPid) &&
      (tryRun (m.refused 0xC0144000 0xC0144400 0xFFFFFFF6) freeingRun).any fun u =>
        (tryRun u [.svc (.sleep 10 1000000)]).any fun n =>
          (tryRun n [.svcReturn, .svc .exit]).any fun k =>
            decide ((k.sched.proc u.sched.currentProc).suspended = 0)) = true := by
    decide +kernel
  obtain ⟨m, hm, htest⟩ := (Option.any_eq_true _ _).mp hfill
  obtain ⟨hfull, hrest⟩ := (Bool.and_eq_true _ _).mp htest
  obtain ⟨hmode, hslots, hrun, hcur, hfresh, hj, hpid⟩ := of_decide_eq_true hfull
  obtain ⟨es, hes, hforks⟩ := forks_refused 0x40200000 0xC0008000 0xC0144400 hmode hslots hrun hcur
    hfresh hj hpid 0xFFFFFFF6
  obtain ⟨u, hu, hrest⟩ := (Option.any_eq_true _ _).mp hrest
  obtain ⟨n, hn, hrest⟩ := (Option.any_eq_true _ _).mp hrest
  obtain ⟨k, hk, hawake⟩ := (Option.any_eq_true _ _).mp hrest
  have hpre : Run (Meeting InProtocol (Step 0x40200000 0xC0008000)) init
      (fillingRun ++ (es ++ freeingRun)) u :=
    (tryRun_run hm).append (hforks.append (tryRun_run hu))
  have hcounters : counters ((fillingRun ++ (es ++ freeingRun)) ++
      .svc (.sleep 10 1000000) :: [.svcReturn, .svc .exit]) = [10] := by
    rw [counters_append, counters_append, counters_append, hes]
    rfl
  have hsleep : Meeting InProtocol (Step 0x40200000 0xC0008000) u
      (.svc (.sleep 10 1000000)) n := by
    cases tryRun_run hn with
    | cons hstep hnil =>
      cases hnil
      exact hstep
  have hblocked := h _ _ _ _ _ _ _ _ _ _ init_boot init_startsClear hpre hsleep (tryRun_run hk)
    (by rw [hcounters]; decide) fun c hc => by simp at hc
  exact hblocked.2.1 (of_decide_eq_true hawake)

end Wrap

end Leg.Machine
