import Leg.Lib.Runs
import Leg.Process.Traps

/-! The registers a fork child starts with. The child's context is a copy of the one saved
in the parent's struct, which `handle_irq` and the yield path refresh and no SVC entry does. -/
namespace Leg.Machine
open Runs Sched

/-- The context `ctx` continues the fork SVC that was executed with the registers `regs`. -/
structure ContinuesFork (regs ctx : CpuCtx) : Prop where
  callee : ∀ i : Fin 13, 4 ≤ i.val → i.val ≤ 11 → ctx.r i = regs.r i
  result : ctx.r 0 = 0
  sp : ctx.sp = regs.sp
  pc : ctx.pc = regs.pc
  cpsr : ctx.cpsr = regs.cpsr

/-- Every fork child that has run started from its parent's registers at the fork. -/
def ForksFaithful (m : Machine) : Prop := ∀ f ∈ m.firstRuns, ContinuesFork f.1 f.2

/-- A listed child has not run yet. -/
def ChildWaits (m : Machine) : Prop :=
  ∃ i, m.sched.procs i ≠ 0 ∧ (m.forked (m.sched.procs i)).isSome

/-- At a fork that gets its memory and a slot, the parent's saved context holds its live `r4`-`r11`.
While a child waits for its first run, no process exits with a code other than 0 whose pid the child
has in `join_target`, a tick in a waiting handler finds no other process runnable, and
`process_replace` finds the caller. -/
def KeepsForks (m : Machine) : Event → Prop
  | .svc (.fork alloc) => alloc.isSome → (∃ i, m.sched.procs i = 0) →
      ∀ i : Fin 13, 4 ≤ i.val → i.val ≤ 11 →
        (m.sched.proc m.sched.currentProc).ctx.r i = m.regs.r i
  | .svc .exit => m.regs.r 0 = 0 ∨ ∀ i, m.sched.procs i ≠ 0 →
      (m.forked (m.sched.procs i)).isSome → (m.sched.proc (m.sched.procs i)).joinTarget ≠
        (m.sched.proc m.sched.currentProc).pid
  | .irq (some now) => m.mode = .waiting → m.ChildWaits → ¬ OtherRunnable m.sched now
  | .svc (.exec (.done _ _ _ _)) => m.ChildWaits →
    schedGet m.sched (m.sched.proc m.sched.currentProc).pid = m.sched.currentProc
  | _ => True

instance (regs ctx : CpuCtx) : Decidable (ContinuesFork regs ctx) :=
  decidable_of_iff ((∀ i : Fin 13, 4 ≤ i.val → i.val ≤ 11 → ctx.r i = regs.r i) ∧
      ctx.r 0 = 0 ∧ ctx.sp = regs.sp ∧ ctx.pc = regs.pc ∧ ctx.cpsr = regs.cpsr)
    ⟨fun ⟨h1, h2, h3, h4, h5⟩ => ⟨h1, h2, h3, h4, h5⟩,
      fun h => ⟨h.callee, h.result, h.sp, h.pc, h.cpsr⟩⟩

instance (m : Machine) : Decidable (ForksFaithful m) :=
  inferInstanceAs (Decidable (∀ f ∈ m.firstRuns, _))

instance (m : Machine) : Decidable m.ChildWaits :=
  inferInstanceAs (Decidable (∃ i, m.sched.procs i ≠ 0 ∧ (m.forked (m.sched.procs i)).isSome))

instance (m : Machine) (e : Event) : Decidable (m.KeepsForks e) :=
  match e with
  | .svc (.fork alloc) => inferInstanceAs (Decidable (alloc.isSome → (∃ i, m.sched.procs i = 0) →
      ∀ _ : Fin 13, _))
  | .svc .exit => inferInstanceAs (Decidable (_ ∨ ∀ _, _))
  | .irq (some now) => inferInstanceAs
      (Decidable (m.mode = .waiting → m.ChildWaits → ¬ OtherRunnable m.sched now))
  | .svc (.exec (.done _ _ _ _)) => inferInstanceAs
      (Decidable (m.ChildWaits → _ = m.sched.currentProc))
  | .svc (.exec .notLoaded) | .svc (.exec .noStack) | .svc .join | .svc .wait
  | .svc (.sleep _ _) | .svc (.other _) | .irq none | .run _ | .input _ | .svcReturn
  | .wake => isTrue trivial

/-- The children that have not run yet hold the context they are to start from, and outside
the idle loops `current_proc` is not one of them. -/
structure ForkOk (m : Machine) : Prop where
  table : TableOk m.sched
  waiting : ∀ p, m.sched.Mem p → ∀ regs, m.forked p = some regs →
    ContinuesFork regs (m.sched.proc p).ctx
  current : m.mode ≠ .svcIdle → m.mode ≠ .irqIdle → m.forked m.sched.currentProc = none
  past : ForksFaithful m

section Steps
variable {kernelPhysBase kernelTable : ℕ} {m n : Machine}

theorem childWaits_of_mem {p : ℕ} (hp : m.sched.Mem p) {regs : CpuCtx}
    (hf : m.forked p = some regs) : m.ChildWaits := by
  obtain ⟨h0, i, rfl⟩ := hp
  exact ⟨i, h0, by rw [hf]; rfl⟩

theorem ForkOk.of_none (ht : TableOk m.sched) (hno : ¬ m.ChildWaits) (hp : ForksFaithful m) :
    ForkOk m where
  table := ht
  waiting _ hm _ hf := absurd (childWaits_of_mem hm hf) hno
  current _ _ := Option.eq_none_iff_forall_ne_some.mpr fun _ hf =>
    hno (childWaits_of_mem ht.current hf)
  past := hp

theorem processFork_succeeds {s : Sched} {alloc : Option (ℕ × ℕ)} {lrSvc spUsr cpsr : ℕ}
    (h : (processFork s alloc lrSvc spUsr cpsr).2 ≠ 0) :
    alloc.isSome ∧ ∃ i, s.procs i = 0 := by
  rcases alloc with _ | ⟨child, pgd⟩
  · exact absurd rfl h
  · obtain ⟨-, -, -, ⟨i, hi, -, -⟩ | ⟨-, -, h0⟩⟩ := processFork_some s child pgd lrSvc spUsr cpsr
    · exact ⟨rfl, i, hi⟩
    · exact absurd h0 h

/-- A first resume from an idle loop, a yield or an IRQ adds one more faithful start. -/
theorem restore_forkOk (ht : TableOk m.sched)
    (hw : ∀ p, m.sched.Mem p → ∀ regs, m.forked p = some regs →
      ContinuesFork regs (m.sched.proc p).ctx) (hp : ForksFaithful m) {p : ℕ}
    (hm : m.sched.Mem p) : ForkOk (m.restore kernelPhysBase p) where
  table := ⟨ht.distinct, hm⟩
  waiting q hq regs hf := by
    simp only [restore] at hf
    by_cases hqp : q = p
    · rw [hqp, Function.update_self] at hf
      exact absurd hf (by simp)
    · rw [Function.update_of_ne hqp] at hf
      exact hw q hq regs hf
  current _ _ := by simp [restore, contextSwitch]
  past := by
    intro f hf
    simp only [restore] at hf
    cases hfork : m.forked p with
    | none =>
      rw [hfork] at hf
      exact hp f hf
    | some regs =>
      rw [hfork] at hf
      rcases List.mem_cons.mp hf with rfl | hf
      · exact hw p hm regs hfork
      · exact hp f hf

theorem saveCtx_waiting (h : ForkOk m) (hc : m.forked m.sched.currentProc = none) (regs : CpuCtx)
    (p : ℕ) (hp : m.sched.Mem p) (fregs : CpuCtx) (hf : m.forked p = some fregs) :
    ContinuesFork fregs ((m.saveCtx regs).sched.proc p).ctx := by
  have hne : p ≠ m.sched.currentProc := by
    rintro rfl
    rw [hc] at hf
    exact absurd hf (by simp)
  simp only [saveCtx, write_proc_of_ne _ _ hne]
  exact h.waiting p hp fregs hf

theorem irqDispatch_forkOk (h : ForkOk m) (now : Option ℕ)
    (hc : m.mode ≠ .svcIdle → m.mode ≠ .irqIdle →
      (irqDispatch m.sched now).currentProc = m.sched.currentProc) :
    ForkOk { m with sched := irqDispatch m.sched now } where
  table := irqDispatch_tableOk h.table now
  waiting p hp regs hf := by
    rw [irqDispatch_ctx h.table]
    exact h.waiting p ((irqDispatch_mem h.table now p).mp hp) regs hf
  current hs hi := by
    rw [hc hs hi]
    exact h.current hs hi
  past := h.past

theorem handleIrqUser_forkOk (h : ForkOk m) (hm : m.mode = .user) (now : Option ℕ) :
    ForkOk (m.handleIrqUser kernelPhysBase now) := by
  have hcur := h.current (by rw [hm]; decide) (by rw [hm]; decide)
  have hsv := saveCtx_waiting h hcur m.regs
  have hok := saveCtx_tableOk h.table m.regs
  rw [handleIrqUser, if_neg h.table.current.1]
  dsimp only
  have htick := irqDispatch_tableOk hok now
  have hwait (p : ℕ) (hp : (irqDispatch (m.saveCtx m.regs).sched now).Mem p) (regs : CpuCtx)
      (hf : m.forked p = some regs) :
      ContinuesFork regs ((irqDispatch (m.saveCtx m.regs).sched now).proc p).ctx := by
    rw [irqDispatch_ctx hok]
    exact hsv p ((irqDispatch_mem hok now p).mp hp) regs hf
  split
  · exact ⟨htick, hwait, fun _ hi => absurd rfl hi, h.past⟩
  · exact restore_forkOk (m := { m.saveCtx m.regs with
      sched := irqDispatch (m.saveCtx m.regs).sched now }) htick hwait h.past htick.current

theorem svcReturn_forkOk (h : ForkOk m) {r0 : ℕ} (hm : m.mode = .svcDone r0) :
    ForkOk (m.svcReturn kernelPhysBase r0) := by
  have hs : m.mode ≠ .svcIdle := by rw [hm]; exact Mode.noConfusion
  have hi : m.mode ≠ .irqIdle := by rw [hm]; exact Mode.noConfusion
  unfold svcReturn
  dsimp only
  generalize ({ m.regs with r := Function.update m.regs.r 0 r0 } : CpuCtx) = regs
  split
  · have hsv := saveCtx_waiting h (h.current hs hi) regs
    have hok := saveCtx_tableOk h.table regs
    split
    · exact ⟨hok, hsv, fun hn _ => absurd rfl hn, h.past⟩
    next hnext => exact restore_forkOk hok hsv h.past (schedPickNext_some hnext).1
  · exact ⟨h.table, h.waiting, fun _ _ => h.current hs hi, h.past⟩

/-- The exit code goes to joiners' `r0`: a waiting child keeps its own if it is not one. -/
theorem exit_forkOk (h : ForkOk m) {s : Sched} (hk : m.KeepsForks (.svc .exit))
    (he : processExit m.sched (m.sched.proc m.sched.currentProc).pid (m.regs.r 0) = some s) :
    ForkOk ({ m with sched := s }.restore kernelPhysBase s.currentProc) := by
  obtain ⟨hsub, hcur, hproc⟩ := processExit_frame he
  refine restore_forkOk (m := { m with sched := s }) (processExit_tableOk h.table he)
    (fun p hp regs hf => ?_) h.past hcur
  have hold := h.waiting p (hsub p hp) regs hf
  dsimp only at hf ⊢
  rcases (hproc p).2 with hsame | ⟨⟨h0, i, hi⟩, hj, hwoken⟩
  · rw [hsame]
    exact hold
  · rw [hwoken]
    rcases hk with hcode | hnone
    · refine ⟨fun i h4 h11 => ?_, ?_, hold.sp, hold.pc, hold.cpsr⟩
      · have hi0 : i ≠ 0 := by
          rintro rfl
          exact absurd h4 (by decide)
        simpa [wakeJoiner, hi0] using hold.callee i h4 h11
      · simp [wakeJoiner, hcode]
    · have := hnone i (hi ▸ h0)
      rw [hi, hf] at this
      exact absurd hj (this rfl)

theorem fork_forkOk (h : ForkOk m) (hm : m.mode = .user) {alloc : Option (ℕ × ℕ)}
    (hf : FreshAlloc m.sched alloc) (hk : m.KeepsForks (.svc (.fork alloc)))
    (hn : m.svcDispatch kernelPhysBase kernelTable (.fork alloc) = some n) : ForkOk n := by
  have hcurrent := h.current (by rw [hm]; decide) (by rw [hm]; decide)
  have hok := processFork_tableOk m.regs.pc m.regs.sp m.regs.cpsr h.table hf
  obtain ⟨hcur, hold, hmem, hchild⟩ := processFork_frame m.regs.pc m.regs.sp m.regs.cpsr hf
  have hcopy (h0 : (processFork m.sched alloc m.regs.pc m.regs.sp m.regs.cpsr).2 ≠ 0) :
      ∀ i : Fin 13, 4 ≤ i.val → i.val ≤ 11 →
        (m.sched.proc m.sched.currentProc).ctx.r i = m.regs.r i := by
    obtain ⟨hsome, hslot⟩ := processFork_succeeds h0
    exact hk hsome hslot
  simp only [svcDispatch] at hn
  generalize processFork m.sched alloc m.regs.pc m.regs.sp m.regs.cpsr = r at *
  have hwait (p : ℕ) (hp : m.sched.Mem p) (regs : CpuCtx) (hfk : m.forked p = some regs) :
      ContinuesFork regs (r.1.proc p).ctx := by
    rw [hold p hp]
    exact h.waiting p hp regs hfk
  split at hn
  next h0 =>
    cases hn
    refine ⟨hok, fun p hp => hwait p ((hmem p hp).resolve_right fun hpc => ?_), fun _ _ => ?_,
      h.past⟩
    · exact hp.1 (hpc.trans h0)
    · rw [hcur]
      exact hcurrent
  next h0 =>
    cases hn
    obtain ⟨hnew, pgd, hbuilt⟩ := hchild h0
    refine ⟨hok, fun p hp regs hfk => ?_, fun _ _ => ?_, h.past⟩
    · dsimp only at hfk ⊢
      by_cases hpc : p = r.2
      · -- the child: a copy of the saved context with four fields replaced
        rw [hpc, Function.update_self] at hfk
        cases hfk
        rw [hpc, hbuilt]
        refine ⟨fun i h4 h11 => ?_, by simp [forkChild], rfl, rfl, rfl⟩
        have hi0 : i ≠ 0 := by
          rintro rfl
          exact absurd h4 (by decide)
        simpa [forkChild, hi0] using hcopy h0 i h4 h11
      · rw [Function.update_of_ne hpc] at hfk
        exact hwait p ((hmem p hp).resolve_right hpc) regs hfk
    · have hne : r.1.currentProc ≠ r.2 := fun hc => hnew (hc ▸ hcur ▸ h.table.current)
      dsimp only
      rw [Function.update_of_ne hne, hcur]
      exact hcurrent

theorem exec_forkOk_of_none (h : ForkOk m) (hno : ¬ m.ChildWaits)
    (pgd entry stackPt stackPages : ℕ) :
    ForkOk (m.processReplace kernelPhysBase kernelTable
      (m.sched.proc m.sched.currentProc).pid (.done pgd entry stackPt stackPages)) := by
  unfold processReplace
  dsimp only
  split
  next => exact .of_none h.table hno h.past
  split
  next hself =>
    refine restore_forkOk (m := { m with
      sched := m.sched.write _ (replaceImage pgd entry stackPt stackPages)
      ttbr0 := virtToPhys kernelPhysBase kernelTable
      saved := Function.update m.saved _ _ })
      ⟨h.table.distinct, h.table.current⟩
      (fun p hp regs hf => absurd (childWaits_of_mem hp hf) hno) h.past ?_
    rw [hself]
    exact h.table.current
  next => exact .of_none ⟨h.table.distinct, h.table.current⟩ hno h.past

theorem exec_forkOk (h : ForkOk m) (hm : m.mode = .user) {o : Replace}
    (hk : m.KeepsForks (.svc (.exec o))) :
    ForkOk (m.processReplace kernelPhysBase kernelTable
      (m.sched.proc m.sched.currentProc).pid o) := by
  have hcurrent := h.current (by rw [hm]; decide) (by rw [hm]; decide)
  cases o with
  | notLoaded => exact ⟨h.table, h.waiting, fun _ _ => hcurrent, h.past⟩
  | noStack =>
    unfold processReplace
    dsimp only
    split <;> exact ⟨h.table, h.waiting, fun _ _ => hcurrent, h.past⟩
  | done pgd entry stackPt stackPages =>
    by_cases hwaits : m.ChildWaits
    case neg => exact exec_forkOk_of_none h hwaits pgd entry stackPt stackPages
    have hcur := hk hwaits
    simp only [processReplace, hcur, if_neg h.table.current.1, if_true]
    refine restore_forkOk (m := { m with
      sched := m.sched.write m.sched.currentProc (replaceImage pgd entry stackPt stackPages)
      ttbr0 := virtToPhys kernelPhysBase kernelTable
      saved := Function.update m.saved m.sched.currentProc m.sched.currentProc })
      ⟨h.table.distinct, h.table.current⟩ (fun p hp regs hf => ?_) h.past h.table.current
    have hne : p ≠ m.sched.currentProc := by
      rintro rfl
      exact absurd (hcurrent.symm.trans hf) (by simp)
    dsimp only
    rw [write_proc_of_ne _ _ hne]
    exact h.waiting p hp regs hf

theorem block_forkOk (h : ForkOk m) (hm : m.mode = .user) {f : Process → Process}
    (hf : ∀ p, (f p).ctx = p.ctx) (r0 : ℕ) :
    ForkOk { m with sched := m.sched.write m.sched.currentProc f, mode := .svcDone r0 } where
  table := ⟨h.table.distinct, h.table.current⟩
  waiting p hp regs hfk := by
    by_cases hpc : p = m.sched.currentProc
    · subst hpc
      simp only [write_proc_self, hf]
      exact h.waiting _ hp regs hfk
    · simp only [write_proc_of_ne _ _ hpc]
      exact h.waiting p hp regs hfk
  current _ _ := h.current (by rw [hm]; decide) (by rw [hm]; decide)
  past := h.past

theorem svcDispatch_forkOk (h : ForkOk m) (hm : m.mode = .user) {c : Svc}
    (hf : m.Fresh (.svc c)) (hk : m.KeepsForks (.svc c))
    (hn : m.svcDispatch kernelPhysBase kernelTable c = some n) : ForkOk n := by
  have hcurrent := h.current (by rw [hm]; decide) (by rw [hm]; decide)
  cases c with
  | exit =>
    simp only [svcDispatch] at hn
    split at hn
    next he => exact Option.some.inj hn ▸ exit_forkOk h hk he
    next => exact absurd hn (by simp)
  | fork alloc => exact fork_forkOk h hm hf hk hn
  | join =>
    rw [← Option.some.inj hn]
    unfold svcJoin
    split
    · exact ⟨h.table, h.waiting, fun _ _ => hcurrent, h.past⟩
    · exact block_forkOk h hm
        (f := fun p => { p with joinTarget := m.regs.r 0, suspended := 1 }) (fun _ => rfl) 0
  | exec o => exact Option.some.inj hn ▸ exec_forkOk h hm hk
  | wait => exact Option.some.inj hn ▸ ⟨h.table, h.waiting, fun _ _ => hcurrent, h.past⟩
  | sleep now freq =>
    exact Option.some.inj hn ▸ block_forkOk h hm (f := fun p =>
      { p with wakeTick := sleepDeadline (m.regs.r 0) now freq, suspended := 1 }) (fun _ => rfl) 0
  | other r0 => exact Option.some.inj hn ▸ ⟨h.table, h.waiting, fun _ _ => hcurrent, h.past⟩

theorem step_forkOk {e : Event} (h : ForkOk m) (hk : m.KeepsForks e)
    (hs : m.Step kernelPhysBase kernelTable e n) : ForkOk n := by
  obtain ⟨hf, hn⟩ := hs
  cases e with
  | run regs =>
    simp only [next] at hn
    split at hn
    · exact Option.some.inj hn ▸ ⟨h.table, h.waiting, h.current, h.past⟩
    · exact absurd hn (by simp)
  | irq now =>
    rcases next_irq hn with ⟨hm, rfl⟩ | ⟨hm, rfl⟩
    · exact handleIrqUser_forkOk h hm now
    · by_cases hwaits : m.ChildWaits
      · refine irqDispatch_forkOk h now fun hs hi => ?_
        have hw := (hm.resolve_right fun hd => hd.elim hs hi)
        cases now with
        | none => rfl
        | some now => exact schedTick_currentProc h.table (hk hw hwaits)
      · refine .of_none (irqDispatch_tableOk h.table now) ?_ h.past
        rintro ⟨i, h0, hsome⟩
        obtain ⟨regs, hf⟩ := Option.isSome_iff_exists.mp hsome
        exact hwaits (childWaits_of_mem ((irqDispatch_mem h.table now _).mp (mem_slot h0)) hf)
  | svc c =>
    simp only [next] at hn
    split at hn
    next hm => exact svcDispatch_forkOk h hm hf hk hn
    next => exact absurd hn (by simp)
  | input r0 =>
    simp only [next] at hn
    split at hn
    next hm =>
      have hcurrent := h.current (by rw [hm]; decide) (by rw [hm]; decide)
      exact Option.some.inj hn ▸ ⟨h.table, h.waiting, fun _ _ => hcurrent, h.past⟩
    next => exact absurd hn (by simp)
  | svcReturn =>
    simp only [next] at hn
    split at hn
    next hm => exact Option.some.inj hn ▸ svcReturn_forkOk h hm
    next => exact absurd hn (by simp)
  | wake =>
    simp only [next] at hn
    split at hn
    next => exact Option.some.inj hn ▸ restore_forkOk h.table h.waiting h.past h.table.current
    next => exact absurd hn (by simp)

theorem boot_forkOk (h : m.Boot kernelPhysBase) : ForkOk m := by
  obtain ⟨p, proc, pid, hp, hs, -, -, -, -, hf, hr⟩ := h
  obtain ⟨hok, -, -, -⟩ := processExec_first proc pid hp
  rw [← hs] at hok
  refine ⟨hok, fun q _ regs hq => ?_, fun _ _ => by rw [hf], fun f hm => ?_⟩
  · rw [hf] at hq
    exact absurd hq (by simp)
  · rw [hr] at hm
    exact absurd hm (by simp)

end Steps

/-- In every run whose steps all meet `KeepsForks`, each child first resumes from its parent's
registers at the fork. -/
theorem run_forksFaithful {kernelPhysBase kernelTable : ℕ} {m n : Machine} {es : List Event}
    (h : m.Boot kernelPhysBase)
    (hr : Run (Meeting KeepsForks (Step kernelPhysBase kernelTable)) m es n) :
    ForksFaithful n := by
  have hn := hr.preserves (I := ForkOk) (fun _ _ _ hi hs => step_forkOk hi hs.1 hs.2)
    (boot_forkOk h)
  exact hn.past

/-- A first process whose registers an IRQ has saved forks and waits; its child runs. -/
def savedForkRun (regs : CpuCtx) : List Event :=
  [.run regs, .irq none, .svc (.fork (some (0xC0108000, 0xC0108400))), .svcReturn, .irq (some 10)]

/-- The registers of a caller with 7 in `r4`. -/
def callerRegs : CpuCtx := { (default : CpuCtx) with r := Function.update (fun _ => 0) 4 7 }

theorem savedForkRun_faithful :
    ∃ n, Run (Step 0x40200000 0xC0008000) init (savedForkRun callerRegs) n ∧
      n.firstRuns.length = 1 ∧ ForksFaithful n := by
  have hlen : ((execute (fun m e => decide (m.Fresh e ∧ m.KeepsForks e))
      (next 0x40200000 0xC0008000) init (savedForkRun callerRegs)).any
        fun n => decide (n.firstRuns.length = 1)) = true := by decide +kernel
  obtain ⟨n, hn, hone⟩ := (Option.any_eq_true _ _).mp hlen
  have hrun : Run (Meeting KeepsForks (Step 0x40200000 0xC0008000)) init
      (savedForkRun callerRegs) n :=
    Run.of_execute (fun _ _ _ hok ht =>
      ⟨(of_decide_eq_true hok).2, (of_decide_eq_true hok).1, ht⟩) hn
  exact ⟨n, hrun.mono fun _ _ _ h => h.2, of_decide_eq_true hone,
    run_forksFaithful init_boot hrun⟩

/-- The first process forks before any IRQ or yield has saved its registers: the child starts
with the old `r4`. -/
theorem unsaved_fork_loses_registers : ¬ ∀ kernelPhysBase kernelTable m es n,
    m.Boot kernelPhysBase → Run (Step kernelPhysBase kernelTable) m es n → ForksFaithful n := by
  intro h
  have hbad : ((execute (fun m e => decide (m.Fresh e)) (next 0x40200000 0xC0008000) init
      [.run callerRegs, .svc (.fork (some (0xC0108000, 0xC0108400))), .svcReturn,
        .irq (some 10)]).any fun n => decide (¬ ForksFaithful n)) = true := by decide +kernel
  obtain ⟨n, hn, hno⟩ := (Option.any_eq_true _ _).mp hbad
  have hrun : Run (Step 0x40200000 0xC0008000) init _ n :=
    Run.of_execute (fun _ _ _ hok ht => ⟨of_decide_eq_true hok, ht⟩) hn
  exact of_decide_eq_true hno (h _ _ _ _ _ init_boot hrun)

end Leg.Machine
