import Leg.Lib.Runs
import Leg.Process.Traps

/-! Which process the processor believes to run while user code runs. The idle loops
and the IRQ return reinstall whatever `current_proc` then is; the SVC return does not,
so it relies on `current_proc` and TTBR0 being as they were at the SVC. -/
namespace Leg.Machine
open Runs Sched

section Identity
variable (kernelPhysBase kernelTable : ℕ)

/-- While user code runs, `current_proc` is its process and TTBR0 holds that process's table. -/
def RunsCurrent (m : Machine) : Prop :=
  m.mode = .user → m.sched.currentProc = m.thread ∧
    m.ttbr0 = virtToPhys kernelPhysBase (m.sched.proc m.thread).pgd

/-- A tick inside a waiting handler finds no other process runnable; a `process_replace`
that got as far as loading its image also gets its stack, and its pid is the caller's alone. -/
def KeepsIdentity (m : Machine) : Event → Prop
  | .irq (some now) => m.mode = .waiting → ¬ OtherRunnable m.sched now
  | .svc (.exec .noStack) => False
  | .svc (.exec (.done _ _ _ _)) =>
    schedGet m.sched (m.sched.proc m.sched.currentProc).pid = m.sched.currentProc
  | _ => True

instance (m : Machine) : Decidable (RunsCurrent kernelPhysBase m) :=
  inferInstanceAs (Decidable (_ → _))

instance (m : Machine) (e : Event) : Decidable (m.KeepsIdentity e) :=
  match e with
  | .irq (some now) => inferInstanceAs (Decidable (m.mode = .waiting → ¬ OtherRunnable m.sched now))
  | .svc (.exec .noStack) => isFalse id
  | .svc (.exec (.done _ _ _ _)) => inferInstanceAs (Decidable (_ = m.sched.currentProc))
  | .svc (.exec .notLoaded) | .svc .exit | .svc .join | .svc (.fork _) | .svc .wait
  | .svc (.sleep _ _) | .svc (.other _) | .irq none | .run _ | .input _ | .svcReturn
  | .wake => isTrue trivial

/-- Each listed process's context holds its own registers, and outside the idle loops
`current_proc` and TTBR0 belong to the thread. -/
structure IdentityOk (m : Machine) : Prop where
  table : TableOk m.sched
  saved : ∀ p, m.sched.Mem p → m.saved p = p
  thread : m.mode ≠ .svcIdle → m.mode ≠ .irqIdle → m.thread = m.sched.currentProc
  ttbr0 : m.mode ≠ .svcIdle → m.mode ≠ .irqIdle →
    m.ttbr0 = virtToPhys kernelPhysBase (m.sched.proc m.sched.currentProc).pgd

variable {kernelPhysBase kernelTable} {m n : Machine}

theorem IdentityOk.runsCurrent (h : IdentityOk kernelPhysBase m) :
    RunsCurrent kernelPhysBase m := by
  intro hm
  have hs : m.mode ≠ .svcIdle := by rw [hm]; decide
  have hi : m.mode ≠ .irqIdle := by rw [hm]; decide
  rw [h.thread hs hi]
  exact ⟨rfl, h.ttbr0 hs hi⟩

theorem restore_identityOk (ht : TableOk m.sched) (hs : ∀ p, m.sched.Mem p → m.saved p = p)
    {p : ℕ} (hp : m.sched.Mem p) : IdentityOk kernelPhysBase (m.restore kernelPhysBase p) where
  table := ⟨ht.distinct, hp⟩
  saved := hs
  thread _ _ := hs p hp
  ttbr0 _ _ := rfl

theorem saveCtx_saved (hs : ∀ p, m.sched.Mem p → m.saved p = p)
    (ht : m.thread = m.sched.currentProc) (regs : CpuCtx) (p : ℕ)
    (hp : (m.saveCtx regs).sched.Mem p) : (m.saveCtx regs).saved p = p := by
  simp only [saveCtx]
  by_cases hc : p = m.sched.currentProc
  · rw [hc, Function.update_self, ht]
  · rw [Function.update_of_ne hc]
    exact hs p hp

theorem handleIrqUser_identityOk (h : IdentityOk kernelPhysBase m) (hm : m.mode = .user)
    (now : Option ℕ) : IdentityOk kernelPhysBase (m.handleIrqUser kernelPhysBase now) := by
  have hth : m.thread = m.sched.currentProc := h.thread (by rw [hm]; decide) (by rw [hm]; decide)
  have hsv := saveCtx_saved h.saved hth m.regs
  have hok := saveCtx_tableOk h.table m.regs
  rw [handleIrqUser, if_neg h.table.current.1]
  dsimp only
  generalize m.saveCtx m.regs = saved at *
  have htick := irqDispatch_tableOk hok now
  have hmem := irqDispatch_mem hok now
  have hsaved (p : ℕ) (hp : (irqDispatch saved.sched now).Mem p) : saved.saved p = p :=
    hsv p ((hmem p).mp hp)
  split
  · exact ⟨htick, hsaved, fun _ hi => absurd rfl hi, fun _ hi => absurd rfl hi⟩
  · exact restore_identityOk htick hsaved htick.current

theorem irqDispatch_identityOk (h : IdentityOk kernelPhysBase m) (now : Option ℕ)
    (hc : m.mode ≠ .svcIdle → m.mode ≠ .irqIdle →
      (irqDispatch m.sched now).currentProc = m.sched.currentProc) :
    IdentityOk kernelPhysBase { m with sched := irqDispatch m.sched now } where
  table := irqDispatch_tableOk h.table now
  saved p hp := h.saved p ((irqDispatch_mem h.table now p).mp hp)
  thread hs hi := (h.thread hs hi).trans (hc hs hi).symm
  ttbr0 hs hi := by
    simp only [hc hs hi, irqDispatch_pgd h.table]
    exact h.ttbr0 hs hi

theorem svcReturn_identityOk (h : IdentityOk kernelPhysBase m) {r0 : ℕ}
    (hm : m.mode = .svcDone r0) : IdentityOk kernelPhysBase (m.svcReturn kernelPhysBase r0) := by
  have hs : m.mode ≠ .svcIdle := by rw [hm]; exact Mode.noConfusion
  have hi : m.mode ≠ .irqIdle := by rw [hm]; exact Mode.noConfusion
  unfold svcReturn
  dsimp only
  generalize ({ m.regs with r := Function.update m.regs.r 0 r0 } : CpuCtx) = regs
  split
  · -- the yield path: what runs next is restored from its own context
    have hsv := saveCtx_saved h.saved (h.thread hs hi) regs
    have hok := saveCtx_tableOk h.table regs
    split
    · exact ⟨hok, hsv, fun hn _ => absurd rfl hn, fun hn _ => absurd rfl hn⟩
    next hnext => exact restore_identityOk hok hsv (schedPickNext_some hnext).1
  · exact ⟨h.table, h.saved, fun _ _ => h.thread hs hi, fun _ _ => h.ttbr0 hs hi⟩

theorem exit_identityOk (h : IdentityOk kernelPhysBase m) {pid code : ℕ} {s : Sched}
    (he : processExit m.sched pid code = some s) :
    IdentityOk kernelPhysBase ({ m with sched := s }.restore kernelPhysBase s.currentProc) := by
  have hsub := (processExit_frame he).1
  have hok := processExit_tableOk h.table he
  exact restore_identityOk (m := { m with sched := s }) hok
    (fun p hp => h.saved p (hsub p hp)) hok.current

theorem fork_identityOk (h : IdentityOk kernelPhysBase m) (hm : m.mode = .user)
    {alloc : Option (ℕ × ℕ)} (hf : FreshAlloc m.sched alloc)
    (hn : m.svcDispatch kernelPhysBase kernelTable (.fork alloc) = some n) :
    IdentityOk kernelPhysBase n := by
  have hs : m.mode ≠ .svcIdle := by rw [hm]; decide
  have hi : m.mode ≠ .irqIdle := by rw [hm]; decide
  have hok := processFork_tableOk m.regs.pc m.regs.sp m.regs.cpsr h.table hf
  obtain ⟨hcur, hold, hmem, hchild⟩ := processFork_frame m.regs.pc m.regs.sp m.regs.cpsr hf
  simp only [svcDispatch] at hn
  generalize processFork m.sched alloc m.regs.pc m.regs.sp m.regs.cpsr = r at *
  have hcp : r.1.proc r.1.currentProc = m.sched.proc m.sched.currentProc := by
    rw [hcur, hold _ h.table.current]
  have htt : m.ttbr0 = virtToPhys kernelPhysBase (r.1.proc r.1.currentProc).pgd := by
    rw [hcp]
    exact h.ttbr0 hs hi
  have hth : m.thread = r.1.currentProc := (h.thread hs hi).trans hcur.symm
  split at hn
  next h0 =>
    cases hn
    refine ⟨hok, fun p hp => h.saved p ((hmem p hp).resolve_right fun hpc => ?_),
      fun _ _ => hth, fun _ _ => htt⟩
    exact hp.1 (hpc.trans h0)
  next h0 =>
    cases hn
    refine ⟨hok, fun p hp => ?_, fun _ _ => hth, fun _ _ => htt⟩
    dsimp only
    by_cases hpc : p = r.2
    · rw [hpc, Function.update_self]
    · rw [Function.update_of_ne hpc]
      exact h.saved p ((hmem p hp).resolve_right hpc)

theorem exec_identityOk (h : IdentityOk kernelPhysBase m) (hm : m.mode = .user) {o : Replace}
    (hk : m.KeepsIdentity (.svc (.exec o))) :
    IdentityOk kernelPhysBase (m.processReplace kernelPhysBase kernelTable
      (m.sched.proc m.sched.currentProc).pid o) := by
  cases o with
  | notLoaded =>
    have hth := h.thread (by rw [hm]; decide) (by rw [hm]; decide)
    have htt := h.ttbr0 (by rw [hm]; decide) (by rw [hm]; decide)
    exact ⟨h.table, h.saved, fun _ _ => hth, fun _ _ => htt⟩
  | noStack => exact hk.elim
  | done pgd entry stackPt stackPages =>
    have hcur : schedGet m.sched (m.sched.proc m.sched.currentProc).pid = m.sched.currentProc := hk
    simp only [processReplace, hcur, if_neg h.table.current.1, if_true]
    refine restore_identityOk (m := { m with
      sched := m.sched.write m.sched.currentProc (replaceImage pgd entry stackPt stackPages)
      ttbr0 := virtToPhys kernelPhysBase kernelTable
      saved := Function.update m.saved m.sched.currentProc m.sched.currentProc })
      ⟨h.table.distinct, h.table.current⟩ (fun p hp => ?_) h.table.current
    dsimp only
    by_cases hpc : p = m.sched.currentProc
    · rw [hpc, Function.update_self]
    · rw [Function.update_of_ne hpc]
      exact h.saved p hp

theorem block_identityOk (h : IdentityOk kernelPhysBase m) (hm : m.mode = .user)
    {f : Process → Process} (hf : ∀ p, (f p).pgd = p.pgd) (r0 : ℕ) :
    IdentityOk kernelPhysBase
      { m with sched := m.sched.write m.sched.currentProc f, mode := .svcDone r0 } where
  table := ⟨h.table.distinct, h.table.current⟩
  saved p hp := h.saved p hp
  thread _ _ := h.thread (by rw [hm]; decide) (by rw [hm]; decide)
  ttbr0 _ _ := by
    simp only [write_currentProc, write_proc_self, hf]
    exact h.ttbr0 (by rw [hm]; decide) (by rw [hm]; decide)

theorem svcDispatch_identityOk (h : IdentityOk kernelPhysBase m) (hm : m.mode = .user) {c : Svc}
    (hf : m.Fresh (.svc c)) (hk : m.KeepsIdentity (.svc c))
    (hn : m.svcDispatch kernelPhysBase kernelTable c = some n) : IdentityOk kernelPhysBase n := by
  have hth := h.thread (by rw [hm]; decide) (by rw [hm]; decide)
  have htt := h.ttbr0 (by rw [hm]; decide) (by rw [hm]; decide)
  cases c with
  | exit =>
    simp only [svcDispatch] at hn
    split at hn
    next he => exact Option.some.inj hn ▸ exit_identityOk h he
    next => exact absurd hn (by simp)
  | fork alloc => exact fork_identityOk h hm hf hn
  | join =>
    rw [← Option.some.inj hn]
    unfold svcJoin
    split
    · exact ⟨h.table, h.saved, fun _ _ => hth, fun _ _ => htt⟩
    · exact block_identityOk h hm
        (f := fun p => { p with joinTarget := m.regs.r 0, suspended := 1 }) (fun _ => rfl) 0
  | exec o => exact Option.some.inj hn ▸ exec_identityOk h hm hk
  | wait => exact Option.some.inj hn ▸ ⟨h.table, h.saved, fun _ _ => hth, fun _ _ => htt⟩
  | sleep now freq =>
    exact Option.some.inj hn ▸ block_identityOk h hm (f := fun p =>
      { p with wakeTick := sleepDeadline (m.regs.r 0) now freq, suspended := 1 }) (fun _ => rfl) 0
  | other r0 => exact Option.some.inj hn ▸ ⟨h.table, h.saved, fun _ _ => hth, fun _ _ => htt⟩

theorem step_identityOk {e : Event} (h : IdentityOk kernelPhysBase m) (hk : m.KeepsIdentity e)
    (hs : m.Step kernelPhysBase kernelTable e n) : IdentityOk kernelPhysBase n := by
  obtain ⟨hf, hn⟩ := hs
  cases e with
  | run regs =>
    simp only [next] at hn
    split at hn
    · exact Option.some.inj hn ▸ ⟨h.table, h.saved, h.thread, h.ttbr0⟩
    · exact absurd hn (by simp)
  | irq now =>
    rcases next_irq hn with ⟨hm, rfl⟩ | ⟨hm, rfl⟩
    · exact handleIrqUser_identityOk h hm now
    · refine irqDispatch_identityOk h now fun hs hi => ?_
      have hw := hm.resolve_right fun hd => hd.elim hs hi
      cases now with
      | none => rfl
      | some now => exact schedTick_currentProc h.table (hk hw)
  | svc c =>
    simp only [next] at hn
    split at hn
    next hm => exact svcDispatch_identityOk h hm hf hk hn
    next => exact absurd hn (by simp)
  | input r0 =>
    simp only [next] at hn
    split at hn
    next hm =>
      have hth := h.thread (by rw [hm]; decide) (by rw [hm]; decide)
      have htt := h.ttbr0 (by rw [hm]; decide) (by rw [hm]; decide)
      exact Option.some.inj hn ▸ ⟨h.table, h.saved, fun _ _ => hth, fun _ _ => htt⟩
    next => exact absurd hn (by simp)
  | svcReturn =>
    simp only [next] at hn
    split at hn
    next hm => exact Option.some.inj hn ▸ svcReturn_identityOk h hm
    next => exact absurd hn (by simp)
  | wake =>
    simp only [next] at hn
    split at hn
    next => exact Option.some.inj hn ▸ restore_identityOk h.table h.saved h.table.current
    next => exact absurd hn (by simp)

theorem boot_identityOk (h : m.Boot kernelPhysBase) : IdentityOk kernelPhysBase m := by
  obtain ⟨p, proc, pid, hp, hs, htt, -, hth, hsv, -, -⟩ := h
  obtain ⟨hok, hcur, -, -⟩ := processExec_first proc pid hp
  rw [← hs] at hok hcur
  refine ⟨hok, fun q _ => by rw [hsv]; rfl, fun _ _ => hth.trans hcur.symm, fun _ _ => ?_⟩
  rw [htt, hcur]

/-- In every state of a run whose steps all meet `KeepsIdentity`, the code that runs is that
of `current_proc`, under its own table. -/
theorem run_runsCurrent {es : List Event} (h : m.Boot kernelPhysBase)
    (hr : Run (Meeting KeepsIdentity (Step kernelPhysBase kernelTable)) m es n) :
    RunsCurrent kernelPhysBase n := by
  have hn := hr.preserves (I := IdentityOk kernelPhysBase)
    (fun _ _ _ hi hs => step_identityOk hi hs.1 hs.2) (boot_identityOk h)
  exact hn.runsCurrent

/-- Fork, preemption, sleep and yield, exec, and the end of the sleep in an idle loop. -/
def switchingRun : List Event :=
  [.svc (.fork (some (0xC0108000, 0xC0108400))), .svcReturn, .irq (some 10),
    .svc (.sleep 20 1000000),
    .svcReturn, .irq (some 30), .wake, .svc (.exec (.done 0xC010C000 0x100000 0 4)), .svc .wait,
    .irq (some 40), .input 5, .svcReturn]

theorem switchingRun_runsCurrent :
    ∃ n, Run (Step 0x40200000 0xC0008000) init switchingRun n ∧ RunsCurrent 0x40200000 n := by
  have hsome : (execute (fun m e => decide (m.Fresh e ∧ m.KeepsIdentity e))
      (next 0x40200000 0xC0008000) init switchingRun).isSome := by decide +kernel
  obtain ⟨n, hn⟩ := Option.isSome_iff_exists.mp hsome
  have hrun : Run (Meeting KeepsIdentity (Step 0x40200000 0xC0008000)) init switchingRun n :=
    Run.of_execute (fun _ _ _ hok ht =>
      ⟨(of_decide_eq_true hok).2, (of_decide_eq_true hok).1, ht⟩) hn
  exact ⟨n, hrun.mono fun _ _ _ h => h.2, run_runsCurrent init_boot hrun⟩

/-- The first process forks and waits for input; the tick in that handler moves
`current_proc` to the child; the handler returns to the first process. -/
def readingRun : List Event :=
  [.svc (.fork (some (0xC0108000, 0xC0108400))), .svcReturn, .svc .wait, .irq (some 10),
    .input 5, .svcReturn]

theorem tick_in_handler_breaks : ¬ ∀ kernelPhysBase kernelTable m es n, m.Boot kernelPhysBase →
    Run (Step kernelPhysBase kernelTable) m es n → RunsCurrent kernelPhysBase n := by
  intro h
  have hbad : ((execute (fun m e => decide (m.Fresh e)) (next 0x40200000 0xC0008000) init
      readingRun).any fun n => decide (¬ RunsCurrent 0x40200000 n)) = true := by decide +kernel
  obtain ⟨n, hn, hno⟩ := (Option.any_eq_true _ _).mp hbad
  have hrun : Run (Step 0x40200000 0xC0008000) init readingRun n :=
    Run.of_execute (fun _ _ _ hok ht => ⟨of_decide_eq_true hok, ht⟩) hn
  exact of_decide_eq_true hno (h _ _ _ _ _ init_boot hrun)

end Identity

end Leg.Machine
