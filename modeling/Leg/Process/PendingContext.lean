import Leg.Process.TrampolineRefinement

/-! The registers each process goes on with, and what one event does to them: they stay, the
caller of a handler gets its result, a joiner its exit code. -/
namespace Leg.Machine
open Sched

variable {kernelPhysBase kernelTable : ℕ} {m n : Machine}

/-- The registers the process at `p` goes on with: its context, or those in the processor and
the trap frame while its own code or call runs. -/
def pending (m : Machine) (p : ℕ) : CpuCtx :=
  if p = m.sched.currentProc then
    match m.mode with
    | .user | .waiting => m.regs
    | .svcDone r0 => resumed m.regs r0
    | .svcIdle | .irqIdle => (m.sched.proc p).ctx
  else (m.sched.proc p).ctx

theorem pending_of_ne {p : ℕ} (h : p ≠ m.sched.currentProc) : m.pending p = (m.sched.proc p).ctx :=
  if_neg h

theorem pending_idle (h : m.Idle) (p : ℕ) : m.pending p = (m.sched.proc p).ctx := by
  unfold pending
  rcases h with h | h <;> simp [h]

theorem pending_user (h : m.mode = .user) : m.pending m.sched.currentProc = m.regs := by
  simp [pending, h]

theorem pending_waiting (h : m.mode = .waiting) : m.pending m.sched.currentProc = m.regs := by
  simp [pending, h]

theorem pending_done {r0 : ℕ} (h : m.mode = .svcDone r0) :
    m.pending m.sched.currentProc = resumed m.regs r0 := by
  simp [pending, h]

theorem restore_pending (q p : ℕ) :
    (m.restore kernelPhysBase q).pending p = (m.sched.proc p).ctx := by
  by_cases h : p = q
  · subst h
    exact pending_user rfl
  · exact pending_of_ne h

theorem saveCtx_ctx (regs : CpuCtx) (p : ℕ) : ((m.saveCtx regs).sched.proc p).ctx =
    if p = m.sched.currentProc then regs else (m.sched.proc p).ctx := by
  simp only [saveCtx]
  split
  next h => rw [h, write_proc_self]
  next h => rw [write_proc_of_ne _ _ h]

theorem saveCtx_joinTarget (regs : CpuCtx) (p : ℕ) :
    ((m.saveCtx regs).sched.proc p).joinTarget = (m.sched.proc p).joinTarget := by
  simp only [saveCtx]
  by_cases h : p = m.sched.currentProc
  · rw [h, write_proc_self]
  · rw [write_proc_of_ne _ _ h]

theorem saveCtx_pending {regs : CpuCtx} (h : m.pending m.sched.currentProc = regs) (p : ℕ) :
    ((m.saveCtx regs).sched.proc p).ctx = m.pending p := by
  rw [saveCtx_ctx]
  split
  next hp => rw [hp, h]
  next hp => rw [pending_of_ne hp]

/-- What every process goes on with and whom it is joined on stay as they are. -/
structure SamePending (m n : Machine) : Prop where
  table : TableOk n.sched
  mem : ∀ p, n.sched.Mem p → m.sched.Mem p
  pending : ∀ p, n.pending p = m.pending p
  joinTarget : ∀ p, (n.sched.proc p).joinTarget = (m.sched.proc p).joinTarget

theorem next_irq_pending {now : Option ℕ} (h : TableOk m.sched)
    (hw : now ≠ none → m.mode ≠ .waiting)
    (hn : m.next kernelPhysBase kernelTable (.irq now) = some n) : SamePending m n := by
  rcases next_irq hn with ⟨hm, rfl⟩ | ⟨hm, rfl⟩
  · have hok := saveCtx_tableOk h m.regs
    have hctx (p : ℕ) : ((irqDispatch (m.saveCtx m.regs).sched now).proc p).ctx = m.pending p := by
      rw [irqDispatch_ctx hok, saveCtx_pending (pending_user hm)]
    have hjoin (p : ℕ) : ((irqDispatch (m.saveCtx m.regs).sched now).proc p).joinTarget =
        (m.sched.proc p).joinTarget := by
      rw [irqDispatch_joinTarget hok, saveCtx_joinTarget]
    have hmem (p : ℕ) (hp : (irqDispatch (m.saveCtx m.regs).sched now).Mem p) : m.sched.Mem p :=
      (irqDispatch_mem hok now p).mp hp
    rw [handleIrqUser, if_neg h.current.1]
    dsimp only
    split
    · exact ⟨irqDispatch_tableOk hok now, hmem, fun p => (pending_idle (.inr rfl) p).trans (hctx p),
        hjoin⟩
    · exact ⟨irqDispatch_tableOk hok now, hmem,
        fun p => (restore_pending _ p).trans (hctx p), hjoin⟩
  · have hctx (p : ℕ) := irqDispatch_ctx h now p
    refine ⟨irqDispatch_tableOk h now, fun p hp => (irqDispatch_mem h now p).mp hp, fun p => ?_,
      irqDispatch_joinTarget h now⟩
    rcases hm with hm | hi
    · cases now with
      | none => rfl
      | some now => exact absurd hm (hw (by simp))
    · have hi' : m.Idle := hi
      rw [pending_idle hi']
      exact (pending_idle (m := { m with sched := irqDispatch m.sched now }) hi p).trans (hctx p)

theorem next_svcReturn_pending (h : TableOk m.sched)
    (hn : m.next kernelPhysBase kernelTable .svcReturn = some n) : SamePending m n := by
  simp only [next] at hn
  split at hn
  next r0 hm =>
    rw [← Option.some.inj hn, svcReturn]
    dsimp only
    have hcur : m.pending m.sched.currentProc = resumed m.regs r0 := pending_done hm
    have hctx := saveCtx_pending hcur
    have hok := saveCtx_tableOk h (resumed m.regs r0)
    split
    · split
      · exact ⟨hok, fun _ hp => hp, fun p => (pending_idle (.inl rfl) p).trans (hctx p),
          saveCtx_joinTarget _⟩
      next hnext =>
        exact ⟨⟨hok.distinct, (schedPickNext_some hnext).1⟩, fun _ hp => hp,
          fun p => (restore_pending _ p).trans (hctx p), saveCtx_joinTarget _⟩
    · refine ⟨h, fun _ hp => hp, fun p => ?_, fun _ => rfl⟩
      by_cases hp : p = m.sched.currentProc
      · rw [hp, hcur]
        exact pending_user rfl
      · rw [pending_of_ne hp]
        exact pending_of_ne hp
  next => exact absurd hn (by simp)

theorem next_wake_pending (h : TableOk m.sched)
    (hn : m.next kernelPhysBase kernelTable .wake = some n) : SamePending m n := by
  simp only [next] at hn
  split at hn
  next hw =>
    have hi : m.Idle := hw.1
    rw [← Option.some.inj hn]
    exact ⟨h, fun _ hp => hp, fun p => by rw [restore_pending, pending_idle hi], fun _ => rfl⟩
  next => exact absurd hn (by simp)

/-- A handler has returned `r0` to its caller and left everybody else alone. -/
structure Returned (m n : Machine) (r0 : ℕ) : Prop where
  table : TableOk n.sched
  mode : n.mode = .svcDone r0
  current : n.sched.currentProc = m.sched.currentProc
  mem : ∀ p, n.sched.Mem p → m.sched.Mem p
  pending : ∀ p, n.pending p =
    if p = m.sched.currentProc then resumed (m.pending p) r0 else m.pending p

theorem Returned.of {r0 : ℕ} (hm : m.pending m.sched.currentProc = m.regs) (h : TableOk n.sched)
    (hmode : n.mode = .svcDone r0) (hregs : n.regs = m.regs)
    (hcur : n.sched.currentProc = m.sched.currentProc)
    (hmem : ∀ p, n.sched.Mem p → m.sched.Mem p)
    (hctx : ∀ p, (n.sched.proc p).ctx = (m.sched.proc p).ctx) : Returned m n r0 := by
  refine ⟨h, hmode, hcur, hmem, fun p => ?_⟩
  split
  next hp =>
    rw [hp, hm, ← hcur, pending_done hmode, hregs]
  next hp => rw [pending_of_ne (hcur ▸ hp), pending_of_ne hp, hctx]

theorem next_input_pending {r0 : ℕ} (h : TableOk m.sched)
    (hn : m.next kernelPhysBase kernelTable (.input r0) = some n) :
    m.mode = .waiting ∧ Returned m n r0 ∧ n.sched = m.sched := by
  simp only [next] at hn
  split at hn
  next hm =>
    rw [← Option.some.inj hn]
    exact ⟨hm, .of (pending_waiting hm) h rfl rfl rfl (fun _ hp => hp) fun _ => rfl, rfl⟩
  next => exact absurd hn (by simp)

section Syscalls
variable (h : TableOk m.sched)
include h

/-- An exit hands its code to those whose `join_target` is the pid. -/
theorem exit_pending (hn : m.svcDispatch kernelPhysBase kernelTable .exit = some n) :
    TableOk n.sched ∧ n.mode = .user ∧
      ∀ p, n.sched.Mem p → m.sched.Mem p ∧ p ≠ m.sched.currentProc ∧
      if (m.sched.proc p).joinTarget = (m.sched.proc m.sched.currentProc).pid then
        n.pending p = resumed (m.pending p) (m.regs.r 0)
      else n.pending p = m.pending p ∧
        (n.sched.proc p).joinTarget = (m.sched.proc p).joinTarget := by
  rw [svcDispatch] at hn
  split at hn
  next s hs =>
    have hok := processExit_tableOk h hs
    obtain ⟨h0, hcur, -, hexit⟩ := processExit_eq hs
    rw [← Option.some.inj hn]
    refine ⟨hok, rfl, fun p hp => ?_⟩
    have hp' : (exitTable m.sched (m.sched.proc m.sched.currentProc).pid (m.regs.r 0)).Mem p := by
      have : s.Mem p := hp
      rwa [hexit] at this
    obtain ⟨hold, hne⟩ := (exitTable_mem _ h.distinct h0 hcur p).mp hp'
    have hproc := exitTable_proc (m.regs.r 0) h.distinct h0 hcur hold hne
    refine ⟨hold, hne, ?_⟩
    rw [restore_pending, pending_of_ne hne]
    simp only [restore, contextSwitch, hexit, hproc]
    split
    next => rfl
    next => exact ⟨rfl, rfl⟩
  next => exact absurd hn (by simp)

variable (hm : m.mode = .user)
include hm

/-- A fork returns, and its child goes on where the parent does. -/
theorem fork_pending {alloc : Option (ℕ × ℕ)} (hf : FreshAlloc m.sched alloc)
    (hn : m.svcDispatch kernelPhysBase kernelTable (.fork alloc) = some n) :
    TableOk n.sched ∧ n.sched.currentProc = m.sched.currentProc ∧ ∃ r0, n.mode = .svcDone r0 ∧
      ∀ p, n.sched.Mem p → (m.sched.Mem p ∧
        (n.sched.proc p).joinTarget = (m.sched.proc p).joinTarget ∧ n.pending p =
          if p = m.sched.currentProc then resumed (m.pending p) r0 else m.pending p) ∨
        (¬ m.sched.Mem p ∧ (∃ pgd, alloc = some (p, pgd)) ∧
          (n.pending p).cpsr = m.regs.cpsr ∧ (n.pending p).pc = m.regs.pc) := by
  have hok := processFork_tableOk m.regs.pc m.regs.sp m.regs.cpsr h hf
  obtain ⟨hcur, hold, honly, hchild⟩ := processFork_frame m.regs.pc m.regs.sp m.regs.cpsr hf
  have hresult : n.sched = (processFork m.sched alloc m.regs.pc m.regs.sp m.regs.cpsr).1 ∧
      n.regs = m.regs ∧ ∃ r0, n.mode = .svcDone r0 := by
    rw [svcDispatch] at hn
    split at hn
    · rw [← Option.some.inj hn]
      exact ⟨rfl, rfl, _, rfl⟩
    · rw [← Option.some.inj hn]
      exact ⟨rfl, rfl, _, rfl⟩
  obtain ⟨hsched, hregs, r0, hmode⟩ := hresult
  have haddr : (processFork m.sched alloc m.regs.pc m.regs.sp m.regs.cpsr).2 ≠ 0 →
      ∃ pgd, alloc = some ((processFork m.sched alloc m.regs.pc m.regs.sp m.regs.cpsr).2, pgd) := by
    cases alloc with
    | none => exact fun h => absurd rfl h
    | some a =>
      intro h0
      obtain ⟨-, -, -, ⟨-, -, -, hr⟩ | ⟨-, -, hr⟩⟩ :=
        processFork_some m.sched a.1 a.2 m.regs.pc m.regs.sp m.regs.cpsr
      · exact ⟨a.2, by rw [hr]⟩
      · exact absurd hr h0
  rw [← hsched] at hok hcur hold honly hchild
  generalize (processFork m.sched alloc m.regs.pc m.regs.sp m.regs.cpsr).2 = child at *
  refine ⟨hok, hcur, r0, hmode, fun p hp => ?_⟩
  rcases honly p hp with hmem | rfl
  · refine .inl ⟨hmem, by rw [hold p hmem], ?_⟩
    split
    next hpc => rw [hpc, pending_user hm, ← hcur, pending_done hmode, hregs]
    next hpc => rw [pending_of_ne (hcur ▸ hpc), pending_of_ne hpc, hold p hmem]
  · obtain ⟨hnew, pgd, hbuilt⟩ := hchild hp.1
    have hne : p ≠ n.sched.currentProc := fun hc => hnew (hc ▸ hcur ▸ h.current)
    refine .inr ⟨hnew, haddr hp.1, ?_⟩
    rw [pending_of_ne hne, hbuilt]
    exact ⟨rfl, rfl⟩

theorem join_pending (hn : m.svcDispatch kernelPhysBase kernelTable .join = some n) :
    ∃ r0, Returned m n r0 ∧ ∀ p, (n.sched.proc p).joinTarget =
      if p = m.sched.currentProc ∧ schedGet m.sched (m.regs.r 0) ≠ 0 then m.regs.r 0
      else (m.sched.proc p).joinTarget := by
  rw [← Option.some.inj hn]
  unfold svcJoin
  split
  next h0 =>
    exact ⟨_, .of (pending_user hm) h rfl rfl rfl (fun _ hp => hp) fun _ => rfl,
      fun p => (if_neg fun hp => hp.2 h0).symm⟩
  next h0 =>
    refine ⟨_, .of (pending_user hm) ⟨h.distinct, h.current⟩ rfl rfl rfl (fun _ hp => hp)
      fun p => ?_, fun p => ?_⟩
    · by_cases hp : p = m.sched.currentProc
      · rw [hp]
        simp only [write_proc_self]
      · simp only [write_proc_of_ne _ _ hp]
    · by_cases hp : p = m.sched.currentProc
      · rw [hp, if_pos ⟨rfl, h0⟩]
        simp only [write_proc_self]
      · rw [if_neg fun hc => hp hc.1]
        simp only [write_proc_of_ne _ _ hp]

theorem sleep_pending {now freq : ℕ}
    (hn : m.svcDispatch kernelPhysBase kernelTable (.sleep now freq) = some n) :
    ∃ r0, Returned m n r0 ∧ ∀ p, (n.sched.proc p).joinTarget = (m.sched.proc p).joinTarget := by
  rw [← Option.some.inj hn, svcSleep]
  refine ⟨_, .of (pending_user hm) ⟨h.distinct, h.current⟩ rfl rfl rfl (fun _ hp => hp)
    fun p => ?_, fun p => ?_⟩ <;>
  · by_cases hp : p = m.sched.currentProc
    · rw [hp]
      simp only [write_proc_self]
    · simp only [write_proc_of_ne _ _ hp]

theorem other_pending {r0 : ℕ}
    (hn : m.svcDispatch kernelPhysBase kernelTable (.other r0) = some n) :
    Returned m n r0 ∧ n.sched = m.sched := by
  rw [← Option.some.inj hn]
  exact ⟨.of (pending_user hm) h rfl rfl rfl (fun _ hp => hp) fun _ => rfl, rfl⟩

theorem wait_pending (hn : m.svcDispatch kernelPhysBase kernelTable .wait = some n) :
    SamePending m n ∧ n.mode = .waiting := by
  rw [← Option.some.inj hn]
  refine ⟨⟨h, fun _ hp => hp, fun p => ?_, fun _ => rfl⟩, rfl⟩
  by_cases hp : p = m.sched.currentProc
  · rw [hp, pending_user hm]
    exact pending_waiting rfl
  · rw [pending_of_ne hp]
    exact pending_of_ne hp

/-- An exec returns to its caller, or gives the caller a fresh context. -/
theorem exec_pending {o : Replace} (hown : ∀ pgd entry stackPt stackPages,
      o = .done pgd entry stackPt stackPages →
        schedGet m.sched (m.sched.proc m.sched.currentProc).pid = m.sched.currentProc)
    (hn : m.svcDispatch kernelPhysBase kernelTable (.exec o) = some n) :
    (∀ p, (n.sched.proc p).joinTarget = (m.sched.proc p).joinTarget) ∧
      ((∃ r0, Returned m n r0) ∨ TableOk n.sched ∧ n.mode = .user ∧
        ∃ pgd entry stackPt stackPages, o = .done pgd entry stackPt stackPages ∧
          (∀ p, n.sched.Mem p → m.sched.Mem p) ∧ ∀ p, n.pending p =
            if p = m.sched.currentProc then freshCtx (procStackTop - 16) entry
            else m.pending p) := by
  rw [← Option.some.inj hn]
  have hcur := pending_user hm
  cases o with
  | notLoaded =>
    exact ⟨fun _ => rfl, .inl ⟨_, .of hcur h rfl rfl rfl (fun _ hp => hp) fun _ => rfl⟩⟩
  | noStack =>
    simp only [processReplace]
    split
    all_goals
      exact ⟨fun _ => rfl, .inl ⟨_, .of hcur h rfl rfl rfl (fun _ hp => hp) fun _ => rfl⟩⟩
  | done pgd entry stackPt stackPages =>
    have hown := hown _ _ _ _ rfl
    simp only [processReplace, hown, if_neg h.current.1, if_true]
    refine ⟨fun p => ?_, .inr ⟨⟨h.distinct, h.current⟩, rfl, pgd, entry, stackPt, stackPages, rfl,
      fun _ hp => hp, fun p => ?_⟩⟩
    · simp only [restore, contextSwitch]
      by_cases hp : p = m.sched.currentProc
      · rw [hp, write_proc_self]
        rfl
      · rw [write_proc_of_ne _ _ hp]
    · rw [restore_pending]
      dsimp only
      split
      next hp => rw [hp, write_proc_self, replaceImage]
      next hp => rw [write_proc_of_ne _ _ hp, pending_of_ne hp]

end Syscalls

end Leg.Machine
