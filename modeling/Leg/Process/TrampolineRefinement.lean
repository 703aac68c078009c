import Leg.Process.ExitTable
import Leg.Process.TrampolineSpecs

/-! The assembly code refines the register-level machine: each step it takes is the
machine's step for the same event, from the same process table and the same user registers
to the same, as long as `mmu_set_proc_table` hands back the `r2` in which
`context_switch_asm` keeps `next` and the trap frame fits on the stack. -/
namespace Leg
open Arm KMem Sched

variable {L : Symbols}

/-- The place is that of the machine, and the user registers are where it says. -/
def SamePlace (k : Kernel L) (m : Machine) : Prop :=
  match k.place, m.mode with
  | .user, .user => userRegs k.cpu = m.regs
  | .waiting entry, .waiting => Psr.mode k.cpu.cpsr = svcMode ∧
      ∃ a, Framed k.cpu a m.regs ∧ entry.sp .svc = a - 4 ∧ k.cpu.sp .svc ≤ a - 4
  | .svcDone, .svcDone r0 => Psr.mode k.cpu.cpsr = svcMode ∧
      ∃ a, Framed k.cpu a m.regs ∧ k.cpu.sp .svc = a - 4 ∧ k.cpu.r 0 = r0
  | .svcIdle, .svcIdle => Psr.mode k.cpu.cpsr = svcMode
  | .irqIdle, .irqIdle => Psr.mode k.cpu.cpsr = svcMode
  | _, _ => False

structure Sim (k : Kernel L) (m : Machine) : Prop where
  sched : k.cpu.mem.sched = m.sched
  ttbr0 : k.ttbr0 = m.ttbr0
  irqStack : k.cpu.sp .irq = irqStackTop
  place : SamePlace k m

/-- A context user code can run with. -/
def CtxOk (c : CpuCtx) : Prop := Psr.mode c.cpsr = usrMode ∧ c.pc < 4294967296

instance (c : CpuCtx) : Decidable (CtxOk c) := inferInstanceAs (Decidable (_ ∧ _))

namespace Machine

/-- The machine is in one of the idle loops. -/
def Idle (m : Machine) : Prop := m.mode = .svcIdle ∨ m.mode = .irqIdle

instance (m : Machine) : Decidable m.Idle := inferInstanceAs (Decidable (_ ∨ _))

/-- A listed process whose registers are in its struct. -/
def Parked (m : Machine) (p : ℕ) : Prop := m.sched.Mem p ∧ (p = m.sched.currentProc → m.Idle)

end Machine

/-- Every context the code may restore is one of user code. -/
structure ContextsOk (L : Symbols) (m : Machine) : Prop where
  table : TableOk m.sched
  placed : ∀ p, m.sched.Mem p → L.Placed p
  ctx : ∀ p, m.Parked p → CtxOk (m.sched.proc p).ctx
  regs : ¬ m.Idle → CtxOk m.regs

namespace Kernel

/-- The process `context_switch_asm` is called for in this step, if it is called. -/
def switchesTo (k : Kernel L) (e : Event) : Option ℕ :=
  let s := k.cpu.mem.sched
  match e with
  | .svc .exit => (exitSwitch s (s.proc s.currentProc).pid (k.cpu.r 0)).map Prod.snd
  | .svc (.exec (.done _ _ _ _)) => some s.currentProc
  | .svcReturn =>
    if (s.proc s.currentProc).suspended ≠ 0 ∧ schedPickNext s ≠ 0 then some (schedPickNext s)
    else none
  | .wake =>
    match k.place with
    | .svcIdle => some s.currentProc
    | _ => none
  | _ => none

/-- `mmu_set_proc_table`, called from `context_switch_asm`, leaves `r2` alone. -/
def KeepsR2 (k : Kernel L) (l : Label) : Prop :=
  ∀ p ∈ k.switchesTo l.event, l.calls.table.clobber.r 2 = p

/-- The SVC stack has room for the trap frame and for the C function that waits. -/
def KeepsRoom (k : Kernel L) (l : Label) : Prop :=
  match l.event with
  | .svc _ => HasRoom L (60 + l.calls.dispatch.frame) (k.cpu.sp .svc)
  | _ => True

end Kernel

section Restore
variable {kernelPhysBase : ℕ}

theorem Entered.sim {k : Kernel L} {m : Machine} {p : ℕ}
    (h : Entered k m.sched p (virtToPhys kernelPhysBase (m.sched.proc p).pgd))
    (hi : k.cpu.sp .irq = irqStackTop) : Sim k (m.restore kernelPhysBase p) where
  sched := h.sched
  ttbr0 := h.ttbr0
  irqStack := hi
  place := by
    rw [SamePlace, h.place]
    exact h.regs

theorem Idling.sim {k : Kernel L} {m : Machine} (h : Idling k m.sched) (ht : k.ttbr0 = m.ttbr0)
    (hp : (k.place = .svcIdle ∧ m.mode = .svcIdle) ∨ (k.place = .irqIdle ∧ m.mode = .irqIdle)) :
    Sim k m where
  sched := h.sched
  ttbr0 := ht
  irqStack := h.irqStack
  place := by
    rcases hp with ⟨hk, hm⟩ | ⟨hk, hm⟩ <;>
    · rw [SamePlace, hk, hm]
      exact h.mode

end Restore

section Steps
variable {kernelPhysBase kernelTable : ℕ} {k k' : Kernel L} {m : Machine}

theorem Sim.user (h : Sim k m) (hk : k.place = .user) :
    m.mode = .user ∧ userRegs k.cpu = m.regs := by
  have hp := h.place
  rw [SamePlace, hk] at hp
  cases hm : m.mode <;> rw [hm] at hp <;> first | exact ⟨rfl, hp⟩ | exact hp.elim

theorem sim_userRun {regs : CpuCtx} {h : Havoc} (hs : Sim k m) (hk : k.place = .user)
    (hr : k.userRun regs h = some k') :
    ∃ m', m.next kernelPhysBase kernelTable (.run regs) = some m' ∧
      Sim k' m' := by
  obtain ⟨hm, hregs⟩ := hs.user hk
  rw [Kernel.userRun] at hr
  split at hr
  next =>
    refine ⟨{ m with regs := regs }, by rw [Machine.next, if_pos hm], ?_⟩
    rw [← Option.some.inj hr]
    refine ⟨hs.sched, hs.ttbr0, hs.irqStack, ?_⟩
    rw [SamePlace]
    simp only [hk, hm]
    simp [userRegs]
  next => exact absurd hr (by simp)

theorem sim_irqUser {now : Option ℕ} {h : Calls} (hs : Sim k m) (hc : ContextsOk L m)
    (hk : k.place = .user) (hr : k.handleIrq kernelPhysBase now h = some k') :
    ∃ m', m.next kernelPhysBase kernelTable (.irq now) = some m' ∧ Sim k' m' := by
  obtain ⟨hm, hregs⟩ := hs.user hk
  have hidle : ¬ m.Idle := by
    rw [Machine.Idle, hm]
    decide
  obtain ⟨hmode, hpc⟩ : CtxOk (userRegs k.cpu) := by
    rw [hregs]
    exact hc.regs hidle
  have hcur := hc.table.current
  have hsaved : irqSaved k = (m.saveCtx m.regs).sched := by
    rw [irqSaved, hs.sched, hregs]
    rfl
  have hok := Machine.saveCtx_tableOk hc.table m.regs
  obtain ⟨s, hd⟩ : ∃ s, irqDispatch (m.saveCtx m.regs).sched now = s := ⟨_, rfl⟩
  have hcur' : m.sched.Mem s.currentProc := by
    rw [← hd]
    exact (Machine.irqDispatch_mem hok now _).mp (Machine.irqDispatch_tableOk hok now).current
  have hctx : CtxOk (s.proc s.currentProc).ctx := by
    rw [← hd, Machine.irqDispatch_ctx hok, hd]
    by_cases hcc : s.currentProc = m.sched.currentProc
    · rw [hcc]
      simp only [Machine.saveCtx, write_proc_self]
      exact hc.regs hidle
    · simp only [Machine.saveCtx]
      rw [write_proc_of_ne _ _ hcc]
      exact hc.ctx _ ⟨hcur', fun h => absurd h hcc⟩
  rw [← hs.sched] at hcur
  obtain ⟨k2, hk2, hirq, hpost⟩ := handleIrq_user kernelPhysBase now
    h hmode hpc hs.irqStack hcur.1 (hc.placed _ (by rw [← hs.sched]; exact hcur))
    (by rw [hsaved, hd]) (hc.placed _ hcur') hctx.1
  obtain rfl : k2 = k' := Option.some.inj (hk2.symm.trans hr)
  refine ⟨_, by rw [Machine.next, hm], ?_⟩
  rw [Machine.handleIrqUser, if_neg hc.table.current.1]
  simp only [hd]
  split at hpost
  next hsusp =>
    obtain ⟨hp, hi, ht⟩ := hpost
    rw [if_pos hsusp]
    exact hi.sim (ht.trans hs.ttbr0) (.inr ⟨hp, rfl⟩)
  next hsusp =>
    rw [if_neg hsusp]
    exact Entered.sim (m := { m.saveCtx m.regs with sched := s }) hpost hirq

theorem Framed.of_words {c d : Cpu (KMem L)} {a : ℕ} {regs : CpuCtx} (h : Framed c a regs)
    (hw : ∀ b, a ≤ b → b < svcStackTop → d.mem.words b = c.mem.words b) (hu : d.sp .usr = c.sp .usr)
    (hl : d.lr .usr = c.lr .usr) (hp : d.spsr .svc = c.spsr .svc) (hf : d.fpscr = c.fpscr)
    (hv : d.vfp = c.vfp) (hi : d.sp .irq = c.sp .irq) : Framed d a regs where
  frame := by
    obtain ⟨hlow, htop⟩ := h.room
    have hbot : svcStackTop ≤ stackBottom := by decide
    have hmax : stackBottom ≤ 4294967296 := by decide
    refine (loadList_congr (by omega) fun i hi => ?_).trans h.frame
    rw [load_stack _ (by omega), load_stack _ (by omega)]
    exact hw _ (by omega) (by omega)
  sp := hu.trans h.sp
  lr := hl.trans h.lr
  cpsr := hp.trans h.cpsr
  fpscr := hf.trans h.fpscr
  vfp := hv.trans h.vfp
  irqStack := hi.trans h.irqStack
  room := h.room

theorem Framed.undisturbed {c d : Cpu (KMem L)} {a : ℕ} {regs : CpuCtx} (h : Framed c a regs)
    (hu : Undisturbed c d) (hsp : c.sp .svc ≤ a) : Framed d a regs :=
  h.of_words (fun b hb ht => hu.words b (.inl ⟨le_trans hsp hb, ht⟩)) (by rw [hu.sp])
    (hu.lr _ (by decide)) (hu.spsr _ (by decide)) hu.fpscr hu.vfp (by rw [hu.sp])

theorem Framed.call {c : Cpu (KMem L)} {a : ℕ} {regs : CpuCtx} (h : Framed c a regs) (v : Havoc)
    (s : Sched) (r0 : ℕ) (hm : Psr.mode c.cpsr = svcMode) (hsp : c.sp .svc ≤ a) :
    Framed (cCall c v s r0) a regs :=
  h.of_words (fun b hb ht => calleeMem_live c v s (.inl ⟨le_trans hsp hb, ht⟩)) rfl
    (Function.update_of_ne (by rw [Cpu.bank, bank_svc hm]; decide) ..) rfl rfl rfl rfl

theorem sim_irqKernel {now : Option ℕ} {h : Calls} (hs : Sim k m) (hk : k.place ≠ .user)
    (hd : k.place ≠ .svcDone) (hr : k.handleIrq kernelPhysBase now h = some k') :
    ∃ m', m.next kernelPhysBase kernelTable (.irq now) = some m' ∧ Sim k' m' := by
  have hplace := hs.place
  rw [SamePlace] at hplace
  have hmode : Psr.mode k.cpu.cpsr = svcMode := by
    split at hplace
    next he _ => exact absurd he hk
    next => exact hplace.1
    next he _ => exact absurd he hd
    next => exact hplace
    next => exact hplace
    next => exact hplace.elim
  obtain ⟨c, hc, hu, hsched⟩ := handleIrq_kernel kernelPhysBase now
    h hmode hs.irqStack
  obtain rfl : { k with cpu := c } = k' := Option.some.inj (hc.symm.trans hr)
  refine ⟨{ m with sched := irqDispatch m.sched now }, ?_, ?_, hs.ttbr0, ?_, ?_⟩
  · rw [Machine.next]
    split at hplace
    next he _ => exact absurd he hk
    next hm => rw [hm]
    next he _ => exact absurd he hd
    next hm => rw [hm]
    next hm => rw [hm]
    next => exact hplace.elim
  · rw [← hs.sched]
    exact hsched
  · rw [← hs.irqStack]
    exact congrFun hu.sp _
  · rw [SamePlace]
    split at hplace
    next he _ => exact absurd he hk
    next he hm =>
      obtain ⟨hm', a, hf, he', hsp⟩ := hplace
      simp only [he, hm]
      exact ⟨by rw [hu.cpsr, hm'], a, hf.undisturbed hu (by omega), he', by rw [hu.sp]; exact hsp⟩
    next he _ => exact absurd he hd
    next he hm =>
      simp only [he, hm, hu.cpsr]
      exact hplace
    next he hm =>
      simp only [he, hm, hu.cpsr]
      exact hplace
    next => exact hplace.elim

theorem sim_returns {c : Cpu (KMem L)} {a : ℕ} {h : Havoc} {r0 : ℕ} (hf : Framed c a m.regs)
    (hm : Psr.mode c.cpsr = svcMode) (hsp : c.sp .svc = a - 4) (hd : m.mode = .svcDone r0) :
    Sim (Kernel.svcReturns c m.ttbr0 h m.sched r0) m where
  sched := rfl
  ttbr0 := rfl
  irqStack := hf.irqStack
  place := by
    rw [SamePlace, hd]
    exact ⟨by simp [Kernel.svcReturns, hm], a, hf.call _ _ _ hm (by omega), hsp, rfl⟩

theorem sim_callSwitch {c : Cpu (KMem L)} {h v : Havoc} {p : ℕ} (hm : Psr.mode c.cpsr = svcMode)
    (hi : c.sp .irq = irqStackTop) (hp : L.Placed p) (h2 : v.clobber.r 2 = p)
    (hc : CtxOk (m.sched.proc p).ctx)
    (hr : Kernel.contextSwitchAsm kernelPhysBase (callSwitch c h m.sched p) v = some k') :
    Sim k' (m.restore kernelPhysBase p) := by
  obtain ⟨k2, hk2, hent, hirq⟩ := contextSwitchAsm_entered kernelPhysBase
    (c := callSwitch c h m.sched p) (h := v) (p := p)
      (by simp [callSwitch, insideCall, bank_svc hm])
    (by simp [callSwitch]) hp h2 hc.1
  obtain rfl : k2 = k' := Option.some.inj (hk2.symm.trans hr)
  refine hent.sim (m := m) ?_
  rw [hirq]
  simp [callSwitch, insideCall, hi]

theorem exitSwitch_some {s s1 : Sched} {pid code p : ℕ} (h : exitSwitch s pid code = some (s1, p)) :
    schedGet s pid ≠ 0 ∧ schedGet s pid = s.currentProc ∧ s1 = exitTable s pid code ∧
      s1.Mem p ∧ processExit s pid code = some (contextSwitch s1 p) := by
  unfold exitSwitch at h
  unfold processExit
  dsimp only at h ⊢
  split at h
  next => exact absurd h (by simp)
  next h0 =>
    split at h
    next hcur =>
      split at h
      next => exact absurd h (by simp)
      next hnext =>
        rw [if_neg h0, if_pos hcur, if_neg hnext]
        rw [Option.some_inj, Prod.mk.injEq] at h
        obtain ⟨rfl, rfl⟩ := h
        exact ⟨h0, hcur, rfl, (schedPickNext_some hnext).1, rfl⟩
    next => exact absurd h (by simp)

theorem exit_ctxOk {code p : ℕ} (hc : ContextsOk L m) {s1 : Sched}
    (he : exitSwitch m.sched (m.sched.proc m.sched.currentProc).pid code = some (s1, p)) :
    L.Placed p ∧ CtxOk (s1.proc p).ctx := by
  obtain ⟨h0, hcur, rfl, hmem, -⟩ := exitSwitch_some he
  obtain ⟨hm, hne⟩ := (exitTable_mem code hc.table.distinct h0 hcur p).mp hmem
  have hctx := hc.ctx p ⟨hm, fun h => absurd h hne⟩
  refine ⟨hc.placed p hm, ?_⟩
  rw [exitTable_proc code hc.table.distinct h0 hcur hm hne]
  split
  · exact hctx
  · exact hctx

/-- `svc_dispatch` is called with the frame at `a` and the arguments of the machine's event. -/
structure SvcCalled (c : Cpu (KMem L)) (a : ℕ) (m : Machine) : Prop where
  frame : Framed c a m.regs
  arg : c.r 0 = m.regs.r 0
  stack : c.sp .svc = a - 4
  mode : Psr.mode c.cpsr = svcMode
  sched : c.mem.sched = m.sched
  savedLr : load c.mem L.svcSavedLr = m.regs.pc

variable {c : Cpu (KMem L)} {a : ℕ} {h : Calls}

theorem SvcCalled.returns (hs : SvcCalled c a m) (s : Sched) (t r0 : ℕ) {n : Machine}
    (hn : n.sched = s ∧ n.ttbr0 = t ∧ n.regs = m.regs ∧ n.mode = .svcDone r0) (v : Havoc) :
    Sim (Kernel.svcReturns c t v s r0) n := by
  obtain ⟨rfl, rfl, hr, hd⟩ := hn
  exact sim_returns (hr ▸ hs.frame) hs.mode hs.stack hd

theorem sim_exit (hs : SvcCalled c a m) (hc : ContextsOk L m) {t : ℕ}
    (h2 : ∀ p ∈ (exitSwitch m.sched (m.sched.proc m.sched.currentProc).pid (m.regs.r 0)).map
      Prod.snd, h.table.clobber.r 2 = p)
    (hr : Kernel.svcDispatch kernelPhysBase kernelTable c t h .exit = some k') :
    ∃ m', m.svcDispatch kernelPhysBase kernelTable .exit = some m' ∧ Sim k' m' := by
  simp only [Kernel.svcDispatch, hs.sched, hs.arg] at hr
  split at hr
  next s1 p he =>
    obtain ⟨hp, hctx⟩ := exit_ctxOk hc he
    obtain ⟨-, -, -, -, hx⟩ := exitSwitch_some he
    refine ⟨_, by rw [Machine.svcDispatch, hx], ?_⟩
    exact sim_callSwitch (m := { m with sched := s1 }) hs.mode hs.frame.irqStack hp
      (h2 p (by rw [he]; rfl)) hctx hr
  next => exact absurd hr (by simp)

theorem sim_exec {o : Replace} (hs : SvcCalled c a m) (hc : ContextsOk L m)
    (hw : ∀ pgd entry stackPt stackPages, o = .done pgd entry stackPt stackPages →
      entry < 4294967296 ∧ h.table.clobber.r 2 = m.sched.currentProc)
    (hr : Kernel.svcDispatch kernelPhysBase kernelTable c m.ttbr0 h (.exec o) = some k') :
    ∃ m', m.svcDispatch kernelPhysBase kernelTable (.exec o) = some m' ∧ Sim k' m' := by
  simp only [Kernel.svcDispatch, hs.sched] at hr
  refine ⟨_, rfl, ?_⟩
  generalize (m.sched.proc m.sched.currentProc).pid = pid at hr ⊢
  cases o with
  | notLoaded =>
    simp only [Kernel.processReplace, hs.sched] at hr
    obtain rfl := Option.some.inj hr
    exact hs.returns _ _ _ (by exact ⟨rfl, rfl, rfl, rfl⟩) _
  | noStack =>
    simp only [Kernel.processReplace, Machine.processReplace, hs.sched] at hr ⊢
    split at hr
    next h0 =>
      rw [if_pos h0]
      obtain rfl := Option.some.inj hr
      exact hs.returns _ _ _ (by exact ⟨rfl, rfl, rfl, rfl⟩) _
    next h0 =>
      rw [if_neg h0]
      obtain rfl := Option.some.inj hr
      exact hs.returns _ _ _ (by exact ⟨rfl, rfl, rfl, rfl⟩) _
  | done pgd entry stackPt stackPages =>
    obtain ⟨hentry, h2⟩ := hw pgd entry stackPt stackPages rfl
    simp only [Kernel.processReplace, Machine.processReplace, hs.sched] at hr ⊢
    split at hr
    next h0 =>
      rw [if_pos h0]
      obtain rfl := Option.some.inj hr
      exact hs.returns _ _ _ (by exact ⟨rfl, rfl, rfl, rfl⟩) _
    next h0 =>
      rw [if_neg h0]
      split at hr
      next hcur =>
        rw [if_pos hcur]
        rw [hcur] at hr ⊢
        refine sim_callSwitch (m := { m with
          sched := m.sched.write m.sched.currentProc (replaceImage pgd entry stackPt stackPages)
          ttbr0 := virtToPhys kernelPhysBase kernelTable
          saved := Function.update m.saved m.sched.currentProc m.sched.currentProc }) hs.mode
          hs.frame.irqStack (hc.placed _ hc.table.current) h2 ?_ hr
        simp only [write_proc_self, replaceImage]
        exact ⟨(by decide : Psr.mode 0x10 = usrMode), hentry⟩
      next hcur =>
        rw [if_neg hcur]
        obtain rfl := Option.some.inj hr
        exact hs.returns _ _ _ (by exact ⟨rfl, rfl, rfl, rfl⟩) _

theorem sim_fork {alloc : Option (ℕ × ℕ)} (hs : SvcCalled c a m)
    (hr : Kernel.svcDispatch kernelPhysBase kernelTable c m.ttbr0 h (.fork alloc) = some k') :
    ∃ m', m.svcDispatch kernelPhysBase kernelTable (.fork alloc) = some m' ∧ Sim k' m' := by
  simp only [Kernel.svcDispatch, hs.sched, hs.savedLr, hs.frame.sp, hs.frame.cpsr] at hr
  rw [Machine.svcDispatch]
  split at hr
  next h0 =>
    refine ⟨_, if_pos h0, ?_⟩
    obtain rfl := Option.some.inj hr
    exact hs.returns _ _ _ (by exact ⟨rfl, rfl, rfl, rfl⟩) _
  next h0 =>
    refine ⟨_, if_neg h0, ?_⟩
    obtain rfl := Option.some.inj hr
    exact hs.returns _ _ _ (by exact ⟨rfl, rfl, rfl, rfl⟩) _

theorem sim_wait (hs : SvcCalled c a m) (hroom : L.stackLow + 8 + h.dispatch.frame ≤ a)
    (hr : Kernel.svcDispatch kernelPhysBase kernelTable c m.ttbr0 h .wait = some k') :
    ∃ m', m.svcDispatch kernelPhysBase kernelTable .wait = some m' ∧ Sim k' m' := by
  refine ⟨_, rfl, ?_⟩
  simp only [Kernel.svcDispatch, hs.sched] at hr
  obtain rfl := Option.some.inj hr
  have htop := hs.frame.room.2
  have hbot : svcStackTop < 4294967296 := by decide
  have hsp : wrap (a - 4 + (4294967296 - h.dispatch.frame)) = a - 4 - h.dispatch.frame := by
    unfold wrap
    omega
  have hinside : Framed ((insideCall c h.dispatch m.sched).run [.cpsie]) a m.regs := by
    refine hs.frame.of_words (fun b hb ht => ?_) ?_ ?_ ?_ ?_ ?_ ?_
    · have hl : Live c b := .inl ⟨by rw [hs.stack]; omega, ht⟩
      simpa [insideCall] using calleeMem_live c h.dispatch m.sched hl
    all_goals simp [insideCall]
  refine ⟨by simp [insideCall, calleeMem], rfl, hinside.irqStack, ?_⟩
  rw [SamePlace]
  refine ⟨by simp [insideCall, hs.mode], a, hinside, hs.stack, ?_⟩
  simp [insideCall, hs.stack, hsp]

/-- The SVC entry and the handler. -/
theorem sim_svc {call : Svc} (hs : Sim k m) (hc : ContextsOk L m) (hk : k.place = .user)
    (h2 : k.KeepsR2 ⟨.svc call, h⟩) (hroom : k.KeepsRoom ⟨.svc call, h⟩)
    (hw : ∀ pgd entry stackPt stackPages, call = .exec (.done pgd entry stackPt stackPages) →
      entry < 4294967296)
    (hr : k.handleSvc kernelPhysBase kernelTable call h = some k') :
    ∃ m', m.next kernelPhysBase kernelTable (.svc call) = some m' ∧ Sim k' m' := by
  obtain ⟨hm, hregs⟩ := hs.user hk
  have hroom' : HasRoom L (60 + h.dispatch.frame) (k.cpu.sp .svc) := hroom
  obtain ⟨hlow, htop⟩ := hroom'
  obtain ⟨hf, h0, hsp, hmode, hsched, hlr⟩ := run_svcEntry (c := k.cpu) hs.irqStack ⟨by omega, htop⟩
  rw [hregs] at hf
  have hpc : k.cpu.pc = m.regs.pc := congrArg CpuCtx.pc hregs
  have hr0 : k.cpu.r 0 = m.regs.r 0 := congrArg (fun c => CpuCtx.r c 0) hregs
  rw [Kernel.handleSvc, hs.ttbr0] at hr
  rw [Machine.next, if_pos hm]
  have hcall : SvcCalled (k.cpu.takeSvc.run (svcEntry L)) (k.cpu.sp .svc - 52) m :=
    ⟨hf, h0.trans hr0, by omega, hmode, hsched.trans hs.sched, hlr.trans hpc⟩
  generalize k.cpu.takeSvc.run (svcEntry L) = c at *
  cases call with
  | exit =>
    refine sim_exit hcall hc (fun p hp => ?_) hr
    simp only [Kernel.KeepsR2, Kernel.switchesTo, hs.sched, hr0] at h2
    exact h2 p hp
  | fork alloc => exact sim_fork hcall hr
  | join =>
    simp only [Kernel.svcDispatch, hcall.sched, hcall.arg] at hr
    obtain rfl := Option.some.inj hr
    exact ⟨_, rfl, hcall.returns _ _ _ (by exact ⟨rfl, rfl, rfl, rfl⟩) _⟩
  | exec o =>
    refine sim_exec hcall hc (fun pgd entry stackPt stackPages ho => ?_) hr
    subst ho
    simp only [Kernel.KeepsR2, Kernel.switchesTo, hs.sched] at h2
    exact ⟨hw _ _ _ _ rfl, h2 _ rfl⟩
  | wait => exact sim_wait hcall (by omega) hr
  | sleep now freq =>
    simp only [Kernel.svcDispatch, hcall.sched, hcall.arg] at hr
    obtain rfl := Option.some.inj hr
    exact ⟨_, rfl, hcall.returns _ _ _ (by exact ⟨rfl, rfl, rfl, rfl⟩) _⟩
  | other r0 =>
    simp only [Kernel.svcDispatch, hcall.sched] at hr
    obtain rfl := Option.some.inj hr
    exact ⟨_, rfl, hcall.returns _ _ _ (by exact ⟨rfl, rfl, rfl, rfl⟩) _⟩

theorem sim_input {entry : Cpu (KMem L)} {v : Havoc} {r0 : ℕ} (hs : Sim k m)
    (hk : k.place = .waiting entry) :
    ∃ m', m.next kernelPhysBase kernelTable (.input r0) = some m' ∧
      Sim (k.inputReturn entry v r0) m' := by
  have hplace := hs.place
  rw [SamePlace, hk] at hplace
  cases hm : m.mode <;> rw [hm] at hplace <;> try exact hplace.elim
  obtain ⟨hmode, a, hf, he, hsp⟩ := hplace
  refine ⟨_, by rw [Machine.next, if_pos hm], ?_⟩
  have hframe : Framed (k.inputReturn entry v r0).cpu a m.regs := by
    refine hf.of_words (fun b hb ht => ?_) ?_ ?_ ?_ ?_ ?_ ?_
    · have hl : Live ({ k.cpu.run [.cpsid] with
          r := entry.r
          sp := Function.update (k.cpu.run [.cpsid]).sp .svc (entry.sp .svc) } : Cpu (KMem L)) b :=
        .inl ⟨by simp [he]; omega, ht⟩
      simpa [Kernel.inputReturn, cCall, Cpu.afterCall] using calleeMem_live _ v k.cpu.mem.sched hl
    all_goals simp [Kernel.inputReturn, cCall, Cpu.afterCall, bank_svc hmode]
  refine ⟨by simpa [Kernel.inputReturn] using hs.sched, hs.ttbr0, hframe.irqStack, ?_⟩
  simp only [SamePlace, Kernel.inputReturn]
  refine ⟨by simp [hmode], a, hframe, by simp [he], by simp⟩

theorem schedPickNext_write {s : Sched} {p : ℕ} {f : Process → Process}
    (hf : ∀ q, (f q).suspended = q.suspended) : schedPickNext (s.write p f) = schedPickNext s := by
  have hq (q : ℕ) : ((s.write p f).proc q).suspended = (s.proc q).suspended := by
    by_cases h : q = p
    · rw [h, write_proc_self, hf]
    · rw [write_proc_of_ne _ _ h]
  unfold schedPickNext findSlot nextRunnable
  simp only [write_currentProc, write_procs, hq]
  rfl

theorem sim_normalReturn {c : Cpu (KMem L)} {a r0 : ℕ} (hf : Framed c a m.regs)
    (hm : Psr.mode c.cpsr = svcMode) (hsp : c.sp .svc = a) (h0 : c.r 0 = r0)
    (hs : c.mem.sched = m.sched)
    (hr : Kernel.enterUser (c.run [.pop svcFrame]) m.ttbr0 = some k') :
    Sim k' { m with regs := resumed m.regs r0, mode := .user } := by
  obtain ⟨hu, hmem, hsp2⟩ := run_popFrame hf hm hsp
  rw [h0] at hu
  have hirq : (c.run [.pop svcFrame]).sp .irq = irqStackTop := by
    rw [hsp2, Function.update_of_ne (by decide), hf.irqStack]
  rw [← hmem] at hs
  generalize c.run [.pop svcFrame] = d at *
  rw [Kernel.enterUser] at hr
  split at hr
  next =>
    obtain rfl := Option.some.inj hr
    exact ⟨by rw [Cpu.exceptionReturn_mem, hs], rfl, by rw [Cpu.exceptionReturn_sp, hirq], hu⟩
  next => exact absurd hr (by simp)

/-- A saved caller makes way for the next runnable process, if there is one. -/
theorem sim_yield {c : Cpu (KMem L)} {t : ℕ} (hm : Psr.mode c.cpsr = svcMode)
    (hi : c.sp .irq = irqStackTop) (hs : c.mem.sched = m.sched) (ht : t = m.ttbr0)
    (h2 : schedPickNext m.sched ≠ 0 → h.table.clobber.r 2 = schedPickNext m.sched)
    (hp : schedPickNext m.sched ≠ 0 → L.Placed (schedPickNext m.sched))
    (hc : schedPickNext m.sched ≠ 0 → CtxOk (m.sched.proc (schedPickNext m.sched)).ctx)
    (hr : Kernel.yieldTo kernelPhysBase c t h = some k') :
    Sim k' (if schedPickNext m.sched = 0 then { m with mode := .svcIdle }
      else m.restore kernelPhysBase (schedPickNext m.sched)) := by
  have hz : Psr.zero ((cCall c h.dispatch m.sched (schedPickNext m.sched)).run
      [.cmp (.r 0) 0]).cpsr ↔
      schedPickNext m.sched = 0 := by
    rw [Cpu.run_cons, Cpu.run_nil, Cpu.exec, zero_cmpFlags, Cpu.get, cCall_r0]
  have hfacts : ((cCall c h.dispatch m.sched (schedPickNext m.sched)).run
        [.cmp (.r 0) 0]).mem.sched = m.sched ∧
      ((cCall c h.dispatch m.sched (schedPickNext m.sched)).run [.cmp (.r 0) 0]).r 0 =
        schedPickNext m.sched ∧
      ((cCall c h.dispatch m.sched (schedPickNext m.sched)).run [.cmp (.r 0) 0]).sp .irq =
        irqStackTop ∧
      Psr.mode ((cCall c h.dispatch m.sched (schedPickNext m.sched)).run
        [.cmp (.r 0) 0]).cpsr = svcMode := by
    simp [hi, hm]
  obtain ⟨hs', h0, hi', hm'⟩ := hfacts
  rw [Kernel.yieldTo] at hr
  simp only [hs] at hr
  generalize (cCall c h.dispatch m.sched (schedPickNext m.sched)).run [.cmp (.r 0) 0] = d at *
  by_cases hn : schedPickNext m.sched = 0
  · rw [if_pos (hz.mpr hn)] at hr
    obtain rfl := Option.some.inj hr
    rw [if_pos hn]
    exact (idling_cpsie (i := .svcIdle) (s := m.sched) hs' hm' hi').sim
      (m := { m with mode := .svcIdle }) ht (.inl ⟨rfl, rfl⟩)
  · rw [if_neg fun h => hn (hz.mp h)] at hr
    rw [if_neg hn]
    rw [hs', h0] at hr
    exact sim_callSwitch hm' hi' (hp hn) (h2 hn) (hc hn) hr

/-- The end of `handle_svc`. -/
theorem sim_svcReturn (hs : Sim k m) (hc : ContextsOk L m) (hk : k.place = .svcDone)
    (h2 : k.KeepsR2 ⟨.svcReturn, h⟩) (hr : k.svcReturn kernelPhysBase h = some k') :
    ∃ m', m.next kernelPhysBase kernelTable .svcReturn = some m' ∧ Sim k' m' := by
  have hplace := hs.place
  rw [SamePlace, hk] at hplace
  cases hm : m.mode with
  | svcDone r0 =>
    rw [hm] at hplace
    obtain ⟨hmode, a, hf, hsp, h0⟩ := hplace
    have hidle : ¬ m.Idle := by
      rw [Machine.Idle, hm]
      exact fun h => h.elim Mode.noConfusion Mode.noConfusion
    have hregs := hc.regs hidle
    have hcur := hc.table.current
    obtain ⟨hf1, h01, hsp1, hm1, hs1, hz1⟩ := run_svcCheck hf hmode hsp rfl
      (hc.placed _ (by rw [hs.sched]; exact hcur))
    refine ⟨_, by rw [Machine.next, hm], ?_⟩
    rw [Kernel.svcReturn] at hr
    rw [Machine.svcReturn]
    simp only [hs.sched] at hs1 hz1
    generalize k.cpu.run (svcCheck L) = c at *
    rw [h0] at h01
    by_cases hz : (m.sched.proc m.sched.currentProc).suspended = 0
    · -- back to the caller
      simp only [if_pos (hz1.mpr hz)] at hr
      rw [if_neg (not_not.mpr hz)]
      rw [hs.ttbr0] at hr
      exact sim_normalReturn hf1 hm1 hsp1 h01 hs1 hr
    · -- the yield path
      simp only [if_neg fun h => hz (hz1.mp h)] at hr
      rw [if_pos hz]
      obtain ⟨hs2, hi2, hsp2, hm2⟩ := run_svcYield hf1 hm1 hsp1 (p := m.sched.currentProc)
        (by rw [hs1]) (hc.placed _ hcur)
      rw [h01, hs1] at hs2
      generalize c.run (svcYield L) = d at *
      have hsaved : d.mem.sched = (m.saveCtx (resumed m.regs r0)).sched := hs2
      have hpick : schedPickNext d.mem.sched = schedPickNext m.sched := by
        rw [hs2]
        exact schedPickNext_write fun _ => rfl
      simp only [Kernel.KeepsR2, Kernel.switchesTo, hs.sched] at h2
      have hpick' := hpick.symm.trans (congrArg schedPickNext hsaved)
      refine sim_yield (m := m.saveCtx (resumed m.regs r0)) hm2 hi2 hsaved hs.ttbr0
        (fun hn => ?_)
        (fun hn => hc.placed _ (schedPickNext_some hn).1) (fun hn => ?_) hr
      · rw [← hpick'] at hn ⊢
        exact h2 _ (if_pos ⟨hz, hn⟩)
      have hmem := (schedPickNext_some hn).1
      by_cases hcc : schedPickNext (m.saveCtx (resumed m.regs r0)).sched = m.sched.currentProc
      · rw [hcc]
        simp only [Machine.saveCtx, write_proc_self]
        exact hregs
      · have hctx := hc.ctx _ ⟨hmem, fun h => absurd h hcc⟩
        generalize schedPickNext (m.saveCtx (resumed m.regs r0)).sched = q at *
        simp only [Machine.saveCtx]
        rw [write_proc_of_ne _ _ hcc]
        exact hctx
  | _ => rw [hm] at hplace; exact hplace.elim

theorem run_svcSpin (c : Cpu (KMem L)) {p : ℕ} (hcur : c.mem.sched.currentProc = p)
    (hp : L.Placed p) : (c.run (svcSpin L)).mem = c.mem ∧ (c.run (svcSpin L)).sp = c.sp ∧
      Psr.mode (c.run (svcSpin L)).cpsr = Psr.mode c.cpsr ∧
      (Psr.zero (c.run (svcSpin L)).cpsr ↔ (c.mem.sched.proc p).suspended = 0) := by
  simp [svcSpin, wrap_currentProc, hcur, load_suspended _ hp, zero_cmpFlags]

theorem run_svcWoken (c : Cpu (KMem L)) : (c.run (svcWoken L)).mem = c.mem ∧
    (c.run (svcWoken L)).sp = c.sp ∧ Psr.mode (c.run (svcWoken L)).cpsr = Psr.mode c.cpsr ∧
    (c.run (svcWoken L)).r 0 = c.mem.sched.currentProc := by
  simp [svcWoken, wrap_currentProc]

theorem run_cpsid (c : Cpu (KMem L)) : (c.run [.cpsid]).mem = c.mem ∧
    (c.run [.cpsid]).sp = c.sp ∧ Psr.mode (c.run [.cpsid]).cpsr = Psr.mode c.cpsr := by
  simp

theorem run_irqCheck_frame (c : Cpu (KMem L)) {p : ℕ} (hcur : c.mem.sched.currentProc = p)
    (hp : L.Placed p) : (c.run (irqCheck L)).mem = c.mem ∧ (c.run (irqCheck L)).sp = c.sp ∧
      Psr.mode (c.run (irqCheck L)).cpsr = Psr.mode c.cpsr ∧
      (Psr.zero (c.run (irqCheck L)).cpsr ↔ (c.mem.sched.proc p).suspended = 0) := by
  simp [irqCheck, wrap_currentProc, hcur, load_suspended _ hp, zero_cmpFlags]

/-- `.Lsvc_spin` ends in `context_switch` with the current process. -/
theorem sim_svcWake (hs : Sim k m) (hc : ContextsOk L m) (hm : m.mode = .svcIdle)
    (hk : k.place = .svcIdle) (h2 : h.table.clobber.r 2 = m.sched.currentProc)
    (hr : k.wake kernelPhysBase h = some k') :
    ∃ m', m.next kernelPhysBase kernelTable .wake = some m' ∧ Sim k' m' := by
  have hplace : Psr.mode k.cpu.cpsr = svcMode := by
    have hp := hs.place
    rw [SamePlace, hk, hm] at hp
    exact hp
  have hidle : m.Idle := .inl hm
  have hcur := hc.table.current
  have hplaced := hc.placed _ hcur
  obtain ⟨hmem1, hsp1, hm1, hz⟩ := run_svcSpin k.cpu (congrArg Sched.currentProc hs.sched) hplaced
  rw [Kernel.wake, hk] at hr
  dsimp only at hr
  rw [hs.sched] at hz
  have hs1 : (k.cpu.run (svcSpin L)).mem.sched = m.sched := by rw [hmem1, hs.sched]
  have hi1 : (k.cpu.run (svcSpin L)).sp .irq = irqStackTop := by rw [hsp1, hs.irqStack]
  rw [hplace] at hm1
  clear hmem1 hsp1
  generalize k.cpu.run (svcSpin L) = c at *
  by_cases hsusp : (m.sched.proc m.sched.currentProc).suspended = 0
  · rw [if_pos (hz.mpr hsusp)] at hr
    obtain ⟨hmem2, hsp2, hm2, h0⟩ := run_svcWoken c
    rw [hs1] at h0
    rw [hm1] at hm2
    have hs2 : (c.run (svcWoken L)).mem.sched = m.sched := by rw [hmem2, hs1]
    have hi2 : (c.run (svcWoken L)).sp .irq = irqStackTop := by rw [hsp2, hi1]
    clear hmem2 hsp2
    generalize c.run (svcWoken L) = d at *
    rw [hs2, h0] at hr
    refine ⟨_, by rw [Machine.next, if_pos ⟨hidle, hsusp⟩], ?_⟩
    exact sim_callSwitch hm2 hi2 hplaced h2 (hc.ctx _ ⟨hcur, fun _ => hidle⟩) hr
  · rw [if_neg fun h => hsusp (hz.mp h)] at hr
    exact absurd hr (by simp)

/-- `.Lirq_check` ends in `.Lirq_restore_user`. -/
theorem sim_irqWake (hs : Sim k m) (hc : ContextsOk L m) (hm : m.mode = .irqIdle)
    (hk : k.place = .irqIdle) (hr : k.wake kernelPhysBase h = some k') :
    ∃ m', m.next kernelPhysBase kernelTable .wake = some m' ∧ Sim k' m' := by
  have hplace : Psr.mode k.cpu.cpsr = svcMode := by
    have hp := hs.place
    rw [SamePlace, hk, hm] at hp
    exact hp
  have hidle : m.Idle := .inr hm
  have hcur := hc.table.current
  have hplaced := hc.placed _ hcur
  obtain ⟨hmem1, hsp1, hm1, hz⟩ :=
    run_irqCheck_frame k.cpu (congrArg Sched.currentProc hs.sched) hplaced
  rw [Kernel.wake, hk] at hr
  dsimp only at hr
  rw [hs.sched] at hz
  have hs1 : (k.cpu.run (irqCheck L)).mem.sched = m.sched := by rw [hmem1, hs.sched]
  have hi1 : (k.cpu.run (irqCheck L)).sp .irq = irqStackTop := by rw [hsp1, hs.irqStack]
  rw [hplace] at hm1
  clear hmem1 hsp1
  generalize k.cpu.run (irqCheck L) = c at *
  by_cases hsusp : (m.sched.proc m.sched.currentProc).suspended = 0
  · rw [if_pos (hz.mpr hsusp)] at hr
    obtain ⟨hmem2, hsp2, hm2⟩ := run_cpsid c
    rw [hm1] at hm2
    have hs2 : (c.run [.cpsid]).mem.sched = m.sched := by rw [hmem2, hs1]
    have hi2 : (c.run [.cpsid]).sp .irq = irqStackTop := by rw [hsp2, hi1]
    clear hmem2 hsp2
    generalize c.run [.cpsid] = d at *
    obtain ⟨k2, hk2, hent, hirq⟩ := restoreUser_entered kernelPhysBase
      (h := h.table) (bank_svc hm2) (congrArg Sched.currentProc hs2) hplaced
      (by rw [hs2]; exact (hc.ctx _ ⟨hcur, fun _ => hidle⟩).1)
    obtain rfl : k2 = k' := Option.some.inj (hk2.symm.trans hr)
    rw [hs2] at hent
    refine ⟨_, by rw [Machine.next, if_pos ⟨hidle, hsusp⟩], ?_⟩
    exact hent.sim (m := m) (by rw [hirq, hi2])
  · rw [if_neg fun h => hsusp (hz.mp h)] at hr
    exact absurd hr (by simp)

theorem sim_wake (hs : Sim k m) (hc : ContextsOk L m) (h2 : k.KeepsR2 ⟨.wake, h⟩)
    (hr : k.wake kernelPhysBase h = some k') :
    ∃ m', m.next kernelPhysBase kernelTable .wake = some m' ∧ Sim k' m' := by
  have hplace := hs.place
  rw [SamePlace] at hplace
  split at hplace
  next he _ => simp [Kernel.wake, he] at hr
  next he _ => simp [Kernel.wake, he] at hr
  next he _ => simp [Kernel.wake, he] at hr
  next he hm =>
    refine sim_svcWake hs hc hm he ?_ hr
    simp only [Kernel.KeepsR2, Kernel.switchesTo, he, hs.sched] at h2
    exact h2 _ rfl
  next he hm => exact sim_irqWake hs hc hm he hr
  next => exact hplace.elim

/-- Each step of the code is the machine's step for the same event. -/
theorem sim_next {l : Label} (hs : Sim k m) (hc : ContextsOk L m) (h2 : k.KeepsR2 l)
    (hroom : k.KeepsRoom l) (hw : ∀ pgd entry stackPt stackPages,
      l.event = .svc (.exec (.done pgd entry stackPt stackPages)) → entry < 4294967296)
    (hr : k.next kernelPhysBase kernelTable l = some k') :
    ∃ m', m.next kernelPhysBase kernelTable l.event = some m' ∧ Sim k' m' := by
  obtain ⟨e, h⟩ := l
  dsimp only at hw ⊢
  cases e with
  | run regs =>
    cases hk : k.place <;> simp only [Kernel.next, hk] at hr <;>
      first | exact sim_userRun hs hk hr | exact absurd hr (by simp)
  | irq now =>
    cases hk : k.place with
    | user =>
      simp only [Kernel.next, hk] at hr
      exact sim_irqUser hs hc hk hr
    | svcDone =>
      simp only [Kernel.next, hk] at hr
      exact absurd hr (by simp)
    | waiting | svcIdle | irqIdle =>
      simp only [Kernel.next, hk] at hr
      exact sim_irqKernel hs (by simp [hk]) (by simp [hk]) hr
  | svc call =>
    cases hk : k.place <;> simp only [Kernel.next, hk] at hr <;>
      first
      | exact sim_svc hs hc hk h2 hroom (fun _ _ _ _ he => hw _ _ _ _ (congrArg _ he)) hr
      | exact absurd hr (by simp)
  | input r0 =>
    cases hk : k.place with
    | waiting entry =>
      simp only [Kernel.next, hk] at hr
      obtain rfl := Option.some.inj hr
      exact sim_input hs hk
    | user | svcDone | svcIdle | irqIdle =>
      simp only [Kernel.next, hk] at hr
      exact absurd hr (by simp)
  | svcReturn =>
    cases hk : k.place <;> simp only [Kernel.next, hk] at hr <;>
      first | exact sim_svcReturn hs hc hk h2 hr | exact absurd hr (by simp)
  | wake => exact sim_wake hs hc h2 hr

end Steps

end Leg
