import Leg.Process.ContextPreserved

/-! The SVC stack pointer. Whatever the memory holds, every way back to user mode drops what
the way out of it has pushed, except the ways through a C function that does not return:
these leave its frame, and in an exit or an exec the trap frame below it as well. -/
namespace Leg
open Arm Runs Sched
variable {L : Symbols}

section Blocks
variable (c : Cpu (KMem L))

theorem sp_irqEntry : (c.takeIrq.run irqEntry).sp .svc = c.sp .svc ∧
    Psr.mode (c.takeIrq.run irqEntry).cpsr = irqMode ∧
    (c.takeIrq.run irqEntry).spsr .irq = c.cpsr ∧
    (Psr.zero (c.takeIrq.run irqEntry).cpsr ↔ Psr.mode c.cpsr = usrMode) := by
  have hmode : Psr.mode (Psr.setMode (Psr.maskIrq c.cpsr) irqMode) = irqMode := Psr.mode_setMode ..
  simp [irqEntry, Cpu.takeIrq, loadList_succ, zero_cmpFlags, land_mode, hmode]

theorem sp_irqSave (hm : Psr.mode c.cpsr = irqMode) :
    ((c.run (irqLoadProc L)).run irqSave).sp .svc = c.sp .svc ∧
      Psr.mode ((c.run (irqLoadProc L)).run irqSave).cpsr = svcMode := by
  have hb : Psr.bank c.cpsr = .irq := Psr.bank_of_mode hm
  simp [irqLoadProc, irqSave, hb, r0ToR12]

theorem sp_irqNotUser (now : Option ℕ) (h : Havoc) (hm : Psr.mode c.cpsr = irqMode) :
    (Kernel.irqNotUser c now h).sp .svc = c.sp .svc ∧
      (Kernel.irqNotUser c now h).cpsr = c.spsr .irq := by
  have hb : Psr.bank c.cpsr = .irq := Psr.bank_of_mode hm
  simp [Kernel.irqNotUser, hb, volatileRegs, Cpu.exceptionReturn, loadList_succ]

theorem sp_irqCheck : (c.run (irqCheck L)).sp = c.sp ∧
    Psr.mode (c.run (irqCheck L)).cpsr = Psr.mode c.cpsr := by
  simp [irqCheck]

theorem sp_svcEntry : (c.takeSvc.run (svcEntry L)).sp .svc = wrap (c.sp .svc + 4294967240) ∧
    Psr.mode (c.takeSvc.run (svcEntry L)).cpsr = svcMode := by
  simp [svcEntry, svcFrame, Cpu.takeSvc, loadList_succ]
  unfold wrap
  omega

theorem sp_svcCheck (hm : Psr.mode c.cpsr = svcMode) :
    (c.run (svcCheck L)).sp .svc = wrap (c.sp .svc + 4) ∧
    Psr.mode (c.run (svcCheck L)).cpsr = svcMode := by
  simp [svcCheck, bank_svc hm, hm, loadList_succ]
  unfold wrap
  omega

theorem sp_svcYield (hm : Psr.mode c.cpsr = svcMode) :
    (c.run (svcYield L)).sp .svc = wrap (c.sp .svc + 52) ∧
    Psr.mode (c.run (svcYield L)).cpsr = svcMode := by
  simp [svcYield, yieldCtx, yieldBanked, yieldFrame, shifted, bank_svc hm, loadList_succ]
  unfold wrap
  omega

theorem sp_popFrame (hm : Psr.mode c.cpsr = svcMode) :
    (c.run [.pop svcFrame]).sp .svc = wrap (c.sp .svc + 52) := by
  simp [svcFrame, bank_svc hm, loadList_succ]

theorem sp_switchEntry : (c.run (switchEntry L)).sp .svc = c.sp .svc ∧
    Psr.mode (c.run (switchEntry L)).cpsr = Psr.mode c.cpsr := by
  simp [switchEntry]

theorem sp_restoreCtx : (c.run restoreCtx).sp .svc = c.sp .svc := by
  simp [restoreCtx, r0ToR12, loadList_succ]

end Blocks

/-- The bytes a system call that does not come back leaves on the stack. -/
def callLeaks (s : Sched) (h : Calls) : Svc → ℕ
  | .exit => 56 + h.dispatch.frame
  | .exec (.done _ _ _ _) =>
    let p := schedGet s (s.proc s.currentProc).pid
    if p ≠ 0 ∧ p = s.currentProc then 56 + h.dispatch.frame else 0
  | _ => 0

namespace Kernel

/-- The processor at the call of `svc_dispatch`. -/
def called (k : Kernel L) : Cpu (KMem L) := k.cpu.takeSvc.run (svcEntry L)

/-- The processor once `handle_svc` has looked at the flag of `current_proc`. -/
def checked (k : Kernel L) : Cpu (KMem L) := k.cpu.run (svcCheck L)

/-- The bytes a step leaves on the SVC stack once it is back in user mode. -/
def leaks (k : Kernel L) (l : Label) : ℕ :=
  match l.event, k.place with
  | .svc call, _ => callLeaks k.called.mem.sched l.calls call
  | .svcReturn, _ =>
    if Psr.zero k.checked.cpsr then 0
    else if schedPickNext (k.checked.run (svcYield L)).mem.sched = 0 then 0
    else l.calls.switch.frame
  | .wake, .svcIdle => l.calls.switch.frame
  | _, _ => 0

theorem leaks_svcReturn (k : Kernel L) (h : Calls) : k.leaks ⟨.svcReturn, h⟩ =
    if Psr.zero k.checked.cpsr then 0
    else if schedPickNext (k.checked.run (svcYield L)).mem.sched = 0 then 0
    else h.switch.frame := rfl

end Kernel

/-- A frame is smaller than the address space. -/
def Label.Sized (l : Label) : Prop :=
  56 + l.calls.dispatch.frame < 4294967296 ∧ l.calls.switch.frame < 4294967296

/-- The stack pointer is `S` less what is pushed at this place. -/
structure Balanced (S : ℕ) (k : Kernel L) : Prop where
  mode : k.place ≠ .user → Psr.mode k.cpu.cpsr = svcMode
  sp : match k.place with
    | .user | .svcIdle | .irqIdle => k.cpu.sp .svc = S
    | .svcDone => k.cpu.sp .svc = wrap (S + 4294967240)
    | .waiting entry => entry.sp .svc = wrap (S + 4294967240)

section Steps
variable {kernelPhysBase kernelTable S : ℕ} {k k' : Kernel L} {c : Cpu (KMem L)}

theorem Balanced.user (hp : k.place = .user) (hs : k.cpu.sp .svc = S) : Balanced S k :=
  ⟨fun h => absurd hp h, by rw [hp]; exact hs⟩

theorem enterUser_sp {t : ℕ} (h : Kernel.enterUser c t = some k') :
    k'.place = .user ∧ k'.cpu.sp .svc = c.sp .svc := by
  rw [Kernel.enterUser] at h
  split at h
  next =>
    rw [← Option.some.inj h]
    exact ⟨rfl, rfl⟩
  next => exact absurd h (by simp)

theorem contextSwitchAsm_sp {h : Havoc}
    (hr : Kernel.contextSwitchAsm kernelPhysBase c h = some k') :
    k'.place = .user ∧ k'.cpu.sp .svc = c.sp .svc := by
  obtain ⟨hp, hs⟩ := enterUser_sp hr
  refine ⟨hp, hs.trans ?_⟩
  rw [Cpu.run_append, sp_restoreCtx]
  have hcall (d : Cpu (KMem L)) :
      ((voidCall d h d.mem.sched).run switchCtx).sp .svc = d.sp .svc := by simp [switchCtx]
  rw [hcall, (sp_switchEntry c).1]

theorem restoreUser_sp {h : Havoc} (hr : Kernel.restoreUser kernelPhysBase c h = some k') :
    k'.place = .user ∧ k'.cpu.sp .svc = c.sp .svc := by
  obtain ⟨hp, hs⟩ := enterUser_sp hr
  refine ⟨hp, hs.trans ?_⟩
  rw [Cpu.run_append, sp_restoreCtx]
  have hentry : (c.run (irqRestoreUser L)).sp .svc = c.sp .svc := by simp [irqRestoreUser]
  have hcall (d : Cpu (KMem L)) :
      ((voidCall d h d.mem.sched).run (irqReloadProc L)).sp .svc = d.sp .svc := by
    simp [irqReloadProc]
  rw [hcall, hentry]

theorem callSwitch_sp {h v : Havoc} {s : Sched} {p : ℕ}
    (hr : Kernel.contextSwitchAsm kernelPhysBase (callSwitch c h s p) v = some k') :
    k'.place = .user ∧ k'.cpu.sp .svc = wrap (c.sp .svc + (4294967296 - h.frame)) := by
  obtain ⟨hp, hs⟩ := contextSwitchAsm_sp hr
  exact ⟨hp, hs.trans (by simp [callSwitch, insideCall])⟩

theorem irqFinish_balanced {t : ℕ} {now : Option ℕ} {h : Calls} (hm : Psr.mode c.cpsr = svcMode)
    (hs : c.sp .svc = S) (hr : Kernel.irqFinish kernelPhysBase c t now h = some k') :
    Balanced S k' := by
  unfold Kernel.irqFinish at hr
  dsimp only at hr
  obtain ⟨hsp, hmode⟩ := sp_irqCheck (voidCall c h.dispatch (irqDispatch c.mem.sched now))
  rw [voidCall_sp] at hsp
  rw [voidCall_cpsr, Psr.mode_setFlags, hm] at hmode
  generalize (voidCall c h.dispatch (irqDispatch c.mem.sched now)).run (irqCheck L) = d at *
  split at hr
  next =>
    obtain ⟨hp, hs'⟩ := restoreUser_sp hr
    exact .user hp (by rw [hs', hsp, hs])
  next =>
    obtain rfl := Option.some.inj hr
    exact ⟨fun _ => by simpa using hmode, by simp [hsp, hs]⟩

theorem handleIrq_balanced {now : Option ℕ} {h : Calls} (hb : Balanced S k)
    (hr : k.handleIrq kernelPhysBase now h = some k') : Balanced S k' := by
  obtain ⟨hsp, hmode, hspsr, hzero⟩ := sp_irqEntry k.cpu
  unfold Kernel.handleIrq at hr
  dsimp only at hr
  generalize k.cpu.takeIrq.run irqEntry = c at *
  -- an IRQ that is not for a process goes back to where it came from
  have hback (d : Cpu (KMem L)) (hd : d.sp .svc = c.sp .svc) (hm : Psr.mode d.cpsr = irqMode)
      (hps : d.spsr .irq = c.spsr .irq) :
      Balanced S { k with cpu := Kernel.irqNotUser d now h.dispatch } := by
    obtain ⟨hs', hc'⟩ := sp_irqNotUser d now h.dispatch hm
    refine ⟨fun hne => ?_, ?_⟩
    · rw [hc', hps, hspsr]
      exact hb.mode hne
    · have := hb.sp
      dsimp only
      rw [hs', hd, hsp]
      exact this
  split at hr
  next hz =>
    have huser : k.place = .user := by
      by_contra hne
      have := hb.mode hne
      rw [hzero.mp hz] at this
      exact absurd this (by decide)
    split at hr
    next =>
      obtain rfl := Option.some.inj hr
      have hbank : Psr.bank c.cpsr = .irq := Psr.bank_of_mode hmode
      exact hback _ (by simp [irqLoadProc, hbank]) (by simpa [irqLoadProc] using hmode)
        (by simp [irqLoadProc])
    next =>
      obtain ⟨hs', hm'⟩ := sp_irqSave (L := L) c hmode
      have hsS := hb.sp
      rw [huser] at hsS
      exact irqFinish_balanced hm' (by rw [hs', hsp]; exact hsS) hr
  next =>
    obtain rfl := Option.some.inj hr
    exact hback c rfl hmode rfl

/-- What a step does: it keeps the balance, or comes back to user mode with less stack. -/
def Leaves (S leaked : ℕ) (k : Kernel L) : Prop :=
  if leaked = 0 then Balanced S k
  else k.place = .user ∧ k.cpu.sp .svc = wrap (S + (4294967296 - leaked))

theorem leaves_switch {p : ℕ} {h v : Havoc} {s : Sched} (hS : S < 4294967296)
    (pushed : ℕ) (hc : c.sp .svc = wrap (S + (4294967296 - pushed)))
    (hf : pushed + h.frame < 4294967296)
    (hr : Kernel.contextSwitchAsm kernelPhysBase (callSwitch c h s p) v = some k') :
    Leaves S (pushed + h.frame) k' := by
  obtain ⟨hp, hs⟩ := callSwitch_sp hr
  have hsum : wrap (c.sp .svc + (4294967296 - h.frame)) =
      wrap (S + (4294967296 - (pushed + h.frame))) := by
    rw [hc]
    unfold wrap
    omega
  unfold Leaves
  split
  next h0 =>
    refine .user hp ?_
    rw [hs, hsum, h0]
    unfold wrap
    omega
  next => exact ⟨hp, hs.trans hsum⟩

theorem returns_leaves {t r0 : ℕ} {h : Havoc} {s : Sched} (hm : Psr.mode c.cpsr = svcMode)
    (hc : c.sp .svc = wrap (S + 4294967240))
    (hr : some (Kernel.svcReturns c t h s r0) = some k') : Leaves S 0 k' := by
  rw [Option.some_inj] at hr
  have hsp : k'.cpu.sp .svc = c.sp .svc := by rw [← hr, Kernel.svcReturns, cCall_sp]
  have hmode : Psr.mode k'.cpu.cpsr = svcMode := by
    rw [← hr, Kernel.svcReturns, cCall_cpsr, Psr.mode_setFlags, hm]
  have hp : k'.place = .svcDone := by rw [← hr, Kernel.svcReturns]
  rw [Leaves, if_pos rfl]
  exact ⟨fun _ => hmode, by rw [hp]; exact hsp.trans hc⟩

theorem waits_leaves {t : ℕ} {h : Havoc} {s : Sched} (hm : Psr.mode c.cpsr = svcMode)
    (hc : c.sp .svc = wrap (S + 4294967240))
    (hr : some (⟨(insideCall c h s).run [.cpsie], t, .waiting c⟩ : Kernel L) = some k') :
    Leaves S 0 k' := by
  rw [Option.some_inj] at hr
  have hmode : Psr.mode k'.cpu.cpsr = svcMode := by
    rw [← hr]
    simp [insideCall, hm]
  have hp : k'.place = .waiting c := by rw [← hr]
  rw [Leaves, if_pos rfl]
  exact ⟨fun _ => hmode, by rw [hp]; exact hc⟩

section Dispatch
variable {h : Calls} {t : ℕ} (hS : S < 4294967296) (hm : Psr.mode c.cpsr = svcMode)
  (hc : c.sp .svc = wrap (S + 4294967240)) (hf : 56 + h.dispatch.frame < 4294967296)
include hS hm hc hf

theorem exec_leaves {o : Replace}
    (hr : Kernel.svcDispatch kernelPhysBase kernelTable c t h (.exec o) = some k') :
    Leaves S (callLeaks c.mem.sched h (.exec o)) k' := by
  simp only [Kernel.svcDispatch] at hr
  cases o with
  | notLoaded =>
    simp only [Kernel.processReplace] at hr
    exact returns_leaves hm hc hr
  | noStack =>
    simp only [Kernel.processReplace] at hr
    split at hr
    · exact returns_leaves hm hc hr
    · exact returns_leaves hm hc hr
  | done pgd entry stackPt stackPages =>
    simp only [Kernel.processReplace] at hr
    simp only [callLeaks]
    split at hr
    next h0 =>
      rw [if_neg fun hc => hc.1 h0]
      exact returns_leaves hm hc hr
    next h0 =>
      split at hr
      next hcur =>
        rw [if_pos ⟨h0, hcur⟩]
        exact leaves_switch hS _ hc hf hr
      next hcur =>
        rw [if_neg fun hc => hcur hc.2]
        exact returns_leaves hm hc hr

/-- `svc_dispatch`: back in `handle_svc` with the trap frame, or away through a switch. -/
theorem svcDispatch_leaves {call : Svc}
    (hr : Kernel.svcDispatch kernelPhysBase kernelTable c t h call = some k') :
    Leaves S (callLeaks c.mem.sched h call) k' := by
  cases call with
  | exit =>
    simp only [Kernel.svcDispatch] at hr
    split at hr
    next => exact leaves_switch hS _ hc hf hr
    next => exact absurd hr (by simp)
  | fork alloc =>
    simp only [Kernel.svcDispatch] at hr
    split at hr
    · exact returns_leaves hm hc hr
    · exact returns_leaves hm hc hr
  | exec o => exact exec_leaves hS hm hc hf hr
  | wait =>
    simp only [Kernel.svcDispatch] at hr
    exact waits_leaves hm hc hr
  | join | sleep | other =>
    simp only [Kernel.svcDispatch] at hr
    exact returns_leaves hm hc hr

end Dispatch

theorem handleSvc_leaves {call : Svc} {h : Calls} (hS : S < 4294967296) (hb : Balanced S k)
    (hp : k.place = .user) (hf : 56 + h.dispatch.frame < 4294967296)
    (hr : k.handleSvc kernelPhysBase kernelTable call h = some k') :
    Leaves S (callLeaks k.called.mem.sched h call) k' := by
  obtain ⟨hsp, hmode⟩ := sp_svcEntry k.cpu
  have hsS := hb.sp
  rw [hp] at hsS
  dsimp only at hsS
  rw [hsS] at hsp
  exact svcDispatch_leaves hS hmode hsp hf hr

theorem run_pickNext (h : Havoc) (s : Sched) (q : ℕ) :
    ((cCall c h s q).run [.cmp (.r 0) 0]).sp = c.sp ∧
      Psr.mode ((cCall c h s q).run [.cmp (.r 0) 0]).cpsr = Psr.mode c.cpsr ∧
      (Psr.zero ((cCall c h s q).run [.cmp (.r 0) 0]).cpsr ↔ q = 0) := by
  refine ⟨by simp, by simp, ?_⟩
  rw [Cpu.run_cons, Cpu.run_nil, Cpu.exec, zero_cmpFlags, Cpu.get, cCall_r0]

/-- A yield goes through `context_switch`, or idles. -/
theorem yieldTo_leaves {h : Calls} {t : ℕ} (hS : S < 4294967296) (hm : Psr.mode c.cpsr = svcMode)
    (hs : c.sp .svc = S) (hf : h.switch.frame < 4294967296)
    (hr : Kernel.yieldTo kernelPhysBase c t h = some k') :
    Leaves S (if schedPickNext c.mem.sched = 0 then 0 else h.switch.frame) k' := by
  unfold Kernel.yieldTo at hr
  dsimp only at hr
  generalize schedPickNext c.mem.sched = q at *
  obtain ⟨hsp, hmode, hz⟩ := run_pickNext (c := c) h.dispatch c.mem.sched q
  rw [hm] at hmode
  have hspS : ((cCall c h.dispatch c.mem.sched q).run [.cmp (.r 0) 0]).sp .svc = S := by
    rw [hsp, hs]
  clear hsp
  generalize (cCall c h.dispatch c.mem.sched q).run [.cmp (.r 0) 0] = d at *
  by_cases hq : q = 0
  · rw [if_pos (hz.mpr hq), Option.some_inj] at hr
    have hp : k'.place = .svcIdle := by rw [← hr]
    have hk : Psr.mode k'.cpu.cpsr = svcMode ∧ k'.cpu.sp .svc = S := by
      rw [← hr]
      simp [hmode, hspS]
    rw [if_pos hq, Leaves, if_pos rfl]
    exact ⟨fun _ => hk.1, by rw [hp]; exact hk.2⟩
  · rw [if_neg fun h => hq (hz.mp h)] at hr
    rw [if_neg hq, ← Nat.zero_add h.switch.frame]
    refine leaves_switch hS 0 ?_ (by omega) hr
    rw [hspS]
    unfold wrap
    omega

/-- The end of `handle_svc` drops the trap frame. -/
theorem svcReturn_leaves {h : Calls} (hS : S < 4294967296) (hb : Balanced S k)
    (hp : k.place = .svcDone) (hf : h.switch.frame < 4294967296)
    (hr : k.svcReturn kernelPhysBase h = some k') : Leaves S (k.leaks ⟨.svcReturn, h⟩) k' := by
  have hmode := hb.mode (by rw [hp]; simp)
  have hsS := hb.sp
  rw [hp] at hsS
  dsimp only at hsS
  obtain ⟨hsp1, hm1⟩ := sp_svcCheck (L := L) k.cpu hmode
  rw [hsS] at hsp1
  rw [Kernel.leaks_svcReturn]
  rw [Kernel.svcReturn, ← Kernel.checked] at hr
  rw [← Kernel.checked] at hsp1 hm1
  generalize k.checked = c at *
  by_cases hz : Psr.zero c.cpsr
  · rw [if_pos hz] at hr ⊢
    obtain ⟨hp', hs'⟩ := enterUser_sp hr
    rw [Leaves, if_pos rfl]
    refine .user hp' ?_
    rw [hs', sp_popFrame c hm1, hsp1]
    unfold wrap
    omega
  · rw [if_neg hz] at hr ⊢
    have hsp2 := (sp_svcYield (L := L) c hm1).1
    have hm2 := (sp_svcYield (L := L) c hm1).2
    have hsp : (c.run (svcYield L)).sp .svc = S := by
      rw [hsp2, hsp1]
      unfold wrap
      omega
    generalize c.run (svcYield L) = d at *
    exact yieldTo_leaves hS hm2 hsp hf hr

theorem wake_leaves {h : Calls} (hS : S < 4294967296) (hb : Balanced S k)
    (hf : h.switch.frame < 4294967296) (hr : k.wake kernelPhysBase h = some k') :
    Leaves S (k.leaks ⟨.wake, h⟩) k' := by
  have hsS := hb.sp
  cases hp : k.place with
  | user | svcDone | waiting => simp [Kernel.wake, hp] at hr
  | svcIdle =>
    rw [hp] at hsS
    simp only [Kernel.wake, hp] at hr
    simp only [Kernel.leaks, hp]
    have hspin : (k.cpu.run (svcSpin L)).sp = k.cpu.sp := by simp [svcSpin]
    generalize k.cpu.run (svcSpin L) = c at *
    split at hr
    next =>
      obtain ⟨-, hwoken, -, -⟩ := run_svcWoken c
      have hl := leaves_switch hS 0
        (by rw [hwoken, hspin, hsS]; unfold wrap; omega) (by omega) hr
      rwa [Nat.zero_add] at hl
    next => exact absurd hr (by simp)
  | irqIdle =>
    rw [hp] at hsS
    simp only [Kernel.wake, hp] at hr
    simp only [Kernel.leaks, hp]
    have hcheck := (sp_irqCheck (L := L) k.cpu).1
    generalize k.cpu.run (irqCheck L) = c at *
    split at hr
    next =>
      rw [Leaves, if_pos rfl]
      obtain ⟨hp', hs'⟩ := restoreUser_sp hr
      exact .user hp' (by rw [hs', (run_cpsid c).2.1, hcheck, hsS])
    next => exact absurd hr (by simp)

theorem inputReturn_balanced {entry : Cpu (KMem L)} {v : Havoc} {r0 : ℕ} (hb : Balanced S k)
    (hp : k.place = .waiting entry) (hr : some (k.inputReturn entry v r0) = some k') :
    Balanced S k' := by
  have hsS := hb.sp
  have hm := hb.mode (by rw [hp]; simp)
  rw [hp] at hsS
  dsimp only at hsS
  rw [Option.some_inj] at hr
  have hp' : k'.place = .svcDone := by rw [← hr, Kernel.inputReturn]
  have hk : Psr.mode k'.cpu.cpsr = svcMode ∧ k'.cpu.sp .svc = entry.sp .svc := by
    rw [← hr]
    simp [Kernel.inputReturn, hm]
  exact ⟨fun _ => hk.1, by rw [hp']; exact hk.2.trans hsS⟩

/-- One step from a balanced state. -/
theorem next_leaves {l : Label} (hS : S < 4294967296) (hb : Balanced S k) (hz : l.Sized)
    (hr : k.next kernelPhysBase kernelTable l = some k') : Leaves S (k.leaks l) k' := by
  obtain ⟨e, h⟩ := l
  have hzero {k' : Kernel L} (hb : Balanced S k') : Leaves S 0 k' := by
    rw [Leaves, if_pos rfl]
    exact hb
  cases e with
  | run regs =>
    cases hk : k.place <;> simp only [Kernel.next, hk] at hr <;> try exact absurd hr (by simp)
    simp only [Kernel.leaks]
    refine hzero ?_
    rw [Kernel.userRun] at hr
    split at hr
    next =>
      obtain rfl := Option.some.inj hr
      have hsS := hb.sp
      rw [hk] at hsS
      exact .user hk (by simpa using hsS)
    next => exact absurd hr (by simp)
  | irq now =>
    have hirq : k.handleIrq kernelPhysBase now h = some k' := by
      cases hk : k.place <;> simp only [Kernel.next, hk] at hr <;>
        first | exact hr | exact absurd hr (by simp)
    simp only [Kernel.leaks]
    exact hzero (handleIrq_balanced hb hirq)
  | svc call =>
    cases hk : k.place with
    | user =>
      simp only [Kernel.next, hk] at hr
      exact handleSvc_leaves hS hb hk hz.1 hr
    | waiting | svcDone | svcIdle | irqIdle => simp [Kernel.next, hk] at hr
  | input r0 =>
    cases hk : k.place with
    | waiting entry =>
      simp only [Kernel.next, hk] at hr
      simp only [Kernel.leaks]
      exact hzero (inputReturn_balanced hb hk hr)
    | user | svcDone | svcIdle | irqIdle => simp [Kernel.next, hk] at hr
  | svcReturn =>
    cases hk : k.place with
    | svcDone =>
      simp only [Kernel.next, hk] at hr
      exact svcReturn_leaves hS hb hk hz.2 hr
    | user | waiting | svcIdle | irqIdle => simp [Kernel.next, hk] at hr
  | wake => exact wake_leaves hS hb hz.2 hr

end Steps

namespace Kernel
variable (kernelPhysBase kernelTable : ℕ)

/-- A step whose calls hold frames of a possible size. -/
def Step (k : Kernel L) (l : Label) (k' : Kernel L) : Prop :=
  l.Sized ∧ k.next kernelPhysBase kernelTable l = some k'

/-- User code runs with the SVC stack pointer `S`, if it runs. -/
def StackKept (S : ℕ) (k : Kernel L) : Prop := k.place = .user → k.cpu.sp .svc = S

/-- The step leaves nothing on the SVC stack: no exit hands over to another process, no exec
replaces its caller, and `context_switch` holds no stack where `handle_svc` calls it. -/
def LeaksNothing (k : Kernel L) (l : Label) : Prop := k.leaks l = 0

instance (k : Kernel L) (l : Label) : Decidable (k.LeaksNothing l) :=
  inferInstanceAs (Decidable (_ = 0))

instance (l : Label) : Decidable l.Sized := inferInstanceAs (Decidable (_ ∧ _))

end Kernel

section Runs
variable {kernelPhysBase kernelTable S : ℕ} {k k' : Kernel L} {l : Label}

theorem leaks_lt (hz : l.Sized) : k.leaks l < 4294967296 := by
  obtain ⟨h1, h2⟩ := hz
  unfold Kernel.leaks callLeaks
  split
  · split
    · exact h1
    · dsimp only
      split <;> omega
    · omega
  · split_ifs <;> omega
  · exact h2
  · omega

theorem step_balanced (hS : S < 4294967296) (hb : Balanced S k)
    (hs : k.Step kernelPhysBase kernelTable l k') (hk : k'.StackKept S) : Balanced S k' := by
  have hl := next_leaves hS hb hs.1 hs.2
  unfold Leaves at hl
  split at hl
  next => exact hl
  next => exact .user hl.1 (hk hl.1)

theorem step_stackKept (hS : S < 4294967296) (hb : Balanced S k)
    (hs : k.Step kernelPhysBase kernelTable l k') : k'.StackKept S ↔ k.LeaksNothing l := by
  have hl := next_leaves hS hb hs.1 hs.2
  have hlt := leaks_lt (k := k) hs.1
  unfold Leaves at hl
  unfold Kernel.LeaksNothing
  split at hl
  next h0 =>
    refine ⟨fun _ => h0, fun _ hp => ?_⟩
    have := hl.sp
    rwa [hp] at this
  next h0 =>
    refine ⟨fun hk => ?_, fun h => absurd h h0⟩
    have hsp := hl.2.symm.trans (hk hl.1)
    unfold wrap at hsp
    omega

/-- In every run from boot user code always runs with the SVC stack pointer it was first entered
with, exactly when no step of the run leaves anything on the stack. -/
theorem run_stackKept_iff (hb : k.Boot kernelPhysBase) (hS : k.cpu.sp .svc = S)
    (hw : S < 4294967296) {ls : List Label} :
    Run (Along (Kernel.StackKept S) (Kernel.Step kernelPhysBase kernelTable)) k ls k' ↔
      Run (Meeting Kernel.LeaksNothing (Kernel.Step kernelPhysBase kernelTable)) k ls k' := by
  obtain ⟨-, -, -, -, -, -, hp, -, -⟩ := hb
  refine along_iff_meeting (Kernel.Step kernelPhysBase kernelTable) Kernel.LeaksNothing
    (I := fun k => Kernel.StackKept S k → Balanced S k) (fun s l t hi hk hs ht => ?_)
    (fun s l t hi hk hs => ?_) (fun _ => .user hp hS) (fun _ => hS)
  · exact step_balanced hw (hi hk) hs ht
  · exact step_stackKept hw (hi hk) hs

theorem Kernel.run_of_execute {P : Kernel L → Label → Prop} [∀ k l, Decidable (P k l)]
    {ls : List Label} (h : execute (fun k l => decide (P k l ∧ l.Sized))
      (Kernel.next kernelPhysBase kernelTable) k ls = some k') :
    Run (Meeting P (Kernel.Step kernelPhysBase kernelTable)) k ls k' :=
  Run.of_execute (fun _ _ _ hok hn =>
    ⟨(of_decide_eq_true hok).1, (of_decide_eq_true hok).2, hn⟩) h

/-- A first process that forks and exits. -/
def exitRun : List Label :=
  [⟨.svc (.fork (some (0xC0108000, 0xC0108400))), zeroing 0⟩, ⟨.svcReturn, zeroing 0⟩,
    ⟨.svc .exit, zeroing 0xC0108000⟩]

theorem sleepersRun_stackKept : ∃ k, Run (Along (Kernel.StackKept svcStackTop)
    (Kernel.Step 0x40200000 0xC0008000)) started.kernel (sleepersRun 0xC0104000) k := by
  have hsome : (execute (fun k l => decide (k.LeaksNothing l ∧ l.Sized))
      (Kernel.next 0x40200000 0xC0008000) started.kernel (sleepersRun 0xC0104000)).isSome := by
    decide +kernel
  obtain ⟨k, hk⟩ := Option.isSome_iff_exists.mp hsome
  exact ⟨k, (run_stackKept_iff started_boot.1 rfl (by decide)).mpr (Kernel.run_of_execute hk)⟩

/-- The first exit already leaves the trap frame of the process that is gone. -/
theorem exit_grows_stack : ¬ ∀ (L : Symbols) kernelPhysBase kernelTable (k k' : Kernel L) ls,
    k.Boot kernelPhysBase → Run (Kernel.Step kernelPhysBase kernelTable) k ls k' →
    k'.place = .user → k'.cpu.sp .svc = k.cpu.sp .svc := by
  intro h
  have hbad : ((execute (fun _ l => decide (True ∧ l.Sized)) (Kernel.next 0x40200000 0xC0008000)
      started.kernel exitRun).any fun k => decide (k.view.user.isSome ∧
        k.cpu.sp .svc = svcStackTop - 56)) = true := by decide +kernel
  obtain ⟨k, hk, hu⟩ := (Option.any_eq_true _ _).mp hbad
  obtain ⟨hv, hsp⟩ := of_decide_eq_true hu
  have hp : k.place = .user := by
    unfold Kernel.view at hv
    split at hv
    next hp => exact hp
    next => exact absurd hv (by simp)
  have hrun : Run (Kernel.Step 0x40200000 0xC0008000) started.kernel exitRun k :=
    (Kernel.run_of_execute (P := fun _ _ => True) hk).mono fun _ _ _ h => h.2
  have hbad := h _ _ _ _ _ _ started_boot.1 hrun hp
  exact absurd (hsp.symm.trans hbad) (by decide)

end Runs

end Leg
