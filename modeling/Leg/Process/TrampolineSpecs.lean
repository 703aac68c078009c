import Leg.Process.Trampolines
import Mathlib.Data.Fintype.Basic
import Mathlib.Tactic.FinCases

/-! What each block of the trampolines does, by symbolic execution: the user context goes
to the struct of `current_proc` word by word, and comes back from one. -/
namespace Leg
open Arm KMem

variable {L : Symbols}

section Stack

/-- Room for `n` bytes below the SVC stack pointer. -/
def HasRoom (L : Symbols) (n sp : ℕ) : Prop := L.stackLow + n ≤ sp ∧ sp ≤ svcStackTop

end Stack

section Save

theorem land_mode (w : ℕ) : w &&& 0x1F = Psr.mode w := Nat.and_two_pow_sub_one_eq_mod w 5

/-- What `sub lr, lr, #4` makes of the return address of an IRQ. -/
def irqReturn (pc : ℕ) : ℕ := wrap (wrap (pc + 4) + 4294967292)

theorem irqReturn_of_lt {pc : ℕ} (h : pc < 4294967296) : irqReturn pc = pc := by
  unfold irqReturn wrap
  omega

theorem run_irqEntry (c : Cpu (KMem L)) (hsp : c.sp .irq = irqStackTop) :
    c.takeIrq.run irqEntry = { c with
      spsr := Function.update c.spsr .irq c.cpsr
      lr := Function.update c.lr .irq (irqReturn c.pc)
      cpsr := Psr.setFlags (Psr.setMode (Psr.maskIrq c.cpsr) irqMode)
        (cmpFlags (Psr.mode c.cpsr) usrMode)
      mem := { c.mem with words := Function.update c.mem.words (irqStackTop - 4) (c.r 0) } } := by
  have ha : wrap (wrap (irqStackTop + 4294967292)) = irqStackTop - 4 := by decide
  have hb : wrap (wrap (irqStackTop + 4294967292) + 4) = irqStackTop := by decide
  have hstack : L.stackLow ≤ irqStackTop - 4 ∧ irqStackTop - 4 < stackBottom :=
    ⟨le_trans L.stackLow_le (by decide), by decide⟩
  simp [irqEntry, Cpu.takeIrq, hsp, loadList_succ, storeList, ha, hb, irqReturn, land_mode,
    store_stack _ _ hstack, load_stack _ hstack]

theorem run_irqLoadProc (c : Cpu (KMem L)) (hc : Psr.bank c.cpsr = .irq) :
    c.run (irqLoadProc L) = { c with
      sp := Function.update c.sp .irq c.mem.sched.currentProc
      cpsr := Psr.setFlags c.cpsr (cmpFlags c.mem.sched.currentProc 0) } := by
  have ha : wrap (L.currentProc) = L.currentProc :=
    wrap_of_lt (lt_of_lt_of_le L.below.1 (le_trans L.stackLow_le (by decide)))
  simp [irqLoadProc, hc, ha]

/-- The context `.Lirq_…` saves, as the processor holds it in IRQ mode. -/
def irqRegs (c : Cpu (KMem L)) : CpuCtx where
  r := c.r
  sp := c.sp .usr
  lr := c.lr .usr
  pc := c.lr .irq
  cpsr := c.spsr .irq
  fpscr := c.fpscr
  vfp := c.vfp

theorem words_eq {w : ℕ → ℕ} {c : CpuCtx} (hr : ∀ i : Fin 13, w i = c.r i)
    (hs : w 13 = c.sp ∧ w 14 = c.lr ∧ w 15 = c.pc ∧ w 16 = c.cpsr ∧ w 17 = c.fpscr)
    (hv : ∀ i : Fin 64, w (18 + i) = c.vfp i) : ∀ i < 82, w i = c.word i := by
  intro i hi
  obtain ⟨h13, h14, h15, h16, h17⟩ := hs
  have he : CpuCtx.ofWords w = c := by
    unfold CpuCtx.ofWords
    simp only [hr, h13, h14, h15, h16, h17, hv]
  rw [← he, CpuCtx.word_ofWords hi]

theorem vfp_word {c : Cpu (KMem L)} {w : ℕ → ℕ} (i : Fin 64) :
    putList (putList w 18 (c.vfpWords 0 16)) 50 (c.vfpWords 16 16) (18 + i) = c.vfp i := by
  have hi := i.isLt
  simp only [putList, Cpu.vfpWords, List.length_map, List.length_range]
  by_cases h : i.val < 32
  · rw [if_neg (by omega), if_pos (by omega), List.getD_eq_getElem _ _ (by simp; omega)]
    simp
  · rw [if_pos (by omega), List.getD_eq_getElem _ _ (by simp; omega)]
    simp only [List.getElem_map, List.getElem_range]
    rw [dif_pos (by omega)]
    exact congrArg c.vfp (Fin.ext (by simp only; omega))

theorem run_irqSave (c : Cpu (KMem L)) {p : ℕ} (hc : Psr.bank c.cpsr = .irq)
    (hsp : c.sp .irq = p) (hp : L.Placed p) :
    (c.run irqSave).mem = c.mem.withCtx p (irqRegs c).word := by
  simp [irqSave, hc, r0ToR12, hsp, ctxAddr hp]
  conv_lhs => rw [← withCtx_self c.mem p]
  rw [storeList_withCtx _ hp (k := 0) (ctxBase hp) (by simp),
    store_withCtx _ hp (k := 13) _ rfl (by decide), store_withCtx _ hp (k := 14) _ rfl (by decide),
    store_withCtx _ hp (k := 15) _ rfl (by decide), store_withCtx _ hp (k := 16) _ rfl (by decide),
    store_withCtx _ hp (k := 17) _ rfl (by decide),
    storeList_withCtx _ hp (k := 18) rfl (by simp [Cpu.vfpWords]),
    storeList_withCtx _ hp (k := 50) (ctxHalf hp) (by simp [Cpu.vfpWords])]
  refine withCtx_congr _ _ (words_eq (fun i => ?_) ?_ fun i => ?_)
  · fin_cases i <;> rfl
  · exact ⟨rfl, rfl, rfl, rfl, rfl⟩
  · exact vfp_word i

theorem run_irqSave_frame (c : Cpu (KMem L)) (hc : Psr.bank c.cpsr = .irq) :
    (c.run irqSave).sp = Function.update c.sp .irq irqStackTop ∧
      Psr.mode (c.run irqSave).cpsr = svcMode := by
  simp [irqSave, hc, r0ToR12]

end Save

section Restore

theorem setList_r0ToR12 (c : Cpu (KMem L)) (m : KMem L) (a : ℕ) :
    c.setList r0ToR12 (loadList m a 13) = { c with r := fun i => load m (wrap (a + 4 * i)) } := by
  have h : loadList m a 13 =
      (List.finRange 13).map fun i : Fin 13 => load m (wrap (a + 4 * i.val)) := rfl
  rw [h]
  generalize (fun i : Fin 13 => load m (wrap (a + 4 * i.val))) = f
  simp only [r0ToR12, List.finRange_succ, List.finRange_zero, List.map_nil, List.map_cons,
    Cpu.setList, Cpu.set]
  congr 1
  funext i
  fin_cases i <;> rfl

theorem vfp_loads (m : KMem L) {p : ℕ} (hp : L.Placed p) (f : Fin 64 → ℕ) (i : Fin 64) :
    (if 2 * 16 ≤ i.val ∧ i.val < 2 * (16 + 16) then
      load m (wrap (p + 16 + 4 * 50 + 4 * (i.val - 2 * 16)))
    else if 2 * 0 ≤ i.val ∧ i.val < 2 * (0 + 16) then
      load m (wrap (p + 16 + 72 + 4 * (i.val - 2 * 0)))
    else f i) = (m.sched.proc p).ctx.word (18 + i) := by
  have hi := i.isLt
  have hp' := hp
  unfold Symbols.Placed at hp'
  by_cases h : i.val < 32
  · rw [if_neg (by omega), if_pos (by omega), wrap_of_lt (by omega),
      load_ctx _ hp (k := 18 + i) (by omega) (by omega)]
  · rw [if_pos (by omega), wrap_of_lt (by omega),
      load_ctx _ hp (k := 18 + i) (by omega) (by omega)]

theorem run_restoreCtx (c : Cpu (KMem L)) {p : ℕ} (hc : Psr.bank c.cpsr = .svc)
    (hp : L.Placed p) (h1 : c.r 1 = wrap (p + 16)) :
    userRegs (c.run restoreCtx).exceptionReturn = (c.mem.sched.proc p).ctx := by
  have hlen : r0ToR12.length = 13 := rfl
  simp only [restoreCtx, Cpu.run_cons, Cpu.run_nil, Cpu.exec, hlen, setList_r0ToR12]
  simp [hc, h1, ctxAddr hp, userRegs, Cpu.exceptionReturn]
  rw [← CpuCtx.ofWords_word (c.mem.sched.proc p).ctx, CpuCtx.ofWords]
  simp only [CpuCtx.mk.injEq]
  refine ⟨funext fun i => ?_, load_ctx _ hp (k := 13) rfl (by decide),
    load_ctx _ hp (k := 14) rfl (by decide), load_ctx _ hp (k := 15) rfl (by decide),
    load_ctx _ hp (k := 16) rfl (by decide), load_ctx _ hp (k := 17) rfl (by decide),
    funext fun i => ?_⟩
  · have hi := i.isLt
    rw [ctxAddr hp (by omega)]
    exact load_ctx _ hp rfl (by omega)
  · rw [ctxHalf hp]
    exact vfp_loads c.mem hp c.vfp i

theorem run_restoreCtx_frame (c : Cpu (KMem L)) (hc : Psr.bank c.cpsr = .svc) :
    (c.run restoreCtx).mem = c.mem ∧ (c.run restoreCtx).sp .irq = c.sp .irq ∧
      (c.run restoreCtx).sp .svc = c.sp .svc := by
  simp [restoreCtx, hc, r0ToR12, loadList_succ]

theorem load_pgd (m : KMem L) {p : ℕ} (hp : L.Placed p) :
    load m (wrap (p + 4)) = (m.sched.proc p).pgd := by
  have hp' := hp
  unfold Symbols.Placed at hp'
  rw [wrap_of_lt (by omega)]
  exact load_struct m hp (k := 1) (by decide)

theorem load_suspended (m : KMem L) {p : ℕ} (hp : L.Placed p) :
    load m (wrap (p + 344)) = (m.sched.proc p).suspended := by
  have hp' := hp
  unfold Symbols.Placed at hp'
  rw [wrap_of_lt (by omega)]
  exact load_struct m hp (k := 86) (by decide)

theorem wrap_currentProc (L : Symbols) : wrap L.currentProc = L.currentProc :=
  wrap_of_lt (lt_of_lt_of_le L.below.1 (le_trans L.stackLow_le (by decide)))

/-- In user code with the context of the process at `p`, entered from the table `s`. -/
structure Entered (k : Kernel L) (s : Sched) (p ttbr0 : ℕ) : Prop where
  place : k.place = .user
  regs : userRegs k.cpu = (s.proc p).ctx
  ttbr0 : k.ttbr0 = ttbr0
  sched : k.cpu.mem.sched = contextSwitch s p

variable (kernelPhysBase : ℕ)

theorem enterUser_restored {c : Cpu (KMem L)} {p t : ℕ} (hc : Psr.bank c.cpsr = .svc)
    (hp : L.Placed p) (h1 : c.r 1 = wrap (p + 16)) (hcur : c.mem.sched.currentProc = p)
    (hm : Psr.mode (c.mem.sched.proc p).ctx.cpsr = usrMode) :
    ∃ k, Kernel.enterUser (c.run restoreCtx) t = some k ∧ Entered k c.mem.sched p t ∧
      k.cpu.sp .irq = c.sp .irq := by
  have hregs := run_restoreCtx c hc hp h1
  obtain ⟨hmem, hirq, -⟩ := run_restoreCtx_frame c hc
  rw [← hmem] at hcur hm hregs ⊢
  generalize c.run restoreCtx = d at *
  have hmode : Psr.mode d.exceptionReturn.cpsr = usrMode := by
    rw [← hm, ← hregs]
    rfl
  exact ⟨_, if_pos hmode, ⟨rfl, hregs, rfl, by rw [contextSwitch, ← hcur]; rfl⟩, hirq⟩

/-- `context_switch_asm` enters `next`, provided the call left `r2` alone. -/
theorem contextSwitchAsm_entered {c : Cpu (KMem L)} {h : Havoc} {p : ℕ}
    (hc : Psr.bank c.cpsr = .svc) (h0 : c.r 0 = p) (hp : L.Placed p) (h2 : h.clobber.r 2 = p)
    (hm : Psr.mode (c.mem.sched.proc p).ctx.cpsr = usrMode) :
    ∃ k, Kernel.contextSwitchAsm kernelPhysBase c h = some k ∧
      Entered k c.mem.sched p (virtToPhys kernelPhysBase (c.mem.sched.proc p).pgd) ∧
      k.cpu.sp .irq = c.sp .irq := by
  have hmem : (c.run (switchEntry L)).mem =
      { c.mem with sched := contextSwitch c.mem.sched p } := by
    simp [switchEntry, wrap_currentProc, h0, contextSwitch]
  have hr0 : (c.run (switchEntry L)).r 0 = (c.mem.sched.proc p).pgd := by
    simp [switchEntry, wrap_currentProc, h0, load_pgd _ hp]
  have hbank : Psr.bank (c.run (switchEntry L)).cpsr = .svc := by
    simp [switchEntry, hc]
  have hsp : (c.run (switchEntry L)).sp = c.sp := by simp [switchEntry]
  simp only [Kernel.contextSwitchAsm, hr0]
  generalize c.run (switchEntry L) = d at *
  -- the callee hands `r2` back, so `r1` points to the context of `next`
  have hctx : Psr.bank ((voidCall d h d.mem.sched).run switchCtx).cpsr = .svc ∧
      ((voidCall d h d.mem.sched).run switchCtx).r 1 = wrap (p + 16) ∧
      ((voidCall d h d.mem.sched).run switchCtx).mem.sched = d.mem.sched ∧
      ((voidCall d h d.mem.sched).run switchCtx).sp = d.sp := by
    simp [switchCtx, voidCall, cCall, Cpu.afterCall, calleeMem, scratch, hbank, h2]
  obtain ⟨hb, h1, hs, hsp'⟩ := hctx
  have hsched : d.mem.sched = contextSwitch c.mem.sched p := by rw [hmem]
  rw [Cpu.run_append]
  obtain ⟨k, hk, he, hirq⟩ := enterUser_restored (t := virtToPhys kernelPhysBase
    (c.mem.sched.proc p).pgd) hb hp h1 (by rw [hs, hsched]; rfl) (by rw [hs, hsched]; exact hm)
  refine ⟨k, hk, ⟨he.place, ?_, he.ttbr0, ?_⟩, by rw [hirq, hsp', hsp]⟩
  · rw [he.regs, hs, hsched]
    rfl
  · rw [he.sched, hs, hsched]
    rfl

/-- `.Lirq_restore_user` enters the current process, whatever the call clobbers. -/
theorem restoreUser_entered {c : Cpu (KMem L)} {h : Havoc} {p : ℕ}
    (hc : Psr.bank c.cpsr = .svc) (hcur : c.mem.sched.currentProc = p) (hp : L.Placed p)
    (hm : Psr.mode (c.mem.sched.proc p).ctx.cpsr = usrMode) :
    ∃ k, Kernel.restoreUser kernelPhysBase c h = some k ∧
      Entered k c.mem.sched p (virtToPhys kernelPhysBase (c.mem.sched.proc p).pgd) ∧
      k.cpu.sp .irq = c.sp .irq := by
  have hpre : (c.run (irqRestoreUser L)).mem = c.mem ∧
      (c.run (irqRestoreUser L)).r 0 = (c.mem.sched.proc p).pgd ∧
      (c.run (irqRestoreUser L)).cpsr = c.cpsr ∧ (c.run (irqRestoreUser L)).sp = c.sp := by
    simp [irqRestoreUser, wrap_currentProc, hcur, load_pgd _ hp]
  obtain ⟨hmem, hr0, hcpsr, hsp⟩ := hpre
  simp only [Kernel.restoreUser, hr0]
  generalize c.run (irqRestoreUser L) = d at *
  have hctx : Psr.bank ((voidCall d h d.mem.sched).run (irqReloadProc L)).cpsr = .svc ∧
      ((voidCall d h d.mem.sched).run (irqReloadProc L)).r 1 = wrap (p + 16) ∧
      ((voidCall d h d.mem.sched).run (irqReloadProc L)).mem.sched = c.mem.sched ∧
      ((voidCall d h d.mem.sched).run (irqReloadProc L)).sp = d.sp := by
    simp [irqReloadProc, voidCall, cCall, Cpu.afterCall, calleeMem, hcpsr, hc, wrap_currentProc,
      hmem, hcur]
  obtain ⟨hb, h1, hs, hsp'⟩ := hctx
  rw [Cpu.run_append]
  obtain ⟨k, hk, he, hirq⟩ := enterUser_restored (t := virtToPhys kernelPhysBase
    (c.mem.sched.proc p).pgd) hb hp h1 (by rw [hs, hcur]) (by rw [hs]; exact hm)
  rw [hs] at he
  exact ⟨k, hk, he, by rw [hirq, hsp', hsp]⟩

end Restore

section Irq
variable (kernelPhysBase : ℕ)

/-- In SVC mode with IRQs enabled, in one of the idle loops. -/
structure Idling (k : Kernel L) (s : Sched) : Prop where
  sched : k.cpu.mem.sched = s
  mode : Psr.mode k.cpu.cpsr = svcMode
  irqStack : k.cpu.sp .irq = irqStackTop

theorem idling_cpsie {c : Cpu (KMem L)} {t : ℕ} {i : Place L} {s : Sched} (hs : c.mem.sched = s)
    (hm : Psr.mode c.cpsr = svcMode) (hsp : c.sp .irq = irqStackTop) :
    Idling ⟨c.run [.cpsie], t, i⟩ s :=
  ⟨by simpa using hs, by simpa using hm, by simpa using hsp⟩

theorem bank_svc {w : ℕ} (h : Psr.mode w = svcMode) : Psr.bank w = .svc := Psr.bank_of_mode h

theorem run_irqCheck (c : Cpu (KMem L)) {p : ℕ} (hcur : c.mem.sched.currentProc = p)
    (hp : L.Placed p) : c.run (irqCheck L) = { c with
      r := Function.update (Function.update c.r 0 p) 1 (c.mem.sched.proc p).suspended
      cpsr := Psr.setFlags c.cpsr (cmpFlags (c.mem.sched.proc p).suspended 0) } := by
  simp [irqCheck, wrap_currentProc, hcur, load_suspended _ hp]

/-- The struct the IRQ path saves to, and what the dispatch then finds. -/
def irqSaved (k : Kernel L) : Sched :=
  k.cpu.mem.sched.write k.cpu.mem.sched.currentProc fun q => { q with ctx := userRegs k.cpu }

theorem irq_saved {k : Kernel L} (hm : Psr.mode k.cpu.cpsr = usrMode)
    (hpc : k.cpu.pc < 4294967296) (hsp : k.cpu.sp .irq = irqStackTop)
    (hcur : k.cpu.mem.sched.currentProc ≠ 0) (hp : L.Placed k.cpu.mem.sched.currentProc) :
    Psr.zero (k.cpu.takeIrq.run irqEntry).cpsr ∧
      ¬ Psr.zero ((k.cpu.takeIrq.run irqEntry).run (irqLoadProc L)).cpsr ∧
      (((k.cpu.takeIrq.run irqEntry).run (irqLoadProc L)).run irqSave).mem.sched = irqSaved k ∧
      (((k.cpu.takeIrq.run irqEntry).run (irqLoadProc L)).run irqSave).sp .irq = irqStackTop ∧
      Psr.mode (((k.cpu.takeIrq.run irqEntry).run (irqLoadProc L)).run irqSave).cpsr = svcMode := by
  have he := run_irqEntry k.cpu hsp
  have hz : Psr.zero (k.cpu.takeIrq.run irqEntry).cpsr := by
    rw [he]
    exact (zero_cmpFlags ..).mpr hm
  have hb : Psr.bank (k.cpu.takeIrq.run irqEntry).cpsr = .irq := by
    rw [he]
    simp
  have hl := run_irqLoadProc (k.cpu.takeIrq.run irqEntry) hb
  have hsched : (k.cpu.takeIrq.run irqEntry).mem.sched = k.cpu.mem.sched := by rw [he]
  have hz' : ¬ Psr.zero ((k.cpu.takeIrq.run irqEntry).run (irqLoadProc L)).cpsr := by
    rw [hl]
    exact fun hz => hcur (hsched ▸ (zero_cmpFlags ..).mp hz)
  have hb' : Psr.bank ((k.cpu.takeIrq.run irqEntry).run (irqLoadProc L)).cpsr = .irq := by
    rw [hl]
    simpa using hb
  have hregs : irqRegs ((k.cpu.takeIrq.run irqEntry).run (irqLoadProc L)) = userRegs k.cpu := by
    rw [hl, he]
    simp [irqRegs, userRegs, irqReturn_of_lt hpc]
  have hsp' : ((k.cpu.takeIrq.run irqEntry).run (irqLoadProc L)).sp .irq =
      k.cpu.mem.sched.currentProc := by
    rw [hl, hsched]
    simp
  have hsched' : ((k.cpu.takeIrq.run irqEntry).run (irqLoadProc L)).mem.sched =
      k.cpu.mem.sched := by rw [hl, hsched]
  obtain ⟨hsp2, hb2⟩ := run_irqSave_frame _ hb'
  refine ⟨hz, hz', ?_, by rw [hsp2, Function.update_self], hb2⟩
  rw [run_irqSave _ hb' hsp' hp, withCtx, hsched', CpuCtx.ofWords_word, hregs, irqSaved]

theorem irqFinish_spec {c : Cpu (KMem L)} {now : Option ℕ} {h : Calls} {t : ℕ} {s : Sched}
    (hm : Psr.mode c.cpsr = svcMode) (hsp : c.sp .irq = irqStackTop)
    (hs : irqDispatch c.mem.sched now = s) (hp : L.Placed s.currentProc)
    (hms : Psr.mode (s.proc s.currentProc).ctx.cpsr = usrMode) :
    ∃ k, Kernel.irqFinish kernelPhysBase c t now h = some k ∧ k.cpu.sp .irq = irqStackTop ∧
      if (s.proc s.currentProc).suspended ≠ 0 then
        k.place = .irqIdle ∧ Idling k s ∧ k.ttbr0 = t
      else Entered k s s.currentProc
        (virtToPhys kernelPhysBase (s.proc s.currentProc).pgd) := by
  have hchk := run_irqCheck (voidCall c h.dispatch s) (p := s.currentProc) (by simp) hp
  simp only [voidCall_sched] at hchk
  have hzero : Psr.zero ((voidCall c h.dispatch s).run (irqCheck L)).cpsr ↔
      (s.proc s.currentProc).suspended = 0 := by rw [hchk, zero_cmpFlags]
  have hmode : Psr.mode ((voidCall c h.dispatch s).run (irqCheck L)).cpsr = svcMode := by
    rw [hchk, Psr.mode_setFlags, voidCall_cpsr, Psr.mode_setFlags, hm]
  have hmem : ((voidCall c h.dispatch s).run (irqCheck L)).mem.sched = s := by
    rw [hchk, voidCall_sched]
  have hirq : ((voidCall c h.dispatch s).run (irqCheck L)).sp .irq = irqStackTop := by
    rw [hchk, voidCall_sp, hsp]
  clear hchk
  simp only [Kernel.irqFinish, hs]
  generalize (voidCall c h.dispatch s).run (irqCheck L) = e at *
  by_cases hsusp : (s.proc s.currentProc).suspended = 0
  · obtain ⟨k, hk, hent, hi⟩ := restoreUser_entered kernelPhysBase
      (h := h.table) (bank_svc hmode) (congrArg Sched.currentProc hmem) hp (by rw [hmem]; exact hms)
    rw [hmem] at hent
    refine ⟨k, by rw [if_pos (hzero.mpr hsusp), hk], hi.trans hirq, ?_⟩
    rw [if_neg (not_not.mpr hsusp)]
    exact hent
  · have hidle := idling_cpsie (t := t) (i := .irqIdle) hmem hmode hirq
    refine ⟨_, if_neg (fun hz => hsusp (hzero.mp hz)), hidle.irqStack, ?_⟩
    rw [if_pos hsusp]
    exact ⟨rfl, hidle, rfl⟩

theorem handleIrq_user {k : Kernel L} (now : Option ℕ) (h : Calls)
    (hm : Psr.mode k.cpu.cpsr = usrMode) (hpc : k.cpu.pc < 4294967296)
    (hsp : k.cpu.sp .irq = irqStackTop) (hcur : k.cpu.mem.sched.currentProc ≠ 0)
    (hp : L.Placed k.cpu.mem.sched.currentProc) {s : Sched} (hs : irqDispatch (irqSaved k) now = s)
    (hps : L.Placed s.currentProc)
    (hms : Psr.mode (s.proc s.currentProc).ctx.cpsr = usrMode) :
    ∃ k', k.handleIrq kernelPhysBase now h = some k' ∧ k'.cpu.sp .irq = irqStackTop ∧
      if (s.proc s.currentProc).suspended ≠ 0 then
        k'.place = .irqIdle ∧ Idling k' s ∧ k'.ttbr0 = k.ttbr0
      else Entered k' s s.currentProc
        (virtToPhys kernelPhysBase (s.proc s.currentProc).pgd) := by
  obtain ⟨hz, hz', hsaved, hirq, hmode⟩ := irq_saved hm hpc hsp hcur hp
  simp only [Kernel.handleIrq, if_pos hz, if_neg hz']
  exact irqFinish_spec kernelPhysBase hmode hirq (by rw [hsaved, hs]) hps hms

/-- Words pushed on a stack are read back, and nothing else changes. -/
theorem storeList_stack (m : KMem L) {a : ℕ} (ws : List ℕ) (hl : L.stackLow ≤ a)
    (hh : a + 4 * ws.length ≤ stackBottom) :
    (storeList m a ws).sched = m.sched ∧
      (∀ b, b < a ∨ a + 4 * ws.length ≤ b → (storeList m a ws).words b = m.words b) ∧
      loadList (storeList m a ws) a ws.length = ws := by
  have hb : stackBottom ≤ 4294967296 := by decide
  refine ⟨?_, fun b hb => ?_, ?_⟩
  · refine storeList_keeps (P := fun n : KMem L => n.sched = m.sched)
      (S := fun b => L.stackLow ≤ b ∧ b < stackBottom) (fun n b w hs hn => ?_) (fun i hi => ?_) rfl
    · rw [store_stack _ _ hs]
      exact hn
    · rw [wrap_of_lt (by omega)]
      omega
  · refine storeList_keeps (P := fun n : KMem L => n.words b = m.words b)
      (S := fun c => (L.stackLow ≤ c ∧ c < stackBottom) ∧ b ≠ c) (fun n c w hs hn => ?_)
      (fun i hi => ?_) rfl
    · rw [store_stack _ _ hs.1]
      exact (Function.update_of_ne hs.2 ..).trans hn
    · rw [wrap_of_lt (by omega)]
      omega
  · exact cells.loadList_storeList (fun _ _ => trivial) (by omega)

theorem loadList_callee (c : Cpu (KMem L)) (h : Havoc) (s : Sched) {a n : ℕ}
    (hl : L.stackLow ≤ a) (hh : a + 4 * n ≤ stackBottom) (hlive : ∀ i < n, Live c (a + 4 * i)) :
    loadList (calleeMem c h s) a n = loadList c.mem a n := by
  have hb : stackBottom ≤ 4294967296 := by decide
  refine loadList_congr (by omega) fun i hi => ?_
  rw [load_stack _ (by omega), load_stack _ (by omega)]
  exact if_pos (hlive i hi)

/-- What an IRQ leaves of the kernel code it interrupts. -/
structure Undisturbed (c d : Cpu (KMem L)) : Prop where
  r : d.r = c.r
  sp : d.sp = c.sp
  lr : ∀ b, b ≠ .irq → d.lr b = c.lr b
  spsr : ∀ b, b ≠ .irq → d.spsr b = c.spsr b
  pc : d.pc = irqReturn c.pc
  cpsr : d.cpsr = c.cpsr
  fpscr : d.fpscr = c.fpscr
  vfp : d.vfp = c.vfp
  words : ∀ a, (c.sp .svc ≤ a ∧ a < svcStackTop) ∨ a = L.svcSavedLr →
    d.mem.words a = c.mem.words a

theorem run_pushVolatile (c : Cpu (KMem L)) (hc : Psr.bank c.cpsr = .irq)
    (hsp : c.sp .irq = irqStackTop) : c.run [.push volatileRegs] = { c with
      sp := Function.update c.sp .irq (irqStackTop - 24)
      mem := storeList c.mem (irqStackTop - 24) (volatileRegs.map c.get) } := by
  have ha : wrap (irqStackTop + 4294967272) = irqStackTop - 24 := by decide
  simp [volatileRegs, hc, hsp, ha]

theorem run_popVolatile (c d : Cpu (KMem L)) (hc : Psr.bank c.cpsr = .irq)
    (hd : Psr.bank d.cpsr = .irq) (hsp : d.sp = Function.update c.sp .irq (irqStackTop - 24))
    (hirq : c.sp .irq = irqStackTop) (hr : ∀ i, i ≠ 0 → ¬ scratch i → d.r i = c.r i)
    (hlr : ∀ b, b ≠ .irq → d.lr b = c.lr b)
    (hm : loadList d.mem (irqStackTop - 24) volatileRegs.length = volatileRegs.map c.get) :
    d.run [.pop volatileRegs] = { d with r := c.r, sp := c.sp, lr := c.lr } := by
  have hb : wrap (irqStackTop - 24 + 24) = irqStackTop := by decide
  have hd0 : d.get .sp = irqStackTop - 24 := by simp [hd, hsp]
  rw [Cpu.run_cons, Cpu.run_nil, Cpu.exec, hd0, hm]
  simp [volatileRegs, hc, hd, hsp, hb]
  refine ⟨funext fun i => ?_, ?_, funext fun b => ?_⟩
  · fin_cases i <;> simp [hr, scratch]
  · exact hirq.symm
  · cases b <;> simp [hlr]

/-- The call of `irq_dispatch` between the push and the pop: all registers come back. -/
theorem irqNotUser_eq (c : Cpu (KMem L)) (now : Option ℕ) (h : Havoc)
    (hc : Psr.bank c.cpsr = .irq) (hsp : c.sp .irq = irqStackTop) :
    ∃ m : KMem L, Kernel.irqNotUser c now h =
        ({ c with
          cpsr := Psr.setFlags c.cpsr h.clobber.nzcv
          mem := m } : Cpu (KMem L)).exceptionReturn ∧
      m.sched = irqDispatch c.mem.sched now ∧
      ∀ a, (c.sp .svc ≤ a ∧ a < svcStackTop) ∨ a = L.svcSavedLr → m.words a = c.mem.words a := by
  have hlow : L.stackLow ≤ irqStackTop - 24 := le_trans L.stackLow_le (by decide)
  have hlen : (volatileRegs.map c.get).length = 6 := by simp [volatileRegs]
  have htop : irqStackTop ≤ stackBottom := by decide
  obtain ⟨hsched, hwords, hlist⟩ := storeList_stack c.mem (a := irqStackTop - 24)
    (volatileRegs.map c.get) hlow (by rw [hlen]; decide)
  have hpush := run_pushVolatile c hc hsp
  have hlive (i : ℕ) (hi : i < 6) :
      Live (c.run [.push volatileRegs]) (irqStackTop - 24 + 4 * i) := by
    rw [hpush]
    refine .inr (.inl ⟨?_, ?_⟩)
    · simp
    · have : 24 ≤ irqStackTop := by decide
      omega
  obtain ⟨g, hg⟩ : ∃ g, g = voidCall (c.run [.push volatileRegs]) h
    (irqDispatch (c.run [.push volatileRegs]).mem.sched now) := ⟨_, rfl⟩
  have hmem : loadList g.mem (irqStackTop - 24) volatileRegs.length = volatileRegs.map c.get := by
    rw [hg]
    refine (loadList_callee _ h _ hlow (by decide) hlive).trans ?_
    rw [hpush]
    rw [hlen] at hlist
    exact hlist
  have hpop := run_popVolatile c g hc (by rw [hg, voidCall_cpsr, hpush, Psr.bank_setFlags, hc])
    (by rw [hg, voidCall_sp, hpush]) hsp
    (fun i h0 hs => by rw [hg, voidCall_r_of_not _ _ _ h0 hs, hpush])
    (fun b hb => by rw [hg, voidCall_lr_of_ne, hpush]; rw [hpush]; exact hc ▸ hb) hmem
  refine ⟨g.mem, ?_, ?_, fun a ha => ?_⟩
  · rw [Kernel.irqNotUser, ← hg, hpop, hg, hpush]
    rfl
  · rw [hg, voidCall_sched, hpush, hsched]
  · have hl : Live (c.run [.push volatileRegs]) a := by
      rw [hpush]
      exact ha.elim (fun h => .inl (by simpa using h)) fun h => .inr (.inr h)
    rw [hg, voidCall_mem, calleeMem_live _ _ _ hl, hpush]
    refine hwords a (.inl ?_)
    have hsvc : svcStackTop ≤ irqStackTop - 24 := by decide
    have := L.below.2
    have := L.stackLow_le
    omega

theorem irqNotUser_spec (c : Cpu (KMem L)) (now : Option ℕ) (h : Havoc)
    (hsp : c.sp .irq = irqStackTop) :
    Undisturbed c (Kernel.irqNotUser (c.takeIrq.run irqEntry) now h) ∧
      (Kernel.irqNotUser (c.takeIrq.run irqEntry) now h).mem.sched =
        irqDispatch c.mem.sched now := by
  have he := run_irqEntry c hsp
  obtain ⟨m, hm, hsched, hwords⟩ := irqNotUser_eq (c.takeIrq.run irqEntry) now h
    (by rw [he]; simp) (by rw [he]; exact hsp)
  have hbank : Psr.bank (Psr.setFlags (c.takeIrq.run irqEntry).cpsr h.clobber.nzcv) = .irq := by
    rw [he]
    simp
  rw [hm]
  refine ⟨?_, ?_⟩
  · rw [he] at hbank hwords ⊢
    refine ⟨rfl, rfl, fun b hb => ?_, fun b hb => ?_, ?_, ?_, rfl, rfl, fun a ha => ?_⟩
    · exact Function.update_of_ne hb ..
    · exact Function.update_of_ne hb ..
    · simp [Cpu.exceptionReturn, hbank]
    · simp [Cpu.exceptionReturn]
    · refine (hwords a ha).trans (Function.update_of_ne ?_ ..)
      have hsvc : svcStackTop ≤ irqStackTop - 4 := by decide
      have := L.below.2
      have := L.stackLow_le
      omega
  · rw [he] at hsched
    exact hsched

theorem handleIrq_kernel {k : Kernel L} (now : Option ℕ) (h : Calls)
    (hm : Psr.mode k.cpu.cpsr = svcMode) (hsp : k.cpu.sp .irq = irqStackTop) :
    ∃ c, k.handleIrq kernelPhysBase now h = some { k with cpu := c } ∧ Undisturbed k.cpu c ∧
      c.mem.sched = irqDispatch k.cpu.mem.sched now := by
  have hz : ¬ Psr.zero (k.cpu.takeIrq.run irqEntry).cpsr := by
    rw [run_irqEntry k.cpu hsp, zero_cmpFlags, hm]
    decide
  obtain ⟨hu, hs⟩ := irqNotUser_spec k.cpu now h.dispatch hsp
  exact ⟨_, by rw [Kernel.handleIrq, if_neg hz], hu, hs⟩

end Irq

section Svc

/-- The registers a trap frame at `a` holds, in the order of `svcFrame`. -/
def frameWords (regs : CpuCtx) : List ℕ :=
  [regs.r 1, regs.r 2, regs.r 3, regs.r 4, regs.r 5, regs.r 6, regs.r 7, regs.r 8, regs.r 9,
    regs.r 10, regs.r 11, regs.r 12, regs.pc]

/-- The user registers, `r0` apart, are in the frame at `a`, the banked and the VFP registers. -/
structure Framed (c : Cpu (KMem L)) (a : ℕ) (regs : CpuCtx) : Prop where
  frame : loadList c.mem a 13 = frameWords regs
  sp : c.sp .usr = regs.sp
  lr : c.lr .usr = regs.lr
  cpsr : c.spsr .svc = regs.cpsr
  fpscr : c.fpscr = regs.fpscr
  vfp : c.vfp = regs.vfp
  irqStack : c.sp .irq = irqStackTop
  room : L.stackLow + 8 ≤ a ∧ a + 52 ≤ svcStackTop

theorem run_svcEntry {c : Cpu (KMem L)} (hsp : c.sp .irq = irqStackTop)
    (hroom : HasRoom L 60 (c.sp .svc)) :
    Framed (c.takeSvc.run (svcEntry L)) (c.sp .svc - 52) (userRegs c) ∧
      (c.takeSvc.run (svcEntry L)).r 0 = c.r 0 ∧
      (c.takeSvc.run (svcEntry L)).sp .svc = c.sp .svc - 56 ∧
      Psr.mode (c.takeSvc.run (svcEntry L)).cpsr = svcMode ∧
      (c.takeSvc.run (svcEntry L)).mem.sched = c.mem.sched ∧
      load (c.takeSvc.run (svcEntry L)).mem L.svcSavedLr = c.pc := by
  obtain ⟨hlow, htop⟩ := hroom
  have hmax : svcStackTop < stackBottom := by decide
  have hbot : stackBottom < 4294967296 := by decide
  generalize hS : c.sp .svc = S at *
  have e1 : wrap (S + 4294967244) = S - 52 := by unfold wrap; omega
  have e2 : wrap (S - 52 + 4294967292) = S - 56 := by unfold wrap; omega
  have e3 : wrap (S - 56) = S - 56 := by unfold wrap; omega
  have e4 : wrap (S - 56 + 4) = S - 52 := by unfold wrap; omega
  have e5 : wrap L.svcSavedLr = L.svcSavedLr := by
    have := L.below.2
    have := L.stackLow_le
    exact wrap_of_lt (by omega)
  have hw : L.stackLow ≤ S - 56 ∧ S - 56 < stackBottom := by omega
  have hne : S - 56 ≠ L.svcSavedLr := by
    have := L.below.2
    omega
  simp [svcEntry, svcFrame, Cpu.takeSvc, hS, e1, e2, e3, e4, e5, loadList_one, storeList_one]
  obtain ⟨hsched, hwords, hlist⟩ := storeList_stack c.mem (a := S - 52)
    (frameWords (userRegs c)) (by omega)
    (by simp only [frameWords, List.length_cons, List.length_nil]; omega)
  have hm : storeList c.mem (S - 52) [c.r 1, c.r 2, c.r 3, c.r 4, c.r 5, c.r 6, c.r 7, c.r 8, c.r 9,
    c.r 10, c.r 11, c.r 12, c.pc] = storeList c.mem (S - 52) (frameWords (userRegs c)) := rfl
  rw [hm]
  generalize storeList c.mem (S - 52) (frameWords (userRegs c)) = m at *
  have hbelow := L.below.2
  refine ⟨⟨?_, rfl, rfl, rfl, rfl, rfl, hsp, by omega⟩, ?_, ?_, ?_⟩
  · refine (loadList_congr (by omega) fun i hi => ?_).trans hlist
    rw [cells.other _ _ trivial (by omega), cells.other _ _ trivial (by omega),
      cells.other _ _ trivial (by omega)]
  · rw [cells.other _ _ trivial hne, cells.same _ _ trivial]
  · rw [store_stack _ _ hw, store_svcSavedLr, store_stack _ _ hw]
    exact hsched
  · rw [cells.other _ _ trivial hne.symm, cells.same _ _ trivial]

theorem Framed.words {c : Cpu (KMem L)} {a : ℕ} {regs : CpuCtx} (h : Framed c a regs) :
    loadList c.mem a 12 = [regs.r 1, regs.r 2, regs.r 3, regs.r 4, regs.r 5, regs.r 6, regs.r 7,
      regs.r 8, regs.r 9, regs.r 10, regs.r 11, regs.r 12] ∧ load c.mem (a + 48) = regs.pc := by
  have hf := h.frame
  have hroom := h.room
  have hb : svcStackTop ≤ 4294967296 := by decide
  have h13 : loadList c.mem a 13 = loadList c.mem a 12 ++ [load c.mem (wrap (a + 48))] := by
    simp only [loadList, List.range_succ, List.map_append, List.map_cons, List.map_nil]
  rw [h13, wrap_of_lt (by omega)] at hf
  have hs : frameWords regs = [regs.r 1, regs.r 2, regs.r 3, regs.r 4, regs.r 5, regs.r 6, regs.r 7,
      regs.r 8, regs.r 9, regs.r 10, regs.r 11, regs.r 12] ++ [regs.pc] := rfl
  rw [hs] at hf
  obtain ⟨hl, hr⟩ := List.append_inj' hf rfl
  exact ⟨hl, List.singleton_inj.mp hr⟩

/-- The result and the frame make up the registers user code goes on with. -/
def resumed (regs : CpuCtx) (r0 : ℕ) : CpuCtx := { regs with r := Function.update regs.r 0 r0 }

theorem run_popFrame {c : Cpu (KMem L)} {a : ℕ} {regs : CpuCtx} (h : Framed c a regs)
    (hm : Psr.mode c.cpsr = svcMode) (hsp : c.sp .svc = a) :
    userRegs (c.run [.pop svcFrame]).exceptionReturn = resumed regs (c.r 0) ∧
      (c.run [.pop svcFrame]).mem = c.mem ∧
      (c.run [.pop svcFrame]).sp = Function.update c.sp .svc (wrap (a + 52)) := by
  have hget : c.get .sp = a := by simp [bank_svc hm, hsp]
  have hlen : svcFrame.length = 13 := rfl
  simp only [Cpu.run_cons, Cpu.run_nil, Cpu.exec, hget, hlen, h.frame]
  simp [svcFrame, frameWords, bank_svc hm, userRegs, Cpu.exceptionReturn, resumed, h.sp, h.lr,
    h.cpsr, h.fpscr, h.vfp]
  funext i
  fin_cases i <;> rfl

/-- The test of the flag leaves the frame, the result and the process table. -/
theorem run_svcCheck {c : Cpu (KMem L)} {a p : ℕ} {regs : CpuCtx} (h : Framed c a regs)
    (hm : Psr.mode c.cpsr = svcMode) (hsp : c.sp .svc = a - 4)
    (hcur : c.mem.sched.currentProc = p) (hp : L.Placed p) :
    Framed (c.run (svcCheck L)) a regs ∧ (c.run (svcCheck L)).r 0 = c.r 0 ∧
      (c.run (svcCheck L)).sp .svc = a ∧ Psr.mode (c.run (svcCheck L)).cpsr = svcMode ∧
      (c.run (svcCheck L)).mem.sched = c.mem.sched ∧
      (Psr.zero (c.run (svcCheck L)).cpsr ↔ (c.mem.sched.proc p).suspended = 0) := by
  obtain ⟨hlow, htop⟩ := h.room
  have hbot : svcStackTop < 4294967296 := by decide
  have e1 : wrap (a - 4 + 4) = a := by unfold wrap; omega
  have e2 : wrap (a + 4294967288) = a - 8 := by unfold wrap; omega
  have e3 : wrap (a - 8 + 8) = a := by unfold wrap; omega
  have e4 : wrap L.currentProc = L.currentProc := wrap_currentProc L
  have hmax : svcStackTop ≤ stackBottom := by decide
  obtain ⟨hsched, hwords, hlist⟩ := storeList_stack c.mem (a := a - 8) [c.r 0, c.r 1]
    (by omega) (by simp only [List.length_cons, List.length_nil]; omega)
  have hf : loadList (storeList c.mem (a - 8) [c.r 0, c.r 1]) a 13 = frameWords regs := by
    refine (loadList_congr (by omega) fun i hi => ?_).trans h.frame
    rw [load_stack _ (by omega), load_stack _ (by omega)]
    exact hwords _ (.inr (by simp only [List.length_cons, List.length_nil]; omega))
  simp only [List.length_cons, List.length_nil, Nat.zero_add] at hlist
  simp [svcCheck, bank_svc hm, hsp, e1, e2, e3, e4, hlist, hsched, hcur, load_suspended _ hp, hm,
    zero_cmpFlags]
  exact ⟨hf, h.sp, h.lr, h.cpsr, h.fpscr, h.vfp, h.irqStack, h.room⟩

theorem run_yieldCtx {c : Cpu (KMem L)} {a p : ℕ} {regs : CpuCtx} (h : Framed c a regs)
    (hm : Psr.mode c.cpsr = svcMode) (hsp : c.sp .svc = a)
    (hcur : c.mem.sched.currentProc = p) :
    Framed (c.run (yieldCtx L)) a regs ∧ (c.run (yieldCtx L)).r 0 = c.r 0 ∧
      (c.run (yieldCtx L)).r 2 = wrap (p + 16) ∧ (c.run (yieldCtx L)).sp .svc = a ∧
      Psr.mode (c.run (yieldCtx L)).cpsr = svcMode ∧
      (c.run (yieldCtx L)).mem.sched = c.mem.sched := by
  obtain ⟨hlow, htop⟩ := h.room
  have hbot : svcStackTop < 4294967296 := by decide
  have hmax : svcStackTop ≤ stackBottom := by decide
  have e1 : wrap (a + 4294967292) = a - 4 := by unfold wrap; omega
  have e2 : wrap (a - 4 + 4) = a := by unfold wrap; omega
  have e3 : wrap (a - 4) = a - 4 := by unfold wrap; omega
  have hw : L.stackLow ≤ a - 4 ∧ a - 4 < stackBottom := by omega
  have hf : loadList (store c.mem (a - 4) (c.r 0)) a 13 = frameWords regs := by
    refine (loadList_congr (by omega) fun i hi => ?_).trans h.frame
    rw [cells.other _ _ trivial (by omega)]
  have hsched : (store c.mem (a - 4) (c.r 0)).sched = c.mem.sched := by rw [store_stack _ _ hw]
  have hsame : load (store c.mem (a - 4) (c.r 0)) (a - 4) = c.r 0 := cells.same _ _ trivial
  simp [yieldCtx, bank_svc hm, hsp, e1, e2, e3, storeList_one, loadList_one, wrap_currentProc,
    hsched, hcur, hsame, hm]
  exact ⟨hf, h.sp, h.lr, h.cpsr, h.fpscr, h.vfp, h.irqStack, h.room⟩

theorem run_yieldBanked {c : Cpu (KMem L)} {a p : ℕ} {regs : CpuCtx} (h : Framed c a regs)
    (h2 : c.r 2 = wrap (p + 16)) (hp : L.Placed p) :
    ∃ w, (c.run yieldBanked).mem = c.mem.withCtx p w ∧ w 0 = c.r 0 ∧
      (w 13 = regs.sp ∧ w 14 = regs.lr ∧ w 16 = regs.cpsr ∧ w 17 = regs.fpscr) ∧
      (∀ i : Fin 64, w (18 + i) = regs.vfp i) ∧
      (c.run yieldBanked).r 2 = wrap (p + 16) ∧ (c.run yieldBanked).sp = c.sp ∧
      Psr.mode (c.run yieldBanked).cpsr = svcMode := by
  have hbase : wrap (wrap (p + 16)) = p + 16 + 4 * 0 := by
    have hp' := hp
    unfold Symbols.Placed at hp'
    rw [wrap_of_lt (n := p + 16) (by omega), wrap_of_lt (by omega)]
  refine ⟨putList (putList (Function.update (Function.update (Function.update (Function.update
    (Function.update (c.mem.sched.proc p).ctx.word 0 (c.r 0)) 13 (c.sp .usr)) 14 (c.lr .usr))
    16 (c.spsr .svc)) 17 c.fpscr) 18 (c.vfpWords 0 16)) 50 (c.vfpWords 16 16), ?_, rfl,
    ⟨h.sp, h.lr, h.cpsr, h.fpscr⟩, fun i => (vfp_word i).trans (congrFun h.vfp i), ?_⟩
  · simp [yieldBanked, h2, ctxAddr hp]
    conv_lhs => rw [← withCtx_self c.mem p]
    rw [store_withCtx _ hp (k := 0) _ hbase (by decide),
      store_withCtx _ hp (k := 13) _ rfl (by decide),
      store_withCtx _ hp (k := 14) _ rfl (by decide),
      store_withCtx _ hp (k := 16) _ rfl (by decide),
      store_withCtx _ hp (k := 17) _ rfl (by decide),
      storeList_withCtx _ hp (k := 18) rfl (by simp [Cpu.vfpWords]),
      storeList_withCtx _ hp (k := 50) (ctxHalf hp) (by simp [Cpu.vfpWords])]
    rfl
  · simp [yieldBanked, h2]

theorem load_withCtx_stack (m : KMem L) (p : ℕ) (w : ℕ → ℕ) {a : ℕ}
    (h : L.stackLow ≤ a ∧ a < stackBottom) : load (m.withCtx p w) a = load m a := by
  rw [load_stack _ h, load_stack _ h]
  rfl

theorem run_yieldFrame {c : Cpu (KMem L)} {m : KMem L} {a p : ℕ} {w : ℕ → ℕ} {regs : CpuCtx}
    (hm : Psr.mode c.cpsr = svcMode) (hsp : c.sp .svc = a) (h2 : c.r 2 = wrap (p + 16))
    (hp : L.Placed p) (hmem : c.mem = m.withCtx p w)
    (hroom : L.stackLow + 8 ≤ a ∧ a + 52 ≤ svcStackTop)
    (hlist : loadList m a 12 =
      [regs.r 1, regs.r 2, regs.r 3, regs.r 4, regs.r 5, regs.r 6, regs.r 7,
      regs.r 8, regs.r 9, regs.r 10, regs.r 11, regs.r 12]) (hpc : load m (a + 48) = regs.pc) :
    (c.run yieldFrame).mem = m.withCtx p (Function.update (putList w 1
        [regs.r 1, regs.r 2, regs.r 3, regs.r 4, regs.r 5, regs.r 6, regs.r 7, regs.r 8, regs.r 9,
          regs.r 10, regs.r 11, regs.r 12]) 15 regs.pc) ∧
      (c.run yieldFrame).sp = Function.update c.sp .svc (a + 52) ∧
      Psr.mode (c.run yieldFrame).cpsr = svcMode := by
  have hbot : svcStackTop < 4294967296 := by decide
  have hmax : svcStackTop ≤ stackBottom := by decide
  have e1 : wrap (a + 48) = a + 48 := wrap_of_lt (by omega)
  have e2 : wrap (a + 52) = a + 52 := wrap_of_lt (by omega)
  have hl : loadList (m.withCtx p w) a 12 = [regs.r 1, regs.r 2, regs.r 3, regs.r 4, regs.r 5,
      regs.r 6, regs.r 7, regs.r 8, regs.r 9, regs.r 10, regs.r 11, regs.r 12] :=
    (loadList_congr (by omega) fun i hi => load_withCtx_stack _ _ _ (by omega)).trans hlist
  have hget : c.get .sp = a := by simp [bank_svc hm, hsp]
  have hlen : shifted.length = 12 := rfl
  have a4 : wrap (p + 16 + 4 + 56) = p + 16 + 4 * 15 := by
    have hp' := hp
    unfold Symbols.Placed at hp'
    exact wrap_of_lt (by omega)
  have hstm : storeList (m.withCtx p w) (p + 16 + 4) [regs.r 1, regs.r 2, regs.r 3, regs.r 4,
      regs.r 5, regs.r 6, regs.r 7, regs.r 8, regs.r 9, regs.r 10, regs.r 11, regs.r 12] =
      m.withCtx p (putList w 1 [regs.r 1, regs.r 2, regs.r 3, regs.r 4, regs.r 5, regs.r 6,
        regs.r 7, regs.r 8, regs.r 9, regs.r 10, regs.r 11, regs.r 12]) :=
    storeList_withCtx _ hp (k := 1) rfl (by simp)
  simp only [yieldFrame, Cpu.run_cons, Cpu.run_nil, Cpu.exec, hget, hlen, hmem, hl]
  simp [shifted, bank_svc hm, hsp, h2, hmem, ctxAddr hp, hstm, e1, e2, a4, hm]
  rw [load_withCtx_stack _ _ _ (by omega), hpc]
  exact store_withCtx _ hp _ rfl (by decide)

/-- The yield path saves the result and the frame, and drops the frame. -/
theorem run_svcYield {c : Cpu (KMem L)} {a p : ℕ} {regs : CpuCtx} (h : Framed c a regs)
    (hm : Psr.mode c.cpsr = svcMode) (hsp : c.sp .svc = a)
    (hcur : c.mem.sched.currentProc = p) (hp : L.Placed p) :
    (c.run (svcYield L)).mem.sched =
        c.mem.sched.write p (fun q => { q with ctx := resumed regs (c.r 0) }) ∧
      (c.run (svcYield L)).sp .irq = irqStackTop ∧ (c.run (svcYield L)).sp .svc = a + 52 ∧
      Psr.mode (c.run (svcYield L)).cpsr = svcMode := by
  obtain ⟨hf, h0, h2, hsp1, hm1, hs1⟩ := run_yieldCtx h hm hsp hcur
  rw [svcYield, Cpu.run_append, Cpu.run_append]
  generalize c.run (yieldCtx L) = d at *
  obtain ⟨w, hmem, hw0, hw, hv, h2', hsp2, hm2⟩ := run_yieldBanked hf h2 hp
  have hroom := hf.room
  have hwords := hf.words
  have hirq : (d.run yieldBanked).sp .irq = irqStackTop := by rw [hsp2, hf.irqStack]
  generalize d.run yieldBanked = e at *
  obtain ⟨hmem', hsp3, hm3⟩ := run_yieldFrame hm2 (by rw [hsp2, hsp1]) h2' hp hmem hroom hwords.1
    hwords.2
  refine ⟨?_, by rw [hsp3, Function.update_of_ne (by decide), hirq],
    by rw [hsp3, Function.update_self], hm3⟩
  have hctx := withCtx_congr (c := resumed regs (c.r 0)) d.mem p (w := Function.update (putList w 1
    [regs.r 1, regs.r 2, regs.r 3, regs.r 4, regs.r 5, regs.r 6, regs.r 7, regs.r 8, regs.r 9,
      regs.r 10, regs.r 11, regs.r 12]) 15 regs.pc) (words_eq (fun i => ?_) ?_ fun i => ?_)
  · rw [hmem', hctx, withCtx, CpuCtx.ofWords_word, hs1]
  · fin_cases i
    · exact hw0.trans h0
    all_goals rfl
  · exact ⟨hw.1, hw.2.1, rfl, hw.2.2.1, hw.2.2.2⟩
  · rw [Function.update_of_ne (by omega), putList, if_neg (by simp; omega), hv]
    rfl

end Svc

end Leg
