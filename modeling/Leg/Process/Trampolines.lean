import Leg.Process.KernelMemory

/-! `handle_irq` and `handle_svc` of `trampolines.s` and `context_switch_asm`, block by
block, and the transitions they make together with the C functions they call. Of a C
function the process table changes as its model says; its registers, its stack and the
rest of the memory it writes are whatever the step's label says, within the procedure
call standard. -/
namespace Leg
open Arm

section Code
variable (L : Symbols)

def r0ToR12 : List Reg :=
  [.r 0, .r 1, .r 2, .r 3, .r 4, .r 5, .r 6, .r 7, .r 8, .r 9, .r 10, .r 11, .r 12]

/-- `{r1-r12, lr}`. -/
def svcFrame : List Reg :=
  [.r 1, .r 2, .r 3, .r 4, .r 5, .r 6, .r 7, .r 8, .r 9, .r 10, .r 11, .r 12, .lr]

/-- `{r0, r3-r12, lr}`: the registers that carry `r1` to `r12` from the stack to `ctx`. -/
def shifted : List Reg :=
  [.r 0, .r 3, .r 4, .r 5, .r 6, .r 7, .r 8, .r 9, .r 10, .r 11, .r 12, .lr]

/-- `{r0-r3, r12, lr}`. -/
def volatileRegs : List Reg := [.r 0, .r 1, .r 2, .r 3, .r 12, .lr]

/-- `handle_irq`, up to `bne .Lirq_not_user`. -/
def irqEntry : List Instr :=
  [.sub .lr .lr 4, .push [.r 0], .mrsSpsr (.r 0), .and (.r 0) (.r 0) 0x1F, .cmp (.r 0) 0x10,
    .pop [.r 0]]

def irqLoadProc : List Instr := [.ldrLit .sp L.currentProc, .ldr .sp .sp 0, .cmp .sp 0]

/-- The user context goes to `current_proc->ctx`. -/
def irqSave : List Instr :=
  [.add .sp .sp 16, .stm .sp r0ToR12, .mov (.r 0) .sp, .ldrLit .sp irqStackTop,
    .cps sysMode, .str .sp (.r 0) 52, .str .lr (.r 0) 56, .cps irqMode,
    .str .lr (.r 0) 60, .mrsSpsr (.r 1), .str (.r 1) (.r 0) 64,
    .vmrs (.r 1), .str (.r 1) (.r 0) 68, .add (.r 1) (.r 0) 72,
    .vstm (.r 1) true 0 16, .vstm (.r 1) false 16 16, .cps svcMode]

/-- The test of `current_proc->suspended`, also at `.Lirq_check`. -/
def irqCheck : List Instr :=
  [.ldrLit (.r 0) L.currentProc, .ldr (.r 0) (.r 0) 0, .ldr (.r 1) (.r 0) 344, .cmp (.r 1) 0]

/-- From the context at `r1` to user registers, in `.Lirq_restore_user` as in
`context_switch_asm`. -/
def restoreCtx : List Instr :=
  [.ldr (.r 2) (.r 1) 68, .vmsr (.r 2), .add (.r 2) (.r 1) 72, .vldm (.r 2) true 0 16,
    .vldm (.r 2) false 16 16, .ldr (.r 2) (.r 1) 64, .msrSpsr (.r 2), .ldr .lr (.r 1) 60,
    .cps sysMode, .ldr .sp (.r 1) 52, .ldr .lr (.r 1) 56, .cps svcMode, .ldm (.r 1) r0ToR12]

/-- `.Lirq_restore_user`, up to the call of `mmu_set_proc_table`. -/
def irqRestoreUser : List Instr :=
  [.ldrLit (.r 1) L.currentProc, .ldr (.r 1) (.r 1) 0, .ldr (.r 0) (.r 1) 4]

/-- `.Lirq_restore_user`, after that call: `current_proc` is loaded again. -/
def irqReloadProc : List Instr :=
  [.ldrLit (.r 1) L.currentProc, .ldr (.r 1) (.r 1) 0, .add (.r 1) (.r 1) 16]

/-- `handle_svc`, up to the call of `svc_dispatch`. -/
def svcEntry : List Instr :=
  [.push svcFrame, .ldrBelow (.r 12) .lr 4, .and (.r 12) (.r 12) 0xFFFFFF, .push [.r 0],
    .ldrLit (.r 0) L.svcSavedLr, .str .lr (.r 0) 0, .pop [.r 0], .push [.r 12]]

/-- After `svc_dispatch`: the test of `current_proc->suspended`. -/
def svcCheck : List Instr :=
  [.add .sp .sp 4, .push [.r 0, .r 1], .ldrLit (.r 0) L.currentProc, .ldr (.r 0) (.r 0) 0,
    .ldr (.r 1) (.r 0) 344, .cmp (.r 1) 0, .pop [.r 0, .r 1]]

/-- `.Lsvc_yield`: `r2` becomes the context of `current_proc`. -/
def yieldCtx : List Instr :=
  [.push [.r 0], .ldrLit (.r 0) L.currentProc, .ldr (.r 0) (.r 0) 0, .add (.r 2) (.r 0) 16,
    .pop [.r 0]]

/-- The result, the banked registers and the VFP registers go to the context. -/
def yieldBanked : List Instr :=
  [.str (.r 0) (.r 2) 0,
    .cps sysMode, .str .sp (.r 2) 52, .str .lr (.r 2) 56, .cps svcMode,
    .mrsSpsr (.r 0), .str (.r 0) (.r 2) 64, .vmrs (.r 0), .str (.r 0) (.r 2) 68,
    .add (.r 0) (.r 2) 72, .vstm (.r 0) true 0 16, .vstm (.r 0) false 16 16]

/-- The frame on the stack goes to the context, and is dropped. -/
def yieldFrame : List Instr :=
  [.ldm .sp shifted, .add (.r 2) (.r 2) 4, .stm (.r 2) shifted,
    .ldr (.r 0) .sp 48, .str (.r 0) (.r 2) 56, .add .sp .sp 52]

/-- `.Lsvc_yield`, up to the call of `sched_pick_next`. -/
def svcYield : List Instr := yieldCtx L ++ (yieldBanked ++ yieldFrame)

/-- One round of `.Lsvc_spin` after its `wfi`. -/
def svcSpin : List Instr :=
  [.ldrLit (.r 0) L.currentProc, .ldr (.r 0) (.r 0) 0, .ldr (.r 0) (.r 0) 344, .cmp (.r 0) 0]

def svcWoken : List Instr := [.cpsid, .ldrLit (.r 0) L.currentProc, .ldr (.r 0) (.r 0) 0]

/-- `context_switch_asm`, up to the call of `mmu_set_proc_table`: `r2` keeps `next`. -/
def switchEntry : List Instr :=
  [.cpsid, .ldrLit (.r 1) L.currentProc, .str (.r 0) (.r 1) 0, .mov (.r 2) (.r 0),
    .ldr (.r 0) (.r 2) 4]

def switchCtx : List Instr := [.add (.r 1) (.r 2) 16]

end Code

/-- What one C function leaves behind where its model does not say. -/
structure Havoc where
  clobber : Clobber
  words : ℕ → ℕ
  /-- The stack it holds while it does not return. -/
  frame : ℕ

section Calls
variable {L : Symbols}

/-- The memory a callee must not write: the stacks in use, and the global only `handle_svc`
writes. -/
def Live (c : Cpu (KMem L)) (a : ℕ) : Prop :=
  (c.sp .svc ≤ a ∧ a < svcStackTop) ∨ (c.sp .irq ≤ a ∧ a < irqStackTop) ∨ a = L.svcSavedLr

instance (c : Cpu (KMem L)) (a : ℕ) : Decidable (Live c a) := inferInstanceAs (Decidable (_ ∨ _))

/-- The memory after a callee that leaves the process table as `s`. -/
def calleeMem (c : Cpu (KMem L)) (h : Havoc) (s : Sched) : KMem L where
  sched := s
  words a := if Live c a then c.mem.words a else h.words a

/-- A call that returns `r0`. -/
def cCall (c : Cpu (KMem L)) (h : Havoc) (s : Sched) (r0 : ℕ) : Cpu (KMem L) :=
  c.afterCall h.clobber r0 (calleeMem c h s)

/-- A call of a function without a result. -/
def voidCall (c : Cpu (KMem L)) (h : Havoc) (s : Sched) : Cpu (KMem L) :=
  cCall c h s (h.clobber.r 0)

section CallFacts
variable (c : Cpu (KMem L)) (h : Havoc) (s : Sched) (r0 : ℕ)

@[simp] theorem cCall_r0 : (cCall c h s r0).r 0 = r0 := rfl

@[simp] theorem cCall_sched : (cCall c h s r0).mem.sched = s := rfl

@[simp] theorem cCall_sp : (cCall c h s r0).sp = c.sp := rfl

@[simp] theorem cCall_spsr : (cCall c h s r0).spsr = c.spsr := rfl

@[simp] theorem cCall_cpsr : (cCall c h s r0).cpsr = Psr.setFlags c.cpsr h.clobber.nzcv := rfl

@[simp] theorem voidCall_sched : (voidCall c h s).mem.sched = s := rfl

@[simp] theorem voidCall_sp : (voidCall c h s).sp = c.sp := rfl

@[simp] theorem voidCall_spsr : (voidCall c h s).spsr = c.spsr := rfl

@[simp] theorem voidCall_cpsr : (voidCall c h s).cpsr = Psr.setFlags c.cpsr h.clobber.nzcv := rfl

theorem voidCall_mem : (voidCall c h s).mem = calleeMem c h s := rfl

@[simp] theorem voidCall_r2 : (voidCall c h s).r 2 = h.clobber.r 2 := rfl

theorem voidCall_r_of_not {i : Fin 13} (h0 : i ≠ 0) (hs : ¬ scratch i) :
    (voidCall c h s).r i = c.r i := (if_neg h0).trans (if_neg hs)

theorem voidCall_lr_of_ne {b : Bank} (hb : b ≠ Psr.bank c.cpsr) :
    (voidCall c h s).lr b = c.lr b := Function.update_of_ne hb ..

theorem calleeMem_live {a : ℕ} (ha : Live c a) : (calleeMem c h s).words a = c.mem.words a :=
  if_pos ha

end CallFacts

/-- Inside a C function that holds `h.frame` bytes of the SVC stack. -/
def insideCall (c : Cpu (KMem L)) (h : Havoc) (s : Sched) : Cpu (KMem L) :=
  { c with
    r := h.clobber.r
    sp := Function.update c.sp .svc (wrap (c.sp .svc + (4294967296 - h.frame)))
    lr := Function.update c.lr .svc h.clobber.lr
    cpsr := Psr.setFlags c.cpsr h.clobber.nzcv
    mem := calleeMem c h s }

/-- The call of `context_switch_asm` with `next` from C. -/
def callSwitch (c : Cpu (KMem L)) (h : Havoc) (s : Sched) (next : ℕ) : Cpu (KMem L) :=
  (insideCall c h s).set (.r 0) next

/-- The user registers of the processor. -/
def userRegs (c : Cpu (KMem L)) : CpuCtx where
  r := c.r
  sp := c.sp .usr
  lr := c.lr .usr
  pc := c.pc
  cpsr := c.cpsr
  fpscr := c.fpscr
  vfp := c.vfp

end Calls

/-- Where the processor is between two steps. -/
inductive Place (L : Symbols) where
  | user
  /-- In a handler that waits for input and was called with these registers. -/
  | waiting (entry : Cpu (KMem L))
  /-- After `bl svc_dispatch`. -/
  | svcDone
  | svcIdle
  | irqIdle

structure Kernel (L : Symbols) where
  cpu : Cpu (KMem L)
  ttbr0 : ℕ
  place : Place L

/-- What the C functions called in one step leave behind. -/
structure Calls where
  /-- `svc_dispatch`, `irq_dispatch` or `sched_pick_next`. -/
  dispatch : Havoc
  /-- `context_switch`. -/
  switch : Havoc
  /-- `mmu_set_proc_table`. -/
  table : Havoc

structure Label where
  event : Event
  calls : Calls

/-- `process_exit` up to its call of `context_switch`: the table and `next`. -/
def exitSwitch (s : Sched) (pid code : ℕ) : Option (Sched × ℕ) :=
  let p := schedGet s pid
  if p = 0 then none
  else
    let s1 := schedWakeJoiners (schedRemove s pid).1 pid code
    if p = s.currentProc then
      let next := schedPickNext s1
      if next = 0 then none else some (s1, next)
    else none

namespace Kernel
variable {L : Symbols} (kernelPhysBase kernelTable : ℕ)

/-- `movs pc, lr` into user code. There is no state after a return to another mode. -/
def enterUser (c : Cpu (KMem L)) (ttbr0 : ℕ) : Option (Kernel L) :=
  let c := c.exceptionReturn
  if Psr.mode c.cpsr = usrMode then some ⟨c, ttbr0, .user⟩ else none

/-- `context_switch_asm`; `h` is for its call of `mmu_set_proc_table`. -/
def contextSwitchAsm (c : Cpu (KMem L)) (h : Havoc) : Option (Kernel L) :=
  let c := c.run (switchEntry L)
  let called := voidCall c h c.mem.sched
  enterUser (called.run (switchCtx ++ restoreCtx)) (virtToPhys kernelPhysBase (c.r 0))

/-- `.Lirq_restore_user`. -/
def restoreUser (c : Cpu (KMem L)) (h : Havoc) : Option (Kernel L) :=
  let c := c.run (irqRestoreUser L)
  let called := voidCall c h c.mem.sched
  enterUser (called.run (irqReloadProc L ++ restoreCtx)) (virtToPhys kernelPhysBase (c.r 0))

/-- `.Lirq_not_user`. -/
def irqNotUser (c : Cpu (KMem L)) (now : Option ℕ) (h : Havoc) : Cpu (KMem L) :=
  let c := c.run [.push volatileRegs]
  ((voidCall c h (irqDispatch c.mem.sched now)).run [.pop volatileRegs]).exceptionReturn

/-- The rest of `handle_irq` once the user context is saved. -/
def irqFinish (c : Cpu (KMem L)) (ttbr0 : ℕ) (now : Option ℕ) (h : Calls) :
    Option (Kernel L) :=
  let c := (voidCall c h.dispatch (irqDispatch c.mem.sched now)).run (irqCheck L)
  if Psr.zero c.cpsr then restoreUser kernelPhysBase c h.table
  else some ⟨c.run [.cpsie], ttbr0, .irqIdle⟩

def handleIrq (k : Kernel L) (now : Option ℕ) (h : Calls) : Option (Kernel L) :=
  let c := k.cpu.takeIrq.run irqEntry
  if Psr.zero c.cpsr then
    let c := c.run (irqLoadProc L)
    if Psr.zero c.cpsr then some { k with cpu := irqNotUser c now h.dispatch }
    else irqFinish kernelPhysBase (c.run irqSave) k.ttbr0 now h
  else some { k with cpu := irqNotUser c now h.dispatch }

/-- `svc_dispatch` returns `r0`, having left the table as `s`. -/
def svcReturns (c : Cpu (KMem L)) (ttbr0 : ℕ) (h : Havoc) (s : Sched) (r0 : ℕ) : Kernel L :=
  ⟨cCall c h s r0, ttbr0, .svcDone⟩

def processReplace (c : Cpu (KMem L)) (ttbr0 : ℕ) (h : Calls) (pid : ℕ) :
    Replace → Option (Kernel L)
  | .notLoaded => some (svcReturns c ttbr0 h.dispatch c.mem.sched 0)
  | .noStack =>
    if schedGet c.mem.sched pid = 0 then some (svcReturns c ttbr0 h.dispatch c.mem.sched 0)
    else some (svcReturns c (virtToPhys kernelPhysBase kernelTable) h.dispatch c.mem.sched 0)
  | .done pgd entry stackPt stackPages =>
    let s := c.mem.sched
    let p := schedGet s pid
    if p = 0 then some (svcReturns c ttbr0 h.dispatch s 0)
    else
      let replaced := s.write p (replaceImage pgd entry stackPt stackPages)
      if p = s.currentProc then
        contextSwitchAsm kernelPhysBase (callSwitch c h.dispatch replaced p) h.table
      else some (svcReturns c (virtToPhys kernelPhysBase kernelTable) h.dispatch replaced 0)

/-- `svc_dispatch`, called with the registers `c`. -/
def svcDispatch (c : Cpu (KMem L)) (ttbr0 : ℕ) (h : Calls) : Svc → Option (Kernel L)
  | .exit =>
    let s := c.mem.sched
    match exitSwitch s (s.proc s.currentProc).pid (c.r 0) with
    | some (s1, next) => contextSwitchAsm kernelPhysBase (callSwitch c h.dispatch s1 next) h.table
    | none => none
  | .fork alloc =>
    let forked := processFork c.mem.sched alloc (load c.mem L.svcSavedLr) (c.sp .usr) (c.spsr .svc)
    let child := forked.2
    if child = 0 then some (svcReturns c ttbr0 h.dispatch forked.1 u32Max)
    else some (svcReturns c ttbr0 h.dispatch forked.1 (forked.1.proc child).pid)
  | .join =>
    let joined := svcJoin c.mem.sched (c.r 0)
    some (svcReturns c ttbr0 h.dispatch joined.1 joined.2)
  | .exec outcome =>
    let s := c.mem.sched
    processReplace kernelPhysBase kernelTable c ttbr0 h (s.proc s.currentProc).pid outcome
  | .wait =>
    let inside := insideCall c h.dispatch c.mem.sched
    some ⟨inside.run [.cpsie], ttbr0, .waiting c⟩
  | .sleep now freq =>
    let slept := svcSleep c.mem.sched (c.r 0) now freq
    some (svcReturns c ttbr0 h.dispatch slept.1 slept.2)
  | .other r0 => some (svcReturns c ttbr0 h.dispatch c.mem.sched r0)

def handleSvc (k : Kernel L) (call : Svc) (h : Calls) : Option (Kernel L) :=
  svcDispatch kernelPhysBase kernelTable (k.cpu.takeSvc.run (svcEntry L)) k.ttbr0 h call

/-- The waiting handler called with the registers `entry` disables interrupts and returns. -/
def inputReturn (k : Kernel L) (entry : Cpu (KMem L)) (h : Havoc) (r0 : ℕ) : Kernel L :=
  let c := k.cpu.run [.cpsid]
  let called := cCall { c with r := entry.r, sp := Function.update c.sp .svc (entry.sp .svc) } h
    c.mem.sched r0
  ⟨called, k.ttbr0, .svcDone⟩

/-- The end of `.Lsvc_yield`, once the caller is saved. -/
def yieldTo (c : Cpu (KMem L)) (ttbr0 : ℕ) (h : Calls) : Option (Kernel L) :=
  let c := (cCall c h.dispatch c.mem.sched (schedPickNext c.mem.sched)).run [.cmp (.r 0) 0]
  if Psr.zero c.cpsr then some ⟨c.run [.cpsie], ttbr0, .svcIdle⟩
  else contextSwitchAsm kernelPhysBase (callSwitch c h.switch c.mem.sched (c.r 0)) h.table

/-- `handle_svc` after `svc_dispatch`. -/
def svcReturn (k : Kernel L) (h : Calls) : Option (Kernel L) :=
  let c := k.cpu.run (svcCheck L)
  if Psr.zero c.cpsr then enterUser (c.run [.pop svcFrame]) k.ttbr0
  else yieldTo kernelPhysBase (c.run (svcYield L)) k.ttbr0 h

/-- An idle loop sees the flag clear. -/
def wake (k : Kernel L) (h : Calls) : Option (Kernel L) :=
  match k.place with
  | .svcIdle =>
    let c := k.cpu.run (svcSpin L)
    if Psr.zero c.cpsr then
      let c := c.run (svcWoken L)
      contextSwitchAsm kernelPhysBase (callSwitch c h.switch c.mem.sched (c.r 0)) h.table
    else none
  | .irqIdle =>
    let c := k.cpu.run (irqCheck L)
    if Psr.zero c.cpsr then restoreUser kernelPhysBase (c.run [.cpsid]) h.table else none
  | _ => none

/-- User code runs: it leaves these registers, and writes user memory only. -/
def userRun (k : Kernel L) (regs : CpuCtx) (h : Havoc) : Option (Kernel L) :=
  if Psr.mode regs.cpsr = usrMode ∧ regs.pc < 4294967296 then some { k with cpu := { k.cpu with
    r := regs.r
    sp := Function.update k.cpu.sp .usr regs.sp
    lr := Function.update k.cpu.lr .usr regs.lr
    pc := regs.pc
    cpsr := regs.cpsr
    fpscr := regs.fpscr
    vfp := regs.vfp
    mem := { k.cpu.mem with
      words := fun a => if a < procUserVaTop then h.words a else k.cpu.mem.words a } } }
  else none

/-- One event, `none` where it cannot happen or the processor is lost. -/
def next (k : Kernel L) (l : Label) : Option (Kernel L) :=
  match l.event, k.place with
  | .run regs, .user => k.userRun regs (l.calls.dispatch)
  | .irq _, .svcDone => none
  | .irq now, _ => k.handleIrq kernelPhysBase now l.calls
  | .svc call, .user => k.handleSvc kernelPhysBase kernelTable call l.calls
  | .input r0, .waiting entry => some (k.inputReturn entry (l.calls.dispatch) r0)
  | .svcReturn, .svcDone => k.svcReturn kernelPhysBase l.calls
  | .wake, _ => k.wake kernelPhysBase l.calls
  | _, _ => none

end Kernel

end Leg
