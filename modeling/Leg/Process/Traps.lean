import Leg.Memory.Layout
import Leg.Process.SchedulerTable

/-! The trap paths of `trampolines.s` and `context_switch.s` around the process table:
which registers and which translation table each of them installs. Between two events
the processor is in user code, in an SVC handler, or in one of the two idle loops. The
last four fields of a machine are history: no path reads them. -/
namespace Leg

/-- The places where the processor is seen between two events. -/
inductive Mode where
  | user
  /-- `svc_read` or `svc_getchar` waits for input with IRQs enabled. -/
  | waiting
  /-- `svc_dispatch` has returned `r0`. -/
  | svcDone (r0 : ℕ)
  /-- `.Lsvc_spin`. -/
  | svcIdle
  /-- `.Lirq_check`. -/
  | irqIdle
  deriving DecidableEq

/-- How far `process_replace` gets. -/
inductive Replace where
  /-- No table, or the image was not found, not read or not mapped. -/
  | notLoaded
  /-- The image is in place, but the initial stack could not be mapped. -/
  | noStack
  | done (pgd entry stackPt stackPages : ℕ)

/-- The handlers of `svc_handlers`, by what they do to the process table and TTBR0. -/
inductive Svc where
  | exit
  | fork (alloc : Option (ℕ × ℕ))
  | join
  | exec (outcome : Replace)
  | wait
  | sleep (now freq : ℕ)
  | other (r0 : ℕ)

inductive Event where
  /-- User code runs and leaves these registers. -/
  | run (regs : CpuCtx)
  /-- An IRQ; the timer's one carries the counter value `sched_tick` reads. -/
  | irq (now : Option ℕ)
  /-- An SVC and its handler, up to its return or to its wait for input. -/
  | svc (call : Svc)
  /-- The input has come: the waiting handler disables interrupts and returns `r0`. -/
  | input (r0 : ℕ)
  /-- The end of `handle_svc`. -/
  | svcReturn
  /-- An idle loop finds the flag of `current_proc` clear. -/
  | wake

structure Machine where
  sched : Sched
  ttbr0 : ℕ
  /-- The user registers: live in user mode, else in the SVC frame and the banked registers. -/
  regs : CpuCtx
  mode : Mode
  /-- The process whose code the registers belong to. -/
  thread : ℕ
  /-- The process whose registers `p->ctx` holds. -/
  saved : ℕ → ℕ
  /-- The parent's registers at the fork of a process that has not run yet. -/
  forked : ℕ → Option CpuCtx
  /-- For each fork child that has run: those registers, and the context it started from. -/
  firstRuns : List (CpuCtx × CpuCtx)

/-- `ctx` after `memclr`, with the three fields `process_replace` then sets. -/
def freshCtx (sp entry : ℕ) : CpuCtx where
  r := fun _ => 0
  sp := sp
  lr := 0
  pc := entry
  cpsr := 0x10
  fpscr := 0
  vfp := fun _ => 0

/-- The struct after a successful `process_replace`. -/
def replaceImage (pgd entry stackPt stackPages : ℕ) (p : Process) : Process :=
  { p with
    pgd := pgd
    entry := entry
    sp := procStackTop - 16
    heapEnd := procHeapStart
    stackPt := stackPt
    stackPages := stackPages
    ctx := freshCtx (procStackTop - 16) entry }

/-- `irq_dispatch`: the timer's handler is `sched_tick`. -/
def irqDispatch (s : Sched) : Option ℕ → Sched
  | none => s
  | some now => schedTick s now

namespace Machine

/-- The registers of the running thread go to `current_proc->ctx`. -/
def saveCtx (m : Machine) (regs : CpuCtx) : Machine :=
  { m with
    sched := m.sched.write m.sched.currentProc fun p => { p with ctx := regs }
    saved := Function.update m.saved m.sched.currentProc m.thread }

section Paths
variable (kernelPhysBase kernelTable : ℕ) (m : Machine)

/-- `context_switch`; with `p = current_proc` also `.Lirq_restore_user`. -/
def restore (p : ℕ) : Machine :=
  let ctx := (m.sched.proc p).ctx
  { m with
    sched := contextSwitch m.sched p
    ttbr0 := virtToPhys kernelPhysBase (m.sched.proc p).pgd
    regs := ctx
    mode := .user
    thread := m.saved p
    forked := Function.update m.forked p none
    firstRuns := match m.forked p with
      | some regs => (regs, ctx) :: m.firstRuns
      | none => m.firstRuns }

/-- `handle_irq` out of user mode. -/
def handleIrqUser (now : Option ℕ) : Machine :=
  if m.sched.currentProc = 0 then { m with sched := irqDispatch m.sched now }
  else
    let saved := m.saveCtx m.regs
    let ticked := { saved with sched := irqDispatch saved.sched now }
    if (ticked.sched.proc ticked.sched.currentProc).suspended ≠ 0 then
      { ticked with mode := .irqIdle }
    else ticked.restore kernelPhysBase ticked.sched.currentProc

/-- `process_replace`. The loader leaves TTBR0 at the kernel's own table. -/
def processReplace (pid : ℕ) : Replace → Machine
  | .notLoaded => { m with mode := .svcDone 0 }
  | .noStack =>
    if schedGet m.sched pid = 0 then { m with mode := .svcDone 0 }
    else { m with ttbr0 := virtToPhys kernelPhysBase kernelTable, mode := .svcDone 0 }
  | .done pgd entry stackPt stackPages =>
    let p := schedGet m.sched pid
    if p = 0 then { m with mode := .svcDone 0 }
    else
      let replaced := { m with
        sched := m.sched.write p (replaceImage pgd entry stackPt stackPages)
        ttbr0 := virtToPhys kernelPhysBase kernelTable
        saved := Function.update m.saved p p }
      if p = m.sched.currentProc then replaced.restore kernelPhysBase p
      else { replaced with mode := .svcDone 0 }

/-- `svc_dispatch`; `r0` and the saved `lr` and `spsr` are the caller's registers. -/
def svcDispatch : Svc → Option Machine
  | .exit =>
    match processExit m.sched (m.sched.proc m.sched.currentProc).pid (m.regs.r 0) with
    | some s => some ({ m with sched := s }.restore kernelPhysBase s.currentProc)
    | none => none
  | .fork alloc =>
    let forked := processFork m.sched alloc m.regs.pc m.regs.sp m.regs.cpsr
    let child := forked.2
    if child = 0 then some { m with sched := forked.1, mode := .svcDone u32Max }
    else some { m with
      sched := forked.1
      mode := .svcDone (forked.1.proc child).pid
      saved := Function.update m.saved child child
      forked := Function.update m.forked child (some m.regs) }
  | .join =>
    let joined := svcJoin m.sched (m.regs.r 0)
    some { m with sched := joined.1, mode := .svcDone joined.2 }
  | .exec outcome =>
    some (m.processReplace kernelPhysBase kernelTable
      (m.sched.proc m.sched.currentProc).pid outcome)
  | .wait => some { m with mode := .waiting }
  | .sleep now freq =>
    let slept := svcSleep m.sched (m.regs.r 0) now freq
    some { m with sched := slept.1, mode := .svcDone slept.2 }
  | .other r0 => some { m with mode := .svcDone r0 }

/-- The end of `handle_svc`: back to the caller, or a yield if `current_proc` is suspended. -/
def svcReturn (r0 : ℕ) : Machine :=
  let regs := { m.regs with r := Function.update m.regs.r 0 r0 }
  if (m.sched.proc m.sched.currentProc).suspended ≠ 0 then
    let saved := m.saveCtx regs
    let next := schedPickNext saved.sched
    if next = 0 then { saved with mode := .svcIdle } else saved.restore kernelPhysBase next
  else { m with regs := regs, mode := .user }

/-- One event, `none` where it cannot happen: user code and SVCs need user mode, and
interrupts stay disabled between a handler's end and the return. -/
def next : Event → Option Machine
  | .run regs => if m.mode = .user then some { m with regs := regs } else none
  | .irq now =>
    match m.mode with
    | .user => some (m.handleIrqUser kernelPhysBase now)
    | .svcDone _ => none
    | _ => some { m with sched := irqDispatch m.sched now }
  | .svc call =>
    if m.mode = .user then m.svcDispatch kernelPhysBase kernelTable call else none
  | .input r0 => if m.mode = .waiting then some { m with mode := .svcDone r0 } else none
  | .svcReturn =>
    match m.mode with
    | .svcDone r0 => some (m.svcReturn kernelPhysBase r0)
    | _ => none
  | .wake =>
    if (m.mode = .svcIdle ∨ m.mode = .irqIdle) ∧
        (m.sched.proc m.sched.currentProc).suspended = 0 then
      some (m.restore kernelPhysBase m.sched.currentProc)
    else none

def Fresh : Event → Prop
  | .svc (.fork alloc) => FreshAlloc m.sched alloc
  | _ => True

instance (e : Event) : Decidable (m.Fresh e) :=
  match e with
  | .svc (.fork alloc) => inferInstanceAs (Decidable (FreshAlloc m.sched alloc))
  | .svc .exit | .svc .join | .svc (.exec _) | .svc .wait | .svc (.sleep _ _) | .svc (.other _)
  | .run _ | .irq _ | .input _ | .svcReturn | .wake => isTrue trivial

def Step (e : Event) (n : Machine) : Prop :=
  m.Fresh e ∧ m.next kernelPhysBase kernelTable e = some n

/-- The machine as `process_exec` enters the first process. -/
def Boot : Prop :=
  ∃ p proc pid, p ≠ 0 ∧ m.sched = processExec ⟨fun _ => 0, proc, 0, pid⟩ p ∧
    m.ttbr0 = virtToPhys kernelPhysBase (m.sched.proc p).pgd ∧ m.mode = .user ∧
    m.thread = p ∧ m.saved = id ∧ m.forked = (fun _ => none) ∧ m.firstRuns = []

end Paths

section Irq
open Sched

theorem saveCtx_tableOk {m : Machine} (h : TableOk m.sched) (regs : CpuCtx) :
    TableOk (m.saveCtx regs).sched :=
  ⟨h.distinct, h.current⟩

theorem irqDispatch_tableOk {s : Sched} (h : TableOk s) (now : Option ℕ) :
    TableOk (irqDispatch s now) := by
  cases now with
  | none => exact h
  | some now => exact schedTick_tableOk h

theorem irqDispatch_mem {s : Sched} (h : TableOk s) (now : Option ℕ) (p : ℕ) :
    (irqDispatch s now).Mem p ↔ s.Mem p := by
  cases now with
  | none => rfl
  | some now => simp only [irqDispatch, Mem, (schedTick_frame now h).1]

theorem irqDispatch_pgd {s : Sched} (h : TableOk s) (now : Option ℕ) (p : ℕ) :
    ((irqDispatch s now).proc p).pgd = (s.proc p).pgd := by
  cases now with
  | none => rfl
  | some now => exact ((schedTick_frame now h).2 p).1

theorem irqDispatch_ctx {s : Sched} (h : TableOk s) (now : Option ℕ) (p : ℕ) :
    ((irqDispatch s now).proc p).ctx = (s.proc p).ctx := by
  cases now with
  | none => rfl
  | some now => exact ((schedTick_frame now h).2 p).2.1

theorem irqDispatch_joinTarget {s : Sched} (h : TableOk s) (now : Option ℕ) (p : ℕ) :
    ((irqDispatch s now).proc p).joinTarget = (s.proc p).joinTarget := by
  cases now with
  | none => rfl
  | some now => exact ((schedTick_frame now h).2 p).2.2

theorem next_irq {kernelPhysBase kernelTable : ℕ} {m n : Machine} {now : Option ℕ}
    (h : m.next kernelPhysBase kernelTable (.irq now) = some n) :
    (m.mode = .user ∧ m.handleIrqUser kernelPhysBase now = n) ∨
    ((m.mode = .waiting ∨ m.mode = .svcIdle ∨ m.mode = .irqIdle) ∧
      { m with sched := irqDispatch m.sched now } = n) := by
  simp only [next] at h
  cases hm : m.mode <;> rw [hm] at h <;> simp_all

end Irq

/-- A first process at `0xC0104000`, with its table at `0xC0104400`, as it starts. -/
def init : Machine where
  sched := processExec ⟨fun _ => 0, fun _ =>
    { (default : Process) with pid := 1, pgd := 0xC0104400 }, 0, 2⟩ 0xC0104000
  ttbr0 := virtToPhys 0x40200000 0xC0104400
  regs := default
  mode := .user
  thread := 0xC0104000
  saved := id
  forked := fun _ => none
  firstRuns := []

theorem init_boot : init.Boot 0x40200000 :=
  ⟨0xC0104000, _, 2, by decide, rfl, by decide +kernel, rfl, rfl, rfl, rfl, rfl⟩

end Machine

end Leg
