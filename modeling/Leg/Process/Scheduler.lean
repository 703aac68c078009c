import Leg.Word
import Leg.Lib.Arm

/-! The process table of `scheduler.c` and the calls that block and wake
processes. A process struct is kept by the address `procs[]` and `current_proc`
hold; a null pointer is `0`. Memory management of `process.c` is not part of
this level: a fork is given the addresses its allocations returned. -/
namespace Leg

/-- `cpu_ctx_t`: the user registers of a process. -/
structure CpuCtx where
  r : Fin 13 → ℕ
  sp : ℕ
  lr : ℕ
  pc : ℕ
  cpsr : ℕ
  fpscr : ℕ
  vfp : Fin 64 → ℕ
  deriving Inhabited

/-- `process_t`. -/
structure Process where
  pid : ℕ
  pgd : ℕ
  sp : ℕ
  entry : ℕ
  ctx : CpuCtx
  suspended : ℕ
  wakeTick : ℕ
  joinTarget : ℕ
  stackPt : ℕ
  stackPages : ℕ
  heapEnd : ℕ
  deriving Inhabited

abbrev maxProcesses : ℕ := 8

/-- The scheduler's globals and the memory its process pointers lead to. -/
structure Sched where
  procs : Fin maxProcesses → ℕ
  proc : ℕ → Process
  currentProc : ℕ
  nextPid : ℕ

namespace Sched

/-- Store through the process pointer `p`. -/
def write (s : Sched) (p : ℕ) (f : Process → Process) : Sched :=
  { s with proc := Function.update s.proc p (f (s.proc p)) }

/-- The first slot whose pointer satisfies `c`, in slot order. -/
@[irreducible] def findSlot (s : Sched) (c : ℕ → Bool) : Option (Fin maxProcesses) :=
  (List.finRange maxProcesses).find? fun i => c (s.procs i)

/-- One slot of a pass: `f` is applied to the process there if it satisfies `c`. -/
def sweepSlot (c : Process → Bool) (f : Process → Process) (s : Sched)
    (i : Fin maxProcesses) : Sched :=
  if s.procs i ≠ 0 ∧ c (s.proc (s.procs i)) then s.write (s.procs i) f else s

/-- A pass over the table, slot by slot. -/
@[irreducible] def sweep (s : Sched) (c : Process → Bool) (f : Process → Process) : Sched :=
  (List.finRange maxProcesses).foldl (sweepSlot c f) s

/-- The first runnable process at the `n` slots after slot `cur`, null if there is none. -/
@[irreducible] def nextRunnable (s : Sched) (cur n : ℕ) : ℕ :=
  (((List.range n).map fun j => s.procs (Fin.ofNat maxProcesses (cur + (j + 1)))).find?
    fun p => p ≠ 0 ∧ (s.proc p).suspended = 0).getD 0

end Sched

def schedAdd (s : Sched) (p : ℕ) : Sched × Int :=
  match s.findSlot fun q => q = 0 with
  | some i => ({ s.write p fun q => { q with suspended := 0 } with
      procs := Function.update s.procs i p }, i.val)
  | none => (s, -1)

def schedRemove (s : Sched) (pid : ℕ) : Sched × Int :=
  match s.findSlot fun p => p ≠ 0 ∧ (s.proc p).pid = pid with
  | some i => ({ s with procs := Function.update s.procs i 0 }, i.val)
  | none => (s, -1)

def schedGet (s : Sched) (pid : ℕ) : ℕ :=
  match s.findSlot fun p => p ≠ 0 ∧ (s.proc p).pid = pid with
  | some i => s.procs i
  | none => 0

/-- A joiner of `pid` receives the exit code in its saved `r0` and becomes runnable. -/
def wakeJoiner (exitCode : ℕ) (p : Process) : Process :=
  { p with
    ctx := { p.ctx with r := Function.update p.ctx.r 0 exitCode }
    joinTarget := 0
    suspended := 0 }

def schedWakeJoiners (s : Sched) (pid exitCode : ℕ) : Sched :=
  s.sweep (fun p => p.joinTarget = pid) (wakeJoiner exitCode)

def schedPickNext (s : Sched) : ℕ :=
  if s.currentProc = 0 then 0
  else
    let cur := match s.findSlot fun p => p = s.currentProc with
      | some i => i.val
      | none => maxProcesses
    s.nextRunnable cur maxProcesses

def wakeSleeper (p : Process) : Process := { p with wakeTick := 0, suspended := 0 }

/-- The first loop of `sched_tick`: sleepers whose deadline has passed at counter `now`. -/
def wakeSleepers (s : Sched) (now : ℕ) : Sched :=
  s.sweep (fun p => p.wakeTick ≠ 0 ∧ p.wakeTick ≤ now) wakeSleeper

def schedTick (s : Sched) (now : ℕ) : Sched :=
  if s.currentProc = 0 then s
  else
    let w := wakeSleepers s now
    match w.findSlot fun p => p = w.currentProc with
    | none => w
    | some cur =>
      let p := w.nextRunnable cur.val (maxProcesses - 1)
      if p = 0 then w
      else { w.write w.currentProc fun q => { q with suspended := 1 } with currentProc := p }

/-- `context_switch` as far as the scheduler's own state goes: `current_proc = next`. -/
def contextSwitch (s : Sched) (next : ℕ) : Sched := { s with currentProc := next }

/-- `svc_join`: the caller blocks until the target exits, or `-1` comes back at once. -/
def svcJoin (s : Sched) (target : ℕ) : Sched × ℕ :=
  if schedGet s target = 0 then (s, u32Max)
  else (s.write s.currentProc fun p => { p with joinTarget := target, suspended := 1 }, 0)

/-- The counter value at which a sleep of `us` microseconds begun at `now` ends. -/
def sleepDeadline (us now freq : ℕ) : ℕ := u64 (now + u64 (us * freq) / 1000000)

def svcSleep (s : Sched) (us now freq : ℕ) : Sched × ℕ :=
  (s.write s.currentProc fun p =>
    { p with wakeTick := sleepDeadline us now freq, suspended := 1 }, 0)

/-- The struct `process_fork` builds at `child` over whatever that memory held. The
code assigns neither `join_target` nor the fields of `ctx` it copies from the parent. -/
def forkChild (s : Sched) (child pgd lrSvc spUsr cpsr : ℕ) : Process :=
  let parent := s.proc s.currentProc
  { s.proc child with
    pgd := pgd
    ctx := { parent.ctx with
      r := Function.update parent.ctx.r 0 0
      pc := lrSvc
      sp := spUsr
      cpsr := cpsr }
    pid := s.nextPid
    entry := parent.entry
    sp := spUsr
    heapEnd := parent.heapEnd
    stackPages := parent.stackPages
    stackPt := 0
    wakeTick := 0
    suspended := 0 }

/-- `process_fork` for the addresses its allocations gave, `none` where one of them
failed. Returns the child's address, or null. -/
def processFork (s : Sched) (alloc : Option (ℕ × ℕ)) (lrSvc spUsr cpsr : ℕ) : Sched × ℕ :=
  match alloc with
  | none => (s, 0)
  | some (child, pgd) =>
    let built := { s with
      proc := Function.update s.proc child (forkChild s child pgd lrSvc spUsr cpsr)
      nextPid := u32 (s.nextPid + 1) }
    let added := schedAdd built child
    if added.2 < 0 then (added.1, 0) else (added.1, child)

/-- `process_exit`. There is no state after it when no process runs again: the
machine is powered off, waits in `limbo`, or has faulted on a null process. -/
def processExit (s : Sched) (pid code : ℕ) : Option Sched :=
  let p := schedGet s pid
  if p = 0 then none
  else
    let s1 := schedWakeJoiners (schedRemove s pid).1 pid code
    if p = s.currentProc then
      let next := schedPickNext s1
      if next = 0 then none else some (contextSwitch s1 next)
    else none

/-- `process_exec`, the entry of the first process. -/
def processExec (s : Sched) (p : ℕ) : Sched := (schedAdd { s with currentProc := p } p).1

end Leg
