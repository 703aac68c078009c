import Leg.Lib.Runs
import Leg.Memory.Boot
import Leg.Process.SpaceBuild
import Leg.Process.Traps

/-! The life of a process in `process.c`: created, forked, replaced and freed, over the
allocators, the translation tables and the process table together. -/
namespace Leg
open Runs

/-- The kernel's memory and its process table. The structs of the processes that live are
listed for the proofs only; `running` is false once the machine is off or in `limbo`. -/
structure System where
  vm : Vm
  sched : Sched
  procs : List ℕ
  running : Bool

section Build
variable (kernelPhysBase : ℕ)

/-- The struct and the L1 table that `process_create` and `process_fork` begin with. -/
def allocProcess (vm : Vm) : Option (Vm × Option (ℕ × ℕ)) := do
  let (vm, p) ← vm.kmallocAligned processSize 0x4000
  if p = 0 then return (vm, none)
  let (vm, pgd) ← vm.mmuAllocProcTable
  if pgd = 0 then
    let vm ← vm.kfree p
    return (vm, none)
  return (vm, some (p, pgd))

/-- `process_create` up to the numbering: the struct's address and its new fields. -/
def createSpace (file : Option FsFile) (proc : ℕ → Process) (vm : Vm) :
    Option (Vm × Option (ℕ × Process)) := do
  let (vm, alloc) ← allocProcess vm
  match alloc with
  | none => return (vm, none)
  | some (p, pgd) =>
    let (vm, entry) ← loadUserImage kernelPhysBase pgd file vm
    match entry with
    | none =>
      let vm ← processFree kernelPhysBase p pgd vm
      return (vm, none)
    | some entry =>
      let (vm, q, ok) ← setupInitialStack kernelPhysBase vm
        { proc p with pgd := pgd, entry := entry }
      if ¬ ok then
        let vm ← processFree kernelPhysBase p pgd vm
        return (vm, none)
      return (vm, some (p, q))

/-- `process_fork` up to the copy of the context: the child's struct and its L1 table. -/
def forkSpace (parentPgd : ℕ) (vm : Vm) : Option (Vm × Option (ℕ × ℕ)) := do
  let (vm, alloc) ← allocProcess vm
  match alloc with
  | none => return (vm, none)
  | some (child, pgd) =>
    let (vm, ok) ← forkTables kernelPhysBase parentPgd pgd procVaMb 0 vm
    if ¬ ok then
      let vm ← processFree kernelPhysBase child pgd vm
      return (vm, none)
    return (vm, some (child, pgd))

/-- The new address space of `process_replace`: its table, its entry point and the process
shell with the stack. -/
def replaceSpace (file : Option FsFile) (vm : Vm) : Option (Vm × Option (ℕ × ℕ × Process)) := do
  let (vm, pgd) ← vm.mmuAllocProcTable
  if pgd = 0 then return (vm, none)
  let (vm, entry) ← loadUserImage kernelPhysBase pgd file vm
  match entry with
  | none =>
    let vm ← vm.kfree pgd
    return (vm, none)
  | some entry =>
    let (vm, tmp, ok) ← setupInitialStack kernelPhysBase vm { (default : Process) with pgd := pgd }
    if ¬ ok then
      let vm ← freeTables kernelPhysBase pgd vm
      let vm ← vm.kfree pgd
      return (vm, none)
    return (vm, some (pgd, entry, tmp))

namespace System
variable (s : System)

/-- `process_create`, given what `fs_find` finds under the name. -/
def processCreate (file : Option FsFile) : Option (System × ℕ) := do
  let (vm, made) ← createSpace kernelPhysBase file s.sched.proc s.vm
  match made with
  | none => return ({ s with vm := vm }, 0)
  | some (p, q) =>
    let proc := { q with
      pid := s.sched.nextPid
      sp := procStackTop - 16
      heapEnd := procHeapStart }
    let sched := { s.sched.write p fun _ => proc with nextPid := u32 (s.sched.nextPid + 1) }
    return ({ s with vm := vm, sched := sched, procs := p :: s.procs }, p)

/-- `process_fork`; the child is given back where `sched_add` finds no slot. -/
def processFork (lrSvc spUsr cpsr : ℕ) : Option (System × ℕ) :=
  if s.sched.currentProc = 0 then none
  else do
    let (vm, alloc) ← forkSpace kernelPhysBase (s.sched.proc s.sched.currentProc).pgd s.vm
    let (sched, child) := Leg.processFork s.sched alloc lrSvc spUsr cpsr
    match alloc with
    | none => return ({ s with vm := vm, sched := sched }, 0)
    | some (p, pgd) =>
      if child = 0 then
        let vm ← processFree kernelPhysBase p pgd vm
        return ({ s with vm := vm, sched := sched }, 0)
      return ({ s with vm := vm, sched := sched, procs := p :: s.procs }, p)

/-- `process_exit`: the memory goes back also where no process runs afterwards. -/
def processExit (pid code : ℕ) : Option System :=
  let p := schedGet s.sched pid
  if p = 0 then none
  else do
    let vm ← processFree kernelPhysBase p (s.sched.proc p).pgd s.vm
    match Leg.processExit s.sched pid code with
    | some sched => return { s with vm := vm, sched := sched, procs := s.procs.erase p }
    | none =>
      let sched := schedWakeJoiners (schedRemove s.sched pid).1 pid code
      return ⟨vm, sched, s.procs.erase p, false⟩

/-- `process_replace`, and whether it succeeds. -/
def processReplace (pid : ℕ) (file : Option FsFile) : Option (System × Bool) :=
  let p := schedGet s.sched pid
  if p = 0 then some (s, false)
  else do
    let (vm, made) ← replaceSpace kernelPhysBase file s.vm
    match made with
    | none => return ({ s with vm := vm }, false)
    | some (newPgd, entry, tmp) =>
      let oldPgd := (s.sched.proc p).pgd
      let sched := s.sched.write p (replaceImage newPgd entry tmp.stackPt tmp.stackPages)
      let vm ← freeTables kernelPhysBase oldPgd vm
      let vm ← vm.kfree oldPgd
      let sched := if p = s.sched.currentProc then contextSwitch sched p else sched
      return ({ s with vm := vm, sched := sched }, true)

end System

/-- The calls that make, end and switch processes. -/
inductive LifeOp where
  | create (file : Option FsFile)
  | exec (p : ℕ)
  | fork (lrSvc spUsr cpsr : ℕ)
  | exit (pid code : ℕ)
  | replace (pid : ℕ) (file : Option FsFile)
  | join (target : ℕ)
  | sleep (us now freq : ℕ)
  | tick (now : ℕ)

/-- One call; `none` if it dereferences null or an assertion of the heap fails. -/
def System.next (s : System) : LifeOp → Option System
  | .create file => (s.processCreate kernelPhysBase file).map Prod.fst
  | .exec p => some { s with sched := processExec s.sched p }
  | .fork lrSvc spUsr cpsr => (s.processFork kernelPhysBase lrSvc spUsr cpsr).map Prod.fst
  | .exit pid code => s.processExit kernelPhysBase pid code
  | .replace pid file => (s.processReplace kernelPhysBase pid file).map Prod.fst
  | .join target => some { s with sched := (svcJoin s.sched target).1 }
  | .sleep us now freq => some { s with sched := (svcSleep s.sched us now freq).1 }
  | .tick now => some { s with sched := schedTick s.sched now }

/-- The image that a name stands for has its segments below the initial stack pages. -/
def BelowStack (file : Option FsFile) : Prop := ∀ f, file = some f → f.image.BelowStack

/-- Images lie below the initial stack, `process_exec` starts a created process that is not
listed yet, and `process_replace` succeeds. -/
def System.Admits (s : System) : LifeOp → Prop
  | .create file => BelowStack file
  | .exec p => p ∈ s.procs ∧ ¬ s.sched.Mem p
  | .replace pid file => BelowStack file ∧
    ∃ t, s.processReplace kernelPhysBase pid file = some (t, true)
  | _ => True

def LifeStep (s : System) (op : LifeOp) (t : System) : Prop :=
  s.running = true ∧ s.Admits kernelPhysBase op ∧ s.next kernelPhysBase op = some t

end Build

/-- The state after boot: the allocators have served the kernel's own calls since `mm_init`, and
there is no process yet. -/
structure System.Boot (c : BootConfig) (s : System) : Prop where
  ram_pos : 0 < c.ramBase
  pages : ∃ memory g ops t, c.init memory = some g ∧ Run PageStep ⟨g, []⟩ ops t ∧ s.vm.pmm = t.pmm
  heap : ∃ mem ops t, Run HeapStep ⟨kheapInit mem c.heapVa, []⟩ ops t ∧ s.vm.heap = t.heap ∧
    s.vm.live = t.live
  noneListed : ∀ i, s.sched.procs i = 0
  noneLive : s.procs = []

end Leg
