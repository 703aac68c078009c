import Leg.Lib.Runs
import Leg.Process.Identity
import Leg.Process.JoinSleepLaw
import Leg.Process.Ownership

/-! Whether a process enters the table waiting for nothing. `process_create` and `process_fork`
assign their struct field by field, so a field they leave out holds what the heap memory held
before. Beside the machine go the calls that made a process wait and the structs as they were
listed: no code reads them. -/
namespace Leg
open Runs Sched

/-- The struct `process_create` builds over what its memory held. -/
def createdProcess (old : Process) (pid pgd entry stackPt stackPages : ℕ) : Process :=
  { old with
    pgd := pgd
    entry := entry
    stackPt := stackPt
    stackPages := stackPages
    pid := pid
    sp := procStackTop - 16
    heapEnd := procHeapStart }

section Create
variable {kpb : ℕ}

theorem processAddPage_struct {vm vm' : Vm} {p q : Process} {ok : Bool}
    (h : processAddPage kpb vm p = some (vm', q, ok)) :
    ∃ stackPt stackPages, q = { p with stackPt := stackPt, stackPages := stackPages } := by
  unfold processAddPage at h
  simp only [Option.bind_eq_bind] at h
  split at h
  next =>
    obtain ⟨⟨vm₁, pt⟩, -, h⟩ := Option.bind_eq_some_iff.mp h
    split at h
    next =>
      cases h
      exact ⟨_, _, rfl⟩
    next =>
      simp only [Option.bind_some, not_true_eq_false, if_false] at h
      split at h
      all_goals
        cases h
        exact ⟨_, _, rfl⟩
  next =>
    simp only [Option.bind_some, not_true_eq_false, if_false] at h
    split at h
    all_goals
      cases h
      exact ⟨_, _, rfl⟩

theorem addStackPages_struct (k : ℕ) {vm vm' : Vm} {p q : Process} {ok : Bool}
    (h : addStackPages kpb k vm p = some (vm', q, ok)) :
    ∃ stackPt stackPages, q = { p with stackPt := stackPt, stackPages := stackPages } := by
  induction k generalizing vm p with
  | zero =>
    cases h
    exact ⟨_, _, rfl⟩
  | succ k ih =>
    simp only [addStackPages, Option.bind_eq_bind, Option.bind_eq_some_iff, Prod.exists] at h
    obtain ⟨vm₁, p₁, ok₁, hp₁, h⟩ := h
    obtain ⟨pt, n, rfl⟩ := processAddPage_struct hp₁
    split at h
    · obtain ⟨pt', n', rfl⟩ := ih h
      exact ⟨pt', n', rfl⟩
    · cases h
      exact ⟨pt, n, rfl⟩

theorem setupInitialStack_struct {vm vm' : Vm} {p q : Process} {ok : Bool}
    (h : setupInitialStack kpb vm p = some (vm', q, ok)) :
    ∃ stackPt stackPages, q = { p with stackPt := stackPt, stackPages := stackPages } := by
  unfold setupInitialStack at h
  obtain ⟨⟨vm₁, pt⟩, -, h⟩ := Option.bind_eq_some_iff.mp h
  dsimp only at h
  split at h
  next =>
    cases h
    exact ⟨_, _, rfl⟩
  next =>
    obtain ⟨stackPt, stackPages, rfl⟩ := addStackPages_struct _ h
    exact ⟨_, _, rfl⟩

theorem createSpace_struct {proc : ℕ → Process} {vm vm' : Vm} {file : Option FsFile} {p : ℕ}
    {q : Process} (h : createSpace kpb file proc vm = some (vm', some (p, q))) :
    ∃ pgd entry stackPt stackPages, q = { proc p with
      pgd := pgd, entry := entry, stackPt := stackPt, stackPages := stackPages } := by
  unfold createSpace at h
  simp only [Option.bind_eq_bind] at h
  obtain ⟨⟨vm₁, alloc⟩, -, h⟩ := Option.bind_eq_some_iff.mp h
  cases alloc with
  | none => exact absurd h (by simp)
  | some alloc =>
    obtain ⟨⟨vm₂, entry⟩, -, h⟩ := Option.bind_eq_some_iff.mp h
    cases entry with
    | none =>
      obtain ⟨vm₃, -, h⟩ := Option.bind_eq_some_iff.mp h
      exact absurd h (by simp)
    | some entry =>
      obtain ⟨⟨vm₃, q', ok⟩, hstack, h⟩ := Option.bind_eq_some_iff.mp h
      obtain ⟨stackPt, stackPages, rfl⟩ := setupInitialStack_struct hstack
      dsimp only at h
      split at h
      next =>
        obtain ⟨vm₄, -, h⟩ := Option.bind_eq_some_iff.mp h
        exact absurd h (by simp)
      next =>
        cases h
        exact ⟨_, _, _, _, rfl⟩

theorem processCreate_struct {s t : System} {file : Option FsFile} {p : ℕ} (hp : p ≠ 0)
    (h : s.processCreate kpb file = some (t, p)) : ∃ pgd entry stackPt stackPages,
    t.sched.proc p =
      createdProcess (s.sched.proc p) s.sched.nextPid pgd entry stackPt stackPages := by
  simp only [System.processCreate, Option.bind_eq_bind, Option.bind_eq_some_iff, Prod.exists] at h
  obtain ⟨vm, made, hmade, h⟩ := h
  cases made with
  | none =>
    cases h
    exact absurd rfl hp
  | some made =>
    obtain ⟨p', q⟩ := made
    cases h
    obtain ⟨pgd, entry, stackPt, stackPages, rfl⟩ := createSpace_struct hmade
    refine ⟨pgd, entry, stackPt, stackPages, ?_⟩
    rw [write_proc_self]
    rfl

end Create

theorem processExec_proc {p : ℕ} (proc : ℕ → Process) (pid : ℕ) :
    (processExec ⟨fun _ => 0, proc, 0, pid⟩ p).proc p = { proc p with suspended := 0 } := by
  rcases schedAdd_cases ⟨fun _ => 0, proc, p, pid⟩ p with ⟨i, -, hadd⟩ | ⟨hfull, -⟩
  · rw [processExec, hadd]
    dsimp only
    rw [write_proc_self]
  · exact absurd rfl (hfull 0)

/-- What the kernel is seen to do: the machine's events, and other owners of heap memory that
leave a struct's worth of it with some content. -/
inductive Act where
  | event (e : Event)
  | reuse (p : ℕ) (content : Process)

/-- The machine, and for each struct the pid its process waits for and the deadline it sleeps
until; `entered` are the structs as they were listed. -/
structure Watched where
  machine : Machine
  joined : ℕ → Option ℕ
  slept : ℕ → Option ℕ
  entered : List Process

namespace Watched

/-- What one event that led to `n` adds to the history. A call belongs to the process whose code
makes it. -/
def record (t : Watched) (n : Machine) : Event → Watched
  | .svc .join => { t with
      machine := n
      joined := if schedGet t.machine.sched (t.machine.regs.r 0) = 0 then t.joined
        else Function.update t.joined t.machine.thread (some (t.machine.regs.r 0)) }
  | .svc (.sleep now freq) => { t with
      machine := n
      slept := Function.update t.slept t.machine.thread
        (some (sleepDeadline (t.machine.regs.r 0) now freq)) }
  | .svc (.fork (some (child, _))) =>
    if n.sched.Mem child then
      { machine := n
        joined := Function.update t.joined child none
        slept := Function.update t.slept child none
        entered := n.sched.proc child :: t.entered }
    else { t with machine := n }
  | .svc .exit => { t with
      machine := n
      joined := fun p =>
        if t.joined p = some (t.machine.sched.proc t.machine.sched.currentProc).pid then none
        else t.joined p }
  | .irq (some now) => { t with
      machine := n
      slept := fun p => (t.slept p).filter fun deadline => now < deadline }
  | _ => { t with machine := n }

variable (kernelPhysBase kernelTable : ℕ)

/-- One event, or another owner's use of memory that no listed struct lies in. -/
def next (t : Watched) : Act → Option Watched
  | .event e => (t.machine.next kernelPhysBase kernelTable e).map fun n => t.record n e
  | .reuse p content =>
    if t.machine.sched.Mem p then none
    else some { t with machine := { t.machine with
      sched := t.machine.sched.write p fun _ => content } }

/-- A fork's struct is memory the allocator has just handed out. -/
def Fresh (t : Watched) : Act → Prop
  | .event e => t.machine.Fresh e
  | .reuse _ _ => True

def Step (t : Watched) (a : Act) (u : Watched) : Prop :=
  t.Fresh a ∧ t.next kernelPhysBase kernelTable a = some u

/-- The first process as `process_create` built it over `old` and `process_exec` entered it. -/
def Boot (old : Process) (t : Watched) : Prop :=
  t.machine.Boot kernelPhysBase ∧
    (∃ pid pgd entry stackPt stackPages, t.machine.sched.proc t.machine.sched.currentProc =
      { createdProcess old pid pgd entry stackPt stackPages with suspended := 0 }) ∧
    t.joined = (fun _ => none) ∧ t.slept = (fun _ => none) ∧
    t.entered = [t.machine.sched.proc t.machine.sched.currentProc]

/-- The memory of a fork's struct holds 0 where `join_target` lies, nobody exits under pid 0, and
no tick switches processes inside a waiting handler. -/
def KeepsUnblocked (t : Watched) : Act → Prop
  | .event (.svc (.fork (some (child, _)))) => (t.machine.sched.proc child).joinTarget = 0
  | .event (.svc .exit) => (t.machine.sched.proc t.machine.sched.currentProc).pid ≠ 0
  | .event (.irq (some now)) => t.machine.mode = .waiting → ¬ OtherRunnable t.machine.sched now
  | _ => True

instance (t : Watched) (a : Act) : Decidable (t.Fresh a) :=
  match a with
  | .event e => inferInstanceAs (Decidable (t.machine.Fresh e))
  | .reuse _ _ => isTrue trivial

instance (t : Watched) (a : Act) : Decidable (t.KeepsUnblocked a) :=
  match a with
  | .event (.svc (.fork (some (child, _)))) =>
    inferInstanceAs (Decidable ((t.machine.sched.proc child).joinTarget = 0))
  | .event (.svc .exit) => inferInstanceAs (Decidable (_ ≠ 0))
  | .event (.irq (some now)) =>
    inferInstanceAs (Decidable (t.machine.mode = .waiting → ¬ OtherRunnable t.machine.sched now))
  | .event (.svc (.fork none)) | .event (.svc .join) | .event (.svc (.exec _))
  | .event (.svc .wait) | .event (.svc (.sleep _ _)) | .event (.svc (.other _))
  | .event (.irq none) | .event (.run _) | .event (.input _) | .event .svcReturn | .event .wake
  | .reuse _ _ => isTrue trivial

/-- Every process entered the table unblocked, only those wait that called for it, and the exit
of a process changes the registers of nobody who did not join it. -/
structure Unblocked (ok : Watched → Act → Prop) (t : Watched) : Prop where
  entered : ∀ q ∈ t.entered, q.suspended = 0 ∧ q.wakeTick = 0 ∧ q.joinTarget = 0
  joins : ∀ p, t.machine.sched.Mem p → (t.machine.sched.proc p).joinTarget ≠ 0 →
    t.joined p = some (t.machine.sched.proc p).joinTarget
  sleeps : ∀ p, t.machine.sched.Mem p → (t.machine.sched.proc p).wakeTick ≠ 0 →
    t.slept p = some (t.machine.sched.proc p).wakeTick
  exits : t.machine.mode = .user → ok t (.event (.svc .exit)) → ∀ p, t.machine.sched.Mem p →
    t.joined p ≠ some (t.machine.sched.proc t.machine.sched.currentProc).pid →
    ((exitTable t.machine.sched (t.machine.sched.proc t.machine.sched.currentProc).pid
      (t.machine.regs.r 0)).proc p).ctx = (t.machine.sched.proc p).ctx

end Watched

namespace Machine
variable {kernelPhysBase kernelTable : ℕ} {m n : Machine}

instance (q : Process) (now : ℕ) : Decidable (Due q now) := inferInstanceAs (Decidable (_ ∧ _))

/-- `p->join_target` after the event. -/
def joinAfter (m : Machine) (p : ℕ) : Event → ℕ
  | .svc .join =>
    if p = m.sched.currentProc ∧ schedGet m.sched (m.regs.r 0) ≠ 0 then m.regs.r 0
    else (m.sched.proc p).joinTarget
  | .svc .exit =>
    if (m.sched.proc p).joinTarget = (m.sched.proc m.sched.currentProc).pid then 0
    else (m.sched.proc p).joinTarget
  | _ => (m.sched.proc p).joinTarget

/-- `p->wake_tick` after the event. -/
def wakeAfter (m : Machine) (p : ℕ) : Event → ℕ
  | .svc (.sleep now freq) =>
    if p = m.sched.currentProc then sleepDeadline (m.regs.r 0) now freq
    else (m.sched.proc p).wakeTick
  | .irq (some now) =>
    if Due (m.sched.proc p) now then 0 else (m.sched.proc p).wakeTick
  | _ => (m.sched.proc p).wakeTick

/-- What an event makes of the two wake conditions of those who are listed after it. -/
structure Waits (m n : Machine) (e : Event) (p : ℕ) : Prop where
  join : (n.sched.proc p).joinTarget = m.joinAfter p e
  wake : (n.sched.proc p).wakeTick = m.wakeAfter p e

/-- The child of a fork, as it is listed. -/
def Enters (m n : Machine) (e : Event) (p : ℕ) : Prop :=
  ¬ m.sched.Mem p ∧ (∃ pgd, e = .svc (.fork (some (p, pgd)))) ∧ (n.sched.proc p).suspended = 0 ∧
    (n.sched.proc p).wakeTick = 0 ∧ (n.sched.proc p).joinTarget = (m.sched.proc p).joinTarget

theorem Waits.of_eq {e : Event} {p : ℕ} (hj : m.joinAfter p e = (m.sched.proc p).joinTarget)
    (hw : m.wakeAfter p e = (m.sched.proc p).wakeTick)
    (hnj : (n.sched.proc p).joinTarget = (m.sched.proc p).joinTarget)
    (hnw : (n.sched.proc p).wakeTick = (m.sched.proc p).wakeTick) : Waits m n e p :=
  ⟨hnj.trans hj.symm, hnw.trans hw.symm⟩

theorem schedTick_wakeTick {s : Sched} (h : TableOk s) (now : ℕ) {p : ℕ} (hp : s.Mem p) :
    ((schedTick s now).proc p).wakeTick =
      if Due (s.proc p) now then 0 else (s.proc p).wakeTick := by
  have hw : ((wakeSleepers s now).proc p).wakeTick =
      if Due (s.proc p) now then 0 else (s.proc p).wakeTick := by
    rw [wakeSleepers_proc]
    by_cases hd : Due (s.proc p) now
    · rw [if_pos ⟨hp, hd⟩, if_pos hd]
      rfl
    · rw [if_neg fun hc => hd hc.2, if_neg hd]
  rcases schedTick_cases now h.distinct h.current with ⟨-, ht⟩ | ⟨-, q, -, -, -, ht⟩
  · rw [ht, hw]
  · rw [ht, ← hw]
    dsimp only
    by_cases hc : p = s.currentProc
    · rw [hc, write_proc_self]
    · rw [write_proc_of_ne _ _ hc]

theorem irqDispatch_waits {s : Sched} (h : TableOk s) {now : Option ℕ} {p : ℕ} (hp : s.Mem p)
    (hq : (s.proc p).joinTarget = (m.sched.proc p).joinTarget ∧
      (s.proc p).wakeTick = (m.sched.proc p).wakeTick)
    (hn : n.sched.proc = (irqDispatch s now).proc) : Waits m n (.irq now) p := by
  cases now with
  | none => exact .of_eq rfl rfl (by rw [hn]; exact hq.1) (by rw [hn]; exact hq.2)
  | some now =>
    refine ⟨?_, ?_⟩
    · rw [hn, irqDispatch_joinTarget h]
      exact hq.1
    · have hd : Due (s.proc p) now ↔ Due (m.sched.proc p) now := by rw [Due, Due, hq.2]
      rw [hn, irqDispatch, schedTick_wakeTick h now hp, wakeAfter, hq.2]
      simp only [hd]

theorem saveCtx_waits (regs : CpuCtx) (p : ℕ) :
    ((m.saveCtx regs).sched.proc p).joinTarget = (m.sched.proc p).joinTarget ∧
      ((m.saveCtx regs).sched.proc p).wakeTick = (m.sched.proc p).wakeTick := by
  obtain ⟨ctx, hq, -⟩ := saveCtx_proc (m := m) regs p
  rw [hq]
  exact ⟨rfl, rfl⟩

/-- Everybody listed after the event was listed before, and waits as the event says. -/
def AllWait (m n : Machine) (e : Event) : Prop :=
  TableOk n.sched ∧ ∀ p, n.sched.Mem p → Enters m n e p ∨ m.sched.Mem p ∧ Waits m n e p

theorem irq_allWait (h : TableOk m.sched) {now : Option ℕ}
    (hn : m.next kernelPhysBase kernelTable (.irq now) = some n) : AllWait m n (.irq now) := by
  rcases next_irq hn with ⟨hm, rfl⟩ | ⟨hm, rfl⟩
  · have hok := saveCtx_tableOk h m.regs
    have htick := irqDispatch_tableOk hok now
    have hmem := irqDispatch_mem hok now
    have hwait (p : ℕ) (hp : (irqDispatch (m.saveCtx m.regs).sched now).Mem p) (n : Machine)
        (hn : n.sched.proc = (irqDispatch (m.saveCtx m.regs).sched now).proc) :
        Waits m n (.irq now) p :=
      irqDispatch_waits hok ((hmem p).mp hp) (saveCtx_waits m.regs p) hn
    rw [handleIrqUser, if_neg h.current.1]
    dsimp only
    split
    · exact ⟨htick, fun p hp => .inr ⟨(hmem p).mp hp, hwait p hp _ rfl⟩⟩
    · exact ⟨htick, fun p hp => .inr ⟨(hmem p).mp hp, hwait p hp _ rfl⟩⟩
  · refine ⟨irqDispatch_tableOk h now, fun p hp => .inr ?_⟩
    have hp' := (irqDispatch_mem h now p).mp hp
    exact ⟨hp', irqDispatch_waits h hp' ⟨rfl, rfl⟩ rfl⟩

theorem exit_allWait (h : TableOk m.sched)
    (hn : m.svcDispatch kernelPhysBase kernelTable .exit = some n) : AllWait m n (.svc .exit) := by
  rw [svcDispatch] at hn
  split at hn
  next s hs =>
    have hok := processExit_tableOk h hs
    obtain ⟨h0, hcur, -, hexit⟩ := processExit_eq hs
    rw [← Option.some.inj hn]
    refine ⟨hok, fun p hp => .inr ?_⟩
    have hp' : (exitTable m.sched (m.sched.proc m.sched.currentProc).pid (m.regs.r 0)).Mem p := by
      have hsp : s.Mem p := hp
      rwa [hexit] at hsp
    obtain ⟨hold, hne⟩ := (exitTable_mem _ h.distinct h0 hcur p).mp hp'
    have hproc := exitTable_proc (m.regs.r 0) h.distinct h0 hcur hold hne
    have hproc' : s.proc p = _ := (congrArg (fun t => Sched.proc t p) hexit).trans hproc
    refine ⟨hold, ?_, ?_⟩
    · simp only [restore, contextSwitch, hproc', joinAfter]
      split
      next => rfl
      next => rfl
    · simp only [restore, contextSwitch, hproc', wakeAfter]
      split
      next => rfl
      next => rfl
  next => exact absurd hn (by simp)

theorem fork_allWait (h : TableOk m.sched) {alloc : Option (ℕ × ℕ)} (hf : FreshAlloc m.sched alloc)
    (hn : m.svcDispatch kernelPhysBase kernelTable (.fork alloc) = some n) :
    AllWait m n (.svc (.fork alloc)) := by
  have hok := processFork_tableOk m.regs.pc m.regs.sp m.regs.cpsr h hf
  obtain ⟨-, hold, honly, hchild⟩ := processFork_frame m.regs.pc m.regs.sp m.regs.cpsr hf
  have hsched : n.sched = (processFork m.sched alloc m.regs.pc m.regs.sp m.regs.cpsr).1 := by
    rw [svcDispatch] at hn
    split at hn
    · rw [← Option.some.inj hn]
    · rw [← Option.some.inj hn]
  refine ⟨hsched ▸ hok, fun p hp => ?_⟩
  rw [hsched] at hp
  rcases honly p hp with hmem | heq
  · refine .inr ⟨hmem, .of_eq rfl rfl ?_ ?_⟩
    all_goals rw [hsched, hold p hmem]
  · obtain ⟨hnew, pgd, hbuilt⟩ := hchild (heq ▸ hp.1)
    rw [← heq] at hnew hbuilt
    rw [← hsched] at hbuilt
    refine .inl ⟨hnew, ?_, ?_, ?_, ?_⟩
    · cases alloc with
      | none => exact absurd heq hp.1
      | some a =>
        obtain ⟨-, -, -, ⟨-, -, -, hr⟩ | ⟨-, -, hr⟩⟩ :=
          processFork_some m.sched a.1 a.2 m.regs.pc m.regs.sp m.regs.cpsr
        · exact ⟨a.2, by rw [heq, hr]⟩
        · exact absurd (heq.trans hr) hp.1
    all_goals rw [hbuilt, forkChild]

theorem write_allWait (h : TableOk m.sched) {e : Event} {f : Process → Process} {k : Machine}
    (hk : k.sched = m.sched.write m.sched.currentProc f)
    (hcur : Waits m k e m.sched.currentProc)
    (hrest : ∀ p, p ≠ m.sched.currentProc → m.joinAfter p e = (m.sched.proc p).joinTarget ∧
      m.wakeAfter p e = (m.sched.proc p).wakeTick) : AllWait m k e := by
  refine ⟨by rw [hk]; exact ⟨h.distinct, h.current⟩, fun p hp => .inr ?_⟩
  refine ⟨by rwa [hk] at hp, ?_⟩
  by_cases hpc : p = m.sched.currentProc
  · rw [hpc]
    exact hcur
  · obtain ⟨hj, hw⟩ := hrest p hpc
    refine .of_eq hj hw ?_ ?_
    all_goals rw [hk, write_proc_of_ne _ _ hpc]

theorem same_allWait (h : TableOk m.sched) {e : Event} (hs : n.sched = m.sched)
    (hrest : ∀ p, m.joinAfter p e = (m.sched.proc p).joinTarget ∧
      m.wakeAfter p e = (m.sched.proc p).wakeTick) : AllWait m n e := by
  refine ⟨hs ▸ h, fun p hp => .inr ⟨hs ▸ hp, .of_eq (hrest p).1 (hrest p).2 ?_ ?_⟩⟩
  all_goals rw [hs]

theorem exec_allWait (h : TableOk m.sched) {o : Replace} (pid : ℕ) :
    AllWait m (m.processReplace kernelPhysBase kernelTable pid o) (.svc (.exec o)) := by
  cases o with
  | notLoaded => exact same_allWait h rfl fun _ => ⟨rfl, rfl⟩
  | noStack =>
    simp only [processReplace]
    split
    all_goals exact same_allWait h rfl fun _ => ⟨rfl, rfl⟩
  | done pgd entry stackPt stackPages =>
    simp only [processReplace]
    split
    next => exact same_allWait h rfl fun _ => ⟨rfl, rfl⟩
    next =>
      have hw (q p : ℕ) :
          ((m.sched.write q (replaceImage pgd entry stackPt stackPages)).proc p).joinTarget =
            (m.sched.proc p).joinTarget ∧
          ((m.sched.write q (replaceImage pgd entry stackPt stackPages)).proc p).wakeTick =
            (m.sched.proc p).wakeTick := by
        by_cases hp : p = q
        · rw [hp, write_proc_self]
          exact ⟨rfl, rfl⟩
        · rw [write_proc_of_ne _ _ hp]
          exact ⟨rfl, rfl⟩
      split
      next hcur =>
        rw [hcur]
        exact ⟨⟨h.distinct, h.current⟩, fun p hp => .inr ⟨hp, .of_eq rfl rfl (hw _ p).1 (hw _ p).2⟩⟩
      next =>
        exact ⟨⟨h.distinct, h.current⟩, fun p hp => .inr ⟨hp, .of_eq rfl rfl (hw _ p).1 (hw _ p).2⟩⟩

theorem svc_allWait (h : TableOk m.sched) {call : Svc} (hf : m.Fresh (.svc call))
    (hn : m.svcDispatch kernelPhysBase kernelTable call = some n) : AllWait m n (.svc call) := by
  cases call with
  | exit => exact exit_allWait h hn
  | fork alloc => exact fork_allWait h hf hn
  | join =>
    rw [← Option.some.inj hn]
    unfold svcJoin
    split
    next h0 => exact same_allWait h rfl fun p => ⟨if_neg fun hc => hc.2 h0, rfl⟩
    next h0 =>
      refine write_allWait h (f := fun p => { p with joinTarget := m.regs.r 0, suspended := 1 }) rfl
        ⟨?_, ?_⟩ fun p hp => ⟨if_neg fun hc => hp hc.1, rfl⟩
      · rw [joinAfter, if_pos ⟨rfl, h0⟩, write_proc_self]
      · simp only [wakeAfter, write_proc_self]
  | exec o => exact Option.some.inj hn ▸ exec_allWait h _
  | sleep now freq =>
    rw [← Option.some.inj hn]
    refine write_allWait h (f := fun p =>
        { p with wakeTick := sleepDeadline (m.regs.r 0) now freq, suspended := 1 }) rfl
      ⟨?_, ?_⟩ fun p hp => ⟨rfl, if_neg hp⟩
    · simp only [svcSleep, joinAfter, write_proc_self]
    · simp only [svcSleep, wakeAfter, if_true, write_proc_self]
  | wait | other => exact Option.some.inj hn ▸ same_allWait h rfl fun _ => ⟨rfl, rfl⟩

theorem svcReturn_allWait (h : TableOk m.sched) (r0 : ℕ) :
    AllWait m (m.svcReturn kernelPhysBase r0) .svcReturn := by
  unfold svcReturn
  dsimp only
  generalize ({ m.regs with r := Function.update m.regs.r 0 r0 } : CpuCtx) = regs
  have hw (p : ℕ) := saveCtx_waits (m := m) regs p
  have hok := saveCtx_tableOk h regs
  split
  next =>
    split
    next => exact ⟨hok, fun p hp => .inr ⟨hp, .of_eq rfl rfl (hw p).1 (hw p).2⟩⟩
    next hnext =>
      exact ⟨⟨hok.distinct, (schedPickNext_some hnext).1⟩,
        fun p hp => .inr ⟨hp, .of_eq rfl rfl (hw p).1 (hw p).2⟩⟩
  next => exact same_allWait h rfl fun _ => ⟨rfl, rfl⟩

theorem step_allWait {e : Event} (h : TableOk m.sched)
    (hs : m.Step kernelPhysBase kernelTable e n) : AllWait m n e := by
  obtain ⟨hf, hn⟩ := hs
  cases e with
  | irq now => exact irq_allWait h hn
  | svc call =>
    simp only [next] at hn
    split at hn
    next => exact svc_allWait h hf hn
    next => exact absurd hn (by simp)
  | svcReturn =>
    simp only [next] at hn
    split at hn
    next r0 hm => exact Option.some.inj hn ▸ svcReturn_allWait h r0
    next => exact absurd hn (by simp)
  | run regs | input r0 | wake =>
    simp only [next] at hn
    split at hn
    next => exact Option.some.inj hn ▸ same_allWait h rfl fun _ => ⟨rfl, rfl⟩
    next => exact absurd hn (by simp)

/-- The registers in the processor are those of `current_proc`, and each context is its own. -/
structure ThreadOk (m : Machine) : Prop where
  saved : ∀ p, m.sched.Mem p → m.saved p = p
  thread : m.mode ≠ .svcIdle → m.mode ≠ .irqIdle → m.thread = m.sched.currentProc

theorem ThreadOk.user (h : ThreadOk m) (hm : m.mode = .user) : m.thread = m.sched.currentProc :=
  h.thread (by rw [hm]; decide) (by rw [hm]; decide)

theorem restore_threadOk (hs : ∀ p, m.sched.Mem p → m.saved p = p) {p : ℕ} (hp : m.sched.Mem p) :
    ThreadOk (m.restore kernelPhysBase p) := ⟨hs, fun _ _ => hs p hp⟩

theorem ThreadOk.done (h : ThreadOk m) (hm : m.mode = .user)
    (hcur : n.sched.currentProc = m.sched.currentProc) (hth : n.thread = m.thread)
    (hs : ∀ p, n.sched.Mem p → n.saved p = p) : ThreadOk n :=
  ⟨hs, fun _ _ => by rw [hcur, hth, h.user hm]⟩

theorem irq_threadOk (ht : TableOk m.sched) (h : ThreadOk m) {now : Option ℕ}
    (hk : ∀ c, now = some c → m.mode = .waiting → ¬ OtherRunnable m.sched c)
    (hn : m.next kernelPhysBase kernelTable (.irq now) = some n) : ThreadOk n := by
  rcases next_irq hn with ⟨hm, rfl⟩ | ⟨hm, rfl⟩
  · have hsv := saveCtx_saved h.saved (h.user hm) m.regs
    have hok := saveCtx_tableOk ht m.regs
    rw [handleIrqUser, if_neg ht.current.1]
    dsimp only
    generalize m.saveCtx m.regs = saved at *
    have hcur := (irqDispatch_tableOk hok now).current
    have hsaved (p : ℕ) (hp : (irqDispatch saved.sched now).Mem p) : saved.saved p = p :=
      hsv p ((irqDispatch_mem hok now p).mp hp)
    split
    · exact ⟨hsaved, fun _ hi => absurd rfl hi⟩
    · exact restore_threadOk hsaved hcur
  · refine ⟨fun p hp => h.saved p ((irqDispatch_mem ht now p).mp hp), fun hs hi => ?_⟩
    have hw := hm.resolve_right fun hd => hd.elim hs hi
    refine (h.thread hs hi).trans ?_
    cases now with
    | none => rfl
    | some c => exact (schedTick_currentProc ht (hk c rfl hw)).symm

theorem fork_threadOk (h : ThreadOk m) (hm : m.mode = .user) {alloc : Option (ℕ × ℕ)}
    (hf : FreshAlloc m.sched alloc)
    (hn : m.svcDispatch kernelPhysBase kernelTable (.fork alloc) = some n) : ThreadOk n := by
  obtain ⟨hcur, -, honly, -⟩ := processFork_frame m.regs.pc m.regs.sp m.regs.cpsr hf
  simp only [svcDispatch] at hn
  generalize processFork m.sched alloc m.regs.pc m.regs.sp m.regs.cpsr = r at *
  split at hn
  next h0 =>
    rw [← Option.some.inj hn]
    exact h.done hm hcur rfl fun p hp =>
      h.saved p ((honly p hp).resolve_right fun hpc => hp.1 (hpc.trans h0))
  next h0 =>
    rw [← Option.some.inj hn]
    refine h.done hm hcur rfl fun p hp => ?_
    dsimp only
    by_cases hpc : p = r.2
    · rw [hpc, Function.update_self]
    · rw [Function.update_of_ne hpc]
      exact h.saved p ((honly p hp).resolve_right hpc)

theorem exec_threadOk (ht : TableOk m.sched) (h : ThreadOk m) (hm : m.mode = .user) {o : Replace}
    (pid : ℕ) : ThreadOk (m.processReplace kernelPhysBase kernelTable pid o) := by
  cases o with
  | notLoaded => exact h.done hm rfl rfl h.saved
  | noStack =>
    simp only [processReplace]
    split
    all_goals exact h.done hm rfl rfl h.saved
  | done pgd entry stackPt stackPages =>
    simp only [processReplace]
    have hs (q p : ℕ) (hp : m.sched.Mem p) : Function.update m.saved q q p = p := by
      by_cases hpq : p = q
      · rw [hpq, Function.update_self]
      · rw [Function.update_of_ne hpq]
        exact h.saved p hp
    split
    next => exact h.done hm rfl rfl h.saved
    next =>
      split
      next hcur =>
        rw [hcur]
        exact ⟨hs _, fun _ _ => hs _ _ ht.current⟩
      next => exact h.done hm rfl rfl (hs _)

theorem svc_threadOk (ht : TableOk m.sched) (h : ThreadOk m) (hm : m.mode = .user) {call : Svc}
    (hf : m.Fresh (.svc call)) (hn : m.svcDispatch kernelPhysBase kernelTable call = some n) :
    ThreadOk n := by
  cases call with
  | exit =>
    simp only [svcDispatch] at hn
    split at hn
    next s hs =>
      rw [← Option.some.inj hn]
      have hsub := (processExit_frame hs).1
      exact restore_threadOk (m := { m with sched := s }) (fun p hp => h.saved p (hsub p hp))
        (processExit_tableOk ht hs).current
    next => exact absurd hn (by simp)
  | fork alloc => exact fork_threadOk h hm hf hn
  | join =>
    rw [← Option.some.inj hn]
    unfold svcJoin
    split
    all_goals exact h.done hm rfl rfl h.saved
  | exec o => exact Option.some.inj hn ▸ exec_threadOk ht h hm _
  | wait => exact Option.some.inj hn ▸ ⟨h.saved, fun _ _ => h.user hm⟩
  | sleep | other => exact Option.some.inj hn ▸ h.done hm rfl rfl h.saved

theorem step_threadOk {e : Event} (ht : TableOk m.sched) (h : ThreadOk m)
    (hk : ∀ c, e = .irq (some c) → m.mode = .waiting → ¬ OtherRunnable m.sched c)
    (hs : m.Step kernelPhysBase kernelTable e n) : ThreadOk n := by
  obtain ⟨hf, hn⟩ := hs
  cases e with
  | irq now => exact irq_threadOk ht h (fun c hc => hk c (by rw [hc])) hn
  | svc call =>
    simp only [next] at hn
    split at hn
    next hm => exact svc_threadOk ht h hm hf hn
    next => exact absurd hn (by simp)
  | run regs =>
    simp only [next] at hn
    split at hn
    next => exact Option.some.inj hn ▸ ⟨h.saved, h.thread⟩
    next => exact absurd hn (by simp)
  | input r0 =>
    simp only [next] at hn
    split at hn
    next hm =>
      rw [← Option.some.inj hn]
      exact ⟨h.saved, fun _ _ => h.thread (by rw [hm]; decide) (by rw [hm]; decide)⟩
    next => exact absurd hn (by simp)
  | svcReturn =>
    simp only [next] at hn
    split at hn
    next r0 hm =>
      rw [← Option.some.inj hn]
      have hth := h.thread (by rw [hm]; exact Mode.noConfusion) (by rw [hm]; exact Mode.noConfusion)
      unfold svcReturn
      dsimp only
      generalize ({ m.regs with r := Function.update m.regs.r 0 r0 } : CpuCtx) = regs
      split
      next =>
        have hsv := saveCtx_saved h.saved hth regs
        split
        next => exact ⟨hsv, fun hs _ => absurd rfl hs⟩
        next hnext => exact restore_threadOk hsv (schedPickNext_some hnext).1
      next => exact ⟨h.saved, fun _ _ => hth⟩
    next => exact absurd hn (by simp)
  | wake =>
    simp only [next] at hn
    split at hn
    next => exact Option.some.inj hn ▸ restore_threadOk h.saved ht.current
    next => exact absurd hn (by simp)

end Machine

namespace Watched
variable {kernelPhysBase kernelTable : ℕ} {t u : Watched}

structure UnblockedOk (t : Watched) : Prop where
  table : TableOk t.machine.sched
  thread : Machine.ThreadOk t.machine
  entered : ∀ q ∈ t.entered, q.suspended = 0 ∧ q.wakeTick = 0 ∧ q.joinTarget = 0
  joins : ∀ p, t.machine.sched.Mem p → (t.machine.sched.proc p).joinTarget ≠ 0 →
    t.joined p = some (t.machine.sched.proc p).joinTarget
  sleeps : ∀ p, t.machine.sched.Mem p → (t.machine.sched.proc p).wakeTick ≠ 0 →
    t.slept p = some (t.machine.sched.proc p).wakeTick

theorem UnblockedOk.law (h : UnblockedOk t) : Unblocked KeepsUnblocked t where
  entered := h.entered
  joins := h.joins
  sleeps := h.sleeps
  exits hm hk p hp hj := by
    have hpid : (t.machine.sched.proc t.machine.sched.currentProc).pid ≠ 0 := hk
    have hrem : (schedRemove t.machine.sched
        (t.machine.sched.proc t.machine.sched.currentProc).pid).1.proc = t.machine.sched.proc := by
      unfold schedRemove
      split
      all_goals rfl
    rw [exitTable, schedWakeJoiners_proc, hrem]
    split
    next hw => exact absurd (hw.2 ▸ h.joins p hp (hw.2 ▸ hpid)) hj
    next => rfl

/-- What an event has to leave true of those who are listed after it. -/
theorem UnblockedOk.of_allWait {e : Event} (hw : Machine.AllWait t.machine u.machine e)
    (hth : Machine.ThreadOk u.machine)
    (hentered : ∀ q ∈ u.entered, q.suspended = 0 ∧ q.wakeTick = 0 ∧ q.joinTarget = 0)
    (hnew : ∀ p, Machine.Enters t.machine u.machine e p → (t.machine.sched.proc p).joinTarget = 0)
    (hj : ∀ p, t.machine.sched.Mem p → u.machine.sched.Mem p → t.machine.joinAfter p e ≠ 0 →
      u.joined p = some (t.machine.joinAfter p e))
    (hs : ∀ p, t.machine.sched.Mem p → u.machine.sched.Mem p → t.machine.wakeAfter p e ≠ 0 →
      u.slept p = some (t.machine.wakeAfter p e)) : UnblockedOk u where
  table := hw.1
  thread := hth
  entered := hentered
  joins p hp h0 := by
    rcases hw.2 p hp with hn | ⟨hm, hp'⟩
    · exact absurd (hn.2.2.2.2.trans (hnew p hn)) h0
    · rw [hp'.join] at h0 ⊢
      exact hj p hm hp h0
  sleeps p hp h0 := by
    rcases hw.2 p hp with hn | ⟨hm, hp'⟩
    · exact absurd hn.2.2.2.1 h0
    · rw [hp'.wake] at h0 ⊢
      exact hs p hm hp h0

section Record
variable {n : Machine} (h : UnblockedOk t) (hth : Machine.ThreadOk n)
include h hth

theorem join_unblockedOk (hw : Machine.AllWait t.machine n (.svc .join))
    (huser : t.machine.thread = t.machine.sched.currentProc) :
    UnblockedOk (t.record n (.svc .join)) := by
  refine .of_allWait hw hth h.entered (fun p hp => ?_) (fun p hm _ h0 => ?_)
    fun p hm _ h0 => h.sleeps p hm h0
  · obtain ⟨-, ⟨pgd, he⟩, -⟩ := hp
    exact absurd he (by simp)
  · simp only [record, Machine.joinAfter] at h0 ⊢
    split
    next hg =>
      rw [if_neg fun hc => hc.2 hg] at h0 ⊢
      exact h.joins p hm h0
    next hg =>
      by_cases hp : p = t.machine.sched.currentProc
      · rw [if_pos ⟨hp, hg⟩, hp, huser, Function.update_self]
      · rw [if_neg fun hc => hp hc.1] at h0 ⊢
        rw [huser, Function.update_of_ne hp]
        exact h.joins p hm h0

theorem sleep_unblockedOk {now freq : ℕ}
    (hw : Machine.AllWait t.machine n (.svc (.sleep now freq)))
    (huser : t.machine.thread = t.machine.sched.currentProc) :
    UnblockedOk (t.record n (.svc (.sleep now freq))) := by
  refine .of_allWait hw hth h.entered (fun p hp => ?_) (fun p hm _ h0 => h.joins p hm h0)
    fun p hm _ h0 => ?_
  · obtain ⟨-, ⟨pgd, he⟩, -⟩ := hp
    exact absurd he (by simp)
  · simp only [record, Machine.wakeAfter] at h0 ⊢
    by_cases hp : p = t.machine.sched.currentProc
    · rw [if_pos hp, hp, huser, Function.update_self]
    · rw [if_neg hp] at h0 ⊢
      rw [huser, Function.update_of_ne hp]
      exact h.sleeps p hm h0

theorem exit_unblockedOk (hw : Machine.AllWait t.machine n (.svc .exit)) :
    UnblockedOk (t.record n (.svc .exit)) := by
  refine .of_allWait hw hth h.entered (fun p hp => ?_) (fun p hm _ h0 => ?_)
    fun p hm _ h0 => h.sleeps p hm h0
  · obtain ⟨-, ⟨pgd, he⟩, -⟩ := hp
    exact absurd he (by simp)
  · simp only [record, Machine.joinAfter] at h0 ⊢
    split at h0
    next => exact absurd rfl h0
    next hne =>
      rw [if_neg hne, h.joins p hm h0, if_neg fun hc => hne (Option.some.inj hc)]

theorem irq_unblockedOk {now : ℕ} (hw : Machine.AllWait t.machine n (.irq (some now))) :
    UnblockedOk (t.record n (.irq (some now))) := by
  refine .of_allWait hw hth h.entered (fun p hp => ?_) (fun p hm _ h0 => h.joins p hm h0)
    fun p hm _ h0 => ?_
  · obtain ⟨-, ⟨pgd, he⟩, -⟩ := hp
    exact absurd he (by simp)
  · simp only [record, Machine.wakeAfter] at h0 ⊢
    split at h0
    next => exact absurd rfl h0
    next hdue =>
      have hlt : now < (t.machine.sched.proc p).wakeTick :=
        Nat.lt_of_not_le fun hle => hdue ⟨h0, hle⟩
      rw [if_neg hdue, h.sleeps p hm h0, Option.filter_some, if_pos (decide_eq_true hlt)]

theorem fork_unblockedOk {child pgd : ℕ}
    (hf : FreshAlloc t.machine.sched (some (child, pgd)))
    (hclear : (t.machine.sched.proc child).joinTarget = 0)
    (hw : Machine.AllWait t.machine n (.svc (.fork (some (child, pgd))))) :
    UnblockedOk (t.record n (.svc (.fork (some (child, pgd))))) := by
  have hnew (p : ℕ) (hp : Machine.Enters t.machine n (.svc (.fork (some (child, pgd)))) p) :
      (t.machine.sched.proc p).joinTarget = 0 := by
    obtain ⟨-, ⟨pgd', he⟩, -⟩ := hp
    simp only [Event.svc.injEq, Svc.fork.injEq, Option.some.injEq, Prod.mk.injEq] at he
    rw [← he.1, hclear]
  simp only [record]
  split
  next hin =>
    have hne (p : ℕ) (hm : t.machine.sched.Mem p) : p ≠ child := fun hc => hf.2 (hc ▸ hm)
    refine .of_allWait hw hth (fun q hq => ?_) hnew (fun p hm _ h0 => ?_) fun p hm _ h0 => ?_
    · rcases List.mem_cons.mp hq with rfl | hq
      · rcases hw.2 child hin with hc | hc
        · exact ⟨hc.2.2.1, hc.2.2.2.1, hc.2.2.2.2.trans hclear⟩
        · exact absurd hc.1 hf.2
      · exact h.entered q hq
    · dsimp only
      rw [Function.update_of_ne (hne p hm)]
      exact h.joins p hm h0
    · dsimp only
      rw [Function.update_of_ne (hne p hm)]
      exact h.sleeps p hm h0
  next =>
    exact .of_allWait hw hth h.entered hnew (fun p hm _ h0 => h.joins p hm h0)
      fun p hm _ h0 => h.sleeps p hm h0

theorem same_unblockedOk {e : Event} (hw : Machine.AllWait t.machine n e)
    (hr : t.record n e = { t with machine := n })
    (hj : ∀ p, t.machine.joinAfter p e = (t.machine.sched.proc p).joinTarget)
    (hs : ∀ p, t.machine.wakeAfter p e = (t.machine.sched.proc p).wakeTick)
    (hnew : ∀ p pgd, e ≠ .svc (.fork (some (p, pgd)))) : UnblockedOk (t.record n e) := by
  rw [hr]
  refine .of_allWait hw hth h.entered (fun p hp => ?_) (fun p hm _ h0 => ?_) fun p hm _ h0 => ?_
  · obtain ⟨-, ⟨pgd, he⟩, -⟩ := hp
    exact absurd he (hnew p pgd)
  · rw [hj] at h0 ⊢
    exact h.joins p hm h0
  · rw [hs] at h0 ⊢
    exact h.sleeps p hm h0

end Record

theorem record_unblockedOk {n : Machine} {e : Event} (h : UnblockedOk t)
    (hk : t.KeepsUnblocked (.event e)) (hst : t.machine.Step kernelPhysBase kernelTable e n) :
    UnblockedOk (t.record n e) := by
  have hw := Machine.step_allWait h.table hst
  have hth : Machine.ThreadOk n := by
    refine Machine.step_threadOk h.table h.thread (fun c he => ?_) hst
    subst he
    exact hk
  have huser (call : Svc) (he : e = .svc call) : t.machine.thread = t.machine.sched.currentProc :=
    h.thread.user (Machine.svc_user (he ▸ hst)).1
  cases e with
  | irq now =>
    cases now with
    | none => exact same_unblockedOk h hth hw rfl (fun _ => rfl) (fun _ => rfl) (by simp)
    | some now => exact irq_unblockedOk h hth hw
  | svc call =>
    cases call with
    | exit => exact exit_unblockedOk h hth hw
    | fork alloc =>
      cases alloc with
      | none => exact same_unblockedOk h hth hw rfl (fun _ => rfl) (fun _ => rfl) (by simp)
      | some a => exact fork_unblockedOk h hth hst.1 hk hw
    | join => exact join_unblockedOk h hth hw (huser _ rfl)
    | sleep now freq => exact sleep_unblockedOk h hth hw (huser _ rfl)
    | exec | wait | other =>
      exact same_unblockedOk h hth hw rfl (fun _ => rfl) (fun _ => rfl) (by simp)
  | run | input | svcReturn | wake =>
    exact same_unblockedOk h hth hw rfl (fun _ => rfl) (fun _ => rfl) (by simp)

theorem reuse_unblockedOk {p : ℕ} {content : Process} (h : UnblockedOk t)
    (hn : t.next kernelPhysBase kernelTable (.reuse p content) = some u) : UnblockedOk u := by
  rw [next] at hn
  split at hn
  next => exact absurd hn (by simp)
  next hp =>
    rw [← Option.some.inj hn]
    have hne (q : ℕ) (hq : t.machine.sched.Mem q) :
        (t.machine.sched.write p fun _ => content).proc q = t.machine.sched.proc q :=
      write_proc_of_ne _ _ fun hc => hp (hc ▸ hq)
    refine ⟨⟨h.table.distinct, h.table.current⟩, ⟨h.thread.saved, h.thread.thread⟩, h.entered,
      fun q hq => ?_, fun q hq => ?_⟩
    · dsimp only
      rw [hne q hq]
      exact h.joins q hq
    · dsimp only
      rw [hne q hq]
      exact h.sleeps q hq

theorem step_unblockedOk {a : Act} (h : UnblockedOk t) (hk : t.KeepsUnblocked a)
    (hs : t.Step kernelPhysBase kernelTable a u) : UnblockedOk u := by
  obtain ⟨hf, hn⟩ := hs
  cases a with
  | event e =>
    obtain ⟨n, hnext, rfl⟩ := Option.map_eq_some_iff.mp hn
    exact record_unblockedOk h hk ⟨hf, hnext⟩
  | reuse p content => exact reuse_unblockedOk h hn

theorem boot_unblockedOk {old : Process} (h : t.Boot kernelPhysBase old)
    (hw : old.wakeTick = 0) (hj : old.joinTarget = 0) : UnblockedOk t := by
  obtain ⟨hboot, ⟨pid, pgd, entry, stackPt, stackPages, hfirst⟩, hjoined, hslept, hentered⟩ := h
  obtain ⟨p, proc, pid', hp, hsched, -, -, hth, hsaved, -, -⟩ := hboot
  obtain ⟨hok, hcur, honly, -⟩ := processExec_first proc pid' hp
  rw [← hsched] at hok hcur honly
  have hclear : (t.machine.sched.proc t.machine.sched.currentProc).suspended = 0 ∧
      (t.machine.sched.proc t.machine.sched.currentProc).wakeTick = 0 ∧
      (t.machine.sched.proc t.machine.sched.currentProc).joinTarget = 0 := by
    rw [hfirst]
    exact ⟨rfl, hw, hj⟩
  refine ⟨hok, ⟨fun q _ => by rw [hsaved]; rfl, fun _ _ => hth.trans hcur.symm⟩, fun q hq => ?_,
    fun q hq h0 => absurd ?_ h0, fun q hq h0 => absurd ?_ h0⟩
  · rw [hentered, List.mem_singleton] at hq
    exact hq ▸ hclear
  · rw [honly q hq, ← hcur]
    exact hclear.2.2
  · rw [honly q hq, ← hcur]
    exact hclear.2.1

/-- In every run over structs' memory that holds 0 in the two fields, processes start unblocked,
and nobody waits or is woken that did not ask for it. -/
theorem run_unblocked {old : Process} {as : List Act} (h : t.Boot kernelPhysBase old)
    (hw : old.wakeTick = 0) (hj : old.joinTarget = 0)
    (hr : Run (Meeting KeepsUnblocked (Step kernelPhysBase kernelTable)) t as u) :
    Unblocked KeepsUnblocked u :=
  (hr.preserves (I := UnblockedOk) (fun _ _ _ hi hs => step_unblockedOk hi hs.1 hs.2)
    (boot_unblockedOk h hw hj)).law

/-- The first process, which `process_create` has built and `process_exec` enters. -/
def started (kernelPhysBase : ℕ) (s : System) (p : ℕ) : Watched where
  machine := { Machine.init with
    sched := processExec ⟨fun _ => 0, s.sched.proc, 0, s.sched.nextPid⟩ p
    ttbr0 := virtToPhys kernelPhysBase (s.sched.proc p).pgd
    thread := p }
  joined := fun _ => none
  slept := fun _ => none
  entered := [{ s.sched.proc p with suspended := 0 }]

theorem started_boot {s t : System} {file : Option FsFile} {p : ℕ} (hp : p ≠ 0)
    (h : s.processCreate kernelPhysBase file = some (t, p)) :
    (started kernelPhysBase t p).Boot kernelPhysBase (s.sched.proc p) := by
  obtain ⟨-, hcur, -, -⟩ := processExec_first t.sched.proc t.sched.nextPid hp
  have hproc := processExec_proc (p := p) t.sched.proc t.sched.nextPid
  have hfirst : (started kernelPhysBase t p).machine.sched.proc
      (started kernelPhysBase t p).machine.sched.currentProc =
        { t.sched.proc p with suspended := 0 } := by
    rw [started]
    dsimp only
    rw [hcur, hproc]
  obtain ⟨pgd, entry, stackPt, stackPages, hq⟩ := processCreate_struct hp h
  refine ⟨⟨p, t.sched.proc, t.sched.nextPid, hp, rfl, ?_, rfl, rfl, rfl, rfl, rfl⟩,
    ⟨_, pgd, entry, stackPt, stackPages, hfirst.trans (by rw [hq])⟩, rfl, rfl, by rw [hfirst]; rfl⟩
  rw [started]
  dsimp only
  rw [hproc]

/-- A test for runs of the first process that is created after boot. -/
def firstRun (ok : Watched → Act → Bool) (as : List Act) : Option (System × ℕ × Watched) := do
  let g ← highRamConfig.init fun _ => 0
  let (s, p) ← (systemOf highRamConfig g).processCreate highRamConfig.kernelPhysBase (some initFile)
  let u ← execute ok (next highRamConfig.kernelPhysBase 0xC0008000)
    (started highRamConfig.kernelPhysBase s p) as
  return (s, p, u)

theorem firstRun_some {ok : Watched → Act → Bool} {as : List Act} {s : System} {p : ℕ}
    {u : Watched} (h : firstRun ok as = some (s, p, u)) (hp : p ≠ 0) :
    (started highRamConfig.kernelPhysBase s p).Boot highRamConfig.kernelPhysBase default ∧
      execute ok (next highRamConfig.kernelPhysBase 0xC0008000)
        (started highRamConfig.kernelPhysBase s p) as = some u := by
  simp only [firstRun, Option.bind_eq_bind, Option.bind_eq_some_iff, Prod.exists] at h
  obtain ⟨g, -, s', p', hcreate, u', hexec, h⟩ := h
  cases h
  exact ⟨started_boot hp hcreate, hexec⟩

/-- A fork over reused memory, a join, the child's sleep and exit, and a fork over its struct. -/
def reusingRun : List Act :=
  [.reuse 0xC0108000 { (default : Process) with wakeTick := 9, suspended := 3 },
    .event (.svc (.fork (some (0xC0108000, 0xC0108400)))), .event .svcReturn,
    .event (.run (Machine.argRegs 2)), .event (.svc .join), .event .svcReturn,
    .event (.run (Machine.argRegs 7)), .event (.svc (.sleep 10 1000000)), .event .svcReturn,
    .event (.irq (some 30)), .event .wake, .event (.svc .exit),
    .event (.svc (.fork (some (0xC0108000, 0xC0108400)))), .event .svcReturn]

theorem reusingRun_unblocked : ∃ t u, t.Boot highRamConfig.kernelPhysBase default ∧
    Run (Meeting KeepsUnblocked (Step highRamConfig.kernelPhysBase 0xC0008000)) t reusingRun u ∧
      Unblocked KeepsUnblocked u := by
  have hany : (firstRun (fun t a => decide (t.KeepsUnblocked a ∧ t.Fresh a)) reusingRun).any
      (fun r => decide (r.2.1 ≠ 0)) = true := by
    decide +kernel
  obtain ⟨⟨s, p, u⟩, hrun, hp⟩ := (Option.any_eq_true _ _).mp hany
  obtain ⟨hboot, hexec⟩ := firstRun_some hrun (of_decide_eq_true hp)
  have hmeets : Run (Meeting KeepsUnblocked (Step highRamConfig.kernelPhysBase 0xC0008000))
      (started highRamConfig.kernelPhysBase s p) reusingRun u :=
    Run.of_execute (fun _ _ _ hok ht =>
      ⟨(of_decide_eq_true hok).1, (of_decide_eq_true hok).2, ht⟩) hexec
  exact ⟨_, u, hboot, hmeets, run_unblocked hboot rfl rfl hmeets⟩

/-- The memory of a buffer with a 1 in it becomes a struct, and its process waits for the first. -/
def staleRun : List Act :=
  [.reuse 0xC0108000 { (default : Process) with joinTarget := 1 },
    .event (.svc (.fork (some (0xC0108000, 0xC0108400)))), .event .svcReturn]

theorem stale_join_target : ¬ ∀ kernelPhysBase kernelTable old t as u, t.Boot kernelPhysBase old →
    Run (Step kernelPhysBase kernelTable) t as u → Unblocked (fun _ _ => True) u := by
  intro h
  have hany : (firstRun (fun t a => decide (t.Fresh a)) staleRun).any (fun r => decide (r.2.1 ≠ 0 ∧
      r.2.2.machine.sched.Mem 0xC0108000 ∧
        (r.2.2.machine.sched.proc 0xC0108000).joinTarget ≠ 0 ∧
        r.2.2.joined 0xC0108000 = none)) = true := by
    decide +kernel
  obtain ⟨⟨s, p, u⟩, hfirst, hno⟩ := (Option.any_eq_true _ _).mp hany
  obtain ⟨hp, hmem, hj, hnone⟩ := of_decide_eq_true hno
  obtain ⟨hboot, hexec⟩ := firstRun_some hfirst hp
  have hrun : Run (Step highRamConfig.kernelPhysBase 0xC0008000)
      (started highRamConfig.kernelPhysBase s p) staleRun u :=
    Run.of_execute (fun _ _ _ hok ht => ⟨of_decide_eq_true hok, ht⟩) hexec
  have hjoined := (h _ _ _ _ _ _ hboot hrun).joins _ hmem hj
  rw [hnone] at hjoined
  exact absurd hjoined (by simp)

end Watched

end Leg
