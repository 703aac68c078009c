import Leg.Lib.Runs
import Leg.Process.ExitTable
import Leg.Process.Traps

/-! Who wakes whom: what one event can do to the struct of a listed process, and from it how long
a join and a sleep last and what the joiner gets back. -/
namespace Leg.Machine
open Runs Sched

/-- Ticks come in user mode and in the idle loops, a fork's struct starts without a join target,
and no image is replaced. -/
def InProtocol (m : Machine) : Event → Prop
  | .irq (some _) => m.mode ≠ .waiting
  | .svc (.fork (some (child, _))) => (m.sched.proc child).joinTarget = 0
  | .svc (.exec _) => False
  | _ => True

/-- The current process has a pid that is not 0 and no other listed process's. -/
def OwnPid (s : Sched) : Prop :=
  (s.proc s.currentProc).pid ≠ 0 ∧ ∀ i, s.procs i ≠ 0 →
    (s.proc (s.procs i)).pid = (s.proc s.currentProc).pid → s.procs i = s.currentProc

/-- A process that exits does so under its own pid. -/
def ExitsOwnPid (m : Machine) : Event → Prop
  | .svc .exit => OwnPid m.sched
  | _ => True

def KeepsProtocol (m : Machine) (e : Event) : Prop := m.InProtocol e ∧ m.ExitsOwnPid e

instance (m : Machine) (e : Event) : Decidable (m.InProtocol e) :=
  match e with
  | .irq (some _) => inferInstanceAs (Decidable (_ ≠ _))
  | .svc (.fork (some (_, _))) => inferInstanceAs (Decidable (_ = _))
  | .svc (.exec _) => isFalse id
  | .irq none | .svc (.fork none) | .svc .exit | .svc .join | .svc .wait | .svc (.sleep _ _)
  | .svc (.other _) | .run _ | .input _ | .svcReturn | .wake => isTrue trivial

instance (s : Sched) : Decidable (OwnPid s) := inferInstanceAs (Decidable (_ ∧ _))

instance (m : Machine) (e : Event) : Decidable (m.ExitsOwnPid e) :=
  match e with
  | .svc .exit => inferInstanceAs (Decidable (OwnPid m.sched))
  | .svc (.fork _) | .svc .join | .svc (.exec _) | .svc .wait | .svc (.sleep _ _)
  | .svc (.other _) | .run _ | .irq _ | .input _ | .svcReturn | .wake => isTrue trivial

instance (m : Machine) (e : Event) : Decidable (m.KeepsProtocol e) :=
  inferInstanceAs (Decidable (_ ∧ _))

/-- Listed, suspended, and with these two wake conditions. -/
def Blocked (s : Sched) (p target deadline : ℕ) : Prop :=
  s.Mem p ∧ (s.proc p).suspended ≠ 0 ∧ (s.proc p).joinTarget = target ∧
    (s.proc p).wakeTick = deadline

/-- The registers in the processor are those of the process `p`. -/
def Running (m : Machine) (p : ℕ) : Prop :=
  m.sched.currentProc = p ∧ m.mode ≠ .svcIdle ∧ m.mode ≠ .irqIdle

/-- The deadline has passed at counter `now`. -/
def Due (q : Process) (now : ℕ) : Prop := q.wakeTick ≠ 0 ∧ q.wakeTick ≤ now

structure ProtocolOk (m : Machine) : Prop where
  table : TableOk m.sched
  clear : ∀ p, m.sched.Mem p → (m.sched.proc p).suspended = 0 →
    (m.sched.proc p).joinTarget = 0 ∧ (m.sched.proc p).wakeTick = 0
  one : ∀ p, m.sched.Mem p → (m.sched.proc p).joinTarget = 0 ∨ (m.sched.proc p).wakeTick = 0
  runs : m.mode = .user ∨ m.mode = .waiting → (m.sched.proc m.sched.currentProc).suspended = 0

section Tick
variable {s : Sched}

/-- What a tick does to the struct of a listed process. -/
theorem schedTick_listed (h : TableOk s) (now : ℕ) {p : ℕ} (hp : s.Mem p) :
    (schedTick s now).Mem p ∧
    ((schedTick s now).proc p).pid = (s.proc p).pid ∧
    ((schedTick s now).proc p).ctx = (s.proc p).ctx ∧
    ((schedTick s now).proc p).joinTarget = (s.proc p).joinTarget ∧
    (Due (s.proc p) now ∧ ((schedTick s now).proc p).wakeTick = 0 ∨
      ((schedTick s now).proc p).wakeTick = (s.proc p).wakeTick ∧
        (((schedTick s now).proc p).suspended = (s.proc p).suspended ∨
          ((schedTick s now).proc p).suspended = 1)) := by
  have hw : let q := (wakeSleepers s now).proc p
      q.pid = (s.proc p).pid ∧ q.ctx = (s.proc p).ctx ∧ q.joinTarget = (s.proc p).joinTarget ∧
        (Due (s.proc p) now ∧ q.wakeTick = 0 ∨
          q.wakeTick = (s.proc p).wakeTick ∧ q.suspended = (s.proc p).suspended) := by
    rw [wakeSleepers_proc]
    by_cases hd : Due (s.proc p) now
    · rw [if_pos ⟨hp, hd⟩]
      exact ⟨rfl, rfl, rfl, .inl ⟨hd, rfl⟩⟩
    · rw [if_neg fun hc => hd hc.2]
      exact ⟨rfl, rfl, rfl, .inr ⟨rfl, rfl⟩⟩
  obtain ⟨hpid, hctx, hj, hrest⟩ := hw
  rcases schedTick_cases now h.distinct h.current with ⟨-, ht⟩ | ⟨-, n, -, -, -, ht⟩
  · rw [ht]
    refine ⟨by rwa [Mem, wakeSleepers_procs], hpid, hctx, hj, ?_⟩
    exact hrest.imp id fun hk => ⟨hk.1, .inl hk.2⟩
  · rw [ht]
    refine ⟨by rwa [Mem, write_procs, wakeSleepers_procs], ?_⟩
    dsimp only
    by_cases hc : p = s.currentProc
    · -- the current process is preempted
      subst hc
      rw [write_proc_self]
      exact ⟨hpid, hctx, hj, hrest.imp id fun hk => ⟨hk.1, .inr rfl⟩⟩
    · rw [write_proc_of_ne _ _ hc]
      exact ⟨hpid, hctx, hj, hrest.imp id fun hk => ⟨hk.1, .inl hk.2⟩⟩

end Tick

theorem processFork_mem {s : Sched} {alloc : Option (ℕ × ℕ)} (lrSvc spUsr cpsr : ℕ)
    (hf : FreshAlloc s alloc) {p : ℕ} (hp : s.Mem p) :
    (processFork s alloc lrSvc spUsr cpsr).1.Mem p := by
  rcases alloc with _ | ⟨child, pgd⟩
  · exact hp
  obtain ⟨-, -, -, hslot⟩ := processFork_some s child pgd lrSvc spUsr cpsr
  generalize processFork s (some (child, pgd)) lrSvc spUsr cpsr = r at *
  rcases hslot with ⟨i, hi, hprocs, -⟩ | ⟨-, hprocs, -⟩
  · have := (mem_update_slot hi hf.1 p).mpr (.inl hp)
    simpa [Mem, hprocs] using this
  · rwa [Mem, hprocs]

section Steps
variable {kernelPhysBase kernelTable : ℕ} {m n : Machine} {e : Event}

/-- Everything one event can do to the struct of a listed process. -/
inductive Change (m n : Machine) (e : Event) (p : ℕ) : Prop
  /-- It exits. -/
  | gone (he : e = .svc .exit) (hp : Running m p) (hm : m.mode = .user)
      (hgone : ¬ n.sched.Mem p)
  /-- The process it is joined on exits. -/
  | joined (he : e = .svc .exit) (hm : n.sched.Mem p)
      (ht : (m.sched.proc p).joinTarget = (m.sched.proc m.sched.currentProc).pid)
      (hq : n.sched.proc p = wakeJoiner (m.regs.r 0) (m.sched.proc p))
  /-- It calls `svc_join` or `svc_sleep`. -/
  | blocks (hp : Running m p) (hm : m.mode = .user) (hmem : n.sched.Mem p)
      (hpid : (n.sched.proc p).pid = (m.sched.proc p).pid)
      (hs : (n.sched.proc p).suspended = 1)
      (hone : (n.sched.proc p).joinTarget = (m.sched.proc p).joinTarget ∨
        (n.sched.proc p).wakeTick = (m.sched.proc p).wakeTick)
  /-- Its deadline has passed. -/
  | due {now : ℕ} (he : e = .irq (some now)) (hmem : n.sched.Mem p)
      (hd : Due (m.sched.proc p) now)
      (hpid : (n.sched.proc p).pid = (m.sched.proc p).pid)
      (hj : (n.sched.proc p).joinTarget = (m.sched.proc p).joinTarget)
      (hw : (n.sched.proc p).wakeTick = 0)
  /-- It is left alone, saved or preempted. -/
  | kept (hmem : n.sched.Mem p)
      (hpid : (n.sched.proc p).pid = (m.sched.proc p).pid)
      (hj : (n.sched.proc p).joinTarget = (m.sched.proc p).joinTarget)
      (hw : (n.sched.proc p).wakeTick = (m.sched.proc p).wakeTick)
      (hs : (n.sched.proc p).suspended = (m.sched.proc p).suspended ∨
        (n.sched.proc p).suspended = 1)
      (hctx : (n.sched.proc p).ctx = (m.sched.proc p).ctx ∨ Running m p)

theorem Change.of_same {p : ℕ} (hmem : n.sched.Mem p) {ctx : CpuCtx}
    (hq : n.sched.proc p = { m.sched.proc p with ctx := ctx })
    (hctx : ctx = (m.sched.proc p).ctx ∨ Running m p) : Change m n e p := by
  refine .kept hmem ?_ ?_ ?_ (.inl ?_) ?_
  all_goals rw [hq]
  exact hctx

theorem Change.of_eq {p : ℕ} (hmem : n.sched.Mem p) (hq : n.sched.proc p = m.sched.proc p) :
    Change m n e p := .of_same hmem hq (.inl rfl)

/-- The tick of an IRQ, after the running process was saved or in an idle loop. -/
theorem Change.of_irq {s : Sched} {now : Option ℕ} {p : ℕ} (hs : TableOk s) (hmem : s.Mem p)
    {ctx : CpuCtx} (hq : s.proc p = { m.sched.proc p with ctx := ctx })
    (hctx : ctx = (m.sched.proc p).ctx ∨ Running m p)
    (hnp : n.sched.procs = (irqDispatch s now).procs)
    (hn : n.sched.proc = (irqDispatch s now).proc) : Change m n (.irq now) p := by
  cases now with
  | none =>
    refine .of_same (by rwa [Mem, hnp]) ?_ hctx
    rw [hn]
    exact hq
  | some now =>
    obtain ⟨hm, hpid, hc, hj, hrest⟩ := schedTick_listed hs now hmem
    have hmem' : n.sched.Mem p := by rwa [Mem, hnp]
    rw [hq] at hpid hc hj hrest
    rcases hrest with ⟨hd, hw⟩ | ⟨hw, hsus⟩
    · exact .due rfl hmem' hd (by rw [hn]; exact hpid) (by rw [hn]; exact hj)
        (by rw [hn]; exact hw)
    · refine .kept hmem' ?_ ?_ ?_ ?_ ?_
      all_goals rw [hn]
      · exact hpid
      · exact hj
      · exact hw
      · exact hsus
      · rw [irqDispatch, hc]
        exact hctx

theorem saveCtx_proc (regs : CpuCtx) (p : ℕ) : ∃ ctx,
    (m.saveCtx regs).sched.proc p = { m.sched.proc p with ctx := ctx } ∧
      (ctx = (m.sched.proc p).ctx ∨ p = m.sched.currentProc) := by
  by_cases hp : p = m.sched.currentProc
  · refine ⟨regs, ?_, .inr hp⟩
    rw [hp, saveCtx, write_proc_self]
  · refine ⟨(m.sched.proc p).ctx, ?_, .inl rfl⟩
    rw [saveCtx, write_proc_of_ne _ _ hp]

theorem svc_change {call : Svc} (h : ProtocolOk m) (hk : m.KeepsProtocol (.svc call))
    (hm : m.mode = .user) (hfresh : m.Fresh (.svc call))
    (hn : m.svcDispatch kernelPhysBase kernelTable call = some n) {p : ℕ} (hp : m.sched.Mem p) :
    Change m n (.svc call) p := by
  have hrun (heq : p = m.sched.currentProc) : Running m p :=
    ⟨heq.symm, by rw [hm]; decide, by rw [hm]; decide⟩
  have hmodes : m.mode ≠ .svcIdle ∧ m.mode ≠ .irqIdle := by rw [hm]; decide
  cases call with
  | exit =>
    rw [svcDispatch] at hn
    split at hn
    next s hs =>
      obtain ⟨h0, hcur, hnext, rfl⟩ := processExit_eq hs
      rw [← Option.some.inj hn]
      by_cases hpc : p = m.sched.currentProc
      · exact .gone rfl (hrun hpc) hm fun hin =>
          ((exitTable_mem (m.regs.r 0) h.table.distinct h0 hcur p).mp hin).2 hpc
      have hmem := (exitTable_mem (m.regs.r 0) h.table.distinct h0 hcur p).mpr ⟨hp, hpc⟩
      have hproc := exitTable_proc (m.regs.r 0) h.table.distinct h0 hcur hp hpc
      split at hproc
      next hj => exact .joined rfl hmem hj hproc
      next => exact .of_eq hmem hproc
    next => exact absurd hn (by simp)
  | fork alloc =>
    obtain ⟨-, hold, -, -⟩ := processFork_frame m.regs.pc m.regs.sp m.regs.cpsr hfresh
    have hmem := processFork_mem m.regs.pc m.regs.sp m.regs.cpsr hfresh hp
    rw [svcDispatch] at hn
    split at hn
    · exact Option.some.inj hn ▸ .of_eq hmem (hold p hp)
    · exact Option.some.inj hn ▸ .of_eq hmem (hold p hp)
  | join =>
    rw [← Option.some.inj hn]
    unfold svcJoin
    split
    next => exact .of_eq hp rfl
    next =>
      by_cases hpc : p = m.sched.currentProc
      · refine .blocks (hrun hpc) hm hp ?_ ?_ (.inr ?_)
        all_goals subst hpc; simp
      · refine .of_eq hp ?_
        dsimp only
        rw [write_proc_of_ne _ _ hpc]
  | exec outcome => exact absurd hk.1 id
  | wait => exact Option.some.inj hn ▸ .of_eq hp rfl
  | sleep now freq =>
    rw [← Option.some.inj hn]
    by_cases hpc : p = m.sched.currentProc
    · refine .blocks (hrun hpc) hm hp ?_ ?_ (.inl ?_)
      all_goals subst hpc; simp [svcSleep]
    · refine .of_eq hp ?_
      dsimp only [svcSleep]
      rw [write_proc_of_ne _ _ hpc]
  | other r0 => exact Option.some.inj hn ▸ .of_eq hp rfl

theorem step_change (h : ProtocolOk m) (hk : m.KeepsProtocol e)
    (hs : m.Step kernelPhysBase kernelTable e n) {p : ℕ} (hp : m.sched.Mem p) :
    Change m n e p := by
  obtain ⟨hfresh, hn⟩ := hs
  cases e with
  | run regs =>
    simp only [next] at hn
    split at hn
    next => exact Option.some.inj hn ▸ .of_eq hp rfl
    next => exact absurd hn (by simp)
  | irq now =>
    rcases next_irq hn with ⟨hm, rfl⟩ | ⟨hm, rfl⟩
    · obtain ⟨ctx, hq, hctx⟩ := saveCtx_proc (m := m) m.regs p
      have hrun : ctx = (m.sched.proc p).ctx ∨ Running m p := hctx.imp id fun heq =>
        ⟨heq.symm, by rw [hm]; decide, by rw [hm]; decide⟩
      rw [handleIrqUser, if_neg h.table.current.1]
      dsimp only
      split
      · exact .of_irq (saveCtx_tableOk h.table m.regs) hp hq hrun rfl rfl
      · exact .of_irq (saveCtx_tableOk h.table m.regs) hp hq hrun rfl rfl
    · have hctx : m.sched.proc p = { m.sched.proc p with ctx := (m.sched.proc p).ctx } := rfl
      exact .of_irq h.table hp hctx (.inl rfl) rfl rfl
  | svc call =>
    simp only [next] at hn
    split at hn
    next hm => exact svc_change h hk hm hfresh hn hp
    next => exact absurd hn (by simp)
  | input r0 =>
    simp only [next] at hn
    split at hn
    next => exact Option.some.inj hn ▸ .of_eq hp rfl
    next => exact absurd hn (by simp)
  | svcReturn =>
    simp only [next] at hn
    split at hn
    next r0 hm =>
      rw [← Option.some.inj hn, svcReturn]
      dsimp only
      split
      next =>
        generalize ({ m.regs with r := Function.update m.regs.r 0 r0 } : CpuCtx) = regs
        obtain ⟨ctx, hq, hctx⟩ := saveCtx_proc (m := m) regs p
        have hrun : ctx = (m.sched.proc p).ctx ∨ Running m p := hctx.imp id fun heq =>
          ⟨heq.symm, by rw [hm]; exact Mode.noConfusion, by rw [hm]; exact Mode.noConfusion⟩
        split
        · exact .of_same hp hq hrun
        · exact .of_same hp hq hrun
      next => exact .of_eq hp rfl
    next => exact absurd hn (by simp)
  | wake =>
    simp only [next] at hn
    split at hn
    next => exact Option.some.inj hn ▸ .of_eq hp rfl
    next => exact absurd hn (by simp)

/-- Who is listed afterwards was listed before, or is the new child with its fields clear. -/
theorem step_mem (h : ProtocolOk m) (hk : m.KeepsProtocol e)
    (hs : m.Step kernelPhysBase kernelTable e n) {p : ℕ} (hp : n.sched.Mem p) :
    m.sched.Mem p ∨ (n.sched.proc p).joinTarget = 0 ∧ (n.sched.proc p).wakeTick = 0 := by
  obtain ⟨hfresh, hn⟩ := hs
  cases e with
  | irq now =>
    left
    rcases next_irq hn with ⟨hm, rfl⟩ | ⟨hm, rfl⟩
    · rw [handleIrqUser, if_neg h.table.current.1] at hp
      dsimp only at hp
      have hmem := irqDispatch_mem (saveCtx_tableOk h.table m.regs) now p
      split at hp
      · exact hmem.mp hp
      · exact hmem.mp hp
    · exact (irqDispatch_mem h.table now p).mp hp
  | svc call =>
    simp only [next] at hn
    split at hn
    next hm =>
      cases call with
      | exit =>
        rw [svcDispatch] at hn
        split at hn
        next s hs =>
          rw [← Option.some.inj hn] at hp
          exact .inl ((processExit_frame hs).1 p hp)
        next => exact absurd hn (by simp)
      | fork alloc =>
        obtain ⟨-, -, honly, hchild⟩ := processFork_frame m.regs.pc m.regs.sp m.regs.cpsr hfresh
        rw [svcDispatch] at hn
        have hforked : n.sched = (processFork m.sched alloc m.regs.pc m.regs.sp m.regs.cpsr).1 := by
          split at hn
          · rw [← Option.some.inj hn]
          · rw [← Option.some.inj hn]
        rw [hforked] at hp ⊢
        refine (honly p hp).imp id fun heq => ?_
        obtain ⟨-, pgd, hq⟩ := hchild (heq ▸ hp.1)
        rw [heq, hq]
        refine ⟨?_, rfl⟩
        -- the field is what the struct's memory held
        cases alloc with
        | none => exact absurd heq hp.1
        | some a =>
          obtain ⟨-, -, -, ⟨-, -, -, hr⟩ | ⟨-, -, hr⟩⟩ :=
            processFork_some m.sched a.1 a.2 m.regs.pc m.regs.sp m.regs.cpsr
          · rw [show (processFork m.sched (some a) m.regs.pc m.regs.sp m.regs.cpsr).2 = a.1 from hr]
            exact hk.1
          · exact absurd (heq.trans hr) hp.1
      | join =>
        rw [← Option.some.inj hn] at hp
        refine .inl ?_
        unfold svcJoin at hp
        split at hp
        · exact hp
        · exact hp
      | exec outcome => exact absurd hk.1 id
      | wait | sleep | other =>
        rw [← Option.some.inj hn] at hp
        exact .inl hp
    next => exact absurd hn (by simp)
  | svcReturn =>
    simp only [next] at hn
    split at hn
    next r0 hm =>
      left
      rw [← Option.some.inj hn, svcReturn] at hp
      dsimp only at hp
      split at hp
      · split at hp
        · exact hp
        · exact hp
      · exact hp
    next => exact absurd hn (by simp)
  | run regs | input r0 | wake =>
    simp only [next] at hn
    split at hn
    next =>
      rw [← Option.some.inj hn] at hp
      exact .inl hp
    next => exact absurd hn (by simp)

/-- What the processor does after an event: it runs a context it has just restored, idles, or goes
on for the same process. -/
inductive Outcome (m n : Machine) : Prop
  | restored (hm : n.mode = .user) (hr : n.regs = (n.sched.proc n.sched.currentProc).ctx)
      (hs : (n.sched.proc n.sched.currentProc).suspended = 0)
  | idle (hm : n.mode = .svcIdle ∨ n.mode = .irqIdle)
  | same (hc : n.sched.currentProc = m.sched.currentProc) (hi : m.mode ≠ .svcIdle)
      (hi' : m.mode ≠ .irqIdle)
      (hs : n.mode = .user ∨ n.mode = .waiting → (n.sched.proc n.sched.currentProc).suspended = 0)

theorem svc_outcome {call : Svc} (h : ProtocolOk m) (hk : m.KeepsProtocol (.svc call))
    (hm : m.mode = .user) (hfresh : m.Fresh (.svc call))
    (hn : m.svcDispatch kernelPhysBase kernelTable call = some n) : Outcome m n := by
  have hsi : m.mode ≠ .svcIdle := by rw [hm]; decide
  have hii : m.mode ≠ .irqIdle := by rw [hm]; decide
  have hdone (k : Machine) (hc : k.sched.currentProc = m.sched.currentProc) {r0 : ℕ}
      (hmode : k.mode = .svcDone r0) : Outcome m k := by
    refine .same hc hsi hii fun hor => ?_
    rw [hmode] at hor
    exact hor.elim Mode.noConfusion Mode.noConfusion
  cases call with
  | exit =>
    rw [svcDispatch] at hn
    split at hn
    next s hs =>
      obtain ⟨-, -, hnext, rfl⟩ := processExit_eq hs
      rw [← Option.some.inj hn]
      exact .restored rfl rfl (schedPickNext_some hnext).2
    next => exact absurd hn (by simp)
  | fork alloc =>
    obtain ⟨hc, -, -, -⟩ := processFork_frame m.regs.pc m.regs.sp m.regs.cpsr hfresh
    rw [svcDispatch] at hn
    split at hn
    · exact Option.some.inj hn ▸ hdone _ hc rfl
    · exact Option.some.inj hn ▸ hdone _ hc rfl
  | join =>
    refine Option.some.inj hn ▸ hdone _ ?_ rfl
    dsimp only
    unfold svcJoin
    split <;> rfl
  | exec outcome => exact absurd hk.1 id
  | wait => exact Option.some.inj hn ▸ .same rfl hsi hii fun _ => h.runs (.inl hm)
  | sleep now freq => exact Option.some.inj hn ▸ hdone _ rfl rfl
  | other r0 => exact Option.some.inj hn ▸ hdone _ rfl rfl

theorem step_outcome (h : ProtocolOk m) (hk : m.KeepsProtocol e)
    (hs : m.Step kernelPhysBase kernelTable e n) : Outcome m n := by
  obtain ⟨hfresh, hn⟩ := hs
  cases e with
  | irq now =>
    rcases next_irq hn with ⟨hm, rfl⟩ | ⟨hm, rfl⟩
    · rw [handleIrqUser, if_neg h.table.current.1]
      dsimp only
      split
      next => exact .idle (.inr rfl)
      next hrun => exact .restored rfl rfl (not_not.mp hrun)
    · rcases hm with hm | hm
      · -- a waiting handler sees no tick
        cases now with
        | none =>
          refine .same rfl ?_ ?_ fun _ => h.runs (.inr hm)
          all_goals rw [hm]; decide
        | some now => exact absurd hm hk.1
      · exact .idle hm
  | svc call =>
    simp only [next] at hn
    split at hn
    next hm => exact svc_outcome h hk hm hfresh hn
    next => exact absurd hn (by simp)
  | svcReturn =>
    simp only [next] at hn
    split at hn
    next r0 hm =>
      rw [← Option.some.inj hn, svcReturn]
      dsimp only
      split
      next =>
        split
        next => exact .idle (.inl rfl)
        next hnext => exact .restored rfl rfl (schedPickNext_some hnext).2
      next hrun =>
        refine .same rfl ?_ ?_ fun _ => not_not.mp hrun
        all_goals rw [hm]; exact Mode.noConfusion
    next => exact absurd hn (by simp)
  | run regs =>
    simp only [next] at hn
    split at hn
    next hm =>
      rw [← Option.some.inj hn]
      refine .same rfl ?_ ?_ fun _ => h.runs (.inl hm)
      all_goals rw [hm]; decide
    next => exact absurd hn (by simp)
  | input r0 =>
    simp only [next] at hn
    split at hn
    next hm =>
      rw [← Option.some.inj hn]
      refine .same rfl ?_ ?_ fun hor => hor.elim Mode.noConfusion Mode.noConfusion
      all_goals rw [hm]; decide
    next => exact absurd hn (by simp)
  | wake =>
    simp only [next] at hn
    split at hn
    next hw =>
      rw [← Option.some.inj hn]
      exact .restored rfl rfl hw.2
    next => exact absurd hn (by simp)

theorem step_tableOk (h : ProtocolOk m) (hk : m.KeepsProtocol e)
    (hs : m.Step kernelPhysBase kernelTable e n) : TableOk n.sched := by
  obtain ⟨hfresh, hn⟩ := hs
  have ht := h.table
  cases e with
  | irq now =>
    rcases next_irq hn with ⟨hm, rfl⟩ | ⟨hm, rfl⟩
    · have htick := irqDispatch_tableOk (saveCtx_tableOk ht m.regs) now
      rw [handleIrqUser, if_neg ht.current.1]
      dsimp only
      split
      · exact htick
      · exact htick
    · exact irqDispatch_tableOk ht now
  | svc call =>
    simp only [next] at hn
    split at hn
    next hm =>
      cases call with
      | exit =>
        rw [svcDispatch] at hn
        split at hn
        next s hs => exact Option.some.inj hn ▸ processExit_tableOk ht hs
        next => exact absurd hn (by simp)
      | fork alloc =>
        have hforked := processFork_tableOk m.regs.pc m.regs.sp m.regs.cpsr ht hfresh
        rw [svcDispatch] at hn
        split at hn
        · exact Option.some.inj hn ▸ hforked
        · exact Option.some.inj hn ▸ hforked
      | join =>
        rw [← Option.some.inj hn]
        unfold svcJoin
        split
        · exact ht
        · exact ⟨ht.distinct, ht.current⟩
      | exec outcome => exact absurd hk.1 id
      | wait | other => exact Option.some.inj hn ▸ ht
      | sleep now freq => exact Option.some.inj hn ▸ ⟨ht.distinct, ht.current⟩
    next => exact absurd hn (by simp)
  | svcReturn =>
    simp only [next] at hn
    split at hn
    next r0 hm =>
      rw [← Option.some.inj hn, svcReturn]
      dsimp only
      split
      · have hsaved := saveCtx_tableOk ht { m.regs with r := Function.update m.regs.r 0 r0 }
        split
        next => exact hsaved
        next hnext => exact ⟨hsaved.distinct, (schedPickNext_some hnext).1⟩
      · exact ht
    next => exact absurd hn (by simp)
  | run regs | input r0 | wake =>
    simp only [next] at hn
    split at hn
    next => exact Option.some.inj hn ▸ ht
    next => exact absurd hn (by simp)

theorem ProtocolOk.running_clear (h : ProtocolOk m) (hm : m.mode = .user) {p : ℕ}
    (hp : Running m p) : (m.sched.proc p).suspended = 0 ∧
      (m.sched.proc p).joinTarget = 0 ∧ (m.sched.proc p).wakeTick = 0 := by
  have hs := h.runs (.inl hm)
  rw [hp.1] at hs
  exact ⟨hs, h.clear p (hp.1 ▸ h.table.current) hs⟩

theorem step_protocolOk (h : ProtocolOk m) (hk : m.KeepsProtocol e)
    (hs : m.Step kernelPhysBase kernelTable e n) : ProtocolOk n := by
  have ht := step_tableOk h hk hs
  have hruns : n.mode = .user ∨ n.mode = .waiting →
      (n.sched.proc n.sched.currentProc).suspended = 0 := by
    intro hor
    cases step_outcome h hk hs with
    | restored hm hr hsus => exact hsus
    | idle hm => rcases hm with hm | hm <;> rw [hm] at hor <;> simp at hor
    | same hc hi hi' hsus => exact hsus hor
  refine ⟨ht, fun p hp hsus => ?_, fun p hp => ?_, hruns⟩
  · rcases step_mem h hk hs hp with hold | hnew
    swap
    · exact hnew
    cases step_change h hk hs hold with
    | gone he hrun hm hgone => exact absurd hp hgone
    | joined he hm ht hq =>
      subst he
      rw [hq]
      exact ⟨rfl, (h.one p hold).resolve_left (ht ▸ hk.2.1)⟩
    | blocks hrun hm hmem hpid hs' hone => exact absurd hsus (by rw [hs']; decide)
    | due he hmem hd hpid hj hw => exact ⟨hj.trans ((h.one p hold).resolve_right hd.1), hw⟩
    | kept hmem hpid hj hw hs' hctx =>
      rw [hj, hw]
      refine h.clear p hold ?_
      rcases hs' with hs' | hs'
      · exact hs' ▸ hsus
      · exact absurd hsus (by rw [hs']; decide)
  · rcases step_mem h hk hs hp with hold | hnew
    swap
    · exact .inl hnew.1
    cases step_change h hk hs hold with
    | gone he hrun hm hgone => exact absurd hp hgone
    | joined he hm ht hq =>
      rw [hq]
      exact .inl rfl
    | blocks hrun hm hmem hpid hs' hone =>
      obtain ⟨-, hj, hw⟩ := h.running_clear hm hrun
      exact hone.imp (fun he => he.trans hj) fun he => he.trans hw
    | due he hmem hd hpid hj hw => exact .inr hw
    | kept hmem hpid hj hw hs' hctx =>
      rw [hj, hw]
      exact h.one p hold

theorem step_blocked (h : ProtocolOk m) (hk : m.KeepsProtocol e)
    (hs : m.Step kernelPhysBase kernelTable e n) {p target deadline : ℕ}
    (hb : Blocked m.sched p target deadline)
    (hexit : e = .svc .exit → (m.sched.proc m.sched.currentProc).pid ≠ target)
    (htick : ∀ now, e = .irq (some now) → deadline ≠ 0 → now < deadline) :
    Blocked n.sched p target deadline := by
  obtain ⟨hp, hsus, rfl, rfl⟩ := hb
  cases step_change h hk hs hp with
  | gone he hrun hm hgone => exact absurd (h.running_clear hm hrun).1 hsus
  | joined he hm ht hq => exact absurd ht.symm (hexit he)
  | blocks hrun hm hmem hpid hs' hone => exact absurd (h.running_clear hm hrun).1 hsus
  | due he hmem hd hpid hj hw => exact absurd (htick _ he hd.1) (Nat.not_lt.mpr hd.2)
  | kept hmem hpid hj hw hs' hctx =>
    refine ⟨hmem, ?_, hj, hw⟩
    rcases hs' with hs' | hs'
    · rwa [hs']
    · rw [hs']
      decide

/-- Listed, waiting for nothing, with `code` in the saved `r0`, and not yet running again. -/
def Woken (m : Machine) (p code : ℕ) : Prop :=
  m.sched.Mem p ∧ (m.sched.proc p).joinTarget = 0 ∧ (m.sched.proc p).wakeTick = 0 ∧
    (m.sched.proc p).ctx.r 0 = code ∧ ¬ Running m p

/-- `p` has just been resumed with `code` in `r0`. -/
def ResumedWith (m : Machine) (p code : ℕ) : Prop :=
  m.mode = .user ∧ Running m p ∧ m.regs.r 0 = code

theorem step_woken (h : ProtocolOk m) (hk : m.KeepsProtocol e)
    (hs : m.Step kernelPhysBase kernelTable e n) {p code : ℕ} (hw : Woken m p code) :
    Woken n p code ∨ ResumedWith n p code := by
  obtain ⟨hp, hj0, hw0, hr0, hrun⟩ := hw
  cases step_change h hk hs hp with
  | gone he hr hm hgone => exact absurd hr hrun
  | joined he hm ht hq =>
    subst he
    exact absurd (ht.symm.trans hj0) hk.2.1
  | blocks hr hm hmem hpid hs' hone => exact absurd hr hrun
  | due he hmem hd hpid hj hw => exact absurd hw0 hd.1
  | kept hmem hpid hj hw hs' hctx =>
    have hr0' : (n.sched.proc p).ctx.r 0 = code := by
      rw [hctx.resolve_right hrun]
      exact hr0
    by_cases hn : Running n p
    · right
      cases step_outcome h hk hs with
      | restored hm hr hsus =>
        refine ⟨hm, hn, ?_⟩
        rw [hr, hn.1]
        exact hr0'
      | idle hm => exact absurd hm (not_or.mpr hn.2)
      | same hc hi hi' hsus => exact absurd ⟨hc.symm.trans hn.1, hi, hi'⟩ hrun
    · exact .inl ⟨hmem, hj.trans hj0, hw.trans hw0, hr0', hn⟩

theorem step_pid (h : ProtocolOk m) (hk : m.KeepsProtocol e)
    (hs : m.Step kernelPhysBase kernelTable e n) {t : ℕ} (ht : m.sched.Mem t)
    (hexit : ¬ (e = .svc .exit ∧ m.sched.currentProc = t)) :
    n.sched.Mem t ∧ (n.sched.proc t).pid = (m.sched.proc t).pid := by
  cases step_change h hk hs ht with
  | gone he hr hm hgone => exact absurd ⟨he, hr.1⟩ hexit
  | joined he hm hj hq =>
    rw [hq]
    exact ⟨hm, rfl⟩
  | blocks hr hm hmem hpid hs' hone => exact ⟨hmem, hpid⟩
  | due he hmem hd hpid hj hw => exact ⟨hmem, hpid⟩
  | kept hmem hpid hj hw hs' hctx => exact ⟨hmem, hpid⟩

end Steps

end Leg.Machine
