import Leg.Lib.Runs
import Leg.Process.PendingContext

/-! Every process resumes with the registers it left user mode with, and the result of its call,
in every run in which `mmu_set_proc_table` hands `r2` back to `context_switch_asm`. The history
is kept beside the kernel from what is seen of it: no code reads it. -/
namespace Leg
open Arm Runs Sched

/-- What a process that is not in user mode left it with, its call's result in `r0`, and the pid
whose exit code it is to receive. -/
structure Left where
  regs : CpuCtx
  joining : Option ℕ

/-- What is seen of the system between two steps. -/
structure View where
  sched : Sched
  /-- The user registers while user code runs. -/
  user : Option CpuCtx
  /-- What `svc_dispatch` has just returned. -/
  result : Option ℕ

structure History where
  left : ℕ → Option Left
  /-- The registers due at each return to user mode, and those it was made with. -/
  resumes : List (CpuCtx × CpuCtx)

namespace History

def empty : History := ⟨fun _ => none, []⟩

def leave (h : History) (p : ℕ) (regs : CpuCtx) : History :=
  { h with left := Function.update h.left p (some ⟨regs, none⟩) }

/-- The process at `p` is gone, or starts from a context that is not its own. -/
def forget (h : History) (p : ℕ) : History := { h with left := Function.update h.left p none }

/-- The call of `p` has returned, if it has. -/
def returned (h : History) (p : ℕ) : Option ℕ → History
  | none => h
  | some r0 => { h with
      left := Function.update h.left p
        ((h.left p).map fun l => { l with regs := resumed l.regs r0 }) }

def join (h : History) (p pid : ℕ) : History :=
  { h with
    left := Function.update h.left p ((h.left p).map fun l => { l with joining := some pid }) }

/-- Those joined on `pid` are due its exit code. -/
def deliver (h : History) (pid code : ℕ) : History :=
  { h with
    left := fun p => (h.left p).map fun l =>
      if l.joining = some pid then ⟨resumed l.regs code, none⟩ else l }

/-- The process at `p` is back in user mode. -/
def resume (h : History) (p : ℕ) (regs : CpuCtx) : History where
  left := Function.update h.left p none
  resumes := match h.left p with
    | some l => (l.regs, regs) :: h.resumes
    | none => h.resumes

/-- The caller has left user mode for this call, which has come to `result`. -/
def called (h : History) (s : Sched) (regs : CpuCtx) (result : Option ℕ) : Svc → History
  | .exit => (h.deliver (s.proc s.currentProc).pid (regs.r 0)).forget s.currentProc
  | .fork (some (child, _)) => (h.forget child).returned s.currentProc result
  | .join =>
    let h := h.returned s.currentProc result
    if schedGet s (regs.r 0) = 0 then h else h.join s.currentProc (regs.r 0)
  | .exec _ => if result = none then h.forget s.currentProc else h.returned s.currentProc result
  | .fork none | .wait | .sleep _ _ | .other _ => h.returned s.currentProc result

/-- The trap of one event. -/
def trap (h : History) (v v' : View) : Event → History
  | .irq _ => match v.user with
    | some regs => h.leave v.sched.currentProc regs
    | none => h
  | .svc call => match v.user with
    | some regs => (h.leave v.sched.currentProc regs).called v.sched regs v'.result call
    | none => h
  | .input _ => h.returned v.sched.currentProc v'.result
  | .run _ | .svcReturn | .wake => h

/-- One event, that led from what was seen as `v` to `v'`. -/
def record (h : History) (v v' : View) (e : Event) : History :=
  match e, v'.user with
  | .run _, _ => h
  | e, some regs => (h.trap v v' e).resume v'.sched.currentProc regs
  | e, none => h.trap v v' e

/-- Every process has resumed with the registers it was due. -/
def Exact (h : History) : Prop := ∀ x ∈ h.resumes, x.1 = x.2

end History

def Machine.view (m : Machine) : View where
  sched := m.sched
  user := if m.mode = .user then some m.regs else none
  result := match m.mode with
    | .svcDone r0 => some r0
    | _ => none

def Kernel.view {L : Symbols} (k : Kernel L) : View where
  sched := k.cpu.mem.sched
  user := match k.place with
    | .user => some (userRegs k.cpu)
    | _ => none
  result := match k.place with
    | .svcDone => some (k.cpu.r 0)
    | _ => none

variable {L : Symbols}

theorem Sim.view {k : Kernel L} {m : Machine} (h : Sim k m) : k.view = m.view := by
  have hp := h.place
  unfold Kernel.view Machine.view
  rw [h.sched]
  rw [SamePlace] at hp
  split at hp
  next hk hm => simp [hk, hm, hp]
  next hk hm => simp [hk, hm]
  next r0 hk hm =>
    obtain ⟨-, -, -, -, h0⟩ := hp
    simp [hk, hm, h0]
  next hk hm => simp [hk, hm]
  next hk hm => simp [hk, hm]
  next => exact hp.elim

namespace History

/-- No struct but a joiner's names the exiting process as its `join_target`. -/
def ExitSettled (h : History) (s : Sched) : Prop :=
  ∀ i, s.procs i ≠ 0 → ∀ l ∈ h.left (s.procs i),
    (s.proc (s.procs i)).joinTarget = (s.proc s.currentProc).pid →
      l.joining = some (s.proc s.currentProc).pid

end History

/-- The history is that of the machine: each process that is out of user mode goes on with what
it is due, and receives the exit code it waits for. -/
structure KeptOk (L : Symbols) (m : Machine) (h : History) : Prop where
  table : TableOk m.sched
  placed : ∀ p, m.sched.Mem p → L.Placed p
  runs : ∀ p, m.sched.Mem p → CtxOk (m.pending p)
  regs : ∀ p, m.sched.Mem p → ∀ l ∈ h.left p, m.pending p = l.regs
  joins : ∀ p, m.sched.Mem p → ∀ l ∈ h.left p, ∀ t ∈ l.joining, (m.sched.proc p).joinTarget = t
  past : h.Exact

/-- In user mode the current process is due nothing. -/
def RunsFree (m : Machine) (h : History) : Prop :=
  m.mode = .user → h.left m.sched.currentProc = none

namespace KeptOk
variable {kernelPhysBase kernelTable : ℕ} {m n : Machine} {h : History}

theorem contextsOk (hk : KeptOk L m h) : ContextsOk L m where
  table := hk.table
  placed := hk.placed
  ctx p hp := by
    have hr := hk.runs p hp.1
    by_cases hc : p = m.sched.currentProc
    · rwa [Machine.pending_idle (hp.2 hc)] at hr
    · rwa [Machine.pending_of_ne hc] at hr
  regs hi := by
    have hr := hk.runs _ hk.table.current
    unfold Machine.Idle at hi
    cases hm : m.mode with
    | user => rwa [Machine.pending_user hm] at hr
    | waiting => rwa [Machine.pending_waiting hm] at hr
    | svcDone r0 => rwa [Machine.pending_done hm] at hr
    | svcIdle => exact absurd (.inl hm) hi
    | irqIdle => exact absurd (.inr hm) hi

theorem same (hk : KeptOk L m h) (hs : m.SamePending n) : KeptOk L n h where
  table := hs.table
  placed p hp := hk.placed p (hs.mem p hp)
  runs p hp := hs.pending p ▸ hk.runs p (hs.mem p hp)
  regs p hp l hl := (hs.pending p).trans (hk.regs p (hs.mem p hp) l hl)
  joins p hp l hl t ht := (hs.joinTarget p).trans (hk.joins p (hs.mem p hp) l hl t ht)
  past := hk.past

theorem leave (hk : KeptOk L m h) {p : ℕ} {regs : CpuCtx} (hr : m.pending p = regs) :
    KeptOk L m (h.leave p regs) where
  table := hk.table
  placed := hk.placed
  runs := hk.runs
  regs q hq l hl := by
    by_cases hqp : q = p
    · subst hqp
      simp only [History.leave, Function.update_self, Option.mem_some_iff] at hl
      rw [hr, ← hl]
    · simp only [History.leave, Function.update_of_ne hqp] at hl
      exact hk.regs q hq l hl
  joins q hq l hl t ht := by
    by_cases hqp : q = p
    · subst hqp
      simp only [History.leave, Function.update_self, Option.mem_some_iff] at hl
      rw [← hl] at ht
      exact absurd ht (by simp)
    · simp only [History.leave, Function.update_of_ne hqp] at hl
      exact hk.joins q hq l hl t ht
  past := hk.past

theorem forget (hk : KeptOk L m h) (p : ℕ) : KeptOk L m (h.forget p) := by
  have hmem (q : ℕ) (l : Left) (hl : l ∈ (h.forget p).left q) : l ∈ h.left q := by
    by_cases hqp : q = p
    · subst hqp
      simp [History.forget] at hl
    · simpa only [History.forget, Function.update_of_ne hqp] using hl
  exact ⟨hk.table, hk.placed, hk.runs, fun q hq l hl => hk.regs q hq l (hmem q l hl),
    fun q hq l hl => hk.joins q hq l (hmem q l hl), hk.past⟩

theorem join (hk : KeptOk L m h) {p t : ℕ} (ht : (m.sched.proc p).joinTarget = t) :
    KeptOk L m (h.join p t) where
  table := hk.table
  placed := hk.placed
  runs := hk.runs
  regs q hq l hl := by
    by_cases hqp : q = p
    · subst hqp
      simp only [History.join, Function.update_self, Option.mem_map] at hl
      obtain ⟨k, hk', rfl⟩ := hl
      exact hk.regs q hq k hk'
    · simp only [History.join, Function.update_of_ne hqp] at hl
      exact hk.regs q hq l hl
  joins q hq l hl u hu := by
    by_cases hqp : q = p
    · subst hqp
      simp only [History.join, Function.update_self, Option.mem_map] at hl
      obtain ⟨k, hk', rfl⟩ := hl
      rw [ht, Option.some.inj hu]
    · simp only [History.join, Function.update_of_ne hqp] at hl
      exact hk.joins q hq l hl u hu
  past := hk.past

/-- A handler's result comes to what its caller goes on with. -/
theorem returned (hk : KeptOk L m h) {r0 : ℕ} (hr : m.Returned n r0)
    (hj : ∀ p, m.sched.Mem p → ∀ l ∈ h.left p, ∀ t ∈ l.joining, (n.sched.proc p).joinTarget = t) :
    KeptOk L n (h.returned m.sched.currentProc (some r0)) where
  table := hr.table
  placed p hp := hk.placed p (hr.mem p hp)
  runs p hp := by
    have hok := hk.runs p (hr.mem p hp)
    rw [hr.pending]
    split <;> exact hok
  regs p hp l hl := by
    have hregs := hk.regs p (hr.mem p hp)
    rw [hr.pending]
    by_cases hpc : p = m.sched.currentProc
    · rw [if_pos hpc]
      subst hpc
      simp only [History.returned, Function.update_self, Option.mem_map] at hl
      obtain ⟨k, hk', rfl⟩ := hl
      rw [hregs k hk']
    · rw [if_neg hpc]
      simp only [History.returned, Function.update_of_ne hpc] at hl
      exact hregs l hl
  joins p hp l hl t ht := by
    by_cases hpc : p = m.sched.currentProc
    · subst hpc
      simp only [History.returned, Function.update_self, Option.mem_map] at hl
      obtain ⟨k, hk', rfl⟩ := hl
      exact hj _ (hr.mem _ hp) k hk' t ht
    · simp only [History.returned, Function.update_of_ne hpc] at hl
      exact hj p (hr.mem p hp) l hl t ht
  past := hk.past

theorem returned_same (hk : KeptOk L m h) {r0 : ℕ} (hr : m.Returned n r0)
    (hj : ∀ p, (n.sched.proc p).joinTarget = (m.sched.proc p).joinTarget) :
    KeptOk L n (h.returned m.sched.currentProc (some r0)) :=
  hk.returned hr fun p hp l hl t ht => (hj p).trans (hk.joins p hp l hl t ht)

theorem resume (hk : KeptOk L m h) (hm : m.mode = .user) :
    KeptOk L m (h.resume m.sched.currentProc m.regs) := by
  have hf := hk.forget m.sched.currentProc
  refine ⟨hk.table, hk.placed, hk.runs, hf.regs, hf.joins, fun x hx => ?_⟩
  simp only [History.resume] at hx
  split at hx
  next l hl =>
    rcases List.mem_cons.mp hx with rfl | hx
    · rw [← hk.regs _ hk.table.current l hl, Machine.pending_user hm]
    · exact hk.past x hx
  next => exact hk.past x hx

theorem record (v : View) {e : Event} (he : ∀ regs, e ≠ .run regs)
    (hk : KeptOk L n (h.trap v n.view e)) :
    KeptOk L n (h.record v n.view e) ∧ RunsFree n (h.record v n.view e) := by
  by_cases hm : n.mode = .user
  · have hr : h.record v n.view e = (h.trap v n.view e).resume n.sched.currentProc n.regs := by
      cases e with
      | run regs => exact absurd rfl (he regs)
      | _ => simp [History.record, Machine.view, hm]
    rw [hr]
    exact ⟨hk.resume hm, fun _ => by simp [History.resume]⟩
  · have hr : h.record v n.view e = h.trap v n.view e := by
      cases e <;> simp [History.record, History.trap, Machine.view, hm]
    rw [hr]
    exact ⟨hk, fun h => absurd h hm⟩

@[simp] theorem view_sched (m : Machine) : m.view.sched = m.sched := rfl

theorem view_user (hm : m.mode = .user) : m.view.user = some m.regs := by simp [Machine.view, hm]

theorem view_result {r0 : ℕ} (hm : m.mode = .svcDone r0) : m.view.result = some r0 := by
  simp [Machine.view, hm]

theorem irq {now : Option ℕ} (hk : KeptOk L m h) (hw : now ≠ none → m.mode ≠ .waiting)
    (hn : m.next kernelPhysBase kernelTable (.irq now) = some n) :
    KeptOk L n (h.trap m.view n.view (.irq now)) := by
  have hs := Machine.next_irq_pending hk.table hw hn
  by_cases hm : m.mode = .user
  · simp only [History.trap, view_user hm, view_sched]
    exact (hk.leave (Machine.pending_user hm)).same hs
  · have hv : m.view.user = none := if_neg hm
    simp only [History.trap, hv]
    exact hk.same hs

theorem input {r0 : ℕ} (hk : KeptOk L m h)
    (hn : m.next kernelPhysBase kernelTable (.input r0) = some n) :
    KeptOk L n (h.trap m.view n.view (.input r0)) := by
  obtain ⟨-, hr, hs⟩ := Machine.next_input_pending hk.table hn
  simp only [History.trap, view_result hr.mode, view_sched]
  exact hk.returned_same hr fun p => by rw [hs]

section Svc
variable (hk : KeptOk L m h) (hm : m.mode = .user)
include hk hm

theorem exit (hset : h.ExitSettled m.sched)
    (hn : m.svcDispatch kernelPhysBase kernelTable .exit = some n) :
    KeptOk L n (h.trap m.view n.view (.svc .exit)) := by
  obtain ⟨htable, -, hall⟩ := Machine.exit_pending hk.table hn
  simp only [History.trap, view_user hm, History.called, view_sched]
  have hleft (p : ℕ) (hp : p ≠ m.sched.currentProc) :
      ((((h.leave m.sched.currentProc m.regs).deliver (m.sched.proc m.sched.currentProc).pid
        (m.regs.r 0)).forget m.sched.currentProc).left p) = (h.left p).map fun l =>
          if l.joining = some (m.sched.proc m.sched.currentProc).pid
          then ⟨resumed l.regs (m.regs.r 0), none⟩ else l := by
    simp only [History.forget, History.deliver, History.leave, Function.update_of_ne hp]
  -- a process with this `join_target` is a joiner, and a joiner has it
  have hjoin (p : ℕ) (hp : m.sched.Mem p) (l : Left) (hl : l ∈ h.left p) :
      l.joining = some (m.sched.proc m.sched.currentProc).pid ↔
        (m.sched.proc p).joinTarget = (m.sched.proc m.sched.currentProc).pid := by
    refine ⟨fun hj => hk.joins p hp l hl _ hj, fun hj => ?_⟩
    obtain ⟨h0, i, hi⟩ := hp
    exact hset i (hi ▸ h0) l (hi ▸ hl) (hi ▸ hj)
  refine ⟨htable, fun p hp => hk.placed p (hall p hp).1, fun p hp => ?_, fun p hp l hl => ?_,
    fun p hp l hl t ht => ?_, hk.past⟩
  · obtain ⟨hmem, -, hpend⟩ := hall p hp
    have hok := hk.runs p hmem
    split at hpend
    next => rw [hpend]; exact hok
    next => rw [hpend.1]; exact hok
  · obtain ⟨hmem, hne, hpend⟩ := hall p hp
    rw [hleft p hne] at hl
    obtain ⟨k, hkl, rfl⟩ := Option.mem_map.mp hl
    have hregs := hk.regs p hmem k hkl
    split at hpend
    next hj => rw [hpend, if_pos ((hjoin p hmem k hkl).mpr hj), hregs]
    next hj => rw [hpend.1, if_neg fun hc => hj ((hjoin p hmem k hkl).mp hc), hregs]
  · obtain ⟨hmem, hne, hpend⟩ := hall p hp
    rw [hleft p hne] at hl
    obtain ⟨k, hkl, rfl⟩ := Option.mem_map.mp hl
    split at hpend
    next hj =>
      rw [if_pos ((hjoin p hmem k hkl).mpr hj)] at ht
      exact absurd ht (by simp)
    next hj =>
      rw [if_neg fun hc => hj ((hjoin p hmem k hkl).mp hc)] at ht
      rw [hpend.2]
      exact hk.joins p hmem k hkl t ht

theorem fork {alloc : Option (ℕ × ℕ)} (hf : FreshAlloc m.sched alloc)
    (hplaced : ∀ c pgd, alloc = some (c, pgd) → L.Placed c)
    (hn : m.svcDispatch kernelPhysBase kernelTable (.fork alloc) = some n) :
    KeptOk L n (h.trap m.view n.view (.svc (.fork alloc))) := by
  obtain ⟨htable, hcur, r0, hmode, hall⟩ := Machine.fork_pending hk.table hm hf hn
  have hl := hk.leave (Machine.pending_user hm)
  simp only [History.trap, view_user hm, view_sched]
  have hregs := hk.runs _ hk.table.current
  rw [Machine.pending_user hm] at hregs
  have hplaced' (p : ℕ) (hp : n.sched.Mem p) : L.Placed p := by
    rcases hall p hp with ⟨hmem, -, -⟩ | ⟨-, ⟨pgd, ha⟩, -⟩
    · exact hk.placed p hmem
    · exact hplaced p pgd ha
  have hruns (p : ℕ) (hp : n.sched.Mem p) : CtxOk (n.pending p) := by
    rcases hall p hp with ⟨hmem, -, hpend⟩ | ⟨-, -, hcpsr, hpc⟩
    · have hok := hk.runs p hmem
      rw [hpend]
      split <;> exact hok
    · rw [CtxOk, hcpsr, hpc]
      exact hregs
  -- the child, if it is listed, has left nothing
  have hchild (p : ℕ) (hp : n.sched.Mem p) (l : Left)
      (hl : l ∈ (((h.leave m.sched.currentProc m.regs).called m.sched m.regs (some r0)
        (.fork alloc)).left p)) : m.sched.Mem p ∧
      l ∈ ((h.leave m.sched.currentProc m.regs).returned m.sched.currentProc (some r0)).left p := by
    cases alloc with
    | none =>
      rcases hall p hp with ⟨hmem, -, -⟩ | ⟨-, ⟨pgd, ha⟩, -⟩
      · exact ⟨hmem, hl⟩
      · exact absurd ha (by simp)
    | some a =>
      obtain ⟨c, pgd⟩ := a
      have hcc : m.sched.currentProc ≠ c := fun hc => hf.2 (hc ▸ hk.table.current)
      by_cases hpc : p = c
      · subst hpc
        simp [History.called, History.returned, History.forget,
          Function.update_of_ne hcc.symm] at hl
      · rcases hall p hp with ⟨hmem, -, -⟩ | ⟨-, ⟨pgd', ha⟩, -⟩
        · refine ⟨hmem, ?_⟩
          simp only [History.called, History.returned, History.forget,
            Function.update_of_ne hcc] at hl ⊢
          by_cases hpm : p = m.sched.currentProc
          · subst hpm
            simpa only [Function.update_self] using hl
          · simpa only [Function.update_of_ne hpm, Function.update_of_ne hpc] using hl
        · exact absurd (congrArg Prod.fst (Option.some.inj ha)).symm hpc
  rw [view_result hmode]
  refine ⟨htable, hplaced', hruns, fun p hp l hl' => ?_, fun p hp l hl' t ht => ?_, ?_⟩
  · obtain ⟨hmem, hin⟩ := hchild p hp l hl'
    rcases hall p hp with ⟨-, -, hpend⟩ | ⟨hnot, -, -⟩
    swap
    · exact absurd hmem hnot
    rw [hpend]
    by_cases hpc : p = m.sched.currentProc
    · subst hpc
      simp only [History.returned, Function.update_self, Option.mem_map] at hin
      obtain ⟨k, hkl, rfl⟩ := hin
      rw [if_pos rfl, hl.regs _ hmem k hkl]
    · simp only [History.returned, Function.update_of_ne hpc] at hin
      rw [if_neg hpc, hl.regs p hmem l hin]
  · obtain ⟨hmem, hin⟩ := hchild p hp l hl'
    rcases hall p hp with ⟨-, hj, -⟩ | ⟨hnot, -, -⟩
    swap
    · exact absurd hmem hnot
    rw [hj]
    by_cases hpc : p = m.sched.currentProc
    · subst hpc
      simp only [History.returned, Function.update_self, Option.mem_map] at hin
      obtain ⟨k, hkl, rfl⟩ := hin
      exact hl.joins _ hmem k hkl t ht
    · simp only [History.returned, Function.update_of_ne hpc] at hin
      exact hl.joins p hmem l hin t ht
  · cases alloc <;> exact hk.past

theorem join_call (hn : m.svcDispatch kernelPhysBase kernelTable .join = some n) :
    KeptOk L n (h.trap m.view n.view (.svc .join)) := by
  obtain ⟨r0, hr, hj⟩ := Machine.join_pending hk.table hm hn
  have hl := hk.leave (Machine.pending_user hm)
  simp only [History.trap, view_user hm, History.called, view_result hr.mode, view_sched]
  have hret : KeptOk L n ((h.leave m.sched.currentProc m.regs).returned m.sched.currentProc
      (some r0)) := by
    refine hl.returned hr fun p hp l hmem t ht => ?_
    have hne : p ≠ m.sched.currentProc := by
      rintro rfl
      simp only [History.leave, Function.update_self, Option.mem_some_iff] at hmem
      rw [← hmem] at ht
      exact absurd ht (by simp)
    rw [hj p, if_neg fun hc => hne hc.1]
    exact hl.joins p hp l hmem t ht
  split
  next => exact hret
  next h0 =>
    refine hret.join ?_
    have := hj m.sched.currentProc
    rwa [if_pos ⟨rfl, h0⟩] at this

theorem wait (hn : m.svcDispatch kernelPhysBase kernelTable .wait = some n) :
    KeptOk L n (h.trap m.view n.view (.svc .wait)) := by
  obtain ⟨hs, hmode⟩ := Machine.wait_pending hk.table hm hn
  have hres : n.view.result = none := by simp [Machine.view, hmode]
  simp only [History.trap, view_user hm, History.called, hres]
  exact (hk.leave (Machine.pending_user hm)).same hs

theorem sleep {now freq : ℕ}
    (hn : m.svcDispatch kernelPhysBase kernelTable (.sleep now freq) = some n) :
    KeptOk L n (h.trap m.view n.view (.svc (.sleep now freq))) := by
  obtain ⟨r0, hr, hj⟩ := Machine.sleep_pending hk.table hm hn
  simp only [History.trap, view_user hm, History.called, view_result hr.mode, view_sched]
  exact (hk.leave (Machine.pending_user hm)).returned_same hr hj

theorem other {r0 : ℕ} (hn : m.svcDispatch kernelPhysBase kernelTable (.other r0) = some n) :
    KeptOk L n (h.trap m.view n.view (.svc (.other r0))) := by
  obtain ⟨hr, hs⟩ := Machine.other_pending hk.table hm hn
  simp only [History.trap, view_user hm, History.called, view_result hr.mode, view_sched]
  exact (hk.leave (Machine.pending_user hm)).returned_same hr fun p => by rw [hs]

theorem exec {o : Replace} (hown : ∀ pgd entry stackPt stackPages,
      o = .done pgd entry stackPt stackPages → entry < 4294967296 ∧
        schedGet m.sched (m.sched.proc m.sched.currentProc).pid = m.sched.currentProc)
    (hn : m.svcDispatch kernelPhysBase kernelTable (.exec o) = some n) :
    KeptOk L n (h.trap m.view n.view (.svc (.exec o))) := by
  obtain ⟨hj, hcase⟩ := Machine.exec_pending hk.table hm
    (fun _ _ _ _ ho => (hown _ _ _ _ ho).2) hn
  have hl := hk.leave (Machine.pending_user hm)
  simp only [History.trap, view_user hm, History.called, view_sched]
  rcases hcase with ⟨r0, hr⟩ | ⟨htable, hmode, pgd, entry, stackPt, stackPages, ho, hmem, hpend⟩
  · rw [view_result hr.mode, if_neg (by simp)]
    exact hl.returned_same hr hj
  · have hres : n.view.result = none := by simp [Machine.view, hmode]
    rw [hres, if_pos rfl]
    have hf := hl.forget m.sched.currentProc
    have hnone (p : ℕ) (l : Left)
        (hmemf : l ∈ ((h.leave m.sched.currentProc m.regs).forget m.sched.currentProc).left p) :
        p ≠ m.sched.currentProc := by
      rintro rfl
      simp [History.forget] at hmemf
    refine ⟨htable, fun p hp => hk.placed p (hmem p hp), fun p hp => ?_, fun p hp l hmemf => ?_,
      fun p hp l hmemf t ht => (hj p).trans (hf.joins p (hmem p hp) l hmemf t ht), hk.past⟩
    · rw [hpend]
      split
      · exact ⟨(by decide : Psr.mode 0x10 = usrMode), (hown _ _ _ _ ho).1⟩
      · exact hk.runs p (hmem p hp)
    · rw [hpend, if_neg (hnone p l hmemf)]
      exact hf.regs p (hmem p hp) l hmemf

end Svc

/-- User code runs: its process is due nothing. -/
theorem run {regs : CpuCtx} (hk : KeptOk L m h) (hu : RunsFree m h) (hok : CtxOk regs)
    (hn : m.next kernelPhysBase kernelTable (.run regs) = some n) :
    KeptOk L n h ∧ RunsFree n h := by
  simp only [Machine.next] at hn
  split at hn
  next hm =>
    rw [← Option.some.inj hn]
    have hpend (p : ℕ) (hp : p ≠ m.sched.currentProc) :
        ({ m with regs := regs } : Machine).pending p = m.pending p := by
      rw [Machine.pending_of_ne hp]
      exact Machine.pending_of_ne hp
    refine ⟨⟨hk.table, hk.placed, fun p hp => ?_, fun p hp l hl => ?_, hk.joins, hk.past⟩,
      fun _ => hu hm⟩
    · by_cases hpc : p = m.sched.currentProc
      · subst hpc
        rw [Machine.pending_user (m := { m with regs := regs }) hm]
        exact hok
      · rw [hpend p hpc]
        exact hk.runs p hp
    · have hpc : p ≠ m.sched.currentProc := by
        rintro rfl
        rw [hu hm] at hl
        exact absurd hl (by simp)
      rw [hpend p hpc]
      exact hk.regs p hp l hl
  next => exact absurd hn (by simp)

end KeptOk

/-- In a handler that waits for input. -/
def Place.Waits : Place L → Prop
  | .waiting _ => True
  | .user | .svcDone | .svcIdle | .irqIdle => False

theorem Sim.waits {k : Kernel L} {m : Machine} (h : Sim k m) (hm : m.mode = .waiting) :
    k.place.Waits := by
  have hp := h.place
  rw [SamePlace, hm] at hp
  cases hk : k.place with
  | waiting entry => trivial
  | user | svcDone | svcIdle | irqIdle =>
    rw [hk] at hp
    exact hp.elim

/-- The registers and the table `process_exec` enters the first process with. -/
def Kernel.Boot (kernelPhysBase : ℕ) (k : Kernel L) : Prop :=
  ∃ p proc pid, L.Placed p ∧ k.cpu.mem.sched = processExec ⟨fun _ => 0, proc, 0, pid⟩ p ∧
    k.ttbr0 = virtToPhys kernelPhysBase (proc p).pgd ∧ k.place = .user ∧
    CtxOk (userRegs k.cpu) ∧ k.cpu.sp .irq = irqStackTop

/-- The kernel and the history of its processes. -/
structure Traced (L : Symbols) where
  kernel : Kernel L
  history : History

namespace Traced
variable (kernelPhysBase kernelTable : ℕ) (t : Traced L)

def Boot : Prop := t.kernel.Boot kernelPhysBase ∧ t.history = .empty

/-- What the allocator and the type of `entry` give. -/
def Given : Event → Prop
  | .svc (.fork alloc) => FreshAlloc t.kernel.cpu.mem.sched alloc
  | .svc (.exec (.done _ entry _ _)) => entry < 4294967296
  | _ => True

/-- Timer ticks come in user mode or in the idle loops. -/
def TicksOutside : Event → Prop
  | .irq (some _) => ¬ t.kernel.place.Waits
  | _ => True

def Step (l : Label) (u : Traced L) : Prop :=
  (t.Given l.event ∧ t.TicksOutside l.event) ∧
    t.kernel.next kernelPhysBase kernelTable l = some u.kernel ∧
    u.history = t.history.record t.kernel.view u.kernel.view l.event

/-- An exit finds no stale `join_target`, a replaced image is the caller's, and a child's struct
is clear of the stacks. -/
def Settled : Event → Prop
  | .svc .exit => t.history.ExitSettled t.kernel.cpu.mem.sched
  | .svc (.exec (.done _ _ _ _)) =>
    let s := t.kernel.cpu.mem.sched
    schedGet s (s.proc s.currentProc).pid = s.currentProc
  | .svc (.fork (some (child, _))) => L.Placed child
  | _ => True

/-- `mmu_set_proc_table` leaves `r2`, in which `context_switch_asm` keeps `next`; the trap frame
fits on the stack; and no struct is mistaken for another. -/
def KeepsContexts (l : Label) : Prop :=
  t.kernel.KeepsR2 l ∧ t.kernel.KeepsRoom l ∧ t.Settled l.event

end Traced

section Runs
variable {kernelPhysBase kernelTable : ℕ} {t u : Traced L}

/-- What carries exactness along the runs. -/
def TracedOk (t : Traced L) : Prop :=
  ∃ m, Sim t.kernel m ∧ KeptOk L m t.history ∧ RunsFree m t.history

theorem boot_tracedOk (h : t.Boot kernelPhysBase) : TracedOk t := by
  obtain ⟨⟨p, proc, pid, hp, hs, ht, hplace, hctx, hirq⟩, hh⟩ := h
  have hp0 : p ≠ 0 := by
    have h0 : 0 < procUserVaTop := by decide
    have := hp.2.1
    omega
  obtain ⟨hok, hcur, honly, -⟩ := processExec_first proc pid hp0
  rw [← hs] at hok hcur honly
  refine ⟨⟨t.kernel.cpu.mem.sched, t.kernel.ttbr0, userRegs t.kernel.cpu, .user, p, id,
    fun _ => none, []⟩, ⟨rfl, rfl, hirq, ?_⟩, ⟨hok, fun q hq => ?_, fun q hq => ?_, ?_, ?_, ?_⟩,
    fun _ => ?_⟩
  · rw [SamePlace, hplace]
  · rw [honly q hq]
    exact hp
  · obtain rfl : q = t.kernel.cpu.mem.sched.currentProc := (honly q hq).trans hcur.symm
    rw [Machine.pending, if_pos rfl]
    exact hctx
  · intro q _ l hl
    rw [hh] at hl
    exact absurd hl (by simp [History.empty])
  · intro q _ l hl
    rw [hh] at hl
    exact absurd hl (by simp [History.empty])
  · rw [hh]
    exact fun x hx => absurd hx (by simp [History.empty])
  · rw [hh]
    rfl

theorem step_tracedOk {l : Label} (h : TracedOk t) (hk : t.KeepsContexts l)
    (hs : t.Step kernelPhysBase kernelTable l u) : TracedOk u := by
  obtain ⟨m, hsim, hkept, hfree⟩ := h
  obtain ⟨⟨hgiven, htick⟩, hnext, hhist⟩ := hs
  obtain ⟨h2, hroom, hset⟩ := hk
  have hview := hsim.view
  have hw (pgd entry stackPt stackPages : ℕ)
      (he : l.event = .svc (.exec (.done pgd entry stackPt stackPages))) : entry < 4294967296 := by
    rw [he] at hgiven
    exact hgiven
  obtain ⟨n, hn, hsim'⟩ := sim_next hsim hkept.contextsOk h2 hroom hw hnext
  refine ⟨n, hsim', ?_⟩
  rw [hhist, hview, hsim'.view]
  obtain ⟨e, calls⟩ := l
  dsimp only at *
  cases e with
  | run regs =>
    refine hkept.run hfree ?_ hn
    have hok : CtxOk regs := by
      unfold Kernel.next at hnext
      dsimp only at hnext
      split at hnext <;> simp_all [Kernel.userRun, CtxOk]
    exact hok
  | irq now =>
    refine KeptOk.record _ (by simp) (hkept.irq (fun h0 hm => ?_) hn)
    obtain ⟨now, rfl⟩ := Option.ne_none_iff_exists'.mp h0
    exact htick (hsim.waits hm)
  | input r0 => exact KeptOk.record _ (by simp) (hkept.input hn)
  | svcReturn =>
    have hs := hkept.same (Machine.next_svcReturn_pending hkept.table hn)
    exact KeptOk.record (e := .svcReturn) _ (by simp) hs
  | wake =>
    have hs := hkept.same (Machine.next_wake_pending hkept.table hn)
    exact KeptOk.record (e := .wake) _ (by simp) hs
  | svc call =>
    have hn' := hn
    simp only [Machine.next] at hn'
    split at hn'
    next hm =>
      refine KeptOk.record _ (by simp) ?_
      have hsched := hsim.sched
      cases call with
      | exit =>
        refine hkept.exit hm ?_ hn'
        rw [← hsched]
        exact hset
      | fork alloc =>
        refine hkept.fork hm ?_ (fun c pgd ha => ?_) hn'
        · rw [← hsched]
          exact hgiven
        · subst ha
          exact hset
      | join => exact hkept.join_call hm hn'
      | exec o =>
        refine hkept.exec hm (fun pgd entry stackPt stackPages ho => ?_) hn'
        subst ho
        rw [← hsched]
        exact ⟨hgiven, hset⟩
      | wait => exact hkept.wait hm hn'
      | sleep now freq => exact hkept.sleep hm hn'
      | other r0 => exact hkept.other hm hn'
    next => exact absurd hn' (by simp)

/-- In every run of which each step keeps `r2`, the stack's room and the structs apart, every
process has resumed with exactly the registers it was due. -/
theorem run_contextsExact (hb : t.Boot kernelPhysBase) {ls : List Label}
    (hr : Run (Meeting Traced.KeepsContexts (Traced.Step kernelPhysBase kernelTable)) t ls u) :
    u.history.Exact := by
  obtain ⟨m, -, hk, -⟩ := hr.preserves
    (fun _ _ _ h ⟨hk, hs⟩ => step_tracedOk h hk hs) (boot_tracedOk hb)
  exact hk.past

end Runs

section Decide
variable (t : Traced L)

instance (h : History) (s : Sched) : Decidable (h.ExitSettled s) :=
  inferInstanceAs (Decidable (∀ _, _))

instance (e : Event) : Decidable (t.Given e) :=
  match e with
  | .svc (.fork alloc) => inferInstanceAs (Decidable (FreshAlloc t.kernel.cpu.mem.sched alloc))
  | .svc (.exec (.done _ entry _ _)) => inferInstanceAs (Decidable (entry < 4294967296))
  | .svc (.exec .notLoaded) | .svc (.exec .noStack) | .svc .exit | .svc .join | .svc .wait
  | .svc (.sleep _ _) | .svc (.other _) | .irq _ | .run _ | .input _ | .svcReturn
  | .wake => isTrue trivial

instance (i : Place L) : Decidable i.Waits :=
  match i with
  | .waiting _ => isTrue trivial
  | .user | .svcDone | .svcIdle | .irqIdle => isFalse id

instance (e : Event) : Decidable (t.TicksOutside e) :=
  match e with
  | .irq (some _) => inferInstanceAs (Decidable (¬ t.kernel.place.Waits))
  | .irq none | .svc _ | .run _ | .input _ | .svcReturn | .wake => isTrue trivial

instance (e : Event) : Decidable (t.Settled e) :=
  match e with
  | .svc .exit => inferInstanceAs (Decidable (t.history.ExitSettled _))
  | .svc (.exec (.done _ _ _ _)) => inferInstanceAs (Decidable (_ = _))
  | .svc (.fork (some (child, _))) => inferInstanceAs (Decidable (L.Placed child))
  | .svc (.exec .notLoaded) | .svc (.exec .noStack) | .svc (.fork none) | .svc .join | .svc .wait
  | .svc (.sleep _ _) | .svc (.other _) | .irq _ | .run _ | .input _ | .svcReturn
  | .wake => isTrue trivial

instance (k : Kernel L) (l : Label) : Decidable (k.KeepsR2 l) :=
  inferInstanceAs (Decidable (∀ p ∈ k.switchesTo l.event, _))

instance (L : Symbols) (n sp : ℕ) : Decidable (HasRoom L n sp) :=
  inferInstanceAs (Decidable (_ ∧ _))

instance (k : Kernel L) (l : Label) : Decidable (k.KeepsRoom l) :=
  match l with
  | ⟨.svc _, h⟩ => inferInstanceAs (Decidable (HasRoom L (60 + h.dispatch.frame) (k.cpu.sp .svc)))
  | ⟨.irq _, _⟩ | ⟨.run _, _⟩ | ⟨.input _, _⟩ | ⟨.svcReturn, _⟩ | ⟨.wake, _⟩ => isTrue trivial

instance (l : Label) : Decidable (t.KeepsContexts l) := inferInstanceAs (Decidable (_ ∧ _ ∧ _))

end Decide

section Runs

/-- The state after a step, without its conditions. -/
def Traced.next (kernelPhysBase kernelTable : ℕ) (t : Traced L) (l : Label) : Option (Traced L) :=
  (t.kernel.next kernelPhysBase kernelTable l).map fun k =>
    ⟨k, t.history.record t.kernel.view k.view l.event⟩

theorem Traced.step_of_next {kernelPhysBase kernelTable : ℕ} {t u : Traced L} {l : Label}
    (hg : t.Given l.event ∧ t.TicksOutside l.event)
    (hn : t.next kernelPhysBase kernelTable l = some u) :
    t.Step kernelPhysBase kernelTable l u := by
  obtain ⟨k, hk, rfl⟩ := Option.map_eq_some_iff.mp hn
  exact ⟨hg, hk, rfl⟩

theorem Traced.run_of_execute {kernelPhysBase kernelTable : ℕ} {P : Traced L → Label → Prop}
    [∀ t l, Decidable (P t l)] {t u : Traced L} {ls : List Label}
    (h : execute (fun t l => decide (P t l ∧ t.Given l.event ∧ t.TicksOutside l.event))
      (Traced.next kernelPhysBase kernelTable) t ls = some u) :
    Run (Meeting P (Traced.Step kernelPhysBase kernelTable)) t ls u :=
  Run.of_execute (fun _ _ _ hok hn =>
    ⟨(of_decide_eq_true hok).1, Traced.step_of_next (of_decide_eq_true hok).2 hn⟩) h

/-- A place for the globals and a low end of the SVC stack. -/
def layout : Symbols where
  currentProc := 0xC0050000
  svcSavedLr := 0xC0050004
  stackLow := 0xC00FC000
  kernel := by decide
  distinct := by decide
  below := by decide
  stackLow_le := by decide

/-- The first process at `0xC0104000`, as it is entered. -/
def started : Traced layout where
  kernel := {
    cpu := {
      r := fun _ => 0
      sp := fun
        | .usr => procStackTop - 16
        | .irq => irqStackTop
        | .svc => svcStackTop
      lr := fun _ => 0
      spsr := fun _ => 0
      pc := 0x8000
      cpsr := 0x10
      fpscr := 0
      vfp := fun _ => 0
      mem := ⟨Machine.init.sched, fun _ => 0⟩ }
    ttbr0 := Machine.init.ttbr0
    place := .user }
  history := .empty

theorem started_boot : started.Boot 0x40200000 :=
  ⟨⟨0xC0104000, _, 2, by decide, rfl, by decide +kernel, rfl, by decide, rfl⟩, rfl⟩

/-- Calls that write zeros wherever they may, except `mmu_set_proc_table` to `r2`. -/
def zeroing (r2 : ℕ) : Calls where
  dispatch := ⟨⟨fun _ => 0, 0, 0⟩, fun _ => 0, 0⟩
  switch := ⟨⟨fun _ => 0, 0, 0⟩, fun _ => 0, 0⟩
  table := ⟨⟨fun _ => r2, 0, 0⟩, fun _ => 0, 0⟩

/-- The first process forks and sleeps for 2 µs, its child for 5 ms; a tick wakes the first, and
`mmu_set_proc_table` leaves `r2` in its `r2`. -/
def sleepersRun (r2 : ℕ) : List Label :=
  [⟨.svc (.fork (some (0xC0108000, 0xC0108400))), zeroing 0⟩, ⟨.svcReturn, zeroing 0⟩,
    ⟨.svc (.sleep 0 1000000), zeroing 0⟩, ⟨.svcReturn, zeroing 0xC0108000⟩,
    ⟨.run { (default : CpuCtx) with r := fun _ => 5000, pc := 0x9000, cpsr := 0x10 }, zeroing 0⟩,
    ⟨.svc (.sleep 0 1000000), zeroing 0⟩, ⟨.svcReturn, zeroing 0⟩, ⟨.irq (some 10), zeroing 0⟩,
    ⟨.wake, zeroing r2⟩]

theorem sleepersRun_exact : ∃ u, Run (Traced.Step 0x40200000 0xC0008000) started
    (sleepersRun 0xC0104000) u ∧ u.history.resumes.length = 2 ∧ u.history.Exact := by
  have hlen : ((execute (fun t l => decide (t.KeepsContexts l ∧ t.Given l.event ∧
      t.TicksOutside l.event)) (Traced.next 0x40200000 0xC0008000) started
      (sleepersRun 0xC0104000)).any fun u => decide (u.history.resumes.length = 2)) = true := by
    decide +kernel
  obtain ⟨u, hu, htwo⟩ := (Option.any_eq_true _ _).mp hlen
  have hrun := Traced.run_of_execute hu
  exact ⟨u, hrun.mono fun _ _ _ h => h.2, of_decide_eq_true htwo,
    run_contextsExact started_boot hrun⟩

/-- The first process wakes up with the registers of its child when `mmu_set_proc_table` leaves
the child's address in `r2`. -/
theorem clobbered_r2_swaps_contexts : ¬ ∀ (L : Symbols) kernelPhysBase kernelTable (t u : Traced L)
    ls, t.Boot kernelPhysBase → Run (Traced.Step kernelPhysBase kernelTable) t ls u →
    u.history.Exact := by
  intro h
  have hbad : ((execute (fun t l => decide (True ∧ t.Given l.event ∧ t.TicksOutside l.event))
      (Traced.next 0x40200000 0xC0008000) started (sleepersRun 0xC0108000)).any fun u =>
        u.history.resumes.any fun x => decide (x.1.r 1 ≠ x.2.r 1)) = true := by decide +kernel
  obtain ⟨u, hu, hx⟩ := (Option.any_eq_true _ _).mp hbad
  obtain ⟨x, hmem, hne⟩ := List.any_eq_true.mp hx
  have hrun := (Traced.run_of_execute (P := fun _ _ => True) hu).mono fun _ _ _ h => h.2
  exact of_decide_eq_true hne (by rw [h _ _ _ _ _ _ started_boot hrun x hmem])

end Runs

end Leg
