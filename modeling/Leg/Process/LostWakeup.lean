import Leg.Lib.Runs
import Leg.Process.SchedulerTable

/-! Suspended processes and what can make them runnable again. The operations are
taken in any order; a run keeps every suspended process wakeable exactly as long as
no tick preempts a process that is not itself blocked and no sleep computes deadline 0. -/
namespace Leg
open Runs Sched

/-- One operation on the process table, with the values it reads from outside it. -/
inductive SchedOp where
  | fork (alloc : Option (ℕ × ℕ)) (lrSvc spUsr cpsr : ℕ)
  | sleep (us now freq : ℕ)
  | join (target : ℕ)
  | exit (code : ℕ)
  | switch
  | tick (now : ℕ)

/-- The blocking-call path: `sched_pick_next`, then `context_switch` if it found one. -/
def switchNext (s : Sched) : Sched :=
  let next := schedPickNext s
  if next = 0 then s else contextSwitch s next

def schedOp (s : Sched) : SchedOp → Option Sched
  | .fork alloc lrSvc spUsr cpsr => some (processFork s alloc lrSvc spUsr cpsr).1
  | .sleep us now freq => some (svcSleep s us now freq).1
  | .join target => some (svcJoin s target).1
  | .exit code => processExit s (s.proc s.currentProc).pid code
  | .switch => some (switchNext s)
  | .tick now => some (schedTick s now)

def FreshStruct (s : Sched) : SchedOp → Prop
  | .fork alloc _ _ _ => FreshAlloc s alloc
  | _ => True

def SchedStep (s : Sched) (op : SchedOp) (t : Sched) : Prop :=
  FreshStruct s op ∧ schedOp s op = some t

/-- The table after `process_exec` entered the first process. -/
def SchedBoot (s : Sched) : Prop :=
  ∃ p proc pid, p ≠ 0 ∧ s = processExec ⟨fun _ => 0, proc, 0, pid⟩ p

/-- Something can still wake a suspended process: a deadline, or a live join target. -/
def Pending (s : Sched) (p : Process) : Prop := p.wakeTick ≠ 0 ∨ s.Live p.joinTarget

/-- Every listed process that is suspended has a pending wake condition. -/
def NoLostProcess (s : Sched) : Prop :=
  ∀ i, s.procs i ≠ 0 → (s.proc (s.procs i)).suspended ≠ 0 → Pending s (s.proc (s.procs i))

instance (s : Sched) (p : Process) : Decidable (Pending s p) :=
  inferInstanceAs (Decidable (_ ∨ _))

instance (s : Sched) : Decidable (NoLostProcess s) := inferInstanceAs (Decidable (∀ _, _))

/-- A tick that finds another runnable process finds the current one itself blocked, past
this tick; a sleep has a deadline other than 0, the mark of a process not sleeping. -/
def KeepsPending (s : Sched) : SchedOp → Prop
  | .tick now => OtherRunnable s now →
      ((s.proc s.currentProc).wakeTick ≠ 0 ∧ now < (s.proc s.currentProc).wakeTick) ∨
        s.Live (s.proc s.currentProc).joinTarget
  | .sleep us now freq =>
      sleepDeadline us now freq ≠ 0 ∨ s.Live (s.proc s.currentProc).joinTarget
  | _ => True

theorem noLostProcess_iff {s : Sched} : NoLostProcess s ↔
    ∀ p, s.Mem p → (s.proc p).suspended ≠ 0 → Pending s (s.proc p) := by
  constructor
  · rintro h p ⟨hp, i, rfl⟩ hs
    exact h i hp hs
  · intro h i hi hs
    exact h _ (mem_slot hi) hs

theorem wakeSleepers_live (s : Sched) (now pid : ℕ) :
    (wakeSleepers s now).Live pid ↔ s.Live pid := by
  apply live_congr (wakeSleepers_procs s now)
  intro p _
  rw [wakeSleepers_proc]
  split <;> rfl

theorem wakeSleepers_pending {s : Sched} {now p : ℕ} (hm : s.Mem p)
    (h : (s.proc p).suspended ≠ 0 → Pending s (s.proc p))
    (hs : ((wakeSleepers s now).proc p).suspended ≠ 0) :
    Pending (wakeSleepers s now) ((wakeSleepers s now).proc p) := by
  rw [ne_eq, wakeSleepers_suspended hm, RunnableAt, not_or] at hs
  rw [wakeSleepers_proc, if_neg fun hc => hs.2 hc.2, Pending, wakeSleepers_live]
  exact h hs.1

theorem write_current_noLost {s : Sched} {f : Process → Process} (hc : s.Mem s.currentProc)
    (hf : (f (s.proc s.currentProc)).pid = (s.proc s.currentProc).pid)
    (hb : (f (s.proc s.currentProc)).suspended ≠ 0)
    (h : ∀ p, s.Mem p → p ≠ s.currentProc → (s.proc p).suspended ≠ 0 → Pending s (s.proc p)) :
    NoLostProcess (s.write s.currentProc f) ↔ Pending s (f (s.proc s.currentProc)) := by
  rw [noLostProcess_iff]
  have hpend (q : Process) : Pending (s.write s.currentProc f) q ↔ Pending s q := by
    simp only [Pending, write_live hf]
  constructor
  · intro hn
    have := hn s.currentProc hc (by rwa [write_proc_self])
    rwa [write_proc_self, hpend] at this
  · intro hp q hm hs
    rw [hpend]
    by_cases hq : q = s.currentProc
    · subst hq; rwa [write_proc_self]
    · rw [write_proc_of_ne s f hq] at hs ⊢
      exact h q hm hq hs

section Steps
variable {s t : Sched}

theorem fork_noLost {alloc : Option (ℕ × ℕ)} {lrSvc spUsr cpsr : ℕ}
    (hf : FreshStruct s (.fork alloc lrSvc spUsr cpsr)) (h : NoLostProcess s) :
    NoLostProcess (processFork s alloc lrSvc spUsr cpsr).1 := by
  rcases alloc with _ | ⟨child, pgd⟩
  · exact h
  obtain ⟨hproc, -, -, hslot⟩ := processFork_some s child pgd lrSvc spUsr cpsr
  generalize (processFork s (some (child, pgd)) lrSvc spUsr cpsr).1 = t at *
  rw [noLostProcess_iff] at h ⊢
  have hne {p : ℕ} (hp : s.Mem p) : p ≠ child := fun hpc => hf.2 (hpc ▸ hp)
  have hold {p : ℕ} (hp : s.Mem p) : t.proc p = s.proc p := by
    rw [hproc, Function.update_of_ne (hne hp)]
  have hmem (p : ℕ) : t.Mem p → s.Mem p ∨ p = child := by
    rcases hslot with ⟨i, hi, hp, -⟩ | ⟨-, hp, -⟩
    · intro hm
      exact (mem_update_slot hi hf.1 p).mp (by simpa [Mem, hp] using hm)
    · intro hm
      exact .inl (by simpa [Mem, hp] using hm)
  have hlive (pid : ℕ) : s.Live pid → t.Live pid := by
    rw [live_iff_mem, live_iff_mem]
    rintro ⟨p, hm, hpid⟩
    refine ⟨p, ?_, by rwa [hold hm]⟩
    rcases hslot with ⟨i, hi, hp, -⟩ | ⟨-, hp, -⟩
    · simpa [Mem, hp] using (mem_update_slot hi hf.1 p).mpr (.inl hm)
    · simpa [Mem, hp] using hm
  intro p hm hs
  rcases hmem p hm with hp | rfl
  · rw [hold hp] at hs ⊢
    exact (h p hp hs).imp id (hlive _)
  · -- the child starts unsuspended
    rw [hproc, Function.update_self] at hs
    exact absurd rfl hs

/-- An exit wakes exactly the processes whose join target leaves the table. -/
theorem exit_noLost {pid code : ℕ} (h : NoLostProcess s) (ht : processExit s pid code = some t) :
    NoLostProcess t := by
  obtain ⟨i, next, hi, hc, hpid, -, -, rfl⟩ := processExit_some ht
  rw [noLostProcess_iff] at h ⊢
  set u : Sched := { s with procs := Function.update s.procs i 0 } with hu
  have hsub {p : ℕ} (hm : u.Mem p) : s.Mem p := by
    obtain ⟨hp, j, hj⟩ := hm
    have hji : j ≠ i := by rintro rfl; simp [hu] at hj; exact hp hj.symm
    exact ⟨hp, j, by simpa [hu, hji] using hj⟩
  intro p hm hs
  have hmu : u.Mem p := by simpa [Mem, contextSwitch] using hm
  simp only [contextSwitch] at hs ⊢
  rw [schedWakeJoiners_proc] at hs ⊢
  split at hs
  · exact absurd rfl hs
  next hj =>
    rw [if_neg hj]
    rcases h p (hsub hmu) hs with hw | ⟨j, hj0, hjp⟩
    · exact .inl hw
    · right
      have hne : (s.proc p).joinTarget ≠ pid := fun he => hj ⟨hmu, he⟩
      -- a target with another pid is not the process that left
      have hji : j ≠ i := by
        rintro rfl
        rw [hi, hpid] at hjp
        exact hne hjp.symm
      have hslot : (schedWakeJoiners u pid code).procs j = s.procs j := by simp [hu, hji]
      have hpj : ((schedWakeJoiners u pid code).proc (s.procs j)).pid =
          (s.proc (s.procs j)).pid := by
        rw [schedWakeJoiners_proc]
        split <;> rfl
      refine ⟨j, by rwa [hslot], ?_⟩
      rw [hslot, hpj]
      exact hjp

/-- A tick keeps every suspended process wakeable exactly when it meets its condition. -/
theorem tick_noLost {now : ℕ} (ho : TableOk s) (h : NoLostProcess s) :
    NoLostProcess (schedTick s now) ↔ KeepsPending s (.tick now) := by
  have hp := noLostProcess_iff.mp h
  have hw : ∀ p, (wakeSleepers s now).Mem p → ((wakeSleepers s now).proc p).suspended ≠ 0 →
      Pending (wakeSleepers s now) ((wakeSleepers s now).proc p) := by
    intro p hm hs
    have hm' : s.Mem p := by simpa [Mem] using hm
    exact wakeSleepers_pending hm' (hp p hm') hs
  rcases schedTick_cases now ho.distinct ho.current with ⟨hn, ht⟩ | ⟨hr, p, -, -, -, ht⟩
  · rw [ht, noLostProcess_iff]
    exact ⟨fun _ hr => absurd hr hn, fun _ => hw⟩
  · rw [ht]
    have hcur : (wakeSleepers s now).Mem (wakeSleepers s now).currentProc := by
      simpa [Mem] using ho.current
    have hwr := write_current_noLost (f := fun q => { q with suspended := 1 }) hcur rfl (by simp)
      (fun q hm _ => hw q hm)
    rw [wakeSleepers_currentProc] at hwr
    -- choosing another current process changes nothing the property speaks of
    refine Iff.trans (b := NoLostProcess ((wakeSleepers s now).write s.currentProc
      fun q => { q with suspended := 1 })) Iff.rfl (hwr.trans ?_)
    simp only [Pending, wakeSleepers_live, KeepsPending, hr, true_imp_iff]
    rw [wakeSleepers_proc]
    by_cases hc : (s.proc s.currentProc).wakeTick ≠ 0 ∧ (s.proc s.currentProc).wakeTick ≤ now
    · rw [if_pos ⟨ho.current, hc⟩]
      simp only [wakeSleeper, ne_eq, not_true, false_or]
      have : ¬ now < (s.proc s.currentProc).wakeTick := Nat.not_lt.mpr hc.2
      simp [this]
    · rw [if_neg fun h => hc h.2]
      constructor
      · rintro (h0 | hl)
        · exact .inl ⟨h0, Nat.lt_of_not_le fun hle => hc ⟨h0, hle⟩⟩
        · exact .inr hl
      · rintro (⟨h0, -⟩ | hl)
        · exact .inl h0
        · exact .inr hl

theorem sleep_noLost {us now freq : ℕ} (ho : TableOk s) (h : NoLostProcess s) :
    NoLostProcess (svcSleep s us now freq).1 ↔ KeepsPending s (.sleep us now freq) := by
  have hp := noLostProcess_iff.mp h
  exact write_current_noLost (f := fun p =>
    { p with wakeTick := sleepDeadline us now freq, suspended := 1 })
    ho.current rfl (by simp) fun p hm _ => hp p hm

theorem join_noLost {target : ℕ} (ho : TableOk s) (h : NoLostProcess s) :
    NoLostProcess (svcJoin s target).1 := by
  unfold svcJoin
  split
  next => exact h
  next hg =>
    have hp := noLostProcess_iff.mp h
    refine (write_current_noLost (f := fun p => { p with joinTarget := target, suspended := 1 })
      ho.current rfl (by simp) fun p hm _ => hp p hm).mpr (.inr ?_)
    by_contra hl
    exact hg (schedGet_eq_zero.mpr hl)

end Steps

/-- Every operation keeps the table well formed. -/
theorem schedStep_tableOk {s t : Sched} {op : SchedOp} (h : TableOk s) (hs : SchedStep s op t) :
    TableOk t := by
  obtain ⟨hf, ht⟩ := hs
  cases op with
  | fork alloc lrSvc spUsr cpsr =>
    exact Option.some.inj ht ▸ processFork_tableOk lrSvc spUsr cpsr h hf
  | sleep us now freq => exact Option.some.inj ht ▸ ⟨h.distinct, h.current⟩
  | join target =>
    rw [← Option.some.inj ht, svcJoin]
    split
    · exact h
    · exact ⟨h.distinct, h.current⟩
  | exit code => exact processExit_tableOk h ht
  | switch =>
    rw [← Option.some.inj ht]
    unfold switchNext
    dsimp only
    split
    next => exact h
    next hn => exact ⟨h.distinct, (schedPickNext_some hn).1⟩
  | tick now => exact Option.some.inj ht ▸ schedTick_tableOk h

theorem schedStep_noLost {s t : Sched} {op : SchedOp} (ho : TableOk s) (h : NoLostProcess s)
    (hs : SchedStep s op t) : NoLostProcess t ↔ KeepsPending s op := by
  obtain ⟨hf, ht⟩ := hs
  cases op with
  | fork alloc lrSvc spUsr cpsr =>
    rw [← Option.some.inj ht]
    exact ⟨fun _ => trivial, fun _ => fork_noLost hf h⟩
  | sleep us now freq => exact Option.some.inj ht ▸ sleep_noLost ho h
  | join target =>
    rw [← Option.some.inj ht]
    exact ⟨fun _ => trivial, fun _ => join_noLost ho h⟩
  | exit code => exact ⟨fun _ => trivial, fun _ => exit_noLost h ht⟩
  | switch =>
    rw [← Option.some.inj ht]
    refine ⟨fun _ => trivial, fun _ => ?_⟩
    unfold switchNext
    dsimp only
    split <;> exact h
  | tick now => exact Option.some.inj ht ▸ tick_noLost ho h

theorem schedBoot_ok {s : Sched} (h : SchedBoot s) : TableOk s ∧ NoLostProcess s := by
  obtain ⟨p, proc, pid, hp, rfl⟩ := h
  obtain ⟨hok, -, honly, hrun⟩ := processExec_first proc pid hp
  refine ⟨hok, noLostProcess_iff.mpr fun q hq hs => ?_⟩
  rw [honly q hq] at hs
  exact absurd hrun hs

/-- From the first process on, the runs that pass only through tables without a lost process
are exactly the runs whose every step meets `KeepsPending`. -/
theorem noLostProcess_along_iff {s t : Sched} {ops : List SchedOp} (h : SchedBoot s) :
    Run (Along NoLostProcess SchedStep) s ops t ↔
      Run (Meeting KeepsPending SchedStep) s ops t :=
  along_iff_meeting SchedStep KeepsPending (I := TableOk) (P := NoLostProcess)
    (fun _ _ _ ho _ hs => schedStep_tableOk ho hs)
    (fun _ _ _ ho hp hs => schedStep_noLost ho hp hs) (schedBoot_ok h).1 (schedBoot_ok h).2

/-- The table after boot with the first process at `0x4000`. -/
def initTable : Sched :=
  processExec ⟨fun _ => 0, fun _ => { (default : Process) with pid := 1 }, 0, 2⟩ 0x4000

theorem initTable_boot : SchedBoot initTable := ⟨0x4000, _, 2, by decide, rfl⟩

/-- The table once the first process has forked the struct at `0x8000`. -/
def forkedTable : Sched := (processFork initTable (some (0x8000, 0xC000)) 0 0 0).1

/-- The first process forks, sleeps for 5 microseconds and the switch enters its child. -/
theorem noLostProcess_along_sleep :
    Run (Along NoLostProcess SchedStep) initTable
      [.fork (some (0x8000, 0xC000)) 0 0 0, .sleep 5 100 1000000, .switch]
      (switchNext (svcSleep forkedTable 5 100 1000000).1) := by
  refine (noLostProcess_along_iff initTable_boot).mpr ?_
  refine .cons ⟨trivial, ⟨by decide, by decide +kernel⟩, rfl⟩ ?_
  refine .cons ⟨.inl (by decide), trivial, rfl⟩ ?_
  exact .single ⟨trivial, trivial, rfl⟩

/-- The struct a fork builds on holds `join_target = 0`; `wake_tick` the code clears itself. -/
def CreatedClear (s : Sched) : SchedOp → Prop
  | .fork (some (child, _)) _ _ _ => (s.proc child).joinTarget = 0
  | _ => True

/-- The first process forks and the next tick preempts it: suspended, with no deadline and
no join target, it is lost. -/
theorem preempted_process_lost : ¬ ∀ s ops t, SchedBoot s →
    (∀ i, s.procs i ≠ 0 →
      (s.proc (s.procs i)).wakeTick = 0 ∧ (s.proc (s.procs i)).joinTarget = 0) →
    Run (Meeting CreatedClear SchedStep) s ops t → NoLostProcess t := by
  intro h
  have hclear : (initTable.proc 0x8000).joinTarget = 0 := by decide +kernel
  have hrun : Run (Meeting CreatedClear SchedStep) initTable
      [.fork (some (0x8000, 0xC000)) 0 0 0, .tick 100] (schedTick forkedTable 100) :=
    .cons ⟨hclear, ⟨by decide, by decide +kernel⟩, rfl⟩ (.single ⟨trivial, trivial, rfl⟩)
  have hlost := h _ _ _ initTable_boot (by decide +kernel) hrun
  exact absurd hlost (by decide +kernel)

end Leg
