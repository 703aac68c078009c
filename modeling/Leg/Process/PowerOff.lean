import Leg.Process.ExitTable
import Leg.Process.LostWakeup

/-! When `process_exit` switches the machine off, and what is left in the table then. The decision
rests on `sched_pick_next` alone, which does not see a process that sleeps. -/
namespace Leg
open Runs Sched

/-- `process_exit` comes to `poweroff`. -/
def PowersOff (s : Sched) (pid code : ℕ) : Prop :=
  schedGet s pid ≠ 0 ∧ schedGet s pid = s.currentProc ∧ schedPickNext (exitTable s pid code) = 0

instance (s : Sched) (pid code : ℕ) : Decidable (PowersOff s pid code) :=
  inferInstanceAs (Decidable (_ ∧ _ ∧ _))

/-- Some listed process runs or waits for a deadline. -/
def WorkRemains (s : Sched) : Prop :=
  ∃ i, s.procs i ≠ 0 ∧ ((s.proc (s.procs i)).suspended = 0 ∨ (s.proc (s.procs i)).wakeTick ≠ 0)

instance (s : Sched) : Decidable (WorkRemains s) := inferInstanceAs (Decidable (∃ _, _))

/-- The process table, and whether the machine is off. -/
structure Power where
  sched : Sched
  off : Bool

def Power.next (m : Power) (op : SchedOp) : Option Power :=
  match op with
  | .exit code =>
    let pid := (m.sched.proc m.sched.currentProc).pid
    if PowersOff m.sched pid code then some ⟨exitTable m.sched pid code, true⟩
    else (schedOp m.sched op).map fun s => ⟨s, false⟩
  | _ => (schedOp m.sched op).map fun s => ⟨s, false⟩

/-- Nothing happens once the machine is off. -/
def PowerStep (m : Power) (op : SchedOp) (n : Power) : Prop :=
  m.off = false ∧ FreshStruct m.sched op ∧ m.next op = some n

/-- The machine is on, or nothing listed can become runnable any more. -/
def OffWhenDone (m : Power) : Prop := m.off = true → ¬ WorkRemains m.sched

/-- Besides the current process nobody runs, and nobody is joined on `pid`. -/
def NobodyElse (s : Sched) (pid : ℕ) : Prop :=
  ∀ i, s.procs i ≠ 0 → s.procs i ≠ s.currentProc →
    (s.proc (s.procs i)).suspended ≠ 0 ∧ (s.proc (s.procs i)).joinTarget ≠ pid

/-- An exit that leaves nobody unsuspended leaves nobody asleep. -/
def NobodySleeps (m : Power) : SchedOp → Prop
  | .exit _ =>
    let s := m.sched
    NobodyElse s (s.proc s.currentProc).pid →
      ∀ i, s.procs i ≠ 0 → s.procs i ≠ s.currentProc → (s.proc (s.procs i)).wakeTick = 0
  | _ => True

instance (s : Sched) (pid : ℕ) : Decidable (NobodyElse s pid) :=
  inferInstanceAs (Decidable (∀ _, _))

instance (m : Power) (op : SchedOp) : Decidable (NobodySleeps m op) :=
  match op with
  | .exit _ => inferInstanceAs (Decidable (_ → _))
  | .fork .. | .sleep .. | .join _ | .switch | .tick _ => isTrue trivial

instance (s : Sched) (op : SchedOp) : Decidable (FreshStruct s op) :=
  match op with
  | .fork alloc _ _ _ => inferInstanceAs (Decidable (FreshAlloc s alloc))
  | .sleep .. | .join _ | .exit _ | .switch | .tick _ => isTrue trivial

section Exit
variable {s : Sched} {pid code : ℕ}

theorem not_workRemains {s : Sched} : ¬ WorkRemains s ↔
    ∀ p, s.Mem p → (s.proc p).suspended ≠ 0 ∧ (s.proc p).wakeTick = 0 := by
  rw [← forall_slot (P := fun p => (s.proc p).suspended ≠ 0 ∧ (s.proc p).wakeTick = 0)]
  simp only [WorkRemains, not_exists, not_and, not_or, not_not, ne_eq]

theorem nobodyElse_iff : NobodyElse s pid ↔ ∀ q, s.Mem q → q ≠ s.currentProc →
    (s.proc q).suspended ≠ 0 ∧ (s.proc q).joinTarget ≠ pid :=
  forall_slot (P := fun q => q ≠ s.currentProc →
    (s.proc q).suspended ≠ 0 ∧ (s.proc q).joinTarget ≠ pid)

theorem nobodySleeps_iff {m : Power} {code : ℕ} : NobodySleeps m (.exit code) ↔
    (NobodyElse m.sched (m.sched.proc m.sched.currentProc).pid →
      ∀ q, m.sched.Mem q → q ≠ m.sched.currentProc → (m.sched.proc q).wakeTick = 0) :=
  imp_congr_right fun _ =>
    forall_slot (P := fun q => q ≠ m.sched.currentProc → (m.sched.proc q).wakeTick = 0)

/-- The exit of a listed process switches off exactly if nobody else runs or waits for it. -/
theorem powersOff_iff (hd : s.Distinct) (h0 : schedGet s pid ≠ 0)
    (hcur : schedGet s pid = s.currentProc) : PowersOff s pid code ↔ NobodyElse s pid := by
  have hc : (exitTable s pid code).currentProc ≠ 0 := by
    rw [exitTable, schedWakeJoiners_currentProc]
    obtain ⟨i, -, -, hrem⟩ := schedRemove_schedGet h0
    rw [hrem]
    exact hcur ▸ h0
  rw [nobodyElse_iff]
  constructor
  · rintro ⟨-, -, hnone⟩ q hm hq
    have hs := schedPickNext_zero hc hnone ((exitTable_mem code hd h0 hcur q).mpr ⟨hm, hq⟩)
    rw [exitTable_proc code hd h0 hcur hm hq] at hs
    split at hs
    next => exact absurd rfl hs
    next hj => exact ⟨hs, hj⟩
  · intro hno
    refine ⟨h0, hcur, ?_⟩
    by_contra hnext
    obtain ⟨hm, hrun⟩ := schedPickNext_some hnext
    obtain ⟨hm', hq⟩ := (exitTable_mem code hd h0 hcur _).mp hm
    obtain ⟨hs, hj⟩ := hno _ hm' hq
    rw [exitTable_proc code hd h0 hcur hm' hq, if_neg hj] at hrun
    exact hs hrun

theorem powersOff_workRemains (hd : s.Distinct) (h : PowersOff s pid code) :
    ¬ WorkRemains (exitTable s pid code) ↔
      ∀ q, s.Mem q → q ≠ s.currentProc → (s.proc q).wakeTick = 0 := by
  obtain ⟨h0, hcur, -⟩ := id h
  have hno := nobodyElse_iff.mp ((powersOff_iff hd h0 hcur).mp h)
  have hsame (q : ℕ) (hm : s.Mem q) (hq : q ≠ s.currentProc) :
      (exitTable s pid code).proc q = s.proc q := by
    rw [exitTable_proc code hd h0 hcur hm hq, if_neg (hno q hm hq).2]
  rw [not_workRemains]
  constructor
  · intro hrest q hm hq
    have := (hrest q ((exitTable_mem code hd h0 hcur q).mpr ⟨hm, hq⟩)).2
    rwa [hsame q hm hq] at this
  · intro hsleep q hm
    obtain ⟨hm', hq⟩ := (exitTable_mem code hd h0 hcur q).mp hm
    rw [hsame q hm' hq]
    exact ⟨(hno q hm' hq).1, hsleep q hm' hq⟩

end Exit

section Steps
variable {m n : Power} {op : SchedOp}

theorem exit_goesOn {s t : Sched} {pid code : ℕ} (hd : s.Distinct)
    (h : processExit s pid code = some t) : ¬ NobodyElse s pid := by
  obtain ⟨h0, hcur, hnext, -⟩ := processExit_eq h
  exact fun hno => hnext ((powersOff_iff hd h0 hcur).mpr hno).2.2

theorem powerStep_tableOk (h : m.off = false → TableOk m.sched) (hs : PowerStep m op n) :
    n.off = false → TableOk n.sched := by
  obtain ⟨hon, hfresh, hn⟩ := hs
  have hok := h hon
  have hmap (t : Option Sched) (ht : t = schedOp m.sched op)
      (hn : t.map (fun s => (⟨s, false⟩ : Power)) = some n) : TableOk n.sched := by
    obtain ⟨u, hu, rfl⟩ := Option.map_eq_some_iff.mp hn
    exact schedStep_tableOk hok ⟨hfresh, ht ▸ hu⟩
  intro hoff
  unfold Power.next at hn
  split at hn
  next code =>
    dsimp only at hn
    split at hn
    next => exact absurd hoff (by rw [← Option.some.inj hn]; exact Bool.noConfusion)
    next => exact hmap _ rfl hn
  next => exact hmap _ rfl hn

/-- One step leaves no work behind exactly when it meets `NobodySleeps`. -/
theorem powerStep_offWhenDone (h : m.off = false → TableOk m.sched) (hs : PowerStep m op n) :
    OffWhenDone n ↔ NobodySleeps m op := by
  obtain ⟨hon, hfresh, hn⟩ := hs
  have hok := h hon
  have hstays (t : Option Sched) (hn : t.map (fun s => (⟨s, false⟩ : Power)) = some n) :
      OffWhenDone n := by
    obtain ⟨u, -, rfl⟩ := Option.map_eq_some_iff.mp hn
    exact fun hoff => Bool.noConfusion hoff
  unfold Power.next at hn
  split at hn
  next code =>
    rw [nobodySleeps_iff]
    dsimp only at hn
    split at hn
    next hoff =>
      obtain ⟨h0, hcur, -⟩ := id hoff
      have hno := (powersOff_iff hok.distinct h0 hcur).mp hoff
      rw [← Option.some.inj hn, OffWhenDone]
      simp only [true_implies, hno, powersOff_workRemains hok.distinct hoff]
    next =>
      obtain ⟨u, hu, -⟩ := Option.map_eq_some_iff.mp hn
      exact ⟨fun _ hno => absurd hno (exit_goesOn hok.distinct hu), fun _ => hstays _ hn⟩
  next hne =>
    refine ⟨fun _ => ?_, fun _ => hstays _ hn⟩
    cases op with
    | exit code => exact absurd rfl (hne code)
    | _ => trivial

end Steps

/-- The runs from the first process on in which the machine is switched off only once nothing
can become runnable any more are those in which each exit that leaves nobody unsuspended leaves
nobody asleep. -/
theorem offWhenDone_along_iff {s : Sched} {m : Power} {ops : List SchedOp} (h : SchedBoot s) :
    Run (Along OffWhenDone PowerStep) ⟨s, false⟩ ops m ↔
      Run (Meeting NobodySleeps PowerStep) ⟨s, false⟩ ops m :=
  along_iff_meeting PowerStep NobodySleeps (I := fun m => m.off = false → TableOk m.sched)
    (fun _ _ _ ho _ hs => powerStep_tableOk ho hs)
    (fun _ _ _ ho _ hs => powerStep_offWhenDone ho hs)
    (fun _ => (schedBoot_ok h).1) fun hoff => Bool.noConfusion hoff

/-- The first process forks, joins its child and the child exits: the machine stays on; then the
first process exits, and nobody is left. -/
theorem offWhenDone_along_join : ∃ m, Run (Along OffWhenDone PowerStep) ⟨initTable, false⟩
    [.fork (some (0x8000, 0xC000)) 0 0 0, .join 2, .switch, .exit 3, .exit 0] m ∧
      m.off = true := by
  have hany : (execute (fun m op => decide (m.off = false ∧ FreshStruct m.sched op ∧
      NobodySleeps m op)) Power.next ⟨initTable, false⟩
      [.fork (some (0x8000, 0xC000)) 0 0 0, .join 2, .switch, .exit 3, .exit 0]).any
      (fun m => m.off) = true := by
    decide +kernel
  obtain ⟨m, hm, hoff⟩ := (Option.any_eq_true _ _).mp hany
  refine ⟨m, (offWhenDone_along_iff initTable_boot).mpr ?_, hoff⟩
  refine .of_execute (fun s op t hok hn => ?_) hm
  obtain ⟨hon, hfresh, hsleep⟩ := of_decide_eq_true hok
  exact ⟨hsleep, hon, hfresh, hn⟩

/-- The first process forks and sleeps; its child exits, and the machine is switched off. -/
theorem exit_halts_sleeper : ¬ ∀ s ops m, SchedBoot s →
    Run PowerStep ⟨s, false⟩ ops m → OffWhenDone m := by
  intro h
  have hany : (execute (fun m op => decide (m.off = false ∧ FreshStruct m.sched op)) Power.next
      ⟨initTable, false⟩
      [.fork (some (0x8000, 0xC000)) 0 0 0, .sleep 5 100 1000000, .switch, .exit 0]).any
      (fun m => decide (m.off = true ∧ WorkRemains m.sched)) = true := by
    decide +kernel
  obtain ⟨m, hm, hbad⟩ := (Option.any_eq_true _ _).mp hany
  obtain ⟨hoff, hwork⟩ := of_decide_eq_true hbad
  have hrun : Run PowerStep ⟨initTable, false⟩ _ m := .of_execute (fun _ _ _ hok hn =>
    have hfresh := of_decide_eq_true hok
    ⟨hfresh.1, hfresh.2, hn⟩) hm
  exact h _ _ _ initTable_boot hrun hoff hwork

end Leg
