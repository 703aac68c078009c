import Leg.Process.SchedulerTable

/-! The process table an exit leaves behind, whatever happens to the machine afterwards. -/
namespace Leg
open Sched

/-- The table `process_exit` decides on: the process is out, and its joiners are awake. -/
def exitTable (s : Sched) (pid code : ℕ) : Sched :=
  schedWakeJoiners (schedRemove s pid).1 pid code

section Exit
variable {s t : Sched} {pid : ℕ} (code : ℕ)

theorem forall_slot {s : Sched} {P : ℕ → Prop} :
    (∀ i, s.procs i ≠ 0 → P (s.procs i)) ↔ ∀ p, s.Mem p → P p := by
  constructor
  · rintro h p ⟨h0, i, rfl⟩
    exact h i h0
  · intro h i h0
    exact h _ (mem_slot h0)

theorem schedPickNext_zero {s : Sched} (hcur : s.currentProc ≠ 0)
    (h : schedPickNext s = 0) {p : ℕ} (hp : s.Mem p) : (s.proc p).suspended ≠ 0 := by
  obtain ⟨h0, i, rfl⟩ := hp
  unfold schedPickNext at h
  rw [if_neg hcur] at h
  have hvisit (cur : ℕ) : ∃ j < maxProcesses, Fin.ofNat maxProcesses (cur + (j + 1)) = i := by
    refine ⟨(i.val + maxProcesses - (cur % maxProcesses + 1)) % maxProcesses,
      Nat.mod_lt _ (by decide), Fin.ext ?_⟩
    have hi := i.isLt
    simp only [Fin.ofNat, maxProcesses] at hi ⊢
    omega
  obtain ⟨j, hj, hji⟩ := hvisit _
  have hs := nextRunnable_zero h hj
  rw [hji] at hs
  exact hs h0

/-- The processes left in the table are the other listed ones; those joined on the exiting one
are awake. -/
theorem exitTable_mem (hd : s.Distinct) (hp : schedGet s pid ≠ 0)
    (hcur : schedGet s pid = s.currentProc) (q : ℕ) :
    (exitTable s pid code).Mem q ↔ s.Mem q ∧ q ≠ s.currentProc := by
  obtain ⟨i, hi, -, hrem⟩ := schedRemove_schedGet hp
  rw [hcur] at hi hp
  have hprocs : (exitTable s pid code).procs = Function.update s.procs i 0 := by
    rw [exitTable, schedWakeJoiners_procs, hrem]
  unfold Mem
  rw [hprocs]
  constructor
  · rintro ⟨h0, j, hj⟩
    have hji : j ≠ i := by
      rintro rfl
      exact h0 (hj.symm.trans (Function.update_self ..))
    rw [Function.update_of_ne hji] at hj
    refine ⟨⟨h0, j, hj⟩, fun heq => hji (hd j i ?_ (hj ▸ h0))⟩
    rw [hj, heq, hi]
  · rintro ⟨⟨h0, j, hj⟩, hne⟩
    have hji : j ≠ i := by
      rintro rfl
      exact hne (hj.symm.trans hi)
    exact ⟨h0, j, by rw [Function.update_of_ne hji, hj]⟩

theorem exitTable_proc (hd : s.Distinct) (hp : schedGet s pid ≠ 0)
    (hcur : schedGet s pid = s.currentProc) {q : ℕ} (hm : s.Mem q) (hq : q ≠ s.currentProc) :
    (exitTable s pid code).proc q =
      if (s.proc q).joinTarget = pid then wakeJoiner code (s.proc q) else s.proc q := by
  have hin := (exitTable_mem code hd hp hcur q).mpr ⟨hm, hq⟩
  obtain ⟨i, hi, -, hrem⟩ := schedRemove_schedGet hp
  have hleft : (schedRemove s pid).1.Mem q := by
    rw [exitTable, Mem, schedWakeJoiners_procs] at hin
    exact hin
  rw [exitTable, schedWakeJoiners_proc]
  simp only [hleft, true_and]
  rw [hrem]

theorem processExit_eq {code : ℕ} (h : processExit s pid code = some t) :
    schedGet s pid ≠ 0 ∧ schedGet s pid = s.currentProc ∧
      schedPickNext (exitTable s pid code) ≠ 0 ∧
      t = contextSwitch (exitTable s pid code) (schedPickNext (exitTable s pid code)) := by
  unfold processExit at h
  dsimp only at h
  split at h
  next => exact absurd h (by simp)
  next h0 =>
    split at h
    next hcur =>
      split at h
      next => exact absurd h (by simp)
      next hnext => exact ⟨h0, hcur, hnext, (Option.some.inj h).symm⟩
    next => exact absurd h (by simp)

end Exit

end Leg
