import Leg.Process.Scheduler

/-! What the loops of `scheduler.c` do to the table, one statement for each
function, so that later proofs never open a loop again. -/
namespace Leg.Sched

/-- The pointer `p` is listed in `procs[]`. -/
def Mem (s : Sched) (p : ℕ) : Prop := p ≠ 0 ∧ ∃ i, s.procs i = p

/-- Some listed process has this pid. -/
def Live (s : Sched) (pid : ℕ) : Prop :=
  ∃ i, s.procs i ≠ 0 ∧ (s.proc (s.procs i)).pid = pid

/-- No process is listed twice. -/
def Distinct (s : Sched) : Prop := ∀ i j, s.procs i = s.procs j → s.procs i ≠ 0 → i = j

instance (s : Sched) (p : ℕ) : Decidable (s.Mem p) := inferInstanceAs (Decidable (_ ∧ _))

instance (s : Sched) (pid : ℕ) : Decidable (s.Live pid) := inferInstanceAs (Decidable (∃ _, _))

theorem mem_slot {s : Sched} {i : Fin maxProcesses} (h : s.procs i ≠ 0) : s.Mem (s.procs i) :=
  ⟨h, i, rfl⟩

theorem live_iff_mem (s : Sched) (pid : ℕ) : s.Live pid ↔ ∃ p, s.Mem p ∧ (s.proc p).pid = pid := by
  constructor
  · rintro ⟨i, hi, hp⟩
    exact ⟨_, mem_slot hi, hp⟩
  · rintro ⟨_, ⟨hp, i, rfl⟩, h⟩
    exact ⟨i, hp, h⟩

section Write
variable (s : Sched) (p q : ℕ) (f : Process → Process)

@[simp] theorem write_procs : (s.write p f).procs = s.procs := rfl

@[simp] theorem write_currentProc : (s.write p f).currentProc = s.currentProc := rfl

@[simp] theorem write_nextPid : (s.write p f).nextPid = s.nextPid := rfl

@[simp] theorem write_proc_self : (s.write p f).proc p = f (s.proc p) := by simp [write]

theorem write_proc_of_ne {p q : ℕ} (h : q ≠ p) : (s.write p f).proc q = s.proc q := by
  simp [write, h]

theorem write_live {s : Sched} {p : ℕ} {f : Process → Process}
    (hf : (f (s.proc p)).pid = (s.proc p).pid) (pid : ℕ) :
    (s.write p f).Live pid ↔ s.Live pid := by
  have hpid (q : ℕ) : ((s.write p f).proc q).pid = (s.proc q).pid := by
    by_cases h : q = p
    · subst h; simpa using hf
    · rw [write_proc_of_ne s f h]
  simp [Live, hpid]

end Write

theorem findSlot_some {s : Sched} {c : ℕ → Bool} {i : Fin maxProcesses}
    (h : s.findSlot c = some i) : c (s.procs i) = true := by
  rw [findSlot] at h
  exact List.find?_some (p := fun i => c (s.procs i)) h

theorem findSlot_none {s : Sched} {c : ℕ → Bool} (h : s.findSlot c = none)
    (i : Fin maxProcesses) : c (s.procs i) = false := by
  rw [findSlot] at h
  simpa using List.find?_eq_none.mp h i (List.mem_finRange i)

section Sweep
variable {c : Process → Bool} {f : Process → Process}

private theorem sweep_fold (hf : ∀ q, c (f q) = true → f (f q) = f q)
    (l : List (Fin maxProcesses)) (s : Sched) :
    let t := l.foldl (sweepSlot c f) s
    t.procs = s.procs ∧ t.currentProc = s.currentProc ∧ t.nextPid = s.nextPid ∧
    ∀ p, t.proc p = if (p ≠ 0 ∧ ∃ i ∈ l, s.procs i = p) ∧ c (s.proc p) = true
      then f (s.proc p) else s.proc p := by
  induction l generalizing s with
  | nil => simp
  | cons i l ih =>
    simp only [List.foldl_cons, sweepSlot]
    by_cases hc : s.procs i ≠ 0 ∧ c (s.proc (s.procs i)) = true
    · rw [if_pos hc]
      obtain ⟨h1, h2, h3, h4⟩ := ih (s.write (s.procs i) f)
      refine ⟨h1, h2, h3, fun p => ?_⟩
      rw [h4 p]
      by_cases hp : p = s.procs i
      · -- the struct just written: a second pass over it changes nothing
        subst hp
        simp only [write_proc_self, write_procs]
        rw [if_pos (⟨⟨hc.1, i, by simp, rfl⟩, hc.2⟩ :
          (s.procs i ≠ 0 ∧ ∃ j ∈ i :: l, s.procs j = s.procs i) ∧ _)]
        split
        next h => exact hf _ h.2
        next => rfl
      · have hne : s.procs i ≠ p := fun h => hp h.symm
        simp [write_proc_of_ne s f hp, hne]
    · rw [if_neg hc]
      obtain ⟨h1, h2, h3, h4⟩ := ih s
      refine ⟨h1, h2, h3, fun p => ?_⟩
      rw [h4 p]
      by_cases hp : s.procs i = p
      · subst hp
        have hc' : s.procs i ≠ 0 → c (s.proc (s.procs i)) = false := by simpa using hc
        by_cases h0 : s.procs i = 0
        · simp [h0]
        · simp [hc' h0]
      · simp [hp]

private theorem sweep_eq (s : Sched) :
    s.sweep c f = (List.finRange maxProcesses).foldl (sweepSlot c f) s := by
  unfold sweep
  rfl

theorem sweep_procs (hf : ∀ q, c (f q) = true → f (f q) = f q) (s : Sched) :
    (s.sweep c f).procs = s.procs := by
  have h := sweep_fold hf (List.finRange maxProcesses) s
  rw [sweep_eq]
  exact h.1

theorem sweep_currentProc (hf : ∀ q, c (f q) = true → f (f q) = f q) (s : Sched) :
    (s.sweep c f).currentProc = s.currentProc := by
  have h := sweep_fold hf (List.finRange maxProcesses) s
  rw [sweep_eq]
  exact h.2.1

theorem sweep_nextPid (hf : ∀ q, c (f q) = true → f (f q) = f q) (s : Sched) :
    (s.sweep c f).nextPid = s.nextPid := by
  have h := sweep_fold hf (List.finRange maxProcesses) s
  rw [sweep_eq]
  exact h.2.2.1

theorem sweep_proc (hf : ∀ q, c (f q) = true → f (f q) = f q) (s : Sched) (p : ℕ) :
    (s.sweep c f).proc p =
      if s.Mem p ∧ c (s.proc p) = true then f (s.proc p) else s.proc p := by
  have h := sweep_fold hf (List.finRange maxProcesses) s
  rw [sweep_eq, h.2.2.2 p]
  refine if_congr ?_ rfl rfl
  simp only [List.mem_finRange, true_and, Mem]

end Sweep

theorem slot_after (cur i : Fin maxProcesses) :
    i ≠ cur ↔ ∃ j < maxProcesses - 1, Fin.ofNat maxProcesses (cur.val + (j + 1)) = i := by
  revert cur i
  decide

theorem nextRunnable_some {s : Sched} {cur n : ℕ} (h : s.nextRunnable cur n ≠ 0) :
    (s.proc (s.nextRunnable cur n)).suspended = 0 ∧
      ∃ j < n, s.procs (Fin.ofNat maxProcesses (cur + (j + 1))) = s.nextRunnable cur n := by
  unfold nextRunnable at h ⊢
  generalize hf : List.find? _ _ = o at h ⊢
  cases o with
  | none => exact absurd rfl h
  | some p =>
    have hp := List.find?_some hf
    obtain ⟨j, hj, hjp⟩ := List.mem_map.mp (List.mem_of_find?_eq_some hf)
    simp only [decide_eq_true_eq] at hp
    exact ⟨hp.2, j, List.mem_range.mp hj, hjp⟩

theorem nextRunnable_mem {s : Sched} {cur n : ℕ} (h : s.nextRunnable cur n ≠ 0) :
    s.Mem (s.nextRunnable cur n) := by
  obtain ⟨_, j, _, hj⟩ := nextRunnable_some h
  exact ⟨h, _, hj⟩

theorem nextRunnable_zero {s : Sched} {cur n : ℕ} (h : s.nextRunnable cur n = 0)
    {j : ℕ} (hj : j < n) (h0 : s.procs (Fin.ofNat maxProcesses (cur + (j + 1))) ≠ 0) :
    (s.proc (s.procs (Fin.ofNat maxProcesses (cur + (j + 1))))).suspended ≠ 0 := by
  unfold nextRunnable at h
  generalize hf : List.find? _ _ = o at h
  cases o with
  | none =>
    have hn := List.find?_eq_none.mp hf _ (List.mem_map.mpr ⟨j, List.mem_range.mpr hj, rfl⟩)
    simp only [decide_eq_true_eq, not_and] at hn
    exact hn h0
  | some p =>
    have hp := List.find?_some hf
    simp only [decide_eq_true_eq] at hp
    exact absurd h hp.1

end Leg.Sched

namespace Leg
open Sched

theorem schedRemove_schedGet {s : Sched} {pid : ℕ} (h : schedGet s pid ≠ 0) :
    ∃ i, s.procs i = schedGet s pid ∧ (s.proc (schedGet s pid)).pid = pid ∧
      (schedRemove s pid).1 = { s with procs := Function.update s.procs i 0 } := by
  unfold schedGet schedRemove at *
  generalize hf : s.findSlot _ = o at h ⊢
  cases o with
  | none => exact absurd rfl h
  | some i =>
    have hi := findSlot_some hf
    simp only [decide_eq_true_eq] at hi
    exact ⟨i, rfl, hi.2, rfl⟩

theorem schedGet_eq_zero {s : Sched} {pid : ℕ} : schedGet s pid = 0 ↔ ¬ s.Live pid := by
  unfold schedGet
  generalize hf : s.findSlot _ = o
  cases o with
  | none =>
    refine ⟨fun _ => ?_, fun _ => rfl⟩
    rintro ⟨i, hi, hp⟩
    have hn := findSlot_none hf i
    simp only [decide_eq_false_iff_not] at hn
    exact hn ⟨hi, hp⟩
  | some i =>
    have hi := findSlot_some hf
    simp only [decide_eq_true_eq] at hi
    exact ⟨fun h => absurd h hi.1, fun h => absurd ⟨i, hi⟩ h⟩

theorem schedGet_mem {s : Sched} {pid : ℕ} (h : schedGet s pid ≠ 0) :
    s.Mem (schedGet s pid) ∧ (s.proc (schedGet s pid)).pid = pid := by
  obtain ⟨i, hi, hp, _⟩ := schedRemove_schedGet h
  exact ⟨⟨h, i, hi⟩, hp⟩

theorem schedPickNext_some {s : Sched} (h : schedPickNext s ≠ 0) :
    s.Mem (schedPickNext s) ∧ (s.proc (schedPickNext s)).suspended = 0 := by
  unfold schedPickNext at h ⊢
  split at h
  next => exact absurd rfl h
  next hc =>
    rw [if_neg hc]
    exact ⟨nextRunnable_mem h, (nextRunnable_some h).1⟩

section Sweeps
variable (s : Sched) (pid code now : ℕ)

private theorem wakeJoiner_idem (q : Process) :
    decide ((wakeJoiner code q).joinTarget = pid) = true →
      wakeJoiner code (wakeJoiner code q) = wakeJoiner code q := by
  intro _
  simp [wakeJoiner]

private theorem wakeSleeper_idem (q : Process) :
    decide ((wakeSleeper q).wakeTick ≠ 0 ∧ (wakeSleeper q).wakeTick ≤ now) = true →
      wakeSleeper (wakeSleeper q) = wakeSleeper q := by
  intro _
  rfl

@[simp] theorem schedWakeJoiners_procs : (schedWakeJoiners s pid code).procs = s.procs :=
  sweep_procs (wakeJoiner_idem pid code) s

@[simp] theorem schedWakeJoiners_currentProc :
    (schedWakeJoiners s pid code).currentProc = s.currentProc :=
  sweep_currentProc (wakeJoiner_idem pid code) s

@[simp] theorem schedWakeJoiners_nextPid : (schedWakeJoiners s pid code).nextPid = s.nextPid :=
  sweep_nextPid (wakeJoiner_idem pid code) s

theorem schedWakeJoiners_proc (p : ℕ) : (schedWakeJoiners s pid code).proc p =
    if s.Mem p ∧ (s.proc p).joinTarget = pid then wakeJoiner code (s.proc p) else s.proc p := by
  rw [schedWakeJoiners, sweep_proc (wakeJoiner_idem pid code)]
  simp only [decide_eq_true_eq]

@[simp] theorem wakeSleepers_procs : (wakeSleepers s now).procs = s.procs :=
  sweep_procs (wakeSleeper_idem now) s

@[simp] theorem wakeSleepers_currentProc : (wakeSleepers s now).currentProc = s.currentProc :=
  sweep_currentProc (wakeSleeper_idem now) s

@[simp] theorem wakeSleepers_nextPid : (wakeSleepers s now).nextPid = s.nextPid :=
  sweep_nextPid (wakeSleeper_idem now) s

theorem wakeSleepers_proc (p : ℕ) : (wakeSleepers s now).proc p =
    if s.Mem p ∧ (s.proc p).wakeTick ≠ 0 ∧ (s.proc p).wakeTick ≤ now
      then wakeSleeper (s.proc p) else s.proc p := by
  rw [wakeSleepers, sweep_proc (wakeSleeper_idem now)]
  simp only [decide_eq_true_eq]

end Sweeps

/-- The process a tick at counter `now` leaves or makes runnable. -/
def RunnableAt (now : ℕ) (p : Process) : Prop :=
  p.suspended = 0 ∨ p.wakeTick ≠ 0 ∧ p.wakeTick ≤ now

instance (now : ℕ) (p : Process) : Decidable (RunnableAt now p) :=
  inferInstanceAs (Decidable (_ ∨ _))

/-- At counter `now`, a listed process other than the current one is runnable. -/
def OtherRunnable (s : Sched) (now : ℕ) : Prop :=
  ∃ i, s.procs i ≠ 0 ∧ s.procs i ≠ s.currentProc ∧ RunnableAt now (s.proc (s.procs i))

instance (s : Sched) (now : ℕ) : Decidable (OtherRunnable s now) :=
  inferInstanceAs (Decidable (∃ _, _))

theorem wakeSleepers_suspended {s : Sched} {now p : ℕ} (h : s.Mem p) :
    ((wakeSleepers s now).proc p).suspended = 0 ↔ RunnableAt now (s.proc p) := by
  rw [wakeSleepers_proc]
  by_cases hw : (s.proc p).wakeTick ≠ 0 ∧ (s.proc p).wakeTick ≤ now
  · rw [if_pos ⟨h, hw⟩]
    exact ⟨fun _ => .inr hw, fun _ => rfl⟩
  · rw [if_neg fun hc => hw hc.2]
    exact ⟨.inl, fun hr => hr.resolve_right hw⟩

/-- What a tick does: it wakes the sleepers, and it preempts the current process
exactly when another listed process is runnable. -/
theorem schedTick_cases {s : Sched} (now : ℕ) (hd : s.Distinct) (hc : s.Mem s.currentProc) :
    (¬ OtherRunnable s now ∧ schedTick s now = wakeSleepers s now) ∨
    (OtherRunnable s now ∧ ∃ p, s.Mem p ∧ p ≠ s.currentProc ∧ RunnableAt now (s.proc p) ∧
      schedTick s now = { (wakeSleepers s now).write s.currentProc
        (fun q => { q with suspended := 1 }) with currentProc := p }) := by
  obtain ⟨h0, c, hcp⟩ := hc
  simp only [schedTick, if_neg h0, wakeSleepers_currentProc]
  generalize hf : (wakeSleepers s now).findSlot _ = o
  cases o with
  | none =>
    have hn := findSlot_none hf c
    simp [hcp] at hn
  | some cur =>
    have hcur := findSlot_some hf
    simp only [wakeSleepers_procs, decide_eq_true_eq] at hcur
    dsimp only
    by_cases hp : (wakeSleepers s now).nextRunnable cur.val (maxProcesses - 1) = 0
    · left
      rw [if_pos hp]
      refine ⟨?_, rfl⟩
      rintro ⟨i, hi0, hi, hr⟩
      have hne : i ≠ cur := fun h => hi (h ▸ hcur)
      obtain ⟨j, hj, hji⟩ := (slot_after cur i).mp hne
      have hs := nextRunnable_zero hp hj (by rwa [hji, wakeSleepers_procs])
      rw [hji, wakeSleepers_procs] at hs
      exact hs ((wakeSleepers_suspended (mem_slot hi0)).mpr hr)
    · right
      rw [if_neg hp]
      obtain ⟨hrun, j, hj, hji⟩ := nextRunnable_some hp
      generalize hq : (wakeSleepers s now).nextRunnable cur.val (maxProcesses - 1) = p at *
      rw [wakeSleepers_procs] at hji
      -- the slots visited are not the current one, and nothing is listed twice
      have hne : p ≠ s.currentProc := by
        rintro rfl
        have := hd _ cur (hji.trans hcur.symm) (by rwa [hji])
        exact (slot_after cur _).mpr ⟨j, hj, rfl⟩ this
      have hm : s.Mem p := ⟨hp, _, hji⟩
      have hr := (wakeSleepers_suspended hm).mp hrun
      refine ⟨⟨Fin.ofNat maxProcesses (cur.val + (j + 1)), ?_, ?_, ?_⟩, p, hm, hne, hr, rfl⟩
      · rwa [hji]
      · rwa [hji]
      · rwa [hji]

theorem schedAdd_cases (s : Sched) (p : ℕ) :
    (∃ i, s.procs i = 0 ∧ schedAdd s p =
      ({ s.write p fun q => { q with suspended := 0 } with
        procs := Function.update s.procs i p }, (i.val : ℤ))) ∨
    ((∀ i, s.procs i ≠ 0) ∧ schedAdd s p = (s, -1)) := by
  unfold schedAdd
  cases hf : s.findSlot fun q => q = 0 with
  | none => exact .inr ⟨fun i => of_decide_eq_false (findSlot_none hf i), rfl⟩
  | some i => exact .inl ⟨i, of_decide_eq_true (findSlot_some hf), rfl⟩

theorem processFork_some (s : Sched) (child pgd lrSvc spUsr cpsr : ℕ) :
    let r := processFork s (some (child, pgd)) lrSvc spUsr cpsr
    r.1.proc = Function.update s.proc child (forkChild s child pgd lrSvc spUsr cpsr) ∧
    r.1.currentProc = s.currentProc ∧ r.1.nextPid = u32 (s.nextPid + 1) ∧
    ((∃ i, s.procs i = 0 ∧ r.1.procs = Function.update s.procs i child ∧ r.2 = child) ∨
      ((∀ i, s.procs i ≠ 0) ∧ r.1.procs = s.procs ∧ r.2 = 0)) := by
  simp only [processFork]
  generalize hb : Sched.mk s.procs (Function.update s.proc child
    (forkChild s child pgd lrSvc spUsr cpsr)) s.currentProc (u32 (s.nextPid + 1)) = b
  rcases schedAdd_cases b child with ⟨i, hi, hadd⟩ | ⟨hfull, hadd⟩ <;> subst hb
  · have hpos : ¬ ((i.val : ℤ) < 0) := by omega
    simp only [hadd, hpos, if_false]
    refine ⟨?_, rfl, rfl, .inl ⟨i, hi, rfl, trivial⟩⟩
    -- `sched_add` clears a flag the new struct already has clear
    simp [write, forkChild]
  · simp only [hadd]
    exact ⟨rfl, rfl, rfl, .inr ⟨hfull, rfl, rfl⟩⟩

theorem processExit_some {s t : Sched} {pid code : ℕ} (h : processExit s pid code = some t) :
    ∃ i next, s.procs i = s.currentProc ∧ s.currentProc ≠ 0 ∧
      (s.proc s.currentProc).pid = pid ∧
      let u := schedWakeJoiners { s with procs := Function.update s.procs i 0 } pid code
      u.Mem next ∧ (u.proc next).suspended = 0 ∧ t = contextSwitch u next := by
  unfold processExit at h
  dsimp only at h
  split at h
  next => exact absurd h (by simp)
  next hp =>
    obtain ⟨i, hi, hpid, hrem⟩ := schedRemove_schedGet hp
    split at h
    next hcur =>
      split at h
      next => exact absurd h (by simp)
      next hnext =>
        rw [hrem] at h hnext
        obtain ⟨hm, hr⟩ := schedPickNext_some hnext
        exact ⟨i, _, hi.trans hcur, hcur ▸ hp, hcur ▸ hpid, hm, hr, (Option.some.inj h).symm⟩
    next => exact absurd h (by simp)

/-- Nothing is listed twice, and the current process is listed. -/
structure TableOk (s : Sched) : Prop where
  distinct : s.Distinct
  current : s.Mem s.currentProc

/-- The heap never hands out the struct of a listed process again. -/
def FreshAlloc (s : Sched) : Option (ℕ × ℕ) → Prop
  | some (child, _) => child ≠ 0 ∧ ¬ s.Mem child
  | none => True

instance (s : Sched) (alloc : Option (ℕ × ℕ)) : Decidable (FreshAlloc s alloc) :=
  match alloc with
  | some (child, _) => inferInstanceAs (Decidable (child ≠ 0 ∧ ¬ s.Mem child))
  | none => isTrue trivial

theorem live_congr {s t : Sched} (hp : t.procs = s.procs)
    (hpid : ∀ p, s.Mem p → (t.proc p).pid = (s.proc p).pid) (pid : ℕ) :
    t.Live pid ↔ s.Live pid := by
  unfold Live
  rw [hp]
  constructor
  · rintro ⟨i, hi, h⟩
    exact ⟨i, hi, (hpid _ (mem_slot hi)).symm.trans h⟩
  · rintro ⟨i, hi, h⟩
    exact ⟨i, hi, (hpid _ (mem_slot hi)).trans h⟩

theorem mem_update_slot {s : Sched} {i : Fin maxProcesses} {child : ℕ} (hi : s.procs i = 0)
    (hc : child ≠ 0) (p : ℕ) :
    ({ s with procs := Function.update s.procs i child } : Sched).Mem p ↔ s.Mem p ∨ p = child := by
  unfold Mem
  constructor
  · rintro ⟨hp, j, hj⟩
    by_cases hji : j = i
    · subst hji; exact .inr (by simpa using hj.symm)
    · exact .inl ⟨hp, j, by simpa [hji] using hj⟩
  · rintro (⟨hp, j, hj⟩ | rfl)
    · have hji : j ≠ i := by rintro rfl; exact hp (hj.symm.trans hi)
      exact ⟨hp, j, by simpa [hji] using hj⟩
    · exact ⟨hc, i, by simp⟩

section TableOk
variable {s t : Sched}

theorem processFork_tableOk {alloc : Option (ℕ × ℕ)} (lrSvc spUsr cpsr : ℕ) (h : TableOk s)
    (hf : FreshAlloc s alloc) :
    TableOk (processFork s alloc lrSvc spUsr cpsr).1 := by
  rcases alloc with _ | ⟨child, pgd⟩
  · exact h
  obtain ⟨hproc, hcur, -, hslot⟩ := processFork_some s child pgd lrSvc spUsr cpsr
  generalize (processFork s (some (child, pgd)) lrSvc spUsr cpsr).1 = t at *
  rcases hslot with ⟨i, hi, hp, -⟩ | ⟨-, hp, -⟩
  · refine ⟨?_, ?_⟩
    · intro j k hjk hj
      rw [hp] at hjk hj
      by_cases hji : j = i <;> by_cases hki : k = i
      · rw [hji, hki]
      · subst hji
        simp only [Function.update_self, Function.update_of_ne hki] at hjk
        exact absurd ⟨hf.1, k, hjk.symm⟩ hf.2
      · subst hki
        simp only [Function.update_self, Function.update_of_ne hji] at hjk
        exact absurd ⟨hf.1, j, hjk⟩ hf.2
      · simp only [Function.update_of_ne hji, Function.update_of_ne hki] at hjk hj
        exact h.distinct j k hjk hj
    · obtain ⟨h0, j, hj⟩ := h.current
      rw [hcur]
      refine ⟨h0, j, ?_⟩
      have hji : j ≠ i := by rintro rfl; exact h0 (hj.symm.trans hi)
      rw [hp, Function.update_of_ne hji, hj]
  · refine ⟨?_, ?_⟩
    · intro j k hjk hj
      rw [hp] at hjk hj
      exact h.distinct j k hjk hj
    · rw [hcur]
      obtain ⟨h0, j, hj⟩ := h.current
      exact ⟨h0, j, by rw [hp, hj]⟩

theorem processExit_tableOk {pid code : ℕ} (h : TableOk s) (ht : processExit s pid code = some t) :
    TableOk t := by
  obtain ⟨i, next, -, -, -, hm, -, rfl⟩ := processExit_some ht
  refine ⟨?_, hm⟩
  intro j k hjk hj
  simp only [contextSwitch, schedWakeJoiners_procs] at hjk hj
  have hji : j ≠ i := by rintro rfl; simp at hj
  have hki : k ≠ i := by rintro rfl; rw [hjk] at hj; simp at hj
  simp only [Function.update_of_ne hji, Function.update_of_ne hki] at hjk hj
  exact h.distinct j k hjk hj

theorem schedTick_tableOk {now : ℕ} (h : TableOk s) : TableOk (schedTick s now) := by
  have hd : Distinct (wakeSleepers s now) := by
    intro i j hij hi
    rw [wakeSleepers_procs] at hij hi
    exact h.distinct i j hij hi
  rcases schedTick_cases now h.distinct h.current with ⟨-, ht⟩ | ⟨-, p, hm, -, -, ht⟩
  · rw [ht]
    refine ⟨hd, ?_⟩
    simpa [Mem] using h.current
  · rw [ht]
    refine ⟨hd, ?_⟩
    simpa [Mem] using hm

end TableOk

theorem processExec_first {p : ℕ} (proc : ℕ → Process) (pid : ℕ) (hp : p ≠ 0) :
    let s := processExec ⟨fun _ => 0, proc, 0, pid⟩ p
    TableOk s ∧ s.currentProc = p ∧ (∀ q, s.Mem q → q = p) ∧ (s.proc p).suspended = 0 := by
  rcases schedAdd_cases ⟨fun _ => 0, proc, p, pid⟩ p with ⟨i, -, hadd⟩ | ⟨hfull, -⟩
  · have hboot : processExec ⟨fun _ => 0, proc, 0, pid⟩ p =
        { (Sched.mk (fun _ => 0) proc p pid).write p fun q => { q with suspended := 0 } with
          procs := Function.update (fun _ => 0) i p } := by
      rw [processExec, hadd]
    rw [hboot]
    have hone (l : Fin maxProcesses) (hl : Function.update (fun _ => 0) i p l ≠ 0) : l = i := by
      by_contra hne
      exact hl (by simp [hne])
    refine ⟨⟨?_, hp, i, by simp⟩, rfl, ?_, by simp⟩
    · intro j k hjk hj
      exact (hone j hj).trans (hone k fun h0 => hj (hjk.trans h0)).symm
    · rintro q ⟨hq, j, hj⟩
      have hji := hone j fun h0 => hq (hj.symm.trans h0)
      subst hji
      simpa using hj.symm
  · exact absurd rfl (hfull 0)

section Frame
variable {s t : Sched}

theorem schedTick_frame (now : ℕ) (h : TableOk s) :
    (schedTick s now).procs = s.procs ∧ ∀ p,
      ((schedTick s now).proc p).pgd = (s.proc p).pgd ∧
      ((schedTick s now).proc p).ctx = (s.proc p).ctx ∧
      ((schedTick s now).proc p).joinTarget = (s.proc p).joinTarget := by
  have hw (p : ℕ) : ((wakeSleepers s now).proc p).pgd = (s.proc p).pgd ∧
      ((wakeSleepers s now).proc p).ctx = (s.proc p).ctx ∧
      ((wakeSleepers s now).proc p).joinTarget = (s.proc p).joinTarget := by
    rw [wakeSleepers_proc]
    split <;> exact ⟨rfl, rfl, rfl⟩
  rcases schedTick_cases now h.distinct h.current with ⟨-, ht⟩ | ⟨-, n, -, -, -, ht⟩
  · rw [ht]
    exact ⟨wakeSleepers_procs s now, hw⟩
  · rw [ht]
    refine ⟨wakeSleepers_procs s now, fun p => ?_⟩
    by_cases hp : p = s.currentProc
    · subst hp
      simpa using hw s.currentProc
    · simpa [write_proc_of_ne _ _ hp] using hw p

theorem schedTick_currentProc {now : ℕ} (h : TableOk s) (hn : ¬ OtherRunnable s now) :
    (schedTick s now).currentProc = s.currentProc := by
  rcases schedTick_cases now h.distinct h.current with ⟨-, ht⟩ | ⟨hr, -⟩
  · rw [ht, wakeSleepers_currentProc]
  · exact absurd hr hn

theorem processFork_frame {alloc : Option (ℕ × ℕ)} (lrSvc spUsr cpsr : ℕ)
    (hf : FreshAlloc s alloc) :
    let r := processFork s alloc lrSvc spUsr cpsr
    r.1.currentProc = s.currentProc ∧ (∀ p, s.Mem p → r.1.proc p = s.proc p) ∧
      (∀ p, r.1.Mem p → s.Mem p ∨ p = r.2) ∧
      (r.2 ≠ 0 → ¬ s.Mem r.2 ∧
        ∃ pgd, r.1.proc r.2 = forkChild s r.2 pgd lrSvc spUsr cpsr) := by
  rcases alloc with _ | ⟨child, pgd⟩
  · exact ⟨rfl, fun _ _ => rfl, fun _ hm => .inl hm, fun h => absurd rfl h⟩
  obtain ⟨hproc, hcur, -, hslot⟩ := processFork_some s child pgd lrSvc spUsr cpsr
  generalize processFork s (some (child, pgd)) lrSvc spUsr cpsr = r at *
  have hold (p : ℕ) (hp : s.Mem p) : r.1.proc p = s.proc p := by
    have hne : p ≠ child := fun hpc => hf.2 (hpc ▸ hp)
    rw [hproc, Function.update_of_ne hne]
  rcases hslot with ⟨i, hi, hp, hr⟩ | ⟨-, hp, hr⟩
  · refine ⟨hcur, hold, fun p hm => ?_, fun _ => ⟨hr ▸ hf.2, pgd, ?_⟩⟩
    · rw [hr]
      exact (mem_update_slot hi hf.1 p).mp (by simpa [Mem, hp] using hm)
    · rw [hr, hproc, Function.update_self]
  · exact ⟨hcur, hold, fun p hm => .inl (by simpa [Mem, hp] using hm), fun h => absurd hr h⟩

theorem processExit_frame {pid code : ℕ} (h : processExit s pid code = some t) :
    (∀ p, t.Mem p → s.Mem p) ∧ t.Mem t.currentProc ∧ ∀ p, (t.proc p).pgd = (s.proc p).pgd ∧
      ((t.proc p) = s.proc p ∨
        s.Mem p ∧ (s.proc p).joinTarget = pid ∧ t.proc p = wakeJoiner code (s.proc p)) := by
  obtain ⟨i, next, -, -, -, hm, -, rfl⟩ := processExit_some h
  have hsub (p : ℕ) (hp : p ≠ 0 ∧ ∃ j, Function.update s.procs i 0 j = p) : s.Mem p := by
    obtain ⟨h0, j, hj⟩ := hp
    have hji : j ≠ i := by rintro rfl; simp at hj; exact h0 hj.symm
    exact ⟨h0, j, by rwa [Function.update_of_ne hji] at hj⟩
  refine ⟨fun p hp => hsub p (by simpa [Mem, contextSwitch] using hp), hm, fun p => ?_⟩
  simp only [contextSwitch]
  rw [schedWakeJoiners_proc]
  split
  next hj => exact ⟨rfl, .inr ⟨hsub p hj.1, hj.2, rfl⟩⟩
  next => exact ⟨rfl, .inl rfl⟩

end Frame

end Leg
