import Leg.Process.LostWakeup
import Leg.Process.Ownership
import Leg.Process.SpaceLeaks

/-! The process table over the memory its pointers lead to: in every run that gives out fewer than
2 ^ 32 - 1 pids, slots and `current_proc` point to structs in use, and pids name one process each.
A `process_replace` may fail and leave pages behind; they belong to no process. -/
namespace Leg
open Runs Slots Sched

section Leaks
variable {kpb : ℕ} {boot base b : Vm} {s : System} {B : List Client} {L : List ℕ}

/-- The processes own what they list, beyond an earlier state in which the pages allocated in `boot`
were still allocated. -/
def Owned (kpb : ℕ) (boot : Vm) (s : System) : Prop :=
  ∃ base, PagesKept boot base ∧ OwnedOk kpb base s

theorem OwnedOk.leak (hkept : PagesKept boot base) (h : OwnedOk kpb base s)
    (hb : Holds s.vm b B L) {t : Sched} {run : Bool}
    (hproc : ∀ p ∈ s.procs, (t.proc p).pgd = (s.sched.proc p).pgd)
    (hlisted : ∀ i, t.procs i ≠ 0 → t.procs i ∈ s.procs) (hd : t.Distinct) :
    Owned kpb boot ⟨b, t, s.procs, run⟩ := by
  obtain ⟨hblocks, hpages⟩ := h.carried hb hproc
  have hall := (h.holds.trans hb).perm List.perm_append_comm List.perm_append_comm
  obtain ⟨base', -, hkept', hholds, -⟩ := hall.absorb
  rw [← hblocks, ← hpages] at hholds
  exact ⟨base', hkept.trans hkept', hholds, hlisted, hd⟩

/-- A new process with a space of its own, and perhaps pages that its stack pushed out. -/
theorem OwnedOk.gainLeaky (hkept : PagesKept boot base) (h : OwnedOk kpb base s) {p : ℕ} {t : Sched}
    {run : Bool}
    (hb : Leaky kpb s.vm b [⟨p, processSize⟩] (t.proc p).pgd)
    (hproc : ∀ q ∈ s.procs, (t.proc q).pgd = (s.sched.proc q).pgd)
    (hlisted : ∀ i, t.procs i ≠ 0 → t.procs i ∈ p :: s.procs) (hd : t.Distinct) :
    Owned kpb boot ⟨b, t, p :: s.procs, run⟩ := by
  obtain ⟨L, hb⟩ := hb
  obtain ⟨hblocks, hpages⟩ := h.carried hb hproc
  have hall := h.holds.trans hb
  rw [← hblocks, ← hpages] at hall
  have hb' : (spaceBlocks kpb b (t.proc p).pgd ++ [(⟨p, processSize⟩ : Client)] ++
      s.procs.flatMap (procBlocks kpb b t.proc)).Perm
      ((p :: s.procs).flatMap (procBlocks kpb b t.proc) ++ []) := by
    rw [List.append_nil, List.flatMap_cons]
    exact List.Perm.append_right _ (List.perm_append_singleton _ _)
  have hp' : (spacePages kpb b (t.proc p).pgd ++ L ++ s.procs.flatMap (procPages kpb b t.proc)).Perm
      ((p :: s.procs).flatMap (procPages kpb b t.proc) ++ L) := by
    rw [List.flatMap_cons, List.append_assoc, List.append_assoc]
    exact List.Perm.append_left _ List.perm_append_comm
  obtain ⟨base', -, hkept', hholds, -⟩ := (hall.perm hb' hp').absorb
  exact ⟨base', hkept.trans hkept', hholds, hlisted, hd⟩

theorem OwnedOk.swapLeaky (hkept : PagesKept boot base) (h : OwnedOk kpb base s) {new p : ℕ}
    (hmem : p ∈ s.procs)
    (hb : Leaky kpb s.vm b [] new) :
    ∃ c d, freeTables kpb (s.sched.proc p).pgd b = some c ∧
      c.kfree (s.sched.proc p).pgd = some d ∧ ∀ (u : Sched) (run : Bool),
        u.procs = s.sched.procs → (u.proc p).pgd = new →
        (∀ q, q ≠ p → u.proc q = s.sched.proc q) → Owned kpb boot ⟨d, u, s.procs, run⟩ := by
  obtain ⟨L, hb⟩ := hb
  obtain ⟨hblocks, hpages⟩ := h.carried hb fun p _ => Eq.refl (s.sched.proc p).pgd
  have hall := h.holds.trans hb
  rw [← hblocks, ← hpages, List.append_nil] at hall
  have hp' : (spacePages kpb b new ++ L ++ s.procs.flatMap (procPages kpb b s.sched.proc)).Perm
      (spacePages kpb b new ++ s.procs.flatMap (procPages kpb b s.sched.proc) ++ L) := by
    rw [List.append_assoc, List.append_assoc]
    exact List.Perm.append_left _ List.perm_append_comm
  have hnil := (hall.perm (.of_eq (List.append_nil _).symm) hp').absorb
  obtain ⟨base', -, hkept', hholds, -⟩ := hnil
  obtain ⟨c, d, hc, hd, hswap⟩ := swap_owned h.procs_nodup h.listed h.distinct hmem hholds
  exact ⟨c, d, hc, hd, fun u run h1 h2 h3 =>
    ⟨base', hkept.trans hkept', hswap u run h1 h2 h3⟩⟩

end Leaks

/-- A call, or the yield to the next process of a call that blocked. -/
inductive TableOp where
  | call (op : LifeOp)
  | switch

def System.tableNext (kpb : ℕ) (s : System) : TableOp → Option System
  | .call op => s.next kpb op
  | .switch => some { s with sched := switchNext s.sched }

/-- Images lie in the user's range, and `process_exec` starts a created process that is not listed
yet. -/
def System.Takes (s : System) : TableOp → Prop
  | .call (.create file) => InUserRange file
  | .call (.replace _ file) => InUserRange file
  | .call (.exec p) => p ∈ s.procs ∧ ¬ s.sched.Mem p
  | _ => True

/-- A system and the number of pids it has given out. -/
structure Counted where
  sys : System
  created : ℕ

def CountedStep (kpb : ℕ) (m : Counted) (op : TableOp) (n : Counted) : Prop :=
  m.sys.running = true ∧ m.sys.Takes op ∧ m.sys.tableNext kpb op = some n.sys ∧
    n.created = m.created + if n.sys.sched.nextPid = m.sys.sched.nextPid then 0 else 1

/-- `current_proc`, if user code runs, points to a live struct. -/
def CurrentOk (s : System) : Prop :=
  s.running = true → s.sched.currentProc ≠ 0 → s.sched.currentProc ∈ s.procs

/-- How one step numbers the live processes. -/
inductive Numbered (s t : System) : Prop
  | kept (hsub : ∀ p ∈ t.procs, p ∈ s.procs)
      (hpid : ∀ p ∈ t.procs, (t.sched.proc p).pid = (s.sched.proc p).pid)
      (hnext : t.sched.nextPid = s.sched.nextPid ∨ t.sched.nextPid = u32 (s.sched.nextPid + 1))
  | new (p : ℕ) (hprocs : t.procs = p :: s.procs)
      (hpid : ∀ q ∈ s.procs, (t.sched.proc q).pid = (s.sched.proc q).pid)
      (hnew : (t.sched.proc p).pid = s.sched.nextPid)
      (hnext : t.sched.nextPid = u32 (s.sched.nextPid + 1))

/-- What every step keeps, and how it numbers. -/
structure Stepped (kpb : ℕ) (boot : Vm) (s t : System) : Prop where
  owned : Owned kpb boot t
  current : CurrentOk t
  numbered : Numbered s t

section Table
variable {s t : Sched}

theorem write_pid {p : ℕ} {f : Process → Process} (hf : ∀ q, (f q).pid = q.pid) (q : ℕ) :
    ((s.write p f).proc q).pid = (s.proc q).pid := by
  by_cases hq : q = p
  · rw [hq, write_proc_self, hf]
  · rw [write_proc_of_ne _ _ hq]

/-- A tick numbers nobody anew, and chooses a listed process if it chooses one. -/
theorem schedTick_numbers (s : Sched) (now : ℕ) : (schedTick s now).nextPid = s.nextPid ∧
    (∀ p, ((schedTick s now).proc p).pid = (s.proc p).pid) ∧
    ((schedTick s now).currentProc = s.currentProc ∨ s.Mem (schedTick s now).currentProc) := by
  have hw (p : ℕ) : ((wakeSleepers s now).proc p).pid = (s.proc p).pid := by
    rw [wakeSleepers_proc]
    split <;> rfl
  have hnext := wakeSleepers_nextPid s now
  have hcur := wakeSleepers_currentProc s now
  unfold schedTick
  split
  next => exact ⟨rfl, fun _ => rfl, .inl rfl⟩
  next =>
    dsimp only
    split
    next => exact ⟨hnext, hw, .inl hcur⟩
    next =>
      split
      next => exact ⟨hnext, hw, .inl hcur⟩
      next hp =>
        refine ⟨hnext, fun q => ?_, .inr ?_⟩
        · dsimp only
          rw [write_pid, hw]
          exact fun _ => rfl
        · have hm := nextRunnable_mem hp
          rwa [Mem, wakeSleepers_procs] at hm

theorem exitTable_numbers {pid : ℕ} (code : ℕ) (hp : schedGet s pid ≠ 0) :
    (exitTable s pid code).nextPid = s.nextPid ∧
      ∀ q, ((exitTable s pid code).proc q).pid = (s.proc q).pid := by
  obtain ⟨i, hi, -, hrem⟩ := schedRemove_schedGet hp
  refine ⟨by rw [exitTable, schedWakeJoiners_nextPid, hrem], fun q => ?_⟩
  rw [exitTable, schedWakeJoiners_proc, hrem]
  split <;> rfl

end Table

section Steps
variable {kpb : ℕ} {boot : Vm} {s t : System}

theorem Stepped.same (h : Owned kpb boot s) {u : Sched} {run : Bool}
    (hprocs : u.procs = s.sched.procs) (hpgd : ∀ p, (u.proc p).pgd = (s.sched.proc p).pgd)
    (hpid : ∀ p, (u.proc p).pid = (s.sched.proc p).pid) (hnext : u.nextPid = s.sched.nextPid)
    (hcur : run = true → u.currentProc ≠ 0 → u.currentProc ∈ s.procs) :
    Stepped kpb boot s ⟨s.vm, u, s.procs, run⟩ := by
  obtain ⟨base, hkept, h⟩ := h
  refine ⟨⟨base, hkept, h.frame (.refl h.holds.ok) (fun p _ => hpgd p) ?_ ?_⟩, hcur,
    .kept (fun _ hp => hp) (fun p _ => hpid p) (.inl hnext)⟩
  · rw [hprocs]
    exact h.listed
  · intro i j hij hi
    rw [hprocs] at hij hi
    exact h.distinct i j hij hi

theorem create_stepped (hk : kpb < 4294967296) (hal : kpb % 1024 = 0) (h : Owned kpb boot s)
    (hcur : CurrentOk s) {file : Option FsFile} (hfile : InUserRange file)
    (ht : (s.processCreate kpb file).map Prod.fst = some t) : Stepped kpb boot s t := by
  obtain ⟨base, hkept, h⟩ := h
  unfold System.processCreate at ht
  rcases createSpace_leaky hk hal h.holds.ok hfile s.sched.proc with
    ⟨b, L, hb, hholds⟩ | ⟨b, p, q, hb, hp, hne, hspace⟩
  · rw [hb] at ht
    rw [← Option.some.inj ht]
    exact ⟨h.leak hkept hholds (fun _ _ => rfl) h.listed h.distinct, hcur,
      .kept (fun _ hp => hp) (fun _ _ => rfl) (.inl rfl)⟩
  · rw [hb] at ht
    rw [← Option.some.inj ht]
    have hother (r : ℕ) (hr : r ∈ s.procs) : r ≠ p := hne _ (h.struct_live hr)
    refine ⟨h.gainLeaky hkept ?_ (fun r hr => ?_) (fun i hi => ?_) h.distinct,
      fun hrun h0 => List.mem_cons_of_mem _ (hcur hrun h0), .new p rfl (fun r hr => ?_) ?_ rfl⟩
    · simpa using hspace
    · simp [write_proc_of_ne _ _ (hother r hr)]
    · exact List.mem_cons_of_mem _ (h.listed i hi)
    · simp [write_proc_of_ne _ _ (hother r hr)]
    · simp

theorem fork_stepped (hk : kpb < 4294967296) (hal : kpb % 1024 = 0) (h : Owned kpb boot s)
    (hcur : CurrentOk s) {lrSvc spUsr cpsr : ℕ}
    (ht : (s.processFork kpb lrSvc spUsr cpsr).map Prod.fst = some t) : Stepped kpb boot s t := by
  obtain ⟨base, hkept, h⟩ := h
  unfold System.processFork at ht
  split at ht
  next => exact absurd ht (by simp)
  rcases forkSpace_holds hk hal h.holds.ok (s.sched.proc s.sched.currentProc).pgd with
    ⟨b, hb, hholds⟩ | ⟨b, p, pgd, hb, hp, hne, hspace⟩
  · rw [hb] at ht
    rw [← Option.some.inj ht]
    exact ⟨h.leak hkept hholds (fun _ _ => rfl) h.listed h.distinct, hcur,
      .kept (fun _ hp => hp) (fun _ _ => rfl) (.inl rfl)⟩
  rw [hb] at ht
  obtain ⟨hproc, hcurrent, hnext, hslot⟩ := processFork_some s.sched p pgd lrSvc spUsr cpsr
  simp only [Option.bind_eq_bind, Option.bind_some] at ht
  generalize Leg.processFork s.sched (some (p, pgd)) lrSvc spUsr cpsr = r at *
  obtain ⟨sched, child⟩ := r
  dsimp only at hproc hcurrent hnext hslot ht
  have hold (q : ℕ) (hq : q ∈ s.procs) : sched.proc q = s.sched.proc q := by
    rw [hproc, Function.update_of_ne (hne _ (h.struct_live hq))]
  rcases hslot with ⟨i, -, hprocs, rfl⟩ | ⟨-, hprocs, rfl⟩
  · rw [if_neg hp] at ht
    rw [← Option.some.inj ht]
    have hnew : ¬ s.sched.Mem child := by
      rintro ⟨h0, j, hj⟩
      exact hne _ (h.struct_live (h.listed j (hj ▸ h0))) hj
    refine ⟨⟨base, hkept, h.gain ?_ (fun q hq => by rw [hold q hq]) (mem_fill h.listed hprocs)
      (distinct_fill h.distinct hnew hprocs)⟩, fun hrun h0 => ?_,
      .new child rfl (fun q hq => by rw [hold q hq]) ?_ hnext⟩
    · rw [hproc, Function.update_self]
      exact hspace
    · dsimp only at h0 ⊢
      rw [hcurrent] at h0 ⊢
      exact List.mem_cons_of_mem _ (hcur hrun h0)
    · dsimp only
      rw [hproc, Function.update_self]
      rfl
  · -- the table is full: the child goes back, but its pid is taken
    obtain ⟨c, hc, hholds⟩ := hspace.processFree
    rw [if_pos rfl, hc] at ht
    rw [← Option.some.inj ht]
    refine ⟨⟨base, hkept,
      h.frame hholds (fun q hq => by rw [hold q hq]) (fun i => ?_) fun i j => ?_⟩,
      fun hrun h0 => ?_, .kept (fun _ hq => hq) (fun q hq => by rw [hold q hq]) (.inr hnext)⟩
    · rw [hprocs]
      exact h.listed i
    · rw [hprocs]
      exact h.distinct i j
    · dsimp only at h0 ⊢
      rw [hcurrent] at h0 ⊢
      exact hcur hrun h0

theorem exit_stepped (h : Owned kpb boot s) {pid code : ℕ}
    (ht : s.processExit kpb pid code = some t) :
    Stepped kpb boot s t := by
  obtain ⟨base, hkept, h⟩ := h
  have hpid : schedGet s.sched pid ≠ 0 := by
    intro h0
    rw [System.processExit] at ht
    simp [h0] at ht
  obtain ⟨u, hu, hok⟩ := exit_owned h hpid code
  obtain rfl : t = u := Option.some.inj (ht.symm.trans hu)
  obtain ⟨hnext, hnum⟩ := exitTable_numbers code hpid
  unfold System.processExit at ht
  simp only [hpid, if_false, Option.bind_eq_bind] at ht
  obtain ⟨vm, -, ht⟩ := Option.bind_eq_some_iff.mp ht
  cases he : Leg.processExit s.sched pid code with
  | none =>
    rw [he] at ht
    rw [← Option.some.inj ht] at hok ⊢
    exact ⟨⟨base, hkept, hok⟩, fun hrun => Bool.noConfusion hrun, .kept
      (fun p hp => List.mem_of_mem_erase hp) (fun p _ => hnum p) (.inl hnext)⟩
  | some sched =>
    rw [he] at ht
    obtain ⟨-, -, h0, rfl⟩ := processExit_eq he
    rw [← Option.some.inj ht] at hok ⊢
    refine ⟨⟨base, hkept, hok⟩, fun _ hne => ?_, .kept
      (fun p hp => List.mem_of_mem_erase hp) (fun p _ => hnum p) (.inl hnext)⟩
    obtain ⟨⟨-, i, hi⟩, -⟩ := schedPickNext_some h0
    have hin := hok.listed i
    dsimp only [contextSwitch] at hin
    rw [hi] at hin
    exact hin h0

theorem replace_stepped (hk : kpb < 4294967296) (hal : kpb % 1024 = 0) (h : Owned kpb boot s)
    (hcur : CurrentOk s) {pid : ℕ} {file : Option FsFile} (hfile : InUserRange file)
    (ht : (s.processReplace kpb pid file).map Prod.fst = some t) : Stepped kpb boot s t := by
  obtain ⟨base, hkept, h⟩ := h
  unfold System.processReplace at ht
  dsimp only at ht
  split at ht
  next =>
    rw [← Option.some.inj ht]
    exact ⟨⟨base, hkept, h⟩, hcur, .kept (fun _ hp => hp) (fun _ _ => rfl) (.inl rfl)⟩
  next hpid =>
  obtain ⟨i, hi, -, -⟩ := schedRemove_schedGet hpid
  generalize schedGet s.sched pid = p at *
  have hmem : p ∈ s.procs := hi ▸ h.listed i (hi ▸ hpid)
  rcases replaceSpace_leaky hk hal h.holds.ok hfile with
    ⟨b, B, L, hb, hholds⟩ | ⟨b, new, entry, tmp, hb, hs⟩
  · rw [hb] at ht
    rw [← Option.some.inj ht]
    exact ⟨h.leak hkept hholds (fun _ _ => rfl) h.listed h.distinct, hcur,
      .kept (fun _ hp => hp) (fun _ _ => rfl) (.inl rfl)⟩
  obtain ⟨c, d, hc, hd, hswap⟩ := h.swapLeaky hkept hmem hs
  rw [hb] at ht
  simp only [Option.bind_eq_bind, Option.bind_some, hc, hd] at ht
  obtain ⟨hprocs, hself, hother, hcurrent, hnext⟩ := replaced_sched s.sched p new entry
    tmp.stackPt tmp.stackPages
  rw [← Option.some.inj ht]
  refine ⟨hswap _ _ hprocs (by rw [hself]; rfl) hother, fun hrun h0 => ?_,
    .kept (fun _ hq => hq) (fun q _ => ?_) (.inl hnext)⟩
  · dsimp only at h0 ⊢
    rw [hcurrent] at h0 ⊢
    exact hcur hrun h0
  · dsimp only
    by_cases hq : q = p
    · rw [hq, hself]
      rfl
    · rw [hother q hq]

theorem exec_stepped (h : Owned kpb boot s) {p : ℕ} (hp : p ∈ s.procs) (hm : ¬ s.sched.Mem p) :
    Stepped kpb boot s { s with sched := processExec s.sched p } := by
  obtain ⟨base, hkept, h⟩ := h
  have hnum : (processExec s.sched p).currentProc = p ∧
      (processExec s.sched p).nextPid = s.sched.nextPid ∧
      ∀ q, ((processExec s.sched p).proc q).pid = (s.sched.proc q).pid := by
    unfold processExec
    rcases schedAdd_cases { s.sched with currentProc := p } p with ⟨i, -, hadd⟩ | ⟨-, hadd⟩
    · rw [hadd]
      refine ⟨rfl, rfl, fun q => ?_⟩
      dsimp only
      rw [write_pid]
      exact fun _ => rfl
    · rw [hadd]
      exact ⟨rfl, rfl, fun _ => rfl⟩
  refine ⟨⟨base, hkept, exec_owned h hp hm⟩, fun _ _ => ?_,
    .kept (fun _ hq => hq) (fun q _ => hnum.2.2 q) (.inl hnum.2.1)⟩
  dsimp only
  rw [hnum.1]
  exact hp

theorem tableNext_stepped (hk : kpb < 4294967296) (hal : kpb % 1024 = 0) (h : Owned kpb boot s)
    (hcur : CurrentOk s) {op : TableOp} (htakes : s.Takes op)
    (ht : s.tableNext kpb op = some t) : Stepped kpb boot s t := by
  have hlisted (p : ℕ) (hp : s.sched.Mem p) : p ∈ s.procs := by
    obtain ⟨base, hkept, h⟩ := h
    obtain ⟨h0, i, rfl⟩ := hp
    exact h.listed i h0
  cases op with
  | switch =>
    rw [← Option.some.inj ht]
    unfold switchNext
    dsimp only
    split
    next => exact .same h rfl (fun _ => rfl) (fun _ => rfl) rfl hcur
    next hn =>
      exact .same h rfl (fun _ => rfl) (fun _ => rfl) rfl fun _ _ =>
        hlisted _ (schedPickNext_some hn).1
  | call op =>
    cases op with
    | create file => exact create_stepped hk hal h hcur htakes ht
    | exec p =>
      rw [← Option.some.inj ht]
      exact exec_stepped h htakes.1 htakes.2
    | fork lrSvc spUsr cpsr => exact fork_stepped hk hal h hcur ht
    | exit pid code => exact exit_stepped h ht
    | replace pid file => exact replace_stepped hk hal h hcur htakes ht
    | join target =>
      rw [← Option.some.inj ht]
      unfold svcJoin
      split
      next => exact .same h rfl (fun _ => rfl) (fun _ => rfl) rfl hcur
      next =>
        refine .same h rfl (fun q => ?_) (fun q => ?_) rfl hcur
        · rw [write_pgd]
          exact fun _ => rfl
        · rw [write_pid]
          exact fun _ => rfl
    | sleep us now freq =>
      rw [← Option.some.inj ht]
      unfold svcSleep
      refine .same h rfl (fun q => ?_) (fun q => ?_) rfl hcur
      · rw [write_pgd]
        exact fun _ => rfl
      · rw [write_pid]
        exact fun _ => rfl
    | tick now =>
      rw [← Option.some.inj ht]
      obtain ⟨hprocs, hpgd⟩ := schedTick_keeps s.sched now
      obtain ⟨hnext, hpid, hchosen⟩ := schedTick_numbers s.sched now
      refine .same h hprocs hpgd hpid hnext fun hrun h0 => ?_
      rcases hchosen with hsame | hmem
      · rw [hsame] at h0 ⊢
        exact hcur hrun h0
      · exact hlisted _ hmem

end Steps

section Pids
variable {s t : System}

/-- The live processes have pids below `next_pid`, different ones, and none has pid 0. -/
structure PidsOk (s : System) : Prop where
  bounds : ∀ p ∈ s.procs, 0 < (s.sched.proc p).pid ∧ (s.sched.proc p).pid < s.sched.nextPid
  inj : ∀ p ∈ s.procs, ∀ q ∈ s.procs, (s.sched.proc p).pid = (s.sched.proc q).pid → p = q

/-- Until `next_pid` wraps around, each new process gets a pid nobody has. -/
theorem Numbered.pidsOk (h : Numbered s t) (hs : PidsOk s) (h0 : 0 < s.sched.nextPid)
    (hmax : t.sched.nextPid ≠ s.sched.nextPid → s.sched.nextPid + 1 < 4294967296) :
    PidsOk t ∧ (t.sched.nextPid = s.sched.nextPid ∨ t.sched.nextPid = s.sched.nextPid + 1) := by
  have hsucc (hnext : t.sched.nextPid = u32 (s.sched.nextPid + 1)) :
      t.sched.nextPid = s.sched.nextPid + 1 := by
    have hne : t.sched.nextPid ≠ s.sched.nextPid := by
      rw [hnext]
      unfold u32
      omega
    rw [hnext, u32_of_lt (hmax hne)]
  cases h with
  | kept hsub hpid hnext =>
    replace hnext := hnext.imp id hsucc
    refine ⟨⟨fun p hp => ?_, fun p hp q hq heq => ?_⟩, hnext⟩
    · have hb := hs.bounds p (hsub p hp)
      rw [hpid p hp]
      exact ⟨hb.1, by omega⟩
    · rw [hpid p hp, hpid q hq] at heq
      exact hs.inj p (hsub p hp) q (hsub q hq) heq
  | new n hprocs hpid hnew hnext =>
    replace hnext := hsucc hnext
    have hold (q : ℕ) (hq : q ∈ s.procs) : (t.sched.proc q).pid ≠ (t.sched.proc n).pid := by
      have hb := hs.bounds q hq
      rw [hpid q hq, hnew]
      omega
    refine ⟨⟨fun p hp => ?_, fun p hp q hq heq => ?_⟩, .inr hnext⟩
    · rcases List.mem_cons.mp (hprocs ▸ hp) with rfl | hp
      · rw [hnew]
        exact ⟨h0, by omega⟩
      · have hb := hs.bounds p hp
        rw [hpid p hp]
        exact ⟨hb.1, by omega⟩
    · rcases List.mem_cons.mp (hprocs ▸ hp) with rfl | hp
      · rcases List.mem_cons.mp (hprocs ▸ hq) with rfl | hq
        · rfl
        · exact absurd heq.symm (hold q hq)
      · rcases List.mem_cons.mp (hprocs ▸ hq) with rfl | hq
        · exact absurd heq (hold p hp)
        · rw [hpid p hp, hpid q hq] at heq
          exact hs.inj p hp q hq heq

end Pids

/-- The invariant of a run, as long as it has given out fewer than `2 ^ 32 - 1` pids. -/
structure CountedOk (kpb : ℕ) (boot : Vm) (m : Counted) : Prop where
  owned : Owned kpb boot m.sys
  current : CurrentOk m.sys
  pids : PidsOk m.sys
  next : m.sys.sched.nextPid = m.created + 1

theorem countedStep_ok {kpb : ℕ} {boot : Vm} (hk : kpb < 4294967296)
    (hal : kpb % 1024 = 0) {m n : Counted}
    {op : TableOp} (h : CountedOk kpb boot m) (hs : CountedStep kpb m op n)
    (hn : n.created < 4294967295) : CountedOk kpb boot n := by
  obtain ⟨-, htakes, ht, hcount⟩ := hs
  have hstep := tableNext_stepped hk hal h.owned h.current htakes ht
  have hle : m.created ≤ n.created := by
    rw [hcount]
    exact Nat.le_add_right ..
  have hnext := h.next
  obtain ⟨hpids, hnum⟩ := hstep.numbered.pidsOk h.pids (by omega) fun hne => by
    rw [if_neg hne] at hcount
    omega
  refine ⟨hstep.owned, hstep.current, hpids, ?_⟩
  rcases hnum with heq | heq
  · rw [hcount, if_pos heq]
    omega
  · rw [hcount, if_neg (by omega)]
    omega

/-- The struct at `p` is a heap block in use: one of the blocks that were handed out and not
freed, behind a header that says so. -/
def StructInUse (s : System) (p : ℕ) : Prop :=
  ⟨p, processSize⟩ ∈ s.vm.live ∧ ∃ hdr, Owns s.vm.heap hdr ⟨p, processSize⟩

/-- What the table promises to whoever follows its pointers. -/
structure TableIntegrity (s : System) : Prop where
  slots : ∀ i, s.sched.procs i ≠ 0 → s.sched.procs i ∈ s.procs
  current : s.sched.currentProc ≠ 0 → s.sched.currentProc ∈ s.procs
  inUse : ∀ p ∈ s.procs, StructInUse s p
  distinct : s.sched.Distinct
  pids : PidsOk s
  get : ∀ pid p, p ≠ 0 → (schedGet s.sched pid = p ↔ s.sched.Mem p ∧ (s.sched.proc p).pid = pid)

theorem CountedOk.integrity {kpb : ℕ} {boot : Vm} {m : Counted} (h : CountedOk kpb boot m)
    (hrun : m.sys.running = true) : TableIntegrity m.sys := by
  obtain ⟨base, -, howned⟩ := h.owned
  refine ⟨howned.listed, h.current hrun, fun p hp => ?_, howned.distinct, h.pids,
    fun pid p hp => ?_⟩
  · have hlive := howned.struct_live hp
    obtain ⟨hdrs, hwf, -⟩ := howned.holds.ok.heap.headers
    obtain ⟨x, -, hx⟩ := hwf.owned _ hlive
    exact ⟨hlive, x, hx⟩
  · constructor
    · rintro rfl
      exact schedGet_mem hp
    · rintro ⟨hm, hpid⟩
      have hlive : schedGet m.sys.sched pid ≠ 0 := fun h0 =>
        schedGet_eq_zero.mp h0 ((live_iff_mem _ _).mpr ⟨p, hm, hpid⟩)
      have hin (q : ℕ) (hq : m.sys.sched.Mem q) : q ∈ m.sys.procs := by
        obtain ⟨h0, i, rfl⟩ := hq
        exact howned.listed i h0
      obtain ⟨hm', hpid'⟩ := schedGet_mem hlive
      exact h.pids.inj _ (hin _ hm') _ (hin p hm) (hpid'.trans hpid.symm)

/-- In every run from boot that has given out fewer than `2 ^ 32 - 1` pids, the table's pointers
lead to structs in use, and a pid names one process. -/
theorem countedRun_integrity {c : BootConfig} {boot : System} {n : Counted} {ops : List TableOp}
    (hb : boot.Boot c) (hpid : boot.sched.nextPid = 1) (hcur : boot.sched.currentProc = 0)
    (hr : Run (CountedStep c.kernelPhysBase) ⟨boot, 0⟩ ops n) (hn : n.created < 4294967295)
    (hrun : n.sys.running = true) : TableIntegrity n.sys := by
  obtain ⟨hk, hal⟩ := c.kernelPhysBase_bounds
  have hstart : CountedOk c.kernelPhysBase boot.vm ⟨boot, 0⟩ := by
    refine ⟨⟨_, .refl _, boot_owned hb⟩, fun _ h0 => absurd hcur h0, ⟨?_, ?_⟩, hpid⟩
    · intro p hp
      exact absurd hp (by rw [hb.noneLive]; simp)
    · intro p hp
      exact absurd hp (by rw [hb.noneLive]; simp)
  -- the count never falls, so that every state on the way is below the bound, too
  have hall : n.created < 4294967295 → CountedOk c.kernelPhysBase boot.vm n := by
    refine hr.preserves
      (I := fun m => m.created < 4294967295 → CountedOk c.kernelPhysBase boot.vm m)
      (fun m op k hm hs hk' => ?_) fun _ => hstart
    have hle : m.created ≤ k.created := by
      rw [hs.2.2.2]
      exact Nat.le_add_right ..
    exact countedStep_ok hk hal (hm (by omega)) hs hk'
  exact (hall hn).integrity hrun

/-- The counted state after a call that a test lets pass. -/
def Counted.next (kpb : ℕ) (m : Counted) (op : TableOp) : Option Counted :=
  (m.sys.tableNext kpb op).map fun t =>
    ⟨t, m.created + if t.sched.nextPid = m.sys.sched.nextPid then 0 else 1⟩

/-- A test for the steps of a run; the images it takes lie below the stack. -/
def System.admitsStep (s : System) : TableOp → Bool
  | .call op => s.running && s.accepts op
  | .switch => s.running

theorem countedStep_of_next {kpb : ℕ} {m n : Counted} {op : TableOp}
    (hok : m.sys.admitsStep op = true) (hn : m.next kpb op = some n) : CountedStep kpb m op n := by
  obtain ⟨t, ht, rfl⟩ := Option.map_eq_some_iff.mp hn
  cases op with
  | switch => exact ⟨hok, trivial, ht, rfl⟩
  | call op =>
    obtain ⟨hrun, hacc⟩ := Bool.and_eq_true_iff.mp hok
    refine ⟨hrun, ?_, ht, rfl⟩
    have hadm : m.sys.Admits kpb op := admits_of_accepts hacc
    cases op with
    | create file =>
      exact fun f hf ph hph hnull => (hadm f hf ph hph hnull).trans floor_le
    | exec p => exact hadm
    | replace pid file => exact absurd hacc (by simp [System.accepts])
    | _ => trivial

/-- The first process is created, started, forks, joins its child, which sleeps and exits. -/
def joinedOps : List TableOp :=
  [.call (.create (some initFile)), .call (.exec 0xC0104000), .call (.fork 0 0 0),
    .call (.join 2), .switch, .call (.sleep 5 100 1000000), .call (.exit 2 0)]

theorem countedRun_integrity_exited : ∃ boot n, System.Boot highRamConfig boot ∧
    Run (CountedStep highRamConfig.kernelPhysBase) ⟨boot, 0⟩ joinedOps n ∧
      n.created = 2 ∧ TableIntegrity n.sys := by
  have hany : ((highRamConfig.init fun _ => 0).bind fun g =>
      execute (fun m op => m.sys.admitsStep op) (Counted.next highRamConfig.kernelPhysBase)
        ⟨systemOf highRamConfig g, 0⟩ joinedOps).any
      (fun n => n.sys.running && decide (n.created = 2)) = true := by
    decide +kernel
  obtain ⟨n, hn, htest⟩ := (Option.any_eq_true _ _).mp hany
  obtain ⟨hrunning, hcreated⟩ := Bool.and_eq_true_iff.mp htest
  obtain ⟨g, hg, hexec⟩ := Option.bind_eq_some_iff.mp hn
  have hboot : (systemOf highRamConfig g).Boot highRamConfig :=
    ⟨by decide +kernel, ⟨_, g, [], ⟨g, []⟩, hg, .nil _, rfl⟩,
      ⟨_, [], _, .nil _, rfl, rfl⟩, fun _ => rfl, rfl⟩
  have hrun : Run (CountedStep highRamConfig.kernelPhysBase) ⟨systemOf highRamConfig g, 0⟩
      joinedOps n := by
    have hstep : ∀ (m : Counted) (op : TableOp) (k : Counted), m.sys.admitsStep op = true →
        m.next highRamConfig.kernelPhysBase op = some k →
        CountedStep highRamConfig.kernelPhysBase m op k := fun _ _ _ => countedStep_of_next
    exact Run.of_execute hstep hexec
  have hcount := of_decide_eq_true hcreated
  exact ⟨_, n, hboot, hrun, hcount,
    countedRun_integrity hboot rfl rfl hrun (by omega) hrunning⟩

end Leg
