import Leg.Process.ExitTable
import Leg.Process.LifecycleMemory

/-! Who owns what: every page and every heap block that a run of the life-cycle calls holds
beyond the state after boot is listed once, under one live process. -/
namespace Leg
open Runs Slots

/-- The heap blocks of a live process: its struct, its L1 table and its L2 tables. -/
def procBlocks (kpb : ℕ) (vm : Vm) (proc : ℕ → Process) (p : ℕ) : List Client :=
  ⟨p, processSize⟩ :: spaceBlocks kpb vm (proc p).pgd

/-- The pages a live process maps. -/
def procPages (kpb : ℕ) (vm : Vm) (proc : ℕ → Process) (p : ℕ) : List ℕ :=
  spacePages kpb vm (proc p).pgd

/-- The memory held since boot is what the live processes own, and the table lists live
processes only. -/
structure OwnedOk (kpb : ℕ) (boot : Vm) (s : System) : Prop where
  holds : Holds boot s.vm (s.procs.flatMap (procBlocks kpb s.vm s.sched.proc))
    (s.procs.flatMap (procPages kpb s.vm s.sched.proc))
  listed : ∀ i, s.sched.procs i ≠ 0 → s.sched.procs i ∈ s.procs
  distinct : s.sched.Distinct

section Frame
variable {kpb : ℕ} {boot b : Vm} {s : System} {B : List Client} {P : List ℕ}

theorem OwnedOk.block_live (h : OwnedOk kpb boot s) {p : ℕ} (hp : p ∈ s.procs) {c : Client}
    (hc : c ∈ procBlocks kpb s.vm s.sched.proc p) : c ∈ s.vm.live :=
  h.holds.live.mem_iff.mpr (List.mem_append_left _ (List.mem_flatMap.mpr ⟨p, hp, hc⟩))

theorem OwnedOk.struct_live (h : OwnedOk kpb boot s) {p : ℕ} (hp : p ∈ s.procs) :
    (⟨p, processSize⟩ : Client) ∈ s.vm.live := h.block_live hp (List.mem_cons_self ..)

theorem OwnedOk.procs_nodup (h : OwnedOk kpb boot s) : s.procs.Nodup := by
  have hnodup := h.holds.ptrs_nodup
  rw [List.map_append, List.map_flatMap] at hnodup
  have hlists := (List.nodup_flatMap.mp (List.nodup_append.mp hnodup).1).2
  refine hlists.imp fun {p q} hdisj heq => ?_
  subst heq
  exact hdisj (List.mem_cons_self ..) (List.mem_cons_self ..)

theorem OwnedOk.carried (h : OwnedOk kpb boot s) (hb : Holds s.vm b B P) {proc : ℕ → Process}
    (hproc : ∀ p ∈ s.procs, (proc p).pgd = (s.sched.proc p).pgd) :
    s.procs.flatMap (procBlocks kpb b proc) =
        s.procs.flatMap (procBlocks kpb s.vm s.sched.proc) ∧
      s.procs.flatMap (procPages kpb b proc) =
        s.procs.flatMap (procPages kpb s.vm s.sched.proc) := by
  have hspace (p : ℕ) (hp : p ∈ s.procs) := hb.space_congr fun c hc =>
    h.block_live hp (List.mem_cons_of_mem (a := c) _ hc)
  constructor
  · refine List.flatMap_congr fun p hp => ?_
    rw [procBlocks, procBlocks, hproc p hp, (hspace p hp).1]
  · refine List.flatMap_congr fun p hp => ?_
    rw [procPages, procPages, hproc p hp, (hspace p hp).2]

theorem OwnedOk.frame (h : OwnedOk kpb boot s) (hb : Holds s.vm b [] []) {t : Sched} {run : Bool}
    (hproc : ∀ p ∈ s.procs, (t.proc p).pgd = (s.sched.proc p).pgd)
    (hlisted : ∀ i, t.procs i ≠ 0 → t.procs i ∈ s.procs) (hd : t.Distinct) :
    OwnedOk kpb boot ⟨b, t, s.procs, run⟩ := by
  refine ⟨?_, hlisted, hd⟩
  obtain ⟨hblocks, hpages⟩ := h.carried hb hproc
  rw [hblocks, hpages]
  exact h.holds.trans hb

theorem OwnedOk.gain (h : OwnedOk kpb boot s) {p : ℕ} {t : Sched} {run : Bool}
    (hb : Space kpb s.vm b [⟨p, processSize⟩] (t.proc p).pgd)
    (hproc : ∀ q ∈ s.procs, (t.proc q).pgd = (s.sched.proc q).pgd)
    (hlisted : ∀ i, t.procs i ≠ 0 → t.procs i ∈ p :: s.procs) (hd : t.Distinct) :
    OwnedOk kpb boot ⟨b, t, p :: s.procs, run⟩ := by
  refine ⟨?_, hlisted, hd⟩
  obtain ⟨hblocks, hpages⟩ := h.carried hb hproc
  rw [List.flatMap_cons, List.flatMap_cons, hblocks, hpages]
  refine (h.holds.trans hb).perm ?_ (.refl _)
  refine List.Perm.append_right _ ?_
  exact List.perm_append_singleton _ _

end Frame

section Table
variable {s t : Sched}

theorem write_pgd {p : ℕ} {f : Process → Process} (hf : ∀ q, (f q).pgd = q.pgd) (q : ℕ) :
    ((s.write p f).proc q).pgd = (s.proc q).pgd := by
  by_cases hq : q = p
  · rw [hq, Sched.write_proc_self, hf]
  · rw [Sched.write_proc_of_ne _ _ hq]

theorem schedTick_keeps (s : Sched) (now : ℕ) : (schedTick s now).procs = s.procs ∧
    ∀ p, ((schedTick s now).proc p).pgd = (s.proc p).pgd := by
  have hw (p : ℕ) : ((wakeSleepers s now).proc p).pgd = (s.proc p).pgd := by
    rw [wakeSleepers_proc]
    split <;> rfl
  unfold schedTick
  split
  next => exact ⟨rfl, fun _ => rfl⟩
  next =>
    dsimp only
    split
    next => exact ⟨wakeSleepers_procs s now, hw⟩
    next =>
      split
      next => exact ⟨wakeSleepers_procs s now, hw⟩
      next =>
        refine ⟨wakeSleepers_procs s now, fun q => ?_⟩
        dsimp only
        rw [write_pgd, hw]
        exact fun _ => rfl

theorem distinct_fill {i : Fin maxProcesses} {p : ℕ} (hd : s.Distinct) (hp : ¬ s.Mem p)
    (ht : t.procs = Function.update s.procs i p) : t.Distinct := by
  intro j k hjk hj
  rw [ht] at hjk hj
  have hnew (l : Fin maxProcesses) (hl : l ≠ i) (h0 : s.procs l ≠ 0) : s.procs l ≠ p :=
    fun heq => hp (heq ▸ Sched.mem_slot h0)
  by_cases hji : j = i <;> by_cases hki : k = i
  · rw [hji, hki]
  · subst hji
    rw [Function.update_self] at hjk hj
    rw [Function.update_of_ne hki] at hjk
    exact absurd hjk.symm (hnew k hki (hjk ▸ hj))
  · subst hki
    rw [Function.update_self, Function.update_of_ne hji] at hjk
    rw [Function.update_of_ne hji] at hj
    exact absurd hjk (hnew j hji hj)
  · rw [Function.update_of_ne hji, Function.update_of_ne hki] at hjk
    rw [Function.update_of_ne hji] at hj
    exact hd j k hjk hj

theorem mem_fill {i : Fin maxProcesses} {p : ℕ} {l : List ℕ}
    (hs : ∀ j, s.procs j ≠ 0 → s.procs j ∈ l) (ht : t.procs = Function.update s.procs i p)
    (j : Fin maxProcesses) (hj : t.procs j ≠ 0) : t.procs j ∈ p :: l := by
  rw [ht] at hj ⊢
  by_cases hji : j = i
  · rw [hji, Function.update_self]
    exact List.mem_cons_self ..
  · rw [Function.update_of_ne hji] at hj ⊢
    exact List.mem_cons_of_mem _ (hs j hj)

theorem exitTable_keeps {pid : ℕ} (code : ℕ) (hp : schedGet s pid ≠ 0) :
    ∃ i, s.procs i = schedGet s pid ∧
      (exitTable s pid code).procs = Function.update s.procs i 0 ∧
      ∀ q, ((exitTable s pid code).proc q).pgd = (s.proc q).pgd := by
  obtain ⟨i, hi, -, hrem⟩ := schedRemove_schedGet hp
  refine ⟨i, hi, by rw [exitTable, schedWakeJoiners_procs, hrem], fun q => ?_⟩
  rw [exitTable, schedWakeJoiners_proc, hrem]
  split <;> rfl

end Table

section Steps
variable {kpb : ℕ} {boot : Vm} {s : System}

/-- `b` holds the same pages and the same heap blocks as `a`. -/
def SameMemory (a b : Vm) : Prop :=
  (∀ pa, mmPageIsAllocated b.pmm pa = mmPageIsAllocated a.pmm pa) ∧ b.live.Perm a.live

theorem Holds.sameMemory {a b : Vm} (ha : PmmOk a.pmm) (h : Holds a b [] []) : SameMemory a b := by
  refine ⟨fun pa => ?_, h.live⟩
  rw [Bool.eq_iff_iff, mmPageIsAllocated_iff ha, mmPageIsAllocated_iff h.ok.pmm,
    h.region.totalPages, h.region.ramBase]
  refine exists_congr fun j => and_congr_right fun hj => and_congr_right fun _ => ?_
  rw [h.bits j hj]
  simp

theorem create_owned (hk : kpb < 4294967296) (hal : kpb % 1024 = 0) (h : OwnedOk kpb boot s)
    {file : Option FsFile} (hfile : BelowStack file) :
    ∃ t p, s.processCreate kpb file = some (t, p) ∧
      OwnedOk kpb boot t ∧ (p = 0 → SameMemory s.vm t.vm) := by
  unfold System.processCreate
  rcases createSpace_holds hk hal h.holds.ok hfile s.sched.proc with
    ⟨b, hb, hholds⟩ | ⟨b, p, q, hb, hp, hne, hspace⟩
  · rw [hb]
    exact ⟨_, _, rfl, h.frame hholds (fun _ _ => rfl) h.listed h.distinct,
      fun _ => hholds.sameMemory h.holds.ok.pmm⟩
  · rw [hb]
    refine ⟨_, _, rfl, h.gain ?_ (fun r hr => ?_) (fun i hi => ?_) h.distinct,
      fun h0 => absurd h0 hp⟩
    · simpa using hspace
    · have hrp : r ≠ p := hne _ (h.struct_live hr)
      simp [Sched.write_proc_of_ne _ _ hrp]
    · exact List.mem_cons_of_mem _ (h.listed i hi)

/-- `process_fork`, likewise. -/
theorem fork_owned (hk : kpb < 4294967296) (hal : kpb % 1024 = 0) (h : OwnedOk kpb boot s)
    (hcur : s.sched.currentProc ≠ 0) (lrSvc spUsr cpsr : ℕ) :
    ∃ t p, s.processFork kpb lrSvc spUsr cpsr = some (t, p) ∧
      OwnedOk kpb boot t ∧ (p = 0 → SameMemory s.vm t.vm) := by
  unfold System.processFork
  rw [if_neg hcur]
  rcases forkSpace_holds hk hal h.holds.ok (s.sched.proc s.sched.currentProc).pgd with
    ⟨b, hb, hholds⟩ | ⟨b, p, pgd, hb, hp, hne, hspace⟩
  · rw [hb]
    exact ⟨_, _, rfl, h.frame hholds (fun _ _ => rfl) h.listed h.distinct,
      fun _ => hholds.sameMemory h.holds.ok.pmm⟩
  rw [hb]
  obtain ⟨hproc, -, -, hslot⟩ := processFork_some s.sched p pgd lrSvc spUsr cpsr
  simp only [Option.bind_eq_bind, Option.bind_some]
  generalize Leg.processFork s.sched (some (p, pgd)) lrSvc spUsr cpsr = r at *
  obtain ⟨sched, child⟩ := r
  dsimp only at hproc hslot ⊢
  have hold : ∀ q ∈ s.procs, (sched.proc q).pgd = (s.sched.proc q).pgd := fun q hq => by
    rw [hproc, Function.update_of_ne (hne _ (h.struct_live hq))]
  rcases hslot with ⟨i, -, hprocs, rfl⟩ | ⟨-, hprocs, rfl⟩
  · rw [if_neg hp]
    have hnew : ¬ s.sched.Mem child := by
      rintro ⟨h0, j, hj⟩
      exact hne _ (h.struct_live (h.listed j (hj ▸ h0))) hj
    refine ⟨_, _, rfl, h.gain ?_ hold (mem_fill h.listed hprocs)
      (distinct_fill h.distinct hnew hprocs), fun h0 => absurd h0 hp⟩
    rw [hproc, Function.update_self]
    exact hspace
  · -- the table is full, so the child goes back
    obtain ⟨c, hc, hholds⟩ := hspace.processFree
    rw [if_pos rfl, hc]
    refine ⟨_, _, rfl, h.frame hholds hold (fun i => ?_) fun i j => ?_,
      fun _ => hholds.sameMemory h.holds.ok.pmm⟩
    · rw [hprocs]
      exact h.listed i
    · rw [hprocs]
      exact h.distinct i j

/-- `process_exit` gives back what the process owned, whether or not another one runs. -/
theorem exit_owned (h : OwnedOk kpb boot s) {pid : ℕ} (hpid : schedGet s.sched pid ≠ 0)
    (code : ℕ) : ∃ t, s.processExit kpb pid code = some t ∧ OwnedOk kpb boot t := by
  obtain ⟨i, hi, hprocs, hproc⟩ := exitTable_keeps code hpid
  unfold System.processExit
  generalize hp : schedGet s.sched pid = p at *
  simp only [hpid, if_false]
  have hmem : p ∈ s.procs := hi ▸ h.listed i (hi ▸ hpid)
  have hsplit := List.perm_cons_erase hmem
  have hlists := h.holds.perm (hsplit.flatMap_right _) (hsplit.flatMap_right _)
  rw [List.flatMap_cons, List.flatMap_cons] at hlists
  obtain ⟨b, hb, hholds, h1, h2⟩ := hlists.processFree
  simp only [hb, Option.bind_eq_bind, Option.bind_some]
  -- neither the other processes' tables nor their structs have changed
  have hkept (t : Sched) (run : Bool) (ht : t.procs = Function.update s.sched.procs i 0)
      (hpgd : ∀ q, (t.proc q).pgd = (s.sched.proc q).pgd) :
      OwnedOk kpb boot ⟨b, t, s.procs.erase p, run⟩ := by
    have hblocks : procBlocks kpb b t.proc = procBlocks kpb s.vm s.sched.proc := by
      funext q
      rw [procBlocks, hpgd, spaceBlocks_congr (show b.l1 _ = s.vm.l1 _ by rw [h1])]
      rfl
    have hpages : procPages kpb b t.proc = procPages kpb s.vm s.sched.proc := by
      funext q
      rw [procPages, hpgd,
        spacePages_congr (show b.l1 _ = s.vm.l1 _ by rw [h1]) fun _ _ => by rw [h2]]
      rfl
    refine ⟨by rw [hblocks, hpages]; exact hholds, fun j hj => ?_, fun j k hjk hj => ?_⟩
    · have hji : j ≠ i := by
        rintro rfl
        exact hj (by rw [ht, Function.update_self])
      rw [ht, Function.update_of_ne hji] at hj ⊢
      refine List.mem_erase_of_ne (fun heq => hji ?_) |>.mpr (h.listed j hj)
      exact h.distinct j i (heq.trans hi.symm) hj
    · rw [ht] at hjk hj
      have hji : j ≠ i := by
        rintro rfl
        exact hj (Function.update_self ..)
      have hki : k ≠ i := by
        rintro rfl
        exact hj (hjk.trans (Function.update_self ..))
      rw [Function.update_of_ne hji, Function.update_of_ne hki] at hjk
      rw [Function.update_of_ne hji] at hj
      exact h.distinct j k hjk hj
  cases he : Leg.processExit s.sched pid code with
  | none => exact ⟨_, rfl, hkept _ false hprocs hproc⟩
  | some t =>
    obtain ⟨-, -, -, rfl⟩ := processExit_eq he
    exact ⟨_, rfl, hkept _ s.running hprocs hproc⟩

/-- A new space takes the place of the one of `p`, which goes back. -/
theorem swap_owned {new p : ℕ} (hnodup : s.procs.Nodup)
    (hlisted : ∀ i, s.sched.procs i ≠ 0 → s.sched.procs i ∈ s.procs) (hd : s.sched.Distinct)
    (hmem : p ∈ s.procs) {b : Vm}
    (hall : Holds boot b (spaceBlocks kpb b new ++ s.procs.flatMap (procBlocks kpb b s.sched.proc))
      (spacePages kpb b new ++ s.procs.flatMap (procPages kpb b s.sched.proc))) :
    ∃ c d, freeTables kpb (s.sched.proc p).pgd b = some c ∧
      c.kfree (s.sched.proc p).pgd = some d ∧ ∀ (u : Sched) (run : Bool),
        u.procs = s.sched.procs → (u.proc p).pgd = new →
        (∀ q, q ≠ p → u.proc q = s.sched.proc q) → OwnedOk kpb boot ⟨d, u, s.procs, run⟩ := by
  have hsplit := List.perm_cons_erase hmem
  -- the old space comes first, then the new one and the struct
  have hblocks' : (s.procs.flatMap (procBlocks kpb b s.sched.proc)).Perm
      (spaceBlocks kpb b (s.sched.proc p).pgd ++ ⟨p, processSize⟩ ::
        (s.procs.erase p).flatMap (procBlocks kpb b s.sched.proc)) :=
    (hsplit.flatMap_right _).trans List.perm_middle.symm
  have hpages' : (s.procs.flatMap (procPages kpb b s.sched.proc)).Perm
      (spacePages kpb b (s.sched.proc p).pgd ++
        (s.procs.erase p).flatMap (procPages kpb b s.sched.proc)) := hsplit.flatMap_right _
  have hfront := hall.perm
    ((hblocks'.append_left _).trans (List.perm_append_comm_assoc ..))
    ((hpages'.append_left _).trans (List.perm_append_comm_assoc ..))
  obtain ⟨c, d, hc, hfree, hholds, h1, h2⟩ := Space.free hfront
  refine ⟨c, d, hc, hfree, fun u run hprocs hself hother => ?_⟩
  have hne (q : ℕ) (hq : q ∈ s.procs.erase p) : q ≠ p := (hnodup.mem_erase_iff.mp hq).1
  have hb : (s.procs.erase p).flatMap (procBlocks kpb d u.proc) =
      (s.procs.erase p).flatMap (procBlocks kpb b s.sched.proc) :=
    List.flatMap_congr fun q hq => by
      rw [procBlocks, hother q (hne q hq), spaceBlocks_congr (show d.l1 _ = b.l1 _ by rw [h1])]
      rfl
  have hp : (s.procs.erase p).flatMap (procPages kpb d u.proc) =
      (s.procs.erase p).flatMap (procPages kpb b s.sched.proc) :=
    List.flatMap_congr fun q hq => by
      rw [procPages, hother q (hne q hq),
        spacePages_congr (show d.l1 _ = b.l1 _ by rw [h1]) fun _ _ => by rw [h2]]
      rfl
  refine ⟨hholds.perm ?_ ?_, hprocs ▸ hlisted, fun i j => ?_⟩
  · refine List.Perm.trans ?_ (hsplit.symm.flatMap_right _)
    rw [List.flatMap_cons, hb, procBlocks, hself,
      spaceBlocks_congr (show d.l1 _ = b.l1 _ by rw [h1])]
    exact List.perm_middle
  · refine List.Perm.trans ?_ (hsplit.symm.flatMap_right _)
    rw [List.flatMap_cons, hp, procPages, hself,
      spacePages_congr (show d.l1 _ = b.l1 _ by rw [h1]) fun _ _ => by rw [h2]]
  · rw [hprocs]
    exact hd i j

theorem replaced_sched (t : Sched) (p new entry stackPt stackPages : ℕ) :
    let sched := t.write p (replaceImage new entry stackPt stackPages)
    let u := if p = t.currentProc then contextSwitch sched p else sched
    u.procs = t.procs ∧ u.proc p = replaceImage new entry stackPt stackPages (t.proc p) ∧
      (∀ q, q ≠ p → u.proc q = t.proc q) ∧ u.currentProc = t.currentProc ∧
      u.nextPid = t.nextPid := by
  dsimp only
  split
  next hcur =>
    refine ⟨rfl, by simp [contextSwitch], fun q hq => ?_, hcur, rfl⟩
    simp [contextSwitch, Sched.write_proc_of_ne _ _ hq]
  next => exact ⟨rfl, by simp, fun q hq => Sched.write_proc_of_ne _ _ hq, rfl, rfl⟩

/-- A `process_replace` that succeeds swaps one space for another. -/
theorem replace_owned (hk : kpb < 4294967296) (hal : kpb % 1024 = 0) (h : OwnedOk kpb boot s)
    {pid : ℕ} {file : Option FsFile} (hfile : BelowStack file) {t : System}
    (ht : s.processReplace kpb pid file = some (t, true)) : OwnedOk kpb boot t := by
  unfold System.processReplace at ht
  dsimp only at ht
  split at ht
  next => simp at ht
  next hpid =>
  obtain ⟨i, hi, -, -⟩ := schedRemove_schedGet hpid
  generalize hp : schedGet s.sched pid = p at *
  have hmem : p ∈ s.procs := hi ▸ h.listed i (hi ▸ hpid)
  rcases replaceSpace_holds hk hal h.holds.ok hfile with ⟨b, hb⟩ | ⟨b, new, entry, tmp, hb, hs⟩
  · rw [hb] at ht
    simp at ht
  rw [hb] at ht
  simp only [Option.bind_eq_bind, Option.bind_some] at ht
  have hall := h.holds.trans hs
  obtain ⟨hblocks, hpages⟩ := h.carried hs fun p _ =>
    Eq.refl (s.sched.proc p).pgd
  rw [← hblocks, ← hpages, List.append_nil] at hall
  obtain ⟨c, d, hc, hd, hswap⟩ := swap_owned h.procs_nodup h.listed h.distinct hmem hall
  rw [hc] at ht
  simp only [Option.bind_some, hd, Option.pure_def, Option.some_inj, Prod.mk.injEq, and_true] at ht
  obtain ⟨hprocs, hself, hother, -⟩ := replaced_sched s.sched p new entry tmp.stackPt
    tmp.stackPages
  rw [← ht]
  exact hswap _ _ hprocs (by rw [hself]; rfl) hother

theorem exec_owned (h : OwnedOk kpb boot s) {p : ℕ} (hp : p ∈ s.procs) (hm : ¬ s.sched.Mem p) :
    OwnedOk kpb boot { s with sched := processExec s.sched p } := by
  have hsame := Holds.refl h.holds.ok
  unfold processExec
  rcases schedAdd_cases { s.sched with currentProc := p } p with ⟨i, -, hadd⟩ | ⟨-, hadd⟩
  · rw [hadd]
    refine h.frame hsame (fun q _ => ?_) (fun j hj => ?_) (distinct_fill h.distinct hm rfl)
    · dsimp only
      rw [write_pgd]
      exact fun _ => rfl
    · rcases List.mem_cons.mp (mem_fill h.listed rfl j hj) with heq | hmem
      · rw [heq]
        exact hp
      · exact hmem
  · rw [hadd]
    exact h.frame hsame (fun _ _ => rfl) h.listed h.distinct

/-- What every call keeps. -/
theorem lifeStep_owned (hk : kpb < 4294967296) (hal : kpb % 1024 = 0) {op : LifeOp} {t : System}
    (h : OwnedOk kpb boot s) (hs : LifeStep kpb s op t) : OwnedOk kpb boot t := by
  obtain ⟨-, hadm, hnext⟩ := hs
  have hsame := Holds.refl h.holds.ok
  cases op with
  | create file =>
    obtain ⟨u, p, hu, hok, -⟩ := create_owned hk hal h hadm
    rw [System.next, hu] at hnext
    exact Option.some.inj hnext ▸ hok
  | exec p =>
    rw [← Option.some.inj hnext]
    exact exec_owned h hadm.1 hadm.2
  | fork lrSvc spUsr cpsr =>
    by_cases hcur : s.sched.currentProc = 0
    · rw [System.next, System.processFork, if_pos hcur] at hnext
      exact absurd hnext (by simp)
    · obtain ⟨u, p, hu, hok, -⟩ := fork_owned hk hal h hcur lrSvc spUsr cpsr
      rw [System.next, hu] at hnext
      exact Option.some.inj hnext ▸ hok
  | exit pid code =>
    by_cases hpid : schedGet s.sched pid = 0
    · rw [System.next, System.processExit] at hnext
      simp [hpid] at hnext
    · obtain ⟨u, hu, hok⟩ := exit_owned h hpid code
      rw [System.next, hu] at hnext
      exact Option.some.inj hnext ▸ hok
  | replace pid file =>
    obtain ⟨hfile, u, hu⟩ := hadm
    rw [System.next, hu] at hnext
    exact Option.some.inj hnext ▸ replace_owned hk hal h hfile hu
  | join target =>
    rw [← Option.some.inj hnext]
    unfold svcJoin
    split
    next => exact h.frame hsame (fun _ _ => rfl) h.listed h.distinct
    next =>
      refine h.frame hsame (fun q _ => ?_) h.listed h.distinct
      rw [write_pgd]
      exact fun _ => rfl
  | sleep us now freq =>
    rw [← Option.some.inj hnext]
    refine h.frame hsame (fun q _ => ?_) h.listed h.distinct
    rw [svcSleep, write_pgd]
    exact fun _ => rfl
  | tick now =>
    obtain ⟨hprocs, hpgd⟩ := schedTick_keeps s.sched now
    rw [← Option.some.inj hnext]
    refine h.frame hsame (fun q _ => hpgd q) (fun i => ?_) fun i j => ?_
    · rw [hprocs]
      exact h.listed i
    · rw [hprocs]
      exact h.distinct i j

end Steps

section Boot
variable {c : BootConfig} {s : System}

theorem BootConfig.kernelPhysBase_bounds (c : BootConfig) :
    c.kernelPhysBase < 4294967296 ∧ c.kernelPhysBase % 1024 = 0 := by
  have hmask : (c.dtb &&& bnot 0xFFFFF) % 2 ^ 10 = 0 := by
    rw [Nat.and_mod_two_pow]
    exact Nat.and_zero _
  refine ⟨u32_lt _, ?_⟩
  unfold BootConfig.kernelPhysBase u32 kphysOffset
  omega

theorem boot_owned (h : s.Boot c) : OwnedOk c.kernelPhysBase s.vm s := by
  obtain ⟨-, hlow, hhigh⟩ := c.heapVa_bounds
  obtain ⟨memory, g, pops, pt, hinit, hpages, hpmm⟩ := h.pages
  obtain ⟨mem, hops, ht, hheap, hkheap, hlive⟩ := h.heap
  obtain ⟨hg, hbase, -⟩ := c.init_ok hinit
  have htracked : TrackedOk pt := hpages.preserves (fun _ _ _ h hs => pageStep_ok h hs)
    ⟨hg, hbase ▸ h.ram_pos, List.nodup_nil, by simp⟩
  obtain ⟨hbase', hok⟩ := heapRun_heapOk
    (by unfold kernelVa at hlow; omega) (by unfold stackBottom kheapSize at *; omega) hheap
  have hvm : VmOk s.vm := ⟨by rw [hkheap, hlive]; exact hok, by rw [hkheap, hbase']; exact hlow,
    hpmm ▸ htracked.pmm, hpmm ▸ htracked.base_pos⟩
  refine ⟨?_, fun i hi => absurd (h.noneListed i) hi, fun i j _ hi => absurd (h.noneListed i) hi⟩
  rw [h.noneLive]
  exact .refl hvm

end Boot

/-- The live process `m.1` maps the page `pa` at entry `m.2.2` of its slot `m.2.1`. -/
def Maps (kpb : ℕ) (s : System) (m : ℕ × ℕ × ℕ) (pa : ℕ) : Prop :=
  m.1 ∈ s.procs ∧ m.2.1 < procVaMb ∧ m.2.2 < l2Entries ∧
    pageAt kpb s.vm (s.sched.proc m.1).pgd m.2.1 m.2.2 = some pa

/-- Every page and heap block held since boot has one owner, and the used headers of the heap
are those of the blocks held. -/
structure SolelyOwned (kpb : ℕ) (boot : Vm) (s : System) : Prop where
  procs_nodup : s.procs.Nodup
  page_owned : ∀ pa, mmPageIsAllocated s.vm.pmm pa = true →
    mmPageIsAllocated boot.pmm pa = false → ∃! m, Maps kpb s m pa
  page_since : ∀ m pa, Maps kpb s m pa →
    mmPageIsAllocated s.vm.pmm pa = true ∧ mmPageIsAllocated boot.pmm pa = false
  block_owned : ∀ c ∈ s.vm.live, c ∉ boot.live →
    ∃! p, p ∈ s.procs ∧ c ∈ procBlocks kpb s.vm s.sched.proc p
  block_since : ∀ p ∈ s.procs, ∀ c ∈ procBlocks kpb s.vm s.sched.proc p,
    c ∈ s.vm.live ∧ c ∉ boot.live
  boot_kept : ∀ c ∈ boot.live, c ∈ s.vm.live
  headers : ∃ hdrs, HeapWf s.vm.heap s.vm.live hdrs ∧
    ∀ x ∈ hdrs, s.vm.heap.magic x = kheapMagicUsed → ∃ c ∈ s.vm.live, Owns s.vm.heap x c

section Owners
variable {kpb : ℕ} {boot : Vm} {s : System}

theorem mem_spacePages {vm : Vm} {pgd pa : ℕ} : pa ∈ spacePages kpb vm pgd ↔
    ∃ mb < procVaMb, ∃ i < l2Entries, pageAt kpb vm pgd mb i = some pa := by
  simp only [spacePages, List.mem_flatMap, spaceTables, tablePages, mem_occupied, pageAt,
    Option.bind_eq_some_iff]
  constructor
  · rintro ⟨pt, ⟨mb, hmb, ht⟩, i, hi, hpa⟩
    exact ⟨mb, hmb, i, hi, pt, ht, hpa⟩
  · rintro ⟨mb, hmb, i, hi, pt, ht, hpa⟩
    exact ⟨pt, ⟨mb, hmb, ht⟩, i, hi, hpa⟩

theorem pageAt_inj {vm : Vm} {pgd pa mb mb' i i' : ℕ} (htables : (spaceTables kpb vm pgd).Nodup)
    (hpages : (spacePages kpb vm pgd).Nodup) (hmb : mb < procVaMb) (hmb' : mb' < procVaMb)
    (hi : i < l2Entries) (hi' : i' < l2Entries) (h : pageAt kpb vm pgd mb i = some pa)
    (h' : pageAt kpb vm pgd mb' i' = some pa) : mb = mb' ∧ i = i' := by
  obtain ⟨pt, ht, hpa⟩ := Option.bind_eq_some_iff.mp h
  obtain ⟨pt', ht', hpa'⟩ := Option.bind_eq_some_iff.mp h'
  have hmem := mem_spaceTables hmb ht
  have heq : pt = pt' := flatMap_inj hpages hmem (mem_spaceTables hmb' ht')
    (mem_occupied.mpr ⟨i, hi, hpa⟩) (mem_occupied.mpr ⟨i', hi', hpa'⟩)
  subst heq
  exact ⟨occupied_inj htables hmb hmb' ht ht',
    occupied_inj ((List.nodup_flatMap.mp hpages).1 pt hmem) hi hi' hpa hpa'⟩

theorem OwnedOk.mem_pages (h : OwnedOk kpb boot s) (hboot : PmmOk boot.pmm) (pa : ℕ) :
    pa ∈ s.procs.flatMap (procPages kpb s.vm s.sched.proc) ↔
      mmPageIsAllocated s.vm.pmm pa = true ∧ mmPageIsAllocated boot.pmm pa = false := by
  rw [← Bool.not_eq_true, mmPageIsAllocated_iff h.holds.ok.pmm, mmPageIsAllocated_iff hboot,
    h.holds.region.totalPages, h.holds.region.ramBase]
  constructor
  · intro hpa
    obtain ⟨j, hj, heq, hclear⟩ := h.holds.fresh pa hpa
    refine ⟨⟨j, hj, heq, ?_⟩, fun ⟨k, hk, hke, hset⟩ => ?_⟩
    · rw [h.holds.bits j hj, ← heq, decide_eq_true hpa, Bool.or_true]
    · have hjk : j = k := by
        unfold pageSize at *
        omega
      rw [← hjk, hclear] at hset
      exact absurd hset (by decide)
  · rintro ⟨⟨j, hj, heq, hset⟩, hno⟩
    rw [h.holds.bits j hj, Bool.or_eq_true] at hset
    rcases hset with hset | hset
    · exact absurd ⟨j, hj, heq, hset⟩ hno
    · rw [heq]
      exact of_decide_eq_true hset

theorem OwnedOk.solely (h : OwnedOk kpb boot s) (hboot : PmmOk boot.pmm) :
    SolelyOwned kpb boot s := by
  have hptrs := h.holds.ptrs_nodup
  rw [List.map_append] at hptrs
  have hptrs' := (List.nodup_append.mp hptrs).1
  have hblocks : (s.procs.flatMap (procBlocks kpb s.vm s.sched.proc)).Nodup := hptrs'.of_map
  have hpages := h.holds.nodup
  have hmaps (m : ℕ × ℕ × ℕ) (pa : ℕ) (hm : Maps kpb s m pa) :
      pa ∈ procPages kpb s.vm s.sched.proc m.1 :=
    mem_spacePages.mpr ⟨_, hm.2.1, _, hm.2.2.1, hm.2.2.2⟩
  refine ⟨h.procs_nodup, fun pa hset hclear => ?_, fun m pa hm => ?_, fun c hc hno => ?_,
    fun p hp c hc => ⟨h.block_live hp hc, fun hin => ?_⟩, fun c hc => ?_, h.holds.ok.heap.headers⟩
  · obtain ⟨p, hp, hpa⟩ := List.mem_flatMap.mp ((h.mem_pages hboot pa).mpr ⟨hset, hclear⟩)
    obtain ⟨mb, hmb, i, hi, hat⟩ := mem_spacePages.mp hpa
    refine ⟨(p, mb, i), ⟨hp, hmb, hi, hat⟩, fun m hm => ?_⟩
    obtain ⟨q, mb', i'⟩ := m
    have hqp : q = p := flatMap_inj hpages hm.1 hp (hmaps _ _ hm) hpa
    subst hqp
    have htables : (spaceTables kpb s.vm (s.sched.proc q).pgd).Nodup := by
      rw [List.map_flatMap] at hptrs'
      have hown := (List.nodup_flatMap.mp hptrs').1 q hp
      simp only [procBlocks, spaceBlocks, List.map_cons, List.map_map, List.nodup_cons] at hown
      simpa [Function.comp_def, tableBlock] using hown.2.2
    have hspace := (List.nodup_flatMap.mp hpages).1 q hp
    obtain ⟨rfl, rfl⟩ := pageAt_inj htables hspace hm.2.1 hmb hm.2.2.1 hi hm.2.2.2 hat
    rfl
  · exact (h.mem_pages hboot pa).mp (List.mem_flatMap.mpr ⟨m.1, hm.1, hmaps m pa hm⟩)
  · rcases List.mem_append.mp (h.holds.live.mem_iff.mp hc) with hown | hin
    · obtain ⟨p, hp, hcp⟩ := List.mem_flatMap.mp hown
      exact ⟨p, ⟨hp, hcp⟩, fun q hq => flatMap_inj hblocks hq.1 hp hq.2 hcp⟩
    · exact absurd hin hno
  · exact h.holds.ptr_ne (List.mem_flatMap.mpr ⟨p, hp, hc⟩) hin rfl
  · exact h.holds.live.mem_iff.mpr (List.mem_append_right _ hc)

end Owners

/-- After any run of the life-cycle calls from boot on, each page and each heap block held since
boot has one owner among the live processes; no call fails an assertion of the heap; and a create
or a fork that fails leaves the pages and the heap blocks as they were. -/
theorem lifeRun_solelyOwned {c : BootConfig} {boot s : System} {ops : List LifeOp}
    (hb : boot.Boot c) (hr : Run (LifeStep c.kernelPhysBase) boot ops s) :
    SolelyOwned c.kernelPhysBase boot.vm s ∧
    (∀ file, BelowStack file → ∃ t p, s.processCreate c.kernelPhysBase file = some (t, p) ∧
      (p = 0 → SameMemory s.vm t.vm)) ∧
    (s.sched.currentProc ≠ 0 → ∀ lrSvc spUsr cpsr,
      ∃ t p, s.processFork c.kernelPhysBase lrSvc spUsr cpsr = some (t, p) ∧
        (p = 0 → SameMemory s.vm t.vm)) ∧
    ∀ pid code, schedGet s.sched pid ≠ 0 → (s.processExit c.kernelPhysBase pid code).isSome := by
  obtain ⟨hk, hal⟩ := c.kernelPhysBase_bounds
  have hstart := boot_owned hb
  have h : OwnedOk c.kernelPhysBase boot.vm s :=
    hr.preserves (fun _ _ _ ho hs => lifeStep_owned hk hal ho hs) hstart
  refine ⟨h.solely hstart.holds.ok.pmm, fun file hfile => ?_, fun hcur lrSvc spUsr cpsr => ?_,
    fun pid code hpid => ?_⟩
  · obtain ⟨t, p, ht, -, hsame⟩ := create_owned hk hal h hfile
    exact ⟨t, p, ht, hsame⟩
  · obtain ⟨t, p, ht, -, hsame⟩ := fork_owned hk hal h hcur lrSvc spUsr cpsr
    exact ⟨t, p, ht, hsame⟩
  · obtain ⟨t, ht, -⟩ := exit_owned h hpid code
    rw [ht]
    rfl

/-- An image of two code pages. -/
def initFile : FsFile where
  size := 600
  executable := true
  readable := true
  image := ⟨llfMagic, 0x400000, [⟨1, 0x400000, 0x1800⟩]⟩

/-- The system right after `mm_init`. -/
def systemOf (c : BootConfig) (g : Pmm) : System where
  vm := ⟨kheapInit (fun _ => 0) c.heapVa, g, fun _ _ => 0, fun _ _ => 0, []⟩
  sched := ⟨fun _ => 0, fun _ => default, 0, 1⟩
  procs := []
  running := true

/-- A test for the calls a run may make next; of the replacements it takes none. -/
def System.accepts (s : System) : LifeOp → Bool
  | .create (some f) => decide (∀ ph ∈ f.image.phdrs, ph.type ≠ llfSegNull →
      ph.vaddr + ph.memsz ≤ initialStackFloor)
  | .exec p => decide (p ∈ s.procs ∧ ¬ s.sched.Mem p)
  | .replace .. => false
  | _ => true

theorem admits_of_accepts {kpb : ℕ} {s : System} {op : LifeOp} (h : s.accepts op = true) :
    s.Admits kpb op := by
  cases op with
  | create file =>
    cases file with
    | none => exact fun f hf => absurd hf (by simp)
    | some f =>
      have hbelow := of_decide_eq_true h
      exact fun g hg => Option.some.inj hg ▸ hbelow
  | exec p =>
    have hp := of_decide_eq_true h
    exact hp
  | replace pid file => exact absurd h (by simp [System.accepts])
  | _ => trivial

/-- The first process is created and started, forks, and exits; the child goes on. -/
theorem lifeRun_solelyOwned_exited : ∃ boot ops s, boot.Boot highRamConfig ∧
    Run (LifeStep highRamConfig.kernelPhysBase) boot ops s ∧ ops.length = 4 ∧ s.running = true ∧
      SolelyOwned highRamConfig.kernelPhysBase boot.vm s := by
  have hany : ((highRamConfig.init fun _ => 0).bind fun g =>
      execute (fun s op => s.running && s.accepts op) (System.next highRamConfig.kernelPhysBase)
        (systemOf highRamConfig g)
        [.create (some initFile), .exec 0xC0104000, .fork 0 0 0, .exit 1 0]).any
      (fun s => s.running) = true := by
    decide +kernel
  obtain ⟨s, hs, hrunning⟩ := (Option.any_eq_true _ _).mp hany
  obtain ⟨g, hg, hexec⟩ := Option.bind_eq_some_iff.mp hs
  have hboot : (systemOf highRamConfig g).Boot highRamConfig :=
    ⟨by decide +kernel, ⟨_, g, [], ⟨g, []⟩, hg, .nil _, rfl⟩,
      ⟨_, [], _, .nil _, rfl, rfl⟩, fun _ => rfl, rfl⟩
  have hrun : Run (LifeStep highRamConfig.kernelPhysBase) (systemOf highRamConfig g) _ s :=
    .of_execute (fun _ _ _ hok hnext =>
      have hboth := Bool.and_eq_true_iff.mp hok
      ⟨hboth.1, admits_of_accepts hboth.2, hnext⟩) hexec
  exact ⟨_, _, s, hboot, hrun, rfl, hrunning, (lifeRun_solelyOwned hboot hrun).1⟩

end Leg
