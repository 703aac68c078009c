import Leg.Process.Lifecycle

/-! What the memory side of a create, a fork and a replace leaves behind: a whole address space,
or nothing at all where one of the allocations failed. -/
namespace Leg
open Slots

section Start
variable {kpb : ℕ} {a b : Vm} {B : List Client} {pgd : ℕ}

theorem Holds.procTable (kpb : ℕ) (h : Holds a b B []) : b.mmuAllocProcTable = some (b, 0) ∨
    ∃ c pgd, b.mmuAllocProcTable = some (c, pgd) ∧ pgd ≠ 0 ∧ Space kpb a c B pgd ∧
      ∀ mb, tableOf kpb c pgd mb = none := by
  rcases h.alloc (k := 7) (by decide : procTableSize ≤ kheapSize) (by decide) (by decide) with
    hr | ⟨b', pgd, hr, hpgd, hb', -⟩
  · left
    rw [Vm.mmuAllocProcTable, show b.kmallocAligned procTableSize procTableAlign = _ from hr]
    rfl
  · right
    have hempty : ∀ mb, tableOf kpb (b'.clearL1 pgd) pgd mb = none := by
      intro mb
      simp [tableOf, Vm.clearL1, entryType, l1PageTable]
    refine ⟨b'.clearL1 pgd, pgd, ?_, hpgd, ?_, hempty⟩
    · rw [Vm.mmuAllocProcTable, show b.kmallocAligned procTableSize procTableAlign = _ from hr]
      simp [hpgd]
    · have htables : spaceTables kpb (b'.clearL1 pgd) pgd = [] :=
        occupied_none fun mb _ => hempty mb
      unfold Space spaceBlocks spacePages
      rw [htables]
      exact hb'.setL1 (d := ⟨pgd, procTableSize⟩) (List.mem_cons_self ..) fun _ => 0

theorem Extends.stackRoom {c : Vm} (h : Extends kpb a b c B pgd initialStackFloor)
    (hempty : ∀ mb, tableOf kpb b pgd mb = none) (i : ℕ)
    (hi : initialStackFloor ≤ 31 * 0x100000 + i * pageSize) : pageAt kpb c pgd 31 i = none := by
  rw [h.kept 31 (by decide) i hi, pageAt, hempty]
  rfl

theorem Space.processFree {p : ℕ} (h : Space kpb a b [⟨p, processSize⟩] pgd) :
    ∃ c, Leg.processFree kpb p pgd b = some c ∧ Holds a c [] [] := by
  have hperm : (spaceBlocks kpb b pgd ++ [(⟨p, processSize⟩ : Client)]).Perm
      ((⟨p, processSize⟩ : Client) :: spaceBlocks kpb b pgd ++ []) := by
    rw [List.append_nil]
    exact List.perm_append_singleton _ _
  have hpages := List.append_nil (spacePages kpb b pgd)
  obtain ⟨c, hc, hholds, -⟩ := Holds.processFree (Holds.perm h hperm (.of_eq hpages.symm))
  exact ⟨c, hc, hholds⟩

/-- The two allocations give a struct with an empty space, or nothing. -/
theorem allocProcess_holds (kpb : ℕ) (hok : VmOk a) :
    (∃ b, allocProcess a = some (b, none) ∧ Holds a b [] []) ∨
    ∃ b p pgd, allocProcess a = some (b, some (p, pgd)) ∧ p ≠ 0 ∧ (∀ d ∈ a.live, d.ptr ≠ p) ∧
      Space kpb a b [⟨p, processSize⟩] pgd ∧ ∀ mb, tableOf kpb b pgd mb = none := by
  unfold allocProcess
  rcases (Holds.refl hok).alloc (k := 14) (by decide : processSize ≤ kheapSize) (by decide)
    (by decide) with hr | ⟨b, p, hr, hp, hb, -, -, -, -, -, hne⟩
  · left
    rw [show a.kmallocAligned processSize 0x4000 = _ from hr]
    exact ⟨a, rfl, .refl hok⟩
  rw [show a.kmallocAligned processSize 0x4000 = _ from hr]
  simp only [Option.bind_eq_bind, Option.bind_some, hp, if_false]
  rcases hb.procTable kpb with ht | ⟨c, pgd, ht, hpgd, hs, hempty⟩
  · left
    obtain ⟨d, hd, hd', -⟩ := hb.free (List.mem_cons_self ..)
    rw [ht]
    simp only [Option.bind_some, if_true, hd]
    rw [List.erase_cons_head] at hd'
    exact ⟨d, rfl, hd'⟩
  · right
    rw [ht]
    simp only [Option.bind_some, hpgd, if_false]
    exact ⟨c, p, pgd, rfl, hp, hne, hs, hempty⟩

end Start

section Whole
variable {kpb : ℕ} {a : Vm}

theorem floor_le : initialStackFloor ≤ procUserVaTop := by decide

theorem floor_aligned : initialStackFloor % pageSize = 0 := by decide

/-- `process_create` leaves a new process's space, or nothing. -/
theorem createSpace_holds (hk : kpb < 4294967296) (hal : kpb % 1024 = 0) (hok : VmOk a)
    {file : Option FsFile} (hfile : BelowStack file) (proc : ℕ → Process) :
    (∃ b, createSpace kpb file proc a = some (b, none) ∧ Holds a b [] []) ∨
    ∃ b p q, createSpace kpb file proc a = some (b, some (p, q)) ∧ p ≠ 0 ∧
      (∀ d ∈ a.live, d.ptr ≠ p) ∧ Space kpb a b [⟨p, processSize⟩] q.pgd := by
  unfold createSpace
  rcases allocProcess_holds kpb hok with ⟨b, hb, hholds⟩ | ⟨b, p, pgd, hb, hp, hne, hs, hempty⟩
  · exact .inl ⟨b, by rw [hb]; rfl, hholds⟩
  rw [hb]
  simp only [Option.bind_eq_bind, Option.bind_some]
  obtain ⟨c, entry, hc, hext⟩ := hs.loadUserImage hk hal floor_le floor_aligned hfile
  rw [hc]
  cases entry with
  | none =>
    obtain ⟨d, hd, hholds⟩ := hext.space.processFree
    exact .inl ⟨d, by simp [hd], hholds⟩
  | some entry =>
    obtain ⟨d, q, ok, hd, hs', hq⟩ := hext.space.setupInitialStack hk hal
      (p := { proc p with pgd := pgd, entry := entry }) rfl fun i => hext.stackRoom hempty i
    simp only [Option.bind_some, hd]
    cases ok with
    | false =>
      obtain ⟨e, he, hholds⟩ := hs'.processFree
      exact .inl ⟨e, by simp [he], hholds⟩
    | true => exact .inr ⟨d, p, q, rfl, hp, hne, hq ▸ hs'⟩

theorem forkSpace_holds (hk : kpb < 4294967296) (hal : kpb % 1024 = 0) (hok : VmOk a)
    (parentPgd : ℕ) :
    (∃ b, forkSpace kpb parentPgd a = some (b, none) ∧ Holds a b [] []) ∨
    ∃ b p pgd, forkSpace kpb parentPgd a = some (b, some (p, pgd)) ∧ p ≠ 0 ∧
      (∀ d ∈ a.live, d.ptr ≠ p) ∧ Space kpb a b [⟨p, processSize⟩] pgd := by
  unfold forkSpace
  rcases allocProcess_holds kpb hok with ⟨b, hb, hholds⟩ | ⟨b, p, pgd, hb, hp, hne, hs, hempty⟩
  · exact .inl ⟨b, by rw [hb]; rfl, hholds⟩
  rw [hb]
  simp only [Option.bind_eq_bind, Option.bind_some]
  obtain ⟨c, ok, hc, hs'⟩ := hs.forkTables hk hal parentPgd procVaMb
    (rfl : 0 + procVaMb = procVaMb) fun j _ => hempty j
  rw [hc]
  cases ok with
  | false =>
    obtain ⟨d, hd, hholds⟩ := hs'.processFree
    exact .inl ⟨d, by simp [hd], hholds⟩
  | true => exact .inr ⟨c, p, pgd, rfl, hp, hne, hs'⟩

/-- `process_replace` never fails an assertion, and leaves a whole space where it succeeds. -/
theorem replaceSpace_holds (hk : kpb < 4294967296) (hal : kpb % 1024 = 0) (hok : VmOk a)
    {file : Option FsFile} (hfile : BelowStack file) :
    (∃ b, replaceSpace kpb file a = some (b, none)) ∨
    ∃ b pgd entry tmp, replaceSpace kpb file a = some (b, some (pgd, entry, tmp)) ∧
      Space kpb a b [] pgd := by
  unfold replaceSpace
  rcases (Holds.refl hok).procTable kpb with hr | ⟨b, pgd, hr, hpgd, hs, hempty⟩
  · exact .inl ⟨a, by rw [hr]; rfl⟩
  rw [hr]
  simp only [Option.bind_eq_bind, Option.bind_some, hpgd, if_false]
  obtain ⟨c, entry, hc, hext⟩ := hs.loadUserImage hk hal floor_le floor_aligned hfile
  rw [hc]
  cases entry with
  | none =>
    have hpgd' : (⟨pgd, procTableSize⟩ : Client) ∈ spaceBlocks kpb c pgd ++ [] :=
      List.mem_append_left _ (List.mem_cons_self ..)
    obtain ⟨d, hd, -⟩ := Holds.free hext.space hpgd'
    exact .inl ⟨d, by simp [show c.kfree pgd = _ from hd]⟩
  | some entry =>
    obtain ⟨d, q, ok, hd, hs', hq⟩ := hext.space.setupInitialStack hk hal
      (p := { (default : Process) with pgd := pgd }) rfl fun i => hext.stackRoom hempty i
    simp only [Option.bind_some, hd]
    cases ok with
    | false =>
      have hpages := List.append_nil (spacePages kpb d pgd)
      obtain ⟨e, f, he, hf, -⟩ := Space.free (Holds.perm hs' (.refl _) (.of_eq hpages.symm))
      exact .inl ⟨f, by simp [he, hf]⟩
    | true => exact .inr ⟨d, pgd, entry, q, rfl, hs'⟩

end Whole

end Leg
