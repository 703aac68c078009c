import Leg.Process.LifecycleMemory

/-! What is held but belongs to no address space any more: pages that the initial stack pushes out
of its table, and the tables and pages an image left in a table that was dropped. -/
namespace Leg
open Slots

/-- What is allocated in `a` is allocated in `b`. -/
structure PagesKept (a b : Vm) : Prop where
  region : SameRegion a.pmm b.pmm
  bits : ∀ j < a.pmm.totalPages, bmTest a.pmm.bitmap j = true → bmTest b.pmm.bitmap j = true

theorem PagesKept.refl (a : Vm) : PagesKept a a := ⟨.refl _, fun _ _ h => h⟩

theorem PagesKept.trans {a b c : Vm} (h : PagesKept a b) (h' : PagesKept b c) : PagesKept a c :=
  ⟨h.region.trans h'.region, fun j hj hset =>
    h'.bits j (by rw [h.region.totalPages]; exact hj) (h.bits j hj hset)⟩

section Absorb
variable {a b : Vm} {B LB : List Client} {P LP : List ℕ}

theorem Holds.freeAll (h : Holds a b B (P ++ LP)) : Holds a (P.foldl Vm.pageFree b) B LP := by
  induction P generalizing b with
  | nil => exact h
  | cons pa P ih =>
    have hfree := h.pageFree (List.mem_cons_self ..)
    rw [List.cons_append, List.erase_cons_head] at hfree
    exact ih hfree

/-- What is held besides `B` and `P` may be counted to the earlier state. -/
theorem Holds.absorb (h : Holds a b (B ++ LB) (P ++ LP)) :
    ∃ a', a'.live = LB ++ a.live ∧ PagesKept a a' ∧ Holds a' b B P ∧
      ∀ c B' P', Holds a' c B' P' → Holds a c (B' ++ LB) (P' ++ LP) := by
  have hleak := h.freeAll
  have hregion : SameRegion (P.foldl Vm.pageFree b).pmm b.pmm :=
    hleak.region.symm.trans h.region
  have hbase (j : ℕ) : (P.foldl Vm.pageFree b).pmm.ramBase + j * pageSize =
      a.pmm.ramBase + j * pageSize := by rw [hleak.region.ramBase]
  have hmem (j : ℕ) : decide (a.pmm.ramBase + j * pageSize ∈ P ++ LP) =
      (decide (a.pmm.ramBase + j * pageSize ∈ LP) ||
        decide (a.pmm.ramBase + j * pageSize ∈ P)) := by
    rw [← Bool.decide_or]
    congr 1
    rw [List.mem_append, or_comm]
  refine ⟨⟨a.heap, (P.foldl Vm.pageFree b).pmm, b.l1, b.l2, LB ++ a.live⟩, rfl,
    ⟨hleak.region, fun j hj hset => ?_⟩, ?_, fun c B' P' hc => ?_⟩
  · rw [hleak.bits j hj, hset, Bool.true_or]
  · refine ⟨h.ok, ?_, hregion, fun j hj => ?_, h.nodup.of_append_left, fun pa hpa => ?_,
      fun _ _ => rfl, fun _ _ => rfl⟩
    · rw [← List.append_assoc]
      exact h.live
    · dsimp only at hj ⊢
      rw [hleak.region.totalPages] at hj
      rw [h.bits j hj, hleak.bits j hj, hbase, hmem, Bool.or_assoc]
    · obtain ⟨j, hj, heq, hclear⟩ := h.fresh pa (List.mem_append_left _ hpa)
      refine ⟨j, hleak.region.totalPages.symm ▸ hj, by rw [heq]; exact (hbase j).symm, ?_⟩
      have hno : pa ∉ LP := List.disjoint_of_nodup_append h.nodup hpa
      dsimp only
      rw [hleak.bits j hj, hclear, ← heq, decide_eq_false hno]
      rfl
  · have htotal : (P.foldl Vm.pageFree b).pmm.totalPages = a.pmm.totalPages :=
      hleak.region.totalPages
    have hlive : c.live.Perm (B' ++ (LB ++ a.live)) := hc.live
    refine ⟨hc.ok, by rwa [List.append_assoc], hleak.region.trans hc.region, fun j hj => ?_, ?_,
      fun pa hpa => ?_, fun d hd => ?_, fun d hd => ?_⟩
    · have hbits := hc.bits j (htotal ▸ hj)
      dsimp only at hbits
      rw [hbits, hleak.bits j hj, hbase, Bool.or_assoc, ← Bool.decide_or]
      congr 2
      rw [List.mem_append, or_comm]
    · refine List.Nodup.append hc.nodup hleak.nodup fun pa hpa' hpa => ?_
      obtain ⟨j, hj, heq, hclear⟩ := hc.fresh pa hpa'
      dsimp only at hj heq hclear
      rw [hbase] at heq
      rw [hleak.bits j (htotal ▸ hj), ← heq, decide_eq_true hpa, Bool.or_true] at hclear
      exact Bool.noConfusion hclear
    · rcases List.mem_append.mp hpa with hpa | hpa
      · obtain ⟨j, hj, heq, hclear⟩ := hc.fresh pa hpa
        dsimp only at hj heq hclear
        rw [htotal] at hj
        rw [hbase] at heq
        rw [hleak.bits j hj, Bool.or_eq_false_iff] at hclear
        exact ⟨j, hj, heq, hclear.1⟩
      · exact hleak.fresh pa hpa
    · exact (hc.l1 d (List.mem_append_right _ hd)).trans (h.l1 d hd)
    · exact (hc.l2 d (List.mem_append_right _ hd)).trans (h.l2 d hd)

end Absorb

/-- The address space `pgd` and the blocks `B`, and some pages that nothing maps any more. -/
def Leaky (kpb : ℕ) (a b : Vm) (B : List Client) (pgd : ℕ) : Prop :=
  ∃ L, Holds a b (spaceBlocks kpb b pgd ++ B) (spacePages kpb b pgd ++ L)

section Stack
variable {kpb : ℕ} {a b : Vm} {B : List Client} {pgd pt : ℕ}

theorem Space.leaky (h : Space kpb a b B pgd) : Leaky kpb a b B pgd :=
  ⟨[], by rw [List.append_nil]; exact h⟩

theorem Leaky.step (h : Leaky kpb a b B pgd) : ∃ a', Space kpb a' b B pgd ∧
    ∀ c, Leaky kpb a' c B pgd → Leaky kpb a c B pgd := by
  obtain ⟨L, h⟩ := h
  have hnil : Holds a b ((spaceBlocks kpb b pgd ++ B) ++ []) (spacePages kpb b pgd ++ L) := by
    rwa [List.append_nil]
  obtain ⟨a', -, -, hs, hback⟩ := hnil.absorb
  refine ⟨a', hs, fun c ⟨L', hc⟩ => ⟨L' ++ L, ?_⟩⟩
  have hall := hback c _ _ hc
  rwa [List.append_nil, List.append_assoc] at hall

/-- A new page at an entry that maps another one. -/
theorem Space.remapPage (h : Space kpb a b B pgd) {mb i va old : ℕ} (hmb : mb < procVaMb)
    (ht : tableOf kpb b pgd mb = some pt) (hi : i < l2Entries) (hold : pageOf b pt i = some old)
    (hidx : l2Idx va = i) : b.pageAlloc = (b, 0) ∨
      let c := b.pageAlloc.1.mmuMapPage pt va b.pageAlloc.2
      b.pageAlloc.2 ≠ 0 ∧ Leaky kpb a c B pgd ∧ ∀ j, tableOf kpb c pgd j = tableOf kpb b pgd j := by
  subst hidx
  refine h.pageAlloc.imp id fun ⟨hne, hal, hlt, hb'⟩ => ?_
  generalize hc : b.pageAlloc.1.mmuMapPage pt va b.pageAlloc.2 = c
  have hmem := mem_spaceTables hmb ht
  have hl1 : c.l1 = b.l1 := by
    subst hc
    rfl
  have hnew : pageOf c pt (l2Idx va) = some b.pageAlloc.2 := by
    subst hc
    simp [pageOf, Vm.mmuMapPage, Vm.setL2, entryType_l2PageEntry, l2Address_l2PageEntry hal]
  have hother (q i' : ℕ) (hqi : q ≠ pt ∨ i' ≠ l2Idx va) : pageOf c q i' = pageOf b q i' := by
    subst hc
    by_cases hq : q = pt
    · subst hq
      simp [pageOf, Vm.mmuMapPage, Vm.setL2, hqi.resolve_left (fun h => h rfl), Vm.pageAlloc]
    · simp [pageOf, Vm.mmuMapPage, Vm.setL2, hq, Vm.pageAlloc]
  have hpt : (old :: tablePages c pt).Perm (b.pageAlloc.2 :: tablePages b pt) :=
    occupied_swap hi hold hnew fun j _ hj => hother pt j (.inr hj)
  have hpages : (old :: spacePages kpb c pgd).Perm (b.pageAlloc.2 :: spacePages kpb b pgd) := by
    unfold spacePages
    rw [show spaceTables kpb c pgd = spaceTables kpb b pgd from spaceTables_congr (by rw [hl1])]
    exact flatMap_swap h.tables_nodup hmem hpt fun q _ hq =>
      occupied_congr fun j _ => hother q j (.inl hq)
  refine ⟨hne, ⟨[old], ?_⟩, fun j => tableOf_congr (by rw [hl1]) j⟩
  have hset : Holds a c (spaceBlocks kpb b pgd ++ B) (b.pageAlloc.2 :: spacePages kpb b pgd) := by
    subst hc
    refine hb'.setL2 (d := tableBlock pt) (List.mem_append_left _ ?_) _
    exact List.mem_cons_of_mem _ (List.mem_map_of_mem hmem)
  rw [← spaceBlocks_congr (show c.l1 pgd = b.l1 pgd by rw [hl1])] at hset
  exact hset.perm (.refl _) (hpages.symm.trans (List.perm_append_singleton _ _).symm)

/-- The initial stack pages from the `n`-th on, over whatever the entries map. -/
theorem Leaky.addStackPages (hpt : tableOf kpb b pgd 31 = some pt) (k : ℕ) {p : Process}
    (hpgd : p.pgd = pgd) (hsp : p.stackPt = pt) (hn : p.stackPages + k = procStackInitPages)
    (h : Leaky kpb a b B pgd) : ∃ c q ok, addStackPages kpb k b p = some (c, q, ok) ∧
      Leaky kpb a c B pgd ∧ q.pgd = pgd := by
  induction k generalizing b p with
  | zero => exact ⟨b, p, true, rfl, h, hpgd⟩
  | succ k ih =>
    have hlt : p.stackPages < procStackInitPages := by omega
    obtain ⟨-, hidx, hcross⟩ := stackPage_va hlt
    unfold Leg.addStackPages Leg.processAddPage
    simp only [Option.bind_eq_bind, hcross, if_false, Option.bind_some, not_true]
    have hi : 0xFE - p.stackPages < l2Entries := by
      unfold l2Entries
      omega
    obtain ⟨a', hs, hback⟩ := h.step
    -- either way one page joins the space
    have hmap : b.pageAlloc = (b, 0) ∨
        let c := b.pageAlloc.1.mmuMapPage pt
          (wsub procStackTop (u32 ((p.stackPages + 1) * pageSize))) b.pageAlloc.2
        b.pageAlloc.2 ≠ 0 ∧ Leaky kpb a' c B pgd ∧
          ∀ j, tableOf kpb c pgd j = tableOf kpb b pgd j := by
      cases hentry : pageOf b pt (0xFE - p.stackPages) with
      | none =>
        refine (hs.mapPage (by decide : 31 < procVaMb) hpt hi hentry hidx).imp id ?_
        rintro ⟨hne, hs', htable, -⟩
        exact ⟨hne, hs'.leaky, htable⟩
      | some old => exact hs.remapPage (by decide : 31 < procVaMb) hpt hi hentry hidx
    rcases hmap with hpa | ⟨hne, hs', htable⟩
    · rw [hpa]
      exact ⟨b, p, false, rfl, h, hpgd⟩
    · rw [hsp]
      generalize b.pageAlloc = r at *
      obtain ⟨b1, pa⟩ := r
      dsimp only at hne hs' htable ⊢
      simp only [hne, if_false, Option.pure_def, Option.bind_some, if_true]
      exact ih ((htable 31).trans hpt) hpgd rfl (by dsimp only; omega) (hback _ hs')

theorem Space.setupStack (hk : kpb < 4294967296) (hal : kpb % 1024 = 0) {p : Process}
    (hpgd : p.pgd = pgd) (h : Space kpb a b B pgd) :
    ∃ c q ok, Leg.setupInitialStack kpb b p = some (c, q, ok) ∧ Leaky kpb a c B pgd ∧
      q.pgd = pgd := by
  unfold Leg.setupInitialStack
  obtain ⟨c, pt, hc, hext, htable⟩ := h.getOrAlloc 0 hk hal (by decide : 31 < procVaMb)
  subst hpgd
  rw [show procStackTop >>> 20 = 31 from rfl, hc]
  simp only [Option.bind_eq_bind, Option.bind_some]
  by_cases hpt : pt = 0
  · rw [if_pos hpt]
    exact ⟨c, _, false, rfl, hext.space.leaky, rfl⟩
  · rw [if_neg hpt]
    exact hext.space.leaky.addStackPages (htable hpt) _ rfl rfl rfl

end Stack

/-- The segments of the image that a name stands for lie in the user's range. -/
def InUserRange (file : Option FsFile) : Prop := ∀ f, file = some f → f.image.Below procUserVaTop

section Whole
variable {kpb : ℕ} {a : Vm}

/-- `process_create` of any image in the user's range: a space, and pages lost to its stack. -/
theorem createSpace_leaky (hk : kpb < 4294967296) (hal : kpb % 1024 = 0) (hok : VmOk a)
    {file : Option FsFile} (hfile : InUserRange file) (proc : ℕ → Process) :
    (∃ b L, createSpace kpb file proc a = some (b, none) ∧ Holds a b [] L) ∨
    ∃ b p q, createSpace kpb file proc a = some (b, some (p, q)) ∧ p ≠ 0 ∧
      (∀ d ∈ a.live, d.ptr ≠ p) ∧ Leaky kpb a b [⟨p, processSize⟩] q.pgd := by
  unfold createSpace
  rcases allocProcess_holds kpb hok with ⟨b, hb, hholds⟩ | ⟨b, p, pgd, hb, hp, hne, hs, -⟩
  · exact .inl ⟨b, [], by rw [hb]; rfl, hholds⟩
  rw [hb]
  simp only [Option.bind_eq_bind, Option.bind_some]
  obtain ⟨c, entry, hc, hext⟩ := hs.loadUserImage hk hal (le_refl _) (by decide) hfile
  rw [hc]
  cases entry with
  | none =>
    obtain ⟨d, hd, hholds⟩ := hext.space.processFree
    exact .inl ⟨d, [], by simp [hd], hholds⟩
  | some entry =>
    obtain ⟨d, q, ok, hd, hs', hq⟩ := hext.space.setupStack hk hal
      (p := { proc p with pgd := pgd, entry := entry }) rfl
    simp only [Option.bind_some, hd]
    cases ok with
    | false =>
      obtain ⟨L, hs'⟩ := hs'
      have hperm : (spaceBlocks kpb d pgd ++ [(⟨p, processSize⟩ : Client)]).Perm
          ((⟨p, processSize⟩ : Client) :: spaceBlocks kpb d pgd ++ []) := by
        rw [List.append_nil]
        exact List.perm_append_singleton _ _
      obtain ⟨e, he, hholds, -⟩ := Holds.processFree (hs'.perm hperm (.refl _))
      exact .inl ⟨e, L, by simp [he], hholds⟩
    | true => exact .inr ⟨d, p, q, rfl, hp, hne, hq ▸ hs'⟩

/-- `process_replace` of any image in the user's range; where it fails, what it mapped is lost. -/
theorem replaceSpace_leaky (hk : kpb < 4294967296) (hal : kpb % 1024 = 0) (hok : VmOk a)
    {file : Option FsFile} (hfile : InUserRange file) :
    (∃ b B L, replaceSpace kpb file a = some (b, none) ∧ Holds a b B L) ∨
    ∃ b pgd entry tmp, replaceSpace kpb file a = some (b, some (pgd, entry, tmp)) ∧
      Leaky kpb a b [] pgd := by
  unfold replaceSpace
  rcases (Holds.refl hok).procTable kpb with hr | ⟨b, pgd, hr, hpgd, hs, -⟩
  · exact .inl ⟨a, [], [], by rw [hr]; rfl, .refl hok⟩
  rw [hr]
  simp only [Option.bind_eq_bind, Option.bind_some, hpgd, if_false]
  obtain ⟨c, entry, hc, hext⟩ := hs.loadUserImage hk hal (le_refl _) (by decide) hfile
  rw [hc]
  cases entry with
  | none =>
    have hpgd' : (⟨pgd, procTableSize⟩ : Client) ∈ spaceBlocks kpb c pgd ++ [] :=
      List.mem_append_left _ (List.mem_cons_self ..)
    obtain ⟨d, hd, hholds, -⟩ := Holds.free hext.space hpgd'
    exact .inl ⟨d, _, _, by simp [show c.kfree pgd = _ from hd], hholds⟩
  | some entry =>
    obtain ⟨d, q, ok, hd, hs', hq⟩ := hext.space.setupStack hk hal
      (p := { (default : Process) with pgd := pgd }) rfl
    simp only [Option.bind_some, hd]
    cases ok with
    | false =>
      obtain ⟨L, hs'⟩ := hs'
      obtain ⟨e, f, he, hf, hholds, -⟩ := Space.free hs'
      exact .inl ⟨f, _, _, by simp [he, hf], hholds⟩
    | true => exact .inr ⟨d, pgd, entry, q, rfl, hs'⟩

end Whole

end Leg
