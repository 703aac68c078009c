import Leg.Memory.HeapContracts
import Leg.Process.RecycledPages

/-! Growing the stack of a live process by one page with `process_add_page`: what a call promises
to the process and to the allocators, and when it keeps that. The cached `stack_pt` is the table
of the slot only in a process that was not forked, and crossing into the next slot attaches a
fresh table without a look at what the slot holds, or at whether a page follows. -/
namespace Leg
open Runs Slots

/-- Where `process_add_page` maps the next page. -/
def Process.nextStackVa (p : Process) : ℕ := wsub procStackTop (u32 ((p.stackPages + 1) * pageSize))

/-- The next page lies in another slot than the last one. -/
def Process.Crosses (p : Process) : Prop :=
  p.stackPages > 0 ∧ p.nextStackVa >>> 20 ≠ wsub procStackTop (u32 (p.stackPages * pageSize)) >>> 20

instance (p : Process) : Decidable p.Crosses := inferInstanceAs (Decidable (_ ∧ _))

section Contract
variable (kpb : ℕ) (a b : Vm) (p q : Process)

/-- The next stack page lies in the user's range and is not mapped yet, as is the case while it
is above every mapping but those of the stack. -/
def StackRoom : Prop :=
  (p.stackPages + 1) * pageSize ≤ procStackTop ∧
    pageAt kpb a p.pgd (p.nextStackVa >>> 20) (l2Idx p.nextStackVa) = none

/-- A page that was free is mapped next, in the process's own table, and nothing else has
changed there. -/
structure Grown : Prop where
  process : q = { p with stackPt := q.stackPt, stackPages := p.stackPages + 1 }
  mapped : ∃ pa, a.pmm.Free pa ∧ mmPageIsAllocated b.pmm pa = true ∧
    pageAt kpb b p.pgd (p.nextStackVa >>> 20) (l2Idx p.nextStackVa) = some pa
  others : ∀ mb < procVaMb, ∀ i < l2Entries,
    mb ≠ p.nextStackVa >>> 20 ∨ i ≠ l2Idx p.nextStackVa →
      pageAt kpb b p.pgd mb i = pageAt kpb a p.pgd mb i

/-- Nothing has changed. -/
structure NotGrown : Prop where
  process : q = p
  translations : ∀ mb < procVaMb, ∀ i < l2Entries,
    pageAt kpb b p.pgd mb i = pageAt kpb a p.pgd mb i
  pages : b.pmm = a.pmm
  blocks : b.live.Perm a.live

/-- What `process_add_page` promises. -/
def GrowthContract : Prop :=
  ∃ b q ok, processAddPage kpb a p = some (b, q, ok) ∧
    if ok then Grown kpb a b p q else NotGrown kpb a b p q

/-- The heap has a block for an L2 table. -/
def TableRoom (s : KHeap) : Prop :=
  ∃ x, FirstFit s (alignUp (alignedTotal l2TableSize l2TableSize) kheapAlign) x

/-- When the promise is kept: within a slot, `stack_pt` is the table of that slot unless no page
is left; across slots, the new slot maps nothing and a page is left, unless no table is. -/
def GrowthWhen : Prop :=
  if p.Crosses then TableRoom a.heap → (∃ pa, a.pmm.Free pa) ∧
    ∀ i < l2Entries, pageAt kpb a p.pgd (p.nextStackVa >>> 20) i = none
  else (∃ pa, a.pmm.Free pa) → tableOf kpb a p.pgd (p.nextStackVa >>> 20) = some p.stackPt

end Contract

section Allocators
variable {s : KHeap} {live : List Client} {b : Vm}

/-- The request for an L2 table is served exactly when the heap has a block for it. -/
theorem kmallocAligned_table (h : HeapOk s live) :
    ¬ TableRoom s ∧ s.kmallocAligned l2TableSize l2TableSize = some (s, 0) ∨
      TableRoom s ∧ ∃ r, s.kmallocAligned l2TableSize l2TableSize = some r ∧ r.2 ≠ 0 := by
  have htotal : alignedTotal l2TableSize l2TableSize ≠ 0 := by decide
  have hraised : raisedAlign l2TableSize = 2 ^ 10 := by decide
  rcases kmalloc_fit h htotal with ⟨hr, hno⟩ | ⟨t, x, hr, hbase, hcap, hfit, hlow, hend⟩
  · left
    refine ⟨fun ⟨x, hx⟩ => hno x hx, ?_⟩
    unfold KHeap.kmallocAligned
    rw [if_neg (by decide)]
    dsimp only
    rw [show u32 (l2TableSize + (if l2TableSize < kheapAlign then kheapAlign else l2TableSize) +
      alignMetaBytes) = alignedTotal l2TableSize l2TableSize from rfl, hr]
    rfl
  · right
    refine ⟨⟨x, hfit⟩, ?_⟩
    have hraw : x + hdrBytes ≠ 0 := by
      unfold hdrBytes
      omega
    obtain ⟨m, hm⟩ := kmallocAligned_served (by decide) (by decide) (by decide) hr hraw
    refine ⟨_, hm, ?_⟩
    obtain ⟨blocks, hrep, -⟩ := h
    have hfits := hrep.fits
    obtain ⟨-, -, -, -, hsize, -⟩ := hfit
    have hneed : alignUp (alignedTotal l2TableSize l2TableSize) kheapAlign = 2056 := by decide
    rw [hneed] at hsize
    have hmeta : alignMetaBytes = 8 := rfl
    have hsum : u32 (x + hdrBytes + alignMetaBytes) = x + hdrBytes + alignMetaBytes :=
      u32_of_lt (by omega)
    dsimp only
    rw [hraised, hsum, ne_eq, alignUp_eq_zero_iff (by decide) (by omega)]
    omega

theorem mmuAllocL2Table_cases (h : VmOk b) :
    ¬ TableRoom b.heap ∧ b.mmuAllocL2Table = some (b, 0) ∨
      TableRoom b.heap ∧ ∃ c pt, b.mmuAllocL2Table = some (c, pt) ∧ pt ≠ 0 := by
  unfold Vm.mmuAllocL2Table Vm.kmallocAligned
  rcases kmallocAligned_table h.heap with ⟨hno, hr⟩ | ⟨hroom, r, hr, hne⟩
  · rw [hr]
    exact .inl ⟨hno, rfl⟩
  · rw [hr]
    exact .inr ⟨hroom, _, r.2, rfl, hne⟩

theorem pageAlloc_cases (h : VmOk b) :
    ¬ (∃ pa, b.pmm.Free pa) ∧ b.pageAlloc = (b, 0) ∨
      b.pageAlloc.2 ≠ 0 ∧ b.pmm.Free b.pageAlloc.2 ∧ b.pageAlloc.2 % pageSize = 0 ∧
        mmPageIsAllocated b.pageAlloc.1.pmm b.pageAlloc.2 = true := by
  rcases (Holds.refl h).pageAlloc with hnone | ⟨hne, hmod, -, hb⟩
  · left
    refine ⟨fun ⟨pa, hal, hrange, hclear⟩ => ?_, hnone⟩
    have hall := h.pmm.alloc_zero h.ram_pos (congrArg Prod.snd hnone)
    obtain ⟨i, hi, hpa, -⟩ := h.pmm.page_of_pa hal hrange
    have hset := (mmPageIsAllocated_iff h.pmm pa).mpr ⟨i, hi, hpa, hall i hi⟩
    rw [hclear] at hset
    exact absurd hset (by decide)
  · right
    have hmem : b.pageAlloc.2 ∈ [b.pageAlloc.2] := List.mem_cons_self ..
    obtain ⟨-, hal, hrange, hclear⟩ := hb.fresh_page h.pmm hmem
    refine ⟨hne, ⟨hal, hrange, hclear⟩, hmod, ?_⟩
    obtain ⟨j, hj, heq, -⟩ := hb.fresh _ hmem
    rw [mmPageIsAllocated_iff hb.ok.pmm, hb.region.totalPages, hb.region.ramBase]
    refine ⟨j, hj, heq, ?_⟩
    rw [hb.bits j hj, ← heq, decide_eq_true hmem, Bool.or_true]

end Allocators

section Tables
variable {kpb : ℕ} {a b c : Vm} {B : List Client} {pgd pt mb : ℕ}

theorem mmuAllocL2Table_takes (h : b.mmuAllocL2Table = some (c, pt)) (hpt : pt ≠ 0) :
    c.pmm = b.pmm ∧ c.l1 = b.l1 ∧ c.live = tableBlock pt :: b.live := by
  obtain ⟨⟨d, q⟩, hd, h⟩ := Option.map_eq_some_iff.mp h
  obtain ⟨⟨heap, r⟩, -, hd⟩ := Option.map_eq_some_iff.mp hd
  obtain ⟨rfl, rfl⟩ := Prod.mk.inj hd
  obtain ⟨rfl, rfl⟩ := Prod.mk.inj h
  dsimp only at hpt ⊢
  rw [if_pos hpt]
  refine ⟨rfl, rfl, ?_⟩
  simp only [Vm.clearL2, Vm.gain, hpt, if_false]
  rfl

theorem mmuAllocL2Table_setL1 (b : Vm) (pgd mb w : ℕ) : (b.setL1 pgd mb w).mmuAllocL2Table =
    b.mmuAllocL2Table.map fun r => (r.1.setL1 pgd mb w, r.2) := by
  unfold Vm.mmuAllocL2Table Vm.kmallocAligned
  rw [show (b.setL1 pgd mb w).heap = b.heap from rfl]
  cases b.heap.kmallocAligned l2TableSize l2TableSize with
  | none => rfl
  | some r =>
    simp only [Option.map_some]
    split <;> rfl

theorem mmuAttachL2_setL1 (b : Vm) (pgd mb w pt : ℕ) :
    (b.setL1 pgd mb w).mmuAttachL2 kpb pgd mb pt = b.mmuAttachL2 kpb pgd mb pt := by
  simp [Vm.mmuAttachL2, Vm.setL1]

theorem tableOf_detached (kpb : ℕ) (b : Vm) (pgd mb : ℕ) :
    tableOf kpb (b.setL1 pgd mb 0) pgd mb = none := by
  simp [tableOf, Vm.setL1, entryType, l1PageTable]

theorem tableOf_detached_ne (kpb : ℕ) (b : Vm) (pgd : ℕ) {j : ℕ} (hj : j ≠ mb) :
    tableOf kpb (b.setL1 pgd mb 0) pgd j = tableOf kpb b pgd j := by
  simp [tableOf, Vm.setL1, hj]

/-- A slot's table that is taken out, with all it maps, is held by nobody. -/
theorem Space.detach (h : Space kpb a b B pgd) (hmb : mb < procVaMb) :
    ∃ L LP, Holds a (b.setL1 pgd mb 0) ((spaceBlocks kpb (b.setL1 pgd mb 0) pgd ++ B) ++ L)
      (spacePages kpb (b.setL1 pgd mb 0) pgd ++ LP) := by
  have hset : Holds a (b.setL1 pgd mb 0) (spaceBlocks kpb b pgd ++ B) (spacePages kpb b pgd) :=
    Holds.setL1 h (d := ⟨pgd, procTableSize⟩)
      (List.mem_append_left _ (List.mem_cons_self ..)) _
  have hempty := tableOf_detached kpb b pgd mb
  have hother {j : ℕ} (hj : j ≠ mb) := tableOf_detached_ne kpb b pgd hj
  generalize hd : b.setL1 pgd mb 0 = d at *
  have hl2 : d.l2 = b.l2 := by
    rw [← hd]
    rfl
  cases ht : tableOf kpb b pgd mb with
  | none =>
    have htables : spaceTables kpb d pgd = spaceTables kpb b pgd := occupied_congr fun j _ => by
      by_cases hj : j = mb
      · rw [hj, hempty, ht]
      · exact hother hj
    refine ⟨[], [], hset.perm (.of_eq ?_) (.of_eq ?_)⟩
    · rw [List.append_nil, spaceBlocks, spaceBlocks, htables]
    · rw [List.append_nil, spacePages, spacePages, htables]
      exact List.flatMap_congr fun q _ => (tablePages_congr (by rw [hl2])).symm
  | some q =>
    have htables : (spaceTables kpb b pgd).Perm (q :: spaceTables kpb d pgd) :=
      occupied_fill hmb hempty ht fun j _ hj => (hother hj).symm
    refine ⟨[tableBlock q], tablePages d q, hset.perm ?_ ?_⟩
    · have hmap : (spaceBlocks kpb b pgd).Perm (tableBlock q :: spaceBlocks kpb d pgd) :=
        ((htables.map tableBlock).cons _).trans (.swap _ _ _)
      exact (hmap.append_right B).trans (List.perm_append_singleton _ _).symm
    · have hpages : spacePages kpb b pgd = (spaceTables kpb b pgd).flatMap (tablePages d) :=
        List.flatMap_congr fun q _ => tablePages_congr (by rw [hl2])
      rw [hpages]
      exact (htables.flatMap_right _).trans List.perm_append_comm

theorem Space.swapTable (hk : kpb < 4294967296) (hal : kpb % 1024 = 0) (h : Space kpb a b B pgd)
    (hmb : mb < procVaMb) (hr : b.mmuAllocL2Table = some (c, pt)) (hpt : pt ≠ 0) :
    (∃ a' L LP, Space kpb a' (c.mmuAttachL2 kpb pgd mb pt) B pgd ∧
      ∀ d B' P', Holds a' d B' P' → Holds a d (B' ++ L) (P' ++ LP)) ∧
    tableOf kpb (c.mmuAttachL2 kpb pgd mb pt) pgd mb = some pt ∧
    (∀ i, pageOf (c.mmuAttachL2 kpb pgd mb pt) pt i = none) ∧
    ∀ j < procVaMb, j ≠ mb → ∀ i,
      pageAt kpb (c.mmuAttachL2 kpb pgd mb pt) pgd j i = pageAt kpb b pgd j i := by
  obtain ⟨L, LP, hdetached⟩ := h.detach hmb
  obtain ⟨a', -, -, hspace, hback⟩ := hdetached.absorb
  rcases Space.newTable hk hal hspace hmb (tableOf_detached kpb b pgd mb) with
    hnone | ⟨c', pt', hr', -, hs, htable, -, hempty, hkept⟩
  · rw [mmuAllocL2Table_setL1, hr] at hnone
    exact absurd (Prod.mk.inj (Option.some.inj hnone)).2 hpt
  rw [mmuAllocL2Table_setL1, hr] at hr'
  obtain ⟨rfl, rfl⟩ := Prod.mk.inj (Option.some.inj hr')
  rw [mmuAttachL2_setL1] at hs htable hempty hkept
  refine ⟨⟨a', L, LP, hs, hback⟩, htable, hempty, fun j hj hne i => ?_⟩
  rw [hkept j hj i, pageAt, pageAt, tableOf_detached_ne kpb b pgd hne]
  rfl

end Tables

/-- The second half of `process_add_page`: the page, and its entry at `va`. -/
def mapStackPage (va : ℕ) (b : Vm) (p : Process) : Vm × Process × Bool :=
  if b.pageAlloc.2 = 0 then (b.pageAlloc.1, p, false)
  else (b.pageAlloc.1.mmuMapPage p.stackPt va b.pageAlloc.2,
    { p with stackPages := p.stackPages + 1 }, true)

/-- The two halves of `process_add_page`. -/
theorem processAddPage_eq (kpb : ℕ) (b : Vm) (p : Process) : processAddPage kpb b p =
    if p.Crosses then b.mmuAllocL2Table.map fun r =>
      if r.2 = 0 then (r.1, p, false)
      else mapStackPage p.nextStackVa (r.1.mmuAttachL2 kpb p.pgd (p.nextStackVa >>> 20) r.2)
        { p with stackPt := r.2 }
    else some (mapStackPage p.nextStackVa b p) := by
  have hsecond (c : Vm) (q : Process) : (if c.pageAlloc.2 = 0 then
      pure (c.pageAlloc.1, q, false) else pure (c.pageAlloc.1.mmuMapPage q.stackPt p.nextStackVa
        c.pageAlloc.2, { q with stackPages := q.stackPages + 1 }, true)) =
      some (mapStackPage p.nextStackVa c q) := by
    unfold mapStackPage
    split <;> rfl
  unfold processAddPage
  by_cases hc : p.Crosses
  · have hc' : p.stackPages > 0 ∧ wsub procStackTop (u32 ((p.stackPages + 1) * pageSize)) >>> 20 ≠
        wsub procStackTop (u32 (p.stackPages * pageSize)) >>> 20 := hc
    rw [if_pos hc, if_pos hc']
    simp only [Option.bind_eq_bind]
    cases b.mmuAllocL2Table with
    | none => rfl
    | some r =>
      obtain ⟨c, pt⟩ := r
      simp only [Option.bind_some, Option.map_some]
      by_cases hpt : pt = 0
      · simp [hpt]
      · simp only [hpt, if_false, not_true]
        exact hsecond _ _
  · have hc' : ¬ (p.stackPages > 0 ∧
        wsub procStackTop (u32 ((p.stackPages + 1) * pageSize)) >>> 20 ≠
          wsub procStackTop (u32 (p.stackPages * pageSize)) >>> 20) := hc
    rw [if_neg hc, if_neg hc']
    simp only [Option.bind_eq_bind, Option.bind_some, not_true, if_false]
    exact hsecond _ _

section Steps
variable {kpb : ℕ} {a b c : Vm} {B : List Client} {p : Process}

theorem mapStackPage_cases (hok : VmOk b) (va : ℕ) (p : Process) :
    ¬ (∃ pa, b.pmm.Free pa) ∧ mapStackPage va b p = (b, p, false) ∨
      ∃ c pa, mapStackPage va b p = (c, { p with stackPages := p.stackPages + 1 }, true) ∧
        b.pmm.Free pa ∧ mmPageIsAllocated c.pmm pa = true ∧ c.l1 = b.l1 ∧
        pageOf c p.stackPt (l2Idx va) = some pa ∧
        ∀ q i, q ≠ p.stackPt ∨ i ≠ l2Idx va → pageOf c q i = pageOf b q i := by
  unfold mapStackPage
  rcases pageAlloc_cases hok with ⟨hno, hr⟩ | ⟨hne, hfree, hmod, hset⟩
  · rw [hr]
    exact .inl ⟨hno, rfl⟩
  right
  rw [if_neg hne]
  refine ⟨_, b.pageAlloc.2, rfl, hfree, hset, rfl, ?_, fun q i hqi => ?_⟩
  · simp [pageOf, Vm.mmuMapPage, Vm.setL2, entryType_l2PageEntry, l2Address_l2PageEntry hmod]
  · by_cases hq : q = p.stackPt
    · subst hq
      simp [pageOf, Vm.mmuMapPage, Vm.setL2, hqi.resolve_left (fun h => h rfl), Vm.pageAlloc]
    · simp [pageOf, Vm.mmuMapPage, Vm.setL2, hq, Vm.pageAlloc]

theorem StackRoom.bounds (h : StackRoom kpb b p) :
    p.nextStackVa >>> 20 < procVaMb ∧ l2Idx p.nextStackVa < l2Entries := by
  have hle := h.1
  refine ⟨?_, by rw [l2Idx_eq]; exact Nat.mod_lt _ (by decide)⟩
  rw [Nat.shiftRight_eq_div_pow]
  unfold Process.nextStackVa wsub u32 procStackTop pageSize procVaMb at *
  omega

/-- Within a slot the promise is kept exactly when `stack_pt` is the slot's table or no page is
left. -/
theorem growthContract_within (h : Space kpb a b B p.pgd) (hc : ¬ p.Crosses)
    (hroom : StackRoom kpb b p) : GrowthContract kpb b p ↔ GrowthWhen kpb b p := by
  unfold GrowthContract GrowthWhen
  rw [processAddPage_eq, if_neg hc, if_neg hc]
  rcases mapStackPage_cases h.ok p.nextStackVa p with
    ⟨hno, hr⟩ | ⟨c, pa, hr, hfree, hset, hl1, hnew, hother⟩
  · rw [hr]
    refine iff_of_true ⟨b, p, false, rfl, ?_⟩ fun hpage => absurd hpage hno
    exact ⟨rfl, fun _ _ _ _ => rfl, rfl, .refl _⟩
  rw [hr]
  have htable (j : ℕ) : tableOf kpb c p.pgd j = tableOf kpb b p.pgd j :=
    tableOf_congr (by rw [hl1]) j
  have hempty := hroom.2
  constructor
  · rintro ⟨c', q, ok, heq, hgrown⟩ -
    simp only [Option.some.injEq, Prod.mk.injEq] at heq
    obtain ⟨rfl, rfl, rfl⟩ := heq
    obtain ⟨pa', -, -, hat⟩ := hgrown.mapped
    -- in another table the entry is still the one that was empty
    rw [pageAt, htable] at hat
    rw [pageAt] at hempty
    cases ht : tableOf kpb b p.pgd (p.nextStackVa >>> 20) with
    | none => simp [ht] at hat
    | some pt =>
      rw [ht, Option.bind_some] at hat hempty
      by_contra hne
      rw [hother pt _ (.inl fun heq => hne (congrArg some heq)), hempty] at hat
      exact absurd hat (by simp)
  · intro hwhen
    have ht := hwhen ⟨pa, hfree⟩
    refine ⟨c, _, true, rfl, rfl, ⟨pa, hfree, hset, ?_⟩, fun mb hmb i hi hji => ?_⟩
    · rw [pageAt, htable, ht, Option.bind_some, hnew]
    · rw [pageAt, pageAt, htable]
      cases hq : tableOf kpb b p.pgd mb with
      | none => rfl
      | some q =>
        refine hother q i (hji.imp (fun hne heq => hne ?_) id)
        exact occupied_inj h.tables_nodup hmb hroom.bounds.1 (heq ▸ hq) ht

/-- Across slots it is kept exactly when no table is left, or a page is and the slot was empty. -/
theorem growthContract_across (hk : kpb < 4294967296) (hal : kpb % 1024 = 0)
    (h : Space kpb a b B p.pgd) (hc : p.Crosses) (hroom : StackRoom kpb b p) :
    GrowthContract kpb b p ↔ GrowthWhen kpb b p := by
  obtain ⟨hslot, hidx⟩ := hroom.bounds
  unfold GrowthContract GrowthWhen
  rw [processAddPage_eq, if_pos hc, if_pos hc]
  rcases mmuAllocL2Table_cases h.ok with ⟨hno, hr⟩ | ⟨htable, c, pt, hr, hpt⟩
  · rw [hr]
    refine iff_of_true ⟨b, p, false, rfl, ?_⟩ fun hyes => absurd hyes hno
    exact ⟨rfl, fun _ _ _ _ => rfl, rfl, .refl _⟩
  obtain ⟨⟨a', L, LP, hs, -⟩, ht, hempty, hkept⟩ := h.swapTable hk hal hslot hr hpt
  obtain ⟨hpmm, -, hlive⟩ := mmuAllocL2Table_takes hr hpt
  rw [hr, Option.map_some, if_neg hpt]
  generalize hd : c.mmuAttachL2 kpb p.pgd (p.nextStackVa >>> 20) pt = d at *
  have hdpmm : d.pmm = b.pmm := by
    rw [← hd]
    exact hpmm
  have hdlive : d.live = tableBlock pt :: b.live := by
    rw [← hd]
    exact hlive
  rcases mapStackPage_cases hs.ok p.nextStackVa { p with stackPt := pt } with
    ⟨hno, hr'⟩ | ⟨e, pa, hr', hfree, hset, hl1, hnew, hother⟩
  · -- the table stays attached though there is no page for it
    rw [hr']
    rw [hdpmm] at hno
    refine iff_of_false (fun ⟨b', q, ok, heq, hkeep⟩ => ?_) fun hwhen => hno (hwhen htable).1
    simp only [Option.some.injEq, Prod.mk.injEq] at heq
    obtain ⟨rfl, rfl, rfl⟩ := heq
    have hlen := (show NotGrown kpb b d p _ from hkeep).blocks.length_eq
    rw [hdlive, List.length_cons] at hlen
    omega
  rw [hr']
  rw [hdpmm] at hfree
  have htables (j : ℕ) : tableOf kpb e p.pgd j = tableOf kpb d p.pgd j :=
    tableOf_congr (by rw [hl1]) j
  have hslotAt (i : ℕ) (hi : i ≠ l2Idx p.nextStackVa) :
      pageAt kpb e p.pgd (p.nextStackVa >>> 20) i = none := by
    rw [pageAt, htables, ht, Option.bind_some, hother pt i (.inr hi), hempty]
  have hrest (mb : ℕ) (hmb : mb < procVaMb) (hne : mb ≠ p.nextStackVa >>> 20) (i : ℕ) :
      pageAt kpb e p.pgd mb i = pageAt kpb b p.pgd mb i := by
    rw [← hkept mb hmb hne i, pageAt, pageAt, htables]
    cases hq : tableOf kpb d p.pgd mb with
    | none => rfl
    | some q =>
      refine hother q i (.inl fun heq => hne ?_)
      exact occupied_inj hs.tables_nodup hmb hslot ((show q = pt from heq) ▸ hq) ht
  constructor
  · rintro ⟨b', q, ok, heq, hgrown⟩ -
    simp only [Option.some.injEq, Prod.mk.injEq] at heq
    obtain ⟨rfl, rfl, rfl⟩ := heq
    refine ⟨⟨pa, hfree⟩, fun i hi => ?_⟩
    by_cases heq : i = l2Idx p.nextStackVa
    · rw [heq]
      exact hroom.2
    · rw [← hgrown.others _ hslot i hi (.inr heq)]
      exact hslotAt i heq
  · intro hwhen
    obtain ⟨-, hnone⟩ := hwhen htable
    refine ⟨e, _, true, rfl, rfl, ⟨pa, hfree, hset, ?_⟩, fun mb hmb i hi hji => ?_⟩
    · rw [pageAt, htables, ht, Option.bind_some]
      exact hnew
    · by_cases hm : mb = p.nextStackVa >>> 20
      · subst hm
        rw [hslotAt i (hji.resolve_left fun hne => hne rfl), hnone i hi]
      · exact hrest mb hmb hm i

theorem growthContract_iff (hk : kpb < 4294967296) (hal : kpb % 1024 = 0)
    (h : Space kpb a b B p.pgd) (hroom : StackRoom kpb b p) :
    GrowthContract kpb b p ↔ GrowthWhen kpb b p := by
  by_cases hc : p.Crosses
  · exact growthContract_across hk hal h hc hroom
  · exact growthContract_within h hc hroom

theorem mapStackPage_pgd (va : ℕ) (b : Vm) (p : Process) :
    (mapStackPage va b p).2.1.pgd = p.pgd := by
  unfold mapStackPage
  split <;> rfl

theorem Space.mapStackPage {va mb : ℕ} (h : Space kpb a b B p.pgd) (hmb : mb < procVaMb)
    (ht : tableOf kpb b p.pgd mb = some p.stackPt) (hidx : l2Idx va < l2Entries)
    (hfree : pageOf b p.stackPt (l2Idx va) = none) :
    Space kpb a (mapStackPage va b p).1 B p.pgd := by
  unfold Leg.mapStackPage
  rcases h.mapPage hmb ht hidx hfree rfl with hr | ⟨hne, hs, -⟩
  · rw [hr]
    exact h
  · rw [if_neg hne]
    exact hs

/-- `b` is `a` with the address space `pgd` besides, and perhaps with what nobody holds. -/
def SpaceBeside (kpb : ℕ) (a b : Vm) (pgd : ℕ) : Prop :=
  ∃ a' L LP, Space kpb a' b [] pgd ∧ ∀ d B' P', Holds a' d B' P' → Holds a d (B' ++ L) (P' ++ LP)

theorem Space.beside (h : Space kpb a b [] pgd) : SpaceBeside kpb a b pgd :=
  ⟨a, [], [], h, fun d B' P' hd => by rwa [List.append_nil, List.append_nil]⟩

/-- Growing the stack keeps the space whole. A table that was pushed out of its slot is held by
nobody afterwards. -/
theorem Space.grow (hk : kpb < 4294967296) (hal : kpb % 1024 = 0) (h : Space kpb a b [] p.pgd)
    (hroom : StackRoom kpb b p) (hwhen : GrowthWhen kpb b p) :
    ∃ c q ok, processAddPage kpb b p = some (c, q, ok) ∧ q.pgd = p.pgd ∧
      SpaceBeside kpb a c p.pgd := by
  obtain ⟨hslot, hidx⟩ := hroom.bounds
  unfold GrowthWhen at hwhen
  rw [processAddPage_eq]
  by_cases hc : p.Crosses
  · rw [if_pos hc]
    rcases mmuAllocL2Table_cases h.ok with ⟨-, hr⟩ | ⟨-, c, pt, hr, hpt⟩
    · rw [hr]
      exact ⟨b, p, false, rfl, rfl, h.beside⟩
    obtain ⟨⟨a', L, LP, hs, hback⟩, ht, hempty, -⟩ := h.swapTable hk hal hslot hr hpt
    rw [hr, Option.map_some, if_neg hpt]
    refine ⟨_, _, _, rfl, mapStackPage_pgd .., a', L, LP, ?_, hback⟩
    exact Space.mapStackPage (p := { p with stackPt := pt }) hs hslot ht hidx (hempty _)
  · rw [if_neg hc] at hwhen ⊢
    refine ⟨_, _, _, rfl, mapStackPage_pgd .., ?_⟩
    change SpaceBeside kpb a (Leg.mapStackPage p.nextStackVa b p).1 p.pgd
    by_cases hpage : ∃ pa, b.pmm.Free pa
    · have ht := hwhen hpage
      have hfree := hroom.2
      rw [pageAt, ht, Option.bind_some] at hfree
      exact (h.mapStackPage hslot ht hidx hfree).beside
    · have hnone := (mapStackPage_cases h.ok p.nextStackVa p).resolve_right (by
        rintro ⟨-, pa, -, hfree, -⟩
        exact hpage ⟨pa, hfree⟩)
      rw [hnone.2]
      exact h.beside

end Steps

section Owners
variable {kpb : ℕ} {boot base b c : Vm} {s : System} {p : ℕ}

theorem procBlocks_split (kpb : ℕ) {ps : List ℕ} (hp : p ∈ ps) (vm : Vm) (proc : ℕ → Process) :
    (ps.flatMap (procBlocks kpb vm proc)).Perm (spaceBlocks kpb vm (proc p).pgd ++
      ⟨p, processSize⟩ :: (ps.erase p).flatMap (procBlocks kpb vm proc)) :=
  ((List.perm_cons_erase hp).flatMap_right _).trans List.perm_middle.symm

theorem procPages_split (kpb : ℕ) {ps : List ℕ} (hp : p ∈ ps) (vm : Vm) (proc : ℕ → Process) :
    (ps.flatMap (procPages kpb vm proc)).Perm (spacePages kpb vm (proc p).pgd ++
      (ps.erase p).flatMap (procPages kpb vm proc)) := (List.perm_cons_erase hp).flatMap_right _

theorem Holds.space_kept {a : Vm} {B B' : List Client} {P P' : List ℕ} (h : Holds a b B P)
    (h' : Holds a c B' P') {pgd : ℕ} (hb : ∀ d ∈ spaceBlocks kpb b pgd, d ∈ a.live) :
    spaceBlocks kpb c pgd = spaceBlocks kpb b pgd ∧
      spacePages kpb c pgd = spacePages kpb b pgd := by
  have hpgd := hb ⟨pgd, procTableSize⟩ (List.mem_cons_self ..)
  have h1 : c.l1 pgd = b.l1 pgd := (h'.l1 _ hpgd).trans (h.l1 _ hpgd).symm
  refine ⟨spaceBlocks_congr h1, spacePages_congr h1 fun pt hpt => ?_⟩
  have hlive := hb (tableBlock pt) (List.mem_cons_of_mem _ (List.mem_map_of_mem hpt))
  exact (h'.l2 _ hlive).trans (h.l2 _ hlive).symm

theorem OwnedOk.space (h : OwnedOk kpb base s) (hp : p ∈ s.procs) :
    ∃ a, Space kpb a s.vm [] (s.sched.proc p).pgd := by
  obtain ⟨a, -, -, hspace, -⟩ :=
    (h.holds.perm (procBlocks_split kpb hp ..) (procPages_split kpb hp ..)).absorb
  exact ⟨a, by unfold Space; rwa [List.append_nil]⟩

/-- A change inside one process's address space. -/
theorem OwnedOk.respace (hkept : PagesKept boot base) (h : OwnedOk kpb base s) (hp : p ∈ s.procs)
    (hc : ∀ a, Space kpb a s.vm [] (s.sched.proc p).pgd →
      SpaceBeside kpb a c (s.sched.proc p).pgd) {t : Sched} (hprocs : t.procs = s.sched.procs)
    (hpgd : ∀ q, (t.proc q).pgd = (s.sched.proc q).pgd) (run : Bool) :
    Owned kpb boot ⟨c, t, s.procs, run⟩ := by
  -- what the others hold counts to the earlier state while the space changes
  obtain ⟨a, hlive, -, hspace, hback⟩ :=
    (h.holds.perm (procBlocks_split kpb hp ..) (procPages_split kpb hp ..)).absorb
  obtain ⟨a', L, LP, hs, hbeside⟩ := hc a (by unfold Space; rwa [List.append_nil])
  have hafter := hbeside c _ _ hs
  have hall := hback c _ _ hafter
  have hlisted (q : ℕ) (hq : q ∈ s.procs.erase p) (d : Client)
      (hd : d ∈ spaceBlocks kpb s.vm (s.sched.proc q).pgd) : d ∈ a.live := by
    rw [hlive]
    refine List.mem_append_left _ (List.mem_cons_of_mem _ (List.mem_flatMap.mpr ⟨q, hq, ?_⟩))
    exact List.mem_cons_of_mem _ hd
  have hsame (q : ℕ) (hq : q ∈ s.procs.erase p) := hspace.space_kept hafter (hlisted q hq)
  have hb : (s.procs.erase p).flatMap (procBlocks kpb s.vm s.sched.proc) =
      (s.procs.erase p).flatMap (procBlocks kpb c t.proc) := List.flatMap_congr fun q hq => by
    rw [procBlocks, procBlocks, hpgd, (hsame q hq).1]
  have hg : (s.procs.erase p).flatMap (procPages kpb s.vm s.sched.proc) =
      (s.procs.erase p).flatMap (procPages kpb c t.proc) := List.flatMap_congr fun q hq => by
    rw [procPages, procPages, hpgd, (hsame q hq).2]
  rw [hb, hg] at hall
  have hlist : Holds base c (s.procs.flatMap (procBlocks kpb c t.proc) ++ L)
      (s.procs.flatMap (procPages kpb c t.proc) ++ LP) := by
    have hb' := procBlocks_split kpb hp c t.proc
    have hg' := procPages_split kpb hp c t.proc
    rw [hpgd] at hb' hg'
    rw [List.append_nil, List.append_assoc, List.append_assoc] at hall
    refine hall.perm ?_ ?_
    · refine (List.Perm.append_left _ List.perm_append_comm).trans ?_
      rw [← List.append_assoc]
      exact hb'.symm.append_right L
    · refine (List.Perm.append_left _ List.perm_append_comm).trans ?_
      rw [← List.append_assoc]
      exact hg'.symm.append_right LP
  obtain ⟨base', -, hkept', hholds, -⟩ := hlist.absorb
  refine ⟨base', hkept.trans hkept', hholds, by rw [hprocs]; exact h.listed, fun i j => ?_⟩
  rw [hprocs]
  exact h.distinct i j

end Owners

/-- A call, the yield to the next process, or the growth of a live process's stack. -/
inductive GrowOp where
  | table (op : TableOp)
  | grow (p : ℕ)

section Runs
variable (kpb : ℕ) (s : System)

def System.growNext : GrowOp → Option System
  | .table op => s.tableNext kpb op
  | .grow p => (processAddPage kpb s.vm (s.sched.proc p)).map fun r =>
    { s with vm := r.1, sched := s.sched.write p fun _ => r.2.1 }

/-- The stack of any live process may grow, as long as there is room below it. -/
def System.TakesGrow : GrowOp → Prop
  | .table op => s.Takes op
  | .grow p => p ∈ s.procs ∧ StackRoom kpb s.vm (s.sched.proc p)

def GrowStep (op : GrowOp) (t : System) : Prop :=
  s.running = true ∧ s.TakesGrow kpb op ∧ s.growNext kpb op = some t

/-- The stack grows only where the promise is kept. -/
def GrowsWell : GrowOp → Prop
  | .table _ => True
  | .grow p => GrowthWhen kpb s.vm (s.sched.proc p)

end Runs

section Growths
variable {kpb : ℕ} {boot : Vm} {s t : System}

/-- What every step keeps. -/
theorem growStep_owned (hk : kpb < 4294967296) (hal : kpb % 1024 = 0) {op : GrowOp}
    (h : Owned kpb boot s ∧ CurrentOk s) (hok : GrowsWell kpb s op) (hs : GrowStep kpb s op t) :
    Owned kpb boot t ∧ CurrentOk t := by
  obtain ⟨hrun, htakes, hnext⟩ := hs
  cases op with
  | table op =>
    have hstep := tableNext_stepped hk hal h.1 h.2 htakes hnext
    exact ⟨hstep.owned, hstep.current⟩
  | grow p =>
    obtain ⟨hp, hroom⟩ := htakes
    obtain ⟨⟨base, hkept, howned⟩, hcur⟩ := h
    obtain ⟨⟨c, q, ok⟩, hr, rfl⟩ := Option.map_eq_some_iff.mp hnext
    have hgrow (a : Vm) (hs : Space kpb a s.vm [] (s.sched.proc p).pgd) :
        q.pgd = (s.sched.proc p).pgd ∧ SpaceBeside kpb a c (s.sched.proc p).pgd := by
      obtain ⟨c', q', ok', hr', hpgd, hbeside⟩ := hs.grow hk hal hroom hok
      rw [hr, Option.some.injEq, Prod.mk.injEq, Prod.mk.injEq] at hr'
      obtain ⟨rfl, rfl, -⟩ := hr'
      exact ⟨hpgd, hbeside⟩
    obtain ⟨a, hs⟩ := howned.space hp
    refine ⟨howned.respace hkept hp (fun a hs => (hgrow a hs).2)
      (t := s.sched.write p fun _ => q) rfl
      (fun x => ?_) s.running, hcur⟩
    by_cases hx : x = p
    · rw [hx, Sched.write_proc_self]
      exact (hgrow a hs).1
    · rw [Sched.write_proc_of_ne _ _ hx]

/-- In every state of a run whose growths all met the condition, the next growth of any live
process keeps the promise exactly when it meets it, too. -/
theorem stack_growth_iff {c : BootConfig} {boot : System} {ops : List GrowOp}
    (hb : boot.Boot c) (hcur : boot.sched.currentProc = 0)
    (hr : Run (Meeting (GrowsWell c.kernelPhysBase) (GrowStep c.kernelPhysBase)) boot ops s)
    {p : ℕ} (hp : p ∈ s.procs) (hroom : StackRoom c.kernelPhysBase s.vm (s.sched.proc p)) :
    GrowthContract c.kernelPhysBase s.vm (s.sched.proc p) ↔
      GrowthWhen c.kernelPhysBase s.vm (s.sched.proc p) := by
  obtain ⟨hk, hal⟩ := c.kernelPhysBase_bounds
  have hinv := hr.preserves (I := fun u => Owned c.kernelPhysBase boot.vm u ∧ CurrentOk u)
    (fun _ _ _ h hs => growStep_owned hk hal h hs.1 hs.2)
    ⟨⟨_, .refl _, boot_owned hb⟩, fun _ h0 => absurd hcur h0⟩
  obtain ⟨⟨base, -, howned⟩, -⟩ := hinv
  obtain ⟨a, hs⟩ := howned.space hp
  exact growthContract_iff hk hal hs hroom

end Growths

section Runs
variable {kpb : ℕ} {s t : System}

instance (kpb : ℕ) (b : Vm) (p : Process) : Decidable (StackRoom kpb b p) :=
  inferInstanceAs (Decidable (_ ∧ _))

/-- A test for the steps of a run that grows stacks within a slot. -/
def System.admitsGrow (kpb : ℕ) (s : System) : GrowOp → Bool
  | .table op => s.admitsStep op
  | .grow p => s.running && decide (p ∈ s.procs ∧ StackRoom kpb s.vm (s.sched.proc p) ∧
      ¬ (s.sched.proc p).Crosses ∧
        tableOf kpb s.vm (s.sched.proc p).pgd ((s.sched.proc p).nextStackVa >>> 20) =
          some (s.sched.proc p).stackPt)

theorem growthWhen_within {b : Vm} {p : Process} (hc : ¬ p.Crosses)
    (ht : tableOf kpb b p.pgd (p.nextStackVa >>> 20) = some p.stackPt) : GrowthWhen kpb b p := by
  unfold GrowthWhen
  rw [if_neg hc]
  exact fun _ => ht

theorem meeting_of_next {op : GrowOp} (hok : s.admitsGrow kpb op = true)
    (hn : s.growNext kpb op = some t) : Meeting (GrowsWell kpb) (GrowStep kpb) s op t := by
  cases op with
  | table op =>
    have hcounted : (⟨s, 0⟩ : Counted).next kpb op =
        some ⟨t, 0 + if t.sched.nextPid = s.sched.nextPid then 0 else 1⟩ := by
      rw [Counted.next, show s.tableNext kpb op = some t from hn]
      rfl
    obtain ⟨hrun, htakes, -⟩ := countedStep_of_next (m := ⟨s, 0⟩) hok hcounted
    exact ⟨trivial, hrun, htakes, hn⟩
  | grow p =>
    obtain ⟨hrun, htest⟩ := Bool.and_eq_true_iff.mp hok
    obtain ⟨hp, hroom, hc, ht⟩ := of_decide_eq_true htest
    exact ⟨growthWhen_within hc ht, hrun, ⟨hp, hroom⟩, hn⟩

theorem growRun_of_execute (ops : List GrowOp) (good : System → Bool)
    (h : ((highRamConfig.init fun _ => 0).bind fun g =>
      execute (System.admitsGrow highRamConfig.kernelPhysBase)
        (System.growNext highRamConfig.kernelPhysBase) (systemOf highRamConfig g) ops).any good =
      true) :
    ∃ boot s, System.Boot highRamConfig boot ∧ boot.sched.currentProc = 0 ∧
      Run (Meeting (GrowsWell highRamConfig.kernelPhysBase)
        (GrowStep highRamConfig.kernelPhysBase)) boot ops s ∧ good s = true := by
  obtain ⟨s, hs, hgood⟩ := (Option.any_eq_true _ _).mp h
  obtain ⟨g, hg, hexec⟩ := Option.bind_eq_some_iff.mp hs
  have hboot : (systemOf highRamConfig g).Boot highRamConfig :=
    ⟨by decide +kernel, ⟨_, g, [], ⟨g, []⟩, hg, .nil _, rfl⟩,
      ⟨_, [], _, .nil _, rfl, rfl⟩, fun _ => rfl, rfl⟩
  exact ⟨_, s, hboot, rfl, Run.of_execute (fun _ _ _ => meeting_of_next) hexec, hgood⟩

end Runs

/-- The first process has grown its stack once; the next growth keeps the promise as well. -/
theorem stack_growth_second : ∃ boot s, System.Boot highRamConfig boot ∧
    Run (Meeting (GrowsWell highRamConfig.kernelPhysBase) (GrowStep highRamConfig.kernelPhysBase))
      boot [.table (.call (.create (some initFile))), .grow 0xC0104000] s ∧
    (s.sched.proc 0xC0104000).stackPages = 5 ∧
    GrowthContract highRamConfig.kernelPhysBase s.vm (s.sched.proc 0xC0104000) := by
  obtain ⟨boot, s, hboot, hcur, hr, hgood⟩ := growRun_of_execute
    [.table (.call (.create (some initFile))), .grow 0xC0104000]
    (fun s => s.admitsGrow highRamConfig.kernelPhysBase (.grow 0xC0104000) &&
      decide ((s.sched.proc 0xC0104000).stackPages = 5)) (by decide +kernel)
  obtain ⟨hadmits, hfive⟩ := Bool.and_eq_true_iff.mp hgood
  obtain ⟨-, htest⟩ := Bool.and_eq_true_iff.mp hadmits
  obtain ⟨hp, hroom, hc, ht⟩ := of_decide_eq_true htest
  exact ⟨boot, s, hboot, hr, of_decide_eq_true hfive,
    (stack_growth_iff hboot hcur hr hp hroom).mpr (growthWhen_within hc ht)⟩

/-- A forked process has no `stack_pt`, so that the page goes into a table at address 0. -/
theorem forked_stack_lost : ¬ ∀ (c : BootConfig) (boot s : System) (ops : List GrowOp) (p : ℕ),
    boot.Boot c → boot.sched.currentProc = 0 →
    Run (GrowStep c.kernelPhysBase) boot ops s → p ∈ s.procs →
    StackRoom c.kernelPhysBase s.vm (s.sched.proc p) →
      GrowthContract c.kernelPhysBase s.vm (s.sched.proc p) := by
  intro h
  obtain ⟨boot, s, hboot, hcur, hr, hgood⟩ := growRun_of_execute
    [.table (.call (.create (some initFile))), .table (.call (.exec 0xC0104000)),
      .table (.call (.fork 0 0 0))]
    (fun s =>
      let p := s.sched.proc 0xC0108000
      decide (0xC0108000 ∈ s.procs ∧ StackRoom highRamConfig.kernelPhysBase s.vm p) &&
        (processAddPage highRamConfig.kernelPhysBase s.vm p).any fun r => r.2.2 &&
          decide (pageAt highRamConfig.kernelPhysBase r.1 p.pgd (p.nextStackVa >>> 20)
            (l2Idx p.nextStackVa) = none)) (by decide +kernel)
  obtain ⟨hlive, hlost⟩ := Bool.and_eq_true_iff.mp hgood
  obtain ⟨hp, hroom⟩ := of_decide_eq_true hlive
  obtain ⟨b, q, ok, hadd, hkeep⟩ := h _ _ _ _ _ hboot hcur (hr.mono fun _ _ _ hs => hs.2) hp hroom
  rw [hadd, Option.any_some, Bool.and_eq_true_iff] at hlost
  obtain ⟨hok, hnone⟩ := hlost
  obtain rfl : ok = true := hok
  obtain ⟨pa, -, -, hat⟩ := (show Grown _ _ _ _ _ from hkeep).mapped
  rw [of_decide_eq_true hnone] at hat
  exact absurd hat (by simp)

end Leg
