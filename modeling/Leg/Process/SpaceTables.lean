import Leg.Process.Holdings

/-! The tables and pages of one address space as lists, and what attaching a table, mapping a
page and freeing the space do to them. -/
namespace Leg
open Slots

section Entries

theorem entryType_l1TableEntry (phys : ℕ) : entryType (l1TableEntry phys) = l1PageTable := by
  have h := Nat.two_pow_add_eq_or_of_lt (i := 10) (b := l1PageTable) (by decide) (phys >>> 10)
  unfold entryType l1TableEntry
  rw [Nat.shiftLeft_eq, Nat.mul_comm, ← h, show (3 : ℕ) = 2 ^ 2 - 1 from rfl,
    Nat.and_two_pow_sub_one_eq_mod]
  unfold l1PageTable
  omega

theorem l1Address_l1TableEntry {phys : ℕ} (h : phys % 1024 = 0) :
    l1Address (l1TableEntry phys) = phys := by
  have hor := Nat.two_pow_add_eq_or_of_lt (i := 10) (b := l1PageTable) (by decide) (phys >>> 10)
  unfold l1Address l1TableEntry
  rw [Nat.shiftLeft_eq (phys >>> 10), Nat.mul_comm, ← hor]
  simp only [Nat.shiftLeft_eq, Nat.shiftRight_eq_div_pow]
  unfold l1PageTable
  omega

theorem entryType_l2PageEntry (pa : ℕ) : entryType (l2PageEntry pa) = l2SmallPage := by
  have h := Nat.two_pow_add_eq_or_of_lt (i := 12) (b := 0x7E) (by decide) (pa >>> 12)
  unfold entryType l2PageEntry
  rw [Nat.shiftLeft_eq, Nat.mul_comm, ← h, show (3 : ℕ) = 2 ^ 2 - 1 from rfl,
    Nat.and_two_pow_sub_one_eq_mod]
  unfold l2SmallPage
  omega

theorem l2Address_l2PageEntry {pa : ℕ} (h : pa % pageSize = 0) :
    l2Address (l2PageEntry pa) = pa := by
  have hor := Nat.two_pow_add_eq_or_of_lt (i := 12) (b := 0x7E) (by decide) (pa >>> 12)
  unfold l2Address l2PageEntry
  rw [Nat.shiftLeft_eq (pa >>> 12), Nat.mul_comm, ← hor]
  simp only [Nat.shiftLeft_eq, Nat.shiftRight_eq_div_pow]
  unfold pageSize at h
  omega

theorem physToVirt_virtToPhys {kpb va : ℕ} (hk : kpb < 4294967296) (hlo : kernelVa ≤ va)
    (hhi : va < 4294967296) : physToVirt kpb (virtToPhys kpb va) = va := by
  unfold physToVirt virtToPhys
  rw [if_pos hlo]
  unfold wsub u32 kernelVa at *
  omega

theorem virtToPhys_aligned {kpb va : ℕ} (hk : kpb % 1024 = 0) (hva : va % 1024 = 0)
    (hlo : kernelVa ≤ va) : virtToPhys kpb va % 1024 = 0 := by
  unfold virtToPhys
  rw [if_pos hlo]
  unfold u32 kernelVa at *
  omega

end Entries

/-- The L2 table attached at a slot, as the code reads it back. -/
def tableOf (kpb : ℕ) (vm : Vm) (pgd mb : ℕ) : Option ℕ :=
  if entryType (vm.l1 pgd mb) = l1PageTable then some (physToVirt kpb (l1Address (vm.l1 pgd mb)))
  else none

/-- The page mapped by an L2 entry. -/
def pageOf (vm : Vm) (pt i : ℕ) : Option ℕ :=
  if entryType (vm.l2 pt i) = l2SmallPage then some (l2Address (vm.l2 pt i)) else none

/-- The page mapped at entry `i` of slot `mb`. -/
def pageAt (kpb : ℕ) (vm : Vm) (pgd mb i : ℕ) : Option ℕ :=
  (tableOf kpb vm pgd mb).bind fun pt => pageOf vm pt i

def spaceTables (kpb : ℕ) (vm : Vm) (pgd : ℕ) : List ℕ := occupied procVaMb (tableOf kpb vm pgd)

def tablePages (vm : Vm) (pt : ℕ) : List ℕ := occupied l2Entries (pageOf vm pt)

/-- All pages an address space maps, one for each mapping. -/
def spacePages (kpb : ℕ) (vm : Vm) (pgd : ℕ) : List ℕ :=
  (spaceTables kpb vm pgd).flatMap (tablePages vm)

def tableBlock (pt : ℕ) : Client := ⟨pt, l2TableSize⟩

/-- The heap blocks of an address space: its L1 table and its L2 tables. -/
def spaceBlocks (kpb : ℕ) (vm : Vm) (pgd : ℕ) : List Client :=
  ⟨pgd, procTableSize⟩ :: (spaceTables kpb vm pgd).map tableBlock

/-- `b` is `a` with the address space `pgd` and the blocks `B` besides. -/
def Space (kpb : ℕ) (a b : Vm) (B : List Client) (pgd : ℕ) : Prop :=
  Holds a b (spaceBlocks kpb b pgd ++ B) (spacePages kpb b pgd)

section Congr
variable {kpb : ℕ} {a b : Vm} {pgd : ℕ}

theorem tableOf_congr (h : b.l1 pgd = a.l1 pgd) (mb : ℕ) :
    tableOf kpb b pgd mb = tableOf kpb a pgd mb := by
  simp only [tableOf, h]

theorem spaceTables_congr (h : b.l1 pgd = a.l1 pgd) :
    spaceTables kpb b pgd = spaceTables kpb a pgd :=
  occupied_congr fun mb _ => tableOf_congr h mb

theorem tablePages_congr {pt : ℕ} (h : b.l2 pt = a.l2 pt) : tablePages b pt = tablePages a pt :=
  occupied_congr fun i _ => by simp only [pageOf, h]

theorem spaceBlocks_congr (h : b.l1 pgd = a.l1 pgd) :
    spaceBlocks kpb b pgd = spaceBlocks kpb a pgd := by
  simp only [spaceBlocks, spaceTables_congr h]

theorem spacePages_congr (h : b.l1 pgd = a.l1 pgd)
    (h2 : ∀ pt ∈ spaceTables kpb a pgd, b.l2 pt = a.l2 pt) :
    spacePages kpb b pgd = spacePages kpb a pgd := by
  unfold spacePages
  rw [spaceTables_congr h]
  exact List.flatMap_congr fun pt hpt => tablePages_congr (h2 pt hpt)

theorem mem_spaceTables {mb pt : ℕ} (hmb : mb < procVaMb) (h : tableOf kpb a pgd mb = some pt) :
    pt ∈ spaceTables kpb a pgd := mem_occupied.mpr ⟨mb, hmb, h⟩

theorem Holds.space_congr {a b : Vm} {B : List Client} {P : List ℕ} (h : Holds a b B P)
    (hb : ∀ c ∈ spaceBlocks kpb a pgd, c ∈ a.live) :
    spaceBlocks kpb b pgd = spaceBlocks kpb a pgd ∧
      spacePages kpb b pgd = spacePages kpb a pgd := by
  have h1 : b.l1 pgd = a.l1 pgd := h.l1 _ (hb ⟨pgd, procTableSize⟩ (List.mem_cons_self ..))
  refine ⟨spaceBlocks_congr h1, spacePages_congr h1 fun pt hpt => ?_⟩
  exact h.l2 _ (hb (tableBlock pt) (List.mem_cons_of_mem _ (List.mem_map_of_mem hpt)))

end Congr

section Build
variable {kpb : ℕ} {a b : Vm} {B : List Client} {pgd : ℕ}

theorem Space.tables_nodup (h : Space kpb a b B pgd) : (spaceTables kpb b pgd).Nodup := by
  have := h.ptrs_nodup
  rw [List.append_assoc, spaceBlocks, List.cons_append, List.map_cons, List.nodup_cons,
    List.map_append, List.map_map] at this
  have htables := (List.nodup_append.mp this.2).1
  simpa [Function.comp_def, tableBlock] using htables

theorem Space.table_live (h : Space kpb a b B pgd) {pt : ℕ} (hpt : pt ∈ spaceTables kpb b pgd) :
    tableBlock pt ∈ b.live :=
  h.live.mem_iff.mpr (List.mem_append_left _ (List.mem_append_left _
    (List.mem_cons_of_mem _ (List.mem_map_of_mem hpt))))

/-- A new, empty table at a free slot. -/
theorem Space.newTable (hk : kpb < 4294967296) (hal : kpb % 1024 = 0) (h : Space kpb a b B pgd)
    {mb : ℕ} (hmb : mb < procVaMb) (hfree : tableOf kpb b pgd mb = none) :
    b.mmuAllocL2Table = some (b, 0) ∨ ∃ b' pt, b.mmuAllocL2Table = some (b', pt) ∧ pt ≠ 0 ∧
      (Space kpb a (b'.mmuAttachL2 kpb pgd mb pt) B pgd) ∧
      tableOf kpb (b'.mmuAttachL2 kpb pgd mb pt) pgd mb = some pt ∧
      (∀ j, j ≠ mb → tableOf kpb (b'.mmuAttachL2 kpb pgd mb pt) pgd j = tableOf kpb b pgd j) ∧
      (∀ i, pageOf (b'.mmuAttachL2 kpb pgd mb pt) pt i = none) ∧
      ∀ j < procVaMb, ∀ i,
        pageAt kpb (b'.mmuAttachL2 kpb pgd mb pt) pgd j i = pageAt kpb b pgd j i := by
  have halloc := h.alloc (k := 10) (by decide : l2TableSize ≤ kheapSize) (by decide) (by decide)
  rcases halloc with hr | ⟨b', pt, hr, hpt, hb', hl1, hl2, hpa, hlo, hhi, hne⟩
  · left
    rw [Vm.mmuAllocL2Table, show b.kmallocAligned l2TableSize l2TableSize = _ from hr]
    rfl
  · right
    refine ⟨b'.clearL2 pt, pt, ?_, hpt, ?_⟩
    · rw [Vm.mmuAllocL2Table, show b.kmallocAligned l2TableSize l2TableSize = _ from hr]
      simp [hpt]
    generalize hc : (b'.clearL2 pt).mmuAttachL2 kpb pgd mb pt = c
    have hphys := virtToPhys_aligned hal hpa hlo
    have htable : tableOf kpb c pgd mb = some pt := by
      subst hc
      simp [tableOf, Vm.mmuAttachL2, Vm.setL1, entryType_l1TableEntry, l1Address_l1TableEntry hphys,
        physToVirt_virtToPhys hk hlo hhi]
    have hother : ∀ j, j ≠ mb → tableOf kpb c pgd j = tableOf kpb b pgd j := by
      intro j hj
      subst hc
      simp [tableOf, Vm.mmuAttachL2, Vm.setL1, Vm.clearL2, hj, hl1]
    have hempty : ∀ i, pageOf c pt i = none := by
      intro i
      subst hc
      simp [pageOf, Vm.mmuAttachL2, Vm.setL1, Vm.clearL2, entryType, l2SmallPage]
    have hold : ∀ q, q ≠ pt → c.l2 q = b.l2 q := by
      intro q hq
      subst hc
      simp [Vm.mmuAttachL2, Vm.setL1, Vm.clearL2, hq, hl2]
    have hfresh : ∀ q ∈ spaceTables kpb b pgd, q ≠ pt := fun q hq => hne _ (h.table_live hq)
    have htables : (spaceTables kpb c pgd).Perm (pt :: spaceTables kpb b pgd) :=
      occupied_fill hmb hfree htable fun j _ hj => hother j hj
    have hpages : (spacePages kpb c pgd).Perm (spacePages kpb b pgd) := by
      refine (htables.flatMap_right _).trans ?_
      rw [List.flatMap_cons, show tablePages c pt = [] from occupied_none fun i _ => hempty i,
        List.nil_append, spacePages,
        List.flatMap_congr fun q hq => tablePages_congr (hold q (hfresh q hq))]
    have hblocks : (tableBlock pt :: (spaceBlocks kpb b pgd ++ B)).Perm
        (spaceBlocks kpb c pgd ++ B) := by
      have hmap := (htables.map tableBlock).symm
      refine ((List.Perm.swap _ _ _).trans ?_).append_right B
      exact hmap.cons _
    refine ⟨?_, htable, hother, hempty, fun j hjm i => ?_⟩
    · have hset : Holds a c (tableBlock pt :: (spaceBlocks kpb b pgd ++ B))
          (spacePages kpb b pgd) := by
        subst hc
        have hclear := hb'.setL2 (d := tableBlock pt) (List.mem_cons_self ..) fun _ => 0
        refine hclear.setL1 (d := ⟨pgd, procTableSize⟩) ?_ _
        exact List.mem_cons_of_mem _ (List.mem_append_left _ (List.mem_cons_self ..))
      exact hset.perm hblocks hpages.symm
    · unfold pageAt
      by_cases hj : j = mb
      · rw [hj, htable, hfree]
        exact hempty i
      · rw [hother j hj]
        cases ht : tableOf kpb b pgd j with
        | none => rfl
        | some q =>
          simp only [Option.bind_some, pageOf, hold q (hfresh q (mem_spaceTables hjm ht))]

/-- A new page at a free entry of one of the space's tables. -/
theorem Space.mapPage (h : Space kpb a b B pgd) {mb pt i va : ℕ} (hmb : mb < procVaMb)
    (ht : tableOf kpb b pgd mb = some pt) (hi : i < l2Entries) (hfree : pageOf b pt i = none)
    (hidx : l2Idx va = i) : b.pageAlloc = (b, 0) ∨
      let c := b.pageAlloc.1.mmuMapPage pt va b.pageAlloc.2
      b.pageAlloc.2 ≠ 0 ∧ Space kpb a c B pgd ∧ (∀ j, tableOf kpb c pgd j = tableOf kpb b pgd j) ∧
        (∀ q i', q ≠ pt ∨ i' ≠ i → pageOf c q i' = pageOf b q i') ∧
        ∀ j < procVaMb, ∀ i', j ≠ mb ∨ i' ≠ i → pageAt kpb c pgd j i' = pageAt kpb b pgd j i' := by
  subst hidx
  refine h.pageAlloc.imp id fun ⟨hne, hal, hlt, hb'⟩ => ?_
  generalize hc : b.pageAlloc.1.mmuMapPage pt va b.pageAlloc.2 = c
  have hmem := mem_spaceTables hmb ht
  have hl1 : c.l1 = b.l1 := by
    subst hc
    rfl
  have htable (j : ℕ) : tableOf kpb c pgd j = tableOf kpb b pgd j := tableOf_congr (by rw [hl1]) j
  have hnew : pageOf c pt (l2Idx va) = some b.pageAlloc.2 := by
    subst hc
    simp [pageOf, Vm.mmuMapPage, Vm.setL2, entryType_l2PageEntry, l2Address_l2PageEntry hal]
  have hother (q i' : ℕ) (hqi : q ≠ pt ∨ i' ≠ l2Idx va) : pageOf c q i' = pageOf b q i' := by
    subst hc
    by_cases hq : q = pt
    · subst hq
      simp [pageOf, Vm.mmuMapPage, Vm.setL2, hqi.resolve_left (fun h => h rfl), Vm.pageAlloc]
    · simp [pageOf, Vm.mmuMapPage, Vm.setL2, hq, Vm.pageAlloc]
  have hpt : (tablePages c pt).Perm (b.pageAlloc.2 :: tablePages b pt) :=
    occupied_fill hi hfree hnew fun j _ hj => hother pt j (.inr hj)
  have htables : spaceTables kpb c pgd = spaceTables kpb b pgd := spaceTables_congr (by rw [hl1])
  have hpages : (spacePages kpb c pgd).Perm (b.pageAlloc.2 :: spacePages kpb b pgd) := by
    unfold spacePages
    rw [htables]
    exact flatMap_gain h.tables_nodup hmem hpt fun q _ hq =>
      occupied_congr fun j _ => hother q j (.inl hq)
  refine ⟨hne, ?_, htable, hother, fun j hj i' hji => ?_⟩
  · have hset : Holds a c (spaceBlocks kpb b pgd ++ B) (b.pageAlloc.2 :: spacePages kpb b pgd) := by
      subst hc
      refine hb'.setL2 (d := tableBlock pt) (List.mem_append_left _ ?_) _
      exact List.mem_cons_of_mem _ (List.mem_map_of_mem hmem)
    rw [← spaceBlocks_congr (show c.l1 pgd = b.l1 pgd by rw [hl1])] at hset
    exact hset.perm (.refl _) hpages.symm
  · unfold pageAt
    rw [htable]
    cases hq : tableOf kpb b pgd j with
    | none => rfl
    | some q =>
      refine hother q i' (hji.imp (fun hne heq => hne ?_) id)
      exact occupied_inj h.tables_nodup hj hmb (heq ▸ hq) ht

end Build

section Free
variable {kpb : ℕ} {a b : Vm} {B : List Client} {P : List ℕ} {pgd : ℕ}

theorem Holds.freePages {pt : ℕ} (h : Holds a b B (tablePages b pt ++ P)) :
    Holds a (freePages pt b) B P ∧ (freePages pt b).l1 = b.l1 ∧ (freePages pt b).l2 = b.l2 ∧
      (Leg.freePages pt b).live = b.live := by
  unfold Leg.freePages
  unfold tablePages occupied at h
  generalize List.range l2Entries = is at h ⊢
  induction is generalizing b with
  | nil => exact ⟨h, rfl, rfl, rfl⟩
  | cons i is ih =>
    rw [List.filterMap_cons] at h
    rw [List.foldl_cons]
    by_cases hi : entryType (b.l2 pt i) = l2SmallPage
    · simp only [pageOf, hi, if_true] at h ⊢
      have hfree := h.pageFree (List.mem_cons_self ..)
      rw [List.cons_append, List.erase_cons_head] at hfree
      exact ih hfree
    · simp only [pageOf, hi, if_false] at h ⊢
      exact ih h

/-- All tables of a space go back with their pages; its L1 table stays. -/
theorem Holds.freeTables (h : Holds a b ((spaceTables kpb b pgd).map tableBlock ++ B)
    (spacePages kpb b pgd ++ P)) :
    ∃ c, freeTables kpb pgd b = some c ∧ Holds a c B P ∧ c.l1 = b.l1 ∧ c.l2 = b.l2 := by
  unfold Leg.freeTables
  unfold spacePages spaceTables occupied at h
  generalize List.range procVaMb = mbs at h ⊢
  induction mbs generalizing b with
  | nil => exact ⟨b, rfl, h, rfl, rfl⟩
  | cons mb mbs ih =>
    rw [List.filterMap_cons] at h
    rw [List.foldlM_cons]
    by_cases hmb : entryType (b.l1 pgd mb) = l1PageTable
    · simp only [tableOf, hmb, if_true, ne_eq, not_true, if_false] at h ⊢
      rw [List.flatMap_cons, List.append_assoc] at h
      obtain ⟨hpages, h1, h2, -⟩ := h.freePages
      generalize hb1 : Leg.freePages (physToVirt kpb (l1Address (b.l1 pgd mb))) b = b1 at *
      obtain ⟨b2, hfree, hb2, h1', h2'⟩ := hpages.free (List.mem_cons_self ..)
      rw [List.map_cons, List.cons_append, List.erase_cons_head] at hb2
      have htable : tableOf kpb b2 pgd = tableOf kpb b pgd := by
        funext j
        exact tableOf_congr (by rw [h1', h1]) j
      have hcontent : tablePages b2 = tablePages b := by
        funext q
        exact tablePages_congr (by rw [h2', h2])
      change Holds a b2 ((mbs.filterMap (tableOf kpb b pgd)).map tableBlock ++ B)
        ((mbs.filterMap (tableOf kpb b pgd)).flatMap (tablePages b) ++ P) at hb2
      rw [← htable, ← hcontent] at hb2
      obtain ⟨c, hc, hholds, hc1, hc2⟩ := ih hb2
      refine ⟨c, ?_, hholds, hc1.trans (h1'.trans h1), hc2.trans (h2'.trans h2)⟩
      rw [show b1.kfree (physToVirt kpb (l1Address (b.l1 pgd mb))) = some b2 from hfree]
      exact hc
    · simp only [tableOf, hmb, if_false, ne_eq, not_false_eq_true, if_true] at h ⊢
      exact ih h

theorem Space.free (h : Holds a b (spaceBlocks kpb b pgd ++ B) (spacePages kpb b pgd ++ P)) :
    ∃ c d, Leg.freeTables kpb pgd b = some c ∧ c.kfree pgd = some d ∧ Holds a d B P ∧
      d.l1 = b.l1 ∧ d.l2 = b.l2 := by
  have hlast : (spaceBlocks kpb b pgd ++ B).Perm
      ((spaceTables kpb b pgd).map tableBlock ++ (⟨pgd, procTableSize⟩ :: B)) := by
    rw [spaceBlocks, List.cons_append]
    exact List.perm_middle.symm
  obtain ⟨c, hc, hholds, h1, h2⟩ := (h.perm hlast (.refl _)).freeTables
  obtain ⟨d, hd, hd', h1', h2'⟩ := hholds.free (List.mem_cons_self ..)
  rw [List.erase_cons_head] at hd'
  exact ⟨c, d, hc, hd, hd', h1'.trans h1, h2'.trans h2⟩

theorem Holds.processFree {p : ℕ} (h : Holds a b (⟨p, processSize⟩ :: spaceBlocks kpb b pgd ++ B)
    (spacePages kpb b pgd ++ P)) :
    ∃ c, Leg.processFree kpb p pgd b = some c ∧ Holds a c B P ∧ c.l1 = b.l1 ∧ c.l2 = b.l2 := by
  have hlast : (⟨p, processSize⟩ :: spaceBlocks kpb b pgd ++ B).Perm
      (spaceBlocks kpb b pgd ++ (⟨p, processSize⟩ :: B)) := List.perm_middle.symm
  obtain ⟨c, d, hc, hd, hholds, h1, h2⟩ := Space.free (h.perm hlast (.refl _))
  obtain ⟨e, he, hholds', h1', h2'⟩ := hholds.free (List.mem_cons_self ..)
  rw [List.erase_cons_head] at hholds'
  refine ⟨e, ?_, hholds', h1'.trans h1, h2'.trans h2⟩
  simp only [Leg.processFree, hc, hd, Option.bind_eq_bind, Option.bind_some]
  exact he

end Free

end Leg
