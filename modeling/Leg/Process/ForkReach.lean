import Leg.Process.Translation

/-! Whether `process_fork` reaches the pages it copies: the kernel's window onto physical memory
against the pages that the allocator hands out. -/
namespace Leg
open Runs

/-- What `map_sections` finds: where the device table lies, what its own table held, and the
second-level tables by their physical address. -/
structure FoundTables where
  devicesPt : ℕ
  l1 : ℕ → ℕ
  l2 : ℕ → ℕ → ℕ

def inKernelWindow (va : ℕ) : Prop :=
  kernelVa ≤ va ∧ va < kernelVa + windowSections * sectionSize

namespace BootConfig
variable (c : BootConfig)

/-- What the kernel translation table makes of `va`. -/
def kernelWalk (f : FoundTables) (va : ℕ) : Option ℕ :=
  walk (mapSections c.dtb f.devicesPt f.l1) f.l2 va

/-- Through `phys_to_virt` the kernel reads and writes the page at `pa`. -/
structure Reaches (f : FoundTables) (pa : ℕ) : Prop where
  window : inKernelWindow (physToVirt c.kernelPhysBase pa)
  back : virtToPhys c.kernelPhysBase (physToVirt c.kernelPhysBase pa) = pa
  mapped : ∀ b < pageSize, c.kernelWalk f (physToVirt c.kernelPhysBase pa + b) = some (pa + b)

/-- The slots at which the device tree is mapped where it lies. -/
def OnTree (v : ℕ) : Prop := u32 c.dtb >>> mbShift ≤ v ∧ v < u32 c.dtb >>> mbShift + 4

instance (v : ℕ) : Decidable (c.OnTree v) := inferInstanceAs (Decidable (_ ∧ _))

/-- `pa` is in the four megabytes from the kernel's base on, and the mapping of the device tree
does not lie over its slot with another address. -/
def Windowed (pa : ℕ) : Prop :=
  wsub pa c.kernelPhysBase < windowSections * sectionSize ∧
    (c.kernelPhysBase = kernelVa ∨ ¬ c.OnTree (physToVirt c.kernelPhysBase pa >>> mbShift))

/-- All of RAM that `mm_init` leaves to the allocator is in the window. -/
def RamWindowed : Prop := ∀ pa, pa % pageSize = 0 → c.ramBase ≤ pa → pa < c.ramEnd → pa ≠ 0 →
  ¬ Reserved c.bitmapPa c.bitmapBytes c.heapPa pa → c.Windowed pa

theorem kernelPhysBase_section : c.kernelPhysBase % sectionSize = 0 := by
  have hmask : (c.dtb &&& bnot 0xFFFFF) % 2 ^ 20 = 0 := by
    rw [Nat.and_mod_two_pow]
    exact Nat.and_zero _
  unfold BootConfig.kernelPhysBase u32 kphysOffset sectionSize
  omega

theorem mapSections_window (f : FoundTables) {v : ℕ} (hlo : 0xC00 ≤ v) (hhi : v < 0xC04) :
    mapSections c.dtb f.devicesPt f.l1 v = l1SectionEntry
      (if c.OnTree v then v else c.kernelPhysBase >>> mbShift + (v - 0xC00)) := by
  have hslot : kernelVa >>> mbShift = 0xC00 := by decide
  unfold mapSections
  rw [Function.update_of_ne (by omega), mapSectionRow_apply, mapSectionRow_apply, hslot]
  by_cases h : c.OnTree v
  · refine (if_pos h).trans ?_
    rw [if_pos h, Nat.add_sub_cancel' h.1]
  · refine (if_neg h).trans ?_
    rw [if_neg h, if_pos ⟨hlo, hhi⟩]
    rfl

/-- In the window an address is mapped as `virt_to_phys` says, but for the device tree's slots. -/
theorem kernelWalk_window (f : FoundTables) {va : ℕ} (h : inKernelWindow va) :
    c.kernelWalk f va =
      some (if c.OnTree (va >>> mbShift) then va else virtToPhys c.kernelPhysBase va) := by
  obtain ⟨hlo, hhi⟩ := h
  have hslot : va >>> mbShift = va / sectionSize := Nat.shiftRight_eq_div_pow va 20
  have hbase : c.kernelPhysBase >>> mbShift = c.kernelPhysBase / sectionSize :=
    Nat.shiftRight_eq_div_pow _ 20
  have hk := c.kernelPhysBase_section
  have hlt : c.kernelPhysBase < 4294967296 := u32_lt _
  unfold kernelVa at hlo
  unfold kernelVa windowSections sectionSize at hhi
  have hrange : 0xC00 ≤ va >>> mbShift ∧ va >>> mbShift < 0xC04 := by
    rw [hslot]
    unfold sectionSize
    omega
  unfold kernelWalk
  rw [walk_section f.l2 (c.mapSections_window f hrange.1 hrange.2), hbase]
  split
  · refine congrArg some ?_
    rw [hslot]
    unfold sectionSize
    omega
  · refine congrArg some ?_
    rw [hslot]
    unfold virtToPhys u32 kernelVa
    rw [if_pos hlo]
    unfold sectionSize at *
    omega

/-- The pages the kernel reaches are those of its window. -/
theorem reaches_iff (f : FoundTables) {pa : ℕ} (hal : pa % pageSize = 0) (hpa : pa < 4294967296) :
    c.Reaches f pa ↔ c.Windowed pa := by
  have hlt : c.kernelPhysBase < 4294967296 := u32_lt _
  have hks := c.kernelPhysBase_section
  have hva : physToVirt c.kernelPhysBase pa = u32 (wsub pa c.kernelPhysBase + kernelVa) := rfl
  constructor
  · rintro ⟨⟨hlo, hhi⟩, hback, hmapped⟩
    refine ⟨?_, or_iff_not_imp_right.mpr fun hon => ?_⟩
    · rw [hva] at hlo hhi
      unfold wsub u32 kernelVa windowSections sectionSize at *
      omega
    · -- the tree is mapped where it lies
      have h0 := hmapped 0 (by decide)
      rw [Nat.add_zero, c.kernelWalk_window f ⟨hlo, hhi⟩, if_pos (not_not.mp hon), hva] at h0
      have heq := Option.some.inj h0
      unfold wsub u32 kernelVa at heq
      unfold kernelVa
      omega
  · rintro ⟨hd, hon⟩
    have hwin : ∀ b < pageSize, inKernelWindow (physToVirt c.kernelPhysBase pa + b) := by
      intro b hb
      unfold inKernelWindow
      rw [hva]
      unfold wsub u32 kernelVa windowSections sectionSize pageSize at *
      omega
    have hback : ∀ b < pageSize,
        virtToPhys c.kernelPhysBase (physToVirt c.kernelPhysBase pa + b) = pa + b := by
      intro b hb
      unfold virtToPhys
      rw [if_pos (hwin b hb).1, hva]
      unfold wsub u32 kernelVa windowSections sectionSize pageSize at *
      omega
    have hfirst := hwin 0 (by decide)
    have hback0 := hback 0 (by decide)
    rw [Nat.add_zero] at hfirst hback0
    refine ⟨hfirst, hback0, fun b hb => ?_⟩
    rw [c.kernelWalk_window f (hwin b hb), hback b hb]
    refine congrArg some (ite_eq_right_iff.mpr fun htree => ?_)
    rcases hon with heq | hon
    · have hsame : physToVirt c.kernelPhysBase pa = pa := by
        unfold wsub u32 kernelVa at hva
        unfold kernelVa at heq
        omega
      rw [hsame]
    · refine absurd ?_ hon
      have hsame : (physToVirt c.kernelPhysBase pa + b) >>> mbShift =
          physToVirt c.kernelPhysBase pa >>> mbShift := by
        rw [hva]
        simp only [Nat.shiftRight_eq_div_pow]
        unfold wsub u32 kernelVa windowSections sectionSize pageSize mbShift at *
        omega
      rwa [hsame] at htree

end BootConfig

/-- A free names pages that were handed out and not given back. -/
def FreesHeld (held : List ℕ) : PageOp → Prop
  | .free pa => pa ∈ held
  | .freeN pa n => ∀ i < n, pa + i * pageSize ∈ held
  | _ => True

/-- A call of the page allocator whose clients free only what they hold. -/
def HolderStep (t : Tracked) (op : PageOp) (u : Tracked) : Prop :=
  FreesHeld t.held op ∧ PageStep t op u

/-- Beside the pages `mm_init` reserved, which stay so, only those it left free are held. -/
structure HandedOut (g : Pmm) (t : Tracked) : Prop where
  pmm : PmmOk t.pmm
  region : SameRegion g t.pmm
  kept : ∀ j, bmTest g.bitmap j = true → bmTest t.pmm.bitmap j = true
  held : ∀ pa ∈ t.held, ∃ j < g.totalPages,
    pa = g.ramBase + j * pageSize ∧ bmTest g.bitmap j = false

section Runs
variable {c : BootConfig} {g : Pmm} {t u : Tracked} {memory : ℕ → ℕ}

theorem HandedOut.allocN (h : HandedOut g t) (n : ℕ) : HandedOut g
    ⟨(mmPageAllocN t.pmm n).1, if (mmPageAllocN t.pmm n).2 = 0 then t.held
      else t.held ++ pagesFrom (mmPageAllocN t.pmm n).2 n⟩ := by
  rcases mmPageAllocN_cases h.pmm n with ⟨hnone, -⟩ | ⟨-, hok, htaken⟩
  · rw [hnone]
    exact h
  · have ⟨hreg, idx, hpa, hfit, hfree, hbits⟩ := htaken
    refine ⟨hok, h.region.trans hreg, fun j hj => by rw [hbits, h.kept j hj, Bool.true_or],
      fun pa hmem => ?_⟩
    dsimp only at hmem
    split at hmem
    next => exact h.held pa hmem
    next =>
      rcases List.mem_append.mp hmem with hmem | hmem
      · exact h.held pa hmem
      · exact htaken.fresh h.region h.kept hmem

theorem HandedOut.cleared (h : HandedOut g t) {r : Pmm} {back : List ℕ} (hok : PmmOk r)
    (hreg : SameRegion t.pmm r) (hbits : ∀ j, bmTest t.pmm.bitmap j = true →
      bmTest r.bitmap j = true ∨ t.pmm.ramBase + j * pageSize ∈ t.held) :
    HandedOut g ⟨r, stillHeld t.held back⟩ := by
  refine ⟨hok, h.region.trans hreg, fun j hj => ?_,
    fun pa hpa => h.held pa (List.mem_of_mem_filter hpa)⟩
  rcases hbits j (h.kept j hj) with hset | hheld
  · exact hset
  · obtain ⟨i, -, heq, hclear⟩ := h.held _ hheld
    have hij : j = i := by
      rw [h.region.ramBase] at heq
      unfold pageSize at heq
      omega
    rw [← hij, hj] at hclear
    exact absurd hclear (by decide)

theorem HandedOut.free (h : HandedOut g t) {pa : ℕ} (hpa : pa ∈ t.held) :
    HandedOut g (t.next (.free pa)) := by
  rcases mmPageFree_cases h.pmm pa with ⟨hg, -⟩ | ⟨-, hok, hreg, idx, -, hidx, -, hbits⟩
  · exact h.cleared (hg.symm ▸ h.pmm) (hg.symm ▸ .refl _) fun j hj => .inl (by rw [hg, hj])
  · refine h.cleared hok hreg fun j hj => ?_
    by_cases hji : j = idx
    · exact .inr (by rw [hji, ← hidx]; exact hpa)
    · exact .inl (by rw [hbits, hj, decide_eq_true hji, Bool.true_and])

theorem HandedOut.freeN (h : HandedOut g t) {pa n : ℕ}
    (hpa : ∀ i < n, pa + i * pageSize ∈ t.held) : HandedOut g (t.next (.freeN pa n)) := by
  simp only [Tracked.next, mmPageFreeN]
  by_cases ha : paAligned pa
  swap
  · rw [if_pos ha]
    exact h.cleared h.pmm (.refl _) fun j hj => .inl hj
  by_cases hr : t.pmm.paInRange pa
  swap
  · rw [if_neg (not_not.mpr ha), if_pos hr]
    exact h.cleared h.pmm (.refl _) fun j hj => .inl hj
  rw [if_neg (not_not.mpr ha), if_neg (not_not.mpr hr)]
  obtain ⟨idx, hi, hidx, hto⟩ := h.pmm.page_of_pa ha hr
  have hfit : idx + 0 + n ≤ t.pmm.totalPages := by
    rcases Nat.eq_zero_or_pos n with h0 | hn
    · omega
    · obtain ⟨j, hj, heq, -⟩ := h.held _ (hpa (n - 1) (by omega))
      rw [hidx, h.region.ramBase] at heq
      rw [h.region.totalPages]
      unfold pageSize at heq
      omega
  obtain ⟨k, hk, hok, hreg, -, -, hbits⟩ := freeLoop_spec n h.pmm hfit
  rw [← hidx] at hok hreg hbits
  have hcleared (j : ℕ) (hj : bmTest t.pmm.bitmap j = true) :
      bmTest (t.pmm.freeLoop pa 0 n).1.bitmap j = true ∨
        t.pmm.ramBase + j * pageSize ∈ t.held := by
    by_cases hin : idx + 0 ≤ j ∧ j < idx + 0 + k
    · have := hpa (j - idx) (by omega)
      rw [hidx, Nat.add_assoc, ← Nat.add_mul, Nat.add_sub_cancel' (by omega)] at this
      exact .inr this
    · exact .inl (by rw [hbits, hj, decide_eq_true hin, Bool.true_and])
  split
  · have hlow := Pmm.lowerHint_region (t.pmm.freeLoop pa 0 n).1 (t.pmm.paToIdx pa)
    refine h.cleared (hok.lowerHint (by rw [hto, hreg.totalPages]; exact hi)) (hreg.trans hlow)
      fun j hj => ?_
    rw [Pmm.lowerHint_bitmap]
    exact hcleared j hj
  · exact h.cleared hok hreg hcleared

theorem holderStep_handedOut {op : PageOp} (h : HandedOut g t) (hs : HolderStep t op u) :
    HandedOut g u := by
  obtain ⟨hheld, -, rfl⟩ := hs
  cases op with
  | alloc =>
    simp only [Tracked.next, mmPageAlloc_eq]
    exact h.allocN 1
  | allocN n => exact h.allocN n
  | free pa => exact h.free hheld
  | freeN pa n => exact h.freeN hheld

/-- Pages are handed out until none is free, so every free page is the next one at some point. -/
theorem exists_run_hands (n : ℕ) (hok : PmmOk t.pmm) (hn : t.pmm.freeSet.card = n) {j : ℕ}
    (hj : j ∈ t.pmm.freeSet) : ∃ ops u, Run HolderStep t ops u ∧
      (mmPageAlloc u.pmm).2 = t.pmm.ramBase + j * pageSize := by
  induction n generalizing t with
  | zero =>
    rw [Finset.card_eq_zero.mp hn] at hj
    exact absurd hj (Finset.notMem_empty j)
  | succ n ih =>
    rcases mmPageAllocN_cases hok 1 with ⟨-, hempty⟩ | ⟨-, hok', hreg, idx, hpa, hfit, hfree, hbits⟩
    · rw [hempty rfl] at hj
      exact absurd hj (Finset.notMem_empty j)
    by_cases hji : j = idx
    · exact ⟨[], t, .nil t, by rw [mmPageAlloc_eq, hpa, hji]⟩
    have hnext : (t.next .alloc).pmm = (mmPageAllocN t.pmm 1).1 := by
      rw [← mmPageAlloc_eq]
      rfl
    have hidx : idx ∈ t.pmm.freeSet :=
      Bitmap.mem_clear.mpr ⟨by omega, hfree idx (le_refl _) (by omega)⟩
    have herase : (t.next .alloc).pmm.freeSet = t.pmm.freeSet.erase idx := by
      rw [hnext]
      ext i
      have hone : (idx ≤ i ∧ i < idx + 1) ↔ i = idx := by omega
      simp only [Pmm.freeSet, Bitmap.mem_clear, Finset.mem_erase, hbits, hreg.totalPages,
        Bool.or_eq_false_iff, decide_eq_false_iff_not, hone]
      tauto
    obtain ⟨ops, u, hrun, hu⟩ := ih (t := t.next .alloc) (hnext ▸ hok')
      (by rw [herase, Finset.card_erase_of_mem hidx, hn]; rfl)
      (by rw [herase]; exact Finset.mem_erase.mpr ⟨hji, hj⟩)
    rw [hnext, hreg.ramBase] at hu
    exact ⟨.alloc :: ops, u, .cons ⟨trivial, trivial, rfl⟩ hrun, hu⟩

/-- After any calls since `mm_init`, `process_fork` reaches the page it is given: this holds
exactly if all RAM left to the allocator is in the kernel's window. -/
theorem holderRun_reaches_iff (f : FoundTables) (hi : c.init memory = some g) :
    (∀ ops t, Run HolderStep ⟨g, []⟩ ops t → (mmPageAlloc t.pmm).2 ≠ 0 →
      c.Reaches f (mmPageAlloc t.pmm).2) ↔ c.RamWindowed := by
  obtain ⟨hok, hbase, hend, hbits⟩ := c.init_ok hi
  have hal := hok.base_aligned
  have hramEnd := hok.ramEnd
  have htop := hok.ramEnd_lt
  constructor
  · intro h pa hpal hlo hhi hne hres
    rw [← hbase] at hlo
    rw [← hend] at hhi
    have hpage : g.ramBase + (pa - g.ramBase) / pageSize * pageSize = pa := by
      unfold pageSize at *
      omega
    have hj : (pa - g.ramBase) / pageSize < g.totalPages := by
      unfold pageSize at *
      omega
    have hfree : (pa - g.ramBase) / pageSize ∈ g.freeSet := by
      refine Bitmap.mem_clear.mpr ⟨hj, ?_⟩
      rw [hbits _ hj, ← hbase, hpage]
      exact decide_eq_false hres
    obtain ⟨ops, u, hrun, hu⟩ := exists_run_hands (t := ⟨g, []⟩) _ hok rfl hfree
    dsimp only at hu
    rw [hpage] at hu
    have := h ops u hrun (by rw [hu]; exact hne)
    rw [hu] at this
    exact (c.reaches_iff f hpal (by omega)).mp this
  · intro h ops t hrun hne
    have ht : HandedOut g t := hrun.preserves (fun _ _ _ h hs => holderStep_handedOut h hs)
      ⟨hok, .refl g, fun _ hj => hj, by simp⟩
    rw [mmPageAlloc_eq] at hne ⊢
    rcases mmPageAllocN_cases ht.pmm 1 with ⟨hnone, -⟩ | ⟨-, -, htaken⟩
    · rw [hnone] at hne
      exact absurd rfl hne
    · obtain ⟨j, hj, hpa, hclear⟩ := htaken.fresh ht.region ht.kept
        (mem_pagesFrom.mpr ⟨0, by decide, Nat.zero_mul pageSize ▸ Nat.add_zero _⟩)
      rw [hbits j hj, decide_eq_false_iff_not, ← hbase, ← hpa] at hclear
      have hpal : (mmPageAllocN t.pmm 1).2 % pageSize = 0 := by
        rw [hpa]
        unfold pageSize at *
        omega
      have hlt : (mmPageAllocN t.pmm 1).2 < g.ramEnd := by
        rw [hpa]
        unfold pageSize at *
        omega
      exact (c.reaches_iff f hpal (by omega)).mpr
        (h _ hpal (by rw [← hbase]; omega) (by rw [← hend]; exact hlt) hne hclear)

end Runs

theorem highRam_windowed {pa : ℕ} (hlo : 0x40500000 ≤ pa) (hhi : pa < 0x40600000) :
    highRamConfig.Windowed pa := by
  have hphys : highRamConfig.kernelPhysBase = 0x40200000 := by decide +kernel
  have htree : u32 highRamConfig.dtb >>> mbShift = 0x400 := by decide +kernel
  have hwin : kernelVa ≤ physToVirt 0x40200000 pa := by
    unfold physToVirt wsub u32 kernelVa
    omega
  simp only [BootConfig.Windowed, BootConfig.OnTree, hphys, htree]
  refine ⟨?_, .inr fun hon => ?_⟩
  · unfold wsub u32 windowSections sectionSize
    omega
  · have hslot := hon.2
    rw [Nat.shiftRight_eq_div_pow] at hslot
    unfold kernelVa mbShift at *
    omega

/-- The tables as a machine's reset leaves them. -/
def blankTables : FoundTables := ⟨0, fun _ => 0, fun _ _ => 0⟩

theorem highRam_reaches : ∃ g, highRamConfig.init (fun _ => 0) = some g ∧
    (mmPageAlloc g).2 ≠ 0 ∧ highRamConfig.Reaches blankTables (mmPageAlloc g).2 := by
  have hsome : ((highRamConfig.init fun _ => 0).any fun g => decide ((mmPageAlloc g).2 ≠ 0)) =
      true := by decide +kernel
  obtain ⟨g, hg, hne⟩ := (Option.any_eq_true _ _).mp hsome
  have hbase : highRamConfig.ramBase = 0x40500000 := by decide +kernel
  have hend : highRamConfig.ramEnd = 0x40600000 := by decide +kernel
  refine ⟨g, hg, of_decide_eq_true hne, (holderRun_reaches_iff blankTables hg).mpr ?_ [] _ (.nil _)
    (of_decide_eq_true hne)⟩
  intro pa _ hlo hhi _ _
  rw [hbase] at hlo
  rw [hend] at hhi
  exact highRam_windowed hlo hhi

/-- In QEMU's layout the first page lies below the kernel, and no entry maps its address. -/
theorem first_page_unmapped : ¬ ∀ (c : BootConfig) (f : FoundTables) (memory : ℕ → ℕ) (g : Pmm)
    (ops : List PageOp) (t : Tracked), c.init memory = some g → Run HolderStep ⟨g, []⟩ ops t →
    (mmPageAlloc t.pmm).2 ≠ 0 →
    c.kernelWalk f (physToVirt c.kernelPhysBase (mmPageAlloc t.pmm).2) =
      some (mmPageAlloc t.pmm).2 := by
  intro h
  have hsome : ((qemuConfig.init fun _ => 0).any fun g => decide ((mmPageAlloc g).2 = 0x40000000 ∧
      qemuConfig.kernelWalk blankTables
        (physToVirt qemuConfig.kernelPhysBase 0x40000000) = none)) = true := by decide +kernel
  obtain ⟨g, hg, htest⟩ := (Option.any_eq_true _ _).mp hsome
  obtain ⟨hpage, hnone⟩ := of_decide_eq_true htest
  have hbad := h qemuConfig blankTables _ g [] ⟨g, []⟩ hg (.nil _)
  dsimp only at hbad
  rw [hpage, hnone] at hbad
  exact absurd (hbad (by decide)) (by simp)

end Leg
