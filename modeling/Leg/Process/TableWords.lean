import Leg.Process.StackGrowth

/-! Which words the tables of a process hold: every call of the life cycle writes into them only
what `mmu_attach_l2` and `mmu_map_page` make, over tables that were cleared. -/
namespace Leg
open Runs Slots

/-- An L2 word that is empty, or that `mmu_map_page` has made. -/
def PageWord (w : ℕ) : Prop := w = 0 ∨ ∃ pa, w = l2PageEntry pa

/-- All words of an L2 table. -/
def CleanTable (vm : Vm) (pt : ℕ) : Prop := ∀ i, PageWord (vm.l2 pt i)

/-- An L1 word that is empty, or that `mmu_attach_l2` has made for a clean table. -/
def TableWord (kpb : ℕ) (vm : Vm) (w : ℕ) : Prop :=
  w = 0 ∨ (∃ phys, w = l1TableEntry phys) ∧ CleanTable vm (physToVirt kpb (l1Address w))

/-- The words of an address space. -/
def Formed (kpb : ℕ) (vm : Vm) (pgd : ℕ) : Prop := ∀ mb, TableWord kpb vm (vm.l1 pgd mb)

/-- From `b` to `c` the tables have changed by clean words only. -/
structure KeepsWords (kpb : ℕ) (b c : Vm) : Prop where
  clean : ∀ pt, CleanTable b pt → CleanTable c pt
  words : ∀ tt mb, c.l1 tt mb = b.l1 tt mb ∨ TableWord kpb c (c.l1 tt mb)

section KeepsWords
variable {kpb : ℕ} {a b c d : Vm}

theorem TableWord.mono {w : ℕ} (h : TableWord kpb b w)
    (hclean : ∀ pt, CleanTable b pt → CleanTable c pt) : TableWord kpb c w :=
  h.imp id fun ⟨hw, hpt⟩ => ⟨hw, hclean _ hpt⟩

theorem KeepsWords.of_tables (h1 : c.l1 = b.l1) (h2 : c.l2 = b.l2) : KeepsWords kpb b c := by
  refine ⟨fun pt hpt => ?_, fun tt mb => .inl (by rw [h1])⟩
  unfold CleanTable
  rwa [h2]

theorem KeepsWords.refl (b : Vm) : KeepsWords kpb b b := .of_tables rfl rfl

theorem KeepsWords.trans (h : KeepsWords kpb b c) (h' : KeepsWords kpb c d) :
    KeepsWords kpb b d := by
  refine ⟨fun pt hpt => h'.clean pt (h.clean pt hpt), fun tt mb => ?_⟩
  rcases h'.words tt mb with heq | hw
  · rw [heq]
    exact (h.words tt mb).imp id fun hw => hw.mono h'.clean
  · exact .inr hw

theorem KeepsWords.formed (h : KeepsWords kpb b c) {pgd : ℕ} (hb : Formed kpb b pgd) :
    Formed kpb c pgd := by
  intro mb
  rcases h.words pgd mb with heq | hw
  · rw [heq]
    exact (hb mb).mono h.clean
  · exact hw

theorem keeps_clearL1 (b : Vm) (tt : ℕ) : KeepsWords kpb b (b.clearL1 tt) := by
  refine ⟨fun pt hpt => hpt, fun tt' mb => ?_⟩
  by_cases htt : tt' = tt
  · refine .inr (.inl ?_)
    simp [Vm.clearL1, htt]
  · refine .inl ?_
    simp [Vm.clearL1, htt]

theorem formed_clearL1 (b : Vm) (tt : ℕ) : Formed kpb (b.clearL1 tt) tt := by
  intro mb
  left
  simp [Vm.clearL1]

theorem cleanTable_clearL2 (b : Vm) (pt : ℕ) : CleanTable (b.clearL2 pt) pt := by
  intro i
  left
  simp [Vm.clearL2]

theorem keeps_clearL2 (b : Vm) (pt : ℕ) : KeepsWords kpb b (b.clearL2 pt) := by
  refine ⟨fun pt' hpt => ?_, fun tt mb => .inl rfl⟩
  by_cases hp : pt' = pt
  · rw [hp]
    exact cleanTable_clearL2 b pt
  · intro i
    have := hpt i
    simpa [Vm.clearL2, hp] using this

theorem keeps_mmuMapPage (b : Vm) (pt va pa : ℕ) : KeepsWords kpb b (b.mmuMapPage pt va pa) := by
  refine ⟨fun pt' hpt i => ?_, fun tt mb => .inl rfl⟩
  by_cases hp : pt' = pt
  · by_cases hi : i = l2Idx va
    · right
      exact ⟨pa, by simp [Vm.mmuMapPage, Vm.setL2, hp, hi]⟩
    · have := hpt i
      subst hp
      simpa [Vm.mmuMapPage, Vm.setL2, hi] using this
  · have := hpt i
    simpa [Vm.mmuMapPage, Vm.setL2, hp] using this

theorem keeps_mmuAttachL2 (hk : kpb < 4294967296) (hal : kpb % 1024 = 0) {pt : ℕ}
    (hpt : pt % 1024 = 0) (hlo : kernelVa ≤ pt) (hhi : pt < 4294967296) (hclean : CleanTable b pt)
    (tt mb : ℕ) : KeepsWords kpb b (b.mmuAttachL2 kpb tt mb pt) := by
  refine ⟨fun pt' h => h, fun tt' mb' => ?_⟩
  by_cases hslot : tt' = tt ∧ mb' = mb
  · right
    obtain ⟨rfl, rfl⟩ := hslot
    have hback : physToVirt kpb (l1Address (l1TableEntry (virtToPhys kpb pt))) = pt := by
      rw [l1Address_l1TableEntry (virtToPhys_aligned hal hpt hlo), physToVirt_virtToPhys hk hlo hhi]
    refine .inr ⟨⟨virtToPhys kpb pt, by simp [Vm.mmuAttachL2, Vm.setL1]⟩, ?_⟩
    simp only [Vm.mmuAttachL2, Vm.setL1, Function.update_self, hback]
    exact hclean
  · left
    by_cases htt : tt' = tt
    · subst htt
      have : mb' ≠ mb := fun h => hslot ⟨rfl, h⟩
      simp [Vm.mmuAttachL2, Vm.setL1, this]
    · simp [Vm.mmuAttachL2, Vm.setL1, htt]

end KeepsWords

section Loops
variable {kpb : ℕ} {b c : Vm}

theorem VmOk.tables (h : VmOk b) (l1 l2 : ℕ → ℕ → ℕ) : VmOk { b with l1 := l1, l2 := l2 } :=
  ⟨h.heap, h.high, h.pmm, h.ram_pos⟩

theorem pageAlloc_ok (hok : VmOk b) : VmOk b.pageAlloc.1 := by
  rcases (Holds.refl hok).pageAlloc with hnone | ⟨-, -, -, hb⟩
  · rw [hnone]
    exact hok
  · exact hb.ok

theorem keeps_pageAlloc (b : Vm) : KeepsWords kpb b b.pageAlloc.1 := .of_tables rfl rfl

variable (kpb) in
theorem mapPage_keeps (hok : VmOk b) (pt va : ℕ) :
    KeepsWords kpb b (b.pageAlloc.1.mmuMapPage pt va b.pageAlloc.2) ∧
      VmOk (b.pageAlloc.1.mmuMapPage pt va b.pageAlloc.2) :=
  ⟨(keeps_pageAlloc b).trans (keeps_mmuMapPage ..), (pageAlloc_ok hok).tables _ _⟩

variable (kpb) in
theorem mmuAllocL2Table_keeps (hok : VmOk b) {pt : ℕ} (h : b.mmuAllocL2Table = some (c, pt)) :
    KeepsWords kpb b c ∧ VmOk c ∧
      (pt ≠ 0 → pt % 1024 = 0 ∧ kernelVa ≤ pt ∧ pt < 4294967296 ∧ CleanTable c pt) := by
  unfold Vm.mmuAllocL2Table at h
  rcases (Holds.refl hok).alloc (k := 10) (by decide : l2TableSize ≤ kheapSize) (by decide)
    (by decide) with hr | ⟨b', p, hr, hp, hb', hl1, hl2, hmod, hlo, hhi, -⟩
  · rw [show b.kmallocAligned l2TableSize l2TableSize = _ from hr] at h
    obtain ⟨rfl, rfl⟩ : b = c ∧ 0 = pt := by simpa using h
    exact ⟨.refl b, hok, fun hne => absurd rfl hne⟩
  · rw [show b.kmallocAligned l2TableSize l2TableSize = _ from hr] at h
    obtain ⟨rfl, rfl⟩ : b'.clearL2 p = c ∧ p = pt := by simpa [hp] using h
    refine ⟨(KeepsWords.of_tables hl1 hl2).trans (keeps_clearL2 b' p), hb'.ok.tables _ _,
      fun _ => ?_⟩
    exact ⟨hmod, hlo, hhi, cleanTable_clearL2 b' p⟩

theorem mmuAttachL2_keeps (hk : kpb < 4294967296) (hal : kpb % 1024 = 0) (hok : VmOk b) {pt : ℕ}
    (h : b.mmuAllocL2Table = some (c, pt)) (hpt : pt ≠ 0) (tt mb : ℕ) :
    KeepsWords kpb b (c.mmuAttachL2 kpb tt mb pt) ∧ VmOk (c.mmuAttachL2 kpb tt mb pt) := by
  obtain ⟨hkeeps, hokc, hnew⟩ := mmuAllocL2Table_keeps kpb hok h
  obtain ⟨hmod, hlo, hhi, hclean⟩ := hnew hpt
  exact ⟨hkeeps.trans (keeps_mmuAttachL2 hk hal hmod hlo hhi hclean tt mb), hokc.tables _ _⟩

theorem getOrAllocL2_keeps (hk : kpb < 4294967296) (hal : kpb % 1024 = 0) (hok : VmOk b)
    {pgd mb pt : ℕ} (h : b.getOrAllocL2 kpb pgd mb = some (c, pt)) :
    KeepsWords kpb b c ∧ VmOk c := by
  unfold Vm.getOrAllocL2 at h
  split at h
  next =>
    obtain ⟨rfl, -⟩ := Prod.mk.inj (Option.some.inj h)
    exact ⟨.refl b, hok⟩
  next =>
    obtain ⟨⟨b', p⟩, halloc, h⟩ := Option.map_eq_some_iff.mp h
    obtain ⟨hc, -⟩ := Prod.mk.inj h
    rw [← hc]
    dsimp only
    split
    next hp => exact mmuAttachL2_keeps hk hal hok halloc hp pgd mb
    next =>
      obtain ⟨hkeeps, hokc, -⟩ := mmuAllocL2Table_keeps kpb hok halloc
      exact ⟨hkeeps, hokc⟩

theorem mapPagesLoop_keeps (hk : kpb < 4294967296) (hal : kpb % 1024 = 0) {pgd pageBase : ℕ}
    (k i : ℕ) {ok : Bool} (hok : VmOk b) (h : mapPagesLoop kpb pgd pageBase k i b = some (c, ok)) :
    KeepsWords kpb b c ∧ VmOk c := by
  induction k generalizing i b with
  | zero =>
    obtain ⟨rfl, -⟩ := Prod.mk.inj (Option.some.inj h)
    exact ⟨.refl b, hok⟩
  | succ k ih =>
    unfold mapPagesLoop at h
    obtain ⟨⟨b1, pt⟩, hget, h⟩ := Option.bind_eq_some_iff.mp h
    obtain ⟨hkeeps, hok1⟩ := getOrAllocL2_keeps hk hal hok hget
    dsimp only at h
    split at h
    next =>
      obtain ⟨rfl, -⟩ := Prod.mk.inj (Option.some.inj h)
      exact ⟨hkeeps, hok1⟩
    next =>
    split at h
    next =>
      obtain ⟨hkeeps', hokc⟩ := ih (i + 1) hok1 h
      exact ⟨hkeeps.trans hkeeps', hokc⟩
    next =>
    obtain ⟨hmap, hok2⟩ := mapPage_keeps kpb hok1 pt (u32 (pageBase + u32 (i * pageSize)))
    split at h
    next =>
      obtain ⟨rfl, -⟩ := Prod.mk.inj (Option.some.inj h)
      exact ⟨hkeeps.trans (keeps_pageAlloc b1), pageAlloc_ok hok1⟩
    next =>
      obtain ⟨hkeeps', hokc⟩ := ih (i + 1) hok2 h
      exact ⟨(hkeeps.trans hmap).trans hkeeps', hokc⟩

theorem mapSegments_keeps (hk : kpb < 4294967296) (hal : kpb % 1024 = 0) {pgd : ℕ}
    {phs : List LlfPhdr} {ok : Bool} (hok : VmOk b) (h : mapSegments kpb pgd phs b = some (c, ok)) :
    KeepsWords kpb b c ∧ VmOk c := by
  induction phs generalizing b with
  | nil =>
    obtain ⟨rfl, -⟩ := Prod.mk.inj (Option.some.inj h)
    exact ⟨.refl b, hok⟩
  | cons ph phs ih =>
    unfold mapSegments at h
    split at h
    next => exact ih hok h
    next =>
      obtain ⟨⟨b1, mapped⟩, hmap, h⟩ := Option.bind_eq_some_iff.mp h
      obtain ⟨hkeeps, hok1⟩ := mapPagesLoop_keeps hk hal _ 0 hok hmap
      dsimp only at h
      split at h
      next =>
        obtain ⟨hkeeps', hokc⟩ := ih hok1 h
        exact ⟨hkeeps.trans hkeeps', hokc⟩
      next =>
        obtain ⟨rfl, -⟩ := Prod.mk.inj (Option.some.inj h)
        exact ⟨hkeeps, hok1⟩

theorem llfLoad_keeps (hk : kpb < 4294967296) (hal : kpb % 1024 = 0) {pgd bufSize : ℕ}
    {image : Llf} {entry : Option ℕ} (hok : VmOk b)
    (h : llfLoad kpb pgd image bufSize b = some (c, entry)) : KeepsWords kpb b c := by
  unfold llfLoad at h
  split at h
  next =>
    obtain ⟨rfl, -⟩ := Prod.mk.inj (Option.some.inj h)
    exact .refl b
  next =>
  split at h
  next =>
    obtain ⟨rfl, -⟩ := Prod.mk.inj (Option.some.inj h)
    exact .refl b
  next =>
    obtain ⟨⟨b1, mapped⟩, hmap, h⟩ := Option.bind_eq_some_iff.mp h
    obtain ⟨rfl, -⟩ := Prod.mk.inj (Option.some.inj h)
    exact (mapSegments_keeps hk hal hok hmap).1

theorem kfree_words {ptr : ℕ} (h : b.kfree ptr = some c) : KeepsWords kpb b c := by
  obtain ⟨h1, h2⟩ := kfree_tables h
  exact .of_tables h1 h2

/-- The buffer for the file leaves the tables alone. -/
theorem loadUserImage_keeps (hk : kpb < 4294967296) (hal : kpb % 1024 = 0) {pgd : ℕ}
    {file : Option FsFile} {entry : Option ℕ} (hok : VmOk b)
    (h : loadUserImage kpb pgd file b = some (c, entry)) : KeepsWords kpb b c := by
  unfold loadUserImage at h
  split at h
  next =>
    obtain ⟨rfl, -⟩ := Prod.mk.inj (Option.some.inj h)
    exact .refl b
  next f =>
  split at h
  next =>
    obtain ⟨rfl, -⟩ := Prod.mk.inj (Option.some.inj h)
    exact .refl b
  next =>
    obtain ⟨⟨b1, buf⟩, halloc, h⟩ := Option.bind_eq_some_iff.mp h
    have hbuf : KeepsWords kpb b b1 ∧ VmOk b1 := by
      rcases (Holds.refl hok).kmalloc (alignUp_sector_lt f.size) with
        hr | ⟨b', p, hr, -, hb', hl1, hl2⟩
      · obtain ⟨rfl, -⟩ := Prod.mk.inj (Option.some.inj (hr.symm.trans halloc))
        exact ⟨.refl b, hok⟩
      · obtain ⟨rfl, -⟩ := Prod.mk.inj (Option.some.inj (hr.symm.trans halloc))
        exact ⟨.of_tables hl1 hl2, hb'.ok⟩
    dsimp only at h
    split at h
    next =>
      obtain ⟨rfl, -⟩ := Prod.mk.inj (Option.some.inj h)
      exact hbuf.1
    next =>
      obtain ⟨⟨b2, entry'⟩, hload, h⟩ := Option.bind_eq_some_iff.mp h
      obtain ⟨b3, hfree, h⟩ := Option.bind_eq_some_iff.mp h
      obtain ⟨rfl, -⟩ := Prod.mk.inj (Option.some.inj h)
      refine hbuf.1.trans (KeepsWords.trans ?_ (kfree_words hfree))
      unfold readAndLoad at hload
      split at hload
      next => exact llfLoad_keeps hk hal hbuf.2 hload
      next =>
        obtain ⟨rfl, -⟩ := Prod.mk.inj (Option.some.inj hload)
        exact .refl b1

variable (kpb) in
theorem mapStackPage_keeps (hok : VmOk b) (va : ℕ) (p : Process) :
    KeepsWords kpb b (mapStackPage va b p).1 ∧ VmOk (mapStackPage va b p).1 := by
  unfold mapStackPage
  split
  next => exact ⟨keeps_pageAlloc b, pageAlloc_ok hok⟩
  next => exact mapPage_keeps kpb hok p.stackPt va

theorem processAddPage_keeps (hk : kpb < 4294967296) (hal : kpb % 1024 = 0) {p q : Process}
    {ok : Bool} (hok : VmOk b) (h : processAddPage kpb b p = some (c, q, ok)) :
    KeepsWords kpb b c ∧ VmOk c := by
  rw [processAddPage_eq] at h
  split at h
  next =>
    obtain ⟨⟨b1, pt⟩, halloc, h⟩ := Option.map_eq_some_iff.mp h
    dsimp only at h
    split at h
    next =>
      obtain ⟨rfl, -⟩ := Prod.mk.inj h
      obtain ⟨hkeeps, hok1, -⟩ := mmuAllocL2Table_keeps kpb hok halloc
      exact ⟨hkeeps, hok1⟩
    next hpt =>
      obtain ⟨hattach, hok1⟩ := mmuAttachL2_keeps hk hal hok halloc hpt p.pgd
        (p.nextStackVa >>> 20)
      obtain ⟨hmap, hokc⟩ := mapStackPage_keeps kpb hok1 p.nextStackVa
        { p with stackPt := pt }
      rw [h] at hmap hokc
      exact ⟨hattach.trans hmap, hokc⟩
  next =>
    obtain ⟨hmap, hokc⟩ := mapStackPage_keeps kpb hok p.nextStackVa p
    rw [Option.some.inj h] at hmap hokc
    exact ⟨hmap, hokc⟩

theorem addStackPages_keeps (hk : kpb < 4294967296) (hal : kpb % 1024 = 0) (k : ℕ)
    {p q : Process} {ok : Bool} (hok : VmOk b) (h : addStackPages kpb k b p = some (c, q, ok)) :
    KeepsWords kpb b c := by
  induction k generalizing b p with
  | zero =>
    obtain ⟨rfl, -⟩ := Prod.mk.inj (Option.some.inj h)
    exact .refl b
  | succ k ih =>
    unfold addStackPages at h
    obtain ⟨⟨b1, p1, added⟩, hadd, h⟩ := Option.bind_eq_some_iff.mp h
    obtain ⟨hkeeps, hok1⟩ := processAddPage_keeps hk hal hok hadd
    dsimp only at h
    split at h
    next => exact hkeeps.trans (ih hok1 h)
    next =>
      obtain ⟨rfl, -⟩ := Prod.mk.inj (Option.some.inj h)
      exact hkeeps

theorem setupInitialStack_keeps (hk : kpb < 4294967296) (hal : kpb % 1024 = 0) {p q : Process}
    {ok : Bool} (hok : VmOk b) (h : setupInitialStack kpb b p = some (c, q, ok)) :
    KeepsWords kpb b c := by
  unfold setupInitialStack at h
  obtain ⟨⟨b1, pt⟩, hget, h⟩ := Option.bind_eq_some_iff.mp h
  obtain ⟨hkeeps, hok1⟩ := getOrAllocL2_keeps hk hal hok hget
  dsimp only at h
  split at h
  next =>
    obtain ⟨rfl, -⟩ := Prod.mk.inj (Option.some.inj h)
    exact hkeeps
  next => exact hkeeps.trans (addStackPages_keeps hk hal _ hok1 h)

variable (kpb) in
theorem forkPages_keeps (mb srcPt dstPt k i : ℕ) (hok : VmOk b) :
    KeepsWords kpb b (forkPages mb srcPt dstPt k i b).1 ∧
      VmOk (forkPages mb srcPt dstPt k i b).1 := by
  induction k generalizing i b with
  | zero => exact ⟨.refl b, hok⟩
  | succ k ih =>
    unfold forkPages
    split
    next => exact ih (i + 1) hok
    next =>
      obtain ⟨hmap, hok1⟩ := mapPage_keeps kpb hok dstPt (mb <<< 20 ||| i <<< 12)
      dsimp only
      split
      next => exact ⟨keeps_pageAlloc b, pageAlloc_ok hok⟩
      next =>
        obtain ⟨hkeeps, hokc⟩ := ih (i + 1) hok1
        exact ⟨hmap.trans hkeeps, hokc⟩

theorem forkTables_keeps (hk : kpb < 4294967296) (hal : kpb % 1024 = 0) {parent child : ℕ}
    (k mb : ℕ) {ok : Bool} (hok : VmOk b)
    (h : forkTables kpb parent child k mb b = some (c, ok)) : KeepsWords kpb b c := by
  induction k generalizing mb b with
  | zero =>
    obtain ⟨rfl, -⟩ := Prod.mk.inj (Option.some.inj h)
    exact .refl b
  | succ k ih =>
    unfold forkTables at h
    split at h
    next => exact ih (mb + 1) hok h
    next =>
      obtain ⟨⟨b1, pt⟩, halloc, h⟩ := Option.bind_eq_some_iff.mp h
      dsimp only at h
      split at h
      next =>
        obtain ⟨rfl, -⟩ := Prod.mk.inj (Option.some.inj h)
        exact (mmuAllocL2Table_keeps kpb hok halloc).1
      next hpt =>
        obtain ⟨hattach, hok1⟩ := mmuAttachL2_keeps hk hal hok halloc hpt child mb
        obtain ⟨hpages, hok2⟩ := forkPages_keeps kpb mb
          (physToVirt kpb (l1Address (b.l1 parent mb))) pt l2Entries 0 hok1
        have hboth := hattach.trans hpages
        split at h
        next => exact hboth.trans (ih (mb + 1) hok2 h)
        next =>
          obtain ⟨rfl, -⟩ := Prod.mk.inj (Option.some.inj h)
          exact hboth

end Loops

section Whole
variable {kpb : ℕ} {a b c : Vm}

theorem kmallocAligned_words {size alignment p : ℕ}
    (h : b.kmallocAligned size alignment = some (c, p)) : KeepsWords kpb b c := by
  obtain ⟨r, -, hr⟩ := Option.map_eq_some_iff.mp h
  obtain ⟨rfl, -⟩ := Prod.mk.inj hr
  exact .of_tables rfl rfl

variable (kpb) in
theorem mmuAllocProcTable_words {pgd : ℕ} (h : b.mmuAllocProcTable = some (c, pgd)) :
    KeepsWords kpb b c ∧ (pgd ≠ 0 → Formed kpb c pgd) := by
  obtain ⟨⟨b', p⟩, halloc, h⟩ := Option.map_eq_some_iff.mp h
  obtain ⟨hc, rfl⟩ := Prod.mk.inj h
  have hkeeps : KeepsWords kpb b b' := kmallocAligned_words halloc
  dsimp only at hc ⊢
  rw [← hc]
  split
  next => exact ⟨hkeeps.trans (keeps_clearL1 b' p), fun _ => formed_clearL1 b' p⟩
  next hnull => exact ⟨hkeeps, fun hne => absurd hne hnull⟩

variable (kpb) in
theorem allocProcess_words {r : Option (ℕ × ℕ)} (h : allocProcess b = some (c, r)) :
    KeepsWords kpb b c ∧ ∀ p pgd, r = some (p, pgd) → Formed kpb c pgd := by
  unfold allocProcess at h
  obtain ⟨⟨b1, p⟩, hstruct, h⟩ := Option.bind_eq_some_iff.mp h
  have hkeeps : KeepsWords kpb b b1 := kmallocAligned_words hstruct
  dsimp only at h
  split at h
  next =>
    obtain ⟨rfl, rfl⟩ := Prod.mk.inj (Option.some.inj h)
    exact ⟨hkeeps, fun _ _ hr => nomatch hr⟩
  next =>
    obtain ⟨⟨b2, pgd⟩, htable, h⟩ := Option.bind_eq_some_iff.mp h
    obtain ⟨hkeeps', hformed⟩ := mmuAllocProcTable_words kpb htable
    dsimp only at h
    split at h
    next =>
      obtain ⟨b3, hfree, h⟩ := Option.bind_eq_some_iff.mp h
      obtain ⟨rfl, rfl⟩ := Prod.mk.inj (Option.some.inj h)
      exact ⟨(hkeeps.trans hkeeps').trans (kfree_words hfree), fun _ _ hr => nomatch hr⟩
    next hpgd =>
      obtain ⟨rfl, rfl⟩ := Prod.mk.inj (Option.some.inj h)
      refine ⟨hkeeps.trans hkeeps', fun p' pgd' hr => ?_⟩
      obtain ⟨-, rfl⟩ := Prod.mk.inj (Option.some.inj hr)
      exact hformed hpgd

variable (kpb) in
theorem freeSpace_words {pgd : ℕ} (h : freeTables kpb pgd a = some b) (h' : b.kfree pgd = some c) :
    KeepsWords kpb a c := by
  obtain ⟨h1, h2⟩ := freeTables_tables h
  exact (KeepsWords.of_tables h1 h2).trans (kfree_words h')

theorem processFree_words {p pgd : ℕ} (h : processFree kpb p pgd b = some c) :
    KeepsWords kpb b c := by
  unfold processFree at h
  obtain ⟨b1, htables, h⟩ := Option.bind_eq_some_iff.mp h
  obtain ⟨b2, htable, h⟩ := Option.bind_eq_some_iff.mp h
  exact (freeSpace_words kpb htables htable).trans (kfree_words h)

/-- `process_create` forms the tables of the process it makes. -/
theorem createSpace_words (hk : kpb < 4294967296) (hal : kpb % 1024 = 0) (hok : VmOk a)
    {file : Option FsFile} (hfile : InUserRange file) {proc : ℕ → Process}
    {made : Option (ℕ × Process)} (h : createSpace kpb file proc a = some (c, made)) :
    KeepsWords kpb a c ∧ ∀ p q, made = some (p, q) → Formed kpb c q.pgd := by
  unfold createSpace at h
  rcases allocProcess_holds kpb hok with ⟨b, hb, -⟩ | ⟨b, p, pgd, hb, -, -, hs, -⟩
  · rw [hb] at h
    obtain ⟨rfl, rfl⟩ := Prod.mk.inj (Option.some.inj h)
    exact ⟨(allocProcess_words kpb hb).1, fun _ _ hr => nomatch hr⟩
  obtain ⟨hkeeps, hformed⟩ := allocProcess_words kpb hb
  rw [hb] at h
  simp only [Option.bind_eq_bind, Option.bind_some] at h
  obtain ⟨d, entry, hd, hext⟩ := hs.loadUserImage hk hal (le_refl _) (by decide) hfile
  have hload := hkeeps.trans (loadUserImage_keeps hk hal hs.ok hd)
  rw [hd, Option.bind_some] at h
  cases entry with
  | none =>
    obtain ⟨e, he, h⟩ := Option.bind_eq_some_iff.mp h
    obtain ⟨rfl, rfl⟩ := Prod.mk.inj (Option.some.inj h)
    exact ⟨hload.trans (processFree_words he), fun _ _ hr => nomatch hr⟩
  | some entry =>
    obtain ⟨e, q, ok, he, -, hq⟩ := hext.space.setupStack hk hal
      (p := { proc p with pgd := pgd, entry := entry }) rfl
    have hstack := setupInitialStack_keeps hk hal hext.space.ok he
    simp only [Option.bind_some, he] at h
    cases ok with
    | false =>
      obtain ⟨f, hf, h⟩ := Option.bind_eq_some_iff.mp h
      obtain ⟨rfl, rfl⟩ := Prod.mk.inj (Option.some.inj h)
      exact ⟨(hload.trans hstack).trans (processFree_words hf), fun _ _ hr => nomatch hr⟩
    | true =>
      obtain ⟨rfl, rfl⟩ := Prod.mk.inj (Option.some.inj h)
      refine ⟨hload.trans hstack, fun p' q' hr => ?_⟩
      obtain ⟨-, rfl⟩ := Prod.mk.inj (Option.some.inj hr)
      rw [hq]
      have hnew := (loadUserImage_keeps hk hal hs.ok hd).trans hstack
      exact hnew.formed (hformed p pgd rfl)

/-- So does `process_fork`. -/
theorem forkSpace_words (hk : kpb < 4294967296) (hal : kpb % 1024 = 0) (hok : VmOk a)
    {parent : ℕ} {made : Option (ℕ × ℕ)} (h : forkSpace kpb parent a = some (c, made)) :
    KeepsWords kpb a c ∧ ∀ p pgd, made = some (p, pgd) → Formed kpb c pgd := by
  unfold forkSpace at h
  rcases allocProcess_holds kpb hok with ⟨b, hb, -⟩ | ⟨b, p, pgd, hb, -, -, hs, -⟩
  · rw [hb] at h
    obtain ⟨rfl, rfl⟩ := Prod.mk.inj (Option.some.inj h)
    exact ⟨(allocProcess_words kpb hb).1, fun _ _ hr => nomatch hr⟩
  obtain ⟨hkeeps, hformed⟩ := allocProcess_words kpb hb
  rw [hb] at h
  simp only [Option.bind_eq_bind, Option.bind_some] at h
  obtain ⟨⟨d, ok⟩, hd, h⟩ := Option.bind_eq_some_iff.mp h
  have hcopy := forkTables_keeps hk hal procVaMb 0 hs.ok hd
  cases ok with
  | false =>
    obtain ⟨e, he, h⟩ := Option.bind_eq_some_iff.mp h
    obtain ⟨rfl, rfl⟩ := Prod.mk.inj (Option.some.inj h)
    exact ⟨(hkeeps.trans hcopy).trans (processFree_words he), fun _ _ hr => nomatch hr⟩
  | true =>
    obtain ⟨rfl, rfl⟩ := Prod.mk.inj (Option.some.inj h)
    refine ⟨hkeeps.trans hcopy, fun p' pgd' hr => ?_⟩
    obtain ⟨-, rfl⟩ := Prod.mk.inj (Option.some.inj hr)
    exact hcopy.formed (hformed p pgd rfl)

/-- And `process_replace`. -/
theorem replaceSpace_words (hk : kpb < 4294967296) (hal : kpb % 1024 = 0) (hok : VmOk a)
    {file : Option FsFile} (hfile : InUserRange file) {made : Option (ℕ × ℕ × Process)}
    (h : replaceSpace kpb file a = some (c, made)) :
    KeepsWords kpb a c ∧ ∀ pgd entry tmp, made = some (pgd, entry, tmp) → Formed kpb c pgd := by
  unfold replaceSpace at h
  rcases (Holds.refl hok).procTable kpb with hr | ⟨b, pgd, hr, hpgd, hs, -⟩
  · rw [hr] at h
    obtain ⟨rfl, rfl⟩ := Prod.mk.inj (Option.some.inj h)
    exact ⟨.refl a, fun _ _ _ hr => nomatch hr⟩
  obtain ⟨hkeeps, hformed⟩ := mmuAllocProcTable_words kpb hr
  rw [hr] at h
  simp only [Option.bind_eq_bind, Option.bind_some, hpgd, if_false] at h
  obtain ⟨d, entry, hd, hext⟩ := hs.loadUserImage hk hal (le_refl _) (by decide) hfile
  have hload := loadUserImage_keeps hk hal hs.ok hd
  rw [hd, Option.bind_some] at h
  cases entry with
  | none =>
    obtain ⟨e, he, h⟩ := Option.bind_eq_some_iff.mp h
    obtain ⟨rfl, rfl⟩ := Prod.mk.inj (Option.some.inj h)
    exact ⟨(hkeeps.trans hload).trans (kfree_words he), fun _ _ _ hr => nomatch hr⟩
  | some entry =>
    obtain ⟨e, q, ok, he, -, hq⟩ := hext.space.setupStack hk hal
      (p := { (default : Process) with pgd := pgd }) rfl
    have hnew := hload.trans (setupInitialStack_keeps hk hal hext.space.ok he)
    simp only [Option.bind_some, he] at h
    cases ok with
    | false =>
      obtain ⟨f, hf, h⟩ := Option.bind_eq_some_iff.mp h
      obtain ⟨g, hg, h⟩ := Option.bind_eq_some_iff.mp h
      obtain ⟨rfl, rfl⟩ := Prod.mk.inj (Option.some.inj h)
      exact ⟨(hkeeps.trans hnew).trans (freeSpace_words kpb hf hg), fun _ _ _ hr => nomatch hr⟩
    | true =>
      obtain ⟨rfl, rfl⟩ := Prod.mk.inj (Option.some.inj h)
      refine ⟨hkeeps.trans hnew, fun pgd' _ _ hr => ?_⟩
      obtain ⟨rfl, -⟩ := Prod.mk.inj (Option.some.inj hr)
      exact hnew.formed (hformed hpgd)

end Whole

/-- The tables of all live processes. -/
def AllFormed (kpb : ℕ) (s : System) : Prop :=
  ∀ p ∈ s.procs, Formed kpb s.vm (s.sched.proc p).pgd

section Steps
variable {kpb : ℕ} {boot : Vm} {s t : System}

theorem AllFormed.carry (h : AllFormed kpb s) {b : Vm} {u : Sched} {run : Bool} {l : List ℕ}
    (hkeeps : KeepsWords kpb s.vm b)
    (hl : ∀ p ∈ l, p ∈ s.procs ∧ (u.proc p).pgd = (s.sched.proc p).pgd ∨
      Formed kpb b (u.proc p).pgd) : AllFormed kpb ⟨b, u, l, run⟩ := by
  intro p hp
  rcases hl p hp with ⟨hold, hpgd⟩ | hnew
  · dsimp only
    rw [hpgd]
    exact hkeeps.formed (h p hold)
  · exact hnew

theorem create_formed (hk : kpb < 4294967296) (hal : kpb % 1024 = 0) (h : Owned kpb boot s)
    (hf : AllFormed kpb s) {file : Option FsFile} (hfile : InUserRange file)
    (ht : (s.processCreate kpb file).map Prod.fst = some t) : AllFormed kpb t := by
  obtain ⟨base, -, howned⟩ := h
  unfold System.processCreate at ht
  rcases createSpace_leaky hk hal howned.holds.ok hfile s.sched.proc with
    ⟨b, L, hb, -⟩ | ⟨b, p, q, hb, -, hne, -⟩
  · obtain ⟨hkeeps, -⟩ := createSpace_words hk hal howned.holds.ok hfile hb
    rw [hb] at ht
    rw [← Option.some.inj ht]
    exact hf.carry hkeeps fun p hp => .inl ⟨hp, rfl⟩
  · obtain ⟨hkeeps, hformed⟩ := createSpace_words hk hal howned.holds.ok hfile hb
    rw [hb] at ht
    rw [← Option.some.inj ht]
    refine hf.carry hkeeps fun r hr => ?_
    rcases List.mem_cons.mp hr with rfl | hr
    · right
      simpa using hformed r q rfl
    · left
      refine ⟨hr, ?_⟩
      simp [Sched.write_proc_of_ne _ _ (hne _ (howned.struct_live hr))]

theorem fork_formed (hk : kpb < 4294967296) (hal : kpb % 1024 = 0) (h : Owned kpb boot s)
    (hf : AllFormed kpb s) {lrSvc spUsr cpsr : ℕ}
    (ht : (s.processFork kpb lrSvc spUsr cpsr).map Prod.fst = some t) : AllFormed kpb t := by
  obtain ⟨base, -, howned⟩ := h
  unfold System.processFork at ht
  split at ht
  next => exact absurd ht (by simp)
  rcases forkSpace_holds hk hal howned.holds.ok (s.sched.proc s.sched.currentProc).pgd with
    ⟨b, hb, -⟩ | ⟨b, p, pgd, hb, hp, hne, -⟩
  · obtain ⟨hkeeps, -⟩ := forkSpace_words hk hal howned.holds.ok hb
    rw [hb] at ht
    rw [← Option.some.inj ht]
    exact hf.carry hkeeps fun p hp => .inl ⟨hp, rfl⟩
  obtain ⟨hkeeps, hformed⟩ := forkSpace_words hk hal howned.holds.ok hb
  rw [hb] at ht
  obtain ⟨hproc, -, -, -⟩ := processFork_some s.sched p pgd lrSvc spUsr cpsr
  simp only [Option.bind_eq_bind, Option.bind_some] at ht
  generalize Leg.processFork s.sched (some (p, pgd)) lrSvc spUsr cpsr = r at *
  obtain ⟨sched, child⟩ := r
  dsimp only at hproc ht
  have hold (q : ℕ) (hq : q ∈ s.procs) : sched.proc q = s.sched.proc q := by
    rw [hproc, Function.update_of_ne (hne _ (howned.struct_live hq))]
  split at ht
  next =>
    obtain ⟨r, hr, ht⟩ := Option.map_eq_some_iff.mp ht
    obtain ⟨e, he, hr⟩ := Option.bind_eq_some_iff.mp hr
    rw [← ht, ← Option.some.inj hr]
    exact hf.carry (hkeeps.trans (processFree_words he)) fun q hq =>
      .inl ⟨hq, by rw [hold q hq]⟩
  next =>
    rw [← Option.some.inj ht]
    refine hf.carry hkeeps fun q hq => ?_
    rcases List.mem_cons.mp hq with rfl | hq
    · right
      rw [hproc, Function.update_self]
      exact hformed q pgd rfl
    · exact .inl ⟨hq, by rw [hold q hq]⟩

theorem exit_formed (hf : AllFormed kpb s) {pid code : ℕ}
    (ht : s.processExit kpb pid code = some t) : AllFormed kpb t := by
  unfold System.processExit at ht
  dsimp only at ht
  split at ht
  next => exact absurd ht (by simp)
  next hpid =>
  obtain ⟨i, -, -, hpgd⟩ := exitTable_keeps code hpid
  obtain ⟨vm, hvm, ht⟩ := Option.bind_eq_some_iff.mp ht
  have hkeeps : KeepsWords kpb s.vm vm := processFree_words hvm
  cases he : Leg.processExit s.sched pid code with
  | none =>
    rw [he] at ht
    rw [← Option.some.inj ht]
    exact hf.carry hkeeps fun p hp => .inl ⟨List.mem_of_mem_erase hp, hpgd p⟩
  | some sched =>
    obtain ⟨-, -, -, rfl⟩ := processExit_eq he
    rw [he] at ht
    rw [← Option.some.inj ht]
    exact hf.carry hkeeps fun p hp => .inl ⟨List.mem_of_mem_erase hp, hpgd p⟩

theorem replace_formed (hk : kpb < 4294967296) (hal : kpb % 1024 = 0) (h : Owned kpb boot s)
    (hf : AllFormed kpb s) {pid : ℕ} {file : Option FsFile} (hfile : InUserRange file)
    (ht : (s.processReplace kpb pid file).map Prod.fst = some t) : AllFormed kpb t := by
  obtain ⟨base, -, howned⟩ := h
  unfold System.processReplace at ht
  dsimp only at ht
  split at ht
  next =>
    rw [← Option.some.inj ht]
    exact hf
  next =>
  generalize schedGet s.sched pid = p at *
  obtain ⟨r, hr, ht⟩ := Option.map_eq_some_iff.mp ht
  obtain ⟨⟨b, made⟩, hb, hr⟩ := Option.bind_eq_some_iff.mp hr
  obtain ⟨hkeeps, hformed⟩ := replaceSpace_words hk hal howned.holds.ok hfile hb
  cases made with
  | none =>
    rw [← ht, ← Option.some.inj hr]
    exact hf.carry hkeeps fun q hq => .inl ⟨hq, rfl⟩
  | some made =>
    obtain ⟨new, entry, tmp⟩ := made
    obtain ⟨c, hc, hr⟩ := Option.bind_eq_some_iff.mp hr
    obtain ⟨d, hd, hr⟩ := Option.bind_eq_some_iff.mp hr
    obtain ⟨-, hself, hother, -⟩ := replaced_sched s.sched p new entry tmp.stackPt tmp.stackPages
    have hfree := freeSpace_words kpb hc hd
    rw [← ht, ← Option.some.inj hr]
    refine hf.carry (hkeeps.trans hfree) fun q hq => ?_
    by_cases hqp : q = p
    · right
      rw [hqp, hself]
      exact hfree.formed (hformed new entry tmp rfl)
    · exact .inl ⟨hq, by rw [hother q hqp]⟩

/-- Every step forms the tables of the processes that live after it. -/
theorem tableNext_formed (hk : kpb < 4294967296) (hal : kpb % 1024 = 0) (h : Owned kpb boot s)
    (hf : AllFormed kpb s) {op : TableOp} (htakes : s.Takes op)
    (ht : s.tableNext kpb op = some t) : AllFormed kpb t := by
  have hsched (u : Sched) (hu : ∀ p, (u.proc p).pgd = (s.sched.proc p).pgd) :
      AllFormed kpb { s with sched := u } :=
    hf.carry (.refl s.vm) fun p hp => .inl ⟨hp, hu p⟩
  cases op with
  | switch =>
    rw [← Option.some.inj ht]
    apply hsched
    intro p
    unfold switchNext
    dsimp only
    split <;> rfl
  | call op =>
    cases op with
    | create file => exact create_formed hk hal h hf htakes ht
    | exec p =>
      rw [← Option.some.inj ht]
      apply hsched
      intro q
      unfold processExec
      rcases schedAdd_cases { s.sched with currentProc := p } p with ⟨i, -, hadd⟩ | ⟨-, hadd⟩
      · rw [hadd]
        dsimp only
        rw [write_pgd]
        exact fun _ => rfl
      · rw [hadd]
    | fork lrSvc spUsr cpsr => exact fork_formed hk hal h hf ht
    | exit pid code => exact exit_formed hf ht
    | replace pid file => exact replace_formed hk hal h hf htakes ht
    | join target =>
      rw [← Option.some.inj ht]
      apply hsched
      intro q
      unfold svcJoin
      split
      next => rfl
      next =>
        rw [write_pgd]
        exact fun _ => rfl
    | sleep us now freq =>
      rw [← Option.some.inj ht]
      apply hsched
      intro q
      unfold svcSleep
      rw [write_pgd]
      exact fun _ => rfl
    | tick now =>
      rw [← Option.some.inj ht]
      exact hsched _ (schedTick_keeps s.sched now).2

theorem countedRun_formed {c : BootConfig} {boot : System} {n : Counted} {ops : List TableOp}
    (hb : boot.Boot c) (hcur : boot.sched.currentProc = 0)
    (hr : Run (CountedStep c.kernelPhysBase) ⟨boot, 0⟩ ops n) :
    AllFormed c.kernelPhysBase n.sys := by
  obtain ⟨hk, hal⟩ := c.kernelPhysBase_bounds
  have hinv := hr.preserves
    (I := fun m => (Owned c.kernelPhysBase boot.vm m.sys ∧ CurrentOk m.sys) ∧
      AllFormed c.kernelPhysBase m.sys)
    (fun m op k hm hs => ?_) ⟨⟨⟨_, .refl _, boot_owned hb⟩, fun _ h0 => absurd hcur h0⟩,
      fun p hp => ?_⟩
  · exact hinv.2
  · have hstep := tableNext_stepped hk hal hm.1.1 hm.1.2 hs.2.1 hs.2.2.1
    exact ⟨⟨hstep.owned, hstep.current⟩, tableNext_formed hk hal hm.1.1 hm.2 hs.2.1 hs.2.2.1⟩
  · rw [hb.noneLive] at hp
    exact absurd hp (by simp)

end Steps

end Leg
