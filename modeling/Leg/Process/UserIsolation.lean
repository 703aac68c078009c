import Leg.Process.TableWords

/-! What user code may load and store: the access rights in the entries that `map_sections`,
`mmu_map_identity`, `mmu_attach_l2` and `mmu_map_page` make, under the split of the address space
that `init_mmu` sets up. -/
namespace Leg
open Runs Slots

inductive Access where
  | load
  | store
  deriving DecidableEq

/-- What APX and AP grant to user mode, while SCTLR.AFE is clear. -/
def userMay : Access → (apx ap : ℕ) → Bool
  | .load, _, ap => ap = 0b10 || ap = 0b11
  | .store, apx, ap => apx = 0 && ap = 0b11

/-- `domain` of an L1 entry of either kind. -/
def l1Domain (w : ℕ) : ℕ := w >>> 5 &&& 0xF

/-- `section.ap_high` and `section.ap_low`. -/
def sectionMay (acc : Access) (w : ℕ) : Bool := userMay acc (w >>> 15 &&& 1) (w >>> 10 &&& 3)

/-- `small_page.ap_high` and `small_page.ap_low`. -/
def pageMay (acc : Access) (e : ℕ) : Bool := userMay acc (e >>> 9 &&& 1) (e >>> 4 &&& 3)

/-- The walk of an access from user mode. `init_mmu` makes domain 0 a client, and gives no access
to the others. -/
def unprivilegedWalk (acc : Access) (l1 : ℕ → ℕ) (l2 : ℕ → ℕ → ℕ) (va : ℕ) : Option ℕ :=
  let w := l1 (va >>> mbShift)
  let may := if entryType w = l1Section then sectionMay acc w
    else pageMay acc (l2 (l1Address w) (l2Idx va))
  if l1Domain w = 0 ∧ may then walk l1 l2 va else none

/-- The entry of `map_sections` for a page of device registers. -/
def deviceEntry (phys : ℕ) : ℕ := phys >>> 12 <<< 12 ||| 0x27

/-- The pages of device registers that `map_sections` maps, and where. -/
def devicePages : List (ℕ × ℕ) :=
  [(0xCF000000, 0x09000000), (0xCF010000, 0x08000000), (0xCF020000, 0x08010000),
    (0xCF030000, 0x09010000), (0xCF040000, 0x09020000), (0xCF050000, 0x0A000000),
    (0xCF051000, 0x0A001000), (0xCF052000, 0x0A002000), (0xCF053000, 0x0A003000)]

/-- What `map_sections` writes into the device table. -/
def mapDevices (table : ℕ → ℕ) : ℕ → ℕ :=
  devicePages.foldl (fun t d => Function.update t (l2Idx d.1) (deviceEntry d.2)) table

/-- `FB_WIDTH * FB_HEIGHT * FB_BPP`. -/
def fbBytes : ℕ := 800 * 600 * 4

/-- The loop of `fb_init` that maps the framebuffer where it lies. -/
def mapFramebuffer (fbPhys : ℕ) (table : ℕ → ℕ) : ℕ → ℕ :=
  let first := fbPhys >>> 20
  let last := u32 (fbPhys + fbBytes - 1) >>> 20
  if fbPhys = 0 then table else mapSectionRow first first (last + 1 - first) table

namespace BootConfig
variable (c : BootConfig) (f : FoundTables) (fbPhys : ℕ)

/-- The kernel's L1 table after boot. -/
def kernelL1 : ℕ → ℕ := mapFramebuffer fbPhys (mapSections c.dtb f.devicesPt f.l1)

/-- The L2 tables by their physical addresses: the device table is filled. -/
def kernelL2 : ℕ → ℕ → ℕ :=
  let pt := l1Address (l1TableEntry (u32 (wsub f.devicesPt kernelVa +
    u32 ((c.dtb &&& bnot 0xFFFFF) + kphysOffset))))
  Function.update f.l2 pt (mapDevices (f.l2 pt))

/-- Where an access from user mode goes while the table `pgd` is in TTBR0. As TTBCR.N is 7, TTBR1
translates from 32 MB on. -/
def userAccess (acc : Access) (vm : Vm) (pgd va : ℕ) : Option ℕ :=
  if va < procUserVaTop then
    unprivilegedWalk acc (vm.l1 pgd) (fun phys => vm.l2 (physToVirt c.kernelPhysBase phys)) va
  else unprivilegedWalk acc (c.kernelL1 f fbPhys) (c.kernelL2 f) va

/-- One byte that user code stores; a store that faults changes nothing. -/
def userStore (vm : Vm) (pgd : ℕ) (m : Memory) (w : ℕ × UInt8) : Memory :=
  match c.userAccess f fbPhys .store vm pgd w.1 with
  | some pa => Function.update m pa w.2
  | none => m

def userStores (vm : Vm) (pgd : ℕ) (ws : List (ℕ × UInt8)) (m : Memory) : Memory :=
  ws.foldl (c.userStore f fbPhys vm pgd) m

/-- What user code loads. -/
def userLoads (vm : Vm) (pgd : ℕ) (m : Memory) (va : ℕ) : Option UInt8 :=
  (c.userAccess f fbPhys .load vm pgd va).map m

end BootConfig

/-- The tables that `map_sections` finds map nothing. -/
structure FoundTables.Unmapped (f : FoundTables) : Prop where
  l1 : ∀ v, entryType (f.l1 v) = 0
  l2 : ∀ a i, entryType (f.l2 a i) = l2Invalid

section Entries

theorem shiftAnd (w k n : ℕ) : w >>> k &&& (2 ^ n - 1) = w / 2 ^ k % 2 ^ n := by
  rw [Nat.and_two_pow_sub_one_eq_mod, Nat.shiftRight_eq_div_pow]

theorem l1Domain_eq (w : ℕ) : l1Domain w = w / 32 % 16 := shiftAnd w 5 4

theorem sectionMay_eq (acc : Access) (w : ℕ) :
    sectionMay acc w = userMay acc (w / 32768 % 2) (w / 1024 % 4) :=
  congrArg₂ (userMay acc) (shiftAnd w 15 1) (shiftAnd w 10 2)

theorem pageMay_eq (acc : Access) (e : ℕ) :
    pageMay acc e = userMay acc (e / 512 % 2) (e / 16 % 4) :=
  congrArg₂ (userMay acc) (shiftAnd e 9 1) (shiftAnd e 4 2)

theorem section_rights (mb : ℕ) : l1Domain (l1SectionEntry mb) = 0 ∧
    sectionMay .load (l1SectionEntry mb) = true ∧
      sectionMay .store (l1SectionEntry mb) = false := by
  rw [l1Domain_eq, sectionMay_eq, sectionMay_eq, l1SectionEntry_eq]
  have h5 : (mb % 4096 * sectionSize + 0x180E) / 32 % 16 = 0 := by
    unfold sectionSize
    omega
  have h10 : (mb % 4096 * sectionSize + 0x180E) / 1024 % 4 = 2 := by
    unfold sectionSize
    omega
  rw [h10]
  exact ⟨h5, rfl, Bool.and_false _⟩

theorem l1TableEntry_eq (phys : ℕ) : l1TableEntry phys = phys / 1024 * 1024 + 1 := by
  unfold l1TableEntry l1PageTable
  rw [Nat.shiftRight_eq_div_pow, Nat.shiftLeft_eq, Nat.mul_comm (phys / 2 ^ 10)]
  exact (Nat.two_pow_add_eq_or_of_lt (by decide) _).symm.trans (by omega)

theorem l1Domain_table (phys : ℕ) : l1Domain (l1TableEntry phys) = 0 := by
  rw [l1Domain_eq, l1TableEntry_eq]
  omega

theorem pageEntry_eq (pa : ℕ) {flags : ℕ} (h : flags < 4096) :
    pa >>> 12 <<< 12 ||| flags = pa / 4096 * 4096 + flags := by
  rw [Nat.shiftRight_eq_div_pow, Nat.shiftLeft_eq, Nat.mul_comm (pa / 2 ^ 12)]
  exact (Nat.two_pow_add_eq_or_of_lt (i := 12) h _).symm.trans (by omega)

theorem pageMay_page (acc : Access) (pa : ℕ) : pageMay acc (l2PageEntry pa) = true := by
  rw [pageMay_eq, l2PageEntry, pageEntry_eq pa (by decide)]
  have h9 : (pa / 4096 * 4096 + 0x7E) / 512 % 2 = 0 := by omega
  have h4 : (pa / 4096 * 4096 + 0x7E) / 16 % 4 = 3 := by omega
  rw [h9, h4]
  cases acc <;> rfl

theorem device_rights (phys : ℕ) : pageMay .load (deviceEntry phys) = true ∧
    pageMay .store (deviceEntry phys) = false := by
  rw [pageMay_eq, pageMay_eq, deviceEntry, pageEntry_eq phys (by decide)]
  have h4 : (phys / 4096 * 4096 + 0x27) / 16 % 4 = 2 := by omega
  rw [h4]
  exact ⟨rfl, Bool.and_false _⟩

end Entries

section Walks

variable {acc : Access} {l1 : ℕ → ℕ} {l2 : ℕ → ℕ → ℕ} {va : ℕ}

theorem walk_empty (h : entryType (l1 (va >>> mbShift)) = 0) : walk l1 l2 va = none := by
  unfold walk
  dsimp only
  rw [h]
  rfl

theorem walk_table (h : entryType (l1 (va >>> mbShift)) = l1PageTable) : walk l1 l2 va =
    let e := l2 (l1Address (l1 (va >>> mbShift))) (l2Idx va)
    if entryType e = l2SmallPage ∨ entryType e = l2XnPage then
      some (l2Address e + va % pageSize)
    else none := by
  unfold walk
  dsimp only
  rw [h]
  rfl

theorem unprivilegedWalk_none (h : walk l1 l2 va = none) :
    unprivilegedWalk acc l1 l2 va = none := by
  unfold unprivilegedWalk
  rw [h]
  exact ite_self _

theorem unprivilegedWalk_table (h : entryType (l1 (va >>> mbShift)) = l1PageTable)
    (hdomain : l1Domain (l1 (va >>> mbShift)) = 0) : unprivilegedWalk acc l1 l2 va =
    if pageMay acc (l2 (l1Address (l1 (va >>> mbShift))) (l2Idx va)) then walk l1 l2 va
    else none := by
  have hne : l1PageTable ≠ l1Section := by decide
  unfold unprivilegedWalk
  simp only [h, hdomain, hne, if_false, true_and]

/-- User mode accesses of a process's half what its tables map, for loads and stores alike. -/
theorem Formed.unprivilegedWalk {kpb : ℕ} {vm : Vm} {pgd : ℕ} (h : Formed kpb vm pgd) (acc : Access)
    (hva : va < procUserVaTop) :
    Leg.unprivilegedWalk acc (vm.l1 pgd) (fun phys => vm.l2 (physToVirt kpb phys)) va =
      userAddr kpb vm pgd va := by
  rw [userAddr, if_pos hva, pageAt, tableOf]
  change _ = Option.map _ (Option.bind (if entryType (vm.l1 pgd (va >>> mbShift)) = l1PageTable then
    some (physToVirt kpb (l1Address (vm.l1 pgd (va >>> mbShift)))) else none) _)
  rcases h (va >>> mbShift) with hzero | ⟨⟨phys, hw⟩, hclean⟩
  · have htype : entryType (vm.l1 pgd (va >>> mbShift)) = 0 := by
      rw [hzero]
      rfl
    rw [unprivilegedWalk_none (walk_empty htype), htype]
    rfl
  · have htype : entryType (vm.l1 pgd (va >>> mbShift)) = l1PageTable := by
      rw [hw, entryType_l1TableEntry]
    have hdomain : l1Domain (vm.l1 pgd (va >>> mbShift)) = 0 := by rw [hw, l1Domain_table]
    rw [unprivilegedWalk_table htype hdomain, walk_table htype, if_pos htype, Option.bind_some,
      pageOf]
    rcases hclean (l2Idx va) with he | ⟨pa, he⟩
    · simp only [he]
      exact ite_self _
    · simp only [he, pageMay_page, entryType_l2PageEntry]
      rfl

variable {c : BootConfig} {f : FoundTables} {fbPhys : ℕ}

/-- A word of the kernel's table: nothing is mapped, or a section, or the device table. -/
def KernelWord (c : BootConfig) (f : FoundTables) (w : ℕ) : Prop :=
  entryType w = 0 ∨ (∃ mb, w = l1SectionEntry mb) ∨
    w = l1TableEntry (u32 (wsub f.devicesPt kernelVa +
      u32 ((c.dtb &&& bnot 0xFFFFF) + kphysOffset)))

theorem mapSectionRow_word {va pa n : ℕ} {table : ℕ → ℕ} (h : ∀ v, KernelWord c f (table v))
    (v : ℕ) : KernelWord c f (mapSectionRow va pa n table v) := by
  rw [mapSectionRow_apply]
  split
  next => exact .inr (.inl ⟨_, rfl⟩)
  next => exact h v

theorem update_word {table : ℕ → ℕ} (h : ∀ v, KernelWord c f (table v)) {w : ℕ}
    (hw : KernelWord c f w) (i v : ℕ) : KernelWord c f (Function.update table i w v) := by
  rw [Function.update_apply]
  split
  next => exact hw
  next => exact h v

variable (fbPhys) in
theorem kernelL1_word (hf : f.Unmapped) (v : ℕ) : KernelWord c f (c.kernelL1 f fbPhys v) := by
  have hboot : ∀ v, KernelWord c f (mapSections c.dtb f.devicesPt f.l1 v) := by
    unfold mapSections
    intro v
    apply update_word _ (.inl rfl)
    apply mapSectionRow_word
    apply mapSectionRow_word
    intro v
    apply update_word _ (.inr (.inl ⟨0, rfl⟩))
    intro v
    exact update_word (fun v => .inl (hf.l1 v)) (.inr (.inr rfl)) _ v
  unfold BootConfig.kernelL1 mapFramebuffer
  split
  next => exact hboot v
  next => exact mapSectionRow_word hboot v

/-- A word of the device table: nothing is mapped, or a page of registers. -/
def DeviceWord (e : ℕ) : Prop := entryType e = l2Invalid ∨ ∃ phys, e = deviceEntry phys

theorem mapDevices_word {table : ℕ → ℕ} (h : ∀ i, DeviceWord (table i)) (i : ℕ) :
    DeviceWord (mapDevices table i) := by
  unfold mapDevices
  generalize devicePages = l
  induction l generalizing table with
  | nil => exact h i
  | cons d l ih =>
    apply ih
    intro j
    by_cases hj : j = l2Idx d.1
    · right
      exact ⟨d.2, by simp [hj]⟩
    · simpa [hj] using h j

variable (fbPhys) in
/-- An access from user mode to the kernel's half: loads go where the kernel's own go, and stores
fault. -/
theorem kernel_unprivilegedWalk (hf : f.Unmapped) (va : ℕ) :
    unprivilegedWalk .load (c.kernelL1 f fbPhys) (c.kernelL2 f) va =
        walk (c.kernelL1 f fbPhys) (c.kernelL2 f) va ∧
      unprivilegedWalk .store (c.kernelL1 f fbPhys) (c.kernelL2 f) va = none := by
  rcases kernelL1_word (c := c) fbPhys hf (va >>> mbShift) with
    hempty | ⟨mb, hsection⟩ | htable
  · rw [walk_empty hempty]
    exact ⟨unprivilegedWalk_none (walk_empty hempty), unprivilegedWalk_none (walk_empty hempty)⟩
  · obtain ⟨hdomain, hload, hstore⟩ := section_rights mb
    unfold unprivilegedWalk
    simp only [hsection, entryType_l1SectionEntry, if_true, hdomain, hload, hstore, true_and,
      Bool.false_eq_true, if_false, and_self]
  · have htype : entryType (c.kernelL1 f fbPhys (va >>> mbShift)) = l1PageTable := by
      rw [htable, entryType_l1TableEntry]
    have hdomain : l1Domain (c.kernelL1 f fbPhys (va >>> mbShift)) = 0 := by
      rw [htable, l1Domain_table]
    have hword : DeviceWord (c.kernelL2 f
        (l1Address (c.kernelL1 f fbPhys (va >>> mbShift))) (l2Idx va)) := by
      rw [htable]
      unfold BootConfig.kernelL2
      rw [Function.update_self]
      exact mapDevices_word (fun i => .inl (hf.l2 _ i)) _
    rw [unprivilegedWalk_table htype hdomain, unprivilegedWalk_table htype hdomain]
    rcases hword with hinvalid | ⟨phys, hdevice⟩
    · have hwalk : walk (c.kernelL1 f fbPhys) (c.kernelL2 f) va = none := by
        rw [walk_table htype]
        simp only [hinvalid]
        rfl
      rw [hwalk]
      exact ⟨ite_self _, ite_self _⟩
    · obtain ⟨hload, hstore⟩ := device_rights phys
      rw [hdevice, hload, hstore]
      exact ⟨rfl, rfl⟩

end Walks

section Isolation
variable {c : BootConfig} {f : FoundTables} {fbPhys : ℕ} {s : System}

theorem userAccess_eq (hf : f.Unmapped) {pgd : ℕ} (h : Formed c.kernelPhysBase s.vm pgd) (va : ℕ) :
    c.userAccess f fbPhys .store s.vm pgd va = userAddr c.kernelPhysBase s.vm pgd va ∧
      c.userAccess f fbPhys .load s.vm pgd va =
        if va < procUserVaTop then userAddr c.kernelPhysBase s.vm pgd va
        else walk (c.kernelL1 f fbPhys) (c.kernelL2 f) va := by
  unfold BootConfig.userAccess
  by_cases hva : va < procUserVaTop
  · rw [if_pos hva, if_pos hva, if_pos hva, h.unprivilegedWalk .store hva,
      h.unprivilegedWalk .load hva]
    exact ⟨rfl, rfl⟩
  · obtain ⟨hload, hstore⟩ := kernel_unprivilegedWalk (c := c) fbPhys hf va
    rw [if_neg hva, if_neg hva, if_neg hva, hload, hstore, userAddr, if_neg hva]
    exact ⟨rfl, rfl⟩

theorem userStores_eq (hf : f.Unmapped) {pgd : ℕ} (h : Formed c.kernelPhysBase s.vm pgd) :
    c.userStores f fbPhys s.vm pgd = userWrites c.kernelPhysBase s.vm pgd := by
  have hstep : c.userStore f fbPhys s.vm pgd = userWrite c.kernelPhysBase s.vm pgd := by
    funext m w
    have hwalk := (@userAccess_eq c f fbPhys s hf pgd h w.1).1
    unfold BootConfig.userStore userWrite
    generalize c.userAccess f fbPhys .store s.vm pgd w.1 = o at hwalk ⊢
    subst hwalk
    rfl
  funext ws m
  unfold BootConfig.userStores userWrites
  rw [hstep]

theorem OwnedOk.page_fresh {kpb : ℕ} {boot base : Vm} (h : OwnedOk kpb base s)
    (hkept : PagesKept boot base) (hboot : PmmOk boot.pmm) {p pa : ℕ} (hp : p ∈ s.procs)
    (hpa : pa ∈ procPages kpb s.vm s.sched.proc p) : mmPageIsAllocated boot.pmm pa = false := by
  obtain ⟨j, -, rfl, hclear⟩ := h.holds.fresh pa (List.mem_flatMap.mpr ⟨p, hp, hpa⟩)
  rw [← Bool.not_eq_true, mmPageIsAllocated_iff hboot]
  rintro ⟨i, hi, heq, hset⟩
  have hij : i = j := by
    rw [hkept.region.ramBase] at heq
    unfold pageSize at heq
    omega
  rw [hij] at hi hset
  rw [hkept.bits j hi hset] at hclear
  exact Bool.noConfusion hclear

/-- What user code can do to memory in a state that comes after `boot`. Of the live processes, each
stores to the pages in its own tables, which are allocated, were not allocated at boot, and belong
to no other process; its stores to the kernel's half fault. -/
structure Isolated (c : BootConfig) (f : FoundTables) (fbPhys : ℕ) (boot s : System) : Prop where
  stores : ∀ p ∈ s.procs, ∀ va, c.userAccess f fbPhys .store s.vm (s.sched.proc p).pgd va =
    userAddr c.kernelPhysBase s.vm (s.sched.proc p).pgd va
  faults : ∀ p ∈ s.procs, ∀ va, procUserVaTop ≤ va →
    c.userAccess f fbPhys .store s.vm (s.sched.proc p).pgd va = none
  loads : ∀ p ∈ s.procs, ∀ va, c.userAccess f fbPhys .load s.vm (s.sched.proc p).pgd va =
    if va < procUserVaTop then userAddr c.kernelPhysBase s.vm (s.sched.proc p).pgd va
    else walk (c.kernelL1 f fbPhys) (c.kernelL2 f) va
  confined : ∀ p ∈ s.procs, ∀ ws m x,
    c.userStores f fbPhys s.vm (s.sched.proc p).pgd ws m x ≠ m x →
      ∃ pa ∈ procPages c.kernelPhysBase s.vm s.sched.proc p, pa ≤ x ∧ x < pa + pageSize ∧
        mmPageIsAllocated s.vm.pmm pa = true ∧ mmPageIsAllocated boot.vm.pmm pa = false ∧
        ∀ q ∈ s.procs, q ≠ p → pa ∉ procPages c.kernelPhysBase s.vm s.sched.proc q
  apart : ∀ p ∈ s.procs, ∀ q ∈ s.procs, p ≠ q → ∀ ws m, ∀ va < procUserVaTop,
    c.userLoads f fbPhys s.vm (s.sched.proc q).pgd
        (c.userStores f fbPhys s.vm (s.sched.proc p).pgd ws m) va =
      c.userLoads f fbPhys s.vm (s.sched.proc q).pgd m va

/-- In every state that a run from boot reaches. -/
theorem countedRun_isolated {boot : System} {n : Counted} {ops : List TableOp}
    (hb : boot.Boot c) (hcur : boot.sched.currentProc = 0)
    (hr : Run (CountedStep c.kernelPhysBase) ⟨boot, 0⟩ ops n) (hf : f.Unmapped) (fbPhys : ℕ) :
    Isolated c f fbPhys boot n.sys := by
  obtain ⟨⟨base, hkept, howned⟩, -⟩ := countedRun_owned hb hcur hr
  have hformed := countedRun_formed hb hcur hr
  have hmem {p : ℕ} (hp : p ∈ n.sys.procs) {pa : ℕ}
      (hpa : pa ∈ spacePages c.kernelPhysBase n.sys.vm (n.sys.sched.proc p).pgd) :
      mmPageIsAllocated n.sys.vm.pmm pa = true :=
    howned.holds.page_allocated (List.mem_flatMap.mpr ⟨p, hp, hpa⟩)
  have halign {p : ℕ} (hp : p ∈ n.sys.procs) (pa : ℕ)
      (hpa : pa ∈ spacePages c.kernelPhysBase n.sys.vm (n.sys.sched.proc p).pgd) :
      pa % pageSize = 0 := (allocated_page howned.holds.ok.pmm (hmem hp hpa)).1
  refine ⟨fun p hp va => (userAccess_eq hf (hformed p hp) va).1, fun p hp va hva => ?_,
    fun p hp va => (userAccess_eq hf (hformed p hp) va).2, fun p hp ws m x hx => ?_,
    fun p hp q hq hne ws m va hva => ?_⟩
  · rw [(userAccess_eq hf (hformed p hp) va).1, userAddr, if_neg (Nat.not_lt.mpr hva)]
  · rw [userStores_eq hf (hformed p hp)] at hx
    by_contra hno
    refine hx (userWrites_frame (fun va y hy heq => hno ?_) ws m)
    obtain ⟨mb, hmb, i, hi, pa, hpa, rfl, -⟩ := userAddr_some hy
    have hin := mem_spacePages.mpr ⟨mb, hmb, i, hi, hpa⟩
    have hoff : va % pageSize < pageSize := Nat.mod_lt _ (by decide)
    exact ⟨pa, hin, by omega, by omega, hmem hp hin,
      howned.page_fresh hkept (boot_owned hb).holds.ok.pmm hp hin, fun q hq hne hinq =>
        hne (flatMap_inj howned.holds.nodup hq hp hinq hin)⟩
  · have hdis (pa : ℕ) (h1 : pa ∈ spacePages c.kernelPhysBase n.sys.vm (n.sys.sched.proc p).pgd) :
        pa ∉ spacePages c.kernelPhysBase n.sys.vm (n.sys.sched.proc q).pgd := fun h2 =>
      hne (flatMap_inj howned.holds.nodup hp hq h1 h2)
    unfold BootConfig.userLoads
    rw [(userAccess_eq hf (hformed q hq) va).2, if_pos hva, userStores_eq hf (hformed p hp)]
    cases haddr : userAddr c.kernelPhysBase n.sys.vm (n.sys.sched.proc q).pgd va with
    | none => rfl
    | some y =>
      have hsame := userWrites_frame (fun va' x hx => userAddr_ne (halign hp) (halign hq) hdis hx
        haddr) ws m
      rw [Option.map_some, Option.map_some, hsame]

end Isolation

/-- The first process is created, started and forks. -/
theorem firstFork_isolated : ∃ boot n, System.Boot highRamConfig boot ∧
    Run (CountedStep highRamConfig.kernelPhysBase) ⟨boot, 0⟩
      [.call (.create (some initFile)), .call (.exec 0xC0104000), .call (.fork 0 0 0)] n ∧
    n.sys.procs.length = 2 ∧ Isolated highRamConfig blankTables 0x40600000 boot n.sys := by
  have hany : ((highRamConfig.init fun _ => 0).bind fun g =>
      execute (fun m op => m.sys.admitsStep op) (Counted.next highRamConfig.kernelPhysBase)
        ⟨systemOf highRamConfig g, 0⟩
        [.call (.create (some initFile)), .call (.exec 0xC0104000), .call (.fork 0 0 0)]).any
      (fun n => decide (n.sys.procs.length = 2)) = true := by
    decide +kernel
  obtain ⟨n, hn, htest⟩ := (Option.any_eq_true _ _).mp hany
  obtain ⟨g, hg, hexec⟩ := Option.bind_eq_some_iff.mp hn
  have hboot : (systemOf highRamConfig g).Boot highRamConfig :=
    ⟨by decide +kernel, ⟨_, g, [], ⟨g, []⟩, hg, .nil _, rfl⟩,
      ⟨_, [], _, .nil _, rfl, rfl⟩, fun _ => rfl, rfl⟩
  have hstep : ∀ (m : Counted) (op : TableOp) (k : Counted), m.sys.admitsStep op = true →
      m.next highRamConfig.kernelPhysBase op = some k →
      CountedStep highRamConfig.kernelPhysBase m op k := fun _ _ _ => countedStep_of_next
  have hrun := Run.of_execute hstep hexec
  have hblank : blankTables.Unmapped :=
    ⟨fun _ => (by decide : entryType 0 = 0), fun _ _ => (by decide : entryType 0 = l2Invalid)⟩
  exact ⟨_, n, hboot, hrun, of_decide_eq_true htest,
    countedRun_isolated hboot rfl hrun hblank 0x40600000⟩

end Leg
