import Leg.Memory.KernelHeap
import Leg.Memory.PageRun

/-! What the boot code places in memory before `mm_init`, and the allocations after it: which
configurations keep the kernel's own memory out of the allocators' hands. -/
namespace Leg
open Runs

def earlyHeapSize : ℕ := 0x20000

/-- The exception stacks `boot.s` sets up; `kboot` starts the SVC stack below them. -/
def exceptionStackBytes : ℕ := 0x1000

/-- What the boot code finds: address and size of the device tree, its first memory node, the
linker's `bss_end`, and how far down the SVC stack reaches. -/
structure BootConfig where
  dtb : ℕ
  dtbSize : ℕ
  memBase : ℕ
  memSize : ℕ
  bssEnd : ℕ
  svcDepth : ℕ
  bssEnd_lower : kernelVa ≤ bssEnd
  bssEnd_upper : bssEnd ≤ stackBottom
  svcDepth_le : svcDepth + exceptionStackBytes ≤ stackBottom - kernelVa

namespace BootConfig
variable (c : BootConfig)

/-- `heap_base` of `kmain`: the early heap starts behind the device tree. -/
def heapBase : ℕ := alignUp (u32 (c.dtb + c.dtbSize)) 16

def reservedEnd : ℕ := u32 (c.heapBase + earlyHeapSize)

def kernelPhysBase : ℕ := u32 ((c.dtb &&& bnot 0xFFFFF) + kphysOffset)

def heapVa : ℕ := alignUp c.bssEnd pageSize

def heapPa : ℕ := virtToPhys c.kernelPhysBase c.heapVa

def ramBase : ℕ := alignUp c.memBase pageSize

def ramEnd : ℕ := ramTop c.memBase c.memSize

def bitmapPa : ℕ := alignUp c.reservedEnd pageSize

def bitmapBytes : ℕ := divRoundUp (wsub c.ramEnd c.ramBase >>> pageShift) bmBits * 4

/-- The call of `mm_init` in `kmain`. -/
def init (memory : ℕ → ℕ) : Option Pmm :=
  mmInit c.kernelPhysBase c.memBase c.memSize c.reservedEnd c.heapVa memory

/-- The lowest address the stacks reach. -/
def stackStart : ℕ := stackBottom - exceptionStackBytes - c.svcDepth

def InStackVa (v : ℕ) : Prop := c.stackStart ≤ v ∧ v < stackBottom

/-- The physical bytes from `base` on; the range may pass the top of the address space. -/
def OnRange (base len a : ℕ) : Prop := wsub a base < len

def InEarly (a : ℕ) : Prop := c.ramBase ≤ a ∧ a < c.reservedEnd

def InImage (a : ℕ) : Prop := OnRange c.kernelPhysBase (c.bssEnd - kernelVa) a

def InStacks (a : ℕ) : Prop :=
  OnRange (virtToPhys c.kernelPhysBase c.stackStart) (stackBottom - c.stackStart) a

def InBitmap (a : ℕ) : Prop := OnRange c.bitmapPa c.bitmapBytes a

def InHeap (a : ℕ) : Prop := OnRange c.heapPa kheapSize a

/-- The kernel needs the byte at the physical address `a`. -/
def Live (a : ℕ) : Prop :=
  c.InEarly a ∨ c.InImage a ∨ c.InStacks a ∨ c.InBitmap a ∨ c.InHeap a

/-- Every live byte of managed RAM lies in a page that `mm_init` reserves. The page at address
0 is left out: as a result it means failure. -/
def Spared : Prop := ∀ a, c.ramBase ≤ a → a < c.ramEnd → pageSize ≤ a → c.Live a →
  Reserved c.bitmapPa c.bitmapBytes c.heapPa (a / pageSize * pageSize)

end BootConfig

inductive BootOp where
  | pageAlloc
  | pageAllocN (n : ℕ)
  | kmalloc (size : ℕ)

/-- The allocators, with all pages they have returned. -/
structure BootState where
  pmm : Pmm
  heap : KHeap
  pages : List ℕ

/-- The pages of a result: none if it is null. -/
def returned (pa n : ℕ) : List ℕ := if pa = 0 then [] else pagesFrom pa n

/-- One allocation; `none` if an assertion of the heap fails. -/
def BootState.next (s : BootState) : BootOp → Option BootState
  | .pageAlloc =>
    let r := mmPageAlloc s.pmm
    some { s with pmm := r.1, pages := s.pages ++ returned r.2 1 }
  | .pageAllocN n =>
    let r := mmPageAllocN s.pmm n
    some { s with pmm := r.1, pages := s.pages ++ returned r.2 n }
  | .kmalloc size => (s.heap.kmalloc size).map fun r => { s with heap := r.1 }

def BootStep (s : BootState) (op : BootOp) (t : BootState) : Prop := s.next op = some t

/-- No allocation after `mm_init` returns a page with a live byte, and the heap's addresses
are not those of the stacks. -/
def KeepsLive (c : BootConfig) (g : Pmm) : Prop :=
  (∀ mem ops t, Run BootStep ⟨g, kheapInit mem c.heapVa, []⟩ ops t →
    ∀ pa ∈ t.pages, ∀ b < pageSize, ¬ c.Live (pa + b)) ∧
  ∀ v, c.heapVa ≤ v → v < c.heapVa + kheapSize → ¬ c.InStackVa v

section Runs
variable {c : BootConfig} {g : Pmm} {s t : BootState} {memory : ℕ → ℕ}

theorem BootConfig.init_ok (hi : c.init memory = some g) :
    PmmOk g ∧ g.ramBase = c.ramBase ∧ g.ramEnd = c.ramEnd ∧
      ∀ j < g.totalPages, bmTest g.bitmap j =
        decide (Reserved c.bitmapPa c.bitmapBytes c.heapPa (c.ramBase + j * pageSize)) := by
  obtain ⟨hok, hbase, hend, hpa, hbits⟩ := mmInit_ok hi
  have hwords : g.bitmapWords * 4 = c.bitmapBytes := by
    have htotal : wsub c.ramEnd c.ramBase >>> pageShift = g.totalPages := by
      have h1 := hok.ramEnd
      have h2 := hok.ramEnd_lt
      rw [← show g.ramBase = c.ramBase from hbase, ← show g.ramEnd = c.ramEnd from hend,
        wsub_of_le (by omega) h2, Nat.shiftRight_eq_div_pow, h1]
      unfold pageSize pageShift
      omega
    rw [BootConfig.bitmapBytes, htotal, hok.words]
    have := hok.total_lt
    unfold divRoundUp u32 bmBits
    omega
  refine ⟨hok, hbase, hend, fun j hj => ?_⟩
  rw [hbits j hj, hpa, hwords, hbase]
  rfl

/-- What holds of every state after `mm_init`: bits that were set stay set, and the pages
returned were free then. -/
structure Handed (g : Pmm) (s : BootState) : Prop where
  pmm : PmmOk s.pmm
  region : SameRegion g s.pmm
  kept : ∀ j, bmTest g.bitmap j = true → bmTest s.pmm.bitmap j = true
  pages : ∀ pa ∈ s.pages, pa ≠ 0 ∧
    ∃ j < g.totalPages, pa = g.ramBase + j * pageSize ∧ bmTest g.bitmap j = false

theorem Taken.fresh {g' h : Pmm} {pa n : ℕ} (ht : Taken g' h pa n) (hreg : SameRegion g g')
    (hkept : ∀ j, bmTest g.bitmap j = true → bmTest g'.bitmap j = true) {q : ℕ}
    (hq : q ∈ pagesFrom pa n) :
    ∃ j < g.totalPages, q = g.ramBase + j * pageSize ∧ bmTest g.bitmap j = false := by
  obtain ⟨-, idx, hpa, hfit, hfree, -⟩ := ht
  obtain ⟨i, hin, rfl⟩ := mem_pagesFrom.mp hq
  refine ⟨idx + i, ?_, ?_, ?_⟩
  · rw [← hreg.totalPages]
    omega
  · rw [hpa, hreg.ramBase]
    ring
  · have := hfree (idx + i) (by omega) (by omega)
    by_contra hset
    rw [Bool.not_eq_false] at hset
    rw [hkept _ hset] at this
    exact absurd this (by decide)

theorem handed_allocN (h : Handed g s) (n : ℕ) :
    Handed g { s with
      pmm := (mmPageAllocN s.pmm n).1
      pages := s.pages ++ returned (mmPageAllocN s.pmm n).2 n } := by
  rcases mmPageAllocN_cases h.pmm n with ⟨hnone, -⟩ | ⟨-, hok, htaken⟩
  · rw [hnone]
    exact ⟨h.pmm, h.region, h.kept, by simpa [returned] using h.pages⟩
  · have ⟨hreg, idx, hpa, hfit, hfree, hbits⟩ := htaken
    refine ⟨hok, h.region.trans hreg, fun j hj => ?_, fun pa hmem => ?_⟩
    · rw [hbits, h.kept j hj, Bool.true_or]
    · rcases List.mem_append.mp hmem with hmem | hmem
      · exact h.pages pa hmem
      · unfold returned at hmem
        split at hmem
        next => exact absurd hmem (List.not_mem_nil)
        next hne =>
          obtain ⟨i, hin, rfl⟩ := mem_pagesFrom.mp hmem
          exact ⟨by omega, htaken.fresh h.region h.kept hmem⟩

theorem bootStep_handed {op : BootOp} (h : Handed g s) (hs : BootStep s op t) : Handed g t := by
  cases op with
  | pageAlloc =>
    have := handed_allocN h 1
    rw [← mmPageAlloc_eq] at this
    exact Option.some.inj hs ▸ this
  | pageAllocN n => exact Option.some.inj hs ▸ handed_allocN h n
  | kmalloc size =>
    obtain ⟨r, -, rfl⟩ := Option.map_eq_some_iff.mp hs
    exact ⟨h.pmm, h.region, h.kept, h.pages⟩

/-- Single pages are returned until none is free, so every free page is returned once. -/
theorem exists_run_returns (n : ℕ) (hok : PmmOk s.pmm) (hn : s.pmm.freeSet.card = n) :
    ∃ ops t, Run BootStep s ops t ∧ (∀ pa ∈ s.pages, pa ∈ t.pages) ∧
      ∀ j ∈ s.pmm.freeSet, s.pmm.ramBase + j * pageSize ≠ 0 →
        s.pmm.ramBase + j * pageSize ∈ t.pages := by
  induction n generalizing s with
  | zero =>
    refine ⟨[], s, .nil s, fun _ h => h, fun j hj => ?_⟩
    rw [Finset.card_eq_zero.mp hn] at hj
    exact absurd hj (Finset.notMem_empty j)
  | succ n ih =>
    rcases mmPageAllocN_cases hok 1 with ⟨-, hempty⟩ | ⟨-, hok', hreg, idx, hpa, hfit, hfree, hbits⟩
    · rw [hempty rfl] at hn
      simp at hn
    · have hstep : BootStep s .pageAlloc { s with
          pmm := (mmPageAllocN s.pmm 1).1
          pages := s.pages ++ returned (mmPageAllocN s.pmm 1).2 1 } := by
        rw [← mmPageAlloc_eq]
        rfl
      have hidx : idx ∈ s.pmm.freeSet :=
        Bitmap.mem_clear.mpr ⟨by omega, hfree idx (le_refl _) (by omega)⟩
      have herase : (mmPageAllocN s.pmm 1).1.freeSet = s.pmm.freeSet.erase idx := by
        ext j
        have hone : (idx ≤ j ∧ j < idx + 1) ↔ j = idx := by omega
        simp only [Pmm.freeSet, Bitmap.mem_clear, Finset.mem_erase, hbits, hreg.totalPages,
          Bool.or_eq_false_iff, decide_eq_false_iff_not, hone]
        tauto
      obtain ⟨ops, t, hrun, hkeep, hall⟩ := ih (s := { s with
          pmm := (mmPageAllocN s.pmm 1).1
          pages := s.pages ++ returned (mmPageAllocN s.pmm 1).2 1 }) hok' (by
        rw [herase, Finset.card_erase_of_mem hidx, hn]
        rfl)
      refine ⟨_, t, .cons hstep hrun, fun pa hmem => hkeep pa (List.mem_append_left _ hmem),
        fun j hj hne => ?_⟩
      dsimp only at hall
      rw [hreg.ramBase, herase] at hall
      by_cases hji : j = idx
      · refine hkeep _ (List.mem_append_right _ ?_)
        rw [hpa, ← hji, returned, if_neg hne]
        exact mem_pagesFrom.mpr ⟨0, by decide, by simp⟩
      · exact hall j (Finset.mem_erase.mpr ⟨hji, hj⟩) hne

end Runs

section Verdict
variable {c : BootConfig} {g : Pmm} {memory : ℕ → ℕ}

theorem BootConfig.heapVa_bounds (c : BootConfig) :
    c.heapVa % pageSize = 0 ∧ kernelVa ≤ c.heapVa ∧ c.heapVa ≤ stackBottom := by
  have h1 := c.bssEnd_lower
  have h2 := c.bssEnd_upper
  unfold BootConfig.heapVa
  rw [alignUp_page]
  unfold u32 pageSize kernelVa stackBottom at *
  omega

theorem heapClear_iff (c : BootConfig) :
    (∀ v, c.heapVa ≤ v → v < c.heapVa + kheapSize → ¬ c.InStackVa v) ↔
      stackBottom ≤ c.heapVa := by
  obtain ⟨hal, hlo, hhi⟩ := c.heapVa_bounds
  have hd := c.svcDepth_le
  unfold BootConfig.InStackVa BootConfig.stackStart
  constructor
  · intro h
    by_contra hlt
    refine h (stackBottom - 1) (by omega) ?_ ⟨?_, ?_⟩
    all_goals
      unfold kheapSize stackBottom kernelVa exceptionStackBytes at *
      omega
  · intro h v hv _ hin
    omega

/-- The allocators keep off the kernel's live memory exactly when the heap starts at the bottom of
the stacks and every live byte of managed RAM is in a reserved page. -/
theorem keepsLive_iff (hi : c.init memory = some g) :
    KeepsLive c g ↔ stackBottom ≤ c.heapVa ∧ c.Spared := by
  obtain ⟨hok, hbase, hend, hbits⟩ := c.init_ok hi
  have hal := hok.base_aligned
  have hramEnd := hok.ramEnd
  unfold KeepsLive
  rw [heapClear_iff, and_comm]
  refine and_congr_right fun _ => ⟨fun h a hlo hhi ha hlive => ?_,
    fun h mem ops t hrun pa hpa b hb hlive => ?_⟩
  · -- the page of a live byte that is not reserved is free, and some run returns it
    by_contra hres
    obtain ⟨ops, t, hrun, -, hall⟩ := exists_run_returns
      (s := ⟨g, kheapInit (fun _ => 0) c.heapVa, []⟩) _ hok rfl
    dsimp only at hall
    rw [← hbase] at hlo
    rw [← hend] at hhi
    have hpage : g.ramBase + (a - g.ramBase) / pageSize * pageSize = a / pageSize * pageSize := by
      unfold pageSize at *
      omega
    have hj : (a - g.ramBase) / pageSize < g.totalPages := by
      unfold pageSize at *
      omega
    have hmem := hall ((a - g.ramBase) / pageSize)
    rw [hpage] at hmem
    have hfree : (a - g.ramBase) / pageSize ∈ g.freeSet := by
      refine Bitmap.mem_clear.mpr ⟨hj, ?_⟩
      rw [hbits _ hj, ← hbase, hpage]
      exact decide_eq_false hres
    refine h (fun _ => 0) ops t hrun _ (hmem hfree ?_) (a % pageSize) (Nat.mod_lt _ (by decide)) ?_
    · unfold pageSize at *
      omega
    · rwa [Nat.div_add_mod']
  · have hinit : Handed g ⟨g, kheapInit mem c.heapVa, []⟩ :=
      ⟨hok, .refl g, fun _ h => h, by simp⟩
    have ht := hrun.preserves (fun _ _ _ h hs => bootStep_handed h hs) hinit
    obtain ⟨hne, j, hj, rfl, hclear⟩ := ht.pages pa hpa
    rw [hbits j hj, decide_eq_false_iff_not, ← hbase] at hclear
    have hpage : (g.ramBase + j * pageSize + b) / pageSize * pageSize =
        g.ramBase + j * pageSize := by
      unfold pageSize at *
      omega
    have := h (g.ramBase + j * pageSize + b) (by omega) (by unfold pageSize at *; omega)
      (by unfold pageSize at *; omega) hlive
    rw [hpage] at this
    exact hclear this

end Verdict

/-- QEMU's layout: a device tree of 1 MB at the start of 128 MB of RAM. -/
def qemuConfig : BootConfig where
  dtb := 0x40000000
  dtbSize := 0x100000
  memBase := 0x40000000
  memSize := 0x8000000
  bssEnd := 0xC0080000
  svcDepth := 0x1000
  bssEnd_lower := by decide
  bssEnd_upper := by decide
  svcDepth_le := by decide

/-- The first page returned holds the device tree. -/
theorem first_page_is_dtb :
    ∃ g, qemuConfig.init (fun _ => 0) = some g ∧ ¬ KeepsLive qemuConfig g := by
  have hsome : ((qemuConfig.init fun _ => 0).any fun g => decide ((mmPageAlloc g).2 = 0x40000000)) =
      true := by decide +kernel
  obtain ⟨g, hg, hpage⟩ := (Option.any_eq_true _ _).mp hsome
  have hpage := of_decide_eq_true hpage
  refine ⟨g, hg, fun h => ?_⟩
  have hmem : 0x40000000 ∈ returned (mmPageAlloc g).2 1 := by
    rw [hpage]
    decide
  refine h.1 (fun _ => 0) [.pageAlloc] _ (.single rfl) 0x40000000 hmem 0 (by decide) (.inl ?_)
  exact ⟨by decide +kernel, by decide +kernel⟩

/-- A RAM node above the image and the heap, and an image that reaches up to the stacks. -/
def highRamConfig : BootConfig where
  dtb := 0x40000000
  dtbSize := 0x1000
  memBase := 0x40500000
  memSize := 0x100000
  bssEnd := 0xC0100000
  svcDepth := 0x1000
  bssEnd_lower := by decide
  bssEnd_upper := by decide
  svcDepth_le := by decide

theorem keepsLive_highRam : ∃ g, highRamConfig.init (fun _ => 0) = some g ∧
    KeepsLive highRamConfig g := by
  have hsome : (highRamConfig.init fun _ => 0).isSome := by decide +kernel
  obtain ⟨g, hg⟩ := Option.isSome_iff_exists.mp hsome
  have hbase : highRamConfig.ramBase = 0x40500000 := by decide +kernel
  have hend : highRamConfig.ramEnd = 0x40600000 := by decide +kernel
  have hphys : highRamConfig.kernelPhysBase = 0x40200000 := by decide +kernel
  have hstart : virtToPhys 0x40200000 highRamConfig.stackStart = 0x402FE000 := by decide +kernel
  have hlen : stackBottom - highRamConfig.stackStart = 0x2000 := by decide +kernel
  have hbitmap : highRamConfig.bitmapPa = 0x40021000 ∧ highRamConfig.bitmapBytes = 32 := by
    decide +kernel
  have hheap : highRamConfig.heapPa = 0x40300000 := by decide +kernel
  have hre : highRamConfig.reservedEnd = 0x40021000 := by decide +kernel
  have himage : highRamConfig.bssEnd - kernelVa = 0x100000 := by decide
  refine ⟨g, hg, (keepsLive_iff hg).mpr ⟨by decide +kernel, fun a hlo hhi _ hlive => ?_⟩⟩
  simp only [BootConfig.Live, BootConfig.InEarly, BootConfig.InBitmap, BootConfig.InImage,
    BootConfig.InStacks, BootConfig.InHeap, BootConfig.OnRange, hbase, hend, hphys, hstart, hlen,
    hbitmap, hheap, hre, himage, wsub, u32, kheapSize] at *
  omega

end Leg
