import Leg.Memory.KernelHeapLayout
import Leg.Memory.PageAllocator
import Leg.Process.Scheduler

/-! The translation tables of `mmu.c` and the functions of `llf.c` and `process.c` that build,
copy and free an address space. The words of a table are kept by its address, beside the heap
that hands the addresses out; what the mapped pages hold is not part of this level. -/
namespace Leg

def l1PageTable : ℕ := 0b01

def l2Invalid : ℕ := 0b00

def l2SmallPage : ℕ := 0b10

/-- The type bits of an L1 or L2 entry. -/
def entryType (w : ℕ) : ℕ := w &&& 3

/-- `page_table.address << 10` of an L1 entry. -/
def l1Address (w : ℕ) : ℕ := w >>> 10 <<< 10

/-- `small_page.address << PAGE_SHIFT` of an L2 entry. -/
def l2Address (w : ℕ) : ℕ := w >>> 12 <<< 12

/-- The L1 entry `mmu_attach_l2` writes. -/
def l1TableEntry (phys : ℕ) : ℕ := phys >>> 10 <<< 10 ||| l1PageTable

/-- The L2 entry `mmu_map_page` writes: a small page, cacheable and bufferable, open to the user. -/
def l2PageEntry (pa : ℕ) : ℕ := pa >>> 12 <<< 12 ||| 0x7E

def l2Idx (va : ℕ) : ℕ := va >>> 12 &&& 0xFF

def procTableSize : ℕ := 128

/-- `PROC_TABLE_ALIGN`, 2 ^ 7. -/
def procTableAlign : ℕ := 128

/-- `sizeof(page_table)`, also its alignment, 2 ^ 10. -/
def l2TableSize : ℕ := 1024

/-- The entries of an L2 table. -/
def l2Entries : ℕ := 256

/-- `sizeof(struct process)`. -/
def processSize : ℕ := 376

/-- The allocators and the tables. The blocks in use are listed for the proofs only. -/
structure Vm where
  heap : KHeap
  pmm : Pmm
  l1 : ℕ → ℕ → ℕ
  l2 : ℕ → ℕ → ℕ
  live : List Client

namespace Vm
variable (vm : Vm)

/-- The state after an allocation of `size` bytes with the result `r`. -/
def gain (size : ℕ) (r : KHeap × ℕ) : Vm :=
  { vm with heap := r.1, live := if r.2 = 0 then vm.live else ⟨r.2, size⟩ :: vm.live }

def kmalloc (size : ℕ) : Option (Vm × ℕ) :=
  (vm.heap.kmalloc size).map fun r => (vm.gain size r, r.2)

def kmallocAligned (size alignment : ℕ) : Option (Vm × ℕ) :=
  (vm.heap.kmallocAligned size alignment).map fun r => (vm.gain size r, r.2)

def kfree (ptr : ℕ) : Option Vm :=
  (vm.heap.kfree ptr).map fun h =>
    { vm with heap := h, live := vm.live.filter fun c => c.ptr ≠ ptr }

def pageAlloc : Vm × ℕ := ({ vm with pmm := (mmPageAlloc vm.pmm).1 }, (mmPageAlloc vm.pmm).2)

def pageFree (pa : ℕ) : Vm := { vm with pmm := (mmPageFree vm.pmm pa).1 }

def clearL1 (tt : ℕ) : Vm := { vm with l1 := Function.update vm.l1 tt fun _ => 0 }

def clearL2 (pt : ℕ) : Vm := { vm with l2 := Function.update vm.l2 pt fun _ => 0 }

def mmuAllocProcTable : Option (Vm × ℕ) :=
  (vm.kmallocAligned procTableSize procTableAlign).map fun r =>
    (if r.2 ≠ 0 then r.1.clearL1 r.2 else r.1, r.2)

def mmuAllocL2Table : Option (Vm × ℕ) :=
  (vm.kmallocAligned l2TableSize l2TableSize).map fun r =>
    (if r.2 ≠ 0 then r.1.clearL2 r.2 else r.1, r.2)

/-- `tt[mb] = w`. -/
def setL1 (tt mb w : ℕ) : Vm :=
  { vm with l1 := Function.update vm.l1 tt (Function.update (vm.l1 tt) mb w) }

/-- `pt[i] = w`. -/
def setL2 (pt i w : ℕ) : Vm :=
  { vm with l2 := Function.update vm.l2 pt (Function.update (vm.l2 pt) i w) }

def mmuMapPage (pt va pa : ℕ) : Vm := vm.setL2 pt (l2Idx va) (l2PageEntry pa)

section Tables
variable (kernelPhysBase : ℕ)

def mmuAttachL2 (tt vaMb pt : ℕ) : Vm :=
  vm.setL1 tt vaMb (l1TableEntry (virtToPhys kernelPhysBase pt))

def getOrAllocL2 (pgd vaMb : ℕ) : Option (Vm × ℕ) :=
  if entryType (vm.l1 pgd vaMb) = l1PageTable then
    some (vm, physToVirt kernelPhysBase (l1Address (vm.l1 pgd vaMb)))
  else
    vm.mmuAllocL2Table.map fun r =>
      (if r.2 ≠ 0 then r.1.mmuAttachL2 kernelPhysBase pgd vaMb r.2 else r.1, r.2)

end Tables
end Vm

section Load
variable (kernelPhysBase : ℕ)

/-- The loop of `map_pages` over `k` pages from page `i` on. -/
def mapPagesLoop (pgd pageBase : ℕ) : (k i : ℕ) → Vm → Option (Vm × Bool)
  | 0, _, vm => some (vm, true)
  | k + 1, i, vm => do
    let pageVa := u32 (pageBase + u32 (i * pageSize))
    let (vm, pt) ← vm.getOrAllocL2 kernelPhysBase pgd (pageVa >>> 20)
    if pt = 0 then return (vm, false)
    if entryType (vm.l2 pt (l2Idx pageVa)) ≠ l2Invalid then
      return ← mapPagesLoop pgd pageBase k (i + 1) vm
    let (vm, pa) := vm.pageAlloc
    if pa = 0 then return (vm, false)
    mapPagesLoop pgd pageBase k (i + 1) (vm.mmuMapPage pt pageVa pa)

def mapPages (pgd va memsz : ℕ) (vm : Vm) : Option (Vm × Bool) :=
  let pageBase := va &&& bnot (pageSize - 1)
  let pages := u32 (wsub va pageBase + memsz + pageSize - 1) / pageSize
  mapPagesLoop kernelPhysBase pgd pageBase pages 0 vm

/-- The fields of `llf_phdr_t` that decide what is mapped. -/
structure LlfPhdr where
  type : ℕ
  vaddr : ℕ
  memsz : ℕ

def llfSegNull : ℕ := 0

def llfMagic : ℕ := 0x4C4C4646

/-- `sizeof(llf_header_t)`. -/
def llfHeaderSize : ℕ := 24

/-- An LLF image: the header's fields and its `ph_count` program headers. -/
structure Llf where
  magic : ℕ
  entry : ℕ
  phdrs : List LlfPhdr

/-- The first loop of `llf_load`. -/
def mapSegments (pgd : ℕ) : List LlfPhdr → Vm → Option (Vm × Bool)
  | [], vm => some (vm, true)
  | ph :: phs, vm =>
    if ph.type = llfSegNull then mapSegments pgd phs vm
    else do
      let (vm, ok) ← mapPages kernelPhysBase pgd ph.vaddr ph.memsz vm
      if ok then mapSegments pgd phs vm else return (vm, false)

/-- `llf_load`, with the entry point where it succeeds. -/
def llfLoad (pgd : ℕ) (image : Llf) (bufSize : ℕ) (vm : Vm) : Option (Vm × Option ℕ) :=
  if bufSize < llfHeaderSize then some (vm, none)
  else if image.magic ≠ llfMagic then some (vm, none)
  else do
    let (vm, ok) ← mapSegments kernelPhysBase pgd image.phdrs vm
    return (vm, if ok then some image.entry else none)

/-- A blob that `fs_find` found, whether `fs_read` can read it, and what it then holds. -/
structure FsFile where
  size : ℕ
  executable : Bool
  readable : Bool
  image : Llf

/-- `fs_read(blob, buf) && llf_load(pgd, buf, llf_size, out_entry)`. -/
def readAndLoad (pgd : ℕ) (file : FsFile) (llfSize : ℕ) (vm : Vm) : Option (Vm × Option ℕ) :=
  if file.readable then llfLoad kernelPhysBase pgd file.image llfSize vm else some (vm, none)

/-- `load_user_image`, given the result of `fs_find`. -/
def loadUserImage (pgd : ℕ) (file : Option FsFile) (vm : Vm) : Option (Vm × Option ℕ) :=
  match file with
  | none => some (vm, none)
  | some file =>
    if ¬ file.executable then some (vm, none)
    else do
      let llfSize := alignUp file.size 512
      let (vm, buf) ← vm.kmalloc llfSize
      if buf = 0 then return (vm, none)
      let (vm, entry) ← readAndLoad kernelPhysBase pgd file llfSize vm
      let vm ← vm.kfree buf
      return (vm, entry)

def processAddPage (vm : Vm) (p : Process) : Option (Vm × Process × Bool) := do
  let va := wsub procStackTop (u32 ((p.stackPages + 1) * pageSize))
  let vaMb := va >>> 20
  let crossed := p.stackPages > 0 ∧ vaMb ≠ wsub procStackTop (u32 (p.stackPages * pageSize)) >>> 20
  let (vm, p, ok) ←
    if crossed then do
      let (vm, pt) ← vm.mmuAllocL2Table
      if pt = 0 then some (vm, p, false)
      else some (vm.mmuAttachL2 kernelPhysBase p.pgd vaMb pt, { p with stackPt := pt }, true)
    else some (vm, p, true)
  if ¬ ok then return (vm, p, false)
  let (vm, pa) := vm.pageAlloc
  if pa = 0 then return (vm, p, false)
  return (vm.mmuMapPage p.stackPt va pa, { p with stackPages := p.stackPages + 1 }, true)

/-- The loop of `setup_initial_stack`. -/
def addStackPages : (k : ℕ) → Vm → Process → Option (Vm × Process × Bool)
  | 0, vm, p => some (vm, p, true)
  | k + 1, vm, p => do
    let (vm, p, ok) ← processAddPage kernelPhysBase vm p
    if ok then addStackPages k vm p else return (vm, p, false)

def setupInitialStack (vm : Vm) (p : Process) : Option (Vm × Process × Bool) := do
  let (vm, pt) ← vm.getOrAllocL2 kernelPhysBase p.pgd (procStackTop >>> 20)
  let p := { p with stackPt := pt }
  if pt = 0 then return (vm, p, false)
  addStackPages kernelPhysBase procStackInitPages vm { p with stackPages := 0 }

end Load

section Copy
variable (kernelPhysBase : ℕ)

/-- The inner loop of `process_fork` over `k` entries from entry `i` on. -/
def forkPages (mb srcPt dstPt : ℕ) : (k i : ℕ) → Vm → Vm × Bool
  | 0, _, vm => (vm, true)
  | k + 1, i, vm =>
    if entryType (vm.l2 srcPt i) ≠ l2SmallPage then forkPages mb srcPt dstPt k (i + 1) vm
    else
      let (vm, dstPa) := vm.pageAlloc
      if dstPa = 0 then (vm, false)
      else forkPages mb srcPt dstPt k (i + 1) (vm.mmuMapPage dstPt (mb <<< 20 ||| i <<< 12) dstPa)

/-- The outer loop of `process_fork` over `k` slots from slot `mb` on. -/
def forkTables (parentPgd childPgd : ℕ) : (k mb : ℕ) → Vm → Option (Vm × Bool)
  | 0, _, vm => some (vm, true)
  | k + 1, mb, vm =>
    if entryType (vm.l1 parentPgd mb) ≠ l1PageTable then
      forkTables parentPgd childPgd k (mb + 1) vm
    else do
      let srcPt := physToVirt kernelPhysBase (l1Address (vm.l1 parentPgd mb))
      let (vm, dstPt) ← vm.mmuAllocL2Table
      if dstPt = 0 then return (vm, false)
      let vm := vm.mmuAttachL2 kernelPhysBase childPgd mb dstPt
      let (vm, ok) := forkPages mb srcPt dstPt l2Entries 0 vm
      if ok then forkTables parentPgd childPgd k (mb + 1) vm else return (vm, false)

end Copy

section Free
variable (kernelPhysBase : ℕ)

/-- The inner loop of `process_free`. -/
def freePages (pt : ℕ) (vm : Vm) : Vm :=
  (List.range l2Entries).foldl (fun vm i =>
    if entryType (vm.l2 pt i) = l2SmallPage then vm.pageFree (l2Address (vm.l2 pt i)) else vm) vm

/-- The loop of `process_free`, which `process_replace` repeats for the table it drops. -/
def freeTables (pgd : ℕ) (vm : Vm) : Option Vm :=
  (List.range procVaMb).foldlM (fun vm mb =>
    if entryType (vm.l1 pgd mb) ≠ l1PageTable then some vm
    else
      let pt := physToVirt kernelPhysBase (l1Address (vm.l1 pgd mb))
      (freePages pt vm).kfree pt) vm

/-- `process_free` of the struct at `p` with the table `pgd`. -/
def processFree (p pgd : ℕ) (vm : Vm) : Option Vm := do
  let vm ← freeTables kernelPhysBase pgd vm
  let vm ← vm.kfree pgd
  vm.kfree p

end Free

end Leg
