import Leg.Lib.Bitmap
import Leg.Memory.Layout
import Mathlib.Logic.Function.Basic

/-! The physical page allocator of `alloc.c`. The words of the bitmap are a function of
their index from `g_pmm.bitmap` on; what else lies in memory is not part of this level. -/
namespace Leg

def pageSize : ℕ := 4096

def pageShift : ℕ := 12

def bmBits : ℕ := 32

/-- `mm_err_t`. -/
inductive MmErr where
  | ok
  | oom
  | align
  | range
  | inuse
  | free
  deriving DecidableEq

/-- `phys_mm_t`. -/
structure Pmm where
  ramBase : ℕ
  ramEnd : ℕ
  totalPages : ℕ
  bitmapPa : ℕ
  bitmap : ℕ → ℕ
  bitmapWords : ℕ
  freePages : ℕ
  reservedPages : ℕ
  nextHint : ℕ

def bmSet (bm : ℕ → ℕ) (bit : ℕ) : ℕ → ℕ :=
  Function.update bm (bit / bmBits) (bm (bit / bmBits) ||| 1 <<< (bit % bmBits))

def bmClear (bm : ℕ → ℕ) (bit : ℕ) : ℕ → ℕ :=
  Function.update bm (bit / bmBits) (bm (bit / bmBits) &&& bnot (1 <<< (bit % bmBits)))

def bmTest (bm : ℕ → ℕ) (bit : ℕ) : Bool := (bm (bit / bmBits) >>> (bit % bmBits)) &&& 1 ≠ 0

/-- The first run of `n` free bits at or after `startBit`, else from bit 0 up to it. -/
def bmFindFreeRun (bm : ℕ → ℕ) (totalBits startBit n : ℕ) : ℕ :=
  match Bitmap.runSearch (bmTest bm) n (totalBits - startBit) startBit startBit 0 with
  | some start => start
  | none =>
    if startBit > 0 then
      (Bitmap.runSearch (bmTest bm) n startBit 0 startBit 0).getD u32Max
    else u32Max

/-- The loop of `mm_page_alloc_n` over the bits of a run. -/
def bmSetRun (bm : ℕ → ℕ) (idx n : ℕ) : ℕ → ℕ :=
  (List.range n).foldl (fun bm i => bmSet bm (idx + i)) bm

namespace Pmm
variable (g : Pmm)

def paToIdx (pa : ℕ) : ℕ := wsub pa g.ramBase >>> pageShift

def idxToPa (idx : ℕ) : ℕ := u32 (g.ramBase + u32 (idx <<< pageShift))

def paInRange (pa : ℕ) : Prop := g.ramBase ≤ pa ∧ pa < g.ramEnd

instance (pa : ℕ) : Decidable (g.paInRange pa) := inferInstanceAs (Decidable (_ ∧ _))

/-- The body of `reserve_range`'s loop. -/
def reservePage (pa : ℕ) : Pmm :=
  let idx := g.paToIdx pa
  if bmTest g.bitmap idx then g
  else { g with
    bitmap := bmSet g.bitmap idx
    reservedPages := g.reservedPages + 1
    freePages := if g.freePages > 0 then g.freePages - 1 else g.freePages }

/-- `reserve_range`; the loop visits `base`, `base + PAGE_SIZE`, … while below `end`. -/
def reserveRange (base fin : ℕ) : Pmm :=
  let base := alignDown base pageSize
  let fin := alignUp fin pageSize
  let base := if base < g.ramBase then g.ramBase else base
  let fin := if fin > g.ramEnd then g.ramEnd else fin
  (List.range ((fin - base + (pageSize - 1)) / pageSize)).foldl
    (fun g k => g.reservePage (base + k * pageSize)) g

end Pmm

def paAligned (pa : ℕ) : Prop := pa &&& (pageSize - 1) = 0

instance (pa : ℕ) : Decidable (paAligned pa) := inferInstanceAs (Decidable (_ = _))

/-- The fields of `g_pmm` as `mm_init` sets them before it reserves anything; `memory` is what
the words from the bitmap's address on held before. -/
def Pmm.start (ramBase ramEnd bitmapPa : ℕ) (memory : ℕ → ℕ) : Pmm :=
  let totalPages := wsub ramEnd ramBase >>> pageShift
  let bitmapWords := divRoundUp totalPages bmBits
  { ramBase := ramBase
    ramEnd := ramEnd
    totalPages := totalPages
    bitmapPa := bitmapPa
    bitmap := fun i => if i < bitmapWords then 0 else memory i
    bitmapWords := bitmapWords
    freePages := totalPages
    reservedPages := 0
    nextHint := 0 }

/-- The page part of `mm_init`, `none` where an assertion fails. -/
def mmInit (kernelPhysBase memBase memSize reservedEnd heapVa : ℕ) (memory : ℕ → ℕ) :
    Option Pmm :=
  let end64 := u64 (memBase + memSize)
  let ramEnd := if end64 > u32Max then u32Max &&& bnot (pageSize - 1) else end64
  let ramBase := alignUp memBase pageSize
  let ramEnd := alignDown ramEnd pageSize
  let bitmapPa := alignUp reservedEnd pageSize
  let g := Pmm.start ramBase ramEnd bitmapPa memory
  let bitmapEnd := u32 (bitmapPa + g.bitmapWords * 4)
  let heapPa := virtToPhys kernelPhysBase heapVa
  if memSize > 0 ∧ ramEnd > ramBase ∧ bitmapEnd ≤ ramEnd then
    some ((g.reserveRange bitmapPa bitmapEnd).reserveRange heapPa (u32 (heapPa + kheapSize)))
  else none

def mmPageAlloc (g : Pmm) : Pmm × ℕ :=
  if g.freePages = 0 then (g, 0)
  else
    let idx := bmFindFreeRun g.bitmap g.totalPages g.nextHint 1
    if idx = u32Max then (g, 0)
    else ({ g with
      bitmap := bmSet g.bitmap idx
      freePages := g.freePages - 1
      nextHint := (idx + 1) % g.totalPages }, g.idxToPa idx)

def mmPageAllocN (g : Pmm) (n : ℕ) : Pmm × ℕ :=
  if n = 0 then (g, 0)
  else if g.freePages < n then (g, 0)
  else
    let idx := bmFindFreeRun g.bitmap g.totalPages g.nextHint n
    if idx = u32Max then (g, 0)
    else ({ g with
      bitmap := bmSetRun g.bitmap idx n
      freePages := g.freePages - n
      nextHint := (idx + n) % g.totalPages }, g.idxToPa idx)

/-- `hint_aligned`: the hint rounded up to a multiple of `align_pages`. -/
def Pmm.hintAligned (g : Pmm) (alignPages : ℕ) : ℕ :=
  u32 (divRoundUp g.nextHint alignPages * alignPages)

/-- The bits of `n` pages from `idx` on, in the order the loops over `idx + i` name them. -/
def runBits (idx n : ℕ) : List ℕ := (List.range n).map fun i => u32 (idx + i)

/-- One pass of `mm_page_alloc_aligned` from candidate `idx` on, over at most so many of them:
`none` when that does not end the loop. -/
def alignedPass (bm : ℕ → ℕ) (n alignPages fin : ℕ) : ℕ → ℕ → Option (Option ℕ)
  | 0, _ => none
  | k + 1, idx =>
    if u32 (idx + n) ≤ fin then
      if (runBits idx n).all fun i => !bmTest bm i then some (some idx)
      else alignedPass bm n alignPages fin k (u32 (idx + alignPages))
    else some none

/-- The two passes. A pass that takes more than `2 ^ 32` candidates comes back to one of them
and never ends. -/
def Pmm.alignedSearch (g : Pmm) (n alignPages : ℕ) : Option (Option ℕ) :=
  match alignedPass g.bitmap n alignPages g.totalPages 4294967296 (g.hintAligned alignPages) with
  | some none => alignedPass g.bitmap n alignPages (g.hintAligned alignPages) 4294967296 0
  | found => found

/-- `mm_page_alloc_aligned`, `none` where it does not return. -/
def mmPageAllocAligned (g : Pmm) (n alignPages : ℕ) : Option (Pmm × ℕ) :=
  if n = 0 ∨ alignPages = 0 then some (g, 0)
  else if g.freePages < n then some (g, 0)
  else (g.alignedSearch n alignPages).map fun found =>
    match found with
    | some idx => ({ g with
        bitmap := (runBits idx n).foldl bmSet g.bitmap
        freePages := g.freePages - n
        nextHint := u32 (idx + n) % g.totalPages }, g.idxToPa idx)
    | none => (g, 0)

/-- The step both frees make: a page whose bit is set becomes free. -/
def Pmm.release (g : Pmm) (idx : ℕ) : Pmm :=
  { g with bitmap := bmClear g.bitmap idx, freePages := g.freePages + 1 }

/-- The last step of both frees: the hint goes down to the first page given back. -/
def Pmm.lowerHint (g : Pmm) (idx : ℕ) : Pmm :=
  if idx < g.nextHint then { g with nextHint := idx } else g

def mmPageFree (g : Pmm) (pa : ℕ) : Pmm × MmErr :=
  if ¬ paAligned pa then (g, .align)
  else if ¬ g.paInRange pa then (g, .range)
  else
    let idx := g.paToIdx pa
    if ¬ bmTest g.bitmap idx then (g, .free)
    else ((g.release idx).lowerHint idx, .ok)

/-- The loop of `mm_page_free_n` from page `i` on: it stops at the first page that is free. -/
def Pmm.freeLoop (g : Pmm) (pa i : ℕ) : ℕ → Pmm × MmErr
  | 0 => (g, .ok)
  | k + 1 =>
    let idx := g.paToIdx (u32 (pa + u32 (i * pageSize)))
    if ¬ bmTest g.bitmap idx then (g, .free)
    else (g.release idx).freeLoop pa (i + 1) k

def mmPageFreeN (g : Pmm) (pa n : ℕ) : Pmm × MmErr :=
  if ¬ paAligned pa then (g, .align)
  else if ¬ g.paInRange pa then (g, .range)
  else
    let freed := g.freeLoop pa 0 n
    if freed.2 = .ok then (freed.1.lowerHint (g.paToIdx pa), .ok) else freed

def mmPageIsAllocated (g : Pmm) (pa : ℕ) : Bool :=
  if ¬ paAligned pa ∨ ¬ g.paInRange pa then false else bmTest g.bitmap (g.paToIdx pa)

end Leg
