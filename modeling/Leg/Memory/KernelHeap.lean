import Leg.Lib.ByteMemory
import Leg.Memory.Layout

/-! The kernel heap of `alloc.c`: a first-fit free list whose headers lie in the memory they
describe. A null pointer is `0`; a failed assertion is `none`. -/
namespace Leg

/-- `HDR_SIZE`. -/
def hdrBytes : ℕ := 12

def kheapMinSplit : ℕ := 32

def kheapAlign : ℕ := 8

def kheapMagicFree : ℕ := 0xCAFE

def kheapMagicUsed : ℕ := 0xBEEF

/-- The mark left in a header that was merged into its neighbour. -/
def kheapMagicDead : ℕ := 0xDEAD

def alignTag : ℕ := 0xA11F

/-- `sizeof(align_meta_t)`. -/
def alignMetaBytes : ℕ := 8

/-- `kheap_t` and the memory its headers lie in. -/
structure KHeap where
  mem : Memory
  base : ℕ
  capacity : ℕ
  used : ℕ
  freeList : ℕ

namespace KHeap
variable (s : KHeap)

/-- The fields of the `kheap_hdr` at `h`. -/
def magic (h : ℕ) : ℕ := s.mem.load h
def size (h : ℕ) : ℕ := s.mem.load (h + 4)
def nextFree (h : ℕ) : ℕ := s.mem.load (h + 8)

def setMagic (h v : ℕ) : KHeap := { s with mem := s.mem.store h v }
def setSize (h v : ℕ) : KHeap := { s with mem := s.mem.store (h + 4) v }
def setNextFree (h v : ℕ) : KHeap := { s with mem := s.mem.store (h + 8) v }

/-- `prev->next_free = n`, or `free_list = n` without a `prev`. -/
def relink (prev n : ℕ) : KHeap :=
  if prev ≠ 0 then s.setNextFree prev n else { s with freeList := n }

/-- Cut the block `cur` after `size` bytes; the rest becomes a free block at `split`. -/
def splitTail (cur split size : ℕ) : KHeap :=
  let s := s.setMagic split kheapMagicFree
  let s := s.setSize split (wsub (wsub (s.size cur) size) hdrBytes)
  let s := s.setNextFree split (s.nextFree cur)
  s.setSize cur size

/-- The last lines of `kmalloc`'s branch: the block is in use. -/
def markUsed (cur : ℕ) : KHeap :=
  let s := s.setMagic cur kheapMagicUsed
  let s := s.setNextFree cur 0
  { s with used := u32 (s.used + s.size cur) }

/-- The branch of `kmalloc` that takes the block `cur`. -/
def take (prev cur size : ℕ) : KHeap × ℕ :=
  let s :=
    if u32 (size + hdrBytes + kheapMinSplit) ≤ s.size cur then
      let split := u32 (cur + hdrBytes + size)
      (s.splitTail cur split size).relink prev split
    else s.relink prev (s.nextFree cur)
  (s.markUsed cur, u32 (cur + hdrBytes))

/-- The loop of `kmalloc` from `cur` on, with the free block `prev` before it. -/
def kmallocLoop (size : ℕ) : (fuel prev cur : ℕ) → Option (KHeap × ℕ)
  | 0, _, _ => none
  | fuel + 1, prev, cur =>
    if cur = 0 then some (s, 0)
    else if s.magic cur ≠ kheapMagicFree then none
    else if size ≤ s.size cur then some (s.take prev cur size)
    else kmallocLoop size fuel cur (s.nextFree cur)

/-- A list of headers is shorter than the region has bytes. -/
def kmalloc (size : ℕ) : Option (KHeap × ℕ) :=
  if size = 0 then some (s, 0)
  else s.kmallocLoop (alignUp size kheapAlign) (s.capacity + 1) 0 s.freeList

def kzalloc (size : ℕ) : Option (KHeap × ℕ) :=
  match s.kmalloc size with
  | none => none
  | some (s, p) => some (if p ≠ 0 then { s with mem := s.mem.fill p size 0 } else s, p)

def kmallocAligned (size alignment : ℕ) : Option (KHeap × ℕ) :=
  if size = 0 ∨ alignment = 0 ∨ alignment &&& (alignment - 1) ≠ 0 then some (s, 0)
  else
    let alignment := if alignment < kheapAlign then kheapAlign else alignment
    let total := u32 (size + alignment + alignMetaBytes)
    match s.kmalloc total with
    | none => none
    | some (s, raw) =>
      if raw = 0 then some (s, 0)
      else
        let aligned := alignUp (u32 (raw + alignMetaBytes)) alignment
        let tagAt := wsub aligned alignMetaBytes
        some ({ s with mem := (s.mem.store tagAt raw).store (tagAt + 4) alignTag }, aligned)

/-- The pointer `kfree` goes on with: that of the block, for an aligned pointer. -/
def resolve (ptr : ℕ) : ℕ :=
  let tagAt := wsub ptr alignMetaBytes
  let raw := s.mem.load tagAt
  if s.mem.load (tagAt + 4) = alignTag ∧ s.base ≤ raw ∧ raw < u32 (s.base + s.capacity) then raw
  else ptr

def hdrValid (h expectedMagic : ℕ) : Prop :=
  ¬ (h < s.base ∨ u32 (h + hdrBytes) > u32 (s.base + s.capacity)) ∧ s.magic h = expectedMagic

instance (h expectedMagic : ℕ) : Decidable (s.hdrValid h expectedMagic) :=
  inferInstanceAs (Decidable (_ ∧ _))

/-- The search of `kfree` for the free blocks around `h`. -/
def findSlot (h : ℕ) : (fuel prev cur : ℕ) → Option (ℕ × ℕ)
  | 0, _, _ => none
  | fuel + 1, prev, cur =>
    if cur ≠ 0 ∧ cur < h then findSlot h fuel cur (s.nextFree cur) else some (prev, cur)

/-- The free block `h` takes in the free block `next` that starts where it ends. -/
def absorb (h next : ℕ) : KHeap :=
  let s := s.setSize h (u32 (s.size h + u32 (hdrBytes + s.size next)))
  let s := s.setNextFree h (s.nextFree next)
  s.setMagic next kheapMagicDead

def coalesceNext (h : ℕ) : KHeap :=
  let next := s.nextFree h
  if next ≠ 0 ∧ next = u32 (h + hdrBytes + s.size h) ∧ s.magic next = kheapMagicFree then
    s.absorb h next
  else s

def coalescePrev (prev h : ℕ) : KHeap :=
  if prev ≠ 0 ∧ h = u32 (prev + hdrBytes + s.size prev) ∧ s.magic prev = kheapMagicFree then
    s.absorb prev h
  else s

def kfree (ptr : ℕ) : Option KHeap :=
  if ptr = 0 then some s
  else
    let h := wsub (s.resolve ptr) hdrBytes
    if ¬ s.hdrValid h kheapMagicUsed then none
    else
      let s := s.setMagic h kheapMagicFree
      let s := { s with used := wsub s.used (s.size h) }
      match s.findSlot h (s.capacity + 1) 0 s.freeList with
      | none => none
      | some (prev, cur) =>
        let s := s.setNextFree h cur
        let s := s.relink prev h
        let s := s.coalesceNext h
        some (s.coalescePrev prev h)

/-- The size test, the copy and the final free of `krealloc` work on the block; what is copied
starts at the pointer. -/
def krealloc (ptr size : ℕ) : Option (KHeap × ℕ) :=
  if ptr = 0 then s.kmalloc size
  else if size = 0 then (s.kfree ptr).map fun s => (s, 0)
  else
    let h := wsub (s.resolve ptr) hdrBytes
    if ¬ s.hdrValid h kheapMagicUsed then none
    else
      let rounded := alignUp size kheapAlign
      if rounded ≤ s.size h then some (s, ptr)
      else
        match s.kmalloc size with
        | none => none
        | some (s, newPtr) =>
          if newPtr = 0 then some (s, 0)
          else
            let n := if s.size h < size then s.size h else size
            let s := { s with mem := s.mem.copyUp newPtr ptr n }
            (s.kfree ptr).map fun s => (s, newPtr)

end KHeap

/-- The heap part of `mm_init`. -/
def kheapInit (mem : Memory) (heapVa : ℕ) : KHeap :=
  let s : KHeap := {
    mem := mem
    base := heapVa
    capacity := kheapSize
    used := 0
    freeList := heapVa }
  ((s.setMagic heapVa kheapMagicFree).setSize heapVa (wsub kheapSize hdrBytes)).setNextFree heapVa 0

end Leg
