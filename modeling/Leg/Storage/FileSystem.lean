import Leg.Memory.HeapClients

/-! The filesystem of `fs.c` over the kernel heap: the mount with its buffers, and the lookups in
what it leaves behind. A `none` is an access outside a buffer or a failed assertion of the heap. -/
namespace Leg
open Memory

def fsMagic : ℕ := 0x4C454746

/-- `sizeof(fs_header_t)`. -/
def fsHeaderBytes : ℕ := 8

/-- `sizeof(fs_blob_t)`. -/
def fsBlobBytes : ℕ := 16

/-- `fs_blob_t`. -/
structure FsBlob where
  offset : ℕ
  size : ℕ
  nameOffset : ℕ
  nameSize : ℕ
  flags : ℕ
  deriving DecidableEq

/-- The descriptor whose bytes start at `a`. -/
def fsBlobAt (m : Memory) (a : ℕ) : FsBlob where
  offset := m.load a
  size := m.load (a + 4)
  nameOffset := m.load (a + 8)
  nameSize := m.load16 (a + 12)
  flags := m.load16 (a + 14)

/-- The bytes of the disk, and which of the block reads to come fail; a read that fails leaves
the given bytes in its buffer. -/
structure Disk where
  bytes : Memory
  fails : ℕ → Option (ℕ → UInt8)

/-- What the `k`-th `blk_read` puts into its buffer, and whether it succeeds. -/
def Disk.blkRead (d : Disk) (k sector : ℕ) : (ℕ → UInt8) × Bool :=
  match d.fails k with
  | none => (fun i => d.bytes (sector * 512 + i), true)
  | some junk => (junk, false)

theorem Disk.blkRead_bytes {d : Disk} {k sector : ℕ} (h : (d.blkRead k sector).2 = true) :
    (d.blkRead k sector).1 = fun i => d.bytes (sector * 512 + i) := by
  unfold Disk.blkRead at h ⊢
  split at h
  · rfl
  · exact absurd h (by simp)

/-- `read_sectors`, the `k`-th of the block reads. -/
def HeapState.readSectors (st : HeapState) (d : Disk) (k sector count : ℕ) (buf : Client) :
    HeapState × Bool :=
  (st.put buf.ptr (u32 (count * 512)) (d.blkRead k sector).1, (d.blkRead k sector).2)

/-- The globals of `fs.c`, and the heap. -/
structure Fs where
  heap : HeapState
  startSector : ℕ
  blobCount : ℕ
  blobs : ℕ
  names : ℕ

/-- `desc_end` for a count. -/
def descEnd (count : ℕ) : ℕ := u32 (fsHeaderBytes + u32 (count * fsBlobBytes))

/-- The sectors that hold `n` bytes. -/
def sectors (n : ℕ) : ℕ := u32 (n + 511) / 512

namespace Fs
variable (s : Fs) (d : Disk)

/-- Pass 1 of `fs_mount`: the magic and the count, if the first sector can be read. -/
def readHeader (startSector : ℕ) : Option (ℕ × ℕ) :=
  match d.blkRead 0 startSector with
  | (bytes, true) => some (load bytes 0, load bytes 4)
  | (_, false) => none

/-- Pass 2: the descriptor table in a buffer of its own, if it can be had. -/
def readDescs : Option (Fs × Option Client) := do
  let size := u32 (sectors (descEnd s.blobCount) * 512)
  let (heap, descBuf) ← s.heap.kmalloc size
  if descBuf.ptr = 0 then return ({ s with heap := heap }, none)
  let (heap, ok) := heap.readSectors d 1 s.startSector (sectors (descEnd s.blobCount)) descBuf
  if ¬ ok then
    let heap ← heap.kfree descBuf
    return ({ s with heap := heap }, none)
  let bytes := u32 (s.blobCount * fsBlobBytes)
  let (heap, blobs) ← heap.kmalloc bytes
  let s := { s with blobs := blobs.ptr }
  if blobs.ptr = 0 then
    let heap ← heap.kfree descBuf
    return ({ s with heap := heap }, none)
  let heap ← heap.memcpy blobs descBuf fsHeaderBytes bytes
  let heap ← heap.kfree descBuf
  return ({ s with heap := heap }, some blobs)

/-- The scan for the extent of the name region, over `k` descriptors from the `i`-th on. -/
def namesExtent (m : Memory) (blobs : Client) : (k i size : ℕ) → Option ℕ
  | 0, _, size => some size
  | k + 1, i, size =>
    if fsBlobBytes * (i + 1) ≤ blobs.bytes then
      let b := fsBlobAt m (blobs.ptr + fsBlobBytes * i)
      let stop := u32 (b.nameOffset + b.nameSize)
      namesExtent m blobs k (i + 1) (if stop > size then stop else size)
    else none

/-- Pass 3 up to its copy: the buffer with the name region and the one the names go to. -/
def readNames (blobs : Client) (namesSize : ℕ) : Option (Fs × Option (Client × Client)) := do
  let secs := sectors (u32 (descEnd s.blobCount + namesSize))
  let (heap, nameBuf) ← s.heap.kmalloc (u32 (secs * 512))
  if nameBuf.ptr = 0 then
    let heap ← heap.kfree blobs
    return ({ s with heap := heap }, none)
  let (heap, ok) := heap.readSectors d 2 s.startSector secs nameBuf
  if ¬ ok then
    let heap ← heap.kfree blobs
    let heap ← heap.kfree nameBuf
    return ({ s with heap := heap }, none)
  let (heap, names) ← heap.kmalloc (u32 (namesSize + s.blobCount))
  let s := { s with names := names.ptr }
  if names.ptr = 0 then
    let heap ← heap.kfree blobs
    let heap ← heap.kfree nameBuf
    return ({ s with heap := heap }, none)
  return ({ s with heap := heap }, some (nameBuf, names))

/-- The end of `fs_mount`. -/
def copyNames (names nameBuf : Client) (count namesSize : ℕ) : Option Fs := do
  let heap ← s.heap.memcpy names nameBuf (descEnd count) namesSize
  let heap ← heap.kfree nameBuf
  return { s with heap := heap }

def fsMount (startSector : ℕ) : Option (Fs × Bool) := do
  let s := { s with blobCount := 0, blobs := 0, names := 0 }
  match readHeader d startSector with
  | none => return (s, false)
  | some (magic, count) =>
    if magic ≠ fsMagic then return (s, false)
    let s := { s with startSector := startSector, blobCount := count }
    if count = 0 then return (s, true)
    let (s, blobs) ← s.readDescs d
    match blobs with
    | none => return (s, false)
    | some blobs =>
      let namesSize ← namesExtent s.heap.heap.mem blobs count 0 0
      let (s, bufs) ← s.readNames d blobs namesSize
      match bufs with
      | none => return (s, false)
      | some (nameBuf, names) =>
        let s ← s.copyNames names nameBuf count namesSize
        return (s, true)

def fsBlobCount : ℕ := s.blobCount

/-- `fs_blob_at`: the address of a descriptor, or null. -/
def fsBlobAddr (i : ℕ) : ℕ := if i ≥ s.blobCount then 0 else u32 (s.blobs + fsBlobBytes * i)

/-- `strncmp` of the bytes at `a` with the whole NUL-terminated `name`, and how many of them it
reads. -/
def strncmp (m : Memory) (a : ℕ) : List UInt8 → Bool × ℕ
  | [] => (true, 0)
  | c :: cs =>
    if m a ≠ 0 ∧ m a = c then
      let r := strncmp m (a + 1) cs
      (r.1, r.2 + 1)
    else (m a = c, 1)

/-- The loop of `fs_find` over `k` descriptors from the `i`-th on, with what it reads: pairs of an
address and a number of bytes. -/
def findLoop (name : List UInt8) : (k i : ℕ) → ℕ × List (ℕ × ℕ)
  | 0, _ => (0, [])
  | k + 1, i =>
    let a := u32 (s.blobs + fsBlobBytes * i)
    let b := fsBlobAt s.heap.heap.mem a
    let start := u32 (s.names + b.nameOffset)
    let found := strncmp s.heap.heap.mem start name
    if b.nameSize = name.length then
      if found.1 then (a, [(a, fsBlobBytes), (start, found.2)])
      else
        let rest := findLoop name k (i + 1)
        (rest.1, (a, fsBlobBytes) :: (start, found.2) :: rest.2)
    else
      let rest := findLoop name k (i + 1)
      (rest.1, (a, fsBlobBytes) :: rest.2)

/-- `fs_find`, with what it reads of the kernel's data. -/
def fsFind (name : List UInt8) : ℕ × List (ℕ × ℕ) := s.findLoop name s.blobCount 0

end Fs

end Leg
