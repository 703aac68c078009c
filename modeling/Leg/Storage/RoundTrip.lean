import Leg.Storage.BlobNames

/-! What `build_fs` of `mkfs.py` puts on a disk is what `fs_mount`, `fs_find` and `fs_read` make of
it. -/
namespace Leg
open Memory

namespace Fs
open HeapState
variable {s t : Fs} {d : Disk} {startSector i : ℕ} {blobs : List MkfsBlob} {b : MkfsBlob}
  {img : List UInt8}

/-- `fs_read` of the descriptor at an address, the `k`-th of the block reads. -/
def fsRead (s : Fs) (d : Disk) (k blob buf : ℕ) : Fs × Bool :=
  let b := fsBlobAt s.heap.heap.mem blob
  let sector := u32 (s.startSector + b.offset / 512)
  let count := sectors b.size
  let r := s.heap.readSectors d k sector count ⟨buf, u32 (count * 512)⟩
  ({ s with heap := r.1 }, r.2)

section Allocations
variable (s : Fs) (d : Disk)

/-- What the calls of `kmalloc` in pass 2 return. -/
def descsAllocs : Option (List ℕ) := do
  let (heap, descBuf) ← s.heap.kmalloc (u32 (sectors (descEnd s.blobCount) * 512))
  if descBuf.ptr = 0 then return [descBuf.ptr]
  let (heap, ok) := heap.readSectors d 1 s.startSector (sectors (descEnd s.blobCount)) descBuf
  if ¬ ok then return [descBuf.ptr]
  let (_, blobs) ← heap.kmalloc (u32 (s.blobCount * fsBlobBytes))
  return [descBuf.ptr, blobs.ptr]

/-- What the calls of `kmalloc` in pass 3 return. -/
def namesAllocs (namesSize : ℕ) : Option (List ℕ) := do
  let secs := sectors (u32 (descEnd s.blobCount + namesSize))
  let (heap, nameBuf) ← s.heap.kmalloc (u32 (secs * 512))
  if nameBuf.ptr = 0 then return [nameBuf.ptr]
  let (heap, ok) := heap.readSectors d 2 s.startSector secs nameBuf
  if ¬ ok then return [nameBuf.ptr]
  let (_, names) ← heap.kmalloc (u32 (namesSize + s.blobCount))
  return [nameBuf.ptr, names.ptr]

/-- What the calls of `kmalloc` in a mount return, in their order. -/
def mountAllocs (startSector : ℕ) : Option (List ℕ) := do
  match readHeader d startSector with
  | none => return []
  | some (magic, count) =>
    if magic ≠ fsMagic then return []
    if count = 0 then return []
    let s := s.headed startSector count
    let first ← s.descsAllocs d
    let (s, blobs) ← s.readDescs d
    match blobs with
    | none => return first
    | some blobs =>
      let namesSize ← namesExtent s.heap.heap.mem blobs count 0 0
      let rest ← s.namesAllocs d namesSize
      return first ++ rest

end Allocations

theorem readSectors_ok (heap : HeapState) {k : ℕ} (hk : d.fails k = none) (sector count : ℕ)
    (buf : Client) : (heap.readSectors d k sector count buf).2 = true := by
  unfold readSectors Disk.blkRead
  rw [hk]

/-- Pass 2 fails only for want of a buffer. -/
theorem descsAllocs_spec {r : Option Client} (hread : d.fails 1 = none)
    (h : s.readDescs d = some (t, r)) :
    ∃ l, s.descsAllocs d = some l ∧ (r = none → 0 ∈ l) := by
  unfold readDescs at h
  unfold descsAllocs
  obtain ⟨⟨h₁, desc⟩, hk₁, h⟩ := Option.bind_eq_some_iff.mp h
  rw [hk₁]
  simp only [Option.bind_eq_bind, Option.bind_some]
  dsimp only at h
  split at h
  next hnull =>
    rw [if_pos hnull, hnull]
    exact ⟨_, rfl, fun _ => List.mem_singleton_self _⟩
  next hdesc =>
    have hok := readSectors_ok h₁ hread s.startSector (sectors (descEnd s.blobCount)) desc
    generalize h₁.readSectors d 1 s.startSector (sectors (descEnd s.blobCount)) desc = r at h hok ⊢
    rw [if_neg (not_not.mpr hok)] at h
    rw [if_neg hdesc, if_neg (not_not.mpr hok)]
    obtain ⟨⟨h₂, blobs⟩, hk₂, h⟩ := Option.bind_eq_some_iff.mp h
    rw [hk₂, Option.bind_some]
    dsimp only at h ⊢
    split at h
    next hnull =>
      rw [hnull]
      exact ⟨_, rfl, fun _ => List.mem_cons_of_mem _ (List.mem_singleton_self _)⟩
    next =>
      obtain ⟨h₃, -, h⟩ := Option.bind_eq_some_iff.mp h
      obtain ⟨h₄, -, h⟩ := Option.bind_eq_some_iff.mp h
      obtain ⟨-, rfl⟩ := Prod.mk.inj (Option.some.inj h)
      exact ⟨_, rfl, fun hnone => nomatch hnone⟩

/-- Pass 3 fails only for want of a buffer. -/
theorem namesAllocs_of_none {c : Client} {namesSize : ℕ} (hread : d.fails 2 = none)
    (h : s.readNames d c namesSize = some (t, none)) :
    ∃ l, s.namesAllocs d namesSize = some l ∧ 0 ∈ l := by
  unfold readNames at h
  unfold namesAllocs
  obtain ⟨⟨h₁, nameBuf⟩, hk₁, h⟩ := Option.bind_eq_some_iff.mp h
  dsimp only
  rw [hk₁]
  simp only [Option.bind_eq_bind, Option.bind_some]
  dsimp only at h
  split at h
  next hnull =>
    rw [if_pos hnull, hnull]
    exact ⟨_, rfl, List.mem_singleton_self _⟩
  next hbuf =>
    have hok := readSectors_ok h₁ hread s.startSector
      (sectors (u32 (descEnd s.blobCount + namesSize))) nameBuf
    generalize h₁.readSectors d 2 s.startSector (sectors (u32 (descEnd s.blobCount + namesSize)))
      nameBuf = r at h hok ⊢
    rw [if_neg (not_not.mpr hok)] at h
    rw [if_neg hbuf, if_neg (not_not.mpr hok)]
    obtain ⟨⟨h₂, names⟩, hk₂, h⟩ := Option.bind_eq_some_iff.mp h
    rw [hk₂, Option.bind_some]
    dsimp only at h ⊢
    split at h
    next hnull =>
      rw [hnull]
      exact ⟨_, rfl, List.mem_cons_of_mem _ (List.mem_singleton_self _)⟩
    next => exact nomatch (Prod.mk.inj (Option.some.inj h)).2

theorem mountAllocs_headed {count : ℕ} (hh : readHeader d startSector = some (fsMagic, count))
    (h0 : count ≠ 0) : s.mountAllocs d startSector = (do
      let first ← (s.headed startSector count).descsAllocs d
      let (t, blobs) ← (s.headed startSector count).readDescs d
      match blobs with
      | none => return first
      | some blobs =>
        let namesSize ← namesExtent t.heap.heap.mem blobs count 0 0
        let rest ← t.namesAllocs d namesSize
        return first ++ rest) := by
  unfold mountAllocs
  simp only [hh, ne_eq, not_true_eq_false, if_false, if_neg h0]

theorem readHeader_image (himg : Mkfs.ImageAt d.bytes (startSector * 512) blobs)
    (hread : d.fails 0 = none) :
    readHeader d startSector = some (fsMagic, blobs.length) := by
  unfold readHeader Disk.blkRead
  rw [hread, ← himg.magic, ← himg.count]
  simp only [Memory.load, Nat.add_assoc, Nat.add_zero]

/-- An image on a disk that can be read is mounted, if there is memory for it. -/
theorem fsMount_of_allocs (h : s.heap.Ok) (hb : Mkfs.buildFs blobs = some img)
    (hd : d.bytes.Stored (startSector * 512) img) (hreads : ∀ k, d.fails k = none)
    (hallocs : ∀ l, s.mountAllocs d startSector = some l → 0 ∉ l) :
    ∃ t, s.fsMount d startSector = some (t, true) ∧ t.startSector = startSector := by
  have himg := Mkfs.imageAt_of_stored hb hd
  have hheader := readHeader_image himg (hreads 0)
  by_cases hne : blobs = []
  · subst hne
    unfold fsMount
    rw [hheader]
    exact ⟨_, rfl, rfl⟩
  have hpos : blobs.length ≠ 0 := (List.length_pos_iff.mpr hne).ne'
  rw [mountAllocs_headed hheader hpos] at hallocs
  rcases descsRead_or h d startSector blobs.length with ⟨u, hdescs, -⟩ | ⟨u, descs, hread⟩
  · exfalso
    obtain ⟨l, hl, hzero⟩ := descsAllocs_spec (hreads 1) hdescs
    rw [hl, hdescs] at hallocs
    exact hallocs l rfl (hzero rfl)
  rcases hread.image_or himg hne hheader with ⟨v, hnames, -⟩ | ⟨w, names, hmount, hcopied⟩
  · exfalso
    obtain ⟨first, hfirst, -⟩ := descsAllocs_spec (hreads 1) hread.run
    obtain ⟨rest, hrest, hzero⟩ := namesAllocs_of_none (hreads 2) hnames
    have hbytes := hread.bytes
    rw [u32_of_lt (himg.descsFit hne)] at hbytes
    have hscan := namesExtent_disk hbytes hread.data
    have hextent := himg.maxNameEnd hne
    change Fs.maxNameEnd (diskBlob d startSector) blobs.length 0 0 = _ at hextent
    rw [hextent] at hscan
    rw [hfirst, hread.run] at hallocs
    simp only [Option.bind_eq_bind, Option.bind_some, hscan, hrest] at hallocs
    exact hallocs _ rfl (List.mem_append_right _ hzero)
  · exact ⟨w, hmount, by rw [hcopied.state]; rfl⟩

/-- `fs_read` of a blob puts its data, filled up to whole sectors, into a buffer with the room. -/
theorem Mounted.fsRead_data (h : Mounted t blobs) (hstart : t.startSector = 0)
    (hb : Mkfs.buildFs blobs = some img) (hd : d.bytes.Stored 0 img) {k : ℕ}
    (hread : d.fails k = none) (hi : blobs[i]? = some b) {buf : ℕ} (hbuf : 0 < buf)
    (hroom : buf + Mkfs.alignUp b.data.length ≤ 4294967296) :
    ∃ u, t.fsRead d k (t.fsBlobAddr i) buf = (u, true) ∧
      u.heap.heap.mem.Stored buf (Mkfs.dataBytes b) ∧
      ∀ a, a < buf ∨ buf + Mkfs.alignUp b.data.length ≤ a →
        u.heap.heap.mem a = t.heap.heap.mem a := by
  obtain ⟨-, -, hdesc⟩ := h.descAt hi
  have hfits := h.fits _ (List.mem_of_getElem? (Mkfs.descs_getElem hi))
  simp only [Mkfs.packs, Bool.and_eq_true, decide_eq_true_eq] at hfits
  have hoffset := hfits.1.1.1.1
  have hsectors : u32 (sectors b.data.length * 512) = Mkfs.alignUp b.data.length := by
    unfold sectors Mkfs.alignUp u32 at *
    omega
  have hsector : u32 (t.startSector + Mkfs.dataOffset blobs i / 512) * 512 =
      Mkfs.dataOffset blobs i := by
    rw [hstart, Nat.zero_add, u32_of_lt (by omega)]
    exact Nat.div_mul_cancel (Mkfs.dvd_dataOffset blobs i)
  have hdata := Mkfs.dataStored_get hb hd hi
  rw [Nat.zero_add] at hdata
  unfold fsRead readSectors Disk.blkRead
  rw [hdesc, hread]
  dsimp only
  rw [hsector, hsectors]
  refine ⟨_, rfl, fun j hj => ?_, fun a ha => ?_⟩
  · rw [Mkfs.dataBytes_length] at hj
    have hput := put_get t.heap.heap.mem buf (fun j => d.bytes (Mkfs.dataOffset blobs i + j)) hj
    exact hput.trans (hdata j (by rwa [Mkfs.dataBytes_length]))
  · exact if_neg (by omega)

section Reachable
variable {mem : Memory} {heapVa : ℕ} {ops : List HeapOp}

/-- What `build_fs` has put on the disk is mounted, found by its names and read back, after any
run of the heap's calls. -/
theorem image_round_trip (hpos : 0 < heapVa) (hfits : heapVa + kheapSize < 4294967296)
    (hr : Runs.Run HeapStep ⟨kheapInit mem heapVa, []⟩ ops s.heap)
    (hb : Mkfs.buildFs blobs = some img) (hd : d.bytes.Stored 0 img)
    (hreads : ∀ k, d.fails k = none) (hallocs : ∀ l, s.mountAllocs d 0 = some l → 0 ∉ l) :
    ∃ t, s.fsMount d 0 = some (t, true) ∧ t.fsBlobCount = blobs.length ∧
      ∀ name, (0 : UInt8) ∉ name →
        match blobs.findIdx? fun b => b.name == name with
        | none => (t.fsFind name).1 = 0
        | some i => (t.fsFind name).1 = t.fsBlobAddr i ∧ t.fsBlobAddr i ≠ 0 ∧
          ∃ b, blobs[i]? = some b ∧
            (fsBlobAt t.heap.heap.mem (t.fsBlobAddr i)).flags = b.flags ∧
            ∀ k buf, 0 < buf → buf + Mkfs.alignUp b.data.length ≤ 4294967296 →
              ∃ u, t.fsRead d k (t.fsBlobAddr i) buf = (u, true) ∧
                u.heap.heap.mem.Stored buf (Mkfs.dataBytes b) ∧
                ∀ a, a < buf ∨ buf + Mkfs.alignUp b.data.length ≤ a →
                  u.heap.heap.mem a = t.heap.heap.mem a := by
  obtain ⟨hva, hok⟩ := heapRun_heapOk hpos hfits hr
  have hd' : d.bytes.Stored (0 * 512) img := by rwa [Nat.zero_mul]
  obtain ⟨t, hmount, hstart⟩ := fsMount_of_allocs hok hb hd' hreads hallocs
  obtain ⟨hmounted, hbase⟩ := fsMount_mounted hok hb hd' hmount
  refine ⟨t, hmount, hmounted.count, fun name hnul => ?_⟩
  have hfind := hmounted.fsFind_eq hnul
  cases hfirst : blobs.findIdx? fun b => b.name == name with
  | none =>
    rw [hfirst] at hfind
    exact hfind
  | some i =>
    rw [hfirst] at hfind
    obtain ⟨hlt, -⟩ := List.findIdx?_eq_some_iff_getElem.mp hfirst
    have hi := List.getElem?_eq_getElem hlt
    obtain ⟨-, hlow, hdesc⟩ := hmounted.descAt hi
    refine ⟨hfind, ?_, blobs[i], hi, ?_, fun k buf hbuf hroom => ?_⟩
    · omega
    · rw [hdesc]
    · exact hmounted.fsRead_data hstart hb hd (hreads k) hi hbuf hroom

/-- A file of three bytes and an empty one. -/
def twoFiles : List MkfsBlob := [⟨[97], [1, 2, 3], 1⟩, ⟨[98], [], 0⟩]

def twoFilesImage : List UInt8 := (Mkfs.buildFs twoFiles).getD []

theorem two_files_read : ∃ t, unmounted.fsMount (goodDisk twoFilesImage) 0 = some (t, true) ∧
    (t.fsFind [97]).1 = t.fsBlobAddr 0 ∧ (t.fsFind [99]).1 = 0 ∧
    ∃ u, t.fsRead (goodDisk twoFilesImage) 3 (t.fsBlobAddr 0) 0x80000000 = (u, true) ∧
      u.heap.heap.mem.Stored 0x80000000 ([1, 2, 3] ++ List.replicate 509 0) := by
  have hr : Runs.Run HeapStep ⟨kheapInit (fun _ => 0) 0xC0100000, []⟩ [] unmounted.heap := .nil _
  have hb : Mkfs.buildFs twoFiles = some twoFilesImage := by decide +kernel
  have htest : ((unmounted.mountAllocs (goodDisk twoFilesImage) 0).all
      fun l => !l.contains 0) = true := by decide +kernel
  have hallocs (l : List ℕ) (hl : unmounted.mountAllocs (goodDisk twoFilesImage) 0 = some l) :
      0 ∉ l := by
    rw [hl] at htest
    simpa using htest
  obtain ⟨t, hmount, -, hfind⟩ := image_round_trip (by decide) (by decide) hr hb
    (goodDisk_stored _) (fun _ => rfl) hallocs
  obtain ⟨hfound, -, b, hfirst, -, hread⟩ := hfind [97] (by decide)
  obtain rfl : ⟨[97], [1, 2, 3], 1⟩ = b := Option.some.inj hfirst
  obtain ⟨u, hu, hdata, -⟩ := hread 3 0x80000000 (by decide) (by decide)
  exact ⟨t, hmount, hfound, hfind [99] (by decide), u, hu, hdata⟩

end Reachable

end Fs

end Leg
