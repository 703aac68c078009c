import Leg.Storage.Image

/-! What a successful `fs_mount` of an image from `mkfs.py` leaves in the kernel heap. -/
namespace Leg

namespace KHeap
variable {s t : KHeap} {size ptr p : ℕ}

theorem kmallocLoop_base (fuel prev cur : ℕ) (h : s.kmallocLoop size fuel prev cur = some (t, p)) :
    t.base = s.base := by
  induction fuel generalizing prev cur with
  | zero => cases h
  | succ fuel ih =>
    rw [kmallocLoop] at h
    split at h
    · obtain ⟨rfl, -⟩ := Prod.mk.inj (Option.some.inj h)
      rfl
    split at h
    · cases h
    split at h
    · have htake : (s.take prev cur size).1.base = s.base := take_base prev cur
      rwa [Option.some.inj h] at htake
    · exact ih _ _ h

theorem kmalloc_base (h : s.kmalloc size = some (t, p)) : t.base = s.base := by
  unfold kmalloc at h
  split at h
  · obtain ⟨rfl, -⟩ := Prod.mk.inj (Option.some.inj h)
    rfl
  · exact kmallocLoop_base _ _ _ h

theorem coalesceNext_base (h : ℕ) : (s.coalesceNext h).base = s.base := by
  unfold coalesceNext
  dsimp only
  split <;> rfl

theorem kfree_base (h : s.kfree ptr = some t) : t.base = s.base := by
  unfold kfree at h
  split at h
  · rw [Option.some.inj h]
  dsimp only at h
  split at h
  · exact nomatch h
  split at h
  · exact nomatch h
  · rw [← Option.some.inj h, coalescePrev_base, coalesceNext_base, relink_base]
    rfl

end KHeap

namespace HeapState
variable {st st' : HeapState} {size : ℕ} {c : Client}

theorem kmalloc_base (h : st.kmalloc size = some (st', c)) : st'.heap.base = st.heap.base := by
  obtain ⟨r, hr, h⟩ := Option.map_eq_some_iff.mp h
  obtain ⟨rfl, -⟩ := Prod.mk.inj h
  rw [← KHeap.kmalloc_base hr]
  unfold gain
  split <;> rfl

theorem kfree_base (h : st.kfree c = some st') : st'.heap.base = st.heap.base := by
  obtain ⟨r, hr, rfl⟩ := Option.map_eq_some_iff.mp h
  exact KHeap.kfree_base hr

theorem memcpy_base {src : Client} {off n : ℕ} (h : st.memcpy c src off n = some st') :
    st'.heap.base = st.heap.base := by
  unfold memcpy at h
  split at h
  · rw [← Option.some.inj h]
    rfl
  · exact nomatch h

end HeapState

namespace Fs
open HeapState
variable {s t : Fs} {d : Disk} {startSector : ℕ}

theorem readDescs_base {r : Option Client} (h : s.readDescs d = some (t, r)) :
    t.heap.heap.base = s.heap.heap.base := by
  unfold readDescs at h
  obtain ⟨⟨h₁, desc⟩, hk₁, h⟩ := Option.bind_eq_some_iff.mp h
  have hb₁ := HeapState.kmalloc_base hk₁
  dsimp only at h
  split at h
  · obtain ⟨rfl, -⟩ := Prod.mk.inj (Option.some.inj h)
    exact hb₁
  generalize hread : h₁.readSectors d 1 s.startSector (sectors (descEnd s.blobCount)) desc = r₂ at h
  have hb₂ : r₂.1.heap.base = h₁.heap.base := by
    rw [← hread]
    rfl
  obtain ⟨h₂, ok⟩ := r₂
  dsimp only at h hb₂
  split at h
  · obtain ⟨h₃, hk₃, h⟩ := Option.bind_eq_some_iff.mp h
    obtain ⟨rfl, -⟩ := Prod.mk.inj (Option.some.inj h)
    exact (HeapState.kfree_base hk₃).trans (hb₂.trans hb₁)
  obtain ⟨⟨h₃, blobs⟩, hk₃, h⟩ := Option.bind_eq_some_iff.mp h
  have hb₃ := HeapState.kmalloc_base hk₃
  dsimp only at h
  split at h
  · obtain ⟨h₄, hk₄, h⟩ := Option.bind_eq_some_iff.mp h
    obtain ⟨rfl, -⟩ := Prod.mk.inj (Option.some.inj h)
    exact (HeapState.kfree_base hk₄).trans (hb₃.trans (hb₂.trans hb₁))
  obtain ⟨h₄, hk₄, h⟩ := Option.bind_eq_some_iff.mp h
  obtain ⟨h₅, hk₅, h⟩ := Option.bind_eq_some_iff.mp h
  obtain ⟨rfl, -⟩ := Prod.mk.inj (Option.some.inj h)
  exact (HeapState.kfree_base hk₅).trans ((HeapState.memcpy_base hk₄).trans
    (hb₃.trans (hb₂.trans hb₁)))

theorem readNames_base {blobs : Client} {namesSize : ℕ} {r : Option (Client × Client)}
    (h : s.readNames d blobs namesSize = some (t, r)) : t.heap.heap.base = s.heap.heap.base := by
  unfold readNames at h
  obtain ⟨⟨h₁, nameBuf⟩, hk₁, h⟩ := Option.bind_eq_some_iff.mp h
  have hb₁ := HeapState.kmalloc_base hk₁
  dsimp only at h
  split at h
  · obtain ⟨h₂, hk₂, h⟩ := Option.bind_eq_some_iff.mp h
    obtain ⟨rfl, -⟩ := Prod.mk.inj (Option.some.inj h)
    exact (HeapState.kfree_base hk₂).trans hb₁
  generalize hread : h₁.readSectors d 2 s.startSector
    (sectors (u32 (descEnd s.blobCount + namesSize))) nameBuf = r₂ at h
  have hb₂ : r₂.1.heap.base = h₁.heap.base := by
    rw [← hread]
    rfl
  obtain ⟨h₂, ok⟩ := r₂
  dsimp only at h hb₂
  split at h
  · obtain ⟨h₃, hk₃, h⟩ := Option.bind_eq_some_iff.mp h
    obtain ⟨h₄, hk₄, h⟩ := Option.bind_eq_some_iff.mp h
    obtain ⟨rfl, -⟩ := Prod.mk.inj (Option.some.inj h)
    exact (HeapState.kfree_base hk₄).trans ((HeapState.kfree_base hk₃).trans (hb₂.trans hb₁))
  obtain ⟨⟨h₃, names⟩, hk₃, h⟩ := Option.bind_eq_some_iff.mp h
  have hb₃ := HeapState.kmalloc_base hk₃
  dsimp only at h
  split at h
  · obtain ⟨h₄, hk₄, h⟩ := Option.bind_eq_some_iff.mp h
    obtain ⟨h₅, hk₅, h⟩ := Option.bind_eq_some_iff.mp h
    obtain ⟨rfl, -⟩ := Prod.mk.inj (Option.some.inj h)
    exact (HeapState.kfree_base hk₅).trans ((HeapState.kfree_base hk₄).trans
      (hb₃.trans (hb₂.trans hb₁)))
  obtain ⟨rfl, -⟩ := Prod.mk.inj (Option.some.inj h)
  exact hb₃.trans (hb₂.trans hb₁)

theorem copyNames_base {names nameBuf : Client} {count namesSize : ℕ}
    (h : s.copyNames names nameBuf count namesSize = some t) :
    t.heap.heap.base = s.heap.heap.base := by
  unfold copyNames at h
  obtain ⟨h₁, hk₁, h⟩ := Option.bind_eq_some_iff.mp h
  obtain ⟨h₂, hk₂, h⟩ := Option.bind_eq_some_iff.mp h
  rw [← Option.some.inj h]
  exact (HeapState.kfree_base hk₂).trans (HeapState.memcpy_base hk₁)

/-- The filesystem has these blobs: their descriptors and their names, one after the other, lie
in two buffers of the heap. -/
structure Mounted (s : Fs) (blobs : List MkfsBlob) : Prop where
  ok : s.heap.Ok
  count : s.blobCount = blobs.length
  fits : ∀ b ∈ Mkfs.descs blobs, Mkfs.packs b = true
  descs : ∀ i b, (Mkfs.descs blobs)[i]? = some b →
    fsBlobAt s.heap.heap.mem (s.blobs + fsBlobBytes * i) = b
  names : s.heap.heap.mem.Stored s.names (Mkfs.nameData blobs)
  buffers : blobs ≠ [] → ⟨s.blobs, fsBlobBytes * blobs.length⟩ ∈ s.heap.live ∧
    ⟨s.names, (Mkfs.nameData blobs).length + blobs.length⟩ ∈ s.heap.live

/-- A mount that succeeds has read the header. -/
theorem fsMount_header (hm : s.fsMount d startSector = some (t, true)) :
    readHeader d startSector = some (fsMagic, Memory.load d.bytes (startSector * 512 + 4)) ∧
      (Memory.load d.bytes (startSector * 512 + 4) = 0 →
        t.heap = s.heap ∧ t.blobCount = 0 ∧ t.startSector = startSector) := by
  have hheader : readHeader d startSector = none ∨ readHeader d startSector =
      some (Memory.load d.bytes (startSector * 512),
        Memory.load d.bytes (startSector * 512 + 4)) := by
    unfold readHeader Disk.blkRead
    cases d.fails 0 with
    | none =>
      right
      simp only [Memory.load, Nat.add_assoc, Nat.add_zero, Nat.zero_add]
    | some junk => exact .inl rfl
  rcases hheader with hnone | hsome
  · exfalso
    unfold fsMount at hm
    rw [hnone] at hm
    exact absurd (Prod.mk.inj (Option.some.inj hm)).2 (by simp)
  · by_cases hmagic : Memory.load d.bytes (startSector * 512) = fsMagic
    · rw [hmagic] at hsome
      refine ⟨hsome, fun hzero => ?_⟩
      unfold fsMount at hm
      simp only [hsome, ne_eq, not_true_eq_false, if_false, if_pos hzero, Option.pure_def,
        Option.some.injEq, Prod.mk.injEq] at hm
      rw [← hm.1]
      exact ⟨rfl, hzero, rfl⟩
    · exfalso
      unfold fsMount at hm
      simp only [hsome, ne_eq, if_pos hmagic] at hm
      exact absurd (Prod.mk.inj (Option.some.inj hm)).2 (by simp)

/-- A mount that succeeds has gone through its passes, or has found an empty filesystem. -/
theorem fsMount_passes {count : ℕ} (hm : s.fsMount d startSector = some (t, true))
    (hc : Memory.load d.bytes (startSector * 512 + 4) = count) (h0 : count ≠ 0) :
    ∃ u blobs namesSize v nameBuf names,
      (s.headed startSector count).readDescs d = some (u, some blobs) ∧
      u.readNames d blobs namesSize = some (v, some (nameBuf, names)) ∧
      v.copyNames names nameBuf count namesSize = some t := by
  obtain ⟨hheader, -⟩ := fsMount_header hm
  rw [hc] at hheader
  rw [fsMount_headed hheader h0] at hm
  obtain ⟨⟨u, blobs⟩, hdescs, hm⟩ := Option.bind_eq_some_iff.mp hm
  dsimp only at hm
  cases blobs with
  | none => exact absurd (Prod.mk.inj (Option.some.inj hm)).2 (by decide)
  | some blobs =>
    obtain ⟨n, -, hm⟩ := Option.bind_eq_some_iff.mp hm
    obtain ⟨⟨v, bufs⟩, hnames, hm⟩ := Option.bind_eq_some_iff.mp hm
    dsimp only at hm
    cases bufs with
    | none => exact absurd (Prod.mk.inj (Option.some.inj hm)).2 (by decide)
    | some bufs =>
      obtain ⟨w, hcopy, hm⟩ := Option.bind_eq_some_iff.mp hm
      obtain ⟨rfl, -⟩ := Prod.mk.inj (Option.some.inj hm)
      exact ⟨u, blobs, n, v, bufs.1, bufs.2, hdescs, hnames, hcopy⟩

theorem fsMount_base (hm : s.fsMount d startSector = some (t, true)) :
    t.heap.heap.base = s.heap.heap.base := by
  by_cases h0 : Memory.load d.bytes (startSector * 512 + 4) = 0
  · rw [((fsMount_header hm).2 h0).1]
  · obtain ⟨u, blobs, n, v, nameBuf, names, hdescs, hnames, hcopy⟩ := fsMount_passes hm rfl h0
    have hbase := readDescs_base hdescs
    exact (copyNames_base hcopy).trans ((readNames_base hnames).trans hbase)

/-- What a mount of an image has come to has its blobs. -/
theorem Copied.mounted {blobs : List MkfsBlob} {descs names : Client}
    (himg : Mkfs.ImageAt d.bytes (startSector * 512) blobs) (hne : blobs ≠ [])
    (h : Copied s d startSector blobs.length (Mkfs.nameData blobs).length descs names t) :
    Mounted t blobs := by
  have hblobs : t.blobs = descs.ptr := by rw [h.state]
  have hnames : t.names = names.ptr := by rw [h.state]
  refine ⟨h.ok, by rw [h.state]; rfl, himg.fits, fun i b hi => ?_, ?_, fun _ => ⟨?_, ?_⟩⟩
  · obtain ⟨hlt, -⟩ := List.getElem?_eq_some_iff.mp hi
    rw [Mkfs.descs_length] at hlt
    rw [← himg.descs i b hi]
    apply fsBlobAt_congr
    intro k hk
    have hin : fsBlobBytes * i + k < descs.bytes := by
      rw [h.blobsBytes]
      unfold fsBlobBytes at *
      omega
    rw [hblobs, Nat.add_assoc, h.descs _ hin]
    dsimp only
    rw [← Nat.add_assoc, ← Nat.add_assoc]
  · rw [hnames]
    apply himg.names.congr
    intro k hk
    rw [h.names k hk]
    dsimp only
    rw [himg.descEnd_eq hne, Nat.add_assoc]
  · rw [hblobs, Nat.mul_comm, ← h.blobsBytes, h.live]
    exact List.mem_cons_of_mem _ (List.mem_cons_self ..)
  · rw [hnames, ← h.namesBytes, h.live]
    exact List.mem_cons_self ..

theorem DescsRead.image_or {blobs : List MkfsBlob} {descs : Client}
    (himg : Mkfs.ImageAt d.bytes (startSector * 512) blobs) (hne : blobs ≠ [])
    (hh : readHeader d startSector = some (fsMagic, blobs.length))
    (h : DescsRead s d startSector blobs.length t descs) :
    (∃ u, t.readNames d descs (Mkfs.nameData blobs).length = some (u, none) ∧
      s.fsMount d startSector = some (u, false)) ∨
    ∃ w names, s.fsMount d startSector = some (w, true) ∧
      Copied s d startSector blobs.length (Mkfs.nameData blobs).length descs names w := by
  have hextent := himg.maxNameEnd hne
  change Fs.maxNameEnd (diskBlob d startSector) blobs.length 0 0 = _ at hextent
  have hor := h.mount_or hh (List.length_pos_iff.mpr hne).ne' (himg.descsFit hne)
  dsimp only at hor
  rw [hextent, himg.descEnd_eq hne] at hor
  rcases hor with hfail | ⟨u, bufs, -, hcopy⟩
  · exact .inl hfail
  · rw [if_pos (himg.namesEnd hne)] at hcopy
    obtain ⟨w, hmount, hcopied⟩ := hcopy
    exact .inr ⟨w, bufs.2, hmount, hcopied⟩

/-- Mounting an image with blobs comes to its end. -/
theorem fsMount_copied {blobs : List MkfsBlob} (h : s.heap.Ok)
    (himg : Mkfs.ImageAt d.bytes (startSector * 512) blobs) (hne : blobs ≠ [])
    (hm : s.fsMount d startSector = some (t, true)) : ∃ descs names,
      Copied s d startSector blobs.length (Mkfs.nameData blobs).length descs names t := by
  obtain ⟨hheader, -⟩ := fsMount_header hm
  rw [himg.count] at hheader
  have hno {u : Fs} (hu : s.fsMount d startSector = some (u, false)) : False := by
    rw [hm] at hu
    exact absurd (Prod.mk.inj (Option.some.inj hu)).2 (by decide)
  rcases descsRead_or h d startSector blobs.length with ⟨u, hdescs, -⟩ | ⟨u, descs, hread⟩
  · exact (hno (fsMount_noDescs hheader (List.length_pos_iff.mpr hne).ne' hdescs)).elim
  rcases hread.image_or himg hne hheader with ⟨v, -, hv⟩ | ⟨w, names, hw, hcopied⟩
  · exact (hno hv).elim
  · rw [hm] at hw
    obtain ⟨rfl, -⟩ := Prod.mk.inj (Option.some.inj hw)
    exact ⟨descs, names, hcopied⟩

/-- Mounting an image brings its blobs into the heap, which stays where it is. -/
theorem fsMount_mounted {blobs : List MkfsBlob} {img : List UInt8} (h : s.heap.Ok)
    (hb : Mkfs.buildFs blobs = some img) (hd : d.bytes.Stored (startSector * 512) img)
    (hm : s.fsMount d startSector = some (t, true)) :
    Mounted t blobs ∧ t.heap.heap.base = s.heap.heap.base := by
  refine ⟨?_, fsMount_base hm⟩
  have himg := Mkfs.imageAt_of_stored hb hd
  by_cases hne : blobs = []
  · subst hne
    obtain ⟨hheap, hzero, -⟩ := (fsMount_header hm).2 himg.count
    refine ⟨hheap ▸ h, hzero, himg.fits, ?_, Memory.stored_nil, fun hc => absurd rfl hc⟩
    intro i b hi
    exact nomatch hi
  · obtain ⟨descs, names, hcopied⟩ := fsMount_copied h himg hne hm
    exact hcopied.mounted himg hne

/-- A mounted image is read from where it was mounted. -/
theorem fsMount_start {blobs : List MkfsBlob} {img : List UInt8} (h : s.heap.Ok)
    (hb : Mkfs.buildFs blobs = some img) (hd : d.bytes.Stored (startSector * 512) img)
    (hm : s.fsMount d startSector = some (t, true)) : t.startSector = startSector := by
  have himg := Mkfs.imageAt_of_stored hb hd
  by_cases hne : blobs = []
  · subst hne
    exact ((fsMount_header hm).2 himg.count).2.2
  · obtain ⟨descs, names, hcopied⟩ := fsMount_copied h himg hne hm
    rw [hcopied.state]
    rfl

end Fs

end Leg
