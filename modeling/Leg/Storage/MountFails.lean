import Leg.Storage.MountSafe

/-! What a failed mount leaves behind: its buffers are all given back, but once the header has
been accepted the globals keep what was set. -/
namespace Leg.Fs
open HeapState

variable {s t : Fs} {d : Disk} {startSector : ℕ}

/-- Null, or the address of a buffer that has not been given back. -/
def LivePointer (t : Fs) (p : ℕ) : Prop := p = 0 ∨ ∃ c ∈ t.heap.live, c.ptr = p

/-- There is no filesystem, and nothing of the mount is left of the heap. -/
structure NoFilesystem (s t : Fs) : Prop where
  count : t.fsBlobCount = 0
  blobAt : ∀ i, t.fsBlobAddr i = 0
  find : ∀ name, (t.fsFind name).1 = 0
  blobs : t.LivePointer t.blobs
  names : t.LivePointer t.names
  freed : t.heap.live = s.heap.live

/-- A mount that fails has given back what it got, and has the count of an accepted header. -/
theorem fsMount_false (h : s.heap.Ok) (hm : s.fsMount d startSector = some (t, false)) :
    t.heap.live = s.heap.live ∧ ∀ count, readHeader d startSector = some (fsMagic, count) →
      count ≠ 0 ∧ t.blobCount = count := by
  by_cases hshort : ∀ count, readHeader d startSector = some (fsMagic, count) → count = 0
  · obtain ⟨t', ok, hmount, hcount, hheap⟩ := fsMount_short (s := s) hshort
    rw [hm, Option.some.injEq, Prod.mk.injEq] at hmount
    obtain ⟨rfl, -⟩ := hmount
    refine ⟨by rw [hheap], fun count hr => ?_⟩
    -- an empty filesystem is mounted
    obtain rfl := hshort count hr
    unfold fsMount at hm
    simp [hr] at hm
  obtain ⟨count, hshort⟩ := Classical.not_forall.mp hshort
  obtain ⟨hr, h0⟩ := Classical.not_imp.mp hshort
  have honly (n : ℕ) (hn : readHeader d startSector = some (fsMagic, n)) : n = count := by
    rw [hr] at hn
    exact (congrArg Prod.snd (Option.some.inj hn)).symm
  rw [fsMount_headed hr h0] at hm
  suffices hs : t.heap.live = s.heap.live ∧ t.blobCount = count from
    ⟨hs.1, fun n hn => honly n hn ▸ ⟨h0, hs.2⟩⟩
  rcases descsRead_or h d startSector count with ⟨u, hdescs, hlive, hcount⟩ | ⟨u, blobs, hread⟩
  · rw [hdescs] at hm
    obtain ⟨rfl, -⟩ := Prod.mk.inj (Option.some.inj hm)
    exact ⟨hlive, hcount⟩
  have hg := hread.gained
  have hcount := hread.count_eq
  rw [hread.run] at hm
  simp only [Option.bind_eq_bind, Option.bind_some] at hm
  obtain ⟨namesSize, -, hm⟩ := Option.bind_eq_some_iff.mp hm
  have hb : blobs ∈ u.heap.live := hg.live ▸ List.mem_cons_self ..
  rcases readNames_spec (d := d) hg.ok hb namesSize with
    ⟨w, hnames, -, hlive, hcount'⟩ | ⟨w, h₁, nameBuf, names, hnames, -⟩
  · rw [hnames] at hm
    obtain ⟨rfl, -⟩ := Prod.mk.inj (Option.some.inj hm)
    refine ⟨?_, hcount'.trans hcount⟩
    rw [hlive, hg.live, List.erase_cons_head]
  · rw [hnames, Option.bind_some] at hm
    obtain ⟨v, -, hm⟩ := Option.bind_eq_some_iff.mp hm
    exact absurd (Prod.mk.inj (Option.some.inj hm)).2 (by simp)

theorem findLoop_zero (name : List UInt8) (h0 : t.blobCount = 0) : (t.fsFind name).1 = 0 := by
  rw [fsFind, h0]
  rfl

/-- A failed mount leaves no filesystem exactly if it found no header. -/
theorem noFilesystem_iff (h : s.heap.Ok) (hm : s.fsMount d startSector = some (t, false)) :
    NoFilesystem s t ↔ ∀ count, readHeader d startSector ≠ some (fsMagic, count) := by
  obtain ⟨hlive, hcount⟩ := fsMount_false h hm
  constructor
  · intro hno count hr
    obtain ⟨h0, heq⟩ := hcount count hr
    exact h0 (heq.symm.trans hno.count)
  · intro hbad
    have hzero : t.blobCount = 0 ∧ t.blobs = 0 ∧ t.names = 0 := by
      unfold fsMount at hm
      cases hr : readHeader d startSector with
      | none =>
        simp only [hr] at hm
        obtain ⟨rfl, -⟩ := Prod.mk.inj (Option.some.inj hm)
        exact ⟨rfl, rfl, rfl⟩
      | some r =>
        obtain ⟨magic, count⟩ := r
        have hm' : magic ≠ fsMagic := fun heq => hbad count (heq ▸ hr)
        simp only [hr, if_pos hm'] at hm
        obtain ⟨rfl, -⟩ := Prod.mk.inj (Option.some.inj hm)
        exact ⟨rfl, rfl, rfl⟩
    obtain ⟨h0, hb, hn⟩ := hzero
    exact ⟨h0, fun i => if_pos (h0 ▸ Nat.zero_le i), fun name => findLoop_zero name h0, .inl hb,
      .inl hn, hlive⟩

section Reachable
variable {mem : Memory} {heapVa : ℕ} {ops : List HeapOp}

/-- After any run of the heap's calls from `mm_init` on: a failed mount has given back its buffers,
and leaves no filesystem exactly if it found no header. -/
theorem reachable_mount_fails (hpos : 0 < heapVa) (hfits : heapVa + kheapSize < 4294967296)
    (hr : Runs.Run HeapStep ⟨kheapInit mem heapVa, []⟩ ops s.heap)
    (hm : s.fsMount d startSector = some (t, false)) : t.heap.live = s.heap.live ∧
      (NoFilesystem s t ↔ ∀ count, readHeader d startSector ≠ some (fsMagic, count)) :=
  have hok := (heapRun_heapOk hpos hfits hr).2
  ⟨(fsMount_false hok hm).1, noFilesystem_iff hok hm⟩

/-- A blank disk. -/
theorem blank_disk_noFilesystem : ∃ t, unmounted.fsMount (goodDisk []) 0 = some (t, false) ∧
    NoFilesystem unmounted t := by
  have htest : ((unmounted.fsMount (goodDisk []) 0).any fun r => decide (r.2 = false)) = true := by
    decide +kernel
  obtain ⟨⟨t, ok⟩, ht, hok⟩ := (Option.any_eq_true _ _).mp htest
  obtain rfl : ok = false := of_decide_eq_true hok
  have hbad : readHeader (goodDisk []) 0 = some (0, 0) := by decide +kernel
  have hstart : Runs.Run HeapStep ⟨kheapInit (fun _ => 0) 0xC0100000, []⟩ [] unmounted.heap :=
    .nil _
  refine ⟨t, ht, ((reachable_mount_fails (by decide) (by decide) hstart ht).2).mpr
    fun count hc => ?_⟩
  rw [hbad] at hc
  have hmagic : 0 = fsMagic := congrArg Prod.fst (Option.some.inj hc)
  exact absurd hmagic (by decide)

/-- The second read of the mount fails. -/
def badTable : Disk :=
  ⟨(goodDisk oneBlob).bytes, fun k => if k = 1 then some fun _ => 0 else none⟩

theorem failed_mount_keeps_count : ¬ ∀ mem heapVa ops s d startSector t, 0 < heapVa →
    heapVa + kheapSize < 4294967296 →
    Runs.Run HeapStep ⟨kheapInit mem heapVa, []⟩ ops s.heap →
    fsMount s d startSector = some (t, false) → NoFilesystem s t := by
  intro h
  have htest : ((unmounted.fsMount badTable 0).any fun r =>
      decide (r.2 = false ∧ r.1.fsBlobCount = 1)) = true := by decide +kernel
  obtain ⟨⟨t, ok⟩, ht, hok⟩ := (Option.any_eq_true _ _).mp htest
  obtain ⟨hfalse, hcount⟩ := of_decide_eq_true hok
  obtain rfl : ok = false := hfalse
  have hno := h (fun _ => 0) 0xC0100000 [] unmounted badTable 0 t (by decide) (by decide)
    (.nil _) ht
  exact absurd (hcount.symm.trans hno.count) (by decide)

end Reachable

end Leg.Fs
