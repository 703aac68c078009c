import Leg.Storage.FileSystem

/-! When a mount stays inside its buffers and leaves a filesystem whose descriptors and names lie
inside what it allocated. -/
namespace Leg.Fs
open HeapState Memory

variable {s t : Fs} {d : Disk}

/-- The descriptor `i` of the image that starts at the sector. -/
def diskBlob (d : Disk) (startSector i : ℕ) : FsBlob :=
  fsBlobAt d.bytes (startSector * 512 + fsHeaderBytes + fsBlobBytes * i)

/-- What `fs_mount` takes for the end of a name. -/
def nameEnd (b : FsBlob) : ℕ := u32 (b.nameOffset + b.nameSize)

/-- The largest end among `k` descriptors from the `i`-th on, and `size`. -/
def maxNameEnd (blob : ℕ → FsBlob) : (k i size : ℕ) → ℕ
  | 0, _, size => size
  | k + 1, i, size =>
    maxNameEnd blob k (i + 1) (if nameEnd (blob i) > size then nameEnd (blob i) else size)

theorem maxNameEnd_le (blob : ℕ → FsBlob) (k i size : ℕ) :
    size ≤ maxNameEnd blob k i size ∧
      ∀ j, i ≤ j → j < i + k → nameEnd (blob j) ≤ maxNameEnd blob k i size := by
  induction k generalizing i size with
  | zero => exact ⟨le_refl _, fun j h1 h2 => absurd h2 (by omega)⟩
  | succ k ih =>
    rw [maxNameEnd]
    obtain ⟨hle, hall⟩ := ih (i + 1) (if nameEnd (blob i) > size then nameEnd (blob i) else size)
    have hboth : size ≤ (if nameEnd (blob i) > size then nameEnd (blob i) else size) ∧
        nameEnd (blob i) ≤ if nameEnd (blob i) > size then nameEnd (blob i) else size := by
      split
      · omega
      · omega
    refine ⟨hboth.1.trans hle, fun j h1 h2 => ?_⟩
    by_cases hij : j = i
    · exact hij ▸ hboth.2.trans hle
    · exact hall j (by omega) (by omega)

theorem maxNameEnd_bound (blob : ℕ → FsBlob) {bound : ℕ} (k i size : ℕ) (hsize : size ≤ bound)
    (hall : ∀ j, i ≤ j → j < i + k → nameEnd (blob j) ≤ bound) :
    maxNameEnd blob k i size ≤ bound := by
  induction k generalizing i size with
  | zero => exact hsize
  | succ k ih =>
    rw [maxNameEnd]
    apply ih
    · split
      · exact hall i (le_refl _) (by omega)
      · exact hsize
    · intro j h1 h2
      exact hall j (by omega) (by omega)

theorem namesExtent_eq {m : Memory} {blobs : Client} {blob : ℕ → FsBlob} (k i size : ℕ)
    (hin : fsBlobBytes * (i + k) ≤ blobs.bytes)
    (hblob : ∀ j, i ≤ j → j < i + k → fsBlobAt m (blobs.ptr + fsBlobBytes * j) = blob j) :
    namesExtent m blobs k i size = some (maxNameEnd blob k i size) := by
  induction k generalizing i size with
  | zero => rfl
  | succ k ih =>
    have hfirst : fsBlobBytes * (i + 1) ≤ blobs.bytes :=
      (Nat.mul_le_mul_left _ (by omega)).trans hin
    rw [namesExtent, if_pos hfirst, maxNameEnd]
    dsimp only
    rw [hblob i (le_refl _) (by omega)]
    exact ih (i + 1) _ (by rwa [show i + 1 + k = i + (k + 1) by omega])
      fun j h1 h2 => hblob j (by omega) (by omega)

theorem namesExtent_none {m : Memory} {blobs : Client} (k i size : ℕ) (hk : 0 < k)
    (hout : blobs.bytes < fsBlobBytes * (i + k)) : namesExtent m blobs k i size = none := by
  induction k generalizing i size with
  | zero => exact absurd hk (by omega)
  | succ k ih =>
    rw [namesExtent]
    split
    next hfirst =>
      refine ih (i + 1) _ (Nat.pos_of_ne_zero fun h0 => ?_) ?_
      · subst h0
        exact absurd hfirst (by rw [Nat.zero_add] at hout; omega)
      · rwa [show i + 1 + k = i + (k + 1) by omega]
    next => rfl

theorem sectors_bytes {n : ℕ} (hn : n < 4294967296) (h0 : u32 (sectors n * 512) ≠ 0) :
    n ≤ u32 (sectors n * 512) := by
  unfold sectors u32 at *
  omega

theorem sectors_round (n : ℕ) : u32 (sectors n * 512) + 7 < 4294967296 := by
  unfold sectors u32
  omega

theorem blobs_round (n : ℕ) : u32 (n * fsBlobBytes) + 7 < 4294967296 := by
  unfold fsBlobBytes u32
  omega

theorem descEnd_eq (n : ℕ) : descEnd n = fsHeaderBytes + u32 (n * fsBlobBytes) := by
  unfold descEnd fsHeaderBytes fsBlobBytes u32
  omega

theorem readSectors_spec {st : HeapState} (h : st.Ok) {c : Client} (hc : c ∈ st.live)
    (k sector count : ℕ) (hn : u32 (count * 512) = c.bytes) :
    (st.readSectors d k sector count c).1.Ok ∧
      (st.readSectors d k sector count c).1.live = st.live ∧
      ((st.readSectors d k sector count c).2 = true →
        (st.readSectors d k sector count c).1.Holds c c.bytes
          fun i => d.bytes (sector * 512 + i)) ∧
      ∀ e ∈ st.live, e ≠ c → Keeps st (st.readSectors d k sector count c).1 e := by
  obtain ⟨hok, hlive, hholds, hkeeps⟩ := h.put hc (le_of_eq hn) (d.blkRead k sector).1
  rw [hn] at hholds
  refine ⟨hok, hlive, fun hread => ?_, hkeeps⟩
  rw [Disk.blkRead_bytes hread] at hholds
  simp only [readSectors, Disk.blkRead_bytes hread, hn]
  exact hholds

section Descs
variable (h : s.heap.Ok)
include h

/-- Pass 2 gives everything back and fails, or leaves the descriptor table in a new buffer. -/
theorem readDescs_spec : (∃ t, s.readDescs d = some (t, none) ∧ t.heap.Ok ∧
      t.heap.live = s.heap.live ∧ t.blobCount = s.blobCount) ∨
    ∃ t blobs, s.readDescs d = some (t, some blobs) ∧ Gained s.heap t.heap blobs ∧
      t = { s with heap := t.heap, blobs := blobs.ptr } ∧
      blobs.bytes = u32 (s.blobCount * fsBlobBytes) ∧
      t.heap.Holds blobs blobs.bytes
        fun k => d.bytes (s.startSector * 512 + (fsHeaderBytes + k)) := by
  have hround := sectors_round (descEnd s.blobCount)
  have hround' := blobs_round s.blobCount
  unfold readDescs
  simp only [Option.bind_eq_bind]
  rcases h.kmalloc (u32 (sectors (descEnd s.blobCount) * 512))
    with hk | ⟨h₁, desc, hk, hp, hbytes, hg⟩
  · left
    rw [hk]
    exact ⟨s, rfl, h, rfl, rfl⟩
  have hg₁ := hg hround
  have hdesc : desc ∈ h₁.live := hg₁.live ▸ List.mem_cons_self ..
  obtain ⟨hok₂, hlive₂, hdata₂, hkeep₂⟩ := readSectors_spec (d := d) hg₁.ok hdesc 1 s.startSector
    (sectors (descEnd s.blobCount)) hbytes.symm
  rw [hk]
  simp only [Option.bind_some, if_neg hp]
  generalize h₁.readSectors d 1 s.startSector (sectors (descEnd s.blobCount)) desc = r at *
  obtain ⟨h₂, ok⟩ := r
  dsimp only at hok₂ hlive₂ hdata₂ hkeep₂ ⊢
  have hdesc₂ : desc ∈ h₂.live := hlive₂ ▸ hdesc
  have hback : h₂.live.erase desc = s.heap.live := by
    rw [hlive₂, hg₁.live, List.erase_cons_head]
  cases ok with
  | false =>
    left
    obtain ⟨h₃, hfree, hok₃, hlive₃, -⟩ := hok₂.kfree hdesc₂
    rw [if_pos (by simp), hfree]
    exact ⟨_, rfl, hok₃, hlive₃.trans hback, rfl⟩
  | true =>
    rw [if_neg (by simp)]
    rcases hok₂.kmalloc (u32 (s.blobCount * fsBlobBytes)) with hk | ⟨h₃, blobs, hk, hq, hbb, hg⟩
    · left
      obtain ⟨h₃, hfree, hok₃, hlive₃, -⟩ := hok₂.kfree hdesc₂
      rw [hk]
      simp only [Option.bind_some, if_true]
      rw [hfree]
      exact ⟨_, rfl, hok₃, hlive₃.trans hback, rfl⟩
    · right
      have hg₃ := hg hround'
      have hblobs : blobs ∈ h₃.live := hg₃.live ▸ List.mem_cons_self ..
      have hdesc₃ : desc ∈ h₃.live := hg₃.live ▸ List.mem_cons_of_mem _ hdesc₂
      have hne : desc ≠ blobs := fun heq => hg₃.fresh (heq ▸ hdesc₂)
      -- the table lies behind the header in the first buffer
      have hsrc : fsHeaderBytes + u32 (s.blobCount * fsBlobBytes) ≤ desc.bytes := by
        rw [hbytes, ← descEnd_eq]
        refine sectors_bytes (u32_lt _) fun h0 => ?_
        have hpos := (HeapOk.mem_bounds hg₁.ok hdesc).1
        omega
      obtain ⟨h₄, hcopy, hok₄, hlive₄, hdata₄, hkeep₄⟩ :=
        hg₃.ok.memcpy hblobs (le_of_eq hbb.symm) hsrc
        (fun k hk => ((hdata₂ rfl).keep (le_refl _) (hg₃.keeps desc hdesc₂)) k (by omega))
      have hdesc₄ : desc ∈ h₄.live := hlive₄ ▸ hdesc₃
      obtain ⟨h₅, hfree, hok₅, hlive₅, hkeep₅⟩ := hok₄.kfree hdesc₄
      rw [hk]
      simp only [Option.bind_some, if_neg hq]
      rw [hcopy]
      simp only [Option.bind_some]
      rw [hfree]
      have hlive : h₅.live = blobs :: s.heap.live := by
        rw [hlive₅, hlive₄, hg₃.live, List.erase_cons_tail (by simpa using hne.symm), hback]
      refine ⟨_, blobs, rfl, ⟨hok₅, hlive, fun hmem => ?_, fun e he => ?_⟩, rfl, hbb, ?_⟩
      · refine hg₃.fresh ?_
        rw [hlive₂, hg₁.live]
        exact List.mem_cons_of_mem _ hmem
      · have hne₁ : e ≠ desc := fun heq => hg₁.fresh (heq ▸ he)
        have he₁ : e ∈ h₁.live := hg₁.live ▸ List.mem_cons_of_mem _ he
        have he₂ : e ∈ h₂.live := hlive₂ ▸ he₁
        have he₃ : e ∈ h₃.live := hg₃.live ▸ List.mem_cons_of_mem _ he₂
        have hne₂ : e ≠ blobs := fun heq => hg₃.fresh (heq ▸ he₂)
        exact (hg₁.keeps e he).trans ((hkeep₂ e he₁ hne₁).trans ((hg₃.keeps e he₂).trans
          ((hkeep₄ e he₃ hne₂).trans (hkeep₅ e (hlive₄ ▸ he₃)))))
      · rw [← hbb] at hdata₄
        exact hdata₄.keep (le_refl _) (hkeep₅ blobs (hlive₄ ▸ hblobs))

/-- Pass 3 gives everything back and fails, or leaves the name region in one new buffer and has a
second one for the names. -/
theorem readNames_spec {blobs : Client} (hb : blobs ∈ s.heap.live) (namesSize : ℕ) :
    (∃ t, s.readNames d blobs namesSize = some (t, none) ∧ t.heap.Ok ∧
      t.heap.live = s.heap.live.erase blobs ∧ t.blobCount = s.blobCount) ∨
    ∃ t h₁ nameBuf names, s.readNames d blobs namesSize = some (t, some (nameBuf, names)) ∧
      t = { s with heap := t.heap, names := names.ptr } ∧
      nameBuf.bytes = u32 (sectors (u32 (descEnd s.blobCount + namesSize)) * 512) ∧
      names.bytes = u32 (namesSize + s.blobCount) ∧ Gained s.heap h₁ nameBuf ∧
      h₁.Holds nameBuf nameBuf.bytes (fun k => d.bytes (s.startSector * 512 + k)) ∧
      (u32 (namesSize + s.blobCount) + 7 < 4294967296 → Gained h₁ t.heap names) := by
  have hround := sectors_round (u32 (descEnd s.blobCount + namesSize))
  unfold readNames
  simp only [Option.bind_eq_bind]
  generalize sectors (u32 (descEnd s.blobCount + namesSize)) = secs at *
  rcases h.kmalloc (u32 (secs * 512)) with hk | ⟨h₁, nameBuf, hk, hp, hbytes, hg⟩
  · left
    obtain ⟨h₂, hfree, hok₂, hlive₂, -⟩ := h.kfree hb
    rw [hk]
    simp only [Option.bind_some, if_true]
    rw [hfree]
    exact ⟨_, rfl, hok₂, hlive₂, rfl⟩
  have hg₁ := hg hround
  have hbuf : nameBuf ∈ h₁.live := hg₁.live ▸ List.mem_cons_self ..
  obtain ⟨hok₂, hlive₂, hdata₂, hkeep₂⟩ :=
    readSectors_spec (d := d) hg₁.ok hbuf 2 s.startSector secs hbytes.symm
  rw [hk]
  simp only [Option.bind_some, if_neg hp]
  generalize h₁.readSectors d 2 s.startSector secs nameBuf = r at *
  obtain ⟨h₂, ok⟩ := r
  dsimp only at hok₂ hlive₂ hdata₂ hkeep₂ ⊢
  have hg₂ : Gained s.heap h₂ nameBuf := ⟨hok₂, hlive₂.trans hg₁.live, hg₁.fresh, fun e he =>
    (hg₁.keeps e he).trans (hkeep₂ e (hg₁.live ▸ List.mem_cons_of_mem _ he)
      fun heq => hg₁.fresh (heq ▸ he))⟩
  obtain ⟨h₃, hfree₃, hok₃, hlive₃, -⟩ := hok₂.kfree (c := blobs)
    (hg₂.live ▸ List.mem_cons_of_mem _ hb)
  have hrest : h₃.live = nameBuf :: s.heap.live.erase blobs := by
    have hne : nameBuf ≠ blobs := fun heq => hg₁.fresh (heq ▸ hb)
    rw [hlive₃, hg₂.live, List.erase_cons_tail (by simpa using hne)]
  obtain ⟨h₄, hfree₄, hok₄, hlive₄, -⟩ := hok₃.kfree (c := nameBuf) (hrest ▸ List.mem_cons_self ..)
  rw [hrest, List.erase_cons_head] at hlive₄
  cases ok with
  | false =>
    left
    rw [if_pos (by simp), hfree₃]
    simp only [Option.bind_some]
    rw [hfree₄]
    exact ⟨_, rfl, hok₄, hlive₄, rfl⟩
  | true =>
    rw [if_neg (by simp)]
    rcases hok₂.kmalloc (u32 (namesSize + s.blobCount)) with hk | ⟨h₅, names, hk, hq, hnb, hg⟩
    · left
      rw [hk]
      simp only [Option.bind_some, if_true]
      rw [hfree₃]
      simp only [Option.bind_some]
      rw [hfree₄]
      exact ⟨_, rfl, hok₄, hlive₄, rfl⟩
    · right
      rw [hk]
      simp only [Option.bind_some, if_neg hq]
      exact ⟨_, h₂, nameBuf, names, rfl, rfl, hbytes, hnb, hg₂, hdata₂ rfl, hg⟩

end Descs

/-- What a mounted filesystem has to be: each descriptor is the disk's and lies in the allocated
array, each name lies in the allocated names. -/
structure WellFormed (t : Fs) (d : Disk) (startSector : ℕ) : Prop where
  descs : ∀ i < t.blobCount, ∃ c ∈ t.heap.live, c.ptr = t.blobs ∧
    fsBlobBytes * i + fsBlobBytes ≤ c.bytes ∧ ∀ k < fsBlobBytes,
      t.heap.heap.mem (t.blobs + fsBlobBytes * i + k) =
        d.bytes (startSector * 512 + fsHeaderBytes + fsBlobBytes * i + k)
  names : ∀ i < t.blobCount, ∃ c ∈ t.heap.live, c.ptr = t.names ∧
    (diskBlob d startSector i).nameOffset + (diskBlob d startSector i).nameSize ≤ c.bytes
  finds : ∀ name, ∀ r ∈ (t.fsFind name).2, ∃ c ∈ t.heap.live, c.ptr ≤ r.1 ∧
    r.1 + r.2 ≤ c.ptr + c.bytes

/-- The mount stays inside its buffers, and succeeds only with a well-formed filesystem. -/
def MountSafe (s : Fs) (d : Disk) (startSector : ℕ) : Prop :=
  ∃ t ok, s.fsMount d startSector = some (t, ok) ∧ (ok = true → WellFormed t d startSector)

/-- The state in which pass 2 begins. -/
def headed (s : Fs) (startSector count : ℕ) : Fs :=
  { s with startSector := startSector, blobCount := count, blobs := 0, names := 0 }

/-- If the mount gets as far as to scan the descriptors, their array's size did not wrap, and if
it gets its buffers for the names, no end of a name and no end of the region did. -/
def SizesFit (s : Fs) (d : Disk) (startSector : ℕ) : Prop :=
  ∀ count, readHeader d startSector = some (fsMagic, count) → count ≠ 0 →
    ∀ t blobs, (s.headed startSector count).readDescs d = some (t, some blobs) →
      count * fsBlobBytes < 4294967296 ∧
      ∀ u bufs, t.readNames d blobs (maxNameEnd (diskBlob d startSector) count 0 0) =
          some (u, some bufs) →
        descEnd count + maxNameEnd (diskBlob d startSector) count 0 0 < 4294967296 ∧
        ∀ i < count, (diskBlob d startSector i).nameOffset + (diskBlob d startSector i).nameSize <
          4294967296

theorem strncmp_reads (m : Memory) (a : ℕ) (name : List UInt8) :
    (strncmp m a name).2 ≤ name.length := by
  induction name generalizing a with
  | nil => exact le_refl _
  | cons c cs ih =>
    rw [strncmp, List.length_cons]
    split
    · exact Nat.succ_le_succ (ih (a + 1))
    · exact Nat.succ_le_succ (Nat.zero_le _)

theorem fsBlobAt_congr {m n : Memory} {a b : ℕ} (h : ∀ k < fsBlobBytes, m (a + k) = n (b + k)) :
    fsBlobAt m a = fsBlobAt n b := by
  unfold fsBlobBytes at h
  have hload (i : ℕ) (hi : i + 3 < 16) : m.load (a + i) = n.load (b + i) := by
    unfold load
    simp only [Nat.add_assoc]
    rw [h i (by omega), h (i + 1) (by omega), h (i + 2) (by omega), h (i + 3) (by omega)]
  have hload16 (i : ℕ) (hi : i + 1 < 16) : m.load16 (a + i) = n.load16 (b + i) := by
    unfold load16
    simp only [Nat.add_assoc]
    rw [h i (by omega), h (i + 1) (by omega)]
  simp only [fsBlobAt, hload 4 (by omega), hload 8 (by omega), hload16 12 (by omega),
    hload16 14 (by omega)]
  rw [show m.load a = n.load b from hload 0 (by omega)]

/-- Over well-formed descriptors and names the search reads nothing else. -/
theorem findLoop_reads (hok : t.heap.Ok) {startSector : ℕ} (name : List UInt8) (k i : ℕ)
    (hdescs : ∀ j < i + k, ∃ c ∈ t.heap.live, c.ptr = t.blobs ∧
      fsBlobBytes * j + fsBlobBytes ≤ c.bytes ∧ ∀ k < fsBlobBytes,
        t.heap.heap.mem (t.blobs + fsBlobBytes * j + k) =
          d.bytes (startSector * 512 + fsHeaderBytes + fsBlobBytes * j + k))
    (hnames : ∀ j < i + k, ∃ c ∈ t.heap.live, c.ptr = t.names ∧
      (diskBlob d startSector j).nameOffset + (diskBlob d startSector j).nameSize ≤ c.bytes) :
    ∀ r ∈ (t.findLoop name k i).2, ∃ c ∈ t.heap.live, c.ptr ≤ r.1 ∧
      r.1 + r.2 ≤ c.ptr + c.bytes := by
  induction k generalizing i with
  | zero => exact fun r hr => absurd hr (by simp [findLoop])
  | succ k ih =>
    obtain ⟨c, hc, hptr, hlen, hbytes⟩ := hdescs i (by omega)
    obtain ⟨e, he, hptr', hlen'⟩ := hnames i (by omega)
    have hcb := HeapOk.mem_bounds hok hc
    have heb := HeapOk.mem_bounds hok he
    have ha : u32 (t.blobs + fsBlobBytes * i) = t.blobs + fsBlobBytes * i := u32_of_lt (by omega)
    have hblob : fsBlobAt t.heap.heap.mem (t.blobs + fsBlobBytes * i) = diskBlob d startSector i :=
      fsBlobAt_congr hbytes
    have hdesc : ∃ c ∈ t.heap.live, c.ptr ≤ t.blobs + fsBlobBytes * i ∧
        t.blobs + fsBlobBytes * i + fsBlobBytes ≤ c.ptr + c.bytes := ⟨c, hc, by omega, by omega⟩
    have hrest := ih (i + 1) (fun j hj => hdescs j (by omega)) fun j hj => hnames j (by omega)
    rw [findLoop]
    simp only [ha, hblob]
    split
    next hsize =>
      have hread := strncmp_reads t.heap.heap.mem
        (u32 (t.names + (diskBlob d startSector i).nameOffset)) name
      have hat : u32 (t.names + (diskBlob d startSector i).nameOffset) =
          t.names + (diskBlob d startSector i).nameOffset := u32_of_lt (by omega)
      rw [hat] at hread ⊢
      have hname : ∃ c ∈ t.heap.live, c.ptr ≤ t.names + (diskBlob d startSector i).nameOffset ∧
          t.names + (diskBlob d startSector i).nameOffset +
            (strncmp t.heap.heap.mem (t.names + (diskBlob d startSector i).nameOffset) name).2 ≤
              c.ptr + c.bytes := ⟨e, he, by omega, by omega⟩
      split
      · rintro r hr
        rcases List.mem_cons.mp hr with rfl | hr
        · exact hdesc
        · rw [List.mem_singleton.mp hr]
          exact hname
      · rintro r hr
        rcases List.mem_cons.mp hr with rfl | hr
        · exact hdesc
        · rcases List.mem_cons.mp hr with rfl | hr
          · exact hname
          · exact hrest r hr
    next =>
      rintro r hr
      rcases List.mem_cons.mp hr with rfl | hr
      · exact hdesc
      · exact hrest r hr

theorem WellFormed.of (hok : t.heap.Ok) {startSector : ℕ}
    (hdescs : ∀ i < t.blobCount, ∃ c ∈ t.heap.live, c.ptr = t.blobs ∧
      fsBlobBytes * i + fsBlobBytes ≤ c.bytes ∧ ∀ k < fsBlobBytes,
        t.heap.heap.mem (t.blobs + fsBlobBytes * i + k) =
          d.bytes (startSector * 512 + fsHeaderBytes + fsBlobBytes * i + k))
    (hnames : ∀ i < t.blobCount, ∃ c ∈ t.heap.live, c.ptr = t.names ∧
      (diskBlob d startSector i).nameOffset + (diskBlob d startSector i).nameSize ≤ c.bytes) :
    WellFormed t d startSector :=
  ⟨hdescs, hnames, fun name => findLoop_reads hok name t.blobCount 0
    (fun j hj => hdescs j (by omega)) fun j hj => hnames j (by omega)⟩

theorem WellFormed.empty (h0 : t.blobCount = 0) (startSector : ℕ) : WellFormed t d startSector :=
  ⟨fun i hi => absurd hi (by omega), fun i hi => absurd hi (by omega),
    fun name r hr => absurd hr (by simp [fsFind, h0, findLoop])⟩

/-- The copy of the names stays inside its buffers exactly if the end of the region does not
wrap; then the names lie behind the descriptors on the disk. -/
theorem copyNames_spec {u : Fs} {h₁ : HeapState} {nameBuf names : Client} {count namesSize : ℕ}
    (hdesc : count ≤ descEnd count)
    (hbytes : nameBuf.bytes = u32 (sectors (u32 (descEnd count + namesSize)) * 512))
    (hnb : names.bytes = u32 (namesSize + count)) (hg : Gained s.heap h₁ nameBuf)
    (hdata : h₁.Holds nameBuf nameBuf.bytes fun k => d.bytes (s.startSector * 512 + k))
    (hlast : u32 (namesSize + count) + 7 < 4294967296 → Gained h₁ u.heap names) :
    if descEnd count + namesSize < 4294967296 then
      ∃ heap, u.copyNames names nameBuf count namesSize = some { u with heap := heap } ∧ heap.Ok ∧
        heap.live = names :: s.heap.live ∧ names.bytes = namesSize + count ∧
        heap.Holds names namesSize (fun k => d.bytes (s.startSector * 512 + (descEnd count + k))) ∧
        ∀ e ∈ s.heap.live, Keeps s.heap heap e
    else u.copyNames names nameBuf count namesSize = none := by
  have hbuf : nameBuf ∈ h₁.live := hg.live ▸ List.mem_cons_self ..
  have hbound := HeapOk.mem_bounds hg.ok hbuf
  split
  next hfit =>
    rw [u32_of_lt hfit] at hbytes
    have hsrc : descEnd count + namesSize ≤ nameBuf.bytes := by
      rw [hbytes]
      exact sectors_bytes hfit (by omega)
    have hsmall : namesSize + count + 7 < 4294967296 := by
      unfold kheapSize at hbound
      omega
    rw [u32_of_lt (by omega)] at hnb hlast
    have hg' := hlast hsmall
    have hnames : names ∈ u.heap.live := hg'.live ▸ List.mem_cons_self ..
    have hbuf' : nameBuf ∈ u.heap.live := hg'.live ▸ List.mem_cons_of_mem _ hbuf
    obtain ⟨h₂, hcopy, hok₂, hlive₂, hdata₂, hkeep₂⟩ := hg'.ok.memcpy hnames
      (show namesSize ≤ names.bytes by omega) hsrc
      (fun k hk => (hdata.keep (le_refl _) (hg'.keeps nameBuf hbuf)) k (by omega))
    obtain ⟨h₃, hfree, hok₃, hlive₃, hkeep₃⟩ := hok₂.kfree (hlive₂ ▸ hbuf')
    refine ⟨h₃, ?_, hok₃, ?_, hnb, hdata₂.keep (by omega) (hkeep₃ names (hlive₂ ▸ hnames)),
      fun e he => ?_⟩
    · simp only [copyNames, hcopy, hfree, Option.bind_eq_bind, Option.bind_some]
      rfl
    · have hne : names ≠ nameBuf := fun heq => hg'.fresh (heq ▸ hbuf)
      rw [hlive₃, hlive₂, hg'.live, hg.live, List.erase_cons_tail (by simpa using hne),
        List.erase_cons_head]
    · have he₁ : e ∈ h₁.live := hg.live ▸ List.mem_cons_of_mem _ he
      have he₂ : e ∈ u.heap.live := hg'.live ▸ List.mem_cons_of_mem _ he₁
      exact (hg.keeps e he).trans ((hg'.keeps e he₁).trans
        ((hkeep₂ e he₂ fun heq => hg'.fresh (heq ▸ he₁)).trans (hkeep₃ e (hlive₂ ▸ he₂))))
  next hout =>
    have hno : u.heap.memcpy names nameBuf (descEnd count) namesSize = none :=
      if_neg fun hc => by omega
    simp only [copyNames, hno]
    rfl

theorem fsMount_headed {startSector count : ℕ}
    (hh : readHeader d startSector = some (fsMagic, count))
    (h0 : count ≠ 0) : s.fsMount d startSector = (do
      let (t, blobs) ← (s.headed startSector count).readDescs d
      match blobs with
      | none => return (t, false)
      | some blobs =>
        let namesSize ← namesExtent t.heap.heap.mem blobs count 0 0
        let (u, bufs) ← t.readNames d blobs namesSize
        match bufs with
        | none => return (u, false)
        | some (nameBuf, names) =>
          let u ← u.copyNames names nameBuf count namesSize
          return (u, true)) := by
  unfold fsMount
  simp only [hh, ne_eq, not_true_eq_false, if_false, if_neg h0]
  rfl

theorem fsMount_short {startSector : ℕ}
    (hh : ∀ count, readHeader d startSector = some (fsMagic, count) → count = 0) :
    ∃ t ok, s.fsMount d startSector = some (t, ok) ∧ t.blobCount = 0 ∧ t.heap = s.heap := by
  unfold fsMount
  cases hr : readHeader d startSector with
  | none => exact ⟨_, _, rfl, rfl, rfl⟩
  | some r =>
    obtain ⟨magic, count⟩ := r
    by_cases hm : magic = fsMagic
    · subst hm
      have h0 := hh count hr
      simp only [ne_eq, not_true_eq_false, if_false, if_pos h0]
      exact ⟨_, _, rfl, h0, rfl⟩
    · simp only [ne_eq, if_pos hm]
      exact ⟨_, _, rfl, rfl, rfl⟩

section Safe
variable {startSector count : ℕ} {blobs : Client}

theorem namesExtent_disk (hb : blobs.bytes = count * fsBlobBytes)
    (hdata : s.heap.Holds blobs blobs.bytes
      fun k => d.bytes (startSector * 512 + (fsHeaderBytes + k))) :
    namesExtent s.heap.heap.mem blobs count 0 0 =
      some (maxNameEnd (diskBlob d startSector) count 0 0) := by
  refine namesExtent_eq count 0 0 (by rw [hb, Nat.zero_add, Nat.mul_comm]) fun j _ hj => ?_
  refine fsBlobAt_congr fun k hk => ?_
  have hin : fsBlobBytes * j + k < blobs.bytes := by
    rw [hb]
    unfold fsBlobBytes at *
    omega
  rw [Nat.add_assoc, hdata _ hin]
  dsimp only
  rw [show startSector * 512 + (fsHeaderBytes + (fsBlobBytes * j + k)) =
    startSector * 512 + fsHeaderBytes + fsBlobBytes * j + k by omega]

/-- After a mount that has copied the names, the filesystem is well formed exactly if no end of a
name wraps. -/
theorem wellFormed_iff {w : Fs} {names : Client} (hok : w.heap.Ok)
    (hcount : w.blobCount = count) (hblobs : w.blobs = blobs.ptr) (hnames : w.names = names.ptr)
    (hb : blobs ∈ w.heap.live) (hn : names ∈ w.heap.live)
    (hbytes : blobs.bytes = count * fsBlobBytes)
    (hdata : w.heap.Holds blobs blobs.bytes
      fun k => d.bytes (startSector * 512 + (fsHeaderBytes + k)))
    (hsize : maxNameEnd (diskBlob d startSector) count 0 0 ≤ names.bytes) :
    WellFormed w d startSector ↔ ∀ i < count, (diskBlob d startSector i).nameOffset +
      (diskBlob d startSector i).nameSize < 4294967296 := by
  constructor
  · intro hwf i hi
    obtain ⟨c, hc, -, hle⟩ := hwf.names i (hcount ▸ hi)
    have hbound := HeapOk.mem_bounds hok hc
    omega
  · intro hfit
    refine .of hok (fun i hi => ⟨blobs, hb, hblobs.symm, ?_, fun k hk => ?_⟩)
      fun i hi => ⟨names, hn, hnames.symm, ?_⟩
    · rw [hbytes]
      unfold fsBlobBytes
      omega
    · have hin : fsBlobBytes * i + k < blobs.bytes := by
        rw [hbytes]
        unfold fsBlobBytes at *
        omega
      rw [hblobs, Nat.add_assoc, hdata _ hin]
      dsimp only
      rw [show startSector * 512 + (fsHeaderBytes + (fsBlobBytes * i + k)) =
        startSector * 512 + fsHeaderBytes + fsBlobBytes * i + k by omega]
    · have hend := (maxNameEnd_le (diskBlob d startSector) count 0 0).2 i (Nat.zero_le _) (by omega)
      rw [nameEnd, u32_of_lt (hfit i (by omega))] at hend
      omega

end Safe

/-- Pass 2 of a mount has left the descriptors on the disk in a new buffer. -/
structure DescsRead (s : Fs) (d : Disk) (startSector count : ℕ) (t : Fs) (blobs : Client) :
    Prop where
  run : (s.headed startSector count).readDescs d = some (t, some blobs)
  gained : Gained s.heap t.heap blobs
  state : t = { s.headed startSector count with heap := t.heap, blobs := blobs.ptr }
  bytes : blobs.bytes = u32 (count * fsBlobBytes)
  data : t.heap.Holds blobs blobs.bytes
    fun k => d.bytes (startSector * 512 + (fsHeaderBytes + k))

/-- A mount has come to its end, with the descriptors in one buffer and the names in another. -/
structure Copied (s : Fs) (d : Disk) (startSector count namesSize : ℕ) (blobs names : Client)
    (t : Fs) : Prop where
  state : t = { s.headed startSector count with
    heap := t.heap, blobs := blobs.ptr, names := names.ptr }
  ok : t.heap.Ok
  live : t.heap.live = names :: blobs :: s.heap.live
  blobsBytes : blobs.bytes = count * fsBlobBytes
  descs : t.heap.Holds blobs blobs.bytes
    fun k => d.bytes (startSector * 512 + (fsHeaderBytes + k))
  namesBytes : names.bytes = namesSize + count
  names : t.heap.Holds names namesSize fun k => d.bytes (startSector * 512 + (descEnd count + k))

section Passes
variable {startSector count : ℕ} {blobs : Client}

theorem descsRead_or (h : s.heap.Ok) (d : Disk) (startSector count : ℕ) :
    (∃ t, (s.headed startSector count).readDescs d = some (t, none) ∧
      t.heap.live = s.heap.live ∧ t.blobCount = count) ∨
    ∃ t blobs, DescsRead s d startSector count t blobs := by
  rcases readDescs_spec (s := s.headed startSector count) (d := d) h with
    ⟨t, hdescs, -, hlive, hcount⟩ | ⟨t, blobs, hdescs, hg, ht, hbytes, hdata⟩
  · exact .inl ⟨t, hdescs, hlive, hcount⟩
  · exact .inr ⟨t, blobs, hdescs, hg, ht, hbytes, hdata⟩

theorem fsMount_noDescs (hh : readHeader d startSector = some (fsMagic, count)) (h0 : count ≠ 0)
    (hdescs : (s.headed startSector count).readDescs d = some (t, none)) :
    s.fsMount d startSector = some (t, false) := by
  rw [fsMount_headed hh h0, hdescs]
  rfl

namespace DescsRead
variable (h : DescsRead s d startSector count t blobs)
include h

theorem count_eq : t.blobCount = count := by
  rw [h.state]
  rfl

theorem mount_wraps (hh : readHeader d startSector = some (fsMagic, count)) (h0 : count ≠ 0)
    (hwrap : 4294967296 ≤ count * fsBlobBytes) : s.fsMount d startSector = none := by
  have hnone : namesExtent t.heap.heap.mem blobs count 0 0 = none := by
    refine namesExtent_none count 0 0 (Nat.pos_of_ne_zero h0) ?_
    rw [h.bytes, Nat.zero_add, Nat.mul_comm fsBlobBytes]
    exact (u32_lt _).trans_le hwrap
  rw [fsMount_headed hh h0, h.run]
  simp only [Option.bind_eq_bind, Option.bind_some]
  rw [hnone]
  rfl

/-- From the scan of the descriptors on, a mount fails for want of memory or because of a read, or
comes to its end exactly if the end of the names does not wrap. -/
theorem mount_or (hh : readHeader d startSector = some (fsMagic, count)) (h0 : count ≠ 0)
    (hwrap : count * fsBlobBytes < 4294967296) :
    let namesSize := maxNameEnd (diskBlob d startSector) count 0 0
    (∃ u, t.readNames d blobs namesSize = some (u, none) ∧
      s.fsMount d startSector = some (u, false)) ∨
    ∃ u bufs, t.readNames d blobs namesSize = some (u, some bufs) ∧
      if descEnd count + namesSize < 4294967296 then
        ∃ w, s.fsMount d startSector = some (w, true) ∧
          Copied s d startSector count namesSize blobs bufs.2 w
      else s.fsMount d startSector = none := by
  have hblobs : blobs ∈ t.heap.live := h.gained.live ▸ List.mem_cons_self ..
  have hbytes := h.bytes
  rw [u32_of_lt hwrap] at hbytes
  have hmount := fsMount_headed (s := s) hh h0
  rw [h.run] at hmount
  simp only [Option.bind_eq_bind, Option.bind_some] at hmount
  rw [namesExtent_disk hbytes h.data, Option.bind_some] at hmount
  rcases readNames_spec (d := d) h.gained.ok hblobs
    (maxNameEnd (diskBlob d startSector) count 0 0) with
    ⟨u, hnames, -⟩ | ⟨u, h₁, nameBuf, names, hnames, hu, hbb, hnb, hgb, hbuf, hlast⟩
  · rw [hnames] at hmount
    exact .inl ⟨u, hnames, hmount⟩
  · rw [hnames] at hmount
    simp only [Option.bind_some] at hmount
    rw [h.count_eq] at hbb hnb hlast
    have hstart : t.startSector = startSector := by
      rw [h.state]
      rfl
    rw [hstart] at hbuf
    have hdesc : count ≤ descEnd count := by
      rw [descEnd_eq, u32_of_lt hwrap]
      unfold fsBlobBytes
      omega
    have hcopy := copyNames_spec hdesc hbb hnb hgb (hstart ▸ hbuf) hlast
    refine .inr ⟨u, (nameBuf, names), hnames, ?_⟩
    split at hcopy
    next hfit =>
      obtain ⟨heap, hcopy, hok, hlive, hsize, hholds, hkeep⟩ := hcopy
      rw [hstart] at hholds
      rw [if_pos hfit]
      refine ⟨{ u with heap := heap }, by rw [hmount, hcopy]; rfl, ?_, hok, ?_, hbytes,
        h.data.keep (le_refl _) (hkeep blobs hblobs), hsize, hholds⟩
      · rw [hu, h.state]
      · rw [hlive, h.gained.live]
    next hout =>
      rw [if_neg hout, hmount, hcopy]
      rfl

theorem sizesFit_iff (hh : readHeader d startSector = some (fsMagic, count)) (h0 : count ≠ 0) :
    s.SizesFit d startSector ↔ count * fsBlobBytes < 4294967296 ∧ ∀ u bufs,
      t.readNames d blobs (maxNameEnd (diskBlob d startSector) count 0 0) = some (u, some bufs) →
        descEnd count + maxNameEnd (diskBlob d startSector) count 0 0 < 4294967296 ∧
        ∀ i < count, (diskBlob d startSector i).nameOffset +
          (diskBlob d startSector i).nameSize < 4294967296 := by
  constructor
  · intro hfit
    exact hfit count hh h0 t blobs h.run
  · intro hfit n hn _ t' blobs' ht'
    rw [hh, Option.some.injEq, Prod.mk.injEq] at hn
    obtain ⟨-, rfl⟩ := hn
    rw [h.run, Option.some.injEq, Prod.mk.injEq, Option.some.injEq] at ht'
    obtain ⟨rfl, rfl⟩ := ht'
    exact hfit

end DescsRead

theorem Copied.wellFormed_iff {names : Client}
    (h : Copied s d startSector count
      (maxNameEnd (diskBlob d startSector) count 0 0) blobs names t) :
    WellFormed t d startSector ↔ ∀ i < count, (diskBlob d startSector i).nameOffset +
      (diskBlob d startSector i).nameSize < 4294967296 := by
  have hbytes := h.namesBytes
  refine Fs.wellFormed_iff h.ok (by rw [h.state]; rfl) (by rw [h.state]) (by rw [h.state])
    ?_ ?_ h.blobsBytes h.descs (by omega)
  · rw [h.live]
    exact List.mem_cons_of_mem _ (List.mem_cons_self ..)
  · rw [h.live]
    exact List.mem_cons_self ..

end Passes

theorem MountSafe.of_failed {startSector : ℕ} (hm : s.fsMount d startSector = some (t, false)) :
    s.MountSafe d startSector := ⟨t, false, hm, fun hno => Bool.noConfusion hno⟩

theorem MountSafe.isSome {startSector : ℕ} (h : s.MountSafe d startSector) :
    s.fsMount d startSector ≠ none := by
  obtain ⟨t, ok, hm, -⟩ := h
  rw [hm]
  exact Option.some_ne_none _

/-- A mount is safe exactly if the sizes it gets to use do not wrap. -/
theorem fsMount_safe_iff (h : s.heap.Ok) (startSector : ℕ) :
    s.MountSafe d startSector ↔ s.SizesFit d startSector := by
  by_cases hshort : ∀ count, readHeader d startSector = some (fsMagic, count) → count = 0
  · obtain ⟨t, ok, hmount, hcount, -⟩ := fsMount_short (s := s) hshort
    exact ⟨fun _ count hr h0 => absurd (hshort count hr) h0,
      fun _ => ⟨t, ok, hmount, fun _ => .empty hcount startSector⟩⟩
  obtain ⟨count, hshort⟩ := Classical.not_forall.mp hshort
  obtain ⟨hh, h0⟩ := Classical.not_imp.mp hshort
  rcases descsRead_or h d startSector count with ⟨t, hdescs, -⟩ | ⟨t, blobs, hread⟩
  · refine ⟨fun _ n hn _ t' blobs' ht' => ?_, fun _ => .of_failed (fsMount_noDescs hh h0 hdescs)⟩
    rw [hh, Option.some.injEq, Prod.mk.injEq] at hn
    obtain ⟨-, rfl⟩ := hn
    rw [hdescs] at ht'
    exact absurd ht' (by simp)
  rw [hread.sizesFit_iff hh h0]
  by_cases hwrap : count * fsBlobBytes < 4294967296
  · rcases hread.mount_or hh h0 hwrap with ⟨u, hnames, hmount⟩ | ⟨u, bufs, hnames, hmount⟩
    · refine ⟨fun _ => ⟨hwrap, fun u' bufs hu' => ?_⟩, fun _ => .of_failed hmount⟩
      rw [hnames] at hu'
      exact absurd hu' (by simp)
    · split at hmount
      next hfit =>
        obtain ⟨w, hmount, hcopied⟩ := hmount
        constructor
        · rintro ⟨w', ok, hw, hgood⟩
          rw [hmount] at hw
          obtain ⟨rfl, rfl⟩ := Prod.mk.inj (Option.some.inj hw)
          exact ⟨hwrap, fun _ _ _ => ⟨hfit, hcopied.wellFormed_iff.mp (hgood rfl)⟩⟩
        · intro hfits
          exact ⟨w, true, hmount, fun _ => hcopied.wellFormed_iff.mpr (hfits.2 u bufs hnames).2⟩
      next hout =>
        exact ⟨fun hsafe => absurd hmount hsafe.isSome,
          fun hfits => absurd (hfits.2 u bufs hnames).1 hout⟩
  · have hmount := hread.mount_wraps hh h0 (Nat.le_of_not_lt hwrap)
    exact ⟨fun hsafe => absurd hmount hsafe.isSome, fun hfits => absurd hfits.1 hwrap⟩

section Reachable
variable {mem : Memory} {heapVa : ℕ} {ops : List HeapOp} {startSector : ℕ}

/-- After any run of the heap's calls from `mm_init` on, whatever the disk holds and whichever
reads fail. -/
theorem reachable_mount_safe_iff (hpos : 0 < heapVa) (hfits : heapVa + kheapSize < 4294967296)
    (hr : Runs.Run HeapStep ⟨kheapInit mem heapVa, []⟩ ops s.heap) :
    s.MountSafe d startSector ↔ s.SizesFit d startSector :=
  fsMount_safe_iff (heapRun_heapOk hpos hfits hr).2 startSector

theorem SizesFit.of_disk (hcount : ∀ count, readHeader d startSector = some (fsMagic, count) →
      count * fsBlobBytes < 4294967296 ∧
      descEnd count + maxNameEnd (diskBlob d startSector) count 0 0 < 4294967296 ∧
      ∀ i < count, (diskBlob d startSector i).nameOffset +
        (diskBlob d startSector i).nameSize < 4294967296) : s.SizesFit d startSector := by
  intro count hh _ t blobs _
  obtain ⟨h1, h2, h3⟩ := hcount count hh
  exact ⟨h1, fun _ _ _ => ⟨h2, h3⟩⟩

/-- A disk with these bytes at its start whose reads all succeed. -/
def goodDisk (bytes : List UInt8) : Disk := ⟨fun i => bytes.getD i 0, fun _ => none⟩

/-- The filesystem before its first mount, with a heap at `0xC0100000`. -/
def unmounted : Fs := ⟨⟨kheapInit (fun _ => 0) 0xC0100000, []⟩, 0, 0, 0, 0⟩

/-- One blob with the name `a`. -/
def oneBlob : List UInt8 :=
  [0x46, 0x47, 0x45, 0x4C, 1, 0, 0, 0, 0, 2, 0, 0, 5, 0, 0, 0, 0, 0, 0, 0, 1, 0, 0, 0, 97]

theorem oneBlob_safe : unmounted.MountSafe (goodDisk oneBlob) 0 ∧
    (unmounted.fsMount (goodDisk oneBlob) 0).isSome := by
  have hstart : Runs.Run HeapStep ⟨kheapInit (fun _ => 0) 0xC0100000, []⟩ [] unmounted.heap :=
    .nil _
  refine ⟨(reachable_mount_safe_iff (by decide) (by decide) hstart).mpr
    (.of_disk fun count hh => ?_), by decide +kernel⟩
  have hc : readHeader (goodDisk oneBlob) 0 = some (fsMagic, 1) := by decide +kernel
  obtain rfl : 1 = count := congrArg Prod.snd (Option.some.inj (hc.symm.trans hh))
  decide +kernel

/-- The end of the only name wraps to 1. -/
def wrappedName : List UInt8 :=
  [0x46, 0x47, 0x45, 0x4C, 1, 0, 0, 0, 0, 2, 0, 0, 5, 0, 0, 0, 0xFF, 0xFF, 0xFF, 0xFF, 2, 0, 0, 0]

theorem wrapped_name_mounted : ¬ ∀ mem heapVa ops s d startSector, 0 < heapVa →
    heapVa + kheapSize < 4294967296 →
    Runs.Run HeapStep ⟨kheapInit mem heapVa, []⟩ ops s.heap → MountSafe s d startSector := by
  intro h
  have htest : ((unmounted.fsMount (goodDisk wrappedName) 0).any fun r =>
      decide (r.2 = true ∧ r.1.blobCount = 1 ∧ ∀ c ∈ r.1.heap.live, c.bytes < 4294967296)) =
        true := by decide +kernel
  obtain ⟨⟨t, ok⟩, ht, hok⟩ := (Option.any_eq_true _ _).mp htest
  obtain ⟨htrue, hcount, hlive⟩ := of_decide_eq_true hok
  obtain ⟨t', ok', ht', hwf⟩ := h (fun _ => 0) 0xC0100000 [] unmounted (goodDisk wrappedName) 0
    (by decide) (by decide) (.nil _)
  rw [ht, Option.some.injEq, Prod.mk.injEq] at ht'
  obtain ⟨rfl, rfl⟩ := ht'
  obtain ⟨c, hc, -, hle⟩ := (hwf htrue).names 0 (by rw [hcount]; decide)
  have hname : (diskBlob (goodDisk wrappedName) 0 0).nameOffset +
      (diskBlob (goodDisk wrappedName) 0 0).nameSize = 4294967297 := by decide +kernel
  have hsmall := hlive c hc
  omega

end Reachable

end Leg.Fs
