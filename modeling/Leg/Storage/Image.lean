import Leg.Lib.StoredBytes
import Leg.Storage.MountSafe

/-! The filesystem image that `build_fs` of `mkfs.py` makes, and what `fs_mount` finds on a disk
that holds it. -/
namespace Leg
open Memory

/-- A blob as `build_fs` gets it: its encoded name, its data and its flags. -/
structure MkfsBlob where
  name : List UInt8
  data : List UInt8
  flags : ℕ

namespace Mkfs
variable (blobs : List MkfsBlob)

/-- `align_up` to whole sectors. -/
def alignUp (n : ℕ) : ℕ := (n + 511) / 512 * 512

def nameData : List UInt8 := blobs.flatMap MkfsBlob.name

/-- `name_offsets`, from the length of the names so far on. -/
def nameOffsets : ℕ → List MkfsBlob → List ℕ
  | _, [] => []
  | off, b :: bs => off :: nameOffsets (off + b.name.length) bs

/-- `blob_offsets`, with `cur` for the first. -/
def blobOffsets : ℕ → List MkfsBlob → List ℕ
  | _, [] => []
  | cur, b :: bs => cur :: blobOffsets (alignUp (cur + b.data.length)) bs

def namesStart : ℕ := 8 + 16 * blobs.length

def dataStart : ℕ := alignUp (namesStart blobs + (nameData blobs).length)

/-- The fields of the descriptors. -/
def descs : List FsBlob :=
  List.zipWith (fun (b : MkfsBlob) (off : ℕ × ℕ) =>
      ⟨off.1, b.data.length, off.2, b.name.length, b.flags⟩)
    blobs ((blobOffsets (dataStart blobs) blobs).zip (nameOffsets 0 blobs))

/-- The fields fit their widths on the disk. -/
def packs (b : FsBlob) : Bool :=
  b.offset < 4294967296 && b.size < 4294967296 && b.nameOffset < 4294967296 &&
    b.nameSize < 65536 && b.flags < 65536

/-- A packed descriptor. -/
def descBytes (b : FsBlob) : List UInt8 :=
  le32 b.offset ++ (le32 b.size ++ (le32 b.nameOffset ++ (le16 b.nameSize ++ le16 b.flags)))

/-- The data of a blob, filled up to whole sectors. -/
def dataBytes (b : MkfsBlob) : List UInt8 :=
  b.data ++ List.replicate (alignUp b.data.length - b.data.length) 0

/-- `build_fs`, which fails on a number that does not fit its field. -/
def buildFs : Option (List UInt8) :=
  if blobs.length < 4294967296 ∧ (descs blobs).all packs then
    some (le32 fsMagic ++ (le32 blobs.length ++ ((descs blobs).flatMap descBytes ++
      (nameData blobs ++
        (List.replicate (dataStart blobs - (namesStart blobs + (nameData blobs).length)) 0 ++
          blobs.flatMap dataBytes)))))
  else none

variable {blobs} {i : ℕ} {b : MkfsBlob}

theorem nameOffsets_get (off : ℕ) (hi : blobs[i]? = some b) :
    (nameOffsets off blobs)[i]? = some (off + ((blobs.take i).flatMap MkfsBlob.name).length) := by
  induction blobs generalizing off i with
  | nil => simp at hi
  | cons c cs ih =>
    cases i with
    | zero => simp [nameOffsets]
    | succ i =>
      rw [List.getElem?_cons_succ] at hi
      rw [nameOffsets, List.getElem?_cons_succ, ih (off + c.name.length) hi, List.take_succ_cons,
        List.flatMap_cons, List.length_append, Nat.add_assoc]

theorem le_alignUp (n : ℕ) : n ≤ alignUp n := by
  unfold alignUp
  omega

theorem alignUp_add {cur : ℕ} (h : 512 ∣ cur) (n : ℕ) : alignUp (cur + n) = cur + alignUp n := by
  unfold alignUp
  omega

theorem dvd_alignUp (n : ℕ) : 512 ∣ alignUp n := Nat.dvd_mul_left _ _

@[simp] theorem dataBytes_length (b : MkfsBlob) : (dataBytes b).length = alignUp b.data.length := by
  rw [dataBytes, List.length_append, List.length_replicate]
  exact Nat.add_sub_of_le (le_alignUp _)

theorem blobOffsets_get {cur : ℕ} (hcur : 512 ∣ cur) (hi : blobs[i]? = some b) :
    (blobOffsets cur blobs)[i]? = some (cur + ((blobs.take i).flatMap dataBytes).length) := by
  induction blobs generalizing cur i with
  | nil => simp at hi
  | cons c cs ih =>
    cases i with
    | zero => simp [blobOffsets]
    | succ i =>
      rw [List.getElem?_cons_succ] at hi
      rw [blobOffsets, List.getElem?_cons_succ, ih (dvd_alignUp _) hi, alignUp_add hcur,
        List.take_succ_cons, List.flatMap_cons, List.length_append, dataBytes_length,
        Nat.add_assoc]

/-- Where the data of a blob starts. -/
def dataOffset (blobs : List MkfsBlob) (i : ℕ) : ℕ :=
  dataStart blobs + ((blobs.take i).flatMap dataBytes).length

theorem dvd_dataOffset (blobs : List MkfsBlob) (i : ℕ) : 512 ∣ dataOffset blobs i := by
  apply Nat.dvd_add (dvd_alignUp _)
  induction blobs.take i with
  | nil => exact Nat.dvd_zero _
  | cons b bs ih =>
    rw [List.flatMap_cons, List.length_append, dataBytes_length]
    exact Nat.dvd_add (dvd_alignUp _) ih

theorem descs_getElem (hi : blobs[i]? = some b) : (descs blobs)[i]? =
    some ⟨dataOffset blobs i, b.data.length, ((blobs.take i).flatMap MkfsBlob.name).length,
      b.name.length, b.flags⟩ := by
  have hstart : 512 ∣ dataStart blobs := dvd_alignUp _
  rw [descs, List.zip, List.getElem?_zipWith, List.getElem?_zipWith, hi,
    blobOffsets_get hstart hi, nameOffsets_get 0 hi, Nat.zero_add]
  rfl

theorem descs_get (hi : blobs[i]? = some b) : ∃ off, (descs blobs)[i]? =
    some ⟨off, b.data.length, ((blobs.take i).flatMap MkfsBlob.name).length, b.name.length,
      b.flags⟩ := ⟨_, descs_getElem hi⟩

theorem nameOffsets_length (off : ℕ) : (nameOffsets off blobs).length = blobs.length := by
  induction blobs generalizing off with
  | nil => rfl
  | cons c cs ih => rw [nameOffsets, List.length_cons, ih, List.length_cons]

theorem blobOffsets_length (cur : ℕ) : (blobOffsets cur blobs).length = blobs.length := by
  induction blobs generalizing cur with
  | nil => rfl
  | cons c cs ih => rw [blobOffsets, List.length_cons, ih, List.length_cons]

theorem descs_length : (descs blobs).length = blobs.length := by
  rw [descs, List.length_zipWith, List.length_zip, blobOffsets_length, nameOffsets_length,
    Nat.min_self, Nat.min_self]

@[simp] theorem descBytes_length (b : FsBlob) : (descBytes b).length = fsBlobBytes := rfl

theorem fsBlobAt_of_stored {m : Memory} {a : ℕ} {b : FsBlob} (h : m.Stored a (descBytes b))
    (hb : packs b = true) : fsBlobAt m a = b := by
  obtain ⟨hoffset, h⟩ := stored_append.mp h
  obtain ⟨hsize, h⟩ := stored_append.mp h
  obtain ⟨hname, h⟩ := stored_append.mp h
  obtain ⟨hlen, hflags⟩ := stored_append.mp h
  simp only [packs, Bool.and_eq_true, decide_eq_true_eq] at hb
  obtain ⟨⟨⟨⟨b1, b2⟩, b3⟩, b4⟩, b5⟩ := hb
  simp only [le32_length, le16_length, Nat.add_assoc, Nat.reduceAdd] at hsize hname hlen hflags
  unfold fsBlobAt
  rw [hoffset.load b1, hsize.load b2, hname.load b3, hlen.load16 b4, hflags.load16 b5]

/-- What lies on a disk where the image of the blobs starts at `a`. -/
structure ImageAt (m : Memory) (a : ℕ) (blobs : List MkfsBlob) : Prop where
  magic : m.load a = fsMagic
  count : m.load (a + 4) = blobs.length
  descs : ∀ i b, (descs blobs)[i]? = some b → fsBlobAt m (a + fsHeaderBytes + fsBlobBytes * i) = b
  names : m.Stored (a + namesStart blobs) (nameData blobs)
  fits : ∀ b ∈ Mkfs.descs blobs, packs b = true
  countFits : blobs.length < 4294967296

theorem imageAt_of_stored {m : Memory} {a : ℕ} {img : List UInt8} (hb : buildFs blobs = some img)
    (h : m.Stored a img) : ImageAt m a blobs := by
  unfold buildFs at hb
  split at hb
  next hfit =>
    obtain rfl := Option.some.inj hb
    have hpacks : ∀ b ∈ descs blobs, packs b = true := List.all_eq_true.mp hfit.2
    obtain ⟨hmagic, h⟩ := stored_append.mp h
    obtain ⟨hcount, h⟩ := stored_append.mp h
    obtain ⟨hdescs, h⟩ := stored_append.mp h
    obtain ⟨hnames, -⟩ := stored_append.mp h
    have hall : ((descs blobs).flatMap descBytes).length = fsBlobBytes * blobs.length := by
      have hlen := flatMap_take_length descBytes_length (descs blobs) (le_refl _)
      rwa [List.take_length, descs_length] at hlen
    refine ⟨hmagic.load (by decide), hcount.load hfit.1, fun i b hi => ?_, ?_, hpacks, hfit.1⟩
    · obtain ⟨hlt, -⟩ := List.getElem?_eq_some_iff.mp hi
      have hpiece := hdescs.piece hi
      rw [flatMap_take_length descBytes_length _ hlt.le] at hpiece
      apply fsBlobAt_of_stored _ (hpacks b (List.mem_of_getElem? hi))
      have haddr : a + fsHeaderBytes + fsBlobBytes * i =
          a + (le32 fsMagic).length + (le32 blobs.length).length + fsBlobBytes * i := by
        rw [le32_length, le32_length]
        rfl
      rw [haddr]
      exact hpiece
    · rw [hall, le32_length, le32_length] at hnames
      have haddr : a + namesStart blobs = a + 4 + 4 + fsBlobBytes * blobs.length := by
        unfold namesStart fsBlobBytes
        omega
      rw [haddr]
      exact hnames
  next => exact nomatch hb

/-- The data lies behind the names, from a whole sector on. -/
theorem dataStored {m : Memory} {a : ℕ} {img : List UInt8} (hb : buildFs blobs = some img)
    (h : m.Stored a img) : m.Stored (a + dataStart blobs) (blobs.flatMap dataBytes) := by
  unfold buildFs at hb
  split at hb
  next =>
    obtain rfl := Option.some.inj hb
    obtain ⟨-, h⟩ := stored_append.mp h
    obtain ⟨-, h⟩ := stored_append.mp h
    obtain ⟨-, h⟩ := stored_append.mp h
    obtain ⟨-, h⟩ := stored_append.mp h
    obtain ⟨-, h⟩ := stored_append.mp h
    have hall : ((descs blobs).flatMap descBytes).length = fsBlobBytes * blobs.length := by
      have hlen := flatMap_take_length descBytes_length (descs blobs) (le_refl _)
      rwa [List.take_length, descs_length] at hlen
    have hpad := le_alignUp (namesStart blobs + (nameData blobs).length)
    have haddr : a + dataStart blobs = a + (le32 fsMagic).length + (le32 blobs.length).length +
        ((descs blobs).flatMap descBytes).length + (nameData blobs).length +
        (List.replicate (dataStart blobs - (namesStart blobs + (nameData blobs).length))
          (0 : UInt8)).length := by
      rw [le32_length, le32_length, hall, List.length_replicate]
      unfold dataStart namesStart fsBlobBytes at *
      omega
    rw [haddr]
    exact h
  next => exact nomatch hb

theorem dataStored_get {m : Memory} {a : ℕ} {img : List UInt8} (hb : buildFs blobs = some img)
    (h : m.Stored a img) (hi : blobs[i]? = some b) :
    m.Stored (a + dataOffset blobs i) (dataBytes b) := by
  rw [dataOffset, ← Nat.add_assoc]
  exact (dataStored hb h).piece hi

theorem ImageAt.namesEnd {m : Memory} {a : ℕ} (h : ImageAt m a blobs) (hne : blobs ≠ []) :
    namesStart blobs + (nameData blobs).length < 4294967296 := by
  obtain ⟨b, bs, rfl⟩ := List.exists_cons_of_ne_nil hne
  have hfirst : packs ⟨dataStart (b :: bs), b.data.length, 0, b.name.length, b.flags⟩ = true :=
    h.fits _ (List.mem_cons_self ..)
  simp only [packs, Bool.and_eq_true, decide_eq_true_eq] at hfirst
  have hstart := hfirst.1.1.1.1
  unfold dataStart alignUp at hstart
  omega

theorem ImageAt.descsFit {m : Memory} {a : ℕ} (h : ImageAt m a blobs) (hne : blobs ≠ []) :
    blobs.length * fsBlobBytes < 4294967296 := by
  have hnames := h.namesEnd hne
  unfold namesStart at hnames
  unfold fsBlobBytes
  omega

theorem ImageAt.descEnd_eq {m : Memory} {a : ℕ} (h : ImageAt m a blobs) (hne : blobs ≠ []) :
    descEnd blobs.length = namesStart blobs := by
  rw [Fs.descEnd_eq, u32_of_lt (h.descsFit hne)]
  unfold namesStart fsHeaderBytes fsBlobBytes
  omega

/-- The names of an image end where the last of them does. -/
theorem ImageAt.maxNameEnd {m : Memory} {a : ℕ} (h : ImageAt m a blobs) (hne : blobs ≠ []) :
    Fs.maxNameEnd (fun i => fsBlobAt m (a + fsHeaderBytes + fsBlobBytes * i)) blobs.length 0 0 =
      (nameData blobs).length := by
  have htotal := h.namesEnd hne
  have hend (i : ℕ) (b : MkfsBlob) (hi : blobs[i]? = some b) :
      Fs.nameEnd (fsBlobAt m (a + fsHeaderBytes + fsBlobBytes * i)) =
        ((blobs.take (i + 1)).flatMap MkfsBlob.name).length := by
    obtain ⟨off, hoff⟩ := descs_get hi
    have htake : (blobs.take (i + 1)).flatMap MkfsBlob.name =
        (blobs.take i).flatMap MkfsBlob.name ++ b.name := by
      rw [List.take_add_one, hi, List.flatMap_append]
      simp
    have hle : ((blobs.take (i + 1)).flatMap MkfsBlob.name).length ≤ (nameData blobs).length := by
      conv_rhs => rw [nameData, ← List.take_append_drop (i + 1) blobs, List.flatMap_append,
        List.length_append]
      omega
    rw [htake, List.length_append] at hle ⊢
    rw [h.descs i _ hoff, Fs.nameEnd]
    exact u32_of_lt (by dsimp only; omega)
  apply le_antisymm
  · apply Fs.maxNameEnd_bound _ _ _ _ (Nat.zero_le _)
    intro i _ hi
    rw [Nat.zero_add] at hi
    rw [hend i _ (List.getElem?_eq_getElem hi)]
    conv_rhs => rw [nameData, ← List.take_append_drop (i + 1) blobs, List.flatMap_append,
      List.length_append]
    exact Nat.le_add_right _ _
  · have hpos := List.length_pos_iff.mpr hne
    have hlast := (Fs.maxNameEnd_le (fun i => fsBlobAt m (a + fsHeaderBytes + fsBlobBytes * i))
      blobs.length 0 0).2 (blobs.length - 1) (Nat.zero_le _) (by omega)
    rw [hend _ _ (List.getElem?_eq_getElem (by omega)), Nat.sub_add_cancel hpos,
      List.take_length] at hlast
    exact hlast

end Mkfs

end Leg
