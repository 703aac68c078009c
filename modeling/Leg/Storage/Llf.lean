import Leg.Lib.StoredBytes
import Leg.Process.RecycledPages

/-! The executable format: the headers as `llf_load` reads them through the pointer to its buffer,
and the file that `to_llf_bytes` of `llf.py` makes of segments. -/
namespace Leg
open Memory

/-- `llf_phdr_t`, without the fields that the loader does not use. -/
structure LlfSegment extends LlfPhdr where
  filesz : ℕ
  offset : ℕ

/-- `sizeof(llf_phdr_t)`. -/
def llfPhdrSize : ℕ := 28

/-- The word at an address. -/
def wordAt (m : Memory) (a : ℕ) : ℕ :=
  (m (u32 a)).toNat + 256 * (m (u32 (a + 1))).toNat + 65536 * (m (u32 (a + 2))).toNat +
    16777216 * (m (u32 (a + 3))).toNat

/-- The program header at an address. -/
def phdrAt (m : Memory) (a : ℕ) : LlfSegment :=
  ⟨⟨wordAt m a, wordAt m (a + 8), wordAt m (a + 12)⟩, wordAt m (a + 16), wordAt m (a + 20)⟩

/-- The address of a program header of the image at `buf`. -/
def phdrAddr (m : Memory) (buf i : ℕ) : ℕ := u32 (buf + wordAt m (buf + 12)) + llfPhdrSize * i

/-- The image at `buf`. -/
def llfAt (m : Memory) (buf : ℕ) : Llf where
  magic := wordAt m buf
  entry := wordAt m (buf + 8)
  phdrs := (List.range (wordAt m (buf + 16))).map fun i =>
    (phdrAt m (phdrAddr m buf i)).toLlfPhdr

/-- What the image at `buf` holds for its segments. -/
def llfContentsAt (m : Memory) (buf : ℕ) : LlfContents where
  filesz i := (phdrAt m (phdrAddr m buf i)).filesz
  offset i := (phdrAt m (phdrAddr m buf i)).offset
  bytes k := m (u32 (buf + k))

/-- `Segment` of `llf.py`. -/
structure Segment where
  type : ℕ
  flags : ℕ
  vaddr : ℕ
  memsz : ℕ
  filesz : ℕ
  data : List UInt8

namespace LlfPy

def llfVersion : ℕ := 0x00010000

def llfSegNobits : ℕ := 2

/-- `offsets`, with `off` for the first data. -/
def offsets : (off : ℕ) → List Segment → List ℕ
  | _, [] => []
  | off, s :: ss => (if s.filesz > 0 then off else 0) :: offsets (off + s.filesz) ss

def dataBase (segments : List Segment) : ℕ := llfHeaderSize + segments.length * llfPhdrSize

/-- The packed header. -/
def headerBytes (entry count : ℕ) : List UInt8 :=
  le32 llfMagic ++ (le32 llfVersion ++ (le32 entry ++ (le32 llfHeaderSize ++
    (le32 count ++ le32 0))))

/-- A packed program header. -/
def phdrBytes (s : Segment × ℕ) : List UInt8 :=
  le32 s.1.type ++ (le32 s.1.flags ++ (le32 s.1.vaddr ++ (le32 s.1.memsz ++ (le32 s.1.filesz ++
    (le32 s.2 ++ le32 0)))))

/-- The fields of a program header fit their widths. -/
def packs (s : Segment × ℕ) : Bool :=
  s.1.type < 4294967296 && s.1.flags < 4294967296 && s.1.vaddr < 4294967296 &&
    s.1.memsz < 4294967296 && s.1.filesz < 4294967296 && s.2 < 4294967296

/-- The data of a segment in the file. -/
def dataBytes (s : Segment) : List UInt8 := if s.filesz > 0 then s.data else []

/-- The segments with their offsets. -/
def placed (segments : List Segment) : List (Segment × ℕ) :=
  segments.zip (offsets (dataBase segments) segments)

/-- `to_llf_bytes`, which fails on a number that does not fit its field. -/
def toLlfBytes (entry : ℕ) (segments : List Segment) : Option (List UInt8) :=
  if entry < 4294967296 ∧ segments.length < 4294967296 ∧ (placed segments).all packs then
    some (headerBytes entry segments.length ++ ((placed segments).flatMap phdrBytes ++
      segments.flatMap dataBytes))
  else none

/-- Each segment has as many bytes as it says. -/
def Filled (segments : List Segment) : Prop := ∀ s ∈ segments, s.data.length = s.filesz

section Layout
variable {segments : List Segment} {i : ℕ} {s : Segment}

theorem offsets_length (off : ℕ) : (offsets off segments).length = segments.length := by
  induction segments generalizing off with
  | nil => rfl
  | cons t ts ih => rw [offsets, List.length_cons, ih, List.length_cons]

theorem dataBytes_length (h : s.data.length = s.filesz) : (dataBytes s).length = s.filesz := by
  unfold dataBytes
  split
  next => exact h
  next hno => rw [List.length_nil, Nat.eq_zero_of_not_pos hno]

theorem offsets_get (hfilled : Filled segments) (off : ℕ) (hi : segments[i]? = some s) :
    (offsets off segments)[i]? =
      some (if s.filesz > 0 then off + ((segments.take i).flatMap dataBytes).length else 0) := by
  induction segments generalizing off i with
  | nil => simp at hi
  | cons t ts ih =>
    cases i with
    | zero =>
      obtain rfl : t = s := by simpa using hi
      simp [offsets]
    | succ i =>
      rw [List.getElem?_cons_succ] at hi
      have hrest : Filled ts := fun u hu => hfilled u (List.mem_cons_of_mem t hu)
      rw [offsets, List.getElem?_cons_succ, ih hrest (off + t.filesz) hi, List.take_succ_cons,
        List.flatMap_cons, List.length_append,
        dataBytes_length (hfilled t (List.mem_cons_self ..)), Nat.add_assoc]

@[simp] theorem headerBytes_length (entry count : ℕ) :
    (headerBytes entry count).length = llfHeaderSize := rfl

@[simp] theorem phdrBytes_length (s : Segment × ℕ) : (phdrBytes s).length = llfPhdrSize := rfl

theorem placed_length : (placed segments).length = segments.length := by
  rw [placed, List.length_zip, offsets_length, Nat.min_self]

theorem placed_get (hfilled : Filled segments) (hi : segments[i]? = some s) :
    (placed segments)[i]? = some (s, if s.filesz > 0 then
      dataBase segments + ((segments.take i).flatMap dataBytes).length else 0) := by
  rw [placed, List.zip, List.getElem?_zipWith, hi, offsets_get hfilled _ hi]

end Layout

section Read
variable {m : Memory} {buf : ℕ}

theorem wordAt_eq {a : ℕ} (h : a + 4 ≤ 4294967296) : wordAt m a = m.load a := by
  unfold wordAt Memory.load
  rw [u32_of_lt (by omega), u32_of_lt (by omega), u32_of_lt (by omega), u32_of_lt (by omega)]

theorem wordAt_stored {a n : ℕ} (h : m.Stored a (le32 n)) (hn : n < 4294967296)
    (ha : a + 4 ≤ 4294967296) : wordAt m a = n := by
  rw [wordAt_eq ha]
  exact h.load hn

theorem phdrAt_stored {a : ℕ} {s : Segment × ℕ} (h : m.Stored a (phdrBytes s))
    (hs : packs s = true) (ha : a + llfPhdrSize ≤ 4294967296) :
    phdrAt m a = ⟨⟨s.1.type, s.1.vaddr, s.1.memsz⟩, s.1.filesz, s.2⟩ := by
  obtain ⟨htype, h⟩ := stored_append.mp h
  obtain ⟨hflags, h⟩ := stored_append.mp h
  obtain ⟨hvaddr, h⟩ := stored_append.mp h
  obtain ⟨hmemsz, h⟩ := stored_append.mp h
  obtain ⟨hfilesz, h⟩ := stored_append.mp h
  obtain ⟨hoffset, -⟩ := stored_append.mp h
  simp only [packs, Bool.and_eq_true, decide_eq_true_eq] at hs
  obtain ⟨⟨⟨⟨⟨b1, b2⟩, b3⟩, b4⟩, b5⟩, b6⟩ := hs
  simp only [le32_length, Nat.add_assoc, Nat.reduceAdd] at hvaddr hmemsz hfilesz hoffset
  unfold llfPhdrSize at ha
  unfold phdrAt
  rw [wordAt_stored htype b1 (by omega), wordAt_stored hvaddr b3 (by omega),
    wordAt_stored hmemsz b4 (by omega), wordAt_stored hfilesz b5 (by omega),
    wordAt_stored hoffset b6 (by omega)]

end Read

/-- What a memory holds where the file of the segments, of `size` bytes, starts at `buf`. -/
structure ImageAt (m : Memory) (buf size entry : ℕ) (segments : List Segment) : Prop where
  header : llfHeaderSize ≤ size
  magic : wordAt m buf = llfMagic
  entry : wordAt m (buf + 8) = entry
  phCount : wordAt m (buf + 16) = segments.length
  phdr : ∀ i s, segments[i]? = some s → (phdrAt m (phdrAddr m buf i)).toLlfPhdr =
    ⟨s.type, s.vaddr, s.memsz⟩ ∧ (phdrAt m (phdrAddr m buf i)).filesz = s.filesz
  data : ∀ i s, segments[i]? = some s → ∀ k (hk : k < s.filesz) (hd : k < s.data.length),
    m (u32 (buf + ((phdrAt m (phdrAddr m buf i)).offset + k))) = s.data[k]
  inFile : ∀ i s, segments[i]? = some s → 0 < s.filesz →
    (phdrAt m (phdrAddr m buf i)).offset + s.filesz ≤ size

/-- `to_llf_bytes` writes what `llf_load` reads. -/
theorem imageAt_of_stored {m : Memory} {buf entry : ℕ} {segments : List Segment}
    {bytes : List UInt8} (hfilled : Filled segments) (hb : toLlfBytes entry segments = some bytes)
    (h : m.Stored buf bytes) (hfit : buf + bytes.length < 4294967296) :
    ImageAt m buf bytes.length entry segments := by
  unfold toLlfBytes at hb
  split at hb
  next hwidths =>
    obtain ⟨hentry, hcount, hall⟩ := hwidths
    obtain rfl := Option.some.inj hb
    have hpacks : ∀ s ∈ placed segments, packs s = true := List.all_eq_true.mp hall
    have hphdrs : ((placed segments).flatMap phdrBytes).length = llfPhdrSize * segments.length := by
      have hlen := flatMap_take_length phdrBytes_length (placed segments) (le_refl _)
      rwa [List.take_length, placed_length] at hlen
    have hlen := hfit
    rw [List.length_append, List.length_append, hphdrs, headerBytes_length] at hlen
    obtain ⟨hheader, h⟩ := stored_append.mp h
    obtain ⟨htable, hdata⟩ := stored_append.mp h
    rw [headerBytes_length] at htable hdata
    rw [hphdrs] at hdata
    obtain ⟨hmagic, hheader⟩ := stored_append.mp hheader
    obtain ⟨-, hheader⟩ := stored_append.mp hheader
    obtain ⟨hent, hheader⟩ := stored_append.mp hheader
    obtain ⟨hoff, hheader⟩ := stored_append.mp hheader
    obtain ⟨hcnt, -⟩ := stored_append.mp hheader
    simp only [le32_length, Nat.add_assoc, Nat.reduceAdd] at hent hoff hcnt
    have hsize : llfHeaderSize = 24 := rfl
    have hphOff := wordAt_stored hoff (by decide) (by omega)
    have hphdrAddr (i : ℕ) : phdrAddr m buf i = buf + llfHeaderSize + llfPhdrSize * i := by
      unfold phdrAddr
      rw [hphOff, u32_of_lt (by omega)]
    have hread (i : ℕ) (s : Segment) (hi : segments[i]? = some s) :
        phdrAt m (phdrAddr m buf i) = ⟨⟨s.type, s.vaddr, s.memsz⟩, s.filesz,
          if s.filesz > 0 then
            dataBase segments + ((segments.take i).flatMap dataBytes).length else 0⟩ := by
      obtain ⟨hlt, -⟩ := List.getElem?_eq_some_iff.mp hi
      have hplaced := placed_get hfilled hi
      have hpiece := htable.piece hplaced
      rw [flatMap_take_length phdrBytes_length _ (by rw [placed_length]; omega)] at hpiece
      rw [hphdrAddr]
      refine phdrAt_stored hpiece (hpacks _ (List.mem_of_getElem? hplaced)) ?_
      have : llfPhdrSize * (i + 1) ≤ llfPhdrSize * segments.length :=
        Nat.mul_le_mul_left _ hlt
      rw [Nat.mul_add_one] at this
      omega
    have hpiece (i : ℕ) (s : Segment) (hi : segments[i]? = some s) (hpos : 0 < s.filesz) :
        m.Stored (buf + (phdrAt m (phdrAddr m buf i)).offset) s.data ∧
          (phdrAt m (phdrAddr m buf i)).offset + s.filesz ≤
            dataBase segments + (segments.flatMap dataBytes).length := by
      have hmem : m.Stored (buf + llfHeaderSize + llfPhdrSize * segments.length +
          ((segments.take i).flatMap dataBytes).length) (dataBytes s) := hdata.piece hi
      have hbytes : dataBytes s = s.data := if_pos hpos
      have hlen := hfilled s (List.mem_of_getElem? hi)
      rw [hread i s hi, if_pos hpos]
      refine ⟨?_, ?_⟩
      · rw [hbytes] at hmem
        have haddr : buf + (dataBase segments + ((segments.take i).flatMap dataBytes).length) =
            buf + llfHeaderSize + llfPhdrSize * segments.length +
              ((segments.take i).flatMap dataBytes).length := by
          unfold dataBase
          rw [Nat.mul_comm segments.length]
          omega
        dsimp only
        rw [haddr]
        exact hmem
      · have hsplit : segments.flatMap dataBytes = (segments.take i).flatMap dataBytes ++
            (dataBytes s ++ (segments.drop (i + 1)).flatMap dataBytes) := by
          obtain ⟨hlt, rfl⟩ := List.getElem?_eq_some_iff.mp hi
          rw [← List.flatMap_cons, ← List.flatMap_append, List.getElem_cons_drop,
            List.take_append_drop]
        rw [hsplit, List.length_append, List.length_append, hbytes, hlen]
        dsimp only
        omega
    have hbase : dataBase segments = llfHeaderSize + llfPhdrSize * segments.length := by
      unfold dataBase
      rw [Nat.mul_comm]
    refine ⟨?_, wordAt_stored hmagic (by decide) (by omega),
      wordAt_stored hent hentry (by omega), wordAt_stored hcnt hcount (by omega),
      fun i s hi => ?_, fun i s hi k hk hd => ?_, fun i s hi hpos => ?_⟩
    · rw [List.length_append, headerBytes_length]
      exact Nat.le_add_right _ _
    · rw [hread i s hi]
      exact ⟨rfl, rfl⟩
    · obtain ⟨hstored, hend⟩ := hpiece i s hi (by omega)
      rw [u32_of_lt (by omega), ← Nat.add_assoc]
      exact hstored k hd
    · obtain ⟨-, hend⟩ := hpiece i s hi hpos
      rw [List.length_append, List.length_append, hphdrs, headerBytes_length]
      omega
  next => exact absurd hb (by simp)

end LlfPy

end Leg
