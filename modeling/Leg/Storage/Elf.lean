import Leg.Storage.Llf

/-! The packer's reader for executables: `parse_elf` of `llf.py`, and what an executable says about
the bytes of its memory image. -/
namespace Leg

/-- `p_type`, `p_offset`, `p_vaddr`, `p_filesz`, `p_memsz` and `p_flags` of an ELF32 program
header. -/
structure ElfPhdr where
  type : ℕ
  offset : ℕ
  vaddr : ℕ
  filesz : ℕ
  memsz : ℕ
  flags : ℕ

namespace LlfPy

def elfMagic : List UInt8 := [0x7F, 69, 76, 70]

def ptLoad : ℕ := 1

/-- A byte of the file as a number. -/
def elfByte (elf : List UInt8) (off : ℕ) : ℕ := (elf.getD off 0).toNat

/-- A little-endian half word of the file. -/
def elfHalf (elf : List UInt8) (off : ℕ) : ℕ := elfByte elf off + 256 * elfByte elf (off + 1)

/-- A little-endian word of the file. -/
def elfWord (elf : List UInt8) (off : ℕ) : ℕ := elfHalf elf off + 65536 * elfHalf elf (off + 2)

/-- The program header at `base`; `unpack_from` fails where the file ends before its 32 bytes. -/
def unpackPhdr (elf : List UInt8) (base : ℕ) : Option ElfPhdr :=
  if base + 32 ≤ elf.length then
    some ⟨elfWord elf base, elfWord elf (base + 4), elfWord elf (base + 8), elfWord elf (base + 16),
      elfWord elf (base + 20), elfWord elf (base + 24)⟩
  else none

/-- The program headers that the file's header names. -/
def elfPhdrs (elf : List UInt8) : Option (List ElfPhdr) :=
  (List.range (elfHalf elf 0x2C)).mapM fun i =>
    unpackPhdr elf (elfWord elf 0x1C + i * elfHalf elf 0x2A)

/-- The segment that a program header adds, if any. -/
def segmentOf (elf : List UInt8) (ph : ElfPhdr) : Option Segment :=
  if ph.type ≠ ptLoad ∨ ph.memsz = 0 then none
  else if ph.filesz > 0 then
    some ⟨llfSegLoad, ph.flags, ph.vaddr, ph.memsz, ph.filesz, (elf.drop ph.offset).take ph.filesz⟩
  else some ⟨llfSegNobits, ph.flags, ph.vaddr, ph.memsz, 0, []⟩

/-- `parse_elf`, given the bytes of the file. -/
def parseElf (elf : List UInt8) : Option (ℕ × List Segment) :=
  if ¬ elfMagic.isPrefixOf elf then none
  else if elf.length < 0x18 + 8 then none
  else if elf.length < 0x2A + 4 then none
  else do
    let phdrs ← elfPhdrs elf
    return (elfWord elf 0x18, phdrs.filterMap (segmentOf elf))

end LlfPy

/-- A program header that asks for memory. -/
def ElfPhdr.Loads (ph : ElfPhdr) : Prop := ph.type = LlfPy.ptLoad ∧ 0 < ph.memsz

/-- The byte of the memory image that a program header puts at `n` from its address on. -/
def ElfPhdr.imageByte (elf : List UInt8) (ph : ElfPhdr) (n : ℕ) : UInt8 :=
  if n < ph.filesz then elf.getD (ph.offset + n) 0 else 0

/-- Executables that the loader has room for: what is loaded lies in the file, is no longer there
than in memory, ends below the initial stack pages, and no two segments share an address. -/
structure ElfFits (elf : List UInt8) (phdrs : List ElfPhdr) : Prop where
  inFile : ∀ ph ∈ phdrs, ph.Loads → ph.offset + ph.filesz ≤ elf.length
  shrinks : ∀ ph ∈ phdrs, ph.Loads → ph.filesz ≤ ph.memsz
  below : ∀ ph ∈ phdrs, ph.Loads → ph.vaddr + ph.memsz ≤ initialStackFloor
  apart : phdrs.Pairwise fun p q => p.Loads → q.Loads →
    p.vaddr + p.memsz ≤ q.vaddr ∨ q.vaddr + q.memsz ≤ p.vaddr

/-- Segments that the loader places each where it says: as long as in the file, below the initial
stack pages and apart from each other. -/
structure Placeable (segments : List Segment) : Prop where
  filled : LlfPy.Filled segments
  sized : ∀ s ∈ segments, 0 < s.memsz
  typed : ∀ s ∈ segments, s.type ≠ llfSegNull ∧ (s.type = llfSegLoad ↔ 0 < s.filesz)
  shrinks : ∀ s ∈ segments, s.filesz ≤ s.memsz
  below : ∀ s ∈ segments, s.vaddr + s.memsz ≤ initialStackFloor
  apart : segments.Pairwise fun s t =>
    s.vaddr + s.memsz ≤ t.vaddr ∨ t.vaddr + t.memsz ≤ s.vaddr

section Parse
variable {elf : List UInt8} {phdrs : List ElfPhdr} {ph : ElfPhdr} {s : Segment}

namespace LlfPy

/-- A segment says what its program header does. -/
theorem segmentOf_some (h : segmentOf elf ph = some s) :
    ph.Loads ∧ s.vaddr = ph.vaddr ∧ s.memsz = ph.memsz ∧ s.filesz = ph.filesz ∧
      s.data = (elf.drop ph.offset).take ph.filesz ∧ s.type ≠ llfSegNull ∧
      (s.type = llfSegLoad ↔ 0 < s.filesz) := by
  unfold segmentOf at h
  split at h
  next => exact absurd h (by simp)
  next hloads =>
    have hld : ph.Loads := by
      rw [not_or, not_not] at hloads
      exact ⟨hloads.1, Nat.pos_of_ne_zero hloads.2⟩
    split at h
    next hpos =>
      obtain rfl := Option.some.inj h
      exact ⟨hld, rfl, rfl, rfl, rfl, (by decide : llfSegLoad ≠ llfSegNull), iff_of_true rfl hpos⟩
    next hzero =>
      obtain rfl := Option.some.inj h
      have hz : ph.filesz = 0 := by omega
      exact ⟨hld, rfl, rfl, hz.symm, by rw [hz, List.take_zero],
        (by decide : llfSegNobits ≠ llfSegNull),
        iff_of_false (by decide : llfSegNobits ≠ llfSegLoad) (Nat.lt_irrefl 0)⟩

variable (elf) in
theorem segmentOf_loads (h : ph.Loads) : ∃ s, segmentOf elf ph = some s := by
  unfold segmentOf
  rw [if_neg (by rintro (hne | hz); exacts [hne h.1, absurd h.2 (by omega)])]
  split <;> exact ⟨_, rfl⟩

/-- The segments of an executable that fits can be placed. -/
theorem placeable (h : ElfFits elf phdrs) : Placeable (phdrs.filterMap (segmentOf elf)) := by
  have hfrom (s : Segment) (hs : s ∈ phdrs.filterMap (segmentOf elf)) :
      ∃ ph ∈ phdrs, segmentOf elf ph = some s := List.mem_filterMap.mp hs
  refine ⟨fun s hs => ?_, fun s hs => ?_, fun s hs => ?_, fun s hs => ?_, fun s hs => ?_, ?_⟩
  · obtain ⟨ph, hph, hsome⟩ := hfrom s hs
    obtain ⟨hld, -, -, hfile, hdata, -⟩ := segmentOf_some hsome
    have := h.inFile ph hph hld
    rw [hdata, hfile, List.length_take, List.length_drop]
    omega
  · obtain ⟨ph, -, hsome⟩ := hfrom s hs
    obtain ⟨hld, -, hmem, -⟩ := segmentOf_some hsome
    rw [hmem]
    exact hld.2
  · obtain ⟨ph, -, hsome⟩ := hfrom s hs
    exact (segmentOf_some hsome).2.2.2.2.2
  · obtain ⟨ph, hph, hsome⟩ := hfrom s hs
    obtain ⟨hld, -, hmem, hfile, -⟩ := segmentOf_some hsome
    rw [hmem, hfile]
    exact h.shrinks ph hph hld
  · obtain ⟨ph, hph, hsome⟩ := hfrom s hs
    obtain ⟨hld, haddr, hmem, -⟩ := segmentOf_some hsome
    rw [haddr, hmem]
    exact h.below ph hph hld
  · refine List.Pairwise.filterMap (segmentOf elf) (fun p q hpq s hs t ht => ?_) h.apart
    obtain ⟨hp, haddr, hmem, -⟩ := segmentOf_some hs
    obtain ⟨hq, haddr', hmem', -⟩ := segmentOf_some ht
    rw [haddr, hmem, haddr', hmem']
    exact hpq hp hq

theorem segment_byte (h : segmentOf elf ph = some s) (n : ℕ) :
    s.data.getD n 0 = ph.imageByte elf n := by
  obtain ⟨-, -, -, -, hdata, -⟩ := segmentOf_some h
  unfold ElfPhdr.imageByte
  rw [hdata, List.getD_eq_getElem?_getD, List.getElem?_take]
  split
  next => rw [List.getElem?_drop, List.getD_eq_getElem?_getD]
  next => rfl

theorem parseElf_some {entry : ℕ} {segments : List Segment}
    (h : parseElf elf = some (entry, segments)) : ∃ phdrs, elfPhdrs elf = some phdrs ∧
      entry = elfWord elf 0x18 ∧ segments = phdrs.filterMap (segmentOf elf) := by
  unfold parseElf at h
  split at h
  next => exact absurd h (by simp)
  next =>
  split at h
  next => exact absurd h (by simp)
  next =>
  split at h
  next => exact absurd h (by simp)
  next =>
    obtain ⟨phdrs, hphdrs, h⟩ := Option.bind_eq_some_iff.mp h
    obtain ⟨rfl, rfl⟩ := Prod.mk.inj (Option.some.inj h)
    exact ⟨phdrs, hphdrs, rfl, rfl⟩

end LlfPy

end Parse

end Leg
