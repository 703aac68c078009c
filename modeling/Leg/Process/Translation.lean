import Leg.Memory.Boot
import Leg.Process.AddressSpace

/-! The translation of virtual addresses: the tables that `map_sections` builds and the walk of a
first-level table and its second-level tables. -/
namespace Leg

def l1Section : ℕ := 0b10

def l2XnPage : ℕ := 0b11

def mbShift : ℕ := 20

/-- The bytes of a section. -/
def sectionSize : ℕ := 1048576

/-- The sections of the kernel's high-half mapping. -/
def windowSections : ℕ := 4

def deviceVirtBlock : ℕ := 0xCF000000

/-- The L1 entry of a section of the kernel. -/
def l1SectionEntry (mb : ℕ) : ℕ := u32 (mb <<< 20) ||| 0x180E

/-- `n` section entries in a row: slot `va + i` maps the section `pa + i`. -/
def mapSectionRow (va pa n : ℕ) (table : ℕ → ℕ) : ℕ → ℕ :=
  (List.range n).foldl (fun t i => Function.update t (va + i) (l1SectionEntry (pa + i))) table

/-- The entries `map_sections` writes into a table that holds anything, and `kboot`'s removal of
the flash. -/
def mapSections (dtb devicesPt : ℕ) (table : ℕ → ℕ) : ℕ → ℕ :=
  let kphys := u32 ((dtb &&& bnot 0xFFFFF) + kphysOffset)
  let table := Function.update table (deviceVirtBlock >>> mbShift)
    (l1TableEntry (u32 (wsub devicesPt kernelVa + kphys)))
  let table := Function.update table 0 (l1SectionEntry 0)
  let table := mapSectionRow (kernelVa >>> mbShift) (kphys >>> mbShift) windowSections table
  let table := mapSectionRow (u32 dtb >>> mbShift) (u32 dtb >>> mbShift) 4 table
  Function.update table 0 0

/-- The walk of the first-level table `l1`; `l2` gives the second-level table that an L1 entry
points to. -/
def walk (l1 : ℕ → ℕ) (l2 : ℕ → ℕ → ℕ) (va : ℕ) : Option ℕ :=
  let w := l1 (va >>> mbShift)
  if entryType w = l1Section then some (w >>> mbShift <<< mbShift + va % sectionSize)
  else if entryType w = l1PageTable then
    let e := l2 (l1Address w) (l2Idx va)
    if entryType e = l2SmallPage ∨ entryType e = l2XnPage then
      some (l2Address e + va % pageSize)
    else none
  else none

theorem u32_shiftLeft_section (mb : ℕ) : u32 (mb <<< 20) = mb % 4096 * sectionSize := by
  unfold u32 sectionSize
  rw [Nat.shiftLeft_eq]
  omega

private theorem section_or (n : ℕ) {b : ℕ} (hb : b < sectionSize) :
    n * sectionSize ||| b = n * sectionSize + b := by
  have hpow : sectionSize = 2 ^ 20 := by decide
  rw [hpow] at hb ⊢
  rw [Nat.mul_comm]
  exact (Nat.two_pow_add_eq_or_of_lt hb n).symm

theorem l1SectionEntry_eq (mb : ℕ) : l1SectionEntry mb = mb % 4096 * sectionSize + 0x180E := by
  unfold l1SectionEntry
  rw [u32_shiftLeft_section, section_or _ (by decide)]

theorem entryType_eq (w : ℕ) : entryType w = w % 4 := Nat.and_two_pow_sub_one_eq_mod w 2

theorem entryType_l1SectionEntry (mb : ℕ) : entryType (l1SectionEntry mb) = l1Section := by
  rw [entryType_eq, l1SectionEntry_eq]
  unfold sectionSize l1Section
  omega

theorem walk_section {l1 : ℕ → ℕ} {va mb : ℕ} (l2 : ℕ → ℕ → ℕ)
    (h : l1 (va >>> mbShift) = l1SectionEntry mb) :
    walk l1 l2 va = some (mb % 4096 * sectionSize + va % sectionSize) := by
  have hbase : l1SectionEntry mb >>> mbShift <<< mbShift = mb % 4096 * sectionSize := by
    rw [l1SectionEntry_eq, Nat.shiftRight_eq_div_pow, Nat.shiftLeft_eq]
    unfold sectionSize mbShift
    omega
  unfold walk
  simp only [h, entryType_l1SectionEntry, if_true, hbase]

theorem mapSectionRow_apply (va pa n : ℕ) (table : ℕ → ℕ) (v : ℕ) :
    mapSectionRow va pa n table v =
      if va ≤ v ∧ v < va + n then l1SectionEntry (pa + (v - va)) else table v := by
  induction n with
  | zero => rw [if_neg (by omega), mapSectionRow, List.range_zero, List.foldl_nil]
  | succ n ih =>
    rw [mapSectionRow] at ih ⊢
    rw [List.range_succ, List.foldl_append, List.foldl_cons, List.foldl_nil, Function.update_apply,
      ih]
    by_cases hv : v = va + n
    · rw [if_pos hv, if_pos (by omega), show v - va = n by omega]
    · rw [if_neg hv]
      refine if_congr ?_ rfl rfl
      omega

end Leg
