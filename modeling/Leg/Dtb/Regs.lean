import Leg.Dtb.Tree

/-! `dtb_reg_entry`: the entries of a `reg` property, and when its test of the bound is that of
the unbounded integers. -/
namespace Leg

/-- The loop that shifts `n` cells from `p` on into a 64-bit value. -/
def cellsFrom (m : Readable) (p : ℕ) : (n c value : ℕ) → Option ℕ
  | 0, _, value => some value
  | n + 1, c, value => do
    let w ← be32Read m (u32 (p + c * 4))
    cellsFrom m p n (c + 1) (u64 (value * 4294967296) + w)

/-- `dtb_reg_entry` once the property is found, with the cells of the parent. -/
def regEntry (m : Readable) (ac sc : ℕ) (reg : DtbProp) (index : ℕ) : Option (Option (ℕ × ℕ)) :=
  let entryBytes := u32 (u32 (ac + sc) * 4)
  if entryBytes = 0 ∨ reg.len < u32 (u32 (index + 1) * entryBytes) then some none
  else do
    let p := u32 (reg.data + u32 (index * entryBytes))
    let base ← cellsFrom m p ac 0 0
    let size ← cellsFrom m p sc ac 0
    return some (base, size)

/-- `dtb_reg_entry` for a node with the given parent. -/
def dtbRegEntry (m : Readable) (parent : Option DtbNode) (node : DtbNode) (index : ℕ) :
    Option (Option (ℕ × ℕ)) := do
  match ← dtbGetProp m node (ascii ['r', 'e', 'g']) with
  | none => return none
  | some reg =>
    let ac := parent.elim 2 DtbNode.addressCells
    let sc := parent.elim 1 DtbNode.sizeCells
    regEntry m ac sc reg index

/-- The big-endian cell at an offset of the data. -/
def cellAt (bytes : ℕ → UInt8) (off : ℕ) : ℕ :=
  (bytes off).toNat * 16777216 + (bytes (off + 1)).toNat * 65536 +
    (bytes (off + 2)).toNat * 256 + (bytes (off + 3)).toNat

/-- The value of `n` big-endian cells from an offset on, the first the most significant. -/
def cellsValue (bytes : ℕ → UInt8) (off n : ℕ) : ℕ :=
  ((List.range n).map fun i => cellAt bytes (off + 4 * i)).foldl
    (fun value w => value * 4294967296 + w) 0

/-- What `dtb_reg_entry` is to give for an entry, over the unbounded integers. -/
def regEntrySpec (bytes : ℕ → UInt8) (ac sc len index : ℕ) : Option (ℕ × ℕ) :=
  if 0 < ac + sc ∧ (index + 1) * (ac + sc) * 4 ≤ len then
    let off := index * (ac + sc) * 4
    some (u64 (cellsValue bytes off ac), u64 (cellsValue bytes (off + 4 * ac) sc))
  else none

section Cells
variable {m : Readable} {bytes : ℕ → UInt8}

theorem be32Read_eq {p off : ℕ} (h : ∀ i < 4, m (u32 (p + i)) = some (bytes (off + i))) :
    be32Read m p = some (cellAt bytes off) := by
  have h0 : m (u32 p) = some (bytes off) := h 0 (by decide)
  unfold be32Read
  rw [h0, h 1 (by decide), h 2 (by decide), h 3 (by decide)]
  rfl

theorem cellAt_lt (off : ℕ) : cellAt bytes off < 4294967296 := by
  have h0 := (bytes off).toNat_lt
  have h1 := (bytes (off + 1)).toNat_lt
  have h2 := (bytes (off + 2)).toNat_lt
  have h3 := (bytes (off + 3)).toNat_lt
  unfold cellAt
  omega

/-- The loop takes in the cells it can read, modulo 2^64. -/
theorem cellsFrom_eq {p off : ℕ} (n c : ℕ) {value exact : ℕ} (hv : value = u64 exact)
    (h : ∀ i < 4 * n, m (u32 (p + c * 4 + i)) = some (bytes (off + i))) :
    cellsFrom m p n c value =
      some (u64 (((List.range n).map fun i => cellAt bytes (off + 4 * i)).foldl
        (fun value w => value * 4294967296 + w) exact)) := by
  induction n generalizing c off value exact with
  | zero => rw [cellsFrom, hv]; rfl
  | succ n ih =>
    have hread : be32Read m (u32 (p + c * 4)) = some (cellAt bytes off) := by
      apply be32Read_eq
      intro i hi
      have haddr : u32 (u32 (p + c * 4) + i) = u32 (p + c * 4 + i) := Nat.mod_add_mod _ _ _
      rw [haddr]
      exact h i (by omega)
    have hw : cellAt bytes off < 4294967296 := cellAt_lt off
    have hvalue : u64 (value * 4294967296) + cellAt bytes off =
        u64 (exact * 4294967296 + cellAt bytes off) := by
      rw [hv]
      unfold u64
      omega
    have hcells : (List.range (n + 1)).map (fun i => cellAt bytes (off + 4 * i)) =
        cellAt bytes off :: (List.range n).map fun i => cellAt bytes (off + 4 + 4 * i) := by
      rw [List.range_succ_eq_map, List.map_cons, List.map_map, Nat.mul_zero, Nat.add_zero]
      apply congrArg
      apply List.map_congr_left
      intro i _
      rw [Function.comp_apply, Nat.succ_eq_add_one, Nat.mul_add, Nat.add_assoc off, Nat.mul_one,
        Nat.add_comm 4]
    have hrest : ∀ i < 4 * n, m (u32 (p + (c + 1) * 4 + i)) = some (bytes (off + 4 + i)) := by
      intro i hi
      have haddr : p + (c + 1) * 4 + i = p + c * 4 + (i + 4) := by omega
      rw [haddr, Nat.add_assoc off 4 i, Nat.add_comm 4 i]
      exact h (i + 4) (by omega)
    rw [cellsFrom, hread, hcells, List.foldl_cons]
    exact ih (c + 1) hvalue hrest

theorem cellsFrom_value {p off : ℕ} (n c : ℕ)
    (h : ∀ i < 4 * n, m (u32 (p + c * 4 + i)) = some (bytes (off + i))) :
    cellsFrom m p n c 0 = some (u64 (cellsValue bytes off n)) :=
  cellsFrom_eq n c (Nat.zero_mod _).symm h

end Cells

/-- The wrapped test of the bound is right for the entry: the product fits, or the size of an
entry wraps to nothing, or the wrapped product is beyond the property as well. -/
def RegBoundOk (ac sc len index : ℕ) : Prop :=
  (index + 1) * (ac + sc) * 4 ≤ len ∨ u32 ((ac + sc) * 4) = 0 ∨
    len < u32 ((index + 1) * (ac + sc) * 4)

section Entry
variable {m : Readable} {ac sc index : ℕ} {reg : DtbProp} {bytes : ℕ → UInt8}

theorem entryBytes_eq (ac sc : ℕ) : u32 (u32 (ac + sc) * 4) = u32 ((ac + sc) * 4) :=
  Nat.mod_mul_mod _ _ _

theorem entryEnd_eq (ac sc index : ℕ) :
    u32 (u32 (index + 1) * u32 ((ac + sc) * 4)) = u32 ((index + 1) * (ac + sc) * 4) := by
  rw [Nat.mul_assoc]
  exact (Nat.mul_mod _ _ _).symm

theorem regEntry_reject (h : u32 ((ac + sc) * 4) = 0 ∨
    reg.len < u32 ((index + 1) * (ac + sc) * 4)) : regEntry m ac sc reg index = some none := by
  unfold regEntry
  dsimp only
  rw [entryBytes_eq, entryEnd_eq]
  exact if_pos h

theorem regEntry_accept (h : ¬(u32 ((ac + sc) * 4) = 0 ∨
    reg.len < u32 ((index + 1) * (ac + sc) * 4))) : regEntry m ac sc reg index ≠ some none := by
  unfold regEntry
  dsimp only
  rw [entryBytes_eq, entryEnd_eq, if_neg h]
  intro hnone
  obtain ⟨base, -, hnone⟩ := Option.bind_eq_some_iff.mp hnone
  obtain ⟨size, -, hnone⟩ := Option.bind_eq_some_iff.mp hnone
  exact absurd (Option.some.inj hnone) (by simp)

/-- An entry that lies in the property is decoded. -/
theorem regEntry_fits (hpos : 0 < ac + sc) (hfit : (index + 1) * (ac + sc) * 4 ≤ reg.len)
    (hlen : reg.len < 4294967296)
    (hbytes : ∀ i < reg.len, m (u32 (reg.data + i)) = some (bytes i)) :
    regEntry m ac sc reg index = some (regEntrySpec bytes ac sc reg.len index) := by
  have hexpand : (index + 1) * (ac + sc) * 4 = index * (ac + sc) * 4 + (ac + sc) * 4 := by ring
  have hsize : u32 ((ac + sc) * 4) = (ac + sc) * 4 := u32_of_lt (by omega)
  have hend : u32 ((index + 1) * (ac + sc) * 4) = (index + 1) * (ac + sc) * 4 :=
    u32_of_lt (by omega)
  have hoff : u32 (index * u32 ((ac + sc) * 4)) = index * (ac + sc) * 4 := by
    rw [hsize, ← Nat.mul_assoc]
    exact u32_of_lt (by omega)
  have hat (k : ℕ) (hk : index * (ac + sc) * 4 + k < reg.len) :
      m (u32 (u32 (reg.data + index * (ac + sc) * 4) + k)) =
        some (bytes (index * (ac + sc) * 4 + k)) := by
    have haddr : u32 (u32 (reg.data + index * (ac + sc) * 4) + k) =
        u32 (reg.data + (index * (ac + sc) * 4 + k)) := by
      rw [← Nat.add_assoc]
      exact Nat.mod_add_mod _ _ _
    rw [haddr, hbytes _ hk]
  have hpass : ¬(u32 ((ac + sc) * 4) = 0 ∨ reg.len < (index + 1) * (ac + sc) * 4) := by omega
  unfold regEntry regEntrySpec
  dsimp only
  rw [entryBytes_eq, entryEnd_eq, hoff, hend, if_neg hpass, if_pos ⟨hpos, hfit⟩]
  generalize index * (ac + sc) * 4 = off at *
  have hbase : cellsFrom m (u32 (reg.data + off)) ac 0 0 =
      some (u64 (cellsValue bytes off ac)) := by
    apply cellsFrom_value ac 0
    intro i hi
    rw [Nat.zero_mul, Nat.add_zero]
    exact hat i (by omega)
  have hsz : cellsFrom m (u32 (reg.data + off)) sc ac 0 =
      some (u64 (cellsValue bytes (off + 4 * ac) sc)) := by
    apply cellsFrom_value sc ac
    intro i hi
    rw [Nat.add_assoc _ (ac * 4), Nat.mul_comm ac 4, Nat.add_assoc off]
    exact hat (4 * ac + i) (by omega)
  rw [hbase, hsz]
  rfl

theorem within_data (hdata : reg.data < 4294967296) (hlen : reg.len < 4294967296)
    (hbytes : ∀ i < reg.len, m (u32 (reg.data + i)) = some (bytes i)) :
    ∀ i < reg.len, m.within reg.data reg.len (u32 (reg.data + i)) = some (bytes i) := by
  intro i hi
  have hdist : wsub (u32 (reg.data + i)) reg.data = i := by
    unfold wsub u32
    omega
  unfold Readable.within
  rw [hdist, if_pos hi]
  exact hbytes i hi

end Entry

/-- `#address-cells` and `#size-cells` that `dtb_reg_entry` goes by. -/
def parentCells (parent : Option DtbNode) : ℕ × ℕ :=
  (parent.elim 2 DtbNode.addressCells, parent.elim 1 DtbNode.sizeCells)

/-- The call gives what the entry of the property is, and reads only the property's data once it
has found the property. -/
structure RegEntryExact (m : Readable) (parent : Option DtbNode) (node : DtbNode) (reg : DtbProp)
    (bytes : ℕ → UInt8) (index : ℕ) : Prop where
  result : dtbRegEntry m parent node index = some
    (regEntrySpec bytes (parentCells parent).1 (parentCells parent).2 reg.len index)
  reads : regEntry (m.within reg.data reg.len) (parentCells parent).1 (parentCells parent).2 reg
    index = dtbRegEntry m parent node index

/-- For a node with a `reg` property `dtb_reg_entry` is exact just when its wrapped test of the
bound is right. -/
theorem dtb_reg_entry_iff {m : Readable} (parent : Option DtbNode) {node : DtbNode} {reg : DtbProp}
    {bytes : ℕ → UInt8} (hget : dtbGetProp m node (ascii ['r', 'e', 'g']) = some (some reg))
    (hdata : reg.data < 4294967296) (hlen : reg.len < 4294967296)
    (hbytes : ∀ i < reg.len, m (u32 (reg.data + i)) = some (bytes i)) (index : ℕ) :
    RegEntryExact m parent node reg bytes index ↔
      RegBoundOk (parentCells parent).1 (parentCells parent).2 reg.len index := by
  have hcall : dtbRegEntry m parent node index =
      regEntry m (parentCells parent).1 (parentCells parent).2 reg index := by
    unfold dtbRegEntry
    rw [hget]
    rfl
  have hwithin := within_data hdata hlen hbytes
  constructor
  · rintro ⟨hresult, -⟩
    by_cases hfit : (index + 1) * ((parentCells parent).1 + (parentCells parent).2) * 4 ≤ reg.len
    · exact .inl hfit
    · have hnone : regEntry m (parentCells parent).1 (parentCells parent).2 reg index =
          some none := by
        rw [← hcall, hresult]
        unfold regEntrySpec
        rw [if_neg fun h => hfit h.2]
      by_contra hbad
      exact regEntry_accept (fun h => hbad (.inr h)) hnone
  · intro hok
    by_cases hspec : 0 < (parentCells parent).1 + (parentCells parent).2 ∧
        (index + 1) * ((parentCells parent).1 + (parentCells parent).2) * 4 ≤ reg.len
    · have hread := regEntry_fits hspec.1 hspec.2 hlen hbytes
      have hreadWithin := regEntry_fits hspec.1 hspec.2 hlen hwithin
      exact ⟨hcall.trans hread, hreadWithin.trans (hcall.trans hread).symm⟩
    · have hreject : u32 (((parentCells parent).1 + (parentCells parent).2) * 4) = 0 ∨
          reg.len < u32 ((index + 1) * ((parentCells parent).1 + (parentCells parent).2) * 4) := by
        rcases hok with hfit | hok
        · have hzero : (parentCells parent).1 + (parentCells parent).2 = 0 := by
            by_contra hne
            exact hspec ⟨Nat.pos_of_ne_zero hne, hfit⟩
          rw [hzero]
          exact .inl rfl
        · exact hok
      have hnone : dtbRegEntry m parent node index = some none :=
        hcall.trans (regEntry_reject hreject)
      constructor
      · rw [hnone]
        unfold regEntrySpec
        rw [if_neg hspec]
      · rw [hnone]
        exact regEntry_reject hreject

/-- Twenty bytes at address 96: the name of the property, and a base of two cells and a size of
one. -/
def regBytes : List UInt8 :=
  [114, 101, 103, 0, 0, 0, 0, 0, 0, 0, 0, 1, 0x40, 0, 0, 0, 0, 0x10, 0, 0]

/-- A memory with these bytes, and zeros around them. -/
def regMemory : Readable := fun a => some (if 96 ≤ a then regBytes.getD (a - 96) 0 else 0)

/-- A node whose `reg` property has one entry. -/
def regNode : DtbNode := ⟨96, 0, 0, [⟨96, 104, 12, .cells⟩], 0, 2, 1, []⟩

/-- The entry of the node. -/
theorem dtb_reg_entry_first : dtbRegEntry regMemory none regNode 0 =
    some (some (0x140000000, 0x100000)) := by
  have hexact : RegEntryExact regMemory none regNode ⟨96, 104, 12, .cells⟩
      (fun i => regBytes.getD (8 + i) 0) 0 :=
    (dtb_reg_entry_iff none (by decide +kernel) (by decide) (by decide) (by decide +kernel) 0).mpr
      (.inl (by decide))
  rw [hexact.result]
  decide +kernel

/-- The largest index wraps to the entry before the property. -/
theorem dtb_reg_entry_wraps : ¬RegEntryExact regMemory none regNode ⟨96, 104, 12, .cells⟩
    (fun i => regBytes.getD (8 + i) 0) 4294967295 := by
  intro h
  exact absurd h.result (by decide +kernel)

end Leg
