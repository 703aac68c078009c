import Mathlib.Algebra.Order.BigOperators.Group.List
import Leg.Dtb.Parse

/-! `extract_memory`: when the memory map of the tree holds the entries that `dtb_reg_entry` gives
for the memory nodes. -/
namespace Leg

/-- The first `k` of the entries that `dtb_reg_entry(n, i)`, `dtb_reg_entry(n, i + 1)`, … give
for a child of the root, up to the first that it refuses. -/
def regEntries (m : Readable) (root n : DtbNode) : (k i : ℕ) → Option (List (ℕ × ℕ))
  | 0, _ => some []
  | k + 1, i => do
    match ← dtbRegEntry m (some root) n i with
    | none => return []
    | some entry => return entry :: (← regEntries m root n k (i + 1))

/-- The entries of all memory nodes, in the order of the children, cut to `k`. -/
def memoryEntries (m : Readable) (root : DtbNode) : List DtbNode → ℕ → Option (List (ℕ × ℕ))
  | [], _ => some []
  | n :: ns, k => do
    match ← memoryReg m n with
    | none => memoryEntries m root ns k
    | some _ =>
      let entries ← regEntries m root n k 0
      return entries ++ (← memoryEntries m root ns (k - entries.length))

/-- The `reg` properties of the memory nodes, in the order of the children. -/
def memoryRegs (m : Readable) : List DtbNode → Option (List DtbProp)
  | [] => some []
  | n :: ns => do
    match ← memoryReg m n with
    | none => memoryRegs m ns
    | some reg => return reg :: (← memoryRegs m ns)

/-- The size of an entry, by the cells of the root. -/
def entrySize (root : DtbNode) : ℕ := u32 (u32 (root.addressCells + root.sizeCells) * 4)

/-- For properties of these lengths and a map with `k` places left: the size of an entry is not
zero, and the map is full before the end of an entry past the property wraps around. -/
def EntriesOk (size : ℕ) : ℕ → List ℕ → Prop
  | _, [] => True
  | k, len :: lens => size ≠ 0 ∧ (k ≤ len / size ∨ (len / size + 1) * size < 4294967296) ∧
      EntriesOk size (k - len / size) lens

/-- `extract_memory` divides by no zero and leaves the entries that `dtb_reg_entry` gives. -/
def MemoryAgrees (m : Readable) (root : DtbNode) : Prop :=
  ∃ memory, extractMemory m root root.children [] = .ok memory ∧
    memoryEntries m root root.children dtbMemoryMax = some memory

theorem memoryReg_get {m : Readable} {n : DtbNode} {reg : DtbProp}
    (h : memoryReg m n = some (some reg)) :
    dtbGetProp m n (ascii ['r', 'e', 'g']) = some (some reg) := by
  unfold memoryReg at h
  obtain ⟨named, -, h⟩ := Option.bind_eq_some_iff.mp h
  cases named with
  | false => exact absurd h (by simp)
  | true =>
    obtain ⟨dt, -, h⟩ := Option.bind_eq_some_iff.mp h
    obtain ⟨other, -, h⟩ := Option.bind_eq_some_iff.mp h
    cases other with
    | true => exact absurd h (by simp)
    | false => exact h

theorem dtbParse_memory {m : Readable} {fuel blob blobLen nodePool propPool : ℕ} {tree : DtbTree}
    {pools : Pools}
    (h : dtbParse m fuel blob blobLen nodePool propPool = .ok (.ok tree, pools)) :
    extractMemory m tree.root tree.root.children [] = .ok tree.memory := by
  obtain ⟨p, bootCpuid, h⟩ := dtbParse_tree h
  unfold parseTree at h
  obtain ⟨cur, -, h⟩ := Outcome.bind_eq_ok.mp h
  cases cur with
  | none => exact absurd (Outcome.ok.inj h) (by simp)
  | some cur =>
    obtain ⟨⟨parsed, pools'⟩, -, h⟩ := Outcome.bind_eq_ok.mp h
    cases parsed with
    | none => exact absurd (Outcome.ok.inj h) (by simp)
    | some parsed =>
      obtain ⟨compat, -, h⟩ := Outcome.bind_eq_ok.mp h
      obtain ⟨memory, hmemory, h⟩ := Outcome.bind_eq_ok.mp h
      obtain ⟨htree, -⟩ := Prod.mk.inj (Outcome.ok.inj h)
      obtain rfl := DtbResult.ok.inj htree
      exact hmemory

section Child
variable {m : Readable} {root n : DtbNode} {reg : DtbProp}

theorem dtbRegEntry_child (h : memoryReg m n = some (some reg)) (i : ℕ) :
    dtbRegEntry m (some root) n i = regEntry m root.addressCells root.sizeCells reg i := by
  unfold dtbRegEntry
  rw [memoryReg_get h]
  rfl

theorem entryEnd_fits {size len i : ℕ} (hsize : size ≠ 0) (hlen : len < 4294967296)
    (hi : i < len / size) : u32 (u32 (i + 1) * size) ≤ len := by
  have hle : (i + 1) * size ≤ len := (Nat.le_div_iff_mul_le (Nat.pos_of_ne_zero hsize)).mp hi
  have hnum : i + 1 ≤ (i + 1) * size := Nat.le_mul_of_pos_right _ (Nat.pos_of_ne_zero hsize)
  have hwrap : u32 (i + 1) = i + 1 := u32_of_lt (by omega)
  rw [hwrap, u32_of_lt (by omega)]
  exact hle

theorem entryEnd_past {size len : ℕ} (hsize : size ≠ 0) (hword : size < 4294967296) :
    len < u32 (u32 (len / size + 1) * size) ↔ (len / size + 1) * size < 4294967296 := by
  have hpos := Nat.pos_of_ne_zero hsize
  have hle : len / size * size ≤ len := Nat.div_mul_le_self len size
  have hexpand : (len / size + 1) * size = len / size * size + size := Nat.succ_mul _ _
  have hlt : len < (len / size + 1) * size := hexpand ▸ Nat.lt_div_mul_add hpos
  have hwrap : u32 (u32 (len / size + 1) * size) = u32 ((len / size + 1) * size) :=
    Nat.mod_mul_mod _ _ _
  rw [hwrap]
  constructor
  · intro hpast
    by_contra hbig
    unfold u32 at hpast
    omega
  · intro hsmall
    rw [u32_of_lt hsmall]
    exact hlt

theorem dtbRegEntry_before (h : memoryReg m n = some (some reg)) (hsize : entrySize root ≠ 0)
    (hlen : reg.len < 4294967296) {i : ℕ} (hi : i < reg.len / entrySize root) :
    dtbRegEntry m (some root) n i = do
      let p := u32 (reg.data + u32 (i * entrySize root))
      let base ← cellsFrom m p root.addressCells 0 0
      let size ← cellsFrom m p root.sizeCells root.addressCells 0
      return some (base, size) := by
  rw [dtbRegEntry_child h]
  unfold regEntry
  have hfits := entryEnd_fits hsize hlen hi
  have hpass : ¬(entrySize root = 0 ∨
      reg.len < u32 (u32 (i + 1) * entrySize root)) := by omega
  exact if_neg hpass

theorem dtbRegEntry_past (h : memoryReg m n = some (some reg)) (hsize : entrySize root ≠ 0) :
    dtbRegEntry m (some root) n (reg.len / entrySize root) = some none ↔
      (reg.len / entrySize root + 1) * entrySize root < 4294967296 := by
  rw [dtbRegEntry_child h, ← entryEnd_past hsize (u32_lt _)]
  unfold regEntry
  dsimp only
  constructor
  · intro hnone
    by_contra hfit
    have hpass : ¬(entrySize root = 0 ∨
        reg.len < u32 (u32 (reg.len / entrySize root + 1) * entrySize root)) := by omega
    rw [entrySize] at hpass hnone
    rw [if_neg hpass] at hnone
    obtain ⟨base, -, hnone⟩ := Option.bind_eq_some_iff.mp hnone
    obtain ⟨size, -, hnone⟩ := Option.bind_eq_some_iff.mp hnone
    exact absurd (Option.some.inj hnone) (by simp)
  · intro hpast
    exact if_pos (.inr hpast)

/-- How far the loop fills the map. -/
theorem extractEntries_length {ac sc size : ℕ} (left : ℕ) :
    ∀ {i : ℕ} {memory memory' : List (ℕ × ℕ)},
      extractEntries m ac sc size reg left i memory = some memory' →
      memory'.length = memory.length + min left (dtbMemoryMax - memory.length) := by
  induction left with
  | zero =>
    intro i memory memory' hrun
    obtain rfl := Option.some.inj hrun
    simp
  | succ left ih =>
    intro i memory memory' hrun
    rw [extractEntries] at hrun
    by_cases hroom : memory.length < dtbMemoryMax
    · rw [if_pos hroom] at hrun
      obtain ⟨base, -, hrun⟩ := Option.bind_eq_some_iff.mp hrun
      obtain ⟨size, -, hrun⟩ := Option.bind_eq_some_iff.mp hrun
      have hlength := ih hrun
      rw [List.length_append, List.length_singleton] at hlength
      omega
    · rw [if_neg hroom] at hrun
      obtain rfl := Option.some.inj hrun
      omega

/-- The loop appends to the map the entries that the accessor gives from `i` on, if it refuses
the one after the last. -/
theorem extractEntries_eq (h : memoryReg m n = some (some reg)) (hsize : entrySize root ≠ 0)
    (hlen : reg.len < 4294967296) (left : ℕ) :
    ∀ {i : ℕ} {memory memory' : List (ℕ × ℕ)}, i + left = reg.len / entrySize root →
      (dtbMemoryMax - memory.length ≤ left ∨
        (reg.len / entrySize root + 1) * entrySize root < 4294967296) →
      extractEntries m root.addressCells root.sizeCells (entrySize root) reg left i memory =
        some memory' →
      ∃ entries, memory' = memory ++ entries ∧
        regEntries m root n (dtbMemoryMax - memory.length) i = some entries := by
  induction left with
  | zero =>
    intro i memory memory' hi hok hrun
    obtain rfl := Option.some.inj hrun
    refine ⟨[], (List.append_nil _).symm, ?_⟩
    cases hk : dtbMemoryMax - memory.length with
    | zero => rfl
    | succ k =>
      have hpast := (dtbRegEntry_past h hsize).mpr (hok.resolve_left (by omega))
      rw [← hi, Nat.add_zero] at hpast
      rw [regEntries, hpast]
      rfl
  | succ left ih =>
    intro i memory memory' hi hok hrun
    rw [extractEntries] at hrun
    by_cases hroom : memory.length < dtbMemoryMax
    · rw [if_pos hroom] at hrun
      obtain ⟨base, hbase, hrun⟩ := Option.bind_eq_some_iff.mp hrun
      obtain ⟨size, hsz, hrun⟩ := Option.bind_eq_some_iff.mp hrun
      have hlength : (memory ++ [(base, size)]).length = memory.length + 1 := by simp
      obtain ⟨entries, rfl, hspec⟩ := ih (by omega) (by omega) hrun
      refine ⟨(base, size) :: entries, by simp, ?_⟩
      have hnext : dtbRegEntry m (some root) n i = some (some (base, size)) := by
        rw [dtbRegEntry_before h hsize hlen (by omega)]
        dsimp only
        rw [hbase]
        show Option.bind _ _ = _
        rw [Option.bind_some, hsz]
        rfl
      obtain ⟨k, hk⟩ : ∃ k, dtbMemoryMax - memory.length = k + 1 :=
        ⟨dtbMemoryMax - memory.length - 1, by omega⟩
      have hk' : dtbMemoryMax - (memory ++ [(base, size)]).length = k := by omega
      rw [hk'] at hspec
      rw [hk, regEntries, hnext]
      show Option.bind _ _ = _
      rw [hspec]
      rfl
    · rw [if_neg hroom] at hrun
      obtain rfl := Option.some.inj hrun
      have hfull : dtbMemoryMax - memory.length = 0 := by omega
      refine ⟨[], (List.append_nil _).symm, ?_⟩
      rw [hfull]
      rfl

theorem regEntries_succ {k i : ℕ} {entries : List (ℕ × ℕ)}
    (hnext : dtbRegEntry m (some root) n i ≠ some none)
    (hspec : regEntries m root n (k + 1) i = some entries) :
    ∃ entry rest, entries = entry :: rest ∧ regEntries m root n k (i + 1) = some rest := by
  rw [regEntries] at hspec
  obtain ⟨found, hfound, hspec⟩ := Option.bind_eq_some_iff.mp hspec
  cases found with
  | none => exact absurd hfound hnext
  | some entry =>
    obtain ⟨rest, hrest, hspec⟩ := Option.bind_eq_some_iff.mp hspec
    exact ⟨entry, rest, (Option.some.inj hspec).symm, hrest⟩

/-- When the end of the entry after the last wraps, the accessor gives more entries than the
property has. -/
theorem regEntries_wraps (h : memoryReg m n = some (some reg)) (hsize : entrySize root ≠ 0)
    (hlen : reg.len < 4294967296)
    (hwraps : ¬(reg.len / entrySize root + 1) * entrySize root < 4294967296) (left : ℕ) :
    ∀ {i k : ℕ} {entries : List (ℕ × ℕ)}, i + left = reg.len / entrySize root → left < k →
      regEntries m root n k i = some entries → left < entries.length := by
  induction left with
  | zero =>
    intro i k entries hi hk hspec
    obtain ⟨k, rfl⟩ : ∃ j, k = j + 1 := ⟨k - 1, by omega⟩
    have hnext : dtbRegEntry m (some root) n i ≠ some none := by
      rw [show i = reg.len / entrySize root from hi]
      exact fun hnone => hwraps ((dtbRegEntry_past h hsize).mp hnone)
    obtain ⟨entry, rest, rfl, -⟩ := regEntries_succ hnext hspec
    exact Nat.succ_pos _
  | succ left ih =>
    intro i k entries hi hk hspec
    obtain ⟨k, rfl⟩ : ∃ j, k = j + 1 := ⟨k - 1, by omega⟩
    have hnext : dtbRegEntry m (some root) n i ≠ some none := by
      rw [dtbRegEntry_before h hsize hlen (by omega)]
      intro hnone
      obtain ⟨base, -, hnone⟩ := Option.bind_eq_some_iff.mp hnone
      obtain ⟨size, -, hnone⟩ := Option.bind_eq_some_iff.mp hnone
      exact absurd (Option.some.inj hnone) (by simp)
    obtain ⟨entry, rest, rfl, hrest⟩ := regEntries_succ hnext hspec
    have hmore := ih (by omega) (by omega) hrest
    rw [List.length_cons]
    omega

end Child

section Children
variable {m : Readable} {root n : DtbNode} {ns : List DtbNode} {reg : DtbProp}

theorem extractMemory_other (h : memoryReg m n = some none) (memory : List (ℕ × ℕ)) :
    extractMemory m root (n :: ns) memory = extractMemory m root ns memory := by
  rw [extractMemory, h]
  rfl

theorem extractMemory_zero (h : memoryReg m n = some (some reg)) (hsize : entrySize root = 0)
    (memory : List (ℕ × ℕ)) : extractMemory m root (n :: ns) memory = .divByZero := by
  rw [extractMemory, h]
  exact if_pos hsize

theorem extractMemory_reg (h : memoryReg m n = some (some reg)) (hsize : entrySize root ≠ 0)
    (memory : List (ℕ × ℕ)) : extractMemory m root (n :: ns) memory =
      (Outcome.ofRead (extractEntries m root.addressCells root.sizeCells (entrySize root) reg
        (reg.len / entrySize root) 0 memory) >>= fun memory => extractMemory m root ns memory) := by
  rw [extractMemory, h]
  exact if_neg hsize

theorem memoryEntries_other (h : memoryReg m n = some none) (k : ℕ) :
    memoryEntries m root (n :: ns) k = memoryEntries m root ns k := by
  rw [memoryEntries, h]
  rfl

theorem memoryEntries_reg (h : memoryReg m n = some (some reg)) {k : ℕ}
    {entries : List (ℕ × ℕ)} : memoryEntries m root (n :: ns) k = some entries ↔
      ∃ first rest, regEntries m root n k 0 = some first ∧
        memoryEntries m root ns (k - first.length) = some rest ∧ entries = first ++ rest := by
  rw [memoryEntries, h]
  show Option.bind _ _ = _ ↔ _
  rw [Option.bind_some]
  constructor
  · intro hspec
    obtain ⟨first, hfirst, hspec⟩ := Option.bind_eq_some_iff.mp hspec
    obtain ⟨rest, hrest, hspec⟩ := Option.bind_eq_some_iff.mp hspec
    exact ⟨first, rest, hfirst, hrest, (Option.some.inj hspec).symm⟩
  · rintro ⟨first, rest, hfirst, hrest, rfl⟩
    rw [hfirst]
    show Option.bind _ _ = _
    rw [Option.bind_some, hrest]
    rfl

theorem memoryRegs_cons {regs : List DtbProp} (h : memoryRegs m (n :: ns) = some regs) :
    (memoryReg m n = some none ∧ memoryRegs m ns = some regs) ∨
      ∃ reg rest, memoryReg m n = some (some reg) ∧ memoryRegs m ns = some rest ∧
        regs = reg :: rest := by
  rw [memoryRegs] at h
  obtain ⟨found, hfound, h⟩ := Option.bind_eq_some_iff.mp h
  cases found with
  | none => exact .inl ⟨hfound, h⟩
  | some reg =>
    obtain ⟨rest, hrest, h⟩ := Option.bind_eq_some_iff.mp h
    exact .inr ⟨reg, rest, hfound, hrest, (Option.some.inj h).symm⟩

/-- Where the end of no entry wraps, `extract_memory` appends what the accessor gives. -/
theorem extractMemory_eq {cs : List DtbNode} : ∀ {regs : List DtbProp} {memory : List (ℕ × ℕ)},
    memoryRegs m cs = some regs → (∀ reg ∈ regs, reg.len < 4294967296) →
    EntriesOk (entrySize root) (dtbMemoryMax - memory.length) (regs.map DtbProp.len) →
    extractMemory m root cs memory ≠ .fault →
    ∃ entries, extractMemory m root cs memory = .ok (memory ++ entries) ∧
      memoryEntries m root cs (dtbMemoryMax - memory.length) = some entries := by
  induction cs with
  | nil =>
    intro regs memory _ _ _ _
    exact ⟨[], by rw [List.append_nil]; rfl, rfl⟩
  | cons n ns ih =>
    intro regs memory hregs hlen hok hread
    rcases memoryRegs_cons hregs with ⟨hnone, hrest⟩ | ⟨reg, rest, hreg, hrest, rfl⟩
    · rw [extractMemory_other hnone] at hread ⊢
      rw [memoryEntries_other hnone]
      exact ih hrest hlen hok hread
    · obtain ⟨hsize, hend, hok⟩ := hok
      have hfits := hlen reg List.mem_cons_self
      rw [extractMemory_reg hreg hsize] at hread ⊢
      cases hrun : extractEntries m root.addressCells root.sizeCells (entrySize root) reg
          (reg.len / entrySize root) 0 memory with
      | none => exact absurd (by rw [hrun]; rfl) hread
      | some memory' =>
        rw [hrun, Outcome.ofRead_some, Outcome.ok_bind] at hread
        obtain ⟨first, rfl, hfirst⟩ :=
          extractEntries_eq hreg hsize hfits _ (Nat.zero_add _) hend hrun
        have hlength := extractEntries_length _ hrun
        rw [List.length_append] at hlength
        have hleft : dtbMemoryMax - memory.length - reg.len / entrySize root =
            dtbMemoryMax - (memory ++ first).length := by
          rw [List.length_append]
          omega
        rw [hleft] at hok
        obtain ⟨later, hlater, hspec⟩ :=
          ih hrest (fun r hr => hlen r (List.mem_cons_of_mem _ hr)) hok hread
        refine ⟨first ++ later, ?_, ?_⟩
        · rw [Outcome.ofRead_some, Outcome.ok_bind, hlater, List.append_assoc]
        · have hk : dtbMemoryMax - memory.length - first.length =
              dtbMemoryMax - (memory ++ first).length := by
            rw [List.length_append]
            omega
          exact (memoryEntries_reg hreg).mpr ⟨first, later, hfirst, hk ▸ hspec, rfl⟩

theorem extractMemory_short {cs : List DtbNode} :
    ∀ {regs : List DtbProp} {memory memory' : List (ℕ × ℕ)}, memoryRegs m cs = some regs →
      (∀ reg ∈ regs, reg.len < entrySize root) → extractMemory m root cs memory = .ok memory' →
      memory' = memory := by
  induction cs with
  | nil =>
    intro regs memory memory' _ _ hrun
    exact (Outcome.ok.inj hrun).symm
  | cons n ns ih =>
    intro regs memory memory' hregs hshort hrun
    rcases memoryRegs_cons hregs with ⟨hnone, hrest⟩ | ⟨reg, rest, hreg, hrest, rfl⟩
    · rw [extractMemory_other hnone] at hrun
      exact ih hrest hshort hrun
    · have hlt := hshort reg List.mem_cons_self
      rw [extractMemory_reg hreg (by omega), Nat.div_eq_of_lt hlt] at hrun
      exact ih hrest (fun r hr => hshort r (List.mem_cons_of_mem _ hr)) hrun

/-- An agreement with the accessor means that the end of no entry wrapped. -/
theorem entriesOk_of_agree {cs : List DtbNode} :
    ∀ {regs : List DtbProp} {memory entries : List (ℕ × ℕ)}, memoryRegs m cs = some regs →
      (regs.map DtbProp.len).sum < 4294967296 →
      extractMemory m root cs memory = .ok (memory ++ entries) →
      memoryEntries m root cs (dtbMemoryMax - memory.length) = some entries →
      EntriesOk (entrySize root) (dtbMemoryMax - memory.length) (regs.map DtbProp.len) := by
  induction cs with
  | nil =>
    intro regs memory entries hregs _ _ _
    obtain rfl := Option.some.inj hregs
    trivial
  | cons n ns ih =>
    intro regs memory entries hregs hsum hrun hspec
    rcases memoryRegs_cons hregs with ⟨hnone, hrest⟩ | ⟨reg, rest, hreg, hrest, rfl⟩
    · rw [extractMemory_other hnone] at hrun
      rw [memoryEntries_other hnone] at hspec
      exact ih hrest hsum hrun hspec
    · rw [List.map_cons, List.sum_cons] at hsum
      have hsize : entrySize root ≠ 0 := by
        intro hzero
        rw [extractMemory_zero hreg hzero] at hrun
        exact nomatch hrun
      have hfits : reg.len < 4294967296 := by omega
      rw [extractMemory_reg hreg hsize] at hrun
      obtain ⟨memory', hfirst, hlater⟩ := Outcome.bind_eq_ok.mp hrun
      rw [Outcome.ofRead_eq_ok] at hfirst
      have hlength := extractEntries_length _ hfirst
      obtain ⟨first, later, hspecFirst, hspecLater, rfl⟩ := (memoryEntries_reg hreg).mp hspec
      by_cases hend : dtbMemoryMax - memory.length ≤ reg.len / entrySize root ∨
          (reg.len / entrySize root + 1) * entrySize root < 4294967296
      · obtain ⟨first', rfl, hsame⟩ :=
          extractEntries_eq hreg hsize hfits _ (Nat.zero_add _) hend hfirst
        obtain rfl := Option.some.inj (hspecFirst.symm.trans hsame)
        rw [List.length_append] at hlength
        have hk : dtbMemoryMax - memory.length - first.length =
            dtbMemoryMax - (memory ++ first).length := by
          rw [List.length_append]
          omega
        have hleft : dtbMemoryMax - memory.length - reg.len / entrySize root =
            dtbMemoryMax - (memory ++ first).length := by
          rw [List.length_append]
          omega
        rw [← List.append_assoc] at hlater
        refine ⟨hsize, hend, ?_⟩
        rw [hleft]
        exact ih hrest (by omega) hlater (hk ▸ hspecLater)
      · -- the accessor gives an entry too many, and nothing after it can make up for it
        exfalso
        obtain ⟨hroom, hwraps⟩ := not_or.mp hend
        have hmore := regEntries_wraps hreg hsize hfits hwraps _ (Nat.zero_add _)
          (Nat.lt_of_not_le hroom) hspecFirst
        have hcount : reg.len / entrySize root * entrySize root ≤ reg.len :=
          Nat.div_mul_le_self _ _
        have hexpand : (reg.len / entrySize root + 1) * entrySize root =
            reg.len / entrySize root * entrySize root + entrySize root := Nat.succ_mul _ _
        have hshort : ∀ r ∈ rest, r.len < entrySize root := by
          intro r hr
          have hle : r.len ≤ (rest.map DtbProp.len).sum :=
            List.le_sum_of_mem (List.mem_map_of_mem hr)
          omega
        have hsame := extractMemory_short hrest hshort hlater
        have htotal := congrArg List.length hsame
        rw [List.length_append, List.length_append] at htotal
        omega

end Children

/-- Where only readable bytes are read: if the end of no entry wraps before the map is full,
`extract_memory` agrees with `dtb_reg_entry`; and if the properties do not fill the whole address
space, only then. -/
theorem memory_agrees_iff {m : Readable} {root : DtbNode} {regs : List DtbProp}
    (hregs : memoryRegs m root.children = some regs) (hlen : ∀ reg ∈ regs, reg.len < 4294967296)
    (hread : extractMemory m root root.children [] ≠ .fault) :
    (EntriesOk (entrySize root) dtbMemoryMax (regs.map DtbProp.len) → MemoryAgrees m root) ∧
      ((regs.map DtbProp.len).sum < 4294967296 → MemoryAgrees m root →
        EntriesOk (entrySize root) dtbMemoryMax (regs.map DtbProp.len)) := by
  constructor
  · intro hok
    exact extractMemory_eq hregs hlen hok hread
  · rintro hsum ⟨memory, hrun, hspec⟩
    exact entriesOk_of_agree hregs hsum hrun hspec

/-- A blob whose memory node has two entries. -/
def twoBanksBlob : List UInt8 := [
  208, 13, 254, 237, 0, 0, 0, 116, 0, 0, 0, 40, 0, 0, 0, 112, 0, 0, 0, 40,
  0, 0, 0, 17, 0, 0, 0, 16, 0, 0, 0, 0, 0, 0, 0, 4, 0, 0, 0, 72,
  0, 0, 0, 1, 0, 0, 0, 0, 0, 0, 0, 1, 109, 101, 109, 111, 114, 121, 64, 49, 0, 0, 0, 0,
  0, 0, 0, 3, 0, 0, 0, 24, 0, 0, 0, 0,
  0, 0, 0, 0, 64, 0, 0, 0, 0, 16, 0, 0, 0, 0, 0, 0, 80, 0, 0, 0, 0, 32, 0, 0,
  0, 0, 0, 2, 0, 0, 0, 2, 0, 0, 0, 9, 114, 101, 103, 0]

/-- The tree of the blob. -/
def twoBanks : DtbNode :=
  ⟨108, 0, 0, [], 0, 2, 1, [⟨116, 1, 0, [⟨176, 140, 24, .cells⟩], 0, 2, 1, []⟩]⟩

/-- The memory map of the blob is that of the accessor. -/
theorem memory_agrees_banks :
    dtbParse (blobAt 64 twoBanksBlob) 30 64 116 4096 8192 = .ok (.ok ⟨twoBanks,
      [(0x40000000, 0x100000), (0x50000000, 0x200000)], 0, 0⟩, ⟨2, 1⟩) ∧
    MemoryAgrees (blobAt 64 twoBanksBlob) twoBanks := by
  have hregs : memoryRegs (blobAt 64 twoBanksBlob) twoBanks.children =
      some [⟨176, 140, 24, .cells⟩] := by decide +kernel
  refine ⟨by decide +kernel, (memory_agrees_iff hregs (by decide) (by decide +kernel)).1 ?_⟩
  exact ⟨by decide, .inr (by decide), trivial⟩

/-- A blob whose root sets both cell counts to zero and has a memory node with a property. -/
def zeroCellsBlob : List UInt8 := [
  208, 13, 254, 237, 0, 0, 0, 155, 0, 0, 0, 40, 0, 0, 0, 124, 0, 0, 0, 40,
  0, 0, 0, 17, 0, 0, 0, 16, 0, 0, 0, 0, 0, 0, 0, 31, 0, 0, 0, 84,
  0, 0, 0, 1, 0, 0, 0, 0, 0, 0, 0, 3, 0, 0, 0, 4, 0, 0, 0, 0, 0, 0, 0, 0,
  0, 0, 0, 3, 0, 0, 0, 4, 0, 0, 0, 15, 0, 0, 0, 0,
  0, 0, 0, 1, 109, 101, 109, 111, 114, 121, 0, 0,
  0, 0, 0, 3, 0, 0, 0, 8, 0, 0, 0, 27, 0, 0, 0, 1, 0, 0, 0, 2,
  0, 0, 0, 2, 0, 0, 0, 2, 0, 0, 0, 9,
  35, 97, 100, 100, 114, 101, 115, 115, 45, 99, 101, 108, 108, 115, 0,
  35, 115, 105, 122, 101, 45, 99, 101, 108, 108, 115, 0, 114, 101, 103, 0]

/-- The root of the blob. -/
def zeroCells : DtbNode :=
  ⟨108, 0, 0, [⟨188, 124, 4, .u32⟩, ⟨203, 140, 4, .u32⟩], 0, 0, 0,
    [⟨148, 1, 2, [⟨215, 168, 8, .cells⟩], 0, 0, 0, []⟩]⟩

/-- With no cells `extract_memory` divides by zero, before the parse is over. -/
theorem memory_zero_cells :
    parseNode (blobAt 64 zeroCellsBlob) ⟨104, 188, 84, 31⟩ 30 ⟨0, 0⟩ 108 none =
      .ok (some (zeroCells, 184), ⟨2, 3⟩) ∧
    ¬MemoryAgrees (blobAt 64 zeroCellsBlob) zeroCells ∧
    dtbParse (blobAt 64 zeroCellsBlob) 30 64 155 4096 8192 = .divByZero := by
  refine ⟨by decide +kernel, ?_, by decide +kernel⟩
  rintro ⟨memory, hrun, -⟩
  have hzero : extractMemory (blobAt 64 zeroCellsBlob) zeroCells zeroCells.children [] =
      .divByZero := by decide +kernel
  exact nomatch hzero.symm.trans hrun

end Leg
