import Mathlib.Data.List.Induction
import Mathlib.Tactic.IntervalCases
import Leg.Word
import Leg.Lib.ByteMemory

/-! The interrupt distributor as `gic_enable_irq` of `dev/gic.c` sees it, and what a
sequence of calls does to the target and priority bytes of each interrupt. -/
namespace Leg

/-- The distributor: the set-enable bits, and the registers that hold a byte for each
interrupt, at their offsets from `GICD_BASE`. -/
structure Distributor where
  enabled : ℕ → Bool
  regs : Memory

/-- The interrupts the distributor has. -/
def gicIrqs : ℕ := 1020

/-- A write to `GICD_ISENABLER(n)`: the ones set their interrupts' bits. -/
def Distributor.writeIsenabler (g : Distributor) (n w : ℕ) : Distributor :=
  { g with enabled := fun i => g.enabled i || (i / 32 == n && w.testBit (i % 32)) }

/-- The offset of `GICD_ITARGETSR(i)`. -/
def gicdItargetsr (i : ℕ) : ℕ := 0x800 + (i &&& bnot 3)

/-- The offset of `GICD_IPRIORITYR(i)`. -/
def gicdIpriorityr (i : ℕ) : ℕ := 0x400 + i

def gicEnableIrq (g : Distributor) (irq : ℕ) : Distributor :=
  let reg := irq / 32
  let bit := u32 (1 * 2 ^ (irq % 32))
  let g := g.writeIsenabler reg bit
  -- route to CPU0
  let idx := irq / 4
  let shift := irq % 4 * 8
  let cur := g.regs.load (gicdItargetsr idx)
  let cur := cur &&& bnot (u32 (0xFF * 2 ^ shift))
  let cur := cur ||| u32 (0x01 * 2 ^ shift)
  let g := { g with regs := g.regs.store (gicdItargetsr idx) cur }
  { g with regs := g.regs.store (gicdIpriorityr irq) 0xA0 }

/-- The interrupt whose target byte a call writes. -/
def targetHit (irq : ℕ) : ℕ := irq / 16 * 4 + irq % 4

/-- The target byte of an interrupt. -/
def Distributor.target (g : Distributor) (irq : ℕ) : UInt8 := g.regs (0x800 + irq)

/-- The priority byte of an interrupt. -/
def Distributor.priority (g : Distributor) (irq : ℕ) : UInt8 := g.regs (0x400 + irq)

/-- Each of the interrupts has its own bytes set, and those of the others are as before. -/
structure EnabledLocally (g : Distributor) (irqs : List ℕ) (g' : Distributor) : Prop where
  own : ∀ irq ∈ irqs, g'.target irq = 0x01 ∧ g'.priority irq = 0xA0
  frame : ∀ irq < gicIrqs, irq ∉ irqs →
    g'.target irq = g.target irq ∧ g'.priority irq = g.priority irq

section Mask

theorem testBit_byteMask {k p : ℕ} (hk : k < 4) (hp : p < 32) :
    (bnot (u32 (0xFF * 2 ^ (k * 8)))).testBit p = !decide (p / 8 = k) := by
  have hle : 2 ^ (k * 8) ≤ 2 ^ 24 := Nat.pow_le_pow_right (by decide) (by omega)
  have hsmall : 0xFF * 2 ^ (k * 8) < 2 ^ 32 := by omega
  have hb : bnot (u32 (0xFF * 2 ^ (k * 8))) = 2 ^ 32 - (0xFF * 2 ^ (k * 8) + 1) := by
    rw [u32_of_lt hsmall]
    unfold bnot u32Max
    omega
  have hff : (0xFF * 2 ^ (k * 8)).testBit p = decide (p / 8 = k) := by
    rw [Nat.testBit_mul_two_pow, show (0xFF : ℕ) = 2 ^ 8 - 1 from rfl, Nat.testBit_two_pow_sub_one,
      ← Bool.decide_and]
    exact decide_eq_decide.mpr (by omega)
  rw [hb, Nat.testBit_two_pow_sub_succ hsmall, hff, decide_eq_true hp, Bool.true_and]

/-- Masking out byte `k` of a word and putting a one there. -/
theorem byte_masked {x k i : ℕ} (hk : k < 4) (hi : i < 4) :
    ((x &&& bnot (u32 (0xFF * 2 ^ (k * 8)))) ||| u32 (0x01 * 2 ^ (k * 8))) / 2 ^ (i * 8) % 256 =
      if i = k then 1 else x / 2 ^ (i * 8) % 256 := by
  have hle : 2 ^ (k * 8) ≤ 2 ^ 24 := Nat.pow_le_pow_right (by decide) (by omega)
  have hone : u32 (0x01 * 2 ^ (k * 8)) = 2 ^ (k * 8) := by
    rw [Nat.one_mul, u32_of_lt (by omega)]
  rw [hone]
  apply Nat.eq_of_testBit_eq
  intro j
  rw [show 256 = 2 ^ 8 from rfl, Nat.testBit_mod_two_pow, Nat.testBit_div_two_pow, Nat.testBit_or,
    Nat.testBit_and, Nat.testBit_two_pow]
  by_cases hj : j < 8
  · rw [testBit_byteMask hk (by omega), show (j + i * 8) / 8 = i by omega, decide_eq_true hj,
      Bool.true_and]
    by_cases hik : i = k
    · rw [if_pos hik, decide_eq_true hik, Bool.not_true, Bool.and_false, Bool.false_or,
        show (1 : ℕ) = 2 ^ 0 from rfl, Nat.testBit_two_pow]
      exact decide_eq_decide.mpr (by omega)
    · rw [if_neg hik, decide_eq_false hik, Bool.not_false, Bool.and_true,
        decide_eq_false (by omega : ¬k * 8 = j + i * 8), Bool.or_false, Nat.testBit_mod_two_pow,
        Nat.testBit_div_two_pow, decide_eq_true hj, Bool.true_and]
  · rw [decide_eq_false hj, Bool.false_and]
    split
    · rw [Nat.testBit_lt_two_pow (lt_of_lt_of_le (by decide : 1 < 2 ^ 8)
        (Nat.pow_le_pow_right (by decide) (Nat.le_of_not_lt hj)))]
    · rw [Nat.testBit_mod_two_pow, decide_eq_false hj, Bool.false_and]

end Mask

section Calls
variable (g : Distributor) {irq : ℕ}

theorem gicdItargetsr_eq (h : irq < gicIrqs) : gicdItargetsr (irq / 4) = 0x800 + irq / 16 * 4 := by
  have hi : irq / 4 < 4294967296 := by
    unfold gicIrqs at h
    omega
  have hb : irq / 4 &&& bnot (2 ^ 2 - 1) = irq / 4 / 2 ^ 2 * 2 ^ 2 :=
    land_bnot_two_pow hi (by decide)
  unfold gicdItargetsr
  rw [show 3 = 2 ^ 2 - 1 from rfl, hb]
  omega

theorem store_byte (m : Memory) (a v : ℕ) {i : ℕ} (hi : i < 4) :
    m.store a v (a + i) = UInt8.ofNat (v / 2 ^ (i * 8) % 256) := by
  have hmod (n : ℕ) : UInt8.ofNat (n % 256) = UInt8.ofNat n := UInt8.ofNat_mod_size
  rw [hmod]
  interval_cases i <;> simp [Memory.store]

theorem load_byte (m : Memory) (a : ℕ) {i : ℕ} (hi : i < 4) :
    UInt8.ofNat (m.load a / 2 ^ (i * 8) % 256) = m (a + i) := by
  have h0 := (m a).toNat_lt
  have h1 := (m (a + 1)).toNat_lt
  have h2 := (m (a + 2)).toNat_lt
  have h3 := (m (a + 3)).toNat_lt
  have hb : m.load a / 2 ^ (i * 8) % 256 = (m (a + i)).toNat := by
    unfold Memory.load
    interval_cases i
    · show _ = (m a).toNat
      omega
    all_goals omega
  rw [hb, UInt8.ofNat_toNat]

/-- The bytes after a call. -/
theorem gicEnableIrq_regs (h : irq < gicIrqs) (b : ℕ) :
    (gicEnableIrq g irq).regs b =
      if b = 0x400 + irq then 0xA0
      else if 0x400 + irq < b ∧ b ≤ 0x400 + irq + 3 then 0
      else if b = 0x800 + targetHit irq then 0x01
      else g.regs b := by
  have h' : irq < 1020 := h
  unfold gicEnableIrq targetHit gicdIpriorityr
  dsimp only [Distributor.writeIsenabler]
  rw [gicdItargetsr_eq h]
  generalize hq : 0x800 + irq / 16 * 4 = q
  by_cases hp : 0x400 + irq ≤ b ∧ b ≤ 0x400 + irq + 3
  · obtain ⟨i, rfl⟩ := Nat.exists_eq_add_of_le hp.1
    rw [store_byte _ _ _ (by omega)]
    have hi : i < 4 := by omega
    interval_cases i <;> simp
  · rw [Memory.store_agree _ _ _ (show b + 1 ≤ 0x400 + irq ∨ 0x400 + irq + 4 ≤ b by omega) b
      (le_refl b)
      (Nat.lt_succ_self b), if_neg (by omega), if_neg (by omega)]
    by_cases hb : q ≤ b ∧ b < q + 4
    · obtain ⟨i, rfl⟩ := Nat.exists_eq_add_of_le hb.1
      have hi : i < 4 := by omega
      rw [store_byte _ _ _ hi, byte_masked (Nat.mod_lt irq (by decide)) hi]
      by_cases hik : i = irq % 4
      · rw [if_pos hik, if_pos (by omega)]
        rfl
      · rw [if_neg hik, if_neg (by omega), load_byte _ _ hi]
    · rw [Memory.store_agree _ _ _ (show b + 1 ≤ q ∨ q + 4 ≤ b by omega) b (le_refl b)
        (Nat.lt_succ_self b), if_neg (by omega)]

theorem gicEnableIrq_target (h : irq < gicIrqs) (j : ℕ) :
    (gicEnableIrq g irq).target j = if j = targetHit irq then 0x01 else g.target j := by
  have h' : irq < 1020 := h
  unfold Distributor.target
  rw [gicEnableIrq_regs g h, if_neg (by omega), if_neg (by omega)]
  by_cases hj : j = targetHit irq
  · rw [if_pos hj, if_pos (congrArg _ hj)]
  · rw [if_neg hj, if_neg fun e => hj (Nat.add_left_cancel e)]

theorem gicEnableIrq_priority (h : irq < gicIrqs) {j : ℕ} (hj : j < gicIrqs) :
    (gicEnableIrq g irq).priority j =
      if j = irq then 0xA0 else if irq < j ∧ j ≤ irq + 3 then 0 else g.priority j := by
  have hj' : j < 1020 := hj
  unfold Distributor.priority
  rw [gicEnableIrq_regs g h, if_neg (by omega : ¬0x400 + j = 0x800 + targetHit irq)]
  by_cases he : j = irq
  · rw [if_pos he, if_pos (congrArg _ he)]
  · rw [if_neg he, if_neg fun e => he (Nat.add_left_cancel e)]
    exact if_congr (by omega) rfl rfl

end Calls

section Sequences
variable (g : Distributor) {irqs : List ℕ}

theorem foldl_target (h : ∀ irq ∈ irqs, irq < gicIrqs) (j : ℕ) :
    (irqs.foldl gicEnableIrq g).target j =
      if j ∈ irqs.map targetHit then 0x01 else g.target j := by
  induction irqs generalizing g with
  | nil => rfl
  | cons irq irqs ih =>
    rw [List.foldl_cons, ih (gicEnableIrq g irq) fun k hk => h k (List.mem_cons_of_mem irq hk),
      gicEnableIrq_target g (h irq List.mem_cons_self)]
    by_cases hj : j ∈ irqs.map targetHit
    · rw [if_pos hj, List.map_cons, if_pos (List.mem_cons_of_mem _ hj)]
    · rw [if_neg hj]
      exact if_congr (by rw [List.map_cons, List.mem_cons, or_iff_left hj]) rfl rfl

/-- The last interrupt of a sequence whose call writes the priority byte of `j`. -/
def lastOver (irqs : List ℕ) (j : ℕ) : Option ℕ :=
  irqs.reverse.find? fun k => k ≤ j ∧ j ≤ k + 3

theorem lastOver_append (irqs : List ℕ) (k j : ℕ) :
    lastOver (irqs ++ [k]) j = if k ≤ j ∧ j ≤ k + 3 then some k else lastOver irqs j := by
  unfold lastOver
  rw [List.reverse_append, List.reverse_singleton, List.singleton_append, List.find?_cons]
  by_cases h : k ≤ j ∧ j ≤ k + 3
  · rw [if_pos h, decide_eq_true h]
  · rw [if_neg h, decide_eq_false h]

theorem foldl_priority (h : ∀ irq ∈ irqs, irq < gicIrqs) {j : ℕ} (hj : j < gicIrqs) :
    (irqs.foldl gicEnableIrq g).priority j =
      match lastOver irqs j with
      | some k => if j = k then 0xA0 else 0
      | none => g.priority j := by
  induction irqs using List.reverseRecOn with
  | nil => rfl
  | append_singleton irqs k ih =>
    have hk := h k (List.mem_append_right irqs (List.mem_singleton_self k))
    rw [List.foldl_append, List.foldl_cons, List.foldl_nil, gicEnableIrq_priority _ hk hj,
      lastOver_append]
    by_cases hjk : j = k
    · rw [if_pos hjk, if_pos (by omega)]
      exact (if_pos hjk).symm
    · rw [if_neg hjk]
      by_cases hover : k < j ∧ j ≤ k + 3
      · rw [if_pos hover, if_pos (by omega)]
        exact (if_neg hjk).symm
      · rw [if_neg hover, if_neg (by omega), ih fun i hi => h i (List.mem_append_left [k] hi)]

/-- When a sequence of calls does what it should: a target byte that should be written and
is not, or the other way round, holds a one already; no enabled interrupt is followed by one
of the three below it; and the three above an enabled one are enabled or have priority 0. -/
structure EnableOk (g : Distributor) (irqs : List ℕ) : Prop where
  targets : ∀ j < gicIrqs, ¬(j ∈ irqs ↔ j ∈ irqs.map targetHit) → g.target j = 0x01
  order : ∀ j ∈ irqs, lastOver irqs j = some j
  spilled : ∀ j < gicIrqs, j ∉ irqs → lastOver irqs j ≠ none → g.priority j = 0

theorem lastOver_eq_none {irqs : List ℕ} {j : ℕ} (h : lastOver irqs j = none) : j ∉ irqs := by
  intro hj
  have := List.find?_eq_none.mp h j (List.mem_reverse.mpr hj)
  simp at this

theorem mem_of_lastOver {irqs : List ℕ} {j k : ℕ} (h : lastOver irqs j = some k) : k ∈ irqs :=
  List.mem_reverse.mp (List.mem_of_find?_eq_some h)

theorem target_local_iff (h : ∀ irq ∈ irqs, irq < gicIrqs) {j : ℕ} :
    (irqs.foldl gicEnableIrq g).target j = (if j ∈ irqs then 0x01 else g.target j) ↔
      (¬(j ∈ irqs ↔ j ∈ irqs.map targetHit) → g.target j = 0x01) := by
  rw [foldl_target g h]
  by_cases hj : j ∈ irqs <;> by_cases hh : j ∈ irqs.map targetHit
  · simp only [hj, hh, if_true, not_true, false_imp_iff]
  · simp only [hj, hh, if_true, if_false, iff_false, not_true, not_false_iff, true_imp_iff]
  · simp only [hj, hh, if_true, if_false, iff_true, not_false_iff, true_imp_iff, eq_comm]
  · simp only [hj, hh, if_false, not_true, false_imp_iff]

theorem priority_local_iff (h : ∀ irq ∈ irqs, irq < gicIrqs) {j : ℕ} (hj : j < gicIrqs) :
    (irqs.foldl gicEnableIrq g).priority j = (if j ∈ irqs then 0xA0 else g.priority j) ↔
      if j ∈ irqs then lastOver irqs j = some j
      else lastOver irqs j ≠ none → g.priority j = 0 := by
  rw [foldl_priority g h hj]
  cases hl : lastOver irqs j with
  | none => simp only [lastOver_eq_none hl, if_false, ne_eq, not_true, false_imp_iff]
  | some k =>
    by_cases hjk : j = k
    · subst hjk
      simp only [mem_of_lastOver hl, if_true]
    · by_cases hmem : j ∈ irqs
      · simp only [hmem, hjk, if_true, if_false, Option.some.injEq, Ne.symm hjk, iff_false]
        decide
      · simp only [hmem, hjk, if_false, ne_eq, not_false_iff, true_imp_iff, reduceCtorEq, eq_comm]

/-- A sequence of calls sets the enabled interrupts' bytes and no other's exactly under
`EnableOk`. -/
theorem gic_enable_local_iff (h : ∀ irq ∈ irqs, irq < gicIrqs) :
    EnabledLocally g irqs (irqs.foldl gicEnableIrq g) ↔ EnableOk g irqs := by
  constructor
  · intro hl
    have ht (j : ℕ) (hj : j < gicIrqs) : (irqs.foldl gicEnableIrq g).target j =
        if j ∈ irqs then 0x01 else g.target j := by
      split
      next hm => exact (hl.own j hm).1
      next hm => exact (hl.frame j hj hm).1
    have hp (j : ℕ) (hj : j < gicIrqs) : (irqs.foldl gicEnableIrq g).priority j =
        if j ∈ irqs then 0xA0 else g.priority j := by
      split
      next hm => exact (hl.own j hm).2
      next hm => exact (hl.frame j hj hm).2
    constructor
    · intro j hj
      exact (target_local_iff g h).mp (ht j hj)
    · intro j hm
      have hj := (priority_local_iff g h (h j hm)).mp (hp j (h j hm))
      rwa [if_pos hm] at hj
    · intro j hj hm
      have hs := (priority_local_iff g h hj).mp (hp j hj)
      rwa [if_neg hm] at hs
  · intro hok
    have ht (j : ℕ) (hj : j < gicIrqs) := (target_local_iff g h).mpr (hok.targets j hj)
    have hp (j : ℕ) (hj : j < gicIrqs) : (irqs.foldl gicEnableIrq g).priority j =
        if j ∈ irqs then 0xA0 else g.priority j := by
      apply (priority_local_iff g h hj).mpr
      split
      next hm => exact hok.order j hm
      next hm => exact hok.spilled j hj hm
    constructor
    · intro j hm
      exact ⟨(ht j (h j hm)).trans (if_pos hm), (hp j (h j hm)).trans (if_pos hm)⟩
    · intro j hj hm
      exact ⟨(ht j hj).trans (if_neg hm), (hp j hj).trans (if_neg hm)⟩

/-- The distributor after reset. -/
def gicReset : Distributor := ⟨fun _ => false, fun _ => 0⟩

/-- Interrupt 3 alone: its word of target registers is the first, and it is the last byte
of its word of priorities. -/
theorem gic_enable_third : EnabledLocally gicReset [3] (gicEnableIrq gicReset 3) := by
  have h : EnableOk gicReset [3] := by
    constructor
    · intro j hj hn
      exact absurd Iff.rfl hn
    · intro j hj
      rw [List.mem_singleton.mp hj]
      rfl
    · intro j hj hm hover
      rfl
  exact (@gic_enable_local_iff gicReset [3] (by decide)).mpr h

/-- The calls of the boot code for the console and the timer. -/
theorem gic_enable_console : ¬EnabledLocally gicReset [33, 30]
    (gicEnableIrq (gicEnableIrq gicReset 33) 30) := by
  intro h
  exact absurd (h.own 33 List.mem_cons_self).1 (by decide +kernel)

end Sequences

end Leg
