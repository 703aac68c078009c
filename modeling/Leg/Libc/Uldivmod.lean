import Mathlib.Data.Fintype.Basic
import Mathlib.Tactic.FinCases
import Leg.Lib.ArmBranch

/-! `__aeabi_uldivmod` of `libc/builtins.c`: the unsigned 64-bit division of the ARM EABI,
as the instructions of its `asm` block. Each round of its loop is one round of the
shift-subtract division that the standard library verifies for bit vectors. -/
namespace Leg
open Arm

/-- Saving the registers and clearing quotient, remainder and counter. -/
def uldivmodEntry : List Op := [
  .push [.r4, .r5, .r6, .r7, .r8, .r9, .lr],
  .mov .r4 (.imm 0),
  .mov .r5 (.imm 0),
  .mov .r6 (.imm 0),
  .mov .r7 (.imm 0),
  .mov .r8 (.imm 64)]

/-- The next bit of the numerator goes into the remainder, and all three numbers double. -/
def uldivmodShift : List Op := [
  .mov .r9 (.lsr .r1 31),
  .mov .r1 (.lsl .r1 1),
  .orr .r1 .r1 (.lsr .r0 31),
  .mov .r0 (.lsl .r0 1),
  .mov .r7 (.lsl .r7 1),
  .orr .r7 .r7 (.lsr .r6 31),
  .mov .r6 (.lsl .r6 1),
  .orr .r6 .r6 (.reg .r9),
  .mov .r5 (.lsl .r5 1),
  .orr .r5 .r5 (.lsr .r4 31),
  .mov .r4 (.lsl .r4 1)]

/-- The remainder loses a denominator and the quotient gains a one. -/
def uldivmodSubtract : List Op := [
  .subs .r6 .r6 (.reg .r2),
  .sbc .r7 .r7 (.reg .r3),
  .orr .r4 .r4 (.imm 1)]

/-- The results go to the output registers. -/
def uldivmodExit : List Op := [
  .mov .r2 (.reg .r6),
  .mov .r3 (.reg .r7),
  .mov .r0 (.reg .r4),
  .mov .r1 (.reg .r5)]

def aeabiUldivmod : List Line := List.flatten [
  uldivmodEntry.map Line.op,
  [.label 1],
  uldivmodShift.map Line.op,
  [.op (.cmp .r7 (.reg .r3)),
    .b .hi 2,
    .b .lo 3,
    .op (.cmp .r6 (.reg .r2)),
    .b .lo 3,
    .label 2],
  uldivmodSubtract.map Line.op,
  [.label 3,
    .op (.subs .r8 .r8 (.imm 1)),
    .b .ne 1],
  uldivmodExit.map Line.op,
  [.popPc [.r4, .r5, .r6, .r7, .r8, .r9]]]

/-- The registers of the loop when the division of `n` by `d` has come to `qr`: the
numerator is shifted up past the bits that are used. -/
structure DivRegs (r : Fin 13 → ℕ) (n d : BitVec 64) (qr : BitVec.DivModState 64) : Prop where
  small : ∀ i < 8, r i < 4294967296
  left : qr.wn ≤ 64
  num : join (r 0) (r 1) = n.toNat * 2 ^ (64 - qr.wn) % 18446744073709551616
  den : join (r 2) (r 3) = d.toNat
  quot : join (r 4) (r 5) = qr.q.toNat
  rem : join (r 6) (r 7) = qr.r.toNat

theorem DivRegs.congr {r r' : Fin 13 → ℕ} {n d : BitVec 64} {qr : BitVec.DivModState 64}
    (h : DivRegs r n d qr) (hr : ∀ i < 8, r' i = r i) : DivRegs r' n d qr := by
  obtain ⟨hs, hl, hnum, hden, hquot, hrem⟩ := h
  constructor
  · intro i hi
    rw [hr i hi]
    exact hs i hi
  · exact hl
  · rw [hr 0 (by decide), hr 1 (by decide)]
    exact hnum
  · rw [hr 2 (by decide), hr 3 (by decide)]
    exact hden
  · rw [hr 4 (by decide), hr 5 (by decide)]
    exact hquot
  · rw [hr 6 (by decide), hr 7 (by decide)]
    exact hrem

theorem numerator_bit (n : BitVec 64) {k : ℕ} (hk : k < 64) :
    n.toNat * 2 ^ (64 - (k + 1)) % 18446744073709551616 / 2 ^ 63 = (n.getLsbD k).toNat := by
  have hsplit : 18446744073709551616 = 2 ^ (k + 1) * 2 ^ (64 - (k + 1)) := by
    rw [← Nat.pow_add, show k + 1 + (64 - (k + 1)) = 64 by omega]
  have htop : (2 : ℕ) ^ 63 = 2 ^ k * 2 ^ (64 - (k + 1)) := by
    rw [← Nat.pow_add, show k + (64 - (k + 1)) = 63 by omega]
  have hpos : 0 < 2 ^ (64 - (k + 1)) := Nat.two_pow_pos _
  rw [hsplit, htop, Nat.mul_mod_mul_right, Nat.mul_div_mul_right _ _ hpos, Nat.pow_succ,
    Nat.mod_mul_right_div_self, BitVec.getLsbD, Nat.testBit_eq_decide_div_mod_eq]
  have hlt := Nat.mod_lt (n.toNat / 2 ^ k) (by decide : 0 < 2)
  by_cases h : n.toNat / 2 ^ k % 2 = 1
  · rw [h]; rfl
  · rw [show n.toNat / 2 ^ k % 2 = 0 by omega]; rfl

section Rounds
variable {μ : Type*} [WordMemory μ] {c : Cpu μ} {n d : BitVec 64} {qr : BitVec.DivModState 64}

theorem toNat_shiftConcat_mod (x : BitVec 64) (b : Bool) :
    (x.shiftConcat b).toNat = (2 * x.toNat + b.toNat) % 18446744073709551616 := by
  rw [BitVec.toNat_shiftConcat, Nat.shiftLeft_eq, Nat.mul_comm]

theorem shift_r (c : Cpu μ) : ∀ i : Fin 13, (uldivmodShift.foldl Cpu.execOp c).r i =
    match i with
    | 0 => wrap (c.r 0 * 2 ^ 1)
    | 1 => wrap (c.r 1 * 2 ^ 1) ||| c.r 0 / 2 ^ 31
    | 4 => wrap (c.r 4 * 2 ^ 1)
    | 5 => wrap (c.r 5 * 2 ^ 1) ||| c.r 4 / 2 ^ 31
    | 6 => wrap (c.r 6 * 2 ^ 1) ||| c.r 1 / 2 ^ 31
    | 7 => wrap (c.r 7 * 2 ^ 1) ||| c.r 6 / 2 ^ 31
    | 9 => c.r 1 / 2 ^ 31
    | j => c.r j := by
  intro i
  fin_cases i <;> simp [uldivmodShift]

/-- The shifts take the next bit of the numerator into the remainder. -/
theorem DivRegs.shift (h : DivRegs c.r n d qr) (hw : 0 < qr.wn) :
    DivRegs (uldivmodShift.foldl Cpu.execOp c).r n d
      ⟨qr.wn - 1, qr.wr + 1, qr.q.shiftConcat false,
        qr.r.shiftConcat (n.getLsbD (qr.wn - 1))⟩ := by
  obtain ⟨k, hk⟩ : ∃ k, qr.wn = k + 1 := ⟨qr.wn - 1, by omega⟩
  obtain ⟨hs, hl, hnum, hden, hquot, hrem⟩ := h
  rw [hk] at hl hnum
  have h0 := hs 0 (by decide)
  have h1 := hs 1 (by decide)
  have h4 := hs 4 (by decide)
  have h6 := hs 6 (by decide)
  have hbit : c.r 1 / 2 ^ 31 = (n.getLsbD k).toNat := by
    rw [← numerator_bit n (show k < 64 by omega), ← hnum]
    unfold join
    omega
  have hbit2 : c.r 1 / 2 ^ 31 < 2 := by omega
  rw [show qr.wn - 1 = k by omega]
  constructor
  · intro i hi
    rw [shift_r]
    have hall := hs i hi
    have hwrap (x : ℕ) : wrap x < 4294967296 := Nat.mod_lt x (by decide)
    have hor (x b : ℕ) (hb : b < 2) : wrap x ||| b < 4294967296 :=
      @Nat.or_lt_two_pow _ _ 32 (hwrap x) (lt_trans hb (by decide))
    split
    · exact hwrap _
    · exact hor _ _ (by omega)
    · exact hwrap _
    · exact hor _ _ (by omega)
    · exact hor _ _ hbit2
    · exact hor _ _ (by omega)
    · exact absurd hi (by decide)
    · exact hall
  · exact Nat.le_of_succ_le hl
  · rw [shift_r, shift_r]
    have hj := @join_shift _ (c.r 1) _ h0 (by decide : 0 < 2)
    rw [Nat.or_zero, Nat.add_zero] at hj
    have hpow : 2 ^ (64 - k) = 2 * 2 ^ (64 - (k + 1)) := by
      rw [← Nat.pow_succ', show (64 - (k + 1)).succ = 64 - k by omega]
    exact hj.trans (by rw [hnum, hpow, Nat.mul_mod_mod, Nat.mul_left_comm])
  · rw [shift_r, shift_r]
    exact hden
  · rw [shift_r, shift_r, toNat_shiftConcat_mod, ← hquot]
    have hj := @join_shift _ (c.r 5) _ h4 (by decide : 0 < 2)
    rwa [Nat.or_zero] at hj
  · rw [shift_r, shift_r, toNat_shiftConcat_mod, ← hrem, ← hbit]
    exact join_shift h6 hbit2

theorem subtract_r (c : Cpu μ) : ∀ i : Fin 13, (uldivmodSubtract.foldl Cpu.execOp c).r i =
    match i with
    | 4 => c.r 4 ||| 1
    | 6 => wrap (c.r 6 + (4294967296 - c.r 2))
    | 7 => wrap (c.r 7 + (4294967295 - c.r 3) + if c.r 2 ≤ c.r 6 then 1 else 0)
    | j => c.r j := by
  have hcarry : Psr.carry (Psr.setFlags c.cpsr (cmpFlags (c.r 6) (c.r 2))) ↔ c.r 2 ≤ c.r 6 :=
    carry_cmpFlags _ _ _
  intro i
  fin_cases i <;> simp [uldivmodSubtract, hcarry]

/-- The subtraction of a denominator that is not too large. -/
theorem DivRegs.subtract (h : DivRegs c.r n d qr) (hd : d ≤ qr.r) {q : BitVec 64}
    (hq : qr.q = q.shiftConcat false) :
    DivRegs (uldivmodSubtract.foldl Cpu.execOp c).r n d
      ⟨qr.wn, qr.wr, q.shiftConcat true, qr.r - d⟩ := by
  obtain ⟨hs, hl, hnum, hden, hquot, hrem⟩ := h
  have h2 := hs 2 (by decide)
  have h3 := hs 3 (by decide)
  have h4 := hs 4 (by decide)
  have h6 := hs 6 (by decide)
  have h7 := hs 7 (by decide)
  rw [hq, toNat_shiftConcat_mod] at hquot
  have heven : c.r 4 ||| 1 = c.r 4 + 1 := by
    have h2 : c.r 4 = 2 ^ 1 * (c.r 4 / 2) := by
      rw [Bool.toNat_false] at hquot
      unfold join at hquot
      omega
    rw [h2, ← Nat.two_pow_add_eq_or_of_lt (by decide : 1 < 2 ^ 1)]
  constructor
  · intro i hi
    rw [subtract_r]
    have hall := hs i hi
    split
    · exact @Nat.or_lt_two_pow _ _ 32 h4 (by decide)
    · exact Nat.mod_lt _ (by decide)
    · exact Nat.mod_lt _ (by decide)
    · exact hall
  · exact hl
  · rw [subtract_r, subtract_r]
    exact hnum
  · rw [subtract_r, subtract_r]
    exact hden
  · rw [subtract_r, subtract_r, toNat_shiftConcat_mod]
    have hj : join (c.r 4 + 1) (c.r 5) = join (c.r 4) (c.r 5) + 1 := by
      unfold join
      omega
    refine (congrArg (join · (c.r 5)) heven).trans (hj.trans ?_)
    rw [hquot, Bool.toNat_false, Bool.toNat_true]
    omega
  · rw [subtract_r, subtract_r]
    have hle : join (c.r 2) (c.r 3) ≤ join (c.r 6) (c.r 7) := by
      rw [hden, hrem]
      exact hd
    exact (join_sub h6 h7 h2 h3 hle).trans (by rw [hden, hrem, BitVec.toNat_sub_of_le hd])

/-- The two-word comparison goes to the subtraction or past it. -/
theorem reaches_compare (h2 : c.r 2 < 4294967296) (h6 : c.r 6 < 4294967296) :
    ∃ f, Reaches aeabiUldivmod ⟨some 18, c⟩
      ⟨some (if join (c.r 2) (c.r 3) ≤ join (c.r 6) (c.r 7) then 24 else 27),
        { c with cpsr := f }⟩ := by
  have hcmp : Reaches aeabiUldivmod ⟨some 18, c⟩
      ⟨some 19, { c with cpsr := Psr.setFlags c.cpsr (cmpFlags (c.r 7) (c.r 3)) }⟩ :=
    reaches_op (i := 18) (c := c) (o := .cmp .r7 (.reg .r3)) rfl
  have hcarry := carry_cmpFlags c.cpsr (c.r 7) (c.r 3)
  have hzero := zero_cmpFlags c.cpsr (c.r 7) (c.r 3)
  generalize Psr.setFlags c.cpsr (cmpFlags (c.r 7) (c.r 3)) = f at hcmp hcarry hzero
  rcases Nat.lt_trichotomy (c.r 3) (c.r 7) with h | h | h
  · -- `bhi 2f`
    rw [if_pos ((join_le_join h2 h6).mpr (.inl h))]
    refine ⟨f, hcmp.trans (Reaches.trans (reaches_taken (k := .hi) (l := 2) rfl ?_)
      (reaches_label (l := 2) rfl))⟩
    exact ⟨hcarry.mpr h.le, fun hz => h.ne' (hzero.mp hz)⟩
  · have hhi := hcmp.trans (reaches_not_taken (k := .hi) (l := 2) rfl
      (fun hk => hk.2 (hzero.mpr h.symm)))
    have hlo := hhi.trans (reaches_not_taken (k := .lo) (l := 3) rfl
      (fun hk => hk (hcarry.mpr h.le)))
    have hcmp2 : Reaches aeabiUldivmod ⟨some 18, c⟩
        ⟨some 22, { c with cpsr := Psr.setFlags f (cmpFlags (c.r 6) (c.r 2)) }⟩ :=
      hlo.trans (reaches_op (i := 21) (o := .cmp .r6 (.reg .r2)) rfl)
    have hcarry2 := carry_cmpFlags f (c.r 6) (c.r 2)
    generalize Psr.setFlags f (cmpFlags (c.r 6) (c.r 2)) = g at hcmp2 hcarry2
    refine ⟨g, hcmp2.trans ?_⟩
    by_cases hle : c.r 2 ≤ c.r 6
    · rw [if_pos ((join_le_join h2 h6).mpr (.inr ⟨h, hle⟩))]
      exact (reaches_not_taken (k := .lo) (l := 3) rfl (fun hk => hk (hcarry2.mpr hle))).trans
        (reaches_label (l := 2) rfl)
    · rw [if_neg fun hj => by have := (join_le_join h2 h6).mp hj; omega]
      exact reaches_taken (k := .lo) (l := 3) rfl fun hk => hle (hcarry2.mp hk)
  · -- `blo 3f`
    rw [if_neg fun hj => by have := (join_le_join h2 h6).mp hj; omega]
    have hhi := hcmp.trans (reaches_not_taken (k := .hi) (l := 2) rfl
      (fun hk => absurd (hcarry.mp hk.1) (Nat.not_le.mpr h)))
    exact ⟨f, hhi.trans (reaches_taken (k := .lo) (l := 3) rfl
      (fun hk => absurd (hcarry.mp hk) (Nat.not_le.mpr h)))⟩

/-- The body of the loop, up to the counter, is one round of the division. -/
theorem reaches_round (h : DivRegs c.r n d qr) (hw : 0 < qr.wn) :
    ∃ c' : Cpu μ, Reaches aeabiUldivmod ⟨some 6, c⟩ ⟨some 27, c'⟩ ∧
      DivRegs c'.r n d (BitVec.divSubtractShift ⟨n, d⟩ qr) ∧ c'.r 8 = c.r 8 := by
  have hshift := h.shift hw
  have h8 : (uldivmodShift.foldl Cpu.execOp c).r 8 = c.r 8 := shift_r c 8
  have hrun : Reaches aeabiUldivmod ⟨some 6, c⟩ ⟨some 18, uldivmodShift.foldl Cpu.execOp c⟩ :=
    (reaches_label (l := 1) rfl).trans (reaches_ops (i := 7) uldivmodShift rfl)
  generalize uldivmodShift.foldl Cpu.execOp c = c₁ at hshift h8 hrun
  have h2 := hshift.small 2 (by decide)
  have h6 := hshift.small 6 (by decide)
  obtain ⟨f, hf⟩ := reaches_compare (c := c₁) h2 h6
  rw [hshift.den, hshift.rem] at hf
  unfold BitVec.divSubtractShift
  dsimp only at hf ⊢
  by_cases hlt : qr.r.shiftConcat (n.getLsbD (qr.wn - 1)) < d
  · rw [if_neg (Nat.not_le.mpr hlt)] at hf
    rw [if_pos hlt]
    exact ⟨_, hrun.trans hf, hshift, h8⟩
  · have hle : d ≤ qr.r.shiftConcat (n.getLsbD (qr.wn - 1)) := BitVec.not_lt.mp hlt
    rw [if_pos (BitVec.le_def.mp hle)] at hf
    rw [if_neg hlt]
    have hsub : Reaches aeabiUldivmod ⟨some 24, { c₁ with cpsr := f }⟩
        ⟨some 27, uldivmodSubtract.foldl Cpu.execOp { c₁ with cpsr := f }⟩ :=
      reaches_ops (i := 24) uldivmodSubtract rfl
    have hregs : DivRegs { c₁ with cpsr := f : Cpu μ }.r n d _ := hshift
    exact ⟨_, hrun.trans (hf.trans hsub), hregs.subtract hle rfl,
      (subtract_r { c₁ with cpsr := f } 8).trans h8⟩

/-- The end of the loop's body counts down and goes back while rounds are left. -/
theorem reaches_count {k : ℕ} (hk : k < 64) (h8 : c.r 8 = k + 1) :
    ∃ c' : Cpu μ, Reaches aeabiUldivmod ⟨some 27, c⟩ ⟨some (if k = 0 then 30 else 6), c'⟩ ∧
      (∀ i < 8, c'.r i = c.r i) ∧ c'.r 8 = k := by
  have hrun := (reaches_label (p := aeabiUldivmod) (c := c) (l := 3) rfl).trans
    (reaches_op (i := 28) (o := .subs .r8 .r8 (.imm 1)) rfl)
  have hzero : Psr.zero (c.execOp (.subs .r8 .r8 (.imm 1))).cpsr ↔ c.r 8 = 1 :=
    zero_cmpFlags c.cpsr (c.r 8) 1
  have hr : ∀ i < 8, (c.execOp (.subs .r8 .r8 (.imm 1))).r i = c.r i := by
    intro i hi
    exact Function.update_of_ne (ne_of_lt hi) _ _
  have hcount : (c.execOp (.subs .r8 .r8 (.imm 1))).r 8 = k := by
    have hv : (c.execOp (.subs .r8 .r8 (.imm 1))).r 8 = wrap (c.r 8 + (4294967296 - 1)) := by
      simp only [Cpu.execOp, Cpu.set, Function.update_self, Cpu.get, Cpu.operand]
    rw [hv, h8]
    unfold wrap
    omega
  refine ⟨_, hrun.trans ?_, hr, hcount⟩
  by_cases h0 : k = 0
  · rw [if_pos h0]
    exact reaches_not_taken (k := .ne) (l := 1) rfl fun hk => hk (hzero.mpr (by omega))
  · have hne : c.r 8 ≠ 1 := by omega
    rw [if_neg h0]
    exact reaches_taken (k := .ne) (l := 1) rfl fun hk => hne (hzero.mp hk)

/-- From the head of the loop, all the rounds that are left. -/
theorem reaches_rounds {k : ℕ} (h : DivRegs c.r n d qr) (hw : qr.wn = k + 1) (h8 : c.r 8 = k + 1) :
    ∃ c' : Cpu μ, Reaches aeabiUldivmod ⟨some 6, c⟩ ⟨some 30, c'⟩ ∧
      DivRegs c'.r n d (BitVec.divRec (k + 1) ⟨n, d⟩ qr) := by
  induction k generalizing c qr with
  | zero =>
    obtain ⟨c₁, hround, hregs, hr8⟩ := reaches_round h (by omega)
    obtain ⟨c₂, hcount, hr, -⟩ := reaches_count (by decide) (hr8.trans h8)
    exact ⟨c₂, hround.trans hcount, hregs.congr hr⟩
  | succ k ih =>
    obtain ⟨c₁, hround, hregs, hr8⟩ := reaches_round h (by omega)
    have hk : k + 1 < 64 := by
      have := h.left
      omega
    obtain ⟨c₂, hcount, hr, hc8⟩ := reaches_count hk (hr8.trans h8)
    rw [if_neg (Nat.succ_ne_zero k)] at hcount
    have hw' : (BitVec.divSubtractShift ⟨n, d⟩ qr).wn = k + 1 := by
      unfold BitVec.divSubtractShift
      dsimp only
      split <;> exact (congrArg (· - 1) hw)
    obtain ⟨c₃, hrest, hfinal⟩ := ih (hregs.congr hr) hw' hc8
    exact ⟨c₃, (hround.trans hcount).trans hrest, hfinal⟩

theorem entry_r (c : Cpu μ) : ∀ i : Fin 13, (uldivmodEntry.foldl Cpu.execOp c).r i =
    match i with
    | 4 | 5 | 6 | 7 => 0
    | 8 => 64
    | j => c.r j := by
  intro i
  fin_cases i <;> simp [uldivmodEntry]

theorem exit_r (c : Cpu μ) : ∀ i : Fin 13, (uldivmodExit.foldl Cpu.execOp c).r i =
    match i with
    | 0 => c.r 4
    | 1 => c.r 5
    | 2 => c.r 6
    | 3 => c.r 7
    | j => c.r j := by
  intro i
  fin_cases i <;> simp [uldivmodExit]

theorem popPc_low (c : Cpu μ) {i : Fin 13} (hi : i < 4) :
    (c.popPc [.r4, .r5, .r6, .r7, .r8, .r9]).r i = c.r i := by
  apply Cpu.popPc_r
  intro r hr e
  subst e
  simp only [List.mem_cons, Reg.r.injEq, List.not_mem_nil, or_false] at hr
  rcases hr with rfl | rfl | rfl | rfl | rfl | rfl <;> exact absurd hi (by decide)

theorem words_of_join {lo hi x : ℕ} (hl : lo < 4294967296) (h : join lo hi = x) :
    lo = x % 4294967296 ∧ hi = x / 4294967296 := by
  unfold join at h
  omega

/-- Called with a numerator and a denominator other than zero, `__aeabi_uldivmod` comes
back with their quotient and their remainder. -/
theorem aeabi_uldivmod_spec (c : Cpu μ) {n d : ℕ} (hn : n < 18446744073709551616)
    (hd : d < 18446744073709551616) (hpos : d ≠ 0)
    (h0 : c.r 0 = n % 4294967296) (h1 : c.r 1 = n / 4294967296)
    (h2 : c.r 2 = d % 4294967296) (h3 : c.r 3 = d / 4294967296) :
    ∃ k c', (step aeabiUldivmod)^[k] ⟨some 0, c⟩ = ⟨none, c'⟩ ∧
      c'.r 0 = n / d % 4294967296 ∧ c'.r 1 = n / d / 4294967296 ∧
      c'.r 2 = n % d % 4294967296 ∧ c'.r 3 = n % d / 4294967296 := by
  have hjoin (x : ℕ) : join (x % 4294967296) (x / 4294967296) = x := by
    unfold join
    omega
  have hentry : Reaches aeabiUldivmod ⟨some 0, c⟩ ⟨some 6, uldivmodEntry.foldl Cpu.execOp c⟩ :=
    reaches_ops (i := 0) uldivmodEntry rfl
  have hr := entry_r c
  generalize uldivmodEntry.foldl Cpu.execOp c = c₁ at hentry hr
  have hregs : DivRegs c₁.r (BitVec.ofNat 64 n) (BitVec.ofNat 64 d)
      (BitVec.DivModState.init 64) := by
    have hzero : join 0 0 = (0#64).toNat := by simp [join]
    constructor
    · intro i hi
      rw [hr]
      fin_cases i <;> first | exact absurd hi (by decide) | exact Nat.zero_lt_succ _ | skip
      · exact lt_of_eq_of_lt h0 (Nat.mod_lt n (by decide))
      · exact lt_of_eq_of_lt h1 (Nat.div_lt_of_lt_mul hn)
      · exact lt_of_eq_of_lt h2 (Nat.mod_lt d (by decide))
      · exact lt_of_eq_of_lt h3 (Nat.div_lt_of_lt_mul hd)
    · exact le_refl 64
    · rw [hr, hr, BitVec.toNat_ofNat]
      have hnum : n % 2 ^ 64 * 2 ^ (64 - 64) % 18446744073709551616 = n := by
        have hself : n % 2 ^ 64 = n := Nat.mod_eq_of_lt hn
        rw [Nat.sub_self, Nat.pow_zero, Nat.mul_one, hself, Nat.mod_eq_of_lt hn]
      exact (congrArg₂ join h0 h1).trans ((hjoin n).trans hnum.symm)
    · rw [hr, hr, BitVec.toNat_ofNat]
      exact (congrArg₂ join h2 h3).trans ((hjoin d).trans (Nat.mod_eq_of_lt hd).symm)
    · rw [hr, hr]
      exact hzero
    · rw [hr, hr]
      exact hzero
  obtain ⟨c₂, hloop, hend⟩ := reaches_rounds (k := 63) hregs rfl (hr 8)
  have hexit : Reaches aeabiUldivmod ⟨some 30, c₂⟩ ⟨some 34, uldivmodExit.foldl Cpu.execOp c₂⟩ :=
    reaches_ops (i := 30) uldivmodExit rfl
  obtain ⟨k, hk⟩ := ((hentry.trans hloop).trans hexit).trans
    (reaches_popPc [.r4, .r5, .r6, .r7, .r8, .r9] rfl)
  refine ⟨k, _, hk, ?_⟩
  rw [popPc_low _ (by decide), popPc_low _ (by decide), popPc_low _ (by decide),
    popPc_low _ (by decide), exit_r, exit_r, exit_r, exit_r]
  have htn : (BitVec.ofNat 64 n).toNat = n := by rw [BitVec.toNat_ofNat, Nat.mod_eq_of_lt hn]
  have htd : (BitVec.ofNat 64 d).toNat = d := by rw [BitVec.toNat_ofNat, Nat.mod_eq_of_lt hd]
  have hdpos : 0#64 < BitVec.ofNat 64 d := by
    rw [BitVec.lt_def, htd]
    exact Nat.pos_of_ne_zero hpos
  have hq : join (c₂.r 4) (c₂.r 5) = n / d := by
    rw [hend.quot, ← BitVec.udiv_eq_divRec hdpos, BitVec.toNat_udiv, htn, htd]
  have hm : join (c₂.r 6) (c₂.r 7) = n % d := by
    rw [hend.rem, ← BitVec.umod_eq_divRec hdpos, BitVec.toNat_umod, htn, htd]
  obtain ⟨hq0, hq1⟩ := words_of_join (hend.small 4 (by decide)) hq
  obtain ⟨hm0, hm1⟩ := words_of_join (hend.small 6 (by decide)) hm
  exact ⟨hq0, hq1, hm0, hm1⟩

end Rounds

/-- A processor with the given first four registers. -/
def divCpu (r0 r1 r2 r3 : ℕ) : Cpu (ℕ → ℕ) where
  r i := if i = 0 then r0 else if i = 1 then r1 else if i = 2 then r2 else if i = 3 then r3 else 7
  sp _ := 0x8000
  lr _ := 0x100
  spsr _ := 0
  pc := 0
  cpsr := svcMode
  fpscr := 0
  vfp _ := 0
  mem _ := 0

/-- The largest numerator, and a denominator above `2 ^ 63`. -/
theorem aeabi_uldivmod_large :
    ∃ k c', (step aeabiUldivmod)^[k] ⟨some 0, divCpu 4294967295 4294967295 1 2147483648⟩ =
      ⟨none, c'⟩ ∧ c'.r 0 = 1 ∧ c'.r 1 = 0 ∧ c'.r 2 = 4294967294 ∧ c'.r 3 = 2147483647 :=
  aeabi_uldivmod_spec (divCpu 4294967295 4294967295 1 2147483648) (n := 18446744073709551615)
    (d := 9223372036854775809) (by decide) (by decide) (by decide) rfl rfl rfl rfl

end Leg
