import Leg.Lib.Runs
import Leg.Memory.PageAllocator

/-! The page allocator keeps its counter, its bitmap and its hint consistent, and hands out
only free pages. The set of free pages is the abstract allocator: an allocation takes an
interval out of it and a free puts one page back. -/
namespace Leg
open Runs

section Bits
variable (bm : ℕ → ℕ)

theorem bmTest_eq_testBit (i : ℕ) : bmTest bm i = (bm (i / bmBits)).testBit (i % bmBits) :=
  Bitmap.shift_and_one _ _

@[simp] theorem bmTest_bmSet (i j : ℕ) :
    bmTest (bmSet bm i) j = (bmTest bm j || decide (j = i)) := by
  simp only [bmTest_eq_testBit, bmSet]
  by_cases hw : j / bmBits = i / bmBits
  · rw [hw, Function.update_self, Bitmap.testBit_or_shift]
    have : j % bmBits = i % bmBits ↔ j = i := by
      unfold bmBits at *
      omega
    simp only [this]
  · rw [Function.update_of_ne hw]
    have : j ≠ i := fun h => hw (h ▸ rfl)
    simp [this]

theorem bmTest_bmClear {bm : ℕ → ℕ} {i : ℕ} (h : bm (i / bmBits) < 2 ^ 32) (j : ℕ) :
    bmTest (bmClear bm i) j = (bmTest bm j && decide (j ≠ i)) := by
  simp only [bmTest_eq_testBit, bmClear]
  by_cases hw : j / bmBits = i / bmBits
  · have hmask : bnot (1 <<< (i % bmBits)) = 2 ^ 32 - 1 - 1 <<< (i % bmBits) := rfl
    rw [hw, Function.update_self, hmask,
      Bitmap.testBit_and_not_shift h (show i % bmBits < 32 from Nat.mod_lt _ (by decide))]
    have : j % bmBits = i % bmBits ↔ j = i := by
      unfold bmBits at *
      omega
    simp only [ne_eq, this]
  · rw [Function.update_of_ne hw]
    have : j ≠ i := fun h => hw (h ▸ rfl)
    simp [this]

theorem bmSet_lt {bm : ℕ → ℕ} {words : ℕ} (h : ∀ k < words, bm k < 2 ^ 32) (i : ℕ) :
    ∀ k < words, bmSet bm i k < 2 ^ 32 := by
  intro k hk
  unfold bmSet
  by_cases hki : k = i / bmBits
  · rw [hki, Function.update_self]
    exact Bitmap.or_shift_lt (h _ (hki ▸ hk)) (Nat.mod_lt _ (by decide))
  · rw [Function.update_of_ne hki]
    exact h k hk

theorem bmClear_lt {bm : ℕ → ℕ} {words : ℕ} (h : ∀ k < words, bm k < 2 ^ 32) (i : ℕ) :
    ∀ k < words, bmClear bm i k < 2 ^ 32 := by
  intro k hk
  unfold bmClear
  by_cases hki : k = i / bmBits
  · rw [hki, Function.update_self]
    exact lt_of_le_of_lt Nat.and_le_left (h _ (hki ▸ hk))
  · rw [Function.update_of_ne hki]
    exact h k hk

private theorem bmSetRun_succ (idx n : ℕ) :
    bmSetRun bm idx (n + 1) = bmSet (bmSetRun bm idx n) (idx + n) := by
  simp [bmSetRun, List.range_succ]

theorem bmTest_bmSetRun (idx n j : ℕ) :
    bmTest (bmSetRun bm idx n) j = (bmTest bm j || decide (idx ≤ j ∧ j < idx + n)) := by
  induction n with
  | zero =>
    simp [bmSetRun]
  | succ n ih =>
    rw [bmSetRun_succ, bmTest_bmSet, ih, Bool.or_assoc, ← Bool.decide_or]
    congr 2
    apply propext
    omega

theorem bmSetRun_lt {bm : ℕ → ℕ} {words : ℕ} (h : ∀ k < words, bm k < 2 ^ 32) (idx n : ℕ) :
    ∀ k < words, bmSetRun bm idx n k < 2 ^ 32 := by
  induction n with
  | zero => exact h
  | succ n ih =>
    rw [bmSetRun_succ]
    exact bmSet_lt ih _

/-- A search that succeeds returns a run of clear bits below `total`. -/
theorem bmFindFreeRun_some {total start n idx : ℕ} (hs : start ≤ total)
    (h : bmFindFreeRun bm total start n = idx) (hne : idx ≠ u32Max) :
    idx + n ≤ total ∧ ∀ j, idx ≤ j → j < idx + n → bmTest bm j = false := by
  unfold bmFindFreeRun at h
  split at h
  next s hf =>
    obtain ⟨-, h2, h3⟩ := Bitmap.runSearch_some hf
    subst h
    exact ⟨by omega, h3⟩
  next =>
    split at h
    next hpos =>
      cases hf : Bitmap.runSearch (bmTest bm) n start 0 start 0 with
      | none =>
        rw [hf] at h
        exact absurd h.symm hne
      | some s =>
        rw [hf, Option.getD_some] at h
        obtain ⟨-, h2, h3⟩ := Bitmap.runSearch_some hf
        subst h
        exact ⟨by omega, h3⟩
    next => exact absurd h.symm hne

/-- A search for one bit that fails has seen every bit below `total` set. -/
theorem bmFindFreeRun_none {total start : ℕ} (hs : start ≤ total) (ht : total < u32Max)
    (h : bmFindFreeRun bm total start 1 = u32Max) {j : ℕ} (hj : j < total) :
    bmTest bm j = true := by
  unfold bmFindFreeRun at h
  split at h
  next s hf =>
    have := (Bitmap.runSearch_some hf).2.1
    omega
  next hf =>
    by_cases hlo : start ≤ j
    · obtain ⟨i, h1, h2, hb⟩ := Bitmap.runSearch_none (s := j) (by decide) hf hlo (by omega)
      have hij : i = j := by omega
      exact hij ▸ hb
    · rw [if_pos (by omega : start > 0)] at h
      cases hw : Bitmap.runSearch (bmTest bm) 1 start 0 start 0 with
      | some s =>
        rw [hw] at h
        have := (Bitmap.runSearch_some hw).2.1
        rw [Option.getD_some] at h
        omega
      | none =>
        obtain ⟨i, h1, h2, hb⟩ := Bitmap.runSearch_none (s := j) (by decide) hw (by omega)
          (by omega)
        have hij : i = j := by omega
        exact hij ▸ hb

end Bits

theorem paAligned_iff (pa : ℕ) : paAligned pa ↔ pa % pageSize = 0 := by
  have : pa &&& (2 ^ 12 - 1) = pa % 2 ^ 12 := Nat.and_two_pow_sub_one_eq_mod pa 12
  exact Eq.congr_left this

/-- The pages whose bit is clear. -/
def Pmm.freeSet (g : Pmm) : Finset ℕ := Bitmap.clear (bmTest g.bitmap) g.totalPages

/-- The allocator's fields agree with its bitmap. -/
structure PmmOk (g : Pmm) : Prop where
  base_aligned : g.ramBase % pageSize = 0
  ramEnd : g.ramEnd = g.ramBase + g.totalPages * pageSize
  ramEnd_lt : g.ramEnd < 2 ^ 32
  pages_pos : 0 < g.totalPages
  words : g.bitmapWords = (g.totalPages + (bmBits - 1)) / bmBits
  word_lt : ∀ i < g.bitmapWords, g.bitmap i < 2 ^ 32
  free : g.freePages = g.freeSet.card
  tail : ∀ i, g.totalPages ≤ i → i < g.bitmapWords * bmBits → bmTest g.bitmap i = false
  hint : g.nextHint < g.totalPages

/-- The fields `mm_init` fixes once for all. -/
structure SameRegion (g h : Pmm) : Prop where
  ramBase : h.ramBase = g.ramBase
  ramEnd : h.ramEnd = g.ramEnd
  totalPages : h.totalPages = g.totalPages
  bitmapPa : h.bitmapPa = g.bitmapPa
  bitmapWords : h.bitmapWords = g.bitmapWords

theorem SameRegion.refl (g : Pmm) : SameRegion g g := ⟨rfl, rfl, rfl, rfl, rfl⟩

theorem SameRegion.symm {g h : Pmm} (a : SameRegion g h) : SameRegion h g :=
  ⟨a.1.symm, a.2.symm, a.3.symm, a.4.symm, a.5.symm⟩

theorem SameRegion.trans {g h k : Pmm} (a : SameRegion g h) (b : SameRegion h k) :
    SameRegion g k :=
  ⟨b.1.trans a.1, b.2.trans a.2, b.3.trans a.3, b.4.trans a.4, b.5.trans a.5⟩

/-- The managed region as `mm_init` lays it out: whole pages below `2 ^ 32`, one bit a page. -/
structure PmmRegion (g : Pmm) : Prop where
  base_aligned : g.ramBase % pageSize = 0
  ramEnd : g.ramEnd = g.ramBase + g.totalPages * pageSize
  ramEnd_lt : g.ramEnd < 2 ^ 32
  pages_pos : 0 < g.totalPages
  words : g.bitmapWords = (g.totalPages + (bmBits - 1)) / bmBits

theorem PmmOk.region {g : Pmm} (h : PmmOk g) : PmmRegion g :=
  ⟨h.base_aligned, h.ramEnd, h.ramEnd_lt, h.pages_pos, h.words⟩

namespace PmmRegion
variable {g : Pmm}

theorem of_same {k : Pmm} (h : PmmRegion g) (hs : SameRegion g k) : PmmRegion k := by
  obtain ⟨h1, h2, h3, h4, h5⟩ := h
  rw [← hs.ramBase] at h1 h2
  rw [← hs.ramEnd] at h2 h3
  rw [← hs.totalPages] at h2 h4 h5
  rw [← hs.bitmapWords] at h5
  exact ⟨h1, h2, h3, h4, h5⟩

theorem total_lt (h : PmmRegion g) : g.totalPages < 2 ^ 20 := by
  have h1 := h.ramEnd
  have h2 := h.ramEnd_lt
  unfold pageSize at h1
  omega

theorem idxToPa (h : PmmRegion g) {idx : ℕ} (hi : idx < g.totalPages) :
    g.idxToPa idx = g.ramBase + idx * pageSize := by
  have h1 := h.ramEnd
  have h2 := h.ramEnd_lt
  unfold Pmm.idxToPa u32 pageShift
  rw [Nat.shiftLeft_eq]
  unfold pageSize at *
  omega

theorem paToIdx (h : PmmRegion g) {idx : ℕ} (hi : idx < g.totalPages) :
    g.paToIdx (g.ramBase + idx * pageSize) = idx := by
  have h1 := h.ramEnd
  have h2 := h.ramEnd_lt
  unfold Pmm.paToIdx
  rw [wsub_of_le (by omega) (by unfold pageSize at *; omega), Nat.shiftRight_eq_div_pow]
  unfold pageSize pageShift
  omega

theorem page_of_pa (h : PmmRegion g) {pa : ℕ} (ha : paAligned pa) (hr : g.paInRange pa) :
    ∃ idx < g.totalPages, pa = g.ramBase + idx * pageSize ∧ g.paToIdx pa = idx := by
  rw [paAligned_iff] at ha
  obtain ⟨h1, h2⟩ := hr
  have h3 := h.base_aligned
  have h4 := h.ramEnd
  have hidx : (pa - g.ramBase) / pageSize < g.totalPages := by
    unfold pageSize at *
    omega
  have hpa : pa = g.ramBase + (pa - g.ramBase) / pageSize * pageSize := by
    unfold pageSize at *
    omega
  refine ⟨_, hidx, hpa, ?_⟩
  conv_lhs => rw [hpa]
  exact h.paToIdx hidx

theorem word_lt (h : PmmRegion g) {idx : ℕ} (hi : idx < g.totalPages) :
    idx / bmBits < g.bitmapWords := by
  rw [h.words]
  unfold bmBits
  omega

end PmmRegion

namespace PmmOk
variable {g : Pmm}

theorem total_lt (h : PmmOk g) : g.totalPages < 2 ^ 20 := h.region.total_lt

theorem idxToPa (h : PmmOk g) {idx : ℕ} (hi : idx < g.totalPages) :
    g.idxToPa idx = g.ramBase + idx * pageSize := h.region.idxToPa hi

theorem paToIdx (h : PmmOk g) {idx : ℕ} (hi : idx < g.totalPages) :
    g.paToIdx (g.ramBase + idx * pageSize) = idx := h.region.paToIdx hi

theorem page_of_pa (h : PmmOk g) {pa : ℕ} (ha : paAligned pa) (hr : g.paInRange pa) :
    ∃ idx < g.totalPages, pa = g.ramBase + idx * pageSize ∧ g.paToIdx pa = idx :=
  h.region.page_of_pa ha hr

theorem word_of_lt (h : PmmOk g) {idx : ℕ} (hi : idx < g.totalPages) :
    g.bitmap (idx / bmBits) < 2 ^ 32 := h.word_lt _ (h.region.word_lt hi)

theorem setRun (h : PmmOk g) {idx n hint : ℕ} (reserved : ℕ) (hn : idx + n ≤ g.totalPages)
    (hfree : ∀ j, idx ≤ j → j < idx + n → bmTest g.bitmap j = false)
    (hhint : hint < g.totalPages) :
    PmmOk { g with
      bitmap := bmSetRun g.bitmap idx n
      freePages := g.freePages - n
      reservedPages := reserved
      nextHint := hint } := by
  have hcard := Bitmap.card_clear_set (bmTest (bmSetRun g.bitmap idx n)) hn hfree
    (fun j _ => by rw [bmTest_bmSetRun]; simp)
  refine ⟨h.base_aligned, h.ramEnd, h.ramEnd_lt, h.pages_pos, h.words,
    bmSetRun_lt h.word_lt idx n, ?_, fun i hi hw => ?_, hhint⟩
  · have := h.free
    simp only [Pmm.freeSet] at this ⊢
    rw [this, hcard.2]
  · have := h.tail i hi hw
    dsimp only at hi ⊢
    rw [bmTest_bmSetRun, this]
    simp only [Bool.false_or, decide_eq_false_iff_not]
    omega

theorem release (h : PmmOk g) {idx : ℕ} (hi : idx < g.totalPages)
    (hb : bmTest g.bitmap idx = true) : PmmOk (g.release idx) := by
  have hcl := bmTest_bmClear (h.word_of_lt hi)
  have hcard := Bitmap.card_clear_unset (bmTest (bmClear g.bitmap idx)) hi hb
    (fun j _ => by rw [hcl]; cases bmTest g.bitmap j <;> simp)
  refine ⟨h.base_aligned, h.ramEnd, h.ramEnd_lt, h.pages_pos, h.words,
    bmClear_lt h.word_lt idx, ?_, fun i hi' hw => ?_, h.hint⟩
  · have := h.free
    simp only [Pmm.freeSet, Pmm.release] at this ⊢
    rw [this, hcard]
  · have := h.tail i hi' hw
    simp only [Pmm.release, hcl, this, Bool.false_and]

theorem lowerHint (h : PmmOk g) {idx : ℕ} (hi : idx < g.totalPages) : PmmOk (g.lowerHint idx) := by
  unfold Pmm.lowerHint
  split
  · exact ⟨h.1, h.2, h.3, h.4, h.5, h.6, h.7, h.8, hi⟩
  · exact h

end PmmOk

@[simp] theorem Pmm.lowerHint_bitmap (g : Pmm) (idx : ℕ) :
    (g.lowerHint idx).bitmap = g.bitmap := by
  unfold Pmm.lowerHint
  split <;> rfl

theorem Pmm.lowerHint_region (g : Pmm) (idx : ℕ) : SameRegion g (g.lowerHint idx) := by
  unfold Pmm.lowerHint
  split <;> exact ⟨rfl, rfl, rfl, rfl, rfl⟩

section Reserve

theorem bmSetRun_one (bm : ℕ → ℕ) (idx : ℕ) : bmSetRun bm idx 1 = bmSet bm idx := by
  simp [bmSetRun]

theorem alignDown_page {x : ℕ} (hx : x < 4294967296) :
    alignDown x pageSize = x / pageSize * pageSize := alignDown_two_pow (k := 12) hx (by decide)

theorem alignUp_page (x : ℕ) :
    alignUp x pageSize = u32 (x + pageSize - 1) / pageSize * pageSize :=
  alignUp_two_pow (k := 12) (by decide)

variable {g : Pmm}

/-- Reserving a page sets its bit, whether it was set before or not. -/
theorem PmmOk.reservePage (h : PmmOk g) {idx : ℕ} (hi : idx < g.totalPages) :
    let r := g.reservePage (g.ramBase + idx * pageSize)
    PmmOk r ∧ SameRegion g r ∧
      ∀ j, bmTest r.bitmap j = (bmTest g.bitmap j || decide (j = idx)) := by
  simp only [Pmm.reservePage, h.paToIdx hi]
  cases hb : bmTest g.bitmap idx with
  | true =>
    refine ⟨h, .refl g, fun j => ?_⟩
    by_cases hj : j = idx
    · simp [hj, hb]
    · simp [hj]
  | false =>
    have hmem : idx ∈ g.freeSet := Bitmap.mem_clear.mpr ⟨hi, hb⟩
    have hpos : g.freePages > 0 := by
      rw [h.free]
      exact Finset.card_pos.mpr ⟨idx, hmem⟩
    have hok := h.setRun (n := 1) (g.reservedPages + 1) (Nat.succ_le_of_lt hi)
      (fun j h1 h2 => by rw [show j = idx by omega, hb]) h.hint
    rw [bmSetRun_one] at hok
    simp only [Bool.false_eq_true, if_false, if_pos hpos]
    exact ⟨hok, ⟨rfl, rfl, rfl, rfl, rfl⟩, fun j => bmTest_bmSet _ _ _⟩

/-- The loop of `reserve_range` over `n` pages from page `i` on. -/
theorem PmmOk.reserveFold (h : PmmOk g) {i n base : ℕ} (hb : base = g.ramBase + i * pageSize)
    (hn : i + n ≤ g.totalPages) :
    let r := (List.range n).foldl (fun g k => g.reservePage (base + k * pageSize)) g
    PmmOk r ∧ SameRegion g r ∧
      ∀ j, bmTest r.bitmap j = (bmTest g.bitmap j || decide (i ≤ j ∧ j < i + n)) := by
  induction n with
  | zero => exact ⟨h, .refl g, fun j => by simp⟩
  | succ n ih =>
    obtain ⟨hok, hsame, hbits⟩ := ih (by omega)
    simp only [List.range_succ, List.foldl_append, List.foldl_cons, List.foldl_nil]
    generalize (List.range n).foldl (fun g k => g.reservePage (base + k * pageSize)) g = r at *
    have hpa : base + n * pageSize = r.ramBase + (i + n) * pageSize := by
      rw [hb, hsame.ramBase]
      ring
    rw [hpa]
    have hin : i + n < r.totalPages := by
      rw [hsame.totalPages]
      omega
    obtain ⟨hok', hsame', hbits'⟩ := hok.reservePage hin
    refine ⟨hok', hsame.trans hsame', fun j => ?_⟩
    rw [hbits', hbits, Bool.or_assoc, ← Bool.decide_or]
    congr 2
    apply propext
    omega

/-- `reserve_range` sets the bits of exactly the managed pages in the widened range. -/
theorem PmmOk.reserveRange (h : PmmOk g) {base : ℕ} (fin : ℕ) (hb : base < 4294967296) :
    PmmOk (g.reserveRange base fin) ∧ SameRegion g (g.reserveRange base fin) ∧
      ∀ j < g.totalPages, bmTest (g.reserveRange base fin).bitmap j =
        (bmTest g.bitmap j || decide (alignDown base pageSize ≤ g.ramBase + j * pageSize ∧
          g.ramBase + j * pageSize < alignUp fin pageSize)) := by
  unfold Pmm.reserveRange
  rw [alignDown_page hb, alignUp_page]
  generalize base / pageSize = lo
  generalize u32 (fin + pageSize - 1) / pageSize = hi
  have h1 := h.base_aligned
  have h2 := h.ramEnd
  dsimp only
  generalize hlo : (if lo * pageSize < g.ramBase then g.ramBase else lo * pageSize) = lo'
  generalize hhi : (if hi * pageSize > g.ramEnd then g.ramEnd else hi * pageSize) = hi'
  by_cases hlt : lo' < hi'
  · obtain ⟨i, hi0⟩ : ∃ i, lo' = g.ramBase + i * pageSize := by
      refine ⟨(lo' - g.ramBase) / pageSize, ?_⟩
      unfold pageSize at *
      split at hlo <;> omega
    obtain ⟨n, hn⟩ : ∃ n, hi' = lo' + n * pageSize := by
      refine ⟨(hi' - lo') / pageSize, ?_⟩
      unfold pageSize at *
      split at hlo <;> split at hhi <;> omega
    have hcount : (hi' - lo' + (pageSize - 1)) / pageSize = n := by
      unfold pageSize at *
      omega
    have hfit : i + n ≤ g.totalPages := by
      unfold pageSize at *
      split at hhi <;> omega
    obtain ⟨hok, hsame, hbits⟩ := h.reserveFold hi0 hfit
    rw [hcount]
    refine ⟨hok, hsame, fun j hj => ?_⟩
    rw [hbits]
    congr 2
    apply propext
    unfold pageSize at *
    split at hlo <;> split at hhi <;> omega
  · have hcount : (hi' - lo' + (pageSize - 1)) / pageSize = 0 := by
      unfold pageSize
      omega
    rw [hcount]
    refine ⟨h, .refl g, fun j hj => ?_⟩
    have hnone : ¬ (lo * pageSize ≤ g.ramBase + j * pageSize ∧
        g.ramBase + j * pageSize < hi * pageSize) := by
      unfold pageSize at *
      split at hlo <;> split at hhi <;> omega
    simp [hnone]

end Reserve

section Init
variable {kernelPhysBase memBase memSize reservedEnd heapVa : ℕ} {memory : ℕ → ℕ} {g : Pmm}

theorem alignDown_alignUp (x : ℕ) :
    alignDown (alignUp x pageSize) pageSize = alignUp x pageSize := by
  have hlt : alignUp x pageSize < 4294967296 := alignUp_lt (k := 12) (by decide)
  rw [alignDown_page hlt, alignUp_page, Nat.mul_div_cancel _ (by decide : 0 < pageSize)]

/-- Before anything is reserved every page is free. -/
theorem start_ok {ramBase ramEnd : ℕ} (bitmapPa : ℕ) (memory : ℕ → ℕ)
    (hbase : ramBase % pageSize = 0) (hend : ramEnd % pageSize = 0) (hlt : ramBase < ramEnd)
    (hre : ramEnd < 4294967296) :
    PmmOk (Pmm.start ramBase ramEnd bitmapPa memory) ∧
      ∀ j < (Pmm.start ramBase ramEnd bitmapPa memory).totalPages,
        bmTest (Pmm.start ramBase ramEnd bitmapPa memory).bitmap j = false := by
  have htotal : wsub ramEnd ramBase >>> pageShift = (ramEnd - ramBase) / pageSize := by
    rw [wsub_of_le (by omega) hre, Nat.shiftRight_eq_div_pow]
    rfl
  unfold Pmm.start
  dsimp only
  rw [htotal]
  generalize htp : (ramEnd - ramBase) / pageSize = total
  have hwords : divRoundUp total bmBits = (total + (bmBits - 1)) / bmBits := by
    unfold divRoundUp u32 bmBits pageSize at *
    omega
  rw [hwords]
  generalize hw : (total + (bmBits - 1)) / bmBits = words
  have hclear (j : ℕ) (hj : j < words * bmBits) :
      bmTest (fun i => if i < words then 0 else memory i) j = false := by
    have : j / bmBits < words := Nat.div_lt_of_lt_mul (by rwa [Nat.mul_comm])
    simp [bmTest, this]
  have hle : total ≤ words * bmBits := by
    unfold bmBits at *
    omega
  have hall : Bitmap.clear (bmTest fun i => if i < words then 0 else memory i) total =
      Finset.range total := by
    ext j
    simp only [Bitmap.mem_clear, Finset.mem_range, and_iff_left_iff_imp]
    exact fun hj => hclear j (by omega)
  have hpages : ramEnd = ramBase + total * pageSize ∧ 0 < total := by
    unfold pageSize at *
    omega
  refine ⟨⟨hbase, hpages.1, hre, hpages.2, hw.symm, fun i hi => ?_, ?_,
    fun i _ => hclear i, hpages.2⟩, fun j hj => hclear j (by omega)⟩
  · simp only at hi
    simp [hi]
  · simp only [Pmm.freeSet, hall, Finset.card_range]

/-- The end of managed RAM: what the device tree says, clamped to 32 bits and to whole pages. -/
def ramTop (memBase memSize : ℕ) : ℕ :=
  alignDown (if u64 (memBase + memSize) > u32Max then u32Max &&& bnot (pageSize - 1)
    else u64 (memBase + memSize)) pageSize

theorem ramTop_bounds (memBase memSize : ℕ) :
    ramTop memBase memSize % pageSize = 0 ∧ ramTop memBase memSize < 4294967296 := by
  unfold ramTop
  have hcap : (if u64 (memBase + memSize) > u32Max then u32Max &&& bnot (pageSize - 1)
      else u64 (memBase + memSize)) < 4294967296 := by
    split
    · decide
    next h =>
      unfold u32Max at h
      omega
  rw [alignDown_page hcap]
  exact ⟨Nat.mul_mod_left _ _, lt_of_le_of_lt (Nat.div_mul_le_self _ _) hcap⟩

theorem mmInit_eq : mmInit kernelPhysBase memBase memSize reservedEnd heapVa memory =
    if memSize > 0 ∧ ramTop memBase memSize > alignUp memBase pageSize ∧
        u32 (alignUp reservedEnd pageSize + (Pmm.start (alignUp memBase pageSize)
          (ramTop memBase memSize) (alignUp reservedEnd pageSize) memory).bitmapWords * 4) ≤
            ramTop memBase memSize then
      some (((Pmm.start (alignUp memBase pageSize) (ramTop memBase memSize)
        (alignUp reservedEnd pageSize) memory).reserveRange (alignUp reservedEnd pageSize)
          (u32 (alignUp reservedEnd pageSize + (Pmm.start (alignUp memBase pageSize)
            (ramTop memBase memSize) (alignUp reservedEnd pageSize) memory).bitmapWords * 4)))
        |>.reserveRange (virtToPhys kernelPhysBase heapVa)
          (u32 (virtToPhys kernelPhysBase heapVa + kheapSize)))
    else none := rfl

/-- The pages `mm_init` reserves: those of the bitmap and those behind the heap. -/
def Reserved (bitmapPa bitmapBytes heapPa pa : ℕ) : Prop :=
  (bitmapPa ≤ pa ∧ pa < alignUp (u32 (bitmapPa + bitmapBytes)) pageSize) ∨
    (alignDown heapPa pageSize ≤ pa ∧ pa < alignUp (u32 (heapPa + kheapSize)) pageSize)

instance (bitmapPa bitmapBytes heapPa pa : ℕ) :
    Decidable (Reserved bitmapPa bitmapBytes heapPa pa) :=
  inferInstanceAs (Decidable (_ ∨ _))

/-- What `mm_init` leaves: consistent fields, and the bits of the reserved pages set. -/
theorem mmInit_ok (hi : mmInit kernelPhysBase memBase memSize reservedEnd heapVa memory = some g) :
    PmmOk g ∧ g.ramBase = alignUp memBase pageSize ∧ g.ramEnd = ramTop memBase memSize ∧
      g.bitmapPa = alignUp reservedEnd pageSize ∧
      ∀ j < g.totalPages, bmTest g.bitmap j = decide (Reserved g.bitmapPa (g.bitmapWords * 4)
        (virtToPhys kernelPhysBase heapVa) (g.ramBase + j * pageSize)) := by
  rw [mmInit_eq] at hi
  obtain ⟨hend, hre⟩ := ramTop_bounds memBase memSize
  have hbase : alignUp memBase pageSize % pageSize = 0 := by
    rw [alignUp_page]
    exact Nat.mul_mod_left _ _
  generalize ramTop memBase memSize = ramEnd at *
  generalize alignUp memBase pageSize = ramBase at *
  split at hi
  next hassert =>
    obtain ⟨h0, hclear⟩ := start_ok (alignUp reservedEnd pageSize) memory hbase hend hassert.2.1 hre
    have hb0 : (Pmm.start ramBase ramEnd (alignUp reservedEnd pageSize) memory).ramBase = ramBase :=
      rfl
    have he0 : (Pmm.start ramBase ramEnd (alignUp reservedEnd pageSize) memory).ramEnd = ramEnd :=
      rfl
    have hp0 : (Pmm.start ramBase ramEnd (alignUp reservedEnd pageSize) memory).bitmapPa =
      alignUp reservedEnd pageSize := rfl
    generalize Pmm.start ramBase ramEnd (alignUp reservedEnd pageSize) memory = start at *
    have hbitmap : alignUp reservedEnd pageSize < 4294967296 := alignUp_lt (k := 12) (by decide)
    obtain ⟨h1, hs1, hb1⟩ := h0.reserveRange
      (u32 (alignUp reservedEnd pageSize + start.bitmapWords * 4)) hbitmap
    obtain ⟨h2, hs2, hb2⟩ := h1.reserveRange (u32 (virtToPhys kernelPhysBase heapVa + kheapSize))
      (virtToPhys_lt kernelPhysBase heapVa)
    have hs := hs1.trans hs2
    rw [Option.some.inj hi] at h2 hs hb2
    refine ⟨h2, hs.ramBase.trans hb0, hs.ramEnd.trans he0, hs.bitmapPa.trans hp0, fun j hj => ?_⟩
    rw [hs.totalPages] at hj
    rw [hb2 j (hs1.totalPages ▸ hj), hb1 j hj, hclear j hj, hs1.ramBase, hs.bitmapPa, hs.ramBase,
      hs.bitmapWords, hp0, alignDown_alignUp, Bool.false_or]
    exact (Bool.decide_or _ _).symm
  next => exact absurd hi (by simp)

end Init

section Operations
variable {g : Pmm}

/-- What a successful allocation of `n` pages does: it returns the base of a run of pages
that were free and sets exactly their bits. -/
structure Taken (g h : Pmm) (pa n : ℕ) : Prop where
  region : SameRegion g h
  run : ∃ idx, pa = g.ramBase + idx * pageSize ∧ idx + n ≤ g.totalPages ∧
    (∀ j, idx ≤ j → j < idx + n → bmTest g.bitmap j = false) ∧
    ∀ j, bmTest h.bitmap j = (bmTest g.bitmap j || decide (idx ≤ j ∧ j < idx + n))

theorem Taken.ne_zero {h : Pmm} {pa n : ℕ} (ht : Taken g h pa n) (hpos : 0 < g.ramBase) :
    pa ≠ 0 := by
  obtain ⟨idx, rfl, -⟩ := ht.run
  omega

theorem mmPageAlloc_eq (g : Pmm) : mmPageAlloc g = mmPageAllocN g 1 := by
  unfold mmPageAlloc mmPageAllocN
  by_cases h : g.freePages = 0
  · simp [h]
  · have hlt : ¬ g.freePages < 1 := by omega
    simp only [h, hlt, if_false, one_ne_zero, bmSetRun_one]

theorem mmPageAllocN_cases (h : PmmOk g) (n : ℕ) :
    (mmPageAllocN g n = (g, 0) ∧ (n = 1 → g.freeSet = ∅)) ∨
    (0 < n ∧ PmmOk (mmPageAllocN g n).1 ∧
      Taken g (mmPageAllocN g n).1 (mmPageAllocN g n).2 n) := by
  unfold mmPageAllocN
  by_cases hn : n = 0
  · left
    simp [hn]
  by_cases hlt : g.freePages < n
  · left
    rw [if_neg hn, if_pos hlt]
    refine ⟨rfl, fun h1 => ?_⟩
    rw [h.free, h1, Nat.lt_one_iff] at hlt
    exact Finset.card_eq_zero.mp hlt
  rw [if_neg hn, if_neg hlt]
  dsimp only
  generalize hf : bmFindFreeRun g.bitmap g.totalPages g.nextHint n = idx
  have ht := h.total_lt
  have hmax : g.totalPages < u32Max := by
    unfold u32Max
    omega
  by_cases hidx : idx = u32Max
  · left
    rw [if_pos hidx]
    refine ⟨rfl, fun h1 => ?_⟩
    subst h1
    ext j
    simp only [Pmm.freeSet, Bitmap.mem_clear, Finset.notMem_empty, iff_false, not_and]
    intro hj
    rw [bmFindFreeRun_none g.bitmap (le_of_lt h.hint) hmax (hf.trans hidx) hj]
    decide
  · right
    obtain ⟨hfit, hfree⟩ := bmFindFreeRun_some g.bitmap (le_of_lt h.hint) hf hidx
    rw [if_neg hidx]
    have hpa := h.idxToPa (show idx < g.totalPages by omega)
    exact ⟨by omega, h.setRun g.reservedPages hfit hfree (Nat.mod_lt _ h.pages_pos),
      ⟨rfl, rfl, rfl, rfl, rfl⟩, idx, hpa, hfit, hfree, fun j => bmTest_bmSetRun _ _ _ _⟩

/-- A free of one page either fails and changes nothing, or clears the bit of that page. -/
theorem mmPageFree_cases (h : PmmOk g) (pa : ℕ) :
    ((mmPageFree g pa).1 = g ∧ (mmPageFree g pa).2 ≠ .ok ∧ mmPageIsAllocated g pa = false) ∨
    ((mmPageFree g pa).2 = .ok ∧ PmmOk (mmPageFree g pa).1 ∧ SameRegion g (mmPageFree g pa).1 ∧
      ∃ idx < g.totalPages, pa = g.ramBase + idx * pageSize ∧ bmTest g.bitmap idx = true ∧
        ∀ j, bmTest (mmPageFree g pa).1.bitmap j = (bmTest g.bitmap j && decide (j ≠ idx))) := by
  unfold mmPageFree mmPageIsAllocated
  by_cases ha : paAligned pa
  swap
  · left
    simp [ha]
  by_cases hr : g.paInRange pa
  swap
  · left
    simp [ha, hr]
  obtain ⟨idx, hi, hpa, hidx⟩ := h.page_of_pa ha hr
  simp only [ha, hr, not_true, if_false, or_self, hidx]
  cases hb : bmTest g.bitmap idx with
  | false =>
    left
    simp
  | true =>
    right
    have hreg := Pmm.lowerHint_region (g.release idx) idx
    simp only [not_true, if_false]
    refine ⟨trivial, (h.release hi hb).lowerHint hi, ⟨hreg.1, hreg.2, hreg.3, hreg.4, hreg.5⟩,
      idx, hi, hpa, hb, fun j => ?_⟩
    rw [Pmm.lowerHint_bitmap]
    exact bmTest_bmClear (h.word_of_lt hi) j

/-- The loop of `mm_page_free_n` frees the pages in order, up to the first free one. -/
theorem freeLoop_spec {idx : ℕ} (k : ℕ) : ∀ {g : Pmm} {i : ℕ}, PmmOk g →
    idx + i + k ≤ g.totalPages →
    ∃ c ≤ k, PmmOk (g.freeLoop (g.ramBase + idx * pageSize) i k).1 ∧
      SameRegion g (g.freeLoop (g.ramBase + idx * pageSize) i k).1 ∧
      (∀ j, idx + i ≤ j → j < idx + i + c → bmTest g.bitmap j = true) ∧
      (c < k → bmTest g.bitmap (idx + i + c) = false) ∧
      ∀ j, bmTest (g.freeLoop (g.ramBase + idx * pageSize) i k).1.bitmap j =
        (bmTest g.bitmap j && decide (¬ (idx + i ≤ j ∧ j < idx + i + c))) := by
  induction k with
  | zero =>
    intro g i h _
    exact ⟨0, le_refl 0, h, .refl g, fun j h1 h2 => absurd h2 (by omega),
      fun hc => absurd hc (by omega),
      fun j => by
        have : ¬ (idx + i ≤ j ∧ j < idx + i + 0) := by omega
        simp only [Pmm.freeLoop, this, not_false_eq_true, decide_true, Bool.and_true]⟩
  | succ k ih =>
    intro g i h hfit
    have hlt : idx + i < g.totalPages := by omega
    have hpa : u32 (g.ramBase + idx * pageSize + u32 (i * pageSize)) =
        g.ramBase + (idx + i) * pageSize := by
      have h1 := h.ramEnd
      have h2 := h.ramEnd_lt
      unfold u32 pageSize at *
      omega
    simp only [Pmm.freeLoop, hpa, h.paToIdx hlt]
    cases hb : bmTest g.bitmap (idx + i) with
    | false =>
      refine ⟨0, by omega, ?_⟩
      simp only [Bool.false_eq_true, not_false_eq_true, if_true]
      refine ⟨h, .refl g, fun j h1 h2 => absurd h2 (by omega), fun _ => hb, fun j => ?_⟩
      simp
    | true =>
      have hrel := h.release hlt hb
      have hcl := bmTest_bmClear (h.word_of_lt hlt)
      obtain ⟨c, hc, hok, hsame, hset, hstop, hbits⟩ :=
        ih (i := i + 1) hrel (show idx + (i + 1) + k ≤ g.totalPages by omega)
      simp only [not_true, if_false]
      refine ⟨c + 1, by omega, hok, ⟨hsame.1, hsame.2, hsame.3, hsame.4, hsame.5⟩,
        fun j h1 h2 => ?_, fun hck => ?_, fun j => ?_⟩
      · by_cases hj : j = idx + i
        · rw [hj, hb]
        · have := hset j (by omega) (by omega)
          simp only [Pmm.release, hcl, hj, ne_eq, not_false_eq_true, decide_true,
            Bool.and_true] at this
          exact this
      · have := hstop (by omega)
        have hne : idx + (i + 1) + c ≠ idx + i := by omega
        simp only [Pmm.release, hcl, hne, ne_eq, not_false_eq_true, decide_true,
          Bool.and_true] at this
        rw [show idx + i + (c + 1) = idx + (i + 1) + c by omega]
        exact this
      · have := hbits j
        simp only [Pmm.release] at this ⊢
        rw [this, hcl, Bool.and_assoc, ← Bool.decide_and]
        congr 2
        apply propext
        omega

end Operations

end Leg
