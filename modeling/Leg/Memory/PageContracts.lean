import Leg.Memory.PageSearch

/-! What contiguous allocations deliver, against what `alloc.h` promises of them, in every state
the allocator's calls can reach. The searches align an index where the header promises an
aligned address, round the hint past the end of RAM, and stop short of runs across the hint. -/
namespace Leg
open Runs

/-- A free run of `n` pages of RAM that starts at a multiple of `a`. -/
def HasRun (g : Pmm) (n a : ℕ) : Prop :=
  ∃ idx, a ∣ idx ∧ idx + n ≤ g.totalPages ∧ FreeRun g.bitmap idx n

/-- The search ends at physical address 0, which its caller takes for a failure. -/
def PageZero (g : Pmm) (n a : ℕ) : Prop :=
  g.ramBase = 0 ∧ Searched g n a 0 ∧
    (g.nextHint = 0 ∨ ∀ idx, Searched g n a idx → idx + n ≤ g.hintAligned a)

/-- The promise of an aligned allocation with result `r`. -/
def AlignedContract (g : Pmm) (n a : ℕ) (r : Pmm × ℕ) : Prop :=
  r.2 ≠ 0 → r.2 % (a * pageSize) = 0 ∧ g.ramBase ≤ r.2 ∧ r.2 + n * pageSize ≤ g.ramEnd ∧
    Taken g r.1 r.2 n ∧ r.1.freePages + n = g.freePages

/-- When an aligned allocation keeps its promise. -/
def AlignedWhen (g : Pmm) (n a : ℕ) : Prop :=
  g.freePages < n ∨ (∀ idx, ¬ Searched g n a idx) ∨ PageZero g n a ∨
    (g.ramBase % (a * pageSize) = 0 ∧ ∃ idx, Searched g n a idx ∧ idx + n ≤ g.totalPages)

/-- A null result means that no run was there. -/
def Complete (g : Pmm) (n a : ℕ) (r : Pmm × ℕ) : Prop := r.2 = 0 → ¬ HasRun g n a

/-- When a null result means it: the counter allows the request, some free run lies where a pass
looks, and the first one is not at address 0. -/
def CompleteWhen (g : Pmm) (n a : ℕ) : Prop :=
  HasRun g n a → n ≤ g.freePages ∧ (∃ idx, Searched g n a idx) ∧ ¬ PageZero g n a

section Outcome
variable {g : Pmm} {n a : ℕ} {found : Option ℕ}

/-- The found run is at page 0 exactly when page 0 has a free run and either the hint is there
or no run lies above. -/
theorem found_zero_iff (h : PmmShape g) (hn : 0 < n) (ha : 0 < a) (hat : a ≤ g.totalPages)
    (hf : FirstFound (Searched g n a) (g.hintAligned a) found) : found = some 0 ↔
      Searched g n a 0 ∧
        (g.nextHint = 0 ∨ ∀ idx, Searched g n a idx → idx + n ≤ g.hintAligned a) := by
  obtain ⟨hdvd, -, hiff⟩ := hintAligned_spec h ha hat
  constructor
  · intro h0
    refine ⟨hf.sound 0 h0, ?_⟩
    by_contra hno
    obtain ⟨hpos, idx, hs, hend⟩ : g.nextHint ≠ 0 ∧ ∃ idx, Searched g n a idx ∧
        ¬ idx + n ≤ g.hintAligned a := by
      simpa using hno
    have habove : g.hintAligned a ≤ idx := by
      obtain ⟨h1, -, ⟨h2, -⟩ | h2⟩ := id hs
      · exact (hiff idx h1).mp h2
      · exact absurd h2 hend
    obtain ⟨t, ht, hlo, -⟩ := hf.upper idx hs habove
    have ht0 : t = 0 := by simpa [h0] using ht.symm
    exact hpos (Nat.le_zero.mp ((hiff 0 (dvd_zero a)).mpr (ht0 ▸ hlo)))
  · rintro ⟨hs, hcase⟩
    obtain ⟨t, ht, hle | hle⟩ := hf.complete 0 hs
    · rw [ht, Nat.le_zero.mp hle]
    rcases hcase with h0 | hall
    · obtain ⟨t', ht', -, hle'⟩ := hf.upper 0 hs ((hiff 0 (dvd_zero a)).mp (by omega))
      rw [ht', Nat.le_zero.mp hle']
    · have := hall t (hf.sound t ht)
      omega

theorem outcome_pa (h : PmmShape g) (hn : 0 < n) (ha : 0 < a) (hat : a ≤ g.totalPages) {idx : ℕ}
    (hs : Searched g n a idx) : (g.outcome n (some idx)).2 = g.ramBase + idx * pageSize :=
  h.region.idxToPa (hs.lt_total h ha hat hn)

theorem outcome_zero_iff (h : PmmShape g) (hn : 0 < n) (ha : 0 < a) (hat : a ≤ g.totalPages)
    (hf : FirstFound (Searched g n a) (g.hintAligned a) found) :
    (g.outcome n found).2 = 0 ↔ (∀ idx, ¬ Searched g n a idx) ∨ PageZero g n a := by
  unfold PageZero
  rw [← found_zero_iff h hn ha hat hf]
  cases found with
  | none =>
    refine ⟨fun _ => .inl fun idx hs => ?_, fun _ => rfl⟩
    obtain ⟨t, ht, -⟩ := hf.complete idx hs
    exact absurd ht (by simp)
  | some t =>
    have hs := hf.sound t rfl
    rw [outcome_pa h hn ha hat hs, Option.some.injEq]
    unfold pageSize
    constructor
    · intro h0
      exact .inr (by omega)
    · rintro (hno | h0)
      · exact absurd hs (hno t)
      · omega

theorem aligned_add_iff {base t : ℕ} (ht : a ∣ t) :
    (base + t * pageSize) % (a * pageSize) = 0 ↔ base % (a * pageSize) = 0 := by
  obtain ⟨q, rfl⟩ := ht
  rw [show base + a * q * pageSize = base + a * pageSize * q by ring, Nat.add_mul_mod_self_left]

theorem outcome_contract_iff (h : PmmShape g) (hn : 0 < n) (ha : 0 < a) (hat : a ≤ g.totalPages)
    (hfree : n ≤ g.freePages) (hf : FirstFound (Searched g n a) (g.hintAligned a) found) :
    AlignedContract g n a (g.outcome n found) ↔ AlignedWhen g n a := by
  by_cases hz : (g.outcome n found).2 = 0
  · have hwhen : AlignedWhen g n a :=
      ((outcome_zero_iff h hn ha hat hf).mp hz).elim (fun hno => .inr (.inl hno))
        fun h0 => .inr (.inr (.inl h0))
    exact ⟨fun _ => hwhen, fun _ hne => absurd hz hne⟩
  cases found with
  | none => exact absurd rfl hz
  | some t =>
    have hs := hf.sound t rfl
    have hend := h.region.ramEnd
    have hnull := (outcome_zero_iff h hn ha hat hf).not.mp hz
    rw [not_or] at hnull
    unfold AlignedContract
    rw [outcome_pa h hn ha hat hs] at hz ⊢
    constructor
    · intro hc
      obtain ⟨hmod, -, hin, -⟩ := hc hz
      refine .inr (.inr (.inr ⟨(aligned_add_iff hs.1).mp hmod, t, hs, ?_⟩))
      unfold pageSize at *
      omega
    · rintro (hlt | hno | h0 | ⟨hbase, s, hss, hin⟩) -
      · omega
      · exact absurd hno hnull.1
      · exact absurd h0 hnull.2
      -- the run found lies no higher than `s`, or at or above the hint
      have hfit : t + n ≤ g.totalPages := by
        obtain ⟨t', ht', hle | hle⟩ := hf.complete s hss
        all_goals cases ht'
        · omega
        · exact hs.inside hn hle
      refine ⟨(aligned_add_iff hs.1).mpr hbase, Nat.le_add_right _ _, ?_, ?_,
        Nat.sub_add_cancel hfree⟩
      · unfold pageSize at *
        omega
      · exact ⟨⟨rfl, rfl, rfl, rfl, rfl⟩, t, rfl, hfit, hs.2.1, fun j => bmTest_bmSetRun _ _ _ _⟩

theorem outcome_complete_iff (h : PmmShape g) (hn : 0 < n) (ha : 0 < a) (hat : a ≤ g.totalPages)
    (hfree : n ≤ g.freePages) (hf : FirstFound (Searched g n a) (g.hintAligned a) found) :
    Complete g n a (g.outcome n found) ↔ CompleteWhen g n a := by
  unfold Complete CompleteWhen
  rw [outcome_zero_iff h hn ha hat hf]
  constructor
  · intro hc hrun
    refine ⟨hfree, ?_, fun h0 => hc (.inr h0) hrun⟩
    by_contra hno
    exact hc (.inl fun idx hs => hno ⟨idx, hs⟩) hrun
  · rintro hw (hno | h0) hrun
    · obtain ⟨-, ⟨idx, hs⟩, -⟩ := hw hrun
      exact hno idx hs
    · exact (hw hrun).2.2 h0

theorem complete_of_lt (hfree : g.freePages < n) :
    Complete g n a (g, 0) ↔ CompleteWhen g n a := by
  unfold Complete CompleteWhen
  constructor
  · exact fun hc hrun => absurd hrun (hc rfl)
  · intro hw _ hrun
    have := (hw hrun).1
    omega

end Outcome

section Results
variable {g : Pmm}

/-- In every reachable state an aligned allocation returns, and keeps the promise of `alloc.h`
exactly when it finds nothing, or RAM starts at a multiple of the alignment and a run that a
pass comes across lies inside RAM. -/
theorem mmPageAllocAligned_contract_iff (hg : PmmReachable g) {n a : ℕ} (hn : 0 < n) (ha : 0 < a)
    (hat : a ≤ g.totalPages) : ∃ r, mmPageAllocAligned g n a = some r ∧
      (AlignedContract g n a r ↔ AlignedWhen g n a) := by
  have h := hg.shape
  by_cases hfree : n ≤ g.freePages
  · obtain ⟨found, heq, hf⟩ := mmPageAllocAligned_outcome h hn ha hat hfree
    exact ⟨_, heq, outcome_contract_iff h hn ha hat hfree hf⟩
  · refine ⟨(g, 0), ?_, fun _ => .inl (by omega), fun _ hne => absurd rfl hne⟩
    unfold mmPageAllocAligned
    rw [if_neg (by omega), if_pos (by omega)]

/-- On eight pages of RAM two pages at a multiple of two: the hint is at page 1, and pages 2
and 3 are free. -/
theorem mmPageAllocAligned_contract_two : ∃ g, PmmReachable g ∧ ∃ r,
    mmPageAllocAligned g 2 2 = some r ∧ AlignedContract g 2 2 r := by
  obtain ⟨g, hg, ht, hbase, hhint, h2, h3⟩ :=
    exists_reachable 0x40000000 0x8000 [.alloc, .free 0x40001000]
    (fun g => g.totalPages = 8 ∧ g.ramBase = 0x40000000 ∧ g.nextHint = 1 ∧
      bmTest g.bitmap 2 = false ∧ bmTest g.bitmap 3 = false) (by decide +kernel)
  obtain ⟨r, hr, hiff⟩ := mmPageAllocAligned_contract_iff hg (n := 2) (a := 2) (by decide)
    (by decide) (by omega)
  refine ⟨g, hg, r, hr, hiff.mpr (.inr (.inr (.inr ⟨by rw [hbase]; decide, 2, ?_, by omega⟩)))⟩
  refine ⟨dvd_refl 2, fun j hj hj' => ?_, .inl (by omega)⟩
  obtain rfl | rfl : j = 2 ∨ j = 3 := by omega
  · exact h2
  · exact h3

/-- Two pages at a multiple of two pages, from RAM that starts at `0x40001000`: the index is
even, the address `0x40003000` is not aligned. And seven pages at a multiple of eight, from
fourteen pages of RAM: with the hint at page 9 a pass looks up to index 16 and hands out pages
8 to 14. -/
theorem aligned_contract_fails :
    (∃ g, PmmReachable g ∧ 2 ≤ g.totalPages ∧
      ∃ r, mmPageAllocAligned g 2 2 = some r ∧ ¬ AlignedContract g 2 2 r) ∧
    ∃ g, PmmReachable g ∧ 8 ≤ g.totalPages ∧
      ∃ r, mmPageAllocAligned g 7 8 = some r ∧ ¬ AlignedContract g 7 8 r := by
  constructor
  · obtain ⟨g, hg, ht, hr⟩ := exists_reachable 0x40001000 0x8000 []
      (fun g => 2 ≤ g.totalPages ∧ (mmPageAllocAligned g 2 2).any fun r =>
        decide (r.2 ≠ 0 ∧ r.2 % (2 * pageSize) ≠ 0)) (by decide +kernel)
    obtain ⟨r, hr, hb⟩ := (Option.any_eq_true _ _).mp hr
    obtain ⟨h0, hmod⟩ := of_decide_eq_true hb
    exact ⟨g, hg, ht, r, hr, fun hc => hmod (hc h0).1⟩
  · obtain ⟨g, hg, ht, hr⟩ := exists_reachable 0x40000000 0xE000
      [.allocN 7, .alloc, .alloc, .free 0x40003000, .free 0x40008000, .allocN 2,
        .free 0x40009000, .free 0x4000A000, .free 0x4000B000]
      (fun g => 8 ≤ g.totalPages ∧ (mmPageAllocAligned g 7 8).any fun r =>
        decide (r.2 ≠ 0 ∧ g.ramEnd < r.2 + 7 * pageSize)) (by decide +kernel)
    obtain ⟨r, hr, hb⟩ := (Option.any_eq_true _ _).mp hr
    obtain ⟨h0, hend⟩ := of_decide_eq_true hb
    refine ⟨g, hg, ht, r, hr, fun hc => ?_⟩
    have := (hc h0).2.2.1
    omega

/-- In every reachable state a null result of a contiguous allocation means that RAM has no such
free run exactly when, if it has one, the counter allows it, a pass comes across one, and the
first it comes across is not at address 0. -/
theorem contiguous_complete_iff (hg : PmmReachable g) {n : ℕ} (hn : 0 < n) :
    (Complete g n 1 (mmPageAllocN g n) ↔ CompleteWhen g n 1) ∧
    ∀ a, 0 < a → a ≤ g.totalPages → ∃ r, mmPageAllocAligned g n a = some r ∧
      (Complete g n a r ↔ CompleteWhen g n a) := by
  have h := hg.shape
  have hpos := h.region.pages_pos
  by_cases hfree : n ≤ g.freePages
  · refine ⟨?_, fun a ha hat => ?_⟩
    · obtain ⟨found, heq, hf⟩ := mmPageAllocN_outcome h hn hfree
      rw [heq]
      exact outcome_complete_iff h hn one_pos hpos hfree hf
    · obtain ⟨found, heq, hf⟩ := mmPageAllocAligned_outcome h hn ha hat hfree
      exact ⟨_, heq, outcome_complete_iff h hn ha hat hfree hf⟩
  · rw [Nat.not_le] at hfree
    refine ⟨?_, fun a ha hat => ⟨(g, 0), ?_, complete_of_lt hfree⟩⟩
    · have : mmPageAllocN g n = (g, 0) := by
        unfold mmPageAllocN
        rw [if_neg (by omega), if_pos hfree]
      rw [this]
      exact complete_of_lt hfree
    · unfold mmPageAllocAligned
      rw [if_neg (by omega), if_pos hfree]

/-- Six pages of RAM, the first reserved: with pages 3 and 4 taken and page 2 given back last,
pages 1 and 2 are free on either side of the hint, and two contiguous pages are refused. -/
theorem contiguous_complete_fails : ∃ g, PmmReachable g ∧ 2 ≤ g.totalPages ∧
    ¬ Complete g 2 1 (mmPageAllocN g 2) ∧
    ∃ r, mmPageAllocAligned g 2 1 = some r ∧ ¬ Complete g 2 1 r := by
  obtain ⟨g, hg, ht, h0, hr, h1, h2⟩ := exists_reachable 0x40000000 0x6000
    [.alloc, .alloc, .free 0x40001000, .allocN 2, .free 0x40002000]
    (fun g => 2 < g.totalPages ∧ (mmPageAllocN g 2).2 = 0 ∧
      ((mmPageAllocAligned g 2 1).any fun r => decide (r.2 = 0)) ∧
      bmTest g.bitmap 1 = false ∧ bmTest g.bitmap 2 = false) (by decide +kernel)
  obtain ⟨r, hr, hb⟩ := (Option.any_eq_true _ _).mp hr
  have hrun : HasRun g 2 1 := by
    refine ⟨1, one_dvd 1, by omega, fun j hj hj' => ?_⟩
    obtain rfl | rfl : j = 1 ∨ j = 2 := by omega
    · exact h1
    · exact h2
  exact ⟨g, hg, by omega, fun hc => hc h0 hrun, r, hr, fun hc => hc (of_decide_eq_true hb) hrun⟩

/-- On the eight pages of before, a null result for two pages means what it says. -/
theorem contiguous_complete_two : ∃ g, PmmReachable g ∧
    Complete g 2 1 (mmPageAllocN g 2) ∧
    ∃ r, mmPageAllocAligned g 2 2 = some r ∧ Complete g 2 2 r := by
  obtain ⟨g, hg, ht, hbase, hhint, hfree, h2, h3⟩ := exists_reachable 0x40000000 0x8000
    [.alloc, .free 0x40001000]
    (fun g => g.totalPages = 8 ∧ g.ramBase = 0x40000000 ∧ g.nextHint = 1 ∧ 2 ≤ g.freePages ∧
      bmTest g.bitmap 2 = false ∧ bmTest g.bitmap 3 = false) (by decide +kernel)
  have hrun : FreeRun g.bitmap 2 2 := by
    intro j hj hj'
    obtain rfl | rfl : j = 2 ∨ j = 3 := by omega
    · exact h2
    · exact h3
  have hwhen (a : ℕ) (ha : a ∣ 2) : CompleteWhen g 2 a := fun _ =>
    ⟨hfree, ⟨2, ha, hrun, .inl (by omega)⟩, fun h0 => by have := h0.1; omega⟩
  obtain ⟨hall, hal⟩ := contiguous_complete_iff hg (n := 2) (by decide)
  obtain ⟨r, hr, hiff⟩ := hal 2 (by decide) (by omega)
  exact ⟨g, hg, hall.mpr (hwhen 1 (by decide)), r, hr, hiff.mpr (hwhen 2 (by decide))⟩

end Results

end Leg
