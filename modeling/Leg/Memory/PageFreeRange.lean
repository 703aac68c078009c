import Leg.Memory.PageCalls

/-! A multi-page free in every state the allocator's calls can reach. It checks the range of its
first page only and clears as it goes, so it is all or nothing only where it fails at once or
not at all. -/
namespace Leg
open Runs

/-- The bits `mm_page_free_n`'s loop tests, in order; those it finds set it also clears. -/
def Pmm.freeTouched (g : Pmm) (pa i : ℕ) : ℕ → List ℕ
  | 0 => []
  | k + 1 =>
    let idx := g.paToIdx (u32 (pa + u32 (i * pageSize)))
    idx :: if ¬ bmTest g.bitmap idx then [] else (g.release idx).freeTouched pa (i + 1) k

/-- The bits `mm_page_free_n` reads or writes. -/
def mmPageFreeNTouched (g : Pmm) (pa n : ℕ) : List ℕ :=
  if ¬ paAligned pa then [] else if ¬ g.paInRange pa then [] else g.freeTouched pa 0 n

/-- What a multi-page free with result `r` owes its caller: all of the pages or none, and no
word behind the bitmap. -/
structure FreeNContract (g : Pmm) (pa n : ℕ) (r : Pmm × MmErr) : Prop where
  done : r.2 = .ok → SameRegion g r.1 ∧ r.1.freePages = g.freePages + n ∧
    (∀ i < n, g.paInRange (pa + i * pageSize)) ∧
    (∀ i < n, bmTest g.bitmap (g.paToIdx pa + i) = true) ∧
    ∀ j, bmTest r.1.bitmap j =
      (bmTest g.bitmap j && !decide (g.paToIdx pa ≤ j ∧ j < g.paToIdx pa + n))
  failed : r.2 ≠ .ok → r.1 = g
  inside : ∀ i ∈ mmPageFreeNTouched g pa n, i / bmBits < g.bitmapWords

/-- When it keeps to that: it fails at once, has nothing to do, or all pages are allocated
pages of RAM. -/
def FreeNWhen (g : Pmm) (pa n : ℕ) : Prop :=
  ¬ paAligned pa ∨ ¬ g.paInRange pa ∨ n = 0 ∨ bmTest g.bitmap (g.paToIdx pa) = false ∨
    (g.paToIdx pa + n ≤ g.totalPages ∧ ∀ i < n, bmTest g.bitmap (g.paToIdx pa + i) = true)

section Loop
variable {g : Pmm}

theorem loop_idx (h : PmmRegion g) {idx i : ℕ} (hi : idx + i < g.totalPages) :
    g.paToIdx (u32 (g.ramBase + idx * pageSize + u32 (i * pageSize))) = idx + i := by
  have h1 := h.ramEnd
  have h2 := h.ramEnd_lt
  have hpa : u32 (g.ramBase + idx * pageSize + u32 (i * pageSize)) =
      g.ramBase + (idx + i) * pageSize := by
    unfold pageSize at *
    rw [u32_of_lt (by omega : i * 4096 < 4294967296), u32_of_lt (by omega)]
    omega
  rw [hpa, h.paToIdx hi]

/-- A range of allocated pages is cleared to its end, without leaving the bitmap. -/
theorem freeLoop_all (h : PmmShape g) {idx i k : ℕ} (hfit : idx + i + k ≤ g.totalPages)
    (hset : ∀ j, idx + i ≤ j → j < idx + i + k → bmTest g.bitmap j = true) :
    (g.freeLoop (g.ramBase + idx * pageSize) i k).2 = .ok ∧
      SameRegion g (g.freeLoop (g.ramBase + idx * pageSize) i k).1 ∧
      (g.freeLoop (g.ramBase + idx * pageSize) i k).1.freePages = g.freePages + k ∧
      (∀ j, bmTest (g.freeLoop (g.ramBase + idx * pageSize) i k).1.bitmap j =
        (bmTest g.bitmap j && !decide (idx + i ≤ j ∧ j < idx + i + k))) ∧
      ∀ b ∈ g.freeTouched (g.ramBase + idx * pageSize) i k, b < g.totalPages := by
  induction k generalizing g i with
  | zero =>
    refine ⟨rfl, .refl g, rfl, fun j => ?_, by simp [Pmm.freeTouched]⟩
    have : ¬ (idx + i ≤ j ∧ j < idx + i + 0) := by omega
    rw [Pmm.freeLoop, decide_eq_false this, Bool.not_false, Bool.and_true]
  | succ k ih =>
    have hlt : idx + i < g.totalPages := by omega
    have hb := hset (idx + i) (le_refl _) (by omega)
    have hcl := bmTest_bmClear (h.word_lt ((idx + i) / bmBits))
    have ht := h.region.total_lt
    have hrel := h.release (show idx + i < allPages from hlt.trans ht) hb
    obtain ⟨h1, h2, h3, h4, h5⟩ := ih hrel (i := i + 1)
      (show idx + (i + 1) + k ≤ g.totalPages by omega) fun j hj hj' => by
        have hne : j ≠ idx + i := by omega
        have := hset j (by omega) (by omega)
        simp [Pmm.release, hcl, this, hne]
    rw [Pmm.freeLoop, Pmm.freeTouched]
    simp only [loop_idx h.region hlt, hb, not_true, if_false]
    refine ⟨h1, (g.release_region _).trans h2, h3.trans ?_, fun j => ?_, ?_⟩
    · simp only [Pmm.release]
      omega
    · rw [show (g.release (idx + i)).ramBase = g.ramBase from rfl] at h4
      rw [h4 j]
      simp only [Pmm.release, hcl, Bool.and_assoc, ← decide_not, ← Bool.decide_and]
      congr 2
      apply propext
      omega
    · intro b hb'
      rcases List.mem_cons.mp hb' with rfl | hb'
      · exact hlt
      · exact h5 b hb'

theorem freeLoop_mono (hw : ∀ w, g.bitmap w < 2 ^ 32) {pa i k j : ℕ}
    (hj : bmTest (g.freeLoop pa i k).1.bitmap j = true) : bmTest g.bitmap j = true := by
  induction k generalizing g i with
  | zero => exact hj
  | succ k ih =>
    rw [Pmm.freeLoop] at hj
    split at hj
    next => exact hj
    next hb =>
      have := ih (bmClear_word_lt hw _) hj
      rw [show (g.release _).bitmap = bmClear g.bitmap _ from rfl, bmTest_bmClear (hw _)] at this
      exact (Bool.and_eq_true_iff.mp this).1

theorem freeLoop_first (hw : ∀ w, g.bitmap w < 2 ^ 32) {pa k : ℕ} (hpa : pa < 4294967296)
    (hb : bmTest g.bitmap (g.paToIdx pa) = true) :
    bmTest (g.freeLoop pa 0 (k + 1)).1.bitmap (g.paToIdx pa) = false := by
  have hu : u32 (pa + u32 (0 * pageSize)) = pa := by
    rw [Nat.zero_mul, u32_of_lt (by decide : 0 < 4294967296), Nat.add_zero, u32_of_lt hpa]
  rw [Pmm.freeLoop, hu]
  simp only [hb, not_true, if_false]
  by_contra hset
  have := freeLoop_mono (bmClear_word_lt hw _) (by simpa using hset)
  rw [show (g.release (g.paToIdx pa)).bitmap = bmClear g.bitmap (g.paToIdx pa) from rfl,
    bmTest_bmClear (hw _)] at this
  simp at this

end Loop

section Contract
variable {g : Pmm} {pa n : ℕ}

theorem mmPageFreeN_checked (ha : paAligned pa) (hr : g.paInRange pa) :
    mmPageFreeN g pa n = (if (g.freeLoop pa 0 n).2 = .ok then
        ((g.freeLoop pa 0 n).1.lowerHint (g.paToIdx pa), .ok) else g.freeLoop pa 0 n) ∧
      mmPageFreeNTouched g pa n = g.freeTouched pa 0 n := by
  unfold mmPageFreeN mmPageFreeNTouched
  simp only [ha, hr, not_true, if_false, and_true]

theorem freeN_refused (h : ¬ paAligned pa ∨ ¬ g.paInRange pa) :
    FreeNContract g pa n (mmPageFreeN g pa n) := by
  have hres : (mmPageFreeN g pa n).1 = g ∧ (mmPageFreeN g pa n).2 ≠ .ok ∧
      mmPageFreeNTouched g pa n = [] := by
    unfold mmPageFreeN mmPageFreeNTouched
    by_cases ha : paAligned pa
    · have hr := h.resolve_left (not_not.mpr ha)
      simp [ha, hr]
    · simp [ha]
  obtain ⟨h1, h2, h3⟩ := hres
  exact ⟨fun hok => absurd hok h2, fun _ => h1, by rw [h3]; simp⟩

@[simp] theorem Pmm.lowerHint_freePages (g : Pmm) (idx : ℕ) :
    (g.lowerHint idx).freePages = g.freePages := by
  unfold Pmm.lowerHint
  split <;> rfl

/-- Allocated pages of RAM are freed one and all; so is the empty range. -/
theorem freeN_all (h : PmmShape g) (ha : paAligned pa) (hr : g.paInRange pa)
    (hfit : g.paToIdx pa + n ≤ g.totalPages)
    (hset : ∀ i < n, bmTest g.bitmap (g.paToIdx pa + i) = true) :
    FreeNContract g pa n (mmPageFreeN g pa n) := by
  obtain ⟨idx, hi, hpa, hidx⟩ := h.region.page_of_pa ha hr
  obtain ⟨heq, htouched⟩ := mmPageFreeN_checked (n := n) ha hr
  rw [hidx] at hfit hset heq
  obtain ⟨h1, h2, h3, h4, h5⟩ := freeLoop_all h
    (show idx + 0 + n ≤ g.totalPages by omega) fun j hj hj' => by
      have := hset (j - idx) (by omega)
      rwa [Nat.add_sub_cancel' (by omega : idx ≤ j)] at this
  rw [← hpa] at h1 h2 h3 h4 h5
  rw [if_pos h1] at heq
  rw [heq]
  refine ⟨fun _ => ⟨h2.trans (Pmm.lowerHint_region _ _), ?_, fun i hin => ?_, ?_, fun j => ?_⟩,
    fun hne => absurd rfl hne, fun b hb => ?_⟩
  · rw [Pmm.lowerHint_freePages, h3]
  · have := h.region.ramEnd
    unfold Pmm.paInRange pageSize at *
    omega
  · rw [hidx]
    exact hset
  · rw [Pmm.lowerHint_bitmap, h4, hidx, Nat.add_zero]
  · rw [htouched] at hb
    exact h.region.word_lt (h5 b hb)

/-- A range whose first page is free is refused as a double free. -/
theorem freeN_first_free (h : PmmShape g) (ha : paAligned pa) (hr : g.paInRange pa) (hn : n ≠ 0)
    (hfree : bmTest g.bitmap (g.paToIdx pa) = false) :
    FreeNContract g pa n (mmPageFreeN g pa n) := by
  obtain ⟨idx, hi, hpa, hidx⟩ := h.region.page_of_pa ha hr
  obtain ⟨heq, htouched⟩ := mmPageFreeN_checked (n := n) ha hr
  obtain ⟨k, rfl⟩ := Nat.exists_eq_succ_of_ne_zero hn
  have h0 : g.paToIdx (u32 (pa + u32 (0 * pageSize))) = idx := by
    rw [hpa]
    exact loop_idx h.region (by omega)
  rw [hidx] at hfree
  have hloop : g.freeLoop pa 0 (k + 1) = (g, .free) := by
    rw [Pmm.freeLoop, h0]
    simp [hfree]
  have htl : g.freeTouched pa 0 (k + 1) = [idx] := by
    rw [Pmm.freeTouched, h0]
    simp [hfree]
  have hne : MmErr.free ≠ .ok := by decide
  rw [hloop, if_neg hne] at heq
  rw [heq]
  refine ⟨fun hok => absurd hok hne, fun _ => rfl, fun b hb => ?_⟩
  rw [htouched, htl, List.mem_singleton] at hb
  exact hb ▸ h.region.word_lt hi

/-- In every reachable state a multi-page free is all or nothing exactly when it fails at once,
has nothing to do, or names allocated pages of RAM throughout. -/
theorem mmPageFreeN_contract_iff (hg : PmmReachable g) (pa n : ℕ) :
    FreeNContract g pa n (mmPageFreeN g pa n) ↔ FreeNWhen g pa n := by
  have h := hg.shape
  by_cases ha : paAligned pa
  swap
  · exact ⟨fun _ => .inl ha, fun _ => freeN_refused (.inl ha)⟩
  by_cases hr : g.paInRange pa
  swap
  · exact ⟨fun _ => .inr (.inl hr), fun _ => freeN_refused (.inr hr)⟩
  obtain ⟨idx, hi, hpa, hidx⟩ := h.region.page_of_pa ha hr
  constructor
  · intro hc
    by_cases hn : n = 0
    · exact .inr (.inr (.inl hn))
    cases hb : bmTest g.bitmap (g.paToIdx pa) with
    | false => exact .inr (.inr (.inr (.inl hb)))
    | true =>
      refine .inr (.inr (.inr (.inr ?_)))
      by_cases hok : (mmPageFreeN g pa n).2 = .ok
      · obtain ⟨-, -, hin, hset, -⟩ := hc.done hok
        have := hin (n - 1) (by omega)
        have hend := h.region.ramEnd
        refine ⟨?_, hset⟩
        unfold Pmm.paInRange pageSize at *
        omega
      · -- the first page's bit is clear by then, so the state has changed
        have hsame := hc.failed hok
        obtain ⟨heq, -⟩ := mmPageFreeN_checked (n := n) ha hr
        have hlt : pa < 4294967296 := by
          have h1 := hr.2
          have h2 := h.region.ramEnd_lt
          omega
        obtain ⟨k, rfl⟩ := Nat.exists_eq_succ_of_ne_zero hn
        have hfirst := freeLoop_first h.word_lt (k := k) hlt hb
        rw [heq] at hsame hok
        split at hok
        next => exact absurd rfl hok
        next hne =>
          rw [if_neg hne] at hsame
          rw [hsame, hb] at hfirst
          exact absurd hfirst (by decide)
  · rintro (hna | hnr | rfl | hfree | ⟨hfit, hset⟩)
    · exact absurd ha hna
    · exact absurd hr hnr
    · exact freeN_all h ha hr (by omega) (by simp)
    · by_cases hn : n = 0
      · exact freeN_all h ha hr (by omega) (by omega)
      · exact freeN_first_free h ha hr hn hfree
    · exact freeN_all h ha hr hfit hset

/-- On four pages of RAM, pages 1 and 2 allocated and page 3 free: a free of three pages from
page 1 frees two of them and fails. On thirty-two pages, all allocated: a free of two pages from
the last one reads the word behind the bitmap. -/
theorem mmPageFreeN_contract_fails :
    (∃ g, PmmReachable g ∧ ¬ FreeNContract g 0x40001000 3 (mmPageFreeN g 0x40001000 3)) ∧
    ∃ g, PmmReachable g ∧ ¬ FreeNContract g 0x4001F000 2 (mmPageFreeN g 0x4001F000 2) := by
  constructor
  · obtain ⟨g, hg, herr, hfree⟩ := exists_reachable 0x40000000 0x4000 [.allocN 2]
      (fun g => (mmPageFreeN g 0x40001000 3).2 = .free ∧
        (mmPageFreeN g 0x40001000 3).1.freePages = g.freePages + 2) (by decide +kernel)
    refine ⟨g, hg, fun hc => ?_⟩
    rw [hc.failed (by rw [herr]; decide)] at hfree
    omega
  · obtain ⟨g, hg, hmem⟩ := exists_reachable 0x40000000 0x20000 [.allocN 31]
      (fun g => (mmPageFreeNTouched g 0x4001F000 2).any fun i => g.bitmapWords ≤ i / bmBits)
      (by decide +kernel)
    refine ⟨g, hg, fun hc => ?_⟩
    obtain ⟨i, hi, hlt⟩ := List.any_eq_true.mp hmem
    have := hc.inside i hi
    have := of_decide_eq_true hlt
    omega

/-- On those four pages a free of the two allocated ones does all of its work. -/
theorem mmPageFreeN_contract_two : ∃ g, PmmReachable g ∧
    FreeNContract g 0x40001000 2 (mmPageFreeN g 0x40001000 2) := by
  obtain ⟨g, hg, hidx, ht, h1, h2⟩ := exists_reachable 0x40000000 0x4000 [.allocN 2]
    (fun g => g.paToIdx 0x40001000 = 1 ∧ g.totalPages = 4 ∧ bmTest g.bitmap 1 = true ∧
      bmTest g.bitmap 2 = true) (by decide +kernel)
  refine ⟨g, hg, (mmPageFreeN_contract_iff hg 0x40001000 2).mpr ?_⟩
  refine .inr (.inr (.inr (.inr ⟨by omega, fun i hi => ?_⟩)))
  rw [hidx]
  obtain rfl | rfl : i = 0 ∨ i = 1 := by omega
  · exact h1
  · exact h2

end Contract

end Leg
