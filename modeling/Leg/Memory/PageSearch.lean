import Leg.Memory.PageCalls

/-! What the two searches for contiguous pages come across. Both look first from the hint up
to the end of RAM and then below the hint, the aligned one from the hint rounded up. -/
namespace Leg
open Runs

/-- `n` clear bits from `idx` on. -/
def FreeRun (bm : ℕ → ℕ) (idx n : ℕ) : Prop := ∀ j, idx ≤ j → j < idx + n → bmTest bm j = false

/-- A free run the passes can come across: it starts at a multiple of `a`, and lies at or above
the hint inside RAM, or ends by the rounded hint. -/
def Searched (g : Pmm) (n a idx : ℕ) : Prop :=
  a ∣ idx ∧ FreeRun g.bitmap idx n ∧
    (g.nextHint ≤ idx ∧ idx + n ≤ g.totalPages ∨ idx + n ≤ g.hintAligned a)

section Pass
variable {bm : ℕ → ℕ} {n a fin : ℕ}

theorem runBits_eq {idx : ℕ} (h : idx + n ≤ 4294967296) :
    runBits idx n = (List.range n).map fun i => idx + i := by
  refine List.map_congr_left fun i hi => u32_of_lt ?_
  have := List.mem_range.mp hi
  omega

theorem runBits_all_iff {idx : ℕ} (h : idx + n ≤ 4294967296) :
    ((runBits idx n).all fun i => !bmTest bm i) = true ↔ FreeRun bm idx n := by
  simp only [runBits_eq h, List.all_map, List.all_eq_true, List.mem_range, Function.comp_apply,
    Bool.not_eq_true']
  constructor
  · intro hall j h1 h2
    have := hall (j - idx) (by omega)
    rwa [Nat.add_sub_cancel' h1] at this
  · exact fun hrun i hi => hrun (idx + i) (by omega) (by omega)

theorem runBits_foldl {idx : ℕ} (h : idx + n ≤ 4294967296) :
    (runBits idx n).foldl bmSet bm = bmSetRun bm idx n := by
  rw [runBits_eq h, List.foldl_map, bmSetRun]

/-- A pass that starts at a multiple of `a` returns, with the lowest candidate whose run is
free if there is one. -/
theorem alignedPass_spec {k idx : ℕ} (ha : 0 < a) (hn : 0 < n) (hw : fin + a + n < 4294967296)
    (hidx : idx ≤ fin + a) (hal : a ∣ idx) (hk : fin < idx + k) (hk0 : 0 < k) :
    ∃ found, alignedPass bm n a fin k idx = some found ∧
      (∀ s, found = some s → idx ≤ s ∧ s + n ≤ fin ∧ a ∣ s ∧ FreeRun bm s n) ∧
      ∀ s, idx ≤ s → s + n ≤ fin → a ∣ s → FreeRun bm s n → ∃ t ≤ s, found = some t := by
  induction k generalizing idx with
  | zero => exact absurd hk0 (lt_irrefl 0)
  | succ k ih =>
    rw [alignedPass, u32_of_lt (by omega : idx + n < 4294967296)]
    by_cases hfit : idx + n ≤ fin
    swap
    · rw [if_neg hfit]
      exact ⟨none, rfl, by simp, fun s h1 h2 => absurd h2 (by omega)⟩
    rw [if_pos hfit]
    by_cases hrun : FreeRun bm idx n
    · rw [if_pos ((runBits_all_iff (by omega)).mpr hrun)]
      exact ⟨some idx, rfl, by rintro s ⟨rfl⟩; exact ⟨le_refl _, hfit, hal, hrun⟩,
        fun s h1 _ _ _ => ⟨idx, h1, rfl⟩⟩
    · rw [if_neg (fun hall => hrun ((runBits_all_iff (by omega)).mp hall)),
        u32_of_lt (by omega : idx + a < 4294967296)]
      obtain ⟨found, h1, h2, h3⟩ := ih (show idx + a ≤ fin + a by omega)
        (Nat.dvd_add hal (dvd_refl a)) (by omega) (by omega)
      refine ⟨found, h1, fun s hs => ?_, fun s hs hfin hdvd hfree => ?_⟩
      · obtain ⟨h4, h5⟩ := h2 s hs
        exact ⟨by omega, h5⟩
      · -- the next multiple of `a` after `idx` is `idx + a`
        have hne : idx ≠ s := by
          rintro rfl
          exact hrun hfree
        have hstep : a ≤ s - idx := Nat.le_of_dvd (by omega) (Nat.dvd_sub hdvd hal)
        exact h3 s (by omega) hfin hdvd hfree

end Pass

section Hint
variable {g : Pmm} {a : ℕ}

theorem hintAligned_spec (h : PmmShape g) (ha : 0 < a) (hle : a ≤ g.totalPages) :
    a ∣ g.hintAligned a ∧ g.hintAligned a < g.nextHint + a ∧
      ∀ idx, a ∣ idx → (g.nextHint ≤ idx ↔ g.hintAligned a ≤ idx) := by
  have ht := h.region.total_lt
  have hh := h.hint
  have heq : g.hintAligned a = (g.nextHint + a - 1) / a * a := by
    unfold Pmm.hintAligned divRoundUp
    have hle' := Nat.div_mul_le_self (g.nextHint + a - 1) a
    rw [u32_of_lt (by omega : g.nextHint + a - 1 < 4294967296), u32_of_lt (by omega)]
  have hdm := Nat.div_add_mod (g.nextHint + a - 1) a
  have hmod := Nat.mod_lt (g.nextHint + a - 1) ha
  rw [Nat.mul_comm] at hdm
  rw [heq]
  refine ⟨Dvd.intro_left _ rfl, by omega, fun idx hidx => ⟨fun hle => ?_, fun hle => by omega⟩⟩
  obtain ⟨q, rfl⟩ := hidx
  rw [Nat.mul_comm a q]
  refine Nat.mul_le_mul_right a (Nat.le_of_lt_succ ?_)
  refine Nat.div_lt_of_lt_mul ?_
  rw [Nat.mul_succ]
  omega

@[simp] theorem hintAligned_one (h : PmmShape g) : g.hintAligned 1 = g.nextHint := by
  have ht := h.region.total_lt
  have hh := h.hint
  unfold Pmm.hintAligned divRoundUp
  rw [Nat.add_sub_cancel, Nat.div_one, Nat.mul_one, u32_of_lt (u32_lt _), u32_of_lt (by omega)]

end Hint

/-- What a search over the runs `P` that looks at or above `lo` first reports: one of them, the
lowest of those it looks at first, else the lowest of the others. -/
structure FirstFound (P : ℕ → Prop) (lo : ℕ) (found : Option ℕ) : Prop where
  sound : ∀ s, found = some s → P s
  complete : ∀ s, P s → ∃ t, found = some t ∧ (t ≤ s ∨ lo ≤ t)
  upper : ∀ s, P s → lo ≤ s → ∃ t, found = some t ∧ lo ≤ t ∧ t ≤ s

section Searches
variable {g : Pmm} {n a : ℕ}

theorem alignedSearch_spec (h : PmmShape g) (hn : 0 < n) (ha : 0 < a) (hnt : n ≤ allPages)
    (hat : a ≤ g.totalPages) : ∃ found, g.alignedSearch n a = some found ∧
      FirstFound (Searched g n a) (g.hintAligned a) found := by
  have ht := h.region.total_lt
  have hh := h.hint
  unfold allPages at hnt
  obtain ⟨hdvd, hlt, hiff⟩ := hintAligned_spec h ha hat
  obtain ⟨up, hup, hups, hupc⟩ := @alignedPass_spec g.bitmap n a g.totalPages 4294967296 _ ha hn
    (by omega) (by omega) hdvd (by omega) (by decide)
  have hsearched (s : ℕ) (hs : Searched g n a s) (hle : g.hintAligned a ≤ s) :
      s + n ≤ g.totalPages := by
    obtain ⟨-, -, ⟨-, h2⟩ | h2⟩ := hs
    · exact h2
    · omega
  unfold Pmm.alignedSearch
  rw [hup]
  cases up with
  | some idx =>
    obtain ⟨h1, h2, h3, h4⟩ := hups idx rfl
    refine ⟨some idx, rfl, ?_, fun s hs => ?_, fun s hs hle => ?_⟩
    · rintro s ⟨rfl⟩
      exact ⟨h3, h4, .inl ⟨(hiff idx h3).mpr h1, h2⟩⟩
    · exact ⟨idx, rfl, .inr h1⟩
    · obtain ⟨t, hts, ht⟩ := hupc s hle (hsearched s hs hle) hs.1 hs.2.1
      cases ht
      exact ⟨idx, rfl, h1, hts⟩
  | none =>
    obtain ⟨low, hlow, hlows, hlowc⟩ := @alignedPass_spec g.bitmap n a (g.hintAligned a)
      4294967296 _ ha hn (by omega) (Nat.zero_le _) (dvd_zero a) (by omega) (by decide)
    have hno (s : ℕ) (hs : Searched g n a s) : ¬ g.hintAligned a ≤ s := by
      intro hle
      obtain ⟨t, -, ht⟩ := hupc s hle (hsearched s hs hle) hs.1 hs.2.1
      exact absurd ht (by simp)
    refine ⟨low, hlow, fun s hs => ?_, fun s hs => ?_, fun s hs hle => absurd hle (hno s hs)⟩
    · obtain ⟨-, h2, h3, h4⟩ := hlows s hs
      exact ⟨h3, h4, .inr h2⟩
    · have hbelow : s + n ≤ g.hintAligned a := by
        obtain ⟨h1, -, ⟨h2, -⟩ | h2⟩ := id hs
        · exact absurd ((hiff s h1).mp h2) (hno s hs)
        · exact h2
      obtain ⟨t, hts, ht⟩ := hlowc s (Nat.zero_le s) hbelow hs.1 hs.2.1
      exact ⟨t, ht, .inl hts⟩

/-- The plain search, with `U32_MAX` for a search that finds nothing. -/
theorem bmFindFreeRun_spec (h : PmmShape g) (hn : 0 < n) : ∃ found,
    bmFindFreeRun g.bitmap g.totalPages g.nextHint n = found.getD u32Max ∧
      FirstFound (Searched g n 1) g.nextHint found ∧
      ∀ s, found = some s → s + n ≤ g.totalPages := by
  have hh := h.hint
  have hone := hintAligned_one h
  unfold bmFindFreeRun
  cases hup : Bitmap.runSearch (bmTest g.bitmap) n (g.totalPages - g.nextHint) g.nextHint
    g.nextHint 0 with
  | some idx =>
    obtain ⟨h1, h2, h3⟩ := Bitmap.runSearch_some hup
    refine ⟨some idx, rfl,
      ⟨?_, fun s hs => ⟨idx, rfl, .inr h1⟩, fun s hs hle => ⟨idx, rfl, h1, ?_⟩⟩,
      fun s hs => ?_⟩
    · rintro s ⟨rfl⟩
      exact ⟨one_dvd _, h3, .inl ⟨h1, by omega⟩⟩
    · exact Bitmap.runSearch_lowest hup hle hs.2.1 hn
    · cases hs
      omega
  | none =>
    have hno (s : ℕ) (hs : Searched g n 1 s) : ¬ g.nextHint ≤ s := by
      intro hle
      have hfit : s + n ≤ g.totalPages := by
        obtain ⟨-, -, ⟨-, h2⟩ | h2⟩ := hs
        · exact h2
        · omega
      obtain ⟨j, h1, h2, hb⟩ := Bitmap.runSearch_none hn hup hle (by omega)
      rw [hs.2.1 j h1 h2] at hb
      exact absurd hb (by decide)
    have hbelow (s : ℕ) (hs : Searched g n 1 s) : s + n ≤ g.nextHint := by
      obtain ⟨-, -, ⟨h2, -⟩ | h2⟩ := id hs
      · exact absurd h2 (hno s hs)
      · omega
    dsimp only
    split
    next hpos =>
      refine ⟨Bitmap.runSearch (bmTest g.bitmap) n g.nextHint 0 g.nextHint 0, rfl,
        ⟨fun s hs => ?_, fun s hs => ?_, fun s hs hle => absurd hle (hno s hs)⟩, fun s hs => ?_⟩
      · obtain ⟨-, h2, h3⟩ := Bitmap.runSearch_some hs
        exact ⟨one_dvd _, h3, .inr (by omega)⟩
      · cases hlow : Bitmap.runSearch (bmTest g.bitmap) n g.nextHint 0 g.nextHint 0 with
        | some t => exact ⟨t, rfl, .inl (Bitmap.runSearch_lowest hlow (Nat.zero_le s) hs.2.1 hn)⟩
        | none =>
          have := hbelow s hs
          obtain ⟨j, h1, h2, hb⟩ := Bitmap.runSearch_none hn hlow (Nat.zero_le s) (by omega)
          rw [hs.2.1 j h1 h2] at hb
          exact absurd hb (by decide)
      · obtain ⟨-, h2, -⟩ := Bitmap.runSearch_some hs
        omega
    next hzero =>
      refine ⟨none, rfl, ⟨by simp, fun s hs => ?_, fun s hs hle => absurd hle (hno s hs)⟩, by simp⟩
      have := hbelow s hs
      omega

theorem Searched.lt_total (h : PmmShape g) (ha : 0 < a) (hat : a ≤ g.totalPages) (hn : 0 < n)
    {idx : ℕ} (hs : Searched g n a idx) : idx < g.totalPages := by
  obtain ⟨hdvd, -, ⟨-, hfit⟩ | hlow⟩ := hs
  · omega
  · obtain ⟨hH, hlt, -⟩ := hintAligned_spec h ha hat
    have hh := h.hint
    have := Nat.le_of_dvd (by omega) (Nat.dvd_sub hH hdvd)
    omega

theorem Searched.inside (hn : 0 < n) {idx : ℕ} (hs : Searched g n a idx)
    (hle : g.hintAligned a ≤ idx) : idx + n ≤ g.totalPages := by
  obtain ⟨-, -, ⟨-, hfit⟩ | hlow⟩ := hs
  · exact hfit
  · omega

end Searches

/-- What both allocations leave and return for what their search found. -/
def Pmm.outcome (g : Pmm) (n : ℕ) : Option ℕ → Pmm × ℕ
  | some idx => ({ g with
      bitmap := bmSetRun g.bitmap idx n
      freePages := g.freePages - n
      nextHint := (idx + n) % g.totalPages }, g.idxToPa idx)
  | none => (g, 0)

section Outcomes
variable {g : Pmm} {n a : ℕ}

theorem mmPageAllocN_outcome (h : PmmShape g) (hn : 0 < n) (hfree : n ≤ g.freePages) :
    ∃ found, mmPageAllocN g n = g.outcome n found ∧
      FirstFound (Searched g n 1) (g.hintAligned 1) found := by
  obtain ⟨found, heq, hfirst, hfit⟩ := bmFindFreeRun_spec h hn
  refine ⟨found, ?_, (hintAligned_one h).symm ▸ hfirst⟩
  unfold mmPageAllocN
  rw [if_neg (by omega), if_neg (by omega)]
  dsimp only
  rw [heq]
  cases found with
  | none => rfl
  | some idx =>
    have h1 := hfit idx rfl
    have h2 := h.region.total_lt
    rw [Option.getD_some, if_neg (by unfold u32Max; omega)]
    rfl

theorem mmPageAllocAligned_outcome (h : PmmShape g) (hn : 0 < n) (ha : 0 < a)
    (hat : a ≤ g.totalPages) (hfree : n ≤ g.freePages) :
    ∃ found, mmPageAllocAligned g n a = some (g.outcome n found) ∧
      FirstFound (Searched g n a) (g.hintAligned a) found := by
  have hall := h.free_le_allPages
  obtain ⟨found, heq, hfirst⟩ := alignedSearch_spec h hn ha (by omega) hat
  refine ⟨found, ?_, hfirst⟩
  unfold mmPageAllocAligned
  rw [if_neg (by omega), if_neg (by omega), heq, Option.map_some]
  cases found with
  | none => rfl
  | some idx =>
    have h1 := (hfirst.sound idx rfl).lt_total h ha hat hn
    have h2 := h.region.total_lt
    have hw : idx + n < 4294967296 := by
      unfold allPages at hall
      omega
    dsimp only [Pmm.outcome]
    rw [runBits_foldl (by omega), u32_of_lt hw]

end Outcomes

end Leg
