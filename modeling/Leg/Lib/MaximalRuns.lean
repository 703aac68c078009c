import Mathlib.Data.List.Nodup
import Mathlib.Data.List.TakeWhile

/-! The maximal runs of the elements of a list that pass a test, in their order. A run is given by
the position of its first element and the position behind its last one. -/
namespace Leg

variable {α : Type*}

/-- The element at a position passes the test. -/
def passesAt (p : α → Bool) (l : List α) (k : ℕ) : Bool := l[k]?.any p

/-- The positions from `start` up to `stop` pass, and the ones beside them do not. -/
structure IsMaximalRun (p : α → Bool) (l : List α) (start stop : ℕ) : Prop where
  nonempty : start < stop
  inside : ∀ k, start ≤ k → k < stop → passesAt p l k = true
  left : start = 0 ∨ passesAt p l (start - 1) = false
  right : passesAt p l stop = false

/-- A run starts at a position. -/
def startsRun (p : α → Bool) (l : List α) (k : ℕ) : Bool :=
  passesAt p l k && (k == 0 || !passesAt p l (k - 1))

/-- Where the run at a position ends. -/
def runStop (p : α → Bool) (l : List α) (k : ℕ) : ℕ := k + ((l.drop k).takeWhile p).length

/-- The maximal runs that start from a position on. -/
def runsFrom (p : α → Bool) (l : List α) (pos : ℕ) : List (ℕ × ℕ) :=
  ((List.range' pos (l.length - pos)).filter (startsRun p l)).map fun k => (k, runStop p l k)

variable {p : α → Bool} {l : List α} {start stop pos next : ℕ}

theorem passesAt_lt {k : ℕ} (h : passesAt p l k = true) : k < l.length := by
  by_contra hge
  rw [passesAt, List.getElem?_eq_none (Nat.le_of_not_lt hge)] at h
  exact nomatch h

theorem startsRun_iff {k : ℕ} : startsRun p l k = true ↔
    passesAt p l k = true ∧ (k = 0 ∨ passesAt p l (k - 1) = false) := by
  simp [startsRun]

theorem passesAt_drop (i k : ℕ) : passesAt p (l.drop i) k = passesAt p l (i + k) := by
  rw [passesAt, passesAt, List.getElem?_drop]

/-- The elements in front of the first one that fails all pass. -/
theorem passesAt_takeWhile (p : α → Bool) (l : List α) :
    (∀ k < (l.takeWhile p).length, passesAt p l k = true) ∧
      passesAt p l (l.takeWhile p).length = false := by
  induction l with
  | nil => exact ⟨fun k hk => absurd hk (Nat.not_lt_zero k), rfl⟩
  | cons c l ih =>
    cases hc : p c with
    | false =>
      rw [List.takeWhile_cons_of_neg (Bool.eq_false_iff.mp hc)]
      exact ⟨fun k hk => absurd hk (Nat.not_lt_zero k), hc⟩
    | true =>
      rw [List.takeWhile_cons_of_pos hc, List.length_cons]
      refine ⟨fun k hk => ?_, ih.2⟩
      cases k with
      | zero => exact hc
      | succ k => exact ih.1 k (Nat.lt_of_succ_lt_succ hk)

/-- A run that starts goes on to its end. -/
theorem runStop_run (h : startsRun p l start = true) :
    IsMaximalRun p l start (runStop p l start) := by
  obtain ⟨hpass, hleft⟩ := startsRun_iff.mp h
  obtain ⟨hinside, hright⟩ := passesAt_takeWhile p (l.drop start)
  rw [passesAt_drop] at hright
  constructor
  · by_contra hle
    have hzero : runStop p l start = start :=
      le_antisymm (Nat.le_of_not_lt hle) (Nat.le_add_right _ _)
    rw [← runStop, hzero, hpass] at hright
    exact nomatch hright
  · intro k hlow hhigh
    obtain ⟨j, rfl⟩ := Nat.exists_eq_add_of_le hlow
    rw [← passesAt_drop]
    exact hinside j (Nat.lt_of_add_lt_add_left hhigh)
  · exact hleft
  · exact hright

namespace IsMaximalRun

theorem starts (h : IsMaximalRun p l start stop) : startsRun p l start = true :=
  startsRun_iff.mpr ⟨h.inside start (le_refl _) h.nonempty, h.left⟩

theorem stop_le (h : IsMaximalRun p l start stop) : stop ≤ l.length := by
  have hpos := h.nonempty
  have hlast := passesAt_lt (h.inside (stop - 1) (by omega) (by omega))
  omega

theorem stop_eq (h : IsMaximalRun p l start stop) (h' : IsMaximalRun p l start next) :
    stop = next := by
  rcases lt_trichotomy stop next with hlt | heq | hgt
  · exact absurd (h'.inside stop h.nonempty.le hlt) (Bool.eq_false_iff.mp h.right)
  · exact heq
  · exact absurd (h.inside next h'.nonempty.le hgt) (Bool.eq_false_iff.mp h'.right)

end IsMaximalRun

/-- The list holds exactly the maximal runs from the position on. -/
theorem mem_runsFrom {r : ℕ × ℕ} :
    r ∈ runsFrom p l pos ↔ pos ≤ r.1 ∧ IsMaximalRun p l r.1 r.2 := by
  unfold runsFrom
  rw [List.mem_map]
  constructor
  · rintro ⟨k, hk, rfl⟩
    obtain ⟨hrange, hstarts⟩ := List.mem_filter.mp hk
    exact ⟨(List.mem_range'_1.mp hrange).1, runStop_run hstarts⟩
  · rintro ⟨hpos, h⟩
    have hstop := h.stop_le
    have hlt := h.nonempty
    refine ⟨r.1, List.mem_filter.mpr ⟨List.mem_range'_1.mpr ⟨hpos, ?_⟩, h.starts⟩, ?_⟩
    · omega
    · exact Prod.ext rfl ((runStop_run h.starts).stop_eq h)

theorem runsFrom_sorted (p : α → Bool) (l : List α) (pos : ℕ) :
    (runsFrom p l pos).Pairwise fun r s => r.1 < s.1 := by
  unfold runsFrom
  rw [List.pairwise_map]
  exact (List.pairwise_lt_range' (s := pos)).filter _

/-- The positions of the list up to `next`, and those from there on. -/
theorem runsFrom_append (hle : pos ≤ next) : runsFrom p l pos =
    (((List.range' pos (min next l.length - pos)).filter (startsRun p l)).map
      fun k => (k, runStop p l k)) ++ runsFrom p l next := by
  unfold runsFrom
  rw [← List.map_append, ← List.filter_append]
  by_cases hnext : next ≤ l.length
  · rw [min_eq_left hnext]
    have hsplit := @List.range'_append_1 pos (next - pos) (l.length - next)
    rw [Nat.add_sub_cancel' hle, show next - pos + (l.length - next) = l.length - pos by omega]
      at hsplit
    rw [hsplit]
  · rw [min_eq_right (by omega), Nat.sub_eq_zero_of_le (by omega : l.length ≤ next),
      List.range'_zero, List.append_nil]

/-- No run starts where nothing passes. -/
theorem runsFrom_skip (hle : pos ≤ next)
    (hnone : ∀ k, pos ≤ k → k < next → startsRun p l k = false) :
    runsFrom p l pos = runsFrom p l next := by
  rw [runsFrom_append hle, List.filter_eq_nil_iff.mpr]
  · rfl
  · intro k hk
    rw [List.mem_range'_1] at hk
    rw [hnone k hk.1 (by omega)]
    exact Bool.false_ne_true

/-- A run, and those behind it. -/
theorem runsFrom_run (h : IsMaximalRun p l start stop) :
    runsFrom p l start = (start, stop) :: runsFrom p l stop := by
  have hpos := h.nonempty
  have hle := h.stop_le
  have hrest : runsFrom p l (start + 1) = runsFrom p l stop := by
    apply runsFrom_skip hpos
    intro k hlow hhigh
    have hbefore := h.inside (k - 1) (by omega) (by omega)
    have hk : k ≠ 0 := by omega
    simp [startsRun, hbefore, hk]
  rw [runsFrom_append (Nat.le_succ start), hrest, min_eq_left (by omega), Nat.succ_sub (le_refl _),
    Nat.sub_self, List.range'_one, List.filter_cons_of_pos h.starts, List.map_cons,
    (runStop_run h.starts).stop_eq h]
  rfl

end Leg
