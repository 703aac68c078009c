import Mathlib.Data.List.Perm.Lattice
import Mathlib.Data.List.Nodup
import Mathlib.Data.List.Pairwise
import Mathlib.Logic.Function.Basic

/-! Tables with a fixed number of slots, some of them empty, and what lies below them: how the
list of all contents changes, up to order, when one slot or one of the listed tables does. -/
namespace Leg.Slots

variable {α β : Type*}

/-- The contents of the occupied slots among the first `n`. -/
def occupied (n : ℕ) (f : ℕ → Option α) : List α := (List.range n).filterMap f

theorem mem_occupied {n : ℕ} {f : ℕ → Option α} {x : α} :
    x ∈ occupied n f ↔ ∃ i < n, f i = some x := by
  simp [occupied]

theorem occupied_congr {n : ℕ} {f g : ℕ → Option α} (h : ∀ i < n, g i = f i) :
    occupied n g = occupied n f :=
  List.filterMap_congr fun i hi => h i (List.mem_range.mp hi)

theorem occupied_none {n : ℕ} {f : ℕ → Option α} (h : ∀ i < n, f i = none) : occupied n f = [] :=
  List.filterMap_eq_nil_iff.mpr fun i hi => h i (List.mem_range.mp hi)

/-- If the list has no duplicates, a content lies in one slot only. -/
theorem occupied_inj {n i j : ℕ} {f : ℕ → Option α} {x : α} (h : (occupied n f).Nodup) (hi : i < n)
    (hj : j < n) (hfi : f i = some x) (hfj : f j = some x) : i = j := by
  have hpair := List.pairwise_iff_getElem.mp (List.pairwise_filterMap.mp h)
  rcases Nat.lt_trichotomy i j with hlt | heq | hgt
  · exact absurd rfl (hpair i j (by simpa using hi) (by simpa using hj) hlt x
      (by simpa using hfi) x (by simpa using hfj))
  · exact heq
  · exact absurd rfl (hpair j i (by simpa using hj) (by simpa using hi) hgt x
      (by simpa using hfj) x (by simpa using hfi))

/-- Filling an empty slot adds its content to the list. -/
theorem occupied_fill {n i : ℕ} {f g : ℕ → Option α} {x : α} (hi : i < n) (hf : f i = none)
    (hg : g i = some x) (hother : ∀ j < n, j ≠ i → g j = f j) :
    (occupied n g).Perm (x :: occupied n f) := by
  induction n with
  | zero => exact absurd hi (Nat.not_lt_zero i)
  | succ n ih =>
    simp only [occupied, List.range_succ, List.filterMap_append] at ih ⊢
    by_cases hin : i = n
    · subst hin
      have hbelow : (List.range i).filterMap g = (List.range i).filterMap f :=
        occupied_congr fun j hj => hother j (by omega) (by omega)
      simp only [hbelow, List.filterMap_cons, hf, hg, List.filterMap_nil, List.append_nil]
      exact List.perm_append_singleton _ _
    · have hlast : g n = f n := hother n (by omega) fun h => hin h.symm
      have hlast' : [n].filterMap g = [n].filterMap f := by
        simp only [List.filterMap_cons, hlast, List.filterMap_nil]
      rw [hlast']
      exact (ih (by omega) fun j hj hne => hother j (by omega) hne).append_right _

/-- A slot gets a new content in place of its old one. -/
theorem occupied_swap {n i : ℕ} {f g : ℕ → Option α} {x y : α} (hi : i < n) (hf : f i = some y)
    (hg : g i = some x) (hother : ∀ j < n, j ≠ i → g j = f j) :
    (y :: occupied n g).Perm (x :: occupied n f) := by
  have hne (j : ℕ) (hj : j ≠ i) : Function.update f i none j = f j := Function.update_of_ne hj _ _
  have hold := occupied_fill hi (Function.update_self i none f) hf fun j _ hj => (hne j hj).symm
  have hnew := occupied_fill hi (Function.update_self i none f) hg fun j hjn hj =>
    (hother j hjn hj).trans (hne j hj).symm
  exact (hnew.cons y).trans ((List.Perm.swap x y _).trans (hold.symm.cons x))

/-- One of the listed tables gains an entry. -/
theorem flatMap_gain [DecidableEq α] {l : List α} {k : α} {f g : α → List β} {x : β}
    (hl : l.Nodup) (hk : k ∈ l) (hg : (g k).Perm (x :: f k)) (hother : ∀ a ∈ l, a ≠ k → g a = f a) :
    (l.flatMap g).Perm (x :: l.flatMap f) := by
  have hsplit : l.Perm (k :: l.erase k) := List.perm_cons_erase hk
  have hrest : (l.erase k).flatMap g = (l.erase k).flatMap f :=
    List.flatMap_congr fun a ha => hother a (List.mem_of_mem_erase ha)
      fun h => (hl.mem_erase_iff.mp ha).1 h
  calc (l.flatMap g).Perm ((k :: l.erase k).flatMap g) := hsplit.flatMap_right g
    _ = g k ++ (l.erase k).flatMap f := by rw [List.flatMap_cons, hrest]
    _ |>.Perm ((x :: f k) ++ (l.erase k).flatMap f) := hg.append_right _
    _ = x :: (k :: l.erase k).flatMap f := by rw [List.flatMap_cons, List.cons_append]
    _ |>.Perm (x :: l.flatMap f) := (hsplit.symm.flatMap_right f).cons x

/-- One of the listed tables gets a new entry in place of an old one. -/
theorem flatMap_swap [DecidableEq α] {l : List α} {k : α} {f g : α → List β} {x y : β}
    (hl : l.Nodup) (hk : k ∈ l) (hg : (y :: g k).Perm (x :: f k))
    (hother : ∀ a ∈ l, a ≠ k → g a = f a) : (y :: l.flatMap g).Perm (x :: l.flatMap f) := by
  -- first `y` joins the new table, then `x` joins the old one
  have hy := flatMap_gain (f := g) (g := Function.update g k (y :: g k)) (x := y) hl hk
    (by rw [Function.update_self]) fun a _ ha => Function.update_of_ne ha _ _
  have hx := flatMap_gain (f := f) (g := Function.update g k (y :: g k)) (x := x) hl hk
    (by rw [Function.update_self]; exact hg) fun a ha hne => by
      rw [Function.update_of_ne hne, hother a ha hne]
  exact hy.symm.trans hx

theorem flatMap_inj {l : List α} {f : α → List β} {a b : α} {x : β} (h : (l.flatMap f).Nodup)
    (ha : a ∈ l) (hb : b ∈ l) (hxa : x ∈ f a) (hxb : x ∈ f b) : a = b := by
  by_contra hne
  have : Std.Symm (Function.onFun List.Disjoint f) := ⟨fun _ _ hd => hd.symm⟩
  exact (List.nodup_flatMap.mp h).2.forall ha hb hne hxa hxb

end Leg.Slots
