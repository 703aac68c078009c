import Mathlib.Data.List.Range
import Mathlib.Logic.Function.Basic

/-! What a sequence of stores leaves at one place: the value of the last one that goes there. -/
namespace Leg.LastStore

variable {κ β : Type} [DecidableEq κ]

/-- What lies at `a` after the stores, if `b` lay there before. -/
def lastAt (ws : List (κ × β)) (a : κ) (b : β) : β :=
  ws.foldl (fun b w => if w.1 = a then w.2 else b) b

@[simp] theorem lastAt_nil (a : κ) (b : β) : lastAt [] a b = b := rfl

@[simp] theorem lastAt_cons (w : κ × β) (ws : List (κ × β)) (a : κ) (b : β) :
    lastAt (w :: ws) a b = lastAt ws a (if w.1 = a then w.2 else b) := rfl

theorem lastAt_append (ws ws' : List (κ × β)) (a : κ) (b : β) :
    lastAt (ws ++ ws') a b = lastAt ws' a (lastAt ws a b) := List.foldl_append

/-- Stores that go elsewhere leave the place alone. -/
theorem lastAt_of_ne {ws : List (κ × β)} {a : κ} (h : ∀ w ∈ ws, w.1 ≠ a) (b : β) :
    lastAt ws a b = b := by
  induction ws with
  | nil => rfl
  | cons w ws ih =>
    rw [lastAt_cons, if_neg (h w (List.mem_cons_self ..))]
    exact ih fun v hv => h v (List.mem_cons_of_mem _ hv)

/-- `n` stores to places of their own. -/
theorem lastAt_range {n k : ℕ} (f : ℕ → κ) (g : ℕ → β) (hk : k < n)
    (hinj : ∀ i < n, f i = f k → i = k) (b : β) :
    lastAt ((List.range n).map fun i => (f i, g i)) (f k) b = g k := by
  induction n generalizing b with
  | zero => exact absurd hk (Nat.not_lt_zero k)
  | succ n ih =>
    rw [List.range_succ, List.map_append, lastAt_append]
    by_cases hkn : k = n
    · simp [hkn]
    · have hne : f n ≠ f k := fun heq => hkn (hinj n (Nat.lt_succ_self n) heq).symm
      simp only [List.map_cons, List.map_nil, lastAt_cons, lastAt_nil, hne, if_false]
      exact ih (by omega) (fun i hi heq => hinj i (by omega) heq) b

/-- Batches of stores, each of which either stays away from the place or leaves `v` there. -/
theorem lastAt_flatMap {α : Type} {l : List α} {f : α → List (κ × β)} {a : κ} {v : β}
    (h : ∀ x ∈ l, (∀ w ∈ f x, w.1 ≠ a) ∨ ∀ b, lastAt (f x) a b = v)
    (hx : ∃ x ∈ l, ∀ b, lastAt (f x) a b = v) (b : β) : lastAt (l.flatMap f) a b = v := by
  -- once a batch has left `v`, the others keep it
  have hkeep : ∀ m : List α, (∀ x ∈ m, x ∈ l) → lastAt (m.flatMap f) a v = v := by
    intro m hm
    induction m with
    | nil => rfl
    | cons y m ih =>
      rw [List.flatMap_cons, lastAt_append]
      have hy : lastAt (f y) a v = v :=
        (h y (hm y (List.mem_cons_self ..))).elim (fun hne => lastAt_of_ne hne v) fun hv => hv v
      rw [hy]
      exact ih fun x hx => hm x (List.mem_cons_of_mem _ hx)
  obtain ⟨x, hmem, hval⟩ := hx
  obtain ⟨front, back, rfl⟩ := List.append_of_mem hmem
  rw [List.flatMap_append, lastAt_append, List.flatMap_cons, lastAt_append, hval]
  exact hkeep back fun y hy => List.mem_append_right _ (List.mem_cons_of_mem _ hy)

end Leg.LastStore
