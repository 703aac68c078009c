import Mathlib.Data.Nat.Notation

/-! Loops that count upward and may fail in their body, with the rule that carries an
invariant from the first count to the last. -/
namespace Leg

variable {σ : Type*}

/-- `for (i = lo; i < lo + n; i++) body`. -/
def forUp (body : ℕ → σ → Option σ) (lo : ℕ) : ℕ → σ → Option σ
  | 0, s => some s
  | n + 1, s => (body lo s).bind (forUp body (lo + 1) n)

/-- What holds at the first count and is carried over by the body holds at the end. -/
theorem forUp_spec {body : ℕ → σ → Option σ} (P : ℕ → σ → Prop) (lo n : ℕ) {s : σ}
    (hbody : ∀ i s, lo ≤ i → i < lo + n → P i s → ∃ t, body i s = some t ∧ P (i + 1) t)
    (h : P lo s) : ∃ t, forUp body lo n s = some t ∧ P (lo + n) t := by
  induction n generalizing lo s with
  | zero => exact ⟨s, rfl, h⟩
  | succ n ih =>
    obtain ⟨t, hbt, ht⟩ := hbody lo s (Nat.le_refl lo) (by omega) h
    obtain ⟨u, hu, hP⟩ := ih (lo + 1) (fun i s hl hh => hbody i s (by omega) (by omega)) ht
    refine ⟨u, ?_, ?_⟩
    · rw [forUp, hbt]
      exact hu
    · rwa [show lo + (n + 1) = lo + 1 + n by omega]

end Leg
