/-! What may come of running a piece of C: a value, or a read of a byte that may not be read, a
division by zero, or more steps than were allowed. -/
namespace Leg

inductive Outcome (α : Type) where
  | ok (a : α)
  | fault
  | divByZero
  | outOfSteps
  deriving DecidableEq

namespace Outcome
variable {α β : Type}

def bind : Outcome α → (α → Outcome β) → Outcome β
  | ok a, f => f a
  | fault, _ => fault
  | divByZero, _ => divByZero
  | outOfSteps, _ => outOfSteps

instance : Monad Outcome where
  pure := ok
  bind := bind

/-- A value that had to be read. -/
def ofRead : Option α → Outcome α
  | some a => ok a
  | none => fault

@[simp] theorem ok_bind (a : α) (f : α → Outcome β) : (ok a >>= f) = f a := rfl

@[simp] theorem fault_bind (f : α → Outcome β) : (fault >>= f) = fault := rfl

@[simp] theorem ofRead_some (a : α) : ofRead (some a) = ok a := rfl

@[simp] theorem ofRead_none : ofRead (none : Option α) = fault := rfl

/-- A sequence that gives a value went through its first part. -/
theorem bind_eq_ok {x : Outcome α} {f : α → Outcome β} {b : β} :
    (x >>= f) = ok b ↔ ∃ a, x = ok a ∧ f a = ok b := by
  cases x with
  | ok a => simp
  | fault => exact ⟨fun h => (nomatch h), fun ⟨_, h, _⟩ => (nomatch h)⟩
  | divByZero => exact ⟨fun h => (nomatch h), fun ⟨_, h, _⟩ => (nomatch h)⟩
  | outOfSteps => exact ⟨fun h => (nomatch h), fun ⟨_, h, _⟩ => (nomatch h)⟩

theorem ofRead_eq_ok {o : Option α} {a : α} : ofRead o = ok a ↔ o = some a := by
  cases o with
  | none => exact ⟨fun h => (nomatch h), fun h => (nomatch h)⟩
  | some b => exact ⟨fun h => congrArg some (ok.inj h), fun h => congrArg ok (Option.some.inj h)⟩

/-- A value that comes of a computation satisfies `Q`, and it does not run out of steps where they
are enough. -/
def Ends (enough : Prop) (Q : α → Prop) : Outcome α → Prop
  | ok a => Q a
  | outOfSteps => ¬enough
  | _ => True

section Ends
variable {enough : Prop} {Q : α → Prop} {x : Outcome α}

theorem ends_bind {R : β → Prop} {f : α → Outcome β} (hx : Ends enough Q x)
    (hf : ∀ a, x = ok a → Q a → Ends enough R (f a)) : Ends enough R (x >>= f) := by
  cases x with
  | ok a => exact hf a rfl hx
  | fault => trivial
  | divByZero => trivial
  | outOfSteps => exact hx

theorem ends_ofRead {o : Option α} (h : ∀ a, o = some a → Q a) : Ends enough Q (ofRead o) := by
  cases o with
  | none => trivial
  | some a => exact h a rfl

theorem Ends.mono {enough' : Prop} {Q' : α → Prop} (h : Ends enough Q x)
    (henough : enough' → enough) (hQ : ∀ a, Q a → Q' a) : Ends enough' Q' x := by
  cases x with
  | ok a => exact hQ a h
  | fault => trivial
  | divByZero => trivial
  | outOfSteps => exact fun hno => h (henough hno)

theorem Ends.ne (h : Ends enough Q x) (henough : enough) : x ≠ outOfSteps := by
  rintro rfl
  exact h henough

end Ends

end Outcome
end Leg
