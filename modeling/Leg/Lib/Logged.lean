import Leg.Lib.Outcome

/-! Computations that log what they do, also where they fail. What a computation reads may depend
on what has been logged before, as a memory does that the logged actions write to. -/
namespace Leg

/-- From the log so far to the log behind it, and what comes of the computation. -/
def Logged (ε α : Type) := List ε → List ε × Outcome α

namespace Logged
variable {ε α β : Type}

def bind (x : Logged ε α) (f : α → Logged ε β) : Logged ε β := fun l =>
  match x l with
  | (l', .ok a) => f a l'
  | (l', .fault) => (l', .fault)
  | (l', .divByZero) => (l', .divByZero)
  | (l', .outOfSteps) => (l', .outOfSteps)

instance : Monad (Logged ε) where
  pure a := fun l => (l, .ok a)
  bind := bind

/-- Log an action. -/
def emit (e : ε) : Logged ε Unit := fun l => (l ++ [e], .ok ())

/-- Read something, without an action. -/
def look (f : List ε → Outcome α) : Logged ε α := fun l => (l, f l)

/-- From the log `l` a computation that ends normally establishes `Q`, and any other one `E`. -/
def Meets (x : Logged ε α) (l : List ε) (Q : α → List ε → Prop) (E : List ε → Prop) : Prop :=
  match x l with
  | (l', .ok a) => Q a l'
  | (l', _) => E l'

/-- Apart from the log, the computation is this one. -/
def Computes (x : Logged ε α) (o : Outcome α) : Prop := ∀ l, (x l).2 = o

section Rules
variable {x : Logged ε α} {f : α → Logged ε β} {l : List ε} {Q Q' : α → List ε → Prop}
  {E : List ε → Prop}

theorem bind_ok {x : Logged ε α} {f : α → Logged ε β} {l l' : List ε} {a : α}
    (h : x l = (l', .ok a)) : (x >>= f) l = f a l' := by
  show bind x f l = _
  unfold bind
  rw [h]

theorem emit_bind (e : ε) (y : Unit → Logged ε β) (l : List ε) :
    (emit e >>= y) l = y () (l ++ [e]) := rfl

theorem meets_pure {a : α} (h : Q a l) : Meets (pure a) l Q E := h

theorem meets_bind {R : β → List ε → Prop}
    (h : Meets x l (fun a l' => Meets (f a) l' R E) E) : Meets (x >>= f) l R E := by
  show match bind x f l with
    | (l', .ok a) => R a l'
    | (l', _) => E l'
  unfold bind
  unfold Meets at h
  split at h
  next l' a hx =>
    rw [hx]
    exact h
  next l' o hno hx =>
    rw [hx]
    cases o with
    | ok a => exact absurd rfl (hno a)
    | fault => exact h
    | divByZero => exact h
    | outOfSteps => exact h

theorem meets_emit {e : ε} {R : Unit → List ε → Prop} (h : R () (l ++ [e])) :
    Meets (emit e) l R E := h

theorem meets_look {g : List ε → Outcome α} (h : ∀ a, g l = .ok a → Q a l) (hE : E l) :
    Meets (look g) l Q E := by
  unfold Meets look
  cases hg : g l with
  | ok a => exact h a hg
  | fault => exact hE
  | divByZero => exact hE
  | outOfSteps => exact hE

theorem meets_outOfSteps (h : E l) : Meets (look fun _ => .outOfSteps) l Q E := h

theorem meets_mono (h : Meets x l Q E) (hQ : ∀ a l', Q a l' → Q' a l') : Meets x l Q' E := by
  unfold Meets at h ⊢
  split
  next l' a hx =>
    rw [hx] at h
    exact hQ a l' h
  next l' o hno hx =>
    rw [hx] at h
    cases o with
    | ok a => exact absurd rfl (hno a)
    | fault => exact h
    | divByZero => exact h
    | outOfSteps => exact h

/-- What holds at the end of every kind holds of the log that is left. -/
theorem Meets.log (h : Meets x l Q E) (hQ : ∀ a l', Q a l' → E l') : E (x l).1 := by
  unfold Meets at h
  split at h
  next l' a hx =>
    rw [hx]
    exact hQ a l' h
  next l' o hno hx =>
    rw [hx]
    exact h

/-- Where the computation ends normally, it has added events to the log, and `Q` holds of them and
of its value. -/
def Adds (x : Logged ε α) (Q : List ε → α → Prop) : Prop :=
  ∀ l l' a, x l = (l', .ok a) → ∃ events, l' = l ++ events ∧ Q events a

theorem adds_pure {a : α} {Q : List ε → α → Prop} (h : Q [] a) : Adds (pure a) Q := by
  intro l l' b hrun
  obtain ⟨rfl, hb⟩ := Prod.mk.inj hrun
  obtain rfl := Outcome.ok.inj hb
  exact ⟨[], (List.append_nil _).symm, h⟩

theorem adds_emit {e : ε} {Q : List ε → Unit → Prop} (h : Q [e] ()) : Adds (emit e) Q := by
  intro l l' b hrun
  obtain ⟨rfl, -⟩ := Prod.mk.inj hrun
  exact ⟨[e], rfl, h⟩

theorem adds_look {g : List ε → Outcome α} {Q : List ε → α → Prop}
    (h : ∀ l a, g l = .ok a → Q [] a) : Adds (look g) Q := by
  intro l l' a hrun
  obtain ⟨rfl, ha⟩ := Prod.mk.inj hrun
  exact ⟨[], (List.append_nil _).symm, h _ _ ha⟩

theorem adds_bind {x : Logged ε α} {f : α → Logged ε β} {Q : List ε → α → Prop}
    {R : List ε → β → Prop} (hx : Adds x Q)
    (hf : ∀ events a, Q events a → Adds (f a) fun more b => R (events ++ more) b) :
    Adds (x >>= f) R := by
  intro l l' b hrun
  change bind x f l = _ at hrun
  unfold bind at hrun
  split at hrun
  next l1 a hx1 =>
    obtain ⟨events, rfl, hQ⟩ := hx l l1 a hx1
    obtain ⟨more, rfl, hR⟩ := hf events a hQ _ _ _ hrun
    exact ⟨events ++ more, List.append_assoc .., hR⟩
  all_goals
    obtain ⟨-, hno⟩ := Prod.mk.inj hrun
    cases hno

theorem computes_pure (a : α) : Computes (pure a : Logged ε α) (.ok a) := fun _ => rfl

theorem computes_bind {o : Outcome α} {g : α → Outcome β} (hx : Computes x o)
    (hf : ∀ a, Computes (f a) (g a)) : Computes (x >>= f) (o >>= g) := by
  intro l
  have ho := hx l
  show (bind x f l).2 = _
  unfold bind
  split
  next l' a hrun =>
    rw [hrun] at ho
    rw [← ho]
    exact hf a l'
  all_goals
    next hrun =>
      rw [hrun] at ho
      rw [← ho]
      rfl

theorem computes_emit {e : ε} {y : Logged ε α} {o : Outcome α} (h : Computes y o) :
    Computes (emit e >>= fun _ => y) o := fun l => h (l ++ [e])

theorem computes_look (o : Outcome α) : Computes (look fun _ : List ε => o) o := fun _ => rfl

end Rules

end Logged
end Leg
