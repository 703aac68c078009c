import Mathlib.Logic.Relation

/-! Finite labelled runs of a transition system and the rules that carry an
invariant along them. The step relation may be restricted to the steps that
meet a condition, so that one rule serves every run and the conditioned runs. -/
namespace Leg.Runs

variable {σ α : Type*}

/-- `Run step s as t`: the transitions labelled `as` lead from `s` to `t`. -/
inductive Run (step : σ → α → σ → Prop) : σ → List α → σ → Prop
  | nil (s : σ) : Run step s [] s
  | cons {s t u : σ} {a : α} {as : List α} :
      step s a t → Run step t as u → Run step s (a :: as) u

/-- The steps of a system whose source state and label meet `ok`. -/
def Meeting (ok : σ → α → Prop) (step : σ → α → σ → Prop) (s : σ) (a : α) (t : σ) : Prop :=
  ok s a ∧ step s a t

/-- The steps of a system that end in a state satisfying `P`. -/
def Along (P : σ → Prop) (step : σ → α → σ → Prop) (s : σ) (a : α) (t : σ) : Prop :=
  step s a t ∧ P t

/-- A state that some run from an initial state ends in. -/
def Reachable (init : σ → Prop) (step : σ → α → σ → Prop) (t : σ) : Prop :=
  ∃ s as, init s ∧ Run step s as t

theorem Run.single {step : σ → α → σ → Prop} {s t : σ} {a : α} (h : step s a t) :
    Run step s [a] t := .cons h (.nil t)

theorem Run.append {step : σ → α → σ → Prop} {s t u : σ} {as bs : List α}
    (h : Run step s as t) (k : Run step t bs u) : Run step s (as ++ bs) u := by
  induction h with
  | nil => exact k
  | cons hs _ ih => exact .cons hs (ih k)

theorem Run.split {step : σ → α → σ → Prop} {s u : σ} {as bs : List α}
    (h : Run step s (as ++ bs) u) : ∃ t, Run step s as t ∧ Run step t bs u := by
  induction as generalizing s with
  | nil => exact ⟨s, .nil s, h⟩
  | cons a as ih =>
    cases h with
    | cons hab h =>
      obtain ⟨t, hs, ht⟩ := ih h
      exact ⟨t, .cons hab hs, ht⟩

theorem Run.preserves {step : σ → α → σ → Prop} {I : σ → Prop}
    (hstep : ∀ s a t, I s → step s a t → I t) {s t : σ} {as : List α}
    (h : Run step s as t) (hs : I s) : I t := by
  induction h with
  | nil => exact hs
  | cons hab _ ih => exact ih (hstep _ _ _ hs hab)

theorem Run.mono {step step' : σ → α → σ → Prop}
    (hle : ∀ s a t, step s a t → step' s a t) {s t : σ} {as : List α}
    (h : Run step s as t) : Run step' s as t := by
  induction h with
  | nil => exact .nil _
  | cons hab _ ih => exact .cons (hle _ _ _ hab) ih

/-- Take the labels in turn through a partial step function, while each passes the test. -/
def execute (ok : σ → α → Bool) (next : σ → α → Option σ) : σ → List α → Option σ
  | s, [] => some s
  | s, a :: as => if ok s a then (next s a).bind fun t => execute ok next t as else none

/-- What `execute` computes is a run of every relation its accepted steps belong to. -/
theorem Run.of_execute {ok : σ → α → Bool} {next : σ → α → Option σ} {step : σ → α → σ → Prop}
    (hstep : ∀ s a t, ok s a = true → next s a = some t → step s a t) {s t : σ} {as : List α}
    (h : execute ok next s as = some t) : Run step s as t := by
  induction as generalizing s with
  | nil => exact Option.some.inj h ▸ .nil s
  | cons a as ih =>
    rw [execute] at h
    split at h
    next hok =>
      obtain ⟨u, hu, ht⟩ := Option.bind_eq_some_iff.mp h
      exact .cons (hstep _ _ _ hok hu) (ih ht)
    next => exact absurd h (by simp)

/-- If a step from a good state ends in a good state exactly when it meets `ok`, then
the runs through good states are exactly the runs whose steps all meet `ok`. -/
theorem along_iff_meeting (step : σ → α → σ → Prop) (ok : σ → α → Prop) {I P : σ → Prop}
    (hI : ∀ s a t, I s → P s → step s a t → I t)
    (hP : ∀ s a t, I s → P s → step s a t → (P t ↔ ok s a))
    {s t : σ} {as : List α} (hs : I s) (hp : P s) :
    Run (Along P step) s as t ↔ Run (Meeting ok step) s as t := by
  constructor
  · intro h
    induction h with
    | nil => exact .nil _
    | cons hab _ ih =>
      exact .cons ⟨(hP _ _ _ hs hp hab.1).mp hab.2, hab.1⟩ (ih (hI _ _ _ hs hp hab.1) hab.2)
  · intro h
    induction h with
    | nil => exact .nil _
    | cons hab _ ih =>
      have ht := (hP _ _ _ hs hp hab.2).mpr hab.1
      exact .cons ⟨hab.2, ht⟩ (ih (hI _ _ _ hs hp hab.2) ht)

end Leg.Runs
