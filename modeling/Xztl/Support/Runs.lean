import Mathlib.Data.List.Basic

/-!
# Support — runs of a partial step function

A system is a step function `step : σ → α → Option σ`: operation `a` in state `s` leads to
`step s a`, or does not return.  `Runs step G s as s'` is a run from `s` to `s'` through the
operations `as`, each of which returns and meets the guard `G` in the state it is issued in.

`Runs.invariant` is the induction every safety result uses: what one guarded step preserves, a
run preserves.  `Except.bind_eq_ok` takes a fallible sequence of calls apart.
-/

/-- A sequence of two fallible computations returns when both do. -/
theorem Except.bind_eq_ok {ε α β : Type} {x : Except ε α} {f : α → Except ε β} {b : β} :
    (x >>= f) = .ok b ↔ ∃ a, x = .ok a ∧ f a = .ok b := by
  cases x with
  | error e =>
    constructor
    · intro h
      cases h
    · rintro ⟨a, h, -⟩
      cases h
  | ok a =>
    constructor
    · intro h
      exact ⟨a, rfl, h⟩
    · rintro ⟨a', h, h'⟩
      cases h
      exact h'

theorem Except.toOption_eq_some {ε α : Type} {x : Except ε α} {a : α} :
    x.toOption = some a ↔ x = .ok a := by
  cases x with
  | error e => exact iff_of_false nofun nofun
  | ok b => exact ⟨fun h => congrArg _ (Option.some.inj h), fun h => by cases h; rfl⟩

theorem Except.toOption_bind_eq_some {ε α β : Type} {x : Except ε α} {f : α → Option β} {b : β} :
    x.toOption.bind f = some b ↔ ∃ a, x = .ok a ∧ f a = some b := by
  simp only [Option.bind_eq_some_iff, Except.toOption_eq_some]

/-- A run through `as`, every step guarded by `G`. -/
inductive Runs {σ α : Type*} (step : σ → α → Option σ) (G : σ → α → Prop) :
    σ → List α → σ → Prop where
  | nil (s : σ) : Runs step G s [] s
  | cons {s s₁ s' : σ} {a : α} {as : List α} (g : G s a) (h : step s a = some s₁)
      (t : Runs step G s₁ as s') : Runs step G s (a :: as) s'

namespace Runs

variable {σ α : Type*} {step : σ → α → Option σ} {G G' : σ → α → Prop}

/-- An invariant of the guarded steps is an invariant of the guarded runs. -/
theorem invariant {I : σ → Prop}
    (hstep : ∀ s a s', I s → G s a → step s a = some s' → I s')
    {s s' : σ} {as : List α} (h : Runs step G s as s') (hs : I s) : I s' := by
  induction h with
  | nil => exact hs
  | cons g h _ ih => exact ih (hstep _ _ _ hs g h)

theorem mono (hG : ∀ s a, G s a → G' s a) {s s' : σ} {as : List α}
    (h : Runs step G s as s') : Runs step G' s as s' := by
  induction h with
  | nil s => exact .nil s
  | cons g h _ ih => exact .cons (hG _ _ g) h ih

theorem append {s s1 s' : σ} {as bs : List α} (h1 : Runs step G s as s1)
    (h2 : Runs step G s1 bs s') : Runs step G s (as ++ bs) s' := by
  induction h1 with
  | nil => exact h2
  | cons g h _ ih => exact .cons g h (ih h2)

theorem of_append {s s' : σ} {as bs : List α} (h : Runs step G s (as ++ bs) s') :
    ∃ s1, Runs step G s as s1 ∧ Runs step G s1 bs s' := by
  induction as generalizing s with
  | nil => exact ⟨s, .nil s, h⟩
  | cons a as ih =>
    cases h with
    | cons g h1 t =>
      obtain ⟨s1, h2, h3⟩ := ih t
      exact ⟨s1, .cons g h1 h2, h3⟩

theorem one {s s' : σ} {a : α} (g : G s a) (h : step s a = some s') : Runs step G s [a] s' :=
  .cons g h (.nil _)

/-- A run without a guard can be evaluated. -/
theorem of_foldlM {s s' : σ} {as : List α} (h : as.foldlM step s = some s') :
    Runs step (fun _ _ => True) s as s' := by
  induction as generalizing s with
  | nil =>
    cases h
    exact .nil _
  | cons a as ih =>
    rw [List.foldlM_cons] at h
    obtain ⟨s1, h1, h2⟩ := Option.bind_eq_some_iff.mp h
    exact .cons trivial h1 (ih h2)

theorem foldlM {s s' : σ} {as : List α} (h : Runs step G s as s') : as.foldlM step s = some s' := by
  induction h with
  | nil => rfl
  | cons _ hs _ ih =>
    rw [List.foldlM_cons, hs]
    exact ih

/-- A run of another system whose steps and guards cover these. -/
theorem map {β : Type*} {step' : σ → β → Option σ} {H : σ → β → Prop} (f : α → β)
    (hstep : ∀ s a s', step s a = some s' → step' s (f a) = some s')
    (hG : ∀ s a, G s a → H s (f a)) {s s' : σ} {as : List α} (h : Runs step G s as s') :
    Runs step' H s (as.map f) s' := by
  induction h with
  | nil s => exact .nil s
  | cons g h _ ih => exact .cons (hG _ _ g) (hstep _ _ _ h) ih

end Runs
