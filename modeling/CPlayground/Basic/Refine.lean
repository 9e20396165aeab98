import Mathlib.Data.Option.Basic

set_option autoImplicit false

/-! # Refinement of machines

A machine answers an operation with a result and a new state, or it has no answer. An
implementation refines a specification when a relation between their states is kept by every
operation that the specification answers, with the same result (`Refines`). Then it answers
every sequence of operations that the specification answers, with the same results
(`Refines.answers`).
-/

namespace CPlayground

universe u v w x

/-- A machine with states in `σ`, operations in `ω` and results in `ρ`. -/
abbrev Machine (σ : Type u) (ω : Type v) (ρ : Type w) := σ → ω → Option (ρ × σ)

section Machine

variable {σ : Type u} {τ : Type x} {ω : Type v} {ρ : Type w}

/-- The results of a sequence of operations, and the state after it. -/
def Machine.answers (step : Machine σ ω ρ) : σ → List ω → Option (List ρ × σ)
  | s, [] => some ([], s)
  | s, op :: ops =>
      (step s op).bind fun r => (Machine.answers step r.2 ops).map fun rs => (r.1 :: rs.1, rs.2)

/-- `R` is kept by every operation that the specification answers. -/
def Refines (impl : Machine σ ω ρ) (spec : Machine τ ω ρ) (R : σ → τ → Prop) : Prop :=
  ∀ s t op r t', R s t → spec t op = some (r, t') → ∃ s', impl s op = some (r, s') ∧ R s' t'

/-- **The refinement rule.** -/
theorem Refines.answers {impl : Machine σ ω ρ} {spec : Machine τ ω ρ} {R : σ → τ → Prop}
    (h : Refines impl spec R) {ops : List ω} {s : σ} {t t' : τ} {rs : List ρ} (hR : R s t)
    (hspec : spec.answers t ops = some (rs, t')) :
    ∃ s', impl.answers s ops = some (rs, s') ∧ R s' t' := by
  induction ops generalizing s t rs with
  | nil =>
      simp only [Machine.answers, Option.some.injEq, Prod.mk.injEq] at hspec
      obtain ⟨rfl, rfl⟩ := hspec
      exact ⟨s, rfl, hR⟩
  | cons op ops ih =>
      obtain ⟨⟨r, t₁⟩, hop, hrest⟩ := Option.bind_eq_some_iff.1 hspec
      obtain ⟨⟨rs₁, t₂⟩, hops, hend⟩ := Option.map_eq_some_iff.1 hrest
      simp only [Prod.mk.injEq] at hend
      obtain ⟨rfl, rfl⟩ := hend
      -- one operation by the hypothesis, the others by induction
      obtain ⟨s₁, hop', hR₁⟩ := h s t op r t₁ hR hop
      obtain ⟨s₂, hops', hR₂⟩ := ih hR₁ hops
      refine ⟨s₂, ?_, hR₂⟩
      simp [Machine.answers, hop', hops']

end Machine

end CPlayground
