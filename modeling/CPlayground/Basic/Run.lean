import Mathlib.Logic.Relation

set_option autoImplicit false

/-! # Runs of a transition system

A system is given by its initial states and its steps; a state is reachable when a run leads
to it. Five rules carry every argument about runs: an invariant that each step keeps holds of
every reachable state (`Reachable.invariant`), a relation that each step keeps ties two runs
together (`Reachable.related`), a mapping of states under which a step is a step or nothing
carries runs over (`Reachable.image`), steps that lower a measure come to an end
(`Reachable.exhaust`), and a goal is reached when, short of it, some step lowers a measure
(`leads_to`). Labelled steps come from a partial function
`step : σ → α → Option σ`, which evaluates on concrete runs (`execute`); the runs all of whose
steps meet a condition are those that lose nothing (`execute_guarded_iff`).
-/

namespace CPlayground

universe u v w

/-! ## Reachable states -/

section Reachable

variable {σ : Type u} {τ : Type v}

/-- A run of `step` leads from an initial state to `s`. -/
def Reachable (init : σ → Prop) (step : σ → σ → Prop) (s : σ) : Prop :=
  ∃ s₀, init s₀ ∧ Relation.ReflTransGen step s₀ s

variable {init : σ → Prop} {step : σ → σ → Prop}

theorem Reachable.start {s : σ} (h : init s) : Reachable init step s := ⟨s, h, .refl⟩

theorem Reachable.next {s s' : σ} (h : Reachable init step s) (hstep : step s s') :
    Reachable init step s' := by
  obtain ⟨s₀, h₀, hrun⟩ := h
  exact ⟨s₀, h₀, hrun.tail hstep⟩

theorem Reachable.trans {s s' : σ} (h : Reachable init step s)
    (hrun : Relation.ReflTransGen step s s') : Reachable init step s' := by
  obtain ⟨s₀, h₀, hrun₀⟩ := h
  exact ⟨s₀, h₀, hrun₀.trans hrun⟩

/-- **The invariant rule.** A step may use what is already known of every reachable state. -/
theorem Reachable.invariant (P : σ → Prop) (h₀ : ∀ s, init s → P s)
    (hstep : ∀ s s', Reachable init step s → P s → step s s' → P s') {s : σ}
    (h : Reachable init step s) : P s := by
  obtain ⟨s₀, hi, hrun⟩ := h
  induction hrun with
  | refl => exact h₀ s₀ hi
  | tail hab hbc ih => exact hstep _ _ ⟨s₀, hi, hab⟩ ih hbc

/-- Fewer steps reach fewer states. -/
theorem Reachable.mono {step' : σ → σ → Prop} (hle : ∀ s s', step s s' → step' s s') {s : σ}
    (h : Reachable init step s) : Reachable init step' s := by
  obtain ⟨s₀, hi, hrun⟩ := h
  exact ⟨s₀, hi, Relation.ReflTransGen.mono (fun a b => hle a b) s₀ s hrun⟩

/-- **The rule for two runs.** When every step keeps `R` by a step on the other side, a run on
one side has a run on the other whose end is related to its own. -/
theorem Reachable.related {init' : τ → Prop} {step' : τ → τ → Prop} (R : σ → τ → Prop)
    (h₀ : ∀ s, init s → ∃ t, init' t ∧ R s t)
    (hstep : ∀ s t s', R s t → step s s' → ∃ t', step' t t' ∧ R s' t')
    {s : σ} (h : Reachable init step s) : ∃ t, Reachable init' step' t ∧ R s t := by
  refine Reachable.invariant (fun s => ∃ t, Reachable init' step' t ∧ R s t) ?_ ?_ h
  · intro s hs
    obtain ⟨t, ht, hr⟩ := h₀ s hs
    exact ⟨t, Reachable.start ht, hr⟩
  · rintro s s' - ⟨t, ht, hr⟩ hs
    obtain ⟨t', ht', hr'⟩ := hstep s t s' hr hs
    exact ⟨t', ht.next ht', hr'⟩

/-- **The rule of the refinement mapping.** When every step is a step between the images of its
states, or one that the images do not show, a run has a run between the images. -/
theorem Reachable.image {init' : τ → Prop} {step' : τ → τ → Prop} (f : σ → τ)
    (h₀ : ∀ s, init s → init' (f s))
    (hstep : ∀ s s', Reachable init step s → step s s' → f s' = f s ∨ step' (f s) (f s'))
    {s s' : σ} (h : Reachable init step s) (hrun : Relation.ReflTransGen step s s') :
    Reachable init' step' (f s) ∧ Relation.ReflTransGen step' (f s) (f s') := by
  constructor
  · refine Reachable.invariant (fun s => Reachable init' step' (f s)) ?_ ?_ h
    · exact fun s hs => Reachable.start (h₀ s hs)
    · intro s s' hreach ih hs
      rcases hstep s s' hreach hs with hsame | hnext
      · rw [hsame]
        exact ih
      · exact ih.next hnext
  · induction hrun with
    | refl => exact .refl
    | @tail b c hab hbc ih =>
        have hb : Reachable init step b := h.trans hab
        -- a step that the images do not show adds nothing to their run
        rcases hstep b c hb hbc with hsame | hnext
        · rw [hsame]
          exact ih
        · exact ih.tail hnext

/-- **The rule of the measure.** When each step of a kind keeps `P` and lowers a measure, a run
of such steps leads to a state that has none. -/
theorem Reachable.exhaust {step' : σ → σ → Prop} (P : σ → Prop) (μ : σ → Nat)
    (hle : ∀ s s', step' s s' → step s s')
    (hstep : ∀ s s', Reachable init step s → P s → step' s s' → P s' ∧ μ s' < μ s) {s : σ}
    (h : Reachable init step s) (hP : P s) :
    ∃ s', Reachable init step s' ∧ P s' ∧ ∀ s'', ¬ step' s' s'' := by
  induction hn : μ s using Nat.strongRecOn generalizing s with
  | ind n ih =>
      by_cases hmore : ∃ s', step' s s'
      · obtain ⟨s', hs'⟩ := hmore
        obtain ⟨hP', hlt⟩ := hstep s s' h hP hs'
        exact ih (μ s') (hn ▸ hlt) (h.next (hle s s' hs')) hP' rfl
      · exact ⟨s, h, hP, fun s'' hs'' => hmore ⟨s'', hs''⟩⟩

/-- **The rule of the goal.** When in every state that satisfies `P` and not yet `Q` some step keeps
`P` and lowers a measure, some run leads to `Q`. -/
theorem leads_to {step : σ → σ → Prop} (P Q : σ → Prop) (μ : σ → Nat)
    (hstep : ∀ s, P s → ¬ Q s → ∃ s', step s s' ∧ P s' ∧ μ s' < μ s) {s : σ} (hP : P s) :
    ∃ s', Relation.ReflTransGen step s s' ∧ P s' ∧ Q s' := by
  induction hn : μ s using Nat.strongRecOn generalizing s with
  | ind n ih =>
      by_cases hQ : Q s
      · exact ⟨s, .refl, hP, hQ⟩
      · obtain ⟨s₁, hs₁, hP₁, hlt⟩ := hstep s hP hQ
        obtain ⟨s', hrun, hP', hQ'⟩ := ih (μ s₁) (hn ▸ hlt) hP₁ rfl
        exact ⟨s', .head hs₁ hrun, hP', hQ'⟩

end Reachable

/-! ## Labelled steps -/

section Labelled

variable {σ : Type u} {α : Type w}

/-- Some action leads from `s` to `s'`. -/
def Steps (step : σ → α → Option σ) (s s' : σ) : Prop := ∃ a, step s a = some s'

/-- Some action that meets the condition `C` leads from `s` to `s'`. -/
def StepsIf (C : σ → α → Prop) (step : σ → α → Option σ) (s s' : σ) : Prop :=
  ∃ a, C s a ∧ step s a = some s'

theorem StepsIf.steps {C : σ → α → Prop} {step : σ → α → Option σ} {s s' : σ}
    (h : StepsIf C step s s') : Steps step s s' := by
  obtain ⟨a, -, ha⟩ := h
  exact ⟨a, ha⟩

/-- Take the given actions one after the other. -/
def execute (step : σ → α → Option σ) : σ → List α → Option σ
  | s, [] => some s
  | s, a :: as => (step s a).bind fun s' => execute step s' as

theorem reachable_execute {init : σ → Prop} {step : σ → α → Option σ} {as : List α} {s s' : σ}
    (hs : Reachable init (Steps step) s) (h : execute step s as = some s') :
    Reachable init (Steps step) s' := by
  induction as generalizing s with
  | nil =>
      cases h
      exact hs
  | cons a as ih =>
      obtain ⟨s₁, h₁, hrest⟩ := Option.bind_eq_some_iff.1 h
      exact ih (hs.next ⟨a, h₁⟩) hrest

/-- A run that is carried out one step after the other reaches a state as it was computed. -/
theorem reachable_run (init : σ → Prop) {step : σ → α → Option σ} {s₀ : σ} (h₀ : init s₀)
    (as : List α) (p : σ → Bool) (h : (execute step s₀ as).any p = true) :
    ∃ s, Reachable init (Steps step) s ∧ p s = true := by
  obtain ⟨s, hs, hp⟩ := (Option.any_eq_true p _).1 h
  exact ⟨s, reachable_execute (Reachable.start h₀) hs, hp⟩

/-- The steps that meet the condition `C`, as a partial function. -/
def guarded (C : σ → α → Prop) [∀ s a, Decidable (C s a)] (step : σ → α → Option σ) (s : σ)
    (a : α) : Option σ :=
  if C s a then step s a else none

/-- The same for steps that meet a condition. -/
theorem reachable_guarded {C : σ → α → Prop} [∀ s a, Decidable (C s a)]
    {step : σ → α → Option σ} {s₀ : σ} (as : List α) (p : σ → Bool)
    (h : (execute (guarded C step) s₀ as).any p = true) :
    ∃ s, Reachable (· = s₀) (StepsIf C step) s ∧ p s = true := by
  obtain ⟨s, hs, hp⟩ := reachable_run (· = s₀) rfl as p h
  refine ⟨s, Reachable.mono ?_ hs, hp⟩
  intro s₁ s₂ ⟨a, ha⟩
  obtain ⟨hc, hstep⟩ := Option.ite_none_right_eq_some.1 ha
  exact ⟨a, hc, hstep⟩

/-- **The rule of the guard.** A step that breaks the condition `C` is one after which something
is lost that no later step brings back: the guarded runs are the runs that lose nothing. -/
theorem execute_guarded_iff {C : σ → α → Prop} [∀ s a, Decidable (C s a)]
    {step : σ → α → Option σ} (Inv Lost : σ → Prop)
    (hinv : ∀ s a s', Inv s → step s a = some s' → Inv s')
    (hlost : ∀ s a s', Inv s → step s a = some s' → (Lost s' ↔ Lost s ∨ ¬ C s a))
    {as : List α} {s s' : σ} (hs : Inv s) (hkept : ¬ Lost s) :
    execute (guarded C step) s as = some s' ↔ execute step s as = some s' ∧ ¬ Lost s' := by
  -- what is lost stays lost
  have hstay : ∀ (as : List α) (s : σ), Inv s → Lost s → execute step s as = some s' → Lost s' := by
    intro as
    induction as with
    | nil =>
        intro s _ hl h
        cases h
        exact hl
    | cons a as ih =>
        intro s hi hl h
        obtain ⟨s₁, h₁, hrest⟩ := Option.bind_eq_some_iff.1 h
        exact ih s₁ (hinv s a s₁ hi h₁) ((hlost s a s₁ hi h₁).2 (.inl hl)) hrest
  induction as generalizing s with
  | nil =>
      simp only [execute, Option.some.injEq]
      exact ⟨fun h => ⟨h, h ▸ hkept⟩, And.left⟩
  | cons a as ih =>
      simp only [execute, Option.bind_eq_some_iff]
      constructor
      · rintro ⟨s₁, h₁, hrest⟩
        obtain ⟨hc, hstep⟩ := Option.ite_none_right_eq_some.1 h₁
        have hl := hlost s a s₁ hs hstep
        have hkept₁ : ¬ Lost s₁ := fun h => (hl.1 h).elim hkept fun hn => hn hc
        obtain ⟨hrun, hend⟩ := (ih (hinv s a s₁ hs hstep) hkept₁).1 hrest
        exact ⟨⟨s₁, hstep, hrun⟩, hend⟩
      · rintro ⟨⟨s₁, hstep, hrun⟩, hend⟩
        have hi := hinv s a s₁ hs hstep
        have hkept₁ : ¬ Lost s₁ := fun h => hend (hstay as s₁ hi h hrun)
        have hc : C s a := Decidable.of_not_not fun hn =>
          hkept₁ ((hlost s a s₁ hs hstep).2 (.inr hn))
        exact ⟨s₁, Option.ite_none_right_eq_some.2 ⟨hc, hstep⟩, (ih hi hkept₁).2 ⟨hrun, hend⟩⟩

end Labelled

end CPlayground
