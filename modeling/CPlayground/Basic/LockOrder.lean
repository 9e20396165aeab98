import CPlayground.Basic.Threads

set_option autoImplicit false

/-! # Mutexes that are taken in order

A thread that cannot take a step is blocked on a condition variable, waits for a mutex that
another thread owns, or is at an instruction that the choice does not enable
(`Locked.enabled_by`).
When a thread that holds a mutex waits only for mutexes of a higher rank, every chain of threads
that wait for each other ends with a thread that waits for nobody (`Locked.exists_head`).
-/

namespace CPlayground.Threads

variable {T M V σ χ : Type} {P : T → Type}

/-- The next step of `t` takes the mutex `m`. -/
def State.Needs (code : Code T M V σ χ P) (s : State T M V σ P) (t : T) (m : M) : Prop :=
  (∃ next, code t (s.pc t) = .lock m next) ∨
    s.sleep t = .woken ∧ ∃ c next, code t (s.pc t) = .wait c m next

/-- The thread can take a step. -/
def State.Enabled [DecidableEq T] [DecidableEq M] [DecidableEq V] [Fintype T]
    (code : Code T M V σ χ P) (s : State T M V σ P) (t : T) : Prop :=
  ∃ choice wakes, (step code s (.run t choice wakes)).isSome

variable {code : Code T M V σ χ P} {holds : (t : T) → P t → M → Bool} {s : State T M V σ P} {t : T}

/-! ## Chains of owners -/

theorem Locked.holding_of_waitsOn (h : Locked code holds s) {u : T} (hw : s.WaitsOn code t u) :
    ∃ m, s.Needs code t m ∧ s.Holding code holds u m := by
  obtain ⟨m, hown, hneeds⟩ := hw
  exact ⟨m, hneeds, (h.owner m u).1 hown⟩

/-- **Mutexes that are taken in order do not deadlock**: whoever waits for a mutex waits, in the
end, for a thread that waits for nobody. -/
theorem Locked.exists_head (h : Locked code holds s) (rank : M → Nat) {bound : Nat}
    (hbound : ∀ m, rank m ≤ bound)
    (horder : ∀ u m m', s.Holding code holds u m → s.Needs code u m' → rank m < rank m')
    {u : T} (hw : s.WaitsOn code t u) :
    ∃ v, Relation.TransGen (s.WaitsOn code) t v ∧ ∀ v', ¬ s.WaitsOn code v v' := by
  -- by induction on what is left above the rank of a mutex that `u` holds
  have key : ∀ left t u m, s.WaitsOn code t u → s.Holding code holds u m →
      bound - rank m ≤ left →
      ∃ v, Relation.TransGen (s.WaitsOn code) t v ∧ ∀ v', ¬ s.WaitsOn code v v' := by
    intro left
    induction left with
    | zero =>
        intro t u m hw hholding hleft
        refine ⟨u, .single hw, ?_⟩
        intro v hv
        obtain ⟨m', hneeds, -⟩ := h.holding_of_waitsOn hv
        have hlt := horder u m m' hholding hneeds
        have hle := hbound m'
        omega
    | succ left ih =>
        intro t u m hw hholding hleft
        by_cases hmore : ∃ v, s.WaitsOn code u v
        · obtain ⟨v, hv⟩ := hmore
          obtain ⟨m', hneeds, hholding'⟩ := h.holding_of_waitsOn hv
          have hlt := horder u m m' hholding hneeds
          have hle := hbound m'
          obtain ⟨w, hchain, hlast⟩ := ih u v m' hv hholding' (by omega)
          exact ⟨w, .head hw hchain, hlast⟩
        · exact ⟨u, .single hw, fun v hv => hmore ⟨v, hv⟩⟩
  obtain ⟨m, -, hholding⟩ := h.holding_of_waitsOn hw
  exact key _ t u m hw hholding (Nat.le_refl _)

/-! ## What keeps a thread from going on -/

variable [DecidableEq T] [DecidableEq M] [DecidableEq V] [Fintype T]

omit [DecidableEq T] [DecidableEq M] [DecidableEq V] [Fintype T] in
/-- A mutex that is needed is free, or somebody is waited for. -/
theorem free_of_needs {m : M} (hneeds : s.Needs code t m) (hnobody : ∀ u, ¬ s.WaitsOn code t u) :
    s.owner m = none := by
  by_contra hne
  obtain ⟨u, hu⟩ := Option.ne_none_iff_exists'.1 hne
  exact hnobody u ⟨m, hu, hneeds⟩

/-- **Why a thread stands still**: when it is not blocked, waits for no mutex and its instruction
has an effect, it can take a step. -/
theorem Locked.enabled_by (h : Locked code holds s)
    (hcode : ∀ t p, (code t p).Respects (holds t) p)
    (hawake : ∀ c, s.sleep t ≠ .blocked c) (hnobody : ∀ u, ¬ s.WaitsOn code t u) {choice : χ}
    (heffect : ((code t (s.pc t)).effect s.data choice).isSome) :
    ∃ wakes, (Threads.step code s (.run t choice wakes)).isSome := by
  have hr := hcode t (s.pc t)
  cases hi : code t (s.pc t) with
  | lock m next =>
      have hfree := free_of_needs (.inl ⟨next, hi⟩) hnobody
      exact ⟨fun _ => true, by rw [step_lock hi hfree]; rfl⟩
  | unlock m next =>
      rw [hi] at hr
      have hown := h.owner_of hr.1 (by simp [hi])
      exact ⟨fun _ => true, by rw [step_unlock hi hown]; rfl⟩
  | wait c m next =>
      rw [hi] at hr
      cases hsleep : s.sleep t with
      | awake =>
          have hown : s.owner m = some t := (h.owner m t).2 ⟨hr.1, .inl hsleep⟩
          exact ⟨fun _ => true, by simp [Threads.step, hi, hsleep, hown]⟩
      | blocked c => exact absurd hsleep (hawake c)
      | woken =>
          have hfree := free_of_needs (.inr ⟨hsleep, c, next, hi⟩) hnobody
          exact ⟨fun _ => true, by simp [Threads.step, hi, hsleep, hfree]⟩
  | signal c next =>
      -- waking everybody is a signal
      have hok : SignalOk c (fun _ => true) s.sleep := by
        by_cases hsome : ∃ u, s.sleep u = .blocked c
        · obtain ⟨u, hu⟩ := hsome
          exact .inr ⟨u, rfl, hu⟩
        · exact .inl fun u hu => hsome ⟨u, hu⟩
      exact ⟨fun _ => true, by simp [Threads.step, hi, hok]⟩
  | broadcast c next => exact ⟨fun _ => true, by simp [Threads.step, hi]⟩
  | act f =>
      rw [hi] at heffect
      exact ⟨fun _ => true, by rw [step_act hi, Option.isSome_map]; exact heffect⟩
  | halt =>
      rw [hi] at heffect
      cases heffect

theorem Locked.enabled (h : Locked code holds s)
    (hcode : ∀ t p, (code t p).Respects (holds t) p)
    (hawake : ∀ c, s.sleep t ≠ .blocked c) (hnobody : ∀ u, ¬ s.WaitsOn code t u)
    (hact : ∃ choice, ((code t (s.pc t)).effect s.data choice).isSome) : s.Enabled code t := by
  obtain ⟨choice, heffect⟩ := hact
  obtain ⟨wakes, hs⟩ := h.enabled_by hcode hawake hnobody heffect
  exact ⟨choice, wakes, hs⟩

end CPlayground.Threads
