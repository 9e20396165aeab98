import CPlayground.Basic.Run
import Mathlib.Algebra.BigOperators.Group.Finset.Basic
import Mathlib.Algebra.Order.BigOperators.Group.Finset
import Mathlib.Data.Fintype.BigOperators
import Mathlib.Logic.Function.Basic

set_option autoImplicit false

/-! # Threads, mutexes and condition variables

Threads that share data run interleaved, one atomic instruction at a time. A program gives
each thread the instruction at each of its program points: it locks or unlocks a mutex, waits
on a condition variable, signals or broadcasts one, or acts on the shared data. A wait gives
up its mutex and blocks in one step; a blocked thread is woken by a signal, by a broadcast, or
for no reason, and then takes the mutex again before it goes on. A signal wakes at least one
blocked thread if there is one.

`Runs` says what a step of a thread can do. `Locked` is mutual exclusion: when the program
takes and gives up its mutexes where the annotation `holds` says so (`Respects`), a mutex is
owned by the one thread whose program point holds it.
-/

namespace CPlayground.Threads

/-! ## Programs and their states -/

/-- One atomic instruction of a thread with program points in `P`, over shared data in `σ`.
The third kind is `pthread_cond_wait`; `act` reads and writes the data, with a choice of the
environment in `χ`, and is not enabled where it gives `none`. -/
inductive Instr (M V σ χ P : Type)
  | lock (m : M) (next : P)
  | unlock (m : M) (next : P)
  | wait (c : V) (m : M) (next : P)
  | signal (c : V) (next : P)
  | broadcast (c : V) (next : P)
  | act (f : σ → χ → Option (σ × P))
  | halt

/-- The program: the instruction at each program point of each thread. -/
abbrev Code (T M V σ χ : Type) (P : T → Type) := (t : T) → P t → Instr M V σ χ (P t)

/-- Whether a thread is inside a wait: blocked on `c`, or woken and about to take the mutex. -/
inductive Sleep (V : Type)
  | awake
  | blocked (c : V)
  | woken
  deriving DecidableEq

structure State (T M V σ : Type) (P : T → Type) where
  data : σ
  owner : M → Option T
  pc : (t : T) → P t
  sleep : T → Sleep V

/-- A thread takes a step with a `choice`, and wakes the threads in `wakes` if it signals; or
a blocked thread wakes up for no reason. -/
inductive Action (T χ : Type)
  | run (t : T) (choice : χ) (wakes : T → Bool)
  | spurious (t : T)

section Machine

variable {T M V σ χ : Type} {P : T → Type} [DecidableEq T] [DecidableEq M] [DecidableEq V]

/-- The threads of `wakes` that are blocked on `c` wake up. -/
def wake (c : V) (wakes : T → Bool) (sleep : T → Sleep V) : T → Sleep V := fun t =>
  if sleep t = .blocked c ∧ wakes t = true then .woken else sleep t

/-- What a signal has to wake: some thread, if one is blocked. -/
def SignalOk (c : V) (wakes : T → Bool) (sleep : T → Sleep V) : Prop :=
  (∀ t, sleep t ≠ .blocked c) ∨ ∃ t, wakes t = true ∧ sleep t = .blocked c

instance [Fintype T] (c : V) (wakes : T → Bool) (sleep : T → Sleep V) :
    Decidable (SignalOk c wakes sleep) :=
  inferInstanceAs (Decidable (_ ∨ _))

/-- One step. An action that is not enabled gives `none`. -/
def step [Fintype T] (code : Code T M V σ χ P) (s : State T M V σ P) :
    Action T χ → Option (State T M V σ P)
  | .spurious t =>
      match s.sleep t with
      | .blocked _ => some { s with sleep := Function.update s.sleep t .woken }
      | _ => none
  | .run t choice wakes =>
      match code t (s.pc t) with
      | .lock m next =>
          if s.owner m = none then
            some { s with owner := Function.update s.owner m (some t)
                          pc := Function.update s.pc t next }
          else none
      | .unlock m next =>
          if s.owner m = some t then
            some { s with owner := Function.update s.owner m none
                          pc := Function.update s.pc t next }
          else none
      | .wait c m next =>
          match s.sleep t with
          | .awake =>
              if s.owner m = some t then
                some { s with owner := Function.update s.owner m none
                              sleep := Function.update s.sleep t (.blocked c) }
              else none
          | .blocked _ => none
          | .woken =>
              if s.owner m = none then
                some { s with owner := Function.update s.owner m (some t)
                              sleep := Function.update s.sleep t .awake
                              pc := Function.update s.pc t next }
              else none
      | .signal c next =>
          if SignalOk c wakes s.sleep then
            some { s with sleep := wake c wakes s.sleep, pc := Function.update s.pc t next }
          else none
      | .broadcast c next =>
          some { s with sleep := wake c (fun _ => true) s.sleep
                        pc := Function.update s.pc t next }
      | .act f =>
          (f s.data choice).map fun r =>
            { s with data := r.1, pc := Function.update s.pc t r.2 }
      | .halt => none

theorem step_act [Fintype T] {code : Code T M V σ χ P} {s : State T M V σ P} {t : T} {choice : χ}
    {wakes : T → Bool} {f : σ → χ → Option (σ × P t)} (hi : code t (s.pc t) = .act f) :
    step code s (.run t choice wakes) = (f s.data choice).map fun r =>
      { s with data := r.1, pc := Function.update s.pc t r.2 } := by
  simp only [step, hi]

theorem step_lock [Fintype T] {code : Code T M V σ χ P} {s : State T M V σ P} {t : T} {choice : χ}
    {wakes : T → Bool} {m : M} {next : P t} (hi : code t (s.pc t) = .lock m next)
    (hfree : s.owner m = none) :
    step code s (.run t choice wakes) = some { s with
      owner := Function.update s.owner m (some t), pc := Function.update s.pc t next } := by
  simp only [step, hi, hfree, if_true]

theorem step_unlock [Fintype T] {code : Code T M V σ χ P} {s : State T M V σ P} {t : T} {choice : χ}
    {wakes : T → Bool} {m : M} {next : P t} (hi : code t (s.pc t) = .unlock m next)
    (hown : s.owner m = some t) :
    step code s (.run t choice wakes) = some { s with
      owner := Function.update s.owner m none, pc := Function.update s.pc t next } := by
  simp only [step, hi, hown, if_true]

theorem step_block [Fintype T] {code : Code T M V σ χ P} {s : State T M V σ P} {t : T} {choice : χ}
    {wakes : T → Bool} {c : V} {m : M} {next : P t} (hi : code t (s.pc t) = .wait c m next)
    (hawake : s.sleep t = .awake) (hown : s.owner m = some t) :
    step code s (.run t choice wakes) = some { s with
      owner := Function.update s.owner m none
      sleep := Function.update s.sleep t (.blocked c) } := by
  simp only [step, hi, hawake, hown, if_true]

theorem step_resume [Fintype T] {code : Code T M V σ χ P} {s : State T M V σ P} {t : T} {choice : χ}
    {wakes : T → Bool} {c : V} {m : M} {next : P t} (hi : code t (s.pc t) = .wait c m next)
    (hwoken : s.sleep t = .woken) (hfree : s.owner m = none) :
    step code s (.run t choice wakes) = some { s with
      owner := Function.update s.owner m (some t)
      sleep := Function.update s.sleep t .awake
      pc := Function.update s.pc t next } := by
  simp only [step, hi, hwoken, hfree, if_true]

theorem step_spurious [Fintype T] {code : Code T M V σ χ P} {s : State T M V σ P} {t : T} {c : V}
    (hblocked : s.sleep t = .blocked c) :
    step code s (.spurious t) = some { s with
      sleep := Function.update s.sleep t .woken } := by
  simp only [step, hblocked]

/-! ## What a step can do -/

/-- What a step of the thread `t` can do. -/
inductive Runs (code : Code T M V σ χ P) (s : State T M V σ P) (t : T) (choice : χ)
    (wakes : T → Bool) : State T M V σ P → Prop
  | lock {m : M} {next : P t} (hi : code t (s.pc t) = .lock m next) (hfree : s.owner m = none) :
      Runs code s t choice wakes { s with owner := Function.update s.owner m (some t)
                                          pc := Function.update s.pc t next }
  | unlock {m : M} {next : P t} (hi : code t (s.pc t) = .unlock m next)
      (hown : s.owner m = some t) :
      Runs code s t choice wakes { s with owner := Function.update s.owner m none
                                          pc := Function.update s.pc t next }
  | block {c : V} {m : M} {next : P t} (hi : code t (s.pc t) = .wait c m next)
      (hawake : s.sleep t = .awake) (hown : s.owner m = some t) :
      Runs code s t choice wakes { s with owner := Function.update s.owner m none
                                          sleep := Function.update s.sleep t (.blocked c) }
  | resume {c : V} {m : M} {next : P t} (hi : code t (s.pc t) = .wait c m next)
      (hwoken : s.sleep t = .woken) (hfree : s.owner m = none) :
      Runs code s t choice wakes { s with owner := Function.update s.owner m (some t)
                                          sleep := Function.update s.sleep t .awake
                                          pc := Function.update s.pc t next }
  | signal {c : V} {next : P t} (hi : code t (s.pc t) = .signal c next)
      (hok : SignalOk c wakes s.sleep) :
      Runs code s t choice wakes { s with sleep := wake c wakes s.sleep
                                          pc := Function.update s.pc t next }
  | broadcast {c : V} {next : P t} (hi : code t (s.pc t) = .broadcast c next) :
      Runs code s t choice wakes { s with sleep := wake c (fun _ => true) s.sleep
                                          pc := Function.update s.pc t next }
  | act {f : σ → χ → Option (σ × P t)} {d : σ} {next : P t} (hi : code t (s.pc t) = .act f)
      (hf : f s.data choice = some (d, next)) :
      Runs code s t choice wakes { s with data := d, pc := Function.update s.pc t next }

variable {code : Code T M V σ χ P} {s s' : State T M V σ P} {a : Action T χ} {t : T}
  {choice : χ} {wakes : T → Bool}

/-- **Inversion of a step.** -/
theorem step_cases [Fintype T] (h : step code s a = some s') :
    (∃ t c, a = .spurious t ∧ s.sleep t = .blocked c ∧
      s' = { s with sleep := Function.update s.sleep t .woken }) ∨
    ∃ t choice wakes, a = .run t choice wakes ∧ Runs code s t choice wakes s' := by
  cases a with
  | spurious t =>
      simp only [step] at h
      split at h
      · rename_i c hc
        exact .inl ⟨t, c, rfl, hc, (Option.some.inj h).symm⟩
      · cases h
  | run t choice wakes =>
      refine .inr ⟨t, choice, wakes, rfl, ?_⟩
      simp only [step] at h
      split at h
      · rename_i m next hi
        split_ifs at h with hfree
        cases h
        exact .lock hi hfree
      · rename_i m next hi
        split_ifs at h with hown
        cases h
        exact .unlock hi hown
      · rename_i c m next hi
        split at h
        -- a wait: the thread blocks, or takes the mutex again once it is woken
        · rename_i hawake
          split_ifs at h with hown
          cases h
          exact .block hi hawake hown
        · cases h
        · rename_i hwoken
          split_ifs at h with hfree
          cases h
          exact .resume hi hwoken hfree
      · rename_i c next hi
        split_ifs at h with hok
        cases h
        exact .signal hi hok
      · rename_i c next hi
        cases h
        exact .broadcast hi
      · rename_i f hi
        obtain ⟨⟨d, next⟩, hf, he⟩ := Option.map_eq_some_iff.1 h
        cases he
        exact .act hi hf
      · cases h

/-- What an instruction does to the data, and where it leads. -/
def Instr.effect {P : Type} (d : σ) (choice : χ) : Instr M V σ χ P → Option (σ × P)
  | .lock _ next | .unlock _ next | .wait _ _ next | .signal _ next | .broadcast _ next =>
      some (d, next)
  | .act f => f d choice
  | .halt => none

/-- **A step, seen from the data and the program points.** The thread blocks, or it goes on as
its instruction says. -/
theorem Runs.effect (h : Runs code s t choice wakes s') :
    (s'.data = s.data ∧ s'.pc = s.pc ∧ s'.sleep t ≠ .awake) ∨
    ∃ next, (code t (s.pc t)).effect s.data choice = some (s'.data, next) ∧
      s'.pc = Function.update s.pc t next := by
  cases h with
  | lock hi _ | unlock hi _ | resume hi _ _ | signal hi _ | broadcast hi =>
      exact .inr ⟨_, by rw [hi]; rfl, rfl⟩
  | block hi _ _ => exact .inl ⟨rfl, rfl, by simp⟩
  | act hi hf => exact .inr ⟨_, by rw [hi]; exact hf, rfl⟩

theorem step_effect [Fintype T] (h : step code s a = some s') :
    (s'.data = s.data ∧ s'.pc = s.pc) ∨
    ∃ t choice wakes next, a = .run t choice wakes ∧
      (code t (s.pc t)).effect s.data choice = some (s'.data, next) ∧
      s'.pc = Function.update s.pc t next := by
  rcases step_cases h with ⟨t, c, -, -, rfl⟩ | ⟨t, choice, wakes, ha, hrun⟩
  · exact .inl ⟨rfl, rfl⟩
  · rcases hrun.effect with hsame | ⟨next, he, hpc⟩
    · exact .inl ⟨hsame.1, hsame.2.1⟩
    · exact .inr ⟨t, choice, wakes, next, ha, he, hpc⟩

omit [DecidableEq T] in
theorem wake_cases (c : V) (wakes : T → Bool) (sleep : T → Sleep V) (u : T) :
    wake c wakes sleep u = sleep u ∨
      sleep u = .blocked c ∧ wake c wakes sleep u = .woken := by
  by_cases hc : sleep u = .blocked c ∧ wakes u = true
  · exact .inr ⟨hc.1, if_pos hc⟩
  · exact .inl (if_neg hc)

omit [DecidableEq T] in
theorem wake_eq_awake (c : V) (wakes : T → Bool) (sleep : T → Sleep V) (u : T) :
    wake c wakes sleep u = .awake ↔ sleep u = .awake := by
  rcases wake_cases c wakes sleep u with h | ⟨h1, h2⟩
  · rw [h]
  · simp [h1, h2]

/-- A thread is awake only if it was, or because it has taken a step. -/
theorem Runs.awake_of_ne (h : Runs code s t choice wakes s') {u : T} (hu : u ≠ t)
    (hawake : s'.sleep u = .awake) : s.sleep u = .awake := by
  cases h with
  | lock _ _ | unlock _ _ | act _ _ => exact hawake
  | block _ _ _ | resume _ _ _ =>
      rw [← hawake]
      exact (Function.update_of_ne hu ..).symm
  | @signal c _ _ _ => exact (wake_eq_awake c wakes s.sleep u).1 hawake
  | @broadcast c _ _ => exact (wake_eq_awake c (fun _ => true) s.sleep u).1 hawake

/-- A thread owns a mutex only if it did, or because it has taken a step. -/
theorem Runs.owned_of_ne (h : Runs code s t choice wakes s') {u : T} (hu : u ≠ t) {m : M}
    (hown : s'.owner m = some u) : s.owner m = some u := by
  -- what `t` takes or gives up does not become the property of `u`
  have htaken : ∀ m', Function.update s.owner m' (some t) m = some u → s.owner m = some u := by
    intro m' h'
    by_cases hm : m = m'
    · subst hm
      rw [Function.update_self] at h'
      exact absurd (Option.some.inj h').symm hu
    · rwa [Function.update_of_ne hm] at h'
  have hgiven : ∀ m', Function.update s.owner m' none m = some u → s.owner m = some u := by
    intro m' h'
    by_cases hm : m = m'
    · subst hm
      rw [Function.update_self] at h'
      cases h'
    · rwa [Function.update_of_ne hm] at h'
  cases h with
  | lock _ _ | resume _ _ _ => exact htaken _ hown
  | unlock _ _ | block _ _ _ => exact hgiven _ hown
  | signal _ _ | broadcast _ | act _ _ => exact hown

theorem step_owned [Fintype T] (h : step code s a = some s') {u : T} {m : M}
    (hown : s'.owner m = some u) :
    s.owner m = some u ∨ ∃ choice wakes, a = .run u choice wakes := by
  rcases step_cases h with ⟨t, c, -, -, rfl⟩ | ⟨t, choice, wakes, rfl, hrun⟩
  · exact .inl hown
  · by_cases hu : u = t
    · subst hu
      exact .inr ⟨choice, wakes, rfl⟩
    · exact .inl (hrun.owned_of_ne hu hown)

/-- A thread owns a mutex until it takes a step itself. -/
theorem Runs.still_owned (h : Runs code s t choice wakes s') {u : T} (hu : u ≠ t) {m : M}
    (hown : s.owner m = some u) : s'.owner m = some u := by
  -- what `t` takes was free, and what it gives up was its own
  have htaken : ∀ m' o, s.owner m' = none → Function.update s.owner m' o m = some u := by
    intro m' o hfree
    have hm : m ≠ m' := by
      rintro rfl
      rw [hfree] at hown
      cases hown
    rwa [Function.update_of_ne hm]
  have hgiven : ∀ m' o, s.owner m' = some t → Function.update s.owner m' o m = some u := by
    intro m' o hmine
    have hm : m ≠ m' := by
      rintro rfl
      rw [hown] at hmine
      exact hu (Option.some.inj hmine)
    rwa [Function.update_of_ne hm]
  cases h with
  | lock _ hfree | resume _ _ hfree => exact htaken _ _ hfree
  | unlock _ hmine | block _ _ hmine => exact hgiven _ _ hmine
  | signal _ _ | broadcast _ | act _ _ => exact hown

theorem step_still_owned [Fintype T] (h : step code s a = some s') {u : T} {m : M}
    (hu : ∀ choice wakes, a ≠ .run u choice wakes) (hown : s.owner m = some u) :
    s'.owner m = some u := by
  rcases step_cases h with ⟨t, c, -, -, rfl⟩ | ⟨t, choice, wakes, rfl, hrun⟩
  · exact hown
  · refine hrun.still_owned ?_ hown
    rintro rfl
    exact hu choice wakes rfl

/-- A thread blocks only by its own wait. -/
theorem Runs.not_blocked (h : Runs code s t choice wakes s') {u : T} {c : V}
    (hu : s.sleep u ≠ .blocked c) :
    s'.sleep u ≠ .blocked c ∨
      u = t ∧ s.sleep t = .awake ∧ ∃ m next, code t (s.pc t) = .wait c m next := by
  by_cases hut : u = t
  · subst hut
    cases h with
    | lock _ _ | unlock _ _ | act _ _ => exact .inl hu
    | @block c' m next hi hawake hown =>
        by_cases hc : c' = c
        · subst hc
          exact .inr ⟨rfl, hawake, m, next, hi⟩
        · refine .inl ?_
          simpa using hc
    | resume _ _ _ => exact .inl (by simp)
    | @signal c' _ _ _ =>
        refine .inl ?_
        rcases wake_cases c' wakes s.sleep u with he | ⟨-, he⟩ <;> simp [he, hu]
    | @broadcast c' _ _ =>
        refine .inl ?_
        rcases wake_cases c' (fun _ => true) s.sleep u with he | ⟨-, he⟩ <;> simp [he, hu]
  · refine .inl ?_
    cases h with
    | lock _ _ | unlock _ _ | act _ _ => exact hu
    | block _ _ _ | resume _ _ _ => simpa [Function.update_of_ne hut] using hu
    | @signal c' _ _ _ =>
        rcases wake_cases c' wakes s.sleep u with he | ⟨-, he⟩ <;> simp [he, hu]
    | @broadcast c' _ _ =>
        rcases wake_cases c' (fun _ => true) s.sleep u with he | ⟨-, he⟩ <;> simp [he, hu]

/-- What the sleep of the other threads can change to: a signal or a broadcast wakes them. -/
theorem Runs.sleep_of_ne (h : Runs code s t choice wakes s') {u : T} (hu : u ≠ t) :
    s'.sleep u = s.sleep u ∨ ∃ c, s.sleep u = .blocked c ∧ s'.sleep u = .woken ∧
      ∃ next, code t (s.pc t) = .signal c next ∨ code t (s.pc t) = .broadcast c next := by
  cases h with
  | lock _ _ | unlock _ _ | act _ _ => exact .inl rfl
  | block _ _ _ | resume _ _ _ => exact .inl (Function.update_of_ne hu ..)
  | @signal c next hi _ =>
      rcases wake_cases c wakes s.sleep u with he | ⟨hb, hw⟩
      · exact .inl he
      · exact .inr ⟨c, hb, hw, next, .inl hi⟩
  | @broadcast c next hi =>
      rcases wake_cases c (fun _ => true) s.sleep u with he | ⟨hb, hw⟩
      · exact .inl he
      · exact .inr ⟨c, hb, hw, next, .inr hi⟩

/-- What the sleep of a thread can change to in its own step: it blocks, or it is awake, and at
a wait it has been woken before. -/
theorem Runs.sleep_self (h : Runs code s t choice wakes s')
    (hasleep : s.sleep t ≠ .awake → ∃ c m next, code t (s.pc t) = .wait c m next) :
    (s'.sleep t = .awake ∧
        ((∃ c m next, code t (s.pc t) = .wait c m next) → s.sleep t = .woken)) ∨
      s.sleep t = .awake ∧ s'.data = s.data ∧ s'.pc = s.pc ∧
        ∃ c m next, code t (s.pc t) = .wait c m next ∧ s'.sleep t = .blocked c := by
  have hawake : (∀ c m next, code t (s.pc t) ≠ .wait c m next) → s.sleep t = .awake ∧
      ((∃ c m next, code t (s.pc t) = .wait c m next) → s.sleep t = .woken) := by
    intro hno
    have hnone : ¬ ∃ c m next, code t (s.pc t) = .wait c m next := by
      rintro ⟨c, m, next, hi⟩
      exact hno c m next hi
    exact ⟨by_contra fun hne => hnone (hasleep hne), fun hsome => absurd hsome hnone⟩
  cases h with
  | lock hi _ | unlock hi _ | act hi _ => exact .inl (hawake (by simp [hi]))
  | block hi hself hown => exact .inr ⟨hself, rfl, rfl, _, _, _, hi, Function.update_self ..⟩
  | resume _ hwoken _ => exact .inl ⟨Function.update_self .., fun _ => hwoken⟩
  | @signal c _ hi _ =>
      exact .inl ((hawake (by simp [hi])).imp (wake_eq_awake c wakes s.sleep t).2 id)
  | @broadcast c _ hi =>
      exact .inl ((hawake (by simp [hi])).imp (wake_eq_awake c (fun _ => true) s.sleep t).2 id)

/-- The next step of `t` needs a mutex that `u` owns. -/
def State.WaitsOn (code : Code T M V σ χ P) (s : State T M V σ P) (t u : T) : Prop :=
  ∃ m, s.owner m = some u ∧ ((∃ next, code t (s.pc t) = .lock m next) ∨
    s.sleep t = .woken ∧ ∃ c next, code t (s.pc t) = .wait c m next)

omit [DecidableEq T] [DecidableEq M] [DecidableEq V] in
/-- Whoever others wait for, directly or through further threads, owns a mutex. -/
theorem owner_of_waitsOn {u : T} (h : Relation.TransGen (State.WaitsOn code s) t u) :
    ∃ m, s.owner m = some u := by
  -- the last link of the chain says so
  obtain ⟨v, -, m, hown, -⟩ := Relation.TransGen.tail'_iff.1 h
  exact ⟨m, hown⟩

/-- **No signal is lost**: after it no thread is blocked, or one that was is woken. -/
theorem Runs.signalled (h : Runs code s t choice wakes s') {c : V} {next : P t}
    (hi : code t (s.pc t) = .signal c next ∨ code t (s.pc t) = .broadcast c next) :
    (∀ u, s'.sleep u ≠ .blocked c) ∨ ∃ u, s.sleep u = .blocked c ∧ s'.sleep u = .woken := by
  cases h with
  | lock hi' _ | unlock hi' _ | block hi' _ _ | resume hi' _ _ | act hi' _ =>
      rw [hi'] at hi
      rcases hi with hi | hi <;> cases hi
  | signal hi' hok =>
      rw [hi'] at hi
      rcases hi with hi | hi <;> cases hi
      rcases hok with hnone | ⟨u, hu, hblocked⟩
      · refine .inl fun u => ?_
        rcases wake_cases c wakes s.sleep u with he | ⟨-, he⟩ <;> simp [he, hnone u]
      · exact .inr ⟨u, hblocked, if_pos ⟨hblocked, hu⟩⟩
  | broadcast hi' =>
      rw [hi'] at hi
      rcases hi with hi | hi <;> cases hi
      refine .inl fun u => ?_
      by_cases hu : s.sleep u = .blocked c <;> simp [wake, hu]

end Machine

/-! ## Mutual exclusion -/

section Locked

variable {T M V σ χ : Type} {P : T → Type}

/-- The instruction at `p` takes and gives up mutexes as the annotation `holds` says. -/
def Instr.Respects [DecidableEq M] {P : Type} (holds : P → M → Bool) (p : P) :
    Instr M V σ χ P → Prop
  | .lock m next => holds p m = false ∧ ∀ m', holds next m' = (decide (m' = m) || holds p m')
  | .unlock m next => holds p m = true ∧ ∀ m', holds next m' = (!decide (m' = m) && holds p m')
  | .wait _ m next => holds p m = true ∧ ∀ m', holds next m' = holds p m'
  | .signal _ next | .broadcast _ next => ∀ m', holds next m' = holds p m'
  | .act f => ∀ d choice d' next, f d choice = some (d', next) → ∀ m', holds next m' = holds p m'
  | .halt => True

/-- The thread is at a point that holds `m` and has not given it up inside a wait. -/
def State.Holding (code : Code T M V σ χ P) (holds : (t : T) → P t → M → Bool)
    (s : State T M V σ P) (t : T) (m : M) : Prop :=
  holds t (s.pc t) m = true ∧
    (s.sleep t = .awake ∨ ∀ c next, code t (s.pc t) ≠ .wait c m next)

/-- Mutual exclusion, and where a thread can be asleep. -/
structure Locked (code : Code T M V σ χ P) (holds : (t : T) → P t → M → Bool)
    (s : State T M V σ P) : Prop where
  owner : ∀ m t, s.owner m = some t ↔ s.Holding code holds t m
  asleep : ∀ t, s.sleep t ≠ .awake → ∃ c m next, code t (s.pc t) = .wait c m next ∧
    (s.sleep t = .blocked c ∨ s.sleep t = .woken)

variable {code : Code T M V σ χ P} {holds : (t : T) → P t → M → Bool}
  {s s' : State T M V σ P} {t u : T}

namespace Locked

theorem awake_of (h : Locked code holds s) (hi : ∀ c m next, code t (s.pc t) ≠ .wait c m next) :
    s.sleep t = .awake := by
  by_contra hne
  obtain ⟨c, m, next, hw, -⟩ := h.asleep t hne
  exact hi c m next hw

/-- A thread is asleep at a wait only. -/
theorem at_wait (h : Locked code holds s) (hne : s.sleep t ≠ .awake) :
    ∃ c m next, code t (s.pc t) = .wait c m next := by
  obtain ⟨c, m, next, hi, -⟩ := h.asleep t hne
  exact ⟨c, m, next, hi⟩

/-- A thread at a point that holds `m`, and not at a wait, owns `m`. -/
theorem owner_of (h : Locked code holds s) {m : M} (hh : holds t (s.pc t) m = true)
    (hi : ∀ c next, code t (s.pc t) ≠ .wait c m next) : s.owner m = some t :=
  (h.owner m t).2 ⟨hh, .inr hi⟩

/-- **Mutual exclusion.** -/
theorem exclusive (h : Locked code holds s) {m : M} (ht : s.Holding code holds t m)
    (hu : s.Holding code holds u m) : t = u := by
  have h1 := (h.owner m t).2 ht
  have h2 := (h.owner m u).2 hu
  exact Option.some.inj (h1.symm.trans h2)

end Locked

/-- Nothing about who holds what changes for a thread that stays at its point. -/
theorem holding_congr {m : M} (hpc : s'.pc u = s.pc u)
    (hsleep : s'.sleep u = .awake ↔ s.sleep u = .awake) :
    s'.Holding code holds u m ↔ s.Holding code holds u m := by
  unfold State.Holding
  rw [hpc, hsleep]

theorem holding_awake {m : M} (h : s.sleep u = .awake) :
    s.Holding code holds u m ↔ holds u (s.pc u) m = true := by
  simp [State.Holding, h]

/-- A thread inside a wait holds what its point says, but for the mutex of the wait. -/
theorem holding_asleep {c : V} {m m' : M} {next : P u} (h : s.sleep u ≠ .awake)
    (hi : code u (s.pc u) = .wait c m next) :
    s.Holding code holds u m' ↔ m' ≠ m ∧ holds u (s.pc u) m' = true := by
  unfold State.Holding
  rw [hi]
  refine ⟨fun ⟨hh, ha⟩ => ⟨?_, hh⟩, fun ⟨hne, hh⟩ => ⟨hh, .inr ?_⟩⟩
  · rintro rfl
    exact (ha.resolve_left h) c next rfl
  · intro c' next' he
    cases he
    exact hne rfl

/-- A step of `t` that takes or gives up mutexes for `t` alone keeps the owners right. -/
theorem owner_step (t : T) {o o' : M → Option T} {was now : T → M → Prop}
    (h : ∀ m u, o m = some u ↔ was u m) (hframe : ∀ u, u ≠ t → ∀ m, now u m ↔ was u m)
    (hlocal : ∀ m, (o' m = o m ∧ (now t m ↔ was t m)) ∨ (o m = none ∧ o' m = some t ∧ now t m) ∨
      (o m = some t ∧ o' m = none ∧ ¬ now t m)) (m : M) (u : T) :
    o' m = some u ↔ now u m := by
  by_cases hu : u = t
  · subst hu
    rcases hlocal m with ⟨ho, hn⟩ | ⟨-, ho, hn⟩ | ⟨-, ho, hn⟩
    · rw [ho, hn, h]
    · simp [ho, hn]
    · simp [ho, hn]
  · rw [hframe u hu, ← h]
    rcases hlocal m with ⟨ho, -⟩ | ⟨hf, ho, -⟩ | ⟨hf, ho, -⟩
    · rw [ho]
    · simp [ho, hf, Ne.symm hu]
    · simp [ho, hf, Ne.symm hu]

variable [DecidableEq T] [DecidableEq M]

omit [DecidableEq M] in
/-- A step of a thread that is not inside a wait. It goes on to `next`, and the owners change
as the annotation says. -/
theorem Locked.go (h : Locked code holds s) (hawake : s.sleep t = .awake) {next : P t}
    (hpc : s'.pc = Function.update s.pc t next)
    (hsleep : ∀ u, s'.sleep u = s.sleep u ∨ (∃ c, s.sleep u = .blocked c) ∧ s'.sleep u = .woken)
    (hlocal : ∀ m, (s'.owner m = s.owner m ∧ holds t next m = holds t (s.pc t) m) ∨
      (s.owner m = none ∧ s'.owner m = some t ∧ holds t next m = true) ∨
      (s.owner m = some t ∧ s'.owner m = none ∧ holds t next m = false)) :
    Locked code holds s' := by
  -- a thread that is signalled is woken, which is not yet awake
  have hsl : ∀ u, s'.sleep u = .awake ↔ s.sleep u = .awake := by
    intro u
    rcases hsleep u with he | ⟨⟨c, hb⟩, hw⟩
    · rw [he]
    · simp [hb, hw]
  have hframe : ∀ u, u ≠ t → s'.pc u = s.pc u := fun u hu => by
    rw [hpc, Function.update_of_ne hu]
  refine ⟨owner_step t h.owner
    (fun u hu m => holding_congr (hframe u hu) (hsl u)) (fun m => ?_), fun u hu => ?_⟩
  · rw [holding_awake ((hsl t).2 hawake), holding_awake hawake, hpc, Function.update_self]
    rcases hlocal m with ⟨ho, hh⟩ | ⟨hf, ho, hh⟩ | ⟨hf, ho, hh⟩
    · exact .inl ⟨ho, by rw [hh]⟩
    · exact .inr (.inl ⟨hf, ho, hh⟩)
    · exact .inr (.inr ⟨hf, ho, by rw [hh]; exact Bool.false_ne_true⟩)
  · have hut : u ≠ t := by
      rintro rfl
      exact hu ((hsl u).2 hawake)
    -- a thread inside a wait stays at it
    have hne : s.sleep u ≠ .awake := fun he => hu ((hsl u).2 he)
    obtain ⟨c, m, nxt, hi, hc⟩ := h.asleep u hne
    refine ⟨c, m, nxt, by rw [hframe u hut]; exact hi, ?_⟩
    rcases hsleep u with he | ⟨-, hw⟩
    · rwa [he]
    · exact .inr hw

/-- A thread that is awake at a wait gives up the mutex and blocks. -/
theorem Locked.block (h : Locked code holds s) {c : V} {m : M} {next : P t}
    (hi : code t (s.pc t) = .wait c m next) (hawake : s.sleep t = .awake)
    (hown : s.owner m = some t) (howner : s'.owner = Function.update s.owner m none)
    (hpc : s'.pc = s.pc) (hsleep : s'.sleep = Function.update s.sleep t (.blocked c)) :
    Locked code holds s' := by
  have ht : s'.sleep t = .blocked c := by rw [hsleep, Function.update_self]
  have hu : ∀ u, u ≠ t → s'.sleep u = s.sleep u := fun u hu => by
    rw [hsleep, Function.update_of_ne hu]
  have hi' : code t (s'.pc t) = .wait c m next := by rw [hpc, hi]
  -- inside the wait the thread holds what it held, without `m`
  have hnow : ∀ m', s'.Holding code holds t m' ↔ m' ≠ m ∧ holds t (s.pc t) m' = true :=
    fun m' => hpc ▸ holding_asleep (by simp [ht]) hi'
  refine ⟨owner_step t h.owner
    (fun u hne m => holding_congr (congrFun hpc u) (by rw [hu u hne])) (fun m' => ?_), ?_⟩
  · rw [hnow, holding_awake hawake, howner]
    by_cases hm : m' = m
    · subst hm
      exact .inr (.inr ⟨hown, Function.update_self .., by simp⟩)
    · exact .inl ⟨Function.update_of_ne hm .., by simp [hm]⟩
  · intro u hne
    by_cases hut : u = t
    · subst hut
      exact ⟨c, m, next, hi', .inl ht⟩
    · rw [hu u hut] at hne ⊢
      rw [hpc]
      exact h.asleep u hne

/-- A woken thread takes the mutex again and goes on. -/
theorem Locked.resume (h : Locked code holds s) {c : V} {m : M} {next : P t}
    (hi : code t (s.pc t) = .wait c m next) (hwoken : s.sleep t = .woken)
    (hr : holds t (s.pc t) m = true ∧ ∀ m', holds t next m' = holds t (s.pc t) m')
    (hfree : s.owner m = none) (howner : s'.owner = Function.update s.owner m (some t))
    (hpc : s'.pc = Function.update s.pc t next)
    (hsleep : s'.sleep = Function.update s.sleep t .awake) : Locked code holds s' := by
  have ht : s'.sleep t = .awake := by rw [hsleep, Function.update_self]
  have hne : s.sleep t ≠ .awake := by simp [hwoken]
  have hu : ∀ u, u ≠ t → s'.pc u = s.pc u ∧ s'.sleep u = s.sleep u := fun u hu => by
    rw [hpc, hsleep, Function.update_of_ne hu, Function.update_of_ne hu]
    exact ⟨rfl, rfl⟩
  refine ⟨owner_step t h.owner
    (fun u hut m => holding_congr (hu u hut).1 (by rw [(hu u hut).2])) (fun m' => ?_), ?_⟩
  · rw [holding_awake ht, holding_asleep hne hi, hpc, Function.update_self, hr.2, howner]
    by_cases hm : m' = m
    · subst hm
      exact .inr (.inl ⟨hfree, Function.update_self .., hr.1⟩)
    · exact .inl ⟨Function.update_of_ne hm .., by simp [hm]⟩
  · intro u hasleep
    have hut : u ≠ t := by
      rintro rfl
      exact hasleep ht
    rw [(hu u hut).2] at hasleep ⊢
    rw [(hu u hut).1]
    exact h.asleep u hasleep

omit [DecidableEq M] in
/-- A blocked thread that wakes up for no reason takes nothing. -/
theorem Locked.spurious (h : Locked code holds s) {c : V} (hb : s.sleep t = .blocked c)
    (howner : s'.owner = s.owner) (hpc : s'.pc = s.pc)
    (hsleep : s'.sleep = Function.update s.sleep t .woken) : Locked code holds s' := by
  have ht : s'.sleep t = .woken := by rw [hsleep, Function.update_self]
  have hu : ∀ u, u ≠ t → s'.sleep u = s.sleep u := fun u hu => by
    rw [hsleep, Function.update_of_ne hu]
  have hsl : ∀ u, s'.sleep u = .awake ↔ s.sleep u = .awake := by
    intro u
    by_cases hut : u = t
    · subst hut
      simp [ht, hb]
    · rw [hu u hut]
  refine ⟨fun m u => ?_, fun u hne => ?_⟩
  · rw [howner, h.owner m u]
    exact (holding_congr (congrFun hpc u) (hsl u)).symm
  · obtain ⟨c', m, next, hi, hc⟩ := h.asleep u fun he => hne ((hsl u).2 he)
    refine ⟨c', m, next, by rw [hpc, hi], ?_⟩
    by_cases hut : u = t
    · subst hut
      exact .inr ht
    · rwa [hu u hut]

variable [DecidableEq V] {a : Action T χ} {choice : χ} {wakes : T → Bool}

/-- **Every step keeps mutual exclusion**, in a program that respects its annotation. -/
theorem Locked.run (hcode : ∀ t p, (code t p).Respects (holds t) p) (h : Locked code holds s)
    (hs : Runs code s t choice wakes s') : Locked code holds s' := by
  have hr := hcode t (s.pc t)
  cases hs with
  | lock hi hfree =>
      rename_i m next
      rw [hi] at hr
      refine h.go (h.awake_of (by simp [hi])) rfl (fun u => .inl rfl) (fun m' => ?_)
      by_cases hm : m' = m
      · subst hm
        exact .inr (.inl ⟨hfree, Function.update_self .., by simp [hr.2]⟩)
      · exact .inl ⟨Function.update_of_ne hm .., by simp [hr.2, hm]⟩
  | unlock hi hown =>
      rename_i m next
      rw [hi] at hr
      refine h.go (h.awake_of (by simp [hi])) rfl (fun u => .inl rfl) (fun m' => ?_)
      by_cases hm : m' = m
      · subst hm
        exact .inr (.inr ⟨hown, Function.update_self .., by simp [hr.2]⟩)
      · exact .inl ⟨Function.update_of_ne hm .., by simp [hr.2, hm]⟩
  | block hi hawake hown => exact h.block hi hawake hown rfl rfl rfl
  | resume hi hwoken hfree =>
      rw [hi] at hr
      exact h.resume hi hwoken hr hfree rfl rfl rfl
  | signal hi hok =>
      rename_i c next
      rw [hi] at hr
      refine h.go (h.awake_of (by simp [hi])) rfl (fun u => ?_) (fun m' => .inl ⟨rfl, hr m'⟩)
      exact (wake_cases c wakes s.sleep u).imp id fun hw => ⟨⟨c, hw.1⟩, hw.2⟩
  | broadcast hi =>
      rename_i c next
      rw [hi] at hr
      refine h.go (h.awake_of (by simp [hi])) rfl (fun u => ?_) (fun m' => .inl ⟨rfl, hr m'⟩)
      exact (wake_cases c (fun _ => true) s.sleep u).imp id fun hw => ⟨⟨c, hw.1⟩, hw.2⟩
  | act hi hf =>
      rw [hi] at hr
      exact h.go (h.awake_of (by simp [hi])) rfl (fun u => .inl rfl)
        (fun m' => .inl ⟨rfl, hr _ _ _ _ hf m'⟩)

theorem Locked.step [Fintype T] (hcode : ∀ t p, (code t p).Respects (holds t) p)
    (h : Locked code holds s) (hs : step code s a = some s') : Locked code holds s' := by
  rcases step_cases hs with ⟨t, c, -, hb, rfl⟩ | ⟨t, choice, wakes, -, hrun⟩
  · exact h.spurious hb rfl rfl rfl
  · exact h.run hcode hrun

end Locked

/-! ## Counting threads -/

section Counting

variable {T : Type} [Fintype T]

/-- A sum over the threads changes by what one thread's part of it changes. -/
theorem sum_step (f g : T → Nat) (t : T) (h : ∀ u, u ≠ t → g u = f u) :
    ∑ u, g u + f t = ∑ u, f u + g t := by
  classical
  -- without the part of `t` the two sums are the same
  have hrest : ∑ u ∈ Finset.univ.erase t, g u = ∑ u ∈ Finset.univ.erase t, f u :=
    Finset.sum_congr rfl fun u hu => h u (Finset.ne_of_mem_erase hu)
  have hf := Finset.add_sum_erase Finset.univ f (Finset.mem_univ t)
  have hg := Finset.add_sum_erase Finset.univ g (Finset.mem_univ t)
  omega

/-- The same when the parts of the other threads grow by `k` at most. -/
theorem sum_le_step (f g : T → Nat) (t : T) (k : Nat) (h : ∀ u, u ≠ t → g u ≤ f u + k) :
    ∑ u, g u + f t ≤ ∑ u, f u + g t + k * Fintype.card T := by
  classical
  have hrest : ∑ u ∈ Finset.univ.erase t, g u ≤ ∑ u ∈ Finset.univ.erase t, (f u + k) :=
    Finset.sum_le_sum fun u hu => h u (Finset.ne_of_mem_erase hu)
  have hcost : ∑ _u ∈ Finset.univ.erase t, k ≤ k * Fintype.card T := by
    calc ∑ _u ∈ Finset.univ.erase t, k = (Finset.univ.erase t).card * k :=
          Finset.sum_const_nat fun _ _ => rfl
      _ ≤ Fintype.card T * k := Nat.mul_le_mul_right k (Finset.card_le_univ _)
      _ = k * Fintype.card T := Nat.mul_comm _ _
  rw [Finset.sum_add_distrib] at hrest
  have hf := Finset.add_sum_erase Finset.univ f (Finset.mem_univ t)
  have hg := Finset.add_sum_erase Finset.univ g (Finset.mem_univ t)
  omega

/-- A sum that is one has one part. -/
theorem sum_eq_one {f : T → Nat} (h : ∑ t, f t = 1) : ∃ t, f t = 1 ∧ ∀ u, u ≠ t → f u = 0 := by
  classical
  obtain ⟨t, -, ht⟩ := Finset.exists_ne_zero_of_sum_ne_zero (h.trans_ne Nat.one_ne_zero)
  have hsplit := Finset.add_sum_erase Finset.univ f (Finset.mem_univ t)
  have hrest : ∑ u ∈ Finset.univ.erase t, f u = 0 := by omega
  refine ⟨t, by omega, fun u hu => ?_⟩
  exact Finset.sum_eq_zero_iff.1 hrest u (Finset.mem_erase.2 ⟨hu, Finset.mem_univ u⟩)

/-- How many of the threads satisfy `p`. -/
def count (p : T → Bool) : Nat := ∑ t, (p t).toNat

theorem count_step (p q : T → Bool) (t : T) (h : ∀ u, u ≠ t → q u = p u) :
    count q + (p t).toNat = count p + (q t).toNat :=
  sum_step (fun u => (p u).toNat) (fun u => (q u).toNat) t fun u hu => by rw [h u hu]

theorem count_eq_zero {p : T → Bool} : count p = 0 ↔ ∀ t, p t = false := by
  simp [count, Finset.sum_eq_zero_iff]

theorem count_eq_card {p : T → Bool} (h : count p = Fintype.card T) (t : T) : p t = true := by
  by_contra hp
  have hlt : count p < Fintype.card T := by
    calc count p < ∑ _u : T, 1 :=
          Finset.sum_lt_sum (fun u _ => Bool.toNat_le (p u)) ⟨t, Finset.mem_univ t, by simp [hp]⟩
      _ = Fintype.card T := by rw [← Finset.card_eq_sum_ones, Finset.card_univ]
  exact Nat.ne_of_lt hlt h

theorem le_count {p : T → Bool} (t : T) : (p t).toNat ≤ count p :=
  Finset.single_le_sum (fun u _ => Nat.zero_le (p u).toNat) (Finset.mem_univ t)

end Counting

end CPlayground.Threads
