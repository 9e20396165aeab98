import CPlayground.Basic.Threads

set_option autoImplicit false

/-! # What is left to do

A measure of the steps that threads still take. Each thread counts by its program point (`now`).
Inside a wait it counts what it has to do once it is woken (`inside`), but for a price `wake`, which
whoever wakes it has to pay; what the data are worth is shared. A step that pays for the threads it
wakes lowers the measure (`Measure.lowers`), and going to sleep does.
-/

namespace CPlayground.Threads

variable {T M V σ χ : Type} {P : T → Type}

/-- The instruction wakes threads. -/
def Instr.wakesUp {P : Type} : Instr M V σ χ P → Bool
  | .signal _ _ | .broadcast _ _ => true
  | _ => false

structure Measure (code : Code T M V σ χ P) where
  shared : σ → ((t : T) → P t) → Nat
  now : (t : T) → P t → Nat
  inside : (t : T) → P t → Nat
  wake : Nat
  inside_eq : ∀ t p, (∀ c m next, code t p ≠ .wait c m next) → inside t p = now t p
  asleep_lt : ∀ t p c m next, code t p = .wait c m next → inside t p - wake < now t p

namespace Measure

variable {code : Code T M V σ χ P} (μ : Measure code)

/-- The part of one thread. -/
def part (s : State T M V σ P) (t : T) : Nat :=
  match s.sleep t with
  | .awake => μ.now t (s.pc t)
  | .blocked _ => μ.inside t (s.pc t) - μ.wake
  | .woken => μ.inside t (s.pc t)

/-- What a signal costs: it may wake every thread. -/
def signalCost [Fintype T] : Nat := μ.wake * Fintype.card T

/-- What is left to do. -/
def left [Fintype T] (s : State T M V σ P) : Nat := μ.shared s.data s.pc + ∑ t, μ.part s t

variable {holds : (t : T) → P t → M → Bool} {s s' : State T M V σ P} {t u : T}
  {choice : χ} {wakes : T → Bool} [DecidableEq T] [DecidableEq M] [DecidableEq V]

/-- The other threads have more to do only when they are woken. -/
theorem part_other (hrun : Runs code s t choice wakes s') (hu : u ≠ t) :
    μ.part s' u ≤ μ.part s u + if (code t (s.pc t)).wakesUp then μ.wake else 0 := by
  have hpc : s'.pc u = s.pc u := by
    rcases hrun.effect with ⟨-, hp, -⟩ | ⟨next, -, hp⟩
    · rw [hp]
    · rw [hp, Function.update_of_ne hu]
  rcases hrun.sleep_of_ne hu with hsleep | ⟨c, hblocked, hwoken, next, hi⟩
  · simp only [part, hpc, hsleep]
    exact Nat.le_add_right _ _
  · have hwakes : (code t (s.pc t)).wakesUp = true := by
      rcases hi with hi | hi <;> rw [hi] <;> rfl
    simp only [part, hpc, hblocked, hwoken, hwakes, if_true]
    omega

omit [DecidableEq T] [DecidableEq M] [DecidableEq V] in
/-- A thread that takes a step, and has been woken if it is at a wait. -/
theorem part_eq_inside (h : Locked code holds s)
    (hself : (∃ c m next, code t (s.pc t) = .wait c m next) → s.sleep t = .woken) :
    μ.part s t = μ.inside t (s.pc t) := by
  by_cases hwait : ∃ c m next, code t (s.pc t) = .wait c m next
  · simp only [part, hself hwait]
  · have hno : ∀ c m next, code t (s.pc t) ≠ .wait c m next :=
      fun c m next hi => hwait ⟨c, m, next, hi⟩
    simp only [part, h.awake_of hno, μ.inside_eq t _ hno]

variable [Fintype T]

/-- The step of `t` to `next` pays for what it does to the others. -/
def Pays (s : State T M V σ P) (t : T) (d' : σ) (next : P t) : Prop :=
  μ.shared d' (Function.update s.pc t next) + μ.now t next +
      (if (code t (s.pc t)).wakesUp then μ.signalCost else 0) <
    μ.shared s.data s.pc + μ.inside t (s.pc t)

theorem left_lt (hrun : Runs code s t choice wakes s')
    (h : μ.shared s'.data s'.pc + μ.part s' t +
        (if (code t (s.pc t)).wakesUp then μ.signalCost else 0) <
      μ.shared s.data s.pc + μ.part s t) : μ.left s' < μ.left s := by
  have hsum := sum_le_step (μ.part s) (μ.part s') t
    (if (code t (s.pc t)).wakesUp then μ.wake else 0) fun u hu => μ.part_other hrun hu
  unfold left
  by_cases hwakes : (code t (s.pc t)).wakesUp = true
  · rw [if_pos hwakes] at h hsum
    unfold signalCost at h
    omega
  · rw [if_neg hwakes] at h hsum
    omega

/-- **The rule of what is left to do.** A step that pays lowers the measure. -/
theorem lowers (hlocked : Locked code holds s) (hrun : Runs code s t choice wakes s')
    (hpays : ∀ next, (code t (s.pc t)).effect s.data choice = some (s'.data, next) →
      s'.pc = Function.update s.pc t next → μ.Pays s t s'.data next) : μ.left s' < μ.left s := by
  apply μ.left_lt hrun
  rcases hrun.sleep_self hlocked.at_wait with
    ⟨hawake, hself⟩ | ⟨hawake, hd, hp, c, m, next, hi, hblocked⟩
  · obtain ⟨next, he, hp⟩ := hrun.effect.resolve_left fun hsame => hsame.2.2 hawake
    have hpart : μ.part s' t = μ.now t next := by
      simp only [part, hawake, hp, Function.update_self]
    rw [hpart, μ.part_eq_inside hlocked hself, hp]
    exact hpays next he hp
  · -- the thread goes to sleep
    have hlt := μ.asleep_lt t _ c m next hi
    simp only [part, hd, hp, hi, hawake, hblocked, Instr.wakesUp, Bool.false_eq_true, if_false]
    omega

end Measure

end CPlayground.Threads
