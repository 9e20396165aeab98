import CPlayground.Basic.Run
import Mathlib.Algebra.BigOperators.Group.Finset.Basic
import Mathlib.Algebra.BigOperators.Ring.Finset
import Mathlib.Algebra.Order.BigOperators.Group.Finset
import Mathlib.Data.Fintype.BigOperators
import Mathlib.Tactic.Ring
import Mathlib.Tactic.Linarith

set_option autoImplicit false

/-! # Threads and counting semaphores

Threads that share data and counting semaphores run interleaved, one instruction at a time: a
wait takes one from a positive semaphore and is not enabled at zero, a post adds one, any other
instruction acts on the data.

What such a program conserves is a weighted sum of its semaphores, its data and its program
points (`Weights`). A step keeps the sum when its own effect is balanced (`Weights.total_step`), so
a conservation law is checked one instruction at a time.
-/

namespace CPlayground.Semaphores

/-! ## Programs and their states -/

/-- One instruction of a thread with program points in `P`, over semaphores in `S` and data in
`σ`; an `act` depends on a choice of the environment in `χ`. -/
inductive Instr (S σ χ P : Type)
  | wait (x : S) (next : P)
  | post (x : S) (next : P)
  | act (f : σ → χ → Option (σ × P))
  | halt

/-- The program: the instruction at each program point of each thread. -/
abbrev Code (T S σ χ : Type) (P : T → Type) := (t : T) → P t → Instr S σ χ (P t)

structure State (T S σ : Type) (P : T → Type) where
  data : σ
  sem : S → Nat
  pc : (t : T) → P t

/-- What an instruction does to the semaphores. -/
inductive Op (S : Type)
  | keep
  | take (x : S)
  | give (x : S)

section Machine

variable {T S σ χ : Type} {P : T → Type}

/-- What an instruction does, and where it leads. -/
def Instr.effect {P : Type} (d : σ) (choice : χ) : Instr S σ χ P → Option (Op S × σ × P)
  | .wait x next => some (.take x, d, next)
  | .post x next => some (.give x, d, next)
  | .act f => (f d choice).map fun r => (.keep, r.1, r.2)
  | .halt => none

/-- A semaphore that is taken has to be positive. -/
def Op.Enabled (sem : S → Nat) : Op S → Prop
  | .take x => 0 < sem x
  | _ => True

instance (sem : S → Nat) (op : Op S) : Decidable (op.Enabled sem) :=
  match op with
  | .keep => inferInstanceAs (Decidable True)
  | .take x => inferInstanceAs (Decidable (0 < sem x))
  | .give _ => inferInstanceAs (Decidable True)

variable [DecidableEq T] [DecidableEq S]

def Op.apply (sem : S → Nat) : Op S → S → Nat
  | .keep => sem
  | .take x => Function.update sem x (sem x - 1)
  | .give x => Function.update sem x (sem x + 1)

/-- One step of a thread. -/
def step (code : Code T S σ χ P) (s : State T S σ P) (a : T × χ) : Option (State T S σ P) :=
  match (code a.1 (s.pc a.1)).effect s.data a.2 with
  | none => none
  | some (op, d, next) =>
      if op.Enabled s.sem then
        some { data := d, sem := op.apply s.sem, pc := Function.update s.pc a.1 next }
      else none

variable {code : Code T S σ χ P} {s s' : State T S σ P} {t : T} {choice : χ}

/-- **Inversion of a step.** -/
theorem step_eq_some : step code s (t, choice) = some s' ↔
    ∃ op d next, (code t (s.pc t)).effect s.data choice = some (op, d, next) ∧
      op.Enabled s.sem ∧
      s' = { data := d, sem := op.apply s.sem, pc := Function.update s.pc t next } := by
  unfold step
  constructor
  · intro h
    split at h
    · cases h
    · rename_i op d next he
      split_ifs at h with hop
      cases h
      exact ⟨op, d, next, he, hop, rfl⟩
  · rintro ⟨op, d, next, he, hop, rfl⟩
    simp only [he, if_pos hop]

end Machine

/-! ## Conservation laws -/

section Conservation

variable {T S σ χ : Type} {P : T → Type}

/-- A weight for each semaphore, each value of the data and each program point. -/
structure Weights (T S σ : Type) (P : T → Type) where
  sem : S → Int
  data : σ → Int
  pc : (t : T) → P t → Int

/-- The weighted sum over a state. -/
def Weights.total [Fintype T] [Fintype S] (w : Weights T S σ P) (s : State T S σ P) : Int :=
  ∑ x, w.sem x * s.sem x + w.data s.data + ∑ t, w.pc t (s.pc t)

/-- What an operation adds to the part of the semaphores. -/
def Weights.gain (w : Weights T S σ P) : Op S → Int
  | .keep => 0
  | .take x => -w.sem x
  | .give x => w.sem x

/-- A step from the point `p` on the data `d` keeps the weighted sum. -/
def Weights.Balanced (w : Weights T S σ P) {t : T} (d : σ) (p : P t) (op : Op S) (d' : σ)
    (next : P t) : Prop :=
  w.gain op + w.data d' + w.pc t next = w.data d + w.pc t p

/-- A sum changes by what its one changed part does. -/
theorem sum_change {ι : Type} [Fintype ι] (f g : ι → Int) (i : ι) (h : ∀ j, j ≠ i → g j = f j) :
    ∑ j, g j = ∑ j, f j + (g i - f i) := by
  have hdiff : ∑ j, (g j - f j) = g i - f i := by
    apply Finset.sum_eq_single i
    · intro j _ hj
      rw [h j hj, sub_self]
    · intro hi
      exact absurd (Finset.mem_univ i) hi
  rw [Finset.sum_sub_distrib] at hdiff
  omega

variable [Fintype T] [Fintype S] [DecidableEq T] [DecidableEq S] {code : Code T S σ χ P}
  {s s' : State T S σ P} {t : T} {choice : χ}

omit [Fintype T] [DecidableEq T] in
theorem sum_apply (w : Weights T S σ P) {op : Op S} {sem : S → Nat} (hop : op.Enabled sem) :
    ∑ x, w.sem x * (op.apply sem x : Int) = ∑ x, w.sem x * (sem x : Int) + w.gain op := by
  have hupdate : ∀ (x : S) (n : Nat),
      ∑ y, w.sem y * (Function.update sem x n y : Int)
        = ∑ y, w.sem y * (sem y : Int) + (w.sem x * n - w.sem x * sem x) := by
    intro x n
    -- one semaphore changes, the others keep their part
    have hsum := sum_change (fun y => w.sem y * (sem y : Int))
      (fun y => w.sem y * (Function.update sem x n y : Int)) x
      fun y hy => by rw [Function.update_of_ne hy]
    rw [hsum, Function.update_self]
  cases op with
  | keep =>
      show ∑ x, w.sem x * (sem x : Int) = _ + 0
      rw [add_zero]
  | take x =>
      have hpos : 0 < sem x := hop
      have hpred : ((sem x - 1 : Nat) : Int) = (sem x : Int) - 1 := by omega
      show ∑ y, w.sem y * (Function.update sem x (sem x - 1) y : Int) = _ + -w.sem x
      rw [hupdate, hpred]
      ring
  | give x =>
      show ∑ y, w.sem y * (Function.update sem x (sem x + 1) y : Int) = _ + w.sem x
      rw [hupdate]
      push_cast
      ring

/-- What a step from the point `p` on the data `d` adds to the weighted sum. -/
def Weights.change (w : Weights T S σ P) {t : T} (d : σ) (p : P t) (op : Op S) (d' : σ)
    (next : P t) : Int :=
  w.gain op + (w.data d' - w.data d) + (w.pc t next - w.pc t p)

theorem Weights.total_change (w : Weights T S σ P) {op : Op S} (d : σ) (next : P t)
    (hop : op.Enabled s.sem) :
    w.total { data := d, sem := op.apply s.sem, pc := Function.update s.pc t next }
      = w.total s + w.change s.data (s.pc t) op d next := by
  have hpcs := sum_change (fun u => w.pc u (s.pc u))
    (fun u => w.pc u (Function.update s.pc t next u)) t
    fun u hu => by rw [Function.update_of_ne hu]
  rw [Function.update_self] at hpcs
  have hsems := sum_apply w hop
  unfold Weights.total Weights.change
  dsimp only
  linarith

/-- **A balanced step keeps the weighted sum.** -/
theorem Weights.total_step (w : Weights T S σ P) {op : Op S} {d : σ} {next : P t}
    (hop : op.Enabled s.sem) (hb : w.Balanced s.data (s.pc t) op d next) :
    w.total { data := d, sem := op.apply s.sem, pc := Function.update s.pc t next }
      = w.total s := by
  unfold Weights.Balanced at hb
  rw [w.total_change d next hop]
  unfold Weights.change
  linarith

/-- The difference of two laws. -/
def Weights.sub (w w' : Weights T S σ P) : Weights T S σ P where
  sem x := w.sem x - w'.sem x
  data d := w.data d - w'.data d
  pc t p := w.pc t p - w'.pc t p

omit [DecidableEq T] [DecidableEq S] in
theorem Weights.total_sub (w w' : Weights T S σ P) (s : State T S σ P) :
    (w.sub w').total s = w.total s - w'.total s := by
  simp only [Weights.total, Weights.sub, sub_mul, Finset.sum_sub_distrib]
  ring

/-! ## Bounds -/

omit [Fintype T] [DecidableEq T] [DecidableEq S] in
theorem Weights.sems_nonneg {w : Weights T S σ P} (hsem : ∀ x, 0 ≤ w.sem x) :
    0 ≤ ∑ x, w.sem x * (s.sem x : Int) :=
  Finset.sum_nonneg fun x _ => mul_nonneg (hsem x) (Int.natCast_nonneg _)

omit [DecidableEq T] [DecidableEq S] in
/-- One thread's part of a law whose other parts are not negative. -/
theorem Weights.le_total {w : Weights T S σ P} (hsem : ∀ x, 0 ≤ w.sem x)
    (hpc : ∀ u, 0 ≤ w.pc u (s.pc u)) (t : T) : w.data s.data + w.pc t (s.pc t) ≤ w.total s := by
  have hsems := w.sems_nonneg (s := s) hsem
  have hpart : w.pc t (s.pc t) ≤ ∑ u, w.pc u (s.pc u) :=
    Finset.single_le_sum (fun u _ => hpc u) (Finset.mem_univ t)
  unfold Weights.total
  omega

omit [DecidableEq S] in
/-- Two threads' parts. -/
theorem Weights.pair_le_total {w : Weights T S σ P} (hsem : ∀ x, 0 ≤ w.sem x)
    (hpc : ∀ u, 0 ≤ w.pc u (s.pc u)) {t u : T} (hne : t ≠ u) :
    w.data s.data + (w.pc t (s.pc t) + w.pc u (s.pc u)) ≤ w.total s := by
  have hsems := w.sems_nonneg (s := s) hsem
  have hpair : w.pc t (s.pc t) + w.pc u (s.pc u) ≤ ∑ v, w.pc v (s.pc v) := by
    calc w.pc t (s.pc t) + w.pc u (s.pc u) = ∑ v ∈ {t, u}, w.pc v (s.pc v) := by
          rw [Finset.sum_pair hne]
      _ ≤ ∑ v, w.pc v (s.pc v) :=
          Finset.sum_le_sum_of_subset_of_nonneg (Finset.subset_univ _) fun v _ _ => hpc v
  unfold Weights.total
  omega

end Conservation

end CPlayground.Semaphores
