import CPlayground.Basic.Run
import Mathlib.Algebra.BigOperators.Group.Finset.Basic
import Mathlib.Algebra.Order.BigOperators.Group.Finset
import Mathlib.Algebra.Order.Group.Multiset
import Mathlib.Data.Fintype.BigOperators
import Mathlib.Logic.Function.Basic
import Mathlib.Tactic.Abel

set_option autoImplicit false

/-! # A first-in, first-out scheduler

What workers with a queue of jobs are for. A submitted job waits; a worker that is free claims
the job that has waited longest, starts it and finishes it. When every worker is free the jobs
that still wait may be dropped, and from then on nothing is submitted or claimed any more.

In every reachable state a job has been submitted once, and what was claimed is finished or in
the hands of a worker (`Account`). With a single worker the jobs are started one after the
other, in the order in which they were submitted (`Serial`).
-/

namespace CPlayground

/-- The jobs that were submitted; those that wait, oldest first; those that workers have claimed;
what each worker has claimed and not finished, and whether it has started it; the jobs that were
started, finished and dropped. Each list is in the order of the events. -/
structure Sched (W J : Type) where
  submitted : List J
  waiting : List J
  claimed : List J
  running : W → Option (J × Bool)
  started : List J
  finished : List J
  dropped : List J

namespace Sched

variable {W J : Type}

def empty : Sched W J where
  submitted := []
  waiting := []
  claimed := []
  running := fun _ => none
  started := []
  finished := []
  dropped := []

inductive Step [DecidableEq W] (s : Sched W J) : Sched W J → Prop
  | submit {j : J} (hopen : s.dropped = []) (hnew : j ∉ s.submitted) :
      Step s { s with submitted := s.submitted ++ [j]
                      waiting := s.waiting ++ [j] }
  | claim {w : W} {j : J} {rest : List J} (hopen : s.dropped = []) (hfree : s.running w = none)
      (hnext : s.waiting = j :: rest) :
      Step s { s with waiting := rest
                      claimed := s.claimed ++ [j]
                      running := Function.update s.running w (some (j, false)) }
  | start {w : W} {j : J} (hrun : s.running w = some (j, false)) :
      Step s { s with running := Function.update s.running w (some (j, true))
                      started := s.started ++ [j] }
  | finish {w : W} {j : J} (hrun : s.running w = some (j, true)) :
      Step s { s with running := Function.update s.running w none
                      finished := s.finished ++ [j] }
  | drop {j : J} {rest : List J} (hidle : ∀ w, s.running w = none)
      (hnext : s.waiting = j :: rest) :
      Step s { s with waiting := rest
                      dropped := s.dropped ++ [j] }

/-- The states that a scheduler comes to. -/
def Runs [DecidableEq W] (s : Sched W J) : Prop := Reachable (· = empty) Step s

/-! ## The account of the jobs -/

/-- The job that a worker has claimed. -/
def hand : Option (J × Bool) → Multiset J
  | some (j, _) => {j}
  | none => 0

/-- The job that a worker has started. -/
def begun : Option (J × Bool) → Multiset J
  | some (j, true) => {j}
  | _ => 0

section Account

variable [Fintype W]

/-- A job has been submitted once; the jobs were claimed in the order in which they were
submitted, and dropped in this order too, the last ones; what was claimed is finished or in
somebody's hands, and what was started is finished or has been begun; nothing is dropped under a
worker. -/
structure Account (s : Sched W J) : Prop where
  once : s.submitted.Nodup
  order : s.submitted = s.claimed ++ s.dropped ++ s.waiting
  claimed : (s.claimed : Multiset J) = s.finished + ∑ w, hand (s.running w)
  started : (s.started : Multiset J) = s.finished + ∑ w, begun (s.running w)
  idle : s.dropped ≠ [] → ∀ w, s.running w = none

theorem account_empty : Account (empty : Sched W J) where
  once := List.nodup_nil
  order := rfl
  claimed := by simp [empty, hand]
  started := by simp [empty, begun]
  idle h := absurd rfl h

variable [DecidableEq W]

/-- A sum over the workers changes by what the one worker's part does. -/
theorem sum_running (g : Option (J × Bool) → Multiset J) (running : W → Option (J × Bool)) (w : W)
    (r : Option (J × Bool)) :
    ∑ v, g (Function.update running w r v) + g (running w) = ∑ v, g (running v) + g r := by
  have hrest : ∑ v ∈ Finset.univ.erase w, g (Function.update running w r v)
      = ∑ v ∈ Finset.univ.erase w, g (running v) := by
    apply Finset.sum_congr rfl
    intro v hv
    rw [Function.update_of_ne (Finset.ne_of_mem_erase hv)]
  calc ∑ v, g (Function.update running w r v) + g (running w)
      = g r + ∑ v ∈ Finset.univ.erase w, g (running v) + g (running w) := by
        rw [← Finset.add_sum_erase _ _ (Finset.mem_univ w), Function.update_self, hrest]
    _ = g (running w) + ∑ v ∈ Finset.univ.erase w, g (running v) + g r := by abel
    _ = ∑ v, g (running v) + g r := by
        rw [Finset.add_sum_erase _ (fun v => g (running v)) (Finset.mem_univ w)]

/-- What is in the hands after a step of one worker. -/
theorem sum_update {g : Option (J × Bool) → Multiset J} {running : W → Option (J × Bool)} {w : W}
    {r : Option (J × Bool)} {gone come : Multiset J} (hgone : g (running w) = gone)
    (hcome : g r = come) :
    ∑ v, g (Function.update running w r v) + gone = ∑ v, g (running v) + come := by
  rw [← hgone, ← hcome]
  exact sum_running g running w r

omit [Fintype W] [DecidableEq W] in
theorem coe_snoc (js : List J) (j : J) :
    ((js ++ [j] : List J) : Multiset J) = (js : Multiset J) + {j} :=
  (Multiset.coe_add js [j]).symm

variable {s s' : Sched W J}

/-- **Every step keeps the account.** -/
theorem Account.step (h : Account s) (hs : Step s s') : Account s' := by
  cases hs with
  | @submit j hopen hnew =>
      refine ⟨?_, ?_, h.claimed, h.started, h.idle⟩
      · refine List.nodup_append.2 ⟨h.once, List.nodup_singleton j, ?_⟩
        intro a ha b hb
        rw [List.mem_singleton.1 hb]
        rintro rfl
        exact hnew ha
      · rw [h.order, List.append_assoc]
  | @claim w j rest hopen hfree hnext =>
      have hhand : ∑ v, hand (Function.update s.running w (some (j, false)) v) + 0
          = ∑ v, hand (s.running v) + {j} := sum_update (congrArg hand hfree) rfl
      have hbegun : ∑ v, begun (Function.update s.running w (some (j, false)) v) + 0
          = ∑ v, begun (s.running v) + 0 := sum_update (congrArg begun hfree) rfl
      rw [add_zero] at hhand
      refine ⟨h.once, ?_, ?_, ?_, fun hne => absurd hopen hne⟩
      · rw [h.order, hopen, hnext]
        simp
      · show ((s.claimed ++ [j] : List J) : Multiset J) = _
        rw [coe_snoc, h.claimed, add_assoc, ← hhand]
      · show (s.started : Multiset J) = _
        rw [h.started, add_right_cancel hbegun]
  | @start w j hrun =>
      have hhand : ∑ v, hand (Function.update s.running w (some (j, true)) v) + {j}
          = ∑ v, hand (s.running v) + {j} := sum_update (congrArg hand hrun) rfl
      have hbegun : ∑ v, begun (Function.update s.running w (some (j, true)) v) + 0
          = ∑ v, begun (s.running v) + {j} := sum_update (congrArg begun hrun) rfl
      rw [add_zero] at hbegun
      refine ⟨h.once, h.order, ?_, ?_, fun hne => ?_⟩
      · show (s.claimed : Multiset J) = _
        rw [h.claimed, add_right_cancel hhand]
      · show ((s.started ++ [j] : List J) : Multiset J) = _
        rw [coe_snoc, h.started, add_assoc, ← hbegun]
      · rw [h.idle hne w] at hrun
        cases hrun
  | @finish w j hrun =>
      have hhand : ∑ v, hand (Function.update s.running w none v) + {j}
          = ∑ v, hand (s.running v) + 0 := sum_update (congrArg hand hrun) rfl
      have hbegun : ∑ v, begun (Function.update s.running w none v) + {j}
          = ∑ v, begun (s.running v) + 0 := sum_update (congrArg begun hrun) rfl
      rw [add_zero] at hhand hbegun
      refine ⟨h.once, h.order, ?_, ?_, fun hne => ?_⟩
      · show (s.claimed : Multiset J) = ((s.finished ++ [j] : List J) : Multiset J) + _
        rw [coe_snoc, h.claimed, ← hhand, add_assoc, add_comm _ ({j} : Multiset J)]
      · show (s.started : Multiset J) = ((s.finished ++ [j] : List J) : Multiset J) + _
        rw [coe_snoc, h.started, ← hbegun, add_assoc, add_comm _ ({j} : Multiset J)]
      · rw [h.idle hne w] at hrun
        cases hrun
  | @drop j rest hidle hnext =>
      refine ⟨h.once, ?_, h.claimed, h.started, fun _ => hidle⟩
      rw [h.order, hnext]
      simp

theorem Runs.account (h : Runs s) : Account s := by
  refine Reachable.invariant Account ?_ ?_ h
  · rintro s rfl
    exact account_empty
  · intro s s' _ hacc hs
    exact hacc.step hs

omit [DecidableEq W] in
/-- No more jobs have been started and not finished than there are workers. -/
theorem Account.started_le (h : Account s) :
    s.started.length ≤ s.finished.length + Fintype.card W := by
  have hcard := congrArg Multiset.card h.started
  rw [Multiset.card_add, Multiset.coe_card, Multiset.coe_card, Multiset.card_sum] at hcard
  have hone : ∀ w, (begun (s.running w)).card ≤ 1 := by
    intro w
    cases hw : s.running w with
    | none => exact Nat.zero_le 1
    | some r =>
        obtain ⟨j, called⟩ := r
        cases called
        · exact Nat.zero_le 1
        · exact Nat.le_refl 1
  calc s.started.length = s.finished.length + ∑ w, (begun (s.running w)).card := hcard
    _ ≤ s.finished.length + ∑ _w : W, 1 :=
        Nat.add_le_add_left (Finset.sum_le_sum fun w _ => hone w) _
    _ = s.finished.length + Fintype.card W := by
        rw [← Finset.card_eq_sum_ones, Finset.card_univ]

omit [DecidableEq W] in
/-- When no worker has a job, the claimed jobs are the finished ones. -/
theorem Account.all_finished (h : Account s) (hidle : ∀ w, s.running w = none) :
    s.claimed.Perm s.finished ∧ s.started.Perm s.finished := by
  have hclaimed := h.claimed
  have hstarted := h.started
  simp only [hidle, hand, begun, Finset.sum_const_zero, add_zero] at hclaimed hstarted
  exact ⟨Multiset.coe_eq_coe.1 hclaimed, Multiset.coe_eq_coe.1 hstarted⟩

end Account

/-! ## A single worker -/

section Serial

variable [DecidableEq W] {s s' : Sched W J} {w : W}

/-- The job in the worker's hands. -/
def claims : Option (J × Bool) → List J
  | some (j, _) => [j]
  | none => []

def starts : Option (J × Bool) → List J
  | some (j, true) => [j]
  | _ => []

/-- What was claimed is finished, in this order, but for the job in the worker's hands. -/
structure Serial (w : W) (s : Sched W J) : Prop where
  claimed : s.claimed = s.finished ++ claims (s.running w)
  started : s.started = s.finished ++ starts (s.running w)

theorem Serial.step (hsole : ∀ v, v = w) (h : Serial w s) (hs : Step s s') : Serial w s' := by
  obtain ⟨hclaimed, hstarted⟩ := h
  cases hs with
  | submit _ _ | drop _ _ => exact ⟨hclaimed, hstarted⟩
  | @claim v j rest _ hfree _ =>
      obtain rfl := hsole v
      rw [hfree] at hclaimed hstarted
      constructor
      · simp [hclaimed, claims]
      · simp [hstarted, starts]
  | @start v j hrun =>
      obtain rfl := hsole v
      rw [hrun] at hclaimed hstarted
      constructor
      · simp [hclaimed, claims]
      · simp [hstarted, starts]
  | @finish v j hrun =>
      obtain rfl := hsole v
      rw [hrun] at hclaimed hstarted
      constructor
      · simp [hclaimed, claims]
      · simp [hstarted, starts]

theorem Runs.serial (hsole : ∀ v, v = w) (h : Runs s) : Serial w s := by
  refine Reachable.invariant (Serial w) ?_ ?_ h
  · rintro s rfl
    exact ⟨rfl, rfl⟩
  · intro s s' _ hser hs
    exact hser.step hsole hs

omit [DecidableEq W] in
/-- **One worker runs the jobs one after the other**, in the order in which they were
submitted. -/
theorem Serial.in_order (h : Serial w s) :
    s.finished <+: s.started ∧ s.started <+: s.claimed := by
  obtain ⟨hclaimed, hstarted⟩ := h
  rw [hclaimed, hstarted]
  refine ⟨List.prefix_append _ _, ?_⟩
  rw [List.prefix_append_right_inj]
  rcases s.running w with _ | ⟨j, _ | _⟩
  · exact List.prefix_refl _
  · exact List.nil_prefix
  · exact List.prefix_refl _

end Serial

end Sched

end CPlayground
