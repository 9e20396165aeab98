import CPlayground.ProdCons.Invariant

set_option autoImplicit false

/-! # Progress

When all threads have been created and none of them has a step, each of them is blocked on
`empty` or `full` or has left (`Inv.quiet`): a thread anywhere else has a step, or waits for a
mutex that a thread with a step holds. The laws then rule out that numbers are still to be
consumed (`progress`).
-/

namespace CPlayground.ProdCons

open Semaphores StackLog

section Progress

variable {P C capacity maxGenerate : Nat} {s : ProgState P C}

/-- The thread has a step in the program. -/
def CanStep (maxGenerate : Nat) (s : ProgState P C) (t : Thread P C) : Prop :=
  ∃ choice s', stepProg maxGenerate s (t, choice) = some s'

/-- All threads have been created, the buffer is there, and `main` does not hold the mutex. -/
structure Running (s : ProgState P C) : Prop where
  producers : s.data.producers = P
  consumers : s.data.consumers = C
  buffer : s.data.destroyed = false
  main : holds .main (s.pc .main) = false

theorem Running.producer_lt (hrun : Running s) (i : Fin P) : i < s.data.producers := by
  rw [hrun.producers]
  exact i.isLt

theorem Running.consumer_lt (hrun : Running s) (j : Fin C) : j < s.data.consumers := by
  rw [hrun.consumers]
  exact j.isLt

/-- No producer and no consumer has a step. -/
def Stuck (maxGenerate : Nat) (s : ProgState P C) : Prop :=
  ∀ t, t ≠ .main → ¬ CanStep maxGenerate s t

/-! ## Who has a step -/

/-- While the buffer is there, every thread may go on. -/
theorem may_go (hbuffer : s.data.destroyed = false) {t : Thread P C} :
    s.data.destroyed = true → t = .main := by
  rw [hbuffer]
  exact fun h => absurd h Bool.false_ne_true

/-- A thread takes the step its instruction allows; after the buffer is destroyed only `main`
does. -/
theorem stepProg_of_effect {t : Thread P C} {choice : Choice} {op : Op Sem} {b : Buffer}
    {next : Pc t} (ht : s.data.destroyed = true → t = .main)
    (he : (code P C maxGenerate t (s.pc t)).effect s.data choice = some (op, b, next))
    (hop : op.Enabled s.sem) : stepProg maxGenerate s (t, choice)
      = some { data := b, sem := op.apply s.sem, pc := Function.update s.pc t next } := by
  unfold stepProg
  rw [if_neg fun h => h.2 (ht h.1)]
  exact step_eq_some.2 ⟨op, b, next, he, hop, rfl⟩

theorem canStep_of_effect {t : Thread P C} {choice : Choice} {op : Op Sem} {b : Buffer}
    {next : Pc t} (ht : s.data.destroyed = true → t = .main)
    (he : (code P C maxGenerate t (s.pc t)).effect s.data choice = some (op, b, next))
    (hop : op.Enabled s.sem) : CanStep maxGenerate s t :=
  ⟨choice, _, stepProg_of_effect ht he hop⟩

/-- The environment where it does not matter what it decides. -/
def someChoice : Choice := ⟨0, .created⟩

/-- A producer has a step unless it waits for a semaphore at zero or has left. -/
theorem producer_canStep {i : Fin P} (hbuffer : s.data.destroyed = false)
    (hcreated : i < s.data.producers)
    (hempty : s.pc (.producer i) = .waitEmpty → 0 < s.sem .empty)
    (hmutex : s.pc (.producer i) = .waitMutex → 0 < s.sem .mutex)
    (hin : s.pc (.producer i) ≠ .exited) : CanStep maxGenerate s (.producer i) := by
  have heffect : ∀ p, s.pc (.producer i) = p →
      (code P C maxGenerate (.producer i) (s.pc (.producer i))).effect s.data someChoice
        = (doProduce maxGenerate i p).effect s.data someChoice := by
    rintro p rfl
    rfl
  cases hp : s.pc (.producer i) with
  | start =>
      have hstart : (doProduce maxGenerate i .start).effect s.data someChoice
          = some (.keep, s.data, .waitEmpty) := by
        simp [doProduce, Instr.effect, if_pos hcreated]
      exact canStep_of_effect (may_go hbuffer) ((heffect _ hp).trans hstart) trivial
  | waitEmpty => exact canStep_of_effect (may_go hbuffer) ((heffect _ hp).trans rfl) (hempty hp)
  | waitMutex => exact canStep_of_effect (may_go hbuffer) ((heffect _ hp).trans rfl) (hmutex hp)
  | exited => exact absurd hp hin
  | testLimit | testRoom | generate | store _ | incSize _ | incPtr _ | incGen _ | postMutex _
  | postFull _ => exact canStep_of_effect (may_go hbuffer) ((heffect _ hp).trans rfl) trivial

theorem consumer_canStep {j : Fin C} (hbuffer : s.data.destroyed = false)
    (hcreated : j < s.data.consumers)
    (hfull : s.pc (.consumer j) = .waitFull → 0 < s.sem .full)
    (hmutex : s.pc (.consumer j) = .waitMutex → 0 < s.sem .mutex)
    (hin : s.pc (.consumer j) ≠ .exited) : CanStep maxGenerate s (.consumer j) := by
  have heffect : ∀ p, s.pc (.consumer j) = p →
      (code P C maxGenerate (.consumer j) (s.pc (.consumer j))).effect s.data someChoice
        = (doConsume maxGenerate j p).effect s.data someChoice := by
    rintro p rfl
    rfl
  cases hp : s.pc (.consumer j) with
  | start =>
      have hstart : (doConsume maxGenerate j .start).effect s.data someChoice
          = some (.keep, s.data, .waitFull) := by
        simp [doConsume, Instr.effect, if_pos hcreated]
      exact canStep_of_effect (may_go hbuffer) ((heffect _ hp).trans hstart) trivial
  | waitFull => exact canStep_of_effect (may_go hbuffer) ((heffect _ hp).trans rfl) (hfull hp)
  | waitMutex => exact canStep_of_effect (may_go hbuffer) ((heffect _ hp).trans rfl) (hmutex hp)
  | exited => exact absurd hp hin
  | testLimit | testItem | decSize | decPtr | incCon | load | postMutex _ | postEmpty _ =>
      exact canStep_of_effect (may_go hbuffer) ((heffect _ hp).trans rfl) trivial

/-- A thread in its critical section has a step. -/
theorem Running.holder_canStep (hrun : Running s) {t : Thread P C} (ht : t ≠ .main)
    (hholds : holds t (s.pc t) = true) : CanStep maxGenerate s t := by
  cases t with
  | main => exact absurd rfl ht
  | producer i =>
      have hout : ∀ p, ProducerPc.holds p = false → s.pc (.producer i) ≠ p := by
        rintro p hp rfl
        exact Bool.false_ne_true (hp.symm.trans hholds)
      exact producer_canStep hrun.buffer (hrun.producer_lt i)
        (fun h => absurd h (hout _ rfl)) (fun h => absurd h (hout _ rfl)) (hout _ rfl)
  | consumer j =>
      have hout : ∀ p, ConsumerPc.holds p = false → s.pc (.consumer j) ≠ p := by
        rintro p hp rfl
        exact Bool.false_ne_true (hp.symm.trans hholds)
      exact consumer_canStep hrun.buffer (hrun.consumer_lt j)
        (fun h => absurd h (hout _ rfl)) (fun h => absurd h (hout _ rfl)) (hout _ rfl)

/-! ## When nobody has a step -/

/-- A producer that is blocked on `empty`, or has left. -/
def ProducerQuiet (s : ProgState P C) (i : Fin P) : Prop :=
  (s.pc (.producer i) = .waitEmpty ∧ s.sem .empty = 0) ∨ s.pc (.producer i) = .exited

def ConsumerQuiet (s : ProgState P C) (j : Fin C) : Prop :=
  (s.pc (.consumer j) = .waitFull ∧ s.sem .full = 0) ∨ s.pc (.consumer j) = .exited

/-- The threads are outside their critical sections, blocked on `empty` and `full` or gone. -/
structure Quiet (s : ProgState P C) : Prop where
  free : ∀ t, holds t (s.pc t) = false
  producers : ∀ i, ProducerQuiet s i
  consumers : ∀ j, ConsumerQuiet s j

/-- With nobody in a critical section the mutex is there to be taken. -/
theorem Inv.mutex_free (h : Inv capacity maxGenerate s)
    (hfree : ∀ t, holds t (s.pc t) = false) : s.sem .mutex = 1 := by
  have hsum : ∑ t, (mutexLaw (P := P) (C := C)).pc t (s.pc t) = 0 :=
    Finset.sum_eq_zero fun t _ => if_neg (by rw [hfree t]; exact Bool.false_ne_true)
  have htotal := h.mutex
  unfold Weights.total at htotal
  rw [hsum, sum_sems] at htotal
  simp [mutexLaw] at htotal
  omega

/-- **Where the threads are when nobody has a step.** -/
theorem Inv.quiet (h : Inv capacity maxGenerate s) (hrun : Running s)
    (hstuck : Stuck maxGenerate s) : Quiet s := by
  -- a thread in its critical section always has a step, and there is none
  have hfree : ∀ t, holds t (s.pc t) = false := by
    intro t
    by_contra hholds
    by_cases ht : t = .main
    · subst ht
      exact hholds hrun.main
    · exact hstuck t ht (hrun.holder_canStep ht (Bool.eq_true_of_not_eq_false hholds))
  -- so nobody waits for the mutex: only `empty` and `full` can block
  have hmutex : 0 < s.sem .mutex := by
    rw [h.mutex_free hfree]
    exact Nat.one_pos
  refine ⟨hfree, fun i => ?_, fun j => ?_⟩
  · by_contra hquiet
    obtain ⟨hwait, hin⟩ := not_or.1 hquiet
    refine hstuck (.producer i) (by nofun) (producer_canStep hrun.buffer
      (hrun.producer_lt i) (fun hp => ?_) (fun _ => hmutex) hin)
    exact Nat.pos_of_ne_zero fun h0 => hwait ⟨hp, h0⟩
  · by_contra hquiet
    obtain ⟨hwait, hin⟩ := not_or.1 hquiet
    refine hstuck (.consumer j) (by nofun) (consumer_canStep hrun.buffer
      (hrun.consumer_lt j) (fun hp => ?_) (fun _ => hmutex) hin)
    exact Nat.pos_of_ne_zero fun h0 => hwait ⟨hp, h0⟩

/-! ## The laws when nobody has a step -/

/-- How many producers have left. -/
def leftProducers (s : ProgState P C) : Nat :=
  (Finset.univ.filter fun i => s.pc (.producer i) = .exited).card

def leftConsumers (s : ProgState P C) : Nat :=
  (Finset.univ.filter fun j => s.pc (.consumer j) = .exited).card

/-- All places are in the semaphores. -/
theorem Quiet.tokens (hq : Quiet s) (h : Inv capacity maxGenerate s) :
    s.sem .empty + s.sem .full = capacity := by
  have hsum : ∑ t, (tokenLaw (P := P) (C := C)).pc t (s.pc t) = 0 := by
    refine Finset.sum_eq_zero fun t _ => ?_
    cases t with
    | main => rfl
    | producer i =>
        show ProducerPc.token (s.pc (.producer i)) = 0
        rcases hq.producers i with ⟨hp, -⟩ | hp <;> rw [hp] <;> rfl
    | consumer j =>
        show ConsumerPc.token (s.pc (.consumer j)) = 0
        rcases hq.consumers j with ⟨hp, -⟩ | hp <;> rw [hp] <;> rfl
  have htotal := h.tokens
  unfold Weights.total at htotal
  rw [hsum, sum_sems] at htotal
  simp [tokenLaw] at htotal
  omega

/-- `full` counts the numbers in the buffer, and the threads that have left. -/
theorem Quiet.full (hq : Quiet s) (h : Inv capacity maxGenerate s) :
    s.sem .full + leftConsumers s = s.data.items.length + leftProducers s := by
  have hp : ∑ i : Fin P, ProducerPc.surplus (s.pc (.producer i)) = -(leftProducers s : Int) := by
    have hone : ∀ i : Fin P, ProducerPc.surplus (s.pc (.producer i))
        = -(if s.pc (.producer i) = .exited then 1 else 0) := by
      intro i
      rcases hq.producers i with ⟨hp, -⟩ | hp <;> rw [hp] <;> rfl
    calc ∑ i : Fin P, ProducerPc.surplus (s.pc (.producer i))
        = ∑ i : Fin P, -(if s.pc (.producer i) = .exited then 1 else 0 : Int) :=
          Finset.sum_congr rfl fun i _ => hone i
      _ = -∑ i : Fin P, (if s.pc (.producer i) = .exited then 1 else 0 : Int) :=
          Finset.sum_neg_distrib _
      _ = -(leftProducers s : Int) := by
          rw [Finset.sum_boole]
          rfl
  have hc : ∑ j : Fin C, ConsumerPc.surplus (s.pc (.consumer j)) = leftConsumers s := by
    have hone : ∀ j : Fin C, ConsumerPc.surplus (s.pc (.consumer j))
        = if s.pc (.consumer j) = .exited then 1 else 0 := by
      intro j
      rcases hq.consumers j with ⟨hp, -⟩ | hp <;> rw [hp] <;> rfl
    rw [Finset.sum_congr rfl fun j _ => hone j, Finset.sum_boole]
    rfl
  have htotal := h.items
  unfold Weights.total at htotal
  rw [sum_threads, sum_sems] at htotal
  simp [itemLaw, hp, hc] at htotal
  omega

theorem Quiet.con_eq (hq : Quiet s) (h : Inv capacity maxGenerate s) :
    s.data.numGen = s.data.numCon + s.data.items.length := by
  have hcon := total_free conLaw_inside hq.free
  rw [h.con, conLaw_data] at hcon
  have hgen := h.buffer.gen_eq
  omega

/-! ## Progress -/

theorem left_eq_zero (hnone : ∀ j, s.pc (.consumer j) ≠ .exited) : leftConsumers s = 0 := by
  unfold leftConsumers
  rw [Finset.card_eq_zero, Finset.filter_eq_empty_iff]
  exact fun j _ => hnone j

/-- **When nobody has a step, all numbers have been generated and consumed.** Were there more
to consume, no consumer would have left: all would wait for `full` at zero, hence all places
would be in `empty`, all producers gone, and each would have posted `full`. -/
theorem Inv.all_consumed (h : Inv capacity maxGenerate s) (hrun : Running s)
    (hstuck : Stuck maxGenerate s) (hP : 1 ≤ P) (hC : 1 ≤ C) (hcap : 1 ≤ capacity) :
    s.data.numCon = maxGenerate := by
  by_contra hnum
  have hq := h.quiet hrun hstuck
  -- a consumer leaves only when it has found the limit reached
  have hnone : ∀ j, s.pc (.consumer j) ≠ .exited := by
    intro j hp
    have hok := h.points (.consumer j)
    rw [hp] at hok
    exact hnum hok
  -- hence the first consumer is blocked, and all places are in `empty`
  have hfull0 : s.sem .full = 0 := by
    rcases hq.consumers ⟨0, hC⟩ with ⟨-, h0⟩ | hp
    · exact h0
    · exact absurd hp (hnone _)
  have htokens := hq.tokens h
  -- so the first producer cannot be blocked
  have hgone : s.pc (.producer ⟨0, hP⟩) = .exited := by
    rcases hq.producers ⟨0, hP⟩ with ⟨-, h0⟩ | hp
    · omega
    · exact hp
  -- the token it posted when it left is in `full` after all
  have hleft : 0 < leftProducers s :=
    Finset.card_pos.2 ⟨⟨0, hP⟩, Finset.mem_filter.2 ⟨Finset.mem_univ _, hgone⟩⟩
  have hfull := hq.full h
  have hzero := left_eq_zero hnone
  omega

/-! ## Where `main` is -/

/-- What `main` knows about the threads at its point. -/
def MainPc.Ok (P C : Nat) (b : Buffer) : MainPc → Prop
  | .createProducers | .destroy true => True
  | .createConsumers => b.producers = P
  | .done _ => b.destroyed = true
  | _ => b.producers = P ∧ b.consumers = C

/-- The threads there are, by the point of `main`. -/
structure Created (s : ProgState P C) : Prop where
  producers : s.data.producers ≤ P
  consumers : s.data.consumers ≤ C
  main : MainPc.Ok P C s.data (s.pc .main)

/-- Producers and consumers create no threads and destroy nothing. -/
theorem Edge.threads_stay {b b' : Buffer} {op : Op Sem} {t : Thread P C} {p p' : Pc t}
    (he : Edge maxGenerate b t p op b' p') (ht : t ≠ .main) :
    b'.producers = b.producers ∧ b'.consumers = b.consumers ∧ b'.destroyed = b.destroyed := by
  cases t with
  | main => exact absurd rfl ht
  | producer i => cases he <;> exact ⟨rfl, rfl, rfl⟩
  | consumer j => cases he <;> exact ⟨rfl, rfl, rfl⟩

theorem MainEdge.created {b b' : Buffer} {op : Op Sem} {p p' : MainPc}
    (he : MainEdge P C maxGenerate b p op b' p') (hp : b.producers ≤ P) (hc : b.consumers ≤ C)
    (hok : MainPc.Ok P C b p) :
    b'.producers ≤ P ∧ b'.consumers ≤ C ∧ MainPc.Ok P C b' p' := by
  cases he with
  | newProducer h | looseProducer h => exact ⟨h, hc, trivial⟩
  | noProducer h | noConsumer h => exact ⟨hp, hc, trivial⟩
  | allProducers h => exact ⟨hp, hc, Nat.le_antisymm hp (Nat.not_lt.1 h)⟩
  | newConsumer h => exact ⟨hp, h, hok⟩
  | looseConsumer h => exact ⟨hp, h, trivial⟩
  | allConsumers h => exact ⟨hp, hc, hok, Nat.le_antisymm hc (Nat.not_lt.1 h)⟩
  | destroy failed => exact ⟨hp, hc, rfl⟩
  | lock | finished _ | unfinished _ | unlock | leave | freeThreads => exact ⟨hp, hc, hok⟩

theorem Created.step {s' : ProgState P C} {a : Thread P C × Choice} (h : Created s)
    (hstep : stepProg maxGenerate s a = some s') : Created s' := by
  obtain ⟨t, choice⟩ := a
  obtain ⟨-, op, b', p', he, -, rfl⟩ := stepProg_cases hstep
  by_cases ht : t = .main
  · subst ht
    obtain ⟨hp, hc, hok⟩ := MainEdge.created he h.producers h.consumers h.main
    refine ⟨hp, hc, ?_⟩
    show MainPc.Ok P C b' (Function.update s.pc .main p' .main)
    rw [Function.update_self]
    exact hok
  -- `main` stays where it was, and so does what it knows
  · obtain ⟨hp, hc, hd⟩ := he.threads_stay ht
    refine ⟨hp ▸ h.producers, hc ▸ h.consumers, ?_⟩
    show MainPc.Ok P C b' (Function.update s.pc t p' .main)
    rw [Function.update_of_ne (Ne.symm ht)]
    have hok := h.main
    unfold MainPc.Ok at hok ⊢
    rw [hp, hc, hd]
    exact hok

theorem created_reachable (h : ProgReachable P C capacity maxGenerate s) : Created s := by
  refine Reachable.invariant Created ?_ ?_ h
  · rintro _ ⟨junk, rfl⟩
    exact ⟨Nat.zero_le _, Nat.zero_le _, trivial⟩
  · rintro s s' - hc ⟨a, hstep⟩
    exact hc.step hstep

/-- `main` has a step wherever it is about to create a thread or to destroy the buffer. -/
theorem main_canStep (hmain : s.pc .main = .createProducers ∨ s.pc .main = .createConsumers ∨
      ∃ failed, s.pc .main = .destroy failed) : CanStep maxGenerate s .main := by
  have hstep : ∀ b next,
      (mainThread P C maxGenerate (s.pc .main)).effect s.data someChoice = some (.keep, b, next) →
      CanStep maxGenerate s .main :=
    fun b next he => canStep_of_effect (fun _ => rfl) he trivial
  rcases hmain with hp | hp | ⟨failed, hp⟩ <;> rw [hp] at hstep
  · by_cases hlt : s.data.producers < P
    · exact hstep { s.data with producers := s.data.producers + 1 } .createProducers
        (by simp [mainThread, Instr.effect, hlt, someChoice])
    · exact hstep s.data .createConsumers (by simp [mainThread, Instr.effect, hlt])
  · by_cases hlt : s.data.consumers < C
    · exact hstep { s.data with consumers := s.data.consumers + 1 } .createConsumers
        (by simp [mainThread, Instr.effect, hlt, someChoice])
    · exact hstep s.data .pollWait (by simp [mainThread, Instr.effect, hlt])
  · exact hstep { s.data with dataptr := 0, destroyed := true } (.done failed) rfl

/-- While threads are missing `main` has a step: it creates one, or gives up. -/
theorem Created.main_canStep (h : Created s) (hbuffer : s.data.destroyed = false)
    (hmissing : ¬ (s.data.producers = P ∧ s.data.consumers = C)) :
    CanStep maxGenerate s .main := by
  have hok := h.main
  apply ProdCons.main_canStep
  -- only where threads are created or the buffer is destroyed may some be missing
  cases hp : s.pc .main with
  | createProducers => exact Or.inl rfl
  | createConsumers => exact Or.inr (Or.inl rfl)
  | destroy failed => exact Or.inr (Or.inr ⟨failed, rfl⟩)
  | done failed =>
      rw [hp] at hok
      exact absurd (hbuffer.symm.trans hok) Bool.false_ne_true
  | pollWait | pollTest | pollPost | leavePost | freeThreads =>
      rw [hp] at hok
      exact absurd hok hmissing

/-- **Progress.** As long as the buffer is there, `main` does not hold the mutex and numbers
are still to be consumed, some producer or consumer has a step; or threads are still missing,
and `main`, which is about to create one, has a step. -/
theorem progress (hP : 1 ≤ P) (hC : 1 ≤ C) (hcap : 1 ≤ capacity)
    (h : ProgReachable P C capacity maxGenerate s) (hbuffer : s.data.destroyed = false)
    (hmain : holds .main (s.pc .main) = false) (hnum : s.data.numCon < maxGenerate) :
    (∃ t, t ≠ .main ∧ CanStep maxGenerate s t) ∨
      (¬ (s.data.producers = P ∧ s.data.consumers = C) ∧ CanStep maxGenerate s .main) := by
  by_cases hall : s.data.producers = P ∧ s.data.consumers = C
  · left
    by_contra hnone
    -- everybody is there: by `Inv.all_consumed` a state without steps has consumed all
    have hstuck : Stuck maxGenerate s := fun t ht hcan => hnone ⟨t, ht, hcan⟩
    have hrun : Running s := ⟨hall.1, hall.2, hbuffer, hmain⟩
    have hconsumed := (inv_reachable h hbuffer).all_consumed hrun hstuck hP hC hcap
    omega
  · right
    exact ⟨hall, (created_reachable h).main_canStep hbuffer hall⟩

end Progress

set_option maxRecDepth 20000 in
/-- One place for two producers: one has filled it and waits for `empty`, the other waits too,
and the consumer has not begun. -/
theorem progress_full : ∃ s : ProgState 2 1,
    s.pc (.producer 0) = .waitEmpty ∧ s.pc (.producer 1) = .waitEmpty ∧ s.sem .empty = 0 ∧
      ∃ t, t ≠ .main ∧ CanStep 2 s t := by
  obtain ⟨s, hs, hp⟩ : ∃ s, ProgReachable 2 1 1 2 s ∧
      decide (s.data.destroyed = false ∧ holds .main (s.pc .main) = false ∧ s.data.numCon < 2 ∧
        (s.data.producers = 2 ∧ s.data.consumers = 1) ∧ s.pc (.producer 0) = .waitEmpty ∧
        s.pc (.producer 1) = .waitEmpty ∧ s.sem .empty = 0) = true :=
    progReachable_of_run
      (times .main 5 0 ++ times (.producer 0) 12 7 ++ times (.producer 1) 1 0) _ (by decide)
  obtain ⟨hbuffer, hmain, hnum, hall, hfirst, hsecond, hempty⟩ := of_decide_eq_true hp
  rcases progress (by decide) (by decide) (by decide) hs hbuffer hmain hnum with hcan | ⟨hnot, -⟩
  · exact ⟨s, hfirst, hsecond, hempty, hcan⟩
  · exact absurd hall hnot

end CPlayground.ProdCons
