import CPlayground.ProdCons.Progress

set_option autoImplicit false

/-! # Who leaves

Left to themselves the producers and consumers come to a state in which none of them has a
step: every step lowers the rank (`ThreadStep.rank_lt`), which counts what is still to be
generated and consumed and how far each thread is from its next wait. There all numbers are
consumed, and the laws tell how many threads have left (`Inv.all_exited_iff`): each producer
that leaves hands a token of `full` to the consumers, each consumer that leaves a token of
`empty` to the producers, and whether this is enough depends on `P`, `C` and the capacity.
-/

namespace CPlayground.ProdCons

open Semaphores StackLog

section Exit

variable {P C capacity maxGenerate : Nat} {s s' : ProgState P C}

/-! ## The rank -/

/-- How far a producer is from its next wait for `empty`, or from its end. -/
def ProducerPc.rank : ProducerPc → Int
  | .start => 12
  | .waitEmpty => 11
  | .waitMutex => 10
  | .testLimit => 9
  | .testRoom => 8
  | .generate => 7
  | .store _ => 6
  | .incSize _ => 5
  | .incPtr _ => 4
  | .incGen _ => 3
  | .postMutex false => 13
  | .postFull false => 12
  | .postMutex true => 2
  | .postFull true => 1
  | .exited => 0

def ConsumerPc.rank : ConsumerPc → Int
  | .start => 12
  | .waitFull => 11
  | .waitMutex => 10
  | .testLimit => 9
  | .testItem => 8
  | .decSize => 7
  | .decPtr => 6
  | .incCon => 5
  | .load => 4
  | .postMutex false => 13
  | .postEmpty false => 12
  | .postMutex true => 2
  | .postEmpty true => 1
  | .exited => 0

/-- A number that is generated or consumed pays for another round of its thread. -/
def rankLaw : Law P C where
  sem _ := 0
  data buffer := -(11 * (buffer.numGen + (pops buffer.history).card : Int))
  pc := pcWeight ProducerPc.rank ConsumerPc.rank

/-- A step of a producer or consumer. -/
def ThreadStep (maxGenerate : Nat) (s s' : ProgState P C) : Prop :=
  ∃ t choice, t ≠ .main ∧ stepProg maxGenerate s (t, choice) = some s'

theorem ThreadStep.steps (h : ThreadStep maxGenerate s s') :
    Steps (stepProg maxGenerate) s s' := by
  obtain ⟨t, choice, -, hstep⟩ := h
  exact ⟨(t, choice), hstep⟩

theorem rankLaw_change {b b' : Buffer} {op : Op Sem} {t : Thread P C} {p p' : Pc t}
    (he : Edge maxGenerate b t p op b' p') (ht : t ≠ .main) (hr : Regular b t p) :
    rankLaw.change b p op b' p' < 0 := by
  unfold Weights.change
  cases t with
  | main => exact absurd rfl ht
  | producer i =>
      cases he with
      -- with the limit not reached the producer holds a token, so there is room
      | isFull hfull => exact absurd (hr rfl) hfull
      | unlock leaving => cases leaving <;> simp [rankLaw, ProducerPc.rank]
      -- going round again costs 10, for which the number pays 11
      | incGen number =>
          simp only [rankLaw, pcWeight_producer, ProducerPc.rank, gain_keep, pops]
          omega
      | _ => simp [rankLaw, ProducerPc.rank]
  | consumer j =>
      cases he with
      -- likewise the consumer that comes here finds a number
      | isEmpty hempty => exact absurd (hr.1 (Or.inl rfl)) hempty
      | unlock leaving => cases leaving <;> simp [rankLaw, ConsumerPc.rank]
      | load =>
          simp only [rankLaw, pcWeight_consumer, ConsumerPc.rank, gain_keep, pops,
            Multiset.card_cons]
          omega
      | _ => simp [rankLaw, ConsumerPc.rank]

/-- What the data of the law is at most ahead of. -/
def rank (maxGenerate : Nat) (s : ProgState P C) : Nat :=
  (rankLaw.total s + 22 * maxGenerate).toNat

theorem rankLaw_nonneg (t : Thread P C) (p : Pc t) : 0 ≤ rankLaw.pc t p := by
  cases t with
  | main => exact le_refl _
  | producer i =>
      show 0 ≤ ProducerPc.rank p
      cases p with
      | postMutex leaving | postFull leaving => cases leaving <;> simp [ProducerPc.rank]
      | _ => simp [ProducerPc.rank]
  | consumer j =>
      show 0 ≤ ConsumerPc.rank p
      cases p with
      | postMutex leaving | postEmpty leaving => cases leaving <;> simp [ConsumerPc.rank]
      | _ => simp [ConsumerPc.rank]

theorem Inv.rank_nonneg (h : Inv capacity maxGenerate s) :
    0 ≤ rankLaw.total s + 22 * maxGenerate := by
  have hpcs : 0 ≤ ∑ t, rankLaw.pc t (s.pc t) := Finset.sum_nonneg fun t _ => rankLaw_nonneg t _
  have hsem : ∑ x, (rankLaw (P := P) (C := C)).sem x * (s.sem x : Int) = 0 :=
    Finset.sum_eq_zero fun x _ => zero_mul _
  have hdata : (rankLaw (P := P) (C := C)).data s.data
      = -(11 * (s.data.numGen + (pops s.data.history).card : Int)) := rfl
  have hgen := h.buffer.gen_eq
  have hle := h.buffer.gen_le
  unfold Weights.total
  omega

/-- **Every step of a producer or consumer lowers the rank.** -/
theorem ThreadStep.rank_lt (h : ThreadStep maxGenerate s s') (hinv : Inv capacity maxGenerate s)
    (hinv' : Inv capacity maxGenerate s') : rank maxGenerate s' < rank maxGenerate s := by
  obtain ⟨t, choice, ht, hstep⟩ := h
  have hnonneg := hinv.rank_nonneg
  have hnonneg' := hinv'.rank_nonneg
  obtain ⟨-, op, b', p', he, hop, rfl⟩ := stepProg_cases hstep
  have hchange := rankLaw_change he ht (hinv.regular t)
  have htotal := rankLaw.total_change b' p' hop
  unfold rank
  omega

/-! ## The threads on their own -/

/-- All threads have been created and `main` is about to look at the counters. -/
structure Polling (s : ProgState P C) : Prop where
  producers : s.data.producers = P
  consumers : s.data.consumers = C
  buffer : s.data.destroyed = false
  main : s.pc .main = .pollWait

theorem Polling.running (h : Polling s) : Running s :=
  ⟨h.producers, h.consumers, h.buffer, by rw [h.main]; rfl⟩

theorem Polling.threadStep (h : Polling s) (hstep : ThreadStep maxGenerate s s') :
    Polling s' := by
  obtain ⟨t, choice, ht, hstep⟩ := hstep
  obtain ⟨-, op, b', p', he, -, rfl⟩ := stepProg_cases hstep
  obtain ⟨hp, hc, hd⟩ := he.threads_stay ht
  refine ⟨hp.trans h.producers, hc.trans h.consumers, hd.trans h.buffer, ?_⟩
  show Function.update s.pc t p' .main = .pollWait
  rw [Function.update_of_ne (Ne.symm ht)]
  exact h.main

/-- A run goes on with the step that the instruction of a thread allows. -/
theorem ProgReachable.go {t : Thread P C} {p next : Pc t} {op : Op Sem} {b : Buffer}
    (choice : Choice) (h : ProgReachable P C capacity maxGenerate s) (hp : s.pc t = p)
    (ht : s.data.destroyed = true → t = .main)
    (he : (code P C maxGenerate t p).effect s.data choice = some (op, b, next))
    (hop : op.Enabled s.sem) : ∃ s', ProgReachable P C capacity maxGenerate s' ∧ s'.data = b ∧
      s'.sem = op.apply s.sem ∧ s'.pc t = next ∧ ∀ u, u ≠ t → s'.pc u = s.pc u := by
  subst hp
  refine ⟨_, h.next ⟨(t, choice), stepProg_of_effect ht he hop⟩, rfl, rfl, ?_, fun u hu => ?_⟩
  · show Function.update s.pc t next t = next
    rw [Function.update_self]
  · show Function.update s.pc t next u = s.pc u
    rw [Function.update_of_ne hu]

/-- `p` producers and `c` consumers have been created, and none of them has begun. -/
structure Fresh (p c : Nat) (s : ProgState P C) : Prop where
  producers : s.data.producers = p
  consumers : s.data.consumers = c
  buffer : s.data.destroyed = false
  threads : ∀ t, t ≠ .main → s.pc t = startPc t

/-- `main` goes on with the creation of the threads. -/
theorem Fresh.go {p c p' c' : Nat} {pc next : MainPc} {b : Buffer}
    (hfresh : Fresh p c s) (h : ProgReachable P C capacity maxGenerate s)
    (hmain : s.pc .main = pc)
    (he : (mainThread P C maxGenerate pc).effect s.data someChoice = some (.keep, b, next))
    (hp : b.producers = p') (hc : b.consumers = c') (hd : b.destroyed = s.data.destroyed) :
    ∃ s', ProgReachable P C capacity maxGenerate s' ∧ Fresh p' c' s' ∧ s'.pc .main = next := by
  obtain ⟨s', hs', rfl, -, hmain', hothers⟩ := h.go someChoice hmain (fun _ => rfl) he trivial
  exact ⟨s', hs', ⟨hp, hc, hd.trans hfresh.buffer,
    fun t ht => (hothers t ht).trans (hfresh.threads t ht)⟩, hmain'⟩

/-- `main` is about to create the next producer. -/
theorem exists_producers (P C capacity maxGenerate k : Nat) (hk : k ≤ P) :
    ∃ s : ProgState P C, ProgReachable P C capacity maxGenerate s ∧ Fresh k 0 s ∧
      s.pc .main = .createProducers := by
  induction k with
  | zero =>
      exact ⟨startState P C capacity fun _ => 0, Reachable.start ⟨_, rfl⟩,
        ⟨rfl, rfl, rfl, fun _ _ => rfl⟩, rfl⟩
  | succ k ih =>
      obtain ⟨s, hs, hfresh, hmain⟩ := ih (Nat.le_of_succ_le hk)
      have hlt : s.data.producers < P := by
        rw [hfresh.producers]
        exact hk
      have he : (mainThread P C maxGenerate .createProducers).effect s.data someChoice
          = some (.keep, { s.data with producers := s.data.producers + 1 }, .createProducers) := by
        simp [mainThread, Instr.effect, hlt, someChoice]
      exact hfresh.go hs hmain he (congrArg (· + 1) hfresh.producers) hfresh.consumers rfl

/-- `main` is about to create the next consumer. -/
theorem exists_consumers (P C capacity maxGenerate k : Nat) (hk : k ≤ C) :
    ∃ s : ProgState P C, ProgReachable P C capacity maxGenerate s ∧ Fresh P k s ∧
      s.pc .main = .createConsumers := by
  induction k with
  | zero =>
      obtain ⟨s, hs, hfresh, hmain⟩ :=
        exists_producers P C capacity maxGenerate P (Nat.le_refl P)
      have he : (mainThread P C maxGenerate .createProducers).effect s.data someChoice
          = some (.keep, s.data, .createConsumers) := by
        simp [mainThread, Instr.effect, hfresh.producers]
      exact hfresh.go hs hmain he hfresh.producers hfresh.consumers rfl
  | succ k ih =>
      obtain ⟨s, hs, hfresh, hmain⟩ := ih (Nat.le_of_succ_le hk)
      have hlt : s.data.consumers < C := by
        rw [hfresh.consumers]
        exact hk
      have he : (mainThread P C maxGenerate .createConsumers).effect s.data someChoice
          = some (.keep, { s.data with consumers := s.data.consumers + 1 }, .createConsumers) := by
        simp [mainThread, Instr.effect, hlt, someChoice]
      exact hfresh.go hs hmain he hfresh.producers (congrArg (· + 1) hfresh.consumers) rfl

/-- All threads can be created before one of them begins. -/
theorem exists_polling (P C capacity maxGenerate : Nat) :
    ∃ s : ProgState P C, ProgReachable P C capacity maxGenerate s ∧ Polling s ∧ Fresh P C s := by
  obtain ⟨s, hs, hfresh, hmain⟩ :=
    exists_consumers P C capacity maxGenerate C (Nat.le_refl C)
  have he : (mainThread P C maxGenerate .createConsumers).effect s.data someChoice
      = some (.keep, s.data, .pollWait) := by
    simp [mainThread, Instr.effect, hfresh.consumers]
  obtain ⟨s', hs', hfresh', hmain'⟩ :=
    hfresh.go hs hmain he hfresh.producers hfresh.consumers rfl
  exact ⟨s', hs', ⟨hfresh'.producers, hfresh'.consumers, hfresh'.buffer, hmain'⟩, hfresh'⟩

/-- **The threads come to rest**: steps of a kind of the producers and consumers alone lead to a
state that has no step of this kind. -/
theorem exists_rest (step' : ProgState P C → ProgState P C → Prop) (Q : ProgState P C → Prop)
    (hthread : ∀ s s', step' s s' → ThreadStep maxGenerate s s')
    (hQ : ∀ s s', Q s → step' s s' → Q s')
    (h : ProgReachable P C capacity maxGenerate s) (hpoll : Polling s) (hs : Q s) :
    ∃ s', ProgReachable P C capacity maxGenerate s' ∧ Polling s' ∧ Q s' ∧
      ∀ s'', ¬ step' s' s'' := by
  -- `main` does not move, so the buffer stays and the invariant holds on both sides
  have hkeep : ∀ s s', ProgReachable P C capacity maxGenerate s → (Polling s ∧ Q s) →
      step' s s' → (Polling s' ∧ Q s') ∧ rank maxGenerate s' < rank maxGenerate s := by
    intro s s' hreach hs hstep
    have hmove := hthread s s' hstep
    have hpoll' := hs.1.threadStep hmove
    have hinv := inv_reachable hreach hs.1.buffer
    have hinv' := inv_reachable (hreach.next hmove.steps) hpoll'.buffer
    exact ⟨⟨hpoll', hQ s s' hs.2 hstep⟩, hmove.rank_lt hinv hinv'⟩
  obtain ⟨s', hs', hrest⟩ := Reachable.exhaust (fun s => Polling s ∧ Q s) (rank maxGenerate)
    (fun s s' hstep => (hthread s s' hstep).steps) hkeep h ⟨hpoll, hs⟩
  exact ⟨s', hs', hrest.1.1, hrest.1.2, hrest.2⟩

/-! ## How many have left -/

theorem leftProducers_le (s : ProgState P C) : leftProducers s ≤ P := by
  calc leftProducers s ≤ (Finset.univ : Finset (Fin P)).card := Finset.card_filter_le _ _
    _ = P := Finset.card_fin P

theorem leftConsumers_le (s : ProgState P C) : leftConsumers s ≤ C := by
  calc leftConsumers s ≤ (Finset.univ : Finset (Fin C)).card := Finset.card_filter_le _ _
    _ = C := Finset.card_fin C

theorem leftProducers_eq : leftProducers s = P ↔ ∀ i, s.pc (.producer i) = .exited := by
  unfold leftProducers
  constructor
  · intro h i
    have hall := Finset.card_filter_eq_iff.1 (h.trans (Finset.card_fin P).symm)
    exact hall i (Finset.mem_univ i)
  · intro h
    rw [Finset.filter_true_of_mem fun i _ => h i, Finset.card_fin]

theorem leftConsumers_eq : leftConsumers s = C ↔ ∀ j, s.pc (.consumer j) = .exited := by
  unfold leftConsumers
  constructor
  · intro h j
    have hall := Finset.card_filter_eq_iff.1 (h.trans (Finset.card_fin C).symm)
    exact hall j (Finset.mem_univ j)
  · intro h
    rw [Finset.filter_true_of_mem fun j _ => h j, Finset.card_fin]

/-- A producer that is left behind finds no free place. -/
theorem Quiet.producer_behind (hq : Quiet s) (hlt : leftProducers s < P) : s.sem .empty = 0 := by
  by_contra hne
  have hall : leftProducers s = P := leftProducers_eq.2 fun i => by
    rcases hq.producers i with ⟨-, h0⟩ | hp
    · exact absurd h0 hne
    · exact hp
  omega

theorem Quiet.consumer_behind (hq : Quiet s) (hlt : leftConsumers s < C) : s.sem .full = 0 := by
  by_contra hne
  have hall : leftConsumers s = C := leftConsumers_eq.2 fun j => by
    rcases hq.consumers j with ⟨-, h0⟩ | hp
    · exact absurd h0 hne
    · exact hp
  omega

/-- All threads have left their loops. -/
def AllExited (s : ProgState P C) : Prop :=
  ∀ t, t ≠ .main → exited t (s.pc t) = true

theorem allExited_iff : AllExited s ↔ leftProducers s = P ∧ leftConsumers s = C := by
  rw [leftProducers_eq, leftConsumers_eq]
  constructor
  · intro h
    exact ⟨fun i => of_decide_eq_true (h (.producer i) (by nofun)),
      fun j => of_decide_eq_true (h (.consumer j) (by nofun))⟩
  · rintro ⟨hp, hc⟩ t ht
    cases t with
    | main => exact absurd rfl ht
    | producer i => exact decide_eq_true (hp i)
    | consumer j => exact decide_eq_true (hc j)

/-- Threads that are blocked or gone have no step. -/
theorem Quiet.stuck (hq : Quiet s) : Stuck maxGenerate s := by
  rintro t ht ⟨choice, s', hstep⟩
  obtain ⟨-, op, b', p', he, hop, -⟩ := stepProg_cases hstep
  cases t with
  | main => exact ht rfl
  | producer i =>
      rcases hq.producers i with ⟨hp, h0⟩ | hp <;> rw [hp] at he <;> cases he
      exact absurd h0 (Nat.ne_of_gt hop)
  | consumer j =>
      rcases hq.consumers j with ⟨hp, h0⟩ | hp <;> rw [hp] at he <;> cases he
      exact absurd h0 (Nat.ne_of_gt hop)

/-- **Who has left when nobody has a step.** All numbers are consumed then, so `full` is what
the producers that left have posted and the consumers that left have taken, and `empty` is the
rest of the capacity. -/
theorem Inv.all_exited_iff (h : Inv capacity maxGenerate s) (hrun : Running s)
    (hstuck : Stuck maxGenerate s) (hP : 1 ≤ P) (hC : 1 ≤ C) (hcap : 1 ≤ capacity) :
    AllExited s ↔ C ≤ P ∧ P ≤ C + capacity := by
  have hq := h.quiet hrun hstuck
  have hnone : s.data.items.length = 0 := by
    have hcon := h.all_consumed hrun hstuck hP hC hcap
    have heq := hq.con_eq h
    have hle := h.buffer.gen_le
    omega
  have hfull := hq.full h
  have htokens := hq.tokens h
  have hp := leftProducers_le s
  have hc := leftConsumers_le s
  rw [allExited_iff]
  constructor
  · rintro ⟨hallp, hallc⟩
    omega
  · intro hbalance
    -- a consumer left behind means as many producers left, hence a producer left behind
    have hallc : leftConsumers s = C := by
      by_contra hne
      have hfull0 := hq.consumer_behind (Nat.lt_of_le_of_ne hc hne)
      have hempty0 := hq.producer_behind (by omega)
      omega
    have hallp : leftProducers s = P := by
      by_contra hne
      have hempty0 := hq.producer_behind (Nat.lt_of_le_of_ne hp hne)
      omega
    exact ⟨hallp, hallc⟩

/-- Whenever no producer or consumer has a step, all of them have left: in every state reached
with all threads created, the buffer there and `main` outside the mutex. -/
def EverybodyLeaves (P C capacity maxGenerate : Nat) : Prop :=
  ∀ s : ProgState P C, ProgReachable P C capacity maxGenerate s → Running s →
    Stuck maxGenerate s → AllExited s

/-- **Everybody leaves exactly with balanced numbers of threads**: there are no more consumers
than producers, and the producers in excess fit in the buffer. -/
theorem all_exit_iff (hP : 1 ≤ P) (hC : 1 ≤ C) (hcap : 1 ≤ capacity) :
    EverybodyLeaves P C capacity maxGenerate ↔ C ≤ P ∧ P ≤ C + capacity := by
  constructor
  · intro hall
    -- let the threads run from the state with all of them created until nobody has a step
    obtain ⟨s₀, hs₀, hpoll₀, -⟩ := exists_polling P C capacity maxGenerate
    obtain ⟨s, hs, hpoll, -, hrest⟩ := exists_rest (ThreadStep maxGenerate) (fun _ => True)
      (fun _ _ hstep => hstep) (fun _ _ _ _ => trivial) hs₀ hpoll₀ trivial
    have hstuck : Stuck maxGenerate s := by
      rintro t ht ⟨choice, s', hstep⟩
      exact hrest s' ⟨t, choice, ht, hstep⟩
    have hinv := inv_reachable hs hpoll.buffer
    exact (hinv.all_exited_iff hpoll.running hstuck hP hC hcap).1
      (hall s hs hpoll.running hstuck)
  · intro hbalance s hs hrun hstuck
    exact ((inv_reachable hs hrun.buffer).all_exited_iff hrun hstuck hP hC hcap).2 hbalance

end Exit

/-- Two producers, one consumer and one place: everybody leaves. -/
theorem all_exit_two_one : EverybodyLeaves 2 1 1 5 :=
  (all_exit_iff (by decide) (by decide) (by decide)).2 (by decide)

set_option maxRecDepth 20000 in
/-- One producer and two consumers: the number is generated and consumed, the producer and one
consumer have left, and the other consumer waits for `full` for ever. -/
theorem consumer_left_behind : ¬ EverybodyLeaves 1 2 1 1 := by
  intro hall
  obtain ⟨s, hs, hp⟩ : ∃ s, ProgReachable 1 2 1 1 s ∧
      decide (s.data.producers = 1 ∧ s.data.consumers = 2 ∧ s.data.destroyed = false ∧
        (∀ t, holds t (s.pc t) = false) ∧ s.pc (.producer 0) = .exited ∧
        s.pc (.consumer 0) = .exited ∧ s.pc (.consumer 1) = .waitFull ∧ s.sem .full = 0) = true :=
    progReachable_of_run
      (times .main 5 0 ++ times (.producer 0) 12 7 ++ times (.consumer 0) 11 0
        ++ times (.producer 0) 5 0 ++ times (.consumer 0) 5 0 ++ times (.consumer 1) 1 0)
      _ (by decide)
  obtain ⟨hpro, hcon, hbuffer, hfree, hpro0, hcon0, hcon1, hfull⟩ := of_decide_eq_true hp
  have hq : Quiet s := by
    refine ⟨hfree, fun i => ?_, fun j => ?_⟩
    · rw [Subsingleton.elim i 0]
      exact Or.inr hpro0
    · match j with
      | 0 => exact Or.inr hcon0
      | 1 => exact Or.inl ⟨hcon1, hfull⟩
  have hexit := hall s hs ⟨hpro, hcon, hbuffer, hfree .main⟩ hq.stuck (.consumer 1) (by nofun)
  have hnot : s.pc (.consumer 1) = .exited := of_decide_eq_true hexit
  rw [hcon1] at hnot
  cases hnot

end CPlayground.ProdCons
