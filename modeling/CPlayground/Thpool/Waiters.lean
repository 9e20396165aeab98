import CPlayground.Thpool.Barrier

set_option autoImplicit false

/-! # Forgotten waiters

A caller of `thpool_wait` sleeps until the worker that brings `num_threads_working` to zero
signals `threads_all_idle`. While a client sleeps there is work left, or a worker that has
yet to look at the counter (`Heeded`). One signal is all that is sent, so that this is kept
only while at most one client sleeps when it is sent (`OneWaiter`); with two, one of them can
be forgotten (`second_waiter_forgotten`).
-/

namespace CPlayground.Thpool

open Threads

variable {n m : Nat} {s s' : PoolState n m} {a : Action (Tid n m) Choice}

/-! ## Work that is left -/

/-- A job that leaves the queue is in the hands of the thread that took it. -/
theorem JobMove.len {clears : Bool} {pool pool' : Pool} {hand hand' : Hand}
    (h : JobMove clears pool hand pool' hand') (hrep : Represents pool.queue pool.queue.nodes)
    (hpos : 0 < pool.queue.len) : 0 < pool'.queue.len ∨ hand'.held ≠ none := by
  cases h with
  | take _ hpull _ _ =>
      refine .inr ?_
      cases hnodes : pool.queue.nodes with
      | nil =>
          rw [hnodes] at hrep
          -- an empty queue has no length to lose
          have hzero := hrep.len
          rw [hzero] at hpos
          exact absurd hpos (Nat.lt_irrefl 0)
      | cons p ps =>
          rw [hnodes] at hrep
          obtain ⟨q', hpull', -, -⟩ := pull_represents hrep
          rw [hpull] at hpull'
          cases hpull'
          exact Option.some_ne_none p
  | link _ hpush _ hq _ =>
      rw [hq, push_len hpush]
      exact .inl (Nat.succ_pos _)
  | reset hlen _ _ =>
      rw [hlen] at hpos
      exact absurd hpos (Nat.lt_irrefl 0)
  | quiet hq _ | alloc _ _ _ _ hq _ | returns _ hq _ | call _ _ hq _ | finish _ _ hq _
  | discard _ _ _ hq _ =>
      rw [hq]
      exact .inl hpos

/-- In a pool that is not being destroyed, that thread is a worker, and counted. -/
theorem PoolInv.len_step (hinv : PoolInv s) (hserving : (ownerAt s').destroying = false)
    (hs : Threads.step (code n m) s a = some s') (hpos : 0 < s.data.pool.queue.len) :
    0 < s'.data.pool.queue.len ∨ ∃ i, (workerAt s' i).working = true := by
  rcases step_move hinv.phases hs with ⟨hd, -⟩ | ⟨t, clears, hand', hmove, hhands⟩
  · rw [hd]
    exact .inl hpos
  · refine (hmove.len hinv.ledger.queue hpos).imp id fun hheld => ?_
    -- clients hold no job, and neither does the owner before it destroys the pool
    have ht : handsOf s' t = hand' := by rw [hhands, Function.update_self]
    rw [← ht] at hheld
    cases t with
    | worker i => exact ⟨i, working_of_held hheld⟩
    | client c =>
        exfalso
        apply hheld
        unfold handsOf hand
        cases (s'.pc (.client c) : ClientPc) <;> rfl
    | owner =>
        exfalso
        apply hheld
        have hempty : handsOf s' .owner = .empty := OwnerPc.hand_empty hserving
        rw [hempty]
        rfl

theorem Phases.exists_working (h : Phases s) (hw : s.data.pool.working ≠ 0) :
    ∃ i, (workerAt s i).working = true := by
  by_contra hnone
  apply hw
  rw [h.working, count_eq_zero]
  intro i
  simpa using fun hi => hnone ⟨i, hi⟩

theorem Phases.working_ne_zero (h : Phases s) {i : Fin n} (hi : (workerAt s i).working = true) :
    s.data.pool.working ≠ 0 := by
  have hle := le_count (p := fun i => (workerAt s i).working) i
  rw [h.working]
  intro hzero
  rw [hzero, hi] at hle
  exact absurd hle (by decide)

/-- A job is queued, or a worker has one, or a worker has yet to look at the counter. -/
def Active (s : PoolState n m) : Prop :=
  0 < s.data.pool.queue.len ∨ ∃ i, (workerAt s i).busy = true

theorem WorkerPc.busy_of_working {pc : WorkerPc} (h : pc.working = true) : pc.busy = true := by
  cases pc <;> simp_all

theorem Active.of_working (h : ∃ i, (workerAt s i).working = true) : Active s := by
  obtain ⟨i, hi⟩ := h
  exact .inr ⟨i, WorkerPc.busy_of_working hi⟩

/-! ## The invariant -/

/-- A call that is about to sleep has work to wait for, and a client that sleeps too. -/
structure Heeded (s : PoolState n m) : Prop where
  awake : ∀ t before, callAt t (s.pc t) = some (before, .cond) → s.sleep t = .awake →
    0 < s.data.pool.queue.len ∨ s.data.pool.working ≠ 0
  asleep : ∀ c, s.sleep (.client c) = .blocked .allIdle → Active s

/-- When a worker signals `threads_all_idle` and the queue is empty, one client sleeps at most. -/
def OneWaiter (s : PoolState n m) : Action (Tid n m) Choice → Prop
  | .run (.worker i) _ _ => workerAt s i = .doneSignal → s.data.pool.queue.len = 0 →
      ∀ c c', s.sleep (.client c) = .blocked .allIdle → s.sleep (.client c') = .blocked .allIdle →
        c = c'
  | _ => True

instance (s : PoolState n m) : (a : Action (Tid n m) Choice) → Decidable (OneWaiter s a)
  | .run (.worker i) _ _ => inferInstanceAs (Decidable (workerAt s i = .doneSignal →
      s.data.pool.queue.len = 0 → ∀ c c', s.sleep (.client c) = .blocked .allIdle →
        s.sleep (.client c') = .blocked .allIdle → c = c'))
  | .run (.client _) _ _ | .run .owner _ _ | .spurious _ => .isTrue trivial

theorem heeded_init : Heeded (initState n m) where
  awake t before h := by cases t <;> cases h
  asleep c h := by cases h

/-- A call about to sleep holds `thcount_lock`: no counted worker stops being counted. -/
theorem Heeded.awake_step (h : Heeded s) (hinv : PoolInv s) (hinv' : PoolInv s')
    (hserving : (ownerAt s').destroying = false) (hs : step (code n m) s a = some s')
    (t : Tid n m) (before : List Nat) (hcall : callAt t (s'.pc t) = some (before, .cond))
    (hawake : s'.sleep t = .awake) :
    0 < s'.data.pool.queue.len ∨ s'.data.pool.working ≠ 0 := by
  rcases step_cases hs with ⟨u, c, -, -, rfl⟩ | ⟨u, choice, wakes, -, hrun⟩
  · have hne : t ≠ u := by
      rintro rfl
      simp at hawake
    exact h.awake t before hcall (by simpa [Function.update_of_ne hne] using hawake)
  · by_cases hut : t = u
    · subst hut
      rcases hrun.effect with ⟨-, -, hasleep⟩ | ⟨next, he, hp⟩
      · exact absurd hawake hasleep
      · -- it has just read one of the two fields
        rw [hp, Function.update_self] at hcall
        obtain ⟨hd, ⟨-, hlock⟩ | ⟨k, -, hstep⟩⟩ := call_effect he hcall
        · cases hlock
        · rw [hd]
          cases hstep with
          | jobs hlen => exact .inl (Nat.pos_of_ne_zero hlen)
          | busy hworking => exact .inr hworking
    -- it has read a field before and holds the lock since
    · have hbefore := hrun.awake_of_ne hut hawake
      rcases hrun.effect with ⟨hd, hp, -⟩ | ⟨next, he, hp⟩
      · rw [hp] at hcall
        rw [hd]
        exact h.awake t before hcall hbefore
      · rw [hp, Function.update_of_ne hut] at hcall
        have hholding : s.Holding (code n m) holds t .thcountLock :=
          holding_of_callAt hcall rfl (.inr hbefore)
        rcases h.awake t before hcall hbefore with hlen | hworking
        · rcases hinv.len_step hserving hs hlen with hlen' | ⟨i, hi⟩
          · exact .inl hlen'
          · exact .inr (hinv'.phases.working_ne_zero hi)
        · rw [hinv.working_of_holder hut hholding he]
          exact .inr hworking

/-- A thread asleep on `threads_all_idle` is a client, or a worker that is counted. -/
theorem PoolInv.asleep_allIdle (h : PoolInv s) {u : Tid n m}
    (hu : s.sleep u = .blocked .allIdle) :
    (∃ c, u = .client c) ∨ ∃ i, u = .worker i ∧ (workerAt s i).working = true := by
  obtain ⟨c, mutex, next, hw, hsleep⟩ := h.locked.asleep u (by simp [hu])
  have hwait := waitsFor_of_wait hw
  rw [hu] at hsleep
  rcases hsleep with hc | hc
  · cases hc
    cases u with
    | worker i =>
        refine .inr ⟨i, rfl, ?_⟩
        revert hwait
        unfold workerAt
        cases (s.pc (.worker i) : WorkerPc) <;> simp [waitsFor]
    | client c => exact .inl ⟨c, rfl⟩
    | owner => cases hwait
  · cases hc

theorem call_of_waitsFor {c : Fin m}
    (h : waitsFor (.client c : Tid n m) (s.pc (.client c)) = some .allIdle) :
    ∃ before, callAt (.client c : Tid n m) (s.pc (.client c)) = some (before, .cond) := by
  revert h
  cases hpc : (s.pc (.client c) : ClientPc) with
  | wait before k => cases k <;> simp [waitsFor, callAt]
  | _ => simp [waitsFor]

/-- **The signal reaches the one client that sleeps.** -/
theorem PoolInv.signal_step (hinv : PoolInv s) {i : Fin n} {choice : Choice}
    {wakes : Tid n m → Bool} (hone : OneWaiter s (.run (.worker i) choice wakes))
    (hrun : Runs (code n m) s (.worker i) choice wakes s') (hpc : workerAt s i = .doneSignal)
    {c : Fin m} (hbefore : s.sleep (.client c) = .blocked .allIdle)
    (hc : s'.sleep (.client c) = .blocked .allIdle) : Active s' := by
  have hi : code n m (.worker i) (s.pc (.worker i)) = .signal .allIdle .doneUnlock := by
    rw [show s.pc (.worker i) = WorkerPc.doneSignal from hpc]
    rfl
  -- a signal changes neither the data nor the other workers
  have heffect : s'.data = s.data ∧ ∀ j, j ≠ i → workerAt s' j = workerAt s j := by
    rcases hrun.effect with ⟨hd, hp, -⟩ | ⟨next, he, hp⟩
    · exact ⟨hd, fun j _ => by rw [workerAt, hp]⟩
    · rw [hi] at he
      refine ⟨(Prod.mk.inj (Option.some.inj he)).1.symm, fun j hj => ?_⟩
      exact workerAt_other hp (worker_ne hj)
  rcases hrun.signalled (.inl hi) with hnone | ⟨u, hblocked, hwoken⟩
  · exact absurd hc (hnone _)
  · rcases hinv.asleep_allIdle hblocked with ⟨c', rfl⟩ | ⟨j, rfl, hj⟩
    -- a client is woken, or a worker that waits in a job of its own and is counted
    · by_cases hlen : s.data.pool.queue.len = 0
      · -- the client that was woken is the only one
        have hsame := hone hpc hlen c c' hbefore hblocked
        rw [hsame, hwoken] at hc
        cases hc
      · refine .inl ?_
        rw [heffect.1]
        exact Nat.pos_of_ne_zero hlen
    · have hne : j ≠ i := by
        rintro rfl
        rw [hpc] at hj
        cases hj
      refine Active.of_working ⟨j, ?_⟩
      rw [heffect.2 j hne]
      exact hj

/-- A worker that is busy stays so, or leaves work behind, or signals. -/
theorem Active.step (h : Active s) (hinv : PoolInv s) (hserving : (ownerAt s').destroying = false)
    (hs : Threads.step (code n m) s a = some s') :
    Active s' ∨ ∃ i choice wakes, a = .run (.worker i) choice wakes ∧
      Runs (code n m) s (.worker i) choice wakes s' ∧ workerAt s i = .doneSignal := by
  rcases h with hlen | ⟨i, hbusy⟩
  · exact .inl ((hinv.len_step hserving hs hlen).elim .inl Active.of_working)
  · rcases step_cases hs with ⟨u, c, -, -, rfl⟩ | ⟨t, choice, wakes, rfl, hrun⟩
    · exact .inl (.inr ⟨i, hbusy⟩)
    · rcases hrun.effect with ⟨-, hp, -⟩ | ⟨next, he, hp⟩
      · exact .inl (.inr ⟨i, by rw [workerAt, hp]; exact hbusy⟩)
      · by_cases ht : t = .worker i
        · subst ht
          have hself : workerAt s' i = next := workerAt_self hp
          rcases (worker_step he).busy hbusy with hnext | ⟨htest, hworking⟩ | hsignal
          · exact .inl (.inr ⟨i, by rw [hself]; exact hnext⟩)
          · -- another worker is still counted
            obtain ⟨j, hj⟩ := hinv.phases.exists_working hworking
            have hne : j ≠ i := by
              rintro rfl
              rw [workerAt, htest] at hj
              cases hj
            refine .inl (Active.of_working ⟨j, ?_⟩)
            rw [workerAt_other hp (worker_ne hne)]
            exact hj
          · exact .inr ⟨i, choice, wakes, rfl, hrun, hsignal⟩
        · refine .inl (.inr ⟨i, ?_⟩)
          rw [workerAt_other hp (Ne.symm ht)]
          exact hbusy

theorem Heeded.asleep_step (h : Heeded s) (hinv : PoolInv s)
    (hserving : (ownerAt s').destroying = false) (hone : OneWaiter s a)
    (hs : Threads.step (code n m) s a = some s') (c : Fin m)
    (hc : s'.sleep (.client c) = .blocked .allIdle) : Active s' := by
  by_cases hbefore : s.sleep (.client c) = .blocked .allIdle
  · rcases (h.asleep c hbefore).step hinv hserving hs with hact | ⟨i, choice, wakes, rfl, hrun, hpc⟩
    · exact hact
    · exact hinv.signal_step hone hrun hpc hbefore hc
  · -- the client goes to sleep, with work to wait for
    rcases step_cases hs with ⟨u, c', -, hb, rfl⟩ | ⟨t, choice, wakes, rfl, hrun⟩
    · exfalso
      by_cases hu : Tid.client c = u
      · simp [hu] at hc
      · exact hbefore (by simpa [Function.update_of_ne hu] using hc)
    · rcases hrun.not_blocked hbefore with hstill | ⟨rfl, hawake, mutex, next, hw⟩
      · exact absurd hc hstill
      · obtain ⟨before, hcall⟩ := call_of_waitsFor (waitsFor_of_wait hw)
        have hsame : s'.data = s.data ∧ workerAt s' = workerAt s := by
          rcases hrun.effect with ⟨hd, hp, -⟩ | ⟨next', he, hp⟩
          · exact ⟨hd, by funext i; rw [workerAt, hp]⟩
          · rw [hw] at he
            exact ⟨(Prod.mk.inj (Option.some.inj he)).1.symm, by funext i; simp [workerAt, hp]⟩
        unfold Active
        rw [hsame.1, hsame.2]
        rcases h.awake _ before hcall hawake with hlen | hworking
        · exact .inl hlen
        · exact Active.of_working (hinv.phases.exists_working hworking)

/-- **Every step that meets the condition keeps the invariant.** -/
theorem Heeded.step (h : Heeded s) (hinv : PoolInv s) (hinv' : PoolInv s')
    (hserving : (ownerAt s').destroying = false) (hone : OneWaiter s a)
    (hs : Threads.step (code n m) s a = some s') : Heeded s' where
  awake := h.awake_step hinv hinv' hserving hs
  asleep := h.asleep_step hinv hserving hone hs

/-! ## The result -/

/-- Nothing is left to do, and nobody is about to add work. -/
def Quiescent (s : PoolState n m) : Prop :=
  s.data.pool.queue.len = 0 ∧ s.data.pool.working = 0 ∧ s.data.pool.v = 0 ∧
    (∀ i, s.sleep (.worker i) = .blocked .hasJob) ∧ ∀ c, (clientAt s c).adding = false

instance (s : PoolState n m) : Decidable (Quiescent s) := inferInstanceAs (Decidable (_ ∧ _))

/-- The states that are reached when every step meets the condition. -/
def OneWaiterReachable (s : PoolState n m) : Prop :=
  Reachable (· = initState n m)
    (StepsIf (fun s a => CallsOk s a ∧ OneWaiter s a) (Threads.step (code n m))) s

theorem OneWaiterReachable.poolReachable (h : OneWaiterReachable s) : PoolReachable s :=
  Reachable.mono (fun _ _ ⟨a, hc, hs⟩ => ⟨a, hc.1, hs⟩) h

theorem heeded_reachable (h : OneWaiterReachable s) :
    (ownerAt s).destroying = false → Heeded s := by
  refine Reachable.invariant (fun s => (ownerAt s).destroying = false → Heeded s) ?_ ?_ h
  · rintro s rfl -
    exact heeded_init
  · rintro s s' hr hbefore ⟨a, hc, hs⟩ hserving
    have hinv := poolInv_reachable (OneWaiterReachable.poolReachable hr)
    exact (hbefore (serving_before hs hserving)).step hinv (hinv.step hc.1 hs) hserving hc.2 hs

/-- A quiescent pool has no work left. -/
theorem PoolInv.not_active (h : PoolInv s) (hq : Quiescent s) : ¬ Active s := by
  obtain ⟨hlen, -, -, hasleep, -⟩ := hq
  rintro (hpos | ⟨i, hbusy⟩)
  · rw [hlen] at hpos
    exact Nat.lt_irrefl 0 hpos
  · obtain ⟨c, mutex, next, hw, hsleep⟩ := h.locked.asleep (.worker i) (by simp [hasleep i])
    rw [hasleep i] at hsleep
    rcases hsleep with hc | hc
    · cases hc
      have hpc : workerAt s i = .semCond := semCond_of_waitsFor (waitsFor_of_wait hw)
      rw [hpc] at hbusy
      cases hbusy
    · cases hc

/-- **No forgotten waiter, while one client waits.** In a run in which at most one client sleeps
whenever a worker signals `threads_all_idle` at an empty queue, no client of a quiescent pool
that is not being destroyed is left asleep. -/
theorem no_forgotten_waiter (h : OneWaiterReachable s) (hserving : (ownerAt s).destroying = false)
    (hq : Quiescent s) (c : Fin m) : s.sleep (.client c) ≠ .blocked .allIdle := by
  intro hc
  have hactive := (heeded_reachable h hserving).asleep c hc
  exact (poolInv_reachable h.poolReachable).not_active hq hactive

/-- A client adds a job and waits for it. -/
def addAndWait : List (Action (Tid 1 1) Choice) :=
  startUp 1 1 ++ times (.client 0) 1 (.addWork (some 7) 1 2) ++ times (.client 0) 8 .go ++
    times (.client 0) 1 .wait ++ times (.client 0) 3 .go ++ times (.worker 0) 24 .go

set_option maxRecDepth 20000 in
theorem no_forgotten_waiter_run : ∃ s : PoolState 1 1,
    clientAt s 0 = .wait [0] .cond ∧ s.sleep (.client 0) ≠ .blocked .allIdle := by
  obtain ⟨s, hs, hp⟩ : ∃ s, OneWaiterReachable s ∧ _ := reachable_guarded addAndWait
    (fun s => decide (clientAt s 0 = .wait [0] .cond) &&
      (!(ownerAt s).destroying && decide (Quiescent s))) (by decide)
  rw [Bool.and_eq_true, Bool.and_eq_true, decide_eq_true_iff, Bool.not_eq_true',
    decide_eq_true_iff] at hp
  exact ⟨s, hp.1, no_forgotten_waiter hs hp.2.1 hp.2.2 0⟩

/-- Two clients wait for one job, and the signal wakes the first. -/
def addAndWaitTwice : List (Action (Tid 1 2) Choice) :=
  startUp 1 2 ++ times (.client 0) 1 (.addWork (some 7) 1 2) ++ times (.client 0) 8 .go ++
    times (.client 0) 1 .wait ++ times (.client 0) 3 .go ++
    times (.client 1) 1 .wait ++ times (.client 1) 3 .go ++ times (.worker 0) 18 .go ++
    [.run (.worker 0) .go fun t => t = .client 0] ++ times (.worker 0) 5 .go ++
    times (.client 0) 5 .go

set_option maxRecDepth 20000 in
/-- **Of two clients that wait, one can be forgotten.** -/
theorem second_waiter_forgotten : ∃ s : PoolState 1 2, PoolReachable s ∧
    (ownerAt s).destroying = false ∧ Quiescent s ∧ s.sleep (.client 1) = .blocked .allIdle := by
  obtain ⟨s, hs, hp⟩ := poolReachable_of_run addAndWaitTwice
    (fun s => !(ownerAt s).destroying &&
      (decide (Quiescent s) && decide (s.sleep (.client 1) = .blocked .allIdle))) (by decide)
  rw [Bool.and_eq_true, Bool.and_eq_true, Bool.not_eq_true', decide_eq_true_iff,
    decide_eq_true_iff] at hp
  exact ⟨s, hs, hp⟩

end CPlayground.Thpool
