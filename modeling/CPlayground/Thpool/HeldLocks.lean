import CPlayground.Thpool.Deadlock

set_option autoImplicit false

/-! # Adding work to a paused pool

A worker that is held keeps the mutexes it owns, and `thread_hold` can start anywhere: also
inside `bsem_wait`, where the worker owns the mutex of the semaphore. The client that has paused
the pool then blocks in `thpool_add_work`, and never comes to call `thpool_resume`. This can
happen to every worker of every pool (`paused_pool_deadlocks`): a pool that has just been started
is led to `bsem_wait`, paused there, and given a job.

When signals reach workers only outside the critical sections of `thread_do` and of the functions
it calls, no held worker owns a mutex, and nobody waits for one (`accepts_work_outside`).
-/

namespace CPlayground.Thpool

open Threads

/-- No worker is suspended inside `thread_hold` while it owns a mutex. -/
def HeldOwnNothing {n : Nat} (s : HoldState n) : Prop :=
  ∀ i, s.handler i ≠ none → ∀ mutex, s.pool.owner mutex ≠ some (.worker i)

/-! ## Signals outside the critical sections -/

/-- The points between a `pthread_mutex_lock` of the worker and the `pthread_mutex_unlock`. -/
def WorkerPc.critical : WorkerPc → Bool
  | .startInc | .startUnlock | .semTest | .semCond | .semTake | .semUnlock | .workInc | .workUnlock
  | .doneDec | .doneTest | .doneSignal | .doneUnlock | .exitDec | .exitUnlock => true
  | .pull .lock | .push _ (.lock _) | .wait _ _ .lock | .wait _ _ .returned => false
  | .pull _ | .push _ _ | .wait _ _ _ => true
  | _ => false

section Outside

variable {n : Nat} {s s' : HoldState n} {a : HoldAction n}

/-- A signal is delivered to a worker that is outside the critical sections, or is asleep in
`pthread_cond_wait`. -/
def DeliversOutside (s : HoldState n) : HoldAction n → Prop
  | .deliver i => (workerAt s.pool i).critical = false ∨ s.pool.sleep (.worker i) ≠ .awake
  | _ => True

/-- The owner of a mutex is inside a critical section, and not asleep. -/
theorem critical_of_owner {p : PoolState n 1} (h : PoolInv p) {i : Fin n} {mutex : Mutex}
    (hown : p.owner mutex = some (.worker i)) :
    (workerAt p i).critical = true ∧ p.sleep (.worker i) = .awake := by
  obtain ⟨hheld, hinside⟩ := (h.locked.owner mutex _).1 hown
  constructor
  · have hpc : (workerAt p i).holds mutex = true := hheld
    revert hpc
    cases workerAt p i with
    | pull k => cases k <;> simp [WorkerPc.holds, WorkerPc.critical, PullPc.holds]
    | push job k => cases k <;> simp [WorkerPc.holds, WorkerPc.critical, PushPc.holds]
    | wait job before k => cases k <;> simp [WorkerPc.holds, WorkerPc.critical, WaitPc.holds]
    | _ => simp [WorkerPc.holds, WorkerPc.critical]
  · by_contra hasleep
    -- asleep, it would have given up the only mutex it holds
    obtain ⟨c, mutex', next, hi⟩ := h.locked.at_wait hasleep
    have hsame := wait_sole hi hheld
    subst hsame
    exact hinside.resolve_left hasleep c next hi

/-- **One step keeps the mutexes out of the handler.** -/
theorem HeldOwnNothing.step (h : HeldOwnNothing s) (hinv : PoolInv s.pool)
    (hout : DeliversOutside s a) (hs : stepHold s a = some s') : HeldOwnNothing s' := by
  -- a worker that was held stays so, or is out of the handler
  have hupdate : ∀ (i : Fin n) (pc : Option HoldPc),
      (pc ≠ none → ∀ mutex, s.pool.owner mutex ≠ some (.worker i)) →
      ∀ j, Function.update s.handler i pc j ≠ none →
        ∀ mutex, s.pool.owner mutex ≠ some (.worker j) := by
    intro i pc hi j hheld
    by_cases hj : j = i
    · subst hj
      rw [Function.update_self] at hheld
      exact hi hheld
    · rw [Function.update_of_ne hj] at hheld
      exact h j hheld
  cases stepHold_cases hs with
  | @pool a p hfree hstep =>
      intro i hheld mutex hown
      -- a mutex is only gained by a step of its own, which a held worker does not take
      rcases step_owned hstep hown with hbefore | ⟨choice, wakes, rfl⟩
      · exact h i hheld mutex hbefore
      · exact hheld hfree
  | pause _ | kill _ _ | paused _ _ | resume _ | again _ _ => exact h
  | @deliver i hp hh hin =>
      refine hupdate i _ fun _ mutex hown => ?_
      obtain ⟨hcritical, hawake⟩ := critical_of_owner hinv hown
      rcases hout with houtside | hasleep
      · rw [houtside] at hcritical
        cases hcritical
      · exact hasleep hawake
  | @set i hh => exact hupdate i _ fun _ => h i (by rw [hh]; exact fun hc => by cases hc)
  | @leave i hh hoff => exact hupdate i none fun hc => absurd rfl hc

/-- Reached by a run in which signals reach workers outside their critical sections only. -/
def OutsideReachable (s : HoldState n) : Prop :=
  Reachable (· = initHold n) (StepsIf (fun s a => HoldCallsOk s a ∧ DeliversOutside s a) stepHold) s

theorem OutsideReachable.hold (h : OutsideReachable s) : HoldReachable s :=
  h.mono fun _ _ ⟨a, hok, ha⟩ => ⟨a, hok.1, ha⟩

/-- **A paused pool accepts work** in the runs in which `SIGUSR1` reaches workers only outside
their critical sections: no held worker owns a mutex, so nobody waits for one, directly or
through others. -/
theorem accepts_work_outside (h : OutsideReachable s) : HeldOwnNothing s ∧
    ∀ t i, Relation.TransGen (State.WaitsOn (code n 1) s.pool) t (.worker i) →
      s.handler i = none := by
  have hnothing : HeldOwnNothing s := by
    refine Reachable.invariant HeldOwnNothing ?_ ?_ h
    · rintro s rfl i hheld
      exact absurd rfl hheld
    · rintro s s' hr hnothing ⟨a, hok, ha⟩
      exact hnothing.step (steered_hold (OutsideReachable.hold hr)).inv hok.2 ha
  refine ⟨hnothing, fun t i hwaits => ?_⟩
  -- whoever is waited for owns a mutex
  obtain ⟨mutex, hown⟩ := owner_of_waitsOn hwaits
  by_contra hheld
  exact hnothing i hheld mutex hown

end Outside

/-! ## A pool that has just been started -/

section JustStarted

variable {n m : Nat} {s s' : PoolState n m}

/-- `thpool_init` has returned, and nothing has been called since. -/
structure JustStarted (s : PoolState n m) : Prop where
  reachable : PoolReachable s
  ready : ownerAt s = .ready
  v : s.data.pool.v = 0
  workers : ∀ i, (workerAt s i).waking = true
  clients : ∀ c, clientAt s c = .idle

theorem exists_justStarted : ∃ s : PoolState n m, JustStarted s := by
  have hinit : StartReachable (fun _ => .ok) (initState n m) := Reachable.start rfl
  obtain ⟨s, -, hr, hspin, hcounted⟩ := counted_from hinit rfl
  have halive := alive_eq_of_counted hr hspin (fun _ _ => rfl) hcounted
  obtain ⟨s', hlast, hd, hp⟩ := spin_ends (fun _ => .ok) hspin halive
  have hstarted := started_reachable hr
  have hst : (ownerAt s).starting = true := by rw [hspin]; rfl
  refine ⟨s', StartReachable.pool (hr.next hlast), by simp [ownerAt, hp],
    hd ▸ hstarted.v hst, fun i => ?_, fun c => ?_⟩
  · simpa [workerAt, hp] using hstarted.workers hst i
  · simpa [clientAt, hp] using hstarted.clients hst c

namespace JustStarted

theorem inv (h : JustStarted s) : PoolInv s := poolInv_reachable h.reachable

/-- Every worker has counted itself. -/
theorem started (h : JustStarted s) (i : Fin n) : (workerAt s i).started = true :=
  h.inv.phases.started (by rw [h.ready]; rfl) i

theorem alive (h : JustStarted s) : s.data.pool.alive = n := by
  refine alive_eq_of_alive h.inv fun i => ?_
  have hin := h.started i
  have hwaking := h.workers i
  revert hin hwaking
  cases workerAt s i <;> simp

/-- Only workers own mutexes, inside `bsem_wait` and at the end of the start. -/
theorem owned (h : JustStarted s) {mutex : Mutex} {t : Tid n m} (hown : s.owner mutex = some t) :
    ∃ j, t = .worker j ∧ (workerAt s j).holds mutex = true ∧
      ((workerAt s j = .startUnlock ∨ workerAt s j = .semTest) ∨
        workerAt s j = .semCond ∧ s.sleep (.worker j) = .awake) := by
  obtain ⟨hheld, hinside⟩ := (h.inv.locked.owner mutex t).1 hown
  cases t with
  | worker j =>
      refine ⟨j, rfl, hheld, ?_⟩
      have hpc : (workerAt s j).holds mutex = true := hheld
      have hin := h.started j
      have hwaking := h.workers j
      cases hat : workerAt s j with
      | startUnlock => exact .inl (.inl rfl)
      | semTest => exact .inl (.inr rfl)
      | semCond =>
          refine .inr ⟨rfl, ?_⟩
          rw [hat] at hpc
          obtain rfl : mutex = .bsemMutex := eq_of_beq hpc
          exact hinside.resolve_right fun hnot => hnot .hasJob .semTest (code_worker hat)
      | _ =>
          rw [hat] at hpc hin hwaking
          simp [WorkerPc.holds] at hpc hin hwaking
  | client c =>
      have hpc : (clientAt s c).holds mutex = true := hheld
      rw [h.clients c] at hpc
      cases hpc
  | owner =>
      have hpc : (ownerAt s).holds mutex = true := hheld
      rw [h.ready] at hpc
      cases hpc

theorem rwMutex_free (h : JustStarted s) : s.owner .rwMutex = none := by
  by_contra howned
  obtain ⟨t, ht⟩ := Option.ne_none_iff_exists'.1 howned
  obtain ⟨j, -, hpc, hat⟩ := h.owned ht
  rcases hat with (hat | hat) | ⟨hat, -⟩ <;> rw [hat] at hpc <;> cases hpc

/-- A step that only puts threads to sleep, or wakes them. -/
theorem still (h : JustStarted s) (hr : PoolReachable s') (hd : s'.data = s.data)
    (hp : s'.pc = s.pc) : JustStarted s' where
  reachable := hr
  ready := by
    rw [ownerAt, hp]
    exact h.ready
  v := by rw [hd, h.v]
  workers i := by
    rw [workerAt, hp]
    exact h.workers i
  clients c := by
    rw [clientAt, hp]
    exact h.clients c

/-- A worker goes on. -/
theorem worker (h : JustStarted s) {i : Fin n} {wakes : Tid n m → Bool}
    (hs : step (code n m) s (.run (.worker i) .go wakes) = some s') :
    StepsIf CallsOk (step (code n m)) s s' ∧ JustStarted s' := by
  have hnext : StepsIf CallsOk (step (code n m)) s s' := ⟨.run (.worker i) .go wakes, trivial, hs⟩
  refine ⟨hnext, ?_⟩
  have hr : PoolReachable s' := h.reachable.next hnext
  rcases step_effect hs with ⟨hd, hp⟩ | ⟨t, choice, wakes', next, ha, he, hp⟩
  · exact h.still hr hd hp
  · cases ha
    have hflag : workerAt s i ≠ .unborn → s.data.statics.keepalive = true :=
      (poolSteered_reachable h.reachable).flag_set (by rw [h.ready]; rfl)
    obtain ⟨hwaking, hv, -⟩ := waking_step he (h.workers i) hflag h.v
    refine ⟨hr, by simpa [ownerAt, hp] using h.ready, hv, fun j => ?_, fun c => ?_⟩
    · by_cases hji : j = i
      · subst hji
        rwa [workerAt_self hp]
      · rw [workerAt_other hp (worker_ne hji)]
        exact h.workers j
    · simpa [clientAt, hp] using h.clients c

/-- A worker wakes up for no reason. -/
theorem spurious (h : JustStarted s) {i : Fin n}
    (hs : step (code n m) s (.spurious (.worker i)) = some s') :
    StepsIf CallsOk (step (code n m)) s s' ∧ JustStarted s' := by
  have hnext : StepsIf CallsOk (step (code n m)) s s' := ⟨.spurious (.worker i), trivial, hs⟩
  refine ⟨hnext, ?_⟩
  rcases step_effect hs with ⟨hd, hp⟩ | ⟨t, choice, wakes, next, ha, -⟩
  · exact h.still (h.reachable.next hnext) hd hp
  · cases ha

end JustStarted

/-! ## A worker comes to `bsem_wait` -/

/-- How far a worker is from having the mutex of the semaphore. -/
@[simp] def WorkerPc.toSem : WorkerPc → Nat
  | .startUnlock => 3
  | .loop => 2
  | .semLock | .semCond => 1
  | _ => 0

/-- How far the mutex of the semaphore is from being free for worker `i`. -/
def mutexLeft (s : PoolState n m) (i : Fin n) : Nat :=
  match s.owner .bsemMutex with
  | some (.worker j) => if j = i then 0 else if workerAt s j = .semTest then 2 else 1
  | _ => 0

/-- How far a thread is from being awake. -/
@[simp] def toAwake : Sleep Cond → Nat
  | .awake => 0
  | .woken => 1
  | .blocked _ => 2

def semLeft (s : PoolState n m) (i : Fin n) : Nat :=
  (workerAt s i).toSem + toAwake (s.sleep (.worker i)) + mutexLeft s i

/-- A step of worker `j` that touches no shared data. -/
theorem worker_goes {j : Fin n} {pc : WorkerPc} (next : WorkerPc)
    {f : Mem → Choice → Option (Mem × WorkerPc)} (hpc : workerAt s j = pc)
    (hi : workerCode j pc = .act f) (hf : f s.data .go = some (s.data, next)) :
    step (code n m) s (.run (.worker j) .go fun _ => true)
      = some { s with pc := Function.update s.pc (.worker j) next } :=
  (step_act ((code_worker hpc).trans hi)).trans (by rw [hf]; rfl)

/-- Another worker that has the mutex of the semaphore finds no token, and goes to sleep. -/
theorem JustStarted.mutex_freed (h : JustStarted s) {i : Fin n} {t : Tid n m}
    (hown : s.owner .bsemMutex = some t) (hne : t ≠ .worker i) :
    ∃ s', (StepsIf CallsOk (step (code n m)) s s' ∧ JustStarted s') ∧
      semLeft s' i < semLeft s i := by
  obtain ⟨j, rfl, hheld, hat⟩ := h.owned hown
  have hji : j ≠ i := by
    rintro rfl
    exact hne rfl
  have hother : ∀ next, Function.update s.pc (.worker j) next (.worker i) = s.pc (.worker i) :=
    fun next => Function.update_of_ne (Ne.symm hne) ..
  rcases hat with (hat | hat) | ⟨hat, hawake⟩
  · rw [hat] at hheld
    cases hheld
  · have hs := worker_goes .semCond hat rfl (by simp [h.v])
    refine ⟨_, h.worker hs, ?_⟩
    simp [semLeft, mutexLeft, hown, hat, workerAt, hother, hji]
  · have hs : step (code n m) s (.run (.worker j) .go fun _ => true) = _ :=
      step_block (code_worker hat) hawake hown
    refine ⟨_, h.worker hs, ?_⟩
    simp [semLeft, mutexLeft, hown, hat, Function.update_of_ne (Ne.symm hne), hji]

/-- A worker at a point that holds a mutex, and not asleep, owns it. -/
theorem JustStarted.owns (h : JustStarted s) {i : Fin n} {mutex : Mutex}
    (hheld : (workerAt s i).holds mutex = true) (hawake : s.sleep (.worker i) = .awake) :
    s.owner mutex = some (.worker i) :=
  (h.inv.locked.owner mutex _).2 ⟨hheld, .inl hawake⟩

/-- Short of the mutex of the semaphore, some step brings worker `i` nearer to it. -/
theorem JustStarted.nearer (h : JustStarted s) {i : Fin n}
    (hnot : s.owner .bsemMutex ≠ some (.worker i)) :
    ∃ s', (StepsIf CallsOk (step (code n m)) s s' ∧ JustStarted s') ∧
      semLeft s' i < semLeft s i := by
  -- who has the mutex already, if anybody has
  by_cases hbusy : ∃ t, s.owner .bsemMutex = some t
  · obtain ⟨t, ht⟩ := hbusy
    refine h.mutex_freed ht ?_
    rintro rfl
    exact hnot ht
  have hfree : s.owner .bsemMutex = none :=
    Option.eq_none_iff_forall_ne_some.2 fun t ht => hbusy ⟨t, ht⟩
  have hsleeps : ∀ pc, workerAt s i = pc → (∀ c mutex next, workerCode i pc ≠ .wait c mutex next) →
      s.sleep (.worker i) = .awake := fun pc hpc hno =>
    h.inv.locked.awake_of fun c mutex next hi => hno c mutex next ((code_worker hpc).symm.trans hi)
  cases hat : workerAt s i with
  | startUnlock =>
      have hpc : s.pc (.worker i) = WorkerPc.startUnlock := hat
      have hown : s.owner .thcountLock = some (.worker i) :=
        h.owns (by rw [hat]; rfl) (hsleeps _ hat fun c mutex next hi => by cases hi)
      have hs : step (code n m) s (.run (.worker i) .go fun _ => true) = _ :=
        step_unlock (code_worker hat) hown
      refine ⟨_, h.worker hs, ?_⟩
      simp [semLeft, mutexLeft, workerAt, hpc, hfree]
  | loop =>
      have hpc : s.pc (.worker i) = WorkerPc.loop := hat
      have hflag : s.data.statics.keepalive = true :=
        (poolSteered_reachable h.reachable).flag_set (by rw [h.ready]; rfl) (by rw [hat]; simp)
      have hs := worker_goes .semLock hat rfl (by simp [hflag])
      refine ⟨_, h.worker hs, ?_⟩
      simp [semLeft, mutexLeft, workerAt, hpc, hfree]
  | semLock =>
      have hpc : s.pc (.worker i) = WorkerPc.semLock := hat
      have hs : step (code n m) s (.run (.worker i) .go fun _ => true) = _ :=
        step_lock (code_worker hat) hfree
      refine ⟨_, h.worker hs, ?_⟩
      simp [semLeft, mutexLeft, workerAt, hpc, hfree]
  | semTest =>
      have hawake := hsleeps _ hat fun c mutex next hi => by cases hi
      exact absurd (h.owns (by rw [hat]; rfl) hawake) hnot
  | semCond =>
      have hpc : s.pc (.worker i) = WorkerPc.semCond := hat
      cases hsleep : s.sleep (.worker i) with
      | awake => exact absurd (h.owns (by rw [hat]; rfl) hsleep) hnot
      | blocked c =>
          have hs : step (code n m) s (.spurious (.worker i)) = _ := step_spurious hsleep
          refine ⟨_, h.spurious hs, ?_⟩
          simp [semLeft, mutexLeft, workerAt, hpc, hfree, hsleep]
      | woken =>
          have hs : step (code n m) s (.run (.worker i) .go fun _ => true) = _ :=
            step_resume (code_worker hat) hsleep hfree
          refine ⟨_, h.worker hs, ?_⟩
          simp [semLeft, mutexLeft, workerAt, hpc, hfree, hsleep]
  | _ =>
      have hin := h.started i
      have hwaking := h.workers i
      rw [hat] at hin hwaking
      simp at hin hwaking

/-- **Every worker can come to own the mutex of the semaphore** before anything is called. -/
theorem exists_owning (i : Fin n) : ∃ s : PoolState n m, JustStarted s ∧
    s.owner .bsemMutex = some (.worker i) := by
  obtain ⟨s, hs⟩ : ∃ s : PoolState n m, JustStarted s := exists_justStarted
  obtain ⟨s', -, hs', hown⟩ : ∃ s', Relation.ReflTransGen (StepsIf CallsOk (step (code n m))) s s' ∧
      JustStarted s' ∧ s'.owner .bsemMutex = some (.worker i) := by
    refine leads_to JustStarted _ (semLeft · i) (fun s hs hnot => ?_) hs
    obtain ⟨s', hnext, hlt⟩ := hs.nearer hnot
    exact ⟨s', hnext.1, hnext.2, hlt⟩
  exact ⟨s', hs', hown⟩

end JustStarted

/-! ## The client adds a job -/

/-- `malloc` can always find a node. -/
theorem Ledger.exists_free {T : Type} [Fintype T] {pool : Pool} {hands : T → Hand}
    (h : Ledger pool hands) : ∃ p, pool.queue.heap p = none := by
  classical
  obtain ⟨p, hp⟩ := Infinite.exists_notMem_finset (pool.queue.nodes.toFinset ∪
    Finset.univ.biUnion fun t => ((hands t).held.toList ++ (hands t).pending.toList).toFinset)
  simp only [Finset.mem_union, List.mem_toFinset, Finset.mem_biUnion, Finset.mem_univ, true_and,
    List.mem_append, not_or, not_exists] at hp
  refine ⟨p, ?_⟩
  have howned := h.owned p
  have hhands : ∀ t, (hands t).nodes p = 0 := fun t => by
    simp [Hand.nodes, List.count_eq_zero.2 (hp.2 t).1, List.count_eq_zero.2 (hp.2 t).2]
  simpa [List.count_eq_zero.2 hp.1, hhands] using howned.symm

section Adding

variable {n : Nat} {p : PoolState n 1}

/-- The steps of the client alone. -/
def ClientSteps (p p' : PoolState n 1) : Prop :=
  ∃ choice wakes, CallsOk p (.run (.client 0) choice wakes) ∧
    step (code n 1) p (.run (.client 0) choice wakes) = some p'

/-- What the steps of the client leave alone. -/
theorem clientSteps_frame {p' : PoolState n 1} (hrun : Relation.ReflTransGen ClientSteps p p') :
    ownerAt p' = ownerAt p ∧ p'.data.statics = p.data.statics ∧
      ∀ mutex i, p.owner mutex = some (.worker i) → p'.owner mutex = some (.worker i) := by
  induction hrun with
  | refl => exact ⟨rfl, rfl, fun _ _ => id⟩
  | tail _ hstep ih =>
      obtain ⟨choice, wakes, -, hs⟩ := hstep
      obtain ⟨hready, hstat, howned⟩ := ih
      refine ⟨?_, ?_, fun mutex i hown => step_still_owned hs (fun _ _ hc => by cases hc)
        (howned mutex i hown)⟩
      all_goals rcases step_statics hs with ⟨hsame, howner⟩ | ⟨choice', wakes', hc, -⟩
      · exact howner.trans hready
      · cases hc
      · exact hsame.trans hstat
      · cases hc

theorem code_client {pc : ClientPc} (hpc : clientAt p 0 = pc) :
    code n 1 (.client 0) (p.pc (.client 0)) = clientCode pc := by
  rw [← hpc]
  rfl

/-- With `rw_mutex` free the client links its job and comes to `bsem_post`. -/
theorem client_comes_to_post (h : PoolInv p) (hready : ownerAt p = .ready)
    (hidle : clientAt p 0 = .idle) (hfree : p.owner .rwMutex = none) :
    ∃ p' id, Relation.ReflTransGen ClientSteps p p' ∧ clientAt p' 0 = .push (.post id .lock) := by
  have hinside : ∀ {q : PoolState n 1} {choice} {k}, clientAt q 0 = .push k →
      CallsOk q (.run (.client 0) choice fun _ => true) := by
    intro q choice k hat hidle
    rw [clientAt, hidle] at hat
    cases hat
  obtain ⟨job, hjob⟩ := h.ledger.exists_free
  obtain ⟨p₁, hs₁, hat₁, howner₁⟩ : ∃ p₁,
      step (code n 1) p (.run (.client 0) (.addWork (some job) 0 0) fun _ => true) = some p₁ ∧
      clientAt p₁ 0 = .push (.lock job) ∧ p₁.owner = p.owner := by
    have hs : step (code n 1) p (.run (.client 0) (.addWork (some job) 0 0) fun _ => true) = _ :=
      step_act (code_client hidle)
    simp only [addWork, hjob, Option.isNone_none, if_true, Option.map_some] at hs
    exact ⟨_, hs, by simp [clientAt], rfl⟩
  have hcalls : CallsOk p (.run (.client 0) (.addWork (some job) 0 0) fun _ => true) :=
    fun _ => hready
  obtain ⟨p₂, hs₂, hat₂⟩ : ∃ p₂, step (code n 1) p₁ (.run (.client 0) .go fun _ => true) = some p₂ ∧
      clientAt p₂ 0 = .push (.link job) :=
    ⟨_, step_lock (code_client hat₁) (howner₁ ▸ hfree), by simp [clientAt]⟩
  have hinv₂ : PoolInv p₂ := (h.step hcalls hs₁).step (hinside hat₁) hs₂
  -- the node is the client's, so it can be linked
  have hlink : (linkJob job p₂.data.pool).isSome := by
    refine hinv₂.ledger.linkJob_some (t := .client 0) ?_
    show (clientAt p₂ 0).hand.pending = some job
    rw [hat₂]
    rfl
  obtain ⟨r, hr⟩ := Option.isSome_iff_exists.1 hlink
  obtain ⟨p₃, hs₃, hat₃⟩ : ∃ p₃, step (code n 1) p₂ (.run (.client 0) .go fun _ => true) = some p₃ ∧
      clientAt p₃ 0 = .push (.post r.2 .lock) := by
    have hs : step (code n 1) p₂ (.run (.client 0) .go fun _ => true) = _ :=
      step_act (code_client hat₂)
    simp only [hr, Option.map_some] at hs
    exact ⟨_, hs, by simp [clientAt]⟩
  refine ⟨p₃, r.2, ?_, hat₃⟩
  exact .tail (.tail (.single ⟨_, _, hcalls, hs₁⟩) ⟨_, _, hinside hat₁, hs₂⟩)
    ⟨_, _, hinside hat₂, hs₃⟩

end Adding

/-! ## The client blocks -/

section Deadlock

variable {n : Nat} {s s' : HoldState n} {a : HoldAction n} {i : Fin n}

abbrev HoldRun (s s' : HoldState n) : Prop :=
  Relation.ReflTransGen (StepsIf HoldCallsOk stepHold) s s'

theorem stepHold_pool {a : Action (Tid n 1) Choice} {p : PoolState n 1} (hfree : Unheld s a)
    (hs : step (code n 1) s.pool a = some p) :
    stepHold s (.pool a) = some { s with pool := p } := by
  simp only [stepHold, if_pos hfree, hs, Option.map_some]

/-- The pool runs as it did before it could be paused. -/
theorem holdReachable_of_pool {p : PoolState n 1} (h : PoolReachable p) :
    HoldReachable { initHold n with pool := p } := by
  obtain ⟨s, hs, rfl⟩ : ∃ s, HoldReachable s ∧ s = { initHold n with pool := p } := by
    refine Reachable.related (fun p s => s = { initHold n with pool := p }) ?_ ?_ h
    · rintro p rfl
      exact ⟨_, rfl, rfl⟩
    · rintro p s p' rfl ⟨a, hcalls, hs⟩
      refine ⟨_, ⟨.pool a, ?_, ?_⟩, rfl⟩
      · cases a with
        | run t choice wakes =>
            cases t with
            | owner => exact ⟨hcalls, fun _ => rfl⟩
            | worker i | client c => exact hcalls
        | spurious t => trivial
      · refine stepHold_pool ?_ hs
        cases a with
        | run t choice wakes =>
            cases t with
            | owner => trivial
            | worker i | client c => rfl
        | spurious t => trivial
  exact hs

/-- The client goes on while the pool is paused. -/
theorem holdRun_of_client (hpausing : s.pausing = none) {p : PoolState n 1}
    (hrun : Relation.ReflTransGen ClientSteps s.pool p) : HoldRun s { s with pool := p } := by
  induction hrun with
  | refl => exact .refl
  | tail _ hstep ih =>
      obtain ⟨choice, wakes, hcalls, hs⟩ := hstep
      exact ih.tail ⟨.pool (.run (.client 0) choice wakes), hcalls, stepHold_pool hpausing hs⟩

/-- `thpool_pause` sends the signal to the first `k` workers. -/
theorem pause_sends (s : HoldState n) (k : Nat) (hk : k ≤ s.pool.data.pool.alive) :
    HoldRun { s with pausing := some 0 }
      { s with pending := fun i => s.pending i || decide (i.val < k), pausing := some k } := by
  induction k with
  | zero => simpa using Relation.ReflTransGen.refl
  | succ k ih =>
      refine (ih (Nat.le_of_succ_le hk)).tail ⟨.kill, trivial, ?_⟩
      have hlt : k < s.pool.data.pool.alive := hk
      have hsent : (fun i : Fin n => (s.pending i || decide (i.val < k)) || decide (i.val = k))
          = fun i => s.pending i || decide (i.val < k + 1) := by
        funext i
        rw [Bool.or_assoc, ← Bool.decide_or]
        congr 2
        exact propext ⟨fun h => by omega, fun h => by omega⟩
      simp only [stepHold, if_pos hlt, hsent]

theorem pause_returns (hbetween : BetweenCalls s) (hready : ownerAt s.pool = .ready) :
    ∃ s', HoldRun s s' ∧ (∀ i : Fin n, i.val < s.pool.data.pool.alive → s'.pending i = true) ∧
      s'.handler = s.handler ∧ s'.pausing = none ∧ s'.pool = s.pool := by
  have hpause : stepHold s .pause = some { s with pausing := some 0 } := if_pos hbetween
  have hsent := pause_sends s s.pool.data.pool.alive (Nat.le_refl _)
  have hkill : stepHold { s with
      pending := fun i => s.pending i || decide (i.val < s.pool.data.pool.alive)
      pausing := some s.pool.data.pool.alive } .kill = some { s with
      pending := fun i => s.pending i || decide (i.val < s.pool.data.pool.alive)
      pausing := none
      lastCall := some .pause } := if_neg (Nat.lt_irrefl s.pool.data.pool.alive)
  refine ⟨_, .tail (.head ⟨.pause, hready, hpause⟩ hsent) ⟨.kill, trivial, hkill⟩, ?_, rfl, rfl,
    rfl⟩
  intro i hi
  simp [hi]

/-- A worker is held wherever it is. -/
theorem pause_holds (hbetween : BetweenCalls s) (hready : ownerAt s.pool = .ready)
    (hi : i.val < s.pool.data.pool.alive) (hfree : s.handler i = none)
    (hin : workerAt s.pool i ≠ .exited) :
    ∃ s', HoldRun s s' ∧ s'.handler i = some .loop ∧ s'.pausing = none ∧
      s'.pool = s.pool.setOnHold true := by
  obtain ⟨s₁, hrun, hpending, hhandler, hpausing, hpool⟩ := pause_returns hbetween hready
  have hdeliver : stepHold s₁ (.deliver i) = some { s₁ with
      pending := Function.update s₁.pending i false
      handler := Function.update s₁.handler i (some .set) } :=
    if_pos ⟨hpending i hi, by rw [hhandler, hfree], by rwa [hpool]⟩
  have hset : Function.update s₁.handler i (some HoldPc.set) i = some .set :=
    Function.update_self ..
  have hhold : stepHold { s₁ with
      pending := Function.update s₁.pending i false
      handler := Function.update s₁.handler i (some .set) } (.hold i) = some { s₁ with
      pool := s₁.pool.setOnHold true
      pending := Function.update s₁.pending i false
      handler := Function.update (Function.update s₁.handler i (some .set)) i (some .loop) } := by
    simp only [stepHold, hset]
  refine ⟨_, .tail (.tail hrun ⟨.deliver i, trivial, hdeliver⟩) ⟨.hold i, trivial, hhold⟩,
    Function.update_self .., hpausing, ?_⟩
  rw [hpool]

/-- The client waits in `thpool_add_work` for a mutex of a worker that is held. -/
structure Stuck (s : HoldState n) (i : Fin n) : Prop where
  held : s.handler i = some .loop
  flag : s.onHold = true
  owned : s.pool.owner .bsemMutex = some (.worker i)
  adding : ∃ id, clientAt s.pool 0 = .push (.post id .lock)
  ready : ownerAt s.pool = .ready

theorem Stuck.waits (h : Stuck s i) :
    State.WaitsOn (code n 1) s.pool (.client 0) (.worker i) := by
  obtain ⟨id, hat⟩ := h.adding
  exact ⟨.bsemMutex, h.owned, .inl ⟨_, code_client hat⟩⟩

/-- **A client that is stuck stays so**: it is the one that could call `thpool_resume`. -/
theorem Stuck.step (h : Stuck s i) (hcalls : HoldCallsOk s a) (hs : stepHold s a = some s') :
    Stuck s' i := by
  obtain ⟨id, hat⟩ := h.adding
  have hbusy : ¬ BetweenCalls s := by
    rintro ⟨hidle, -⟩
    rw [hat] at hidle
    cases hidle
  -- another worker enters or leaves the handler
  have hother : ∀ (j : Fin n) (pc : Option HoldPc), s.handler j ≠ some .loop ∨ s.onHold = false →
      Function.update s.handler j pc i = some .loop := by
    intro j pc hj
    have hij : i ≠ j := by
      rintro rfl
      rcases hj with hj | hoff
      · exact hj h.held
      · rw [h.flag] at hoff
        cases hoff
    rw [Function.update_of_ne hij, h.held]
  cases stepHold_cases hs with
  | @pool a p hfree hstep =>
      -- the worker is held, the client waits, and the owner may not destroy the pool
      have hworker : ∀ choice wakes, a ≠ .run (.worker i) choice wakes := by
        rintro choice wakes rfl
        have hnone : s.handler i = none := hfree
        rw [h.held] at hnone
        cases hnone
      have hclient : ∀ choice wakes, a ≠ .run (.client 0) choice wakes := by
        rintro choice wakes rfl
        have hblocked : step (code n 1) s.pool (.run (.client 0) choice wakes) = none := by
          rw [Threads.step, code_client hat]
          exact if_neg (by rw [h.owned]; exact fun hc => by cases hc)
        rw [hblocked] at hstep
        cases hstep
      have howner : ∀ choice wakes, a ≠ .run .owner choice wakes := by
        rintro choice wakes rfl
        have hquiet := hcalls.1 h.ready 0
        rw [show s.pool.pc (.client 0) = ClientPc.push (.post id .lock) from hat] at hquiet
        cases hquiet
      have hsame : clientAt p 0 = clientAt s.pool 0 := by
        rcases step_effect hstep with ⟨-, hp⟩ | ⟨t, choice, wakes, next, rfl, -, hp⟩
        · rw [clientAt, hp]
        · rw [clientAt, hp]
          refine Function.update_of_ne ?_ ..
          rintro rfl
          exact hclient choice wakes rfl
      rcases step_statics hstep with ⟨hstat, hready⟩ | ⟨choice, wakes, rfl, -⟩
      · refine ⟨h.held, ?_, step_still_owned hstep hworker h.owned, ⟨id, hsame.trans hat⟩,
          hready.trans h.ready⟩
        show p.data.statics.onHold = true
        rw [hstat]
        exact h.flag
      · exact absurd rfl (howner choice wakes)
  | pause hb | resume hb => exact absurd hb hbusy
  | kill _ _ | paused _ _ | again _ _ => exact ⟨h.held, h.flag, h.owned, h.adding, h.ready⟩
  | @deliver j hp hh hin =>
      exact ⟨hother j _ (.inl (by rw [hh]; exact fun hc => by cases hc)), h.flag, h.owned, h.adding,
        h.ready⟩
  | @set j hh =>
      exact ⟨hother j _ (.inl (by rw [hh]; exact fun hc => by cases hc)), rfl, h.owned, h.adding,
        h.ready⟩
  | @leave j hh hoff => exact ⟨hother j _ (.inr hoff), h.flag, h.owned, h.adding, h.ready⟩

theorem Stuck.run (h : Stuck s i) (hrun : HoldRun s s') : Stuck s' i := by
  induction hrun with
  | refl => exact h
  | tail _ hstep ih =>
      obtain ⟨a, hcalls, hs⟩ := hstep
      exact ih.step hcalls hs

/-- Any worker of a pool that has just been started can be paused with the mutex of the semaphore,
and then a job be added. -/
theorem exists_stuck (i : Fin n) : ∃ s : HoldState n, HoldReachable s ∧ Stuck s i := by
  obtain ⟨p, hp, hown⟩ : ∃ p : PoolState n 1, JustStarted p ∧ _ := exists_owning i
  have hreach := holdReachable_of_pool hp.reachable
  -- the client pauses the pool, and the signal reaches the worker inside `bsem_wait`
  have hin : workerAt p i ≠ .exited := by
    intro hexited
    have hwaking := hp.workers i
    rw [hexited] at hwaking
    cases hwaking
  obtain ⟨s, hrun, hheld, hpausing, hpool⟩ := pause_holds (s := { initHold n with pool := p })
    (i := i) ⟨hp.clients 0, rfl⟩ hp.ready (by rw [hp.alive]; exact i.isLt) rfl hin
  have hs : HoldReachable s := hreach.trans hrun
  -- then it adds a job
  have hpc : s.pool.pc = p.pc := by rw [hpool]; rfl
  have howners : s.pool.owner = p.owner := by rw [hpool]; rfl
  have hready : ownerAt s.pool = .ready := by
    rw [ownerAt, hpc]
    exact hp.ready
  obtain ⟨p', id, hclient, hat⟩ := client_comes_to_post (steered_hold hs).inv hready
    (by rw [clientAt, hpc]; exact hp.clients 0) (by rw [howners]; exact hp.rwMutex_free)
  obtain ⟨hready', hstat, howned⟩ := clientSteps_frame hclient
  refine ⟨{ s with pool := p' }, hs.trans (holdRun_of_client hpausing hclient), hheld, ?_,
    howned _ _ (by rw [howners, hown]), ⟨id, hat⟩, hready'.trans hready⟩
  show p'.data.statics.onHold = true
  rw [hstat, hpool]
  rfl

/-- **A paused pool deadlocks**, whatever its size: any worker can be held while it owns the mutex
of the semaphore, and then the client that is to resume it waits for this mutex in
`thpool_add_work`, in every continuation. -/
theorem paused_pool_deadlocks (i : Fin n) : ∃ s : HoldState n, HoldReachable s ∧
    ¬ HeldOwnNothing s ∧ ∀ s', HoldRun s s' →
      s'.handler i = some .loop ∧ s'.pool.owner .bsemMutex = some (.worker i) ∧
      State.WaitsOn (code n 1) s'.pool (.client 0) (.worker i) := by
  obtain ⟨s, hs, hstuck⟩ := exists_stuck i
  refine ⟨s, hs, fun hnothing => ?_, fun s' hrun => ?_⟩
  · exact hnothing i (by rw [hstuck.held]; exact fun hc => by cases hc) _ hstuck.owned
  · have hstill := hstuck.run hrun
    exact ⟨hstill.held, hstill.owned, hstill.waits⟩

end Deadlock

/-- A client adds a job to a pool with one worker, and the worker begins to take it. -/
def takeOne (k : Nat) : List (HoldAction 1) :=
  (startUp 1 1 ++ times (.client 0) 1 (.addWork (some 7) 1 2) ++ times (.client 0) 8 .go ++
    times (.worker 0) k .go).map .pool

set_option maxRecDepth 20000 in
/-- **The client blocks on a held worker**: the worker is held inside `jobqueue_pull`, and the
client, which is the one to resume it, waits for `rw_mutex` in `thpool_add_work`. -/
theorem client_blocked_by_held : ∃ s : HoldState 1, HoldReachable s ∧
    s.handler 0 = some .loop ∧ s.onHold = true ∧ s.pool.owner .rwMutex = some (.worker 0) ∧
    clientAt s.pool 0 = .push (.lock 9) := by
  obtain ⟨s, hs, hp⟩ : ∃ s : HoldState 1, HoldReachable s ∧
      decide (s.handler 0 = some .loop ∧ s.onHold = true ∧
        s.pool.owner .rwMutex = some (.worker 0) ∧ clientAt s.pool 0 = .push (.lock 9)) = true :=
    reachable_guarded (takeOne 10 ++ [.pause, .kill, .kill, .deliver 0, .hold 0] ++
      (times (.client 0) 1 (.addWork (some 9) 1 3)).map .pool) _ (by decide)
  exact ⟨s, hs, of_decide_eq_true hp⟩

end CPlayground.Thpool
