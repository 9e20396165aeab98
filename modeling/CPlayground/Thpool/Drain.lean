import CPlayground.Thpool.Costs

set_option autoImplicit false

/-! # A pool finishes its jobs

Left alone, a pool in service comes to rest under every schedule, and then every job that was
accepted has been finished (`quiet_run_finishes`) and, while one client waits at most, every
`thpool_wait` has returned (`waits_return`). Only a job that waits for its own pool is never
finished (`jobs_can_finish_iff`). A token sends a worker once around `thread_do`, and a job that
leaves the queue pays for the token that may follow, so that what is left to do (`draining`) gets
less with every step.
-/

namespace CPlayground.Thpool

open Threads

variable {n m : Nat} {s s' : PoolState n m}

/-! ## A token that has been seen is there to be taken -/

section Effects

variable {P : Type} {d d' : Mem} {choice : Choice} {next : P}

theorem post_v {pt : PostPc → P} {ret : P} {k : PostPc} (hfree : k.holds .bsemMutex = false)
    (h : (bsemPost pt ret k).effect d choice = some (d', next)) : d'.pool.v = d.pool.v := by
  cases k with
  | lock =>
      cases h
      rfl
  | set | signal | unlock => cases hfree

theorem push_v {pt : PushPc → P} {ret : Nat → P} {k : PushPc}
    (hfree : k.holds .bsemMutex = false)
    (h : (jobqueuePush pt ret k).effect d choice = some (d', next)) : d'.pool.v = d.pool.v := by
  cases k with
  | link job =>
      obtain ⟨⟨pool, id⟩, hlink, he⟩ := Option.map_eq_some_iff.1 h
      cases he
      obtain ⟨queue, -, hlink⟩ := Option.bind_eq_some_iff.1 hlink
      obtain ⟨new, -, hlink⟩ := Option.bind_eq_some_iff.1 hlink
      cases hlink
      rfl
  | post id k => exact post_v (k := k) hfree h
  | lock job | unlock id =>
      cases h
      rfl

theorem pull_v {pt : PullPc → P} {ret : Option Ptr → P} {k : PullPc}
    (hfree : k.holds .bsemMutex = false)
    (h : (jobqueuePull pt ret k).effect d choice = some (d', next)) : d'.pool.v = d.pool.v := by
  cases k with
  | take =>
      obtain ⟨⟨pool, k⟩, htake, he⟩ := Option.map_eq_some_iff.1 h
      cases he
      exact (takeJob_len htake).1
  | post job k => exact post_v (k := k) hfree h
  | lock | unlock job =>
      cases h
      rfl

theorem addWork_v {parent : Option Nat} {pt : PushPc → P} {fail : P}
    (h : addWork parent pt fail d choice = some (d', next)) : d'.pool.v = d.pool.v := by
  cases choice with
  | addWork job function args =>
      cases job with
      | none =>
          cases h
          rfl
      | some job =>
          simp only [addWork] at h
          split_ifs at h with hfree
          cases h
          rfl
  | _ => cases h

end Effects

/-- **Only a thread that holds the mutex of the semaphore changes `v`**, in a pool in service. -/
theorem v_of_effect {t : Tid n m} {choice : Choice} {d' : Mem} {next : Pc t}
    (hserving : (ownerAt s).destroying = false) (hlate : (ownerAt s).early = false)
    (hfree : (∀ c, waitsFor t (s.pc t) ≠ some c) → holds t (s.pc t) .bsemMutex = false)
    (he : (code n m t (s.pc t)).effect s.data choice = some (d', next)) :
    d'.pool.v = s.data.pool.v := by
  cases t with
  | worker i =>
      have he' : (workerCode i (workerAt s i)).effect s.data choice = some (d', next) := he
      have hfree' : (∀ c, waitsFor (.worker i : Tid n m) (workerAt s i) ≠ some c) →
          (workerAt s i).holds .bsemMutex = false := hfree
      cases hpc : workerAt s i with
      | pull k =>
          rw [hpc] at he' hfree'
          exact pull_v (hfree' fun c hc => by cases hc) he'
      | push job k =>
          rw [hpc] at he' hfree'
          exact push_v (hfree' fun c hc => by cases hc) he'
      | wait job before k =>
          rw [hpc] at he'
          rw [(wait_effect k he').1]
      | run job =>
          rw [hpc] at he'
          rcases run_effect he' with ⟨rfl, -⟩ | hadd
          · rfl
          · exact addWork_v hadd
      | semTake =>
          rw [hpc] at hfree'
          cases hfree' fun c hc => by cases hc
      | loop | semTest | aliveTest | doneTest =>
          rw [hpc] at he'
          obtain ⟨rfl, -⟩ := branch_effect he'
          rfl
      | unborn =>
          rw [hpc] at he'
          obtain ⟨-, he'⟩ := Option.ite_none_right_eq_some.1 he'
          cases he'
          rfl
      | call job =>
          rw [hpc] at he'
          obtain ⟨called, -, he'⟩ := Option.map_eq_some_iff.1 he'
          cases he'
          rfl
      | free job =>
          rw [hpc] at he'
          obtain ⟨pool, hfreed, he'⟩ := Option.map_eq_some_iff.1 he'
          cases he'
          obtain ⟨done, -, hpool⟩ := Option.bind_eq_some_iff.1 hfreed
          cases hpool
          rfl
      | exited =>
          rw [hpc] at he'
          cases he'
      | _ =>
          rw [hpc] at he'
          cases he'
          rfl
  | client c =>
      have he' : (clientCode (clientAt s c)).effect s.data choice = some (d', next) := he
      have hfree' : (∀ c', waitsFor (.client c : Tid n m) (clientAt s c) ≠ some c') →
          (clientAt s c).holds .bsemMutex = false := hfree
      cases hpc : clientAt s c with
      | idle =>
          rw [hpc] at he'
          rcases idle_effect he' with ⟨rfl, -⟩ | hadd
          · rfl
          · exact addWork_v hadd
      | push k =>
          rw [hpc] at he' hfree'
          exact push_v (hfree' fun c hc => by cases hc) he'
      | added id =>
          rw [hpc] at he'
          cases he'
          rfl
      | wait before k =>
          rw [hpc] at he'
          rw [(wait_effect k he').1]
  | owner =>
      have he' : (ownerCode n (ownerAt s)).effect s.data choice = some (d', next) := he
      cases hpc : ownerAt s with
      | spawn k =>
          rw [hpc] at he'
          simp only [ownerCode, Instr.effect] at he'
          split at he'
          · split at he'
            · cases he'
              rfl
            · cases he'
          · cases he'
            rfl
      | spin =>
          rw [hpc] at he'
          obtain ⟨rfl, -⟩ := branch_effect he'
          rfl
      | ready =>
          rw [hpc] at he'
          obtain ⟨-, he'⟩ := Option.ite_none_right_eq_some.1 he'
          cases he'
          rfl
      | initHold | initKeepalive | initPool | initQueue | initThreads | failed =>
          rw [hpc] at hlate
          cases hlate
      | _ =>
          rw [hpc] at hserving
          cases hserving

theorem seen_of_semTake {i : Nat} {choice : Choice} {d d' : Mem} {pc : WorkerPc}
    (he : (workerCode i pc).effect d choice = some (d', .semTake)) : d'.pool.v = 1 := by
  cases pc with
  | semTest =>
      obtain ⟨rfl, ⟨-, hnext⟩ | ⟨htest, -⟩⟩ := branch_effect he
      · cases hnext
      · simpa using htest
  | pull k =>
      obtain ⟨-, ⟨k', hnext⟩ | ⟨job, hnext⟩⟩ := pull_counts k he
      · cases hnext
      · cases job <;> cases hnext
  | push job k =>
      obtain ⟨-, ⟨k', hnext⟩ | ⟨id, hnext⟩⟩ := push_counts k he <;> cases hnext
  | loop | aliveTest | doneTest =>
      obtain ⟨-, ⟨-, hnext⟩ | ⟨-, hnext⟩⟩ := branch_effect he <;> cases hnext
  | wait job before k =>
      obtain ⟨-, ⟨k', hnext, -⟩ | hnext⟩ := wait_effect k he <;> cases hnext
  | run job =>
      rcases run_effect he with ⟨-, hnext | hnext⟩ | hadd
      · cases hnext
      · cases hnext
      · obtain ⟨-, ⟨k, hnext⟩ | hnext⟩ := addWork_counts hadd <;> cases hnext
  | unborn =>
      obtain ⟨-, he⟩ := Option.ite_none_right_eq_some.1 he
      cases he
  | call job | free job =>
      obtain ⟨r, -, he⟩ := Option.map_eq_some_iff.1 he
      cases he
  | _ => cases he

/-- A worker that is about to take the token has it there. -/
def Seen (s : PoolState n m) : Prop :=
  (ownerAt s).destroying = false → ∀ i, workerAt s i = .semTake → s.data.pool.v = 1

theorem Seen.step {a : Action (Tid n m) Choice} (h : Seen s) (hinv : PoolInv s)
    (hs : Threads.step (code n m) s a = some s') : Seen s' := by
  intro hserving i hpc
  have hold := h (serving_before hs hserving)
  rcases step_effect hs with ⟨hd, hp⟩ | ⟨t, choice, wakes, next, rfl, he, hp⟩
  · rw [workerAt, hp] at hpc
    rw [hd]
    exact hold i hpc
  · by_cases ht : t = .worker i
    · subst ht
      rw [workerAt_self hp] at hpc
      subst hpc
      exact seen_of_semTake he
    · rw [workerAt_other hp (Ne.symm ht)] at hpc
      have hworker : s.Holding (code n m) holds (.worker i) .bsemMutex := by
        refine holding_of_not_wait ?_ fun c hw => ?_
        · rw [show s.pc (.worker i) = WorkerPc.semTake from hpc]
          rfl
        · rw [show s.pc (.worker i) = WorkerPc.semTake from hpc] at hw
          cases hw
      have hlate : (ownerAt s).early = false := by
        by_contra hearly
        rw [(hinv.phases.early (Bool.not_eq_false _ ▸ hearly)).1 i] at hpc
        cases hpc
      rw [v_of_effect (serving_before hs hserving) hlate ?_ he]
      · exact hold i hpc
      -- the worker holds the mutex, so no other thread is inside
      · intro hwait
        by_contra hheld
        exact ht (hinv.locked.exclusive
          (holding_of_not_wait (Bool.not_eq_false _ ▸ hheld) hwait) hworker)

theorem seen_reachable (h : PoolReachable s) : Seen s := by
  refine Reachable.invariant Seen ?_ ?_ h
  · rintro s rfl - i hpc
    cases hpc
  · rintro s s' hreach hseen hstep
    obtain ⟨a, ha⟩ := hstep.steps
    exact hseen.step (poolInv_reachable hreach) ha

/-! ## The measure

Here the token is worth what it costs a worker to go once around `thread_do` and find the queue
empty. -/

section Measure

variable (N : Nat)

def drainPrices : Prices := ⟨N, N + 20, 2 * N + 24⟩

def WorkerPc.toSleep : WorkerPc → Nat
  | .unborn => 14
  | .startLock => 13
  | .startInc => 12
  | .startUnlock => 11
  | .loop => 10
  | .semLock => 9
  | .semTest => 8
  | .semTake => 7
  | .semCond => 1
  | .semUnlock => N + 26
  | .aliveTest => N + 25
  | .workLock => N + 24
  | .workInc => N + 23
  | .workUnlock => N + 22
  | .pull k => N + 18 + k.toGo (drainPrices N)
  | .call _ | .added _ _ => N + 18
  | .run _ => N + 17
  | .push _ k => N + 18 + k.toGo (drainPrices N)
  | .wait _ _ _ => 1
  | .free _ => N + 16
  | .doneLock => N + 15
  | .doneDec => N + 14
  | .doneTest => N + 13
  | .doneSignal => N + 12
  | .doneUnlock => 11
  | .exitLock => 3
  | .exitDec => 2
  | .exitUnlock => 1
  | .exited => 0

def drainCosts : WorkerCosts where
  now := WorkerPc.toSleep N
  woken := 9
  asleep_lt := Nat.one_pos
  call _ _ _ := rfl

/-- What the token and the jobs in the queue are worth. -/
def worth (pool : Pool) : Nat :=
  (if pool.v = 1 then (drainPrices N).token else 0) + (drainPrices N).job * pool.queue.len

variable {N}

theorem worth_fit : (drainPrices N).Fit (worth N) where
  same hv _ hlen := by
    unfold worth
    rw [hv, hlen]
  post pool := by
    unfold worth
    rw [if_pos rfl]
    show _ + (drainPrices N).job * pool.queue.len ≤ _
    omega
  push hv _ hlen := by
    unfold worth
    rw [hv, hlen, Nat.mul_succ]
    omega
  pull := by
    intro pool pool' hv _ hlen
    unfold worth
    rw [hv, ← hlen, Nat.mul_succ]
    simp only [drainPrices]
    omega

variable {d d' : Mem}

/-- The step of a worker of a pool in service, whose job goes on to its end. -/
theorem worker_drains {i : Nat} {pc next : WorkerPc}
    (hwait : ∀ job before k, pc ≠ .wait job before k) (hkeep : d.statics.keepalive = true)
    (hseen : pc = .semTake → d.pool.v = 1)
    (he : (workerCode i pc).effect d .go = some (d', next)) :
    Pays (drainPrices N) (worth N) (workerCode i pc) d d' ((drainCosts N).inside pc)
      (next.toSleep N) := by
  cases pc with
  | wait job before k => exact absurd rfl (hwait job before k)
  | exited => cases he
  | unborn =>
      obtain ⟨-, he⟩ := Option.ite_none_right_eq_some.1 he
      cases he
      exact .same worth_fit rfl rfl rfl
        (by simp [workerCode, Instr.wakesUp, WorkerCosts.inside, drainCosts, WorkerPc.toSleep])
  | loop | aliveTest =>
      obtain ⟨rfl, ⟨-, rfl⟩ | ⟨htest, -⟩⟩ := branch_effect he
      · exact .same worth_fit rfl rfl rfl
          (by simp [workerCode, branch, Instr.wakesUp, WorkerCosts.inside, drainCosts,
            WorkerPc.toSleep])
      · rw [hkeep] at htest
        cases htest
  | semTest | doneTest =>
      obtain ⟨rfl, ⟨-, rfl⟩ | ⟨-, rfl⟩⟩ := branch_effect he <;>
        exact .same worth_fit rfl rfl rfl
          (by simp [workerCode, branch, Instr.wakesUp, WorkerCosts.inside, drainCosts,
            WorkerPc.toSleep])
  | semTake =>
      -- the token pays for the way of the worker
      cases he
      have hv := hseen rfl
      unfold Pays worth
      simp [workerCode, assign, Instr.wakesUp, WorkerCosts.inside, drainCosts, drainPrices,
        WorkerPc.toSleep, hv]
      omega
  | pull k =>
      refine pull_pays (g := WorkerPc.toSleep N) (b := N + 18) worth_fit (fun k => rfl) ?_ k he
      intro job
      cases job <;> simp [WorkerPc.toSleep]
  | push job k =>
      exact push_pays (g := WorkerPc.toSleep N) (b := N + 18) worth_fit (fun k => rfl)
        (fun id => Nat.le_refl _) k he
  | call job =>
      obtain ⟨called, -, he⟩ := Option.map_eq_some_iff.1 he
      cases he
      exact .same worth_fit rfl rfl rfl
        (by simp [workerCode, Instr.wakesUp, WorkerCosts.inside, drainCosts, WorkerPc.toSleep])
  | free job =>
      obtain ⟨pool, hfree, he⟩ := Option.map_eq_some_iff.1 he
      cases he
      obtain ⟨done, -, hpool⟩ := Option.bind_eq_some_iff.1 hfree
      cases hpool
      exact .same worth_fit rfl rfl rfl
        (by simp [workerCode, Instr.wakesUp, WorkerCosts.inside, drainCosts, WorkerPc.toSleep])
  | _ =>
      cases he
      exact .same worth_fit rfl rfl rfl
        (by simp [workerCode, assign, Instr.wakesUp, drainPrices, WorkerCosts.inside, drainCosts,
          WorkerPc.toSleep, PullPc.toGo] <;> omega)

end Measure

/-! ## Quiet runs -/

/-- What is left to do in a pool in service, when no job and no client makes a call. -/
def draining (n m : Nat) : Measure (code n m) :=
  poolMeasure n m (drainCosts (9 * Fintype.card (Tid n m)))
    (drainPrices (9 * Fintype.card (Tid n m))) fun _ => worth (9 * Fintype.card (Tid n m))

/-- `thpool_destroy` has not been called, and no job waits for the pool. -/
structure Draining (s : PoolState n m) : Prop where
  reachable : PoolReachable s
  ready : ownerAt s = .ready
  noWait : ∀ i job before k, workerAt s i ≠ .wait job before k

/-- A worker or a client goes on, without a new call: a job goes on to its end. -/
def Quiet : Action (Tid n m) Choice → Prop
  | .run .owner _ _ | .spurious _ => False
  | .run _ choice _ => choice = .go

theorem Quiet.eq_run {a : Action (Tid n m) Choice} (h : Quiet a) :
    ∃ t wakes, a = .run t .go wakes ∧ t ≠ .owner := by
  cases a with
  | spurious t => cases h
  | run t choice wakes =>
      cases t with
      | owner => cases h
      | worker i =>
          cases h
          exact ⟨.worker i, wakes, rfl, by simp⟩
      | client c =>
          cases h
          exact ⟨.client c, wakes, rfl, by simp⟩

theorem urge_eq_go {t : Tid n m} (ht : t ≠ .owner) (pc : Pc t) : urge t pc = .go := by
  cases t with
  | owner => exact absurd rfl ht
  | worker i | client c => rfl

/-- **A quiet step lowers the measure.** -/
theorem Draining.next {a : Action (Tid n m) Choice} (h : Draining s) (hquiet : Quiet a)
    (hs : Threads.step (code n m) s a = some s') :
    CallsOk s a ∧ Draining s' ∧ (draining n m).left s' < (draining n m).left s := by
  have hinv := poolInv_reachable h.reachable
  have hserving : (ownerAt s).destroying = false := by rw [h.ready]; rfl
  obtain ⟨t, wakes, rfl, ht⟩ := hquiet.eq_run
  have hcalls : CallsOk s (.run t .go wakes) := by
    cases t with
    | worker i => trivial
    | client c => exact fun _ => h.ready
    | owner => exact absurd rfl ht
  have howner : ownerAt s' = .ready := by
    rcases step_effect hs with ⟨-, hp⟩ | ⟨t', choice, wakes', next, ha, -, hp⟩
    · rw [ownerAt, hp]
      exact h.ready
    · cases ha
      rw [ownerAt, hp, Function.update_of_ne (Ne.symm ht)]
      exact h.ready
  obtain ⟨t', choice', wakes', ha, hrun⟩ := (step_cases hs).resolve_left (by
    rintro ⟨t', c, ha, -⟩
    cases ha)
  cases ha
  have hurged : Threads.step (code n m) s (.run t (urge t (s.pc t)) wakes) = some s' := by
    rw [urge_eq_go ht]
    exact hs
  refine ⟨hcalls,
    ⟨h.reachable.next ⟨_, hcalls, hs⟩, howner, urged_no_wait h.noWait hurged⟩,
    (draining n m).lowers hinv.locked hrun ?_⟩
  intro next he _
  cases t with
  | worker i =>
      have hborn : workerAt s i ≠ .unborn := by
        intro hpc
        have hstarted := hinv.phases.started (by rw [h.ready]; rfl) i
        rw [hpc] at hstarted
        cases hstarted
      exact (worker_drains (h.noWait i)
        (hinv.alive_of_serving (keptAlive_reachable h.reachable) hserving hborn)
        (seen_reachable h.reachable hserving i) he).worker rfl
  | client c => exact (client_pays worth_fit he).client rfl
  | owner => exact absurd rfl ht

/-- Where no quiet step is left, whoever is at work is asleep. -/
theorem Draining.asleep (h : Draining s)
    (hstill : ∀ a, Quiet a → Threads.step (code n m) s a = none) {t : Tid n m}
    (hwork : ¬ AtRest s t) : ∃ c, s.sleep t = .blocked c := by
  by_contra hawake
  obtain ⟨u, -, huwork, wakes, -, hsome⟩ :=
    (poolInv_reachable h.reachable).somebody_runs hwork fun c hc => hawake ⟨c, hc⟩
  have hu : u ≠ .owner := by
    rintro rfl
    exact huwork (.inl h.ready)
  rw [urge_eq_go hu] at hsome
  have hquiet : Quiet (.run u .go wakes) := by
    cases u with
    | owner => exact absurd rfl hu
    | worker i | client c => rfl
  rw [hstill _ hquiet] at hsome
  cases hsome

/-- **A pool at rest has nothing to do.** -/
theorem Draining.idle (hn : 0 < n) (h : Draining s)
    (hstill : ∀ a, Quiet a → Threads.step (code n m) s a = none) : ¬ Active s := by
  have hinv := poolInv_reachable h.reachable
  rintro (hpos | ⟨i, hbusy⟩)
  · obtain ⟨i, job, before, hpc, -⟩ := standstill_has_waiting_job hn h.reachable h.ready
      (fun t hwork => by
        obtain ⟨c, hblocked⟩ := h.asleep hstill hwork
        exact not_canRun_of_blocked hinv hblocked) hpos
    exact h.noWait i job before .cond hpc
  · have hwork : ¬ AtRest s (.worker i) := by
      rintro (hpc | ⟨hpc, -⟩) <;> rw [hpc] at hbusy <;> cases hbusy
    obtain ⟨c, hblocked⟩ := h.asleep hstill hwork
    obtain ⟨c', mutex, next, hi, -⟩ := hinv.locked.asleep (.worker i) (by simp [hblocked])
    have hw := waitsFor_of_wait hi
    cases c' with
    | hasJob =>
        have hpc : workerAt s i = .semCond := semCond_of_waitsFor hw
        rw [hpc] at hbusy
        cases hbusy
    | allIdle =>
        obtain ⟨job, before, hpc⟩ := wait_of_waitsFor hw
        exact h.noWait i job before .cond hpc

theorem Draining.finished (hn : 0 < n) (h : Draining s)
    (hstill : ∀ a, Quiet a → Threads.step (code n m) s a = none) :
    ∀ job ∈ s.data.pool.log.accepted, job ∈ s.data.pool.log.finished := by
  have hinv := poolInv_reachable h.reachable
  have hidle := h.idle hn hstill
  have hlen : s.data.pool.queue.len = 0 := by
    by_contra hpos
    exact hidle (.inl (Nat.pos_of_ne_zero hpos))
  have hworking : s.data.pool.working = 0 := by
    by_contra hcounted
    exact hidle (Active.of_working (hinv.phases.exists_working hcounted))
  exact fun job hjob => hinv.all_finished (by rw [h.ready]; rfl) hlen hworking hjob

theorem Draining.run {as : List (Action (Tid n m) Choice)} (h : Draining s)
    (hquiet : ∀ a ∈ as, Quiet a) (hrun : execute (Threads.step (code n m)) s as = some s') :
    Draining s' ∧ as.length + (draining n m).left s' ≤ (draining n m).left s := by
  induction as generalizing s with
  | nil =>
      cases hrun
      exact ⟨h, by simp⟩
  | cons a as ih =>
      obtain ⟨s₁, hs, hrest⟩ := Option.bind_eq_some_iff.1 hrun
      obtain ⟨-, h₁, hlt⟩ := h.next (hquiet a (by simp)) hs
      obtain ⟨h', hle⟩ := ih h₁ (fun b hb => hquiet b (by simp [hb])) hrest
      refine ⟨h', ?_⟩
      rw [List.length_cons]
      omega

/-- The steps of a run without new calls. -/
abbrev QuietSteps (s s' : PoolState n m) : Prop :=
  StepsIf (fun s a => CallsOk s a ∧ Quiet a) (Threads.step (code n m)) s s'

/-- Some quiet run finishes every job. -/
theorem Draining.drains (hn : 0 < n) (h : Draining s) : ∃ s',
    Relation.ReflTransGen QuietSteps s s' ∧
      (∀ job ∈ s.data.pool.log.accepted, job ∈ s'.data.pool.log.accepted) ∧
      ∀ job ∈ s'.data.pool.log.accepted, job ∈ s'.data.pool.log.finished := by
  have hstep : ∀ s' : PoolState n m,
      Draining s' ∧ (∀ job ∈ s.data.pool.log.accepted, job ∈ s'.data.pool.log.accepted) →
      (¬ ∀ a, Quiet a → Threads.step (code n m) s' a = none) →
      ∃ s'', QuietSteps s' s'' ∧
        (Draining s'' ∧ ∀ job ∈ s.data.pool.log.accepted, job ∈ s''.data.pool.log.accepted) ∧
        (draining n m).left s'' < (draining n m).left s' := by
    rintro s' ⟨hs', hstays⟩ hmore
    obtain ⟨a, ha⟩ := not_forall.1 hmore
    obtain ⟨hquiet, hsome⟩ := Classical.not_imp.1 ha
    obtain ⟨s'', hs''⟩ := Option.ne_none_iff_exists'.1 hsome
    obtain ⟨hcalls, hnext, hlt⟩ := hs'.next hquiet hs''
    have hphases := (poolInv_reachable hs'.reachable).phases
    exact ⟨s'', ⟨a, ⟨hcalls, hquiet⟩, hs''⟩,
      ⟨hnext, fun job hjob => step_accepted hphases hs'' (hstays job hjob)⟩, hlt⟩
  obtain ⟨s', hrun, ⟨hend, hstays⟩, hstill⟩ := leads_to _ _ (draining n m).left hstep
    ⟨h, fun _ hjob => hjob⟩
  exact ⟨s', hrun, hstays, hend.finished hn hstill⟩

/-- **A pool that is left alone finishes its jobs, whatever the schedule.** From every state in
service in which no job waits for the pool, a run without new calls and without spurious wake-ups
has a bounded number of steps, and where it cannot go on every accepted job is finished. -/
theorem quiet_run_finishes (hn : 0 < n) (h : PoolReachable s) (hready : ownerAt s = .ready)
    (hnoWait : ∀ i job before k, workerAt s i ≠ .wait job before k)
    {as : List (Action (Tid n m) Choice)} (hquiet : ∀ a ∈ as, Quiet a)
    (hrun : execute (Threads.step (code n m)) s as = some s') :
    as.length ≤ (draining n m).left s ∧
      ((∀ a, Quiet a → Threads.step (code n m) s' a = none) →
        ∀ job ∈ s'.data.pool.log.accepted, job ∈ s'.data.pool.log.finished) := by
  obtain ⟨h', hle⟩ := Draining.run ⟨h, hready, hnoWait⟩ hquiet hrun
  exact ⟨by omega, h'.finished hn⟩

/-- A worker that sleeps and a client that is idle take no quiet step. -/
theorem still_of_asleep {s : PoolState 1 1} (h : Draining s) {c : Cond}
    (hblocked : s.sleep (.worker 0) = .blocked c) (hidle : clientAt s 0 = .idle)
    {a : Action (Tid 1 1) Choice} (ha : Quiet a) : Threads.step (code 1 1) s a = none := by
  obtain ⟨t, wakes, rfl, ht⟩ := ha.eq_run
  cases t with
  | owner => exact absurd rfl ht
  | worker i =>
      have hi : i = 0 := Fin.ext (Nat.lt_one_iff.1 i.isLt)
      subst hi
      by_contra hsome
      exact not_canRun_of_blocked (poolInv_reachable h.reachable) hblocked
        ⟨.go, wakes, trivial, Option.isSome_iff_ne_none.2 hsome⟩
  | client c =>
      have hc : c = 0 := Fin.ext (Nat.lt_one_iff.1 c.isLt)
      subst hc
      have hi : code 1 1 (.client 0) (s.pc (.client 0)) = clientCode .idle := by
        rw [show s.pc (.client 0) = ClientPc.idle from hidle]
        rfl
      rw [Threads.step, hi]
      rfl

theorem noWait_of_loop {s : PoolState 1 1} (hloop : workerAt s 0 = .loop) (i : Fin 1) (job : Ptr)
    (before : List Nat) (k : WaitPc) : workerAt s i ≠ .wait job before k := by
  have hi : i = 0 := Fin.ext (Nat.lt_one_iff.1 i.isLt)
  subst hi
  rw [hloop]
  simp

theorem quiet_times {t : Tid n m} (ht : t ≠ .owner) {k : Nat} {a : Action (Tid n m) Choice}
    (ha : a ∈ times t k .go) : Quiet a := by
  rw [List.eq_of_mem_replicate ha]
  cases t with
  | owner => exact absurd rfl ht
  | worker i | client c => rfl

set_option maxRecDepth 20000 in
theorem quiet_run_finishes_run : ∃ s s' : PoolState 1 1, s.data.pool.queue.len = 1 ∧
    execute (Threads.step (code 1 1)) s (times (.worker 0) 24 .go) = some s' ∧
    24 ≤ (draining 1 1).left s ∧
    ∀ job ∈ s'.data.pool.log.accepted, job ∈ s'.data.pool.log.finished := by
  obtain ⟨s, hs, hp⟩ := poolReachable_of_run addOne
    (fun s => (s.data.pool.queue.len == 1 && ownerAt s == .ready && workerAt s 0 == .loop) &&
      (execute (Threads.step (code 1 1)) s (times (.worker 0) 24 .go)).any fun s' =>
        s'.sleep (.worker 0) == .blocked .hasJob && clientAt s' 0 == .idle) (by decide)
  rw [Bool.and_eq_true, Bool.and_eq_true, Bool.and_eq_true, Option.any_eq_true, beq_iff_eq,
    beq_iff_eq, beq_iff_eq] at hp
  obtain ⟨⟨⟨hlen, hready⟩, hloop⟩, s', hrun, hend⟩ := hp
  rw [Bool.and_eq_true, beq_iff_eq, beq_iff_eq] at hend
  have hquiet : ∀ a ∈ times (.worker 0 : Tid 1 1) 24 .go, Quiet a :=
    fun a ha => quiet_times (by simp) ha
  obtain ⟨hle, hfinished⟩ :=
    quiet_run_finishes Nat.one_pos hs hready (noWait_of_loop hloop) hquiet hrun
  obtain ⟨h', -⟩ := Draining.run ⟨hs, hready, noWait_of_loop hloop⟩ hquiet hrun
  exact ⟨s, s', hlen, hrun, hle, hfinished fun a ha => still_of_asleep h' hend.1 hend.2 ha⟩

theorem Draining.run_one {as : List (Action (Tid n m) Choice)} (h : Draining s)
    (hone : OneWaiterReachable s) (hquiet : ∀ a ∈ as, Quiet a)
    (hrun : execute (guarded OneWaiter (Threads.step (code n m))) s as = some s') :
    Draining s' ∧ OneWaiterReachable s' := by
  induction as generalizing s with
  | nil =>
      cases hrun
      exact ⟨h, hone⟩
  | cons a as ih =>
      obtain ⟨s₁, hs, hrest⟩ := Option.bind_eq_some_iff.1 hrun
      obtain ⟨hwaiter, hs⟩ := Option.ite_none_right_eq_some.1 hs
      obtain ⟨hcalls, h₁, -⟩ := h.next (hquiet a (by simp)) hs
      exact ih h₁ (hone.next ⟨a, ⟨hcalls, hwaiter⟩, hs⟩)
        (fun b hb => hquiet b (by simp [hb])) hrest

/-- **Every call of `thpool_wait` returns**, in a pool that is left alone, when at most one client
sleeps whenever a worker signals `threads_all_idle` at an empty queue. -/
theorem waits_return (hn : 0 < n) (h : OneWaiterReachable s) (hready : ownerAt s = .ready)
    (hnoWait : ∀ i job before k, workerAt s i ≠ .wait job before k)
    {as : List (Action (Tid n m) Choice)} (hquiet : ∀ a ∈ as, Quiet a)
    (hrun : execute (guarded OneWaiter (Threads.step (code n m))) s as = some s')
    (hstill : ∀ a, Quiet a → Threads.step (code n m) s' a = none) (c : Fin m) :
    clientAt s' c = .idle := by
  obtain ⟨h', hone⟩ := Draining.run_one ⟨h.poolReachable, hready, hnoWait⟩ h hquiet hrun
  have hinv := poolInv_reachable h'.reachable
  by_contra hwork
  obtain ⟨c', hblocked⟩ := h'.asleep hstill (t := .client c) hwork
  have hcond : c' = .allIdle := by
    obtain ⟨c'', mutex, next, hi, hsleep⟩ := hinv.locked.asleep (.client c) (by simp [hblocked])
    rw [hblocked] at hsleep
    rcases hsleep with hsame | hwoken
    · cases hsame
      by_contra hne
      have hjob : c' = .hasJob := by cases c' <;> simp_all
      subst hjob
      obtain ⟨i, hworker⟩ := worker_of_waitsFor (waitsFor_of_wait hi)
      cases hworker
    · cases hwoken
  subst hcond
  exact h'.idle hn hstill ((heeded_reachable hone (by rw [h'.ready]; rfl)).asleep c hblocked)

set_option maxRecDepth 20000 in
theorem waits_return_run : ∃ s s' : PoolState 1 1,
    s.sleep (.client 0) = .blocked .allIdle ∧ clientAt s' 0 = .idle ∧
    execute (guarded OneWaiter (Threads.step (code 1 1))) s
      (times (.worker 0) 24 .go ++ times (.client 0) 5 .go) = some s' := by
  obtain ⟨s, hs, hp⟩ : ∃ s, OneWaiterReachable s ∧ _ := reachable_guarded
    (startUp 1 1 ++ times (.client 0) 1 (.addWork (some 7) 1 2) ++ times (.client 0) 8 .go ++
      times (.client 0) 1 .wait ++ times (.client 0) 3 .go)
    (fun s => (s.sleep (.client 0) == .blocked .allIdle && ownerAt s == .ready &&
      workerAt s 0 == .loop) &&
      (execute (guarded OneWaiter (Threads.step (code 1 1))) s
        (times (.worker 0) 24 .go ++ times (.client 0) 5 .go)).any fun s' =>
        s'.sleep (.worker 0) == .blocked .hasJob && clientAt s' 0 == .idle) (by decide)
  rw [Bool.and_eq_true, Bool.and_eq_true, Bool.and_eq_true, Option.any_eq_true, beq_iff_eq,
    beq_iff_eq, beq_iff_eq] at hp
  obtain ⟨⟨⟨hasleep, hready⟩, hloop⟩, s', hrun, hend⟩ := hp
  rw [Bool.and_eq_true, beq_iff_eq, beq_iff_eq] at hend
  have hquiet : ∀ a ∈ times (.worker 0 : Tid 1 1) 24 .go ++ times (.client 0) 5 .go, Quiet a := by
    intro a ha
    rcases List.mem_append.1 ha with ha | ha
    · exact quiet_times (by simp) ha
    · exact quiet_times (by simp) ha
  obtain ⟨h', -⟩ := Draining.run_one ⟨hs.poolReachable, hready, noWait_of_loop hloop⟩ hs hquiet hrun
  exact ⟨s, s', hasleep, waits_return Nat.one_pos hs hready (noWait_of_loop hloop) hquiet hrun
    (fun a ha => still_of_asleep h' hend.1 hend.2 ha) 0, hrun⟩

/-- A job that waits is not finished. -/
theorem PoolInv.waiting_not_finished (h : PoolInv s) {i : Fin n} {job : Ptr} {before : List Nat}
    {k : WaitPc} (hw : workerAt s i = .wait job before k) :
    ∃ done ∈ s.data.pool.log.accepted, done ∉ s.data.pool.log.finished := by
  have hhand : handsOf s (.worker i) = (WorkerPc.wait job before k).hand := by
    rw [← hw]
    rfl
  obtain ⟨done, hdone⟩ := Option.isSome_iff_exists.1
    (h.ledger.jobAt_some (t := .worker i) (p := job) (by
      rw [hhand]
      simp [WorkerPc.hand, Hand.nodes]))
  have hheld : IsAt s done (.held i) := by
    show (handsOf s (.worker i)).held.bind s.data.pool.queue.heap.jobAt = some done
    rw [hhand]
    exact hdone
  refine ⟨done, h.accepted_of_isAt hheld, fun hfin => ?_⟩
  have hfinished : IsAt s done .finished := hfin
  cases h.place_unique hheld hfinished

/-- **The jobs of a pool can all be finished, from every state in service, unless a job waits for
its own pool.** When a job does, no run finishes them, also none in which `thpool_destroy` is
called. -/
theorem jobs_can_finish_iff (hn : 0 < n) (h : PoolReachable s) (hready : ownerAt s = .ready) :
    (∃ s', Relation.ReflTransGen (StepsIf CallsOk (Threads.step (code n m))) s s' ∧
      ∀ job ∈ s'.data.pool.log.accepted, job ∈ s'.data.pool.log.finished) ↔
      ∀ i job before k, workerAt s i ≠ .wait job before k := by
  constructor
  · rintro ⟨s', hrun, hall⟩ i job before k hw
    obtain ⟨k', hw'⟩ := job_wait_stays h hw hrun
    have hreach : PoolReachable s' := h.trans hrun
    obtain ⟨done, haccepted, hnot⟩ := (poolInv_reachable hreach).waiting_not_finished hw'
    exact hnot (hall done haccepted)
  · intro hnoWait
    obtain ⟨s', hrun, -, hall⟩ := Draining.drains hn ⟨h, hready, hnoWait⟩
    exact ⟨s', Relation.ReflTransGen.mono (fun _ _ ⟨a, hok, ha⟩ => ⟨a, hok.1, ha⟩) _ _ hrun, hall⟩

set_option maxRecDepth 20000 in
theorem jobs_can_finish_iff_run : ∃ s : PoolState 1 1, s.data.pool.queue.len = 1 ∧
    ¬ ∃ s', Relation.ReflTransGen (StepsIf CallsOk (Threads.step (code 1 1))) s s' ∧
      ∀ job ∈ s'.data.pool.log.accepted, job ∈ s'.data.pool.log.finished := by
  obtain ⟨s, hs, hp⟩ := poolReachable_of_run addThenWait
    (fun s => s.data.pool.queue.len == 1 && ownerAt s == .ready &&
      workerAt s 0 == .wait 7 [0, 1] .cond) (by decide)
  rw [Bool.and_eq_true, Bool.and_eq_true, beq_iff_eq, beq_iff_eq, beq_iff_eq] at hp
  obtain ⟨⟨hlen, hready⟩, hw⟩ := hp
  refine ⟨s, hlen, fun hcan => ?_⟩
  exact (jobs_can_finish_iff Nat.one_pos hs hready).1 hcan 0 7 [0, 1] .cond hw

end CPlayground.Thpool
