import CPlayground.Thpool.Costs
import CPlayground.Thpool.Deadlock

set_option autoImplicit false

/-! # The end of a pool

`thpool_destroy` waits until the workers have left `thread_do`, and posts the semaphore again and
again so that each of them wakes up. When a worker sleeps although the token is there, somebody is
about to take it or to wake a worker (`Heard`), so each post sends one worker home. That makes a
measure (`ending`), and with it a run to the end of `thpool_destroy` from every state, unless a job
waits for its own pool (`destroy_can_finish_iff`).
-/

namespace CPlayground.Thpool

open Threads

variable {n m : Nat} {s s' : PoolState n m}

/-! ## A token that is there is taken -/

theorem PostPc.holds_of_wake {k : PostPc} (h : k.duty = .wake) : k.holds .bsemMutex = true := by
  cases k with
  | signal => rfl
  | lock | set | unlock => cases h

/-- A thread that is about to signal holds the mutex of the semaphore. -/
theorem holds_of_wake {t : Tid n m} {pc : Pc t} (h : duty t pc = .wake) :
    holds t pc .bsemMutex = true := by
  have hpush : ∀ k : PushPc, k.duty = .wake → k.holds .bsemMutex = true := by
    intro k hk
    cases k with
    | post id k => exact PostPc.holds_of_wake hk
    | _ => cases hk
  have hpull : ∀ k : PullPc, k.duty = .wake → k.holds .bsemMutex = true := by
    intro k hk
    cases k with
    | post job k => exact PostPc.holds_of_wake hk
    | _ => cases hk
  cases t with
  | worker i =>
      cases pc with
      | pull k => exact hpull k h
      | push job k => exact hpush k h
      | _ => cases h
  | client c =>
      cases pc with
      | push k => exact hpush k h
      | _ => cases h
  | owner =>
      cases pc with
      | pull k => exact hpull k h
      | postAll late k => exact PostPc.holds_of_wake h
      | _ => cases h

/-- The worker has seen that `v` may have changed, and looks at it or takes it. -/
def Looks (s : PoolState n m) (i : Fin n) : Prop :=
  workerAt s i = .semCond ∧ s.sleep (.worker i) = .woken ∨ workerAt s i = .semTest ∨
    workerAt s i = .semTake

/-- When the token is there and a worker sleeps, or is about to, some thread is about to signal,
or some worker looks. -/
def Heard (s : PoolState n m) : Prop :=
  s.data.pool.v = 1 → (∃ i, workerAt s i = .semCond ∧ s.sleep (.worker i) ≠ .woken) →
    (∃ t, duty t (s.pc t) = .wake) ∨ ∃ i, Looks s i

/-- Only a step that sets `v` brings the token back, and a signal follows. -/
theorem posted_of_effect {t : Tid n m} {choice : Choice} {next : Pc t} {d' : Mem}
    (he : (code n m t (s.pc t)).effect s.data choice = some (d', next))
    (hone : d'.pool.v = 1) :
    s.data.pool.v = 1 ∨ duty t (s.pc t) = .post ∧ duty t next = .wake := by
  cases t with
  | worker i =>
      by_cases hpc : workerAt s i = .aliveTest
      · have he' : (workerCode i (workerAt s i)).effect s.data choice = some (d', next) := he
        rw [hpc] at he'
        obtain ⟨rfl, -⟩ := branch_effect he'
        exact .inl hone
      · exact (worker_token (fun h => absurd h hpc) he).posted hone
  | client c => exact (client_token he).posted hone
  | owner => exact (owner_token he).posted hone

/-- Whoever looks goes on looking while the token is there. -/
theorem looks_effect {i : Fin n} {choice : Choice} {d d' : Mem} {pc next : WorkerPc}
    (hpc : pc = .semCond ∨ pc = .semTest ∨ pc = .semTake) (hone : d.pool.v = 1)
    (he : (workerCode i pc).effect d choice = some (d', next)) (hone' : d'.pool.v = 1) :
    next = .semTest ∨ next = .semTake := by
  rcases hpc with rfl | rfl | rfl
  · cases he
    exact .inl rfl
  · obtain ⟨-, ⟨htest, -⟩ | ⟨-, rfl⟩⟩ := branch_effect he
    · simp [hone] at htest
    · exact .inr rfl
  · cases he
    cases hone'

section Step

variable {t : Tid n m} {choice : Choice} {wakes : Tid n m → Bool}

/-- A worker that sleeps, or is about to, did so before the step of another thread. -/
theorem asleep_before (hrun : Runs (code n m) s t choice wakes s') {i : Fin n}
    (hi : Tid.worker i ≠ t) (hnot : s'.sleep (.worker i) ≠ .woken) :
    s.sleep (.worker i) ≠ .woken := by
  rcases hrun.sleep_of_ne hi with hsame | ⟨c, -, hwoken, -⟩
  · rwa [hsame] at hnot
  · exact absurd hwoken hnot

/-- Whoever looks does so after the step of another thread. -/
theorem Looks.other {next : Pc t} (hrun : Runs (code n m) s t choice wakes s')
    (hp : s'.pc = Function.update s.pc t next) {j : Fin n} (hj : Tid.worker j ≠ t)
    (h : Looks s j) : Looks s' j := by
  unfold Looks
  rw [workerAt_other hp hj]
  rcases h with ⟨hpc, hwoken⟩ | hpc
  · refine .inl ⟨hpc, ?_⟩
    rcases hrun.sleep_of_ne hj with hsame | ⟨c, hblocked, -⟩
    · rwa [hsame]
    · rw [hwoken] at hblocked
      cases hblocked
  · exact .inr hpc

/-- The signal is given: a worker wakes up, since one is asleep. -/
theorem heard_signal (hinv : PoolInv s) (hrun : Runs (code n m) s t choice wakes s')
    {next : Pc t} (hp : s'.pc = Function.update s.pc t next) (hwake : duty t (s.pc t) = .wake)
    {i : Fin n} (hi : Tid.worker i ≠ t) (hpc : workerAt s i = .semCond)
    (hnot : s'.sleep (.worker i) ≠ .woken) : ∃ j, Looks s' j := by
  have hwaits : ∀ c, waitsFor t (s.pc t) ≠ some c := by
    intro c hc
    rw [duty_of_waitsFor hc] at hwake
    cases hwake
  have hbefore := asleep_before hrun hi hnot
  -- at the wait the worker would hold the mutex, and so does the thread that signals
  have hasleep : s.sleep (.worker i) = .blocked .hasJob := by
    by_cases hawake : s.sleep (.worker i) = .awake
    · have hholds : WorkerPc.holds (workerAt s i) .bsemMutex = true := by
        rw [hpc]
        rfl
      have hworker : s.Holding (code n m) holds (.worker i) .bsemMutex := ⟨hholds, .inl hawake⟩
      exact absurd (hinv.locked.exclusive hworker
        (holding_of_not_wait (holds_of_wake hwake) hwaits)) hi
    · obtain ⟨c, mutex, next, hw, hsleep⟩ := hinv.locked.asleep (.worker i) hawake
      have hc := waitsFor_of_wait hw
      rw [show s.pc (.worker i) = WorkerPc.semCond from hpc] at hc
      cases hc
      exact hsleep.resolve_right hbefore
  obtain ⟨next', hsignal⟩ := signal_of_wake hwake
  rcases hrun.signalled hsignal with hnone | ⟨u, hblocked, hwoken⟩
  · rcases hrun.sleep_of_ne hi with hsame | ⟨c, -, hwoken, -⟩
    · exact absurd (hsame.trans hasleep) (hnone _)
    · exact absurd hwoken hnot
  · obtain ⟨c, mutex, next'', hw, hsleep⟩ := hinv.locked.asleep u (by simp [hblocked])
    have hc : c = .hasJob := by
      rw [hblocked] at hsleep
      rcases hsleep with hc | hc <;> cases hc
      rfl
    subst hc
    have hwait := waitsFor_of_wait hw
    obtain ⟨j, rfl⟩ := worker_of_waitsFor hwait
    have hj : Tid.worker j ≠ t := by
      rintro rfl
      exact hwaits _ hwait
    refine ⟨j, .inl ⟨?_, hwoken⟩⟩
    rw [workerAt_other hp hj]
    exact semCond_of_waitsFor hwait

theorem Heard.step {a : Action (Tid n m) Choice} (h : Heard s) (hinv : PoolInv s)
    (hs : Threads.step (code n m) s a = some s') : Heard s' := by
  rintro hone ⟨i, hpc, hnot⟩
  rcases step_cases hs with ⟨t, c, -, hblocked, rfl⟩ | ⟨t, choice, wakes, -, hrun⟩
  · -- a thread wakes up for no reason
    have hi : Tid.worker i ≠ t := by
      rintro rfl
      exact hnot (Function.update_self ..)
    have hbefore : s.sleep (.worker i) ≠ .woken := by
      intro hwoken
      exact hnot ((Function.update_of_ne hi ..).trans hwoken)
    rcases h hone ⟨i, hpc, hbefore⟩ with hwake | ⟨j, hlooks⟩
    · exact .inl hwake
    · refine .inr ⟨j, hlooks.imp ?_ id⟩
      rintro ⟨hj, hwoken⟩
      refine ⟨hj, ?_⟩
      by_cases hjt : Tid.worker j = t
      · rw [← hjt]
        exact Function.update_self ..
      · exact (Function.update_of_ne hjt ..).trans hwoken
  · rcases hrun.effect with ⟨hd, hp, hasleep⟩ | ⟨next, he, hp⟩
    · -- a thread goes to sleep
      have hp' : s'.pc = Function.update s.pc t (s.pc t) := by rw [hp, Function.update_eq_self]
      obtain ⟨hawake, -, -, c, mutex, next, hw, -⟩ :=
        (hrun.sleep_self hinv.locked.at_wait).resolve_left fun hself => hasleep hself.1
      rw [hd] at hone
      have hbefore : s.sleep (.worker i) ≠ .woken := by
        by_cases hi : Tid.worker i = t
        · rw [hi, hawake]
          simp
        · exact asleep_before hrun hi hnot
      rw [workerAt, hp] at hpc
      rcases h hone ⟨i, hpc, hbefore⟩ with ⟨u, hu⟩ | ⟨j, hlooks⟩
      · exact .inl ⟨u, by rw [hp]; exact hu⟩
      · have hj : Tid.worker j ≠ t := by
          rintro rfl
          have hwait := waitsFor_of_wait hw
          rcases hlooks with ⟨-, hwoken⟩ | hj | hj
          · rw [hawake] at hwoken
            cases hwoken
          · rw [show s.pc (.worker j) = WorkerPc.semTest from hj] at hwait
            cases hwait
          · rw [show s.pc (.worker j) = WorkerPc.semTake from hj] at hwait
            cases hwait
        exact .inr ⟨j, hlooks.other hrun hp' hj⟩
    · rcases posted_of_effect he hone with hold | ⟨-, hwake⟩
      · have hi : Tid.worker i ≠ t := by
          rintro rfl
          rw [workerAt_self hp] at hpc
          subst hpc
          -- it goes to wait because it has seen no token
          exact ((worker_step he).semCond rfl).2 hold
        rw [workerAt_other hp hi] at hpc
        rcases h hold ⟨i, hpc, asleep_before hrun hi hnot⟩ with ⟨u, hu⟩ | ⟨j, hlooks⟩
        · by_cases hut : u = t
          · subst hut
            exact .inr (heard_signal hinv hrun hp hu hi hpc hnot)
          · exact .inl ⟨u, by rw [hp, Function.update_of_ne hut]; exact hu⟩
        · refine .inr ⟨j, ?_⟩
          by_cases hj : Tid.worker j = t
          · subst hj
            refine .inr ?_
            rw [workerAt_self hp]
            exact looks_effect (hlooks.imp And.left id) hold he hone
          · exact hlooks.other hrun hp hj
      · exact .inl ⟨t, by rw [hp, Function.update_self]; exact hwake⟩

end Step

theorem heard_reachable (h : PoolReachable s) : Heard s := by
  refine Reachable.invariant Heard ?_ ?_ h
  · rintro s rfl hone
    cases hone
  · rintro s s' hreach hheard hstep
    obtain ⟨a, ha⟩ := hstep.steps
    exact hheard.step (poolInv_reachable hreach) ha

/-! ## The measure

A worker that has not taken the token yet counts `N + 21` more than one that has, and the token
`N + 20` where `v` is not one: what a worker that takes it gives back pays for the next post, where
`N` is what a signal costs. -/

section Measure

variable (N : Nat)

/-- Setting `v` costs nothing here. A job that leaves the queue also pays for what becomes of the
owner's `jobqueue_pull`. -/
def endPrices : Prices := ⟨N, 0, 2 * N + 20⟩

def WorkerPc.toEnd : WorkerPc → Nat
  | .unborn => 8
  | .startLock => 7
  | .startInc => 6
  | .startUnlock => 5
  | .loop => 4
  | .semLock => N + 30
  | .semTest => N + 29
  | .semTake => N + 28
  | .semCond => N + 23
  | .semUnlock => 6
  | .aliveTest => 5
  | .workLock => N + 18
  | .workInc => N + 17
  | .workUnlock => N + 16
  | .pull k => N + 12 + k.toGo (endPrices N)
  | .call _ | .added _ _ => N + 12
  | .run _ => N + 11
  | .push _ k => N + 12 + k.toGo (endPrices N)
  | .wait _ _ _ => 1
  | .free _ => N + 10
  | .doneLock => N + 9
  | .doneDec => N + 8
  | .doneTest => N + 7
  | .doneSignal => N + 6
  | .doneUnlock => 5
  | .exitLock => 3
  | .exitDec => 2
  | .exitUnlock => 1
  | .exited => 0

def endCosts : WorkerCosts where
  now := WorkerPc.toEnd N
  woken := N + 30
  asleep_lt := by
    show N + 30 - 9 < N + 23
    omega
  call _ _ _ := rfl

/-- Inside `bsem_post_all` of the owner: with the token there it costs a signal. -/
def PostPc.allToGo (v : Nat) : PostPc → Nat
  | .lock => if v = 1 then N + 24 else 19
  | .set => if v = 1 then N + 23 else 18
  | .signal => N + 22
  | .unlock => 21

/-- Inside `jobqueue_pull` of the owner: with an empty queue no job pays for a `bsem_post`. -/
def PullPc.clearToGo (len : Nat) : PullPc → Nat
  | .lock => if len = 0 then N + 17 else 7
  | .take => if len = 0 then N + 16 else 6
  | .post _ k => 10 + k.toGo (endPrices N)
  | .unlock _ => 10

def OwnerPc.toEnd (pool : Pool) : OwnerPc → Nat
  | .total => pool.alive + 23
  | .clear => pool.total + 22
  | .loop late => pool.total + (!late).toNat + 20
  | .postAll late k => pool.total + (!late).toNat + k.allToGo N pool.v
  | .emptyTest => pool.total + 8
  | .pull k => pool.total + k.clearToGo N pool.queue.len
  | .freeJob _ => pool.total + 9
  | .reset => pool.total + 4
  | .freeSem => pool.total + 3
  | .freeThread k => pool.total - k + 2
  | .freePool => 1
  | _ => 0

/-- The owner's part, with what the token and the jobs in the queue are worth. -/
def shared (pc : OwnerPc) (pool : Pool) : Nat :=
  (if pc.final = true ∨ pool.v = 1 then 0 else N + 20) + (endPrices N).job * pool.queue.len +
    pc.toEnd N pool

variable {N} {pool : Pool} {o : OwnerPc}

theorem PostPc.allToGo_le (k : PostPc) (v v' : Nat) :
    k.allToGo N v' ≤ k.allToGo N v + N + 5 := by
  cases k <;> simp only [PostPc.allToGo] <;> first | omega | (split_ifs <;> omega)

theorem PostPc.allToGo_zero (k : PostPc) (v : Nat) : k.allToGo N 0 ≤ k.allToGo N v := by
  cases k <;> simp only [PostPc.allToGo, Nat.zero_ne_one, if_false] <;>
    first | omega | (split_ifs <;> omega)

theorem PullPc.clearToGo_le (k : PullPc) (len len' : Nat) :
    k.clearToGo N len' ≤ k.clearToGo N len + N + 10 := by
  cases k <;> simp only [PullPc.clearToGo] <;> first | omega | (split_ifs <;> omega)

theorem PullPc.clearToGo_succ (k : PullPc) (len : Nat) :
    k.clearToGo N (len + 1) ≤ k.clearToGo N len := by
  cases k <;> simp only [PullPc.clearToGo, Nat.succ_ne_zero, if_false] <;>
    first | omega | (split_ifs <;> omega)

/-- The token pays for what the owner's post costs more with it. -/
theorem shared_post : shared N o { pool with v := 1 } ≤ shared N o pool := by
  by_cases hv : pool.v = 1
  · simp [shared, OwnerPc.toEnd, hv]
  · cases o with
    | postAll late k =>
        have hall := k.allToGo_le (N := N) pool.v 1
        simp [shared, OwnerPc.toEnd, hv]
        omega
    | _ => simp [shared, OwnerPc.toEnd, hv]

theorem shared_taken : shared N o { pool with v := 0 } ≤ shared N o pool + (N + 20) := by
  cases o with
  | postAll late k =>
      have hall := k.allToGo_zero (N := N) pool.v
      by_cases hv : pool.v = 1 <;> simp [shared, OwnerPc.toEnd, hv] at hall ⊢ <;> omega
  | _ => by_cases hv : pool.v = 1 <;> simp [shared, OwnerPc.toEnd, hv] <;> omega

theorem shared_fit (ho : o ≠ .total) : (endPrices N).Fit (shared N o) where
  same hv htotal hlen := by
    unfold shared
    rw [hv, hlen]
    cases o with
    | total => exact absurd rfl ho
    | _ =>
        simp only [OwnerPc.toEnd, hv, htotal, hlen]
        exact Nat.le_refl _
  post pool := shared_post
  push := by
    intro pool pool' hv htotal hlen
    have hworth : (endPrices N).job * pool'.queue.len =
        (endPrices N).job * pool.queue.len + (endPrices N).job := by
      rw [hlen, Nat.mul_succ]
    unfold shared
    rw [hv, hworth]
    cases o with
    | total => exact absurd rfl ho
    | pull k =>
        have hclear := k.clearToGo_succ (N := N) pool.queue.len
        simp only [OwnerPc.toEnd, htotal, hlen]
        omega
    | _ =>
        simp only [OwnerPc.toEnd, hv, htotal]
        omega
  pull := by
    intro pool pool' hv htotal hlen
    have hworth : (endPrices N).job * pool.queue.len =
        (endPrices N).job * pool'.queue.len + (2 * N + 20) := by
      rw [← hlen, Nat.mul_succ]
      rfl
    unfold shared
    rw [hv, hworth]
    simp only [endPrices]
    cases o with
    | total => exact absurd rfl ho
    | pull k =>
        have hclear := k.clearToGo_le (N := N) pool.queue.len pool'.queue.len
        simp only [OwnerPc.toEnd, htotal]
        omega
    | _ =>
        simp only [OwnerPc.toEnd, hv, htotal]
        omega

variable {d d' : Mem}

/-- The step of a worker whose job goes on to its end, when `threads_keepalive` is cleared. -/
theorem worker_pays {i : Nat} {pc next : WorkerPc} (ho : o ≠ .total)
    (hwait : ∀ job before k, pc ≠ .wait job before k)
    (hkeep : pc.leaving = false → d.statics.keepalive = false)
    (he : (workerCode i pc).effect d .go = some (d', next)) :
    Pays (endPrices N) (shared N o) (workerCode i pc) d d' ((endCosts N).inside pc)
      (next.toEnd N) := by
  have hfit := shared_fit (N := N) ho
  cases pc with
  | wait job before k => exact absurd rfl (hwait job before k)
  | exited => cases he
  | unborn =>
      obtain ⟨-, he⟩ := Option.ite_none_right_eq_some.1 he
      cases he
      exact .same hfit rfl rfl rfl
        (by simp [workerCode, Instr.wakesUp, WorkerCosts.inside, endCosts, WorkerPc.toEnd])
  | loop =>
      obtain ⟨rfl, ⟨htest, -⟩ | ⟨-, rfl⟩⟩ := branch_effect he
      · rw [hkeep rfl] at htest
        cases htest
      · exact .same hfit rfl rfl rfl
          (by simp [workerCode, branch, Instr.wakesUp, WorkerCosts.inside, endCosts,
            WorkerPc.toEnd])
  | aliveTest =>
      obtain ⟨rfl, ⟨htest, -⟩ | ⟨-, rfl⟩⟩ := branch_effect he
      · rw [hkeep rfl] at htest
        cases htest
      · exact .same hfit rfl rfl rfl
          (by simp [workerCode, branch, Instr.wakesUp, WorkerCosts.inside, endCosts,
            WorkerPc.toEnd])
  | semTest | doneTest =>
      obtain ⟨rfl, ⟨-, rfl⟩ | ⟨-, rfl⟩⟩ := branch_effect he <;>
        exact .same hfit rfl rfl rfl
          (by simp [workerCode, branch, Instr.wakesUp, WorkerCosts.inside, endCosts,
            WorkerPc.toEnd])
  | semTake =>
      -- the worker gives back what it counted more, and the token is gone
      cases he
      have hle : shared N o { d.pool with v := 0 } ≤ shared N o d.pool + (N + 20) := shared_taken
      unfold Pays
      simp only [workerCode, assign, Instr.wakesUp, WorkerCosts.inside, endCosts,
        WorkerPc.toEnd] at hle ⊢
      simp
      omega
  | pull k =>
      refine pull_pays (g := WorkerPc.toEnd N) (b := N + 12) hfit (fun k => rfl) ?_ k he
      intro job
      cases job <;> simp [WorkerPc.toEnd]
  | push job k =>
      exact push_pays (g := WorkerPc.toEnd N) (b := N + 12) hfit (fun k => rfl)
        (fun id => Nat.le_refl _) k he
  | call job =>
      obtain ⟨called, -, he⟩ := Option.map_eq_some_iff.1 he
      cases he
      exact .same hfit rfl rfl rfl
        (by simp [workerCode, Instr.wakesUp, WorkerCosts.inside, endCosts, WorkerPc.toEnd])
  | free job =>
      obtain ⟨pool, hfree, he⟩ := Option.map_eq_some_iff.1 he
      cases he
      obtain ⟨done, -, hpool⟩ := Option.bind_eq_some_iff.1 hfree
      cases hpool
      exact .same hfit rfl rfl rfl
        (by simp [workerCode, Instr.wakesUp, WorkerCosts.inside, endCosts, WorkerPc.toEnd])
  | _ =>
      cases he
      exact .same hfit rfl rfl rfl
        (by simp [workerCode, assign, Instr.wakesUp, endPrices, WorkerCosts.inside, endCosts,
          WorkerPc.toEnd, PullPc.toGo] <;> omega)

/-- The owner's step. A new post waits until the last token has been taken. -/
theorem owner_pays {n : Nat} {pc next : OwnerPc} (hdestroying : pc.destroying = true)
    (htoken : pc = .loop true → d.pool.alive ≠ 0 → d.pool.v ≠ 1)
    (hreset : pc = .reset → d.pool.queue.len = 0)
    (he : (ownerCode n pc).effect d pc.urge = some (d', next)) :
    shared N next d'.pool + (if (ownerCode n pc).wakesUp then N else 0) < shared N pc d.pool := by
  unfold shared
  cases pc with
  | initHold | initKeepalive | initPool | initQueue | initThreads | spawn k | spin | failed
  | ready => cases hdestroying
  | destroyed => cases he
  | total | clear | freeSem | freePool =>
      cases he
      simp [ownerCode, assign, assignStatics, Instr.wakesUp, OwnerPc.toEnd]
  | loop late =>
      cases late with
      | false =>
          cases he
          simp [ownerCode, Instr.wakesUp, OwnerPc.toEnd]
      | true =>
          obtain ⟨rfl, ⟨htest, rfl⟩ | ⟨-, rfl⟩⟩ := branch_effect he
          · have hv := htoken rfl (by simpa using htest)
            simp [ownerCode, branch, Instr.wakesUp, OwnerPc.toEnd, PostPc.allToGo, hv]
          · simp [ownerCode, branch, Instr.wakesUp, OwnerPc.toEnd]
            omega
  | postAll late k =>
      cases k with
      | lock =>
          cases he
          by_cases hv : d.pool.v = 1 <;>
            simp [ownerCode, bsemPostAll, postWith, Instr.wakesUp, OwnerPc.toEnd,
              PostPc.allToGo, hv]
      | set =>
          cases he
          simp only [ownerCode, bsemPostAll, postWith, assign, Instr.wakesUp, OwnerPc.toEnd,
            PostPc.allToGo]
          by_cases hv : d.pool.v = 1
          · simp [hv]
          · simp [hv]
            omega
      | signal =>
          cases he
          simp [ownerCode, bsemPostAll, postWith, Instr.wakesUp, OwnerPc.toEnd, PostPc.allToGo]
          omega
      | unlock =>
          cases he
          simp [ownerCode, bsemPostAll, postWith, Instr.wakesUp, OwnerPc.toEnd, PostPc.allToGo]
  | emptyTest =>
      obtain ⟨rfl, ⟨htest, rfl⟩ | ⟨-, rfl⟩⟩ := branch_effect he
      · have hlen : d'.pool.queue.len ≠ 0 := by simpa using htest
        simp [ownerCode, branch, Instr.wakesUp, OwnerPc.toEnd, PullPc.clearToGo, hlen]
      · simp [ownerCode, branch, Instr.wakesUp, OwnerPc.toEnd]
  | pull k =>
      cases k with
      | lock =>
          cases he
          by_cases hlen : d.pool.queue.len = 0 <;>
            simp [ownerCode, jobqueuePull, Instr.wakesUp, OwnerPc.toEnd, PullPc.clearToGo, hlen]
      | take =>
          -- the job that is taken pays for the post that may follow
          obtain ⟨⟨pool, k⟩, htake, he⟩ := Option.map_eq_some_iff.1 he
          cases he
          obtain ⟨job, queue, hpull, rfl, hk⟩ := takeJob_cases htake
          have hlen := (pull_len hpull).1
          have hgo : k.clearToGo N queue.len ≤ N + 14 := by
            rcases hk with ⟨p, -, rfl⟩ | ⟨-, rfl⟩
            · simp only [PullPc.clearToGo, PostPc.toGo, endPrices]
              omega
            · simp only [PullPc.clearToGo]
              omega
          by_cases hzero : d.pool.queue.len = 0
          · simp [ownerCode, jobqueuePull, Instr.wakesUp, OwnerPc.toEnd, PullPc.clearToGo, hlen,
              hzero] at hgo ⊢
            omega
          · have hworth : (endPrices N).job * d.pool.queue.len =
                (endPrices N).job * queue.len + (2 * N + 20) := by
              rw [show d.pool.queue.len = queue.len + 1 by omega, Nat.mul_succ]
              rfl
            simp [ownerCode, jobqueuePull, Instr.wakesUp, OwnerPc.toEnd, PullPc.clearToGo,
              hzero] at hgo ⊢
            omega
      | post job k =>
          cases k with
          | signal =>
              cases he
              simp [ownerCode, jobqueuePull, bsemPost, postWith, Instr.wakesUp, OwnerPc.toEnd,
                PullPc.clearToGo, PostPc.toGo, endPrices]
              omega
          | _ =>
              cases he
              simp [ownerCode, jobqueuePull, bsemPost, postWith, assign, Instr.wakesUp,
                OwnerPc.toEnd, PullPc.clearToGo, PostPc.toGo, endPrices]
      | unlock job =>
          cases he
          simp [ownerCode, jobqueuePull, Instr.wakesUp, OwnerPc.toEnd, PullPc.clearToGo]
  | freeJob job =>
      cases job with
      | none =>
          cases he
          simp [ownerCode, Instr.wakesUp, OwnerPc.toEnd]
      | some job =>
          obtain ⟨pool, hfree, he⟩ := Option.map_eq_some_iff.1 he
          cases he
          obtain ⟨done, -, hpool⟩ := Option.bind_eq_some_iff.1 hfree
          cases hpool
          simp [ownerCode, Instr.wakesUp, OwnerPc.toEnd]
  | reset =>
      cases he
      simp [ownerCode, assign, Instr.wakesUp, OwnerPc.toEnd, hreset rfl]
  | freeThread k =>
      by_cases hmore : k < d.pool.total
      · obtain ⟨rfl, rfl⟩ : { d with pool := { d.pool with
            threads := Function.update d.pool.threads k .dangling } } = d' ∧
              OwnerPc.freeThread (k + 1) = next := by
          simpa [ownerCode, Instr.effect, hmore] using he
        simp [ownerCode, Instr.wakesUp, OwnerPc.toEnd]
        omega
      · obtain ⟨rfl, rfl⟩ : d = d' ∧ OwnerPc.freePool = next := by
          simpa [ownerCode, Instr.effect, hmore] using he
        simp [ownerCode, Instr.wakesUp, OwnerPc.toEnd]

end Measure

/-! ## Runs to the end -/

/-- What is left until the end of `thpool_destroy`, when no job and no client makes a call. -/
def ending (n m : Nat) : Measure (code n m) :=
  poolMeasure n m (endCosts (9 * Fintype.card (Tid n m))) (endPrices (9 * Fintype.card (Tid n m)))
    (shared (9 * Fintype.card (Tid n m)))

/-- `thpool_destroy` is at work, and no job waits for the pool. -/
structure Ending (s : PoolState n m) : Prop where
  reachable : PoolReachable s
  destroying : (ownerAt s).destroying = true
  noWait : ∀ i job before k, workerAt s i ≠ .wait job before k

section Step

variable {t : Tid n m} {wakes : Tid n m → Bool}

/-- What a thread pays with its own step. -/
theorem Ending.pays (h : Ending s) (hcleared : t ≠ .owner → (ownerAt s).cleared = true)
    (htoken : t = .owner → ownerAt s = .loop true → s.data.pool.alive ≠ 0 → s.data.pool.v ≠ 1)
    {d' : Mem} {next : Pc t}
    (he : (code n m t (s.pc t)).effect s.data (urge t (s.pc t)) = some (d', next)) :
    (ending n m).Pays s t d' next := by
  have hinv := poolInv_reachable h.reachable
  have hnot : t ≠ .owner → ownerAt s ≠ .total := by
    intro hne htotal
    have hc := hcleared hne
    rw [htotal] at hc
    cases hc
  cases t with
  | worker i =>
      have hkeep := (poolSteered_reachable h.reachable).cleared (hcleared (by simp)) i
      exact (worker_pays (hnot (by simp)) (h.noWait i) hkeep he).worker rfl
  | client c => exact (client_pays (shared_fit (hnot (by simp))) he).client rfl
  | owner => exact owner_pays h.destroying (htoken rfl) hinv.phases.reset he

/-- **A step towards the end lowers the measure.** -/
theorem Ending.next (h : Ending s) (hcleared : t ≠ .owner → (ownerAt s).cleared = true)
    (htoken : t = .owner → ownerAt s = .loop true → s.data.pool.alive ≠ 0 → s.data.pool.v ≠ 1)
    (hcalls : CallsOk s (.run t (urge t (s.pc t)) wakes))
    (hs : Threads.step (code n m) s (.run t (urge t (s.pc t)) wakes) = some s') :
    Ending s' ∧ (ending n m).left s' < (ending n m).left s := by
  obtain ⟨t', choice', wakes', ha, hrun⟩ := (step_cases hs).resolve_left (by
    rintro ⟨t', c, ha, -⟩
    cases ha)
  cases ha
  refine ⟨⟨h.reachable.next ⟨_, hcalls, hs⟩, destroying_after hs h.destroying, ?_⟩,
    (ending n m).lowers (poolInv_reachable h.reachable).locked hrun
      fun next he _ => h.pays hcleared htoken he⟩
  exact urged_no_wait h.noWait hs

end Step

/-- The owner waits on no condition variable. -/
theorem PoolInv.owner_awake (h : PoolInv s) (c : Cond) : s.sleep .owner ≠ .blocked c := by
  intro hblocked
  obtain ⟨c', mutex, next, hi, -⟩ := h.locked.asleep .owner (by simp [hblocked])
  cases waitsFor_of_wait hi

/-- Some thread other than the owner has something to do. -/
def Busy (s : PoolState n m) : Prop :=
  ∃ t : Tid n m, t ≠ .owner ∧ ¬ AtRest s t ∧ ∀ c, s.sleep t ≠ .blocked c

theorem Looks.busy (h : PoolInv s) {i : Fin n} (hlooks : Looks s i) : Busy s := by
  refine ⟨.worker i, by simp, ?_, ?_⟩
  · rintro (hpc | ⟨hpc, -⟩) <;> rw [Looks, hpc] at hlooks <;> simp at hlooks
  · intro c hblocked
    obtain ⟨c', mutex, next, hi, -⟩ := h.locked.asleep (.worker i) (by simp [hblocked])
    have hw := waitsFor_of_wait hi
    rcases hlooks with ⟨-, hwoken⟩ | hpc | hpc
    · rw [hblocked] at hwoken
      cases hwoken
    · rw [show s.pc (.worker i) = WorkerPc.semTest from hpc] at hw
      cases hw
    · rw [show s.pc (.worker i) = WorkerPc.semTake from hpc] at hw
      cases hw

/-- **The owner's next post finds the last token taken**, when it is the only thread at work and
a worker is left. -/
theorem Ending.token_taken (h : Ending s) (hidle : ¬ Busy s) (hloop : ownerAt s = .loop true)
    (halive : s.data.pool.alive ≠ 0) : s.data.pool.v ≠ 1 := by
  intro hone
  have hinv := poolInv_reachable h.reachable
  obtain ⟨i, hi⟩ : ∃ i, (workerAt s i).alive = true := by
    by_contra hnone
    apply halive
    rw [hinv.phases.alive, count_eq_zero]
    intro i
    simpa using fun hi => hnone ⟨i, hi⟩
  -- the worker that is left sleeps, and waits for a job
  have hsleeps : ∃ c, s.sleep (.worker i) = .blocked c := by
    by_contra hawake
    refine hidle ⟨.worker i, by simp, ?_, fun c hc => hawake ⟨c, hc⟩⟩
    rintro (hpc | ⟨hpc, -⟩) <;> rw [hpc] at hi <;> cases hi
  obtain ⟨c, hblocked⟩ := hsleeps
  have hpc : workerAt s i = .semCond := by
    obtain ⟨c', mutex, next, hw, -⟩ := hinv.locked.asleep (.worker i) (by simp [hblocked])
    have hwait := waitsFor_of_wait hw
    cases c' with
    | hasJob => exact semCond_of_waitsFor hwait
    | allIdle =>
        obtain ⟨job, before, hpc⟩ := wait_of_waitsFor hwait
        exact absurd hpc (h.noWait i job before .cond)
  rcases heard_reachable h.reachable hone ⟨i, hpc, by simp [hblocked]⟩ with ⟨t, hwake⟩ | ⟨j, hlooks⟩
  · obtain ⟨hwork, hawake⟩ := works_of_duty hinv (t := t) (by simp [hwake])
    refine hidle ⟨t, ?_, hwork, hawake⟩
    rintro rfl
    rw [show s.pc .owner = OwnerPc.loop true from hloop] at hwake
    cases hwake
  · exact hidle (hlooks.busy hinv)

/-- **The end comes nearer**: as long as the pool is there, some thread takes a step towards it. -/
theorem Ending.goes_on (h : Ending s) (hnot : ownerAt s ≠ .destroyed) :
    ∃ s', StepsIf CallsOk (Threads.step (code n m)) s s' ∧ Ending s' ∧
      (ending n m).left s' < (ending n m).left s := by
  have hinv := poolInv_reachable h.reachable
  have hdestroying := h.destroying
  have hwork : ¬ AtRest s .owner := by
    rintro (hpc | hpc | hpc)
    · rw [hpc] at hdestroying
      cases hdestroying
    · rw [hpc] at hdestroying
      cases hdestroying
    · exact hnot hpc
  have hstep : ∀ u, (u ≠ .owner → (ownerAt s).cleared = true) →
      (u = .owner → ownerAt s = .loop true → s.data.pool.alive ≠ 0 → s.data.pool.v ≠ 1) →
      CanGoOn s u →
      ∃ s', StepsIf CallsOk (Threads.step (code n m)) s s' ∧ Ending s' ∧
      (ending n m).left s' < (ending n m).left s := by
    rintro u hcleared htoken ⟨wakes, hcalls, hsome⟩
    obtain ⟨s', hs⟩ := Option.isSome_iff_exists.1 hsome
    exact ⟨s', ⟨_, hcalls, hs⟩, h.next hcleared htoken hcalls hs⟩
  -- a thread that others wait for owns a mutex
  have howns : ∀ t u : Tid n m, t ≠ u →
      Relation.ReflTransGen (s.WaitsOn (code n m)) t u → ∃ mutex, s.owner mutex = some u := by
    intro t u hne hchain
    rcases Relation.reflTransGen_iff_eq_or_transGen.1 hchain with rfl | htrans
    · exact absurd rfl hne
    · exact owner_of_waitsOn htrans
  by_cases hcleared : (ownerAt s).cleared = true
  · by_cases hbusy : Busy s
    · obtain ⟨t, ht, htwork, htawake⟩ := hbusy
      obtain ⟨u, hchain, -, hu⟩ := hinv.somebody_runs htwork htawake
      refine hstep u (fun _ => hcleared) ?_ hu
      rintro rfl hloop
      -- at the head of its loop the owner owns no mutex
      obtain ⟨mutex, hown⟩ := howns t _ ht hchain
      obtain ⟨hholds, -⟩ := (hinv.locked.owner mutex .owner).1 hown
      rw [show s.pc .owner = OwnerPc.loop true from hloop] at hholds
      cases mutex <;> cases hholds
    · obtain ⟨u, hchain, -, hu⟩ := hinv.somebody_runs hwork hinv.owner_awake
      have howner : u = .owner := by
        by_contra hne
        obtain ⟨mutex, hown⟩ := howns .owner u (Ne.symm hne) hchain
        obtain ⟨huwork, huawake⟩ := hinv.owner_works hown
        exact hbusy ⟨u, hne, huwork, huawake⟩
      exact hstep u (fun _ => hcleared) (fun _ => h.token_taken hbusy) hu
  · -- `thpool_destroy` first clears `threads_keepalive`, whatever the others do
    have hfirst : ownerAt s = .total ∨ ownerAt s = .clear := by
      cases hpc : ownerAt s with
      | total => exact .inl rfl
      | clear => exact .inr rfl
      | _ =>
          rw [hpc] at hcleared hdestroying
          exact absurd hdestroying hcleared
    refine hstep .owner (fun hne => absurd rfl hne) ?_ (hinv.canGoOn hwork hinv.owner_awake ?_)
    · rintro - hloop
      rw [hloop] at hcleared
      exact absurd rfl hcleared
    · rintro u ⟨mutex, -, hneeds⟩
      rcases hneeds with ⟨next, hi⟩ | ⟨-, c, next, hi⟩
      · rcases hfirst with hpc | hpc <;>
          rw [show s.pc .owner = (_ : OwnerPc) from hpc] at hi <;> cases hi
      · cases waitsFor_of_wait hi

/-- **`thpool_destroy` can come to its end, from every state of every run, unless a job waits for
its own pool**: then no run comes to the end. -/
theorem destroy_can_finish_iff (h : PoolReachable s) (hdestroying : (ownerAt s).destroying = true) :
    (∃ s', Relation.ReflTransGen (StepsIf CallsOk (Threads.step (code n m))) s s' ∧
      ownerAt s' = .destroyed) ↔ ∀ i job before k, workerAt s i ≠ .wait job before k := by
  constructor
  · rintro ⟨s', hrun, hdestroyed⟩ i job before k hw
    obtain ⟨k', hw'⟩ := job_wait_stays h hw hrun
    have hreach : PoolReachable s' := h.trans hrun
    have hfinal := not_final_of_wait hreach hw'
    rw [hdestroyed] at hfinal
    cases hfinal
  · intro hnoWait
    obtain ⟨s', hrun, -, hdestroyed⟩ := leads_to Ending (fun s => ownerAt s = .destroyed)
      (ending n m).left (fun s hs hnot => hs.goes_on hnot) ⟨h, hdestroying, hnoWait⟩
    exact ⟨s', hrun, hdestroyed⟩

set_option maxRecDepth 20000 in
theorem destroy_can_finish_iff_run : ∃ s : PoolState 1 1, s.data.pool.queue.len = 1 ∧
    ∃ s', Relation.ReflTransGen (StepsIf CallsOk (Threads.step (code 1 1))) s s' ∧
      ownerAt s' = .destroyed := by
  obtain ⟨s, hs, hp⟩ := poolReachable_of_run (addOne ++ times .owner 1 .destroy)
    (fun s => ownerAt s == .total && s.data.pool.queue.len == 1 && workerAt s 0 == .loop)
    (by decide)
  rw [Bool.and_eq_true, Bool.and_eq_true, beq_iff_eq, beq_iff_eq, beq_iff_eq] at hp
  obtain ⟨⟨htotal, hlen⟩, hloop⟩ := hp
  refine ⟨s, hlen, (destroy_can_finish_iff hs (by rw [htotal]; rfl)).2 ?_⟩
  intro i job before k hw
  have hi : i = 0 := Fin.ext (Nat.lt_one_iff.1 i.isLt)
  subst hi
  rw [hloop] at hw
  cases hw

end CPlayground.Thpool
