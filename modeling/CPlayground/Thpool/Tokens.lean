import CPlayground.Thpool.Invariant

set_option autoImplicit false

/-! # No stranded job

The semaphore holds one token, however many jobs there are. What keeps a queued job from being
forgotten is a duty that is handed on: a thread that has taken the token, or has changed the
queue and not yet posted, owes the semaphore a post (`Duty`), and gives the duty up only by
posting, or at an empty queue (`TokenStep`). A posted token is noticed: the post wakes a worker,
or finds that not all of them are asleep (`Tokens`).
-/

namespace CPlayground.Thpool

open Threads

/-! ## Duties -/

/-- What a thread owes the semaphore: to see to the jobs that are queued, as its next step to
set `v`, or to signal. -/
inductive Duty
  | none
  | carry
  | post
  | wake
  deriving DecidableEq, Repr

@[simp] def Duty.owes : Duty → Bool
  | .carry | .post => true
  | .none | .wake => false

def PostPc.duty : PostPc → Duty
  | .lock => .carry
  | .set => .post
  | .signal => .wake
  | .unlock => .none

def PushPc.duty : PushPc → Duty
  | .post _ k => k.duty
  | _ => .none

def PullPc.duty : PullPc → Duty
  | .lock | .take => .carry
  | .post _ k => k.duty
  | .unlock _ => .none

/-- A worker carries the token from `bsem_wait` to `jobqueue_pull`. -/
@[simp] def WorkerPc.hasToken : WorkerPc → Bool
  | .semUnlock | .aliveTest | .workLock | .workInc | .workUnlock => true
  | _ => false

def WorkerPc.duty : WorkerPc → Duty
  | .semUnlock | .aliveTest | .workLock | .workInc | .workUnlock => .carry
  | .pull k => k.duty
  | .push _ k => k.duty
  | _ => .none

def ClientPc.duty : ClientPc → Duty
  | .push k => k.duty
  | _ => .none

def OwnerPc.duty : OwnerPc → Duty
  | .postAll _ k => k.duty
  | .pull k => k.duty
  | _ => .none

def duty {n m : Nat} : (t : Tid n m) → Pc t → Duty
  | .worker _, pc => WorkerPc.duty pc
  | .client _, pc => ClientPc.duty pc
  | .owner, pc => OwnerPc.duty pc

/-! ## What a step does to a duty -/

/-- A duty that is given up has been discharged, and `v` becomes one only where a signal
follows. -/
structure TokenStep (d d' : Mem) (now next : Duty) : Prop where
  owed : 0 < d'.pool.queue.len → d'.pool.v = 1 ∨ next.owes = true ∨
    now.owes = false ∧ d'.pool.v = d.pool.v ∧ 0 < d.pool.queue.len
  posted : d'.pool.v = 1 → d.pool.v = 1 ∨ now = .post ∧ next = .wake

section Procedures

variable {P : Type} {d d' : Mem} {choice : Choice} {next : P} {g : P → Duty}

/-- A step that changes neither the length nor `v`. -/
theorem TokenStep.same {now next : Duty} (hv : d'.pool.v = d.pool.v)
    (hlen : d'.pool.queue.len = d.pool.queue.len) (h : next.owes = true ∨ now.owes = false) :
    TokenStep d d' now next := by
  constructor
  · intro hpos
    rcases h with hnext | hnow
    · exact .inr (.inl hnext)
    · exact .inr (.inr ⟨hnow, hv, hlen ▸ hpos⟩)
  · intro hone
    exact .inl (hv ▸ hone)

/-- A step that empties the queue. -/
theorem TokenStep.emptied {now next : Duty} (hlen : d'.pool.queue.len = 0)
    (hv : d'.pool.v = 1 → d.pool.v = 1) : TokenStep d d' now next :=
  ⟨fun hpos => absurd hpos (by omega), fun hone => .inl (hv hone)⟩

theorem post_token {wakeUp : P → PoolInstr P} {pt : PostPc → P} {ret : P}
    (hwake : ∀ p d ch, (wakeUp p).effect d ch = some (d, p)) (hpt : ∀ k, g (pt k) = k.duty)
    (hret : g ret = .none) (k : PostPc)
    (h : (postWith wakeUp pt ret k).effect d choice = some (d', next)) :
    TokenStep d d' (g (pt k)) (g next) := by
  cases k with
  | lock =>
      cases h
      rw [hpt, hpt]
      exact .same rfl rfl (.inl rfl)
  | set =>
      cases h
      rw [hpt, hpt]
      exact ⟨fun _ => .inl rfl, fun _ => .inr ⟨rfl, rfl⟩⟩
  | signal =>
      rw [postWith, hwake] at h
      cases h
      rw [hpt, hpt]
      exact .same rfl rfl (.inr rfl)
  | unlock =>
      cases h
      rw [hpt, hret]
      exact .same rfl rfl (.inr rfl)

theorem push_token {pt : PushPc → P} {ret : Nat → P} (hpt : ∀ k, g (pt k) = k.duty)
    (hret : ∀ id, g (ret id) = .none) (k : PushPc)
    (h : (jobqueuePush pt ret k).effect d choice = some (d', next)) :
    TokenStep d d' (g (pt k)) (g next) := by
  cases k with
  | lock job =>
      cases h
      rw [hpt, hpt]
      exact .same rfl rfl (.inr rfl)
  | link job =>
      obtain ⟨⟨pool, id⟩, hlink, he⟩ := Option.map_eq_some_iff.1 h
      cases he
      obtain ⟨queue, -, hlink⟩ := Option.bind_eq_some_iff.1 hlink
      obtain ⟨new, -, hlink⟩ := Option.bind_eq_some_iff.1 hlink
      cases hlink
      rw [hpt, hpt]
      -- the job is linked, and the duty to post begins
      exact ⟨fun _ => .inr (.inl rfl), fun hone => .inl hone⟩
  | post id k =>
      rw [jobqueuePush] at h
      refine post_token ?_ ?_ ?_ k h
      · exact fun p d ch => rfl
      · exact fun k => hpt (.post id k)
      · exact hpt (.unlock id)
  | unlock id =>
      cases h
      rw [hpt, hret]
      exact .same rfl rfl (.inr rfl)

theorem pull_token {pt : PullPc → P} {ret : Option Ptr → P} (hpt : ∀ k, g (pt k) = k.duty)
    (hret : ∀ job, g (ret job) = .none) (k : PullPc)
    (h : (jobqueuePull pt ret k).effect d choice = some (d', next)) :
    TokenStep d d' (g (pt k)) (g next) := by
  cases k with
  | lock =>
      cases h
      rw [hpt, hpt]
      exact .same rfl rfl (.inl rfl)
  | take =>
      obtain ⟨⟨pool, k⟩, htake, he⟩ := Option.map_eq_some_iff.1 h
      cases he
      rw [hpt, hpt]
      -- jobs remain and `bsem_post` follows, or the queue is empty
      obtain ⟨job, queue, -, rfl, ⟨p, -, rfl⟩ | ⟨hzero, rfl⟩⟩ := takeJob_cases htake
      · exact ⟨fun _ => .inr (.inl rfl), fun hone => .inl hone⟩
      · exact .emptied hzero fun hone => hone
  | post job k =>
      rw [jobqueuePull] at h
      refine post_token ?_ ?_ ?_ k h
      · exact fun p d ch => rfl
      · exact fun k => hpt (.post job k)
      · exact hpt (.unlock (some job))
  | unlock job =>
      cases h
      rw [hpt, hret]
      exact .same rfl rfl (.inr rfl)

theorem addWork_token {parent : Option Nat} {pt : PushPc → P} {fail : P}
    (hpt : ∀ job, g (pt (.lock job)) = .none) (hfail : g fail = .none)
    (h : addWork parent pt fail d choice = some (d', next)) : TokenStep d d' .none (g next) := by
  cases choice with
  | addWork job function args =>
      cases job with
      | none =>
          cases h
          rw [hfail]
          exact .same rfl rfl (.inr rfl)
      | some job =>
          simp only [addWork] at h
          split_ifs at h with hfree
          cases h
          rw [hpt]
          exact .same rfl rfl (.inr rfl)
  | _ => cases h

end Procedures

section Threads

variable {d d' : Mem} {choice : Choice}

/-- **The duty of a worker.** It would be dropped where `threads_keepalive` is found cleared. -/
theorem worker_token {i : Nat} {pc next : WorkerPc}
    (halive : pc = .aliveTest → d.statics.keepalive = true)
    (h : (workerCode i pc).effect d choice = some (d', next)) :
    TokenStep d d' pc.duty next.duty := by
  cases pc with
  | pull k =>
      rw [workerCode] at h
      refine pull_token ?_ ?_ k h
      · exact fun k => rfl
      · intro job
        cases job <;> rfl
  | push job k =>
      rw [workerCode] at h
      refine push_token ?_ ?_ k h
      · exact fun k => rfl
      · exact fun id => rfl
  | run job =>
      rcases run_effect h with ⟨rfl, rfl | rfl⟩ | h
      · exact .same rfl rfl (.inr rfl)
      · exact .same rfl rfl (.inr rfl)
      · refine addWork_token ?_ ?_ h
        · exact fun job => rfl
        · rfl
  | wait job before k =>
      rw [workerCode] at h
      obtain ⟨rfl, ⟨k, rfl, -⟩ | rfl⟩ := wait_effect k h <;> exact .same rfl rfl (.inr rfl)
  | aliveTest =>
      rw [workerCode] at h
      obtain ⟨rfl, ⟨-, rfl⟩ | ⟨hdead, -⟩⟩ := branch_effect h
      · exact .same rfl rfl (.inl rfl)
      -- the worker would leave with the token: excluded, the flag is set
      · rw [halive rfl] at hdead
        cases hdead
  | loop | semTest | doneTest =>
      rw [workerCode] at h
      obtain ⟨rfl, ⟨-, rfl⟩ | ⟨-, rfl⟩⟩ := branch_effect h <;> exact .same rfl rfl (.inr rfl)
  | semTake =>
      cases h
      -- `v` is cleared, and the worker carries the token
      exact ⟨fun _ => .inr (.inl rfl), fun hone => absurd hone (Nat.zero_ne_one)⟩
  | unborn =>
      simp only [workerCode, Instr.effect, Option.ite_none_right_eq_some] at h
      cases h.2
      exact .same rfl rfl (.inr rfl)
  | call job =>
      obtain ⟨called, -, he⟩ := Option.map_eq_some_iff.1 h
      cases he
      exact .same rfl rfl (.inr rfl)
  | free job =>
      obtain ⟨pool, hfree, he⟩ := Option.map_eq_some_iff.1 h
      cases he
      obtain ⟨done, -, rfl⟩ := freeNode_cases hfree
      exact .same rfl rfl (.inr rfl)
  | semUnlock | workLock | workInc | workUnlock =>
      cases h
      exact .same rfl rfl (.inl rfl)
  | exited => cases h
  | _ =>
      cases h
      exact .same rfl rfl (.inr rfl)

theorem client_token {pc next : ClientPc}
    (h : (clientCode pc).effect d choice = some (d', next)) :
    TokenStep d d' pc.duty next.duty := by
  cases pc with
  | idle =>
      rcases idle_effect h with ⟨rfl, rfl⟩ | h
      · exact .same rfl rfl (.inr rfl)
      · refine addWork_token ?_ ?_ h
        · exact fun job => rfl
        · rfl
  | push k =>
      rw [clientCode] at h
      refine push_token ?_ ?_ k h
      · exact fun k => rfl
      · exact fun id => rfl
  | added id =>
      cases h
      exact .same rfl rfl (.inr rfl)
  | wait before k =>
      rw [clientCode] at h
      obtain ⟨rfl, ⟨k, rfl, -⟩ | rfl⟩ := wait_effect k h <;> exact .same rfl rfl (.inr rfl)

theorem owner_token {n : Nat} {pc next : OwnerPc}
    (h : (ownerCode n pc).effect d choice = some (d', next)) :
    TokenStep d d' pc.duty next.duty := by
  cases pc with
  | pull k =>
      rw [ownerCode] at h
      refine pull_token ?_ ?_ k h
      · exact fun k => rfl
      · exact fun job => rfl
  | postAll late k =>
      rw [ownerCode] at h
      refine post_token ?_ ?_ ?_ k h
      · exact fun p d ch => rfl
      · exact fun k => rfl
      · rfl
  | freeJob job =>
      cases job with
      | none =>
          cases h
          exact .same rfl rfl (.inr rfl)
      | some job =>
          obtain ⟨pool, hfree, he⟩ := Option.map_eq_some_iff.1 h
          cases he
          obtain ⟨done, -, rfl⟩ := freeNode_cases hfree
          exact .same rfl rfl (.inr rfl)
  | initQueue =>
      rw [ownerCode] at h
      obtain ⟨rfl, rfl⟩ | ⟨rfl, rfl⟩ := alloc_effect h
      · exact .emptied rfl fun hone => absurd hone Nat.zero_ne_one
      · exact .same rfl rfl (.inr rfl)
  | initPool | initThreads =>
      rw [ownerCode] at h
      obtain ⟨rfl, rfl⟩ | ⟨rfl, rfl⟩ := alloc_effect h <;> exact .same rfl rfl (.inr rfl)
  | spin | emptyTest =>
      rw [ownerCode] at h
      obtain ⟨rfl, ⟨-, rfl⟩ | ⟨-, rfl⟩⟩ := branch_effect h <;> exact .same rfl rfl (.inr rfl)
  | loop late =>
      cases late with
      | true =>
          rw [ownerCode] at h
          obtain ⟨rfl, ⟨-, rfl⟩ | ⟨-, rfl⟩⟩ := branch_effect h <;> exact .same rfl rfl (.inr rfl)
      | false =>
          cases choice with
          | clock timeUp =>
              cases h
              cases timeUp || d.pool.alive == 0 <;> exact .same rfl rfl (.inr rfl)
          | _ => cases h
  | spawn k =>
      simp only [ownerCode, Instr.effect] at h
      split at h
      · cases choice with
        | threadInit outcome =>
            cases h
            exact .same rfl rfl (.inr rfl)
        | _ => cases h
      · cases h
        exact .same rfl rfl (.inr rfl)
  | ready =>
      simp only [ownerCode, Instr.effect, Option.ite_none_right_eq_some] at h
      cases h.2
      exact .same rfl rfl (.inr rfl)
  | freeThread k =>
      simp only [ownerCode, Instr.effect] at h
      split at h <;> cases h <;> exact .same rfl rfl (.inr rfl)
  | reset =>
      cases h
      exact .emptied rfl fun hone => absurd hone Nat.zero_ne_one
  | failed | destroyed => cases h
  | _ =>
      cases h
      exact .same rfl rfl (.inr rfl)

end Threads

/-! ## The instructions of a duty -/

section Instructions

variable {P : Type}

theorem PostPc.holds_of_post {k : PostPc} (h : k.duty = .post) : k.holds .bsemMutex = true := by
  cases k with
  | set => rfl
  | _ => cases h

theorem PushPc.holds_of_post {k : PushPc} (h : k.duty = .post) : k.holds .bsemMutex = true := by
  cases k with
  | post id k => rw [PushPc.holds, PostPc.holds_of_post h, Bool.or_true]
  | _ => cases h

theorem PullPc.holds_of_post {k : PullPc} (h : k.duty = .post) : k.holds .bsemMutex = true := by
  cases k with
  | post job k => rw [PullPc.holds, PostPc.holds_of_post h, Bool.or_true]
  | _ => cases h

theorem postWith_wake {wakeUp : P → PoolInstr P} {pt : PostPc → P} {ret : P} {k : PostPc}
    (h : k.duty = .wake) : postWith wakeUp pt ret k = wakeUp (pt .unlock) := by
  cases k with
  | signal => rfl
  | _ => cases h

theorem push_wake {pt : PushPc → P} {ret : Nat → P} {k : PushPc} (h : k.duty = .wake) :
    ∃ next, jobqueuePush pt ret k = .signal .hasJob next := by
  cases k with
  | post id k =>
      rw [jobqueuePush, bsemPost, postWith_wake h]
      exact ⟨_, rfl⟩
  | _ => cases h

theorem pull_wake {pt : PullPc → P} {ret : Option Ptr → P} {k : PullPc} (h : k.duty = .wake) :
    ∃ next, jobqueuePull pt ret k = .signal .hasJob next := by
  cases k with
  | post job k =>
      rw [jobqueuePull, bsemPost, postWith_wake h]
      exact ⟨_, rfl⟩
  | _ => cases h

end Instructions

section Duties

variable {n m : Nat} {t : Tid n m} {pc : Pc t}

/-- A thread that is about to set `v` holds the mutex of the semaphore. -/
theorem holds_of_post (h : duty t pc = .post) : holds t pc .bsemMutex = true := by
  cases t with
  | worker i =>
      cases pc with
      | pull k => exact PullPc.holds_of_post h
      | push job k => exact PushPc.holds_of_post h
      | _ => cases h
  | client b =>
      cases pc with
      | push k => exact PushPc.holds_of_post h
      | _ => cases h
  | owner =>
      cases pc with
      | pull k => exact PullPc.holds_of_post h
      | postAll late k => exact PostPc.holds_of_post h
      | _ => cases h

/-- A thread that is about to signal does so. -/
theorem signal_of_wake (h : duty t pc = .wake) :
    ∃ next, code n m t pc = .signal .hasJob next ∨ code n m t pc = .broadcast .hasJob next := by
  cases t with
  | worker i =>
      cases pc with
      | pull k => exact (pull_wake h).imp fun _ he => .inl he
      | push job k => exact (push_wake h).imp fun _ he => .inl he
      | _ => cases h
  | client b =>
      cases pc with
      | push k => exact (push_wake h).imp fun _ he => .inl he
      | _ => cases h
  | owner =>
      cases pc with
      | pull k => exact (pull_wake h).imp fun _ he => .inl he
      | postAll late k => exact ⟨_, .inr (postWith_wake h)⟩
      | _ => cases h

/-- A thread inside a wait owes nothing. -/
theorem duty_of_waitsFor {c : Cond} (h : waitsFor t pc = some c) : duty t pc = .none := by
  cases t with
  | worker i =>
      cases pc with
      | semCond => rfl
      | wait job before k => rfl
      | _ => cases h
  | client b =>
      cases pc with
      | wait before k => rfl
      | _ => cases h
  | owner => cases h

end Duties

/-! ## The invariant -/

section Pools

variable {n m : Nat} {s s' : PoolState n m} {a : Action (Tid n m) Choice}

/-- What keeps the jobs of a pool from being forgotten: with jobs in the queue the token is
there, or some thread owes one; a worker goes to sleep only when it is not there; and when it
is there, some worker is not asleep or is about to be woken. -/
structure Tokens (s : PoolState n m) : Prop where
  owed : 0 < s.data.pool.queue.len →
    s.data.pool.v = 1 ∨ ∃ t, (duty t (s.pc t)).owes = true
  absent : ∀ i, workerAt s i = .semCond → s.sleep (.worker i) = .awake → s.data.pool.v ≠ 1
  noticed : s.data.pool.v = 1 → (∃ i, s.sleep (.worker i) ≠ .blocked .hasJob) ∨
    ∃ t, duty t (s.pc t) = .wake

theorem tokens_init : Tokens (initState n m) where
  owed h := absurd h (Nat.lt_irrefl 0)
  absent i h := by cases h
  noticed h := absurd h Nat.zero_ne_one

/-- The flags are not part of the invariant. -/
theorem Tokens.congr (h : Tokens s) (hd : s'.data.pool = s.data.pool) (hp : s'.pc = s.pc)
    (hsl : s'.sleep = s.sleep) : Tokens s' := by
  obtain ⟨h1, h2, h3⟩ := h
  constructor <;> simp only [workerAt, hd, hp, hsl] <;> assumption

/-- The step of a thread, when the flag is set. -/
theorem token_step {t : Tid n m} {choice : Choice} {next : Pc t}
    (halive : ∀ i, workerAt s i = .aliveTest → s.data.statics.keepalive = true) {d' : Mem}
    (he : (code n m t (s.pc t)).effect s.data choice = some (d', next)) :
    TokenStep s.data d' (duty t (s.pc t)) (duty t next) := by
  cases t with
  | worker i => exact worker_token (halive i) he
  | client c => exact client_token he
  | owner => exact owner_token he

theorem Tokens.owed_step (h : Tokens s)
    (halive : ∀ i, workerAt s i = .aliveTest → s.data.statics.keepalive = true)
    (hs : step (code n m) s a = some s') (hpos : 0 < s'.data.pool.queue.len) :
    s'.data.pool.v = 1 ∨ ∃ t, (duty t (s'.pc t)).owes = true := by
  rcases step_effect hs with ⟨hd, hp⟩ | ⟨t, choice, wakes, next, rfl, he, hp⟩
  · rw [hd] at hpos ⊢
    rw [hp]
    exact h.owed hpos
  · rcases (token_step halive he).owed hpos with hone | hnext | ⟨hnow, hv, hlen⟩
    · exact .inl hone
    · exact .inr ⟨t, by rw [hp, Function.update_self]; exact hnext⟩
    · -- the duty was with another thread, which has not moved
      rw [hv]
      refine (h.owed hlen).imp id ?_
      rintro ⟨u, hu⟩
      have hne : u ≠ t := by
        rintro rfl
        rw [hnow] at hu
        cases hu
      exact ⟨u, by rw [hp, Function.update_of_ne hne]; exact hu⟩

theorem Tokens.absent_step (h : Tokens s) (hinv : PoolInv s)
    (halive : ∀ i, workerAt s i = .aliveTest → s.data.statics.keepalive = true)
    (hs : step (code n m) s a = some s') (i : Fin n) (hpc : workerAt s' i = .semCond)
    (hawake : s'.sleep (.worker i) = .awake) : s'.data.pool.v ≠ 1 := by
  intro hone
  rcases step_cases hs with ⟨t, c, -, -, rfl⟩ | ⟨t, choice, wakes, -, hrun⟩
  · have hne : Tid.worker i ≠ t := by
      rintro rfl
      simp at hawake
    have hbefore : s.sleep (.worker i) = .awake := by
      simpa [Function.update_of_ne hne] using hawake
    exact h.absent i hpc hbefore hone
  · by_cases ht : t = .worker i
    · subst ht
      rcases hrun.effect with ⟨-, -, hasleep⟩ | ⟨next, he, hp⟩
      · exact hasleep hawake
      · rw [workerAt_self hp] at hpc
        rw [hpc] at he
        -- it goes to wait because it has seen no token
        obtain ⟨hd, hzero⟩ := (worker_step he).semCond rfl
        rw [hd] at hone
        exact hzero hone
    · have hbefore := hrun.awake_of_ne (Ne.symm ht) hawake
      rcases hrun.effect with ⟨hd, hp, -⟩ | ⟨next, he, hp⟩
      · rw [workerAt, hp] at hpc
        rw [hd] at hone
        exact h.absent i hpc hbefore hone
      · rw [workerAt_other hp (Ne.symm ht)] at hpc
        rcases (token_step halive he).posted hone with hold | ⟨hpost, -⟩
        · exact h.absent i hpc hbefore hold
        · -- the thread that sets `v` holds the mutex, and so does the worker
          have hsetter : s.Holding (code n m) holds t .bsemMutex := by
            refine holding_of_not_wait (holds_of_post hpost) fun c hw => ?_
            have hnone := duty_of_waitsFor hw
            rw [hpost] at hnone
            cases hnone
          have hholds : WorkerPc.holds (workerAt s i) .bsemMutex = true := by
            rw [hpc]
            rfl
          have hworker : s.Holding (code n m) holds (.worker i) .bsemMutex :=
            ⟨hholds, .inl hbefore⟩
          exact ht (hinv.locked.exclusive hsetter hworker)

/-- With the token there, no worker goes to sleep. -/
theorem Tokens.stays_up (h : Tokens s) (hone : s.data.pool.v = 1) {t : Tid n m}
    {choice : Choice} {wakes : Tid n m → Bool} (hrun : Runs (code n m) s t choice wakes s')
    {i : Fin n} (hi : s.sleep (.worker i) ≠ .blocked .hasJob) :
    s'.sleep (.worker i) ≠ .blocked .hasJob := by
  rcases hrun.not_blocked hi with hstill | ⟨rfl, hawake, mutex, next, hw⟩
  · exact hstill
  · exact absurd hone (h.absent i (semCond_of_waitsFor (waitsFor_of_wait hw)) hawake)

theorem Tokens.noticed_step (hn : 0 < n) (h : Tokens s) (hinv : PoolInv s)
    (halive : ∀ i, workerAt s i = .aliveTest → s.data.statics.keepalive = true)
    (hs : step (code n m) s a = some s') (hone : s'.data.pool.v = 1) :
    (∃ i, s'.sleep (.worker i) ≠ .blocked .hasJob) ∨ ∃ t, duty t (s'.pc t) = .wake := by
  rcases step_cases hs with ⟨t, c, -, -, rfl⟩ | ⟨t, choice, wakes, -, hrun⟩
  · refine (h.noticed hone).imp ?_ id
    rintro ⟨i, hi⟩
    refine ⟨i, ?_⟩
    by_cases ht : Tid.worker i = t
    · simp [ht]
    · simpa [Function.update_of_ne ht] using hi
  · rcases hrun.effect with ⟨hd, hp, -⟩ | ⟨next, he, hp⟩
    · rw [hd] at hone
      rw [hp]
      exact (h.noticed hone).imp (fun ⟨i, hi⟩ => ⟨i, h.stays_up hone hrun hi⟩) id
    · rcases (token_step halive he).posted hone with hold | ⟨-, hwake⟩
      · rcases h.noticed hold with ⟨i, hi⟩ | ⟨u, hu⟩
        · exact .inl ⟨i, h.stays_up hold hrun hi⟩
        · by_cases hut : u = t
          · -- the signal is given: a worker wakes up, or none was asleep
            subst hut
            obtain ⟨next, hi⟩ := signal_of_wake hu
            rcases hrun.signalled hi with hnone | ⟨r, hblocked, hwoken⟩
            · exact .inl ⟨⟨0, hn⟩, hnone _⟩
            -- only workers wait for `has_job`
            · obtain ⟨c, mutex, next, hw, hsleep⟩ := hinv.locked.asleep r (by simp [hblocked])
              have hc : c = .hasJob := by
                rw [hblocked] at hsleep
                rcases hsleep with hc | hc <;> cases hc
                rfl
              subst hc
              obtain ⟨i, rfl⟩ := worker_of_waitsFor (waitsFor_of_wait hw)
              exact .inl ⟨i, by simp [hwoken]⟩
          · exact .inr ⟨u, by rw [hp, Function.update_of_ne hut]; exact hu⟩
      · exact .inr ⟨t, by rw [hp, Function.update_self]; exact hwake⟩

/-- **Every step of a pool in service keeps the duties.** -/
theorem Tokens.step (hn : 0 < n) (h : Tokens s) (hinv : PoolInv s)
    (halive : ∀ i, workerAt s i = .aliveTest → s.data.statics.keepalive = true)
    (hs : step (code n m) s a = some s') : Tokens s' where
  owed := h.owed_step halive hs
  absent := h.absent_step hinv halive hs
  noticed := h.noticed_step hn hinv halive hs

/-! ## The result -/

/-- A worker of a pool that is not being destroyed finds the flag set. -/
theorem PoolInv.alive_of_serving (h : PoolInv s) (halive : KeptAlive s)
    (hserving : (ownerAt s).destroying = false) {i : Fin n} (hpc : workerAt s i ≠ .unborn) :
    s.data.statics.keepalive = true := by
  apply halive
  have hlate : (ownerAt s).early ≠ true := fun hearly => hpc ((h.phases.early hearly).1 i)
  revert hserving hlate
  unfold ownerAt
  cases (s.pc .owner : OwnerPc) <;> simp

theorem tokens_reachable (hn : 0 < n) (h : PoolReachable s) :
    (ownerAt s).destroying = false → Tokens s := by
  refine Reachable.invariant (fun s => (ownerAt s).destroying = false → Tokens s) ?_ ?_ h
  · rintro s rfl -
    exact tokens_init
  · rintro s s' hr hbefore ⟨a, -, hs⟩ hserving
    have hold := serving_before hs hserving
    refine (hbefore hold).step hn (poolInv_reachable hr) (fun i hpc => ?_) hs
    have hborn : workerAt s i ≠ .unborn := by simp [hpc]
    exact (poolInv_reachable hr).alive_of_serving (keptAlive_reachable hr) hold hborn

/-- The thread is inside `jobqueue_push` or `jobqueue_pull`. -/
def inQueue : (t : Tid n m) → Pc t → Bool
  | .worker _, pc =>
      match pc with
      | .pull _ | .push _ _ => true
      | _ => false
  | .client _, pc =>
      match pc with
      | .push _ => true
      | _ => false
  | .owner, pc =>
      match pc with
      | .pull _ => true
      | _ => false

section Quiet

variable (hserving : (ownerAt s).destroying = false)
  (hquiet : ∀ t, inQueue t (s.pc t) = false) {t : Tid n m}

include hserving hquiet

/-- Outside `jobqueue_push`, `jobqueue_pull` and `thpool_destroy` a duty is a token. -/
theorem hasToken_of_owes (howes : (duty t (s.pc t)).owes = true) :
    ∃ i, (workerAt s i).hasToken = true := by
  have hq := hquiet t
  cases t with
  | worker i =>
      refine ⟨i, ?_⟩
      revert hq howes
      unfold workerAt
      cases (s.pc (.worker i) : WorkerPc) <;> simp [duty, WorkerPc.duty, inQueue]
  | client c =>
      revert hq howes
      cases (s.pc (.client c) : ClientPc) <;> simp [duty, ClientPc.duty, inQueue]
  | owner =>
      revert hq howes hserving
      unfold ownerAt
      cases (s.pc .owner : OwnerPc) <;> simp [duty, OwnerPc.duty, inQueue]

/-- Nothing is about to be signalled to the workers. -/
theorem no_wake : duty t (s.pc t) ≠ .wake := by
  have hq := hquiet t
  cases t with
  | worker i =>
      revert hq
      cases (s.pc (.worker i) : WorkerPc) <;> simp [duty, WorkerPc.duty, inQueue]
  | client c =>
      revert hq
      cases (s.pc (.client c) : ClientPc) <;> simp [duty, ClientPc.duty, inQueue]
  | owner =>
      revert hq hserving
      unfold ownerAt
      cases (s.pc .owner : OwnerPc) <;> simp [duty, OwnerPc.duty, inQueue]

end Quiet

/-- A worker with the token is awake. -/
theorem PoolInv.awake_of_hasToken (h : PoolInv s) {i : Fin n}
    (htoken : (workerAt s i).hasToken = true) : s.sleep (.worker i) = .awake := by
  apply h.locked.awake_of
  intro c mutex next hw
  have hwait := waitsFor_of_wait hw
  revert htoken hwait
  unfold workerAt
  cases (s.pc (.worker i) : WorkerPc) <;> simp [waitsFor]

/-- What the duties come to when nobody is inside the queue. -/
theorem Tokens.not_stranded (h : Tokens s) (hinv : PoolInv s)
    (hserving : (ownerAt s).destroying = false) (hquiet : ∀ t, inQueue t (s.pc t) = false)
    (hlen : 0 < s.data.pool.queue.len) :
    (s.data.pool.v = 1 ∨ ∃ i, (workerAt s i).hasToken = true) ∧
      ∃ i, s.sleep (.worker i) ≠ .blocked .hasJob := by
  rcases h.owed hlen with hone | ⟨t, howes⟩
  · refine ⟨.inl hone, ?_⟩
    rcases h.noticed hone with hawake | ⟨t, hwake⟩
    · exact hawake
    · exact absurd hwake (no_wake hserving hquiet)
  · obtain ⟨i, htoken⟩ := hasToken_of_owes hserving hquiet howes
    refine ⟨.inr ⟨i, htoken⟩, i, ?_⟩
    rw [hinv.awake_of_hasToken htoken]
    exact fun hc => by cases hc

/-- **No stranded job.** In a pool that is not being destroyed, when there are jobs in the queue
and nobody is inside `jobqueue_push` or `jobqueue_pull`, the token is there or a worker carries
it to `jobqueue_pull`; and some worker is not asleep, or has been woken. -/
theorem no_stranded_job (hn : 0 < n) (h : PoolReachable s)
    (hserving : (ownerAt s).destroying = false) (hquiet : ∀ t, inQueue t (s.pc t) = false)
    (hlen : 0 < s.data.pool.queue.len) :
    (s.data.pool.v = 1 ∨ ∃ i, (workerAt s i).hasToken = true) ∧
      ∃ i, s.sleep (.worker i) ≠ .blocked .hasJob :=
  (tokens_reachable hn h hserving).not_stranded (poolInv_reachable h) hserving hquiet hlen

end Pools

/-- A client has added a job that no worker has seen yet. -/
def addOne : List (Action (Tid 1 1) Choice) :=
  startUp 1 1 ++ times (.client 0) 1 (.addWork (some 7) 1 2) ++ times (.client 0) 8 .go

set_option maxRecDepth 20000 in
theorem no_stranded_job_run : ∃ s : PoolState 1 1, s.data.pool.queue.len = 1 ∧
    (s.data.pool.v = 1 ∨ ∃ i, (workerAt s i).hasToken = true) ∧
    ∃ i, s.sleep (.worker i) ≠ .blocked .hasJob := by
  obtain ⟨s, hs, hp⟩ := poolReachable_of_run addOne
    (fun s => s.data.pool.queue.len == 1 && (!(ownerAt s).destroying &&
      decide (∀ t, inQueue t (s.pc t) = false))) (by decide)
  rw [Bool.and_eq_true, Bool.and_eq_true, beq_iff_eq, decide_eq_true_iff,
    Bool.not_eq_true'] at hp
  exact ⟨s, hp.1, no_stranded_job Nat.one_pos hs hp.2.1 hp.2.2 (by rw [hp.1]; exact Nat.one_pos)⟩

end CPlayground.Thpool
