import CPlayground.Thpool.Steered

set_option autoImplicit false

/-! # The start of a pool

`thpool_init` calls `thread_init` for each thread, does not look at what it returns, and spins
until `num_threads_alive` is `num_threads`. A pattern says how the calls of `thread_init` end:
each of them can fail in one of four ways. The workers that were created count themselves
meanwhile, in any order. From every state of the start the pool can come to the spin loop with
each of them counted (`counted_from`); so the start succeeds when no call fails, and only then
(`starts_up_iff`).
-/

namespace CPlayground.Thpool

open Threads

variable {n m : Nat} {s s' : PoolState n m} {a : Action (Tid n m) Choice}
  {pattern : Nat → ThreadInit}

/-! ## Runs under a pattern -/

/-- The call of `thread_init` for `threads[k]` ends as `pattern k`. -/
def OwnerPc.follows (n : Nat) (pattern : Nat → ThreadInit) (choice : Choice) : OwnerPc → Bool
  | .spawn k => !decide (k < n) || choice == .threadInit (pattern k)
  | _ => true

def Follows (pattern : Nat → ThreadInit) (s : PoolState n m) : Action (Tid n m) Choice → Prop
  | .run .owner choice _ => (s.pc .owner : OwnerPc).follows n pattern choice = true
  | _ => True

instance (s : PoolState n m) : (a : Action (Tid n m) Choice) → Decidable (Follows pattern s a)
  | .run .owner choice _ => inferInstanceAs (Decidable (OwnerPc.follows n pattern choice _ = true))
  | .run (.worker _) _ _ | .run (.client _) _ _ | .spurious _ => .isTrue trivial

/-- A step of a pool whose threads are created as the pattern says. -/
def StartSteps (pattern : Nat → ThreadInit) (s s' : PoolState n m) : Prop :=
  StepsIf (fun s a => CallsOk s a ∧ Follows pattern s a) (step (code n m)) s s'

def StartReachable (pattern : Nat → ThreadInit) (s : PoolState n m) : Prop :=
  Reachable (· = initState n m) (StartSteps pattern) s

theorem StartReachable.pool (h : StartReachable pattern s) : PoolReachable s :=
  h.mono fun _ _ ⟨a, hok, ha⟩ => ⟨a, hok.1, ha⟩

/-- The final spin loop cannot exit: the workers that were created are all counted. -/
def CannotExit (s : PoolState n m) : Prop :=
  ownerAt s = .spin ∧
    (∀ i : Fin n, s.data.pool.created i = true → (workerAt s i).started = true) ∧
    s.data.pool.alive ≠ n

/-- Before `thpool_init` returns. -/
@[simp] def OwnerPc.starting : OwnerPc → Bool
  | .initHold | .initKeepalive | .initPool | .initQueue | .initThreads | .spawn _ | .spin => true
  | _ => false

/-- What is expected of `thpool_init` at each of its states: it is not stuck, it returns a
complete pool if it returns one, and it can still return. -/
structure StartsUp (pattern : Nat → ThreadInit) (s : PoolState n m) : Prop where
  not_stuck : ¬ CannotExit s
  complete : ownerAt s = .ready →
    (∀ k, k < n → s.data.pool.threads k = .valid) ∧ s.data.pool.alive = n
  returns : (ownerAt s).starting = true → ∃ s', Relation.ReflTransGen (StartSteps pattern) s s' ∧
    (ownerAt s' = .failed ∨ ownerAt s' = .ready)

/-! ## The workers during the start -/

theorem poolSteered_reachable (h : PoolReachable s) : Steered s := by
  refine Reachable.invariant Steered ?_ ?_ h
  · rintro s rfl
    exact steered_init
  · rintro s s' - hsteered ⟨a, hcalls, hs⟩
    exact hsteered.step hcalls hs

/-- Where a worker can be when no job has been added. -/
@[simp] def WorkerPc.waking : WorkerPc → Bool
  | .unborn | .startLock | .startInc | .startUnlock | .loop | .semLock | .semTest | .semCond => true
  | _ => false

/-- The part of `thread_do` before its loop. -/
theorem waking_step {i : Nat} {d d' : Mem} {choice : Choice} {pc next : WorkerPc}
    (h : (workerCode i pc).effect d choice = some (d', next)) (hpc : pc.waking = true)
    (hflag : pc ≠ .unborn → d.statics.keepalive = true) (hv : d.pool.v = 0) :
    next.waking = true ∧ d'.pool.v = 0 ∧ d'.pool.threads = d.pool.threads := by
  cases pc with
  | unborn =>
      simp only [workerCode, Instr.effect, Option.ite_none_right_eq_some] at h
      cases h.2
      exact ⟨rfl, hv, rfl⟩
  | startLock | startInc | startUnlock | semLock | semCond =>
      cases h
      exact ⟨rfl, hv, rfl⟩
  | loop =>
      rw [workerCode] at h
      obtain ⟨rfl, ⟨-, rfl⟩ | ⟨hoff, -⟩⟩ := branch_effect h
      · exact ⟨rfl, hv, rfl⟩
      · rw [hflag (by simp)] at hoff
        cases hoff
  | semTest =>
      rw [workerCode] at h
      obtain ⟨rfl, ⟨-, rfl⟩ | ⟨ht, -⟩⟩ := branch_effect h
      · exact ⟨rfl, hv, rfl⟩
      · simp [hv] at ht
  | _ => cases hpc

/-- The calls of `thread_init` that have returned. -/
@[simp] def OwnerPc.spawned (n : Nat) : OwnerPc → Nat → Bool
  | .spawn k, j => decide (j < k)
  | .spin, j | .ready, j => decide (j < n)
  | _, _ => false

/-- What the calls of `thread_init` have left, and what is still as it was. -/
structure Started (pattern : Nat → ThreadInit) (s : PoolState n m) : Prop where
  slots : ∀ k, (ownerAt s).spawned n k = true →
    s.data.pool.threads k = (threadInit (pattern k)).1 ∧
      s.data.pool.created k = (threadInit (pattern k)).2
  fresh : (ownerAt s).starting = true → ∀ k, (ownerAt s).spawned n k = false →
    s.data.pool.created k = false
  range : ∀ k, ownerAt s = .spawn k → k ≤ n
  unborn : (ownerAt s).destroying = false → ∀ i : Fin n, s.data.pool.created i = false →
    workerAt s i = .unborn
  v : (ownerAt s).starting = true → s.data.pool.v = 0
  workers : (ownerAt s).starting = true → ∀ i, (workerAt s i).waking = true
  clients : (ownerAt s).starting = true → ∀ c, clientAt s c = .idle

theorem started_init : Started pattern (initState n m) where
  slots _ h := absurd h Bool.false_ne_true
  fresh _ _ _ := rfl
  range _ h := by cases h
  unborn _ _ _ := rfl
  v _ := rfl
  workers _ _ := rfl
  clients _ _ := rfl

/-! ## One step -/

/-- What a step of `thpool_init` does: a call of `thread_init`, or nothing to `threads`. -/
theorem owner_slots {d d' : Mem} {choice : Choice} {pc next : OwnerPc}
    (h : (ownerCode n pc).effect d choice = some (d', next))
    (hfollows : pc.follows n pattern choice = true) (hrange : ∀ k, pc = .spawn k → k ≤ n)
    (hserving : next.destroying = false) :
    pc.starting = true ∧ (d.pool.v = 0 → d'.pool.v = 0) ∧
      ((∃ k, k < n ∧ pc = .spawn k ∧ next = .spawn (k + 1) ∧
        d'.pool.threads = Function.update d.pool.threads k (threadInit (pattern k)).1 ∧
        d'.pool.created = Function.update d.pool.created k (threadInit (pattern k)).2) ∨
      (∀ k, next = .spawn k → k = 0) ∧ d'.pool.created = d.pool.created ∧
        (∀ j, pc.spawned n j = true → d'.pool.threads j = d.pool.threads j) ∧
        ∀ j, next.spawned n j = pc.spawned n j) := by
  cases pc with
  | initHold | initKeepalive =>
      cases h
      simp
  | initPool | initQueue | initThreads =>
      rw [ownerCode] at h
      obtain ⟨rfl, rfl⟩ | ⟨rfl, rfl⟩ := alloc_effect h <;> simp
  | spawn k =>
      simp only [ownerCode, Instr.effect] at h
      split at h
      · rename_i hk
        obtain rfl : choice = .threadInit (pattern k) := by
          simpa [OwnerPc.follows, hk] using hfollows
        cases h
        exact ⟨rfl, id, .inl ⟨k, hk, rfl, rfl, rfl, rfl⟩⟩
      · rename_i hk
        cases h
        obtain rfl : k = n := Nat.le_antisymm (hrange k rfl) (Nat.le_of_not_lt hk)
        simp
  | spin =>
      rw [ownerCode] at h
      obtain ⟨rfl, ⟨-, rfl⟩ | ⟨-, rfl⟩⟩ := branch_effect h <;> simp
  | ready =>
      simp only [ownerCode, Instr.effect, Option.ite_none_right_eq_some] at h
      cases h.2
      cases hserving
  | failed => cases h
  | _ =>
      have hbefore := (owner_step h).serving hserving
      cases hbefore

/-- A step of a worker or a client. -/
theorem Started.frame (h : Started pattern s) (howner : ownerAt s' = ownerAt s)
    (hthreads : s'.data.pool.threads = s.data.pool.threads)
    (hcreated : s'.data.pool.created = s.data.pool.created)
    (hunborn : ∀ i : Fin n, s.data.pool.created i = false → workerAt s i = .unborn →
      workerAt s' i = .unborn)
    (hquiet : (ownerAt s).starting = true → s'.data.pool.v = 0 ∧
      (∀ i, (workerAt s' i).waking = true) ∧ ∀ c, clientAt s' c = .idle) : Started pattern s' where
  slots := by
    rw [howner, hthreads, hcreated]
    exact h.slots
  fresh := by
    rw [howner, hcreated]
    exact h.fresh
  range := by
    rw [howner]
    exact h.range
  unborn := by
    rw [howner, hcreated]
    exact fun hserving i hi => hunborn i hi (h.unborn hserving i hi)
  v hst := (hquiet (howner ▸ hst)).1
  workers hst := (hquiet (howner ▸ hst)).2.1
  clients hst := (hquiet (howner ▸ hst)).2.2

theorem OwnerPc.serving_of_starting {pc : OwnerPc} (h : pc.starting = true) :
    pc.destroying = false := by
  revert h
  cases pc <;> simp

theorem Started.worker (h : Started pattern s) (hr : PoolReachable s) {i : Fin n}
    {choice : Choice} {next : WorkerPc}
    (he : (workerCode i (workerAt s i)).effect s.data choice = some (s'.data, next))
    (hp : s'.pc = Function.update s.pc (.worker i) next) : Started pattern s' := by
  have hself : workerAt s' i = next := workerAt_self hp
  have hother : ∀ j, j ≠ i → workerAt s' j = workerAt s j :=
    fun j hj => workerAt_other hp (worker_ne hj)
  refine h.frame (by simp [ownerAt, hp]) (worker_frame he).threads (worker_step he).created
    (fun j hj hpc => ?_) fun hst => ?_
  · by_cases hji : j = i
    · subst hji
      rw [hpc] at he
      rw [unborn_step he] at hj
      cases hj
    · rw [hother j hji, hpc]
  · have hflag : workerAt s i ≠ .unborn → s.data.statics.keepalive = true :=
      (poolSteered_reachable hr).flag_set (OwnerPc.serving_of_starting hst)
    obtain ⟨hwaking, hv, -⟩ := waking_step he (h.workers hst i) hflag (h.v hst)
    refine ⟨hv, fun j => ?_, fun c => ?_⟩
    · by_cases hji : j = i
      · subst hji
        rwa [hself]
      · rw [hother j hji]
        exact h.workers hst j
    · simpa [clientAt, hp] using h.clients hst c

/-- `thpool_destroy` is not part of the start. -/
theorem started_of_destroying (h : (ownerAt s).destroying = true) : Started pattern s := by
  have hnone : (ownerAt s).starting = false ∧ (∀ k, (ownerAt s).spawned n k = false) ∧
      ∀ k, ownerAt s ≠ .spawn k := by
    revert h
    cases ownerAt s <;> simp
  obtain ⟨hst, hspawned, hspawn⟩ := hnone
  constructor
  case slots =>
    intro k hk
    rw [hspawned] at hk
    cases hk
  case range =>
    intro k hk
    exact absurd hk (hspawn k)
  case unborn =>
    intro hserving
    rw [h] at hserving
    cases hserving
  all_goals
    intro hstarting
    rw [hst] at hstarting
    cases hstarting

/-- `thread_init` fills the slot `k`. -/
theorem Started.fill (h : Started pattern s) {k : Nat} (hk : k < n) (hpc : ownerAt s = .spawn k)
    (hnext : ownerAt s' = .spawn (k + 1)) (hworker : ∀ i, workerAt s' i = workerAt s i)
    (hclient : ∀ c, clientAt s' c = clientAt s c) (hv : s'.data.pool.v = 0)
    (hthreads : s'.data.pool.threads =
      Function.update s.data.pool.threads k (threadInit (pattern k)).1)
    (hcreated : s'.data.pool.created =
      Function.update s.data.pool.created k (threadInit (pattern k)).2) : Started pattern s' := by
  have hst : (ownerAt s).starting = true := by rw [hpc]; rfl
  have hbelow : ∀ j, j ≠ k → (ownerAt s').spawned n j = (ownerAt s).spawned n j := by
    intro j hj
    simp only [hnext, hpc, OwnerPc.spawned, decide_eq_decide]
    omega
  constructor
  case slots =>
    intro j hj
    rw [hthreads, hcreated]
    by_cases hjk : j = k
    · subst hjk
      simp
    · rw [Function.update_of_ne hjk, Function.update_of_ne hjk]
      exact h.slots j (hbelow j hjk ▸ hj)
  case fresh =>
    intro _ j hj
    have hjk : j ≠ k := by
      rintro rfl
      simp [hnext] at hj
    rw [hcreated, Function.update_of_ne hjk]
    exact h.fresh hst j (hbelow j hjk ▸ hj)
  case range =>
    intro j hj
    rw [hnext] at hj
    cases hj
    exact hk
  case unborn =>
    intro _ i hi
    rw [hworker]
    refine h.unborn (OwnerPc.serving_of_starting hst) i ?_
    by_cases hik : (i : Nat) = k
    · rw [hik]
      exact h.fresh hst k (by simp [hpc])
    · rwa [hcreated, Function.update_of_ne hik] at hi
  case v => exact fun _ => hv
  case workers => exact fun _ i => hworker i ▸ h.workers hst i
  case clients => exact fun _ c => hclient c ▸ h.clients hst c

/-- Any other step of `thpool_init`. -/
theorem Started.keep (h : Started pattern s) (hst : (ownerAt s).starting = true)
    (hzero : ∀ k, ownerAt s' = .spawn k → k = 0)
    (hspawned : ∀ j, (ownerAt s').spawned n j = (ownerAt s).spawned n j)
    (hworker : ∀ i, workerAt s' i = workerAt s i) (hclient : ∀ c, clientAt s' c = clientAt s c)
    (hv : s'.data.pool.v = 0)
    (hthreads : ∀ j, (ownerAt s).spawned n j = true →
      s'.data.pool.threads j = s.data.pool.threads j)
    (hcreated : s'.data.pool.created = s.data.pool.created) : Started pattern s' := by
  constructor
  case slots =>
    intro j hj
    rw [hspawned] at hj
    rw [hthreads j hj, hcreated]
    exact h.slots j hj
  case fresh =>
    intro _ j hj
    rw [hspawned] at hj
    rw [hcreated]
    exact h.fresh hst j hj
  case range =>
    intro j hj
    rw [hzero j hj]
    exact Nat.zero_le n
  case unborn =>
    intro _ i hi
    rw [hworker]
    exact h.unborn (OwnerPc.serving_of_starting hst) i (hcreated ▸ hi)
  case v => exact fun _ => hv
  case workers => exact fun _ i => hworker i ▸ h.workers hst i
  case clients => exact fun _ c => hclient c ▸ h.clients hst c

theorem Started.owner (h : Started pattern s) {choice : Choice} {next : OwnerPc}
    (hfollows : (ownerAt s).follows n pattern choice = true)
    (he : (ownerCode n (ownerAt s)).effect s.data choice = some (s'.data, next))
    (hp : s'.pc = Function.update s.pc .owner next) : Started pattern s' := by
  obtain rfl : ownerAt s' = next := by simp [ownerAt, hp]
  have hworker : ∀ i, workerAt s' i = workerAt s i := fun i => by simp [workerAt, hp]
  have hclient : ∀ c, clientAt s' c = clientAt s c := fun c => by simp [clientAt, hp]
  by_cases hd : (ownerAt s').destroying = true
  · exact started_of_destroying hd
  · obtain ⟨hst, hv, hslots⟩ := owner_slots he hfollows h.range (Bool.eq_false_iff.2 hd)
    rcases hslots with ⟨k, hk, hpc, hnext, hthreads, hcreated⟩ | ⟨hzero, hcreated, hthreads, hsp⟩
    · exact h.fill hk hpc hnext hworker hclient (hv (h.v hst)) hthreads hcreated
    · exact h.keep hst hzero hsp hworker hclient (hv (h.v hst)) hthreads hcreated

/-- **One step of a start.** -/
theorem Started.step (h : Started pattern s) (hr : PoolReachable s) (hcalls : CallsOk s a)
    (hfollows : Follows pattern s a) (hs : step (code n m) s a = some s') :
    Started pattern s' := by
  rcases step_effect hs with ⟨hd, hp⟩ | ⟨t, choice, wakes, next, rfl, he, hp⟩
  · refine h.frame (by simp [ownerAt, hp]) (by rw [hd]) (by rw [hd])
      (fun i _ hpc => by rw [workerAt, hp, ← hpc]) fun hst => ?_
    simp only [hd, workerAt, clientAt, hp]
    exact ⟨h.v hst, h.workers hst, h.clients hst⟩
  · cases t with
    | worker i => exact h.worker hr he hp
    | client c =>
        refine h.frame (by simp [ownerAt, hp]) (client_frame he).threads
          (client_step he).counts.created (fun i _ hpc => by simpa [workerAt, hp] using hpc)
          fun hst => ?_
        -- no client may call a pool that is being started
        have hready : ownerAt s = .ready := hcalls (h.clients hst c)
        rw [hready] at hst
        cases hst
    | owner => exact h.owner hfollows he hp

theorem started_reachable (h : StartReachable pattern s) : Started pattern s := by
  refine Reachable.invariant (Started pattern) ?_ ?_ h
  · rintro s rfl
    exact started_init
  · rintro s s' hr hstarted ⟨a, hok, hs⟩
    exact hstarted.step (StartReachable.pool hr) hok.1 hok.2 hs

/-! ## Coming to the spin loop -/

/-- How far a worker is from having counted itself. -/
@[simp] def WorkerPc.startRank : WorkerPc → Nat
  | .unborn => 4
  | .startLock => 3
  | .startInc => 2
  | .startUnlock => 1
  | _ => 0

/-- How far the owner is from its spin loop. -/
@[simp] def OwnerPc.startRank (n : Nat) : OwnerPc → Nat
  | .initHold => n + 6
  | .initKeepalive => n + 5
  | .initPool => n + 4
  | .initQueue => n + 3
  | .initThreads => n + 2
  | .spawn k => n - k + 1
  | _ => 0

def startRank (s : PoolState n m) : Nat :=
  (ownerAt s).startRank n + ∑ i, (workerAt s i).startRank

/-- A step of the start that comes nearer to the spin loop with every worker counted. -/
def Nearer (pattern : Nat → ThreadInit) (s s' : PoolState n m) : Prop :=
  StartSteps pattern s s' ∧ (ownerAt s').starting = true ∧ startRank s' < startRank s

theorem nearer_owner (choice : Choice) {f : Mem → Choice → Option (Mem × OwnerPc)} {d' : Mem}
    {next : OwnerPc} (hi : ownerCode n (ownerAt s) = .act f)
    (hf : f s.data choice = some (d', next))
    (hfollows : (ownerAt s).follows n pattern choice = true) (hst : next.starting = true)
    (hrank : next.startRank n < (ownerAt s).startRank n) : ∃ s', Nearer pattern s s' := by
  have hcalls : CallsOk s (.run .owner choice fun _ => true) := by
    intro hready
    have hpc : ownerAt s = .ready := hready
    rw [hpc] at hrank
    cases hrank
  have hstep : step (code n m) s (.run .owner choice fun _ => true) = _ := step_act hi
  rw [hf, Option.map_some] at hstep
  refine ⟨_, ⟨_, ⟨hcalls, hfollows⟩, hstep⟩, ?_, ?_⟩
  · simpa [ownerAt] using hst
  · simpa [startRank, ownerAt, workerAt] using hrank

/-- Before its spin loop the owner can go on, with each allocation of its own successful. -/
theorem owner_nearer (pattern : Nat → ThreadInit) (hst : (ownerAt s).starting = true)
    (hspin : ownerAt s ≠ .spin) : ∃ s', Nearer pattern s s' := by
  cases hpc : ownerAt s with
  | initHold | initKeepalive =>
      exact nearer_owner .go (by rw [hpc]; rfl) rfl (by rw [hpc]; rfl) rfl
        (by simp [hpc])
  | initPool | initQueue | initThreads =>
      exact nearer_owner (.alloc true) (by rw [hpc]; rfl) rfl (by rw [hpc]; rfl) rfl
        (by simp [hpc])
  | spawn k =>
      by_cases hk : k < n
      · exact nearer_owner (.threadInit (pattern k)) (by rw [hpc]; rfl) (if_pos hk)
          (by simp [hpc, OwnerPc.follows]) rfl (by simp [hpc]; omega)
      · exact nearer_owner .go (by rw [hpc]; rfl) (if_neg hk)
          (by simp [hpc, OwnerPc.follows, hk]) rfl (by simp [hpc])
  | spin => exact absurd hpc hspin
  | _ =>
      rw [hpc] at hst
      cases hst

theorem nearer_worker {i : Fin n} {next : WorkerPc}
    (hs : step (code n m) s (.run (.worker i) .go fun _ => true) = some s')
    (hp : s'.pc = Function.update s.pc (.worker i) next)
    (hrank : next.startRank < (workerAt s i).startRank) (hst : (ownerAt s).starting = true) :
    Nearer pattern s s' := by
  have howner : ownerAt s' = ownerAt s := by simp [ownerAt, hp]
  refine ⟨⟨.run (.worker i) .go fun _ => true, ⟨trivial, trivial⟩, hs⟩, howner ▸ hst, ?_⟩
  have hsum := sum_step (fun j => (workerAt s j).startRank) (fun j => (workerAt s' j).startRank) i
    fun j hj => by rw [workerAt_other hp (worker_ne hj)]
  simp only [workerAt_self hp] at hsum
  rw [startRank, startRank, howner]
  omega

theorem code_worker {i : Fin n} {pc : WorkerPc} (hpc : workerAt s i = pc) :
    code n m (.worker i) (s.pc (.worker i)) = workerCode i pc := by
  rw [← hpc]
  rfl

theorem nearer_act {i : Fin n} {pc next : WorkerPc} {d' : Mem}
    {f : Mem → Choice → Option (Mem × WorkerPc)} (hpc : workerAt s i = pc)
    (hi : workerCode i pc = .act f) (hf : f s.data .go = some (d', next))
    (hrank : next.startRank < pc.startRank) (hst : (ownerAt s).starting = true) :
    ∃ s', Nearer pattern s s' := by
  have hstep : step (code n m) s (.run (.worker i) .go fun _ => true) = _ :=
    step_act ((code_worker hpc).trans hi)
  rw [hf, Option.map_some] at hstep
  exact ⟨_, nearer_worker hstep rfl (hpc ▸ hrank) hst⟩

/-- A worker that has been created and is not counted can go on, or the one that has the lock
can. -/
theorem worker_nearer (hinv : PoolInv s) (h : Started pattern s) (hspin : ownerAt s = .spin)
    {i : Fin n} (hcreated : s.data.pool.created i = true)
    (hi : (workerAt s i).started = false) : ∃ s', Nearer pattern s s' := by
  have hst : (ownerAt s).starting = true := by rw [hspin]; rfl
  have hinc : ∀ j, workerAt s j = .startInc → ∃ s', Nearer pattern s s' := fun j hj =>
    nearer_act hj rfl rfl (by simp) hst
  cases hpc : workerAt s i with
  | unborn => exact nearer_act hpc rfl (if_pos hcreated) (by simp) hst
  | startInc => exact hinc i hpc
  | startLock =>
      cases howner : s.owner .thcountLock with
      | none =>
          exact ⟨_, nearer_worker (step_lock (code_worker hpc) howner) rfl (by simp [hpc]) hst⟩
      | some t =>
          -- during the start the lock is held by a worker that is counting itself
          have hheld : holds t (s.pc t) .thcountLock = true := ((hinv.locked.owner _ t).1 howner).1
          cases t with
          | worker j =>
              have hj : workerAt s j = .startInc ∨ workerAt s j = .startUnlock := by
                have hwaking := h.workers hst j
                have hholds : (workerAt s j).holds .thcountLock = true := hheld
                revert hwaking hholds
                cases workerAt s j <;> simp [WorkerPc.holds]
              rcases hj with hj | hj
              · exact hinc j hj
              · exact ⟨_, nearer_worker (step_unlock (code_worker hj) howner) rfl (by simp [hj])
                  hst⟩
          | client c =>
              have hholds : (clientAt s c).holds .thcountLock = true := hheld
              rw [h.clients hst c] at hholds
              cases hholds
          | owner =>
              have hholds : (ownerAt s).holds .thcountLock = true := hheld
              rw [hspin] at hholds
              cases hholds
  | _ =>
      rw [hpc] at hi
      cases hi

/-- **From every state of the start** the pool can come to the spin loop with each worker that
was created counted. -/
theorem counted_from (h : StartReachable pattern s) (hst : (ownerAt s).starting = true) :
    ∃ s', Relation.ReflTransGen (StartSteps pattern) s s' ∧ StartReachable pattern s' ∧
      ownerAt s' = .spin ∧
      ∀ i : Fin n, s'.data.pool.created i = true → (workerAt s' i).started = true := by
  have hstart : Reachable (· = s) (StartSteps pattern) s := Reachable.start rfl
  obtain ⟨s', ⟨s₀, rfl, hrun⟩, ⟨hr, hst'⟩, hend⟩ := hstart.exhaust
    (fun t => StartReachable pattern t ∧ (ownerAt t).starting = true) startRank
    (fun _ _ (hnear : Nearer pattern _ _) => hnear.1)
    (fun _ _ _ ht hnear => ⟨⟨ht.1.next hnear.1, hnear.2.1⟩, hnear.2.2⟩) ⟨h, hst⟩
  have hstarted := started_reachable hr
  have hspin : ownerAt s' = .spin := by
    by_contra hne
    obtain ⟨s'', hnear⟩ := owner_nearer pattern hst' hne
    exact hend s'' hnear
  refine ⟨s', hrun, hr, hspin, fun i hi => ?_⟩
  by_contra hne
  obtain ⟨s'', hnear⟩ := worker_nearer (poolInv_reachable hr.pool) hstarted hspin hi
    (Bool.eq_false_iff.2 hne)
  exact hend s'' hnear

/-! ## The outcome -/

/-- A worker that was not created is never counted. -/
theorem alive_ne_of_failure (h : StartReachable pattern s) (hspin : ownerAt s = .spin) {k : Nat}
    (hk : k < n) (hfail : (threadInit (pattern k)).2 = false) : s.data.pool.alive ≠ n := by
  intro hall
  have hstarted := started_reachable h
  have hslot := (hstarted.slots k (by simp [hspin, hk])).2
  have hunborn := hstarted.unborn (by rw [hspin]; rfl) ⟨k, hk⟩ (hslot.trans hfail)
  rw [(poolInv_reachable h.pool).phases.alive] at hall
  have hcounted := count_eq_card (hall.trans (Fintype.card_fin n).symm) ⟨k, hk⟩
  rw [hunborn] at hcounted
  cases hcounted

theorem alive_eq_of_alive (hinv : PoolInv s) (h : ∀ i, (workerAt s i).alive = true) :
    s.data.pool.alive = n := by
  have hall : (fun i => (workerAt s i).alive) = fun _ => true := funext h
  rw [hinv.phases.alive, hall]
  simp [count]

/-- When every worker was created, they are all counted in the end. -/
theorem alive_eq_of_counted (h : StartReachable pattern s) (hspin : ownerAt s = .spin)
    (hok : ∀ k, k < n → pattern k = .ok)
    (hcounted : ∀ i : Fin n, s.data.pool.created i = true → (workerAt s i).started = true) :
    s.data.pool.alive = n := by
  have hstarted := started_reachable h
  refine alive_eq_of_alive (poolInv_reachable h.pool) fun i => ?_
  have hcreated := (hstarted.slots i (by simp [hspin])).2
  rw [hok i i.isLt] at hcreated
  have hin := hcounted i hcreated
  have hwaking := hstarted.workers (by rw [hspin]; rfl) i
  revert hin hwaking
  cases workerAt s i <;> simp

/-- **A failed call of `thread_init` leaves `thpool_init` in its loop.** -/
theorem cannotExit_of_failure {k : Nat} (hk : k < n) (hfail : (threadInit (pattern k)).2 = false) :
    ∃ s : PoolState n m, StartReachable pattern s ∧ CannotExit s := by
  have hinit : StartReachable pattern (initState n m) := Reachable.start rfl
  obtain ⟨s, -, hr, hspin, hcounted⟩ := counted_from hinit rfl
  exact ⟨s, hr, hspin, hcounted, alive_ne_of_failure hr hspin hk hfail⟩

/-- The spin loop reads the counter once more, and `thpool_init` returns. -/
theorem spin_ends (pattern : Nat → ThreadInit) (hspin : ownerAt s = .spin)
    (halive : s.data.pool.alive = n) :
    ∃ s', StartSteps pattern s s' ∧ s'.data = s.data ∧
      s'.pc = Function.update s.pc .owner OwnerPc.ready := by
  have hcode : code n m .owner (s.pc .owner) = ownerCode n .spin := by
    rw [← hspin]
    rfl
  have hstep : step (code n m) s (.run .owner .go fun _ => true) = _ := step_act hcode
  have hcalls : CallsOk s (.run .owner .go fun _ => true) := fun hready => by
    rw [ownerAt, hready] at hspin
    cases hspin
  have hfollows : Follows pattern s (.run .owner .go fun _ => true) := by
    show (ownerAt s).follows n pattern .go = true
    rw [hspin]
    rfl
  refine ⟨_, ⟨_, ⟨hcalls, hfollows⟩, hstep⟩, rfl, ?_⟩
  simp [halive]

theorem startsUp_of_ok (hok : ∀ k, k < n → pattern k = .ok) (h : StartReachable pattern s) :
    StartsUp pattern s where
  not_stuck hstuck := hstuck.2.2 (alive_eq_of_counted h hstuck.1 hok hstuck.2.1)
  complete hready := by
    have hstarted := started_reachable h
    have hsteered := poolSteered_reachable h.pool
    refine ⟨fun k hk => ?_, alive_eq_of_alive hsteered.inv fun i => ?_⟩
    · rw [(hstarted.slots k (by simp [hready, hk])).1, hok k hk]
      rfl
    · -- every worker has been counted, and none leaves before `thpool_destroy`
      have hin := hsteered.inv.phases.started (by rw [hready]; rfl) i
      by_contra halive
      have hgone := WorkerPc.gone_of hin (Bool.eq_false_iff.2 halive)
      have hleaving : (workerAt s i).leaving = true := by
        revert hgone
        cases workerAt s i <;> simp
      have hdestroying := hsteered.staying i hleaving
      rw [hready] at hdestroying
      cases hdestroying
  returns hst := by
    obtain ⟨s', hrun, hr, hspin, hcounted⟩ := counted_from h hst
    obtain ⟨s'', hlast, -, hpc⟩ :=
      spin_ends pattern hspin (alive_eq_of_counted hr hspin hok hcounted)
    exact ⟨s'', hrun.tail hlast, .inr (by simp [ownerAt, hpc])⟩

/-- **`thpool_init` handles partial failure only if there is none.** It comes to its spin loop
in any case, and `num_threads_alive` is then the number of the threads that were created. -/
theorem starts_up_iff (pattern : Nat → ThreadInit) :
    (∀ s : PoolState n m, StartReachable pattern s → StartsUp pattern s) ↔
      ∀ k, k < n → pattern k = .ok := by
  constructor
  · intro h k hk
    by_contra hne
    have hfail : (threadInit (pattern k)).2 = false := by
      revert hne
      cases pattern k <;> simp [threadInit]
    obtain ⟨s, hr, hstuck⟩ := cannotExit_of_failure (m := m) hk hfail
    exact (h s hr).not_stuck hstuck
  · exact fun hok s h => startsUp_of_ok hok h

/-- `pthread_create` fails for the only thread of a pool. -/
def failedStart : List (Action (Tid 1 0) Choice) :=
  times .owner 2 .go ++ times .owner 3 (.alloc true) ++ times .owner 1 (.threadInit .createFails) ++
    times .owner 1 .go

set_option maxRecDepth 20000 in
/-- No thread is left that could count itself. -/
theorem start_spins : ¬ ∀ s : PoolState 1 0, StartReachable (fun _ => .createFails) s →
    StartsUp (fun _ => .createFails) s := by
  intro hall
  obtain ⟨s, hs, hp⟩ : ∃ s : PoolState 1 0, StartReachable (fun _ => .createFails) s ∧
      decide (ownerAt s = .spin ∧ s.data.pool.created 0 = false ∧ s.data.pool.alive = 0) = true :=
    reachable_guarded failedStart _ (by decide)
  obtain ⟨hspin, hcreated, halive⟩ := of_decide_eq_true hp
  refine (hall s hs).not_stuck ⟨hspin, fun i hi => ?_, by rw [halive]; exact Nat.zero_ne_one⟩
  rw [Subsingleton.elim i 0] at hi
  rw [Fin.val_zero, hcreated] at hi
  cases hi

end CPlayground.Thpool
