import CPlayground.Basic.Threads
import CPlayground.Thpool.JobQueue
import Mathlib.Data.Fintype.Sum
import Mathlib.Tactic.DeriveFintype

set_option autoImplicit false

/-! # The thread pool

`common/thpool.c` as a program for the machine of `CPlayground.Threads`: the workers that run
`thread_do`, the clients that call `thpool_add_work` and `thpool_wait`, and the owner of the
pool that calls `thpool_init` and, once, `thpool_destroy`. Each access to a shared field is a
step of its own, but for the sections of `jobqueue_push` and `jobqueue_pull` between their
lock and `bsem_post`, in which only the last one, the update of `len`, can be seen from outside
the lock.

The counters are natural numbers. `thpool_pause` and the handler of its signal are in
`Thpool/Hold.lean`.
-/

namespace CPlayground.Thpool

open Threads

/-! ## Data -/

/-- The file-level `threads_keepalive` and `threads_on_hold`. -/
structure Statics where
  keepalive : Bool
  onHold : Bool
  deriving DecidableEq, Repr

/-- What `threads[n]` holds: the `NULL` of `calloc`, a thread, or a pointer that was freed. -/
inductive ThreadSlot
  | null
  | valid
  | dangling
  deriving DecidableEq, Repr

/-- What has happened to the jobs; the code keeps none of this. `accepted` grows with `len`,
`pulled` when a job leaves the queue, `called` when its function is called, `finished` when a
worker frees it, `discarded` when `jobqueue_clear` does, and `returned` when the call of
`thpool_add_work` that submitted it returns. -/
structure Log where
  nextId : Nat
  accepted : List Job
  pulled : List Job
  called : List Job
  finished : List Job
  discarded : List Job
  returned : List Nat

/-- `thpool_t` with its job queue, the value `v` of the semaphore, the local `threads_total`
of `thpool_destroy`, and which threads `pthread_create` has started. -/
structure Pool where
  queue : JobQueue
  v : Nat
  alive : Nat
  working : Nat
  threads : Nat → ThreadSlot
  created : Nat → Bool
  total : Nat
  semFreed : Bool
  freed : Bool
  log : Log

structure Mem where
  statics : Statics
  pool : Pool

/-- A pool before `thpool_init`. -/
def newPool : Pool where
  queue := { heap := fun _ => none, front := none, rear := none, len := 0 }
  v := 0
  alive := 0
  working := 0
  threads := fun _ => .null
  created := fun _ => false
  total := 0
  semFreed := false
  freed := false
  log := { nextId := 0, accepted := [], pulled := [], called := [], finished := [],
           discarded := [], returned := [] }

/-! ## Threads and their program points -/

/-- `rw_mutex`, `thcount_lock`, and the mutex of the semaphore. -/
inductive Mutex
  | rwMutex
  | thcountLock
  | bsemMutex
  deriving DecidableEq, Repr

/-- The condition variable of the semaphore, and `threads_all_idle`. -/
inductive Cond
  | hasJob
  | allIdle
  deriving DecidableEq, Repr

inductive Tid (n m : Nat)
  | worker (i : Fin n)
  | client (c : Fin m)
  | owner
  deriving DecidableEq, Fintype

/-- `bsem_post` and `bsem_post_all`. -/
inductive PostPc
  | lock
  | set
  | signal
  | unlock
  deriving DecidableEq, Repr

/-- `jobqueue_push` of the node `job`; once it is linked, only the number of the job is kept. -/
inductive PushPc
  | lock (job : Ptr)
  | link (job : Ptr)
  | post (id : Nat) (k : PostPc)
  | unlock (id : Nat)
  deriving DecidableEq, Repr

/-- `jobqueue_pull`, with the node that is returned. -/
inductive PullPc
  | lock
  | take
  | post (job : Ptr) (k : PostPc)
  | unlock (job : Option Ptr)
  deriving DecidableEq, Repr

/-- `thpool_wait`. -/
inductive WaitPc
  | lock
  | readLen
  | readWorking
  | cond
  | unlock
  | returned
  deriving DecidableEq, Repr

/-- `thread_do`. A call of `thpool_wait`, here or in a client, remembers in `before` which calls
of `thpool_add_work` had returned when it began. -/
inductive WorkerPc
  | unborn
  | startLock
  | startInc
  | startUnlock
  | loop
  | semLock
  | semTest
  | semCond
  | semTake
  | semUnlock
  | aliveTest
  | workLock
  | workInc
  | workUnlock
  | pull (k : PullPc)
  | call (job : Ptr)
  | run (job : Ptr)
  | push (job : Ptr) (k : PushPc)
  | added (job : Ptr) (id : Nat)
  | wait (job : Ptr) (before : List Nat) (k : WaitPc)
  | free (job : Ptr)
  | doneLock
  | doneDec
  | doneTest
  | doneSignal
  | doneUnlock
  | exitLock
  | exitDec
  | exitUnlock
  | exited
  deriving DecidableEq, Repr

/-- A thread outside the pool that uses it. -/
inductive ClientPc
  | idle
  | push (k : PushPc)
  | added (id : Nat)
  | wait (before : List Nat) (k : WaitPc)
  deriving DecidableEq, Repr

/-- `thpool_init`, then `thpool_destroy`; `late` tells its second loop from its first. -/
inductive OwnerPc
  | initHold
  | initKeepalive
  | initPool
  | initQueue
  | initThreads
  | spawn (n : Nat)
  | spin
  | failed
  | ready
  | total
  | clear
  | loop (late : Bool)
  | postAll (late : Bool) (k : PostPc)
  | emptyTest
  | pull (k : PullPc)
  | freeJob (job : Option Ptr)
  | reset
  | freeSem
  | freeThread (n : Nat)
  | freePool
  | destroyed
  deriving DecidableEq, Repr

abbrev Pc {n m : Nat} : Tid n m → Type
  | .worker _ => WorkerPc
  | .client _ => ClientPc
  | .owner => OwnerPc

/-! ## Instructions -/

/-- Which call of `thread_init` fails, if any. -/
inductive ThreadInit
  | mallocFails
  | attrInitFails
  | attrSetFails
  | createFails
  | ok
  deriving DecidableEq, Repr

/-- What the environment decides: the outcome of an allocation, what a client or a job calls
next, whether the second of `thpool_destroy` has passed. -/
inductive Choice
  | go
  | alloc (ok : Bool)
  | threadInit (outcome : ThreadInit)
  | addWork (job : Option Ptr) (function args : Nat)
  | wait
  | destroy
  | clock (timeUp : Bool)
  deriving DecidableEq, Repr

abbrev PoolInstr (P : Type) := Instr Mutex Cond Mem Choice P

section Instructions

variable {P : Type}

/-- An assignment to fields of the pool. -/
def assign (f : Pool → Pool) (next : P) : PoolInstr P :=
  .act fun mem _ => some ({ mem with pool := f mem.pool }, next)

/-- An assignment to the two flags. -/
def assignStatics (f : Statics → Statics) (next : P) : PoolInstr P :=
  .act fun mem _ => some ({ mem with statics := f mem.statics }, next)

/-- A test of shared data. -/
def branch (test : Mem → Bool) (yes no : P) : PoolInstr P :=
  .act fun mem _ => some (mem, if test mem then yes else no)

/-- An allocation of `thpool_init`. -/
def alloc (f : Pool → Pool) (next fail : P) : PoolInstr P :=
  .act fun mem choice =>
    match choice with
    | .alloc true => some ({ mem with pool := f mem.pool }, next)
    | .alloc false => some (mem, fail)
    | _ => none

/-- The body that `bsem_post` and `bsem_post_all` share. -/
def postWith (wakeUp : P → PoolInstr P) (pt : PostPc → P) (ret : P) : PostPc → PoolInstr P
  | .lock => .lock .bsemMutex (pt .set)
  | .set => assign (fun pool => { pool with v := 1 }) (pt .signal)
  | .signal => wakeUp (pt .unlock)
  | .unlock => .unlock .bsemMutex ret

def bsemPost (pt : PostPc → P) (ret : P) : PostPc → PoolInstr P := postWith (.signal .hasJob) pt ret

def bsemPostAll (pt : PostPc → P) (ret : P) : PostPc → PoolInstr P :=
  postWith (.broadcast .hasJob) pt ret

/-- The section of `jobqueue_push`: the job is accepted. -/
def linkJob (job : Ptr) (pool : Pool) : Option (Pool × Nat) := do
  let queue ← pool.queue.push job
  let new ← pool.queue.heap.jobAt job
  return ({ pool with queue := queue
                      log := { pool.log with accepted := pool.log.accepted ++ [new] } }, new.id)

def jobqueuePush (pt : PushPc → P) (ret : Nat → P) : PushPc → PoolInstr P
  | .lock job => .lock .rwMutex (pt (.link job))
  | .link job => .act fun mem _ =>
      (linkJob job mem.pool).map fun r => ({ mem with pool := r.1 }, pt (.post r.2 .lock))
  | .post id k => bsemPost (fun k => pt (.post id k)) (pt (.unlock id)) k
  | .unlock id => .unlock .rwMutex (ret id)

/-- The section of `jobqueue_pull`, and whether `bsem_post` follows. -/
def takeJob (pool : Pool) : Option (Pool × PullPc) := do
  let (job, queue) ← pool.queue.pull
  let pulled := (job.bind pool.queue.heap.jobAt).toList
  let pool' := { pool with queue := queue
                           log := { pool.log with pulled := pool.log.pulled ++ pulled } }
  match job with
  | none => return (pool', .unlock none)
  | some p => return (pool', if 1 < pool.queue.len then .post p .lock else .unlock (some p))

/-- What `takeJob` can do. -/
theorem takeJob_cases {pool pool' : Pool} {k : PullPc} (h : takeJob pool = some (pool', k)) :
    ∃ job queue, pool.queue.pull = some (job, queue) ∧
      pool' = { pool with
        queue := queue
        log := { pool.log with
          pulled := pool.log.pulled ++ (job.bind pool.queue.heap.jobAt).toList } } ∧
      ((∃ p, job = some p ∧ k = .post p .lock) ∨ queue.len = 0 ∧ k = .unlock job) := by
  obtain ⟨⟨job, queue⟩, hpull, h⟩ := Option.bind_eq_some_iff.1 h
  obtain ⟨hqueue, hsome⟩ := pull_len hpull
  refine ⟨job, queue, hpull, ?_⟩
  cases job with
  | none =>
      cases h
      refine ⟨rfl, .inr ⟨?_, rfl⟩⟩
      have hlen : ¬ 1 < pool.queue.len := fun hc => hsome hc rfl
      show queue.len = 0
      omega
  | some p =>
      cases h
      refine ⟨rfl, ?_⟩
      by_cases hlen : 1 < pool.queue.len
      · exact .inl ⟨p, rfl, if_pos hlen⟩
      · refine .inr ⟨?_, if_neg hlen⟩
        show queue.len = 0
        omega

def jobqueuePull (pt : PullPc → P) (ret : Option Ptr → P) : PullPc → PoolInstr P
  | .lock => .lock .rwMutex (pt .take)
  | .take => .act fun mem _ =>
      (takeJob mem.pool).map fun r => ({ mem with pool := r.1 }, pt r.2)
  | .post job k => bsemPost (fun k => pt (.post job k)) (pt (.unlock (some job))) k
  | .unlock job => .unlock .rwMutex (ret job)

/-- `thpool_add_work` up to its call of `jobqueue_push`: `malloc` gives a fresh node or fails. -/
def addWork (parent : Option Nat) (pt : PushPc → P) (fail : P) (mem : Mem) :
    Choice → Option (Mem × P)
  | .addWork none _ _ => some (mem, fail)
  | .addWork (some job) function args =>
      let pool := mem.pool
      if (pool.queue.heap job).isNone then
        let new := { id := pool.log.nextId, function := function, args := args, parent := parent }
        let heap := Function.update pool.queue.heap job (some { prev := none, job := new })
        some ({ mem with pool := { pool with queue := { pool.queue with heap := heap }
                                             log := { pool.log with
                                                      nextId := pool.log.nextId + 1 } } },
          pt (.lock job))
      else none
  | _ => none

/-- `thpool_wait`. -/
def waitCode (pt : WaitPc → P) (ret : P) : WaitPc → PoolInstr P
  | .lock => .lock .thcountLock (pt .readLen)
  | .readLen => branch (fun mem => mem.pool.queue.len != 0) (pt .cond) (pt .readWorking)
  | .readWorking => branch (fun mem => mem.pool.working != 0) (pt .cond) (pt .unlock)
  | .cond => .wait .allIdle .thcountLock (pt .readLen)
  | .unlock => .unlock .thcountLock (pt .returned)
  | .returned => .act fun mem _ => some (mem, ret)

/-- `free(job)`, and where the job goes. -/
def freeNode (job : Ptr) (record : Log → Job → Log) (pool : Pool) : Option Pool := do
  let done ← pool.queue.heap.jobAt job
  return { pool with
    queue := { pool.queue with heap := Function.update pool.queue.heap job none }
    log := record pool.log done }

end Instructions

/-! ## The program -/

/-- `thread_do` in the worker with number `i`. -/
def workerCode (i : Nat) : WorkerPc → PoolInstr WorkerPc
  -- `prctl` and `sigaction` come first and touch no shared data
  | .unborn => .act fun mem _ => if mem.pool.created i then some (mem, .startLock) else none
  | .startLock => .lock .thcountLock .startInc
  | .startInc => assign (fun pool => { pool with alive := pool.alive + 1 }) .startUnlock
  | .startUnlock => .unlock .thcountLock .loop
  -- `while (threads_keepalive)`, then `bsem_wait`
  | .loop => branch (fun mem => mem.statics.keepalive) .semLock .exitLock
  | .semLock => .lock .bsemMutex .semTest
  | .semTest => branch (fun mem => mem.pool.v != 1) .semCond .semTake
  | .semCond => .wait .hasJob .bsemMutex .semTest
  | .semTake => assign (fun pool => { pool with v := 0 }) .semUnlock
  | .semUnlock => .unlock .bsemMutex .aliveTest
  -- a worker that finds the flag cleared has taken the token for nothing
  | .aliveTest => branch (fun mem => mem.statics.keepalive) .workLock .loop
  | .workLock => .lock .thcountLock .workInc
  | .workInc => assign (fun pool => { pool with working := pool.working + 1 }) .workUnlock
  | .workUnlock => .unlock .thcountLock (.pull .lock)
  | .pull k =>
      -- another worker may have pulled the job: then there is nothing to call
      jobqueuePull .pull (fun job => match job with | some job => .call job | none => .doneLock) k
  -- `func_buff(thread->id, arg_buff)`, which may itself use the pool
  | .call job => .act fun mem _ =>
      (mem.pool.queue.heap.jobAt job).map fun called =>
        ({ mem with pool := { mem.pool with
            log := { mem.pool.log with called := mem.pool.log.called ++ [called] } } }, .run job)
  | .run job => .act fun mem choice =>
      match choice with
      | .go => some (mem, .free job)
      | .wait => some (mem, .wait job mem.pool.log.returned .lock)
      | choice =>
          addWork ((mem.pool.queue.heap.jobAt job).map Job.id) (.push job) (.run job) mem choice
  | .push job k => jobqueuePush (.push job) (.added job) k
  | .added job id =>
      assign (fun pool => { pool with
        log := { pool.log with returned := pool.log.returned ++ [id] } }) (.run job)
  | .wait job before k => waitCode (.wait job before) (.run job) k
  | .free job => .act fun mem _ =>
      (freeNode job (fun log done => { log with finished := log.finished ++ [done] })
        mem.pool).map fun pool => ({ mem with pool := pool }, .doneLock)
  -- the last one that is working signals `threads_all_idle`
  | .doneLock => .lock .thcountLock .doneDec
  | .doneDec => assign (fun pool => { pool with working := pool.working - 1 }) .doneTest
  | .doneTest => branch (fun mem => mem.pool.working == 0) .doneSignal .doneUnlock
  | .doneSignal => .signal .allIdle .doneUnlock
  | .doneUnlock => .unlock .thcountLock .loop
  -- after the loop
  | .exitLock => .lock .thcountLock .exitDec
  | .exitDec => assign (fun pool => { pool with alive := pool.alive - 1 }) .exitUnlock
  | .exitUnlock => .unlock .thcountLock .exited
  | .exited => .halt

def clientCode : ClientPc → PoolInstr ClientPc
  | .idle => .act fun mem choice =>
      match choice with
      | .wait => some (mem, .wait mem.pool.log.returned .lock)
      | choice => addWork none .push .idle mem choice
  | .push k => jobqueuePush .push .added k
  | .added id =>
      assign (fun pool => { pool with
        log := { pool.log with returned := pool.log.returned ++ [id] } }) .idle
  | .wait before k => waitCode (.wait before) .idle k

/-- `thread_init`: what it leaves in `threads[n]`, and whether the thread runs. The result of
`pthread_create` is not looked at. -/
def threadInit : ThreadInit → ThreadSlot × Bool
  | .mallocFails => (.null, false)
  | .attrInitFails | .attrSetFails => (.dangling, false)
  | .createFails => (.valid, false)
  | .ok => (.valid, true)

/-- `thpool_init` with `numThreads`, then `thpool_destroy`. -/
def ownerCode (numThreads : Nat) : OwnerPc → PoolInstr OwnerPc
  | .initHold => assignStatics (fun flags => { flags with onHold := false }) .initKeepalive
  | .initKeepalive => assignStatics (fun flags => { flags with keepalive := true }) .initPool
  | .initPool => alloc (fun pool => { pool with alive := 0, working := 0 }) .initQueue .failed
  | .initQueue =>
      alloc (fun pool => { pool with
        queue := { pool.queue with front := none, rear := none, len := 0 }, v := 0 })
        .initThreads .failed
  | .initThreads =>
      alloc (fun pool => { pool with threads := fun _ => .null }) (.spawn 0) .failed
  | .spawn n => .act fun mem choice =>
      if n < numThreads then
        match choice with
        | .threadInit outcome =>
            let (slot, runs) := threadInit outcome
            some ({ mem with pool := { mem.pool with
                      threads := Function.update mem.pool.threads n slot
                      created := Function.update mem.pool.created n runs } }, .spawn (n + 1))
        | _ => none
      else some (mem, .spin)
  -- `thpool_init` waits here until every thread has counted itself
  | .spin => branch (fun mem => mem.pool.alive != numThreads) .spin .ready
  | .failed => .halt
  | .ready => .act fun mem choice => if choice = .destroy then some (mem, .total) else none
  -- `thpool_destroy`: `threads_total` is read before the flag is cleared
  | .total => assign (fun pool => { pool with total := pool.alive }) .clear
  | .clear => assignStatics (fun flags => { flags with keepalive := false }) (.loop false)
  -- the first loop ends after a second, the other with the last worker; neither takes the lock
  | .loop false => .act fun mem choice =>
      match choice with
      | .clock timeUp =>
          some (mem, if timeUp || mem.pool.alive == 0 then .loop true else .postAll false .lock)
      | _ => none
  | .loop true => branch (fun mem => mem.pool.alive != 0) (.postAll true .lock) .emptyTest
  | .postAll late k => bsemPostAll (.postAll late) (.loop late) k
  -- `jobqueue_clear`, then `free(jobq->bsem_has_job)`
  | .emptyTest => branch (fun mem => mem.pool.queue.len != 0) (.pull .lock) .reset
  | .pull k => jobqueuePull .pull .freeJob k
  | .freeJob none => .act fun mem _ => some (mem, .emptyTest)
  | .freeJob (some job) => .act fun mem _ =>
      (freeNode job (fun log done => { log with discarded := log.discarded ++ [done] })
        mem.pool).map fun pool => ({ mem with pool := pool }, .emptyTest)
  | .reset =>
      assign (fun pool => { pool with
        queue := { pool.queue with front := none, rear := none, len := 0 }, v := 0 }) .freeSem
  | .freeSem => assign (fun pool => { pool with semFreed := true }) (.freeThread 0)
  -- `thread_destroy` of each thread, then `free(thread_pool)`
  | .freeThread n => .act fun mem _ =>
      if n < mem.pool.total then
        some ({ mem with pool := { mem.pool with
                  threads := Function.update mem.pool.threads n .dangling } }, .freeThread (n + 1))
      else some (mem, .freePool)
  | .freePool => assign (fun pool => { pool with freed := true }) .destroyed
  | .destroyed => .halt

/-- The program of a pool with `n` workers and `m` clients. -/
def code (n m : Nat) : Code (Tid n m) Mutex Cond Mem Choice Pc
  | .worker i, pc => workerCode i pc
  | .client _, pc => clientCode pc
  | .owner, pc => ownerCode n pc

abbrev PoolState (n m : Nat) := State (Tid n m) Mutex Cond Mem Pc

/-- Nothing has been called. -/
def initState (n m : Nat) : PoolState n m where
  data := { statics := { keepalive := false, onHold := false }, pool := newPool }
  owner := fun _ => none
  pc := fun
    | .worker _ => WorkerPc.unborn
    | .client _ => ClientPc.idle
    | .owner => OwnerPc.initHold
  sleep := fun _ => .awake

section Effects

variable {P : Type} {d d' : Mem} {choice : Choice}

theorem branch_effect {test : Mem → Bool} {yes no next : P}
    (h : (branch test yes no).effect d choice = some (d', next)) :
    d' = d ∧ (test d = true ∧ next = yes ∨ test d = false ∧ next = no) := by
  cases h
  refine ⟨rfl, ?_⟩
  cases htest : test d
  · exact .inr ⟨rfl, rfl⟩
  · exact .inl ⟨rfl, rfl⟩

theorem alloc_effect {P : Type} {f : Pool → Pool} {next fail p : P}
    (h : (alloc f next fail).effect d choice = some (d', p)) :
    (d' = { d with pool := f d.pool } ∧ p = next) ∨ (d' = d ∧ p = fail) := by
  cases choice with
  | alloc ok =>
      cases ok <;> cases h
      · exact .inr ⟨rfl, rfl⟩
      · exact .inl ⟨rfl, rfl⟩
  | _ => cases h

/-- How a call of `thpool_wait` goes on, with the data as they are. -/
inductive WaitStep (d : Mem) : WaitPc → WaitPc → Prop
  | enter : WaitStep d .lock .readLen
  | jobs (h : d.pool.queue.len ≠ 0) : WaitStep d .readLen .cond
  | empty (h : d.pool.queue.len = 0) : WaitStep d .readLen .readWorking
  | busy (h : d.pool.working ≠ 0) : WaitStep d .readWorking .cond
  | idle (h : d.pool.working = 0) : WaitStep d .readWorking .unlock
  | again : WaitStep d .cond .readLen
  | leave : WaitStep d .unlock .returned

theorem wait_effect {pt : WaitPc → P} {ret next : P} (k : WaitPc)
    (h : (waitCode pt ret k).effect d choice = some (d', next)) :
    d' = d ∧ ((∃ k', next = pt k' ∧ WaitStep d k k') ∨ next = ret) := by
  cases k with
  | readLen =>
      rw [waitCode] at h
      obtain ⟨rfl, ⟨ht, rfl⟩ | ⟨ht, rfl⟩⟩ := branch_effect h
      · exact ⟨rfl, .inl ⟨_, rfl, .jobs (by simpa using ht)⟩⟩
      · exact ⟨rfl, .inl ⟨_, rfl, .empty (by simpa using ht)⟩⟩
  | readWorking =>
      rw [waitCode] at h
      obtain ⟨rfl, ⟨ht, rfl⟩ | ⟨ht, rfl⟩⟩ := branch_effect h
      · exact ⟨rfl, .inl ⟨_, rfl, .busy (by simpa using ht)⟩⟩
      · exact ⟨rfl, .inl ⟨_, rfl, .idle (by simpa using ht)⟩⟩
  | lock =>
      cases h
      exact ⟨rfl, .inl ⟨_, rfl, .enter⟩⟩
  | cond =>
      cases h
      exact ⟨rfl, .inl ⟨_, rfl, .again⟩⟩
  | unlock =>
      cases h
      exact ⟨rfl, .inl ⟨_, rfl, .leave⟩⟩
  | returned =>
      cases h
      exact ⟨rfl, .inr rfl⟩

/-- A running job goes on to its end, or calls `thpool_wait` or `thpool_add_work`. -/
theorem run_effect {i : Nat} {job : Ptr} {next : WorkerPc}
    (h : (workerCode i (.run job)).effect d choice = some (d', next)) :
    (d' = d ∧ (next = .free job ∨ next = .wait job d.pool.log.returned .lock)) ∨
      addWork ((d.pool.queue.heap.jobAt job).map Job.id) (.push job) (.run job) d choice
        = some (d', next) := by
  cases choice with
  | go =>
      cases h
      exact .inl ⟨rfl, .inl rfl⟩
  | wait =>
      cases h
      exact .inl ⟨rfl, .inr rfl⟩
  | _ => exact .inr h

/-- An idle client calls `thpool_wait` or `thpool_add_work`. -/
theorem idle_effect {next : ClientPc}
    (h : (clientCode .idle).effect d choice = some (d', next)) :
    (d' = d ∧ next = .wait d.pool.log.returned .lock) ∨
      addWork none .push .idle d choice = some (d', next) := by
  cases choice with
  | wait =>
      cases h
      exact .inl ⟨rfl, rfl⟩
  | _ => exact .inr h

end Effects

/-! ## Runs -/

/-- The client is inside `thpool_add_work`. -/
@[simp] def ClientPc.adding : ClientPc → Bool
  | .push _ | .added _ => true
  | _ => false

/-- What the callers promise: a client calls only a pool that `thpool_init` has returned and
that is not being destroyed, and `thpool_destroy` is called when no client is inside
`thpool_add_work`. -/
def CallsOk {n m : Nat} (s : PoolState n m) : Action (Tid n m) Choice → Prop
  | .run (.client c) _ _ => s.pc (.client c) = ClientPc.idle → s.pc .owner = OwnerPc.ready
  | .run .owner _ _ =>
      s.pc .owner = OwnerPc.ready → ∀ c, (s.pc (.client c) : ClientPc).adding = false
  | _ => True

instance {n m : Nat} (s : PoolState n m) : (a : Action (Tid n m) Choice) → Decidable (CallsOk s a)
  | .run (.client c) _ _ =>
      inferInstanceAs (Decidable (s.pc (.client c) = ClientPc.idle → s.pc .owner = OwnerPc.ready))
  | .run .owner _ _ =>
      inferInstanceAs (Decidable
        (s.pc .owner = OwnerPc.ready → ∀ c, (s.pc (.client c) : ClientPc).adding = false))
  | .run (.worker _) _ _ => .isTrue trivial
  | .spurious _ => .isTrue trivial

/-- The states of one pool that its runs reach. -/
def PoolReachable {n m : Nat} (s : PoolState n m) : Prop :=
  Reachable (· = initState n m) (StepsIf CallsOk (step (code n m))) s

/-- A run that is carried out as scheduled. -/
theorem poolReachable_of_run {n m : Nat} (as : List (Action (Tid n m) Choice))
    (p : PoolState n m → Bool)
    (h : (execute (guarded CallsOk (step (code n m))) (initState n m) as).any p = true) :
    ∃ s, PoolReachable s ∧ p s = true :=
  reachable_guarded as p h

/-- There is a thread `0` of one, with the `Zero` that the literal `0 : Fin 1` asks for. -/
instance instNeZeroOne : @NeZero Nat Zero.ofOfNat0 1 := Nat.instNeZeroSucc

/-- `k` steps of one thread, all with the same choice. -/
def times {n m : Nat} (t : Tid n m) (k : Nat) (choice : Choice) : List (Action (Tid n m) Choice) :=
  List.replicate k (.run t choice fun _ => true)

/-- A run of `thpool_init` in which nothing fails. -/
def startUp (n m : Nat) : List (Action (Tid n m) Choice) :=
  times .owner 2 .go ++ times .owner 3 (.alloc true) ++ times .owner n (.threadInit .ok) ++
    times .owner 1 .go ++ (List.finRange n).flatMap (fun i => times (.worker i) 4 .go) ++
    times .owner 1 .go

/-- `thpool_destroy` has been called. -/
@[simp] def OwnerPc.destroying : OwnerPc → Bool
  | .initHold | .initKeepalive | .initPool | .initQueue | .initThreads | .spawn _ | .spin
  | .failed | .ready => false
  | _ => true

end CPlayground.Thpool
