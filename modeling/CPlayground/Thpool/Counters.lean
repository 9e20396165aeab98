import CPlayground.Thpool.Locks

set_option autoImplicit false

/-! # The counters and the life of a pool

`num_threads_alive` and `num_threads_working` are the numbers of workers in the corresponding
regions of `thread_do` (`Counts`). Together with the phases of `thpool_init` and
`thpool_destroy` they say what the owner's two loops achieve: once `thpool_init` has returned,
every worker has been counted, and once `thpool_destroy` has left its loops, every worker has
left `thread_do` but for an unlock (`Phases`).
-/

namespace CPlayground.Thpool

open Threads

/-! ## Regions -/

/-- Between the two updates of `num_threads_alive`. -/
@[simp] def WorkerPc.alive : WorkerPc → Bool
  | .unborn | .startLock | .startInc | .exitUnlock | .exited => false
  | _ => true

/-- Between the two updates of `num_threads_working`. -/
@[simp] def WorkerPc.working : WorkerPc → Bool
  | .workUnlock | .pull _ | .call _ | .run _ | .push _ _ | .added _ _ | .wait _ _ _ | .free _
  | .doneLock | .doneDec => true
  | _ => false

/-- Counted in `num_threads_working`, or about to look whether anyone is. -/
@[simp] def WorkerPc.busy : WorkerPc → Bool
  | .doneTest | .doneSignal => true
  | pc => pc.working

/-- Inside `bsem_wait` before a wait, or inside `thpool_wait`. -/
@[simp] def WorkerPc.waits : WorkerPc → Bool
  | .semCond | .wait _ _ _ => true
  | _ => false

/-- Past the first update of `num_threads_alive`. -/
@[simp] def WorkerPc.started : WorkerPc → Bool
  | .unborn | .startLock | .startInc => false
  | _ => true

/-- Past the last update of `num_threads_alive`. -/
@[simp] def WorkerPc.gone : WorkerPc → Bool
  | .exitUnlock | .exited => true
  | _ => false

/-- Past the last test of `threads_keepalive`. -/
@[simp] def WorkerPc.leaving : WorkerPc → Bool
  | .exitLock | .exitDec => true
  | pc => pc.gone

/-- Before `thpool_init` creates the first thread. -/
@[simp] def OwnerPc.early : OwnerPc → Bool
  | .initHold | .initKeepalive | .initPool | .initQueue | .initThreads | .failed => true
  | _ => false

/-- `thpool_init` has returned a pool. -/
@[simp] def OwnerPc.returned : OwnerPc → Bool
  | .ready => true
  | pc => pc.destroying

/-- `thpool_destroy` has reached `jobqueue_destroy`. -/
@[simp] def OwnerPc.final : OwnerPc → Bool
  | .emptyTest | .pull _ | .freeJob _ | .reset | .freeSem | .freeThread _ | .freePool
  | .destroyed => true
  | _ => false

/-- `thpool_init` has set `threads_keepalive`, and `thpool_destroy` has not been called. -/
@[simp] def OwnerPc.inService : OwnerPc → Bool
  | .initPool | .initQueue | .initThreads | .spawn _ | .spin | .ready => true
  | _ => false

/-- `thpool_destroy` has cleared `threads_keepalive`. -/
@[simp] def OwnerPc.cleared : OwnerPc → Bool
  | .total | .clear => false
  | pc => pc.destroying

theorem WorkerPc.gone_of {pc : WorkerPc} (hs : pc.started = true) (ha : pc.alive = false) :
    pc.gone = true := by
  cases pc <;> simp_all

/-! ## Steps -/

/-- What the sections of the queue and the semaphore leave alone. -/
structure SameCounts (d d' : Mem) : Prop where
  statics : d'.statics = d.statics
  alive : d'.pool.alive = d.pool.alive
  working : d'.pool.working = d.pool.working
  created : d'.pool.created = d.pool.created

/-- The sections of the queue and the semaphore write the queue, the value and the log. -/
def QueueFrame (d d' : Mem) : Prop :=
  ∃ queue v log, d' = { d with pool := { d.pool with queue := queue, v := v, log := log } }

theorem QueueFrame.counts {d d' : Mem} (h : QueueFrame d d') : SameCounts d d' := by
  obtain ⟨queue, v, log, rfl⟩ := h
  exact ⟨rfl, rfl, rfl, rfl⟩

theorem QueueFrame.freed {d d' : Mem} (h : QueueFrame d d') :
    d'.pool.freed = d.pool.freed := by
  obtain ⟨queue, v, log, rfl⟩ := h
  rfl

section Procedures

variable {P : Type} {d d' : Mem} {choice : Choice} {next : P}

theorem post_counts {wakeUp : P → PoolInstr P} {pt : PostPc → P} {ret : P}
    (hwake : ∀ p d ch, (wakeUp p).effect d ch = some (d, p)) (k : PostPc)
    (h : (postWith wakeUp pt ret k).effect d choice = some (d', next)) :
    QueueFrame d d' ∧ d'.pool.queue = d.pool.queue ∧ ((∃ k, next = pt k) ∨ next = ret) := by
  cases k with
  | signal =>
      rw [postWith, hwake] at h
      cases h
      exact ⟨⟨_, _, _, rfl⟩, rfl, .inl ⟨_, rfl⟩⟩
  | unlock =>
      cases h
      exact ⟨⟨_, _, _, rfl⟩, rfl, .inr rfl⟩
  | _ =>
      cases h
      exact ⟨⟨_, _, _, rfl⟩, rfl, .inl ⟨_, rfl⟩⟩

theorem push_counts {pt : PushPc → P} {ret : Nat → P} (k : PushPc)
    (h : (jobqueuePush pt ret k).effect d choice = some (d', next)) :
    QueueFrame d d' ∧ ((∃ k, next = pt k) ∨ ∃ id, next = ret id) := by
  cases k with
  | lock job =>
      cases h
      exact ⟨⟨_, _, _, rfl⟩, .inl ⟨_, rfl⟩⟩
  | link job =>
      obtain ⟨⟨pool, id⟩, hlink, he⟩ := Option.map_eq_some_iff.1 h
      cases he
      obtain ⟨queue, -, hlink⟩ := Option.bind_eq_some_iff.1 hlink
      obtain ⟨new, -, hlink⟩ := Option.bind_eq_some_iff.1 hlink
      cases hlink
      exact ⟨⟨_, _, _, rfl⟩, .inl ⟨_, rfl⟩⟩
  | post id k =>
      rw [jobqueuePush] at h
      obtain ⟨hc, -, ⟨k, hk⟩ | hk⟩ := post_counts (fun p d ch => rfl) k h
      · exact ⟨hc, .inl ⟨_, hk⟩⟩
      · exact ⟨hc, .inl ⟨_, hk⟩⟩
  | unlock id =>
      cases h
      exact ⟨⟨_, _, _, rfl⟩, .inr ⟨_, rfl⟩⟩

theorem pull_counts {pt : PullPc → P} {ret : Option Ptr → P} (k : PullPc)
    (h : (jobqueuePull pt ret k).effect d choice = some (d', next)) :
    QueueFrame d d' ∧ ((∃ k, next = pt k) ∨ ∃ job, next = ret job) := by
  cases k with
  | lock =>
      cases h
      exact ⟨⟨_, _, _, rfl⟩, .inl ⟨_, rfl⟩⟩
  | take =>
      obtain ⟨⟨pool, k⟩, htake, he⟩ := Option.map_eq_some_iff.1 h
      cases he
      obtain ⟨job, queue, -, rfl, -⟩ := takeJob_cases htake
      exact ⟨⟨_, _, _, rfl⟩, .inl ⟨_, rfl⟩⟩
  | post job k =>
      rw [jobqueuePull] at h
      obtain ⟨hc, -, ⟨k, hk⟩ | hk⟩ := post_counts (fun p d ch => rfl) k h
      · exact ⟨hc, .inl ⟨_, hk⟩⟩
      · exact ⟨hc, .inl ⟨_, hk⟩⟩
  | unlock job =>
      cases h
      exact ⟨⟨_, _, _, rfl⟩, .inr ⟨_, rfl⟩⟩

theorem addWork_counts {parent : Option Nat} {pt : PushPc → P} {fail : P}
    (h : addWork parent pt fail d choice = some (d', next)) :
    QueueFrame d d' ∧ ((∃ k, next = pt k) ∨ next = fail) := by
  cases choice with
  | addWork job function args =>
      cases job with
      | none =>
          cases h
          exact ⟨⟨_, _, _, rfl⟩, .inr rfl⟩
      | some job =>
          simp only [addWork] at h
          split_ifs at h with hfree
          cases h
          exact ⟨⟨_, _, _, rfl⟩, .inl ⟨_, rfl⟩⟩
  | _ => cases h

end Procedures

/-! ## What workers and clients never write -/

/-- A worker or a client writes the queue, the value of the semaphore, the log and the two
counters; every other field is the owner's. -/
def UserFrame (d d' : Mem) : Prop :=
  ∃ queue v log alive working, d' = { d with pool := { d.pool with
    queue := queue, v := v, log := log, alive := alive, working := working } }

section Frame

variable {d d' : Mem} {choice : Choice}

theorem QueueFrame.user (h : QueueFrame d d') : UserFrame d d' := by
  obtain ⟨queue, v, log, rfl⟩ := h
  exact ⟨_, _, _, _, _, rfl⟩

theorem UserFrame.same : UserFrame d d := ⟨_, _, _, _, _, rfl⟩

theorem UserFrame.freed (h : UserFrame d d') : d'.pool.freed = d.pool.freed := by
  obtain ⟨queue, v, log, alive, working, rfl⟩ := h
  rfl

theorem UserFrame.threads (h : UserFrame d d') : d'.pool.threads = d.pool.threads := by
  obtain ⟨queue, v, log, alive, working, rfl⟩ := h
  rfl

theorem worker_frame {i : Nat} {pc next : WorkerPc}
    (h : (workerCode i pc).effect d choice = some (d', next)) : UserFrame d d' := by
  cases pc with
  | pull k =>
      rw [workerCode] at h
      exact (pull_counts k h).1.user
  | push job k =>
      rw [workerCode] at h
      exact (push_counts k h).1.user
  | wait job before k =>
      rw [workerCode] at h
      rw [(wait_effect k h).1]
      exact .same
  | run job =>
      -- the job returns, or adds work of its own
      rcases run_effect h with ⟨rfl, -⟩ | h
      · exact .same
      · exact (addWork_counts h).1.user
  | call job =>
      obtain ⟨called, -, he⟩ := Option.map_eq_some_iff.1 h
      cases he
      exact ⟨_, _, _, _, _, rfl⟩
  | free job =>
      obtain ⟨pool, hfree, he⟩ := Option.map_eq_some_iff.1 h
      cases he
      obtain ⟨done, -, hfree⟩ := Option.bind_eq_some_iff.1 hfree
      cases hfree
      exact ⟨_, _, _, _, _, rfl⟩
  | unborn =>
      simp only [workerCode, Instr.effect, Option.ite_none_right_eq_some] at h
      cases h.2
      exact .same
  | loop | semTest | aliveTest | doneTest =>
      rw [workerCode] at h
      rw [(branch_effect h).1]
      exact .same
  | exited => cases h
  | _ =>
      cases h
      exact ⟨_, _, _, _, _, rfl⟩

theorem client_frame {pc next : ClientPc}
    (h : (clientCode pc).effect d choice = some (d', next)) : UserFrame d d' := by
  cases pc with
  | idle =>
      rcases idle_effect h with ⟨rfl, -⟩ | h
      · exact .same
      · exact (addWork_counts h).1.user
  | push k =>
      rw [clientCode] at h
      exact (push_counts k h).1.user
  | added id =>
      cases h
      exact ⟨_, _, _, _, _, rfl⟩
  | wait before k =>
      rw [clientCode] at h
      rw [(wait_effect k h).1]
      exact .same

end Frame

/-! ## Progress -/

/-- What a step of a worker does to the counters and to its own progress. -/
structure WorkerStep (d d' : Mem) (pc next : WorkerPc) : Prop where
  statics : d'.statics = d.statics
  created : d'.pool.created = d.pool.created
  alive : d'.pool.alive = d.pool.alive + next.alive.toNat - pc.alive.toNat
  working : d'.pool.working = d.pool.working + next.working.toNat - pc.working.toNat
  counting : next.working = pc.working ∨ pc = .workInc ∨ pc = .doneDec
  started : pc.started = true → next.started = true
  gone : pc.gone = true → d' = d ∧ next.gone = true
  busy : pc.busy = true →
    next.busy = true ∨ pc = .doneTest ∧ d.pool.working ≠ 0 ∨ pc = .doneSignal
  leaving : next.leaving = true → pc.leaving = true ∨ pc = .loop ∧ d.statics.keepalive = false
  semCond : next = .semCond → d' = d ∧ d.pool.v ≠ 1
  call : ∀ job before k', next = .wait job before k' → d' = d ∧
    (before = d.pool.log.returned ∧ k' = .lock ∨ ∃ k, pc = .wait job before k ∧ WaitStep d k k')

/-- A step that counts nothing, does not leave the loop and starts no wait. -/
theorem WorkerStep.same {d d' : Mem} {pc next : WorkerPc} (h : SameCounts d d')
    (ha : next.alive = pc.alive) (hw : next.working = pc.working)
    (hs : pc.started = true → next.started = true) (hg : pc.gone = false)
    (ht : pc ≠ .doneTest) (hl : next.leaving = pc.leaving) (hn : next.waits = false) :
    WorkerStep d d' pc next where
  statics := h.statics
  created := h.created
  alive := by rw [h.alive, ha, Nat.add_sub_cancel]
  working := by rw [h.working, hw, Nat.add_sub_cancel]
  counting := .inl hw
  started := hs
  gone hc := absurd (hg.symm.trans hc) Bool.false_ne_true
  busy hc := by
    -- a worker that is counted stays counted, and that is busy
    have hnext : pc.working = true → next.busy = true := by
      intro hp
      rw [← hw] at hp
      revert hp
      cases next <;> simp
    revert hc hnext ht
    cases pc <;> simp +contextual
  leaving hc := .inl (hl ▸ hc)
  semCond he := by
    rw [he] at hn
    exact absurd hn.symm Bool.false_ne_true
  call job before k' he := by
    rw [he] at hn
    exact absurd hn.symm Bool.false_ne_true

/-- A step into, or inside, a call of `thpool_wait`. -/
theorem WorkerStep.calls {d : Mem} {pc : WorkerPc} {job : Ptr} {before : List Nat} {k' : WaitPc}
    (hp : pc.working = true) (hcall : before = d.pool.log.returned ∧ k' = .lock ∨
      ∃ k, pc = .wait job before k ∧ WaitStep d k k') :
    WorkerStep d d pc (.wait job before k') where
  statics := rfl
  created := rfl
  alive := by
    revert hp
    cases pc <;> simp
  working := by
    rw [hp]
    rfl
  counting := .inl hp.symm
  started _ := rfl
  gone hc := by
    revert hp hc
    cases pc <;> simp
  busy _ := .inl rfl
  leaving hc := absurd hc Bool.false_ne_true
  semCond he := by cases he
  call job' before' k'' he := by
    cases he
    exact ⟨rfl, hcall⟩

section Threads

variable {d d' : Mem} {choice : Choice}

theorem SameCounts.rfl' : SameCounts d d := ⟨rfl, rfl, rfl, rfl⟩

theorem worker_step {i : Nat} {pc next : WorkerPc}
    (h : (workerCode i pc).effect d choice = some (d', next)) : WorkerStep d d' pc next := by
  cases pc with
  | pull k =>
      rw [workerCode] at h
      obtain ⟨hc, ⟨k, rfl⟩ | ⟨job, rfl⟩⟩ := pull_counts k h
      · exact .same hc.counts rfl rfl (fun _ => rfl) rfl (by simp) rfl rfl
      · cases job <;> exact .same hc.counts rfl rfl (fun _ => rfl) rfl (by simp) rfl rfl
  | push job k =>
      rw [workerCode] at h
      obtain ⟨hc, ⟨k, rfl⟩ | ⟨id, rfl⟩⟩ := push_counts k h <;>
        exact .same hc.counts rfl rfl (fun _ => rfl) rfl (by simp) rfl rfl
  | wait job before k =>
      rw [workerCode] at h
      obtain ⟨rfl, ⟨k', rfl, hk⟩ | rfl⟩ := wait_effect k h
      · exact .calls rfl (.inr ⟨k, rfl, hk⟩)
      · exact .same .rfl' rfl rfl (fun _ => rfl) rfl (by simp) rfl rfl
  | run job =>
      rcases run_effect h with ⟨rfl, rfl | rfl⟩ | h
      · exact .same .rfl' rfl rfl (fun _ => rfl) rfl (by simp) rfl rfl
      · exact .calls rfl (.inl ⟨rfl, rfl⟩)
      · obtain ⟨hc, ⟨k, rfl⟩ | rfl⟩ := addWork_counts h <;>
          exact .same hc.counts rfl rfl (fun _ => rfl) rfl (by simp) rfl rfl
  | call job =>
      obtain ⟨called, -, he⟩ := Option.map_eq_some_iff.1 h
      cases he
      exact .same ⟨rfl, rfl, rfl, rfl⟩ rfl rfl (fun _ => rfl) rfl (by simp) rfl rfl
  | free job =>
      obtain ⟨pool, hfree, he⟩ := Option.map_eq_some_iff.1 h
      cases he
      obtain ⟨done, -, hfree⟩ := Option.bind_eq_some_iff.1 hfree
      cases hfree
      exact .same ⟨rfl, rfl, rfl, rfl⟩ rfl rfl (fun _ => rfl) rfl (by simp) rfl rfl
  | unborn =>
      simp only [workerCode, Instr.effect, Option.ite_none_right_eq_some] at h
      cases h.2
      exact .same .rfl' rfl rfl (fun hc => hc) rfl (by simp) rfl rfl
  | semTest =>
      rw [workerCode] at h
      obtain ⟨rfl, ⟨ht, rfl⟩ | ⟨-, rfl⟩⟩ := branch_effect h
      · constructor <;> simp
        simpa using ht
      · exact .same .rfl' rfl rfl (fun _ => rfl) rfl (by simp) rfl rfl
  | doneTest =>
      rw [workerCode] at h
      obtain ⟨rfl, ⟨-, rfl⟩ | ⟨ht, rfl⟩⟩ := branch_effect h
      · constructor <;> simp
      · constructor <;> simp
        simpa using ht
  | loop =>
      rw [workerCode] at h
      obtain ⟨rfl, ⟨-, rfl⟩ | ⟨ht, rfl⟩⟩ := branch_effect h
      · exact .same .rfl' rfl rfl (fun _ => rfl) rfl (by simp) rfl rfl
      · constructor <;> simp
        exact ht
  | aliveTest =>
      rw [workerCode] at h
      obtain ⟨rfl, ⟨-, rfl⟩ | ⟨-, rfl⟩⟩ := branch_effect h <;>
        exact .same .rfl' rfl rfl (fun _ => rfl) rfl (by simp) rfl rfl
  | startInc | workInc | doneDec | exitDec | exitUnlock =>
      cases h
      constructor <;> simp
  | exited => cases h
  | startLock =>
      cases h
      exact .same .rfl' rfl rfl (fun hc => hc) rfl (by simp) rfl rfl
  | added job id | semTake =>
      cases h
      exact .same ⟨rfl, rfl, rfl, rfl⟩ rfl rfl (fun _ => rfl) rfl (by simp) rfl rfl
  | _ =>
      cases h
      exact .same .rfl' rfl rfl (fun _ => rfl) rfl (by simp) rfl rfl

/-- A worker that has not been created does nothing. -/
theorem unborn_step {i : Nat} {next : WorkerPc}
    (h : (workerCode i .unborn).effect d choice = some (d', next)) :
    d.pool.created i = true := by
  simp only [workerCode, Instr.effect, Option.ite_none_right_eq_some] at h
  exact h.1

/-- A worker past its last test of the flag stays there. -/
theorem leaving_step {i : Nat} {pc next : WorkerPc}
    (h : (workerCode i pc).effect d choice = some (d', next)) (hl : pc.leaving = true) :
    next.leaving = true := by
  cases pc with
  | exitLock | exitDec | exitUnlock =>
      cases h
      rfl
  | exited => cases h
  | _ => cases hl

/-- What a step of a client does. -/
structure ClientStep (d d' : Mem) (pc next : ClientPc) : Prop where
  counts : SameCounts d d'
  quiet : pc ≠ .idle → pc.adding = false → d' = d ∧ next.adding = false
  call : ∀ before k', next = .wait before k' → d' = d ∧
    (before = d.pool.log.returned ∧ k' = .lock ∨ ∃ k, pc = .wait before k ∧ WaitStep d k k')

theorem client_step {pc next : ClientPc}
    (h : (clientCode pc).effect d choice = some (d', next)) : ClientStep d d' pc next := by
  cases pc with
  | idle =>
      rcases idle_effect h with ⟨rfl, rfl⟩ | h
      · refine ⟨.rfl', fun hc => absurd rfl hc, fun before k' he => ?_⟩
        cases he
        exact ⟨rfl, .inl ⟨rfl, rfl⟩⟩
      · obtain ⟨hcounts, ⟨k, rfl⟩ | rfl⟩ := addWork_counts h <;>
          exact ⟨hcounts.counts, fun hc => absurd rfl hc, fun before k' he => by cases he⟩
  | push k =>
      rw [clientCode] at h
      obtain ⟨hcounts, ⟨k, rfl⟩ | ⟨id, rfl⟩⟩ := push_counts k h <;>
        exact ⟨hcounts.counts, fun _ hc => absurd hc.symm Bool.false_ne_true,
          fun before k' he => by cases he⟩
  | added id =>
      cases h
      exact ⟨⟨rfl, rfl, rfl, rfl⟩, fun _ hc => absurd hc.symm Bool.false_ne_true,
        fun before k' he => by cases he⟩
  | wait before k =>
      rw [clientCode] at h
      obtain ⟨rfl, ⟨k', rfl, hk⟩ | rfl⟩ := wait_effect k h
      · refine ⟨.rfl', fun _ _ => ⟨rfl, rfl⟩, fun before k' he => ?_⟩
        cases he
        exact ⟨rfl, .inr ⟨k, rfl, hk⟩⟩
      · exact ⟨.rfl', fun _ _ => ⟨rfl, rfl⟩, fun before k' he => by cases he⟩

/-- What a step of the owner does to the counters, the flags and its own progress. -/
structure OwnerStep (n : Nat) (d d' : Mem) (pc next : OwnerPc) : Prop where
  counts : pc = .initPool ∨ d'.pool.alive = d.pool.alive ∧ d'.pool.working = d.pool.working
  early : next.early = true → pc.early = true
  fresh : pc.early = true → d.pool = newPool → d'.pool = newPool
  returned : next.returned = true → pc.returned = true ∨ d.pool.alive = n
  destroying : next.destroying = true → pc.destroying = true ∨ pc = .ready
  serving : next.destroying = false → pc.destroying = false
  final : next.final = true → pc.final = true ∨ pc.destroying = true ∧ d.pool.alive = 0
  reset : next = .reset → d'.pool.queue.len = 0
  inService : next.inService = true →
    pc.inService = true ∧ d'.statics = d.statics ∨
      next = .initPool ∧ d'.statics.keepalive = true
  cleared : next.cleared = true →
    pc.cleared = true ∨ pc = .clear ∧ d'.statics.keepalive = false
  flag : d'.statics.keepalive = d.statics.keepalive ∨
    pc = .initKeepalive ∧ d'.statics.keepalive = true ∨
    pc = .clear ∧ d'.statics.keepalive = false

theorem owner_step {n : Nat} {pc next : OwnerPc}
    (h : (ownerCode n pc).effect d choice = some (d', next)) : OwnerStep n d d' pc next := by
  cases pc with
  | pull k =>
      rw [ownerCode] at h
      obtain ⟨hc, ⟨k, rfl⟩ | ⟨job, rfl⟩⟩ := pull_counts k h <;>
        exact ⟨.inr ⟨hc.counts.alive, hc.counts.working⟩, by simp, by simp,
          fun _ => .inl rfl, fun _ => .inl rfl, by simp, fun _ => .inl rfl, by simp, by simp,
          fun _ => .inl rfl, .inl (by rw [hc.counts.statics])⟩
  | postAll late k =>
      rw [ownerCode] at h
      obtain ⟨hc, -, ⟨k, rfl⟩ | rfl⟩ := post_counts (fun p d ch => rfl) k h <;>
        exact ⟨.inr ⟨hc.counts.alive, hc.counts.working⟩, by simp, by simp,
          fun _ => .inl rfl, fun _ => .inl rfl, by simp, by simp, by simp, by simp,
          fun _ => .inl rfl, .inl (by rw [hc.counts.statics])⟩
  | initPool | initQueue | initThreads =>
      rw [ownerCode] at h
      obtain ⟨rfl, rfl⟩ | ⟨rfl, rfl⟩ := alloc_effect h <;> constructor <;>
        simp +contextual [newPool]
  | spin | emptyTest =>
      rw [ownerCode] at h
      obtain ⟨rfl, ⟨ht, rfl⟩ | ⟨ht, rfl⟩⟩ := branch_effect h <;> constructor <;>
        simp_all
  | loop late =>
      cases late with
      | true =>
          rw [ownerCode] at h
          obtain ⟨rfl, ⟨ht, rfl⟩ | ⟨ht, rfl⟩⟩ := branch_effect h <;> constructor <;>
            simp_all
      | false =>
          cases choice with
          | clock timeUp =>
              cases h
              cases timeUp || d.pool.alive == 0 <;> constructor <;>
                simp
          | _ => cases h
  | spawn k =>
      simp only [ownerCode, Instr.effect] at h
      split at h
      · cases choice with
        | threadInit outcome =>
            cases h
            constructor <;> simp
        | _ => cases h
      · cases h
        constructor <;> simp
  | freeJob job =>
      cases job with
      | none =>
          cases h
          constructor <;> simp
      | some job =>
          obtain ⟨pool, hfree, he⟩ := Option.map_eq_some_iff.1 h
          cases he
          obtain ⟨done, -, hfree⟩ := Option.bind_eq_some_iff.1 hfree
          cases hfree
          constructor <;> simp
  | ready =>
      simp only [ownerCode, Instr.effect, Option.ite_none_right_eq_some] at h
      cases h.2
      constructor <;> simp
  | freeThread k =>
      simp only [ownerCode, Instr.effect] at h
      split at h <;> cases h <;> constructor <;>
        simp
  | failed | destroyed => cases h
  | _ =>
      cases h
      constructor <;> simp

end Threads

/-! ## The invariant -/

section Phases

variable {n m : Nat}

abbrev workerAt (s : PoolState n m) (i : Fin n) : WorkerPc := s.pc (.worker i)

abbrev clientAt (s : PoolState n m) (c : Fin m) : ClientPc := s.pc (.client c)

abbrev ownerAt (s : PoolState n m) : OwnerPc := s.pc .owner

/-- The counters, and what holds in each phase of the owner. -/
structure Phases (s : PoolState n m) : Prop where
  early : (ownerAt s).early = true → (∀ i, workerAt s i = .unborn) ∧
    (∀ c, clientAt s c = .idle) ∧ s.data.pool = newPool
  alive : s.data.pool.alive = count fun i => (workerAt s i).alive
  working : s.data.pool.working = count fun i => (workerAt s i).working
  started : (ownerAt s).returned = true → ∀ i, (workerAt s i).started = true
  gone : (ownerAt s).final = true → ∀ i, (workerAt s i).gone = true
  closed : (ownerAt s).destroying = true → ∀ c, (clientAt s c).adding = false
  reset : ownerAt s = .reset → s.data.pool.queue.len = 0

theorem phases_init : Phases (initState n m) where
  early _ := ⟨fun _ => rfl, fun _ => rfl, rfl⟩
  alive := (count_eq_zero.2 fun _ => rfl).symm
  working := (count_eq_zero.2 fun _ => rfl).symm
  started h := absurd h Bool.false_ne_true
  gone h := absurd h Bool.false_ne_true
  closed h := absurd h Bool.false_ne_true
  reset h := by cases h

variable {s s' : PoolState n m} {choice : Choice} {wakes : Tid n m → Bool}

theorem Phases.congr (h : Phases s) (hd : s'.data.pool = s.data.pool) (hp : s'.pc = s.pc) :
    Phases s' := by
  obtain ⟨h1, h2, h3, h4, h5, h6, h7⟩ := h
  constructor <;> simp only [workerAt, clientAt, ownerAt, hd, hp] <;> assumption

/-- The queue is empty where the owner resets it. -/
theorem Phases.len_zero (h : Phases s) (hpc : ownerAt s = .initQueue ∨ ownerAt s = .reset) :
    s.data.pool.queue.len = 0 := by
  rcases hpc with hinit | hreset
  · have hearly : (ownerAt s).early = true := by rw [hinit]; rfl
    rw [(h.early hearly).2.2]
    rfl
  · exact h.reset hreset

theorem worker_ne {i j : Fin n} (h : j ≠ i) : (Tid.worker j : Tid n m) ≠ .worker i :=
  fun he => h (Tid.worker.inj he)

theorem workerAt_self {i : Fin n} {next : WorkerPc}
    (hp : s'.pc = Function.update s.pc (.worker i) next) : workerAt s' i = next := by
  rw [workerAt, hp, Function.update_self]

/-- A step of another thread leaves a worker where it is. -/
theorem workerAt_other {t : Tid n m} {next : Pc t} (hp : s'.pc = Function.update s.pc t next)
    {j : Fin n} (hj : Tid.worker j ≠ t) : workerAt s' j = workerAt s j := by
  rw [workerAt, hp, Function.update_of_ne hj]

/-- The counters after a step of the worker `i`. -/
theorem count_worker {i : Fin n} {next : WorkerPc} (f : WorkerPc → Bool)
    (hp : s'.pc = Function.update s.pc (.worker i) next) :
    (count fun j => f (workerAt s' j)) + (f (workerAt s i)).toNat
      = (count fun j => f (workerAt s j)) + (f next).toNat := by
  rw [← workerAt_self hp]
  refine count_step (fun j => f (workerAt s j)) (fun j => f (workerAt s' j)) i fun j hj => ?_
  exact congrArg f (workerAt_other hp (worker_ne hj))

theorem Phases.worker (h : Phases s) {i : Fin n} {next : WorkerPc}
    (he : (workerCode i (workerAt s i)).effect s.data choice = some (s'.data, next))
    (hp : s'.pc = Function.update s.pc (.worker i) next) : Phases s' := by
  have hstep := worker_step he
  have howner : ownerAt s' = ownerAt s := by simp [ownerAt, hp]
  have hclient : ∀ c, clientAt s' c = clientAt s c := fun c => by simp [clientAt, hp]
  have hself : workerAt s' i = next := workerAt_self hp
  have hother : ∀ j, j ≠ i → workerAt s' j = workerAt s j :=
    fun j hj => workerAt_other hp (worker_ne hj)
  refine ⟨fun hearly => ?_, ?_, ?_, fun hret j => ?_, fun hfin j => ?_, ?_, fun hres => ?_⟩
  · -- before the first `pthread_create` no worker can take a step
    exfalso
    obtain ⟨hw, -, hnew⟩ := h.early (howner ▸ hearly)
    rw [hw i] at he
    have hcreated := unborn_step he
    rw [hnew] at hcreated
    exact absurd hcreated Bool.false_ne_true
  · have hc := count_worker WorkerPc.alive hp
    -- one part of the sum changes as the counter does
    have hle := le_count (p := fun j => (workerAt s j).alive) i
    have ha := hstep.alive
    rw [h.alive] at ha
    omega
  · have hc := count_worker WorkerPc.working hp
    have hle := le_count (p := fun j => (workerAt s j).working) i
    have ha := hstep.working
    rw [h.working] at ha
    omega
  · have hs := h.started (howner ▸ hret)
    by_cases hj : j = i
    · subst hj
      rw [hself]
      exact hstep.started (hs j)
    · rw [hother j hj]
      exact hs j
  · have hg := h.gone (howner ▸ hfin)
    by_cases hj : j = i
    · subst hj
      rw [hself]
      exact (hstep.gone (hg j)).2
    · rw [hother j hj]
      exact hg j
  · intro hd c
    rw [hclient c]
    exact h.closed (howner ▸ hd) c
  · have hres' := howner ▸ hres
    have hg := h.gone (by rw [hres']; rfl) i
    rw [(hstep.gone hg).1]
    exact h.reset hres'

theorem Phases.client (h : Phases s) {c : Fin m} {next : ClientPc}
    (hcalls : clientAt s c = .idle → ownerAt s = .ready)
    (he : (clientCode (clientAt s c)).effect s.data choice = some (s'.data, next))
    (hp : s'.pc = Function.update s.pc (.client c) next) : Phases s' := by
  obtain ⟨hcounts, hquiet, -⟩ := client_step he
  have howner : ownerAt s' = ownerAt s := by simp [ownerAt, hp]
  have hworker : workerAt s' = workerAt s := funext fun i => by simp [workerAt, hp]
  -- a client that is not adding work, in a pool that is being destroyed
  have hdone : (ownerAt s).destroying = true → s'.data = s.data ∧ next.adding = false := by
    intro hd
    refine hquiet (fun hidle => ?_) (h.closed hd c)
    rw [hcalls hidle] at hd
    exact absurd hd Bool.false_ne_true
  refine ⟨fun hearly => ?_, ?_, ?_, ?_, ?_, fun hd b => ?_, fun hres => ?_⟩
  · exfalso
    obtain ⟨-, hc, -⟩ := h.early (howner ▸ hearly)
    rw [howner, hcalls (hc c)] at hearly
    exact absurd hearly Bool.false_ne_true
  · rw [hcounts.alive, h.alive, hworker]
  · rw [hcounts.working, h.working, hworker]
  · rw [howner, hworker]
    exact h.started
  · rw [howner, hworker]
    exact h.gone
  · have hd' := howner ▸ hd
    by_cases hb : b = c
    · subst hb
      have hself : clientAt s' b = next := by simp [clientAt, hp]
      rw [hself]
      exact (hdone hd').2
    · have hb' : (Tid.client b : Tid n m) ≠ .client c := fun he => hb (Tid.client.inj he)
      simp only [clientAt, hp, Function.update_of_ne hb']
      exact h.closed hd' b
  · have hres' := howner ▸ hres
    rw [(hdone (by rw [hres']; rfl)).1]
    exact h.reset hres'

/-- The owner counts nothing: where `thpool_init` resets the counters, they are zero. -/
theorem Phases.owner_counts (h : Phases s) {d' : Mem} {next : OwnerPc}
    (he : (ownerCode n (ownerAt s)).effect s.data choice = some (d', next)) :
    d'.pool.alive = s.data.pool.alive ∧ d'.pool.working = s.data.pool.working := by
  have hstep := owner_step he
  rcases hstep.counts with hinit | hsame
  · have hearly : (ownerAt s).early = true := by rw [hinit]; rfl
    have hnew := (h.early hearly).2.2
    rw [hstep.fresh hearly hnew, hnew]
    exact ⟨rfl, rfl⟩
  · exact hsame

theorem Phases.owner (h : Phases s) {next : OwnerPc}
    (hcalls : ownerAt s = .ready → ∀ c, (clientAt s c).adding = false)
    (he : (ownerCode n (ownerAt s)).effect s.data choice = some (s'.data, next))
    (hp : s'.pc = Function.update s.pc .owner next) : Phases s' := by
  have hstep := owner_step he
  have howner : ownerAt s' = next := by simp [ownerAt, hp]
  have hworker : workerAt s' = workerAt s := funext fun i => by simp [workerAt, hp]
  have hclient : clientAt s' = clientAt s := funext fun c => by simp [clientAt, hp]
  have hcounts := h.owner_counts he
  -- a pool that is destroyed has been initialised
  have hreturned : ∀ pc : OwnerPc, pc.destroying = true → pc.returned = true := by
    intro pc
    cases pc <;> simp [OwnerPc.destroying]
  refine ⟨fun hearly => ?_, ?_, ?_, fun hret i => ?_, fun hfin i => ?_, fun hd => ?_,
    fun hres => ?_⟩
  · rw [howner] at hearly
    obtain ⟨hw, hc, hnew⟩ := h.early (hstep.early hearly)
    exact ⟨fun i => by rw [hworker, hw i], fun c => by rw [hclient, hc c],
      hstep.fresh (hstep.early hearly) hnew⟩
  · rw [hcounts.1, h.alive, hworker]
  · rw [hcounts.2, h.working, hworker]
  · rw [howner] at hret
    rw [hworker]
    rcases hstep.returned hret with hr | hall
    · exact h.started hr i
    · -- the spin loop has seen all workers counted
      rw [h.alive] at hall
      have hi := count_eq_card (hall.trans (Fintype.card_fin n).symm) i
      revert hi
      cases workerAt s i <;> simp
  · rw [howner] at hfin
    rw [hworker]
    rcases hstep.final hfin with hf | ⟨hd, hzero⟩
    · exact h.gone hf i
    · -- the second loop has seen `num_threads_alive` at zero
      rw [h.alive] at hzero
      exact WorkerPc.gone_of (h.started (hreturned _ hd) i) (count_eq_zero.1 hzero i)
  · rw [howner] at hd
    rw [hclient]
    rcases hstep.destroying hd with hd' | hready
    · exact h.closed hd'
    · exact hcalls hready
  · rw [howner] at hres
    exact hstep.reset hres

theorem Phases.step {a : Action (Tid n m) Choice} (h : Phases s) (hcalls : CallsOk s a)
    (hs : step (code n m) s a = some s') : Phases s' := by
  rcases step_effect hs with ⟨hd, hp⟩ | ⟨t, choice, wakes, next, rfl, he, hp⟩
  · exact h.congr (by rw [hd]) hp
  · cases t with
    | worker i => exact h.worker he hp
    | client c => exact h.client hcalls he hp
    | owner => exact h.owner hcalls he hp

end Phases

end CPlayground.Thpool
