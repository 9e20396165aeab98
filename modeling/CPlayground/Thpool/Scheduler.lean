import CPlayground.Basic.Scheduler
import CPlayground.Thpool.ExactlyOnce
import Mathlib.Data.List.DropRight

set_option autoImplicit false

/-! # The pool is a first-in, first-out scheduler

A refinement mapping from the states of a pool to those of the scheduler (`scheduled`): the
linked list under the queue is the jobs that wait, a worker has claimed the job whose node it
has pulled and not freed, and what `jobqueue_clear` takes is dropped. Every step of a thread is
a step of the scheduler, or one that the scheduler does not see (`step_scheduled`). What holds
of the scheduler then holds of the pool: the order of the jobs with a single worker, and what
`thpool_destroy` leaves behind.
-/

namespace CPlayground.Thpool

open Threads

/-! ## Moves, seen from the jobs -/

/-- The jobs in the hands, and whether their functions have been called. -/
def heldJobs {T : Type} (pool : Pool) (hands : T → Hand) (t : T) : Option (Job × Bool) :=
  ((hands t).heldJob pool.queue.heap).map fun job => (job, (hands t).called)

/-- What a move does to the queued jobs, the jobs in the hands and the log. -/
inductive JobEvent {T : Type} [DecidableEq T] (clears : Bool) (t : T)
    (jobs jobs' : List Job) (held held' : T → Option (Job × Bool)) (log log' : Log) : Prop
  | hidden (hjobs : jobs' = jobs) (hheld : held' = held) (haccepted : log'.accepted = log.accepted)
      (hpulled : log'.pulled = log.pulled) (hcalled : log'.called = log.called)
      (hfinished : log'.finished = log.finished) (hdiscarded : log'.discarded = log.discarded)
  | accept {job : Job} (hnew : job ∉ log.accepted) (hjobs : jobs' = jobs ++ [job])
      (hheld : held' = held) (hlog : log' = { log with accepted := log.accepted ++ [job] })
  | pull {job : Job} (hfirst : jobs = job :: jobs') (hfree : held t = none)
      (hheld : held' = Function.update held t (some (job, false)))
      (hlog : log' = { log with pulled := log.pulled ++ [job] })
  | call {job : Job} (hold : held t = some (job, false)) (hjobs : jobs' = jobs)
      (hheld : held' = Function.update held t (some (job, true)))
      (hlog : log' = { log with called := log.called ++ [job] })
  | finish {job : Job} (hold : held t = some (job, true)) (hjobs : jobs' = jobs)
      (hheld : held' = Function.update held t none)
      (hlog : log' = { log with finished := log.finished ++ [job] })
  | discard {job : Job} (hclears : clears = true) (hold : held t = some (job, false))
      (hjobs : jobs' = jobs) (hheld : held' = Function.update held t none)
      (hlog : log' = { log with discarded := log.discarded ++ [job] })

section Moves

variable {T : Type} [Fintype T] [DecidableEq T] {pool pool' : Pool} {hands : T → Hand} {t : T}
  {hand' : Hand} {clears : Bool}

omit [Fintype T] in
/-- What is in the hands when the hand of `t` has changed and the others keep their nodes. -/
theorem heldJobs_update {r : Option (Job × Bool)}
    (hframe : ∀ u, u ≠ t → ∀ p, 0 < (hands u).nodes p →
      pool'.queue.heap.jobAt p = pool.queue.heap.jobAt p)
    (hself : (hand'.heldJob pool'.queue.heap).map (fun job => (job, hand'.called)) = r) :
    heldJobs pool' (Function.update hands t hand') = Function.update (heldJobs pool hands) t r := by
  funext u
  by_cases hu : u = t
  · subst hu
    unfold heldJobs
    rw [Function.update_self, Function.update_self, hself]
  · unfold heldJobs
    rw [Function.update_of_ne hu, Function.update_of_ne hu, Hand.heldJob_congr (hframe u hu)]

omit [Fintype T] in
/-- The same when the hand of `t` shows the same job as before. -/
theorem heldJobs_keep
    (hframe : ∀ u, u ≠ t → ∀ p, 0 < (hands u).nodes p →
      pool'.queue.heap.jobAt p = pool.queue.heap.jobAt p)
    (hself : (hand'.heldJob pool'.queue.heap).map (fun job => (job, hand'.called))
      = heldJobs pool hands t) :
    heldJobs pool' (Function.update hands t hand') = heldJobs pool hands := by
  rw [heldJobs_update hframe hself, Function.update_eq_self]

/-- The jobs of a queue that holds the nodes `ps`. -/
theorem Represents.jobs {q : JobQueue} {ps : List Ptr} (h : Represents q ps) :
    q.jobs = ps.filterMap q.heap.jobAt := by
  unfold JobQueue.jobs
  rw [h.nodes_eq]

omit [DecidableEq T] in
/-- A job that is linked has not been accepted before. -/
theorem Ledger.new_of_pending (h : Ledger pool hands) {job : Job}
    (hpend : (hands t).pendingJob pool.queue.heap = some job) : job ∉ pool.log.accepted := by
  intro hmem
  have hids := h.ids job.id
  have hcount : 0 < pool.log.acceptedIds.count job.id :=
    List.count_pos_iff.2 (List.mem_map_of_mem hmem)
  have hpart : (((hands t).pendingJob pool.queue.heap).toList.map Job.id).count job.id
      ≤ ∑ u, (((hands u).pendingJob pool.queue.heap).toList.map Job.id).count job.id :=
    Finset.single_le_sum
      (f := fun u => (((hands u).pendingJob pool.queue.heap).toList.map Job.id).count job.id)
      (fun _ _ => Nat.zero_le _) (Finset.mem_univ t)
  have hone : (((hands t).pendingJob pool.queue.heap).toList.map Job.id).count job.id = 1 := by
    rw [hpend]
    simp
  have hle : (decide (job.id < pool.log.nextId)).toNat ≤ 1 := Bool.toNat_le _
  omega

/-- **`jobqueue_push`, seen from the jobs.** -/
theorem Ledger.link_event (h : Ledger pool hands) {p : Ptr} {queue : JobQueue} {job : Job}
    (hpend : (hands t).pending = some p) (hpush : pool.queue.push p = some queue)
    (hjob : pool.queue.heap.jobAt p = some job) (hq : pool'.queue = queue) :
    pool'.queue.jobs = pool.queue.jobs ++ [job] ∧ job ∉ pool.log.accepted ∧
      heldJobs pool' (Function.update hands t
        { hands t with pending := none, linked := some job.id }) = heldJobs pool hands := by
  obtain ⟨hnot, halloc, -⟩ := h.sole (t := t) (p := p) (by simp [Hand.nodes, hpend])
  obtain ⟨q', hpush', hqueue, -, hjobs, -⟩ := push_represents h.queue halloc hnot
  rw [hpush] at hpush'
  cases hpush'
  subst hq
  have hheap : pool'.queue.heap.jobAt = pool.queue.heap.jobAt := funext hjobs
  refine ⟨?_, ?_, ?_⟩
  · rw [hqueue.jobs, hheap, List.filterMap_append]
    simp [hjob, JobQueue.jobs]
  · apply h.new_of_pending (t := t)
    rw [Hand.pendingJob, hpend]
    exact hjob
  · apply heldJobs_keep
    · exact fun u _ r _ => hjobs r
    · unfold heldJobs Hand.heldJob
      rw [hheap]

/-- **`jobqueue_pull`, seen from the jobs**: it finds nothing, or the first job. -/
theorem Ledger.take_event (h : Ledger pool hands) {node : Option Ptr} {queue : JobQueue}
    (hempty : hands t = .empty) (hpull : pool.queue.pull = some (node, queue))
    (hq : pool'.queue = queue) :
    (node = none ∧ pool'.queue.jobs = pool.queue.jobs ∧
      heldJobs pool' (Function.update hands t ⟨none, false, none, none⟩) = heldJobs pool hands) ∨
    ∃ p job rest, node = some p ∧ pool.queue.heap.jobAt p = some job ∧
      pool.queue.jobs = job :: rest ∧ pool'.queue.jobs = rest ∧ heldJobs pool hands t = none ∧
      heldJobs pool' (Function.update hands t ⟨some p, false, none, none⟩)
        = Function.update (heldJobs pool hands) t (some (job, false)) := by
  have hfree : heldJobs pool hands t = none := by
    unfold heldJobs
    rw [hempty]
    rfl
  have hrep := h.queue
  cases hnodes : pool.queue.nodes with
  | nil =>
      rw [hnodes] at hrep
      rw [pull_empty hrep] at hpull
      cases hpull
      refine .inl ⟨rfl, by rw [hq], ?_⟩
      apply heldJobs_keep
      · intro u _ p _
        rw [hq]
      · rw [hfree]
        rfl
  | cons p ps =>
      rw [hnodes] at hrep
      obtain ⟨q', hpull', hqueue, hheap⟩ := pull_represents hrep
      rw [hpull] at hpull'
      cases hpull'
      subst hq
      obtain ⟨cell, hcell⟩ := Option.isSome_iff_exists.1 (hrep.allocated List.mem_cons_self)
      have hjob : pool.queue.heap.jobAt p = some cell.job := by
        rw [Heap.jobAt, hcell]
        rfl
      refine .inr ⟨p, cell.job, pool'.queue.jobs, rfl, hjob, ?_, rfl, hfree, ?_⟩
      · rw [hrep.jobs, hqueue.jobs, hheap, List.filterMap_cons_some hjob]
      · apply heldJobs_update
        · intro u _ r _
          rw [hheap]
        · simp [Hand.heldJob, hheap, hjob]

/-- **`free`, seen from the jobs.** -/
theorem Ledger.release_event (h : Ledger pool hands) {p : Ptr} {job : Job} {called : Bool}
    (hhand : hands t = ⟨some p, called, none, none⟩) (hjob : pool.queue.heap.jobAt p = some job)
    (hq : pool'.queue = { pool.queue with heap := Function.update pool.queue.heap p none }) :
    pool'.queue.jobs = pool.queue.jobs ∧ heldJobs pool hands t = some (job, called) ∧
      heldJobs pool' (Function.update hands t .empty)
        = Function.update (heldJobs pool hands) t none := by
  obtain ⟨hnot, -, hsole⟩ := h.sole (t := t) (p := p) (by simp [Hand.nodes, hhand])
  obtain ⟨hqueue, hjobs⟩ := h.queue_of_sole hnot hq
  refine ⟨by rw [hqueue.jobs, hjobs], ?_, ?_⟩
  · unfold heldJobs
    rw [hhand]
    simp [Hand.heldJob, hjob]
  · apply heldJobs_update
    · apply frame_of_sole hsole
      intro r hr
      rw [hq]
      exact Function.update_of_ne hr ..
    · rfl

/-- **Every move, seen from the jobs.** -/
theorem Ledger.event (h : Ledger pool hands) (hm : JobMove clears pool (hands t) pool' hand') :
    JobEvent clears t pool.queue.jobs pool'.queue.jobs (heldJobs pool hands)
      (heldJobs pool' (Function.update hands t hand')) pool.log pool'.log := by
  -- a move that leaves the queue alone
  have hsame : ∀ hand', pool'.queue = pool.queue →
      (hand'.heldJob pool.queue.heap).map (fun job => (job, hand'.called))
        = heldJobs pool hands t →
      heldJobs pool' (Function.update hands t hand') = heldJobs pool hands := by
    intro hand' hq hself
    apply heldJobs_keep
    · intro u _ p _
      rw [hq]
    · rw [hq, hself]
  cases hm with
  | quiet hq hlog =>
      refine .hidden ?_ (hsame _ hq rfl) ?_ ?_ ?_ ?_ ?_ <;> simp only [hq, hlog]
  | returns hlinked hq hlog =>
      refine .hidden ?_ (hsame { hands t with linked := none } hq rfl) ?_ ?_ ?_ ?_ ?_ <;>
        simp only [hq, hlog]
  | @alloc p job hfree hid hparent hnone hq hlog =>
      -- the cell that `malloc` gives is nobody's
      obtain ⟨hnew, hhands⟩ := h.unowned hfree
      obtain ⟨hqueue, hjobs⟩ := h.queue_of_sole hnew hq
      have hkeep : ∀ r, r ≠ p → pool'.queue.heap r = pool.queue.heap r := by
        intro r hr
        rw [hq]
        exact Function.update_of_ne hr ..
      have hframe : ∀ u r, 0 < (hands u).nodes r →
          pool'.queue.heap.jobAt r = pool.queue.heap.jobAt r := by
        intro u r hr
        have hne : r ≠ p := by
          rintro rfl
          rw [hhands u] at hr
          exact Nat.lt_irrefl _ hr
        rw [Heap.jobAt, Heap.jobAt, hkeep r hne]
      have hheld : heldJobs pool' (Function.update hands t { hands t with pending := some p })
          = heldJobs pool hands := by
        apply heldJobs_keep
        · exact fun u _ r hr => hframe u r hr
        · unfold heldJobs
          rw [← Hand.heldJob_congr (hframe t)]
          rfl
      refine .hidden ?_ hheld ?_ ?_ ?_ ?_ ?_
      · rw [hqueue.jobs, hjobs]
      all_goals simp only [hlog]
  | link hpend hpush hjob hq hlog =>
      obtain ⟨hjobs, hnew, hheld⟩ := h.link_event hpend hpush hjob hq
      exact .accept hnew hjobs hheld hlog
  | take hempty hpull hq hlog =>
      rcases h.take_event hempty hpull hq with
        ⟨rfl, hjobs, hheld⟩ | ⟨p, job, rest, rfl, hjob, hfirst, hjobs, hfree, hheld⟩
      · refine .hidden hjobs hheld ?_ ?_ ?_ ?_ ?_ <;> simp [hlog]
      · rw [Option.bind_some, hjob] at hlog
        exact .pull (by rw [hfirst, hjobs]) hfree hheld hlog
  | @call p job hhand hjob hq hlog =>
      have hold : heldJobs pool hands t = some (job, false) := by
        unfold heldJobs
        rw [hhand]
        simp [Hand.heldJob, hjob]
      have hheld : heldJobs pool' (Function.update hands t ⟨some p, true, none, none⟩)
          = Function.update (heldJobs pool hands) t (some (job, true)) := by
        apply heldJobs_update
        · intro u _ r _
          rw [hq]
        · rw [hq]
          simp [Hand.heldJob, hjob]
      exact .call hold (by rw [hq]) hheld hlog
  | finish hhand hjob hq hlog =>
      obtain ⟨hjobs, hold, hheld⟩ := h.release_event hhand hjob hq
      exact .finish hold hjobs hheld hlog
  | discard hclears hhand hjob hq hlog =>
      obtain ⟨hjobs, hold, hheld⟩ := h.release_event hhand hjob hq
      exact .discard hclears hold hjobs hheld hlog
  | reset hlen hq hlog =>
      have hnil : pool.queue.jobs = [] ∧ pool'.queue.jobs = [] := by
        unfold JobQueue.jobs JobQueue.nodes
        rw [hlen, hq]
        exact ⟨rfl, rfl⟩
      have hheld : heldJobs pool' (Function.update hands t (hands t)) = heldJobs pool hands := by
        apply heldJobs_keep
        · intro u _ p _
          rw [hq]
        · rw [hq]
          rfl
      refine .hidden ?_ hheld ?_ ?_ ?_ ?_ ?_
      · rw [hnil.1, hnil.2]
      all_goals simp only [hlog]

end Moves

/-! ## The refinement mapping -/

variable {n m : Nat} {s s' : PoolState n m}

/-- The jobs that `jobqueue_clear` has taken. -/
def droppedJobs (s : PoolState n m) : List Job :=
  s.data.pool.log.discarded ++ (heldBy s .owner).toList

/-- The scheduler that a pool is. -/
def scheduled (s : PoolState n m) : Sched (Fin n) Job where
  submitted := s.data.pool.log.accepted
  waiting := s.data.pool.queue.jobs
  claimed := s.data.pool.log.pulled.rdrop (droppedJobs s).length
  running := fun i => heldJobs s.data.pool (handsOf s) (.worker i)
  started := s.data.pool.log.called
  finished := s.data.pool.log.finished
  dropped := droppedJobs s

theorem heldBy_eq (t : Tid n m) :
    heldBy s t = (heldJobs s.data.pool (handsOf s) t).map Prod.fst := by
  unfold heldBy heldJobs
  cases (handsOf s t).heldJob s.data.pool.queue.heap <;> rfl

/-- A hand without a node shows no job. -/
theorem heldJobs_empty {t : Tid n m} (h : (handsOf s t).held = none) :
    heldJobs s.data.pool (handsOf s) t = none := by
  unfold heldJobs Hand.heldJob
  rw [h]
  rfl

theorem client_held (c : Fin m) : (handsOf s (.client c)).held = none := by
  unfold handsOf hand
  cases (s.pc (.client c) : ClientPc) <;> rfl

theorem owner_called : (handsOf s .owner).called = false := by
  unfold handsOf hand
  cases (s.pc .owner : OwnerPc) <;> rfl

theorem owner_not_called (s : PoolState n m) (job : Job) :
    heldJobs s.data.pool (handsOf s) .owner ≠ some (job, true) := by
  intro hold
  unfold heldJobs at hold
  rw [owner_called] at hold
  simp at hold

theorem owner_pending : (handsOf s .owner).pending = none := by
  unfold handsOf hand
  cases (s.pc .owner : OwnerPc) <;> rfl

/-- The owner has a job in its hands in `jobqueue_destroy` only. -/
theorem OwnerPc.empty_of_not_final {pc : OwnerPc} (h : pc.final = false) : pc.hand = .empty := by
  cases pc with
  | pull k => cases h
  | freeJob job => cases h
  | _ => rfl

/-- `jobqueue_destroy` goes on to the end of `thpool_destroy`. -/
theorem final_stays {pc next : OwnerPc} {d d' : Mem} {choice : Choice}
    (he : (ownerCode n pc).effect d choice = some (d', next)) (h : pc.final = true) :
    next.final = true := by
  cases pc with
  | pull k =>
      rw [ownerCode] at he
      obtain ⟨-, ⟨k, rfl⟩ | ⟨job, rfl⟩⟩ := pull_counts k he <;> rfl
  | emptyTest =>
      rw [ownerCode] at he
      obtain ⟨-, ⟨-, rfl⟩ | ⟨-, rfl⟩⟩ := branch_effect he <;> rfl
  | freeJob job =>
      cases job with
      | none =>
          cases he
          rfl
      | some job =>
          obtain ⟨pool, -, he⟩ := Option.map_eq_some_iff.1 he
          cases he
          rfl
  | freeThread k =>
      simp only [ownerCode, Instr.effect] at he
      split at he <;> cases he <;> rfl
  | reset | freeSem | freePool =>
      cases he
      rfl
  | destroyed => cases he
  | _ => cases h

/-- Jobs are dropped in `jobqueue_destroy` only. -/
def Unspoiled (s : PoolState n m) : Prop := (ownerAt s).final = false → droppedJobs s = []

theorem droppedJobs_eq_nil : droppedJobs s = [] ↔
    s.data.pool.log.discarded = [] ∧ heldBy s .owner = none := by
  unfold droppedJobs
  rw [List.append_eq_nil_iff]
  cases heldBy s .owner <;> simp

theorem Unspoiled.step {a : Action (Tid n m) Choice} (h : Unspoiled s) (hinv : PoolInv s)
    (hs : Threads.step (code n m) s a = some s') : Unspoiled s' := by
  intro hfinal
  have hempty : handsOf s' .owner = .empty := OwnerPc.empty_of_not_final hfinal
  have hheld : heldBy s' .owner = none := by
    unfold heldBy
    rw [hempty]
    rfl
  refine droppedJobs_eq_nil.2 ⟨?_, hheld⟩
  rcases step_effect hs with ⟨hd, hp⟩ | ⟨t, choice, wakes, next, rfl, he, hp⟩
  · rw [hd]
    refine (droppedJobs_eq_nil.1 (h ?_)).1
    rw [← hfinal, ownerAt, ownerAt, hp]
  · cases t with
    | worker i =>
        rw [(worker_move he).discarded (.inl rfl)]
        refine (droppedJobs_eq_nil.1 (h ?_)).1
        rw [← hfinal]
        simp [ownerAt, hp]
    | client c =>
        rw [(client_move he).discarded (.inl rfl)]
        refine (droppedJobs_eq_nil.1 (h ?_)).1
        rw [← hfinal]
        simp [ownerAt, hp]
    | owner =>
        have hnext : ownerAt s' = next := by simp [ownerAt, hp]
        rw [hnext] at hfinal
        -- not there yet, so it was not there before
        have hbefore : (ownerAt s).final = false := by
          by_contra hnot
          rw [final_stays he (Bool.not_eq_false _ ▸ hnot)] at hfinal
          cases hfinal
        rw [(owner_move hinv.phases.len_zero he).discarded
          (.inr (OwnerPc.empty_of_not_final hbefore))]
        exact (droppedJobs_eq_nil.1 (h hbefore)).1

theorem unspoiled_reachable (h : PoolReachable s) : Unspoiled s := by
  refine Reachable.invariant Unspoiled ?_ ?_ h
  · rintro s rfl -
    rfl
  · rintro s s' hreach hunsp hstep
    obtain ⟨a, ha⟩ := hstep.steps
    exact hunsp.step (poolInv_reachable hreach) ha

/-- A step that shows nothing of the jobs. -/
theorem scheduled_same (hjobs : s'.data.pool.queue.jobs = s.data.pool.queue.jobs)
    (hheld : heldJobs s'.data.pool (handsOf s') = heldJobs s.data.pool (handsOf s))
    (haccepted : s'.data.pool.log.accepted = s.data.pool.log.accepted)
    (hpulled : s'.data.pool.log.pulled = s.data.pool.log.pulled)
    (hcalled : s'.data.pool.log.called = s.data.pool.log.called)
    (hfinished : s'.data.pool.log.finished = s.data.pool.log.finished)
    (hdiscarded : s'.data.pool.log.discarded = s.data.pool.log.discarded) :
    scheduled s' = scheduled s := by
  have hdropped : droppedJobs s' = droppedJobs s := by
    unfold droppedJobs
    rw [heldBy_eq, heldBy_eq, hheld, hdiscarded]
  unfold scheduled
  rw [hjobs, hheld, haccepted, hpulled, hcalled, hfinished, hdropped]

/-- What the scheduler sees of a step of one thread. -/
theorem PoolInv.event (h : PoolInv s) {t : Tid n m} {clears : Bool} {next : Pc t}
    (hm : JobMove clears s.data.pool (handsOf s t) s'.data.pool (hand t next))
    (hp : s'.pc = Function.update s.pc t next) :
    JobEvent clears t s.data.pool.queue.jobs s'.data.pool.queue.jobs
      (heldJobs s.data.pool (handsOf s)) (heldJobs s'.data.pool (handsOf s'))
      s.data.pool.log s'.data.pool.log := by
  have hev := h.ledger.event hm
  rwa [← handsOf_update hp] at hev

/-- A step of the worker `i`, in the hands of the workers. -/
theorem workers_update (held : Tid n m → Option (Job × Bool)) (i : Fin n)
    (r : Option (Job × Bool)) :
    (fun j => Function.update held (.worker i) r (.worker j))
      = Function.update (fun j => held (.worker j)) i r :=
  Function.update_comp_eq_of_injective' held (fun _ _ he => Tid.worker.inj he) i r

/-- The scheduler of a pool from which nothing has been dropped. -/
theorem scheduled_open (h : droppedJobs s = []) : scheduled s = {
    submitted := s.data.pool.log.accepted
    waiting := s.data.pool.queue.jobs
    claimed := s.data.pool.log.pulled
    running := fun i => heldJobs s.data.pool (handsOf s) (.worker i)
    started := s.data.pool.log.called
    finished := s.data.pool.log.finished
    dropped := [] } := by
  unfold scheduled
  rw [h, List.length_nil, List.rdrop_zero]

/-- A thread that is not the owner drops nothing. -/
theorem droppedJobs_keep (h : droppedJobs s = [])
    (hheld : heldJobs s'.data.pool (handsOf s') .owner = heldJobs s.data.pool (handsOf s) .owner)
    (hdiscarded : s'.data.pool.log.discarded = s.data.pool.log.discarded) :
    droppedJobs s' = [] := by
  rw [droppedJobs_eq_nil] at h ⊢
  rw [heldBy_eq] at h ⊢
  rw [hheld, hdiscarded]
  exact h

theorem accept_scheduled (hdropped : droppedJobs s = [])
    (hdropped' : droppedJobs s' = []) {job : Job} (hnew : job ∉ s.data.pool.log.accepted)
    (hjobs : s'.data.pool.queue.jobs = s.data.pool.queue.jobs ++ [job])
    (hheld : heldJobs s'.data.pool (handsOf s') = heldJobs s.data.pool (handsOf s))
    (hlog : s'.data.pool.log
      = { s.data.pool.log with accepted := s.data.pool.log.accepted ++ [job] }) :
    Sched.Step (scheduled s) (scheduled s') := by
  rw [scheduled_open hdropped, scheduled_open hdropped', hjobs, hheld, hlog]
  exact .submit rfl hnew

theorem worker_scheduled (h : PoolInv s) (hunsp : Unspoiled s) {i : Fin n} {choice : Choice}
    {next : WorkerPc}
    (he : (workerCode i (workerAt s i)).effect s.data choice = some (s'.data, next))
    (hp : s'.pc = Function.update s.pc (.worker i) next) :
    scheduled s' = scheduled s ∨ Sched.Step (scheduled s) (scheduled s') := by
  have hev := h.event (t := .worker i) (worker_move he) hp
  have hdiscarded := (worker_move he).discarded (.inl rfl)
  by_cases hgone : (workerAt s i).gone = true
  · -- a worker that has left `thread_do` has no job in its hands
    obtain ⟨hd, hgone'⟩ := (worker_step he).gone hgone
    have hempty : WorkerPc.hand next = WorkerPc.hand (workerAt s i) := by
      revert hgone hgone'
      generalize workerAt s i = pc
      cases pc <;> cases next <;> simp [WorkerPc.hand]
    have hhands : handsOf s' = handsOf s := by
      rw [handsOf_update hp]
      exact (congrArg _ hempty).trans (Function.update_eq_self _ _)
    refine .inl (scheduled_same ?_ ?_ ?_ ?_ ?_ ?_ ?_) <;> simp only [hd, hhands]
  · have hdropped : droppedJobs s = [] := by
      apply hunsp
      by_contra hfinal
      exact hgone (h.phases.gone (Bool.not_eq_false _ ▸ hfinal) i)
    have howner : ∀ r, Function.update (heldJobs s.data.pool (handsOf s)) (.worker i) r .owner
        = heldJobs s.data.pool (handsOf s) .owner := fun r => Function.update_of_ne (by simp) ..
    cases hev with
    | hidden hjobs hheld haccepted hpulled hcalled hfinished hdiscarded =>
        exact .inl (scheduled_same hjobs hheld haccepted hpulled hcalled hfinished hdiscarded)
    | accept hnew hjobs hheld hlog =>
        have hdropped' := droppedJobs_keep hdropped (by rw [hheld]) hdiscarded
        exact .inr (accept_scheduled hdropped hdropped' hnew hjobs hheld hlog)
    | pull hfirst hfree hheld hlog =>
        have hdropped' := droppedJobs_keep hdropped (by rw [hheld, howner]) hdiscarded
        rw [scheduled_open hdropped, scheduled_open hdropped', hheld, hlog, workers_update]
        exact .inr (.claim rfl hfree hfirst)
    | call hold hjobs hheld hlog =>
        have hdropped' := droppedJobs_keep hdropped (by rw [hheld, howner]) hdiscarded
        rw [scheduled_open hdropped, scheduled_open hdropped', hjobs, hheld, hlog, workers_update]
        exact .inr (.start hold)
    | finish hold hjobs hheld hlog =>
        have hdropped' := droppedJobs_keep hdropped (by rw [hheld, howner]) hdiscarded
        rw [scheduled_open hdropped, scheduled_open hdropped', hjobs, hheld, hlog, workers_update]
        exact .inr (.finish hold)
    | discard hclears _ _ _ _ => cases hclears

theorem client_scheduled (h : PoolInv s) (hunsp : Unspoiled s) {c : Fin m} {choice : Choice}
    {next : ClientPc} (hcalls : clientAt s c = .idle → ownerAt s = .ready)
    (he : (clientCode (clientAt s c)).effect s.data choice = some (s'.data, next))
    (hp : s'.pc = Function.update s.pc (.client c) next) :
    scheduled s' = scheduled s ∨ Sched.Step (scheduled s) (scheduled s') := by
  have hnone : heldJobs s.data.pool (handsOf s) (.client c) = none := heldJobs_empty (client_held c)
  have hnone' : heldJobs s'.data.pool (handsOf s') (.client c) = none :=
    heldJobs_empty (client_held c)
  have hdiscarded := (client_move he).discarded (.inl rfl)
  cases h.event (t := .client c) (client_move he) hp with
  | hidden hjobs hheld haccepted hpulled hcalled hfinished hdiscarded =>
      exact .inl (scheduled_same hjobs hheld haccepted hpulled hcalled hfinished hdiscarded)
  | @accept job hnew hjobs hheld hlog =>
      -- a pool that is being destroyed accepts no job from a client
      have hserving : (ownerAt s).final = false := by
        by_contra hfinal
        have hdestroying : (ownerAt s).destroying = true := by
          revert hfinal
          generalize ownerAt s = pc
          cases pc <;> simp
        have hadding := h.phases.closed hdestroying c
        by_cases hidle : clientAt s c = .idle
        · rw [hcalls hidle] at hdestroying
          cases hdestroying
        · obtain ⟨hd, -⟩ := (client_step he).quiet hidle hadding
          rw [hd] at hlog
          have hlen := congrArg (fun log => log.accepted.length) hlog
          simp at hlen
      have hdropped := hunsp hserving
      have hdropped' := droppedJobs_keep hdropped (by rw [hheld]) hdiscarded
      exact .inr (accept_scheduled hdropped hdropped' hnew hjobs hheld hlog)
  | pull _ _ hheld _ =>
      rw [hheld, Function.update_self] at hnone'
      cases hnone'
  | call hold _ _ _ | finish hold _ _ _ =>
      rw [hnone] at hold
      cases hold
  | discard hclears _ _ _ _ => cases hclears

theorem owner_scheduled (h : PoolInv s) (h' : PoolInv s') {choice : Choice} {next : OwnerPc}
    (he : (ownerCode n (ownerAt s)).effect s.data choice = some (s'.data, next))
    (hp : s'.pc = Function.update s.pc .owner next) :
    scheduled s' = scheduled s ∨ Sched.Step (scheduled s) (scheduled s') := by
  have hmove := owner_move h.phases.len_zero he
  have hworkers : ∀ r, (fun i : Fin n =>
      Function.update (heldJobs s.data.pool (handsOf s)) .owner r (.worker i))
        = fun i => heldJobs s.data.pool (handsOf s) (.worker i) :=
    fun r => funext fun i => Function.update_of_ne (by simp) ..
  cases h.event (t := .owner) hmove hp with
  | hidden hjobs hheld haccepted hpulled hcalled hfinished hdiscarded =>
      exact .inl (scheduled_same hjobs hheld haccepted hpulled hcalled hfinished hdiscarded)
  | accept hnew hjobs hheld hlog =>
      rcases hmove.accepted with hsame | ⟨p, job, hpend, -, -⟩
      · rw [hlog] at hsame
        simp at hsame
      · have hnone := owner_pending (s := s)
        unfold handsOf at hnone
        rw [hand] at hnone
        rw [hnone] at hpend
        cases hpend
  | @pull job hfirst hfree hheld hlog =>
      -- the owner takes a job: it is in `jobqueue_destroy`, and the workers are gone
      have hown : heldJobs s'.data.pool (handsOf s') .owner = some (job, false) := by
        rw [hheld, Function.update_self]
      have hfinal : (ownerAt s').final = true := by
        by_contra hnot
        have hempty : handsOf s' .owner = .empty :=
          OwnerPc.empty_of_not_final (Bool.eq_false_iff.2 hnot)
        rw [heldJobs_empty (by rw [hempty]; rfl)] at hown
        cases hown
      have hidle : ∀ i, heldJobs s.data.pool (handsOf s) (.worker i) = none := by
        intro i
        have hgone := (idle_of_gone (h'.phases.gone hfinal i)).1
        rw [heldBy_eq, hheld, Function.update_of_ne (by simp), Option.map_eq_none_iff] at hgone
        exact hgone
      have hdropped : droppedJobs s = s.data.pool.log.discarded := by
        unfold droppedJobs
        rw [heldBy_eq, hfree]
        exact List.append_nil _
      have hdropped' : droppedJobs s' = s.data.pool.log.discarded ++ [job] := by
        unfold droppedJobs
        rw [heldBy_eq, hown, hlog]
        rfl
      have hnext : scheduled s' = { scheduled s with
          waiting := s'.data.pool.queue.jobs, dropped := (scheduled s).dropped ++ [job] } := by
        unfold scheduled
        rw [hdropped, hdropped', hheld, hworkers, hlog, List.length_append, List.length_singleton,
          List.rdrop_concat_succ]
      rw [hnext]
      exact .inr (.drop hidle hfirst)
  | @call job hold hjobs hheld hlog =>
      refine absurd ?_ (owner_not_called s' job)
      rw [hheld, Function.update_self]
  | finish hold hjobs hheld hlog => exact absurd hold (owner_not_called s _)
  | @discard job hclears hold hjobs hheld hlog =>
      -- what is freed was dropped when it was taken
      have hdropped : droppedJobs s' = droppedJobs s := by
        unfold droppedJobs
        rw [heldBy_eq, heldBy_eq, hold, hheld, Function.update_self, hlog]
        simp
      refine .inl ?_
      unfold scheduled
      rw [hdropped, hjobs, hheld, hworkers, hlog]

/-- **Every step of a pool is a step of the scheduler, or one that it does not see.** -/
theorem step_scheduled {a : Action (Tid n m) Choice} (h : PoolInv s) (hunsp : Unspoiled s)
    (hcalls : CallsOk s a) (hs : Threads.step (code n m) s a = some s') :
    scheduled s' = scheduled s ∨ Sched.Step (scheduled s) (scheduled s') := by
  have h' := h.step hcalls hs
  rcases step_effect hs with ⟨hd, hp⟩ | ⟨t, choice, wakes, next, rfl, he, hp⟩
  · have hhands : handsOf s' = handsOf s := funext fun t => by rw [handsOf, hp, handsOf]
    refine .inl (scheduled_same ?_ ?_ ?_ ?_ ?_ ?_ ?_) <;> simp only [hd, hhands]
  · cases t with
    | worker i => exact worker_scheduled h hunsp he hp
    | client c => exact client_scheduled h hunsp hcalls he hp
    | owner => exact owner_scheduled h h' he hp

/-! ## The results -/

theorem scheduled_next (h : PoolReachable s)
    (hs : StepsIf CallsOk (Threads.step (code n m)) s s') :
    scheduled s' = scheduled s ∨ Sched.Step (scheduled s) (scheduled s') := by
  obtain ⟨a, hcalls, ha⟩ := hs
  exact step_scheduled (poolInv_reachable h) (unspoiled_reachable h) hcalls ha

theorem scheduled_init : scheduled (initState n m) = Sched.empty := rfl

/-- **Refinement.** Along every run of a pool the images of its states are a run of the
scheduler. -/
theorem pool_refines_scheduler (h : PoolReachable s)
    (hrun : Relation.ReflTransGen (StepsIf CallsOk (Threads.step (code n m))) s s') :
    (scheduled s).Runs ∧ Relation.ReflTransGen Sched.Step (scheduled s) (scheduled s') := by
  refine Reachable.image scheduled ?_ ?_ h hrun
  · rintro s rfl
    exact scheduled_init
  · exact fun s s' hreach hs => scheduled_next hreach hs

set_option maxRecDepth 20000 in
theorem pool_refines_scheduler_run : ∃ s : PoolState 1 1,
    (scheduled s).finished.map Job.id = [0] ∧ (scheduled s).dropped.map Job.id = [1] ∧
      (scheduled (initState 1 1)).Runs ∧
      Relation.ReflTransGen Sched.Step (scheduled (initState 1 1)) (scheduled s) := by
  obtain ⟨s, ⟨s₀, rfl, hrun⟩, hp⟩ := poolReachable_of_run finishOneDiscardOne
    (fun s => (scheduled s).finished.map Job.id == [0] &&
      (scheduled s).dropped.map Job.id == [1]) (by decide)
  rw [Bool.and_eq_true, beq_iff_eq, beq_iff_eq] at hp
  obtain ⟨hruns, hsteps⟩ := pool_refines_scheduler (Reachable.start rfl) hrun
  exact ⟨s, hp.1, hp.2, hruns, hsteps⟩

theorem scheduled_runs (h : PoolReachable s) : (scheduled s).Runs := by
  refine Reachable.invariant (fun s => (scheduled s).Runs) ?_ ?_ h
  · rintro s rfl
    exact Reachable.start scheduled_init
  · intro s s' hreach ih hs
    rcases scheduled_next hreach hs with hsame | hstep
    · rw [hsame]
      exact ih
    · exact ih.next hstep

/-! ### After `jobqueue_clear` -/

/-- `thpool_destroy` is past `jobqueue_clear`. -/
@[simp] def OwnerPc.swept : OwnerPc → Bool
  | .reset | .freeSem | .freeThread _ | .freePool | .destroyed => true
  | _ => false

theorem OwnerPc.final_of_swept {pc : OwnerPc} (h : pc.swept = true) :
    pc.final = true ∧ pc.destroying = true ∧ pc.hand = .empty := by
  cases pc with
  | reset | freeSem | freeThread _ | freePool | destroyed => exact ⟨rfl, rfl, rfl⟩
  | _ => cases h

theorem owner_swept {pc next : OwnerPc} {d d' : Mem} {choice : Choice}
    (he : (ownerCode n pc).effect d choice = some (d', next))
    (hlen : pc.swept = true → d.pool.queue.len = 0) (h : next.swept = true) :
    d'.pool.queue.len = 0 := by
  cases pc with
  | emptyTest =>
      rw [ownerCode] at he
      obtain ⟨rfl, ⟨-, rfl⟩ | ⟨htest, rfl⟩⟩ := branch_effect he
      · cases h
      · simpa using htest
  | reset =>
      cases he
      rfl
  | freeSem | freePool =>
      cases he
      exact hlen rfl
  | freeThread k =>
      simp only [ownerCode, Instr.effect] at he
      split at he <;> cases he <;> exact hlen rfl
  | pull k =>
      rw [ownerCode] at he
      obtain ⟨-, ⟨k, rfl⟩ | ⟨job, rfl⟩⟩ := pull_counts k he <;> cases h
  | postAll late k =>
      rw [ownerCode] at he
      obtain ⟨-, -, ⟨k, rfl⟩ | rfl⟩ := post_counts (fun p d ch => rfl) k he <;> cases h
  | freeJob job =>
      cases job with
      | none =>
          cases he
          cases h
      | some job =>
          obtain ⟨pool, -, he⟩ := Option.map_eq_some_iff.1 he
          cases he
          cases h
  | initPool | initQueue | initThreads =>
      rw [ownerCode] at he
      obtain ⟨rfl, rfl⟩ | ⟨rfl, rfl⟩ := alloc_effect he <;> cases h
  | spin =>
      rw [ownerCode] at he
      obtain ⟨rfl, ⟨-, rfl⟩ | ⟨-, rfl⟩⟩ := branch_effect he <;> cases h
  | spawn k =>
      simp only [ownerCode, Instr.effect] at he
      split at he
      · cases choice with
        | threadInit outcome =>
            cases he
            cases h
        | _ => cases he
      · cases he
        cases h
  | loop late =>
      cases late with
      | true =>
          rw [ownerCode] at he
          obtain ⟨rfl, ⟨-, rfl⟩ | ⟨-, rfl⟩⟩ := branch_effect he <;> cases h
      | false =>
          cases choice with
          | clock timeUp =>
              cases he
              revert h
              cases timeUp || d.pool.alive == 0 <;> simp
          | _ => cases he
  | ready =>
      simp only [ownerCode, Instr.effect, Option.ite_none_right_eq_some] at he
      cases he.2
      cases h
  | failed | destroyed => cases he
  | _ =>
      cases he
      cases h

/-- Past `jobqueue_clear` the queue is empty. -/
def Swept (s : PoolState n m) : Prop :=
  (ownerAt s).swept = true → s.data.pool.queue.len = 0

theorem Swept.step {a : Action (Tid n m) Choice} (h : Swept s) (hinv : PoolInv s)
    (hcalls : CallsOk s a) (hs : Threads.step (code n m) s a = some s') : Swept s' := by
  intro hswept
  rcases step_effect hs with ⟨hd, hp⟩ | ⟨t, choice, wakes, next, rfl, he, hp⟩
  · rw [hd]
    apply h
    rw [← hswept, ownerAt, ownerAt, hp]
  · cases t with
    | worker i =>
        have howner : ownerAt s' = ownerAt s := by simp [ownerAt, hp]
        rw [howner] at hswept
        have hgone := hinv.phases.gone (OwnerPc.final_of_swept hswept).1 i
        rw [((worker_step he).gone hgone).1]
        exact h hswept
    | client c =>
        have howner : ownerAt s' = ownerAt s := by simp [ownerAt, hp]
        rw [howner] at hswept
        have hidle : clientAt s c ≠ .idle := by
          intro hidle
          have hready : ownerAt s = .ready := hcalls hidle
          rw [hready] at hswept
          cases hswept
        -- a client that is still inside the pool waits, and changes nothing
        have hadding := hinv.phases.closed (OwnerPc.final_of_swept hswept).2.1 c
        rw [((client_step he).quiet hidle hadding).1]
        exact h hswept
    | owner =>
        have hnext : ownerAt s' = next := by simp [ownerAt, hp]
        rw [hnext] at hswept
        exact owner_swept he h hswept

theorem swept_reachable (h : PoolReachable s) : Swept s := by
  refine Reachable.invariant Swept ?_ ?_ h
  · rintro s rfl hswept
    cases hswept
  · rintro s s' hreach hswept ⟨a, hcalls, ha⟩
    exact hswept.step (poolInv_reachable hreach) hcalls ha

/-- **What `thpool_destroy` does with the jobs.** Once it is past `jobqueue_clear`, the jobs it
has discarded are the ones that were accepted last, in order, and their functions have never
been called; all the others are finished; and every node that was allocated has been freed. -/
theorem destroy_discards_last (h : PoolReachable s) (hswept : (ownerAt s).swept = true) :
    (∃ ran, s.data.pool.log.accepted = ran ++ s.data.pool.log.discarded ∧
      ran.Perm s.data.pool.log.finished) ∧
    s.data.pool.log.called.Perm s.data.pool.log.finished ∧
    (∀ job ∈ s.data.pool.log.discarded, job ∉ s.data.pool.log.called) ∧
    ∀ p, s.data.pool.queue.heap p = none := by
  have hinv := poolInv_reachable h
  have haccount := (scheduled_runs h).account
  obtain ⟨hfinal, hdestroying, hhand⟩ := OwnerPc.final_of_swept hswept
  have hlen : s.data.pool.queue.len = 0 := swept_reachable h hswept
  have hnodes : s.data.pool.queue.nodes = [] := by
    unfold JobQueue.nodes
    rw [hlen]
    rfl
  -- nobody has a job in its hands any more
  have hempty : ∀ t, (handsOf s t).held = none ∧ (handsOf s t).pending = none := by
    intro t
    cases t with
    | worker i =>
        have hgone := hinv.phases.gone hfinal i
        unfold handsOf hand
        revert hgone
        unfold workerAt
        cases (s.pc (.worker i) : WorkerPc) <;> simp [WorkerPc.hand, Hand.empty]
    | client c =>
        have hadding := hinv.phases.closed hdestroying c
        unfold handsOf hand
        revert hadding
        unfold clientAt
        cases (s.pc (.client c) : ClientPc) <;> simp [ClientPc.hand, Hand.empty]
    | owner =>
        have howner : handsOf s .owner = .empty := hhand
        rw [howner]
        exact ⟨rfl, rfl⟩
  have hidle : ∀ i, (scheduled s).running i = none := fun i => heldJobs_empty (hempty (.worker i)).1
  have hdropped : (scheduled s).dropped = s.data.pool.log.discarded := by
    show s.data.pool.log.discarded ++ (heldBy s .owner).toList = _
    rw [heldBy_eq, heldJobs_empty (hempty .owner).1]
    exact List.append_nil _
  have hwaiting : (scheduled s).waiting = [] := by
    show s.data.pool.queue.jobs = []
    unfold JobQueue.jobs
    rw [hnodes]
    rfl
  obtain ⟨hclaimed, hstarted⟩ := haccount.all_finished hidle
  have horder : s.data.pool.log.accepted
      = (scheduled s).claimed ++ s.data.pool.log.discarded := by
    calc s.data.pool.log.accepted
        = (scheduled s).claimed ++ (scheduled s).dropped ++ (scheduled s).waiting := haccount.order
      _ = (scheduled s).claimed ++ s.data.pool.log.discarded := by
          rw [hdropped, hwaiting, List.append_nil]
  refine ⟨⟨_, horder, hclaimed⟩, hstarted, ?_, ?_⟩
  · intro job hdisc hcalled
    have honce : s.data.pool.log.accepted.Nodup := haccount.once
    rw [horder] at honce
    have hran : job ∈ (scheduled s).claimed :=
      hclaimed.mem_iff.2 (hstarted.mem_iff.1 hcalled)
    exact (List.nodup_append.1 honce).2.2 job hran job hdisc rfl
  · intro p
    have howned := hinv.ledger.owned p
    have hhands : ∑ t, (handsOf s t).nodes p = 0 := by
      apply Finset.sum_eq_zero
      intro t _
      unfold Hand.nodes
      rw [(hempty t).1, (hempty t).2]
      rfl
    rw [hnodes, hhands] at howned
    cases hcell : s.data.pool.queue.heap p with
    | none => rfl
    | some node =>
        rw [hcell] at howned
        cases howned

set_option maxRecDepth 20000 in
theorem destroy_discards_last_run : ∃ s : PoolState 1 1,
    s.data.pool.log.discarded.map Job.id = [1] ∧
      (∀ job ∈ s.data.pool.log.discarded, job ∉ s.data.pool.log.called) ∧
      ∀ p, s.data.pool.queue.heap p = none := by
  obtain ⟨s, hs, hp⟩ := poolReachable_of_run finishOneDiscardOne
    (fun s => s.data.pool.log.discarded.map Job.id == [1] && (ownerAt s).swept) (by decide)
  rw [Bool.and_eq_true, beq_iff_eq] at hp
  obtain ⟨-, -, hnever, hfreed⟩ := destroy_discards_last hs hp.2
  exact ⟨s, hp.1, hnever, hfreed⟩

/-- **How the jobs overlap.** No more functions have been called and not returned than there
are workers; a single worker runs the jobs one after the other, in the order in which they were
accepted. -/
theorem jobs_overlap (h : PoolReachable s) :
    s.data.pool.log.called.length ≤ s.data.pool.log.finished.length + n ∧
      (n = 1 → s.data.pool.log.finished <+: s.data.pool.log.called ∧
        s.data.pool.log.called <+: s.data.pool.log.accepted) := by
  have hruns := scheduled_runs h
  constructor
  · calc s.data.pool.log.called.length
        ≤ s.data.pool.log.finished.length + Fintype.card (Fin n) := hruns.account.started_le
      _ = s.data.pool.log.finished.length + n := by rw [Fintype.card_fin]
  · rintro rfl
    have hsole : ∀ i : Fin 1, i = ⟨0, Nat.one_pos⟩ := fun i => Fin.ext (Nat.lt_one_iff.1 i.isLt)
    obtain ⟨hfinished, hcalled⟩ := (hruns.serial hsole).in_order
    refine ⟨hfinished, ?_⟩
    have horder : s.data.pool.log.accepted
        = (scheduled s).claimed ++ ((scheduled s).dropped ++ (scheduled s).waiting) := by
      rw [← List.append_assoc]
      exact hruns.account.order
    rw [horder]
    exact hcalled.trans (List.prefix_append _ _)

set_option maxRecDepth 20000 in
theorem jobs_overlap_run : ∃ s : PoolState 1 1,
    s.data.pool.log.accepted.map Job.id = [0, 1] ∧ s.data.pool.log.called.length ≤ 2 ∧
      s.data.pool.log.called <+: s.data.pool.log.accepted := by
  obtain ⟨s, hs, hp⟩ := poolReachable_of_run finishOneDiscardOne
    (fun s => s.data.pool.log.accepted.map Job.id == [0, 1] &&
      s.data.pool.log.finished.length == 1) (by decide)
  rw [Bool.and_eq_true, beq_iff_eq, beq_iff_eq] at hp
  obtain ⟨hle, hserial⟩ := jobs_overlap hs
  rw [hp.2] at hle
  exact ⟨s, hp.1, hle, (hserial rfl).2⟩

end CPlayground.Thpool
