import CPlayground.Thpool.Locks

set_option autoImplicit false

/-! # What a step does to the jobs

What a thread has in its hands (`Hand`): the node it has pulled and not yet freed, the node it
has allocated and not yet linked, and the job it has linked in a call of `thpool_add_work` that
has not returned. A step of any thread is one of nine moves between the hands, the queue, the
heap and the log (`JobMove`); every fact about the jobs is proved for the nine moves, not for
the program points.
-/

namespace CPlayground.Thpool

open Threads

/-! ## Hands -/

/-- `held` has been pulled and not freed, and `called` if its function has been called;
`pending` has been allocated and not linked; `linked` is the number of a job whose call of
`thpool_add_work` has not returned yet. -/
structure Hand where
  held : Option Ptr
  called : Bool
  pending : Option Ptr
  linked : Option Nat
  deriving DecidableEq, Repr

def Hand.empty : Hand := ⟨none, false, none, none⟩

def PushPc.pending : PushPc → Option Ptr
  | .lock job | .link job => some job
  | _ => none

def PushPc.linked : PushPc → Option Nat
  | .post id _ | .unlock id => some id
  | _ => none

def PullPc.held : PullPc → Option Ptr
  | .post job _ => some job
  | .unlock job => job
  | _ => none

def WorkerPc.hand : WorkerPc → Hand
  | .pull k => ⟨k.held, false, none, none⟩
  | .call job => ⟨some job, false, none, none⟩
  | .run job | .wait job _ _ | .free job => ⟨some job, true, none, none⟩
  | .push job k => ⟨some job, true, k.pending, k.linked⟩
  | .added job id => ⟨some job, true, none, some id⟩
  | _ => .empty

def ClientPc.hand : ClientPc → Hand
  | .push k => ⟨none, false, k.pending, k.linked⟩
  | .added id => ⟨none, false, none, some id⟩
  | _ => .empty

def OwnerPc.hand : OwnerPc → Hand
  | .pull k => ⟨k.held, false, none, none⟩
  | .freeJob job => ⟨job, false, none, none⟩
  | _ => .empty

def hand {n m : Nat} : (t : Tid n m) → Pc t → Hand
  | .worker _, pc => WorkerPc.hand pc
  | .client _, pc => ClientPc.hand pc
  | .owner, pc => OwnerPc.hand pc

/-- The number of the job whose function the thread is running. -/
def Hand.parent (hand : Hand) (heap : Heap) : Option Nat :=
  if hand.called then (hand.held.bind heap.jobAt).map Job.id else none

/-! ## Moves -/

/-- What a step of a thread can do to the jobs. `discard` is the `free` of `jobqueue_clear`,
of a thread that `clears`; `reset` are the assignments to the fields of an empty queue. -/
inductive JobMove (clears : Bool) (pool : Pool) (hand : Hand) : Pool → Hand → Prop
  | quiet {pool' : Pool} (hq : pool'.queue = pool.queue) (hlog : pool'.log = pool.log) :
      JobMove clears pool hand pool' hand
  | alloc {pool' : Pool} {p : Ptr} {job : Job} (hfree : pool.queue.heap p = none)
      (hid : job.id = pool.log.nextId) (hparent : job.parent = hand.parent pool.queue.heap)
      (hnone : hand.pending = none)
      (hq : pool'.queue = { pool.queue with
        heap := Function.update pool.queue.heap p (some { prev := none, job := job }) })
      (hlog : pool'.log = { pool.log with nextId := pool.log.nextId + 1 }) :
      JobMove clears pool hand pool' { hand with pending := some p }
  | link {pool' : Pool} {p : Ptr} {queue : JobQueue} {job : Job} (hpend : hand.pending = some p)
      (hpush : pool.queue.push p = some queue) (hjob : pool.queue.heap.jobAt p = some job)
      (hq : pool'.queue = queue)
      (hlog : pool'.log = { pool.log with accepted := pool.log.accepted ++ [job] }) :
      JobMove clears pool hand pool' { hand with pending := none, linked := some job.id }
  | returns {pool' : Pool} {id : Nat} (hlinked : hand.linked = some id)
      (hq : pool'.queue = pool.queue)
      (hlog : pool'.log = { pool.log with returned := pool.log.returned ++ [id] }) :
      JobMove clears pool hand pool' { hand with linked := none }
  | take {pool' : Pool} {job : Option Ptr} {queue : JobQueue} (hempty : hand = .empty)
      (hpull : pool.queue.pull = some (job, queue)) (hq : pool'.queue = queue)
      (hlog : pool'.log = { pool.log with
        pulled := pool.log.pulled ++ (job.bind pool.queue.heap.jobAt).toList }) :
      JobMove clears pool hand pool' ⟨job, false, none, none⟩
  | call {pool' : Pool} {p : Ptr} {job : Job} (hhand : hand = ⟨some p, false, none, none⟩)
      (hjob : pool.queue.heap.jobAt p = some job) (hq : pool'.queue = pool.queue)
      (hlog : pool'.log = { pool.log with called := pool.log.called ++ [job] }) :
      JobMove clears pool hand pool' ⟨some p, true, none, none⟩
  | finish {pool' : Pool} {p : Ptr} {job : Job} (hhand : hand = ⟨some p, true, none, none⟩)
      (hjob : pool.queue.heap.jobAt p = some job)
      (hq : pool'.queue = { pool.queue with heap := Function.update pool.queue.heap p none })
      (hlog : pool'.log = { pool.log with finished := pool.log.finished ++ [job] }) :
      JobMove clears pool hand pool' .empty
  | discard {pool' : Pool} {p : Ptr} {job : Job} (hclears : clears = true)
      (hhand : hand = ⟨some p, false, none, none⟩)
      (hjob : pool.queue.heap.jobAt p = some job)
      (hq : pool'.queue = { pool.queue with heap := Function.update pool.queue.heap p none })
      (hlog : pool'.log = { pool.log with discarded := pool.log.discarded ++ [job] }) :
      JobMove clears pool hand pool' .empty
  | reset {pool' : Pool} (hlen : pool.queue.len = 0)
      (hq : pool'.queue = { pool.queue with front := none, rear := none, len := 0 })
      (hlog : pool'.log = pool.log) : JobMove clears pool hand pool' hand

section Moves

variable {d d' : Mem} {choice : Choice} {clears : Bool}

/-- A step that changes neither the queue nor the log. -/
theorem JobMove.same {pool pool' : Pool} {hand hand' : Hand} (hh : hand' = hand)
    (hq : pool'.queue = pool.queue) (hlog : pool'.log = pool.log) :
    JobMove clears pool hand pool' hand' :=
  hh ▸ .quiet hq hlog

/-- Only a thread that clears the queue discards a job, and only one that it holds. -/
theorem JobMove.discarded {pool pool' : Pool} {hand hand' : Hand}
    (h : JobMove clears pool hand pool' hand') (hkeep : clears = false ∨ hand = .empty) :
    pool'.log.discarded = pool.log.discarded := by
  cases h with
  | discard hclears hhand =>
      rcases hkeep with hc | he
      · rw [hclears] at hc
        exact absurd hc.symm Bool.false_ne_true
      · rw [hhand] at he
        cases he
  | quiet _ hlog | alloc _ _ _ _ _ hlog | link _ _ _ _ hlog | returns _ _ hlog | take _ _ _ hlog
  | call _ _ _ hlog | finish _ _ _ hlog | reset _ _ hlog => rw [hlog]

/-- A job is accepted when it is linked. -/
theorem JobMove.accepted {pool pool' : Pool} {hand hand' : Hand}
    (h : JobMove clears pool hand pool' hand') :
    pool'.log.accepted = pool.log.accepted ∨ ∃ p job, hand.pending = some p ∧
      pool.queue.heap.jobAt p = some job ∧ pool'.log.accepted = pool.log.accepted ++ [job] := by
  cases h with
  | link hpend _ hjob _ hlog => exact .inr ⟨_, _, hpend, hjob, by rw [hlog]⟩
  | quiet _ hlog | alloc _ _ _ _ _ hlog | returns _ _ hlog | take _ _ _ hlog | call _ _ _ hlog
  | finish _ _ _ hlog | discard _ _ _ _ hlog | reset _ _ hlog => exact .inl (by rw [hlog])

/-- A finished job stays finished. -/
theorem JobMove.finished {pool pool' : Pool} {hand hand' : Hand}
    (h : JobMove clears pool hand pool' hand') {job : Job} (hj : job ∈ pool.log.finished) :
    job ∈ pool'.log.finished := by
  cases h with
  | finish _ _ _ hlog =>
      rw [hlog]
      exact List.mem_append_left _ hj
  | quiet _ hlog | alloc _ _ _ _ _ hlog | link _ _ _ _ hlog | returns _ _ hlog | take _ _ _ hlog
  | call _ _ _ hlog | discard _ _ _ _ hlog | reset _ _ hlog =>
      rw [hlog]
      exact hj

theorem post_move {P : Type} {wakeUp : P → PoolInstr P} {pt : PostPc → P} {ret next : P}
    {g : P → Hand} (hwake : ∀ p d ch, (wakeUp p).effect d ch = some (d, p))
    (hpt : ∀ k, g (pt k) = g ret) (k : PostPc)
    (h : (postWith wakeUp pt ret k).effect d choice = some (d', next)) :
    JobMove clears d.pool (g (pt k)) d'.pool (g next) := by
  cases k with
  | lock | unlock =>
      cases h
      exact .same (by simp only [hpt]) rfl rfl
  | set =>
      cases h
      exact .same (by simp only [hpt]) rfl rfl
  | signal =>
      rw [postWith, hwake] at h
      cases h
      exact .same (by simp only [hpt]) rfl rfl

theorem push_move {P : Type} {pt : PushPc → P} {ret : Nat → P} {next : P} {g : P → Hand}
    (held : Option Ptr) (called : Bool) (hpt : ∀ k, g (pt k) = ⟨held, called, k.pending, k.linked⟩)
    (hret : ∀ id, g (ret id) = ⟨held, called, none, some id⟩) (k : PushPc)
    (h : (jobqueuePush pt ret k).effect d choice = some (d', next)) :
    JobMove clears d.pool (g (pt k)) d'.pool (g next) := by
  cases k with
  | lock job =>
      cases h
      exact .same (by rw [hpt, hpt]; rfl) rfl rfl
  | link job =>
      obtain ⟨⟨pool, id⟩, hlink, he⟩ := Option.map_eq_some_iff.1 h
      cases he
      obtain ⟨queue, hpush, hlink⟩ := Option.bind_eq_some_iff.1 hlink
      obtain ⟨new, hnew, hlink⟩ := Option.bind_eq_some_iff.1 hlink
      cases hlink
      rw [hpt, hpt]
      exact .link rfl hpush hnew rfl rfl
  | post id k =>
      rw [jobqueuePush] at h
      exact post_move (fun p d ch => rfl) (fun k => by rw [hpt, hpt]; rfl) k h
  | unlock id =>
      cases h
      exact .same (by rw [hpt, hret]; rfl) rfl rfl

theorem pull_move {P : Type} {pt : PullPc → P} {ret : Option Ptr → P} {next : P} {g : P → Hand}
    (hpt : ∀ k, g (pt k) = ⟨k.held, false, none, none⟩)
    (hret : ∀ job, g (ret job) = ⟨job, false, none, none⟩) (k : PullPc)
    (h : (jobqueuePull pt ret k).effect d choice = some (d', next)) :
    JobMove clears d.pool (g (pt k)) d'.pool (g next) := by
  cases k with
  | lock =>
      cases h
      exact .same (by rw [hpt, hpt]; rfl) rfl rfl
  | take =>
      obtain ⟨⟨pool, k⟩, htake, he⟩ := Option.map_eq_some_iff.1 h
      cases he
      obtain ⟨job, queue, hpull, rfl, hk⟩ := takeJob_cases htake
      -- the node that was taken is carried through the post
      have hheld : k.held = job := by
        rcases hk with ⟨p, rfl, rfl⟩ | ⟨-, rfl⟩ <;> rfl
      rw [hpt, hpt, hheld]
      exact .take rfl hpull rfl rfl
  | post job k =>
      rw [jobqueuePull] at h
      exact post_move (fun p d ch => rfl) (fun k => by rw [hpt, hpt]; rfl) k h
  | unlock job =>
      cases h
      exact .same (by rw [hpt, hret]; rfl) rfl rfl

theorem addWork_move {P : Type} {parent : Option Nat} {pt : PushPc → P} {fail next : P}
    {g : P → Hand} {hand : Hand} (hparent : parent = hand.parent d.pool.queue.heap)
    (hnone : hand.pending = none)
    (hpt : ∀ job, g (pt (.lock job)) = { hand with pending := some job }) (hfail : g fail = hand)
    (h : addWork parent pt fail d choice = some (d', next)) :
    JobMove clears d.pool hand d'.pool (g next) := by
  cases choice with
  | addWork job function args =>
      cases job with
      | none =>
          cases h
          exact .same hfail rfl rfl
      | some job =>
          simp only [addWork] at h
          split_ifs at h with hfree
          cases h
          rw [hpt]
          exact .alloc (Option.isNone_iff_eq_none.1 hfree) rfl hparent hnone rfl rfl
  | _ => cases h

/-- `free` of the node the thread holds. -/
theorem freeNode_cases {job : Ptr} {record : Log → Job → Log} {pool pool' : Pool}
    (h : freeNode job record pool = some pool') :
    ∃ done, pool.queue.heap.jobAt job = some done ∧ pool' = { pool with
      queue := { pool.queue with heap := Function.update pool.queue.heap job none }
      log := record pool.log done } := by
  obtain ⟨done, hdone, h⟩ := Option.bind_eq_some_iff.1 h
  cases h
  exact ⟨done, hdone, rfl⟩

theorem worker_move {i : Nat} {pc next : WorkerPc}
    (h : (workerCode i pc).effect d choice = some (d', next)) :
    JobMove false d.pool pc.hand d'.pool next.hand := by
  cases pc with
  | pull k =>
      rw [workerCode] at h
      refine pull_move ?_ ?_ k h
      · exact fun k => rfl
      · intro job
        cases job <;> rfl
  | push job k =>
      rw [workerCode] at h
      refine push_move (some job) true ?_ ?_ k h
      · exact fun k => rfl
      · exact fun id => rfl
  | call job =>
      obtain ⟨called, hcalled, he⟩ := Option.map_eq_some_iff.1 h
      cases he
      exact .call rfl hcalled rfl rfl
  | run job =>
      rcases run_effect h with ⟨rfl, rfl | rfl⟩ | h
      · exact .same rfl rfl rfl
      · exact .same rfl rfl rfl
      · refine addWork_move ?_ rfl ?_ rfl h
        · rfl
        · exact fun job => rfl
  | wait job before k =>
      rw [workerCode] at h
      obtain ⟨rfl, ⟨k, rfl, -⟩ | rfl⟩ := wait_effect k h <;> exact .same rfl rfl rfl
  | free job =>
      obtain ⟨pool, hfree, he⟩ := Option.map_eq_some_iff.1 h
      cases he
      obtain ⟨done, hdone, rfl⟩ := freeNode_cases hfree
      exact .finish rfl hdone rfl rfl
  | added job id =>
      cases h
      exact .returns rfl rfl rfl
  | unborn =>
      simp only [workerCode, Instr.effect, Option.ite_none_right_eq_some] at h
      cases h.2
      exact .same rfl rfl rfl
  | loop | aliveTest | semTest | doneTest =>
      rw [workerCode] at h
      obtain ⟨rfl, ⟨-, rfl⟩ | ⟨-, rfl⟩⟩ := branch_effect h <;> exact .same rfl rfl rfl
  | exited => cases h
  | _ =>
      cases h
      exact .same rfl rfl rfl

theorem client_move {pc next : ClientPc}
    (h : (clientCode pc).effect d choice = some (d', next)) :
    JobMove false d.pool pc.hand d'.pool next.hand := by
  cases pc with
  | idle =>
      rcases idle_effect h with ⟨rfl, rfl⟩ | h
      · exact .same rfl rfl rfl
      · refine addWork_move ?_ rfl ?_ rfl h
        · rfl
        · exact fun job => rfl
  | push k =>
      rw [clientCode] at h
      refine push_move none false ?_ ?_ k h
      · exact fun k => rfl
      · exact fun id => rfl
  | added id =>
      cases h
      exact .returns rfl rfl rfl
  | wait before k =>
      rw [clientCode] at h
      obtain ⟨rfl, ⟨k, rfl, -⟩ | rfl⟩ := wait_effect k h <;> exact .same rfl rfl rfl

theorem owner_move {n : Nat} {pc next : OwnerPc}
    (hlen : pc = .initQueue ∨ pc = .reset → d.pool.queue.len = 0)
    (h : (ownerCode n pc).effect d choice = some (d', next)) :
    JobMove true d.pool pc.hand d'.pool next.hand := by
  cases pc with
  | pull k =>
      rw [ownerCode] at h
      refine pull_move ?_ ?_ k h
      · exact fun k => rfl
      · exact fun job => rfl
  | postAll late k =>
      rw [ownerCode] at h
      refine post_move ?_ ?_ k h
      · exact fun p d ch => rfl
      · exact fun k => rfl
  | freeJob job =>
      cases job with
      | none =>
          cases h
          exact .same rfl rfl rfl
      | some job =>
          obtain ⟨pool, hfree, he⟩ := Option.map_eq_some_iff.1 h
          cases he
          obtain ⟨done, hdone, rfl⟩ := freeNode_cases hfree
          exact .discard rfl rfl hdone rfl rfl
  | initQueue =>
      rw [ownerCode] at h
      obtain ⟨rfl, rfl⟩ | ⟨rfl, rfl⟩ := alloc_effect h
      · exact .reset (hlen (.inl rfl)) rfl rfl
      · exact .same rfl rfl rfl
  | initPool | initThreads =>
      rw [ownerCode] at h
      obtain ⟨rfl, rfl⟩ | ⟨rfl, rfl⟩ := alloc_effect h <;> exact .same rfl rfl rfl
  | spin | emptyTest =>
      rw [ownerCode] at h
      obtain ⟨rfl, ⟨-, rfl⟩ | ⟨-, rfl⟩⟩ := branch_effect h <;> exact .same rfl rfl rfl
  | loop late =>
      cases late with
      | true =>
          rw [ownerCode] at h
          obtain ⟨rfl, ⟨-, rfl⟩ | ⟨-, rfl⟩⟩ := branch_effect h <;> exact .same rfl rfl rfl
      | false =>
          cases choice with
          | clock timeUp =>
              cases h
              cases timeUp || d.pool.alive == 0 <;> exact .same rfl rfl rfl
          | _ => cases h
  | spawn k =>
      simp only [ownerCode, Instr.effect] at h
      split at h
      · cases choice with
        | threadInit outcome =>
            cases h
            exact .same rfl rfl rfl
        | _ => cases h
      · cases h
        exact .same rfl rfl rfl
  | ready =>
      simp only [ownerCode, Instr.effect, Option.ite_none_right_eq_some] at h
      cases h.2
      exact .same rfl rfl rfl
  | freeThread k =>
      simp only [ownerCode, Instr.effect] at h
      split at h <;> cases h <;> exact .same rfl rfl rfl
  | reset =>
      cases h
      exact .reset (hlen (.inr rfl)) rfl rfl
  | failed | destroyed => cases h
  | _ =>
      cases h
      exact .same rfl rfl rfl

end Moves

end CPlayground.Thpool
