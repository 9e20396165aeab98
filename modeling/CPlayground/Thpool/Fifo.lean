import CPlayground.Basic.Refine
import CPlayground.Thpool.JobQueue
import Mathlib.Data.List.Nodup
import Mathlib.Data.List.Perm.Basic

set_option autoImplicit false

/-! # The job queue as a queue

`jobqueue_init`, `jobqueue_push`, `jobqueue_pull` and `jobqueue_clear` called one after the
other, with the nodes allocated by `malloc` and given back by `free`: the locks are free then,
and what is left of the semaphore is its value. `Fifo` says what the queue is for: a list of
jobs, appended to at its end and taken from at its head, and the nodes that have been handed
out. The code refines it (`queue_refines_fifo`), at whatever addresses `malloc` returns, also
those of nodes freed before.
-/

namespace CPlayground.Thpool

/-! ## The code -/

/-- `thpool_job_queue_t` with the value `v` of its semaphore. -/
structure SeqQueue where
  queue : JobQueue
  v : Nat

namespace SeqQueue

/-- `jobqueue_init`, with no node allocated. -/
def init : SeqQueue where
  queue := { heap := fun _ => none, front := none, rear := none, len := 0 }
  v := 0

/-- `malloc` and the assignments of `thpool_add_work`; `prev` holds what `malloc` has left. -/
def alloc (q : SeqQueue) (p : Ptr) (prev : Option Ptr) (job : Job) : Option SeqQueue :=
  if (q.queue.heap p).isNone then
    some { q with queue := { q.queue with
      heap := Function.update q.queue.heap p (some { prev := prev, job := job }) } }
  else none

/-- `jobqueue_push`. -/
def push (q : SeqQueue) (p : Ptr) : Option SeqQueue :=
  (q.queue.push p).map fun queue => { queue := queue, v := 1 }

/-- `jobqueue_pull`; the semaphore is posted when a job is left. -/
def pull (q : SeqQueue) : Option (Option Ptr × SeqQueue) :=
  q.queue.pull.map fun r => (r.1, { queue := r.2, v := if 1 < q.queue.len then 1 else q.v })

/-- `free`, which accepts `NULL`. -/
def free (q : SeqQueue) : Option Ptr → Option SeqQueue
  | none => some q
  | some p =>
      if (q.queue.heap p).isSome then
        some { q with queue := { q.queue with heap := Function.update q.queue.heap p none } }
      else none

/-- The loop of `jobqueue_clear`, with the pointers it frees. -/
def clearLoop : Nat → SeqQueue → Option (List (Option Ptr) × SeqQueue)
  | 0, q => if q.queue.len = 0 then some ([], q) else none
  | fuel + 1, q =>
      if q.queue.len = 0 then some ([], q)
      else do
        let (job, q) ← q.pull
        let q ← q.free job
        let (freed, q) ← clearLoop fuel q
        return (job :: freed, q)

/-- `jobqueue_clear`. As many rounds as there are jobs are enough (`clearLoop_spec`). -/
def clear (q : SeqQueue) : Option (List (Option Ptr) × SeqQueue) := do
  let (freed, q) ← clearLoop q.queue.len q
  return (freed, { queue := { q.queue with front := none, rear := none, len := 0 }, v := 0 })

end SeqQueue

/-- What is called; `free` is called by the one who has pulled the job. -/
inductive QueueOp
  | push (p : Ptr) (prev : Option Ptr) (job : Job)
  | pull
  | free (p : Ptr)
  | clear

inductive Answer
  | done
  | pulled (p : Option Ptr)
  | freed (ps : List (Option Ptr))
  deriving DecidableEq, Repr

/-- One call. A dereference of a null or dangling pointer, or a double `free`, has no answer. -/
def stepQueue : Machine SeqQueue QueueOp Answer
  | q, .push p prev job => ((q.alloc p prev job).bind fun q => q.push p).map fun q => (.done, q)
  | q, .pull => q.pull.map fun r => (.pulled r.1, r.2)
  | q, .free p => (q.free (some p)).map fun q => (.done, q)
  | q, .clear => q.clear.map fun r => (.freed r.1, r.2)

/-! ## What the queue is for -/

/-- The queued jobs from the head on, each in its node, and the nodes that were pulled and have
not been freed. -/
structure Fifo where
  queue : List (Ptr × Job)
  held : List Ptr
  deriving DecidableEq

def Fifo.empty : Fifo := ⟨[], []⟩

/-- The addresses of the queued jobs. -/
def Fifo.nodes (t : Fifo) : List Ptr := t.queue.map Prod.fst

/-- `malloc` returns an address that is not in use, and only a node that was pulled is freed. -/
def stepFifo : Machine Fifo QueueOp Answer
  | t, .push p _ job =>
      if p ∈ t.nodes ∨ p ∈ t.held then none
      else some (.done, { t with queue := t.queue ++ [(p, job)] })
  | t, .pull =>
      match t.queue with
      | [] => some (.pulled none, t)
      | (p, _) :: rest => some (.pulled (some p), { queue := rest, held := p :: t.held })
  | t, .free p => if p ∈ t.held then some (.done, { t with held := t.held.erase p }) else none
  | t, .clear => some (.freed (t.nodes.map some), { t with queue := [] })

/-! ## The refinement -/

/-- What following `prev` from `front` finds is the queue `t`. -/
structure IsFifo (q : SeqQueue) (t : Fifo) : Prop where
  nodes : q.queue.nodes = t.nodes
  len : q.queue.len = t.nodes.length
  distinct : t.nodes.Nodup
  rear : q.queue.rear = t.nodes.getLast?
  last : ∀ p, q.queue.rear = some p → q.queue.heap.next p = some none
  empty_iff : q.queue.len = 0 ↔ q.queue.front = none ∧ q.queue.rear = none
  jobs : ∀ e ∈ t.queue, q.queue.heap.jobAt e.1 = some e.2
  pull_empty : t.queue = [] → stepQueue q .pull = some (.pulled none, q)

/-- The queue holds the jobs of `t` in its nodes, and nothing else is allocated. -/
structure Holds (q : SeqQueue) (t : Fifo) : Prop where
  nodes : Represents q.queue t.nodes
  jobs : ∀ e ∈ t.queue, q.queue.heap.jobAt e.1 = some e.2
  allocated : ∀ p, (q.queue.heap p).isSome ↔ p ∈ t.nodes ∨ p ∈ t.held
  apart : ∀ p ∈ t.held, p ∉ t.nodes
  once : t.held.Nodup

section Refinement

variable {q : SeqQueue} {t : Fifo} {p : Ptr}

theorem holds_init : Holds SeqQueue.init Fifo.empty where
  nodes := ⟨.nil none, rfl, rfl, List.nodup_nil⟩
  jobs e he := absurd he List.not_mem_nil
  allocated p := by simp [SeqQueue.init, Fifo.empty, Fifo.nodes]
  apart p hp := absurd hp List.not_mem_nil
  once := List.nodup_nil

/-- A node that `malloc` returns, and its place at the end of the queue. -/
theorem push_holds (h : Holds q t) (prev : Option Ptr) (job : Job) (hq : p ∉ t.nodes)
    (hheld : p ∉ t.held) :
    ∃ q', ((q.alloc p prev job).bind fun q => q.push p) = some q' ∧
      Holds q' { t with queue := t.queue ++ [(p, job)] } := by
  have hfree : (q.queue.heap p).isNone = true := by
    rw [← Option.not_isSome, Bool.not_eq_true', ← Bool.not_eq_true, h.allocated]
    exact not_or.2 ⟨hq, hheld⟩
  let heap := Function.update q.queue.heap p (some { prev := prev, job := job })
  have hsame : ∀ r, r ≠ p → heap r = q.queue.heap r := fun r hr => Function.update_of_ne hr _ _
  have hself : heap p = some { prev := prev, job := job } := Function.update_self ..
  have halloc : q.alloc p prev job = some { q with queue := { q.queue with heap := heap } } :=
    if_pos hfree
  have hrep : Represents { q.queue with heap := heap } t.nodes :=
    h.nodes.congr fun r hr => hsame r fun he => hq (he ▸ hr)
  obtain ⟨queue, hpush, hrep', -, hjobs, hsome⟩ :=
    push_represents hrep (p := p) (by simp [hself]) hq
  refine ⟨{ queue := queue, v := 1 }, ?_, ?_⟩
  · rw [halloc, Option.bind_some, SeqQueue.push, hpush, Option.map_some]
  · constructor
    · simpa [Fifo.nodes] using hrep'
    · intro e he
      rw [hjobs]
      show (heap e.1).map Node.job = some e.2
      rcases List.mem_append.1 he with hold | hnew
      · have hne : e.1 ≠ p := fun he => hq (he ▸ List.mem_map_of_mem hold)
        rw [hsame e.1 hne]
        exact h.jobs e hold
      · rw [List.mem_singleton.1 hnew, hself]
        rfl
    · intro r
      rw [hsome]
      show (heap r).isSome = true ↔ _
      by_cases hr : r = p
      · rw [hr, hself]
        simp [Fifo.nodes]
      · rw [hsame r hr, h.allocated]
        simp [Fifo.nodes, hr]
    · intro r hr
      have hne : r ≠ p := fun he => hheld (he ▸ hr)
      have hold := h.apart r hr
      simp only [Fifo.nodes] at hold ⊢
      simp [hold, hne]
    · exact h.once

theorem pull_empty_holds (h : Holds q t) (hq : t.queue = []) : q.pull = some (none, q) := by
  have hnodes : t.nodes = [] := by rw [Fifo.nodes, hq, List.map_nil]
  have hrep := h.nodes
  rw [hnodes] at hrep
  have hlen : q.queue.len = 0 := hrep.len
  simp [SeqQueue.pull, pull_empty hrep, hlen]

/-- The head of the queue is handed out. -/
theorem pull_holds {job : Job} {rest : List (Ptr × Job)} (h : Holds q t)
    (hq : t.queue = (p, job) :: rest) :
    ∃ q', q.pull = some (some p, q') ∧ Holds q' { queue := rest, held := p :: t.held } := by
  have hnodes : t.nodes = p :: rest.map Prod.fst := by rw [Fifo.nodes, hq, List.map_cons]
  have hrep := h.nodes
  rw [hnodes] at hrep
  obtain ⟨hfresh, hnodup⟩ := List.nodup_cons.1 hrep.nodup
  obtain ⟨queue, hpull, hrep', hheap⟩ := pull_represents hrep
  refine ⟨_, by rw [SeqQueue.pull, hpull, Option.map_some], hrep', fun e he => ?_, fun r => ?_,
    fun r hr => ?_, ?_⟩
  · rw [hheap]
    exact h.jobs e (hq ▸ List.mem_cons_of_mem _ he)
  · rw [hheap, h.allocated, hnodes]
    simp only [Fifo.nodes, List.mem_cons]
    tauto
  · rcases List.mem_cons.1 hr with rfl | hheld
    · exact hfresh
    · have hold := h.apart r hheld
      rw [hnodes] at hold
      exact fun hin => hold (List.mem_cons_of_mem _ hin)
  · refine List.nodup_cons.2 ⟨fun hheld => ?_, h.once⟩
    exact h.apart p hheld (hnodes ▸ List.mem_cons_self)

theorem free_holds (h : Holds q t) (hp : p ∈ t.held) :
    ∃ q', q.free (some p) = some q' ∧ Holds q' { t with held := t.held.erase p } := by
  have hout := h.apart p hp
  have hne : ∀ r ∈ t.nodes, r ≠ p := fun r hr he => hout (he ▸ hr)
  refine ⟨_, if_pos ((h.allocated p).2 (.inr hp)), ?_, fun e he => ?_, fun r => ?_, fun r hr => ?_,
    h.once.erase p⟩
  · exact h.nodes.congr fun r hr => Function.update_of_ne (hne r hr) _ _
  · show (Function.update q.queue.heap p none e.1).map Node.job = some e.2
    rw [Function.update_of_ne (hne e.1 (List.mem_map_of_mem he))]
    exact h.jobs e he
  · show (Function.update q.queue.heap p none r).isSome = true ↔ _
    rw [h.once.mem_erase_iff]
    by_cases hr : r = p
    · subst hr
      simpa [Fifo.nodes] using hout
    · rw [Function.update_of_ne hr, h.allocated]
      simp [hr, Fifo.nodes]
  · exact h.apart r (List.mem_of_mem_erase hr)

/-- **The loop of `jobqueue_clear`** ends, and has freed each node once, from the head on. -/
theorem clearLoop_spec (jobs : List (Ptr × Job)) {fuel : Nat} (hfuel : jobs.length ≤ fuel)
    (h : Holds q t) (hq : t.queue = jobs) :
    ∃ q', SeqQueue.clearLoop fuel q = some (t.nodes.map some, q') ∧
      Holds q' { t with queue := [] } := by
  induction jobs generalizing q t fuel with
  | nil =>
      have hnodes : t.nodes = [] := by rw [Fifo.nodes, hq, List.map_nil]
      have hlen : q.queue.len = 0 := by rw [h.nodes.len, hnodes, List.length_nil]
      refine ⟨q, ?_, ?_⟩
      · cases fuel <;> simp [SeqQueue.clearLoop, hlen, hnodes]
      · rw [← hq]
        exact h
  | cons e rest ih =>
      obtain ⟨p, job⟩ := e
      obtain ⟨fuel, rfl⟩ : ∃ k, fuel = k + 1 := Nat.exists_eq_add_one.2 (by simp at hfuel; omega)
      have hnodes : t.nodes = p :: rest.map Prod.fst := by rw [Fifo.nodes, hq, List.map_cons]
      have hlen : q.queue.len ≠ 0 := by
        rw [h.nodes.len, hnodes]
        simp
      -- one round pulls the head and frees it
      obtain ⟨q₁, hpull, h₁⟩ := pull_holds h hq
      obtain ⟨q₂, hfree, h₂⟩ := free_holds h₁ List.mem_cons_self
      rw [List.erase_cons_head] at h₂
      obtain ⟨q₃, hloop, h₃⟩ := ih (t := { queue := rest, held := t.held })
        (by simpa using hfuel) h₂ rfl
      refine ⟨q₃, ?_, h₃⟩
      rw [hnodes]
      simp [SeqQueue.clearLoop, hlen, hpull, hfree, hloop, Fifo.nodes]

theorem clear_holds (h : Holds q t) :
    ∃ q', q.clear = some (t.nodes.map some, q') ∧ Holds q' { t with queue := [] } := by
  have hlen : t.queue.length ≤ q.queue.len := by simp [h.nodes.len, Fifo.nodes]
  obtain ⟨q₁, hloop, h₁⟩ := clearLoop_spec t.queue hlen h rfl
  refine ⟨{ queue := { q₁.queue with front := none, rear := none, len := 0 }, v := 0 }, ?_, ?_⟩
  · simp [SeqQueue.clear, hloop]
  · exact ⟨⟨.nil none, rfl, rfl, List.nodup_nil⟩, h₁.jobs, h₁.allocated, h₁.apart, h₁.once⟩

theorem Holds.isFifo (h : Holds q t) : IsFifo q t where
  nodes := h.nodes.nodes_eq
  len := h.nodes.len
  distinct := h.nodes.nodup
  rear := h.nodes.rear
  last p hp := by
    obtain ⟨init, hnodes⟩ : ∃ init, t.nodes = init ++ [p] :=
      List.getLast?_eq_some_iff.1 (h.nodes.rear ▸ hp)
    have hseg := h.nodes.seg
    rw [hnodes] at hseg
    exact hseg.of_snoc.2
  empty_iff := by
    rw [h.nodes.len, h.nodes.front, h.nodes.rear, List.length_eq_zero_iff]
    simp
  jobs := h.jobs
  pull_empty hq := by simp [stepQueue, pull_empty_holds h hq]

/-- **One call.** -/
theorem stepQueue_refines : Refines stepQueue stepFifo Holds := by
  intro q t op answer t' h hspec
  cases op with
  | push p prev job =>
      simp only [stepFifo, Option.ite_none_left_eq_some, Option.some.injEq, Prod.mk.injEq,
        not_or] at hspec
      obtain ⟨⟨hq, hheld⟩, rfl, rfl⟩ := hspec
      obtain ⟨q', hok, h'⟩ := push_holds h prev job hq hheld
      exact ⟨q', by simp [stepQueue, hok], h'⟩
  | pull =>
      cases hq : t.queue with
      | nil =>
          simp only [stepFifo, hq, Option.some.injEq, Prod.mk.injEq] at hspec
          obtain ⟨rfl, rfl⟩ := hspec
          exact ⟨q, by simp [stepQueue, pull_empty_holds h hq], h⟩
      | cons e rest =>
          simp only [stepFifo, hq, Option.some.injEq, Prod.mk.injEq] at hspec
          obtain ⟨rfl, rfl⟩ := hspec
          obtain ⟨q', hok, h'⟩ := pull_holds h hq
          exact ⟨q', by simp [stepQueue, hok], h'⟩
  | free p =>
      simp only [stepFifo, Option.ite_none_right_eq_some, Option.some.injEq,
        Prod.mk.injEq] at hspec
      obtain ⟨hp, rfl, rfl⟩ := hspec
      obtain ⟨q', hok, h'⟩ := free_holds h hp
      exact ⟨q', by simp [stepQueue, hok], h'⟩
  | clear =>
      simp only [stepFifo, Option.some.injEq, Prod.mk.injEq] at hspec
      obtain ⟨rfl, rfl⟩ := hspec
      obtain ⟨q', hok, h'⟩ := clear_holds h
      exact ⟨q', by simp [stepQueue, hok], h'⟩

end Refinement

/-! ## Every sequence of calls -/

/-- **The job queue is a queue**: the code answers every sequence of calls as `Fifo` does, and
after each of them its list is that queue. `len` is an `int`, so this is about fewer than `2^31`
queued jobs. -/
theorem queue_refines_fifo {ops : List QueueOp} {answers : List Answer} {t : Fifo}
    (hspec : stepFifo.answers Fifo.empty ops = some (answers, t)) :
    ∃ q, stepQueue.answers SeqQueue.init ops = some (answers, q) ∧ IsFifo q t := by
  obtain ⟨q, hq, h⟩ := stepQueue_refines.answers holds_init hspec
  exact ⟨q, hq, h.isFifo⟩

/-- The node at address 1 is pulled, freed and used again, and a queue of two is cleared. -/
theorem queue_refines_fifo_reused :
    let job (id : Nat) : Job := { id := id, function := id, args := id, parent := none }
    ∃ q, stepQueue.answers SeqQueue.init
        [.push 1 none (job 0), .push 2 (some 7) (job 1), .pull, .free 1, .push 1 (some 2) (job 2),
          .clear, .pull] =
      some ([.done, .done, .pulled (some 1), .done, .done, .freed [some 2, some 1],
        .pulled none], q) ∧ IsFifo q Fifo.empty :=
  queue_refines_fifo rfl

end CPlayground.Thpool
