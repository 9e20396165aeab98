import CPlayground.Basic.Linked

set_option autoImplicit false

/-! # The job queue

The linked list under `jobqueue_push` and `jobqueue_pull` of `common/thpool.c`: nodes in a
heap, linked by `prev` from `front` to `rear`. A dereference of a null or dangling pointer
gives `none`. `Represents q ps` says that the queue holds the nodes `ps` in this order; the
two operations append to the list and remove its head.
-/

namespace CPlayground.Thpool

/-! ## Nodes and operations -/

abbrev Ptr := Nat

/-- A job given to `thpool_add_work`: its function and argument. `id` numbers the jobs of a
pool, and `parent` is the job that submitted it; the code has neither. -/
structure Job where
  id : Nat
  function : Nat
  args : Nat
  parent : Option Nat
  deriving DecidableEq, Repr

/-- `thpool_job_t`. -/
structure Node where
  prev : Option Ptr
  job : Job
  deriving DecidableEq, Repr

abbrev Heap := Ptr → Option Node

/-- `thpool_job_queue_t` without its mutex and semaphore, and the heap its nodes are in. -/
structure JobQueue where
  heap : Heap
  front : Option Ptr
  rear : Option Ptr
  len : Nat

/-- `p->prev = prev`. -/
def Heap.writePrev (heap : Heap) (p : Ptr) (prev : Option Ptr) : Option Heap :=
  (heap p).map fun node => Function.update heap p (some { node with prev := prev })

/-- `jobqueue_push`, up to the call of `bsem_post`. -/
def JobQueue.push (q : JobQueue) (job : Ptr) : Option JobQueue := do
  let heap ← q.heap.writePrev job none
  match q.len with
  | 0 => return { heap := heap, front := some job, rear := some job, len := q.len + 1 }
  | _ =>
    let rear ← q.rear
    let heap ← heap.writePrev rear (some job)
    return { q with heap := heap, rear := some job, len := q.len + 1 }

/-- `jobqueue_pull`, up to the call of `bsem_post` that ends its default case. -/
def JobQueue.pull (q : JobQueue) : Option (Option Ptr × JobQueue) :=
  match q.len with
  | 0 => some (q.front, q)
  | 1 => some (q.front, { q with front := none, rear := none, len := 0 })
  | _ => do
    let job ← q.front
    let node ← q.heap job
    return (q.front, { q with front := node.prev, len := q.len - 1 })

/-! ## The list a queue represents -/

/-- The link in the cell `p`. -/
def Heap.next (heap : Heap) (p : Ptr) : Option (Option Ptr) := (heap p).map Node.prev

/-- The job in the cell `p`. -/
def Heap.jobAt (heap : Heap) (p : Ptr) : Option Job := (heap p).map Node.job

/-- The nodes found by following `prev` from `front`. -/
def JobQueue.nodes (q : JobQueue) : List Ptr := walk q.heap.next q.len q.front

/-- The queued jobs, from the front. -/
def JobQueue.jobs (q : JobQueue) : List Job := q.nodes.filterMap q.heap.jobAt

/-- The queue holds the nodes `ps`, from the front. -/
structure Represents (q : JobQueue) (ps : List Ptr) : Prop where
  seg : Seg q.heap.next q.front ps none
  rear : q.rear = ps.getLast?
  len : q.len = ps.length
  nodup : ps.Nodup

variable {q : JobQueue} {ps : List Ptr} {p : Ptr} {heap heap' : Heap}

theorem Represents.nodes_eq (h : Represents q ps) : q.nodes = ps := by
  rw [JobQueue.nodes, h.len, h.seg.walk_eq]

theorem Represents.front (h : Represents q ps) : q.front = ps.head? := by
  obtain ⟨hseg, -, -, -⟩ := h
  cases ps with
  | nil => exact Seg.nil_iff.1 hseg
  | cons p ps => exact (Seg.cons_iff.1 hseg).1

/-- Every queued node is allocated. -/
theorem Represents.allocated (h : Represents q ps) (hp : p ∈ ps) : (q.heap p).isSome := by
  have := h.seg.mem_cell hp
  rwa [Heap.next, Option.isSome_map] at this

/-- The queue depends on the cells of its nodes only. -/
theorem Represents.congr (h : Represents q ps) (he : ∀ p ∈ ps, heap p = q.heap p) :
    Represents { q with heap := heap } ps :=
  ⟨h.seg.congr fun p hp => congrArg (Option.map Node.prev) (he p hp), h.rear, h.len, h.nodup⟩

/-! ## Push and pull -/

theorem writePrev_eq (prev : Option Ptr) (hp : (heap p).isSome) :
    ∃ heap', heap.writePrev p prev = some heap' ∧ heap'.next p = some prev ∧
      (∀ r, r ≠ p → heap'.next r = heap.next r) ∧ (∀ r, heap'.jobAt r = heap.jobAt r) ∧
      ∀ r, (heap' r).isSome = (heap r).isSome := by
  obtain ⟨node, hnode⟩ := Option.isSome_iff_exists.1 hp
  refine ⟨Function.update heap p (some { node with prev := prev }), ?_, ?_, fun r hr => ?_,
    fun r => ?_, fun r => ?_⟩
  · rw [Heap.writePrev, hnode, Option.map_some]
  · rw [Heap.next, Function.update_self, Option.map_some]
  · rw [Heap.next, Heap.next, Function.update_of_ne hr]
  · by_cases hr : r = p
    · subst hr
      rw [Heap.jobAt, Heap.jobAt, Function.update_self, hnode]
      rfl
    · rw [Heap.jobAt, Heap.jobAt, Function.update_of_ne hr]
  · by_cases hr : r = p
    · subst hr
      rw [Function.update_self, hnode]
      rfl
    · rw [Function.update_of_ne hr]

/-- **`jobqueue_push` appends.** -/
theorem push_represents (h : Represents q ps) (hp : (q.heap p).isSome) (hnew : p ∉ ps) :
    ∃ q', q.push p = some q' ∧ Represents q' (ps ++ [p]) ∧ q'.len = q.len + 1 ∧
      (∀ r, q'.heap.jobAt r = q.heap.jobAt r) ∧
      ∀ r, (q'.heap r).isSome = (q.heap r).isSome := by
  obtain ⟨heap, hw, hnext, hother, hjob, hsome⟩ := writePrev_eq none hp
  rcases List.eq_nil_or_concat ps with rfl | ⟨init, r, rfl⟩
  -- the first node is both ends
  · have hlen : q.len = 0 := h.len
    refine ⟨{ heap := heap, front := some p, rear := some p, len := q.len + 1 }, ?_, ?_, rfl,
      hjob, hsome⟩
    · simp only [JobQueue.push, hw, hlen, bind, Option.bind, pure]
    · exact ⟨.cons hnext (.nil none), rfl, by rw [hlen]; rfl, List.pairwise_singleton _ p⟩
  · rw [List.concat_eq_append] at *
    obtain ⟨hseg, hr⟩ := h.seg.of_snoc
    -- two cells change: the new one ends the list, the old last one links to it
    have hrp : r ≠ p := by
      rintro rfl
      exact hnew (List.mem_append_right _ List.mem_cons_self)
    have hrear : q.rear = some r := by rw [h.rear, List.getLast?_concat]
    have hlen : q.len = init.length + 1 := by rw [h.len, List.length_append, List.length_singleton]
    have hralloc : (heap r).isSome := by
      rw [hsome]
      exact h.allocated (List.mem_append_right _ List.mem_cons_self)
    obtain ⟨heap', hw', hnext', hother', hjob', hsome'⟩ := writePrev_eq (some p) hralloc
    have hnodup := List.nodup_append.1 h.nodup
    refine ⟨{ q with heap := heap', rear := some p, len := q.len + 1 }, ?_, ?_, rfl, ?_, ?_⟩
    · simp only [JobQueue.push, hw, hlen, hrear, hw', bind, Option.bind, pure]
    · refine ⟨?_, by simp, by simp [hlen], ?_⟩
      · refine Seg.snoc (Seg.snoc (hseg.congr fun c hc => ?_) hnext') ?_
        · have hcr : c ≠ r := fun he => hnodup.2.2 c hc r List.mem_cons_self he
          have hcp : c ≠ p := fun he => hnew (he ▸ List.mem_append_left _ hc)
          rw [hother' c hcr, hother c hcp]
        · rw [hother' p (Ne.symm hrp), hnext]
      · refine List.nodup_append.2 ⟨h.nodup, List.pairwise_singleton _ p, fun a ha b hb => ?_⟩
        rw [List.mem_singleton.1 hb]
        rintro rfl
        exact hnew ha
    · exact fun c => (hjob' c).trans (hjob c)
    · exact fun c => (hsome' c).trans (hsome c)

/-- The length after `jobqueue_pull`, which has a node to return when there are several. -/
theorem pull_len {q' : JobQueue} {job : Option Ptr} (h : q.pull = some (job, q')) :
    q'.len = q.len - 1 ∧ (1 < q.len → job ≠ none) := by
  unfold JobQueue.pull at h
  split at h
  · rename_i hlen
    cases h
    exact ⟨by rw [hlen], fun hc => by rw [hlen] at hc; cases hc⟩
  · rename_i hlen
    cases h
    exact ⟨by rw [hlen], fun hc => by rw [hlen] at hc; exact absurd hc (Nat.lt_irrefl 1)⟩
  · obtain ⟨front, hfront, h⟩ := Option.bind_eq_some_iff.1 h
    obtain ⟨node, -, h⟩ := Option.bind_eq_some_iff.1 h
    cases h
    exact ⟨rfl, fun _ => by rw [hfront]; exact Option.some_ne_none front⟩

theorem push_len {q' : JobQueue} (h : q.push p = some q') : q'.len = q.len + 1 := by
  obtain ⟨heap, -, h⟩ := Option.bind_eq_some_iff.1 h
  split at h
  · cases h
    rfl
  · obtain ⟨rear, -, h⟩ := Option.bind_eq_some_iff.1 h
    obtain ⟨heap', -, h⟩ := Option.bind_eq_some_iff.1 h
    cases h
    rfl

/-- `jobqueue_pull` finds nothing in the empty queue. -/
theorem pull_empty (h : Represents q []) : q.pull = some (none, q) := by
  have hlen : q.len = 0 := h.len
  have hfront : q.front = none := h.front
  simp only [JobQueue.pull, hlen, hfront]

/-- **`jobqueue_pull` removes the head.** -/
theorem pull_represents (h : Represents q (p :: ps)) :
    ∃ q', q.pull = some (some p, q') ∧ Represents q' ps ∧ q'.heap = q.heap := by
  have hfront : q.front = some p := h.front
  obtain ⟨-, a, hp, hseg⟩ := Seg.cons_iff.1 h.seg
  have hnodup := (List.nodup_cons.1 h.nodup).2
  cases ps with
  | nil =>
      have hlen : q.len = 1 := h.len
      cases hseg
      refine ⟨{ q with front := none, rear := none, len := 0 }, ?_, ⟨.nil none, rfl, rfl, hnodup⟩,
        rfl⟩
      simp only [JobQueue.pull, hlen, hfront]
  | cons r ps =>
      have hlen : q.len = ps.length + 2 := h.len
      -- the second node becomes the front
      obtain ⟨node, hnode, rfl⟩ := Option.map_eq_some_iff.1 hp
      refine ⟨{ q with front := node.prev, len := q.len - 1 }, ?_, ⟨hseg, ?_, ?_, hnodup⟩, rfl⟩
      · simp only [JobQueue.pull, hlen, hfront, hnode, bind, Option.bind, pure]
      · show q.rear = (r :: ps).getLast?
        rw [h.rear, List.getLast?_cons_cons]
      · show q.len - 1 = (r :: ps).length
        rw [hlen]
        rfl

end CPlayground.Thpool
