import CPlayground.Thpool.Counters
import CPlayground.Thpool.JobMoves

set_option autoImplicit false

/-! # The ledger of the jobs

An account of the nodes and of the jobs, for any family of hands (`Ledger`): every allocated
node is in the queue or in one hand, once; every number given out belongs to one accepted job
or to one node that waits to be linked; every pulled job is in one hand, finished or
discarded. Each of the nine moves keeps the account (`Ledger.move`).
-/

namespace CPlayground.Thpool

open Threads

/-! ## The account -/

/-- How often the hand holds the node `p`. -/
def Hand.nodes (hand : Hand) (p : Ptr) : Nat :=
  hand.held.toList.count p + hand.pending.toList.count p

def Hand.heldJob (hand : Hand) (heap : Heap) : Option Job := hand.held.bind heap.jobAt

def Hand.pendingJob (hand : Hand) (heap : Heap) : Option Job := hand.pending.bind heap.jobAt

/-- The job whose function has been called and whose node is not freed. -/
def Hand.calledJob (hand : Hand) (heap : Heap) : Option Job :=
  if hand.called then hand.heldJob heap else none

/-- The numbers of the accepted jobs. -/
def Log.acceptedIds (log : Log) : List Nat := log.accepted.map Job.id

/-- The account of the nodes in the heap and of the jobs in the log. -/
structure Ledger {T : Type} [Fintype T] (pool : Pool) (hands : T → Hand) : Prop where
  queue : Represents pool.queue pool.queue.nodes
  owned : ∀ p, pool.queue.nodes.count p + ∑ t, (hands t).nodes p
    = (pool.queue.heap p).isSome.toNat
  fifo : pool.log.accepted = pool.log.pulled ++ pool.queue.jobs
  ids : ∀ id, pool.log.acceptedIds.count id +
    ∑ t, (((hands t).pendingJob pool.queue.heap).toList.map Job.id).count id
      = (decide (id < pool.log.nextId)).toNat
  places : ∀ job, pool.log.pulled.count job
    = ∑ t, ((hands t).heldJob pool.queue.heap).toList.count job
      + pool.log.finished.count job + pool.log.discarded.count job
  calls : ∀ job, pool.log.called.count job
    = ∑ t, ((hands t).calledJob pool.queue.heap).toList.count job + pool.log.finished.count job
  parents : ∀ t job, (hands t).pendingJob pool.queue.heap = some job →
    job.parent = (hands t).parent pool.queue.heap
  linked : ∀ t id, (hands t).linked = some id → id ∈ pool.log.acceptedIds
  returned : ∀ id ∈ pool.log.returned, id ∈ pool.log.acceptedIds

section Frame

variable {heap heap' : Heap} {hand : Hand}

/-- What is in a hand depends on the jobs in the cells of its nodes only. -/
theorem Hand.heldJob_congr (h : ∀ p, 0 < hand.nodes p → heap'.jobAt p = heap.jobAt p) :
    hand.heldJob heap' = hand.heldJob heap := by
  unfold Hand.heldJob
  cases hheld : hand.held with
  | none => rfl
  | some p =>
      exact h p (by simp [Hand.nodes, hheld])

theorem Hand.pendingJob_congr (h : ∀ p, 0 < hand.nodes p → heap'.jobAt p = heap.jobAt p) :
    hand.pendingJob heap' = hand.pendingJob heap := by
  unfold Hand.pendingJob
  cases hpend : hand.pending with
  | none => rfl
  | some p =>
      exact h p (by simp [Hand.nodes, hpend])

theorem Hand.calledJob_congr (h : ∀ p, 0 < hand.nodes p → heap'.jobAt p = heap.jobAt p) :
    hand.calledJob heap' = hand.calledJob heap := by
  unfold Hand.calledJob
  rw [hand.heldJob_congr h]

theorem Hand.parent_eq : hand.parent heap = (hand.calledJob heap).map Job.id := by
  unfold Hand.parent Hand.calledJob Hand.heldJob
  cases hand.called <;> rfl

end Frame

section Moves

variable {T : Type} [Fintype T] [DecidableEq T] {pool pool' : Pool} {hands : T → Hand} {t : T}
  {hand' : Hand}

/-- A sum over the hands changes by what the one hand's part of it changes. -/
theorem hands_sum (hands : T → Hand) (t : T) (hand' : Hand) (f g : Hand → Nat)
    (h : ∀ u, u ≠ t → g (hands u) = f (hands u)) :
    ∑ u, g (Function.update hands t hand' u) + f (hands t) = ∑ u, f (hands u) + g hand' := by
  have hs := sum_step (fun u => f (hands u)) (fun u => g (Function.update hands t hand' u)) t
    fun u hu => by simp only [Function.update_of_ne hu, h u hu]
  simpa using hs

namespace Ledger

/-- A node in a hand is in no other hand and not in the queue, and is allocated. -/
theorem sole (h : Ledger pool hands) {p : Ptr} (hp : 0 < (hands t).nodes p) :
    p ∉ pool.queue.nodes ∧ (pool.queue.heap p).isSome = true ∧
      ∀ u, u ≠ t → (hands u).nodes p = 0 := by
  have ho := h.owned p
  -- a cell is allocated once at most, so the hand's part is all there is
  have hle : (pool.queue.heap p).isSome.toNat ≤ 1 := Bool.toNat_le _
  have hsum := Finset.add_sum_erase Finset.univ (fun u => (hands u).nodes p) (Finset.mem_univ t)
  have hpos : 0 < (pool.queue.heap p).isSome.toNat := by omega
  refine ⟨fun hmem => ?_, ?_, fun u hu => ?_⟩
  · have := List.count_pos_iff.2 hmem
    omega
  · cases hs : (pool.queue.heap p).isSome
    · rw [hs] at hpos
      exact absurd hpos (Nat.lt_irrefl _)
    · rfl
  · have hle' : (hands u).nodes p ≤ ∑ u ∈ Finset.univ.erase t, (hands u).nodes p :=
      Finset.single_le_sum (f := fun u => (hands u).nodes p) (fun _ _ => Nat.zero_le _)
        (Finset.mem_erase.2 ⟨hu, Finset.mem_univ u⟩)
    omega

omit [DecidableEq T] in
/-- A free cell is in no hand and not in the queue. -/
theorem unowned (h : Ledger pool hands) {p : Ptr} (hp : pool.queue.heap p = none) :
    p ∉ pool.queue.nodes ∧ ∀ u, (hands u).nodes p = 0 := by
  have ho := h.owned p
  rw [hp, Option.isSome_none, Bool.toNat_false, Nat.add_eq_zero_iff] at ho
  refine ⟨List.count_eq_zero.1 ho.1, fun u => ?_⟩
  exact (Finset.sum_eq_zero_iff.1 ho.2) u (Finset.mem_univ u)

/-- **The books balance.** It is enough to balance the account of the hand that moves, when the
nodes of the other hands keep their jobs. -/
theorem balance (h : Ledger pool hands) (hand' : Hand) {ns : List Ptr}
    (hframe : ∀ u, u ≠ t → ∀ p, 0 < (hands u).nodes p →
      pool'.queue.heap.jobAt p = pool.queue.heap.jobAt p)
    (hqueue : Represents pool'.queue ns)
    (howned : ∀ p, ns.count p + hand'.nodes p + (pool.queue.heap p).isSome.toNat
      = pool.queue.nodes.count p + (hands t).nodes p + (pool'.queue.heap p).isSome.toNat)
    (hfifo : pool'.log.accepted = pool'.log.pulled ++ ns.filterMap pool'.queue.heap.jobAt)
    (hids : ∀ id, pool'.log.acceptedIds.count id
        + ((hand'.pendingJob pool'.queue.heap).toList.map Job.id).count id
        + (decide (id < pool.log.nextId)).toNat
      = pool.log.acceptedIds.count id
        + (((hands t).pendingJob pool.queue.heap).toList.map Job.id).count id
        + (decide (id < pool'.log.nextId)).toNat)
    (hplaces : ∀ job, pool'.log.pulled.count job
        + ((hands t).heldJob pool.queue.heap).toList.count job
        + pool.log.finished.count job + pool.log.discarded.count job
      = pool.log.pulled.count job + (hand'.heldJob pool'.queue.heap).toList.count job
        + pool'.log.finished.count job + pool'.log.discarded.count job)
    (hcalls : ∀ job, pool'.log.called.count job
        + ((hands t).calledJob pool.queue.heap).toList.count job + pool.log.finished.count job
      = pool.log.called.count job + (hand'.calledJob pool'.queue.heap).toList.count job
        + pool'.log.finished.count job)
    (hparent : ∀ job, hand'.pendingJob pool'.queue.heap = some job →
      job.parent = hand'.parent pool'.queue.heap)
    (hmono : ∀ id ∈ pool.log.acceptedIds, id ∈ pool'.log.acceptedIds)
    (hlinked : ∀ id, hand'.linked = some id →
      (hands t).linked = some id ∨ id ∈ pool'.log.acceptedIds)
    (hreturned : ∀ id ∈ pool'.log.returned,
      id ∈ pool.log.returned ∨ (hands t).linked = some id) :
    Ledger pool' (Function.update hands t hand') := by
  constructor
  case queue =>
    rw [hqueue.nodes_eq]
    exact hqueue
  case owned =>
    intro p
    -- each law is a sum over the hands: one part changes, the others are framed
    have hs := hands_sum hands t hand' (fun hd => hd.nodes p) (fun hd => hd.nodes p)
      fun u _ => rfl
    have ho := h.owned p
    have hl := howned p
    rw [hqueue.nodes_eq]
    omega
  case fifo =>
    rw [JobQueue.jobs, hqueue.nodes_eq]
    exact hfifo
  case ids =>
    intro id
    have hs := hands_sum hands t hand'
      (fun hd => ((hd.pendingJob pool.queue.heap).toList.map Job.id).count id)
      (fun hd => ((hd.pendingJob pool'.queue.heap).toList.map Job.id).count id)
      fun u hu => by simp only [Hand.pendingJob_congr (hframe u hu)]
    have ho := h.ids id
    have hl := hids id
    omega
  case places =>
    intro job
    have hs := hands_sum hands t hand'
      (fun hd => (hd.heldJob pool.queue.heap).toList.count job)
      (fun hd => (hd.heldJob pool'.queue.heap).toList.count job)
      fun u hu => by simp only [Hand.heldJob_congr (hframe u hu)]
    have ho := h.places job
    have hl := hplaces job
    omega
  case calls =>
    intro job
    have hs := hands_sum hands t hand'
      (fun hd => (hd.calledJob pool.queue.heap).toList.count job)
      (fun hd => (hd.calledJob pool'.queue.heap).toList.count job)
      fun u hu => by simp only [Hand.calledJob_congr (hframe u hu)]
    have ho := h.calls job
    have hl := hcalls job
    omega
  case parents =>
    intro u job hj
    by_cases hu : u = t
    · subst hu
      rw [Function.update_self] at hj ⊢
      exact hparent job hj
    · rw [Function.update_of_ne hu] at hj ⊢
      rw [Hand.pendingJob_congr (hframe u hu)] at hj
      -- another hand's job keeps the parent it had
      rw [Hand.parent_eq, Hand.calledJob_congr (hframe u hu), ← Hand.parent_eq]
      exact h.parents u job hj
  case linked =>
    intro u id hid
    by_cases hu : u = t
    · subst hu
      rw [Function.update_self] at hid
      exact (hlinked id hid).elim (fun hold => hmono id (h.linked u id hold)) fun hnew => hnew
    · rw [Function.update_of_ne hu] at hid
      exact hmono id (h.linked u id hid)
  case returned =>
    intro id hid
    rcases hreturned id hid with hold | hlink
    · exact hmono id (h.returned id hold)
    · exact hmono id (h.linked t id hlink)

omit [Fintype T] [DecidableEq T] in
/-- A change of one cell that the other hands do not hold. -/
theorem frame_of_sole {p : Ptr} (hsole : ∀ u, u ≠ t → (hands u).nodes p = 0)
    (hkeep : ∀ r, r ≠ p → pool'.queue.heap r = pool.queue.heap r) (u : T) (hu : u ≠ t) (r : Ptr)
    (hr : 0 < (hands u).nodes r) :
    pool'.queue.heap.jobAt r = pool.queue.heap.jobAt r := by
  have hne : r ≠ p := by
    rintro rfl
    rw [hsole u hu] at hr
    exact Nat.lt_irrefl _ hr
  rw [Heap.jobAt, Heap.jobAt, hkeep r hne]

omit [DecidableEq T] in
/-- The queue after a change of one cell that is not in it. -/
theorem queue_of_sole (h : Ledger pool hands) {p : Ptr} {cell : Option Node}
    (hnot : p ∉ pool.queue.nodes)
    (hq : pool'.queue = { pool.queue with heap := Function.update pool.queue.heap p cell }) :
    Represents pool'.queue pool.queue.nodes ∧
      pool.queue.nodes.filterMap pool'.queue.heap.jobAt = pool.queue.jobs := by
  have hkeep : ∀ r ∈ pool.queue.nodes,
      Function.update pool.queue.heap p cell r = pool.queue.heap r := by
    intro r hr
    apply Function.update_of_ne
    rintro rfl
    exact hnot hr
  rw [hq]
  refine ⟨h.queue.congr hkeep, List.filterMap_congr fun r hr => ?_⟩
  exact congrArg (Option.map Node.job) (hkeep r hr)

/-- **`malloc`** of a node: it waits in the hand. -/
theorem alloc (h : Ledger pool hands) {p : Ptr} {job : Job}
    (hfree : pool.queue.heap p = none) (hid : job.id = pool.log.nextId)
    (hparent : job.parent = (hands t).parent pool.queue.heap) (hnone : (hands t).pending = none)
    (hq : pool'.queue = { pool.queue with
      heap := Function.update pool.queue.heap p (some { prev := none, job := job }) })
    (hlog : pool'.log = { pool.log with nextId := pool.log.nextId + 1 }) :
    Ledger pool' (Function.update hands t { hands t with pending := some p }) := by
  obtain ⟨hnew, hhands⟩ := h.unowned hfree
  obtain ⟨hqueue, hjobs⟩ := h.queue_of_sole hnew hq
  have hheap : pool'.queue.heap
      = Function.update pool.queue.heap p (some { prev := none, job := job }) := by rw [hq]
  have hkeep : ∀ r, r ≠ p → pool'.queue.heap r = pool.queue.heap r := fun r hr => by
    rw [hheap, Function.update_of_ne hr]
  -- the new cell is nobody's, so all the other jobs stay where they are
  have hcell : pool'.queue.heap.jobAt p = some job := by
    rw [hheap, Heap.jobAt, Function.update_self]
    rfl
  have ht : ∀ r, 0 < (hands t).nodes r →
      pool'.queue.heap.jobAt r = pool.queue.heap.jobAt r := by
    intro r hr
    have hne : r ≠ p := by
      rintro rfl
      rw [hhands t] at hr
      exact Nat.lt_irrefl _ hr
    rw [Heap.jobAt, Heap.jobAt, hkeep r hne]
  have hheld := Hand.heldJob_congr ht
  have hcalled := Hand.calledJob_congr ht
  have hpend : (hands t).pendingJob pool.queue.heap = none := by
    rw [Hand.pendingJob, hnone, Option.bind_none]
  apply h.balance { hands t with pending := some p }
    (frame_of_sole (fun u _ => hhands u) hkeep) hqueue
  · intro r
    by_cases hr : r = p
    · subst hr
      simp [Hand.nodes, hnone, hfree, hheap, Nat.add_assoc]
    · rw [hkeep r hr]
      simp [Hand.nodes, hnone, Ne.symm hr]
  · rw [hlog, hjobs]
    exact h.fifo
  · intro id
    rw [hpend, hlog]
    by_cases hi : id = pool.log.nextId
    · subst hi
      simp [Hand.pendingJob, Log.acceptedIds, hcell, hid]
    · have hlt : id < pool.log.nextId + 1 ↔ id < pool.log.nextId := by omega
      simp [Hand.pendingJob, Log.acceptedIds, hcell, hid, Ne.symm hi, hlt]
  · intro job'
    rw [hlog, ← hheld]
    rfl
  · intro job'
    rw [hlog, ← hcalled]
    rfl
  · intro job' hjob'
    rw [Hand.pendingJob, Option.bind_some, hcell] at hjob'
    cases hjob'
    rw [hparent, Hand.parent_eq, Hand.parent_eq, ← hcalled]
    rfl
  · rw [hlog]
    exact fun id hid => hid
  · exact fun id hid => .inl hid
  · rw [hlog]
    exact fun id hid => .inl hid

/-- **`jobqueue_push`**: the node goes from the hand to the end of the queue. -/
theorem link (h : Ledger pool hands) {p : Ptr} {queue : JobQueue} {job : Job}
    (hpend : (hands t).pending = some p) (hpush : pool.queue.push p = some queue)
    (hjob : pool.queue.heap.jobAt p = some job) (hq : pool'.queue = queue)
    (hlog : pool'.log = { pool.log with accepted := pool.log.accepted ++ [job] }) :
    Ledger pool' (Function.update hands t
      { hands t with pending := none, linked := some job.id }) := by
  -- the node is in this hand alone, so it is not in the queue yet
  obtain ⟨hnot, halloc, -⟩ := h.sole (t := t) (p := p) (by simp [Hand.nodes, hpend])
  obtain ⟨q', hpush', hqueue, -, hjobs, hsome⟩ := push_represents h.queue halloc hnot
  rw [hpush] at hpush'
  cases hpush'
  subst hq
  have hheap : pool'.queue.heap.jobAt = pool.queue.heap.jobAt := funext hjobs
  have hpendJob : (hands t).pendingJob pool.queue.heap = some job := by
    rw [Hand.pendingJob, hpend, Option.bind_some, hjob]
  apply h.balance { hands t with pending := none, linked := some job.id }
    (fun u hu r hr => hjobs r) hqueue
  · intro r
    rw [hsome]
    simp [Hand.nodes, hpend]
    omega
  · rw [hlog, h.fifo, hheap, List.filterMap_append, List.append_assoc]
    simp [hjob, JobQueue.jobs]
  · intro id
    rw [hlog, hpendJob]
    simp [Hand.pendingJob, Log.acceptedIds]
  · intro job'
    rw [hlog, Hand.heldJob, Hand.heldJob, hheap]
  · intro job'
    rw [hlog, Hand.calledJob, Hand.calledJob, Hand.heldJob, Hand.heldJob, hheap]
  · intro job' hjob'
    simp [Hand.pendingJob] at hjob'
  · intro id hid
    rw [hlog, Log.acceptedIds, List.map_append]
    exact List.mem_append_left _ hid
  · intro id hid
    cases hid
    rw [hlog, Log.acceptedIds, List.map_append]
    exact .inr (List.mem_append_right _ List.mem_cons_self)
  · rw [hlog]
    exact fun id hid => .inl hid

/-- The call of `thpool_add_work` **returns**. -/
theorem returns (h : Ledger pool hands) {id : Nat} (hlinked : (hands t).linked = some id)
    (hq : pool'.queue = pool.queue)
    (hlog : pool'.log = { pool.log with returned := pool.log.returned ++ [id] }) :
    Ledger pool' (Function.update hands t { hands t with linked := none }) := by
  apply h.balance { hands t with linked := none } (fun u _ r _ => by rw [hq])
    (by rw [hq]; exact h.queue)
  · intro r
    rw [hq]
    rfl
  · rw [hlog, hq]
    exact h.fifo
  · intro id'
    rw [hlog, hq]
    rfl
  · intro job'
    rw [hlog, hq]
    rfl
  · intro job'
    rw [hlog, hq]
    rfl
  · rw [hq]
    exact h.parents t
  · rw [hlog]
    exact fun id hid => hid
  · intro id' hid'
    cases hid'
  · intro id' hid'
    rw [hlog] at hid'
    rcases List.mem_append.1 hid' with hold | hnew
    · exact .inl hold
    · rw [List.mem_singleton.1 hnew]
      exact .inr hlinked

/-- **`jobqueue_pull`**: the node goes from the front of the queue to the hand. -/
theorem take (h : Ledger pool hands) {node : Option Ptr} {queue : JobQueue}
    (hempty : hands t = .empty) (hpull : pool.queue.pull = some (node, queue))
    (hq : pool'.queue = queue)
    (hlog : pool'.log = { pool.log with
      pulled := pool.log.pulled ++ (node.bind pool.queue.heap.jobAt).toList }) :
    Ledger pool' (Function.update hands t ⟨node, false, none, none⟩) := by
  cases hnodes : pool.queue.nodes with
  | nil =>
      have hrep := h.queue
      rw [hnodes] at hrep
      -- nothing is pulled, and the hand stays empty
      rw [pull_empty hrep] at hpull
      cases hpull
      have hrep' : Represents pool'.queue [] := hq.symm ▸ hrep
      apply h.balance ⟨none, false, none, none⟩ (fun u _ r _ => by rw [hq]) hrep'
      · intro r
        rw [hnodes, hempty, hq]
        simp [Hand.nodes, Hand.empty]
      · rw [hlog, h.fifo, JobQueue.jobs, hnodes]
        simp
      · intro id
        rw [hlog, hempty]
        simp [Hand.pendingJob, Hand.empty, Log.acceptedIds]
      · intro job'
        rw [hlog, hempty]
        simp [Hand.heldJob, Hand.empty]
      · intro job'
        rw [hlog, hempty]
        simp [Hand.calledJob, Hand.empty]
      · intro job' hjob'
        simp [Hand.pendingJob] at hjob'
      · rw [hlog]
        exact fun id hid => hid
      · intro id hid
        cases hid
      · rw [hlog]
        exact fun id hid => .inl hid
  | cons p ps =>
      have hrep := h.queue
      rw [hnodes] at hrep
      -- the node leaves the queue, and its cell keeps its job
      obtain ⟨q', hpull', hqueue, hheap⟩ := pull_represents hrep
      rw [hpull] at hpull'
      cases hpull'
      subst hq
      obtain ⟨job, hjob⟩ : ∃ job, pool.queue.heap.jobAt p = some job := by
        obtain ⟨cell, hcell⟩ := Option.isSome_iff_exists.1 (hrep.allocated List.mem_cons_self)
        exact ⟨cell.job, by rw [Heap.jobAt, hcell]; rfl⟩
      apply h.balance ⟨some p, false, none, none⟩ (fun u _ r _ => by rw [hheap]) hqueue
      · intro r
        rw [hnodes, hempty, hheap]
        simp [Hand.nodes, Hand.empty, List.count_cons]
      · rw [hlog, h.fifo, JobQueue.jobs, hnodes, hheap]
        simp [hjob]
      · intro id
        rw [hlog, hempty]
        simp [Hand.pendingJob, Hand.empty, Log.acceptedIds]
      · intro job'
        rw [hlog, hempty, hheap]
        simp [Hand.heldJob, Hand.empty, hjob]
      · intro job'
        rw [hlog, hempty]
        simp [Hand.calledJob, Hand.empty]
      · intro job' hjob'
        simp [Hand.pendingJob] at hjob'
      · rw [hlog]
        exact fun id hid => hid
      · intro id hid
        cases hid
      · rw [hlog]
        exact fun id hid => .inl hid

/-- **The call of the job's function.** -/
theorem call (h : Ledger pool hands) {p : Ptr} {job : Job}
    (hhand : hands t = ⟨some p, false, none, none⟩) (hjob : pool.queue.heap.jobAt p = some job)
    (hq : pool'.queue = pool.queue)
    (hlog : pool'.log = { pool.log with called := pool.log.called ++ [job] }) :
    Ledger pool' (Function.update hands t ⟨some p, true, none, none⟩) := by
  apply h.balance ⟨some p, true, none, none⟩ (fun u _ r _ => by rw [hq]) (by rw [hq]; exact h.queue)
  · intro r
    rw [hhand, hq]
    rfl
  · rw [hlog, hq]
    exact h.fifo
  · intro id
    rw [hlog, hhand, hq]
    rfl
  · intro job'
    rw [hlog, hhand, hq]
    rfl
  · intro job'
    rw [hlog, hhand, hq]
    simp [Hand.calledJob, Hand.heldJob, hjob]
  · intro job' hjob'
    simp [Hand.pendingJob] at hjob'
  · rw [hlog]
    exact fun id hid => hid
  · intro id hid
    cases hid
  · rw [hlog]
    exact fun id hid => .inl hid

/-- **`free`** of a held node, whose job is finished or discarded. -/
theorem release (h : Ledger pool hands) {p : Ptr} {job : Job} {called : Bool}
    (hhand : hands t = ⟨some p, called, none, none⟩) (hjob : pool.queue.heap.jobAt p = some job)
    (hq : pool'.queue = { pool.queue with heap := Function.update pool.queue.heap p none })
    (hlog : pool'.log = if called then { pool.log with finished := pool.log.finished ++ [job] }
      else { pool.log with discarded := pool.log.discarded ++ [job] }) :
    Ledger pool' (Function.update hands t .empty) := by
  -- freed by the one hand that has it
  obtain ⟨hnot, halloc, hsole⟩ := h.sole (t := t) (p := p) (by simp [Hand.nodes, hhand])
  obtain ⟨hqueue, hjobs⟩ := h.queue_of_sole hnot hq
  have hheap : pool'.queue.heap = Function.update pool.queue.heap p none := by rw [hq]
  have hkeep : ∀ r, r ≠ p → pool'.queue.heap r = pool.queue.heap r := fun r hr => by
    rw [hheap, Function.update_of_ne hr]
  apply h.balance .empty (frame_of_sole hsole hkeep) hqueue
  · intro r
    by_cases hr : r = p
    · subst hr
      rw [hhand, hheap]
      simp [Hand.nodes, Hand.empty, halloc]
    · rw [hkeep r hr, hhand]
      simp [Hand.nodes, Hand.empty, Ne.symm hr]
  · rw [hjobs, hlog]
    cases called <;> exact h.fifo
  · intro id
    rw [hlog, hhand]
    cases called <;> rfl
  · intro job'
    rw [hlog, hhand]
    cases called <;> simp [Hand.heldJob, Hand.empty, hjob] <;> omega
  · intro job'
    rw [hlog, hhand]
    cases called
    · simp [Hand.calledJob, Hand.empty]
    · simp [Hand.calledJob, Hand.heldJob, Hand.empty, hjob]
      omega
  · intro job' hjob'
    simp [Hand.pendingJob, Hand.empty] at hjob'
  · rw [hlog]
    cases called <;> exact fun id hid => hid
  · intro id hid
    cases hid
  · rw [hlog]
    cases called <;> exact fun id hid => .inl hid

theorem reset (h : Ledger pool hands) (t : T) (hlen : pool.queue.len = 0)
    (hq : pool'.queue = { pool.queue with front := none, rear := none, len := 0 })
    (hlog : pool'.log = pool.log) : Ledger pool' hands := by
  have hnodes : pool.queue.nodes = [] := by rw [JobQueue.nodes, hlen]; rfl
  have hrep : Represents pool'.queue [] := by
    rw [hq]
    exact ⟨.nil none, rfl, rfl, List.Pairwise.nil⟩
  have hheap : pool'.queue.heap = pool.queue.heap := by rw [hq]
  rw [← Function.update_eq_self t hands]
  apply h.balance (hands t) (fun u _ r _ => by rw [hheap]) hrep
  · intro r
    rw [hnodes, hheap]
  · rw [hlog, h.fifo, JobQueue.jobs, hnodes]
    rfl
  · intro id
    rw [hlog, hheap]
  · intro job
    rw [hlog, hheap]
  · intro job
    rw [hlog, hheap]
  · rw [hheap]
    exact h.parents t
  · rw [hlog]
    exact fun id hid => hid
  · exact fun id hid => .inl hid
  · rw [hlog]
    exact fun id hid => .inl hid

omit [DecidableEq T] in
theorem quiet (h : Ledger pool hands) (hq : pool'.queue = pool.queue)
    (hlog : pool'.log = pool.log) : Ledger pool' hands := by
  obtain ⟨h1, h2, h3, h4, h5, h6, h7, h8, h9⟩ := h
  constructor <;> simp only [hq, hlog] <;> assumption

/-- **Every move keeps the account.** -/
theorem move (h : Ledger pool hands) {clears : Bool}
    (hm : JobMove clears pool (hands t) pool' hand') :
    Ledger pool' (Function.update hands t hand') := by
  cases hm with
  | quiet hq hlog =>
      rw [Function.update_eq_self]
      exact h.quiet hq hlog
  | alloc hfree hid hparent hnone hq hlog => exact h.alloc hfree hid hparent hnone hq hlog
  | link hpend hpush hjob hq hlog => exact h.link hpend hpush hjob hq hlog
  | returns hlinked hq hlog => exact h.returns hlinked hq hlog
  | take hempty hpull hq hlog => exact h.take hempty hpull hq hlog
  | call hhand hjob hq hlog => exact h.call hhand hjob hq hlog
  | finish hhand hjob hq hlog => exact h.release hhand hjob hq hlog
  | discard _ hhand hjob hq hlog => exact h.release hhand hjob hq hlog
  | reset hlen hq hlog =>
      rw [Function.update_eq_self]
      exact h.reset t hlen hq hlog

end Ledger

end Moves

/-! ## The account of a pool -/

section Pools

variable {n m : Nat} {s s' : PoolState n m} {a : Action (Tid n m) Choice}

/-- The hands of the threads. -/
def handsOf (s : PoolState n m) (t : Tid n m) : Hand := hand t (s.pc t)

theorem handsOf_update {t : Tid n m} {next : Pc t} (hp : s'.pc = Function.update s.pc t next) :
    handsOf s' = Function.update (handsOf s) t (hand t next) := by
  funext u
  by_cases hu : u = t
  · subst hu
    rw [handsOf, hp, Function.update_self, Function.update_self]
  · rw [handsOf, hp, Function.update_of_ne hu, Function.update_of_ne hu, handsOf]

theorem ledger_init : Ledger (newPool) (handsOf (initState n m)) := by
  have hempty : ∀ t, handsOf (initState n m) t = .empty := by
    intro t
    cases t <;> rfl
  constructor
  · exact ⟨.nil none, rfl, rfl, List.Pairwise.nil⟩
  · intro p
    simp only [hempty]
    simp [Hand.nodes, Hand.empty, newPool, JobQueue.nodes, walk]
  · rfl
  · intro id
    simp only [hempty]
    simp [Hand.pendingJob, Hand.empty, Log.acceptedIds, newPool]
  · intro job
    simp only [hempty]
    simp [Hand.heldJob, Hand.empty, newPool]
  · intro job
    simp only [hempty]
    simp [Hand.calledJob, Hand.empty, newPool]
  · intro t job hj
    rw [hempty] at hj
    simp [Hand.pendingJob, Hand.empty] at hj
  · intro t id hid
    rw [hempty] at hid
    cases hid
  · intro id hid
    cases hid

/-- **A step, seen from the jobs.** Nothing happens to them, or one thread makes a move. -/
theorem step_move (hph : Phases s) (hs : step (code n m) s a = some s') :
    (s'.data.pool = s.data.pool ∧ handsOf s' = handsOf s) ∨
      ∃ t clears hand', JobMove clears s.data.pool (handsOf s t) s'.data.pool hand' ∧
        handsOf s' = Function.update (handsOf s) t hand' := by
  rcases step_effect hs with ⟨hd, hp⟩ | ⟨t, choice, wakes, next, rfl, he, hp⟩
  · exact .inl ⟨by rw [hd], funext fun t => by rw [handsOf, hp, handsOf]⟩
  · cases t with
    | worker i => exact .inr ⟨.worker i, false, _, worker_move he, handsOf_update hp⟩
    | client c => exact .inr ⟨.client c, false, _, client_move he, handsOf_update hp⟩
    | owner => exact .inr ⟨.owner, true, _, owner_move hph.len_zero he, handsOf_update hp⟩

/-- A job that has been accepted stays so. -/
theorem step_accepted (hph : Phases s) (hs : step (code n m) s a = some s') {job : Job}
    (hj : job ∈ s.data.pool.log.accepted) : job ∈ s'.data.pool.log.accepted := by
  rcases step_move hph hs with ⟨hd, -⟩ | ⟨t, clears, hand', hmove, -⟩
  · rwa [hd]
  · rcases hmove.accepted with hsame | ⟨p, job', -, -, happ⟩
    · rwa [hsame]
    · rw [happ]
      exact List.mem_append_left _ hj

/-- **Every step of a pool keeps the account.** -/
theorem ledger_step (hph : Phases s) (h : Ledger s.data.pool (handsOf s))
    (hs : step (code n m) s a = some s') : Ledger s'.data.pool (handsOf s') := by
  rcases step_move hph hs with ⟨hd, hhands⟩ | ⟨t, clears, hand', hmove, hhands⟩
  · rw [hd, hhands]
    exact h
  · rw [hhands]
    exact h.move hmove

end Pools

end CPlayground.Thpool
