import CPlayground.Thpool.Invariant

set_option autoImplicit false

/-! # Each job once, and in order

Where the jobs of a pool are, read off the ledger: an accepted job is in the queue, in the
hands of one worker, finished or discarded, and in one of these places only; its function has
been called once by the time it is finished, and never if it is discarded; the jobs leave the
queue as they entered it. When `thpool_destroy` reaches `jobqueue_destroy`, the workers have
left `thread_do` for good.
-/

namespace CPlayground.Thpool

open Threads

variable {n m : Nat} {s s' : PoolState n m} {job : Job}

/-! ## Places -/

/-- The job in the hands of a thread, from its `jobqueue_pull` to its `free`. -/
def heldBy (s : PoolState n m) (t : Tid n m) : Option Job :=
  (handsOf s t).heldJob s.data.pool.queue.heap

/-- Where an accepted job can be. -/
inductive Place (n : Nat)
  | queued
  | held (i : Fin n)
  | finished
  | discarded
  deriving DecidableEq, Fintype

/-- What `jobqueue_clear` has pulled counts as discarded. -/
def IsAt (s : PoolState n m) (job : Job) : Place n → Prop
  | .queued => job ∈ s.data.pool.queue.jobs
  | .held i => heldBy s (.worker i) = some job
  | .finished => job ∈ s.data.pool.log.finished
  | .discarded => job ∈ s.data.pool.log.discarded ∨ heldBy s .owner = some job

/-- How often the job is at a place. -/
def account (s : PoolState n m) (job : Job) : Place n → Nat
  | .queued => s.data.pool.queue.jobs.count job
  | .held i => (heldBy s (.worker i)).toList.count job
  | .finished => s.data.pool.log.finished.count job
  | .discarded => s.data.pool.log.discarded.count job + (heldBy s .owner).toList.count job

theorem held_count_pos {held : Option Job} : 0 < held.toList.count job ↔ held = some job := by
  rw [List.count_pos_iff]
  cases held <;> simp [eq_comm]

theorem isAt_iff {place : Place n} : IsAt s job place ↔ 0 < account s job place := by
  cases place with
  | queued => exact List.count_pos_iff.symm
  | held i => exact held_count_pos.symm
  | finished => exact List.count_pos_iff.symm
  | discarded => rw [account, Nat.add_pos_iff_pos_or_pos, List.count_pos_iff, held_count_pos, IsAt]

/-- The threads, as a sum of their kinds. -/
def Tid.kinds (n m : Nat) : Option (Fin n ⊕ Fin m) ≃ Tid n m where
  toFun
    | some (.inl i) => .worker i
    | some (.inr c) => .client c
    | none => .owner
  invFun
    | .worker i => some (.inl i)
    | .client c => some (.inr c)
    | .owner => none
  left_inv := by rintro (_ | _ | _) <;> rfl
  right_inv := by rintro (_ | _ | _) <;> rfl

/-- The places, as a sum of their kinds. -/
def Place.kinds (n : Nat) : Option (Option (Option (Fin n))) ≃ Place n where
  toFun
    | none => .queued
    | some none => .finished
    | some (some none) => .discarded
    | some (some (some i)) => .held i
  invFun
    | .queued => none
    | .finished => some none
    | .discarded => some (some none)
    | .held i => some (some (some i))
  left_inv := by rintro (_ | _ | _ | _) <;> rfl
  right_inv := by rintro (_ | _ | _ | _) <;> rfl

theorem sum_threads (f : Tid n m → Nat) :
    ∑ t, f t = ∑ i, f (.worker i) + ∑ c, f (.client c) + f .owner := by
  rw [← (Tid.kinds n m).sum_comp, Fintype.sum_option, Fintype.sum_sum_type]
  simp only [Tid.kinds, Equiv.coe_fn_mk]
  omega

theorem sum_places (f : Place n → Nat) :
    ∑ place, f place = f .queued + ∑ i, f (.held i) + f .finished + f .discarded := by
  rw [← (Place.kinds n).sum_comp]
  simp only [Fintype.sum_option, Place.kinds, Equiv.coe_fn_mk]
  omega

/-! ## The results -/

/-- A client never holds a job that was pulled. -/
theorem heldBy_client (c : Fin m) : heldBy s (.client c) = none := by
  unfold heldBy handsOf hand Hand.heldJob
  cases (s.pc (.client c) : ClientPc) <;> rfl

/-- A number is given to one accepted job. -/
theorem PoolInv.ids_count (h : PoolInv s) (id : Nat) :
    s.data.pool.log.acceptedIds.count id ≤ 1 := by
  have hids := h.ledger.ids id
  have hle : (decide (id < s.data.pool.log.nextId)).toNat ≤ 1 := Bool.toNat_le _
  omega

/-- A job is accepted once. -/
theorem PoolInv.accepted_count (h : PoolInv s) (job : Job) :
    s.data.pool.log.accepted.count job ≤ 1 :=
  calc s.data.pool.log.accepted.count job
      ≤ s.data.pool.log.acceptedIds.count job.id := List.count_le_count_map
    _ ≤ 1 := h.ids_count job.id

/-- The accounts of a job add up to how often it was accepted. -/
theorem PoolInv.balance (h : PoolInv s) (job : Job) :
    ∑ place, account s job place = s.data.pool.log.accepted.count job := by
  have hplaces := h.ledger.places job
  have hhands : ∑ t, (heldBy s t).toList.count job
      = ∑ i, account s job (.held i) + (heldBy s .owner).toList.count job := by
    simp [sum_threads, heldBy_client, account]
  have hqueue : account s job .queued = s.data.pool.queue.jobs.count job := rfl
  have hfin : account s job .finished = s.data.pool.log.finished.count job := rfl
  have hdisc : account s job .discarded
      = s.data.pool.log.discarded.count job + (heldBy s .owner).toList.count job := rfl
  rw [sum_places, h.ledger.fifo, List.count_append]
  simp only [heldBy] at hhands hdisc
  omega

/-- **An accepted job is in one of the four places, and in no other.** -/
theorem PoolInv.place (h : PoolInv s) (hj : job ∈ s.data.pool.log.accepted) :
    ∃ place, IsAt s job place ∧ account s job place = 1 ∧
      ∀ other, other ≠ place → account s job other = 0 := by
  -- the accounts add up to one, so one of them is one
  have hone : ∑ place, account s job place = 1 := by
    rw [h.balance]
    exact Nat.le_antisymm (h.accepted_count job) (List.count_pos_iff.2 hj)
  obtain ⟨place, hplace, hothers⟩ := sum_eq_one hone
  exact ⟨place, isAt_iff.2 (by omega), hplace, hothers⟩

/-- Only accepted jobs are anywhere. -/
theorem PoolInv.accepted_of_isAt (h : PoolInv s) {place : Place n} (hat : IsAt s job place) :
    job ∈ s.data.pool.log.accepted := by
  have hpos := isAt_iff.1 hat
  have hle : account s job place ≤ ∑ place, account s job place :=
    Finset.single_le_sum (fun _ _ => Nat.zero_le _) (Finset.mem_univ place)
  rw [h.balance] at hle
  exact List.count_pos_iff.1 (by omega)

theorem PoolInv.place_unique (h : PoolInv s) {p q : Place n} (hp : IsAt s job p)
    (hq : IsAt s job q) : p = q := by
  obtain ⟨sole, -, -, hothers⟩ := h.place (h.accepted_of_isAt hp)
  have hsole : ∀ place, IsAt s job place → place = sole := by
    intro place hat
    by_contra hne
    have hpos := isAt_iff.1 hat
    rw [hothers place hne] at hpos
    exact Nat.lt_irrefl _ hpos
  exact (hsole p hp).trans (hsole q hq).symm

/-- Two accepted jobs have different numbers. -/
theorem PoolInv.id_inj (h : PoolInv s) {job other : Job} (hj : job ∈ s.data.pool.log.accepted)
    (ho : other ∈ s.data.pool.log.accepted) (hid : job.id = other.id) : job = other := by
  have hnodup : s.data.pool.log.acceptedIds.Nodup :=
    List.nodup_iff_count_le_one.2 h.ids_count
  exact List.inj_on_of_nodup_map hnodup hj ho hid

/-- A job in somebody's hands is not finished. -/
theorem PoolInv.held_not_finished (h : PoolInv s) {t : Tid n m} {done : Job}
    (hheld : heldBy s t = some job) (hdone : done ∈ s.data.pool.log.finished) :
    done.id ≠ job.id := by
  intro hid
  -- a job in somebody's hands is at a place of its own
  obtain ⟨place, hat, hne⟩ : ∃ place, IsAt s job place ∧ place ≠ .finished := by
    cases t with
    | worker i => exact ⟨.held i, hheld, fun hc => by cases hc⟩
    | client c =>
        rw [heldBy_client] at hheld
        cases hheld
    | owner => exact ⟨.discarded, .inr hheld, fun hc => by cases hc⟩
  have hfin : IsAt s done .finished := hdone
  have hsame := h.id_inj (h.accepted_of_isAt hfin) (h.accepted_of_isAt hat) hid
  subst hsame
  exact hne (h.place_unique hat hfin)

/-- Only a worker has called the function of a job that it holds. -/
theorem called_le_held (s : PoolState n m) (job : Job) :
    ∑ t, ((handsOf s t).calledJob s.data.pool.queue.heap).toList.count job
      ≤ ∑ i, account s job (.held i) := by
  have hclient : ∀ c, ((handsOf s (.client c)).calledJob s.data.pool.queue.heap) = none := by
    intro c
    unfold handsOf hand Hand.calledJob
    cases (s.pc (.client c) : ClientPc) <;> rfl
  have howner : ((handsOf s .owner).calledJob s.data.pool.queue.heap) = none := by
    unfold handsOf hand Hand.calledJob
    cases (s.pc .owner : OwnerPc) <;> rfl
  rw [sum_threads]
  simp only [hclient, howner, Option.toList_none, List.count_nil, Finset.sum_const_zero,
    Nat.add_zero]
  apply Finset.sum_le_sum
  intro i _
  unfold Hand.calledJob
  split
  · exact Nat.le_refl _
  · exact Nat.zero_le _

/-- How often the function of a job has been called. -/
theorem PoolInv.called_count (h : PoolInv s) (job : Job) :
    account s job .finished ≤ s.data.pool.log.called.count job ∧
      s.data.pool.log.called.count job
        ≤ ∑ i, account s job (.held i) + account s job .finished := by
  have hcalls := h.ledger.calls job
  have hle := called_le_held s job
  simp only [account] at hle ⊢
  omega

/-- **The function of a finished job was called once; the function of a job that waits in the
queue or was discarded, never.** -/
theorem PoolInv.calls (h : PoolInv s) {place : Place n} (hat : IsAt s job place) :
    (place = .finished → s.data.pool.log.called.count job = 1) ∧
      (place = .queued ∨ place = .discarded → s.data.pool.log.called.count job = 0) := by
  obtain ⟨sole, hsole, hone, hothers⟩ := h.place (h.accepted_of_isAt hat)
  obtain ⟨hlow, hhigh⟩ := h.called_count job
  have hsame := h.place_unique hat hsole
  subst hsame
  -- the call is counted at the worker that holds the job, or among the finished ones
  have hheld : (∀ i, place ≠ .held i) → ∑ i, account s job (.held i) = 0 := by
    intro hne
    apply Finset.sum_eq_zero
    exact fun i _ => hothers _ (Ne.symm (hne i))
  constructor
  · rintro rfl
    rw [hheld (by simp), hone] at hhigh
    rw [hone] at hlow
    omega
  · intro hnot
    have hfin : account s job .finished = 0 := hothers _ (by rcases hnot with rfl | rfl <;> simp)
    rw [hheld (by rcases hnot with rfl | rfl <;> simp), hfin] at hhigh
    omega

/-- Workers that have left `thread_do` stay away. -/
theorem gone_step {a : Action (Tid n m) Choice} (h : ∀ i, (workerAt s i).gone = true)
    (hs : step (code n m) s a = some s') (i : Fin n) : (workerAt s' i).gone = true := by
  rcases step_workerAt hs i with hsame | ⟨choice, he⟩
  · rw [hsame]
    exact h i
  · exact ((worker_step he).gone (h i)).2

theorem gone_run (h : ∀ i, (workerAt s i).gone = true)
    (hrun : Relation.ReflTransGen (StepsIf CallsOk (step (code n m))) s s') :
    ∀ i, (workerAt s' i).gone = true := by
  induction hrun with
  | refl => exact h
  | tail _ hstep ih =>
      obtain ⟨a, ha⟩ := hstep.steps
      exact gone_step ih ha

/-- A worker that is gone holds no job and is not inside `jobqueue_pull`. -/
theorem idle_of_gone {i : Fin n} (h : (workerAt s i).gone = true) :
    heldBy s (.worker i) = none ∧ ∀ k, workerAt s i ≠ .pull k := by
  constructor
  · unfold heldBy handsOf hand Hand.heldJob
    revert h
    unfold workerAt
    cases (s.pc (.worker i) : WorkerPc) <;> simp [WorkerPc.hand, Hand.empty]
  · intro k hk
    rw [hk] at h
    exact absurd h Bool.false_ne_true

/-- **Exactly once, in order.** In every reachable state: an accepted job is at one place; its
function has been called as its place says; no job is queued twice; the jobs have left the
queue in the order in which they entered it; a call of `thpool_add_work` that has returned has
had its job accepted; and once `thpool_destroy` has reached `jobqueue_destroy`, no worker holds
a job, nor ever pulls one again. -/
theorem jobs_exactly_once (h : PoolReachable s) :
    (∀ job ∈ s.data.pool.log.accepted, ∃! place, IsAt s job place) ∧
    (∀ job place, IsAt s job place →
      (place = .finished → s.data.pool.log.called.count job = 1) ∧
      (place = .queued ∨ place = .discarded → s.data.pool.log.called.count job = 0)) ∧
    (∀ job, s.data.pool.queue.jobs.count job ≤ 1 ∧ s.data.pool.log.called.count job ≤ 1) ∧
    s.data.pool.log.accepted = s.data.pool.log.pulled ++ s.data.pool.queue.jobs ∧
    (∀ id ∈ s.data.pool.log.returned, ∃ job ∈ s.data.pool.log.accepted, job.id = id) ∧
    ((ownerAt s).final = true →
      ∀ s', Relation.ReflTransGen (StepsIf CallsOk (step (code n m))) s s' →
        ∀ i, heldBy s' (.worker i) = none ∧ ∀ k, workerAt s' i ≠ .pull k) := by
  have hinv := poolInv_reachable h
  refine ⟨fun job hj => ?_, fun job place hat => hinv.calls hat, fun job => ?_, hinv.ledger.fifo,
    fun id hid => ?_, fun hfinal s' hrun i => ?_⟩
  · obtain ⟨place, hat, -, -⟩ := hinv.place hj
    exact ⟨place, hat, fun other hother => hinv.place_unique hother hat⟩
  · have hbalance := hinv.balance job
    have honce := hinv.accepted_count job
    have hcalled := (hinv.called_count job).2
    rw [sum_places] at hbalance
    have hqueued : account s job .queued = s.data.pool.queue.jobs.count job := rfl
    omega
  · exact List.mem_map.1 (hinv.ledger.returned id hid)
  · exact idle_of_gone (gone_run (hinv.phases.gone hfinal) hrun i)

/-- One worker finishes a job, and another is discarded by `thpool_destroy`. -/
def finishOneDiscardOne : List (Action (Tid 1 1) Choice) :=
  startUp 1 1 ++ times (.client 0) 1 (.addWork (some 7) 1 2) ++ times (.client 0) 8 .go ++
    times (.client 0) 1 (.addWork (some 9) 1 3) ++ times (.client 0) 8 .go ++
    times (.worker 0) 24 .go ++ times .owner 1 .destroy ++ times .owner 2 .go ++
    times (.worker 0) 4 .go ++ times .owner 1 (.clock true) ++ times .owner 7 .go

set_option maxRecDepth 20000 in
theorem jobs_exactly_once_run : ∃ s : PoolState 1 1,
    s.data.pool.log.finished.map Job.id = [0] ∧ s.data.pool.log.discarded.map Job.id = [1] ∧
      (∀ job ∈ s.data.pool.log.accepted, ∃! place, IsAt s job place) ∧
      heldBy s (.worker 0) = none := by
  obtain ⟨s, hs, hp⟩ := poolReachable_of_run finishOneDiscardOne
    (fun s => s.data.pool.log.finished.map Job.id == [0] &&
      (s.data.pool.log.discarded.map Job.id == [1] && (ownerAt s).final)) (by decide)
  rw [Bool.and_eq_true, Bool.and_eq_true, beq_iff_eq, beq_iff_eq] at hp
  obtain ⟨hplaces, -, -, -, -, hgone⟩ := jobs_exactly_once hs
  exact ⟨s, hp.1, hp.2.1, hplaces, (hgone hp.2.2 s .refl 0).1⟩

end CPlayground.Thpool
