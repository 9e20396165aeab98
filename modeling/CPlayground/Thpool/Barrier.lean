import CPlayground.Thpool.ExactlyOnce

set_option autoImplicit false

/-! # `thpool_wait` is a barrier

The jobs that a call of `thpool_wait` answers for are those accepted before it began and the
jobs that these submit (`Descends`). Once all of them are finished they stay so, since a
finished job submits nothing (`Done.step`). They are finished when the call has seen `len` at
zero and then `num_threads_working`: between the two reads the call holds `thcount_lock`, and
a job that leaves the queue meanwhile is in the hands of a worker that is already counted.
-/

namespace CPlayground.Thpool

open Threads

/-! ## Descendants -/

/-- The numbers of the jobs in `before`, and of the jobs that these have submitted. -/
inductive Descends (jobs : List Job) (before : List Nat) : Nat → Prop
  | root {id : Nat} (h : id ∈ before) : Descends jobs before id
  | child {job : Job} {p : Nat} (hj : job ∈ jobs) (hp : job.parent = some p)
      (h : Descends jobs before p) : Descends jobs before job.id

section Descends

variable {jobs : List Job} {before : List Nat} {id : Nat}

/-- A new job adds no descendant, unless a descendant has submitted it. -/
theorem Descends.of_append {job : Job}
    (hnew : ∀ p, job.parent = some p → ¬ Descends jobs before p)
    (h : Descends (jobs ++ [job]) before id) : Descends jobs before id := by
  induction h with
  | root h => exact .root h
  | child hj hp _ ih =>
      rcases List.mem_append.1 hj with hold | hlast
      · exact .child hold hp ih
      · rw [List.mem_singleton] at hlast
        subst hlast
        exact absurd ih (hnew _ hp)

theorem Descends.mem_ids (hbefore : ∀ id ∈ before, id ∈ jobs.map Job.id)
    (h : Descends jobs before id) : id ∈ jobs.map Job.id := by
  cases h with
  | root h => exact hbefore id h
  | child hj _ _ => exact List.mem_map_of_mem hj

end Descends

/-- All the jobs that a call answers for are finished. -/
def Done (log : Log) (before : List Nat) : Prop :=
  ∀ id, Descends log.accepted before id → ∃ job ∈ log.finished, job.id = id

section Pools

variable {n m : Nat} {s s' : PoolState n m} {a : Action (Tid n m) Choice} {before : List Nat}

/-- **What is done stays done.** The job that submits another is in the hands of a worker. -/
theorem Done.step (h : Done s.data.pool.log before) (hinv : PoolInv s)
    (hs : step (code n m) s a = some s') : Done s'.data.pool.log before := by
  rcases step_move hinv.phases hs with ⟨hd, -⟩ | ⟨t, clears, hand', hmove, -⟩
  · rw [hd]
    exact h
  · intro id hid
    have hold : Descends s.data.pool.log.accepted before id := by
      rcases hmove.accepted with hsame | ⟨p, job, hpend, hjob, happ⟩
      · exact hsame ▸ hid
      · rw [happ] at hid
        refine hid.of_append fun q hq hdesc => ?_
        -- a job that is linked now has a parent that still runs, so the parent is not finished
        obtain ⟨done, hdone, hid'⟩ := h q hdesc
        have hpending : (handsOf s t).pendingJob s.data.pool.queue.heap = some job := by
          rw [Hand.pendingJob, hpend]
          exact hjob
        have hparent := hinv.ledger.parents t job hpending
        rw [hq, Hand.parent_eq] at hparent
        obtain ⟨parent, hcalled, hpid⟩ := Option.map_eq_some_iff.1 hparent.symm
        have hheld : heldBy s t = some parent := by
          unfold Hand.calledJob at hcalled
          split at hcalled
          · exact hcalled
          · cases hcalled
        exact hinv.held_not_finished hheld hdone (hid'.trans hpid.symm)
    obtain ⟨job, hjob, he⟩ := h id hold
    exact ⟨job, hmove.finished hjob, he⟩

/-- A worker that holds a job is counted in `num_threads_working`. -/
theorem working_of_held {i : Fin n} (h : (handsOf s (.worker i)).held ≠ none) :
    (workerAt s i).working = true := by
  revert h
  unfold handsOf hand workerAt
  cases (s.pc (.worker i) : WorkerPc) <;> simp [WorkerPc.hand, Hand.empty]

/-- **With an empty queue and no worker counted, every job is finished.** -/
theorem PoolInv.all_finished (h : PoolInv s) (hserving : (ownerAt s).destroying = false)
    (hlen : s.data.pool.queue.len = 0) (hworking : s.data.pool.working = 0) {job : Job}
    (hj : job ∈ s.data.pool.log.accepted) : job ∈ s.data.pool.log.finished := by
  obtain ⟨place, hat, -, -⟩ := h.place hj
  cases place with
  | queued =>
      -- wherever else an accepted job could be, something is left to do
      have hnil : s.data.pool.queue.jobs = [] := by
        rw [JobQueue.jobs, JobQueue.nodes, hlen]
        rfl
      unfold IsAt at hat
      rw [hnil] at hat
      cases hat
  | held i =>
      have hzero := count_eq_zero.1 (h.phases.working.symm.trans hworking) i
      have hheld : (handsOf s (.worker i)).held ≠ none := by
        intro hnone
        have hjob : (handsOf s (.worker i)).held.bind s.data.pool.queue.heap.jobAt = some job := hat
        rw [hnone] at hjob
        cases hjob
      rw [working_of_held hheld] at hzero
      cases hzero
  | finished => exact hat
  | discarded =>
      rcases hat with hdisc | howner
      · rw [h.kept hserving] at hdisc
        cases hdisc
      · have hempty : handsOf s .owner = .empty := OwnerPc.hand_empty hserving
        unfold heldBy at howner
        rw [hempty] at howner
        cases howner

/-! ## The calls of `thpool_wait` -/

/-- The call of `thpool_wait` that a thread is in, and where. -/
def callAt : (t : Tid n m) → Pc t → Option (List Nat × WaitPc)
  | .worker _, pc =>
      match pc with
      | .wait _ before k => some (before, k)
      | _ => none
  | .client _, pc =>
      match pc with
      | .wait before k => some (before, k)
      | _ => none
  | .owner, _ => none

/-- How a thread comes to be in a call. -/
theorem call_effect {t : Tid n m} {pc next : Pc t} {d d' : Mem} {choice : Choice} {k' : WaitPc}
    (h : (code n m t pc).effect d choice = some (d', next))
    (hk : callAt t next = some (before, k')) :
    d' = d ∧ (before = d.pool.log.returned ∧ k' = .lock ∨
      ∃ k, callAt t pc = some (before, k) ∧ WaitStep d k k') := by
  cases t with
  | worker i =>
      obtain ⟨job, hnext⟩ : ∃ job, next = WorkerPc.wait job before k' := by
        cases next with
        | wait job before k =>
            cases hk
            exact ⟨job, rfl⟩
        | _ => cases hk
      obtain ⟨hd, henter | ⟨k, rfl, hstep⟩⟩ := (worker_step h).call job before k' hnext
      · exact ⟨hd, .inl henter⟩
      · exact ⟨hd, .inr ⟨k, rfl, hstep⟩⟩
  | client c =>
      have hnext : next = ClientPc.wait before k' := by
        cases next with
        | wait before k =>
            cases hk
            rfl
        | _ => cases hk
      obtain ⟨hd, henter | ⟨k, rfl, hstep⟩⟩ := (client_step h).call before k' hnext
      · exact ⟨hd, .inl henter⟩
      · exact ⟨hd, .inr ⟨k, rfl, hstep⟩⟩
  | owner => cases hk

/-- What a call holds and waits for. -/
theorem callAt_point {t : Tid n m} {pc : Pc t} {k : WaitPc} (h : callAt t pc = some (before, k)) :
    (∀ mutex, holds t pc mutex = k.holds mutex) ∧
      waitsFor t pc = if k = .cond then some .allIdle else none := by
  cases t with
  | worker i =>
      cases pc with
      | wait job before k =>
          cases h
          exact ⟨fun _ => rfl, by cases k <;> rfl⟩
      | _ => cases h
  | client c =>
      cases pc with
      | wait before k =>
          cases h
          exact ⟨fun _ => rfl, by cases k <;> rfl⟩
      | _ => cases h
  | owner => cases h

/-- A call holds the mutex of its program point, unless it sleeps. -/
theorem holding_of_callAt {t : Tid n m} {k : WaitPc} {mutex : Mutex}
    (h : callAt t (s.pc t) = some (before, k)) (hk : k.holds mutex = true)
    (hc : k ≠ .cond ∨ s.sleep t = .awake) : s.Holding (code n m) holds t mutex := by
  obtain ⟨hholds, hwait⟩ := callAt_point h
  rcases hc with hne | hawake
  · refine holding_of_not_wait ((hholds mutex).trans hk) fun c hw => ?_
    rw [if_neg hne, hw] at hwait
    cases hwait
  · exact ⟨(hholds mutex).trans hk, .inl hawake⟩

/-- **`num_threads_working` changes under `thcount_lock` only**: while one thread holds it, no
step of another changes the counter. -/
theorem PoolInv.working_of_holder (h : PoolInv s) {t u : Tid n m} (hne : u ≠ t)
    (hu : s.Holding (code n m) holds u .thcountLock) {choice : Choice} {d' : Mem} {next : Pc t}
    (he : (code n m t (s.pc t)).effect s.data choice = some (d', next)) :
    d'.pool.working = s.data.pool.working := by
  cases t with
  | worker i =>
      have hstep := worker_step he
      rcases hstep.counting with hsame | hcounts
      · rw [hstep.working, hsame, Nat.add_sub_cancel]
      · -- the worker that counts holds the lock
        have hpoint : holds (.worker i) (s.pc (.worker i)) .thcountLock = true ∧
            waitsFor (.worker i : Tid n m) (s.pc (.worker i)) = none := by
          rcases hcounts with hpc | hpc <;> rw [hpc] <;> exact ⟨rfl, rfl⟩
        have hi : s.Holding (code n m) holds (.worker i) .thcountLock :=
          holding_of_not_wait hpoint.1 fun c hw => by rw [hpoint.2] at hw; cases hw
        exact absurd (h.locked.exclusive hu hi) hne
  | client c => exact (client_step he).counts.working
  | owner => exact (h.phases.owner_counts he).2

/-! ## The invariant -/

/-- The call has seen the queue empty and no worker counted. -/
@[simp] def WaitPc.passed : WaitPc → Bool
  | .unlock | .returned => true
  | _ => false

/-- What a call knows: its jobs were accepted; once it has seen the queue empty, it lacks only
that no worker is counted; and then its jobs are finished. -/
structure CallInv (pool : Pool) (before : List Nat) (k : WaitPc) : Prop where
  accepted : ∀ id ∈ before, id ∈ pool.log.acceptedIds
  seen : k = .readWorking → pool.working = 0 → Done pool.log before
  passed : k.passed = true → Done pool.log before

/-- What holds of all the calls that are under way. -/
def Calls (s : PoolState n m) : Prop :=
  ∀ t before k, callAt t (s.pc t) = some (before, k) → CallInv s.data.pool before k

/-- The step of a call itself. -/
theorem Calls.own_step (h : Calls s) (hinv : PoolInv s)
    (hserving : (ownerAt s).destroying = false) {t : Tid n m} {choice : Choice} {next : Pc t}
    {d' : Mem} {k' : WaitPc} (he : (code n m t (s.pc t)).effect s.data choice = some (d', next))
    (hk : callAt t next = some (before, k')) : CallInv d'.pool before k' := by
  obtain ⟨rfl, ⟨rfl, rfl⟩ | ⟨k, hcall, hstep⟩⟩ := call_effect he hk
  · -- the call begins
    exact ⟨hinv.ledger.returned, fun hc => (by cases hc), fun hc => (by cases hc)⟩
  · obtain ⟨haccepted, hseen, hpassed⟩ := h t before k hcall
    refine ⟨haccepted, ?_, ?_⟩
    · rintro rfl hworking
      cases hstep with
      | empty hlen =>
          intro id hid
          obtain ⟨job, hjob, hjid⟩ := List.mem_map.1 (hid.mem_ids haccepted)
          exact ⟨job, hinv.all_finished hserving hlen hworking hjob, hjid⟩
    · intro hpass
      cases hstep with
      | idle hworking => exact hseen rfl hworking
      | leave => exact hpassed rfl
      | _ => cases hpass

/-- A step of another thread. -/
theorem CallInv.step {k : WaitPc} (h : CallInv s.data.pool before k)
    (hinv : PoolInv s) (hs : step (code n m) s a = some s')
    (hworking : k = .readWorking → s'.data.pool.working = s.data.pool.working) :
    CallInv s'.data.pool before k := by
  refine ⟨fun id hid => ?_, fun hk hzero => ?_, fun hk => ?_⟩
  · have hold := h.accepted id hid
    rcases step_move hinv.phases hs with ⟨hd, -⟩ | ⟨t, clears, hand', hmove, -⟩
    · rw [hd]
      exact hold
    · rcases hmove.accepted with hsame | ⟨p, job, -, -, happ⟩
      · rw [Log.acceptedIds, hsame]
        exact hold
      · rw [Log.acceptedIds, happ, List.map_append]
        exact List.mem_append_left _ hold
  · exact (h.seen hk ((hworking hk).symm.trans hzero)).step hinv hs
  · exact (h.passed hk).step hinv hs

/-- **Every step keeps what the calls know.** -/
theorem Calls.step (h : Calls s) (hinv : PoolInv s)
    (hserving : (ownerAt s).destroying = false) (hs : step (code n m) s a = some s') :
    Calls s' := by
  intro u before k hk
  rcases step_effect hs with ⟨hd, hp⟩ | ⟨t, choice, wakes, next, rfl, he, hp⟩
  · rw [hp] at hk
    rw [hd]
    exact h u before k hk
  · by_cases hut : u = t
    · subst hut
      rw [hp, Function.update_self] at hk
      exact h.own_step hinv hserving he hk
    · rw [hp, Function.update_of_ne hut] at hk
      apply (h u before k hk).step hinv hs
      -- between its two reads the call holds `thcount_lock`
      rintro rfl
      have hholding : s.Holding (code n m) holds u .thcountLock :=
        holding_of_callAt hk rfl (.inl (by simp))
      exact hinv.working_of_holder hut hholding he

/-! ## The result -/

theorem calls_reachable (h : PoolReachable s) : (ownerAt s).destroying = false → Calls s := by
  refine Reachable.invariant (fun s => (ownerAt s).destroying = false → Calls s) ?_ ?_ h
  · rintro s rfl - t before k hk
    cases t <;> cases hk
  · rintro s s' hr hbefore ⟨a, -, hs⟩ hserving
    have hold := serving_before hs hserving
    exact (hbefore hold).step (poolInv_reachable hr) hold hs

/-- **`thpool_wait` is a barrier.** When a call of `thpool_wait` returns, in a pool that is not
being destroyed, every job whose `thpool_add_work` had returned when the call began is finished,
and so is every job that these submitted, directly or not. -/
theorem wait_is_barrier (h : PoolReachable s) (hserving : (ownerAt s).destroying = false)
    {t : Tid n m} (hret : callAt t (s.pc t) = some (before, .returned)) (id : Nat)
    (hid : Descends s.data.pool.log.accepted before id) :
    ∃ job ∈ s.data.pool.log.finished, job.id = id :=
  (calls_reachable h hserving t before .returned hret).passed rfl id hid

end Pools

/-- A job submits another while a client waits for it. -/
def waitForTwo : List (Action (Tid 1 1) Choice) :=
  startUp 1 1 ++ times (.client 0) 1 (.addWork (some 7) 1 2) ++ times (.client 0) 8 .go ++
    times (.client 0) 1 .wait ++ times (.client 0) 3 .go ++ times (.worker 0) 13 .go ++
    times (.worker 0) 1 (.addWork (some 9) 1 3) ++ times (.worker 0) 15 .go ++
    times (.client 0) 3 .go ++ times (.worker 0) 20 .go ++ times (.client 0) 4 .go

set_option maxRecDepth 20000 in
theorem wait_is_barrier_run : ∃ s : PoolState 1 1, clientAt s 0 = .wait [0] .returned ∧
    Descends s.data.pool.log.accepted [0] 1 ∧ ∃ job ∈ s.data.pool.log.finished, job.id = 1 := by
  obtain ⟨s, hs, hp⟩ := poolReachable_of_run waitForTwo
    (fun s => decide (clientAt s 0 = .wait [0] .returned) && (!(ownerAt s).destroying &&
      s.data.pool.log.accepted.any fun job => job.id == 1 && job.parent == some 0)) (by decide)
  rw [Bool.and_eq_true, Bool.and_eq_true, decide_eq_true_iff, Bool.not_eq_true'] at hp
  obtain ⟨job, hjob, hchild⟩ := List.any_eq_true.1 hp.2.2
  rw [Bool.and_eq_true, beq_iff_eq, beq_iff_eq] at hchild
  have hdesc : Descends s.data.pool.log.accepted [0] job.id :=
    .child hjob hchild.2 (.root (by decide))
  rw [hchild.1] at hdesc
  have hcall : callAt (.client 0) (s.pc (.client 0)) = some ([0], .returned) := by
    rw [show s.pc (.client 0) = ClientPc.wait [0] .returned from hp.1]
    rfl
  exact ⟨s, hp.1, hdesc, wait_is_barrier hs hp.2.1 hcall 1 hdesc⟩

end CPlayground.Thpool
