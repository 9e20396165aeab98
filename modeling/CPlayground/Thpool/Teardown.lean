import CPlayground.Thpool.Invariant

set_option autoImplicit false

/-! # When the pool is freed

`thpool_destroy` polls `num_threads_alive` without `thcount_lock`. When it has read zero every
worker has made its last decrement, but one may still have to give the lock back
(`freed_under_worker`). This is the only way in which the pool is freed under a worker: in the
runs in which no worker owns the lock when the pool is freed, every worker has left `thread_do`
by then (`freed_in_peace`).
-/

namespace CPlayground.Thpool

open Threads

/-! ## Who frees the pool -/

theorem freeNode_freed {job : Ptr} {record : Log → Job → Log} {pool pool' : Pool}
    (h : freeNode job record pool = some pool') : pool'.freed = pool.freed := by
  obtain ⟨done, -, hfree⟩ := Option.bind_eq_some_iff.1 h
  cases hfree
  rfl

section Threads

variable {d d' : Mem} {choice : Choice}

/-- What a step of the owner can do to the pool's end and to the flag of `thread_hold`. -/
structure OwnerFrame (d d' : Mem) (pc : OwnerPc) : Prop where
  freed : d'.pool.freed = d.pool.freed ∨ pc = .freePool
  onHold : d'.statics.onHold = d.statics.onHold ∨ d'.statics.onHold = false

/-- A step that touches neither. -/
theorem OwnerFrame.same {pc : OwnerPc} (hf : d'.pool.freed = d.pool.freed)
    (hs : d'.statics = d.statics) : OwnerFrame d d' pc :=
  ⟨.inl hf, .inl (by rw [hs])⟩

theorem owner_frame {n : Nat} {pc next : OwnerPc}
    (h : (ownerCode n pc).effect d choice = some (d', next)) : OwnerFrame d d' pc := by
  cases pc with
  | freePool =>
      cases h
      exact ⟨.inr rfl, .inl rfl⟩
  | initHold =>
      cases h
      exact ⟨.inl rfl, .inr rfl⟩
  | initKeepalive | clear =>
      cases h
      exact ⟨.inl rfl, .inl rfl⟩
  | pull k =>
      rw [ownerCode] at h
      obtain ⟨hframe, -⟩ := pull_counts k h
      exact .same hframe.freed hframe.counts.statics
  | postAll late k =>
      rw [ownerCode] at h
      obtain ⟨hframe, -⟩ := post_counts (fun p d ch => rfl) k h
      exact .same hframe.freed hframe.counts.statics
  | initPool | initQueue | initThreads =>
      rw [ownerCode] at h
      obtain ⟨rfl, -⟩ | ⟨rfl, -⟩ := alloc_effect h <;> exact .same rfl rfl
  | spin | emptyTest =>
      rw [ownerCode] at h
      obtain ⟨rfl, -⟩ := branch_effect h
      exact .same rfl rfl
  | loop late =>
      cases late with
      | true =>
          rw [ownerCode] at h
          obtain ⟨rfl, -⟩ := branch_effect h
          exact .same rfl rfl
      | false =>
          cases choice with
          | clock timeUp =>
              cases h
              exact .same rfl rfl
          | _ => cases h
  | spawn k =>
      simp only [ownerCode, Instr.effect] at h
      split at h
      · cases choice with
        | threadInit outcome =>
            cases h
            exact .same rfl rfl
        | _ => cases h
      · cases h
        exact .same rfl rfl
  | freeJob job =>
      cases job with
      | none =>
          cases h
          exact .same rfl rfl
      | some job =>
          obtain ⟨pool, hfree, he⟩ := Option.map_eq_some_iff.1 h
          cases he
          exact .same (freeNode_freed hfree) rfl
  | ready =>
      simp only [ownerCode, Instr.effect, Option.ite_none_right_eq_some] at h
      cases h.2
      exact .same rfl rfl
  | freeThread k =>
      simp only [ownerCode, Instr.effect] at h
      split at h <;> cases h <;> exact .same rfl rfl
  | failed | destroyed => cases h
  | _ =>
      cases h
      exact .same rfl rfl

end Threads

section Teardown

variable {n m : Nat} {s s' : PoolState n m} {a : Action (Tid n m) Choice}

/-- A step frees the pool only where the owner calls `free(thread_pool)`. -/
theorem step_freed (hs : step (code n m) s a = some s') :
    s'.data.pool.freed = s.data.pool.freed ∨
      ∃ choice wakes, a = .run .owner choice wakes ∧ ownerAt s = .freePool := by
  rcases step_effect hs with ⟨hd, -⟩ | ⟨t, choice, wakes, next, rfl, he, -⟩
  · exact .inl (by rw [hd])
  · cases t with
    | worker i => exact .inl (worker_frame he).freed
    | client c => exact .inl (client_frame he).freed
    | owner => exact (owner_frame he).freed.imp id fun hpc => ⟨choice, wakes, rfl, hpc⟩

/-! ## The condition -/

/-- When `thpool_destroy` frees the pool, no worker owns `thcount_lock`. -/
def FreesUnheld (s : PoolState n m) : Action (Tid n m) Choice → Prop
  | .run .owner _ _ =>
      ownerAt s = .freePool → ∀ i : Fin n, s.owner .thcountLock ≠ some (.worker i)
  | _ => True

instance (s : PoolState n m) : (a : Action (Tid n m) Choice) → Decidable (FreesUnheld s a)
  | .run .owner _ _ =>
      inferInstanceAs (Decidable (ownerAt s = .freePool →
        ∀ i : Fin n, s.owner .thcountLock ≠ some (.worker i)))
  | .run (.worker _) _ _ | .run (.client _) _ _ | .spurious _ => .isTrue trivial

/-- The steps of a run that meets the condition throughout. -/
def PeacefulStep (s : PoolState n m) (a : Action (Tid n m) Choice) : Prop :=
  CallsOk s a ∧ FreesUnheld s a

instance (s : PoolState n m) (a : Action (Tid n m) Choice) : Decidable (PeacefulStep s a) :=
  inferInstanceAs (Decidable (_ ∧ _))

/-- Reached by a run in which no worker owns the lock when the pool is freed. -/
def PeacefulReachable (s : PoolState n m) : Prop :=
  Reachable (· = initState n m) (StepsIf PeacefulStep (step (code n m))) s

theorem PeacefulReachable.poolReachable (h : PeacefulReachable s) : PoolReachable s :=
  Reachable.mono (fun _ _ ⟨a, hok, ha⟩ => ⟨a, hok.1, ha⟩) h

/-- A worker that has made its last decrement has left, or owns `thcount_lock`. -/
theorem PoolInv.exited_of_gone (h : PoolInv s) {i : Fin n} (hgone : (workerAt s i).gone = true)
    (hfree : s.owner .thcountLock ≠ some (.worker i)) : workerAt s i = .exited := by
  cases hpc : workerAt s i with
  | exited => rfl
  -- the only other point after the decrement: the lock is still to be given back
  | exitUnlock =>
      have hcode : code n m (.worker i) (s.pc (.worker i)) = .unlock .thcountLock .exited := by
        show workerCode i (workerAt s i) = _
        rw [hpc]
        rfl
      have hholds : holds (.worker i : Tid n m) (s.pc (.worker i)) .thcountLock = true := by
        show WorkerPc.holds (workerAt s i) .thcountLock = true
        rw [hpc]
        rfl
      refine absurd (h.locked.owner_of hholds fun c next hwait => ?_) hfree
      rw [hcode] at hwait
      cases hwait
  | _ =>
      rw [hpc] at hgone
      cases hgone

/-- A worker that has left takes no more steps. -/
theorem exited_step (hs : step (code n m) s a = some s') {i : Fin n}
    (hi : workerAt s i = .exited) : workerAt s' i = .exited := by
  rcases step_workerAt hs i with hsame | ⟨choice, he⟩
  · rw [hsame, hi]
  · rw [hi] at he
    cases he

/-- **The pool is freed in peace** in the runs in which no worker owns `thcount_lock` when it is
freed: in every state reached every worker has left `thread_do` if the pool is freed. And these
runs are all: a step that frees the pool otherwise leaves a worker inside. -/
theorem freed_in_peace :
    (∀ s : PoolState n m, PeacefulReachable s → s.data.pool.freed = true →
      ∀ i, workerAt s i = .exited) ∧
    ∀ (s s' : PoolState n m) (a : Action (Tid n m) Choice), PoolReachable s → CallsOk s a →
      step (code n m) s a = some s' → ¬ FreesUnheld s a →
      s'.data.pool.freed = true ∧ ∃ i, workerAt s' i ≠ .exited := by
  constructor
  · intro s h
    refine Reachable.invariant
      (fun s => s.data.pool.freed = true → ∀ i, workerAt s i = .exited) ?_ ?_ h
    · rintro s rfl hfreed
      cases hfreed
    -- the pool was freed before, or this step frees it, with nobody alive and nobody at the lock
    · rintro s s' hs hleft ⟨a, hok, ha⟩ hfreed i
      have hinv := poolInv_reachable (PeacefulReachable.poolReachable hs)
      rcases step_freed ha with hsame | ⟨choice, wakes, rfl, hpc⟩
      · exact exited_step ha (hleft (hsame ▸ hfreed) i)
      · have hfinal : (ownerAt s).final = true := by
          rw [hpc]
          rfl
        exact exited_step ha (hinv.exited_of_gone (hinv.phases.gone hfinal i) (hok.2 hpc i))
  · intro s s' a h hcalls ha hheld
    have hinv := poolInv_reachable h
    rcases a with ⟨t, choice, wakes⟩ | t
    · cases t with
      | owner =>
          simp only [FreesUnheld, not_forall, not_not] at hheld
          -- the worker that owns the lock is inside `thread_do`, and `free` does not move it
          obtain ⟨hpc, i, hown⟩ := hheld
          obtain ⟨hholds, -⟩ := (hinv.locked.owner _ _).1 hown
          have hcode : code n m .owner (s.pc .owner)
              = assign (fun pool => { pool with freed := true }) .destroyed := by
            show ownerCode n (ownerAt s) = _
            rw [hpc]
            rfl
          rw [step_act hcode] at ha
          cases ha
          refine ⟨rfl, i, fun hexited => ?_⟩
          have hworker : workerAt s i = .exited := hexited
          have hnot : WorkerPc.holds (workerAt s i) .thcountLock = true := hholds
          rw [hworker] at hnot
          cases hnot
      | worker i => exact absurd trivial hheld
      | client c => exact absurd trivial hheld
    · exact absurd trivial hheld

end Teardown

/-- `thpool_destroy` of an idle pool, up to its first test of `num_threads_alive`. -/
def destroyIdle : List (Action (Tid 1 1) Choice) :=
  startUp 1 1 ++ times .owner 1 .destroy ++ times .owner 2 .go

set_option maxRecDepth 20000 in
/-- The worker leaves, and the pool is freed. -/
theorem freed_in_peace_run : ∃ s : PoolState 1 1, s.data.pool.freed = true ∧
    workerAt s 0 = .exited := by
  obtain ⟨s, hs, hp⟩ : ∃ s : PoolState 1 1, PeacefulReachable s ∧ s.data.pool.freed = true :=
    reachable_guarded (destroyIdle ++ times (.worker 0) 4 .go ++ times .owner 1 (.clock true)
      ++ times .owner 7 .go) (fun s : PoolState 1 1 => s.data.pool.freed) (by decide)
  exact ⟨s, hp, freed_in_peace.1 s hs hp 0⟩

set_option maxRecDepth 20000 in
/-- **The pool is freed under a worker**: it has decremented `num_threads_alive` and not given
`thcount_lock` back. -/
theorem freed_under_worker : ∃ s : PoolState 1 1, PoolReachable s ∧
    s.data.pool.freed = true ∧ workerAt s 0 = .exitUnlock := by
  obtain ⟨s, hs, hp⟩ := poolReachable_of_run
    (destroyIdle ++ times (.worker 0) 3 .go ++ times .owner 1 (.clock true) ++ times .owner 7 .go)
    (fun s => s.data.pool.freed && decide (workerAt s 0 = .exitUnlock)) (by decide)
  rw [Bool.and_eq_true, decide_eq_true_iff] at hp
  exact ⟨s, hs, hp⟩

end CPlayground.Thpool
