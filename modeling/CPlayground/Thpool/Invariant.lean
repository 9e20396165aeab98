import CPlayground.Thpool.Ledger

set_option autoImplicit false

/-! # The invariant of a pool

Mutual exclusion, the phases and the ledger hold together in every reachable state
(`PoolInv`). None of them looks at the two flags, which other pools write too (`PoolInv.congr`);
that a pool in service finds `threads_keepalive` set holds of a pool that is alone
(`KeptAlive`).
-/

namespace CPlayground.Thpool

open Threads

variable {n m : Nat} {s s' : PoolState n m} {a : Action (Tid n m) Choice}

/-- What holds in every reachable state of a pool, whatever other pools do. -/
structure PoolInv (s : PoolState n m) : Prop where
  locked : Locked (code n m) holds s
  phases : Phases s
  ledger : Ledger s.data.pool (handsOf s)
  kept : (ownerAt s).destroying = false → s.data.pool.log.discarded = []

theorem locked_init : Locked (code n m) holds (initState n m) := by
  constructor
  · intro mutex t
    have hnone : holds t ((initState n m).pc t) mutex = false := by
      cases t <;> cases mutex <;> rfl
    unfold State.Holding
    rw [hnone]
    exact iff_of_false (fun h => by cases h) (fun h => absurd h.1 Bool.false_ne_true)
  · intro t h
    exact absurd rfl h

theorem poolInv_init : PoolInv (initState n m) :=
  ⟨locked_init, phases_init, ledger_init, fun _ => rfl⟩

/-- The flags are not part of the invariant. -/
theorem PoolInv.congr (h : PoolInv s) (hd : s'.data.pool = s.data.pool)
    (ho : s'.owner = s.owner) (hp : s'.pc = s.pc) (hsl : s'.sleep = s.sleep) : PoolInv s' := by
  have hhands : handsOf s' = handsOf s := funext fun t => by rw [handsOf, hp, handsOf]
  have howner : ownerAt s' = ownerAt s := by rw [ownerAt, hp]
  constructor
  · constructor
    · intro mutex t
      rw [ho, h.locked.owner]
      exact (holding_congr (congrFun hp t) (by rw [hsl])).symm
    · intro t hasleep
      rw [hsl] at hasleep ⊢
      rw [hp]
      exact h.locked.asleep t hasleep
  · exact h.phases.congr hd hp
  · rw [hd, hhands]
    exact h.ledger
  · rw [howner, hd]
    exact h.kept

/-- Before `thpool_destroy` the owner has no job in its hands. -/
theorem OwnerPc.hand_empty {pc : OwnerPc} (h : pc.destroying = false) : pc.hand = .empty := by
  cases pc with
  | pull k => exact absurd h.symm Bool.false_ne_true
  | freeJob job => exact absurd h.symm Bool.false_ne_true
  | _ => rfl

/-- Jobs are discarded by `thpool_destroy` only. -/
theorem PoolInv.kept_step (h : PoolInv s) (hs : step (code n m) s a = some s')
    (hd : (ownerAt s').destroying = false) : s'.data.pool.log.discarded = [] := by
  rcases step_effect hs with ⟨hdata, hp⟩ | ⟨t, choice, wakes, next, rfl, he, hp⟩
  · rw [hdata]
    apply h.kept
    rw [← hd, ownerAt, ownerAt, hp]
  · cases t with
    | worker i =>
        -- a worker and a client finish jobs, they do not discard any
        rw [(worker_move he).discarded (.inl rfl)]
        apply h.kept
        rw [← hd]
        simp [ownerAt, hp]
    | client c =>
        rw [(client_move he).discarded (.inl rfl)]
        apply h.kept
        rw [← hd]
        simp [ownerAt, hp]
    | owner =>
        have hnext : ownerAt s' = next := by simp [ownerAt, hp]
        rw [hnext] at hd
        -- neither does the owner: its hands are empty before `thpool_destroy`
        have hbefore := (owner_step he).serving hd
        rw [(owner_move h.phases.len_zero he).discarded (.inr (OwnerPc.hand_empty hbefore))]
        exact h.kept hbefore

/-- **Every step keeps the invariant.** -/
theorem PoolInv.step (h : PoolInv s) (hcalls : CallsOk s a)
    (hs : step (code n m) s a = some s') : PoolInv s' where
  locked := h.locked.step code_respects hs
  phases := h.phases.step hcalls hs
  ledger := ledger_step h.phases h.ledger hs
  kept := h.kept_step hs

/-- **The invariant holds in every reachable state.** -/
theorem poolInv_reachable (h : PoolReachable s) : PoolInv s := by
  refine Reachable.invariant PoolInv ?_ ?_ h
  · rintro s rfl
    exact poolInv_init
  · rintro s s' - hinv ⟨a, hcalls, hs⟩
    exact hinv.step hcalls hs

/-! ## One thread of a step -/

/-- A worker stands still, or goes on as its code says. -/
theorem step_workerAt (hs : step (code n m) s a = some s') (i : Fin n) :
    workerAt s' i = workerAt s i ∨ ∃ choice,
      (workerCode i (workerAt s i)).effect s.data choice = some (s'.data, workerAt s' i) := by
  rcases step_effect hs with ⟨-, hp⟩ | ⟨t, choice, wakes, next, rfl, he, hp⟩
  · exact .inl (by rw [workerAt, hp])
  · by_cases ht : t = .worker i
    · subst ht
      have hnext : workerAt s' i = next := workerAt_self hp
      exact .inr ⟨choice, by rw [hnext]; exact he⟩
    · exact .inl (workerAt_other hp (Ne.symm ht))

/-- Only the owner writes the flags. -/
theorem step_statics (hs : step (code n m) s a = some s') :
    s'.data.statics = s.data.statics ∧ ownerAt s' = ownerAt s ∨
      ∃ choice wakes, a = .run .owner choice wakes ∧
        (ownerCode n (ownerAt s)).effect s.data choice = some (s'.data, ownerAt s') ∧
        s'.pc = Function.update s.pc .owner (ownerAt s') := by
  rcases step_effect hs with ⟨hdata, hp⟩ | ⟨t, choice, wakes, next, rfl, he, hp⟩
  · exact .inl ⟨by rw [hdata], by rw [ownerAt, ownerAt, hp]⟩
  · cases t with
    | worker i => exact .inl ⟨(worker_step he).statics, by simp [ownerAt, hp]⟩
    | client c => exact .inl ⟨(client_step he).counts.statics, by simp [ownerAt, hp]⟩
    | owner =>
        have hnext : ownerAt s' = next := by simp [ownerAt, hp]
        exact .inr ⟨choice, wakes, rfl, by rw [hnext]; exact he, by rw [hnext]; exact hp⟩

/-- A pool that is not being destroyed was not before. -/
theorem serving_before (hs : step (code n m) s a = some s')
    (h : (ownerAt s').destroying = false) : (ownerAt s).destroying = false := by
  rcases step_statics hs with ⟨-, howner⟩ | ⟨choice, wakes, rfl, he, -⟩
  · rw [← howner]
    exact h
  · exact (owner_step he).serving h

theorem destroying_after (hs : step (code n m) s a = some s')
    (h : (ownerAt s).destroying = true) : (ownerAt s').destroying = true := by
  by_contra hnot
  rw [serving_before hs (Bool.eq_false_iff.2 hnot)] at h
  cases h

/-! ## A pool that is alone -/

/-- A pool in service finds the flag set. -/
def KeptAlive (s : PoolState n m) : Prop :=
  (ownerAt s).inService = true → s.data.statics.keepalive = true

theorem KeptAlive.step (h : KeptAlive s) (hs : step (code n m) s a = some s') : KeptAlive s' := by
  intro hin
  rcases step_statics hs with ⟨hstat, howner⟩ | ⟨choice, wakes, rfl, he, -⟩
  · rw [hstat]
    exact h (howner ▸ hin)
  · rcases (owner_step he).inService hin with ⟨hbefore, hstat⟩ | ⟨-, hset⟩
    · rw [hstat]
      exact h hbefore
    · exact hset

theorem keptAlive_reachable (h : PoolReachable s) : KeptAlive s := by
  refine Reachable.invariant KeptAlive ?_ ?_ h
  · rintro s rfl hin
    exact absurd hin Bool.false_ne_true
  · rintro s s' - halive hstep
    obtain ⟨a, ha⟩ := hstep.steps
    exact halive.step ha

end CPlayground.Thpool
