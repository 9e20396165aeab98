import CPlayground.Thpool.Tokens

set_option autoImplicit false

/-! # A pool and the flag

`threads_keepalive` is not in the pool. What a pool keeps as long as the flag says what it should
say is one invariant (`Steered`): it holds in a pool that is alone, in one that may be paused,
and in one of several that keep out of each other's way.
-/

namespace CPlayground.Thpool

open Threads

section Pool

variable {n m : Nat} {s s' : PoolState n m}

/-- What holds of a pool that the flag steers as it should: it is kept alive while it is in
service, and once it has cleared the flag, its workers find it cleared. -/
structure Steered (s : PoolState n m) : Prop where
  inv : PoolInv s
  alive : KeptAlive s
  cleared : (ownerAt s).cleared = true → ∀ i, (workerAt s i).leaving = false →
    s.data.statics.keepalive = false
  staying : ∀ i, (workerAt s i).leaving = true → (ownerAt s).destroying = true
  tokens : 0 < n → (ownerAt s).destroying = false → Tokens s

theorem steered_init : Steered (initState n m) where
  inv := poolInv_init
  alive h := absurd h Bool.false_ne_true
  cleared h := absurd h Bool.false_ne_true
  staying _ h := absurd h Bool.false_ne_true
  tokens _ _ := tokens_init

/-- The flags may change as long as the pool is steered. -/
theorem Steered.congr (h : Steered s) (hd : s'.data.pool = s.data.pool) (ho : s'.owner = s.owner)
    (hp : s'.pc = s.pc) (hsl : s'.sleep = s.sleep)
    (hset : (ownerAt s).inService = true → s.data.statics.keepalive = true →
      s'.data.statics.keepalive = true)
    (hclear : (ownerAt s).cleared = true → ∀ i, (workerAt s i).leaving = false →
      s.data.statics.keepalive = false → s'.data.statics.keepalive = false) : Steered s' := by
  have howner : ownerAt s' = ownerAt s := by rw [ownerAt, hp]
  have hworker : workerAt s' = workerAt s := by funext i; rw [workerAt, hp]
  constructor
  · exact h.inv.congr hd ho hp hsl
  · intro hin
    rw [howner] at hin
    exact hset hin (h.alive hin)
  · intro hcl i hi
    rw [howner] at hcl
    rw [hworker] at hi
    exact hclear hcl i hi (h.cleared hcl i hi)
  · rw [howner, hworker]
    exact h.staying
  · rw [howner]
    exact fun hn hserving => (h.tokens hn hserving).congr hd hp hsl

/-- A worker of a pool that is not being destroyed finds the flag set. -/
theorem Steered.flag_set (h : Steered s) (hserving : (ownerAt s).destroying = false) {i : Fin n}
    (hpc : workerAt s i ≠ .unborn) : s.data.statics.keepalive = true :=
  h.inv.alive_of_serving h.alive hserving hpc

/-- **A pool's own steps keep it steered.** -/
theorem Steered.step {a : Action (Tid n m) Choice} (h : Steered s) (hcalls : CallsOk s a)
    (hs : Threads.step (code n m) s a = some s') : Steered s' where
  inv := h.inv.step hcalls hs
  alive := h.alive.step hs
  cleared hcl i hi := by
    rcases step_statics hs with ⟨hstat, howner⟩ | ⟨choice, wakes, rfl, he, hp⟩
    · rw [howner] at hcl
      rw [hstat]
      apply h.cleared hcl i
      rcases step_workerAt hs i with hsame | ⟨choice, he⟩
      · rwa [hsame] at hi
      · -- a worker that has passed its last test stays past it
        by_contra hleaving
        rw [leaving_step he (Bool.not_eq_false _ ▸ hleaving)] at hi
        cases hi
    · have hworker : workerAt s' i = workerAt s i := by simp [workerAt, hp]
      rw [hworker] at hi
      rcases (owner_step he).cleared hcl with hbefore | ⟨-, hfalse⟩
      · rcases (owner_step he).flag with hsame | ⟨hpc, -⟩ | ⟨-, hfalse⟩
        · rw [hsame]
          exact h.cleared hbefore i hi
        · rw [hpc] at hbefore
          cases hbefore
        · exact hfalse
      · exact hfalse
  staying i hi := by
    apply destroying_after hs
    rcases step_workerAt hs i with hsame | ⟨choice, he⟩
    · rw [hsame] at hi
      exact h.staying i hi
    · rcases (worker_step he).leaving hi with hbefore | ⟨hloop, hflag⟩
      · exact h.staying i hbefore
      · -- it has found the flag cleared
        by_contra hserving
        rw [h.flag_set (Bool.eq_false_iff.2 hserving) (by rw [hloop]; simp)] at hflag
        cases hflag
  tokens hn hserving := by
    have hold := serving_before hs hserving
    refine (h.tokens hn hold).step hn h.inv (fun i hpc => ?_) hs
    have hborn : workerAt s i ≠ .unborn := by simp [hpc]
    exact h.flag_set hold hborn

end Pool

end CPlayground.Thpool
