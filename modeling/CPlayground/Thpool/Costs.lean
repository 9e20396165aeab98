import CPlayground.Basic.Measure
import CPlayground.Thpool.Deadlock

set_option autoImplicit false

/-! # What the calls of the pool cost

How many steps are left inside `bsem_post`, `jobqueue_push`, `jobqueue_pull` and `thpool_wait`. A
signal wakes threads, setting `v` sends one of them on its way, and a job that is put into the queue
has to be pulled out again: these have prices (`Prices`), and what the pool is worth changes by them
(`Prices.Fit`). The sections of the queue pay for what they do (`push_pays`, `pull_pays`).
-/

namespace CPlayground.Thpool

open Threads

/-- What a signal costs, what setting `v` costs, and what a job in the queue is worth. -/
structure Prices where
  signal : Nat
  token : Nat
  job : Nat

variable (p : Prices)

def PostPc.toGo : PostPc → Nat
  | .lock => p.signal + p.token + 4
  | .set => p.signal + p.token + 3
  | .signal => p.signal + 2
  | .unlock => 1

def PushPc.toGo : PushPc → Nat
  | .lock _ => p.job + p.signal + p.token + 7
  | .link _ => p.job + p.signal + p.token + 6
  | .post _ k => k.toGo p + 1
  | .unlock _ => 1

/-- The job that is pulled pays for the `bsem_post` that follows. -/
def PullPc.toGo : PullPc → Nat
  | .lock => 3
  | .take => 2
  | .post _ k => k.toGo p + 1
  | .unlock _ => 1

def WaitPc.toGo : WaitPc → Nat
  | .lock => 5
  | .readLen => 4
  | .readWorking => 3
  | .cond | .unlock => 2
  | .returned => 1

def ClientPc.toGo : ClientPc → Nat
  | .idle => 0
  | .push k => k.toGo p + 2
  | .added _ => 1
  | .wait _ k => k.toGo

/-- A thread that is woken has 9 steps to take before it sleeps again. -/
def ClientPc.inside : ClientPc → Nat
  | .wait _ .cond => 9
  | pc => pc.toGo p

/-- What the pool is worth goes with the prices. -/
structure Prices.Fit (worth : Pool → Nat) : Prop where
  same : ∀ {pool pool' : Pool}, pool'.v = pool.v → pool'.total = pool.total →
    pool'.queue.len = pool.queue.len → worth pool' ≤ worth pool
  post : ∀ pool : Pool, worth { pool with v := 1 } ≤ worth pool + p.token
  push : ∀ {pool pool' : Pool}, pool'.v = pool.v → pool'.total = pool.total →
    pool'.queue.len = pool.queue.len + 1 → worth pool' ≤ worth pool + p.job
  pull : ∀ {pool pool' : Pool}, pool'.v = pool.v → pool'.total = pool.total →
    pool'.queue.len + 1 = pool.queue.len →
      worth pool' + (p.signal + p.token + 4) ≤ worth pool

variable {p} {worth : Pool → Nat} {P : Type} {d d' : Mem} {choice : Choice} {now then' b : Nat}

/-- The step of a thread at `now` leads to `then'` and pays for what it does to the others. -/
def Pays (p : Prices) (worth : Pool → Nat) (instr : PoolInstr P) (d d' : Mem)
    (now then' : Nat) : Prop :=
  worth d'.pool + then' + (if instr.wakesUp then p.signal else 0) < worth d.pool + now

/-- A step that does nothing to the semaphore and the queue. -/
theorem Pays.same {instr : PoolInstr P} (hfit : p.Fit worth) (hv : d'.pool.v = d.pool.v)
    (htotal : d'.pool.total = d.pool.total) (hlen : d'.pool.queue.len = d.pool.queue.len)
    (hlt : then' + (if instr.wakesUp then p.signal else 0) < now) :
    Pays p worth instr d d' now then' := by
  have hle := hfit.same hv htotal hlen
  unfold Pays
  omega

section Procedures

variable {next : P} {g : P → Nat}

theorem post_pays {pt : PostPc → P} {ret : P} (hfit : p.Fit worth)
    (hpt : ∀ k, g (pt k) = b + k.toGo p) (hret : g ret ≤ b) (k : PostPc)
    (h : (bsemPost pt ret k).effect d choice = some (d', next)) :
    Pays p worth (bsemPost pt ret k) d d' (g (pt k)) (g next) := by
  cases k with
  | lock =>
      cases h
      apply Pays.same hfit rfl rfl rfl
      rw [hpt, hpt]
      simp [bsemPost, postWith, Instr.wakesUp, PostPc.toGo]
  | set =>
      cases h
      have hle := hfit.post d.pool
      unfold Pays
      rw [hpt, hpt]
      simp only [bsemPost, postWith, assign, Instr.wakesUp, PostPc.toGo] at hle ⊢
      simp
      omega
  | signal =>
      cases h
      apply Pays.same hfit rfl rfl rfl
      rw [hpt, hpt]
      simp [bsemPost, postWith, Instr.wakesUp, PostPc.toGo]
      omega
  | unlock =>
      cases h
      apply Pays.same hfit rfl rfl rfl
      rw [hpt]
      simp [bsemPost, postWith, Instr.wakesUp, PostPc.toGo]
      omega

theorem push_pays {pt : PushPc → P} {ret : Nat → P} (hfit : p.Fit worth)
    (hpt : ∀ k, g (pt k) = b + k.toGo p) (hret : ∀ id, g (ret id) ≤ b) (k : PushPc)
    (h : (jobqueuePush pt ret k).effect d choice = some (d', next)) :
    Pays p worth (jobqueuePush pt ret k) d d' (g (pt k)) (g next) := by
  cases k with
  | lock job =>
      cases h
      apply Pays.same hfit rfl rfl rfl
      rw [hpt, hpt]
      simp [jobqueuePush, Instr.wakesUp, PushPc.toGo]
  | link job =>
      obtain ⟨⟨pool, id⟩, hlink, he⟩ := Option.map_eq_some_iff.1 h
      cases he
      obtain ⟨queue, hpush, hlink⟩ := Option.bind_eq_some_iff.1 hlink
      obtain ⟨new, -, hlink⟩ := Option.bind_eq_some_iff.1 hlink
      cases hlink
      have hle : worth { d.pool with
          queue := queue
          log := { d.pool.log with accepted := d.pool.log.accepted ++ [new] } } ≤
            worth d.pool + p.job := hfit.push rfl rfl (push_len hpush)
      unfold Pays
      rw [hpt, hpt]
      simp only [jobqueuePush, Instr.wakesUp, PushPc.toGo, PostPc.toGo] at hle ⊢
      simp
      omega
  | post id k =>
      refine post_pays (b := b + 1) hfit ?_ ?_ k h
      · intro k
        rw [hpt, PushPc.toGo]
        omega
      · rw [hpt]
        exact Nat.le_refl _
  | unlock id =>
      cases h
      apply Pays.same hfit rfl rfl rfl
      rw [hpt]
      have hle := hret id
      simp [jobqueuePush, Instr.wakesUp, PushPc.toGo]
      omega

/-- `bsem_post` follows only when a job has been pulled. -/
theorem takeJob_len {pool pool' : Pool} {k : PullPc} (h : takeJob pool = some (pool', k)) :
    pool'.v = pool.v ∧ pool'.total = pool.total ∧
      (pool'.queue.len + 1 = pool.queue.len ∧ (∃ job, k = .post job .lock) ∨
        (pool'.queue.len = pool.queue.len ∨ pool'.queue.len + 1 = pool.queue.len) ∧
          ∃ job, k = .unlock job) := by
  obtain ⟨⟨job, queue⟩, hpull, h⟩ := Option.bind_eq_some_iff.1 h
  obtain ⟨hlen, -⟩ := pull_len hpull
  have hle : queue.len = pool.queue.len ∨ queue.len + 1 = pool.queue.len := by omega
  cases job with
  | none =>
      cases h
      exact ⟨rfl, rfl, .inr ⟨hle, none, rfl⟩⟩
  | some job =>
      cases h
      refine ⟨rfl, rfl, ?_⟩
      by_cases hmore : 1 < pool.queue.len
      · refine .inl ⟨?_, job, if_pos hmore⟩
        show queue.len + 1 = pool.queue.len
        omega
      · exact .inr ⟨hle, some job, if_neg hmore⟩

theorem pull_pays {pt : PullPc → P} {ret : Option Ptr → P} (hfit : p.Fit worth)
    (hpt : ∀ k, g (pt k) = b + k.toGo p) (hret : ∀ job, g (ret job) ≤ b) (k : PullPc)
    (h : (jobqueuePull pt ret k).effect d choice = some (d', next)) :
    Pays p worth (jobqueuePull pt ret k) d d' (g (pt k)) (g next) := by
  cases k with
  | lock =>
      cases h
      apply Pays.same hfit rfl rfl rfl
      rw [hpt, hpt]
      simp [jobqueuePull, Instr.wakesUp, PullPc.toGo]
  | take =>
      obtain ⟨⟨pool, k⟩, htake, he⟩ := Option.map_eq_some_iff.1 h
      cases he
      unfold Pays
      rw [hpt, hpt]
      obtain ⟨hv, htotal, ⟨hless, job, rfl⟩ | ⟨hlen, job, rfl⟩⟩ := takeJob_len htake
      · have hle := hfit.pull hv htotal hless
        simp [jobqueuePull, Instr.wakesUp, PullPc.toGo, PostPc.toGo]
        omega
      · have hle : worth pool ≤ worth d.pool := by
          rcases hlen with hlen | hless
          · exact hfit.same hv htotal hlen
          · exact (Nat.le_add_right _ _).trans (hfit.pull hv htotal hless)
        simp [jobqueuePull, Instr.wakesUp, PullPc.toGo]
        omega
  | post job k =>
      refine post_pays (b := b + 1) hfit ?_ ?_ k h
      · intro k
        rw [hpt, PullPc.toGo]
        omega
      · rw [hpt]
        exact Nat.le_refl _
  | unlock job =>
      cases h
      apply Pays.same hfit rfl rfl rfl
      rw [hpt]
      have hle := hret job
      simp [jobqueuePull, Instr.wakesUp, PullPc.toGo]
      omega

end Procedures

/-- A client that makes no new call. -/
theorem client_pays {pc next : ClientPc} (hfit : p.Fit worth)
    (he : (clientCode pc).effect d .go = some (d', next)) :
    Pays p worth (clientCode pc) d d' (pc.inside p) (next.toGo p) := by
  cases pc with
  | idle => cases he
  | push k =>
      refine push_pays (g := ClientPc.toGo p) (b := 2) hfit ?_ ?_ k he
      · intro k
        rw [ClientPc.toGo]
        omega
      · intro id
        rw [ClientPc.toGo]
        omega
  | added id =>
      cases he
      exact .same hfit rfl rfl rfl
        (by simp [clientCode, assign, Instr.wakesUp, ClientPc.inside, ClientPc.toGo])
  | wait before k =>
      cases k with
      | readLen | readWorking =>
          obtain ⟨rfl, ⟨-, rfl⟩ | ⟨-, rfl⟩⟩ := branch_effect he <;>
            exact .same hfit rfl rfl rfl
              (by simp [clientCode, waitCode, branch, Instr.wakesUp, ClientPc.inside,
                ClientPc.toGo, WaitPc.toGo])
      | _ =>
          cases he
          exact .same hfit rfl rfl rfl
            (by simp [clientCode, waitCode, Instr.wakesUp, ClientPc.inside, ClientPc.toGo,
              WaitPc.toGo])

/-! ## The measure of a pool -/

/-- The costs of a worker; `woken` is for one that has been woken in `bsem_wait`. -/
structure WorkerCosts where
  now : WorkerPc → Nat
  woken : Nat
  asleep_lt : woken - 9 < now .semCond
  call : ∀ job before k, now (.wait job before k) = 1

def WorkerCosts.inside (w : WorkerCosts) : WorkerPc → Nat
  | .semCond => w.woken
  | pc => w.now pc

variable {n m : Nat}

def costAt (w : WorkerCosts) (p : Prices) : (t : Tid n m) → Pc t → Nat
  | .worker _, pc => w.now pc
  | .client _, pc => ClientPc.toGo p pc
  | .owner, _ => 0

def insideAt (w : WorkerCosts) (p : Prices) : (t : Tid n m) → Pc t → Nat
  | .worker _, pc => w.inside pc
  | .client _, pc => ClientPc.inside p pc
  | .owner, _ => 0

/-- What is left for the workers and the clients, and what the owner and the pool add to it. -/
def poolMeasure (n m : Nat) (w : WorkerCosts) (p : Prices) (worth : OwnerPc → Pool → Nat) :
    Measure (code n m) where
  shared d pc := worth (pc .owner) d.pool
  now := costAt w p
  inside := insideAt w p
  wake := 9
  inside_eq t pc hno := by
    cases t with
    | worker i =>
        cases pc with
        | semCond => exact absurd rfl (hno _ _ _)
        | _ => rfl
    | client c =>
        cases pc with
        | wait before k =>
            cases k with
            | cond => exact absurd rfl (hno _ _ _)
            | _ => rfl
        | _ => rfl
    | owner => rfl
  asleep_lt t pc c mutex next hi := by
    have hw := waitsFor_of_wait hi
    cases t with
    | worker i =>
        cases pc with
        | semCond => exact w.asleep_lt
        | wait job before k =>
            show w.now (.wait job before k) - 9 < w.now (.wait job before k)
            rw [w.call]
            exact Nat.one_pos
        | _ => cases hw
    | client b =>
        cases pc with
        | wait before k =>
            cases k with
            | cond => exact Nat.two_pos
            | _ => cases hw
        | _ => cases hw
    | owner => cases hw

section Pays

variable {w : WorkerCosts} {owes : OwnerPc → Pool → Nat} {s : PoolState n m}
  (hsignal : p.signal = 9 * Fintype.card (Tid n m))

include hsignal

theorem Pays.worker {i : Fin n} {next : WorkerPc}
    (h : Pays p (owes (ownerAt s)) (workerCode i (workerAt s i)) s.data d'
      (w.inside (workerAt s i)) (w.now next)) :
    (poolMeasure n m w p owes).Pays s (.worker i) d' next := by
  unfold Pays at h
  rw [hsignal] at h
  exact h

theorem Pays.client {c : Fin m} {next : ClientPc}
    (h : Pays p (owes (ownerAt s)) (clientCode (clientAt s c)) s.data d'
      ((clientAt s c).inside p) (next.toGo p)) :
    (poolMeasure n m w p owes).Pays s (.client c) d' next := by
  unfold Pays at h
  rw [hsignal] at h
  exact h

end Pays

/-- A job that goes on to its end does not call `thpool_wait`. -/
theorem worker_no_wait {i : Nat} {pc next : WorkerPc}
    (hwait : ∀ job before k, pc ≠ .wait job before k)
    (he : (workerCode i pc).effect d .go = some (d', next)) (job : Ptr) (before : List Nat)
    (k : WaitPc) : next ≠ .wait job before k := by
  rintro rfl
  cases pc with
  | wait job' before' k' => exact hwait job' before' k' rfl
  | pull k' =>
      obtain ⟨-, ⟨k'', hnext⟩ | ⟨job', hnext⟩⟩ := pull_counts k' he
      · cases hnext
      · cases job' <;> cases hnext
  | push job' k' =>
      obtain ⟨-, ⟨k'', hnext⟩ | ⟨id, hnext⟩⟩ := push_counts k' he <;> cases hnext
  | loop | semTest | aliveTest | doneTest =>
      obtain ⟨-, ⟨-, hnext⟩ | ⟨-, hnext⟩⟩ := branch_effect he <;> cases hnext
  | unborn =>
      obtain ⟨-, he⟩ := Option.ite_none_right_eq_some.1 he
      cases he
  | call job' | free job' =>
      obtain ⟨r, -, he⟩ := Option.map_eq_some_iff.1 he
      cases he
  | _ => cases he

theorem urged_no_wait {s s' : PoolState n m} {t : Tid n m} {wakes : Tid n m → Bool}
    (h : ∀ i job before k, workerAt s i ≠ .wait job before k)
    (hs : Threads.step (code n m) s (.run t (urge t (s.pc t)) wakes) = some s') (i : Fin n)
    (job : Ptr) (before : List Nat) (k : WaitPc) : workerAt s' i ≠ .wait job before k := by
  rcases step_effect hs with ⟨-, hp⟩ | ⟨t', choice, wakes', next, ha, he, hp⟩
  · rw [workerAt, hp]
    exact h i job before k
  · cases ha
    by_cases hi : t = .worker i
    · subst hi
      rw [workerAt_self hp]
      exact worker_no_wait (h i) he job before k
    · rw [workerAt_other hp (Ne.symm hi)]
      exact h i job before k

end CPlayground.Thpool
