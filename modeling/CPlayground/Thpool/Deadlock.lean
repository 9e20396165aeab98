import CPlayground.Basic.LockOrder
import CPlayground.Thpool.Hold
import CPlayground.Thpool.Startup
import CPlayground.Thpool.Waiters

set_option autoImplicit false

/-! # No thread of a pool is stuck

No thread comes to an instruction that cannot be carried out: the ledger says that every job node
it dereferences is allocated. (Nothing is said of the pool itself: once `thpool_destroy` has freed
it, a worker may still unlock the `thcount_lock` that was in it.) A thread that holds a mutex waits
for another one in `bsem_post` only, called under `rw_mutex`, so whoever waits for a mutex waits
for a thread that can run. A thread of the pool that cannot run at all sleeps on a condition
variable.

A job that calls `thpool_wait` on its own pool sleeps for good: it is itself counted in
`num_threads_working`.
-/

namespace CPlayground.Thpool

open Threads

/-! ## The order of the mutexes -/

/-- A thread takes a mutex only while all it holds come before it. -/
def Mutex.rank : Mutex → Nat
  | .rwMutex => 0
  | .bsemMutex => 1
  | .thcountLock => 2

section Procedures

variable {P : Type} {mutex held : Mutex} {next : P}

theorem post_lock {wakeUp : P → PoolInstr P} {pt : PostPc → P} {ret : P} {k : PostPc}
    (hwake : ∀ p, wakeUp p ≠ .lock mutex next) (h : postWith wakeUp pt ret k = .lock mutex next) :
    k = .lock ∧ mutex = .bsemMutex := by
  cases k with
  | lock =>
      cases h
      exact ⟨rfl, rfl⟩
  | signal => exact absurd h (hwake _)
  | set | unlock => cases h

theorem push_lock {pt : PushPc → P} {ret : Nat → P} {k : PushPc}
    (h : jobqueuePush pt ret k = .lock mutex next) (hheld : k.holds held = true) :
    held.rank < mutex.rank := by
  cases k with
  | post id k =>
      rw [jobqueuePush, bsemPost] at h
      obtain ⟨rfl, rfl⟩ := post_lock (fun p hc => by cases hc) h
      cases held with
      | rwMutex => exact Nat.one_pos
      | thcountLock | bsemMutex => cases hheld
  | lock job => cases hheld
  | link job | unlock id => cases h

theorem pull_lock {pt : PullPc → P} {ret : Option Ptr → P} {k : PullPc}
    (h : jobqueuePull pt ret k = .lock mutex next) (hheld : k.holds held = true) :
    held.rank < mutex.rank := by
  cases k with
  | post job k =>
      rw [jobqueuePull, bsemPost] at h
      obtain ⟨rfl, rfl⟩ := post_lock (fun p hc => by cases hc) h
      cases held with
      | rwMutex => exact Nat.one_pos
      | thcountLock | bsemMutex => cases hheld
  | lock => cases hheld
  | take | unlock job => cases h

theorem wait_lock {pt : WaitPc → P} {ret : P} {k : WaitPc}
    (h : waitCode pt ret k = .lock mutex next) : k.holds held = false := by
  cases k with
  | lock | returned => rfl
  | readLen | readWorking | cond | unlock => cases h

end Procedures

variable {n m : Nat} {s : PoolState n m}

/-- **Mutexes are taken in order.** -/
theorem lock_rank {t : Tid n m} {pc next : Pc t} {mutex held : Mutex}
    (h : code n m t pc = .lock mutex next) (hheld : holds t pc held = true) :
    held.rank < mutex.rank := by
  cases t with
  | worker i =>
      cases pc with
      | pull k => exact pull_lock h hheld
      | push job k => exact push_lock h hheld
      | wait job before k =>
          have hfree : k.holds held = false := wait_lock h
          exact absurd (hfree.symm.trans hheld) Bool.false_ne_true
      | startLock | semLock | workLock | doneLock | exitLock => cases hheld
      | _ => cases h
  | client c =>
      cases pc with
      | push k => exact push_lock h hheld
      | wait before k =>
          have hfree : k.holds held = false := wait_lock h
          exact absurd (hfree.symm.trans hheld) Bool.false_ne_true
      | _ => cases h
  | owner =>
      cases pc with
      | pull k => exact pull_lock h hheld
      | postAll late k =>
          obtain ⟨rfl, -⟩ := post_lock (k := k) (fun p hc => by cases hc) h
          cases held <;> cases hheld
      | loop late => cases late <;> cases h
      | freeJob job => cases job <;> cases h
      | _ => cases h

/-- A thread that waits holds one mutex. -/
theorem wait_sole {t : Tid n m} {pc next : Pc t} {c : Cond} {mutex held : Mutex}
    (h : code n m t pc = .wait c mutex next) (hheld : holds t pc held = true) : held = mutex := by
  cases t with
  | worker i =>
      cases pc with
      | pull k => exact absurd h (pull_not_wait k)
      | push job k => exact absurd h (push_not_wait k)
      | semCond =>
          cases h
          exact eq_of_beq hheld
      | wait job before k =>
          cases k with
          | cond =>
              cases h
              exact eq_of_beq hheld
          | _ => cases h
      | _ => cases h
  | client c =>
      cases pc with
      | push k => exact absurd h (push_not_wait k)
      | wait before k =>
          cases k with
          | cond =>
              cases h
              exact eq_of_beq hheld
          | _ => cases h
      | _ => cases h
  | owner => cases waitsFor_of_wait h

theorem needs_rank {t : Tid n m} {mutex held : Mutex}
    (hholding : s.Holding (code n m) holds t held) (hneeds : s.Needs (code n m) t mutex) :
    held.rank < mutex.rank := by
  rcases hneeds with ⟨next, hi⟩ | ⟨hwoken, c, next, hi⟩
  · exact lock_rank hi hholding.1
  · -- a thread that was woken has given up the only mutex it had
    obtain ⟨hheld, hawake | hnot⟩ := hholding
    · rw [hwoken] at hawake
      cases hawake
    · have hsame := wait_sole hi hheld
      subst hsame
      exact absurd hi (hnot c next)

/-! ## Every instruction can be carried out -/

section Ledger

variable {T : Type} [Fintype T] [DecidableEq T] {pool : Pool} {hands : T → Hand} {t : T} {p : Ptr}

/-- A node in a hand is there to be read. -/
theorem Ledger.jobAt_some (h : Ledger pool hands) (hp : 0 < (hands t).nodes p) :
    (pool.queue.heap.jobAt p).isSome := by
  obtain ⟨-, halloc, -⟩ := h.sole hp
  unfold Heap.jobAt
  rw [Option.isSome_map]
  exact halloc

theorem Ledger.linkJob_some (h : Ledger pool hands) (hpend : (hands t).pending = some p) :
    (linkJob p pool).isSome := by
  have hp : 0 < (hands t).nodes p := by simp [Hand.nodes, hpend]
  obtain ⟨hnot, halloc, -⟩ := h.sole hp
  obtain ⟨queue, hpush, -⟩ := push_represents h.queue halloc hnot
  obtain ⟨job, hjob⟩ := Option.isSome_iff_exists.1 (h.jobAt_some hp)
  simp [linkJob, hpush, hjob]

omit [DecidableEq T] in
theorem Ledger.takeJob_some (h : Ledger pool hands) : (takeJob pool).isSome := by
  have hrep := h.queue
  cases hnodes : pool.queue.nodes with
  | nil =>
      rw [hnodes] at hrep
      simp [takeJob, pull_empty hrep]
  | cons p ps =>
      rw [hnodes] at hrep
      obtain ⟨queue, hpull, -⟩ := pull_represents hrep
      simp [takeJob, hpull]

theorem Ledger.freeNode_some (h : Ledger pool hands) (hp : 0 < (hands t).nodes p)
    (record : Log → Job → Log) : (freeNode p record pool).isSome := by
  obtain ⟨job, hjob⟩ := Option.isSome_iff_exists.1 (h.jobAt_some hp)
  simp [freeNode, hjob]

end Ledger

section Effects

variable {P : Type} {d : Mem}

theorem push_effect {pt : PushPc → P} {ret : Nat → P} (k : PushPc)
    (hlink : ∀ job, k = .link job → (linkJob job d.pool).isSome) (choice : Choice) :
    ((jobqueuePush pt ret k).effect d choice).isSome := by
  cases k with
  | link job =>
      obtain ⟨r, hr⟩ := Option.isSome_iff_exists.1 (hlink job rfl)
      simp [jobqueuePush, Instr.effect, hr]
  | post id k => cases k <;> rfl
  | lock job | unlock id => rfl

theorem pull_effect {pt : PullPc → P} {ret : Option Ptr → P} (k : PullPc)
    (htake : (takeJob d.pool).isSome) (choice : Choice) :
    ((jobqueuePull pt ret k).effect d choice).isSome := by
  cases k with
  | take =>
      obtain ⟨r, hr⟩ := Option.isSome_iff_exists.1 htake
      simp [jobqueuePull, Instr.effect, hr]
  | post job k => cases k <;> rfl
  | lock | unlock job => rfl

theorem wait_isSome {pt : WaitPc → P} {ret : P} (k : WaitPc) (choice : Choice) :
    ((waitCode pt ret k).effect d choice).isSome := by
  cases k <;> rfl

end Effects

/-- Outside `thread_do`, outside any call of a client, and where the owner has nothing to do until
it is asked to. -/
def AtRest (s : PoolState n m) : Tid n m → Prop
  | .worker i => workerAt s i = .exited ∨
      workerAt s i = .unborn ∧ s.data.pool.created i = false
  | .client c => clientAt s c = .idle
  | .owner => ownerAt s = .ready ∨ ownerAt s = .failed ∨ ownerAt s = .destroyed

/-- The choice with which the owner comes nearer to its end. -/
def OwnerPc.urge : OwnerPc → Choice
  | .initPool | .initQueue | .initThreads => .alloc true
  | .spawn _ => .threadInit .ok
  | .loop false => .clock true
  | _ => .go

/-- The same for every thread: a job goes on to its end. -/
def urge : (t : Tid n m) → Pc t → Choice
  | .owner, pc => OwnerPc.urge pc
  | .worker _, _ | .client _, _ => .go

/-- **No thread comes to an instruction that cannot be carried out.** -/
theorem PoolInv.has_effect (h : PoolInv s) {t : Tid n m} (hwork : ¬ AtRest s t) :
    ((code n m t (s.pc t)).effect s.data (urge t (s.pc t))).isSome := by
  have hledger := h.ledger
  cases t with
  | worker i =>
      have hhand : handsOf s (.worker i) = (workerAt s i).hand := rfl
      show ((workerCode i (workerAt s i)).effect s.data .go).isSome
      cases hpc : workerAt s i with
      | unborn =>
          have hborn : s.data.pool.created i = true := by
            by_contra hnot
            exact hwork (.inr ⟨hpc, Bool.eq_false_iff.2 hnot⟩)
          simp [workerCode, Instr.effect, hborn]
      | pull k => exact pull_effect k hledger.takeJob_some .go
      | push job k =>
          refine push_effect k ?_ .go
          rintro new rfl
          apply hledger.linkJob_some (t := .worker i)
          rw [hhand, hpc]
          rfl
      | call job =>
          have hjob := hledger.jobAt_some (t := .worker i) (p := job) (by
            rw [hhand, hpc]
            simp [WorkerPc.hand, Hand.nodes])
          obtain ⟨r, hr⟩ := Option.isSome_iff_exists.1 hjob
          simp [workerCode, Instr.effect, hr]
      | free job =>
          have hfree := hledger.freeNode_some (t := .worker i) (p := job) (by
            rw [hhand, hpc]
            simp [WorkerPc.hand, Hand.nodes]) fun log done =>
              { log with finished := log.finished ++ [done] }
          obtain ⟨r, hr⟩ := Option.isSome_iff_exists.1 hfree
          simp [workerCode, Instr.effect, hr]
      | wait job before k => exact wait_isSome k .go
      | exited => exact absurd (.inl hpc) hwork
      | _ => rfl
  | client c =>
      show ((clientCode (clientAt s c)).effect s.data .go).isSome
      cases hpc : clientAt s c with
      | idle => exact absurd hpc hwork
      | push k =>
          refine push_effect k ?_ .go
          rintro new rfl
          apply hledger.linkJob_some (t := .client c)
          show (clientAt s c).hand.pending = some new
          rw [hpc]
          rfl
      | added id => rfl
      | wait before k => exact wait_isSome k .go
  | owner =>
      show ((ownerCode n (ownerAt s)).effect s.data (ownerAt s).urge).isSome
      cases hpc : ownerAt s with
      | initPool | initQueue | initThreads => rfl
      | spawn k =>
          simp only [ownerCode, Instr.effect, OwnerPc.urge]
          split <;> rfl
      | ready => exact absurd (.inl hpc) hwork
      | failed => exact absurd (.inr (.inl hpc)) hwork
      | destroyed => exact absurd (.inr (.inr hpc)) hwork
      | loop late =>
          cases late with
          | true => rfl
          | false => rfl
      | postAll late k => cases k <;> rfl
      | pull k => exact pull_effect k hledger.takeJob_some .go
      | freeJob job =>
          cases job with
          | none => rfl
          | some job =>
              have hfree := hledger.freeNode_some (t := .owner) (p := job) (by
                show 0 < (ownerAt s).hand.nodes job
                rw [hpc]
                simp [OwnerPc.hand, Hand.nodes]) fun log done =>
                  { log with discarded := log.discarded ++ [done] }
              obtain ⟨r, hr⟩ := Option.isSome_iff_exists.1 hfree
              simp [ownerCode, Instr.effect, hr]
      | freeThread k =>
          simp only [ownerCode, Instr.effect]
          split <;> rfl
      | _ => rfl

/-! ## No thread is stuck -/

/-- The thread can take a step that keeps the promises of the callers. -/
def CanRun (s : PoolState n m) (t : Tid n m) : Prop :=
  ∃ choice wakes, CallsOk s (.run t choice wakes) ∧
    (Threads.step (code n m) s (.run t choice wakes)).isSome

/-- The thread can take such a step towards its end. -/
def CanGoOn (s : PoolState n m) (t : Tid n m) : Prop :=
  ∃ wakes, CallsOk s (.run t (urge t (s.pc t)) wakes) ∧
    (Threads.step (code n m) s (.run t (urge t (s.pc t)) wakes)).isSome

theorem CanGoOn.canRun {t : Tid n m} (h : CanGoOn s t) : CanRun s t := by
  obtain ⟨wakes, hcalls, hs⟩ := h
  exact ⟨urge t (s.pc t), wakes, hcalls, hs⟩

/-- A thread that owns a mutex is at work, and not asleep. -/
theorem PoolInv.owner_works (h : PoolInv s) {t : Tid n m} {mutex : Mutex}
    (hown : s.owner mutex = some t) : ¬ AtRest s t ∧ ∀ c, s.sleep t ≠ .blocked c := by
  obtain ⟨hheld, hinside⟩ := (h.locked.owner mutex t).1 hown
  constructor
  · intro hrest
    cases t with
    | worker i =>
        have hpc : WorkerPc.holds (workerAt s i) mutex = true := hheld
        rcases hrest with hexited | ⟨hunborn, -⟩
        · rw [hexited] at hpc
          cases hpc
        · rw [hunborn] at hpc
          cases hpc
    | client c =>
        have hpc : ClientPc.holds (clientAt s c) mutex = true := hheld
        have hidle : clientAt s c = .idle := hrest
        rw [hidle] at hpc
        cases hpc
    | owner =>
        have hpc : OwnerPc.holds (ownerAt s) mutex = true := hheld
        rcases hrest with hready | hfailed | hdestroyed
        · rw [hready] at hpc
          cases hpc
        · rw [hfailed] at hpc
          cases hpc
        · rw [hdestroyed] at hpc
          cases hpc
  · intro c hblocked
    -- asleep, it would have given up the only mutex it holds
    obtain ⟨c', mutex', next, hi, -⟩ := h.locked.asleep t (by simp [hblocked])
    have hsame := wait_sole hi hheld
    subst hsame
    rcases hinside with hawake | hnot
    · rw [hblocked] at hawake
      cases hawake
    · exact hnot c' next hi

theorem PoolInv.canGoOn (h : PoolInv s) {t : Tid n m} (hwork : ¬ AtRest s t)
    (hawake : ∀ c, s.sleep t ≠ .blocked c) (hnobody : ∀ u, ¬ s.WaitsOn (code n m) t u) :
    CanGoOn s t := by
  obtain ⟨wakes, hs⟩ := h.locked.enabled_by code_respects hawake hnobody (h.has_effect hwork)
  refine ⟨wakes, ?_, hs⟩
  cases t with
  | worker i => trivial
  | client c => exact fun hidle => absurd hidle hwork
  | owner => exact fun hready => absurd (.inl hready) hwork

/-- A thread at work that is not asleep can go on, or waits in the end for one that can. -/
theorem PoolInv.somebody_runs (h : PoolInv s) {t : Tid n m} (hwork : ¬ AtRest s t)
    (hawake : ∀ c, s.sleep t ≠ .blocked c) :
    ∃ u, Relation.ReflTransGen (s.WaitsOn (code n m)) t u ∧ ¬ AtRest s u ∧ CanGoOn s u := by
  by_cases hwaits : ∃ u, s.WaitsOn (code n m) t u
  · obtain ⟨u, hu⟩ := hwaits
    have hbound : ∀ mutex : Mutex, mutex.rank ≤ 2 := by
      intro mutex
      cases mutex <;> simp [Mutex.rank]
    obtain ⟨v, hchain, hlast⟩ := h.locked.exists_head Mutex.rank hbound
      (fun u held mutex hholding hneeds => needs_rank hholding hneeds) hu
    obtain ⟨mutex, hown⟩ := owner_of_waitsOn hchain
    obtain ⟨hvwork, hvawake⟩ := h.owner_works hown
    exact ⟨v, hchain.to_reflTransGen, hvwork, h.canGoOn hvwork hvawake hlast⟩
  · exact ⟨t, .refl, hwork, h.canGoOn hwork hawake fun u hu => hwaits ⟨u, hu⟩⟩

/-- **No thread is stuck.** As long as the pool is not freed, a thread that is inside its code and
not asleep on a condition variable can take its next step, or waits for a mutex, and then the
thread that it waits for in the end can take one. -/
theorem no_thread_stuck (h : PoolReachable s) (t : Tid n m) (hwork : ¬ AtRest s t)
    (hawake : ∀ c, s.sleep t ≠ .blocked c) :
    ∃ u, Relation.ReflTransGen (s.WaitsOn (code n m)) t u ∧ ¬ AtRest s u ∧ CanRun s u := by
  obtain ⟨u, hchain, hu, hcan⟩ := (poolInv_reachable h).somebody_runs hwork hawake
  exact ⟨u, hchain, hu, hcan.canRun⟩

set_option maxRecDepth 20000 in
/-- A client that adds a job waits for the worker that is taking one. -/
theorem no_thread_stuck_run : ∃ s : PoolState 1 1, s.data.pool.freed = false ∧
    s.WaitsOn (code 1 1) (.client 0) (.worker 0) ∧
    ∃ u, Relation.ReflTransGen (s.WaitsOn (code 1 1)) (.client 0) u ∧ ¬ AtRest s u ∧
      CanRun s u := by
  obtain ⟨s, hs, hp⟩ := poolReachable_of_run
    (addOne ++ times (.worker 0) 10 .go ++ times (.client 0) 1 (.addWork (some 9) 1 3))
    (fun s => decide (s.data.pool.freed = false ∧ clientAt s 0 = .push (.lock 9) ∧
      s.owner .rwMutex = some (.worker 0) ∧ s.sleep (.client 0) = .awake)) (by decide)
  obtain ⟨hfreed, hat, hown, hawake⟩ := of_decide_eq_true hp
  have hcode : code 1 1 (.client 0) (s.pc (.client 0)) = clientCode (.push (.lock 9)) := by
    rw [← hat]
    rfl
  refine ⟨s, hfreed, ⟨.rwMutex, hown, .inl ⟨_, hcode⟩⟩, no_thread_stuck hs (.client 0) ?_ ?_⟩
  · intro hidle
    rw [show clientAt s 0 = .idle from hidle] at hat
    cases hat
  · intro c hblocked
    rw [hawake] at hblocked
    cases hblocked

/-! ## A pool that stands still -/

/-- A thread with a duty is at work, and not asleep. -/
theorem works_of_duty (h : PoolInv s) {t : Tid n m} (hduty : duty t (s.pc t) ≠ .none) :
    ¬ AtRest s t ∧ ∀ c, s.sleep t ≠ .blocked c := by
  constructor
  · intro hrest
    cases t with
    | worker i =>
        have hpc : WorkerPc.duty (workerAt s i) ≠ .none := hduty
        rcases hrest with hexited | ⟨hunborn, -⟩
        · rw [hexited] at hpc
          exact hpc rfl
        · rw [hunborn] at hpc
          exact hpc rfl
    | client c =>
        have hpc : ClientPc.duty (clientAt s c) ≠ .none := hduty
        have hidle : clientAt s c = .idle := hrest
        rw [hidle] at hpc
        exact hpc rfl
    | owner =>
        have hpc : OwnerPc.duty (ownerAt s) ≠ .none := hduty
        rcases hrest with hready | hfailed | hdestroyed
        · rw [hready] at hpc
          exact hpc rfl
        · rw [hfailed] at hpc
          exact hpc rfl
        · rw [hdestroyed] at hpc
          exact hpc rfl
  · intro c hblocked
    obtain ⟨c', mutex, next, hi, -⟩ := h.locked.asleep t (by simp [hblocked])
    exact hduty (duty_of_waitsFor (waitsFor_of_wait hi))

theorem wait_of_waitsFor {i : Fin n}
    (h : waitsFor (.worker i : Tid n m) (workerAt s i) = some .allIdle) :
    ∃ job before, workerAt s i = .wait job before .cond := by
  cases hpc : workerAt s i with
  | wait job before k =>
      rw [hpc] at h
      cases k with
      | cond => exact ⟨job, before, rfl⟩
      | _ => cases h
  | _ =>
      rw [hpc] at h
      cases h

/-- **When a pool stands still with work left**, a job sleeps in a `thpool_wait` of its own. -/
theorem standstill_has_waiting_job (hn : 0 < n) (h : PoolReachable s) (hready : ownerAt s = .ready)
    (hstill : ∀ t, ¬ AtRest s t → ¬ CanRun s t) (hlen : 0 < s.data.pool.queue.len) :
    ∃ i job before, workerAt s i = .wait job before .cond ∧
      s.sleep (.worker i) = .blocked .allIdle := by
  have hinv := poolInv_reachable h
  have hserving : (ownerAt s).destroying = false := by rw [hready]; rfl
  have htokens := tokens_reachable hn h hserving
  -- whoever is at work is asleep
  have hsleeps : ∀ t, ¬ AtRest s t → ∃ c, s.sleep t = .blocked c := by
    intro t hwork
    by_contra hawake
    obtain ⟨u, -, huwork, hu⟩ := hinv.somebody_runs hwork fun c hc => hawake ⟨c, hc⟩
    exact hstill u huwork hu.canRun
  have hnone : ∀ t, duty t (s.pc t) = .none := by
    intro t
    by_contra hduty
    obtain ⟨hwork, hawake⟩ := works_of_duty hinv hduty
    obtain ⟨c, hc⟩ := hsleeps t hwork
    exact hawake c hc
  -- so nobody owes a token: it is there, and some worker does not wait for it
  have hone : s.data.pool.v = 1 := by
    rcases htokens.owed hlen with hone | ⟨t, howes⟩
    · exact hone
    · rw [hnone t] at howes
      cases howes
  obtain ⟨i, hi⟩ : ∃ i, s.sleep (.worker i) ≠ .blocked .hasJob := by
    rcases htokens.noticed hone with hawake | ⟨t, hwake⟩
    · exact hawake
    · rw [hnone t] at hwake
      cases hwake
  have hwork : ¬ AtRest s (.worker i) := by
    rintro (hexited | ⟨hunborn, -⟩)
    · exact (poolSteered_reachable h).not_exited hready i hexited
    · have hstarted := hinv.phases.started (by rw [hready]; rfl) i
      rw [hunborn] at hstarted
      cases hstarted
  obtain ⟨c, hc⟩ := hsleeps _ hwork
  cases c with
  | hasJob => exact absurd hc hi
  | allIdle =>
      obtain ⟨c', mutex, next, hw, hsleep⟩ := hinv.locked.asleep (.worker i) (by simp [hc])
      have hwait := waitsFor_of_wait hw
      rw [hc] at hsleep
      rcases hsleep with hsame | hwoken
      · cases hsame
        obtain ⟨job, before, hpc⟩ := wait_of_waitsFor hwait
        exact ⟨i, job, before, hpc, hc⟩
      · cases hwoken

/-- The only worker runs a job that adds another one and then waits for the pool. -/
def addThenWait : List (Action (Tid 1 1) Choice) :=
  addOne ++ times (.worker 0) 13 .go ++ times (.worker 0) 1 (.addWork (some 9) 1 3) ++
    times (.worker 0) 8 .go ++ times (.worker 0) 1 .wait ++ times (.worker 0) 3 .go

/-- A thread that is asleep cannot run. -/
theorem not_canRun_of_blocked (h : PoolInv s) {t : Tid n m} {c : Cond}
    (hblocked : s.sleep t = .blocked c) : ¬ CanRun s t := by
  rintro ⟨choice, wakes, -, hs⟩
  obtain ⟨c', mutex, next, hi, -⟩ := h.locked.asleep t (by simp [hblocked])
  simp [Threads.step, hi, hblocked] at hs

set_option maxRecDepth 20000 in
theorem standstill_has_waiting_job_run : ∃ s : PoolState 1 1, s.data.pool.queue.len = 1 ∧
    ∃ i job before, workerAt s i = .wait job before .cond ∧
      s.sleep (.worker i) = .blocked .allIdle := by
  obtain ⟨s, hs, hp⟩ := poolReachable_of_run addThenWait
    (fun s => s.data.pool.queue.len == 1 && (ownerAt s == .ready &&
      (clientAt s 0 == .idle && s.sleep (.worker 0) == .blocked .allIdle))) (by decide)
  rw [Bool.and_eq_true, Bool.and_eq_true, Bool.and_eq_true, beq_iff_eq, beq_iff_eq, beq_iff_eq,
    beq_iff_eq] at hp
  obtain ⟨hlen, hready, hidle, hblocked⟩ := hp
  have hpos : 0 < s.data.pool.queue.len := by
    rw [hlen]
    exact Nat.one_pos
  refine ⟨s, hlen, standstill_has_waiting_job Nat.one_pos hs hready ?_ hpos⟩
  intro t hwork
  cases t with
  | worker i =>
      have hi : i = 0 := Fin.ext (Nat.lt_one_iff.1 i.isLt)
      subst hi
      exact not_canRun_of_blocked (poolInv_reachable hs) hblocked
  | client c =>
      have hc : c = 0 := Fin.ext (Nat.lt_one_iff.1 c.isLt)
      subst hc
      exact absurd hidle hwork
  | owner => exact absurd (.inl hready) hwork

/-! ## A job that waits for its own pool -/

/-- A call of `thpool_wait` goes on until it returns. -/
theorem wait_goes_on {P : Type} {pt : WaitPc → P} {ret next : P} {d d' : Mem} {choice : Choice}
    {k : WaitPc} (hk : k ≠ .returned)
    (he : (waitCode pt ret k).effect d choice = some (d', next)) :
    d' = d ∧ ∃ k', next = pt k' ∧ WaitStep d k k' := by
  cases k with
  | returned => exact absurd rfl hk
  | readLen =>
      rw [waitCode] at he
      obtain ⟨rfl, ⟨htest, rfl⟩ | ⟨htest, rfl⟩⟩ := branch_effect he
      · exact ⟨rfl, _, rfl, .jobs (by simpa using htest)⟩
      · exact ⟨rfl, _, rfl, .empty (by simpa using htest)⟩
  | readWorking =>
      rw [waitCode] at he
      obtain ⟨rfl, ⟨htest, rfl⟩ | ⟨htest, rfl⟩⟩ := branch_effect he
      · exact ⟨rfl, _, rfl, .busy (by simpa using htest)⟩
      · exact ⟨rfl, _, rfl, .idle (by simpa using htest)⟩
  | lock =>
      cases he
      exact ⟨rfl, _, rfl, .enter⟩
  | cond =>
      cases he
      exact ⟨rfl, _, rfl, .again⟩
  | unlock =>
      cases he
      exact ⟨rfl, _, rfl, .leave⟩

/-- A worker's call of `thpool_wait` has not found the pool idle. -/
def NeverIdle (s : PoolState n m) : Prop :=
  ∀ i job before k, workerAt s i = .wait job before k → k ≠ .unlock ∧ k ≠ .returned

theorem NeverIdle.step {s' : PoolState n m} {a : Action (Tid n m) Choice} (h : NeverIdle s)
    (hinv : PoolInv s) (hs : Threads.step (code n m) s a = some s') : NeverIdle s' := by
  intro i job before k' hw
  rcases step_workerAt hs i with hsame | ⟨choice, he⟩
  · exact h i job before k' (hsame ▸ hw)
  · obtain ⟨-, ⟨-, rfl⟩ | ⟨k, hpc, hstep⟩⟩ := (worker_step he).call job before k' hw
    · exact ⟨by simp, by simp⟩
    · obtain ⟨hunlock, hreturned⟩ := h i job before k hpc
      -- the caller is counted itself
      have hworking : s.data.pool.working ≠ 0 :=
        hinv.phases.working_ne_zero (i := i) (by rw [hpc]; rfl)
      cases hstep with
      | idle hzero => exact absurd hzero hworking
      | leave => exact absurd rfl hunlock
      | enter | jobs _ | empty _ | busy _ | again => exact ⟨by simp, by simp⟩

theorem neverIdle_reachable (h : PoolReachable s) : NeverIdle s := by
  refine Reachable.invariant NeverIdle ?_ ?_ h
  · rintro s rfl i job before k hw
    cases hw
  · rintro s s' hreach hnever hstep
    obtain ⟨a, ha⟩ := hstep.steps
    exact hnever.step (poolInv_reachable hreach) ha

theorem job_wait_stays {s' : PoolState n m} (h : PoolReachable s) {i : Fin n} {job : Ptr}
    {before : List Nat} {k : WaitPc} (hw : workerAt s i = .wait job before k)
    (hrun : Relation.ReflTransGen (StepsIf CallsOk (Threads.step (code n m))) s s') :
    ∃ k', workerAt s' i = .wait job before k' := by
  induction hrun with
  | refl => exact ⟨k, hw⟩
  | @tail b c hab hbc ih =>
      have hb : PoolReachable b := h.trans hab
      obtain ⟨k', hk'⟩ := ih
      obtain ⟨a, ha⟩ := hbc.steps
      rcases step_workerAt ha i with hsame | ⟨choice, he⟩
      · exact ⟨k', by rw [hsame, hk']⟩
      · rw [hk'] at he
        have hidle := neverIdle_reachable hb i job before k' hk'
        obtain ⟨-, k'', hnext, -⟩ := wait_goes_on hidle.2 he
        exact ⟨k'', hnext⟩

/-- The owner does not get past its loops while a job waits. -/
theorem not_final_of_wait (h : PoolReachable s) {i : Fin n} {job : Ptr} {before : List Nat}
    {k : WaitPc} (hw : workerAt s i = .wait job before k) : (ownerAt s).final = false := by
  by_contra hfinal
  have hgone := (poolInv_reachable h).phases.gone (Bool.not_eq_false _ ▸ hfinal) i
  rw [hw] at hgone
  cases hgone

/-- **A job that calls `thpool_wait` on its own pool never returns from the call**, and
`thpool_destroy` never gets past its second loop. -/
theorem job_wait_never_returns {s' : PoolState n m} (h : PoolReachable s) {i : Fin n} {job : Ptr}
    {before : List Nat} {k : WaitPc} (hw : workerAt s i = .wait job before k)
    (hrun : Relation.ReflTransGen (StepsIf CallsOk (Threads.step (code n m))) s s') :
    (∃ k', workerAt s' i = .wait job before k') ∧ (ownerAt s').final = false := by
  have hstays := job_wait_stays h hw hrun
  have hreach : PoolReachable s' := h.trans hrun
  obtain ⟨k', hk'⟩ := hstays
  exact ⟨⟨k', hk'⟩, not_final_of_wait hreach hk'⟩

set_option maxRecDepth 20000 in
theorem job_wait_never_returns_run : ∃ s : PoolState 1 1, ∃ before, ∀ s',
    Relation.ReflTransGen (StepsIf CallsOk (Threads.step (code 1 1))) s s' →
      (∃ k', workerAt s' 0 = .wait 7 before k') ∧ (ownerAt s').final = false := by
  obtain ⟨s, hs, hp⟩ := poolReachable_of_run addThenWait
    (fun s => workerAt s 0 == .wait 7 [0, 1] .cond) (by decide)
  exact ⟨s, [0, 1], fun s' hrun => job_wait_never_returns hs (eq_of_beq hp) hrun⟩

end CPlayground.Thpool
