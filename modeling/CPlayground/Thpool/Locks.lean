import CPlayground.Thpool.Model

set_option autoImplicit false

/-! # Mutual exclusion in the pool

Which mutexes each program point holds, and that the program takes and gives them up
accordingly (`code_respects`). From here on no proof looks at an owner field: a thread inside a
section excludes the others by `Locked.exclusive`.
-/

namespace CPlayground.Thpool

open Threads

/-! ## The annotation -/

/-- Inside `bsem_post` the mutex of the semaphore is held. -/
def PostPc.holds : PostPc → Mutex → Bool
  | .set, .bsemMutex | .signal, .bsemMutex | .unlock, .bsemMutex => true
  | _, _ => false

def PushPc.holds : PushPc → Mutex → Bool
  | .lock _, _ => false
  | .link _, m | .unlock _, m => m == .rwMutex
  | .post _ k, m => m == .rwMutex || k.holds m

def PullPc.holds : PullPc → Mutex → Bool
  | .lock, _ => false
  | .take, m | .unlock _, m => m == .rwMutex
  | .post _ k, m => m == .rwMutex || k.holds m

def WaitPc.holds : WaitPc → Mutex → Bool
  | .readLen, m | .readWorking, m | .cond, m | .unlock, m => m == .thcountLock
  | _, _ => false

def WorkerPc.holds : WorkerPc → Mutex → Bool
  | .startInc, m | .startUnlock, m | .workInc, m | .workUnlock, m | .doneDec, m | .doneTest, m
  | .doneSignal, m | .doneUnlock, m | .exitDec, m | .exitUnlock, m => m == .thcountLock
  | .semTest, m | .semCond, m | .semTake, m | .semUnlock, m => m == .bsemMutex
  | .pull k, m => k.holds m
  | .push _ k, m => k.holds m
  | .wait _ _ k, m => k.holds m
  | _, _ => false

def ClientPc.holds : ClientPc → Mutex → Bool
  | .push k, m => k.holds m
  | .wait _ k, m => k.holds m
  | _, _ => false

def OwnerPc.holds : OwnerPc → Mutex → Bool
  | .postAll _ k, m => k.holds m
  | .pull k, m => k.holds m
  | _, _ => false

def holds {n m : Nat} : (t : Tid n m) → Pc t → Mutex → Bool
  | .worker _, pc => WorkerPc.holds pc
  | .client _, pc => ClientPc.holds pc
  | .owner, pc => OwnerPc.holds pc

/-! ## The program respects it -/

section Procedures

variable {P : Type} {h : P → Mutex → Bool}

theorem assign_respects {f : Pool → Pool} {p next : P} (he : ∀ m, h next m = h p m) :
    (assign f next).Respects h p := by
  rintro d ch d' p' hf m
  cases hf
  exact he m

theorem branch_respects {test : Mem → Bool} {p yes no : P} (hyes : ∀ m, h yes m = h p m)
    (hno : ∀ m, h no m = h p m) : (branch test yes no).Respects h p := by
  rintro d ch d' p' hf m
  cases hf
  cases test d
  · exact hno m
  · exact hyes m

theorem postWith_respects {wakeUp : P → PoolInstr P} {pt : PostPc → P} {ret : P}
    {b : Mutex → Bool} (hb : b .bsemMutex = false)
    (hpt : ∀ k m, h (pt k) m = (b m || k.holds m)) (hret : ∀ m, h ret m = b m)
    (hwake : (wakeUp (pt .unlock)).Respects h (pt .signal)) (k : PostPc) :
    (postWith wakeUp pt ret k).Respects h (pt k) := by
  cases k with
  | lock =>
      refine ⟨by rw [hpt, hb]; rfl, fun m => ?_⟩
      rw [hpt, hpt]
      cases m <;> simp [PostPc.holds]
  | set =>
      rw [postWith]
      apply assign_respects
      intro m
      rw [hpt, hpt]
      cases m <;> simp [PostPc.holds]
  | signal => exact hwake
  | unlock =>
      refine ⟨by rw [hpt, hb]; rfl, fun m => ?_⟩
      rw [hret, hpt]
      cases m <;> simp [PostPc.holds, hb]

theorem bsemPost_respects {pt : PostPc → P} {ret : P} {b : Mutex → Bool}
    (hb : b .bsemMutex = false) (hpt : ∀ k m, h (pt k) m = (b m || k.holds m))
    (hret : ∀ m, h ret m = b m) (k : PostPc) : (bsemPost pt ret k).Respects h (pt k) := by
  apply postWith_respects hb hpt hret
  intro m
  rw [hpt, hpt]
  cases m <;> simp [PostPc.holds]

theorem bsemPostAll_respects {pt : PostPc → P} {ret : P} {b : Mutex → Bool}
    (hb : b .bsemMutex = false) (hpt : ∀ k m, h (pt k) m = (b m || k.holds m))
    (hret : ∀ m, h ret m = b m) (k : PostPc) : (bsemPostAll pt ret k).Respects h (pt k) := by
  apply postWith_respects hb hpt hret
  intro m
  rw [hpt, hpt]
  cases m <;> simp [PostPc.holds]

theorem jobqueuePush_respects {pt : PushPc → P} {ret : Nat → P}
    (hpt : ∀ k m, h (pt k) m = k.holds m) (hret : ∀ id m, h (ret id) m = false) (k : PushPc) :
    (jobqueuePush pt ret k).Respects h (pt k) := by
  cases k with
  | lock job =>
      refine ⟨by rw [hpt]; rfl, fun m => ?_⟩
      rw [hpt, hpt]
      cases m <;> rfl
  | link job =>
      intro d ch d' p' hf m
      obtain ⟨r, -, he⟩ := Option.map_eq_some_iff.1 hf
      cases he
      rw [hpt, hpt]
      cases m <;> rfl
  | post id k =>
      -- `bsem_post` is called with `rw_mutex` held
      have hbase : ∀ m, (PushPc.unlock id).holds m = (m == .rwMutex) := fun _ => rfl
      exact bsemPost_respects (b := fun m => m == .rwMutex) rfl (fun k m => hpt (.post id k) m)
        (fun m => (hpt (.unlock id) m).trans (hbase m)) k
  | unlock id =>
      refine ⟨by rw [hpt]; rfl, fun m => ?_⟩
      rw [hret, hpt]
      cases m <;> rfl

theorem jobqueuePull_respects {pt : PullPc → P} {ret : Option Ptr → P}
    (hpt : ∀ k m, h (pt k) m = k.holds m) (hret : ∀ job m, h (ret job) m = false) (k : PullPc) :
    (jobqueuePull pt ret k).Respects h (pt k) := by
  cases k with
  | lock =>
      refine ⟨by rw [hpt]; rfl, fun m => ?_⟩
      rw [hpt, hpt]
      cases m <;> rfl
  | take =>
      intro d ch d' p' hf m
      obtain ⟨⟨pool, k⟩, htake, he⟩ := Option.map_eq_some_iff.1 hf
      cases he
      rw [hpt, hpt]
      obtain ⟨job, queue, -, -, ⟨p, -, rfl⟩ | ⟨-, rfl⟩⟩ := takeJob_cases htake <;> cases m <;> rfl
  | post job k =>
      have hbase : ∀ m, (PullPc.unlock (some job)).holds m = (m == .rwMutex) := fun _ => rfl
      exact bsemPost_respects (b := fun m => m == .rwMutex) rfl (fun k m => hpt (.post job k) m)
        (fun m => (hpt (.unlock (some job)) m).trans (hbase m)) k
  | unlock job =>
      refine ⟨by rw [hpt]; rfl, fun m => ?_⟩
      rw [hret, hpt]
      cases m <;> rfl

theorem waitCode_respects {pt : WaitPc → P} {ret : P} (hpt : ∀ k m, h (pt k) m = k.holds m)
    (hret : ∀ m, h ret m = false) (k : WaitPc) : (waitCode pt ret k).Respects h (pt k) := by
  cases k with
  | lock =>
      refine ⟨by rw [hpt]; rfl, fun m => ?_⟩
      rw [hpt, hpt]
      cases m <;> rfl
  | readLen | readWorking =>
      rw [waitCode]
      apply branch_respects
      · intro m
        rw [hpt, hpt]
        rfl
      · intro m
        rw [hpt, hpt]
        rfl
  | cond =>
      refine ⟨by rw [hpt]; rfl, fun m => ?_⟩
      rw [hpt, hpt]
      rfl
  | unlock =>
      refine ⟨by rw [hpt]; rfl, fun m => ?_⟩
      rw [hpt, hpt]
      cases m <;> rfl
  | returned =>
      intro d ch d' p' hf m
      cases hf
      rw [hret, hpt]
      rfl

theorem addWork_respects {parent : Option Nat} {pt : PushPc → P} {fail p next : P} {mem mem' : Mem}
    {choice : Choice} (hpt : ∀ job m, h (pt (.lock job)) m = h p m)
    (hfail : ∀ m, h fail m = h p m)
    (hf : addWork parent pt fail mem choice = some (mem', next)) (m : Mutex) :
    h next m = h p m := by
  cases choice with
  | addWork job function args =>
      cases job with
      | none =>
          cases hf
          exact hfail m
      | some job =>
          simp only [addWork] at hf
          split_ifs at hf
          cases hf
          exact hpt job m
  | _ => cases hf

end Procedures

theorem workerCode_respects (i : Nat) (pc : WorkerPc) :
    (workerCode i pc).Respects WorkerPc.holds pc := by
  cases pc with
  | pull k =>
      rw [workerCode]
      refine jobqueuePull_respects ?_ ?_ k
      · exact fun k m => rfl
      · intro job m
        cases job <;> rfl
  | push job k =>
      rw [workerCode]
      refine jobqueuePush_respects ?_ ?_ k
      · exact fun k m => rfl
      · exact fun id m => rfl
  | wait job before k =>
      rw [workerCode]
      refine waitCode_respects ?_ ?_ k
      · exact fun k m => rfl
      · exact fun m => rfl
  | run job =>
      intro d ch d' p' hf m
      cases ch with
      | go | wait =>
          cases hf
          rfl
      | _ => exact addWork_respects (fun job m => rfl) (fun m => rfl) hf m
  | unborn =>
      intro d ch d' p' hf m
      simp only [Option.ite_none_right_eq_some] at hf
      cases hf.2
      rfl
  | call job =>
      intro d ch d' p' hf m
      obtain ⟨r, -, he⟩ := Option.map_eq_some_iff.1 hf
      cases he
      rfl
  | free job =>
      intro d ch d' p' hf m
      obtain ⟨r, -, he⟩ := Option.map_eq_some_iff.1 hf
      cases he
      rfl
  | loop | semTest | aliveTest | doneTest => exact branch_respects (fun m => rfl) (fun m => rfl)
  | startInc | semTake | workInc | added job id | doneDec | exitDec =>
      rw [workerCode]
      exact assign_respects (fun m => rfl)
  | exited => exact trivial
  | semCond => exact ⟨rfl, fun m => rfl⟩
  | doneSignal => exact fun m => rfl
  | _ => exact ⟨rfl, fun m => by cases m <;> rfl⟩

theorem clientCode_respects (pc : ClientPc) : (clientCode pc).Respects ClientPc.holds pc := by
  cases pc with
  | idle =>
      intro d ch d' p' hf m
      cases ch with
      | wait =>
          cases hf
          rfl
      | _ => exact addWork_respects (fun job m => rfl) (fun m => rfl) hf m
  | push k =>
      rw [clientCode]
      refine jobqueuePush_respects ?_ ?_ k
      · exact fun k m => rfl
      · exact fun id m => rfl
  | added id =>
      rw [clientCode]
      exact assign_respects (fun m => rfl)
  | wait before k =>
      rw [clientCode]
      refine waitCode_respects ?_ ?_ k
      · exact fun k m => rfl
      · exact fun m => rfl

theorem alloc_respects {P : Type} {h : P → Mutex → Bool} {f : Pool → Pool} {p next fail : P}
    (hnext : ∀ m, h next m = h p m) (hfail : ∀ m, h fail m = h p m) :
    (alloc f next fail).Respects h p := by
  intro d ch d' p' hf m
  cases ch with
  | alloc ok =>
      cases ok <;> cases hf
      · exact hfail m
      · exact hnext m
  | _ => cases hf

theorem ownerCode_respects (n : Nat) (pc : OwnerPc) :
    (ownerCode n pc).Respects OwnerPc.holds pc := by
  cases pc with
  | pull k =>
      rw [ownerCode]
      refine jobqueuePull_respects ?_ ?_ k
      · exact fun k m => rfl
      · exact fun job m => rfl
  | postAll late k =>
      rw [ownerCode]
      refine bsemPostAll_respects (b := fun _ => false) rfl ?_ ?_ k
      · exact fun k m => rfl
      · exact fun m => rfl
  | initPool | initQueue | initThreads =>
      rw [ownerCode]
      exact alloc_respects (fun m => rfl) (fun m => rfl)
  | total | reset | freeSem | freePool =>
      rw [ownerCode]
      exact assign_respects (fun m => rfl)
  | spin | emptyTest => exact branch_respects (fun m => rfl) (fun m => rfl)
  | spawn k =>
      intro d ch d' p' hf m
      by_cases hk : k < n
      · cases ch with
        | threadInit outcome =>
            simp only [if_pos hk] at hf
            cases hf
            rfl
        | _ => simp [if_pos hk] at hf
      · simp only [if_neg hk] at hf
        cases hf
        rfl
  | loop late =>
      cases late with
      | true => exact branch_respects (fun m => rfl) (fun m => rfl)
      | false =>
          intro d ch d' p' hf m
          cases ch with
          | clock timeUp =>
              cases hf
              cases timeUp || d.pool.alive == 0 <;> rfl
          | _ => cases hf
  | freeJob job =>
      cases job with
      | none =>
          intro d ch d' p' hf m
          cases hf
          rfl
      | some job =>
          intro d ch d' p' hf m
          obtain ⟨r, -, he⟩ := Option.map_eq_some_iff.1 hf
          cases he
          rfl
  | ready =>
      intro d ch d' p' hf m
      simp only [Option.ite_none_right_eq_some] at hf
      cases hf.2
      rfl
  | freeThread k =>
      intro d ch d' p' hf m
      by_cases hk : k < d.pool.total
      · simp only [if_pos hk] at hf
        cases hf
        rfl
      · simp only [if_neg hk] at hf
        cases hf
        rfl
  | initHold | initKeepalive | clear =>
      intro d ch d' p' hf m
      cases hf
      rfl
  | failed | destroyed => exact trivial

theorem code_respects {n m : Nat} (t : Tid n m) (pc : Pc t) :
    (code n m t pc).Respects (holds t) pc :=
  match t with
  | .worker i => workerCode_respects i pc
  | .client _ => clientCode_respects pc
  | .owner => ownerCode_respects n pc

/-! ## Where the program waits -/

section Waits

variable {P : Type} {c : Cond} {mutex : Mutex} {next : P}

theorem post_not_wait {wakeUp : P → PoolInstr P} {pt : PostPc → P} {ret : P}
    (hwake : ∀ p, wakeUp p ≠ .wait c mutex next) (k : PostPc) :
    postWith wakeUp pt ret k ≠ .wait c mutex next := by
  cases k with
  | signal => exact hwake _
  | _ => exact fun h => by cases h

theorem push_not_wait {pt : PushPc → P} {ret : Nat → P} (k : PushPc) :
    jobqueuePush pt ret k ≠ .wait c mutex next := by
  cases k with
  | post id k =>
      rw [jobqueuePush, bsemPost]
      exact post_not_wait (fun p h => by cases h) k
  | _ => exact fun h => by cases h

theorem pull_not_wait {pt : PullPc → P} {ret : Option Ptr → P} (k : PullPc) :
    jobqueuePull pt ret k ≠ .wait c mutex next := by
  cases k with
  | post job k =>
      rw [jobqueuePull, bsemPost]
      exact post_not_wait (fun p h => by cases h) k
  | _ => exact fun h => by cases h

end Waits

section Threads

variable {n m : Nat} {t : Tid n m} {pc : Pc t} {c : Cond} {mutex : Mutex}

/-- Where the program waits. -/
def waitsFor {n m : Nat} : (t : Tid n m) → Pc t → Option Cond
  | .worker _, pc =>
      match pc with
      | .semCond => some .hasJob
      | .wait _ _ .cond => some .allIdle
      | _ => none
  | .client _, pc =>
      match pc with
      | .wait _ .cond => some .allIdle
      | _ => none
  | .owner, _ => none

theorem waitsFor_of_wait {next : Pc t} (h : code n m t pc = .wait c mutex next) :
    waitsFor t pc = some c := by
  cases t with
  | worker i =>
      cases pc with
      | pull k => exact absurd h (pull_not_wait k)
      | push job k => exact absurd h (push_not_wait k)
      | semCond =>
          cases h
          rfl
      | wait job before k =>
          cases k with
          | cond =>
              cases h
              rfl
          | _ => cases h
      | _ => cases h
  | client b =>
      cases pc with
      | push k => exact absurd h (push_not_wait k)
      | wait before k =>
          cases k with
          | cond =>
              cases h
              rfl
          | _ => cases h
      | _ => cases h
  | owner =>
      cases pc with
      | pull k => exact absurd h (pull_not_wait k)
      | postAll late k => exact absurd h (post_not_wait (fun p hc => by cases hc) k)
      | loop late => cases late <;> cases h
      | freeJob job => cases job <;> cases h
      | _ => cases h

theorem semCond_of_waitsFor {i : Fin n} {pc : WorkerPc}
    (h : waitsFor (.worker i : Tid n m) pc = some .hasJob) : pc = .semCond := by
  cases pc with
  | semCond => rfl
  | wait job before k => cases k <;> cases h
  | _ => cases h

/-- Only a worker waits for a job. -/
theorem worker_of_waitsFor (h : waitsFor t pc = some .hasJob) : ∃ i, t = .worker i := by
  cases t with
  | worker i => exact ⟨i, rfl⟩
  | client b =>
      cases pc with
      | wait before k => cases k <;> cases h
      | _ => cases h
  | owner => cases h

/-- A thread that holds a mutex outside a wait. -/
theorem holding_of_not_wait {s : PoolState n m} (hh : holds t (s.pc t) mutex = true)
    (hw : ∀ c, waitsFor t (s.pc t) ≠ some c) : s.Holding (code n m) holds t mutex :=
  ⟨hh, .inr fun _ _ he => hw _ (waitsFor_of_wait he)⟩

end Threads

end CPlayground.Thpool
