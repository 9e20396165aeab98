import CPlayground.Thpool.Steered
import CPlayground.Thpool.Teardown

set_option autoImplicit false

/-! # Pausing a pool

`thpool_pause` sends `SIGUSR1` to every worker, `thread_hold` is the handler: it sets
`threads_on_hold` and loops until the flag is cleared, which is all that `thpool_resume` does.
The pool runs as before, but that a worker in the handler takes no step of its own; a signal is
delivered at any time, also between two instructions inside a critical section.

A signal that is delivered after `thpool_resume` sets the flag again, with no pause to follow
(`held_after_resume`). This cannot happen when all signals have been handled by the time
`thpool_resume` is called (`resume_undoes_pause`).
-/

namespace CPlayground.Thpool

open Threads

/-! ## Signals and the handler -/

/-- The points of `thread_hold`: the store to `threads_on_hold`, and the loop. -/
inductive HoldPc
  | set
  | loop
  deriving DecidableEq, Repr

inductive HoldCall
  | pause
  | resume
  deriving DecidableEq, Repr

/-- A pool with one client, which may pause and resume it. `pending` tells for which workers a
`SIGUSR1` is pending, of which there is one at most; `handler` where a worker is in
`thread_hold`, in which the signal is blocked; `pausing` is the `n` of the loop of
`thpool_pause`. `lastCall` is kept for the proofs: the last of these two calls to return. -/
structure HoldState (n : Nat) where
  pool : PoolState n 1
  pending : Fin n → Bool
  handler : Fin n → Option HoldPc
  pausing : Option Nat
  lastCall : Option HoldCall

/-- `pause` and `resume` are calls of the client, `kill` goes round the loop of `thpool_pause`,
`deliver` starts the handler in a worker, `hold` is a step of the handler. -/
inductive HoldAction (n : Nat)
  | pool (a : Action (Tid n 1) Choice)
  | pause
  | kill
  | resume
  | deliver (i : Fin n)
  | hold (i : Fin n)

/-- The flag `threads_on_hold`. -/
def HoldState.onHold {n : Nat} (s : HoldState n) : Bool := s.pool.data.statics.onHold

def PoolState.setOnHold {n m : Nat} (s : PoolState n m) (b : Bool) : PoolState n m :=
  { s with data := { s.data with statics := { s.data.statics with onHold := b } } }

/-- A worker in the handler, and the client inside `thpool_pause`, take no step of the pool. -/
def Unheld {n : Nat} (s : HoldState n) : Action (Tid n 1) Choice → Prop
  | .run (.worker i) _ _ => s.handler i = none
  | .run (.client _) _ _ => s.pausing = none
  | _ => True

instance {n : Nat} (s : HoldState n) : (a : Action (Tid n 1) Choice) → Decidable (Unheld s a)
  | .run (.worker i) _ _ => inferInstanceAs (Decidable (s.handler i = none))
  | .run (.client _) _ _ => inferInstanceAs (Decidable (s.pausing = none))
  | .run .owner _ _ | .spurious _ => .isTrue trivial

/-- The client is between two calls. -/
def BetweenCalls {n : Nat} (s : HoldState n) : Prop :=
  clientAt s.pool 0 = .idle ∧ s.pausing = none

instance {n : Nat} (s : HoldState n) : Decidable (BetweenCalls s) :=
  inferInstanceAs (Decidable (_ ∧ _))

/-- One step. A worker that has returned from `thread_do` gets no signal any more. -/
def stepHold {n : Nat} (s : HoldState n) : HoldAction n → Option (HoldState n)
  | .pool a =>
      if Unheld s a then (step (code n 1) s.pool a).map fun p => { s with pool := p } else none
  | .pause => if BetweenCalls s then some { s with pausing := some 0 } else none
  | .kill =>
      match s.pausing with
      | some k =>
          if k < s.pool.data.pool.alive then
            some { s with pending := fun i => s.pending i || decide (i.val = k)
                          pausing := some (k + 1) }
          else some { s with pausing := none, lastCall := some .pause }
      | none => none
  | .resume =>
      if BetweenCalls s then
        some { s with pool := s.pool.setOnHold false, lastCall := some .resume }
      else none
  | .deliver i =>
      if s.pending i = true ∧ s.handler i = none ∧ workerAt s.pool i ≠ .exited then
        some { s with pending := Function.update s.pending i false
                      handler := Function.update s.handler i (some .set) }
      else none
  | .hold i =>
      match s.handler i with
      | some .set =>
          some { s with pool := s.pool.setOnHold true
                        handler := Function.update s.handler i (some .loop) }
      | some .loop =>
          if s.onHold = true then some s
          else some { s with handler := Function.update s.handler i none }
      | none => none

def initHold (n : Nat) : HoldState n where
  pool := initState n 1
  pending := fun _ => false
  handler := fun _ => none
  pausing := none
  lastCall := none

/-- What the callers promise: they keep to what the pool asks, a pool is paused and resumed only
while it is in service, and it is not destroyed inside `thpool_pause`. -/
def HoldCallsOk {n : Nat} (s : HoldState n) : HoldAction n → Prop
  | .pool (.run .owner choice wakes) =>
      CallsOk s.pool (.run .owner choice wakes) ∧ (ownerAt s.pool = .ready → s.pausing = none)
  | .pool a => CallsOk s.pool a
  | .pause | .resume => ownerAt s.pool = .ready
  | _ => True

instance {n : Nat} (s : HoldState n) : (a : HoldAction n) → Decidable (HoldCallsOk s a)
  | .pool (.run .owner _ _) => inferInstanceAs (Decidable (_ ∧ _))
  | .pool (.run (.worker i) choice wakes) =>
      inferInstanceAs (Decidable (CallsOk s.pool (.run (.worker i) choice wakes)))
  | .pool (.run (.client c) choice wakes) =>
      inferInstanceAs (Decidable (CallsOk s.pool (.run (.client c) choice wakes)))
  | .pool (.spurious _) => .isTrue trivial
  | .pause | .resume => inferInstanceAs (Decidable (ownerAt s.pool = .ready))
  | .kill | .deliver _ | .hold _ => .isTrue trivial

/-- The states of a pool that may be paused, by any order of the threads and the signals. -/
def HoldReachable {n : Nat} (s : HoldState n) : Prop :=
  Reachable (· = initHold n) (StepsIf HoldCallsOk stepHold) s

/-! ## What a step can do -/

section Moves

variable {n : Nat} {s s' : HoldState n} {a : HoldAction n}

/-- What a step can do. -/
inductive HoldMove (s : HoldState n) : HoldAction n → HoldState n → Prop
  | pool {a : Action (Tid n 1) Choice} {p : PoolState n 1} (hfree : Unheld s a)
      (hs : step (code n 1) s.pool a = some p) : HoldMove s (.pool a) { s with pool := p }
  | pause (hb : BetweenCalls s) : HoldMove s .pause { s with pausing := some 0 }
  | kill {k : Nat} (hk : s.pausing = some k) (hlt : k < s.pool.data.pool.alive) :
      HoldMove s .kill { s with pending := fun i => s.pending i || decide (i.val = k)
                                pausing := some (k + 1) }
  | paused {k : Nat} (hk : s.pausing = some k) (hall : ¬ k < s.pool.data.pool.alive) :
      HoldMove s .kill { s with pausing := none, lastCall := some .pause }
  | resume (hb : BetweenCalls s) :
      HoldMove s .resume { s with pool := s.pool.setOnHold false, lastCall := some .resume }
  | deliver {i : Fin n} (hp : s.pending i = true) (hh : s.handler i = none)
      (hin : workerAt s.pool i ≠ .exited) :
      HoldMove s (.deliver i) { s with pending := Function.update s.pending i false
                                       handler := Function.update s.handler i (some .set) }
  | set {i : Fin n} (hh : s.handler i = some .set) :
      HoldMove s (.hold i) { s with pool := s.pool.setOnHold true
                                    handler := Function.update s.handler i (some .loop) }
  | again {i : Fin n} (hh : s.handler i = some .loop) (hon : s.onHold = true) :
      HoldMove s (.hold i) s
  | leave {i : Fin n} (hh : s.handler i = some .loop) (hoff : s.onHold = false) :
      HoldMove s (.hold i) { s with handler := Function.update s.handler i none }

/-- **Inversion of a step.** -/
theorem stepHold_cases (h : stepHold s a = some s') : HoldMove s a s' := by
  cases a with
  | pool a =>
      simp only [stepHold] at h
      split_ifs at h with hfree
      obtain ⟨p, hs, rfl⟩ := Option.map_eq_some_iff.1 h
      exact .pool hfree hs
  | pause =>
      simp only [stepHold] at h
      split_ifs at h with hb
      cases h
      exact .pause hb
  | kill =>
      simp only [stepHold] at h
      split at h
      · rename_i k hk
        split_ifs at h with hlt
        · cases h
          exact .kill hk hlt
        · cases h
          exact .paused hk hlt
      · cases h
  | resume =>
      simp only [stepHold] at h
      split_ifs at h with hb
      cases h
      exact .resume hb
  | deliver i =>
      simp only [stepHold] at h
      split_ifs at h with hd
      cases h
      exact .deliver hd.1 hd.2.1 hd.2.2
  | hold i =>
      simp only [stepHold] at h
      split at h
      · rename_i hh
        cases h
        exact .set hh
      · rename_i hh
        split_ifs at h with hon
        · cases h
          exact .again hh hon
        · cases h
          exact .leave hh (Bool.eq_false_iff.2 hon)
      · cases h

/-! ## The pool underneath -/

theorem Steered.setOnHold {n m : Nat} {s : PoolState n m} (h : Steered s) (b : Bool) :
    Steered (s.setOnHold b) :=
  h.congr rfl rfl rfl rfl (fun _ hset => hset) fun _ _ _ hclear => hclear

theorem HoldCallsOk.pool {a : Action (Tid n 1) Choice} (h : HoldCallsOk s (.pool a)) :
    CallsOk s.pool a := by
  cases a with
  | run t choice wakes =>
      cases t with
      | owner => exact h.1
      | worker i => exact h
      | client c => exact h
  | spurious t => exact trivial

/-- **What holds of a pool holds of one that may be paused.** -/
theorem steered_hold (h : HoldReachable s) : Steered s.pool := by
  refine Reachable.invariant (fun s => Steered s.pool) ?_ ?_ h
  · rintro s rfl
    exact steered_init
  · rintro s s' - hsteered ⟨a, hcalls, ha⟩
    cases stepHold_cases ha with
    | pool hfree hs => exact hsteered.step hcalls.pool hs
    | resume hb => exact hsteered.setOnHold false
    | set hh => exact hsteered.setOnHold true
    | pause _ | kill _ _ | paused _ _ | deliver _ _ _ | again _ _ | leave _ _ => exact hsteered

/-- A worker of a pool in service has not left. -/
theorem Steered.not_exited {n m : Nat} {s : PoolState n m} (h : Steered s)
    (hready : ownerAt s = .ready) (i : Fin n) : workerAt s i ≠ .exited := by
  intro hexited
  have hdestroying := h.staying i (by rw [hexited]; rfl)
  rw [hready] at hdestroying
  cases hdestroying

/-- A step of the pool does not set `threads_on_hold`. -/
theorem step_onHold {n m : Nat} {s s' : PoolState n m} {a : Action (Tid n m) Choice}
    (hs : step (code n m) s a = some s') :
    s'.data.statics.onHold = s.data.statics.onHold ∨ s'.data.statics.onHold = false := by
  rcases step_statics hs with ⟨hsame, -⟩ | ⟨choice, wakes, -, he, -⟩
  · exact .inl (by rw [hsame])
  · exact (owner_frame he).onHold

end Moves

/-! ## Resuming -/

section Resume

variable {n : Nat} {s s' : HoldState n} {a : HoldAction n}

/-- The last call that returned was `thpool_resume`, and no `thpool_pause` has begun since. -/
def Resumed (s : HoldState n) : Prop :=
  s.lastCall = some .resume ∧ s.pausing = none

instance (s : HoldState n) : Decidable (Resumed s) := inferInstanceAs (Decidable (_ ∧ _))

/-- When `thpool_resume` is called, every signal has been delivered and has set the flag. -/
def Settled (s : HoldState n) : HoldAction n → Prop
  | .resume => ∀ i, s.pending i = false ∧ s.handler i ≠ some .set
  | _ => True

instance (s : HoldState n) : (a : HoldAction n) → Decidable (Settled s a)
  | .resume => inferInstanceAs (Decidable (∀ i, s.pending i = false ∧ s.handler i ≠ some .set))
  | .pool _ | .pause | .kill | .deliver _ | .hold _ => .isTrue trivial

/-- Nobody is held, and no signal is on its way to hold anybody. -/
structure Released (s : HoldState n) : Prop where
  flag : s.onHold = false
  quiet : ∀ i, s.pending i = false ∧ s.handler i ≠ some .set

/-- **One step keeps a resumed pool released.** -/
theorem Released.step (h : Resumed s → Released s) (hsettled : Settled s a)
    (hs : stepHold s a = some s') (hresumed : Resumed s') : Released s' := by
  cases stepHold_cases hs with
  | pool hfree hstep =>
      obtain ⟨hflag, hquiet⟩ := h hresumed
      refine ⟨?_, hquiet⟩
      -- `thread_hold` is the one place where the flag is set
      rcases step_onHold hstep with hsame | hclear
      · exact hsame.trans hflag
      · exact hclear
  | pause hb => cases hresumed.2
  | kill hk hlt => cases hresumed.2
  | paused hk hall => cases hresumed.1
  -- `thpool_resume` clears the flag, and the signals have been handled
  | resume hb => exact ⟨rfl, hsettled⟩
  | @deliver i hp hh hin =>
      -- there is no signal to deliver, and no handler about to set the flag
      have hnone := ((h hresumed).quiet i).1
      exact absurd (hnone.symm.trans hp) Bool.false_ne_true
  | @set i hh => exact absurd hh ((h hresumed).quiet i).2
  | again hh hon => exact h hresumed
  | @leave i hh hoff =>
      obtain ⟨hflag, hquiet⟩ := h hresumed
      refine ⟨hflag, fun j => ⟨(hquiet j).1, ?_⟩⟩
      show Function.update s.handler i none j ≠ some .set
      by_cases hj : j = i
      · subst hj
        rw [Function.update_self]
        exact fun hnone => by cases hnone
      · rw [Function.update_of_ne hj]
        exact (hquiet j).2

/-- Reached by a run that settles before it resumes. -/
def SettledReachable (s : HoldState n) : Prop :=
  Reachable (· = initHold n) (StepsIf (fun s a => HoldCallsOk s a ∧ Settled s a) stepHold) s

theorem released_reachable (h : SettledReachable s) : Resumed s → Released s := by
  refine Reachable.invariant (fun s => Resumed s → Released s) ?_ ?_ h
  · rintro s rfl ⟨hcall, -⟩
    cases hcall
  · rintro s s' - hreleased ⟨a, hok, ha⟩ hresumed
    exact Released.step hreleased hok.2 ha hresumed

/-- A released worker leaves `thread_hold` at its next test. -/
theorem Released.leaves (h : Released s) {i : Fin n} (hheld : s.handler i ≠ none) :
    stepHold s (.hold i) = some { s with handler := Function.update s.handler i none } := by
  -- the handler is past its store, and the flag is clear
  have hset := (h.quiet i).2
  cases hh : s.handler i with
  | none => exact absurd hh hheld
  | some k =>
      cases k with
      | set => exact absurd hh hset
      | loop => simp [stepHold, hh, h.flag]

/-- Signals are delivered and the handler runs; nobody calls anything. -/
def SignalsOnly (_ : HoldState n) : HoldAction n → Prop
  | .deliver _ | .hold _ => True
  | _ => False

/-- A worker is held by a signal of an earlier pause. -/
def HeldAfterResume (s : HoldState n) : Prop :=
  Resumed s ∧ s.onHold = true ∧ ∃ i, s.handler i = some .loop

/-- A handler that has begun sets the flag. -/
theorem held_of_set {i : Fin n} (hresumed : Resumed s) (hh : s.handler i = some .set) :
    ∃ s', Relation.ReflTransGen (StepsIf SignalsOnly stepHold) s s' ∧ HeldAfterResume s' := by
  refine ⟨{ s with pool := s.pool.setOnHold true
                   handler := Function.update s.handler i (some .loop) }, .single ?_,
    hresumed, rfl, i, Function.update_self ..⟩
  exact ⟨.hold i, trivial, by simp [stepHold, hh]⟩

/-- A signal that is pending is delivered. -/
theorem held_of_pending {i : Fin n} (hresumed : Resumed s) (hp : s.pending i = true)
    (hh : s.handler i = none) (hin : workerAt s.pool i ≠ .exited) :
    ∃ s', Relation.ReflTransGen (StepsIf SignalsOnly stepHold) s s' ∧ HeldAfterResume s' := by
  have hdeliver : StepsIf SignalsOnly stepHold s
      { s with pending := Function.update s.pending i false
               handler := Function.update s.handler i (some .set) } :=
    ⟨.deliver i, trivial, by simp [stepHold, hp, hh, hin]⟩
  obtain ⟨s', hrun, hheld⟩ := held_of_set (i := i)
    (s := { s with pending := Function.update s.pending i false
                   handler := Function.update s.handler i (some .set) })
    hresumed (Function.update_self ..)
  exact ⟨s', .head hdeliver hrun, hheld⟩

/-- **A signal that is late holds its worker**, with no call to follow. -/
theorem held_of_unsettled (h : HoldReachable s) (hready : ownerAt s.pool = .ready)
    (hunsettled : ¬ Settled s .resume) (hs : stepHold s .resume = some s') :
    ∃ s'', Relation.ReflTransGen (StepsIf SignalsOnly stepHold) s' s'' ∧ HeldAfterResume s'' := by
  -- the pool is in service, so every worker is there to take its signal
  have hin := (steered_hold h).not_exited hready
  cases stepHold_cases hs with
  | resume hb =>
      have hresumed : Resumed { s with pool := s.pool.setOnHold false
                                       lastCall := some .resume } := ⟨rfl, hb.2⟩
      simp only [Settled, not_forall, not_and_or, not_not] at hunsettled
      obtain ⟨i, hlate⟩ := hunsettled
      cases hh : s.handler i with
      | none =>
          rcases hlate with hp | hset
          · exact held_of_pending hresumed (Bool.eq_true_of_not_eq_false hp) hh (hin i)
          · rw [hh] at hset
            cases hset
      | some k =>
          cases k with
          | set => exact held_of_set hresumed hh
          | loop =>
              rcases hlate with hp | hset
              · -- the handler that is running leaves first
                have hleave : StepsIf SignalsOnly stepHold
                    { s with pool := s.pool.setOnHold false, lastCall := some .resume }
                    { s with pool := s.pool.setOnHold false, lastCall := some .resume
                             handler := Function.update s.handler i none } :=
                  ⟨.hold i, trivial, by simp [stepHold, hh, HoldState.onHold, PoolState.setOnHold]⟩
                obtain ⟨s'', hrun, hheld⟩ := held_of_pending (i := i)
                  (s := { s with pool := s.pool.setOnHold false, lastCall := some .resume
                                 handler := Function.update s.handler i none })
                  hresumed (Bool.eq_true_of_not_eq_false hp) (Function.update_self ..) (hin i)
                exact ⟨s'', .head hleave hrun, hheld⟩
              · rw [hh] at hset
                cases hset

/-- **Resume undoes pause** in the runs in which every signal has been handled when
`thpool_resume` is called: in every state reached after it with no pause since, the flag is
clear and every worker in `thread_hold` leaves at its next test. And these runs are all: a call
of `thpool_resume` that comes before a signal can be followed by a worker that is held. -/
theorem resume_undoes_pause :
    (∀ s : HoldState n, SettledReachable s → Resumed s → s.onHold = false ∧
      ∀ i, s.handler i ≠ none →
        stepHold s (.hold i) = some { s with handler := Function.update s.handler i none }) ∧
    ∀ s s' : HoldState n, HoldReachable s → HoldCallsOk s .resume →
      stepHold s .resume = some s' → ¬ Settled s .resume →
      ∃ s'', Relation.ReflTransGen (StepsIf SignalsOnly stepHold) s' s'' ∧
        HeldAfterResume s'' := by
  constructor
  · intro s h hresumed
    have hreleased := released_reachable h hresumed
    exact ⟨hreleased.flag, fun i hheld => hreleased.leaves hheld⟩
  · intro s s' h hready hs hunsettled
    exact held_of_unsettled h hready hunsettled hs

end Resume

/-- A pool with one worker is paused: the signal is pending. -/
def pauseOne : List (HoldAction 1) :=
  (startUp 1 1).map .pool ++ [.pause, .kill, .kill]

set_option maxRecDepth 20000 in
/-- The signal is handled before `thpool_resume`, and the worker leaves. -/
theorem resume_undoes_pause_run : ∃ s : HoldState 1, s.handler 0 = some .loop ∧
    s.onHold = false ∧
    stepHold s (.hold 0) = some { s with handler := Function.update s.handler 0 none } := by
  obtain ⟨s, hs, hp⟩ : ∃ s : HoldState 1, SettledReachable s ∧
      decide (Resumed s ∧ s.handler 0 = some .loop) = true :=
    reachable_guarded (pauseOne ++ [.deliver 0, .hold 0, .resume]) _ (by decide)
  obtain ⟨hresumed, hheld⟩ := of_decide_eq_true hp
  obtain ⟨hflag, hleave⟩ := resume_undoes_pause.1 s hs hresumed
  exact ⟨s, hheld, hflag, hleave 0 (by rw [hheld]; exact fun h => by cases h)⟩

set_option maxRecDepth 20000 in
/-- **A worker held after `thpool_resume`**: its signal is delivered late. -/
theorem held_after_resume : ∃ s : HoldState 1, HoldReachable s ∧ Resumed s ∧ s.onHold = true ∧
    s.handler 0 = some .loop := by
  obtain ⟨s, hs, hp⟩ : ∃ s : HoldState 1, HoldReachable s ∧
      decide (Resumed s ∧ s.onHold = true ∧ s.handler 0 = some .loop) = true :=
    reachable_guarded (pauseOne ++ [.resume, .deliver 0, .hold 0]) _ (by decide)
  exact ⟨s, hs, of_decide_eq_true hp⟩

end CPlayground.Thpool
