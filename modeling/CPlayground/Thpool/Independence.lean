import CPlayground.Thpool.Drain

set_option autoImplicit false

/-! # Several pools

Pools share nothing but the file-level flags `threads_keepalive` and `threads_on_hold`: the
program of several pools is the program of each over its own data and the one pair of flags
(`World`). What a pool's own steps keep is kept by the steps of the others, but for what the
flag says. `thpool_destroy` of one pool clears the flag of all, and `thpool_init` of one sets it
for all; `Apart` is the condition under which this harms no other pool. Then a pool in service is
in a state that it could have reached alone (`alone_reachable`), so what holds of one pool holds
of each. Without the condition a pool can lose its workers while it is in service
(`workers_lost`).
-/

namespace CPlayground.Thpool

open Threads

/-! ## One pool and the flag -/

section Pool

variable {n m : Nat} {s s' : PoolState n m}

/-- A worker finds the flag cleared: it leaves the loop, or drops the token it has taken. -/
def Leaves (pc next : WorkerPc) : Prop :=
  pc = .loop ∧ next = .exitLock ∨ pc = .aliveTest ∧ next = .loop

/-- The two tests of the flag. -/
theorem test_step {i : Fin n} {choice : Choice} {wakes : Tid n m → Bool}
    (hs : step (code n m) s (.run (.worker i) choice wakes) = some s')
    (hpc : workerAt s i = .loop ∨ workerAt s i = .aliveTest) :
    Leaves (workerAt s i) (workerAt s' i) ↔ s.data.statics.keepalive = false := by
  rcases hpc with hpc | hpc
  · rw [step_act (code_worker hpc)] at hs
    cases hs
    cases hflag : s.data.statics.keepalive <;> simp [Leaves, workerAt, hpc, hflag]
  · rw [step_act (code_worker hpc)] at hs
    cases hs
    cases hflag : s.data.statics.keepalive <;> simp [Leaves, workerAt, hpc, hflag]

end Pool

/-! ## A pool that starts -/

section Early

variable {n m : Nat} {s s' : PoolState n m}

/-- Before `thpool_init` creates a thread nobody owns a mutex, and nobody is asleep. -/
theorem PoolInv.blank (h : PoolInv s) (hearly : (ownerAt s).early = true) :
    s.owner = (fun _ => none) ∧ s.sleep = fun _ => .awake := by
  obtain ⟨hworkers, hclients, -⟩ := h.phases.early hearly
  have hnothing : ∀ t, (∀ mutex, holds t (s.pc t) mutex = false) ∧ waitsFor t (s.pc t) = none := by
    intro t
    cases t with
    | worker i =>
        rw [show s.pc (.worker i) = WorkerPc.unborn from hworkers i]
        exact ⟨fun mutex => rfl, rfl⟩
    | client c =>
        rw [show s.pc (.client c) = ClientPc.idle from hclients c]
        exact ⟨fun mutex => rfl, rfl⟩
    | owner =>
        refine ⟨fun mutex => ?_, rfl⟩
        show (ownerAt s).holds mutex = false
        revert hearly
        cases ownerAt s <;> simp [OwnerPc.holds]
  constructor
  · funext mutex
    refine Option.eq_none_iff_forall_ne_some.2 fun t ht => ?_
    have hheld := ((h.locked.owner mutex t).1 ht).1
    rw [(hnothing t).1 mutex] at hheld
    cases hheld
  · funext t
    refine h.locked.awake_of fun c mutex next hi => ?_
    have hwait := waitsFor_of_wait hi
    rw [(hnothing t).2] at hwait
    cases hwait

/-- Two pools in which no thread has been created yet differ in the flags at most. -/
theorem PoolInv.eq_of_early (h : PoolInv s) (h' : PoolInv s') (hearly : (ownerAt s).early = true)
    (howner : ownerAt s' = ownerAt s) (hstatics : s'.data.statics = s.data.statics) : s' = s := by
  have hearly' : (ownerAt s').early = true := by rwa [howner]
  obtain ⟨hworkers, hclients, hpool⟩ := h.phases.early hearly
  obtain ⟨hworkers', hclients', hpool'⟩ := h'.phases.early hearly'
  have hpc : s'.pc = s.pc := by
    funext t
    cases t with
    | worker i => exact (hworkers' i).trans (hworkers i).symm
    | client c => exact (hclients' c).trans (hclients c).symm
    | owner => exact howner
  have hdata : s'.data = s.data := congrArg₂ Mem.mk hstatics (hpool'.trans hpool.symm)
  obtain ⟨hmutexes, hsleep⟩ := h.blank hearly
  obtain ⟨hmutexes', hsleep'⟩ := h'.blank hearly'
  cases s
  cases s'
  simp_all

/-- A pool that is alone comes to allocate the pool. -/
theorem exists_initPool : ∃ s : PoolState n m, PoolReachable s ∧ ownerAt s = .initPool ∧
    s.data.statics = { keepalive := true, onHold := false } := by
  have hinit : PoolReachable (initState n m) := Reachable.start rfl
  have hstep : ∀ {s s' : PoolState n m}, PoolReachable s → ownerAt s ≠ .ready →
      step (code n m) s (.run .owner .go fun _ => true) = some s' → PoolReachable s' :=
    fun h hbefore hs => h.next ⟨.run .owner .go fun _ => true,
      fun hready => absurd hready hbefore, hs⟩
  have hhold := hstep hinit (fun hready => by cases hready) rfl
  exact ⟨_, hstep hhold (fun hready => by cases hready) rfl, rfl, rfl⟩

end Early

/-! ## The world -/

/-- Any number of pools, each with its own threads, and the flags they share. -/
structure World (ι : Type) (n m : ι → Nat) where
  statics : Statics
  pools : (b : ι) → PoolState (n b) (m b)

variable {ι : Type} {n m : ι → Nat}

/-- A pool as its threads see it: its own data, and the flags of all. -/
def World.view (w : World ι n m) (b : ι) : PoolState (n b) (m b) :=
  { w.pools b with data := { statics := w.statics, pool := (w.pools b).data.pool } }

/-- A step of a thread of one pool. -/
def worldStep [DecidableEq ι] (w : World ι n m) (a : (b : ι) × Action (Tid (n b) (m b)) Choice) :
    Option (World ι n m) :=
  (step (code (n a.1) (m a.1)) (w.view a.1) a.2).map fun s =>
    { statics := s.data.statics, pools := Function.update w.pools a.1 s }

def initWorld (ι : Type) (n m : ι → Nat) : World ι n m where
  statics := { keepalive := false, onHold := false }
  pools b := initState (n b) (m b)

/-- The callers keep their promises to each pool. -/
def WorldCallsOk (w : World ι n m) (a : (b : ι) × Action (Tid (n b) (m b)) Choice) : Prop :=
  CallsOk (w.view a.1) a.2

instance (w : World ι n m) (a : (b : ι) × Action (Tid (n b) (m b)) Choice) :
    Decidable (WorldCallsOk w a) :=
  inferInstanceAs (Decidable (CallsOk (w.view a.1) a.2))

/-- The states that the runs of all the pools reach. -/
def WorldReachable [DecidableEq ι] (w : World ι n m) : Prop :=
  Reachable (· = initWorld ι n m) (StepsIf WorldCallsOk worldStep) w

/-! ## The condition -/

section Worlds

variable [DecidableEq ι] {w w' : World ι n m} {b b' : ι} {a : Action (Tid (n b) (m b)) Choice}

/-- `thpool_destroy` clears the flag when no other pool is in service, and `thpool_init` sets it
when no other pool has cleared it and still has a worker that may test it. -/
def Apart (w : World ι n m) : (b : ι) × Action (Tid (n b) (m b)) Choice → Prop
  | ⟨b, .run .owner _ _⟩ =>
      (ownerAt (w.view b) = .clear → ∀ b', b' ≠ b → (ownerAt (w.view b')).inService = false) ∧
      (ownerAt (w.view b) = .initKeepalive → ∀ b', b' ≠ b →
        (ownerAt (w.view b')).cleared = true → ∀ i, (workerAt (w.view b') i).leaving = true)
  | _ => True

instance [Fintype ι] (w : World ι n m) :
    (a : (b : ι) × Action (Tid (n b) (m b)) Choice) → Decidable (Apart w a)
  | ⟨_, .run .owner _ _⟩ => inferInstanceAs (Decidable (_ ∧ _))
  | ⟨_, .run (.worker _) _ _⟩ | ⟨_, .run (.client _) _ _⟩ | ⟨_, .spurious _⟩ => .isTrue trivial

/-- The states that are reached when every step meets the condition. -/
def ApartReachable (w : World ι n m) : Prop :=
  Reachable (· = initWorld ι n m) (StepsIf (fun w a => WorldCallsOk w a ∧ Apart w a) worldStep) w

/-! ## What a step does to each pool -/

/-- A step of a thread of `b` is a step of the pool `b`. -/
theorem worldStep_own (hs : worldStep w ⟨b, a⟩ = some w') :
    step (code (n b) (m b)) (w.view b) a = some (w'.view b) := by
  obtain ⟨s, hstep, rfl⟩ := Option.map_eq_some_iff.1 hs
  have hview : ({ statics := s.data.statics, pools := Function.update w.pools b s } :
      World ι n m).view b = s := by
    simp [World.view]
  rw [hview]
  exact hstep

/-- It leaves the other pools as they are, but for the flags. -/
theorem worldStep_other (hs : worldStep w ⟨b, a⟩ = some w') (hb : b' ≠ b) :
    w'.pools b' = w.pools b' := by
  obtain ⟨s, -, rfl⟩ := Option.map_eq_some_iff.1 hs
  exact Function.update_of_ne hb ..

/-- **A step that meets the condition keeps every pool steered.** -/
theorem steered_step (h : ∀ b, Steered (w.view b)) (hcalls : WorldCallsOk w ⟨b, a⟩)
    (hapart : Apart w ⟨b, a⟩) (hs : worldStep w ⟨b, a⟩ = some w') (b' : ι) :
    Steered (w'.view b') := by
  have hown := worldStep_own hs
  by_cases hb : b' = b
  · subst hb
    exact (h b').step hcalls hown
  -- the other pools see the flags change at most, and the condition says when
  · have hpool := worldStep_other hs hb
    have hframe : (w'.view b').data.pool = (w.view b').data.pool ∧
        (w'.view b').owner = (w.view b').owner ∧ (w'.view b').pc = (w.view b').pc ∧
        (w'.view b').sleep = (w.view b').sleep := by
      simp [World.view, hpool]
    obtain ⟨hd, ho, hp, hsl⟩ := hframe
    apply (h b').congr hd ho hp hsl
    · intro hin hflag
      rcases step_statics hown with ⟨hstat, -⟩ | ⟨choice, wakes, rfl, he, -⟩
      · exact (congrArg Statics.keepalive hstat).trans hflag
      · rcases (owner_step he).flag with hsame | ⟨-, htrue⟩ | ⟨hclear, -⟩
        · exact hsame.trans hflag
        · exact htrue
        · rw [hapart.1 hclear b' hb] at hin
          cases hin
    · intro hcl i hi hflag
      rcases step_statics hown with ⟨hstat, -⟩ | ⟨choice, wakes, rfl, he, -⟩
      · exact (congrArg Statics.keepalive hstat).trans hflag
      · rcases (owner_step he).flag with hsame | ⟨hinit, -⟩ | ⟨-, hfalse⟩
        · exact hsame.trans hflag
        · rw [hapart.2 hinit b' hb hcl i] at hi
          cases hi
        · exact hfalse

theorem steered_reachable (h : ApartReachable w) : ∀ b, Steered (w.view b) := by
  refine Reachable.invariant (fun w => ∀ b, Steered (w.view b)) ?_ ?_ h
  · rintro w rfl b
    exact steered_init
  · rintro w w' - hw ⟨⟨b, a⟩, ⟨hcalls, hapart⟩, hs⟩
    exact steered_step hw hcalls hapart hs

/-! ## As if alone -/

/-- `threads_on_hold` is clear, and a pool in service is in a state that it can reach alone. -/
structure Alone (w : World ι n m) : Prop where
  off : w.statics.onHold = false
  serving : ∀ b, (ownerAt (w.view b)).inService = true → PoolReachable (w.view b)

theorem Alone.step (h : Alone w) (hw : ∀ b, Steered (w.view b)) (hw' : ∀ b, Steered (w'.view b))
    (hcalls : WorldCallsOk w ⟨b, a⟩) (hapart : Apart w ⟨b, a⟩)
    (hs : worldStep w ⟨b, a⟩ = some w') : Alone w' := by
  have hown := worldStep_own hs
  have hoff : w'.statics.onHold = false := by
    rcases step_onHold hown with hsame | hclear
    · exact hsame.trans h.off
    · exact hclear
  refine ⟨hoff, fun b' hin => ?_⟩
  by_cases hb : b' = b
  · subst hb
    have hnext : (ownerAt (w.view b')).inService = true → PoolReachable (w'.view b') :=
      fun hbefore => (h.serving b' hbefore).next ⟨a, hcalls, hown⟩
    rcases step_statics hown with ⟨-, howner⟩ | ⟨choice, wakes, rfl, he, -⟩
    · exact hnext (howner ▸ hin)
    · rcases (owner_step he).inService hin with ⟨hbefore, -⟩ | ⟨hstarts, hset⟩
      · exact hnext hbefore
      -- `thpool_init` has just set the flag, and the pool is as it was at first
      · obtain ⟨s, hr, hat, hflags⟩ := exists_initPool (n := n b') (m := m b')
        have hstatics : (w'.view b').data.statics = s.data.statics :=
          (congrArg₂ Statics.mk hset hoff).trans hflags.symm
        rw [(poolInv_reachable hr).eq_of_early (hw' b').inv (by rw [hat]; rfl)
          (hstarts.trans hat.symm) hstatics]
        exact hr
  · have hpool := worldStep_other hs hb
    have hbefore : (ownerAt (w.view b')).inService = true := by
      rw [World.view, hpool] at hin
      exact hin
    -- the flag is set already, and the condition says that nobody clears it
    have hflag : w'.statics.keepalive = w.statics.keepalive := by
      rcases step_statics hown with ⟨hstat, -⟩ | ⟨choice, wakes, rfl, he, -⟩
      · exact congrArg Statics.keepalive hstat
      · rcases (owner_step he).flag with hsame | ⟨-, htrue⟩ | ⟨hclear, -⟩
        · exact hsame
        · exact htrue.trans ((hw b').alive hbefore).symm
        · rw [hapart.1 hclear b' hb] at hbefore
          cases hbefore
    have hview : w'.view b' = w.view b' := by
      have hstatics : w'.statics = w.statics :=
        congrArg₂ Statics.mk hflag (hoff.trans h.off.symm)
      rw [World.view, World.view, hpool, hstatics]
    rw [hview]
    exact h.serving b' hbefore

/-- **A pool in service is as it would be alone**, as long as the pools keep apart. -/
theorem alone_reachable (h : ApartReachable w) : Alone w := by
  refine Reachable.invariant Alone ?_ ?_ h
  · rintro w rfl
    exact ⟨rfl, fun b hin => by cases hin⟩
  · rintro w w' hr halone ⟨⟨b, a⟩, hok, hs⟩
    exact halone.step (steered_reachable hr) (steered_reachable (hr.next ⟨⟨b, a⟩, hok, hs⟩)) hok.1
      hok.2 hs

/-- A step of the pool `b`, which the condition allows. -/
def OwnStep (b : ι) (w : World ι n m) (a : (b : ι) × Action (Tid (n b) (m b)) Choice) : Prop :=
  a.1 = b ∧ WorldCallsOk w a ∧ Apart w a

/-- What a pool can do alone, without new calls, it can do among the others. -/
theorem own_run {s : PoolState (n b) (m b)} (hrun : Relation.ReflTransGen QuietSteps (w.view b) s) :
    ∃ w', Relation.ReflTransGen (StepsIf (OwnStep b) worldStep) w w' ∧ w'.view b = s := by
  induction hrun with
  | refl => exact ⟨w, .refl, rfl⟩
  | @tail s₁ s₂ _ hstep ih =>
      obtain ⟨a, ⟨hcalls, hquiet⟩, hs⟩ := hstep
      obtain ⟨w₁, hrun₁, rfl⟩ := ih
      have hapart : Apart w₁ ⟨b, a⟩ := by
        obtain ⟨t, wakes, rfl, ht⟩ := hquiet.eq_run
        cases t with
        | owner => exact absurd rfl ht
        | worker i | client c => trivial
      have hworld : worldStep w₁ ⟨b, a⟩ = some
          { statics := s₂.data.statics, pools := Function.update w₁.pools b s₂ } := by
        rw [worldStep, hs]
        rfl
      refine ⟨_, hrun₁.tail ⟨⟨b, a⟩, ⟨rfl, hcalls, hapart⟩, hworld⟩, ?_⟩
      have hview := worldStep_own hworld
      exact Option.some.inj (hview.symm.trans hs)

/-! ## The result -/

/-- What independence asks in a state of the world: a worker leaves its loop, or drops a token,
only when its own pool is being destroyed; once its own pool has cleared the flag, it leaves at
its next test; a pool that is not being destroyed strands no job; and a pool in service, none of
whose jobs waits for it, can finish all that it has accepted. -/
structure Independent (w : World ι n m) : Prop where
  leaves : ∀ b i choice wakes w', worldStep w ⟨b, .run (.worker i) choice wakes⟩ = some w' →
    Leaves (workerAt (w.view b) i) (workerAt (w'.view b) i) →
    (ownerAt (w.view b)).destroying = true
  exits : ∀ b i choice wakes w', worldStep w ⟨b, .run (.worker i) choice wakes⟩ = some w' →
    (ownerAt (w.view b)).cleared = true →
    workerAt (w.view b) i = .loop ∨ workerAt (w.view b) i = .aliveTest →
    Leaves (workerAt (w.view b) i) (workerAt (w'.view b) i)
  pulled : ∀ b, 0 < n b → (ownerAt (w.view b)).destroying = false →
    (∀ t, inQueue t ((w.view b).pc t) = false) → 0 < (w.view b).data.pool.queue.len →
    ((w.view b).data.pool.v = 1 ∨ ∃ i, (workerAt (w.view b) i).hasToken = true) ∧
      (∃ i, (w.view b).sleep (.worker i) ≠ .blocked .hasJob) ∧
      ∀ i, (workerAt (w.view b) i).leaving = false
  finished : ∀ b, 0 < n b → ownerAt (w.view b) = .ready →
    (∀ i job before k, workerAt (w.view b) i ≠ .wait job before k) →
    ∃ w', Relation.ReflTransGen (StepsIf (OwnStep b) worldStep) w w' ∧
      ∀ job ∈ (w.view b).data.pool.log.accepted, job ∈ (w'.view b).data.pool.log.finished

/-- **Pools are independent, as long as they keep apart.** In a run in which the flag is cleared
only when no other pool is in service, and set only when no other pool has cleared it and still
has a worker that may test it, no pool is harmed by another. -/
theorem pools_independent (h : ApartReachable w) : Independent w := by
  have hw := steered_reachable h
  constructor
  · intro b i choice wakes w' hs hleaves
    have hpc : workerAt (w.view b) i = .loop ∨ workerAt (w.view b) i = .aliveTest :=
      hleaves.imp And.left And.left
    have hflag := (test_step (worldStep_own hs) hpc).1 hleaves
    -- it is at a test, so it has been created
    have hborn : workerAt (w.view b) i ≠ .unborn := by
      rcases hpc with hpc | hpc <;> simp [hpc]
    by_contra hserving
    rw [(hw b).flag_set (Bool.eq_false_iff.2 hserving) hborn] at hflag
    cases hflag
  · intro b i choice wakes w' hs hcl hpc
    apply (test_step (worldStep_own hs) hpc).2
    exact (hw b).cleared hcl i (by rcases hpc with hpc | hpc <;> rw [hpc] <;> rfl)
  · intro b hn hserving hquiet hlen
    obtain ⟨htoken, hawake⟩ :=
      ((hw b).tokens hn hserving).not_stranded (hw b).inv hserving hquiet hlen
    refine ⟨htoken, hawake, fun i => ?_⟩
    -- only a pool that is being destroyed lets a worker go
    by_contra hleaving
    rw [(hw b).staying i (Bool.not_eq_false _ ▸ hleaving)] at hserving
    cases hserving
  · intro b hn hready hnoWait
    have hr : PoolReachable (w.view b) := (alone_reachable h).serving b (by rw [hready]; rfl)
    obtain ⟨s, hrun, hstays, hall⟩ := Draining.drains hn ⟨hr, hready, hnoWait⟩
    obtain ⟨w', hrun', rfl⟩ := own_run hrun
    exact ⟨w', hrun', fun job hjob => hall job (hstays job hjob)⟩

end Worlds

/-! ## Two pools side by side -/

abbrev TwoPools := World Bool (fun _ => 1) (fun _ => 1)

/-- The actions of one of two pools. -/
def inPool (b : Bool) (as : List (Action (Tid 1 1) Choice)) :
    List ((_ : Bool) × Action (Tid 1 1) Choice) :=
  as.map fun a => ⟨b, a⟩

/-- One pool is destroyed while the other is in service, and a job is added to the other. -/
def destroyOneOfTwo : List ((_ : Bool) × Action (Tid 1 1) Choice) :=
  inPool false (startUp 1 1) ++ inPool true (startUp 1 1) ++
    inPool false (times .owner 1 .destroy ++ times .owner 2 .go) ++
    inPool true (times (.worker 0) 4 .go ++
      times (.client 0) 1 (.addWork (some 7) 1 2) ++ times (.client 0) 8 .go)

/-- The second pool is in service and has lost its worker, with a job in the queue. -/
def Lost (w : TwoPools) : Prop :=
  ownerAt (w.view true) = .ready ∧ workerAt (w.view true) 0 = .exited ∧
    clientAt (w.view true) 0 = .idle ∧ (w.view true).data.pool.queue.len = 1

instance (w : TwoPools) : Decidable (Lost w) := inferInstanceAs (Decidable (_ ∧ _))

set_option maxRecDepth 20000 in
/-- **A pool in service loses its workers.** The only worker of the second pool has left its
loop, though that pool is not being destroyed, and the job that is then added stays queued. -/
theorem workers_lost : ∃ w : TwoPools, WorldReachable w ∧ Lost w := by
  obtain ⟨w, hw, hp⟩ : ∃ w : TwoPools, WorldReachable w ∧ decide (Lost w) = true :=
    reachable_guarded destroyOneOfTwo (fun w => decide (Lost w)) (by decide)
  exact ⟨w, hw, decide_eq_true_iff.1 hp⟩

/-- The second pool is created after the workers of the first have left. -/
def oneAfterTheOther : List ((_ : Bool) × Action (Tid 1 1) Choice) :=
  inPool false (startUp 1 1 ++ times .owner 1 .destroy ++ times .owner 2 .go ++
      times (.worker 0) 4 .go) ++
    inPool true (startUp 1 1 ++ times (.client 0) 1 (.addWork (some 7) 1 2) ++
      times (.client 0) 8 .go)

/-- The second pool is in service and has a job, which its worker may take, and the first has
cleared the flag. -/
def Served (w : TwoPools) : Prop :=
  (ownerAt (w.view false)).cleared = true ∧ ownerAt (w.view true) = .ready ∧
    (w.view true).data.pool.queue.len = 1 ∧ workerAt (w.view true) 0 = .loop

instance (w : TwoPools) : Decidable (Served w) := inferInstanceAs (Decidable (_ ∧ _))

set_option maxRecDepth 20000 in
theorem pools_independent_run : ∃ w : TwoPools, Served w ∧ Independent w := by
  obtain ⟨w, hw, hp⟩ : ∃ w : TwoPools, ApartReachable w ∧ decide (Served w) = true :=
    reachable_guarded oneAfterTheOther (fun w => decide (Served w)) (by decide)
  exact ⟨w, decide_eq_true_iff.1 hp, pools_independent hw⟩

end CPlayground.Thpool
