import CPlayground.SignalTimer.Handlers

set_option autoImplicit false

/-! # The end of the loop

`main` leaves its loop by the test only when all three signals have been received. It can always
come to that, whatever has happened so far, if all timers were started.
-/

namespace CPlayground.SignalTimer

/-! ## Leaving the loop -/

/-- `main` calls `getitimer`. -/
@[simp] def MainPc.asks : MainPc → Bool
  | .getTimer _ => true
  | _ => false

/-- The step is no call of `getitimer` that fails. -/
def GetitimerOk (p : Process) (a : Action) : Prop :=
  ¬ (p.pc.asks = true ∧ p.frames = [] ∧ a = .run false)

instance (p : Process) (a : Action) : Decidable (GetitimerOk p a) :=
  inferInstanceAs (Decidable (¬ _))

/-- `main` is past its loop. -/
@[simp] def MainPc.pastLoop : MainPc → Bool
  | .closeLogger | .returned => true
  | _ => false

section Ending

variable {p p' : Process} {a : Action} {f : Frame} {rest : List Frame}

theorem ProcessMove.loopIsDone (h : ProcessMove p p') (hdone : p.loopIsDone = true) :
    p'.loopIsDone = true := by
  cases h with
  | handler hframes hmove =>
      cases hmove with
      | done hpc => rfl
      | _ => exact hdone
  | _ => exact hdone

/-- After `setup_timer` no timer is started any more. -/
theorem ProcessMove.started (h : ProcessMove p p') (harm : p.pc.toArm = []) :
    p'.pc.toArm = [] ∧ p'.started = p.started := by
  cases h with
  | handler hframes hmove =>
      obtain ⟨hpc, -, hstarted⟩ := hmove.keeps
      exact ⟨hpc ▸ harm, hstarted⟩
  | install hpc | arm hpc => simp [hpc] at harm
  | kill hpending hnot => exact ⟨rfl, rfl⟩
  | main halive hinstall hsuffix =>
      rw [harm] at hsuffix
      exact ⟨List.suffix_nil.1 hsuffix, rfl⟩
  | _ => exact ⟨harm, rfl⟩

/-- Without a `getitimer` that fails, `main` leaves the loop by its test. -/
theorem stepProcess_pastLoop (h : stepProcess p a = some p') (hok : GetitimerOk p a)
    (hpast : p'.pc.pastLoop = true) : p.pc.pastLoop = true ∨ p.loopIsDone = true := by
  unfold stepProcess at h
  obtain ⟨-, h⟩ := Option.ite_none_left_eq_some.1 h
  cases a with
  | expire t =>
      obtain ⟨-, h⟩ := Option.ite_none_right_eq_some.1 h
      cases h
      exact .inl hpast
  | deliver sig =>
      obtain ⟨-, h⟩ := Option.ite_none_right_eq_some.1 h
      cases hinst : p.installed sig with
      | true =>
          rw [if_pos hinst] at h
          cases h
          exact .inl hpast
      | false =>
          rw [if_neg (by rw [hinst]; exact Bool.false_ne_true)] at h
          cases h
          cases hpast
  | run ok =>
      cases hframes : p.frames with
      | cons f rest =>
          rw [hframes] at h
          cases h
          rw [(handlerStep_move p f rest ok).keeps.1] at hpast
          exact .inl hpast
      | nil =>
          rw [hframes] at h
          unfold mainStep at h
          cases hpc : p.pc with
          | loopTest =>
              rw [hpc] at h
              cases h
              cases hdone : p.loopIsDone with
              | true => exact .inr rfl
              | false => simp [hdone] at hpast
          | getTimer left =>
              have htrue : ok = true := by
                cases ok with
                | true => rfl
                | false => exact absurd ⟨by rw [hpc]; rfl, hframes, rfl⟩ hok
              subst htrue
              rw [hpc] at h
              cases left <;> cases h <;> cases hpast
          | install left =>
              rw [hpc] at h
              cases left <;> cases h <;> cases hpast
          | arm left =>
              rw [hpc] at h
              cases left <;> cases ok <;> cases h <;> cases hpast
          | rest | killed | returned =>
              rw [hpc] at h
              cases h <;> cases hpast
          | closeLogger => exact .inl rfl

/-- The instructions that a handler still has before it. -/
def HandlerPc.work : HandlerPc → Nat
  | .stop => 7
  | .receive => 6
  | .check unread => unread.length + 2
  | .leave => 1

/-- The steps until a signal has been handled; one that has not been received takes a step to be
raised and one to be delivered. -/
def Life.work (l : Life) : Nat :=
  match l.handler with
  | some pc => pc.work
  | none => if l.received then 0 else if l.pending then 8 else 9

/-- The steps from a point of `main` to the end, when the loop is done. -/
def MainPc.work : MainPc → Nat
  | .getTimer left => left.length + 4
  | .arm _ | .rest => 3
  | .loopTest => 2
  | .closeLogger => 1
  | _ => 0

def work (p : Process) : Nat :=
  (life p .alrm).work + (life p .vtalrm).work + (life p .prof).work + p.pc.work

theorem work_lt (sig : Sig) (hpc : p'.pc = p.pc)
    (hothers : ∀ sig', sig ≠ sig' → life p' sig' = life p sig')
    (hlt : (life p' sig).work < (life p sig).work) : work p' < work p := by
  unfold work
  rw [hpc]
  cases sig with
  | alrm =>
      rw [hothers .vtalrm (by decide), hothers .prof (by decide)]
      omega
  | vtalrm =>
      rw [hothers .alrm (by decide), hothers .prof (by decide)]
      omega
  | prof =>
      rw [hothers .alrm (by decide), hothers .vtalrm (by decide)]
      omega

/-- A handler that takes a step comes nearer to its end. -/
theorem HandlerMove.work_lt (hinv : Inv p) (hframes : p.frames = f :: rest)
    (h : HandlerMove p f rest p') : work p' < work p := by
  have htop := handlerIn_top hframes
  have hset : ∀ pc, handlerIn (⟨f.sig, pc⟩ :: rest) f.sig = some pc := fun pc => if_pos rfl
  refine SignalTimer.work_lt f.sig h.keeps.1 (fun sig hsig => h.life_others hframes hsig) ?_
  cases h with
  | stopped hpc | notStopped hpc | receive hpc | seen hpc hset' | missing hpc hunset | done hpc =>
      rw [hpc] at htop
      simp [SignalTimer.life, Life.work, htop, hset, HandlerPc.work, checkReceivedSignal]
  | leave hpc =>
      rw [hpc] at htop
      have hreceived : p.received f.sig = true := (hinv.life f.sig).handled (.inl htop)
      simp [SignalTimer.life, Life.work, htop, handlerIn_rest hframes hinv.nodup, HandlerPc.work,
        hreceived]

/-- The timers have been started, and `main` has not come to its end. -/
structure Polling (p : Process) : Prop where
  inv : Inv p
  setUp : p.pc.toArm = []
  started : ∀ t, p.started t = true

theorem Polling.next (h : Polling p) (hs : stepProcess p a = some p') : Polling p' := by
  have hmove := stepProcess_move hs
  obtain ⟨hsetUp, hstarted⟩ := hmove.started h.setUp
  exact ⟨h.inv.step hmove, hsetUp, hstarted ▸ h.started⟩

theorem stepProcess_expire (hnot : p.pc.ended = false) (t : Timer) :
    stepProcess p (.expire t) = expire p t :=
  if_neg (by rw [hnot]; exact Bool.false_ne_true)

theorem stepProcess_deliver (hnot : p.pc.ended = false) (sig : Sig) :
    stepProcess p (.deliver sig) = deliver p sig :=
  if_neg (by rw [hnot]; exact Bool.false_ne_true)

theorem stepProcess_handler (hnot : p.pc.ended = false) (hframes : p.frames = f :: rest)
    (ok : Bool) : stepProcess p (.run ok) = some (handlerStep p f rest ok) := by
  unfold stepProcess
  rw [if_neg (by rw [hnot]; exact Bool.false_ne_true), hframes]

theorem stepProcess_main (hnot : p.pc.ended = false) (hframes : p.frames = []) (ok : Bool) :
    stepProcess p (.run ok) = mainStep p ok := by
  unfold stepProcess
  rw [if_neg (by rw [hnot]; exact Bool.false_ne_true), hframes]

/-- Some step that is no failing `getitimer` lowers the measure. -/
def Lowers (p : Process) : Prop := ∃ p', StepsIf GetitimerOk stepProcess p p' ∧ work p' < work p

/-- A signal that has not been received can be delivered, or be raised. -/
theorem Polling.signal_lowers (h : Polling p) (hnot : p.pc.ended = false) (hframes : p.frames = [])
    {sig : Sig} (hunset : p.received sig = false) : Lowers p := by
  have hnone : handlerIn p.frames sig = none := by
    rw [hframes]
    rfl
  have hinstalled := h.inv.setUp.installed_of_started (h.started sig.timer)
  cases hpending : p.pending sig with
  | true =>
      have hfree : ∀ f ∈ p.frames, f.sig ≠ sig := by simp [hframes]
      refine ⟨_, ⟨.deliver sig, by simp [GetitimerOk], (stepProcess_deliver hnot sig).trans
        ((if_pos ⟨hpending, hfree⟩).trans (if_pos hinstalled))⟩, ?_⟩
      refine work_lt sig rfl ?_ ?_
      · intro sig' hsig
        simp [life, handlerIn, hsig, Ne.symm hsig]
      · simp [life, Life.work, handlerIn, hnone, hunset, hpending, HandlerPc.work]
  | false =>
      have harmed : p.armed sig.timer = true := by
        have hcoming := (h.inv.life sig).coming (h.started sig.timer)
        simpa [life, hpending, hnone, hunset] using hcoming
      refine ⟨_, ⟨.expire sig.timer, by simp [GetitimerOk],
        (stepProcess_expire hnot sig.timer).trans (if_pos harmed)⟩, ?_⟩
      refine work_lt sig rfl ?_ ?_
      · intro sig' hsig
        have hne : sig' ≠ sig.timer.signal := by
          rw [sig.signal_timer]
          exact Ne.symm hsig
        simp [life, hne]
      · simp [life, Life.work, hnone, hunset, hpending, sig.signal_timer]

/-- When all signals have been received, `main` comes nearer to its end. -/
theorem Polling.main_lowers (h : Polling p) (hnot : p.pc.ended = false) (hframes : p.frames = [])
    (hall : ∀ sig, p.received sig = true) : Lowers p := by
  have hdone := (h.inv.done_iff hframes).2 hall
  have hstep := stepProcess_main hnot hframes true
  have hok : GetitimerOk p (.run true) := by simp [GetitimerOk]
  suffices hmain : ∃ p', mainStep p true = some p' ∧ work p' < work p by
    obtain ⟨p', hp', hlt⟩ := hmain
    exact ⟨p', ⟨.run true, hok, hstep.trans hp'⟩, hlt⟩
  have hsetUp := h.setUp
  unfold mainStep
  cases hpc : p.pc with
  | install left => simp [hpc] at hsetUp
  | returned | killed => simp [hpc] at hnot
  | arm left =>
      rw [hpc] at hsetUp
      cases hsetUp
      exact ⟨_, rfl, by simp [work, life, MainPc.work, hpc]⟩
  | getTimer left =>
      cases left with
      | nil => exact ⟨_, rfl, by simp [work, life, MainPc.work, hpc]⟩
      | cons t left => exact ⟨_, rfl, by simp [work, life, MainPc.work, hpc]⟩
  | loopTest => exact ⟨_, rfl, by simp [work, life, MainPc.work, hpc, hdone]⟩
  | rest | closeLogger => exact ⟨_, rfl, by simp [work, life, MainPc.work, hpc]⟩

/-- **Short of the end some step lowers the measure.** -/
theorem Polling.lowers (h : Polling p) (hnot : p.pc ≠ .returned) : Lowers p := by
  have hended : p.pc.ended = false := by
    cases hpc : p.pc with
    | returned => exact absurd hpc hnot
    | killed => exact absurd hpc h.inv.setUp.alive
    | _ => rfl
  cases hframes : p.frames with
  | cons f rest =>
      have hmove := handlerStep_move p f rest true
      refine ⟨_, ⟨.run true, ?_, stepProcess_handler hended hframes true⟩,
        hmove.work_lt h.inv hframes⟩
      simp [GetitimerOk]
  | nil =>
      by_cases hall : ∀ sig, p.received sig = true
      · exact h.main_lowers hended hframes hall
      · obtain ⟨sig, hunset⟩ := not_forall.1 hall
        exact h.signal_lowers hended hframes (by simpa using hunset)

theorem leaves_reachable (h : Reachable (· = startProcess) (StepsIf GetitimerOk stepProcess) p) :
    p.pc.pastLoop = true → p.loopIsDone = true := by
  refine Reachable.invariant (fun p => p.pc.pastLoop = true → p.loopIsDone = true) ?_ ?_ h
  · rintro p rfl
    nofun
  · rintro p p' - hold ⟨a, hok, hs⟩ hpast
    rcases stepProcess_pastLoop hs hok hpast with hbefore | hdone
    · exact (stepProcess_move hs).loopIsDone (hold hbefore)
    · exact (stepProcess_move hs).loopIsDone hdone

theorem started_run (hsetUp : p.pc.toArm = [])
    (hrun : Relation.ReflTransGen (StepsIf GetitimerOk stepProcess) p p') :
    p'.pc.toArm = [] ∧ p'.started = p.started := by
  induction hrun with
  | refl => exact ⟨hsetUp, rfl⟩
  | tail _ hstep ih =>
      obtain ⟨a, -, hs⟩ := hstep
      obtain ⟨harm, hstarted⟩ := (stepProcess_move hs).started ih.1
      exact ⟨harm, hstarted.trans ih.2⟩

/-- **`main` can return if and only if every timer was started.** In runs in which `getitimer`
does not fail, and from every state after `setup_timer`, whatever signals have come and wherever
they have interrupted the process. -/
theorem can_return_iff (h : Reachable (· = startProcess) (StepsIf GetitimerOk stepProcess) p)
    (hsetUp : p.pc.toArm = []) :
    (∃ p', Relation.ReflTransGen (StepsIf GetitimerOk stepProcess) p p' ∧ p'.pc = .returned) ↔
      ∀ t, p.started t = true := by
  have hinv : Inv p := inv_reachable (h.mono fun _ _ hs => hs.steps)
  constructor
  · rintro ⟨p', hrun, hreturned⟩ t
    have h' : Reachable (· = startProcess) (StepsIf GetitimerOk stepProcess) p' := h.trans hrun
    have hinv' : Inv p' := inv_reachable (h'.mono fun _ _ hs => hs.steps)
    have hdone := leaves_reachable h' (by rw [hreturned]; rfl)
    -- the loop was left by its test, so the signal of each timer has come
    have hreceived := hinv'.done hdone t.signal
    have hstarted := (hinv'.life t.signal).origin (.inr (.inr (.inr hreceived)))
    rw [← (started_run hsetUp hrun).2, ← t.timer_signal]
    exact hstarted
  · intro hall
    obtain ⟨p', hrun, -, hreturned⟩ := leads_to Polling (fun p => p.pc = .returned) work
      (fun p hp hnot => by
        obtain ⟨p', hs, hlt⟩ := hp.lowers hnot
        exact ⟨p', hs, hp.next hs.choose_spec.2, hlt⟩) ⟨hinv, hsetUp, hall⟩
    exact ⟨p', hrun, hreturned⟩

theorem can_return_iff_run : ∃ p, p.pc = .loopTest ∧
    ∃ p', Relation.ReflTransGen (StepsIf GetitimerOk stepProcess) p p' ∧ p'.pc = .returned := by
  obtain ⟨p, hs, hp⟩ := @reachable_guarded Process Action GetitimerOk _ stepProcess
    startProcess (List.replicate 8 (.run true))
    (fun p => p.pc == .loopTest && p.started .real && p.started .virtual && p.started .prof)
    (by decide +kernel)
  simp only [Bool.and_eq_true, beq_iff_eq] at hp
  obtain ⟨⟨⟨hpc, hreal⟩, hvirtual⟩, hprof⟩ := hp
  refine ⟨p, hpc, (can_return_iff hs (by rw [hpc]; rfl)).2 ?_⟩
  intro t
  cases t with
  | real => exact hreal
  | virtual => exact hvirtual
  | prof => exact hprof

end Ending

end CPlayground.SignalTimer
