import CPlayground.SignalTimer.Model

set_option autoImplicit false

/-! # What the handlers keep

Seen from one signal, a step of the process is a step in the life of that signal, or nothing
(`ProcessMove.life`): its timer is started, the signal is raised, delivered, received. What each
life keeps gives the bound on the handlers; that `loop_is_done` is not forgotten is a matter of
the last flag, whose handler reads all of them after it has set its own.
-/

namespace CPlayground.SignalTimer

/-! ## The life of one signal -/

/-- Where the handler of `sig` stands, if it is under way. -/
def handlerIn : List Frame → Sig → Option HandlerPc
  | [], _ => none
  | f :: rest, sig => if f.sig = sig then some f.pc else handlerIn rest sig

theorem handlerIn_eq_none {frames : List Frame} {sig : Sig} (h : ∀ f ∈ frames, f.sig ≠ sig) :
    handlerIn frames sig = none := by
  induction frames with
  | nil => rfl
  | cons f rest ih =>
      unfold handlerIn
      rw [if_neg (h f (List.mem_cons_self ..))]
      exact ih fun g hg => h g (List.mem_cons_of_mem _ hg)

/-- What the process holds of one signal and its timer. -/
@[ext] structure Life where
  started : Bool
  armed : Bool
  pending : Bool
  handler : Option HandlerPc
  received : Bool
  entered : Nat
  unstopped : Nat

def life (p : Process) (sig : Sig) : Life where
  started := p.started sig.timer
  armed := p.armed sig.timer
  pending := p.pending sig
  handler := handlerIn p.frames sig
  received := p.received sig
  entered := p.entered sig
  unstopped := p.unstopped sig

/-- A handler that reads the flags. -/
@[simp] def HandlerPc.reads : HandlerPc → Bool
  | .check _ => true
  | _ => false

/-- What a step of the process can do to one signal. -/
inductive LifeMove (l : Life) : Life → Prop
  | same : LifeMove l l
  | start (hnot : l.started = false) : LifeMove l { l with started := true, armed := true }
  | expire (harmed : l.armed = true) : LifeMove l { l with pending := true }
  | deliver (hpending : l.pending = true) (hnone : l.handler = none) :
      LifeMove l { l with pending := false, handler := some .stop, entered := l.entered + 1 }
  | stopped (hpc : l.handler = some .stop) :
      LifeMove l { l with armed := false, handler := some .receive }
  | notStopped (hpc : l.handler = some .stop) :
      LifeMove l { l with unstopped := l.unstopped + 1, handler := some .receive }
  | receive (hpc : l.handler = some .receive) :
      LifeMove l { l with received := true, handler := some checkReceivedSignal }
  | read {pc pc' : HandlerPc} (hpc : l.handler = some pc) (hreads : pc.reads = true)
      (hnext : pc'.reads = true ∨ pc' = .leave) : LifeMove l { l with handler := some pc' }
  | leave (hpc : l.handler = some .leave) : LifeMove l { l with handler := none }

/-- A signal comes from a timer that was started, and is received unless it is still to come.
Its handler is entered at most twice, but for the calls of `setitimer` that fail in it. -/
structure Life.Ok (l : Life) : Prop where
  origin : l.armed = true ∨ l.pending = true ∨ l.handler ≠ none ∨ l.received = true →
    l.started = true
  coming : l.started = true → l.armed = true ∨ l.pending = true ∨ l.handler = some .stop ∨
    l.handler = some .receive ∨ l.received = true
  fresh : l.started = false → l.entered = 0
  armed_count : l.armed = true →
    l.entered ≤ l.unstopped + (decide (l.handler = some .stop)).toNat
  count : l.entered + l.pending.toNat ≤ l.unstopped + 2
  handled : l.handler = some .leave ∨ (∃ pc, l.handler = some pc ∧ pc.reads = true) →
    l.received = true

theorem Life.Ok.move {l l' : Life} (h : l.Ok) (hmove : LifeMove l l') : l'.Ok := by
  cases hmove with
  | same => exact h
  | start hnot =>
      have hentered := h.fresh hnot
      exact ⟨fun _ => rfl, fun _ => .inl rfl, nofun, fun _ => by simp [hentered], h.count,
        h.handled⟩
  | expire harmed =>
      have hstarted := h.origin (.inl harmed)
      have hcount := h.armed_count harmed
      have hle := Bool.toNat_le (decide (l.handler = some .stop))
      refine ⟨fun _ => hstarted, fun _ => .inl harmed, h.fresh, h.armed_count, ?_, h.handled⟩
      simp only [Bool.toNat_true]
      omega
  | deliver hpending hnone =>
      have hstarted := h.origin (.inr (.inl hpending))
      have hcount := h.count
      rw [hpending, Bool.toNat_true] at hcount
      refine ⟨fun _ => hstarted, fun _ => .inr (.inr (.inl rfl)), ?_, ?_, ?_, ?_⟩
      · intro hnot
        rw [hstarted] at hnot
        cases hnot
      · intro harmed
        have hle := h.armed_count harmed
        simp only [hnone, reduceCtorEq, decide_false, Bool.toNat_false] at hle
        simpa using hle
      · simp only [Bool.toNat_false]
        omega
      · simp
  | stopped hpc =>
      have hstarted := h.origin (.inr (.inr (.inl (by rw [hpc]; simp))))
      exact ⟨fun _ => hstarted, fun _ => .inr (.inr (.inr (.inl rfl))), h.fresh, nofun, h.count,
        by simp⟩
  | notStopped hpc =>
      have hstarted := h.origin (.inr (.inr (.inl (by rw [hpc]; simp))))
      have hcount := h.count
      refine ⟨fun _ => hstarted, fun _ => .inr (.inr (.inr (.inl rfl))), h.fresh, ?_, ?_, by simp⟩
      · intro harmed
        have hle := h.armed_count harmed
        rw [hpc] at hle
        simpa using hle
      · simp only
        omega
  | receive hpc =>
      have hstarted := h.origin (.inr (.inr (.inl (by rw [hpc]; simp))))
      refine ⟨fun _ => hstarted, fun _ => .inr (.inr (.inr (.inr rfl))), h.fresh, ?_, h.count,
        fun _ => rfl⟩
      intro harmed
      have hle := h.armed_count harmed
      rw [hpc] at hle
      simpa [checkReceivedSignal] using hle
  | @read pc pc' hpc hreads hnext =>
      have hreceived := h.handled (.inr ⟨pc, hpc, hreads⟩)
      have hstarted := h.origin (.inr (.inr (.inr hreceived)))
      refine ⟨fun _ => hstarted, fun _ => .inr (.inr (.inr (.inr hreceived))), h.fresh, ?_,
        h.count, fun _ => hreceived⟩
      intro harmed
      have hle := h.armed_count harmed
      have hne : pc ≠ .stop := by
        rintro rfl
        cases hreads
      rw [hpc, decide_eq_false (by simpa using hne), Bool.toNat_false] at hle
      exact Nat.le_trans hle (Nat.le_add_right _ _)
  | leave hpc =>
      have hreceived := h.handled (.inl hpc)
      have hstarted := h.origin (.inr (.inr (.inr hreceived)))
      refine ⟨fun _ => hstarted, fun _ => .inr (.inr (.inr (.inr hreceived))), h.fresh, ?_,
        h.count, fun _ => hreceived⟩
      intro harmed
      have hle := h.armed_count harmed
      rw [hpc] at hle
      simpa using hle

/-! ## What holds in every state -/

/-- The progress of `setup_signal_handler` and `setup_timer`. -/
structure SetUp (p : Process) : Prop where
  installed : ∀ sig, sig ∉ p.pc.toInstall → p.installed sig = true
  unarmed : ∀ t ∈ p.pc.toArm, p.started t = false
  nodup : p.pc.toArm.Nodup
  alive : p.pc ≠ .killed

/-- The handlers under way are those of different signals, `loop_is_done` is not set too early,
and once all flags are set some handler is still to find that out. -/
structure Inv (p : Process) : Prop where
  setUp : SetUp p
  nodup : (p.frames.map Frame.sig).Nodup
  life : ∀ sig, (life p sig).Ok
  seen : ∀ sig unread, handlerIn p.frames sig = some (.check unread) →
    ∀ sig', sig' ∉ unread → p.received sig' = true
  done : p.loopIsDone = true → ∀ sig, p.received sig = true
  noticed : (∀ sig, p.received sig = true) → p.loopIsDone = true ∨
    ∃ sig pc, handlerIn p.frames sig = some pc ∧ pc.reads = true

section Moves

variable {p p' : Process} {f : Frame} {rest : List Frame}

/-- No handler of `rest` is a second one of the same signal. -/
theorem handlerIn_rest (hframes : p.frames = f :: rest) (hnodup : (p.frames.map Frame.sig).Nodup) :
    handlerIn rest f.sig = none := by
  rw [hframes, List.map_cons, List.nodup_cons] at hnodup
  apply handlerIn_eq_none
  intro g hg hsig
  exact hnodup.1 (hsig ▸ List.mem_map_of_mem hg)

theorem handlerIn_top (hframes : p.frames = f :: rest) : handlerIn p.frames f.sig = some f.pc := by
  rw [hframes]
  exact if_pos rfl

/-- The other signals see nothing of a handler. -/
theorem HandlerMove.life_others (hframes : p.frames = f :: rest) (h : HandlerMove p f rest p')
    {sig : Sig} (hsig : f.sig ≠ sig) : life p' sig = life p sig := by
  have htimer : sig.timer ≠ f.sig.timer := fun htimer => hsig (Sig.timer_inj htimer).symm
  cases h <;>
    simp [life, hframes, handlerIn, hsig, Function.update_of_ne htimer,
      Function.update_of_ne (Ne.symm hsig)]

theorem HandlerMove.life (hframes : p.frames = f :: rest)
    (hnodup : (p.frames.map Frame.sig).Nodup) (h : HandlerMove p f rest p') (sig : Sig) :
    LifeMove (life p sig) (life p' sig) := by
  by_cases hsig : f.sig = sig
  · subst hsig
    have htop := handlerIn_top hframes
    have hset : ∀ pc, handlerIn (⟨f.sig, pc⟩ :: rest) f.sig = some pc := fun pc => if_pos rfl
    cases h with
    | stopped hpc =>
        have hmove : LifeMove (SignalTimer.life p f.sig) _ := .stopped (hpc ▸ htop)
        simpa [SignalTimer.life, hset] using hmove
    | notStopped hpc =>
        have hmove : LifeMove (SignalTimer.life p f.sig) _ := .notStopped (hpc ▸ htop)
        simpa [SignalTimer.life, hset] using hmove
    | receive hpc =>
        have hmove : LifeMove (SignalTimer.life p f.sig) _ := .receive (hpc ▸ htop)
        simpa [SignalTimer.life, hset] using hmove
    | @seen sig unread hpc hset' =>
        have hmove : LifeMove (SignalTimer.life p f.sig) _ :=
          @LifeMove.read _ _ (.check unread) (hpc ▸ htop) rfl (.inl rfl)
        simpa [SignalTimer.life, hset] using hmove
    | missing hpc hunset =>
        have hmove : LifeMove (SignalTimer.life p f.sig) _ := .read (hpc ▸ htop) rfl (.inr rfl)
        simpa [SignalTimer.life, hset] using hmove
    | done hpc =>
        have hmove : LifeMove (SignalTimer.life p f.sig) _ := .read (hpc ▸ htop) rfl (.inr rfl)
        simpa [SignalTimer.life, hset] using hmove
    | leave hpc =>
        have hmove : LifeMove (SignalTimer.life p f.sig) _ := .leave (hpc ▸ htop)
        simpa [SignalTimer.life, handlerIn_rest hframes hnodup] using hmove
  · rw [h.life_others hframes hsig]
    exact .same

theorem ProcessMove.life (hinv : Inv p) (h : ProcessMove p p') (sig : Sig) :
    LifeMove (life p sig) (life p' sig) := by
  cases h with
  | @expire sig' harmed =>
      by_cases hsig : sig' = sig
      · subst hsig
        have hmove : LifeMove (SignalTimer.life p sig') _ := .expire harmed
        simpa [SignalTimer.life] using hmove
      · simp only [SignalTimer.life, Function.update_of_ne (Ne.symm hsig)]
        exact .same
  | @deliver sig' hpending hfree =>
      by_cases hsig : sig' = sig
      · subst hsig
        have hmove : LifeMove (SignalTimer.life p sig') _ :=
          .deliver hpending (handlerIn_eq_none hfree)
        simpa [SignalTimer.life, handlerIn] using hmove
      · simp only [SignalTimer.life, Function.update_of_ne (Ne.symm hsig), handlerIn, if_neg hsig]
        exact .same
  | handler hframes hmove => exact hmove.life hframes hinv.nodup sig
  | @arm t left hpc =>
      by_cases ht : sig.timer = t
      · subst ht
        have hnot : p.started sig.timer = false := by
          apply hinv.setUp.unarmed
          rw [hpc]
          exact List.mem_cons_self ..
        have hmove : LifeMove (SignalTimer.life p sig) _ := .start hnot
        simpa [SignalTimer.life] using hmove
      · simp only [SignalTimer.life, Function.update_of_ne ht]
        exact .same
  | kill hpending hnot => exact .same
  | install hpc => exact .same
  | main halive hinstall harm => exact .same

theorem HandlerMove.keeps (h : HandlerMove p f rest p') :
    p'.pc = p.pc ∧ p'.installed = p.installed ∧ p'.started = p.started := by
  cases h <;> exact ⟨rfl, rfl, rfl⟩

/-- The handlers are installed before the first timer is started. -/
theorem SetUp.installed_of_started (h : SetUp p) {sig : Sig}
    (hstarted : p.started sig.timer = true) : p.installed sig = true := by
  apply h.installed
  intro hmem
  have harm : sig.timer ∈ p.pc.toArm := by
    cases hpc : p.pc with
    | install left => cases sig <;> simp [Sig.timer]
    | _ => simp [hpc] at hmem
  rw [h.unarmed _ harm] at hstarted
  cases hstarted

theorem Inv.setUp_step (hinv : Inv p) (h : ProcessMove p p') : SetUp p' := by
  have hold := hinv.setUp
  cases h with
  | expire harmed => exact ⟨hold.installed, hold.unarmed, hold.nodup, hold.alive⟩
  | deliver hpending hfree => exact ⟨hold.installed, hold.unarmed, hold.nodup, hold.alive⟩
  | @kill sig hpending hnot =>
      have hstarted := (hinv.life sig).origin (.inr (.inl hpending))
      rw [hold.installed_of_started hstarted] at hnot
      cases hnot
  | handler hframes hmove =>
      obtain ⟨hpc, hinstalled, hstarted⟩ := hmove.keeps
      exact ⟨hpc ▸ hinstalled ▸ hold.installed, hpc ▸ hstarted ▸ hold.unarmed, hpc ▸ hold.nodup,
        hpc ▸ hold.alive⟩
  | @install sig left hpc =>
      have hinstalled := hold.installed
      have hunarmed := hold.unarmed
      have hnodup := hold.nodup
      rw [hpc] at hinstalled hunarmed hnodup
      refine ⟨?_, hunarmed, hnodup, by simp⟩
      intro sig' hmem
      by_cases hsig : sig' = sig
      · rw [hsig]
        exact Function.update_self ..
      · have hsame := hinstalled sig' (by simpa [hsig] using hmem)
        exact (Function.update_of_ne hsig ..).trans hsame
  | @arm t left hpc =>
      have hinstalled := hold.installed
      have hunarmed := hold.unarmed
      have hnodup := hold.nodup
      rw [hpc] at hinstalled hunarmed hnodup
      obtain ⟨hnot, hnodup⟩ := List.nodup_cons.1 hnodup
      refine ⟨hinstalled, ?_, hnodup, by simp⟩
      intro t' hmem
      have hne : t' ≠ t := fun ht => hnot (ht ▸ hmem)
      exact (Function.update_of_ne hne ..).trans (hunarmed t' (List.mem_cons_of_mem _ hmem))
  | main halive hinstall harm =>
      exact ⟨hinstall ▸ hold.installed, fun t ht => hold.unarmed t (harm.subset ht),
        hold.nodup.sublist harm.sublist, halive⟩

theorem HandlerMove.nodup (hframes : p.frames = f :: rest)
    (hnodup : (p.frames.map Frame.sig).Nodup) (h : HandlerMove p f rest p') :
    (p'.frames.map Frame.sig).Nodup := by
  rw [hframes, List.map_cons] at hnodup
  cases h with
  | leave hpc => exact (List.nodup_cons.1 hnodup).2
  | _ => exact hnodup

theorem ProcessMove.nodup (hnodup : (p.frames.map Frame.sig).Nodup) (h : ProcessMove p p') :
    (p'.frames.map Frame.sig).Nodup := by
  cases h with
  | deliver hpending hfree =>
      refine List.nodup_cons.2 ⟨?_, hnodup⟩
      intro hmem
      obtain ⟨g, hg, hsig⟩ := List.mem_map.1 hmem
      exact hfree g hg hsig
  | handler hframes hmove => exact hmove.nodup hframes hnodup
  | _ => exact hnodup

theorem HandlerMove.others (hframes : p.frames = f :: rest) (h : HandlerMove p f rest p')
    {sig : Sig} (hsig : f.sig ≠ sig) : handlerIn p'.frames sig = handlerIn p.frames sig := by
  rw [hframes]
  cases h with
  | leave hpc => exact (if_neg hsig).symm
  | _ => exact (if_neg hsig).trans (if_neg hsig).symm

theorem HandlerMove.received (h : HandlerMove p f rest p') {sig : Sig}
    (hset : p.received sig = true) : p'.received sig = true := by
  cases h with
  | receive hpc =>
      by_cases hsig : sig = f.sig
      · rw [hsig]
        exact Function.update_self ..
      · exact (Function.update_of_ne hsig ..).trans hset
  | _ => exact hset

/-- A handler that sets `loop_is_done` has found every flag set. -/
theorem HandlerMove.done_received (hinv : Inv p) (hframes : p.frames = f :: rest)
    (h : HandlerMove p f rest p') (hdone : p'.loopIsDone = true) (sig : Sig) :
    p'.received sig = true := by
  have htop := handlerIn_top hframes
  have hkept : p.received sig = true → p'.received sig = true := h.received
  cases h with
  | done hpc =>
      rw [hpc] at htop
      exact hinv.seen f.sig [] htop sig List.not_mem_nil
  | _ => exact hkept (hinv.done hdone sig)

theorem HandlerMove.seen_received (hinv : Inv p) (hframes : p.frames = f :: rest)
    (h : HandlerMove p f rest p') {sig : Sig} {unread : List Sig}
    (hcheck : handlerIn p'.frames sig = some (.check unread)) {sig' : Sig} (hread : sig' ∉ unread) :
    p'.received sig' = true := by
  by_cases hsig : f.sig = sig
  · subst hsig
    have htop := handlerIn_top hframes
    cases h with
    | stopped hpc | notStopped hpc | missing hpc hunset | done hpc =>
        cases (if_pos rfl).symm.trans hcheck
    | receive hpc =>
        cases (if_pos rfl).symm.trans hcheck
        cases sig' <;> simp at hread
    | @seen sig unread' hpc hset =>
        rw [hpc] at htop
        cases (if_pos rfl).symm.trans hcheck
        by_cases hnow : sig' = sig
        · rw [hnow]
          exact hset
        · exact hinv.seen f.sig _ htop sig' (by simp [hnow, hread])
    | leave hpc =>
        rw [handlerIn_rest hframes hinv.nodup] at hcheck
        cases hcheck
  · rw [h.others hframes hsig] at hcheck
    exact h.received (hinv.seen sig unread hcheck sig' hread)

/-- The handler that sets the last flag reads all of them after that. -/
theorem HandlerMove.noticed_received (hinv : Inv p) (hframes : p.frames = f :: rest)
    (h : HandlerMove p f rest p') (hall : ∀ sig, p'.received sig = true) :
    p'.loopIsDone = true ∨ ∃ sig pc, handlerIn p'.frames sig = some pc ∧ pc.reads = true := by
  have htop := handlerIn_top hframes
  -- a handler that does not read leaves the others where they are
  have hothers : f.pc.reads = false → (∀ sig, p.received sig = true) → p.loopIsDone = true ∨
      ∃ sig pc, handlerIn p'.frames sig = some pc ∧ pc.reads = true := by
    intro hpc hold
    rcases hinv.noticed hold with hdone | ⟨sig, pc, hat, hreads⟩
    · exact .inl hdone
    · have hsig : f.sig ≠ sig := by
        rintro rfl
        rw [htop] at hat
        cases hat
        rw [hpc] at hreads
        cases hreads
      exact .inr ⟨sig, pc, (h.others hframes hsig).trans hat, hreads⟩
  cases h with
  | stopped hpc | notStopped hpc | leave hpc => exact hothers (by rw [hpc]; rfl) hall
  | receive hpc => exact .inr ⟨f.sig, checkReceivedSignal, if_pos rfl, rfl⟩
  | @seen sig unread hpc hset => exact .inr ⟨f.sig, .check unread, if_pos rfl, rfl⟩
  | @missing sig unread hpc hunset =>
      have hset := hall sig
      rw [hunset] at hset
      cases hset
  | done hpc => exact .inl rfl

theorem Inv.step (hinv : Inv p) (h : ProcessMove p p') : Inv p' := by
  have hlife : ∀ sig, (SignalTimer.life p' sig).Ok :=
    fun sig => (hinv.life sig).move (h.life hinv sig)
  have hsetUp := hinv.setUp_step h
  have hnodup := h.nodup hinv.nodup
  cases h with
  | handler hframes hmove =>
      exact ⟨hsetUp, hnodup, hlife,
        fun _ _ hcheck _ hread => hmove.seen_received hinv hframes hcheck hread,
        hmove.done_received hinv hframes, hmove.noticed_received hinv hframes⟩
  | @deliver sig hpending hfree =>
      refine ⟨hsetUp, hnodup, hlife, ?_, hinv.done, ?_⟩
      · intro sig' unread hcheck
        by_cases hsig : sig = sig'
        · cases (if_pos hsig).symm.trans hcheck
        · exact hinv.seen sig' unread ((if_neg hsig).symm.trans hcheck)
      · intro hall
        rcases hinv.noticed hall with hdone | ⟨sig', pc, hat, hreads⟩
        · exact .inl hdone
        · have hsig : sig ≠ sig' := by
            rintro rfl
            rw [handlerIn_eq_none hfree] at hat
            cases hat
          exact .inr ⟨sig', pc, (if_neg hsig).trans hat, hreads⟩
  | _ => exact ⟨hsetUp, hnodup, hlife, hinv.seen, hinv.done, hinv.noticed⟩

end Moves

theorem inv_start : Inv startProcess where
  setUp := ⟨fun sig hsig => by cases sig <;> simp [startProcess] at hsig, fun _ _ => rfl, by decide,
    by decide⟩
  nodup := List.nodup_nil
  life _ := ⟨by simp [life, startProcess, handlerIn], nofun, fun _ => rfl, nofun,
    by simp [life, startProcess], by simp [life, startProcess, handlerIn]⟩
  seen := nofun
  done := nofun
  noticed hall := by cases hall .alrm

variable {p : Process}

theorem inv_reachable (h : ProcessReachable p) : Inv p := by
  refine Reachable.invariant Inv ?_ ?_ h
  · rintro p rfl
    exact inv_start
  · rintro p p' - hinv ⟨a, ha⟩
    exact hinv.step (stepProcess_move ha)

/-! ## Every signal counts -/

/-- No handler is under way, and no signal is to come. -/
structure Quiet (p : Process) : Prop where
  frames : p.frames = []
  armed : ∀ t, p.armed t = false
  pending : ∀ sig, p.pending sig = false

theorem Inv.done_iff (hinv : Inv p) (hframes : p.frames = []) :
    p.loopIsDone = true ↔ ∀ sig, p.received sig = true := by
  refine ⟨hinv.done, ?_⟩
  intro hall
  rcases hinv.noticed hall with hdone | ⟨sig, pc, hat, -⟩
  · exact hdone
  · rw [hframes] at hat
    cases hat

theorem Quiet.received_iff (hquiet : Quiet p) (hinv : Inv p) (sig : Sig) :
    p.received sig = true ↔ p.started sig.timer = true := by
  have hnone : handlerIn p.frames sig = none := by
    rw [hquiet.frames]
    rfl
  constructor
  · intro hset
    exact (hinv.life sig).origin (.inr (.inr (.inr hset)))
  · intro hstarted
    rcases (hinv.life sig).coming hstarted with harmed | hpending | hstop | hreceive | hset
    · exact absurd harmed (by simp [life, hquiet.armed])
    · exact absurd hpending (by simp [life, hquiet.pending])
    · exact absurd hstop (by simp [life, hnone])
    · exact absurd hreceive (by simp [life, hnone])
    · exact hset

/-- **No signal is lost.** However the handlers interrupt one another, `loop_is_done` is set only
when all three signals have been received, and then it is set by the time the last handler
returns. When nothing is to come any more, it is set if and only if all timers were started. -/
theorem no_signal_lost (h : ProcessReachable p) :
    (p.loopIsDone = true → ∀ sig, p.received sig = true) ∧
      (p.frames = [] → (∀ sig, p.received sig = true) → p.loopIsDone = true) ∧
      (Quiet p → (p.loopIsDone = true ↔ ∀ t, p.started t = true)) := by
  have hinv := inv_reachable h
  refine ⟨hinv.done, fun hframes => (hinv.done_iff hframes).2, ?_⟩
  intro hquiet
  rw [hinv.done_iff hquiet.frames]
  constructor
  · intro hall t
    have hstarted := (hquiet.received_iff hinv t.signal).1 (hall t.signal)
    rwa [t.timer_signal] at hstarted
  · intro hall sig
    exact (hquiet.received_iff hinv sig).2 (hall sig.timer)

/-- The handlers of `SIGVTALRM` and `SIGPROF` interrupt the one of `SIGALRM`, and all return. -/
theorem no_signal_lost_run : ∃ p : Process, Quiet p ∧ p.received .prof = true ∧
    p.loopIsDone = true := by
  obtain ⟨p, hs, hp⟩ := processReachable_run
    (List.replicate 8 (.run true) ++ [.expire .real, .deliver .alrm] ++
      List.replicate 3 (.run true) ++ [.expire .virtual, .deliver .vtalrm] ++
      List.replicate 2 (.run true) ++ [.expire .prof, .deliver .prof] ++
      List.replicate 16 (.run true))
    (fun p => p.frames.isEmpty && (p.received .prof && [Timer.real, .virtual, .prof].all fun t =>
      p.started t && !p.armed t && !p.pending t.signal))
    (by decide +kernel)
  rw [Bool.and_eq_true, Bool.and_eq_true, List.isEmpty_iff, List.all_eq_true] at hp
  obtain ⟨hframes, hprof, htimers⟩ := hp
  have hends : ∀ t, p.started t = true ∧ p.armed t = false ∧ p.pending t.signal = false := by
    intro t
    have ht := htimers t (by cases t <;> simp)
    simpa [and_assoc] using ht
  have hquiet : Quiet p :=
    { frames := hframes
      armed := fun t => (hends t).2.1
      pending := fun sig => by
        have hnone := (hends sig.timer).2.2
        rwa [sig.signal_timer] at hnone }
  exact ⟨p, hquiet, hprof, ((no_signal_lost hs).2.2 hquiet).2 fun t => (hends t).1⟩

/-- **Each handler is entered at most twice**, but for the calls of `setitimer` that fail in it:
once before its timer is off, and once for a signal that was raised until then. The handlers
under way are at most three, of different signals, and no signal comes before its handler is
installed. -/
theorem handlers_entered (h : ProcessReachable p) :
    (∀ sig, p.entered sig ≤ p.unstopped sig + 2) ∧ (p.frames.map Frame.sig).Nodup ∧
      p.frames.length ≤ 3 ∧ p.pc ≠ .killed := by
  have hinv := inv_reachable h
  refine ⟨?_, hinv.nodup, ?_, hinv.setUp.alive⟩
  · intro sig
    exact Nat.le_trans (Nat.le_add_right _ _) (hinv.life sig).count
  · have hsub : p.frames.map Frame.sig ⊆ [.alrm, .vtalrm, .prof] := fun sig _ => by
      cases sig <;> simp
    calc p.frames.length = (p.frames.map Frame.sig).length := (List.length_map ..).symm
      _ ≤ [Sig.alrm, .vtalrm, .prof].length := hinv.nodup.length_le_of_subset hsub

/-- The signal is raised a second time before its timer is off. -/
theorem handlers_entered_twice : ∃ p : Process, p.entered .prof = 2 ∧
    2 ≤ p.unstopped .prof + 2 := by
  obtain ⟨p, hs, hp⟩ := processReachable_run
    (List.replicate 8 (.run true) ++ [.expire .prof, .deliver .prof, .expire .prof] ++
      List.replicate 4 (.run true) ++ [.deliver .prof])
    (fun p => p.entered .prof == 2) (by decide +kernel)
  have hentered := beq_iff_eq.1 hp
  have hle := (handlers_entered hs).1 .prof
  rw [hentered] at hle
  exact ⟨p, hentered, hle⟩

end CPlayground.SignalTimer
