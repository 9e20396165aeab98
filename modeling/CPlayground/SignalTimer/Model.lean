import CPlayground.Basic.Run
import Mathlib.Logic.Function.Basic

set_option autoImplicit false

/-! # Handlers of three timers

`Linux/Signals/signal_timer_example.c`: three timers raise one signal each. A handler switches
its timer off, sets the flag of its signal, and sets `loop_is_done` when it finds all three
flags set; `main` polls `loop_is_done`. A signal can interrupt `main` or another handler between
any two instructions. While a handler runs its own signal is blocked: one that is raised
meanwhile stays pending, and several are the same as one.

When a timer expires, and which pending signal is delivered first, is a choice of the
environment.
-/

namespace CPlayground.SignalTimer

/-! ## Data -/

inductive Timer
  | real
  | virtual
  | prof
  deriving DecidableEq, Repr

inductive Sig
  | alrm
  | vtalrm
  | prof
  deriving DecidableEq, Repr

/-- The signal that a timer raises. -/
def Timer.signal : Timer → Sig
  | .real => .alrm
  | .virtual => .vtalrm
  | .prof => .prof

/-- The timer whose signal this is. -/
def Sig.timer : Sig → Timer
  | .alrm => .real
  | .vtalrm => .virtual
  | .prof => .prof

theorem Timer.timer_signal (t : Timer) : t.signal.timer = t := by cases t <;> rfl

theorem Sig.signal_timer (sig : Sig) : sig.timer.signal = sig := by cases sig <;> rfl

theorem Sig.timer_inj {sig sig' : Sig} (h : sig.timer = sig'.timer) : sig = sig' := by
  rw [← sig.signal_timer, h, sig'.signal_timer]

/-- The points of a handler; at `check` it has still to read the flags in the list. -/
inductive HandlerPc
  | stop
  | receive
  | check (unread : List Sig)
  | leave
  deriving DecidableEq, Repr

/-- The points of `main`; at `install` and `arm` the calls for the list are still to come. -/
inductive MainPc
  | install (left : List Sig)
  | arm (left : List Timer)
  | loopTest
  | getTimer (left : List Timer)
  | rest
  | closeLogger
  | returned
  | killed
  deriving DecidableEq, Repr

/-- A handler that has been entered and has not returned. -/
structure Frame where
  sig : Sig
  pc : HandlerPc
  deriving DecidableEq, Repr

/-- The process: the handlers under way, innermost first, what the kernel knows of the signals
and the timers, and the globals. The last three fields are history: the timers that `main` has
started, how often each handler was entered, and how often `setitimer` failed in it. -/
structure Process where
  pc : MainPc
  frames : List Frame
  installed : Sig → Bool
  pending : Sig → Bool
  armed : Timer → Bool
  received : Sig → Bool
  loopIsDone : Bool
  started : Timer → Bool
  entered : Sig → Nat
  unstopped : Sig → Nat

/-- What happens next: a timer expires, a signal is delivered, or the code that runs takes a
step; `ok` is whether the call of `setitimer` or `getitimer` there succeeds. -/
inductive Action
  | expire (t : Timer)
  | deliver (sig : Sig)
  | run (ok : Bool)
  deriving DecidableEq, Repr

/-! ## The program -/

/-- The reads of `check_received_signal`, in their order. -/
def checkReceivedSignal : HandlerPc := .check [.alrm, .vtalrm, .prof]

/-- What the three handlers share: each switches its own timer off and sets its own flag. The
result is the point it comes to, or `none` when it returns. -/
def handle (timer : Timer) (flag : Sig) (p : Process) (ok : Bool) :
    HandlerPc → Process × Option HandlerPc
  | .stop =>
      if ok then ({ p with armed := Function.update p.armed timer false }, some .receive)
      else ({ p with unstopped := Function.update p.unstopped flag (p.unstopped flag + 1) },
        some .receive)
  | .receive =>
      ({ p with received := Function.update p.received flag true }, some checkReceivedSignal)
  | .check (sig :: unread) => (p, some (if p.received sig then .check unread else .leave))
  | .check [] => ({ p with loopIsDone := true }, some .leave)
  | .leave => (p, none)

def handleSigalrm := handle .real .alrm

def handleSigvtalrm := handle .virtual .vtalrm

def handleSigprof := handle .prof .prof

/-- The handler that `setup_signal_handler` installs for a signal. -/
def handlerOf : Sig → Process → Bool → HandlerPc → Process × Option HandlerPc
  | .alrm => handleSigalrm
  | .vtalrm => handleSigvtalrm
  | .prof => handleSigprof

/-- The innermost handler takes a step. -/
def handlerStep (p : Process) (f : Frame) (rest : List Frame) (ok : Bool) : Process :=
  match handlerOf f.sig p ok f.pc with
  | (p', some pc) => { p' with frames := ⟨f.sig, pc⟩ :: rest }
  | (p', none) => { p' with frames := rest }

/-- `main`, with `setup_signal_handler` and `setup_timer`. A `setitimer` that fails leaves its
timer off, and `main` goes on; a `getitimer` that fails ends the loop. -/
def mainStep (p : Process) (ok : Bool) : Option Process :=
  match p.pc with
  | .install (sig :: left) =>
      some { p with installed := Function.update p.installed sig true, pc := .install left }
  | .install [] => some { p with pc := .arm [.real, .virtual, .prof] }
  | .arm (t :: left) =>
      if ok then
        some { p with armed := Function.update p.armed t true
                      started := Function.update p.started t true, pc := .arm left }
      else some { p with pc := .arm left }
  | .arm [] => some { p with pc := .loopTest }
  | .loopTest =>
      some { p with pc :=
        if p.loopIsDone then .closeLogger else .getTimer [.real, .virtual, .prof] }
  | .getTimer (_ :: left) => some { p with pc := if ok then .getTimer left else .closeLogger }
  | .getTimer [] => some { p with pc := .rest }
  | .rest => some { p with pc := .loopTest }
  | .closeLogger => some { p with pc := .returned }
  | .returned | .killed => none

/-- The process has come to its end. -/
@[simp] def MainPc.ended : MainPc → Bool
  | .returned | .killed => true
  | _ => false

/-- The kernel enters the handler of a pending signal, unless that handler is already under
way; without a handler the signal kills the process. -/
def deliver (p : Process) (sig : Sig) : Option Process :=
  if p.pending sig = true ∧ ∀ f ∈ p.frames, f.sig ≠ sig then
    if p.installed sig then
      some { p with frames := ⟨sig, .stop⟩ :: p.frames
                    pending := Function.update p.pending sig false
                    entered := Function.update p.entered sig (p.entered sig + 1) }
    else some { p with pc := .killed }
  else none

/-- An armed timer starts again when it expires: its interval is not zero. -/
def expire (p : Process) (t : Timer) : Option Process :=
  if p.armed t then some { p with pending := Function.update p.pending t.signal true } else none

def stepProcess (p : Process) (a : Action) : Option Process :=
  if p.pc.ended then none
  else
    match a, p.frames with
    | .expire t, _ => expire p t
    | .deliver sig, _ => deliver p sig
    | .run ok, f :: rest => some (handlerStep p f rest ok)
    | .run ok, [] => mainStep p ok

def startProcess : Process where
  pc := .install [.alrm, .vtalrm, .prof]
  frames := []
  installed := fun _ => false
  pending := fun _ => false
  armed := fun _ => false
  received := fun _ => false
  loopIsDone := false
  started := fun _ => false
  entered := fun _ => 0
  unstopped := fun _ => 0

abbrev ProcessReachable (p : Process) : Prop := Reachable (· = startProcess) (Steps stepProcess) p

theorem processReachable_run (as : List Action) (q : Process → Bool)
    (h : (execute stepProcess startProcess as).any q = true) :
    ∃ p, ProcessReachable p ∧ q p = true :=
  reachable_run (· = startProcess) rfl as q h

/-! ## What a step can do -/

/-- What a step of the handler `f` can do; the handlers of `rest` are interrupted by it. -/
inductive HandlerMove (p : Process) (f : Frame) (rest : List Frame) : Process → Prop
  | stopped (hpc : f.pc = .stop) :
      HandlerMove p f rest { p with armed := Function.update p.armed f.sig.timer false
                                    frames := ⟨f.sig, .receive⟩ :: rest }
  | notStopped (hpc : f.pc = .stop) :
      HandlerMove p f rest
        { p with unstopped := Function.update p.unstopped f.sig (p.unstopped f.sig + 1)
                 frames := ⟨f.sig, .receive⟩ :: rest }
  | receive (hpc : f.pc = .receive) :
      HandlerMove p f rest { p with received := Function.update p.received f.sig true
                                    frames := ⟨f.sig, checkReceivedSignal⟩ :: rest }
  | seen {sig : Sig} {unread : List Sig} (hpc : f.pc = .check (sig :: unread))
      (hset : p.received sig = true) :
      HandlerMove p f rest { p with frames := ⟨f.sig, .check unread⟩ :: rest }
  | missing {sig : Sig} {unread : List Sig} (hpc : f.pc = .check (sig :: unread))
      (hunset : p.received sig = false) :
      HandlerMove p f rest { p with frames := ⟨f.sig, .leave⟩ :: rest }
  | done (hpc : f.pc = .check []) :
      HandlerMove p f rest { p with loopIsDone := true, frames := ⟨f.sig, .leave⟩ :: rest }
  | leave (hpc : f.pc = .leave) : HandlerMove p f rest { p with frames := rest }

theorem handlerOf_eq (sig : Sig) : handlerOf sig = handle sig.timer sig := by cases sig <;> rfl

theorem handlerStep_move (p : Process) (f : Frame) (rest : List Frame) (ok : Bool) :
    HandlerMove p f rest (handlerStep p f rest ok) := by
  unfold handlerStep
  rw [handlerOf_eq]
  cases hpc : f.pc with
  | stop =>
      cases ok with
      | true => exact .stopped hpc
      | false => exact .notStopped hpc
  | receive => exact .receive hpc
  | leave => exact .leave hpc
  | check unread =>
      cases unread with
      | nil => exact .done hpc
      | cons sig unread =>
          cases hset : p.received sig with
          | true =>
              simp only [handle, hset, if_true]
              exact .seen hpc hset
          | false =>
              simp only [handle, hset, Bool.false_eq_true, if_false]
              exact .missing hpc hset

/-- The signals for which `main` has still to install a handler. -/
@[simp] def MainPc.toInstall : MainPc → List Sig
  | .install left => left
  | _ => []

/-- The timers that `main` has still to start. -/
@[simp] def MainPc.toArm : MainPc → List Timer
  | .install _ => [.real, .virtual, .prof]
  | .arm left => left
  | _ => []

/-- What a step of the process can do. -/
inductive ProcessMove (p : Process) : Process → Prop
  | expire {sig : Sig} (harmed : p.armed sig.timer = true) :
      ProcessMove p { p with pending := Function.update p.pending sig true }
  | deliver {sig : Sig} (hpending : p.pending sig = true) (hfree : ∀ f ∈ p.frames, f.sig ≠ sig) :
      ProcessMove p { p with frames := ⟨sig, .stop⟩ :: p.frames
                             pending := Function.update p.pending sig false
                             entered := Function.update p.entered sig (p.entered sig + 1) }
  | kill {sig : Sig} (hpending : p.pending sig = true) (hnot : p.installed sig = false) :
      ProcessMove p { p with pc := .killed }
  | handler {f : Frame} {rest : List Frame} {p' : Process} (hframes : p.frames = f :: rest)
      (hmove : HandlerMove p f rest p') : ProcessMove p p'
  | install {sig : Sig} {left : List Sig} (hpc : p.pc = .install (sig :: left)) :
      ProcessMove p
        { p with installed := Function.update p.installed sig true, pc := .install left }
  | arm {t : Timer} {left : List Timer} (hpc : p.pc = .arm (t :: left)) :
      ProcessMove p { p with armed := Function.update p.armed t true
                             started := Function.update p.started t true, pc := .arm left }
  | main {pc : MainPc} (halive : pc ≠ .killed) (hinstall : pc.toInstall = p.pc.toInstall)
      (harm : pc.toArm <:+ p.pc.toArm) : ProcessMove p { p with pc := pc }

theorem ProcessMove.goto {p : Process} {pc old : MainPc} (hpc : p.pc = old) (halive : pc ≠ .killed)
    (hinstall : pc.toInstall = old.toInstall) (harm : pc.toArm <:+ old.toArm) :
    ProcessMove p { p with pc := pc } :=
  .main halive (hpc ▸ hinstall) (hpc ▸ harm)

theorem mainStep_move {p p' : Process} {ok : Bool} (h : mainStep p ok = some p') :
    ProcessMove p p' := by
  unfold mainStep at h
  cases hpc : p.pc with
  | install left =>
      cases left with
      | nil =>
          rw [hpc] at h
          cases h
          exact .goto hpc (by simp) rfl (List.suffix_refl _)
      | cons sig left =>
          rw [hpc] at h
          cases h
          exact .install hpc
  | arm left =>
      cases left with
      | nil =>
          rw [hpc] at h
          cases h
          exact .goto hpc (by simp) rfl (List.suffix_refl _)
      | cons t left =>
          rw [hpc] at h
          cases ok with
          | true =>
              cases h
              exact .arm hpc
          | false =>
              cases h
              exact .goto hpc (by simp) rfl (List.suffix_cons t left)
  | loopTest =>
      rw [hpc] at h
      cases h
      apply ProcessMove.goto hpc
      · split <;> simp
      · split <;> rfl
      · split <;> exact List.suffix_refl _
  | getTimer left =>
      cases left with
      | nil =>
          rw [hpc] at h
          cases h
          exact .goto hpc (by simp) rfl (List.suffix_refl _)
      | cons t left =>
          rw [hpc] at h
          cases h
          apply ProcessMove.goto hpc
          · split <;> simp
          · split <;> rfl
          · split <;> exact List.suffix_refl _
  | rest | closeLogger =>
      rw [hpc] at h
      cases h
      exact .goto hpc (by simp) rfl (List.suffix_refl _)
  | returned | killed =>
      rw [hpc] at h
      cases h

/-- **What a step does is one of the moves.** -/
theorem stepProcess_move {p p' : Process} {a : Action} (h : stepProcess p a = some p') :
    ProcessMove p p' := by
  unfold stepProcess at h
  obtain ⟨-, h⟩ := Option.ite_none_left_eq_some.1 h
  cases a with
  | expire t =>
      obtain ⟨harmed, h⟩ := Option.ite_none_right_eq_some.1 h
      cases h
      exact .expire (by rw [t.timer_signal]; exact harmed)
  | deliver sig =>
      obtain ⟨⟨hpending, hfree⟩, h⟩ := Option.ite_none_right_eq_some.1 h
      cases hinst : p.installed sig with
      | true =>
          rw [if_pos hinst] at h
          cases h
          exact .deliver hpending hfree
      | false =>
          rw [if_neg (by rw [hinst]; exact Bool.false_ne_true)] at h
          cases h
          exact .kill hpending hinst
  | run ok =>
      cases hframes : p.frames with
      | nil =>
          rw [hframes] at h
          exact mainStep_move h
      | cons f rest =>
          rw [hframes] at h
          cases h
          exact .handler hframes (handlerStep_move p f rest ok)

end CPlayground.SignalTimer
