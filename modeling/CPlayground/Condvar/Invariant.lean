import CPlayground.Condvar.Model
import Mathlib.Data.List.Range

set_option autoImplicit false

/-! # What holds while the threads count

A counting thread moves along its loop (`Move`), stores or prints. From this come the invariants:
the lines printed are `1, 2, 3, …` and `count` runs ahead of them by the line that is about to be
printed (`Counted`); a thread goes round once more only below 10, so `count` never passes 11; and
`func1`, which has once counted in the range from 3 to 6, does not pass its tests again before
`count` is past it (`Halted`).
-/

namespace CPlayground.Condvar

open Threads

variable {s s' : CountState} {f : Func} {a : Action Thread Bool}

/-! ## What a step can do -/

/-- Where the test of `COUNT_HALT1` leads. -/
def Func.low (f : Func) (count : Int) : FuncPc :=
  match f with
  | .func1 => if COUNT_HALT1 ≤ count then .testHigh else .unlockCond
  | .func2 => if count < COUNT_HALT1 then .atCond else .testHigh

/-- Where the test of `COUNT_HALT2` leads. -/
def Func.high (f : Func) (count : Int) : FuncPc :=
  match f with
  | .func1 => if count ≤ COUNT_HALT2 then .atCond else .unlockCond
  | .func2 => if COUNT_HALT2 < count then .atCond else .unlockCond

/-- What a thread does at the condition variable. -/
def Func.cond : Func → Instr Mutex Cond Shared Bool FuncPc
  | .func1 => .wait .condition .condition .testLow
  | .func2 => .signal .condition .unlockCond

theorem code_func (f : Func) : code (.func f) = countLoop f f.low f.high f.cond := by
  cases f <;> rfl

/-- Where a thread goes on from the condition variable. -/
def Func.afterCond : Func → FuncPc
  | .func1 => .testLow
  | .func2 => .unlockCond

/-- The moves that leave `count` and the output alone. -/
inductive Move (f : Func) (count : Int) : FuncPc → FuncPc → Prop
  | start : Move f count .start .lockCond
  | lockCond : Move f count .lockCond .testLow
  | low : Move f count .testLow (f.low count)
  | high : Move f count .testHigh (f.high count)
  | cond : Move f count .atCond f.afterCond
  | unlockCond : Move f count .unlockCond .lockCount
  | lockCount : Move f count .lockCount .load
  | load : Move f count .load (.store count)
  | unlockCount : Move f count .unlockCount .testDone
  | again (h : count < COUNT_DONE) : Move f count .testDone .lockCond
  | done (h : COUNT_DONE ≤ count) : Move f count .testDone .returned

/-- What an instruction of a counting thread does. -/
inductive Effect (f : Func) (d d' : Shared) : FuncPc → FuncPc → Prop
  | move {p q : FuncPc} (hmove : Move f d.count p q) (hcount : d'.count = d.count)
      (houtput : d'.output = d.output) : Effect f d d' p q
  | store (temp : Int) (hcount : d'.count = wrap32 (temp + 1)) (houtput : d'.output = d.output) :
      Effect f d d' (.store temp) .print
  | print (hcount : d'.count = d.count) (houtput : d'.output = d.output ++ [(f, d.count)]) :
      Effect f d d' .print .unlockCount

theorem effect_cases {d d' : Shared} {ok : Bool} {p q : FuncPc}
    (h : (code (.func f) p).effect d ok = some (d', q)) : Effect f d d' p q := by
  rw [code_func] at h
  cases p with
  | start =>
      obtain ⟨-, he⟩ := Option.ite_none_right_eq_some.1 h
      cases he
      exact .move .start rfl rfl
  | lockCond =>
      cases h
      exact .move .lockCond rfl rfl
  | testLow =>
      cases h
      exact .move .low rfl rfl
  | testHigh =>
      cases h
      exact .move .high rfl rfl
  | atCond =>
      cases f <;> cases h <;> exact .move .cond rfl rfl
  | unlockCond =>
      cases h
      exact .move .unlockCond rfl rfl
  | lockCount =>
      cases h
      exact .move .lockCount rfl rfl
  | load =>
      cases h
      exact .move .load rfl rfl
  | store temp =>
      cases h
      exact .store temp rfl rfl
  | print =>
      cases h
      exact .print rfl rfl
  | unlockCount =>
      cases h
      exact .move .unlockCount rfl rfl
  | testDone =>
      by_cases hdone : COUNT_DONE ≤ d.count
      · simp only [countLoop, Instr.effect, if_pos hdone] at h
        cases h
        exact .move (.done hdone) rfl rfl
      · simp only [countLoop, Instr.effect, if_neg hdone] at h
        cases h
        exact .move (.again (not_le.1 hdone)) rfl rfl
  | returned => cases h

theorem main_effect {d d' : Shared} {ok : Bool} {p q : MainPc}
    (h : (code .main p).effect d ok = some (d', q)) :
    d'.count = d.count ∧ d'.output = d.output := by
  cases p with
  | create f => cases ok <;> cases h <;> exact ⟨rfl, rfl⟩
  | join f =>
      obtain ⟨-, he⟩ := Option.ite_none_right_eq_some.1 h
      cases he
      exact ⟨rfl, rfl⟩
  | returned => cases h

/-- The step leaves the counting alone. -/
structure Quiet (s s' : CountState) : Prop where
  count : s'.data.count = s.data.count
  output : s'.data.output = s.data.output
  funcs : ∀ f, funcAt s' f = funcAt s f

/-- The step is one of `f`. -/
structure Acts (f : Func) (s s' : CountState) : Prop where
  effect : Effect f s.data s'.data (funcAt s f) (funcAt s' f)
  others : ∀ g, g ≠ f → funcAt s' g = funcAt s g

/-- **Inversion of a step of the process.** -/
theorem process_cases (h : stepProcess s a = some s') : Quiet s s' ∨ ∃ f, Acts f s s' := by
  obtain ⟨-, hstep⟩ := Option.ite_none_left_eq_some.1 h
  rcases step_effect hstep with ⟨hdata, hpc⟩ | ⟨t, ok, wakes, next, -, heffect, hpc⟩
  · exact .inl ⟨by rw [hdata], by rw [hdata], fun f => congrFun hpc (.func f)⟩
  · cases t with
    | main =>
        have hmain := main_effect heffect
        refine .inl ⟨hmain.1, hmain.2, fun f => ?_⟩
        show s'.pc (.func f) = s.pc (.func f)
        rw [hpc, Function.update_of_ne (by simp)]
    | func f =>
        refine .inr ⟨f, ?_, fun g hg => ?_⟩
        · have hnext : funcAt s' f = next := by
            show s'.pc (.func f) = next
            rw [hpc, Function.update_self]
          rw [hnext]
          exact effect_cases heffect
        · show s'.pc (.func g) = s.pc (.func g)
          rw [hpc, Function.update_of_ne (by simpa using hg)]

/-! ## Mutual exclusion -/

theorem code_respects (t : Thread) (p : Pc t) : (code t p).Respects (holds t) p := by
  cases t with
  | main =>
      cases p <;> simp [code, mainCode, Instr.Respects, holds, MainPc.holds]
  | func f =>
      rw [code_func]
      cases p with
      | start | testDone =>
          simp only [countLoop, Instr.Respects]
          intro d ok d' next he m
          split_ifs at he <;> cases he <;> cases m <;> rfl
      | load | store _ | print =>
          simp only [countLoop, Instr.Respects]
          intro d ok d' next he m
          cases he
          cases m <;> rfl
      | testLow | testHigh =>
          simp only [countLoop, Instr.Respects]
          intro d ok d' next he m
          cases he
          cases f <;> simp only [Func.low, Func.high] <;> split_ifs <;> cases m <;> rfl
      | atCond =>
          cases f <;> simp only [countLoop, Func.cond, Instr.Respects] <;>
            (try refine ⟨rfl, ?_⟩) <;> intro m <;> cases m <;> rfl
      | lockCond | unlockCond | lockCount | unlockCount =>
          simp only [countLoop, Instr.Respects]
          refine ⟨rfl, fun m => ?_⟩
          cases m <;> rfl
      | returned => trivial

theorem locked_start : Locked code holds startState where
  owner := by
    intro m t
    rcases t with _ | f <;> simp [startState, State.Holding, holds, MainPc.holds]
  asleep := fun t ht => absurd rfl ht

theorem locked_reachable (h : CountReachable s) : Locked code holds s := by
  refine Reachable.invariant (Locked code holds) ?_ ?_ h
  · rintro s rfl
    exact locked_start
  · rintro s s' - hl ⟨a, hstep⟩
    exact hl.step code_respects (Option.ite_none_left_eq_some.1 hstep).2

/-- Only one thread at a time is inside `count_mutex`. -/
theorem alone (h : Locked code holds s) {g : Func} (hf : (funcAt s f).holds .count = true)
    (hg : (funcAt s g).holds .count = true) : f = g := by
  -- nobody waits while holding `count_mutex`
  have hown : ∀ f, (funcAt s f).holds .count = true → s.owner .count = some (.func f) := by
    intro f hf
    have hholds : holds (.func f) (s.pc (.func f)) .count = true := hf
    refine h.owner_of hholds fun c next hi => ?_
    rw [code_func] at hi
    cases hp : funcAt s f with
    | atCond =>
        rw [hp] at hf
        cases hf
    | start | lockCond | testLow | testHigh | unlockCond | lockCount | load | store _ | print
    | unlockCount | testDone | returned =>
        rw [show s.pc (.func f) = funcAt s f from rfl, hp] at hi
        cases hi
  have h1 := hown f hf
  have h2 := hown g hg
  rw [h1] at h2
  cases h2
  rfl

/-! ## The counter and the lines -/

/-- The numbers from 1 to `n`. -/
def oneTo (n : Nat) : List Int := (List.range n).map fun i : Nat => (i : Int) + 1

theorem oneTo_succ (n : Nat) : oneTo (n + 1) = oneTo n ++ [(n + 1 : Int)] := by
  rw [oneTo, List.range_succ, List.map_append]
  rfl

/-- 1 behind the store, until the thread goes round again. -/
def FuncPc.late : FuncPc → Nat
  | .print | .unlockCount | .testDone | .returned => 1
  | _ => 0

/-- The lines are numbered in order, and `count` is the number of the last one, or of the next
one while it is being printed; past 9 it counts the threads that do not go round again. -/
structure Counted (s : CountState) : Prop where
  lines : s.data.output.map Prod.snd = oneTo s.data.output.length
  printing : ∀ f, funcAt s f = .print → s.data.count = s.data.output.length + 1
  settled : (∀ f, funcAt s f ≠ .print) → s.data.count = s.data.output.length
  loaded : ∀ f temp, funcAt s f = .store temp → temp = s.data.count
  late : s.data.count ≤ 9 + (∑ f, (funcAt s f).late : Nat)
  returned : ∀ f, funcAt s f = .returned → COUNT_DONE ≤ s.data.count

theorem late_le_two (s : CountState) : ∑ f, (funcAt s f).late ≤ 2 := by
  have hle : ∀ p : FuncPc, p.late ≤ 1 := by
    intro p
    cases p <;> simp [FuncPc.late]
  calc ∑ f, (funcAt s f).late ≤ ∑ _f : Func, 1 := Finset.sum_le_sum fun f _ => hle (funcAt s f)
    _ = 2 := rfl

namespace Counted

theorem count_le (h : Counted s) : s.data.count ≤ 11 := by
  have hlate := h.late
  have htwo := late_le_two s
  omega

theorem count_nonneg (h : Counted s) : 0 ≤ s.data.count := by
  by_cases hp : ∃ f, funcAt s f = .print
  · obtain ⟨f, hf⟩ := hp
    have := h.printing f hf
    omega
  · have := h.settled fun f hf => hp ⟨f, hf⟩
    omega

/-- The store of `count++` puts back one more than there is. -/
theorem stored (h : Counted s) {temp : Int} (hf : funcAt s f = .store temp) :
    wrap32 (temp + 1) = s.data.count + 1 := by
  have hle := h.count_le
  have hge := h.count_nonneg
  rw [h.loaded f temp hf]
  exact wrap32_eq (by omega) (by omega)

end Counted

theorem counted_start : Counted startState where
  lines := rfl
  printing := fun f hf => by cases hf
  settled := fun _ => rfl
  loaded := fun f temp hf => by cases hf
  late := by decide
  returned := fun f hf => by cases hf

theorem Counted.quiet (h : Counted s) (hq : Quiet s s') : Counted s' where
  lines := by
    rw [hq.output]
    exact h.lines
  printing := fun f hf => by
    rw [hq.count, hq.output]
    exact h.printing f (hq.funcs f ▸ hf)
  settled := fun hf => by
    rw [hq.count, hq.output]
    exact h.settled fun f => hq.funcs f ▸ hf f
  loaded := fun f temp hf => by
    rw [hq.count]
    exact h.loaded f temp (hq.funcs f ▸ hf)
  late := by
    simp only [hq.count, hq.funcs]
    exact h.late
  returned := fun f hf => by
    rw [hq.count]
    exact h.returned f (hq.funcs f ▸ hf)

/-- Where a move can lead. -/
theorem Move.cases_late {count : Int} {p q : FuncPc} (h : Move f count p q) :
    p ≠ .print ∧ q ≠ .print ∧ (∀ temp, q = .store temp → temp = count) ∧
      (p.late ≤ q.late ∨ count < COUNT_DONE) ∧ (q = .returned → COUNT_DONE ≤ count) := by
  cases h with
  | low => cases f <;> simp only [Func.low] <;> split_ifs <;> simp [FuncPc.late]
  | high => cases f <;> simp only [Func.high] <;> split_ifs <;> simp [FuncPc.late]
  | cond => cases f <;> simp [Func.afterCond, FuncPc.late]
  | again h => simp [h]
  | done h => simp [FuncPc.late, h]
  | load => simp [FuncPc.late, eq_comm]
  | start | lockCond | unlockCond | lockCount | unlockCount => simp [FuncPc.late]

/-- The sum over the threads changes by what `f` changes. -/
theorem Acts.late (ha : Acts f s s') : ∑ g, (funcAt s' g).late + (funcAt s f).late
    = ∑ g, (funcAt s g).late + (funcAt s' f).late :=
  sum_step (fun g => (funcAt s g).late) (fun g => (funcAt s' g).late) f
    fun g hg => by rw [ha.others g hg]

theorem Counted.move (h : Counted s) (ha : Acts f s s')
    (hmove : Move f s.data.count (funcAt s f) (funcAt s' f))
    (hcount : s'.data.count = s.data.count) (houtput : s'.data.output = s.data.output) :
    Counted s' := by
  obtain ⟨hp, hq, hload, hlate, hdone⟩ := hmove.cases_late
  refine ⟨?_, fun g hg => ?_, fun hg => ?_, fun g temp hg => ?_, ?_, fun g hg => ?_⟩
  · rw [houtput]
    exact h.lines
  · rw [hcount, houtput]
    by_cases hgf : g = f
    · subst hgf
      exact absurd hg hq
    · exact h.printing g (ha.others g hgf ▸ hg)
  · rw [hcount, houtput]
    refine h.settled fun g => ?_
    by_cases hgf : g = f
    · subst hgf
      exact hp
    · exact ha.others g hgf ▸ hg g
  · rw [hcount]
    by_cases hgf : g = f
    · subst hgf
      exact hload temp hg
    · exact h.loaded g temp (ha.others g hgf ▸ hg)
  · have hsum := ha.late
    have hold := h.late
    rw [hcount]
    unfold COUNT_DONE at hlate
    omega
  · rw [hcount]
    by_cases hgf : g = f
    · subst hgf
      exact hdone hg
    · exact h.returned g (ha.others g hgf ▸ hg)

theorem Counted.store (h : Counted s) (hl : Locked code holds s) (ha : Acts f s s') {temp : Int}
    (hp : funcAt s f = .store temp) (hq : funcAt s' f = .print)
    (hcount : s'.data.count = wrap32 (temp + 1)) (houtput : s'.data.output = s.data.output) :
    Counted s' ∧ s'.data.count = s.data.count + 1 := by
  have hnext : s'.data.count = s.data.count + 1 := hcount.trans (h.stored hp)
  have hinside : (funcAt s f).holds .count = true := by
    rw [hp]
    rfl
  -- nobody else is inside `count_mutex`
  have hsole : ∀ g, (funcAt s g).holds .count = true → g = f :=
    fun g hg => (alone hl hinside hg).symm
  have hnone : ∀ g, funcAt s g ≠ .print := by
    intro g hg
    have hgf := hsole g (by rw [hg]; rfl)
    subst hgf
    rw [hp] at hg
    cases hg
  have hsettled := h.settled hnone
  refine ⟨⟨?_, fun g hg => ?_, fun hg => ?_, fun g temp hg => ?_, ?_, fun g hg => ?_⟩, hnext⟩
  · rw [houtput]
    exact h.lines
  · rw [hnext, houtput, hsettled]
  · exact absurd hq (hg f)
  · by_cases hgf : g = f
    · subst hgf
      rw [hq] at hg
      cases hg
    · rw [ha.others g hgf] at hg
      exact absurd (hsole g (by rw [hg]; rfl)) hgf
  · have hsum := ha.late
    have hold := h.late
    rw [hp, hq, show (FuncPc.store temp).late = 0 from rfl,
      show FuncPc.print.late = 1 from rfl] at hsum
    omega
  · have hgf : g ≠ f := by
      rintro rfl
      rw [hq] at hg
      cases hg
    have hdone := h.returned g (ha.others g hgf ▸ hg)
    omega

theorem Counted.print (h : Counted s) (hl : Locked code holds s) (ha : Acts f s s')
    (hp : funcAt s f = .print) (hq : funcAt s' f = .unlockCount)
    (hcount : s'.data.count = s.data.count)
    (houtput : s'.data.output = s.data.output ++ [(f, s.data.count)]) : Counted s' := by
  have hline := h.printing f hp
  have hlength : s'.data.output.length = s.data.output.length + 1 := by
    rw [houtput, List.length_append]
    rfl
  have hinside : (funcAt s f).holds .count = true := by
    rw [hp]
    rfl
  refine ⟨?_, fun g hg => ?_, fun hg => ?_, fun g temp hg => ?_, ?_, fun g hg => ?_⟩
  · rw [hlength, houtput, List.map_append, h.lines, oneTo_succ, List.map_singleton, hline]
  · by_cases hgf : g = f
    · subst hgf
      rw [hq] at hg
      cases hg
    · rw [ha.others g hgf] at hg
      exact absurd (alone hl hinside (by rw [hg]; rfl)).symm hgf
  · rw [hcount, hline, hlength]
    push_cast
    rfl
  · rw [hcount]
    by_cases hgf : g = f
    · subst hgf
      rw [hq] at hg
      cases hg
    · exact h.loaded g temp (ha.others g hgf ▸ hg)
  · have hsum := ha.late
    have hold := h.late
    rw [hp, hq, show FuncPc.unlockCount.late = 1 from rfl,
      show FuncPc.print.late = 1 from rfl] at hsum
    omega
  · rw [hcount]
    have hgf : g ≠ f := by
      rintro rfl
      rw [hq] at hg
      cases hg
    exact h.returned g (ha.others g hgf ▸ hg)

/-- **What a step can do to the counter**, told from the invariant: nothing, a move, a store of
one more, or a line. -/
inductive Change (s s' : CountState) : Prop
  | quiet (hquiet : Quiet s s')
  | move (f : Func) (ha : Acts f s s') (hmove : Move f s.data.count (funcAt s f) (funcAt s' f))
      (hcount : s'.data.count = s.data.count) (houtput : s'.data.output = s.data.output)
  | store (f : Func) (ha : Acts f s s') (temp : Int) (hp : funcAt s f = .store temp)
      (hq : funcAt s' f = .print) (hcount : s'.data.count = wrap32 (temp + 1))
      (houtput : s'.data.output = s.data.output)
  | print (f : Func) (ha : Acts f s s') (hp : funcAt s f = .print)
      (hq : funcAt s' f = .unlockCount) (hcount : s'.data.count = s.data.count)
      (houtput : s'.data.output = s.data.output ++ [(f, s.data.count)])

theorem Acts.split (ha : Acts f s s') :
    (Move f s.data.count (funcAt s f) (funcAt s' f) ∧ s'.data.count = s.data.count ∧
        s'.data.output = s.data.output) ∨
      (∃ temp, funcAt s f = .store temp ∧ funcAt s' f = .print ∧
        s'.data.count = wrap32 (temp + 1) ∧ s'.data.output = s.data.output) ∨
      (funcAt s f = .print ∧ funcAt s' f = .unlockCount ∧ s'.data.count = s.data.count ∧
        s'.data.output = s.data.output ++ [(f, s.data.count)]) := by
  have heffect := ha.effect
  generalize funcAt s f = p at heffect ⊢
  generalize funcAt s' f = q at heffect ⊢
  cases heffect with
  | move hmove hcount houtput => exact .inl ⟨hmove, hcount, houtput⟩
  | store temp hcount houtput => exact .inr (.inl ⟨temp, rfl, rfl, hcount, houtput⟩)
  | print hcount houtput => exact .inr (.inr ⟨rfl, rfl, hcount, houtput⟩)

theorem step_change (h : stepProcess s a = some s') : Change s s' := by
  rcases process_cases h with hquiet | ⟨f, ha⟩
  · exact .quiet hquiet
  · rcases ha.split with ⟨hmove, hcount, houtput⟩ | ⟨temp, hp, hq, hcount, houtput⟩ |
      ⟨hp, hq, hcount, houtput⟩
    · exact .move f ha hmove hcount houtput
    · exact .store f ha temp hp hq hcount houtput
    · exact .print f ha hp hq hcount houtput

theorem counted_step (hl : Locked code holds s) (h : Counted s)
    (hstep : stepProcess s a = some s') : Counted s' := by
  cases step_change hstep with
  | quiet hquiet => exact h.quiet hquiet
  | move f ha hmove hcount houtput => exact h.move ha hmove hcount houtput
  | store f ha temp hp hq hcount houtput => exact (h.store hl ha hp hq hcount houtput).1
  | print f ha hp hq hcount houtput => exact h.print hl ha hp hq hcount houtput

theorem counted_reachable (h : CountReachable s) : Counted s := by
  refine Reachable.invariant Counted ?_ ?_ h
  · rintro s rfl
    exact counted_start
  · rintro s s' hreach hc ⟨a, hstep⟩
    exact counted_step (locked_reachable hreach) hc hstep

/-! ## The halt of the first thread -/

/-- A line of `func1` that has counted on from 3, 4, 5 or 6. -/
def Raced (line : Func × Int) : Bool :=
  line.1 = .func1 && COUNT_HALT1 < line.2 && line.2 ≤ COUNT_HALT2 + 1

/-- The line that `func1` is about to print. -/
def pending (s : CountState) : List (Func × Int) :=
  if funcAt s .func1 = .print then [(.func1, s.data.count)] else []

/-- How often `func1` has counted on from 3, 4, 5 or 6. -/
def raced (s : CountState) : Nat := (s.data.output ++ pending s).countP Raced

/-- Behind the tests of `count`, and before its increment. -/
def FuncPc.passed : FuncPc → Bool
  | .unlockCond | .lockCount | .load | .store _ => true
  | _ => false

/-- `func1` has not counted in the range, or has done so once; then it does not pass its tests
again before `count` has left the range. -/
def Halted (s : CountState) : Prop :=
  raced s = 0 ∨ raced s = 1 ∧ COUNT_HALT1 < s.data.count ∧
    (s.data.count ≤ COUNT_HALT2 → (funcAt s .func1).passed = false)

theorem Halted.congr (h : Halted s) (hraced : raced s' = raced s)
    (hcount : s.data.count ≤ s'.data.count)
    (hpassed : (funcAt s' .func1).passed = true → (funcAt s .func1).passed = true ∨
      s.data.count < COUNT_HALT1 ∨ COUNT_HALT2 < s.data.count) : Halted s' := by
  rcases h with h0 | ⟨h1, hlow, hpast⟩
  · exact .inl (hraced.trans h0)
  · refine .inr ⟨hraced.trans h1, by omega, fun hhigh => ?_⟩
    have hbefore := hpast (hcount.trans hhigh)
    rw [Bool.eq_false_iff]
    intro hp
    rcases hpassed hp with hwas | hsmall | hbig
    · rw [hbefore] at hwas
      cases hwas
    · omega
    · omega

theorem pending_of_ne (h : funcAt s .func1 ≠ .print) : pending s = [] := if_neg h

/-- The tests let `func1` pass only outside the range. -/
theorem Move.passed {count : Int} {p q : FuncPc} (h : Move .func1 count p q)
    (hq : q.passed = true) :
    p.passed = true ∨ count < COUNT_HALT1 ∨ COUNT_HALT2 < count := by
  cases h with
  | low =>
      by_cases hlow : COUNT_HALT1 ≤ count
      · simp [Func.low, hlow, FuncPc.passed] at hq
      · exact .inr (.inl (not_le.1 hlow))
  | high =>
      by_cases hhigh : count ≤ COUNT_HALT2
      · simp [Func.high, hhigh, FuncPc.passed] at hq
      · exact .inr (.inr (not_le.1 hhigh))
  | unlockCond | lockCount | load => exact .inl rfl
  | start | lockCond | cond | unlockCount | again _ | done _ => cases hq

theorem Halted.step (hl : Locked code holds s) (hc : Counted s) (h : Halted s)
    (hchange : Change s s') : Halted s' := by
  cases hchange with
  | quiet hquiet =>
      have hraced : raced s' = raced s := by
        unfold raced pending
        rw [hquiet.output, hquiet.funcs, hquiet.count]
      refine h.congr hraced hquiet.count.ge fun hp => .inl ?_
      rwa [hquiet.funcs] at hp
  | move f ha hmove hcount houtput =>
      obtain ⟨hp, hq, -⟩ := hmove.cases_late
      cases f with
      | func1 =>
          have hraced : raced s' = raced s := by
            unfold raced
            rw [pending_of_ne hp, pending_of_ne hq, houtput]
          exact h.congr hraced hcount.ge hmove.passed
      | func2 =>
          have hsame := ha.others .func1 (by decide)
          have hraced : raced s' = raced s := by
            unfold raced pending
            rw [hsame, houtput, hcount]
          refine h.congr hraced hcount.ge fun hp => .inl ?_
          rwa [hsame] at hp
  | store f ha temp hp hq hcount houtput =>
      have hnext := (hc.store hl ha hp hq hcount houtput).2
      cases f with
      | func1 =>
          have hbefore : pending s = [] := pending_of_ne (by rw [hp]; simp)
          have hafter : pending s' = [(.func1, s'.data.count)] := if_pos hq
          have hraced : raced s' = raced s + if Raced (.func1, s'.data.count) then 1 else 0 := by
            unfold raced
            rw [hbefore, hafter, houtput, List.append_nil, List.countP_append,
              List.countP_singleton]
          have hgone : (funcAt s' .func1).passed = false := by
            rw [hq]
            rfl
          by_cases hin : Raced (.func1, s'.data.count)
          -- a count in the range, so there was none before
          · have hzero : raced s = 0 := by
              rcases h with h0 | ⟨-, hlow, hpast⟩
              · exact h0
              · have hfalse := hpast (by
                  simp [Raced] at hin
                  omega)
                rw [hp] at hfalse
                cases hfalse
            rw [if_pos hin, hzero] at hraced
            refine .inr ⟨hraced, ?_, fun _ => hgone⟩
            simp [Raced] at hin
            exact hin.1
          · rw [if_neg hin, Nat.add_zero] at hraced
            exact h.congr hraced (by omega) fun hpassed => by
              rw [hgone] at hpassed
              cases hpassed
      | func2 =>
          have hsame := ha.others .func1 (by decide)
          have hnot : funcAt s .func1 ≠ .print := by
            intro hprint
            exact absurd (alone hl (f := .func2) (g := .func1) (by rw [hp]; rfl)
              (by rw [hprint]; rfl)) (by decide)
          have hraced : raced s' = raced s := by
            unfold raced
            rw [pending_of_ne hnot, pending_of_ne (hsame ▸ hnot), houtput]
          refine h.congr hraced (by omega) fun hpassed => .inl ?_
          rwa [hsame] at hpassed
  | print f ha hp hq hcount houtput =>
      cases f with
      | func1 =>
          have hbefore : pending s = [(.func1, s.data.count)] := if_pos hp
          have hafter : pending s' = [] := pending_of_ne (by rw [hq]; simp)
          have hraced : raced s' = raced s := by
            unfold raced
            rw [hbefore, hafter, houtput, List.append_nil]
          refine h.congr hraced hcount.ge fun hpassed => ?_
          rw [hq] at hpassed
          cases hpassed
      | func2 =>
          have hsame := ha.others .func1 (by decide)
          have hnot : funcAt s .func1 ≠ .print := by
            intro hprint
            exact absurd (alone hl (f := .func2) (g := .func1) (by rw [hp]; rfl)
              (by rw [hprint]; rfl)) (by decide)
          have hraced : raced s' = raced s := by
            unfold raced
            rw [pending_of_ne hnot, pending_of_ne (hsame ▸ hnot), houtput, List.append_nil,
              List.append_nil, List.countP_append, List.countP_singleton]
            rfl
          refine h.congr hraced hcount.ge fun hpassed => .inl ?_
          rwa [hsame] at hpassed

theorem halted_reachable (h : CountReachable s) : Halted s := by
  refine Reachable.invariant Halted ?_ ?_ h
  · rintro s rfl
    exact .inl (by decide)
  · rintro s s' hreach hh ⟨a, hstep⟩
    exact hh.step (locked_reachable hreach) (counted_reachable hreach) (step_change hstep)

end CPlayground.Condvar
