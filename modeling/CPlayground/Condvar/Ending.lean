import CPlayground.Condvar.Progress

set_option autoImplicit false

/-! # How the process ends

`main` returns when it has joined both threads, or when it could not create one. The process
stands still in no other state (`stands_still`), and with both threads created it ends with `count`
at 10 or 11 and a line for each number up to it.
-/

namespace CPlayground.Condvar

open Threads

variable {s s' : CountState} {f : Func} {a : Action Thread Bool}

/-! ## Creation and end of the threads -/

/-- What `main` knows of the threads by its place. -/
def MainPc.Knows (d : Shared) : MainPc → Prop
  | .create .func1 => d.created .func2 = false
  | .create .func2 => d.created .func1 = true ∧ d.created .func2 = false
  | .join .func1 => ∀ f, d.created f = true
  | .join .func2 => (∀ f, d.created f = true) ∧ d.ended .func1 = true
  | .returned => d.created .func2 = true → ∀ f, d.ended f = true

structure Lives (s : CountState) : Prop where
  created : ∀ f, funcAt s f ≠ .start → s.data.created f = true
  ended : ∀ f, s.data.ended f = true ↔ funcAt s f = .returned
  main : (mainAt s).Knows s.data

theorem main_lives {d d' : Shared} {ok : Bool} {p q : MainPc}
    (h : (code .main p).effect d ok = some (d', q)) (hk : p.Knows d) :
    d'.ended = d.ended ∧ (∀ f, d.created f = true → d'.created f = true) ∧ q.Knows d' := by
  cases p with
  | create f =>
      cases ok with
      | false =>
          cases h
          refine ⟨rfl, fun _ h => h, fun hcreated => ?_⟩
          -- the second thread has not been created yet
          cases f with
          | func1 => exact absurd hcreated (by simp [show d.created .func2 = false from hk])
          | func2 => exact absurd hcreated (by simp [hk.2])
      | true =>
          cases h
          have hself : Function.update d.created f true f = true := Function.update_self ..
          have hothers : ∀ g, g ≠ f → Function.update d.created f true g = d.created g :=
            fun g hg => Function.update_of_ne hg ..
          refine ⟨rfl, fun g hg => ?_, ?_⟩
          · show Function.update d.created f true g = true
            by_cases hgf : g = f
            · rw [hgf, hself]
            · rw [hothers g hgf, hg]
          · cases f with
            | func1 => exact ⟨hself, (hothers .func2 (by decide)).trans hk⟩
            | func2 =>
                intro g
                cases g with
                | func1 => exact (hothers .func1 (by decide)).trans hk.1
                | func2 => exact hself
  | join f =>
      obtain ⟨hended, he⟩ := Option.ite_none_right_eq_some.1 h
      cases he
      refine ⟨rfl, fun _ h => h, ?_⟩
      cases f with
      | func1 => exact ⟨hk, hended⟩
      | func2 =>
          intro _ g
          cases g with
          | func1 => exact hk.2
          | func2 => exact hended
  | returned => cases h

/-- More threads that have ended are nothing new to `main`. -/
theorem MainPc.Knows.mono {d d' : Shared} {p : MainPc} (h : p.Knows d)
    (hcreated : d'.created = d.created)
    (hended : ∀ f, d.ended f = true → d'.ended f = true) : p.Knows d' := by
  obtain ⟨count, output, created, ended⟩ := d
  obtain ⟨count', output', created', ended'⟩ := d'
  cases hcreated
  cases p with
  | create f => cases f <;> exact h
  | join f =>
      cases f with
      | func1 => exact h
      | func2 => exact ⟨h.1, hended _ h.2⟩
  | returned => exact fun hc f => hended f (h hc f)

theorem func_lives {d d' : Shared} {ok : Bool} {p q : FuncPc}
    (h : (code (.func f) p).effect d ok = some (d', q)) :
    d'.created = d.created ∧ (p = .start → d.created f = true) ∧ p ≠ .returned ∧
      ((q = .returned ∧ d'.ended = Function.update d.ended f true) ∨
        (q ≠ .returned ∧ d'.ended = d.ended)) := by
  rw [code_func] at h
  cases p with
  | start =>
      obtain ⟨hcreated, he⟩ := Option.ite_none_right_eq_some.1 h
      cases he
      exact ⟨rfl, fun _ => hcreated, by simp, .inr ⟨by simp, rfl⟩⟩
  | testDone =>
      by_cases hdone : COUNT_DONE ≤ d.count
      · simp only [countLoop, Instr.effect, if_pos hdone] at h
        cases h
        exact ⟨rfl, by simp, by simp, .inl ⟨rfl, rfl⟩⟩
      · simp only [countLoop, Instr.effect, if_neg hdone] at h
        cases h
        exact ⟨rfl, by simp, by simp, .inr ⟨by simp, rfl⟩⟩
  | testLow =>
      cases h
      refine ⟨rfl, by simp, by simp, .inr ⟨?_, rfl⟩⟩
      cases f <;> simp only [Func.low] <;> split_ifs <;> simp
  | testHigh =>
      cases h
      refine ⟨rfl, by simp, by simp, .inr ⟨?_, rfl⟩⟩
      cases f <;> simp only [Func.high] <;> split_ifs <;> simp
  | atCond =>
      cases f <;> cases h <;>
        exact ⟨rfl, by simp, by simp, .inr ⟨by simp, rfl⟩⟩
  | lockCond | unlockCond | lockCount | load | store _ | print | unlockCount =>
      cases h
      exact ⟨rfl, by simp, by simp, .inr ⟨by simp, rfl⟩⟩
  | returned => cases h

theorem Lives.step (h : Lives s) (hstep : stepProcess s a = some s') : Lives s' := by
  obtain ⟨-, hstep⟩ := Option.ite_none_left_eq_some.1 hstep
  rcases step_effect hstep with ⟨hdata, hpc⟩ | ⟨t, ok, wakes, next, -, heffect, hpc⟩
  · have hfuncs : ∀ f, funcAt s' f = funcAt s f := fun f => congrFun hpc (.func f)
    refine ⟨fun f hf => ?_, fun f => ?_, ?_⟩
    · rw [hdata]
      exact h.created f (hfuncs f ▸ hf)
    · rw [hdata, h.ended f, hfuncs]
    · rw [hdata, show mainAt s' = mainAt s from congrFun hpc .main]
      exact h.main
  · cases t with
    | main =>
        obtain ⟨hended, hcreated, hknows⟩ := main_lives heffect h.main
        have hfuncs : ∀ f, funcAt s' f = funcAt s f := by
          intro f
          show s'.pc (.func f) = s.pc (.func f)
          rw [hpc, Function.update_of_ne (by simp)]
        have hmain : mainAt s' = next := by
          show s'.pc .main = next
          rw [hpc, Function.update_self]
        refine ⟨fun f hf => hcreated f (h.created f (hfuncs f ▸ hf)), fun f => ?_, hmain ▸ hknows⟩
        rw [hended, h.ended f, hfuncs]
    | func f =>
        obtain ⟨hcreated, hstart, hgone, hended⟩ := func_lives heffect
        have hself : funcAt s' f = next := by
          show s'.pc (.func f) = next
          rw [hpc, Function.update_self]
        have hothers : ∀ g, g ≠ f → funcAt s' g = funcAt s g := by
          intro g hg
          show s'.pc (.func g) = s.pc (.func g)
          rw [hpc, Function.update_of_ne (by simpa using hg)]
        have hmain : mainAt s' = mainAt s := by
          show s'.pc .main = s.pc .main
          rw [hpc, Function.update_of_ne (by simp)]
        refine ⟨fun g hg => ?_, fun g => ?_, ?_⟩
        · rw [hcreated]
          by_cases hgf : g = f
          · subst hgf
            by_cases hs : funcAt s g = .start
            · exact hstart hs
            · exact h.created g hs
          · exact h.created g (hothers g hgf ▸ hg)
        · by_cases hgf : g = f
          · subst hgf
            rw [hself]
            rcases hended with ⟨hq, he⟩ | ⟨hq, he⟩
            · rw [he, Function.update_self]
              exact iff_of_true rfl hq
            · rw [he]
              exact iff_of_false (fun hd => hgone ((h.ended g).1 hd)) hq
          · rw [hothers g hgf, ← h.ended g]
            rcases hended with ⟨-, he⟩ | ⟨-, he⟩
            · rw [he, Function.update_of_ne hgf]
            · rw [he]
        · rw [hmain]
          refine h.main.mono hcreated fun g hg => ?_
          rcases hended with ⟨-, he⟩ | ⟨-, he⟩
          · rw [he]
            by_cases hgf : g = f
            · rw [hgf, Function.update_self]
            · rw [Function.update_of_ne hgf]
              exact hg
          · rw [he]
            exact hg

theorem lives_reachable (h : CountReachable s) : Lives s := by
  refine Reachable.invariant Lives ?_ ?_ h
  · rintro s rfl
    exact ⟨fun f hf => absurd rfl hf, fun f => by simp [startState], rfl⟩
  · rintro s s' - hlives ⟨a, hstep⟩
    exact hlives.step hstep

/-! ## Somebody can go on -/

/-- The instruction of a thread that has been created and has not returned has an effect. -/
theorem func_effect (hcreated : s.data.created f = true)
    (hp : funcAt s f ≠ .returned) :
    ((code (.func f) (funcAt s f)).effect s.data true).isSome := by
  rw [code_func]
  cases hat : funcAt s f with
  | start => simp [countLoop, Instr.effect, hcreated]
  | testDone =>
      simp only [countLoop, Instr.effect]
      split_ifs <;> rfl
  | atCond => cases f <;> rfl
  | returned => exact absurd hat hp
  | lockCond | testLow | testHigh | unlockCond | lockCount | load | store _ | print | unlockCount =>
      rfl

/-- A thread that holds a mutex does not wait for another one. -/
theorem nobody_of_holding {t u : Thread} {m : Mutex} (h : s.Holding code holds t m) :
    ¬ s.WaitsOn code t u := by
  rintro ⟨m', -, hneeds⟩
  obtain ⟨hholds, hawake⟩ := h
  cases t with
  | main => cases hholds
  | func f =>
      have hin : (funcAt s f).holds m = true := hholds
      rcases hneeds with ⟨next, hi⟩ | ⟨hwoken, c, next, hi⟩
      · rw [code_func] at hi
        cases hp : funcAt s f with
        | lockCond | lockCount =>
            rw [hp] at hin
            cases m <;> cases hin
        | atCond =>
            rw [show s.pc (.func f) = funcAt s f from rfl, hp] at hi
            cases f <;> cases hi
        | start | testLow | testHigh | unlockCond | load | store _ | print | unlockCount | testDone
        | returned =>
            rw [show s.pc (.func f) = funcAt s f from rfl, hp] at hi
            cases hi
      -- inside the wait it has given up the only mutex it had
      · obtain ⟨hf, hat, hm'⟩ := wait_of_code hi
        cases hf
        have hm : m = .condition := by
          rw [hat] at hin
          cases m with
          | count => cases hin
          | condition => rfl
        subst hm hm'
        rcases hawake with hawake | hno
        · rw [hwoken] at hawake
          cases hawake
        · exact hno c next hi

/-- A counting thread that has been created, has not returned and is not blocked can go on, or
the owner of the mutex that it waits for can. -/
theorem ready_runs (hl : Locked code holds s) (hlives : Lives s)
    (hcreated : s.data.created f = true) (hp : funcAt s f ≠ .returned)
    (hawake : ∀ c, s.sleep (.func f) ≠ .blocked c) : ∃ t, s.Enabled code t := by
  by_cases hwaits : ∃ u, s.WaitsOn code (.func f) u
  · obtain ⟨u, hu⟩ := hwaits
    obtain ⟨m, -, hholding⟩ := hl.holding_of_waitsOn hu
    cases u with
    | main => cases hholding.1
    | func g =>
        have hin : (funcAt s g).holds m = true := hholding.1
        have hstarted : funcAt s g ≠ .start := by
          intro hat
          rw [hat] at hin
          cases m <;> cases hin
        have hrunning : funcAt s g ≠ .returned := by
          intro hat
          rw [hat] at hin
          cases m <;> cases hin
        refine ⟨.func g, hl.enabled code_respects (fun c hblocked => ?_)
          (fun v => nobody_of_holding hholding)
          ⟨true, func_effect (hlives.created g hstarted) hrunning⟩⟩
        -- a blocked thread has given up its mutex
        obtain ⟨c', m', next, hi, -⟩ := hl.asleep (.func g) (by simp [hblocked])
        obtain ⟨hg, hat, hm'⟩ := wait_of_code hi
        cases hg
        subst hm'
        have hm : m = .condition := by
          rw [hat] at hin
          cases m with
          | count => cases hin
          | condition => rfl
        subst hm
        rcases hholding.2 with hawake | hno
        · rw [hblocked] at hawake
          cases hawake
        · exact hno c' next hi
  · exact ⟨.func f, hl.enabled code_respects hawake (fun v hv => hwaits ⟨v, hv⟩)
      ⟨true, func_effect hcreated hp⟩⟩

/-- While `main` waits for a thread that has not returned, somebody can go on. -/
theorem joining_runs (h : CountReachable s) (hcreated : ∀ f, s.data.created f = true)
    (hp : funcAt s f ≠ .returned) : ∃ t, s.Enabled code t := by
  have hl := locked_reachable h
  have hlives := lives_reachable h
  have hc := counted_reachable h
  by_cases hblocked : s.sleep (.func .func1) = .blocked .condition
  -- the first thread is blocked: the second one has not returned
  · obtain ⟨c, m, next, hi, -⟩ := hl.asleep (.func .func1) (by simp [hblocked])
    obtain ⟨-, hat, -⟩ := wait_of_code hi
    obtain ⟨-, hle⟩ := (parked_reachable h).parked hat (by simp [hblocked])
    refine ready_runs hl hlives (hcreated .func2) (fun hreturned => ?_) fun c hb => ?_
    · have hten := hc.returned .func2 hreturned
      unfold COUNT_DONE at hten
      unfold COUNT_HALT2 at hle
      omega
    · obtain ⟨c', m', next', hi', -⟩ := hl.asleep (.func .func2) (by simp [hb])
      cases (wait_of_code hi').1
  · refine ready_runs hl hlives (hcreated f) hp fun c hb => ?_
    obtain ⟨c', m', next', hi', -⟩ := hl.asleep (.func f) (by simp [hb])
    cases (wait_of_code hi').1
    cases c
    exact hblocked hb

theorem main_enabled (hl : Locked code holds s)
    (heffect : ((code .main (mainAt s)).effect s.data true).isSome) : s.Enabled code .main := by
  refine hl.enabled code_respects (fun c hblocked => ?_) (fun u hu => ?_) ⟨true, heffect⟩
  · obtain ⟨c', m, next, hi, -⟩ := hl.asleep .main (by simp [hblocked])
    cases (wait_of_code hi).1
  · obtain ⟨m, -, ⟨next, hi⟩ | ⟨-, c, next, hi⟩⟩ := hu
    · cases hp : mainAt s <;> rw [show s.pc .main = mainAt s from rfl, hp] at hi <;> cases hi
    · cases (wait_of_code hi).1

theorem somebody_runs (h : CountReachable s) (hmain : mainAt s ≠ .returned) :
    ∃ t ok wakes, (stepProcess s (.run t ok wakes)).isSome := by
  have hlives := lives_reachable h
  have hprocess : ∀ t, s.Enabled code t →
      ∃ t ok wakes, (stepProcess s (.run t ok wakes)).isSome := by
    rintro t ⟨ok, wakes, hstep⟩
    exact ⟨t, ok, wakes, by rwa [stepProcess, if_neg hmain]⟩
  have hknows := hlives.main
  cases hp : mainAt s with
  | create f =>
      exact hprocess .main (main_enabled (locked_reachable h) (by rw [hp]; rfl))
  | join f =>
      have hcreated : ∀ g, s.data.created g = true := by
        rw [hp] at hknows
        cases f with
        | func1 => exact hknows
        | func2 => exact hknows.1
      by_cases hended : s.data.ended f = true
      · refine hprocess .main (main_enabled (locked_reachable h) ?_)
        rw [hp]
        simp [code, mainCode, Instr.effect, hended]
      · obtain ⟨t, ht⟩ := joining_runs h hcreated fun hr => hended ((hlives.ended f).2 hr)
        exact hprocess t ht
  | returned => exact absurd hp hmain

/-! ## Results -/

/-- **The lines are numbered in order**, also while `count` is tested outside `count_mutex`, and
the halt of `func1` is passed by at most once: of the lines 4 to 7 it prints at most one. -/
theorem lines_in_order (h : CountReachable s) :
    s.data.output.map Prod.snd = oneTo s.data.output.length ∧ s.data.output.length ≤ 11 ∧
      (s.data.count = s.data.output.length ∨
        s.data.count = s.data.output.length + 1 ∧ ∃ f, funcAt s f = .print) ∧
      s.data.output.countP Raced ≤ 1 := by
  have hc := counted_reachable h
  have hle := hc.count_le
  refine ⟨hc.lines, ?_, ?_, ?_⟩
  · by_cases hp : ∃ f, funcAt s f = .print
    · obtain ⟨f, hf⟩ := hp
      have := hc.printing f hf
      omega
    · have := hc.settled fun f hf => hp ⟨f, hf⟩
      omega
  · by_cases hp : ∃ f, funcAt s f = .print
    · obtain ⟨f, hf⟩ := hp
      exact .inr ⟨hc.printing f hf, f, hf⟩
    · exact .inl (hc.settled fun f hf => hp ⟨f, hf⟩)
  · have hall : s.data.output.countP Raced ≤ raced s := by
      unfold raced
      rw [List.countP_append]
      exact Nat.le_add_right _ _
    rcases halted_reachable h with h0 | ⟨h1, -⟩
    · omega
    · omega

/-- `func1` has passed its tests at 0, `func2` counts to 4, and `func1` counts on from there. -/
theorem lines_in_order_run : ∃ s : CountState, s.data.output.length = 5 ∧
    s.data.output.map Prod.snd = oneTo 5 ∧ s.data.output.countP Raced = 1 := by
  obtain ⟨s, hs, hp⟩ := countReachable_of_run
    (turns .main 2 ++ turns (.func .func1) 4 ++ turns (.func .func2) 40 ++ turns (.func .func1) 4)
    (fun s => decide (s.data.output.length = 5 ∧ (.func1, 5) ∈ s.data.output)) (by decide +kernel)
  obtain ⟨hlength, hline⟩ := of_decide_eq_true hp
  obtain ⟨hlines, -, -, hraced⟩ := lines_in_order hs
  have hpos : 0 < s.data.output.countP Raced :=
    List.countP_pos_iff.2 ⟨(.func1, 5), hline, by decide⟩
  exact ⟨s, hlength, hlength ▸ hlines, Nat.le_antisymm hraced hpos⟩

/-- **No wakeup is lost.** While `func1` is blocked, `func2` runs: it has not returned, and `count`
is in the range, or one past it with `func2` on its way to the signal. -/
theorem blocked_is_signalled (h : CountReachable s)
    (hblocked : s.sleep (.func .func1) = .blocked .condition) :
    COUNT_HALT1 ≤ s.data.count ∧ funcAt s .func2 ≠ .returned ∧
      (s.data.count ≤ COUNT_HALT2 ∨
        s.data.count = COUNT_HALT2 + 1 ∧ (funcAt s .func2).signalling = true) := by
  obtain ⟨c, m, next, hi, -⟩ := (locked_reachable h).asleep (.func .func1) (by simp [hblocked])
  obtain ⟨-, hat, -⟩ := wait_of_code hi
  obtain ⟨hlow, hle⟩ := (parked_reachable h).parked hat (by simp [hblocked])
  refine ⟨hlow, fun hreturned => ?_, hle⟩
  have hten := (counted_reachable h).returned .func2 hreturned
  unfold COUNT_DONE at hten
  unfold COUNT_HALT2 at hle
  omega

/-- `func1` blocks at 3. -/
theorem blocked_is_signalled_run : ∃ s : CountState,
    s.sleep (.func .func1) = .blocked .condition ∧ funcAt s .func2 ≠ .returned := by
  obtain ⟨s, hs, hp⟩ := countReachable_of_run
    (turns .main 2 ++ turns (.func .func2) 31 ++ turns (.func .func1) 5)
    (fun s => decide (s.sleep (.func .func1) = .blocked .condition)) (by decide +kernel)
  have hblocked := of_decide_eq_true hp
  exact ⟨s, hblocked, (blocked_is_signalled hs hblocked).2.1⟩

/-- **The process stands still only when it has ended.** When no thread can take a step, `main` has
returned; if both threads have been created, both have returned, `count` is 10 or 11, and there
is a line for each number up to it. -/
theorem stands_still (h : CountReachable s)
    (hstuck : ∀ t ok wakes, stepProcess s (.run t ok wakes) = none) :
    mainAt s = .returned ∧ (s.data.created .func2 = true →
      (∀ f, funcAt s f = .returned) ∧ (s.data.count = 10 ∨ s.data.count = 11) ∧
        s.data.output.map Prod.snd = oneTo s.data.count.toNat) := by
  have hmain : mainAt s = .returned := by
    by_contra hne
    obtain ⟨t, ok, wakes, hstep⟩ := somebody_runs h hne
    rw [hstuck t ok wakes] at hstep
    cases hstep
  refine ⟨hmain, fun hcreated => ?_⟩
  have hlives := lives_reachable h
  have hc := counted_reachable h
  have hknows := hlives.main
  rw [hmain] at hknows
  have hreturned : ∀ f, funcAt s f = .returned := fun f => (hlives.ended f).1 (hknows hcreated f)
  have hcount := hc.settled fun f => by simp [hreturned f]
  have hten := hc.returned .func1 (hreturned .func1)
  have hle := hc.count_le
  unfold COUNT_DONE at hten
  refine ⟨hreturned, by omega, ?_⟩
  rw [hc.lines, hcount]
  rfl

/-- A run that ends with 11 lines: `func2` counts to ten, then `func1` counts once. -/
theorem stands_still_run : ∃ s : CountState, s.data.count = 11 ∧ ∀ f, funcAt s f = .returned := by
  obtain ⟨s, hs, hp⟩ := countReachable_of_run
    (turns .main 2 ++ turns (.func .func2) 104 ++ turns (.func .func1) 11 ++ turns .main 2)
    (fun s => decide (mainAt s = .returned ∧ s.data.created .func2 = true ∧ s.data.count = 11))
    (by decide +kernel)
  obtain ⟨hmain, hcreated, hcount⟩ := of_decide_eq_true hp
  have hstuck : ∀ t ok wakes, stepProcess s (.run t ok wakes) = none :=
    fun t ok wakes => if_pos hmain
  exact ⟨s, hcount, ((stands_still hs hstuck).2 hcreated).1⟩

end CPlayground.Condvar
