import CPlayground.Condvar.Invariant

set_option autoImplicit false

/-! # No wakeup is lost

`func1` blocks while `count` is at most 7, and at 7 only when `func2` has stored that value and is
on its way to the signal (`Parked`). So the thread that is not blocked can always go on, and the
process stands still only when `main` has returned. Every step uses up some of a measure, but for
a wakeup for no reason; a run is therefore as long as the number of those allows (`run_length`).
-/

namespace CPlayground.Condvar

open Threads

variable {s s' : CountState} {f g : Func} {a : Action Thread Bool}

/-! ## Steps and sleep -/

/-- How many steps `main` is from its end. -/
def MainPc.left : MainPc → Nat
  | .create .func1 => 4
  | .create .func2 => 3
  | .join .func1 => 2
  | .join .func2 => 1
  | .returned => 0

theorem main_left {d d' : Shared} {ok : Bool} {p q : MainPc}
    (h : (code .main p).effect d ok = some (d', q)) : q.left < p.left := by
  cases p with
  | create f => cases f <;> cases ok <;> cases h <;> decide
  | join f =>
      obtain ⟨-, he⟩ := Option.ite_none_right_eq_some.1 h
      cases f <;> cases he <;> decide
  | returned => cases h

/-- Only `func1` waits, on `condition_cond` and with `condition_mutex`. -/
theorem wait_of_code {t : Thread} {c : Cond} {m : Mutex} {next : Pc t}
    (h : code t (s.pc t) = .wait c m next) :
    t = .func .func1 ∧ funcAt s .func1 = .atCond ∧ m = .condition := by
  cases t with
  | main =>
      cases hp : mainAt s <;> rw [show s.pc .main = mainAt s from rfl, hp] at h <;> cases h
  | func f =>
      cases hp : funcAt s f <;>
        rw [show s.pc (.func f) = funcAt s f from rfl, hp, code_func] at h <;>
        cases f <;> cases h
      exact ⟨rfl, hp, rfl⟩

/-- Only `func2` signals. -/
theorem signal_of_code {t : Thread} {c : Cond} {next : Pc t}
    (h : code t (s.pc t) = .signal c next ∨ code t (s.pc t) = .broadcast c next) :
    t = .func .func2 ∧ funcAt s .func2 = .atCond := by
  cases t with
  | main =>
      cases hp : mainAt s <;> rw [show s.pc .main = mainAt s from rfl, hp] at h <;>
        rcases h with h | h <;> cases h
  | func f =>
      cases hp : funcAt s f <;>
        rw [show s.pc (.func f) = funcAt s f from rfl, hp, code_func] at h <;>
        cases f <;> rcases h with h | h <;> cases h
      exact ⟨rfl, hp⟩

/-- Whether the sleep of `func1` has changed from `blocked` to `woken`, by the signal. -/
def Signalled (s s' : CountState) : Prop :=
  s.sleep (.func .func1) = .blocked .condition ∧ s'.sleep (.func .func1) = .woken ∧
    funcAt s .func2 = .atCond

/-- A step that is not a wakeup for no reason, with what it does to the sleep of the threads. -/
inductive Turn (s s' : CountState) : Prop
  | main (hquiet : Quiet s s') (hleft : (mainAt s').left < (mainAt s).left)
      (hsleep : ∀ f, s'.sleep (.func f) = s.sleep (.func f))
  | blocks (hquiet : Quiet s s') (hmain : mainAt s' = mainAt s)
      (hp : funcAt s .func1 = .atCond) (hawake : s.sleep (.func .func1) = .awake)
      (hblocked : s'.sleep (.func .func1) = .blocked .condition)
  | func (f : Func) (ha : Acts f s s') (hmain : mainAt s' = mainAt s)
      (hself : s'.sleep (.func f) = .awake)
      (hwoken : f = .func1 → funcAt s .func1 = .atCond → s.sleep (.func .func1) = .woken)
      (hsleep : ∀ g, g ≠ f → s'.sleep (.func g) = s.sleep (.func g) ∨
        g = .func1 ∧ Signalled s s')
      (hsignal : f = .func2 → funcAt s .func2 = .atCond →
        s'.sleep (.func .func1) ≠ .blocked .condition)

theorem run_turn (hl : Locked code holds s) {t : Thread} {ok : Bool} {wakes : Thread → Bool}
    (hrun : Runs code s t ok wakes s') : Turn s s' := by
  have hself := hrun.sleep_self fun hne => by
    obtain ⟨c, m, next, hi, -⟩ := hl.asleep t hne
    exact ⟨c, m, next, hi⟩
  have hothers : ∀ u, u ≠ t → s'.sleep u = s.sleep u ∨
      t = .func .func2 ∧ u = .func .func1 ∧ Signalled s s' := by
    intro u hu
    rcases hrun.sleep_of_ne hu with hsame | ⟨c, hblocked, hwoken, next, hi⟩
    · exact .inl hsame
    · obtain ⟨ht, hp⟩ := signal_of_code hi
      obtain ⟨c', m, next', hw, -⟩ := hl.asleep u (by simp [hblocked])
      obtain ⟨rfl, -, -⟩ := wait_of_code hw
      cases c
      exact .inr ⟨ht, rfl, hblocked, hwoken, hp⟩
  rcases hself with ⟨hawake, hwait⟩ | ⟨hwas, hdata, hpc, c, m, next, hi, hblocked⟩
  · rcases hrun.effect with ⟨-, -, hne⟩ | ⟨next, heffect, hpc⟩
    · exact absurd hawake hne
    · cases t with
      | main =>
          obtain ⟨hcount, houtput⟩ := main_effect heffect
          refine .main ⟨hcount, houtput, fun f => ?_⟩ ?_ fun f => ?_
          · show s'.pc (.func f) = s.pc (.func f)
            rw [hpc, Function.update_of_ne (by simp)]
          · have hnext : mainAt s' = next := by
              show s'.pc .main = next
              rw [hpc, Function.update_self]
            rw [hnext]
            exact main_left heffect
          · exact (hothers (.func f) (by simp)).resolve_right fun h => by cases h.1
      | func f =>
          have hnext : funcAt s' f = next := by
            show s'.pc (.func f) = next
            rw [hpc, Function.update_self]
          refine .func f ⟨hnext ▸ effect_cases heffect, fun g hg => ?_⟩ ?_ hawake
            (fun hf hp => ?_) (fun g hg => ?_) fun hf hp => ?_
          · show s'.pc (.func g) = s.pc (.func g)
            rw [hpc, Function.update_of_ne (by simpa using hg)]
          · show s'.pc .main = s.pc .main
            rw [hpc, Function.update_of_ne (by simp)]
          · subst hf
            refine hwait ⟨.condition, .condition, .testLow, ?_⟩
            rw [show s.pc (.func .func1) = funcAt s .func1 from rfl, hp]
            rfl
          · rcases hothers (.func g) (by simpa using hg) with hsame | ⟨-, hg1, hsig⟩
            · exact .inl hsame
            · cases hg1
              exact .inr ⟨rfl, hsig⟩
          · subst hf
            have hi : code (.func .func2) (s.pc (.func .func2))
                = .signal .condition .unlockCond := by
              rw [show s.pc (.func .func2) = funcAt s .func2 from rfl, hp]
              rfl
            rcases hrun.signalled (.inl hi) with hnone | ⟨u, hblocked, hwoken⟩
            · exact hnone _
            · obtain ⟨c, m, next', hw, -⟩ := hl.asleep u (by simp [hblocked])
              obtain ⟨rfl, -, -⟩ := wait_of_code hw
              simp [hwoken]
  · obtain ⟨rfl, hp, -⟩ := wait_of_code hi
    cases c
    exact .blocks ⟨by rw [hdata], by rw [hdata], fun f => congrFun hpc (.func f)⟩
      (congrFun hpc .main) hp hwas hblocked

/-- **A step is a turn of a thread**, or a wakeup of `func1` for no reason. -/
theorem step_turn (hl : Locked code holds s) (h : stepProcess s a = some s') :
    (a = .spurious (.func .func1) ∧ s.sleep (.func .func1) = .blocked .condition ∧
        s' = { s with sleep := Function.update s.sleep (.func .func1) .woken }) ∨
      (∀ t, a ≠ .spurious t) ∧ Turn s s' := by
  obtain ⟨-, hstep⟩ := Option.ite_none_left_eq_some.1 h
  rcases step_cases hstep with ⟨t, c, rfl, hblocked, hs'⟩ | ⟨t, ok, wakes, rfl, hrun⟩
  · obtain ⟨c', m, next, hi, -⟩ := hl.asleep t (by simp [hblocked])
    obtain ⟨rfl, -, -⟩ := wait_of_code hi
    cases c
    exact .inl ⟨rfl, hblocked, hs'⟩
  · exact .inr ⟨fun _ => by simp, run_turn hl hrun⟩

/-! ## The blocked thread -/

/-- On the way to the signal, before the next increment. -/
def FuncPc.signalling : FuncPc → Bool
  | .print | .unlockCount | .testDone | .lockCond | .testLow | .testHigh | .atCond => true
  | _ => false

/-- While `func1` is at its wait and has not been woken, `count` is in the range, or `func2` has
counted past it and has not signalled since. -/
structure Parked (s : CountState) : Prop where
  high : funcAt s .func1 = .testHigh → COUNT_HALT1 ≤ s.data.count
  parked : funcAt s .func1 = .atCond → s.sleep (.func .func1) ≠ .woken →
    COUNT_HALT1 ≤ s.data.count ∧ (s.data.count ≤ COUNT_HALT2 ∨
      s.data.count = COUNT_HALT2 + 1 ∧ (funcAt s .func2).signalling = true)
  signal : funcAt s .func1 = .atCond → s.sleep (.func .func1) ≠ .woken →
    funcAt s .func2 = .atCond → COUNT_HALT2 < s.data.count

theorem Parked.congr (h : Parked s) (hq : Quiet s s')
    (hsleep : s'.sleep (.func .func1) ≠ .woken → s.sleep (.func .func1) ≠ .woken) :
    Parked s' where
  high := fun hp => by
    rw [hq.count]
    exact h.high (hq.funcs _ ▸ hp)
  parked := fun hp hne => by
    rw [hq.count, hq.funcs]
    exact h.parked (hq.funcs _ ▸ hp) (hsleep hne)
  signal := fun hp hne hp2 => by
    rw [hq.count]
    exact h.signal (hq.funcs _ ▸ hp) (hsleep hne) (hq.funcs _ ▸ hp2)

section Moves

variable {count : Int} {p q : FuncPc}

theorem Move.to_testHigh (h : Move .func1 count p q) (hq : q = .testHigh) :
    COUNT_HALT1 ≤ count := by
  cases h with
  | low =>
      by_contra hlow
      simp [Func.low, hlow] at hq
  | high =>
      simp only [Func.high] at hq
      split_ifs at hq
  | start | lockCond | cond | unlockCond | lockCount | load | unlockCount | again _ | done _ =>
      cases hq

theorem Move.to_wait (h : Move .func1 count p q) (hq : q = .atCond) :
    p = .testHigh ∧ count ≤ COUNT_HALT2 := by
  cases h with
  | low =>
      simp only [Func.low] at hq
      split_ifs at hq
  | high =>
      refine ⟨rfl, ?_⟩
      by_contra hhigh
      simp [Func.high, hhigh] at hq
  | start | lockCond | cond | unlockCond | lockCount | load | unlockCount | again _ | done _ =>
      cases hq

theorem Move.to_signal (h : Move .func2 count p q) (hq : q = .atCond) :
    count < COUNT_HALT1 ∨ COUNT_HALT2 < count := by
  cases h with
  | low =>
      by_cases hlow : count < COUNT_HALT1
      · exact .inl hlow
      · simp [Func.low, hlow] at hq
  | high =>
      by_cases hhigh : COUNT_HALT2 < count
      · exact .inr hhigh
      · simp [Func.high, hhigh] at hq
  | start | lockCond | cond | unlockCond | lockCount | load | unlockCount | again _ | done _ =>
      cases hq

/-- Just past the range `func2` goes all the way to the signal. -/
theorem Move.signalling (h : Move .func2 (COUNT_HALT2 + 1) p q) (hp : p.signalling = true) :
    q.signalling = true ∨ p = .atCond := by
  cases h with
  | low | high | lockCond | unlockCount | again _ => exact .inl (by decide)
  | cond => exact .inr rfl
  | done hdone => exact absurd hdone (by decide)
  | start | unlockCond | lockCount | load => cases hp

end Moves

/-- `func1` is not at its wait, awake or about to be, while `func2` is at the signal. -/
theorem not_both_inside (hl : Locked code holds s) (h2 : funcAt s .func2 = .atCond)
    (h1 : (funcAt s .func1).holds .condition = true)
    (hawake : s.sleep (.func .func1) = .awake) : False := by
  have hholding1 : s.Holding code holds (.func .func1) .condition := ⟨h1, .inl hawake⟩
  have hholding2 : s.Holding code holds (.func .func2) .condition := by
    refine ⟨?_, .inr fun c next hi => ?_⟩
    · show (funcAt s .func2).holds .condition = true
      rw [h2]
      rfl
    · cases (wait_of_code hi).1
  cases hl.exclusive hholding1 hholding2

theorem Parked.func1 (hl : Locked code holds s) (h : Parked s) (ha : Acts .func1 s s') :
    Parked s' := by
  have hsame := ha.others .func2 (by decide)
  rcases ha.split with ⟨hmove, hcount, -⟩ | ⟨temp, -, hq, -⟩ | ⟨-, hq, -⟩
  · constructor
    case high =>
      intro hp
      rw [hcount]
      exact hmove.to_testHigh hp
    case parked =>
      intro hp _
      obtain ⟨hfrom, hle⟩ := hmove.to_wait hp
      rw [hcount]
      exact ⟨h.high hfrom, .inl hle⟩
    case signal =>
      intro hp _ hp2
      obtain ⟨hfrom, -⟩ := hmove.to_wait hp
      have hawake : s.sleep (.func .func1) = .awake :=
        hl.awake_of fun c m next hi => by
          have hat := (wait_of_code hi).2.1
          rw [hfrom] at hat
          cases hat
      exact absurd hawake fun hawake =>
        not_both_inside hl (hsame ▸ hp2) (by rw [hfrom]; rfl) hawake
  -- a store or a line is not made at the wait
  · exact ⟨fun hp => by simp [hq] at hp, fun hp => by simp [hq] at hp,
      fun hp => by simp [hq] at hp⟩
  · exact ⟨fun hp => by simp [hq] at hp, fun hp => by simp [hq] at hp,
      fun hp => by simp [hq] at hp⟩

theorem Parked.func2 (hl : Locked code holds s) (hc : Counted s) (h : Parked s)
    (ha : Acts .func2 s s') (hsleep : s'.sleep (.func .func1) = s.sleep (.func .func1) ∨
      Signalled s s')
    (hsignal : funcAt s .func2 = .atCond → s'.sleep (.func .func1) ≠ .blocked .condition) :
    Parked s' := by
  have hsame := ha.others .func1 (by decide)
  -- a thread that has not been woken now had not been woken before
  have hbefore : s'.sleep (.func .func1) ≠ .woken →
      s'.sleep (.func .func1) = s.sleep (.func .func1) := by
    intro hne
    rcases hsleep with he | hsig
    · exact he
    · exact absurd hsig.2.1 hne
  rcases ha.split with ⟨hmove, hcount, -⟩ | ⟨temp, hp, hq, hcount, houtput⟩ | ⟨hp, hq, hcount, -⟩
  · refine ⟨fun hp => ?_, fun hp hne => ?_, fun hp hne hp2 => ?_⟩
    · rw [hcount]
      exact h.high (hsame ▸ hp)
    · rw [hcount]
      have he := hbefore hne
      obtain ⟨hlow, hle | ⟨htop, hgoes⟩⟩ := h.parked (hsame ▸ hp) (he ▸ hne)
      · exact ⟨hlow, .inl hle⟩
      · refine ⟨hlow, .inr ⟨htop, ?_⟩⟩
        rw [htop] at hmove
        rcases hmove.signalling hgoes with hgoes | hat
        · exact hgoes
        -- the signal itself: it finds `func1` blocked, and wakes it
        · have hasleep : s.sleep (.func .func1) ≠ .awake := fun hawake =>
            not_both_inside hl hat (by rw [← hsame, hp]; rfl) hawake
          have hnot := hsignal hat
          rw [he] at hne hnot
          cases hs : s.sleep (.func .func1) with
          | awake => exact absurd hs hasleep
          | blocked c =>
              cases c
              exact absurd hs hnot
          | woken => exact absurd hs hne
    · rw [hcount]
      have he := hbefore hne
      obtain ⟨hlow, -⟩ := h.parked (hsame ▸ hp) (he ▸ hne)
      rcases hmove.to_signal hp2 with hsmall | hbig
      · omega
      · exact hbig
  · have hnext := (hc.store hl ha hp hq hcount houtput).2
    refine ⟨fun hp1 => ?_, fun hp1 hne => ?_, fun _ _ hp2 => by simp [hq] at hp2⟩
    · have hlow := h.high (hsame ▸ hp1)
      omega
    · obtain ⟨hlow, hle | ⟨-, hgoes⟩⟩ := h.parked (hsame ▸ hp1) (hbefore hne ▸ hne)
      · refine ⟨by omega, ?_⟩
        by_cases htop : s.data.count = COUNT_HALT2
        · exact .inr ⟨by omega, by rw [hq]; rfl⟩
        · exact .inl (by omega)
      · rw [hp] at hgoes
        cases hgoes
  · refine ⟨fun hp1 => ?_, fun hp1 hne => ?_, fun _ _ hp2 => by simp [hq] at hp2⟩
    · rw [hcount]
      exact h.high (hsame ▸ hp1)
    · obtain ⟨hlow, hle⟩ := h.parked (hsame ▸ hp1) (hbefore hne ▸ hne)
      rw [hcount]
      exact ⟨hlow, hle.imp id fun htop => ⟨htop.1, by rw [hq]; rfl⟩⟩

theorem Parked.turn (hl : Locked code holds s) (hc : Counted s) (h : Parked s)
    (ht : Turn s s') : Parked s' := by
  cases ht with
  | main hquiet _ hsleep => exact h.congr hquiet fun hne => hsleep .func1 ▸ hne
  | blocks hquiet _ _ hawake _ => exact h.congr hquiet fun _ => by simp [hawake]
  | func f ha _ _ _ hsleep hsignal =>
      cases f with
      | func1 => exact h.func1 hl ha
      | func2 =>
          exact h.func2 hl hc ha ((hsleep .func1 (by decide)).imp id And.right) (hsignal rfl)

theorem parked_reachable (h : CountReachable s) : Parked s := by
  refine Reachable.invariant Parked ?_ ?_ h
  · rintro s rfl
    constructor <;> intro hp <;> cases hp
  · rintro s s' hreach hp ⟨a, hstep⟩
    have hl := locked_reachable hreach
    rcases step_turn hl hstep with ⟨-, -, rfl⟩ | ⟨-, hturn⟩
    · refine hp.congr ⟨rfl, rfl, fun _ => rfl⟩ fun hne => ?_
      exact absurd (Function.update_self (.func .func1) .woken s.sleep) hne
    · exact hp.turn hl (counted_reachable hreach) hturn

/-! ## The length of a run -/

/-- The detour over the wait, which a test of `func1` makes before `count` is past the range. -/
def detour (count : Int) : Nat := if COUNT_HALT2 < count then 0 else 8

/-- How many steps a counting thread makes before its next store, or to its end. A thread that
is woken for no reason has to test again. -/
def FuncPc.left (f : Func) (count : Int) (sleep : Sleep Cond) : FuncPc → Nat
  | .returned => 0
  | .store _ => 1
  | .load => 2
  | .lockCount => 3
  | .unlockCond => 4
  | .testHigh => match f with
    | .func1 => 5 + detour count
    | .func2 => 6
  | .testLow => match f with
    | .func1 => 6 + detour count
    | .func2 => 7
  | .atCond => match f, sleep with
    | .func1, .awake => 12
    | .func1, .blocked _ => 11
    | .func1, .woken => 7 + detour count
    | .func2, _ => 5
  | .lockCond => 15
  | .testDone | .start => 16
  | .unlockCount => 17
  | .print => 18

def funcLeft (s : CountState) (f : Func) : Nat :=
  (funcAt s f).left f s.data.count (s.sleep (.func f))

/-- The measure: the increments that are left, and the steps of each thread to its next one. -/
def left (s : CountState) : Nat :=
  32 * (11 - s.data.count).toNat + (mainAt s).left + ∑ f, funcLeft s f

theorem detour_le (count : Int) : detour count ≤ 8 := by
  unfold detour
  split_ifs <;> decide

theorem detour_anti {count count' : Int} (h : count ≤ count') : detour count' ≤ detour count := by
  unfold detour
  split_ifs <;> omega

theorem FuncPc.left_anti (f : Func) {count count' : Int} (h : count ≤ count')
    (sleep : Sleep Cond) (p : FuncPc) : p.left f count' sleep ≤ p.left f count sleep := by
  have hd := detour_anti h
  cases p with
  | testLow | testHigh => cases f <;> simp only [FuncPc.left] <;> omega
  | atCond => cases f <;> cases sleep <;> simp only [FuncPc.left] <;> omega
  | start | lockCond | unlockCond | lockCount | load | store _ | print | unlockCount | testDone
  | returned => exact Nat.le_refl _

/-- A move brings a thread nearer to its next store. -/
theorem Move.left_lt {count : Int} {p q : FuncPc} (h : Move f count p q) {sleep : Sleep Cond}
    (hsleep : f = .func1 → p = .atCond → sleep = .woken) :
    q.left f count .awake < p.left f count sleep := by
  cases h with
  | low =>
      cases f with
      | func1 =>
          simp only [Func.low]
          split_ifs <;> simp only [FuncPc.left] <;> omega
      | func2 =>
          simp only [Func.low]
          split_ifs <;> simp only [FuncPc.left] <;> omega
  | high =>
      cases f with
      | func1 =>
          by_cases hle : count ≤ COUNT_HALT2
          · have hd : detour count = 8 := if_neg (not_lt.2 hle)
            simp [Func.high, hle, FuncPc.left, hd]
          · simp [Func.high, hle, FuncPc.left]
            omega
      | func2 =>
          simp only [Func.high]
          split_ifs <;> simp only [FuncPc.left] <;> omega
  | cond =>
      cases f with
      | func1 =>
          rw [hsleep rfl rfl]
          simp only [Func.afterCond, FuncPc.left]
          omega
      | func2 => cases sleep <;> simp [Func.afterCond, FuncPc.left]
  | lockCond =>
      have hd := detour_le count
      cases f <;> simp only [FuncPc.left] <;> omega
  | start | unlockCond | lockCount | load | unlockCount | again _ | done _ =>
      simp only [FuncPc.left]
      omega

theorem sum_func (w : Func → Nat) : ∑ f, w f = w .func1 + w .func2 :=
  Finset.sum_pair (by decide)

/-- The measure goes down when the part of one thread does and no other part goes up. -/
theorem left_lt_of {n : Nat} (hmain : mainAt s' = mainAt s)
    (hrest : ∀ g, g ≠ f → funcLeft s' g ≤ funcLeft s g)
    (hself : funcLeft s' f + n < funcLeft s f + 32 * (11 - s.data.count).toNat)
    (hcount : 32 * (11 - s'.data.count).toNat = n) : left s' < left s := by
  have h1 := hrest .func1
  have h2 := hrest .func2
  unfold left
  rw [hmain, sum_func, sum_func, hcount]
  cases f with
  | func1 =>
      have := h2 (by decide)
      omega
  | func2 =>
      have := h1 (by decide)
      omega

/-- A signal finds `count` past the range, so the woken thread does not wait again. -/
theorem Signalled.left_le (hl : Locked code holds s) (hp : Parked s) (h : Signalled s s')
    (hpc : funcAt s' .func1 = funcAt s .func1) (hcount : s'.data.count = s.data.count) :
    funcLeft s' .func1 ≤ funcLeft s .func1 := by
  obtain ⟨hblocked, hwoken, hat⟩ := h
  obtain ⟨c, m, next, hi, -⟩ := hl.asleep (.func .func1) (by simp [hblocked])
  have hwait := (wait_of_code hi).2.1
  have hpast := hp.signal hwait (by simp [hblocked]) hat
  have hd : detour s.data.count = 0 := if_pos hpast
  unfold funcLeft
  rw [hpc, hcount, hwait, hblocked, hwoken]
  simp only [FuncPc.left, hd]
  omega

theorem Turn.left_lt (hl : Locked code holds s) (hc : Counted s) (hp : Parked s)
    (ht : Turn s s') : left s' < left s := by
  cases ht with
  | main hquiet hleft hsleep =>
      have hsame : ∀ f, funcLeft s' f = funcLeft s f := by
        intro f
        unfold funcLeft
        rw [hquiet.funcs, hquiet.count, hsleep]
      unfold left
      simp only [hsame, hquiet.count]
      omega
  | blocks hquiet hmain hat hawake hblocked =>
      refine left_lt_of (f := .func1) hmain (fun g hg => ?_) ?_ rfl
      · cases g with
        | func1 => exact absurd rfl hg
        | func2 =>
            unfold funcLeft
            rw [hquiet.funcs, hquiet.count]
            cases funcAt s .func2 <;> simp [FuncPc.left]
      · unfold funcLeft
        rw [hquiet.funcs, hquiet.count, hat, hawake, hblocked]
        simp only [FuncPc.left]
        omega
  | func f ha hmain hself hwoken hsleep _ =>
      -- the sleep of the other thread changes only by the signal
      have hrest : funcAt s f = .atCond ∨ (∀ g, g ≠ f →
          s'.sleep (.func g) = s.sleep (.func g)) := by
        by_cases hat : funcAt s f = .atCond
        · exact .inl hat
        · refine .inr fun g hg => ?_
          rcases hsleep g hg with he | ⟨rfl, hsig⟩
          · exact he
          · have hf : f = .func2 := by
              cases f with
              | func1 => exact absurd rfl hg
              | func2 => rfl
            exact absurd (hf ▸ hsig.2.2) hat
      rcases ha.split with ⟨hmove, hcount, -⟩ | ⟨temp, hfrom, hq, hcount, houtput⟩ |
        ⟨hfrom, hq, hcount, -⟩
      · refine left_lt_of (f := f) hmain (fun g hg => ?_) ?_ rfl
        · rcases hsleep g hg with he | ⟨rfl, hsig⟩
          · unfold funcLeft
            rw [ha.others g hg, hcount, he]
          · exact hsig.left_le hl hp (ha.others _ hg) hcount
        · have hlt : (funcAt s' f).left f s.data.count .awake
              < (funcAt s f).left f s.data.count (s.sleep (.func f)) := by
            refine hmove.left_lt ?_
            rintro rfl hat
            exact hwoken rfl hat
          unfold funcLeft
          rw [hcount, hself]
          omega
      · have hsame := hrest.resolve_left (by rw [hfrom]; simp)
        obtain ⟨hc', hnext⟩ := hc.store hl ha hfrom hq hcount houtput
        have hle := hc'.count_le
        refine left_lt_of (f := f) hmain (fun g hg => ?_) ?_ rfl
        · unfold funcLeft
          rw [ha.others g hg, hsame g hg]
          exact FuncPc.left_anti g (by omega) _ _
        · unfold funcLeft
          rw [hfrom, hq, hnext]
          simp only [FuncPc.left]
          omega
      · have hsame := hrest.resolve_left (by rw [hfrom]; simp)
        refine left_lt_of (f := f) hmain (fun g hg => ?_) ?_ rfl
        · unfold funcLeft
          rw [ha.others g hg, hcount, hsame g hg]
        · unfold funcLeft
          rw [hfrom, hq, hcount]
          simp only [FuncPc.left]
          omega

/-- A wakeup for no reason costs at most four steps. -/
theorem spurious_left (hl : Locked code holds s)
    (hblocked : s.sleep (.func .func1) = .blocked .condition)
    (hs' : s' = { s with sleep := Function.update s.sleep (.func .func1) .woken }) :
    left s' ≤ left s + 4 := by
  obtain ⟨c, m, next, hi, -⟩ := hl.asleep (.func .func1) (by simp [hblocked])
  have hat := (wait_of_code hi).2.1
  have hd := detour_le s.data.count
  have hcount : s'.data.count = s.data.count := by rw [hs']
  have hmain : mainAt s' = mainAt s := by rw [hs']
  have hpc : ∀ f, funcAt s' f = funcAt s f := fun f => by rw [hs']
  have hsleep : s'.sleep = Function.update s.sleep (.func .func1) .woken := by rw [hs']
  have hwoken : s'.sleep (.func .func1) = .woken := by rw [hsleep, Function.update_self]
  have hother : s'.sleep (.func .func2) = s.sleep (.func .func2) := by
    rw [hsleep, Function.update_of_ne (by decide)]
  have hfirst : funcLeft s' .func1 ≤ funcLeft s .func1 + 4 := by
    unfold funcLeft
    rw [hpc, hcount, hwoken, hblocked, hat]
    simp only [FuncPc.left]
    omega
  have hsecond : funcLeft s' .func2 = funcLeft s .func2 := by
    unfold funcLeft
    rw [hpc, hcount, hother]
  unfold left
  rw [sum_func, sum_func, hsecond, hcount, hmain]
  omega

/-- A wakeup for no reason. -/
def isSpurious : Action Thread Bool → Bool
  | .spurious _ => true
  | .run _ _ _ => false

/-- A run uses up the measure, and wakeups for no reason give back four steps each. -/
theorem left_execute (as : List (Action Thread Bool)) (hs : CountReachable s)
    (h : execute stepProcess s as = some s') :
    as.length + left s' ≤ left s + 5 * as.countP isSpurious := by
  induction as generalizing s with
  | nil =>
      cases h
      simp
  | cons a as ih =>
      obtain ⟨mid, hstep, hrest⟩ := Option.bind_eq_some_iff.1 h
      have hl := locked_reachable hs
      have hlater := ih (hs.next ⟨a, hstep⟩) hrest
      rcases step_turn hl hstep with ⟨rfl, hblocked, hmid⟩ | ⟨hrun, hturn⟩
      · have hgain := spurious_left hl hblocked hmid
        simp only [List.length_cons, List.countP_cons, isSpurious, if_true]
        omega
      · have hlt := hturn.left_lt hl (counted_reachable hs) (parked_reachable hs)
        have hno : isSpurious a = false := by
          cases a with
          | run t ok wakes => rfl
          | spurious t => exact absurd rfl (hrun t)
        simp only [List.length_cons, List.countP_cons, hno, Bool.false_eq_true, if_false]
        omega

/-- **Every run is bounded** by the number of wakeups for no reason: without any the process makes
at most 388 steps, and each of them allows five more. -/
theorem run_length (as : List (Action Thread Bool))
    (h : execute stepProcess startState as = some s) :
    as.length ≤ 388 + 5 * as.countP isSpurious := by
  have hrun := left_execute as (Reachable.start rfl) h
  have hstart : left startState = 388 := by decide
  omega

/-- `func2` counts to ten alone, in 106 steps. -/
theorem run_length_alone : (turns .main 2 ++ turns (.func .func2) 104).length
    ≤ 388 + 5 * (turns .main 2 ++ turns (.func .func2) 104).countP isSpurious := by
  have hrun : (execute stepProcess startState
      (turns .main 2 ++ turns (.func .func2) 104)).isSome = true := by decide +kernel
  obtain ⟨s, hs⟩ := Option.isSome_iff_exists.1 hrun
  exact run_length (turns .main 2 ++ turns (.func .func2) 104) hs

end CPlayground.Condvar
