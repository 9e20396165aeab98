import CPlayground.ProdCons.Exit

set_option autoImplicit false

/-! # When the buffer is destroyed

`main` destroys the buffer when the two counters have reached the limit, or when a thread could
not be created; neither tells that the threads are done with the buffer. On the failure path a
producer that has begun is in its loop, whichever thread fails after the first
(`exists_abandoned`). On the normal path the last thread to leave is in its loop for as long as it
has not posted (`exists_last_inside`), and `main`, which finds both counters at the limit, does not
wait for that post.
-/

namespace CPlayground.ProdCons

open Semaphores StackLog

section Teardown

variable {P C capacity maxGenerate : Nat} {s : ProgState P C}

/-- Once `main` has destroyed the buffer, on the path given, no thread is in its loop. -/
def OutlivesUsers (P C capacity maxGenerate : Nat) (failed : Bool) : Prop :=
  ∀ s : ProgState P C, ProgReachable P C capacity maxGenerate s → s.pc .main = .done failed →
    ∀ t, inLoop t (s.pc t) = false

/-- `p` producers and `c` consumers can be there when the next thread cannot be created. -/
def MayFailAfter (P C p c : Nat) : Prop :=
  p ≤ P ∧ c ≤ C ∧ (0 < c → p = P)

/-- Once `main` has destroyed the buffer because a thread could not be created, with `p` producers
and `c` consumers there, no thread is in its loop. -/
def OutlivesAbandoned (P C capacity maxGenerate p c : Nat) : Prop :=
  ∀ s : ProgState P C, ProgReachable P C capacity maxGenerate s → s.pc .main = .done true →
    s.data.producers = p → s.data.consumers = c → ∀ t, inLoop t (s.pc t) = false

/-! ## Only threads that were created begin -/

/-- The thread has been created. -/
def Present (b : Buffer) : Thread P C → Prop
  | .main => True
  | .producer i => i < b.producers
  | .consumer j => j < b.consumers

section Present

variable {b b' : Buffer} {op : Op Sem} {t u : Thread P C} {p p' : Pc t}

theorem Present.edge (h : Present b u) (he : Edge maxGenerate b t p op b' p') : Present b' u := by
  have hgrow : b.producers ≤ b'.producers ∧ b.consumers ≤ b'.consumers := by
    by_cases ht : t = .main
    · subst ht
      cases he <;> simp
    · obtain ⟨hproducers, hconsumers, -⟩ := he.threads_stay ht
      exact ⟨hproducers.ge, hconsumers.ge⟩
  cases u with
  | main => trivial
  | producer i => exact Nat.lt_of_lt_of_le h hgrow.1
  | consumer j => exact Nat.lt_of_lt_of_le h hgrow.2

/-- A thread that takes a step has been created, if it was when it had begun. -/
theorem Edge.present (he : Edge maxGenerate b t p op b' p') (h : p ≠ startPc t → Present b t) :
    Present b t := by
  by_cases hp : p = startPc t
  · subst hp
    cases t with
    | main => trivial
    | producer i =>
        cases he with
        | begin hi => exact hi
    | consumer j =>
        cases he with
        | begin hj => exact hj
  · exact h hp

theorem present_reachable (h : ProgReachable P C capacity maxGenerate s) :
    ∀ t, s.pc t ≠ startPc t → Present s.data t := by
  refine Reachable.invariant (fun s : ProgState P C => ∀ t, s.pc t ≠ startPc t → Present s.data t)
    ?_ ?_ h
  · rintro s ⟨junk, rfl⟩ t hbegun
    exact absurd rfl hbegun
  · rintro s s' - hs ⟨⟨t, choice⟩, hstep⟩ u hbegun
    obtain ⟨-, op, b', p', he, -, rfl⟩ := stepProg_cases hstep
    by_cases hu : u = t
    · subst hu
      exact (he.present (hs u)).edge he
    · dsimp only at hbegun
      rw [Function.update_of_ne hu] at hbegun
      exact (hs u hbegun).edge he

end Present

/-! ## The failure path -/

/-- `main` has given up: it destroys the buffer under the threads there are. -/
theorem ProgReachable.destroy {failed : Bool} (h : ProgReachable P C capacity maxGenerate s)
    (hmain : s.pc .main = .destroy failed) : ∃ s', ProgReachable P C capacity maxGenerate s' ∧
      s'.data = { s.data with dataptr := 0, destroyed := true } ∧
      s'.pc .main = .done failed ∧ ∀ t, t ≠ .main → s'.pc t = s.pc t := by
  obtain ⟨s', hs', hdata, -, hmain', hothers⟩ :=
    h.go someChoice hmain (fun _ => rfl) rfl trivial
  exact ⟨s', hs', hdata, hmain', hothers⟩

/-- The creation of a thread fails when `p` producers and `c` consumers are there. -/
theorem exists_failing (capacity maxGenerate : Nat) (hC : 1 ≤ C) {p c : Nat}
    (hfail : MayFailAfter P C p c) :
    ∃ (s : ProgState P C) (k l : Nat) (choice : Choice) (b : Buffer),
      ProgReachable P C capacity maxGenerate s ∧ Fresh k l s ∧ (0 < p → 0 < k) ∧
      (mainThread P C maxGenerate (s.pc .main)).effect s.data choice
        = some (.keep, b, .destroy true) ∧ b.producers = p ∧ b.consumers = c := by
  obtain ⟨hp, hc, horder⟩ := hfail
  by_cases hproducer : p < P
  -- the next producer is not created
  · have hnone : c = 0 := by
      by_contra hpos
      have hall := horder (Nat.pos_of_ne_zero hpos)
      omega
    obtain ⟨s, hs, hfresh, hmain⟩ := exists_producers P C capacity maxGenerate p hp
    refine ⟨s, p, 0, ⟨0, .notCreated⟩, s.data, hs, hfresh, id, ?_, hfresh.producers,
      hfresh.consumers.trans hnone.symm⟩
    simp [hmain, mainThread, Instr.effect, hfresh.producers, hproducer]
  obtain rfl : p = P := Nat.le_antisymm hp (Nat.le_of_not_lt hproducer)
  by_cases hconsumer : c < C
  -- the next consumer is not created
  · obtain ⟨s, hs, hfresh, hmain⟩ := exists_consumers p C capacity maxGenerate c hc
    refine ⟨s, p, c, ⟨0, .notCreated⟩, s.data, hs, hfresh, id, ?_, hfresh.producers,
      hfresh.consumers⟩
    simp [hmain, mainThread, Instr.effect, hfresh.consumers, hconsumer]
  -- the last consumer is created, and not detached
  · obtain rfl : c = C := Nat.le_antisymm hc (Nat.le_of_not_lt hconsumer)
    obtain ⟨s, hs, hfresh, hmain⟩ :=
      exists_consumers p c capacity maxGenerate (c - 1) (Nat.sub_le c 1)
    have hcount : s.data.consumers + 1 = c := by
      rw [hfresh.consumers]
      omega
    have hlt : s.data.consumers < c := by omega
    refine ⟨s, p, c - 1, ⟨0, .notDetached⟩, { s.data with consumers := s.data.consumers + 1 }, hs,
      hfresh, id, ?_, hfresh.producers, hcount⟩
    simp [hmain, mainThread, Instr.effect, hlt]

/-- **A producer waits when a thread cannot be created**, as soon as there is a producer. -/
theorem exists_abandoned (capacity maxGenerate : Nat) (hC : 1 ≤ C) {p c : Nat}
    (hfail : MayFailAfter P C p c) (hpos : 0 < p) :
    ∃ (s : ProgState P C) (t : Thread P C), ProgReachable P C capacity maxGenerate s ∧
      s.pc .main = .destroy true ∧ s.data.producers = p ∧ s.data.consumers = c ∧
      t ≠ .main ∧ inLoop t (s.pc t) = true := by
  have hP : 0 < P := Nat.lt_of_lt_of_le hpos hfail.1
  obtain ⟨s₀, k, l, choice, b, hs₀, hfresh, hthere, hfails, hproducers, hconsumers⟩ :=
    exists_failing capacity maxGenerate hC hfail
  -- the first producer begins and comes to its wait
  have hbegin : (doProduce maxGenerate 0 .start).effect s₀.data someChoice
      = some (.keep, s₀.data, .waitEmpty) := by
    simp [doProduce, Instr.effect, hfresh.producers, hthere hpos]
  obtain ⟨s₁, hs₁, hdata, -, hwait, hothers⟩ := hs₀.go (t := .producer ⟨0, hP⟩) someChoice
    (hfresh.threads _ (by simp)) (may_go hfresh.buffer) hbegin trivial
  have hmain : s₁.pc .main = s₀.pc .main := hothers _ (by simp)
  -- then the next thread fails
  have hfails₁ : (mainThread P C maxGenerate (s₀.pc .main)).effect s₁.data choice
      = some (.keep, b, .destroy true) := by rw [hdata, hfails]
  obtain ⟨s₂, hs₂, rfl, -, hmain₂, hothers₂⟩ := hs₁.go choice hmain (fun _ => rfl) hfails₁ trivial
  refine ⟨s₂, .producer ⟨0, hP⟩, hs₂, hmain₂, hproducers, hconsumers, by simp, ?_⟩
  rw [hothers₂ _ (by simp), hwait]
  rfl

/-- Without a thread there is nobody that the buffer could be destroyed under. -/
theorem outlives_nobody (hP : 1 ≤ P) {c : Nat} (hfail : MayFailAfter P C 0 c) :
    OutlivesAbandoned P C capacity maxGenerate 0 c := by
  intro s hs _ hproducers hconsumers t
  have hnone : c = 0 := by
    by_contra hpos
    have hall := hfail.2.2 (Nat.pos_of_ne_zero hpos)
    omega
  by_contra hin
  have hbegun : s.pc t ≠ startPc t := by
    intro hstart
    rw [hstart] at hin
    cases t <;> exact hin rfl
  have hthere := present_reachable hs t hbegun
  cases t with
  | main => exact hin rfl
  | producer i =>
      rw [Present, hproducers] at hthere
      exact Nat.not_lt_zero _ hthere
  | consumer j =>
      rw [Present, hconsumers, hnone] at hthere
      exact Nat.not_lt_zero _ hthere

/-! ## The normal path -/

/-- A thread is in its loop while the counters are at the limit and the mutex is free. -/
structure LastInside (maxGenerate : Nat) (s : ProgState P C) (t : Thread P C) : Prop where
  inside : inLoop t (s.pc t) = true
  numGen : s.data.numGen = maxGenerate
  numCon : s.data.numCon = maxGenerate
  mutex : 0 < s.sem .mutex

/-- A step after which all have left is the last one's post, and leads out of its loop. -/
theorem Edge.leaves {b b' : Buffer} {op : Op Sem} {t : Thread P C} {p p' : Pc t}
    (he : Edge maxGenerate b t p op b' p') (hexit : exited t p' = true) :
    inLoop t p = true ∧ holds t p = false ∧ b' = b := by
  cases t with
  | main => cases hexit
  | producer i => cases he <;> first | exact ⟨rfl, rfl, rfl⟩ | cases hexit
  | consumer j => cases he <;> first | exact ⟨rfl, rfl, rfl⟩ | cases hexit

theorem not_holds_of_exited {t : Thread P C} {p : Pc t} (h : exited t p = true) :
    holds t p = false := by
  cases t with
  | main => cases h
  | producer i =>
      have hp : p = .exited := of_decide_eq_true h
      rw [hp]
      rfl
  | consumer j =>
      have hp : p = .exited := of_decide_eq_true h
      rw [hp]
      rfl

/-- When all have left, the counters are at the limit. -/
theorem Inv.limits (h : Inv capacity maxGenerate s) (hall : AllExited s) (hP : 1 ≤ P)
    (hC : 1 ≤ C) : s.data.numGen = maxGenerate ∧ s.data.numCon = maxGenerate := by
  have hproducer : s.pc (.producer ⟨0, hP⟩) = .exited :=
    of_decide_eq_true (hall (.producer ⟨0, hP⟩) (by nofun))
  have hconsumer : s.pc (.consumer ⟨0, hC⟩) = .exited :=
    of_decide_eq_true (hall (.consumer ⟨0, hC⟩) (by nofun))
  have hgen := h.points (.producer ⟨0, hP⟩)
  have hcon := h.points (.consumer ⟨0, hC⟩)
  rw [hproducer] at hgen
  rw [hconsumer] at hcon
  exact ⟨hgen, hcon⟩

/-- **A thread is inside when the counters are at the limit.** Let the producers and consumers
go on until one more step would see all of them out, or none of them has a step: in the first
case the one that is about to leave is inside, in the second one that is blocked. -/
theorem exists_last_inside (maxGenerate : Nat) (hP : 1 ≤ P) (hC : 1 ≤ C)
    (hcap : 1 ≤ capacity) :
    ∃ (s : ProgState P C) (t : Thread P C), ProgReachable P C capacity maxGenerate s ∧
      Polling s ∧ t ≠ .main ∧ LastInside maxGenerate s t := by
  obtain ⟨s₀, hs₀, hpoll₀, hfresh⟩ := exists_polling P C capacity maxGenerate
  -- the threads go on for as long as a step leaves one of them in its loop
  have hbegun : ¬ AllExited s₀ := by
    intro hall
    have hexit := hall (.producer ⟨0, hP⟩) (by nofun)
    rw [hfresh.threads _ (by nofun)] at hexit
    cases hexit
  obtain ⟨s, hs, hpoll, hsome, hrest⟩ := exists_rest
    (fun s s' => ThreadStep maxGenerate s s' ∧ ¬ AllExited s') (fun s => ¬ AllExited s)
    (fun _ _ hstep => hstep.1) (fun _ _ _ hstep => hstep.2) hs₀ hpoll₀ hbegun
  have hinv := inv_reachable hs hpoll.buffer
  by_cases hmore : ∃ s', ThreadStep maxGenerate s s'
  · obtain ⟨s', hstep⟩ := hmore
    -- one more step would see all of them out: it is the post of the last one
    have hall : AllExited s' := by
      by_contra hnot
      exact hrest s' ⟨hstep, hnot⟩
    have hinv' := inv_reachable (hs.next hstep.steps) (hpoll.threadStep hstep).buffer
    have hlimits := hinv'.limits hall hP hC
    obtain ⟨t, choice, ht, hstep⟩ := hstep
    obtain ⟨-, op, b', p', he, -, rfl⟩ := stepProg_cases hstep
    have hexit := hall t ht
    dsimp only at hexit hlimits
    rw [Function.update_self] at hexit
    obtain ⟨hinside, hout, rfl⟩ := he.leaves hexit
    refine ⟨s, t, hs, hpoll, ht, hinside, hlimits.1, hlimits.2, ?_⟩
    -- that thread has given the mutex back, and the others have left already
    have hfree : ∀ u, holds u (s.pc u) = false := by
      intro u
      by_cases hu : u = t
      · subst hu
        exact hout
      · by_cases hmain : u = .main
        · subst hmain
          exact hpoll.running.main
        · have hexit' := hall u hmain
          dsimp only at hexit'
          rw [Function.update_of_ne hu] at hexit'
          exact not_holds_of_exited hexit'
    rw [hinv.mutex_free hfree]
    exact Nat.one_pos
  -- nobody has a step: everything is consumed
  · have hstuck : Stuck maxGenerate s := by
      rintro t ht ⟨choice, s', hstep⟩
      exact hmore ⟨s', t, choice, ht, hstep⟩
    have hcon := hinv.all_consumed hpoll.running hstuck hP hC hcap
    have hgen : s.data.numGen = maxGenerate :=
      Nat.le_antisymm hinv.buffer.gen_le (hcon ▸ hinv.con_le_gen)
    have hq := hinv.quiet hpoll.running hstuck
    have hmutex : 0 < s.sem .mutex := by
      rw [hinv.mutex_free hq.free]
      exact Nat.one_pos
    -- one of them has not left, so it is blocked on `empty` or `full`
    simp only [AllExited, not_forall] at hsome
    obtain ⟨t, ht, hin⟩ := hsome
    refine ⟨s, t, hs, hpoll, ht, ?_, hgen, hcon, hmutex⟩
    cases t with
    | main => exact absurd rfl ht
    | producer i =>
        rcases hq.producers i with ⟨hp, -⟩ | hp
        · rw [hp]
          rfl
        · exact absurd (decide_eq_true hp) hin
    | consumer j =>
        rcases hq.consumers j with ⟨hp, -⟩ | hp
        · rw [hp]
          rfl
        · exact absurd (decide_eq_true hp) hin

/-- `main` finds the counters at the limit and destroys the buffer. -/
theorem LastInside.destroyed {t : Thread P C} (h : LastInside maxGenerate s t)
    (hs : ProgReachable P C capacity maxGenerate s) (hpoll : Polling s) (ht : t ≠ .main) :
    ∃ s', ProgReachable P C capacity maxGenerate s' ∧ s'.pc .main = .done false ∧
      inLoop t (s'.pc t) = true := by
  -- `main` takes the mutex, tests the counters, posts, frees the threads and destroys
  obtain ⟨s₁, hs₁, hdata₁, -, hmain₁, hothers₁⟩ :=
    hs.go someChoice hpoll.main (fun _ => rfl) rfl h.mutex
  have htest : (mainThread P C maxGenerate .pollTest).effect s₁.data someChoice
      = some (.keep, s₁.data, .leavePost) := by
    simp [mainThread, Instr.effect, hdata₁, h.numCon, h.numGen]
  obtain ⟨s₂, hs₂, -, -, hmain₂, hothers₂⟩ := hs₁.go _ hmain₁ (fun _ => rfl) htest trivial
  obtain ⟨s₃, hs₃, -, -, hmain₃, hothers₃⟩ :=
    hs₂.go someChoice hmain₂ (fun _ => rfl) rfl trivial
  obtain ⟨s₄, hs₄, -, -, hmain₄, hothers₄⟩ :=
    hs₃.go someChoice hmain₃ (fun _ => rfl) rfl trivial
  obtain ⟨s₅, hs₅, -, hmain₅, hothers₅⟩ := hs₄.destroy hmain₄
  refine ⟨s₅, hs₅, hmain₅, ?_⟩
  rw [hothers₅ t ht, hothers₄ t ht, hothers₃ t ht, hothers₂ t ht, hothers₁ t ht]
  exact h.inside

/-- **The buffer does not outlive its users**, on either path, whatever the numbers of threads,
the capacity and the limit. When a thread cannot be created, this is so as soon as there is one
thread: only when the first producer fails the buffer is destroyed under nobody. -/
theorem never_outlives (hP : 1 ≤ P) (hC : 1 ≤ C) (hcap : 1 ≤ capacity) :
    (∀ failed, ¬ OutlivesUsers P C capacity maxGenerate failed) ∧
      ∀ p c, MayFailAfter P C p c →
        (OutlivesAbandoned P C capacity maxGenerate p c ↔ p = 0) := by
  have habandoned : ∀ p c, MayFailAfter P C p c → 0 < p →
      ¬ OutlivesAbandoned P C capacity maxGenerate p c := by
    intro p c hfail hpos houtlives
    obtain ⟨s, t, hs, hmain, hproducers, hconsumers, ht, hin⟩ :=
      exists_abandoned capacity maxGenerate hC hfail hpos
    obtain ⟨s', hs', hdata, hmain', hothers⟩ := hs.destroy hmain
    have hnot := houtlives s' hs' hmain' (by rw [hdata, ← hproducers])
      (by rw [hdata, ← hconsumers]) t
    rw [hothers t ht, hin] at hnot
    cases hnot
  constructor
  · rintro (_ | _) houtlives
    · obtain ⟨s, t, hs, hpoll, ht, hinside⟩ := exists_last_inside maxGenerate hP hC hcap
      obtain ⟨s', hs', hmain', hin⟩ := hinside.destroyed hs hpoll ht
      exact Bool.false_ne_true ((houtlives s' hs' hmain' t).symm.trans hin)
    -- one producer is there
    · have hone : MayFailAfter P C 1 0 := ⟨hP, Nat.zero_le C, fun h => absurd h (Nat.lt_irrefl 0)⟩
      exact habandoned 1 0 hone Nat.one_pos fun s hs hmain _ _ => houtlives s hs hmain
  · intro p c hfail
    constructor
    · intro houtlives
      by_contra hpos
      exact habandoned p c hfail (Nat.pos_of_ne_zero hpos) houtlives
    · rintro rfl
      exact outlives_nobody hP hfail

end Teardown

/-- Three producers, two consumers and four places for ten numbers; and the second consumer cannot
be created. -/
theorem never_outlives_ten :
    ¬ OutlivesUsers 3 2 4 10 true ∧ ¬ OutlivesUsers 3 2 4 10 false ∧
      ¬ OutlivesAbandoned 3 2 4 10 3 1 := by
  have hnever := @never_outlives 3 2 4 10 (by decide) (by decide) (by decide)
  refine ⟨hnever.1 true, hnever.1 false, fun houtlives => ?_⟩
  exact absurd ((hnever.2 3 1 ⟨by decide, by decide, by decide⟩).1 houtlives) (by decide)

set_option maxRecDepth 20000 in
/-- One thread of each kind and one number: `main` destroys the buffer when the consumer has
counted the number and given the mutex back, and has still to post `empty`. -/
theorem destroyed_before_post : ¬ OutlivesUsers 1 1 1 1 false := by
  intro houtlives
  obtain ⟨s, hs, hp⟩ : ∃ s, ProgReachable 1 1 1 1 s ∧
      decide (s.pc .main = .done false ∧ s.pc (.consumer 0) = .postEmpty false) = true :=
    progReachable_of_run
      (times .main 4 0 ++ times (.producer 0) 12 7 ++ times (.consumer 0) 10 0 ++ times .main 5 0)
      _ (by decide)
  obtain ⟨hmain, hpost⟩ := of_decide_eq_true hp
  have hnot := houtlives s hs hmain (.consumer 0)
  rw [hpost] at hnot
  cases hnot

end CPlayground.ProdCons
