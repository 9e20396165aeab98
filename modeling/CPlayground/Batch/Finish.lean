import CPlayground.Batch.Overrun

set_option autoImplicit false

/-! # Whether the threads can finish

From every state the two threads can be scheduled so that both leave their loops, as long as
`rand` returns a number that makes a batch of one. A thread that finds nothing to do goes round
its loop; so the schedule lets the consumer in when there is something to read, and the producer
when there is nothing. Each such step lowers a measure (`lower_step`). With batches drawn modulo
one nothing is ever generated, and from no state do both threads return (`can_finish_iff`).
-/

namespace CPlayground.Batch

open Semaphores StackLog

variable {cfg : Config} {s s' : BatchState} {d d' : Shared} {p p' : ProducerPc}
  {c c' : ConsumerPc} {op : Op Sem}

/-! ## The measure -/

/-- How many steps the consumer is from its next number; a turn that finds nothing to read
counts more. -/
def ConsumerPc.left (d : Shared) : ConsumerPc → Nat
  | .decSize => 10
  | .incRead => 9
  | .postMutex => 8
  | .loopTest => 7
  | .waitMutex => 6
  | .itemTest => if 0 < d.size then 5 else 9
  | .load => 4
  | .exited => 0

def consumerLeft (cfg : Config) (d : Shared) (c : ConsumerPc) : Nat :=
  8 * (cfg.numGen - d.numHasRead - c.uncounted).toNat + c.left d

/-- How many steps the producer is from the end of its next batch. -/
def ProducerPc.left (cfg : Config) (d : Shared) : ProducerPc → Nat
  | .incGen _ => 3 * cfg.numGenPerLoop + 11
  | .postMutex => 3 * cfg.numGenPerLoop + 10
  | .loopTest => 3 * cfg.numGenPerLoop + 9
  | .waitMutex => 3 * cfg.numGenPerLoop + 8
  | .roomTest => if 0 < d.room cfg then 3 * cfg.numGenPerLoop + 7 else 3 * cfg.numGenPerLoop + 11
  | .draw => 3 * cfg.numGenPerLoop + 6
  | .clip num =>
      if d.batch cfg num = 0 then 3 * cfg.numGenPerLoop + 11 else 3 * cfg.numGenPerLoop + 5
  | .fill num i => 4 + 3 * (num - i).toNat
  | .store num i => 3 + 3 * (num - i).toNat
  | .incSize num i => 2 + 3 * (num - i).toNat
  | .subTotal _ => 3
  | .exited => 0

def producerLeft (cfg : Config) (d : Shared) (p : ProducerPc) : Nat :=
  (3 * cfg.numGenPerLoop + 16) * d.totalGenNum.toNat + p.left cfg d

def left (cfg : Config) (s : BatchState) : Nat :=
  producerLeft cfg s.data (producerAt s) + consumerLeft cfg s.data (consumerAt s)

/-! ## A step of the consumer -/

/-- The consumer is not let in before there is something to read. -/
def ConsumerPc.Welcome (d : Shared) (c : ConsumerPc) : Prop := c = .waitMutex → 0 < d.size

theorem consumer_lowers (h : CountersOk cfg d p c) (hc : c.Ok cfg d) (hw : c.Welcome d)
    {rand : Nat} (he : (consumerStuff cfg c).effect d rand = some (op, d', c')) :
    consumerLeft cfg d' c' < consumerLeft cfg d c := by
  have hcap := cfg.capacity_lt
  have hgen := cfg.numGen_lt
  have hle := h.size_le
  have hread := h.read
  cases c with
  | loopTest =>
      cases he
      split_ifs <;> simp [consumerLeft, ConsumerPc.left]
  | waitMutex =>
      cases he
      have hpos : 0 < d.size := hw rfl
      simp [consumerLeft, ConsumerPc.left, hpos]
  | itemTest =>
      cases he
      split_ifs with hpos
      · simp only [consumerLeft, ConsumerPc.left, ConsumerPc.uncounted, if_pos hpos]
        omega
      · simp only [consumerLeft, ConsumerPc.left, ConsumerPc.uncounted, if_neg hpos]
        omega
  | load =>
      cases he
      obtain ⟨hlt, hpos⟩ := hc
      simp only [consumerLeft, ConsumerPc.left, ConsumerPc.uncounted]
      omega
  | decSize =>
      cases he
      simp [consumerLeft, ConsumerPc.left]
  | incRead =>
      cases he
      have hlt : d.numHasRead < cfg.numGen := hc
      simp only [ConsumerPc.uncounted] at hread
      have hnext : wrap32 (d.numHasRead + 1) = d.numHasRead + 1 := wrap32_eq (by omega) (by omega)
      simp only [consumerLeft, ConsumerPc.left, ConsumerPc.uncounted, hnext]
      omega
  | postMutex =>
      cases he
      simp [consumerLeft, ConsumerPc.left]
  | exited => cases he

/-! ## A step of the producer -/

/-- The producer is not let in before there is room. -/
def ProducerPc.Welcome (cfg : Config) (d : Shared) (p : ProducerPc) : Prop :=
  p = .waitMutex → d.size < cfg.capacity

/-- Where the cut of the batch leads. -/
theorem left_clip {num : Int} (hle : d.batch cfg num ≤ num) (hnum : num < cfg.numGenPerLoop) :
    (if d.batch cfg num = 0 then ProducerPc.postMutex else .fill (d.batch cfg num) 0).left cfg d
      < (ProducerPc.clip num).left cfg d := by
  have hclip : (ProducerPc.clip num).left cfg d =
      if d.batch cfg num = 0 then 3 * cfg.numGenPerLoop + 11 else 3 * cfg.numGenPerLoop + 5 := by
    rw [ProducerPc.left]
  rw [hclip]
  generalize d.batch cfg num = b at hle ⊢
  split_ifs
  · rw [ProducerPc.left]
    omega
  · rw [ProducerPc.left]
    omega

theorem producer_lowers (hper : cfg.numGen = 0 ∨ 2 ≤ cfg.numGenPerLoop) (h : CountersOk cfg d p c)
    (hp : p.Ok cfg d) (hw : p.Welcome cfg d)
    (he : (producerStuff cfg p).effect d 1 = some (op, d', p')) :
    producerLeft cfg d' p' < producerLeft cfg d p := by
  have hcap := cfg.capacity_lt
  have hlt := cfg.perLoop_lt
  cases p with
  | loopTest =>
      cases he
      split_ifs <;> simp only [producerLeft, ProducerPc.left] <;> omega
  | waitMutex =>
      cases he
      have hroom : 0 < d.room cfg := by
        have hsize := hw rfl
        rw [room_eq h.size_le]
        omega
      simp only [producerLeft, ProducerPc.left, if_pos hroom]
      omega
  | roomTest =>
      cases he
      split_ifs with hroom
      · simp only [producerLeft, ProducerPc.left, if_pos hroom]
        omega
      · simp only [producerLeft, ProducerPc.left, if_neg hroom]
        omega
  | draw =>
      cases he
      -- a batch of one is drawn, and there is room for it
      have hpos := hp.1
      have htotal := h.total_le
      have hone : 1 % cfg.numGenPerLoop = 1 := Nat.mod_eq_of_lt (by omega)
      have hbatch : d.batch cfg ((1 % cfg.numGenPerLoop : Nat) : Int) = 1 := by
        rw [hone, batch_eq h.size_le (by omega) (by omega)]
        have hroom := hp.2
        omega
      simp only [producerLeft, ProducerPc.left, hbatch, if_neg one_ne_zero]
      omega
  | clip num =>
      cases he
      obtain ⟨hpos, hroom, h0, hnum⟩ := hp
      have hle : d.batch cfg num ≤ num := by
        rw [batch_eq h.size_le h0 hnum]
        exact min_le_left _ _
      unfold producerLeft
      dsimp only
      exact Nat.add_lt_add_left (left_clip hle hnum) _
  | fill num i =>
      cases he
      split_ifs <;> simp only [producerLeft, ProducerPc.left] <;> omega
  | store num i =>
      cases he
      simp only [producerLeft, ProducerPc.left]
      omega
  | incSize num i =>
      cases he
      obtain ⟨hpos, h0, hi, hbatch, hroom⟩ := hp
      have hnum := hbatch.lt
      have hnext : wrap32 (i + 1) = i + 1 := wrap32_eq (by omega) (by omega)
      simp only [producerLeft, ProducerPc.left, hnext]
      omega
  | subTotal num =>
      cases he
      obtain ⟨hpos, hbatch⟩ := hp
      have hnum := hbatch.pos
      have hbound := hbatch.lt
      have hgen := cfg.numGen_lt
      have hle := h.total_le
      have htotal : wrap32 (d.totalGenNum - num) = d.totalGenNum - num :=
        wrap32_eq (by omega) (by omega)
      -- the quota goes down by more than the steps to the next batch
      have hdown : (3 * cfg.numGenPerLoop + 16) * (d.totalGenNum - num).toNat
          + (3 * cfg.numGenPerLoop + 16) ≤ (3 * cfg.numGenPerLoop + 16) * d.totalGenNum.toNat := by
        rw [← Nat.mul_succ]
        exact Nat.mul_le_mul_left _ (by omega)
      simp only [producerLeft, ProducerPc.left, htotal]
      omega
  | incGen num =>
      cases he
      simp only [producerLeft, ProducerPc.left]
      omega
  | postMutex =>
      cases he
      simp only [producerLeft, ProducerPc.left]
      omega
  | exited => cases he

/-! ## Some step lowers it -/

/-- Outside its critical section a thread is as far from its goal as its own counter says. -/
theorem consumerLeft_congr (hread : d'.numHasRead = d.numHasRead)
    (hd : c.inside = true → d' = d) : consumerLeft cfg d' c = consumerLeft cfg d c := by
  by_cases hin : c.inside = true
  · rw [hd hin]
  · revert hin
    cases c <;> simp [consumerLeft, ConsumerPc.left, hread]

theorem producerLeft_congr (htotal : d'.totalGenNum = d.totalGenNum)
    (hd : p.inside = true → d' = d) : producerLeft cfg d' p = producerLeft cfg d p := by
  by_cases hin : p.inside = true
  · rw [hd hin]
  · revert hin
    cases p <;> simp [producerLeft, ProducerPc.left, htotal]

theorem producer_take {rand : Nat}
    (he : (producerStuff cfg p).effect d rand = some (.take .mutex, d', p')) : p = .waitMutex := by
  cases p with
  | waitMutex => rfl
  | _ => cases he

theorem consumer_take {rand : Nat}
    (he : (consumerStuff cfg c).effect d rand = some (.take .mutex, d', c')) : c = .waitMutex := by
  cases c with
  | waitMutex => rfl
  | _ => cases he

/-- A step lowers the measure. -/
def Lowers (cfg : Config) (s : BatchState) : Prop :=
  ∃ s', Steps (stepBatch cfg) s s' ∧ left cfg s' < left cfg s

theorem producer_goes_on (hper : cfg.numGen = 0 ∨ 2 ≤ cfg.numGenPerLoop) (h : Inv cfg s)
    (hp : producerAt s ≠ .exited)
    (hw : producerAt s = .waitMutex → Outside s ∧ s.data.size < cfg.capacity) :
    Lowers cfg s := by
  obtain ⟨op, d, next, he⟩ : ∃ op d next,
      (producerStuff cfg (producerAt s)).effect s.data 1 = some (op, d, next) := by
    cases hat : producerAt s with
    | exited => exact absurd hat hp
    | _ => exact ⟨_, _, _, rfl⟩
  have hop : op.Enabled s.sem := by
    refine h.enabled fun htake => ?_
    subst htake
    exact (hw (producer_take he)).1
  obtain ⟨hread, hframe⟩ := producer_frame he
  have hlower := producer_lowers hper h.counters h.producer (fun hat => (hw hat).2) he
  have hsame : consumerLeft cfg d (consumerAt s) = consumerLeft cfg s.data (consumerAt s) :=
    consumerLeft_congr hread fun hin => hframe (h.exclusive.resolve_right (by rw [hin]; simp))
  refine ⟨_, ⟨(.producer, 1), step_eq_some.2 ⟨op, d, next, he, hop, rfl⟩⟩, ?_⟩
  have hself : Function.update s.pc .producer next .producer = next := Function.update_self ..
  have hother : Function.update s.pc .producer next .consumer = consumerAt s :=
    Function.update_of_ne (by decide) ..
  unfold left
  show producerLeft cfg d (Function.update s.pc .producer next .producer)
    + consumerLeft cfg d (Function.update s.pc .producer next .consumer) < _
  rw [hself, hother]
  show producerLeft cfg d next + consumerLeft cfg d (consumerAt s) < _
  omega

theorem consumer_goes_on (h : Inv cfg s) (hc : consumerAt s ≠ .exited)
    (hw : consumerAt s = .waitMutex → Outside s ∧ 0 < s.data.size) : Lowers cfg s := by
  obtain ⟨op, d, next, he⟩ : ∃ op d next,
      (consumerStuff cfg (consumerAt s)).effect s.data 0 = some (op, d, next) := by
    cases hat : consumerAt s with
    | exited => exact absurd hat hc
    | _ => exact ⟨_, _, _, rfl⟩
  have hop : op.Enabled s.sem := by
    refine h.enabled fun htake => ?_
    subst htake
    exact (hw (consumer_take he)).1
  obtain ⟨htotal, hframe⟩ := consumer_frame he
  have hlower := consumer_lowers h.counters h.consumer (fun hat => (hw hat).2) he
  have hsame : producerLeft cfg d (producerAt s) = producerLeft cfg s.data (producerAt s) :=
    producerLeft_congr htotal fun hin => hframe (h.exclusive.resolve_left (by rw [hin]; simp))
  refine ⟨_, ⟨(.consumer, 0), step_eq_some.2 ⟨op, d, next, he, hop, rfl⟩⟩, ?_⟩
  have hself : Function.update s.pc .consumer next .consumer = next := Function.update_self ..
  have hother : Function.update s.pc .consumer next .producer = producerAt s :=
    Function.update_of_ne (by decide) ..
  unfold left
  show producerLeft cfg d (Function.update s.pc .consumer next .producer)
    + consumerLeft cfg d (Function.update s.pc .consumer next .consumer) < _
  rw [hself, hother]
  show producerLeft cfg d (producerAt s) + consumerLeft cfg d next < _
  omega

/-- Both threads have left their loops. -/
def Finished (s : BatchState) : Prop := producerAt s = .exited ∧ consumerAt s = .exited

/-- **Short of the end some step lowers the measure.** -/
theorem lower_step (hper : cfg.numGen = 0 ∨ 2 ≤ cfg.numGenPerLoop) (h : Inv cfg s)
    (hnot : ¬ Finished s) : Lowers cfg s := by
  have hcap := cfg.capacity_pos
  by_cases hpin : (producerAt s).inside = true
  · refine producer_goes_on hper h (fun hat => ?_) fun hat => ?_
    · simp [hat] at hpin
    · simp [hat] at hpin
  by_cases hcin : (consumerAt s).inside = true
  · refine consumer_goes_on h (fun hat => ?_) fun hat => ?_
    · simp [hat] at hcin
    · simp [hat] at hcin
  -- both are outside: the counters say who has something to do
  have hout : Outside s := ⟨Bool.eq_false_iff.2 hpin, Bool.eq_false_iff.2 hcin⟩
  have hsum := (h.outside hout).2
  have hle := h.counters.read_le
  have hproducer := h.producer
  have hconsumer := h.consumer
  by_cases hc : consumerAt s = .exited
  · have hp : producerAt s ≠ .exited := fun hat => hnot ⟨hat, hc⟩
    rw [hc] at hconsumer
    have hread : s.data.numHasRead = cfg.numGen := hconsumer
    refine producer_goes_on hper h hp fun hat => ?_
    -- everything has been read, so nothing is left to generate
    rw [hat] at hproducer
    have hpos : 0 < s.data.totalGenNum := hproducer
    omega
  · by_cases hsize : 0 < s.data.size
    · exact consumer_goes_on h hc fun _ => ⟨hout, hsize⟩
    · by_cases hp : producerAt s = .exited
      · refine consumer_goes_on h hc fun hat => ?_
        rw [hat] at hconsumer
        rw [hp] at hproducer
        have hread : s.data.numHasRead < cfg.numGen := hconsumer
        have hdone : s.data.totalGenNum ≤ 0 := hproducer
        omega
      · exact producer_goes_on hper h hp fun _ => ⟨hout, by omega⟩

/-! ## Who can finish -/

/-- With batches drawn modulo one nothing is ever generated. -/
theorem total_of_one (hone : cfg.numGenPerLoop = 1) (h : BatchReachable cfg s) :
    s.data.totalGenNum = cfg.numGen := by
  refine Reachable.invariant (fun s => s.data.totalGenNum = (cfg.numGen : Int)) ?_ ?_ h
  · rintro s ⟨junk, rfl⟩
    rfl
  · rintro s s' hr htotal ⟨⟨t, rand⟩, ha⟩
    obtain ⟨op, d, next, he, -, rfl⟩ := step_eq_some.1 ha
    cases t with
    | consumer => exact (consumer_frame he).1.trans htotal
    | producer =>
        have hok := (inv_reachable hr).producer
        change (producerStuff cfg (producerAt s)).effect s.data rand = some (op, d, next) at he
        generalize producerAt s = p at he hok
        cases p with
        | subTotal num =>
            -- no batch has a size below one
            have hpos := hok.2.pos
            have hlt := hok.2.lt
            omega
        | exited => cases he
        | _ =>
            cases he
            exact htotal

/-- **Both threads can finish** from a state that a run leads to exactly when there is nothing to
generate or a batch can have a number in it, whatever has been drawn so far. -/
theorem can_finish_iff (h : BatchReachable cfg s) :
    (∃ s', Relation.ReflTransGen (Steps (stepBatch cfg)) s s' ∧ Finished s') ↔
      cfg.numGen = 0 ∨ 2 ≤ cfg.numGenPerLoop := by
  constructor
  · rintro ⟨s', hrun, hp, -⟩
    by_contra hparams
    have hpos := cfg.perLoop_pos
    have hr : BatchReachable cfg s' := h.trans hrun
    have htotal := total_of_one (by omega) hr
    have hdone := (inv_reachable hr).producer
    rw [hp] at hdone
    have hle : s'.data.totalGenNum ≤ 0 := hdone
    omega
  · intro hparams
    obtain ⟨s', hrun, -, hfinished⟩ : ∃ s', Relation.ReflTransGen (Steps (stepBatch cfg)) s s' ∧
        Inv cfg s' ∧ Finished s' := by
      refine leads_to (Inv cfg) Finished (left cfg) (fun s hinv hnot => ?_) (inv_reachable h)
      obtain ⟨s', hstep, hlt⟩ := lower_step hparams hinv hnot
      obtain ⟨a, ha⟩ := hstep
      exact ⟨s', ⟨a, ha⟩, hinv.step ha, hlt⟩
    exact ⟨s', hrun, hfinished⟩

/-- One number, and batches modulo one. -/
def moduloOne : Config := { singles with
  numGenPerLoop := 1
  perLoop_pos := singles.capacity_pos
  perLoop_lt := singles.numGen_lt }

set_option maxRecDepth 20000 in
/-- After a batch of `0` has been drawn the threads can finish with the parameters of the program,
and never do with batches modulo one. -/
theorem can_finish_iff_defaults : ∃ s t,
    execute (stepBatch defaults) (startState defaults fun _ => 0) (times .producer 6 0) = some s ∧
    execute (stepBatch moduloOne) (startState moduloOne fun _ => 0) (times .producer 6 0)
      = some t ∧
    (∃ s', Relation.ReflTransGen (Steps (stepBatch defaults)) s s' ∧ Finished s') ∧
    ¬ ∃ t', Relation.ReflTransGen (Steps (stepBatch moduloOne)) t t' ∧ Finished t' := by
  obtain ⟨s, hs, -⟩ := batch_run defaults (times .producer 6 0) (fun _ => true) (by decide)
  obtain ⟨t, ht, -⟩ := batch_run moduloOne (times .producer 6 0) (fun _ => true) (by decide)
  have hr : BatchReachable defaults s :=
    reachable_execute (Reachable.start ⟨fun _ => 0, rfl⟩) hs
  have hrt : BatchReachable moduloOne t :=
    reachable_execute (Reachable.start ⟨fun _ => 0, rfl⟩) ht
  refine ⟨s, t, hs, ht, (can_finish_iff hr).2 (by decide), fun hcan => ?_⟩
  exact absurd ((can_finish_iff hrt).1 hcan) (by decide)

end CPlayground.Batch
