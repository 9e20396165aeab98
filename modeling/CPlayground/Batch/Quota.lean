import CPlayground.Batch.Invariant

set_option autoImplicit false

/-! # The quota

`producer_stuff` cuts a batch down to the free space and not to what is left of its quota, so the
last batch can be larger than `total_gen_num`. A run generates exactly the quota if and only if
it has no such batch (`exact_quota_iff`): what was overdrawn is never given back.
-/

namespace CPlayground.Batch

open Semaphores StackLog

variable {cfg : Config} {s s' : BatchState} {a : Thread × Nat}

/-! ## Batches within the quota -/

/-- The batch that the producer is about to generate is not larger than the rest of the quota. -/
def ProducerPc.within (cfg : Config) (d : Shared) : ProducerPc → Bool
  | .clip num => decide (d.batch cfg num ≤ d.totalGenNum)
  | _ => true

def WithinQuota (cfg : Config) (s : BatchState) : Thread × Nat → Prop
  | (.producer, _) => (producerAt s).within cfg s.data = true
  | (.consumer, _) => True

instance (cfg : Config) (s : BatchState) : (a : Thread × Nat) → Decidable (WithinQuota cfg s a)
  | (.producer, _) => inferInstanceAs (Decidable (_ = true))
  | (.consumer, _) => .isTrue trivial

/-- The batch under way, as far as it is not taken off `total_gen_num`. -/
@[simp] def ProducerPc.claimed : ProducerPc → Int
  | .fill num _ | .store num _ | .incSize num _ | .subTotal num => num
  | _ => 0

/-- More is generated, or about to be, than the quota allows. -/
def Overdrawn (s : BatchState) : Prop := s.data.totalGenNum < (producerAt s).claimed

/-- An empty batch is within any quota. -/
theorem claimed_clip {b total : Int} (hpos : 0 < total) :
    total < (if b = 0 then ProducerPc.postMutex else .fill b 0).claimed ↔ ¬ b ≤ total := by
  split_ifs with hzero
  · simp [hzero, hpos.le]
  · simp

theorem producer_overdrawn {d d' : Shared} {p p' : ProducerPc} {op : Op Sem} {rand : Nat}
    {c : ConsumerPc} (h : CountersOk cfg d p c) (hp : p.Ok cfg d)
    (he : (producerStuff cfg p).effect d rand = some (op, d', p')) :
    d'.totalGenNum < p'.claimed ↔ d.totalGenNum < p.claimed ∨ ¬ p.within cfg d = true := by
  cases p with
  | loopTest | roomTest =>
      cases he
      split_ifs <;> simp [ProducerPc.within]
  | fill num i =>
      cases he
      split_ifs <;> simp [ProducerPc.within]
  | clip num =>
      cases he
      have hpos : 0 < d.totalGenNum := hp.1
      rw [or_iff_right (show ¬ d.totalGenNum < (ProducerPc.clip num).claimed from not_lt.2 hpos.le)]
      simp only [ProducerPc.within, decide_eq_true_eq]
      exact claimed_clip hpos
  | subTotal num =>
      cases he
      obtain ⟨hpos, hbatch⟩ := hp
      have hnum := hbatch.pos
      have hlt := hbatch.lt
      have hper := cfg.perLoop_lt
      have hgen := cfg.numGen_lt
      have hle := h.total_le
      have htotal : wrap32 (d.totalGenNum - num) = d.totalGenNum - num :=
        wrap32_eq (by omega) (by omega)
      simp [ProducerPc.within, htotal]
  | waitMutex | draw | store _ _ | incSize _ _ | incGen _ | postMutex =>
      cases he
      simp [ProducerPc.within]
  | exited => cases he

/-- **One step.** Nothing is given back, and a batch overdraws when it is not within the quota. -/
theorem overdrawn_step (h : Inv cfg s) (hs : stepBatch cfg s a = some s') :
    Overdrawn s' ↔ Overdrawn s ∨ ¬ WithinQuota cfg s a := by
  obtain ⟨t, rand⟩ := a
  obtain ⟨op, d, next, he, hop, rfl⟩ := step_eq_some.1 hs
  cases t with
  | producer => exact producer_overdrawn h.counters h.producer he
  | consumer =>
      have htotal := (consumer_frame he).1
      simp [Overdrawn, WithinQuota, producerAt, htotal]

/-! ## The end of a run -/

/-- Exactly the quota has been generated and read, and nothing is left. -/
def ExactQuota (cfg : Config) (d : Shared) : Prop :=
  d.numHasGen = cfg.numGen ∧ d.numHasRead = cfg.numGen ∧ d.size = 0

theorem exactQuota_iff_overdrawn (h : Inv cfg s) (hp : producerAt s = .exited)
    (hc : consumerAt s = .exited) : ExactQuota cfg s.data ↔ ¬ Overdrawn s := by
  have hlt := cfg.numGen_lt
  have hper := cfg.perLoop_lt
  obtain ⟨hgen, hsum⟩ := h.outside ⟨by rw [hp]; rfl, by rw [hc]; rfl⟩
  have hdone : s.data.totalGenNum ≤ 0 := by
    have hok := h.producer
    rw [hp] at hok
    exact hok
  have hread : s.data.numHasRead = cfg.numGen := by
    have hok := h.consumer
    rw [hc] at hok
    exact hok
  simp only [ExactQuota, Overdrawn, hp, ProducerPc.claimed, not_lt]
  constructor
  · rintro ⟨hexact, -, -⟩
    by_contra hneg
    have hbatch := (h.counters.total_ge (not_le.1 hneg)).2.lt
    rw [hgen, wrap32, Int.bmod_def] at hexact
    split_ifs at hexact <;> omega
  · intro hpos
    refine ⟨?_, hread, by omega⟩
    rw [hgen, wrap32_eq (by omega) (by omega)]
    omega

/-- **The producer generates exactly the quota** in the runs in which every batch, cut down to the
free space, is at most `total_gen_num`, and in no other run. -/
theorem exact_quota_iff {junk : Int → Int} {as : List (Thread × Nat)}
    (hrun : execute (stepBatch cfg) (startState cfg junk) as = some s)
    (hp : producerAt s = .exited) (hc : consumerAt s = .exited) :
    ExactQuota cfg s.data ↔
      execute (guarded (WithinQuota cfg) (stepBatch cfg)) (startState cfg junk) as = some s := by
  have hinv : Inv cfg s := inv_reachable (reachable_execute (Reachable.start ⟨junk, rfl⟩) hrun)
  have hstart : ¬ Overdrawn (startState cfg junk) := by
    simp [Overdrawn, startState, producerAt, points]
  rw [exactQuota_iff_overdrawn hinv hp hc, execute_guarded_iff (Inv cfg) Overdrawn
    (fun _ _ _ hi hs => hi.step hs) (fun _ _ _ hi hs => overdrawn_step hi hs) (inv_start cfg junk)
    hstart]
  simp [hrun]

/-- `k` steps of one thread, with `rand` returning `r`. -/
def times (t : Thread) (k r : Nat) : List (Thread × Nat) := List.replicate k (t, r)

/-- One number is to be generated, in batches of one. -/
def singles : Config where
  numGen := 1
  numGenPerLoop := 2
  capacity := 1
  numGen_lt := by decide
  perLoop_pos := by decide
  perLoop_lt := by decide
  capacity_pos := by decide
  capacity_lt := by decide

/-- The same in batches of up to two. -/
def pairs : Config := { singles with
  numGenPerLoop := 3
  capacity := 2
  perLoop_pos := by decide
  perLoop_lt := by decide
  capacity_pos := by decide
  capacity_lt := by decide }

/-- A run that is carried out as scheduled, in a block of zeros. -/
theorem batch_run (cfg : Config) (as : List (Thread × Nat)) (p : BatchState → Bool)
    (h : (execute (stepBatch cfg) (startState cfg fun _ => 0) as).any p = true) :
    ∃ s, execute (stepBatch cfg) (startState cfg fun _ => 0) as = some s ∧ p s = true :=
  (Option.any_eq_true p _).1 h

set_option maxRecDepth 20000 in
/-- The producer generates its number, and the consumer reads it. -/
theorem exact_quota_iff_singles : ∃ s,
    execute (stepBatch singles) (startState singles fun _ => 0)
      (times .producer 13 1 ++ times .consumer 8 0) = some s ∧
    producerAt s = .exited ∧ consumerAt s = .exited ∧ (ExactQuota singles s.data ↔
      execute (guarded (WithinQuota singles) (stepBatch singles)) (startState singles fun _ => 0)
        (times .producer 13 1 ++ times .consumer 8 0) = some s) := by
  obtain ⟨s, hs, hp⟩ := batch_run singles (times .producer 13 1 ++ times .consumer 8 0)
    (fun s => decide (producerAt s = .exited ∧ consumerAt s = .exited)) (by decide)
  obtain ⟨hproducer, hconsumer⟩ := of_decide_eq_true hp
  exact ⟨s, hs, hproducer, hconsumer, exact_quota_iff hs hproducer hconsumer⟩

end CPlayground.Batch
