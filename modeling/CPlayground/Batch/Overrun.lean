import CPlayground.Batch.Quota

set_option autoImplicit false

/-! # The buffer is not overrun

The bounds of the buffer and the order in which numbers are read hold in every run. The two
equations of the counters hold as long as `num_has_gen` does not overflow; since the last batch
can exceed the quota by all but one of its numbers, that is a condition on the parameters
(`never_overruns_iff`). `Passes` follows a run that generates and reads one number at a time and
ends with the largest batch there is.
-/

namespace CPlayground.Batch

open Semaphores StackLog

variable {cfg : Config} {s s' : BatchState}

/-! ## What holds in every state -/

/-- What is expected of the buffer and the counters at each state. -/
structure NeverOverruns (cfg : Config) (s : BatchState) : Prop where
  size_le : s.data.size ≤ cfg.capacity
  store : ∀ num i, producerAt s = .store num i →
    0 ≤ wrap32 s.data.size ∧ wrap32 s.data.size < cfg.capacity
  load : consumerAt s = .load → 1 ≤ s.data.size
  counters : Outside s → s.data.numHasGen = s.data.numHasRead + s.data.size ∧
    s.data.totalGenNum + s.data.numHasGen = cfg.numGen
  lifo : Lifo s.data.history

/-- **Where `num_has_gen` cannot overflow.** -/
theorem neverOverruns_of_bound (hcap : cfg.capacity < 2 ^ 31)
    (hbound : cfg.numGen + min (cfg.numGenPerLoop - 1) cfg.capacity ≤ 2 ^ 31)
    (h : BatchReachable cfg s) : NeverOverruns cfg s where
  size_le := (inv_reachable h).counters.size_le
  store num i hpc := by
    have hinv := inv_reachable h
    have hle := hinv.counters.size_le
    have hok := hinv.producer
    rw [hpc] at hok
    obtain ⟨-, -, hi, -, hroom⟩ := hok
    rw [wrap32_eq (by omega) (by omega)]
    omega
  load hpc := by
    have hok := (inv_reachable h).consumer
    rw [hpc] at hok
    exact hok.2
  counters hout := by
    have hinv := inv_reachable h
    obtain ⟨hgen, hsum⟩ := hinv.outside hout
    have hge := hinv.counters.total_ge
    have hle := hinv.counters.total_le
    have hlt := cfg.numGen_lt
    have hfits : wrap32 (cfg.numGen - s.data.totalGenNum) = cfg.numGen - s.data.totalGenNum := by
      by_cases hneg : s.data.totalGenNum < 0
      · obtain ⟨-, -, hper, hroom⟩ := hge hneg
        exact wrap32_eq (by omega) (by omega)
      · exact wrap32_eq (by omega) (by omega)
    rw [hgen, hfits]
    omega
  lifo := (stacked_reachable hcap h).1

/-! ## A run that is steered -/

/-- A run passes a state with these points and counters. -/
def Passes (cfg : Config) (p : ProducerPc) (c : ConsumerPc) (total : Int) (size : Nat)
    (read : Int) : Prop :=
  ∃ s, BatchReachable cfg s ∧ s.pc = points p c ∧ s.data.totalGenNum = total ∧
    s.data.size = size ∧ s.data.numHasRead = read

/-- What the next instruction does where the counters are these. -/
def Does {P : Type} (instr : Instr Sem Shared Nat P) (rand : Nat) (free : Prop) (next : P)
    (total total' : Int) (size size' : Nat) (read read' : Int) : Prop :=
  ∀ d : Shared, d.totalGenNum = total → d.size = size → d.numHasRead = read →
    ∃ op d', instr.effect d rand = some (op, d', next) ∧ (op = .take .mutex → free) ∧
      d'.totalGenNum = total' ∧ d'.size = size' ∧ d'.numHasRead = read'

section Steered

variable {p p' : ProducerPc} {c c' : ConsumerPc} {total total' : Int} {size size' : Nat}
  {read read' : Int}

@[simp] theorem update_points_producer :
    Function.update (points p c) .producer p' = points p' c := by
  funext t
  cases t <;> rfl

@[simp] theorem update_points_consumer :
    Function.update (points p c) .consumer c' = points p c' := by
  funext t
  cases t <;> rfl

/-- `mutex` is free when no thread is inside. -/
theorem Inv.enabled (h : Inv cfg s) {op : Op Sem} (hfree : op = .take .mutex → Outside s) :
    op.Enabled s.sem := by
  cases op with
  | take x =>
      cases x
      obtain ⟨hp, hc⟩ := hfree rfl
      have htoken := h.token
      rw [hp, hc] at htoken
      have hone : s.sem .mutex = 1 := htoken
      show 0 < s.sem .mutex
      omega
  | keep | give _ => trivial

/-- A thread goes on with its instruction, unless that waits for `mutex` with a thread inside. -/
theorem BatchReachable.go (h : BatchReachable cfg s) {t : Thread} {next : Pc t} (rand : Nat)
    {op : Op Sem} {d : Shared} (he : (code cfg t (s.pc t)).effect s.data rand = some (op, d, next))
    (hfree : op = .take .mutex → Outside s) :
    BatchReachable cfg ⟨d, op.apply s.sem, Function.update s.pc t next⟩ := by
  have hop := (inv_reachable h).enabled hfree
  exact h.next ⟨(t, rand), step_eq_some.2 ⟨op, d, next, he, hop, rfl⟩⟩

theorem Passes.producer (h : Passes cfg p c total size read) (rand : Nat)
    (hdoes : Does (producerStuff cfg p) rand (p.inside = false ∧ c.inside = false) p' total total'
      size size' read read') : Passes cfg p' c total' size' read' := by
  obtain ⟨⟨data, sem, pc⟩, hr, rfl, ht, hn, hread⟩ := h
  obtain ⟨op, d', he, hfree, h'⟩ := hdoes data ht hn hread
  exact ⟨_, hr.go (t := .producer) rand he hfree, update_points_producer, h'⟩

theorem Passes.consumer (h : Passes cfg p c total size read) (rand : Nat)
    (hdoes : Does (consumerStuff cfg c) rand (p.inside = false ∧ c.inside = false) c' total total'
      size size' read read') : Passes cfg p c' total' size' read' := by
  obtain ⟨⟨data, sem, pc⟩, hr, rfl, ht, hn, hread⟩ := h
  obtain ⟨op, d', he, hfree, h'⟩ := hdoes data ht hn hread
  exact ⟨_, hr.go (t := .consumer) rand he hfree, update_points_consumer, h'⟩

/-- The loop that fills the buffer, from the `i`-th number on. -/
theorem Passes.fill {num i : Nat} (k : Nat)
    (h : Passes cfg (.fill num i) c total size read) (hk : i + k = num) (hnum : num < 2 ^ 31)
    (hroom : size + k ≤ cfg.capacity) :
    Passes cfg (.fill num num) c total (size + k) read := by
  induction k generalizing i size with
  | zero =>
      obtain rfl : i = num := hk
      exact h
  | succ k ih =>
      have hcap := cfg.capacity_lt
      have hlt : (i : Int) < num := by omega
      have hnext : wrap32 ((i : Int) + 1) = (i + 1 : Nat) := wrap32_eq (by omega) (by omega)
      have hsize : toSizeT ((size : Int) + 1) = size + 1 := by
        rw [toSizeT_eq (by omega) (by omega)]
        omega
      have h1 : Passes cfg (.store num i) c total size read :=
        h.producer 0 fun d ht hn hr =>
          ⟨.keep, d, by simp [producerStuff, Instr.effect, hlt], by simp, ht, hn, hr⟩
      have h2 : Passes cfg (.incSize num i) c total size read :=
        h1.producer 0 fun d ht hn hr => ⟨_, _, rfl, by simp, ht, hn, hr⟩
      have h3 : Passes cfg (.fill num (i + 1 : Nat)) c total (size + 1) read :=
        h2.producer 0 fun d ht hn hr => ⟨.keep, { d with size := size + 1 }, by
          simp [producerStuff, Instr.effect, hn, hsize, hnext], by simp, ht, rfl, hr⟩
      have h4 := ih h3 (by omega) (by omega)
      rwa [Nat.add_assoc, Nat.add_comm 1 k] at h4

/-- **A critical section of the producer**, with a batch of the given size. -/
theorem Passes.batch (num : Nat) (h : Passes cfg .loopTest c total size read)
    (hc : c.inside = false) (hpos : 0 < total) (htotal : total < 2 ^ 31) (hnum : 0 < num)
    (hlt : num < cfg.numGenPerLoop) (hroom : size + num ≤ cfg.capacity) :
    Passes cfg .loopTest c (total - num) (size + num) read := by
  have hper := cfg.perLoop_lt
  have hzero : ((num : Nat) : Int) ≠ 0 := by omega
  have h1 : Passes cfg .waitMutex c total size read := h.producer 0 fun d ht hn hr =>
    ⟨.keep, d, by simp [producerStuff, Instr.effect, ht, hpos], by simp, ht, hn, hr⟩
  have h2 : Passes cfg .roomTest c total size read := h1.producer 0 fun d ht hn hr =>
    ⟨_, d, rfl, fun _ => ⟨rfl, hc⟩, ht, hn, hr⟩
  have h3 : Passes cfg .draw c total size read := h2.producer 0 fun d ht hn hr => by
    have hfree : 0 < d.room cfg := by
      rw [room_eq (by omega)]
      omega
    exact ⟨.keep, d, by simp [producerStuff, Instr.effect, hfree], by simp, ht, hn, hr⟩
  -- `rand` returns the size of the batch
  have h4 : Passes cfg (.clip num) c total size read := h3.producer num fun d ht hn hr =>
    ⟨.keep, d, by simp only [producerStuff, Instr.effect, Nat.mod_eq_of_lt hlt, Option.map_some],
      by simp, ht, hn, hr⟩
  have h5 : Passes cfg (.fill num (0 : Nat)) c total size read := h4.producer 0 fun d ht hn hr => by
    have hbatch : d.batch cfg num = num := by
      rw [batch_eq (by omega) (by omega) (by omega)]
      omega
    refine ⟨.keep, d, ?_, by simp, ht, hn, hr⟩
    simp only [producerStuff, Instr.effect, hbatch, if_neg hzero, Option.map_some, Nat.cast_zero]
  have h6 := h5.fill num (Nat.zero_add num) (by omega) hroom
  have h7 : Passes cfg (.subTotal num) c total (size + num) read := h6.producer 0 fun d ht hn hr =>
    ⟨.keep, d, by simp [producerStuff, Instr.effect], by simp, ht, hn, hr⟩
  have h8 : Passes cfg (.incGen num) c (total - num) (size + num) read :=
    h7.producer 0 fun d ht hn hr => by
      have hleft : wrap32 (d.totalGenNum - num) = total - num := by
        rw [ht, wrap32_eq (by omega) (by omega)]
      exact ⟨_, _, rfl, by simp, hleft, hn, hr⟩
  have h9 : Passes cfg .postMutex c (total - num) (size + num) read :=
    h8.producer 0 fun d ht hn hr => ⟨_, _, rfl, by simp, ht, hn, hr⟩
  exact h9.producer 0 fun d ht hn hr => ⟨_, d, rfl, by simp, ht, hn, hr⟩

/-- **A critical section of the consumer**, in a buffer that is not empty. -/
theorem Passes.takeOne (h : Passes cfg p .loopTest total (size + 1) read) (hp : p.inside = false)
    (hread : read ≠ cfg.numGen) (hfits : FitsInt (read + 1)) (hsize : size < 2 ^ 64) :
    Passes cfg p .loopTest total size (read + 1) := by
  have h1 : Passes cfg p .waitMutex total (size + 1) read := h.consumer 0 fun d ht hn hr =>
    ⟨.keep, d, by simp [consumerStuff, Instr.effect, hr, hread], by simp, ht, hn, hr⟩
  have h2 : Passes cfg p .itemTest total (size + 1) read := h1.consumer 0 fun d ht hn hr =>
    ⟨_, d, rfl, fun _ => ⟨hp, rfl⟩, ht, hn, hr⟩
  have h3 : Passes cfg p .load total (size + 1) read := h2.consumer 0 fun d ht hn hr =>
    ⟨.keep, d, by simp [consumerStuff, Instr.effect, hn], by simp, ht, hn, hr⟩
  have h4 : Passes cfg p .decSize total (size + 1) read := h3.consumer 0 fun d ht hn hr =>
    ⟨_, _, rfl, by simp, ht, hn, hr⟩
  have h5 : Passes cfg p .incRead total size read := h4.consumer 0 fun d ht hn hr => by
    have hleft : toSizeT ((d.size : Int) - 1) = size := by
      rw [hn, toSizeT_eq (by omega) (by omega)]
      omega
    exact ⟨_, _, rfl, by simp, ht, hleft, hr⟩
  have h6 : Passes cfg p .postMutex total size (read + 1) := h5.consumer 0 fun d ht hn hr => by
    have hnext : wrap32 (d.numHasRead + 1) = read + 1 := by
      rw [hr, wrap32_eq hfits.1 hfits.2]
    exact ⟨_, _, rfl, by simp, ht, hn, hnext⟩
  exact h6.consumer 0 fun d ht hn hr => ⟨_, d, rfl, by simp, ht, hn, hr⟩

end Steered

/-- All but the last numbers are generated and read one at a time. -/
theorem passes_drained (hper : 2 ≤ cfg.numGenPerLoop) (k : Nat) (hk : k < cfg.numGen) :
    Passes cfg .loopTest .loopTest (cfg.numGen - k) 0 k := by
  induction k with
  | zero => exact ⟨_, Reachable.start ⟨fun _ => 0, rfl⟩, rfl, by simp [startState], rfl, rfl⟩
  | succ k ih =>
      have hlt := cfg.numGen_lt
      have hroom := cfg.capacity_pos
      have hbatch := (ih (by omega)).batch 1 rfl (by omega) (by omega) (by omega) hper
        (by omega)
      have hread := hbatch.takeOne rfl (by omega) ⟨by omega, by omega⟩ (by omega)
      have htotal : (cfg.numGen : Int) - k - (1 : Nat) = cfg.numGen - (k + 1 : Nat) := by omega
      rw [htotal] at hread
      exact hread

/-- **The largest last batch.** -/
theorem passes_last_batch (cfg : Config) (num : Nat) (hgen : 0 < cfg.numGen) (hnum : 0 < num)
    (hlt : num < cfg.numGenPerLoop) (hle : num ≤ cfg.capacity) :
    Passes cfg .loopTest .loopTest (1 - num) num (cfg.numGen - 1 : Nat) := by
  have h := (passes_drained (by omega) (cfg.numGen - 1) (by omega)).batch num rfl
    (by omega) (by have := cfg.numGen_lt; omega) hnum hlt (by omega)
  have htotal : (cfg.numGen : Int) - (cfg.numGen - 1 : Nat) - num = 1 - num := by omega
  rwa [htotal, Nat.zero_add] at h

/-- Where `num_has_gen` can overflow, it does. -/
theorem overruns_of_large
    (hlarge : 2 ^ 31 < cfg.numGen + min (cfg.numGenPerLoop - 1) cfg.capacity) :
    ∃ s, BatchReachable cfg s ∧ ¬ NeverOverruns cfg s := by
  have hgen := cfg.numGen_lt
  have hcap := cfg.capacity_pos
  obtain ⟨s, hr, hpc, ht, hn, hread⟩ := passes_last_batch cfg
    (min (cfg.numGenPerLoop - 1) cfg.capacity) (by have := cfg.perLoop_lt; omega)
    (by omega) (by omega) (by omega)
  refine ⟨s, hr, fun hnever => ?_⟩
  have hout : Outside s := by
    rw [Outside, producerAt, consumerAt, hpc]
    exact ⟨rfl, rfl⟩
  -- the counter is an `int`, and what it should count is not
  have hint := fitsInt_wrap32 (cfg.numGen - s.data.totalGenNum)
  rw [← ((inv_reachable hr).outside hout).1] at hint
  have hcount := (hnever.counters hout).1
  rw [hn, hread] at hcount
  have hfits := hint.2
  omega

/-- **The batched producer never overruns the buffer** where the last batch cannot make
`num_has_gen` overflow, and elsewhere some run breaks the equations of the counters. -/
theorem never_overruns_iff (hcap : cfg.capacity < 2 ^ 31) :
    (∀ s, BatchReachable cfg s → NeverOverruns cfg s) ↔
      cfg.numGen + min (cfg.numGenPerLoop - 1) cfg.capacity ≤ 2 ^ 31 := by
  constructor
  · intro h
    by_contra hlarge
    obtain ⟨s, hr, hbad⟩ := overruns_of_large (not_le.1 hlarge)
    exact hbad (h s hr)
  · exact fun hbound s h => neverOverruns_of_bound hcap hbound h

/-- The parameters of the program as it stands. -/
theorem never_overruns_iff_defaults :
    (∀ s, BatchReachable defaults s → NeverOverruns defaults s) ↔ 800 + min (5 - 1) 100 ≤ 2 ^ 31 :=
  never_overruns_iff (by decide)

/-- The largest quota, with batches of up to two. -/
def atLimit : Config := { pairs with
  numGen := 2147483647
  numGen_lt := by decide }

/-- The last batch takes `num_has_gen` past `INT_MAX`. -/
theorem has_gen_overflows : ¬ ∀ s, BatchReachable atLimit s → NeverOverruns atLimit s := by
  intro hall
  obtain ⟨s, hr, hbad⟩ := @overruns_of_large atLimit (by decide)
  exact hbad (hall s hr)

/-! ## The quota in every run -/

/-- A batch of two for the last number: when both threads have left, one number is unread. -/
theorem overdrawn_run (hgen : 0 < cfg.numGen) (hper : 2 < cfg.numGenPerLoop)
    (hroom : 1 < cfg.capacity) :
    ∃ s, BatchReachable cfg s ∧ producerAt s = .exited ∧ consumerAt s = .exited ∧
      ¬ ExactQuota cfg s.data := by
  have hlt := cfg.numGen_lt
  have hlast := passes_last_batch cfg 2 (by omega) (by omega) (by omega) (by omega)
  have hread := hlast.takeOne rfl (by omega) ⟨by omega, by omega⟩ (by omega)
  have hproducer : Passes cfg .exited .loopTest (1 - (2 : Nat)) 1 ((cfg.numGen - 1 : Nat) + 1) :=
    hread.producer 0 fun d ht hn hr =>
      ⟨.keep, d, by simp [producerStuff, Instr.effect, ht], by simp, ht, hn, hr⟩
  have hall_read : ((cfg.numGen - 1 : Nat) : Int) + 1 = cfg.numGen := by omega
  rw [hall_read] at hproducer
  have hconsumer : Passes cfg .exited .exited (1 - (2 : Nat)) 1 cfg.numGen :=
    hproducer.consumer 0 fun d ht hn hr =>
      ⟨.keep, d, by simp [consumerStuff, Instr.effect, hr], by simp, ht, hn, hr⟩
  obtain ⟨s, hr, hpc, -, hsize, -⟩ := hconsumer
  refine ⟨s, hr, by rw [producerAt, hpc]; rfl, by rw [consumerAt, hpc]; rfl, fun hexact => ?_⟩
  rw [hexact.2.2] at hsize
  cases hsize

/-- One number is to be generated, or 800 as in the program, and the batch for the last one is of
two: a number is never read. -/
theorem quota_overdrawn :
    (¬ ∀ s, BatchReachable pairs s → producerAt s = .exited → consumerAt s = .exited →
      ExactQuota pairs s.data) ∧
    ¬ ∀ s, BatchReachable defaults s → producerAt s = .exited → consumerAt s = .exited →
      ExactQuota defaults s.data := by
  constructor
  · intro hall
    obtain ⟨s, hr, hp, hc, hbad⟩ := @overdrawn_run pairs (by decide) (by decide) (by decide)
    exact hbad (hall s hr hp hc)
  · intro hall
    obtain ⟨s, hr, hp, hc, hbad⟩ := @overdrawn_run defaults (by decide) (by decide) (by decide)
    exact hbad (hall s hr hp hc)

/-- **Which parameters let every run generate exactly the quota**: those with which no batch can
be larger than what is left of it. -/
theorem exact_quota_always_iff :
    (∀ s, BatchReachable cfg s → producerAt s = .exited → consumerAt s = .exited →
      ExactQuota cfg s.data) ↔ cfg.numGen = 0 ∨ cfg.numGenPerLoop ≤ 2 ∨ cfg.capacity = 1 := by
  constructor
  · intro hall
    by_contra hparams
    have hcap := cfg.capacity_pos
    obtain ⟨s, hr, hp, hc, hbad⟩ := @overdrawn_run cfg (by omega) (by omega) (by omega)
    exact hbad (hall s hr hp hc)
  · intro hparams s hr hp hc
    have hinv := inv_reachable hr
    rw [exactQuota_iff_overdrawn hinv hp hc, Overdrawn, hp]
    intro hneg
    obtain ⟨hgen, -, hper, hroom⟩ := hinv.counters.total_ge hneg
    simp only [ProducerPc.claimed] at hneg
    omega

end CPlayground.Batch
