import CPlayground.Batch.Model

set_option autoImplicit false

/-! # The counters of the batched producer

`Inv` ties the counters to the history: `size` is the height of the stack, `total_gen_num` is
what is left of the quota, `num_has_gen` and `num_has_read` count what was generated and read.
Each of them lags behind in a part of a critical section, by what the point of the thread says.
`num_has_gen` counts in an `int`, the rest never overflows. Where the buffer is not larger than
`INT_MAX`, the array holds the stack (`Stacked`).
-/

namespace CPlayground.Batch

open Semaphores StackLog

/-! ## How far the counters lag behind -/

/-- Stored, and not counted in `size`. -/
@[simp] def ProducerPc.unsized : ProducerPc → Nat
  | .incSize _ _ => 1
  | _ => 0

/-- Generated, and not taken off `total_gen_num`. -/
@[simp] def ProducerPc.pending : ProducerPc → Int
  | .fill _ i | .store _ i => i
  | .incSize _ i => i + 1
  | .subTotal num => num
  | _ => 0

/-- Generated, and not counted in `num_has_gen`. -/
@[simp] def ProducerPc.uncounted : ProducerPc → Int
  | .incGen num => num
  | p => p.pending

/-- Read, and still counted in `size`. -/
@[simp] def ConsumerPc.unsized : ConsumerPc → Nat
  | .decSize => 1
  | _ => 0

/-- Read, and not counted in `num_has_read`. -/
@[simp] def ConsumerPc.uncounted : ConsumerPc → Int
  | .decSize | .incRead => 1
  | _ => 0

/-! ## The invariant -/

/-- The sizes that a batch can have. -/
structure Config.Batches (cfg : Config) (num : Int) : Prop where
  pos : 0 < num
  lt : num < cfg.numGenPerLoop
  le : num ≤ cfg.capacity

/-- What the producer knows at its point. -/
def ProducerPc.Ok (cfg : Config) (d : Shared) : ProducerPc → Prop
  | .waitMutex | .roomTest => 0 < d.totalGenNum
  | .draw => 0 < d.totalGenNum ∧ d.size < cfg.capacity
  | .clip num => 0 < d.totalGenNum ∧ d.size < cfg.capacity ∧ 0 ≤ num ∧ num < cfg.numGenPerLoop
  | .fill num i => 0 < d.totalGenNum ∧ 0 ≤ i ∧ i ≤ num ∧ cfg.Batches num ∧
      d.size + (num - i) ≤ cfg.capacity
  | .store num i | .incSize num i => 0 < d.totalGenNum ∧ 0 ≤ i ∧ i < num ∧ cfg.Batches num ∧
      d.size + (num - i) ≤ cfg.capacity
  | .subTotal num => 0 < d.totalGenNum ∧ cfg.Batches num
  | .incGen num => cfg.Batches num
  | .exited => d.totalGenNum ≤ 0
  | _ => True

/-- What the consumer knows at its point. -/
def ConsumerPc.Ok (cfg : Config) (d : Shared) : ConsumerPc → Prop
  | .waitMutex | .itemTest | .incRead => d.numHasRead < cfg.numGen
  | .load | .decSize => d.numHasRead < cfg.numGen ∧ 0 < d.size
  | .exited => d.numHasRead = cfg.numGen
  | _ => True

/-- The counters, with the threads at `p` and `c`. -/
structure CountersOk (cfg : Config) (d : Shared) (p : ProducerPc) (c : ConsumerPc) : Prop where
  count : (pushes d.history).card = (pops d.history).card + (stack d.history).length
  size : d.size + p.unsized = (stack d.history).length + c.unsized
  size_le : d.size ≤ cfg.capacity
  total : d.totalGenNum + (pushes d.history).card = cfg.numGen + p.pending
  total_ge : d.totalGenNum < 0 → 0 < cfg.numGen ∧ cfg.Batches (1 - d.totalGenNum)
  total_le : d.totalGenNum ≤ cfg.numGen
  gen : d.numHasGen = wrap32 ((pushes d.history).card - p.uncounted)
  read : d.numHasRead + c.uncounted = (pops d.history).card
  read_le : d.numHasRead ≤ cfg.numGen

structure Inv (cfg : Config) (s : BatchState) : Prop where
  token : s.sem .mutex + (producerAt s).inside.toNat + (consumerAt s).inside.toNat = 1
  counters : CountersOk cfg s.data (producerAt s) (consumerAt s)
  producer : (producerAt s).Ok cfg s.data
  consumer : (consumerAt s).Ok cfg s.data

section Steps

variable {cfg : Config} {d d' : Shared} {p p' : ProducerPc} {c c' : ConsumerPc} {op : Op Sem}
  {rand : Nat}

theorem wrap32_wrap32_add (x y : Int) : wrap32 (wrap32 x + y) = wrap32 (x + y) := by
  unfold wrap32
  exact Int.bmod_add_bmod ..

/-- The room, while the buffer is not overrun. -/
theorem room_eq (h : d.size ≤ cfg.capacity) : d.room cfg = cfg.capacity - d.size := by
  have hlt := cfg.capacity_lt
  rw [Shared.room, toSizeT_eq (by omega) (by omega)]
  omega

/-- A batch is what was drawn or what there is room for, whichever is less. -/
theorem batch_eq {num : Int} (h : d.size ≤ cfg.capacity) (h0 : 0 ≤ num)
    (hlt : num < cfg.numGenPerLoop) :
    d.batch cfg num = min num ((cfg.capacity : Int) - d.size) := by
  have hper := cfg.perLoop_lt
  have hsize : toSizeT num = num.toNat := toSizeT_eq h0 (by omega)
  rw [Shared.batch, MIN, room_eq h, hsize]
  split_ifs with hc
  · rw [wrap32_eq (by omega) (by omega)]
    omega
  · rw [wrap32_eq (by omega) (by omega)]
    omega

/-- Points that let no counter lag behind differently. -/
theorem CountersOk.move (h : CountersOk cfg d p c) (hp : p'.unsized = p.unsized ∧
    p'.pending = p.pending ∧ p'.uncounted = p.uncounted) (hc : c'.unsized = c.unsized ∧
    c'.uncounted = c.uncounted) : CountersOk cfg d p' c' where
  count := h.count
  size := by rw [hp.1, hc.1, h.size]
  size_le := h.size_le
  total := by rw [hp.2.1, h.total]
  total_ge := h.total_ge
  total_le := h.total_le
  gen := by rw [hp.2.2, h.gen]
  read := by rw [hc.2, h.read]
  read_le := h.read_le

/-- A number is stored. -/
theorem CountersOk.store {num i : Int} (h : CountersOk cfg d (.store num i) c)
    (data : Int → Int) (x : Int) :
    CountersOk cfg { d with data := data, history := .pushed x :: d.history } (.incSize num i)
      c := by
  have hcount := h.count
  have hsize := h.size
  have htotal := h.total
  simp only [ProducerPc.unsized, ProducerPc.pending] at hsize htotal
  refine { h with count := ?_, size := ?_, total := ?_, gen := ?_ }
  all_goals simp only [pushes, pops, stack, Multiset.card_cons, List.length_cons,
    ProducerPc.unsized, ProducerPc.pending, ProducerPc.uncounted]
  · omega
  · omega
  · omega
  · rw [h.gen]
    congr 1
    simp only [ProducerPc.uncounted, ProducerPc.pending]
    omega

/-- A batch is taken off `total_gen_num`, which was positive. -/
theorem CountersOk.subTotal {num : Int} (h : CountersOk cfg d (.subTotal num) c)
    (hpos : 0 < d.totalGenNum) (hbatch : cfg.Batches num) :
    CountersOk cfg { d with totalGenNum := d.totalGenNum - num } (.incGen num) c := by
  have hnum := hbatch.pos
  have hlt := hbatch.lt
  have hroom := hbatch.le
  have hle := h.total_le
  have htotal : d.totalGenNum + (pushes d.history).card = cfg.numGen + num := h.total
  refine { h with total := ?_, total_ge := fun hneg => ⟨?_, ?_, ?_, ?_⟩, total_le := ?_ }
  all_goals simp only [ProducerPc.pending] at *
  all_goals omega

/-- A batch is counted in `num_has_gen`. -/
theorem CountersOk.incGen {num : Int} (h : CountersOk cfg d (.incGen num) c) :
    CountersOk cfg { d with numHasGen := wrap32 (d.numHasGen + num) } .postMutex c := by
  refine { h with gen := ?_ }
  simp only [ProducerPc.uncounted, ProducerPc.pending]
  rw [h.gen, wrap32_wrap32_add]
  congr 1
  simp only [ProducerPc.uncounted]
  omega

/-- A number is read. -/
theorem CountersOk.load (h : CountersOk cfg d p .load) (hpos : 0 < d.size) (x : Int) :
    CountersOk cfg { d with history := .popped x :: d.history } p .decSize := by
  have hcount := h.count
  have hsize := h.size
  have hread := h.read
  simp only [ConsumerPc.unsized, ConsumerPc.uncounted] at hsize hread
  refine { h with count := ?_, size := ?_, read := ?_ }
  all_goals simp only [pushes, pops, stack, Multiset.card_cons, List.length_tail,
    ConsumerPc.unsized, ConsumerPc.uncounted]
  · omega
  · omega
  · omega

/-- **One step of the producer.** -/
theorem producer_step (h : CountersOk cfg d p c) (hp : p.Ok cfg d)
    (he : (producerStuff cfg p).effect d rand = some (op, d', p')) :
    CountersOk cfg d' p' c ∧ p'.Ok cfg d' := by
  have hcap := cfg.capacity_lt
  have hper := cfg.perLoop_lt
  cases p with
  | loopTest =>
      cases he
      split_ifs with ht
      · exact ⟨h.move (by simp) (by simp), ht⟩
      · exact ⟨h.move (by simp) (by simp), not_lt.1 ht⟩
  | waitMutex | postMutex =>
      cases he
      exact ⟨h.move (by simp) (by simp), hp⟩
  | roomTest =>
      cases he
      split_ifs with ht
      · rw [room_eq h.size_le] at ht
        exact ⟨h.move (by simp) (by simp), hp, Nat.lt_of_sub_pos ht⟩
      · exact ⟨h.move (by simp) (by simp), trivial⟩
  | draw =>
      cases he
      have hmod := Nat.mod_lt rand cfg.perLoop_pos
      exact ⟨h.move (by simp) (by simp), hp.1, hp.2, by omega, by omega⟩
  | clip num =>
      cases he
      obtain ⟨hpos, hroom, h0, hlt⟩ := hp
      have hb := batch_eq h.size_le h0 hlt
      generalize d.batch cfg num = b at hb
      split_ifs with hzero
      · exact ⟨h.move (by simp) (by simp), trivial⟩
      · have hb0 : 0 < b := by omega
        have hbatch : cfg.Batches b := ⟨hb0, by omega, by omega⟩
        have hfit : d.size + (b - 0) ≤ cfg.capacity := by omega
        exact ⟨h.move (by simp) (by simp), hpos, le_refl _, hb0.le, hbatch, hfit⟩
  | fill num i =>
      cases he
      obtain ⟨hpos, h0, hi, hbatch, hroom⟩ := hp
      split_ifs with hc
      · exact ⟨h.move (by simp) (by simp), hpos, h0, hc, hbatch, hroom⟩
      · obtain rfl : i = num := by omega
        exact ⟨h.move (by simp) (by simp), hpos, hbatch⟩
  | store num i =>
      cases he
      exact ⟨h.store _ _, hp⟩
  | incSize num i =>
      cases he
      obtain ⟨hpos, h0, hi, hbatch, hroom⟩ := hp
      have hlt := hbatch.lt
      have hcounted : d.size + 1 = (stack d.history).length + c.unsized := h.size
      have hsize : toSizeT ((d.size : Int) + 1) = d.size + 1 := by
        rw [toSizeT_eq (by omega) (by omega)]
        omega
      have hnext : wrap32 (i + 1) = i + 1 := wrap32_eq (by omega) (by omega)
      rw [hsize, hnext]
      have hfit : ((d.size + 1 : Nat) : Int) + (num - (i + 1)) ≤ cfg.capacity := by omega
      have hle : d.size + 1 ≤ cfg.capacity := by omega
      exact ⟨{ h with size := hcounted, size_le := hle }, hpos, by omega, by omega, hbatch, hfit⟩
  | subTotal num =>
      cases he
      obtain ⟨hpos, hbatch⟩ := hp
      have hnum := hbatch.pos
      have hlt := hbatch.lt
      have hgen := cfg.numGen_lt
      have hle := h.total_le
      have htotal : wrap32 (d.totalGenNum - num) = d.totalGenNum - num :=
        wrap32_eq (by omega) (by omega)
      rw [htotal]
      exact ⟨h.subTotal hpos hbatch, hbatch⟩
  | incGen num =>
      cases he
      exact ⟨h.incGen, trivial⟩
  | exited => cases he

/-- **One step of the consumer.** -/
theorem consumer_step (h : CountersOk cfg d p c) (hc : c.Ok cfg d)
    (he : (consumerStuff cfg c).effect d rand = some (op, d', c')) :
    CountersOk cfg d' p c' ∧ c'.Ok cfg d' := by
  have hcap := cfg.capacity_lt
  have hgen := cfg.numGen_lt
  have hle := h.size_le
  cases c with
  | loopTest =>
      cases he
      split_ifs with ht
      · exact ⟨h.move (by simp) (by simp), lt_of_le_of_ne h.read_le ht⟩
      · exact ⟨h.move (by simp) (by simp), not_not.1 ht⟩
  | waitMutex | postMutex =>
      cases he
      exact ⟨h.move (by simp) (by simp), hc⟩
  | itemTest =>
      cases he
      split_ifs with ht
      · exact ⟨h.move (by simp) (by simp), hc, ht⟩
      · exact ⟨h.move (by simp) (by simp), trivial⟩
  | load =>
      cases he
      obtain ⟨hread, hpos⟩ := hc
      exact ⟨h.load hpos _, hread, hpos⟩
  | decSize =>
      cases he
      obtain ⟨hread, hpos⟩ := hc
      have hcounted : d.size + p.unsized = (stack d.history).length + 1 := h.size
      have hsize : toSizeT ((d.size : Int) - 1) = d.size - 1 := by
        rw [toSizeT_eq (by omega) (by omega)]
        omega
      rw [hsize]
      refine ⟨{ h with size := ?_, size_le := (Nat.sub_le d.size 1).trans hle }, hread⟩
      simp only [ConsumerPc.unsized]
      omega
  | incRead =>
      cases he
      have hread : d.numHasRead < cfg.numGen := hc
      have hcounted : d.numHasRead + 1 = (pops d.history).card := h.read
      have hnext : wrap32 (d.numHasRead + 1) = d.numHasRead + 1 := wrap32_eq (by omega) (by omega)
      rw [hnext]
      have hquota : d.numHasRead + 1 ≤ cfg.numGen := by omega
      refine ⟨{ h with read := ?_, read_le := hquota }, trivial⟩
      simp only [ConsumerPc.uncounted]
      omega
  | exited => cases he

/-- What the producer leaves alone. -/
theorem producer_frame (he : (producerStuff cfg p).effect d rand = some (op, d', p')) :
    d'.numHasRead = d.numHasRead ∧ (p.inside = false → d' = d) := by
  cases p with
  | exited => cases he
  | _ =>
      cases he
      simp

/-- What the consumer leaves alone. -/
theorem consumer_frame (he : (consumerStuff cfg c).effect d rand = some (op, d', c')) :
    d'.totalGenNum = d.totalGenNum ∧ (c.inside = false → d' = d) := by
  cases c with
  | exited => cases he
  | _ =>
      cases he
      simp

/-- Outside its critical section a thread knows of its own counter only. -/
theorem ProducerPc.Ok.congr (h : p.Ok cfg d) (htotal : d'.totalGenNum = d.totalGenNum)
    (hd : p.inside = true → d' = d) : p.Ok cfg d' := by
  by_cases hin : p.inside = true
  · rw [hd hin]
    exact h
  · revert h hin
    cases p <;> simp [ProducerPc.Ok, htotal]

theorem ConsumerPc.Ok.congr (h : c.Ok cfg d) (hread : d'.numHasRead = d.numHasRead)
    (hd : c.inside = true → d' = d) : c.Ok cfg d' := by
  by_cases hin : c.inside = true
  · rw [hd hin]
    exact h
  · revert h hin
    cases c <;> simp [ConsumerPc.Ok, hread]

end Steps

/-! ## Every step keeps it -/

section Inv

variable {cfg : Config} {s s' : BatchState} {a : Thread × Nat}

/-- What an operation does to the token of `mutex`, for a thread that is inside or not. -/
def MovesToken (op : Op Sem) (was now : Bool) : Prop :=
  op = .keep ∧ now = was ∨ op = .take .mutex ∧ was = false ∧ now = true ∨
    op = .give .mutex ∧ was = true ∧ now = false

theorem producer_movesToken {d d' : Shared} {p p' : ProducerPc} {op : Op Sem} {rand : Nat}
    (he : (producerStuff cfg p).effect d rand = some (op, d', p')) :
    MovesToken op p.inside p'.inside := by
  cases p with
  | waitMutex | postMutex | draw | store _ _ | incSize _ _ | subTotal _ | incGen _ =>
      cases he
      simp [MovesToken]
  | loopTest | roomTest | clip _ | fill _ _ =>
      cases he
      split_ifs <;> simp [MovesToken]
  | exited => cases he

theorem consumer_movesToken {d d' : Shared} {c c' : ConsumerPc} {op : Op Sem} {rand : Nat}
    (he : (consumerStuff cfg c).effect d rand = some (op, d', c')) :
    MovesToken op c.inside c'.inside := by
  cases c with
  | waitMutex | postMutex | load | decSize | incRead =>
      cases he
      simp [MovesToken]
  | loopTest | itemTest =>
      cases he
      split_ifs <;> simp [MovesToken]
  | exited => cases he

/-- A thread takes the token when it enters and gives it back when it leaves. -/
theorem MovesToken.token {op : Op Sem} {was now : Bool} {sem : Sem → Nat}
    (h : MovesToken op was now) (hop : op.Enabled sem) :
    op.apply sem .mutex + now.toNat = sem .mutex + was.toNat := by
  rcases h with ⟨rfl, rfl⟩ | ⟨rfl, rfl, rfl⟩ | ⟨rfl, rfl, rfl⟩
  · rfl
  · have hpos : 0 < sem .mutex := hop
    simp only [Op.apply, Function.update_self, Bool.toNat_true, Bool.toNat_false]
    omega
  · simp [Op.apply]

/-- **Mutual exclusion.** -/
theorem Inv.exclusive (h : Inv cfg s) :
    (producerAt s).inside = false ∨ (consumerAt s).inside = false := by
  have htoken := h.token
  cases hp : (producerAt s).inside with
  | false => exact .inl rfl
  | true =>
      refine .inr ?_
      rw [hp] at htoken
      cases hc : (consumerAt s).inside with
      | false => rfl
      | true =>
          rw [hc] at htoken
          simp only [Bool.toNat_true] at htoken
          omega

/-- **Every step keeps the invariant.** -/
theorem Inv.step (h : Inv cfg s) (hs : stepBatch cfg s a = some s') : Inv cfg s' := by
  obtain ⟨t, rand⟩ := a
  obtain ⟨op, d, next, he, hop, rfl⟩ := step_eq_some.1 hs
  have htoken : s.sem .mutex + (ProducerPc.inside (s.pc .producer)).toNat +
    (ConsumerPc.inside (s.pc .consumer)).toNat = 1 := h.token
  cases t with
  | producer =>
      obtain ⟨hcounters, hnext⟩ := producer_step h.counters h.producer he
      obtain ⟨hread, hframe⟩ := producer_frame he
      have hturn := (producer_movesToken he).token hop
      refine ⟨?_, hcounters, hnext, h.consumer.congr hread fun hin => hframe ?_⟩
      · show op.apply s.sem .mutex + next.inside.toNat
          + (ConsumerPc.inside (s.pc .consumer)).toNat = 1
        omega
      · exact h.exclusive.resolve_right (by rw [hin]; simp)
  | consumer =>
      obtain ⟨hcounters, hnext⟩ := consumer_step h.counters h.consumer he
      obtain ⟨htotal, hframe⟩ := consumer_frame he
      have hturn := (consumer_movesToken he).token hop
      refine ⟨?_, hcounters, h.producer.congr htotal fun hin => hframe ?_, hnext⟩
      · show op.apply s.sem .mutex + (ProducerPc.inside (s.pc .producer)).toNat
          + next.inside.toNat = 1
        omega
      · exact h.exclusive.resolve_left (by rw [hin]; simp)

theorem inv_start (cfg : Config) (junk : Int → Int) : Inv cfg (startState cfg junk) where
  token := rfl
  counters := by
    show CountersOk cfg (startState cfg junk).data .loopTest .loopTest
    constructor <;> simp [startState, pushes, pops, stack, wrap32]
  producer := trivial
  consumer := trivial

theorem inv_reachable (h : BatchReachable cfg s) : Inv cfg s := by
  refine Reachable.invariant (Inv cfg) ?_ ?_ h
  · rintro s ⟨junk, rfl⟩
    exact inv_start cfg junk
  · rintro s s' - hinv ⟨a, ha⟩
    exact hinv.step ha

/-! ## Outside the critical sections -/

/-- No thread is in its critical section. -/
def Outside (s : BatchState) : Prop :=
  (producerAt s).inside = false ∧ (consumerAt s).inside = false

/-- A counter lags behind inside the critical section only. -/
theorem ProducerPc.lag_outside {p : ProducerPc} (h : p.inside = false) :
    p.unsized = 0 ∧ p.pending = 0 ∧ p.uncounted = 0 := by
  revert h
  cases p <;> simp

theorem ConsumerPc.lag_outside {c : ConsumerPc} (h : c.inside = false) :
    c.unsized = 0 ∧ c.uncounted = 0 := by
  revert h
  cases c <;> simp

/-- Outside the critical sections no counter lags behind, but `num_has_gen` may have wrapped. -/
theorem Inv.outside (h : Inv cfg s) (hout : Outside s) :
    s.data.numHasGen = wrap32 (cfg.numGen - s.data.totalGenNum) ∧
      s.data.numHasRead + s.data.size = cfg.numGen - s.data.totalGenNum := by
  obtain ⟨hunsized, hpending, huncounted⟩ := ProducerPc.lag_outside hout.1
  obtain ⟨hcunsized, hcuncounted⟩ := ConsumerPc.lag_outside hout.2
  have hcount := h.counters.count
  have hsize := h.counters.size
  have htotal := h.counters.total
  have hgen := h.counters.gen
  have hread := h.counters.read
  rw [hunsized, hcunsized] at hsize
  rw [hpending] at htotal
  rw [huncounted] at hgen
  rw [hcuncounted] at hread
  constructor
  · rw [hgen]
    congr 1
    omega
  · omega

/-! ## The array holds the stack -/

/-- Every number read was the latest one generated that had not been read, and the others are
in the array. -/
def Stacked (d : Shared) : Prop := Lifo d.history ∧ Stored d.data (stack d.history)

theorem Stacked.step (hsmall : cfg.capacity < 2 ^ 31) (h : Stacked s.data) (hinv : Inv cfg s)
    (hs : stepBatch cfg s a = some s') : Stacked s'.data := by
  obtain ⟨t, rand⟩ := a
  obtain ⟨op, d, next, he, hop, rfl⟩ := step_eq_some.1 hs
  obtain ⟨hlifo, hstored⟩ := h
  have hsize := hinv.counters.size
  have hle := hinv.counters.size_le
  have hexclusive := hinv.exclusive
  cases t with
  | producer =>
      change (producerStuff cfg (producerAt s)).effect s.data rand = some (op, d, next) at he
      generalize producerAt s = p at he hsize hexclusive
      cases p with
      | store num i =>
          cases he
          -- the consumer is outside, so `size` is the height of the stack
          have hout := (ConsumerPc.lag_outside (hexclusive.resolve_left (by simp))).1
          rw [hout] at hsize
          have hidx : wrap32 s.data.size = (stack s.data.history).length := by
            rw [wrap32_eq (by omega) (by omega)]
            exact congrArg Nat.cast hsize
          rw [hidx]
          exact ⟨hlifo, hstored.push _⟩
      | exited => cases he
      | _ =>
          cases he
          exact ⟨hlifo, hstored⟩
  | consumer =>
      have hc := hinv.consumer
      change (consumerStuff cfg (consumerAt s)).effect s.data rand = some (op, d, next) at he
      generalize consumerAt s = c at he hsize hexclusive hc
      cases c with
      | load =>
          cases he
          have hpos : 0 < s.data.size := hc.2
          have hout := (ProducerPc.lag_outside (hexclusive.resolve_right (by simp))).1
          rw [hout] at hsize
          have hlen : s.data.size = (stack s.data.history).length := hsize
          have hidx : (toSizeT ((s.data.size : Int) - 1) : Int) =
              ((stack s.data.history).length : Int) - 1 := by
            rw [toSizeT_eq (by omega) (by omega)]
            omega
          rw [hidx]
          exact ⟨⟨hstored.head (hlen ▸ hpos), hlifo⟩, hstored.tail⟩
      | exited => cases he
      | _ =>
          cases he
          exact ⟨hlifo, hstored⟩

theorem stacked_reachable (hsmall : cfg.capacity < 2 ^ 31) (h : BatchReachable cfg s) :
    Stacked s.data := by
  refine Reachable.invariant (fun s => Stacked s.data) ?_ ?_ h
  · rintro s ⟨junk, rfl⟩
    exact ⟨trivial, trivial⟩
  · rintro s s' hr hstacked ⟨a, ha⟩
    exact hstacked.step hsmall (inv_reachable hr) ha

end Inv

end CPlayground.Batch
