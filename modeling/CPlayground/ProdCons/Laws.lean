import CPlayground.ProdCons.Model

set_option autoImplicit false

/-! # What the program conserves

First the inversion of the three programs: one case for each thing a step can do. Then six
weighted sums over semaphores, buffer and program points. `mutexLaw` is mutual exclusion and
`tokenLaw` the tokens of `empty` and `full`, in a semaphore or in a thread's hand; every step
keeps these. The others tie the semaphore `full` and the fields of the buffer to the stack
that the history leaves, with a correction for each point of a critical section; a step keeps
them unless it finds the buffer full or empty.
-/

namespace CPlayground.ProdCons

open Semaphores StackLog

/-! ## What a step can do -/

/-- A step of the `i`-th producer on the buffer `b`, with what it does to the semaphores. -/
inductive ProducerEdge (maxGenerate i : Nat) (b : Buffer) :
    ProducerPc → Op Sem → Buffer → ProducerPc → Prop
  | begin (h : i < b.producers) : ProducerEdge maxGenerate i b .start .keep b .waitEmpty
  | takeEmpty : ProducerEdge maxGenerate i b .waitEmpty (.take .empty) b .waitMutex
  | lock : ProducerEdge maxGenerate i b .waitMutex (.take .mutex) b .testLimit
  | atLimit (h : maxGenerate = b.numGen) :
      ProducerEdge maxGenerate i b .testLimit .keep b (.postMutex true)
  | below (h : maxGenerate ≠ b.numGen) : ProducerEdge maxGenerate i b .testLimit .keep b .testRoom
  | room (h : b.size < b.capacity) : ProducerEdge maxGenerate i b .testRoom .keep b .generate
  | isFull (h : ¬ b.size < b.capacity) :
      ProducerEdge maxGenerate i b .testRoom .keep b (.postMutex false)
  | generate (number : Int) : ProducerEdge maxGenerate i b .generate .keep b (.store number)
  | store (number : Int) : ProducerEdge maxGenerate i b (.store number) .keep
      { b with data := Function.update b.data b.dataptr number } (.incSize number)
  | incSize (number : Int) : ProducerEdge maxGenerate i b (.incSize number) .keep
      { b with size := b.size + 1 } (.incPtr number)
  | incPtr (number : Int) : ProducerEdge maxGenerate i b (.incPtr number) .keep
      { b with dataptr := b.dataptr + 1 } (.incGen number)
  | incGen (number : Int) : ProducerEdge maxGenerate i b (.incGen number) .keep
      { b with numGen := b.numGen + 1, history := .pushed number :: b.history }
      (.postMutex false)
  | unlock (leaving : Bool) : ProducerEdge maxGenerate i b (.postMutex leaving)
      (.give .mutex) b (.postFull leaving)
  | again : ProducerEdge maxGenerate i b (.postFull false) (.give .full) b .waitEmpty
  | leave : ProducerEdge maxGenerate i b (.postFull true) (.give .full) b .exited

inductive ConsumerEdge (maxGenerate j : Nat) (b : Buffer) :
    ConsumerPc → Op Sem → Buffer → ConsumerPc → Prop
  | begin (h : j < b.consumers) : ConsumerEdge maxGenerate j b .start .keep b .waitFull
  | takeFull : ConsumerEdge maxGenerate j b .waitFull (.take .full) b .waitMutex
  | lock : ConsumerEdge maxGenerate j b .waitMutex (.take .mutex) b .testLimit
  | atLimit (h : b.numCon = maxGenerate) :
      ConsumerEdge maxGenerate j b .testLimit .keep b (.postMutex true)
  | below (h : b.numCon ≠ maxGenerate) : ConsumerEdge maxGenerate j b .testLimit .keep b .testItem
  | item (h : 0 < b.size) : ConsumerEdge maxGenerate j b .testItem .keep b .decSize
  | isEmpty (h : ¬ 0 < b.size) :
      ConsumerEdge maxGenerate j b .testItem .keep b (.postMutex false)
  | decSize : ConsumerEdge maxGenerate j b .decSize .keep { b with size := b.size - 1 } .decPtr
  | decPtr : ConsumerEdge maxGenerate j b .decPtr .keep { b with dataptr := b.dataptr - 1 } .incCon
  | incCon : ConsumerEdge maxGenerate j b .incCon .keep { b with numCon := b.numCon + 1 } .load
  | load : ConsumerEdge maxGenerate j b .load .keep
      { b with history := .popped (b.data b.dataptr) :: b.history } (.postMutex false)
  | unlock (leaving : Bool) : ConsumerEdge maxGenerate j b (.postMutex leaving)
      (.give .mutex) b (.postEmpty leaving)
  | again : ConsumerEdge maxGenerate j b (.postEmpty false) (.give .empty) b .waitFull
  | leave : ConsumerEdge maxGenerate j b (.postEmpty true) (.give .empty) b .exited

/-- A step of `main`: `threads_create` fails or goes on, the poll goes round, or `main` comes
to its end. -/
inductive MainEdge (P C maxGenerate : Nat) (b : Buffer) :
    MainPc → Op Sem → Buffer → MainPc → Prop
  | newProducer (h : b.producers < P) : MainEdge P C maxGenerate b .createProducers .keep
      { b with producers := b.producers + 1 } .createProducers
  | noProducer (h : b.producers < P) :
      MainEdge P C maxGenerate b .createProducers .keep b (.destroy true)
  | looseProducer (h : b.producers < P) : MainEdge P C maxGenerate b .createProducers .keep
      { b with producers := b.producers + 1 } (.destroy true)
  | allProducers (h : ¬ b.producers < P) :
      MainEdge P C maxGenerate b .createProducers .keep b .createConsumers
  | newConsumer (h : b.consumers < C) : MainEdge P C maxGenerate b .createConsumers .keep
      { b with consumers := b.consumers + 1 } .createConsumers
  | noConsumer (h : b.consumers < C) :
      MainEdge P C maxGenerate b .createConsumers .keep b (.destroy true)
  | looseConsumer (h : b.consumers < C) : MainEdge P C maxGenerate b .createConsumers .keep
      { b with consumers := b.consumers + 1 } (.destroy true)
  | allConsumers (h : ¬ b.consumers < C) :
      MainEdge P C maxGenerate b .createConsumers .keep b .pollWait
  | lock : MainEdge P C maxGenerate b .pollWait (.take .mutex) b .pollTest
  | finished (h : b.numCon = maxGenerate ∧ b.numGen = maxGenerate) :
      MainEdge P C maxGenerate b .pollTest .keep b .leavePost
  | unfinished (h : ¬ (b.numCon = maxGenerate ∧ b.numGen = maxGenerate)) :
      MainEdge P C maxGenerate b .pollTest .keep b .pollPost
  | unlock : MainEdge P C maxGenerate b .pollPost (.give .mutex) b .pollWait
  | leave : MainEdge P C maxGenerate b .leavePost (.give .mutex) b .freeThreads
  | freeThreads : MainEdge P C maxGenerate b .freeThreads .keep b (.destroy false)
  | destroy (failed : Bool) : MainEdge P C maxGenerate b (.destroy failed) .keep
      { b with dataptr := 0, destroyed := true } (.done failed)

/-- A step of any thread. -/
def Edge {P C : Nat} (maxGenerate : Nat) (b : Buffer) :
    (t : Thread P C) → Pc t → Op Sem → Buffer → Pc t → Prop
  | .main => MainEdge P C maxGenerate b
  | .producer i => ProducerEdge maxGenerate i b
  | .consumer j => ConsumerEdge maxGenerate j b

section Inversion

variable {P C maxGenerate : Nat} {b b' : Buffer} {op : Op Sem} {choice : Choice}

theorem producerEdge_of_effect {i : Nat} {p p' : ProducerPc}
    (h : (doProduce maxGenerate i p).effect b choice = some (op, b', p')) :
    ProducerEdge maxGenerate i b p op b' p' := by
  cases p <;> simp only [doProduce, Instr.effect, Option.map_some, Option.some.injEq,
    Prod.mk.injEq, reduceCtorEq] at h
  case start =>
    split_ifs at h with hi
    · obtain ⟨rfl, rfl, rfl⟩ := by simpa using h
      exact .begin hi
    · simp at h
  case testLimit =>
    obtain ⟨rfl, rfl, rfl⟩ := h
    split_ifs with hm
    · exact .atLimit hm
    · exact .below hm
  case testRoom =>
    obtain ⟨rfl, rfl, rfl⟩ := h
    split_ifs with hr
    · exact .room hr
    · exact .isFull hr
  case postFull leaving =>
    obtain ⟨rfl, rfl, rfl⟩ := h
    cases leaving with
    | false => exact .again
    | true => exact .leave
  all_goals
    obtain ⟨rfl, rfl, rfl⟩ := h
    constructor

theorem consumerEdge_of_effect {j : Nat} {p p' : ConsumerPc}
    (h : (doConsume maxGenerate j p).effect b choice = some (op, b', p')) :
    ConsumerEdge maxGenerate j b p op b' p' := by
  cases p <;> simp only [doConsume, Instr.effect, Option.map_some, Option.some.injEq,
    Prod.mk.injEq, reduceCtorEq] at h
  case start =>
    split_ifs at h with hj
    · obtain ⟨rfl, rfl, rfl⟩ := by simpa using h
      exact .begin hj
    · simp at h
  case testLimit =>
    obtain ⟨rfl, rfl, rfl⟩ := h
    split_ifs with hm
    · exact .atLimit hm
    · exact .below hm
  case testItem =>
    obtain ⟨rfl, rfl, rfl⟩ := h
    split_ifs with hs
    · exact .item hs
    · exact .isEmpty hs
  case postEmpty leaving =>
    obtain ⟨rfl, rfl, rfl⟩ := h
    cases leaving with
    | false => exact .again
    | true => exact .leave
  all_goals
    obtain ⟨rfl, rfl, rfl⟩ := h
    constructor

theorem mainEdge_of_effect {p p' : MainPc}
    (h : (mainThread P C maxGenerate p).effect b choice = some (op, b', p')) :
    MainEdge P C maxGenerate b p op b' p' := by
  cases p <;> simp only [mainThread, Instr.effect, Option.map_some, Option.some.injEq,
    Prod.mk.injEq, reduceCtorEq] at h
  case createProducers =>
    split_ifs at h with hlt
    · cases hc : choice.creation <;> rw [hc] at h <;> obtain ⟨rfl, rfl, rfl⟩ := by simpa using h
      · exact .newProducer hlt
      · exact .noProducer hlt
      · exact .looseProducer hlt
    · obtain ⟨rfl, rfl, rfl⟩ := by simpa using h
      exact .allProducers hlt
  case createConsumers =>
    split_ifs at h with hlt
    · cases hc : choice.creation <;> rw [hc] at h <;> obtain ⟨rfl, rfl, rfl⟩ := by simpa using h
      · exact .newConsumer hlt
      · exact .noConsumer hlt
      · exact .looseConsumer hlt
    · obtain ⟨rfl, rfl, rfl⟩ := by simpa using h
      exact .allConsumers hlt
  case pollTest =>
    obtain ⟨rfl, rfl, rfl⟩ := h
    split_ifs with hm
    · exact .finished hm
    · exact .unfinished hm
  all_goals
    obtain ⟨rfl, rfl, rfl⟩ := h
    constructor

/-- **Inversion of a step of the program.** -/
theorem stepProg_cases {s s' : ProgState P C} {t : Thread P C}
    (h : stepProg maxGenerate s (t, choice) = some s') :
    (s.data.destroyed = true → t = .main) ∧ ∃ op b' p',
      Edge maxGenerate s.data t (s.pc t) op b' p' ∧ op.Enabled s.sem ∧
      s' = { data := b', sem := op.apply s.sem, pc := Function.update s.pc t p' } := by
  unfold stepProg at h
  split_ifs at h with hd
  obtain ⟨op, b', p', he, hop, hs'⟩ := step_eq_some.1 h
  refine ⟨fun hdestroyed => ?_, op, b', p', ?_, hop, hs'⟩
  · by_contra hne
    exact hd ⟨hdestroyed, hne⟩
  · cases t with
    | main => exact mainEdge_of_effect he
    | producer i => exact producerEdge_of_effect he
    | consumer j => exact consumerEdge_of_effect he

end Inversion

/-! ## The laws -/

/-- The numbers in the buffer, by the history: the last produced first. -/
def Buffer.items (buffer : Buffer) : List Int := stack buffer.history

/-- A producer that holds a token of `empty`, or one of `full` it is going to post. -/
def ProducerPc.token : ProducerPc → Int
  | .start | .waitEmpty | .exited => 0
  | _ => 1

def ConsumerPc.token : ConsumerPc → Int
  | .start | .waitFull | .exited => 0
  | _ => 1

/-- What a producer adds to `full` beyond the numbers in the buffer: the post of a number it
has produced is still to come, the post of one that has left came without a number. -/
def ProducerPc.surplus : ProducerPc → Int
  | .postMutex false | .postFull false => 1
  | .exited => -1
  | _ => 0

/-- A consumer that has taken a token of `full` and no number yet, or never will. -/
def ConsumerPc.surplus : ConsumerPc → Int
  | .waitMutex | .testLimit | .testItem | .decSize | .decPtr | .incCon | .load => 1
  | .postMutex true | .postEmpty true | .exited => 1
  | _ => 0

theorem ProducerPc.surplus_le_token (p : ProducerPc) : p.surplus ≤ p.token := by
  cases p with
  | postMutex leaving => cases leaving <;> simp [surplus, token]
  | postFull leaving => cases leaving <;> simp [surplus, token]
  | _ => simp [surplus, token]

/-- Only a consumer that has left owes a token: it has posted `empty` for no number. -/
theorem ConsumerPc.surplus_le_token {p : ConsumerPc} (hp : p ≠ .exited) :
    p.surplus ≤ p.token := by
  cases p with
  | postMutex leaving => cases leaving <;> simp [surplus, token]
  | postEmpty leaving => cases leaving <;> simp [surplus, token]
  | exited => exact absurd rfl hp
  | _ => simp [surplus, token]

theorem ProducerPc.surplus_nonneg {p : ProducerPc} (hp : p ≠ .exited) : 0 ≤ p.surplus := by
  cases p with
  | postMutex leaving => cases leaving <;> simp [surplus]
  | postFull leaving => cases leaving <;> simp [surplus]
  | exited => exact absurd rfl hp
  | _ => simp [surplus]

theorem ConsumerPc.surplus_nonneg (p : ConsumerPc) : 0 ≤ p.surplus := by
  cases p with
  | postMutex leaving => cases leaving <;> simp [surplus]
  | postEmpty leaving => cases leaving <;> simp [surplus]
  | _ => simp [surplus]

/-- How far `size` is ahead of the history, negated. -/
def ProducerPc.sizeLag : ProducerPc → Int
  | .incPtr _ | .incGen _ => -1
  | _ => 0

def ConsumerPc.sizeLag : ConsumerPc → Int
  | .decPtr | .incCon | .load => 1
  | _ => 0

def ProducerPc.ptrLag : ProducerPc → Int
  | .incGen _ => -1
  | _ => 0

def ConsumerPc.ptrLag : ConsumerPc → Int
  | .incCon | .load => 1
  | _ => 0

def ConsumerPc.conLag : ConsumerPc → Int
  | .load => -1
  | _ => 0

/-- A weight for producers and one for consumers; `main` has none. -/
def pcWeight {P C : Nat} (wp : ProducerPc → Int) (wc : ConsumerPc → Int) :
    (t : Thread P C) → Pc t → Int
  | .main => fun _ => 0
  | .producer _ => wp
  | .consumer _ => wc

abbrev Law (P C : Nat) := Weights (Thread P C) Sem Buffer Pc

section Laws

variable {P C : Nat}

def mutexLaw : Law P C where
  sem
    | .mutex => 1
    | _ => 0
  data _ := 0
  pc t p := if holds t p = true then 1 else 0

def tokenLaw : Law P C where
  sem
    | .mutex => 0
    | _ => 1
  data _ := 0
  pc := pcWeight ProducerPc.token ConsumerPc.token

def itemLaw : Law P C where
  sem
    | .full => 1
    | _ => 0
  data buffer := -(buffer.items.length : Int)
  pc := pcWeight ProducerPc.surplus ConsumerPc.surplus

def sizeLaw : Law P C where
  sem _ := 0
  data buffer := buffer.size - buffer.items.length
  pc := pcWeight ProducerPc.sizeLag ConsumerPc.sizeLag

def ptrLaw : Law P C where
  sem _ := 0
  data buffer := buffer.dataptr - buffer.items.length
  pc := pcWeight ProducerPc.ptrLag ConsumerPc.ptrLag

def conLaw : Law P C where
  sem _ := 0
  data buffer := buffer.numCon - (pops buffer.history).card
  pc := pcWeight (fun _ => 0) ConsumerPc.conLag

@[simp] theorem sizeLaw_data (b : Buffer) :
    (sizeLaw (P := P) (C := C)).data b = (b.size : Int) - b.items.length := rfl
@[simp] theorem ptrLaw_data (b : Buffer) :
    (ptrLaw (P := P) (C := C)).data b = b.dataptr - b.items.length := rfl
@[simp] theorem conLaw_data (b : Buffer) :
    (conLaw (P := P) (C := C)).data b = (b.numCon : Int) - (pops b.history).card := rfl

/-! ## The steps are balanced -/

variable {maxGenerate : Nat} {b b' : Buffer} {op : Op Sem} {t : Thread P C} {p p' : Pc t}

theorem mutexLaw_balanced (h : Edge maxGenerate b t p op b' p') :
    mutexLaw.Balanced b p op b' p' := by
  unfold Weights.Balanced
  cases t <;> cases h <;> rfl

theorem tokenLaw_balanced (h : Edge maxGenerate b t p op b' p') :
    tokenLaw.Balanced b p op b' p' := by
  unfold Weights.Balanced
  cases t <;> cases h <;> rfl

/-- The step finds room for its number, or a number to take. -/
def Regular (b : Buffer) : (t : Thread P C) → Pc t → Prop
  | .main, _ => True
  | .producer _, p => p = .testRoom → b.size < b.capacity
  | .consumer _, p =>
      ((p = .testItem ∨ p = .decSize) → 0 < b.size) ∧ (p = .load → 0 < b.items.length)

theorem items_pop (b : Buffer) (number : Int) :
    Buffer.items { b with history := .popped number :: b.history } = b.items.tail := rfl

@[simp] theorem gain_keep (w : Law P C) : w.gain .keep = 0 := rfl
@[simp] theorem gain_take (w : Law P C) (x : Sem) : w.gain (.take x) = -w.sem x := rfl
@[simp] theorem gain_give (w : Law P C) (x : Sem) : w.gain (.give x) = w.sem x := rfl
@[simp] theorem pcWeight_main (wp : ProducerPc → Int) (wc : ConsumerPc → Int) (p : MainPc) :
    pcWeight (P := P) (C := C) wp wc .main p = 0 := rfl
@[simp] theorem pcWeight_producer (wp : ProducerPc → Int) (wc : ConsumerPc → Int) (i : Fin P)
    (p : ProducerPc) : pcWeight (P := P) (C := C) wp wc (.producer i) p = wp p := rfl
@[simp] theorem pcWeight_consumer (wp : ProducerPc → Int) (wc : ConsumerPc → Int) (j : Fin C)
    (p : ConsumerPc) : pcWeight (P := P) (C := C) wp wc (.consumer j) p = wc p := rfl

/-- A regular step changes the number of items as the points of its thread say. -/
theorem itemLaw_balanced (h : Edge maxGenerate b t p op b' p') (hr : Regular b t p) :
    itemLaw.Balanced b p op b' p' := by
  unfold Weights.Balanced
  cases t with
  | main => cases h <;> simp [itemLaw, Buffer.items]
  | producer i =>
      cases h with
      | isFull hfull => exact absurd (hr rfl) hfull
      | unlock leaving => cases leaving <;> simp [itemLaw, ProducerPc.surplus]
      | again =>
          simp only [itemLaw, pcWeight_producer, ProducerPc.surplus, gain_give]
          omega
      | _ => simp [itemLaw, ProducerPc.surplus, Buffer.items, stack]
  | consumer j =>
      cases h with
      | isEmpty hempty => exact absurd (hr.1 (Or.inl rfl)) hempty
      | unlock leaving => cases leaving <;> simp [itemLaw, ConsumerPc.surplus]
      | load =>
          have hpos := hr.2 rfl
          simp only [itemLaw, pcWeight_consumer, ConsumerPc.surplus, items_pop, gain_keep,
            List.length_tail]
          omega
      | _ => simp [itemLaw, ConsumerPc.surplus, Buffer.items]

theorem sizeLaw_balanced (h : Edge maxGenerate b t p op b' p') (hr : Regular b t p) :
    sizeLaw.Balanced b p op b' p' := by
  unfold Weights.Balanced
  cases t with
  | main => cases h <;> simp [sizeLaw, Buffer.items]
  | producer i => cases h <;> simp [sizeLaw, ProducerPc.sizeLag, Buffer.items, stack] <;> omega
  | consumer j =>
      cases h with
      | decSize =>
          have hpos := hr.1 (Or.inr rfl)
          simp only [sizeLaw, pcWeight_consumer, ConsumerPc.sizeLag, Buffer.items, gain_keep]
          omega
      | load =>
          have hpos := hr.2 rfl
          simp only [sizeLaw, pcWeight_consumer, ConsumerPc.sizeLag, items_pop, gain_keep,
            List.length_tail]
          omega
      | _ => simp [sizeLaw, ConsumerPc.sizeLag, Buffer.items]

theorem ptrLaw_balanced (h : Edge maxGenerate b t p op b' p') (hr : Regular b t p)
    (hbuffer : b'.destroyed = false) : ptrLaw.Balanced b p op b' p' := by
  unfold Weights.Balanced
  cases t with
  | main =>
      cases h with
      | destroy failed => cases hbuffer
      | _ => simp [ptrLaw, Buffer.items]
  | producer i => cases h <;> simp [ptrLaw, ProducerPc.ptrLag, Buffer.items, stack] <;> omega
  | consumer j =>
      cases h with
      | load =>
          have hpos := hr.2 rfl
          simp only [ptrLaw, pcWeight_consumer, ConsumerPc.ptrLag, items_pop, gain_keep,
            List.length_tail]
          omega
      | decPtr =>
          simp only [ptrLaw, pcWeight_consumer, ConsumerPc.ptrLag, Buffer.items, gain_keep]
          omega
      | _ => simp [ptrLaw, ConsumerPc.ptrLag, Buffer.items]

theorem conLaw_balanced (h : Edge maxGenerate b t p op b' p') : conLaw.Balanced b p op b' p' := by
  unfold Weights.Balanced
  cases t with
  | main => cases h <;> simp [conLaw]
  | producer i => cases h <;> simp [conLaw, pops]
  | consumer j => cases h <;> simp [conLaw, ConsumerPc.conLag, pops] <;> omega

end Laws

end CPlayground.ProdCons
