import CPlayground.Basic.Semaphores
import CPlayground.Basic.StackLog
import Mathlib.Data.Fintype.Sum

set_option autoImplicit false

/-! # Many producers and consumers

`Pthread/multiple_producer_consumer.c`: `P` producers and `C` consumers share a buffer of
`capacity` numbers, used as a stack. The semaphore `empty` counts free places, `full` counts
numbers, `mutex` protects the buffer. A producer leaves its loop once `max_generate` numbers
have been generated and posts `full` as it goes, a consumer leaves once as many have been
consumed and posts `empty`. The main thread creates the threads, detached, polls the two
counters, and destroys the buffer; when a thread cannot be created it destroys the buffer at
once.

What a thread does with the buffer after that is undefined: the model lets no producer or
consumer go on then.
-/

namespace CPlayground.ProdCons

open Semaphores StackLog

/-! ## Data -/

def DEFAULT_GENERATE_NUMBER_RANGE : Nat := 100

/-- The three semaphores of a `buffer_t`. -/
inductive Sem
  | mutex
  | empty
  | full
  deriving DecidableEq, Repr

instance : Fintype Sem := ⟨{.mutex, .empty, .full}, fun x => by cases x <;> decide⟩

/-- The other fields of a `buffer_t`, and how far the program has come with its threads.
`data` gives the number at each offset of the block and `dataptr` is an offset.
`producers` and `consumers` count the threads created, `destroyed` tells that the block is
freed, both pointers are `NULL` and the semaphores are gone. `history` is kept for the proofs:
the numbers produced and consumed so far, latest first. -/
structure Buffer where
  numGen : Nat
  numCon : Nat
  capacity : Nat
  size : Nat
  data : Int → Int
  dataptr : Int
  producers : Nat
  consumers : Nat
  destroyed : Bool
  history : List (Event Int)

/-- How the creation of one thread ends: as it should; with `malloc` or `pthread_create`
failing; or with `pthread_detach` failing, when the thread is already there. -/
inductive Creation
  | created
  | notCreated
  | notDetached
  deriving DecidableEq, Repr

/-- What the environment decides at a step. -/
structure Choice where
  rand : Nat
  creation : Creation

/-! ## Threads -/

inductive Thread (P C : Nat)
  | main
  | producer (i : Fin P)
  | consumer (j : Fin C)
  deriving DecidableEq

/-- The threads as a sum. -/
def threadEquiv (P C : Nat) : Unit ⊕ Fin P ⊕ Fin C ≃ Thread P C where
  toFun
    | .inl _ => .main
    | .inr (.inl i) => .producer i
    | .inr (.inr j) => .consumer j
  invFun
    | .main => .inl ()
    | .producer i => .inr (.inl i)
    | .consumer j => .inr (.inr j)
  left_inv := by rintro (_ | _ | _) <;> rfl
  right_inv := by rintro (_ | _ | _) <;> rfl

instance (P C : Nat) : Fintype (Thread P C) := Fintype.ofEquiv _ (threadEquiv P C)

/-- The points of `do_produce`. A producer at `incSize number` to `incGen number` has stored
`number`; `leaving` tells that it has seen the limit. -/
inductive ProducerPc
  | start
  | waitEmpty
  | waitMutex
  | testLimit
  | testRoom
  | generate
  | store (number : Int)
  | incSize (number : Int)
  | incPtr (number : Int)
  | incGen (number : Int)
  | postMutex (leaving : Bool)
  | postFull (leaving : Bool)
  | exited
  deriving DecidableEq, Repr

/-- The points of `do_consume`. -/
inductive ConsumerPc
  | start
  | waitFull
  | waitMutex
  | testLimit
  | testItem
  | decSize
  | decPtr
  | incCon
  | load
  | postMutex (leaving : Bool)
  | postEmpty (leaving : Bool)
  | exited
  deriving DecidableEq, Repr

/-- The points of `main` from `threads_create` on. `failed` tells how it came to the end. -/
inductive MainPc
  | createProducers
  | createConsumers
  | pollWait
  | pollTest
  | pollPost
  | leavePost
  | freeThreads
  | destroy (failed : Bool)
  | done (failed : Bool)
  deriving DecidableEq, Repr

/-- The points of each kind of thread. -/
abbrev Pc {P C : Nat} : Thread P C → Type
  | .main => MainPc
  | .producer _ => ProducerPc
  | .consumer _ => ConsumerPc

/-! ## The program -/

/-- `do_produce` with `produce_item`, for the `i`-th producer. -/
def doProduce (maxGenerate i : Nat) : ProducerPc → Instr Sem Buffer Choice ProducerPc
  -- a thread begins at any time after its `pthread_create`
  | .start => .act fun buffer _ => if i < buffer.producers then some (buffer, .waitEmpty) else none
  | .waitEmpty => .wait .empty .waitMutex
  | .waitMutex => .wait .mutex .testLimit
  | .testLimit => .act fun buffer _ =>
      -- the limit check comes before the test for room
      some (buffer, if maxGenerate = buffer.numGen then .postMutex true else .testRoom)
  | .testRoom => .act fun buffer _ =>
      -- a full buffer is only logged, and `full` is posted all the same
      some (buffer, if buffer.size < buffer.capacity then .generate else .postMutex false)
  | .generate => .act fun buffer choice =>
      some (buffer, .store (choice.rand % DEFAULT_GENERATE_NUMBER_RANGE : Nat))
  -- the statements of `produce_item`
  | .store number => .act fun buffer _ =>
      some ({ buffer with data := Function.update buffer.data buffer.dataptr number },
        .incSize number)
  | .incSize number => .act fun buffer _ =>
      some ({ buffer with size := buffer.size + 1 }, .incPtr number)
  | .incPtr number => .act fun buffer _ =>
      some ({ buffer with dataptr := buffer.dataptr + 1 }, .incGen number)
  | .incGen number => .act fun buffer _ =>
      some ({ buffer with numGen := buffer.numGen + 1
                          history := .pushed number :: buffer.history }, .postMutex false)
  | .postMutex leaving => .post .mutex (.postFull leaving)
  -- one who leaves posts `full` too, for no number
  | .postFull leaving => .post .full (if leaving then .exited else .waitEmpty)
  | .exited => .halt

/-- `do_consume` with `consume_item`, for the `j`-th consumer. -/
def doConsume (maxGenerate j : Nat) : ConsumerPc → Instr Sem Buffer Choice ConsumerPc
  | .start => .act fun buffer _ => if j < buffer.consumers then some (buffer, .waitFull) else none
  | .waitFull => .wait .full .waitMutex
  | .waitMutex => .wait .mutex .testLimit
  | .testLimit => .act fun buffer _ =>
      some (buffer, if buffer.numCon = maxGenerate then .postMutex true else .testItem)
  | .testItem => .act fun buffer _ =>
      -- an empty buffer is only logged, and `empty` is posted all the same
      some (buffer, if 0 < buffer.size then .decSize else .postMutex false)
  -- the statements of `consume_item`: the number is counted before it is read
  | .decSize => .act fun buffer _ => some ({ buffer with size := buffer.size - 1 }, .decPtr)
  | .decPtr => .act fun buffer _ =>
      some ({ buffer with dataptr := buffer.dataptr - 1 }, .incCon)
  | .incCon => .act fun buffer _ => some ({ buffer with numCon := buffer.numCon + 1 }, .load)
  | .load => .act fun buffer _ =>
      some ({ buffer with history := .popped (buffer.data buffer.dataptr) :: buffer.history },
        .postMutex false)
  | .postMutex leaving => .post .mutex (.postEmpty leaving)
  -- one who leaves posts `empty` too, and has freed no place
  | .postEmpty leaving => .post .empty (if leaving then .exited else .waitFull)
  | .exited => .halt

/-- `main`, with the loops of `threads_create`. -/
def mainThread (P C maxGenerate : Nat) : MainPc → Instr Sem Buffer Choice MainPc
  -- the loop of `threads_create`; each failure leads to the label `fail`
  | .createProducers => .act fun buffer choice =>
      if buffer.producers < P then
        match choice.creation with
        | .created => some ({ buffer with producers := buffer.producers + 1 }, .createProducers)
        | .notCreated => some (buffer, .destroy true)
        | .notDetached => some ({ buffer with producers := buffer.producers + 1 }, .destroy true)
      else some (buffer, .createConsumers)
  | .createConsumers => .act fun buffer choice =>
      if buffer.consumers < C then
        match choice.creation with
        | .created => some ({ buffer with consumers := buffer.consumers + 1 }, .createConsumers)
        | .notCreated => some (buffer, .destroy true)
        | .notDetached => some ({ buffer with consumers := buffer.consumers + 1 }, .destroy true)
      else some (buffer, .pollWait)
  -- the poll; only this and its test are under the mutex
  | .pollWait => .wait .mutex .pollTest
  | .pollTest => .act fun buffer _ =>
      some (buffer, if buffer.numCon = maxGenerate ∧ buffer.numGen = maxGenerate then .leavePost
        else .pollPost)
  | .pollPost => .post .mutex .pollWait
  | .leavePost => .post .mutex .freeThreads
  -- `free(producers)` and `free(consumers)`: the threads are detached
  | .freeThreads => .act fun buffer _ => some (buffer, .destroy false)
  -- `buffer_destroy`, whoever is still using the buffer
  | .destroy failed => .act fun buffer _ =>
      some ({ buffer with dataptr := 0, destroyed := true }, .done failed)
  | .done _ => .halt

def code (P C maxGenerate : Nat) : Code (Thread P C) Sem Buffer Choice Pc
  | .main => mainThread P C maxGenerate
  | .producer i => doProduce maxGenerate i
  | .consumer j => doConsume maxGenerate j

abbrev ProgState (P C : Nat) := State (Thread P C) Sem Buffer Pc

/-- One step. Nobody but `main` goes on once the buffer is destroyed. -/
def stepProg {P C : Nat} (maxGenerate : Nat) (s : ProgState P C) (a : Thread P C × Choice) :
    Option (ProgState P C) :=
  if s.data.destroyed = true ∧ a.1 ≠ .main then none else step (code P C maxGenerate) s a

/-- `buffer_create`: `data` starts with whatever `malloc` has left in the block. -/
def bufferCreate (capacity : Nat) (junk : Int → Int) : Buffer where
  numGen := 0
  numCon := 0
  capacity := capacity
  size := 0
  data := junk
  dataptr := 0
  producers := 0
  consumers := 0
  destroyed := false
  history := []

/-- The semaphores `buffer_create` leaves. -/
def initialSem (capacity : Nat) : Sem → Nat
  | .mutex => 1
  | .empty => capacity
  | .full => 0

def startPc {P C : Nat} : (t : Thread P C) → Pc t
  | .main => .createProducers
  | .producer _ => .start
  | .consumer _ => .start

/-- `main` has created the buffer and no thread yet. -/
def startState (P C capacity : Nat) (junk : Int → Int) : ProgState P C where
  data := bufferCreate capacity junk
  sem := initialSem capacity
  pc := startPc

/-- Reachable from any content of the fresh block, by any interleaving. -/
def ProgReachable (P C capacity maxGenerate : Nat) (s : ProgState P C) : Prop :=
  Reachable (fun s₀ => ∃ junk, s₀ = startState P C capacity junk) (Steps (stepProg maxGenerate)) s

/-- A run that is carried out as scheduled, in a block of zeros. -/
theorem progReachable_of_run {P C capacity maxGenerate : Nat} (as : List (Thread P C × Choice))
    (p : ProgState P C → Bool)
    (h : (execute (stepProg maxGenerate) (startState P C capacity fun _ => 0) as).any p = true) :
    ∃ s, ProgReachable P C capacity maxGenerate s ∧ p s = true :=
  reachable_run _ ⟨fun _ => 0, rfl⟩ as p h

/-- `k` steps of one thread, with no failure and `rand` returning `r`. -/
def times {P C : Nat} (t : Thread P C) (k : Nat) (r : Nat) : List (Thread P C × Choice) :=
  List.replicate k (t, ⟨r, .created⟩)

/-! ## Where a thread is -/

/-- The producer is in its critical section. -/
def ProducerPc.holds : ProducerPc → Bool
  | .testLimit | .testRoom | .generate | .store _ | .incSize _ | .incPtr _ | .incGen _
  | .postMutex _ => true
  | _ => false

def ConsumerPc.holds : ConsumerPc → Bool
  | .testLimit | .testItem | .decSize | .decPtr | .incCon | .load | .postMutex _ => true
  | _ => false

def MainPc.holds : MainPc → Bool
  | .pollTest | .pollPost | .leavePost => true
  | _ => false

/-- The thread is between its wait for `mutex` and its post. -/
def holds {P C : Nat} : (t : Thread P C) → Pc t → Bool
  | .main => MainPc.holds
  | .producer _ => ProducerPc.holds
  | .consumer _ => ConsumerPc.holds

/-- The thread has left its loop through the exit branch. -/
def exited {P C : Nat} : (t : Thread P C) → Pc t → Bool
  | .main, _ => false
  | .producer _, pc => decide (pc = .exited)
  | .consumer _, pc => decide (pc = .exited)

/-- The thread is in its loop: it has begun and has not left. -/
def inLoop {P C : Nat} : (t : Thread P C) → Pc t → Bool
  | .main, _ => false
  | .producer _, pc => decide (pc ≠ .start ∧ pc ≠ .exited)
  | .consumer _, pc => decide (pc ≠ .start ∧ pc ≠ .exited)

end CPlayground.ProdCons
