import CPlayground.Basic.CInt
import CPlayground.Basic.Semaphores
import CPlayground.Basic.StackLog

set_option autoImplicit false

/-! # One producer, in batches

`Pthread/producer_consumer.c`: a producer and a consumer share a buffer used as a stack, under
the semaphore `mutex`. The producer draws the size of a batch, cuts it down to the free space
and leaves once it has generated `num_gen` numbers; the consumer reads one number at a time and
leaves once it has read `num_gen`. Each access to a shared variable is a step of its own.

`int` arithmetic wraps around, and so does that of `size_t`.
-/

namespace CPlayground.Batch

open Semaphores StackLog

/-! ## Data -/

/-- `num_gen`, `num_gen_per_loop` and the capacity of the buffer, which the threads only read. -/
structure Config where
  numGen : Nat
  numGenPerLoop : Nat
  capacity : Nat
  numGen_lt : numGen < 2 ^ 31
  perLoop_pos : 0 < numGenPerLoop
  perLoop_lt : numGenPerLoop < 2 ^ 31
  capacity_pos : 0 < capacity
  capacity_lt : capacity < 2 ^ 64

/-- The parameters that the program starts with. -/
def defaults : Config where
  numGen := 800
  numGenPerLoop := 5
  capacity := 100
  numGen_lt := by decide
  perLoop_pos := by decide
  perLoop_lt := by decide
  capacity_pos := by decide
  capacity_lt := by decide

inductive Sem
  | mutex
  deriving DecidableEq, Repr

/-- The buffer and the counters. `totalGenNum` is the local `total_gen_num` of the producer.
`history` is kept for the proofs: the numbers generated and read so far, latest first. -/
structure Shared where
  size : Nat
  data : Int → Int
  numHasGen : Int
  numHasRead : Int
  totalGenNum : Int
  history : List (Event Int)

/-- `MIN` of an `int` and a `size_t`, which compares and results in `size_t`. -/
def MIN (x : Int) (y : Nat) : Nat := if y < toSizeT x then y else toSizeT x

/-- `buf->capacity - buf->size`. -/
def Shared.room (cfg : Config) (d : Shared) : Nat := toSizeT ((cfg.capacity : Int) - d.size)

/-- The batch that is left of `num` when it is cut down to the room. -/
def Shared.batch (cfg : Config) (d : Shared) (num : Int) : Int := wrap32 (MIN num (d.room cfg))

/-! ## Threads -/

inductive Thread
  | producer
  | consumer
  deriving DecidableEq, Repr

/-- The points of `producer_stuff`, with `num_to_gen` and `i`. -/
inductive ProducerPc
  | loopTest
  | waitMutex
  | roomTest
  | draw
  | clip (num : Int)
  | fill (num i : Int)
  | store (num i : Int)
  | incSize (num i : Int)
  | subTotal (num : Int)
  | incGen (num : Int)
  | postMutex
  | exited
  deriving DecidableEq, Repr

/-- The points of `consumer_stuff`. -/
inductive ConsumerPc
  | loopTest
  | waitMutex
  | itemTest
  | load
  | decSize
  | incRead
  | postMutex
  | exited
  deriving DecidableEq, Repr

abbrev Pc : Thread → Type
  | .producer => ProducerPc
  | .consumer => ConsumerPc

/-! ## The program -/

/-- `producer_stuff`; the choice is what `rand` returns. -/
def producerStuff (cfg : Config) : ProducerPc → Instr Sem Shared Nat ProducerPc
  -- `while (total_gen_num > 0)`
  | .loopTest => .act fun d _ => some (d, if 0 < d.totalGenNum then .waitMutex else .exited)
  | .waitMutex => .wait .mutex .roomTest
  | .roomTest => .act fun d _ => some (d, if 0 < d.room cfg then .draw else .postMutex)
  | .draw => .act fun d rand => some (d, .clip (rand % cfg.numGenPerLoop : Nat))
  -- the batch is cut down to the room, not to `total_gen_num`
  | .clip num => .act fun d _ =>
      some (d, if d.batch cfg num = 0 then .postMutex else .fill (d.batch cfg num) 0)
  | .fill num i => .act fun d _ => some (d, if i < num then .store num i else .subTotal num)
  | .store num i => .act fun d rand =>
      let idx := wrap32 d.size
      let content : Nat := rand % 10
      some ({ d with data := Function.update d.data idx (content % 10 : Nat)
                     history := .pushed (content % 10 : Nat) :: d.history }, .incSize num i)
  | .incSize num i => .act fun d _ =>
      some ({ d with size := toSizeT (d.size + 1) }, .fill num (wrap32 (i + 1)))
  | .subTotal num => .act fun d _ =>
      some ({ d with totalGenNum := wrap32 (d.totalGenNum - num) }, .incGen num)
  | .incGen num => .act fun d _ =>
      some ({ d with numHasGen := wrap32 (d.numHasGen + num) }, .postMutex)
  | .postMutex => .post .mutex .loopTest
  | .exited => .halt

/-- `consumer_stuff`. -/
def consumerStuff (cfg : Config) : ConsumerPc → Instr Sem Shared Nat ConsumerPc
  -- `while (num_has_read != num_gen)`
  | .loopTest => .act fun d _ =>
      some (d, if d.numHasRead ≠ cfg.numGen then .waitMutex else .exited)
  | .waitMutex => .wait .mutex .itemTest
  | .itemTest => .act fun d _ => some (d, if 0 < d.size then .load else .postMutex)
  -- the number is read for the log
  | .load => .act fun d _ =>
      some ({ d with history := .popped (d.data (toSizeT ((d.size : Int) - 1))) :: d.history },
        .decSize)
  | .decSize => .act fun d _ => some ({ d with size := toSizeT ((d.size : Int) - 1) }, .incRead)
  | .incRead => .act fun d _ =>
      some ({ d with numHasRead := wrap32 (d.numHasRead + 1) }, .postMutex)
  | .postMutex => .post .mutex .loopTest
  | .exited => .halt

def code (cfg : Config) : Code Thread Sem Shared Nat Pc
  | .producer => producerStuff cfg
  | .consumer => consumerStuff cfg

abbrev BatchState := State Thread Sem Shared Pc

abbrev stepBatch (cfg : Config) : BatchState → Thread × Nat → Option BatchState := step (code cfg)

/-- The two threads at the given points. -/
def points (p : ProducerPc) (c : ConsumerPc) : (t : Thread) → Pc t
  | .producer => p
  | .consumer => c

/-- `main` has created the threads; the block `data` holds whatever `malloc` has left. -/
def startState (cfg : Config) (junk : Int → Int) : BatchState where
  data := { size := 0, data := junk, numHasGen := 0, numHasRead := 0,
            totalGenNum := cfg.numGen, history := [] }
  sem := fun _ => 1
  pc := points .loopTest .loopTest

def BatchReachable (cfg : Config) (s : BatchState) : Prop :=
  Reachable (fun s₀ => ∃ junk, s₀ = startState cfg junk) (Steps (stepBatch cfg)) s

abbrev producerAt (s : BatchState) : ProducerPc := s.pc .producer

abbrev consumerAt (s : BatchState) : ConsumerPc := s.pc .consumer

/-- Between the wait for `mutex` and its post. -/
@[simp] def ProducerPc.inside : ProducerPc → Bool
  | .loopTest | .waitMutex | .exited => false
  | _ => true

@[simp] def ConsumerPc.inside : ConsumerPc → Bool
  | .loopTest | .waitMutex | .exited => false
  | _ => true

end CPlayground.Batch
