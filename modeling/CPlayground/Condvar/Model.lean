import CPlayground.Basic.CInt
import CPlayground.Basic.LockOrder

set_option autoImplicit false

/-! # Two threads that count to ten

`Miscs/condition_variables.c`: `func1` and `func2` increment `count` under `count_mutex`, and
`func1` halts on `condition_cond` while `count` is between 3 and 6. The tests of `count` are made
outside `count_mutex`, so each access to it is a step of its own, and so are the load and the
store of `count++`. `func2` signals when it finds `count` outside the range.

`main` creates the two threads and joins them; the process ends when it returns.
-/

namespace CPlayground.Condvar

open Threads

def COUNT_DONE : Int := 10

def COUNT_HALT1 : Int := 3

def COUNT_HALT2 : Int := 6

/-! ## Data -/

inductive Func
  | func1
  | func2
  deriving DecidableEq, Repr

instance : Fintype Func := ⟨{.func1, .func2}, fun f => by cases f <;> decide⟩

inductive Thread
  | main
  | func (f : Func)
  deriving DecidableEq, Repr

instance : Fintype Thread :=
  ⟨{.main, .func .func1, .func .func2}, fun t => by rcases t with _ | (_ | _) <;> decide⟩

inductive Mutex
  | count
  | condition
  deriving DecidableEq, Repr

inductive Cond
  | condition
  deriving DecidableEq, Repr

/-- `count`, the lines that have been printed, and which threads have been created and have
returned. -/
structure Shared where
  count : Int
  output : List (Func × Int)
  created : Func → Bool
  ended : Func → Bool

/-! ## Threads -/

inductive MainPc
  | create (f : Func)
  | join (f : Func)
  | returned
  deriving DecidableEq, Repr

/-- The points of a counting thread; `store` has the value that `count++` has loaded. -/
inductive FuncPc
  | start
  | lockCond
  | testLow
  | testHigh
  | atCond
  | unlockCond
  | lockCount
  | load
  | store (temp : Int)
  | print
  | unlockCount
  | testDone
  | returned
  deriving DecidableEq, Repr

abbrev Pc : Thread → Type
  | .main => MainPc
  | .func _ => FuncPc

/-! ## The program -/

/-- `main`; the choice is whether `pthread_create` succeeds. -/
def mainCode : MainPc → Instr Mutex Cond Shared Bool MainPc
  | .create f => .act fun d ok =>
      if ok then
        some ({ d with created := Function.update d.created f true },
          match f with
          | .func1 => .create .func2
          | .func2 => .join .func1)
      else some (d, .returned)
  | .join f => .act fun d _ =>
      if d.ended f then
        some (d, match f with
          | .func1 => .join .func2
          | .func2 => .returned)
      else none
  | .returned => .halt

/-- The loop that `func1` and `func2` share: where the tests of `count` lead, and what is done
at the condition variable. -/
def countLoop (self : Func) (low high : Int → FuncPc)
    (atCond : Instr Mutex Cond Shared Bool FuncPc) :
    FuncPc → Instr Mutex Cond Shared Bool FuncPc
  -- nothing happens before the thread has been created
  | .start => .act fun d _ => if d.created self then some (d, .lockCond) else none
  | .lockCond => .lock .condition .testLow
  | .testLow => .act fun d _ => some (d, low d.count)
  | .testHigh => .act fun d _ => some (d, high d.count)
  | .atCond => atCond
  | .unlockCond => .unlock .condition .lockCount
  | .lockCount => .lock .count .load
  | .load => .act fun d _ => some (d, .store d.count)
  | .store temp => .act fun d _ => some ({ d with count := wrap32 (temp + 1) }, .print)
  | .print => .act fun d _ =>
      some ({ d with output := d.output ++ [(self, d.count)] }, .unlockCount)
  | .unlockCount => .unlock .count .testDone
  | .testDone => .act fun d _ =>
      if COUNT_DONE ≤ d.count then
        some ({ d with ended := Function.update d.ended self true }, .returned)
      else some (d, .lockCond)
  | .returned => .halt

/-- `func1`: `while (count >= COUNT_HALT1 && count <= COUNT_HALT2) pthread_cond_wait(…)`. -/
def func1 : FuncPc → Instr Mutex Cond Shared Bool FuncPc :=
  countLoop .func1
    (fun count => if COUNT_HALT1 ≤ count then .testHigh else .unlockCond)
    (fun count => if count ≤ COUNT_HALT2 then .atCond else .unlockCond)
    (.wait .condition .condition .testLow)

/-- `func2`: `if (count < COUNT_HALT1 || count > COUNT_HALT2) pthread_cond_signal(…)`. -/
def func2 : FuncPc → Instr Mutex Cond Shared Bool FuncPc :=
  countLoop .func2
    (fun count => if count < COUNT_HALT1 then .atCond else .testHigh)
    (fun count => if COUNT_HALT2 < count then .atCond else .unlockCond)
    (.signal .condition .unlockCond)

def code : Code Thread Mutex Cond Shared Bool Pc
  | .main => mainCode
  | .func .func1 => func1
  | .func .func2 => func2

abbrev CountState := State Thread Mutex Cond Shared Pc

abbrev mainAt (s : CountState) : MainPc := s.pc .main

abbrev funcAt (s : CountState) (f : Func) : FuncPc := s.pc (.func f)

/-- A step of the process, which ends when `main` returns. -/
def stepProcess (s : CountState) (a : Action Thread Bool) : Option CountState :=
  if mainAt s = .returned then none else step code s a

def startState : CountState where
  data := { count := 0, output := [], created := fun _ => false, ended := fun _ => false }
  owner := fun _ => none
  pc := fun
    | .main => .create .func1
    | .func _ => .start
  sleep := fun _ => .awake

def CountReachable (s : CountState) : Prop := Reachable (· = startState) (Steps stepProcess) s

/-- `n` steps of one thread, in which every call succeeds. -/
def turns (t : Thread) (n : Nat) : List (Action Thread Bool) :=
  List.replicate n (.run t true fun _ => true)

/-- A run that is carried out as scheduled. -/
theorem countReachable_of_run (as : List (Action Thread Bool)) (p : CountState → Bool)
    (h : (execute stepProcess startState as).any p = true) :
    ∃ s, CountReachable s ∧ p s = true :=
  reachable_run (· = startState) rfl as p h

/-! ## Mutual exclusion -/

def MainPc.holds : MainPc → Mutex → Bool := fun _ _ => false

@[simp] def FuncPc.holds : FuncPc → Mutex → Bool
  | .testLow, .condition | .testHigh, .condition | .atCond, .condition
  | .unlockCond, .condition => true
  | .load, .count | .store _, .count | .print, .count | .unlockCount, .count => true
  | _, _ => false

def holds : (t : Thread) → Pc t → Mutex → Bool
  | .main => MainPc.holds
  | .func _ => FuncPc.holds

end CPlayground.Condvar
