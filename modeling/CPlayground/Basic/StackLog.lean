import Mathlib.Data.Multiset.AddSub
import Mathlib.Logic.Function.Basic

set_option autoImplicit false

/-! # The log of a stack

A log records, latest first, what has been pushed onto a stack and what has been popped from
it. It determines the stack it leaves (`stack`); it is a log of a stack (`Lifo`) when every
pop has returned the top, the most recently pushed element that was still there. What was
pushed is then what was popped and what is left (`pushes_eq`). `Stored` lays the stack out in an
array.
-/

namespace CPlayground.StackLog

inductive Event (α : Type)
  | pushed (x : α)
  | popped (x : α)
  deriving DecidableEq, Repr

section Log

variable {α : Type}

/-- The stack after the events of a log, top first. -/
def stack : List (Event α) → List α
  | [] => []
  | .pushed x :: log => x :: stack log
  | .popped _ :: log => (stack log).tail

/-- Every pop has returned the top of the stack. -/
def Lifo : List (Event α) → Prop
  | [] => True
  | .pushed _ :: log => Lifo log
  | .popped x :: log => (stack log).head? = some x ∧ Lifo log

/-- All that has been pushed. -/
def pushes : List (Event α) → Multiset α
  | [] => 0
  | .pushed x :: log => x ::ₘ pushes log
  | .popped _ :: log => pushes log

/-- All that has been popped. -/
def pops : List (Event α) → Multiset α
  | [] => 0
  | .pushed _ :: log => pops log
  | .popped x :: log => x ::ₘ pops log

/-- A pop from a stack leaves its tail. -/
theorem stack_of_head {log : List (Event α)} {x : α} (h : (stack log).head? = some x) :
    stack log = x :: (stack log).tail := by
  cases hs : stack log with
  | nil =>
      rw [hs] at h
      cases h
  | cons y rest =>
      rw [hs] at h
      cases h
      rfl

/-- **Conservation.** What was pushed has been popped or is on the stack. -/
theorem pushes_eq {log : List (Event α)} (h : Lifo log) :
    pushes log = pops log + (stack log : Multiset α) := by
  induction log with
  | nil => rfl
  | cons event log ih =>
      cases event with
      | pushed x =>
          show x ::ₘ pushes log = pops log + ((x :: stack log : List α) : Multiset α)
          rw [ih h, ← Multiset.cons_coe, Multiset.add_cons]
      | popped x =>
          obtain ⟨htop, hlog⟩ := h
          show pushes log = x ::ₘ pops log + (((stack log).tail : List α) : Multiset α)
          calc pushes log = pops log + (stack log : Multiset α) := ih hlog
            _ = pops log + ((x :: (stack log).tail : List α) : Multiset α) := by
                rw [← stack_of_head htop]
            _ = x ::ₘ pops log + (((stack log).tail : List α) : Multiset α) := by
                rw [← Multiset.cons_coe, Multiset.add_cons, Multiset.cons_add]

theorem card_pushes {log : List (Event α)} (h : Lifo log) :
    (pushes log).card = (pops log).card + (stack log).length := by
  rw [pushes_eq h, Multiset.card_add, Multiset.coe_card]

end Log

/-! ## A stack in an array -/

section Array

variable {α : Type} {data data' : Int → α} {st : List α}

/-- The elements of the stack lie in the array, the bottom at index 0. -/
def Stored (data : Int → α) : List α → Prop
  | [] => True
  | x :: st => data st.length = x ∧ Stored data st

theorem Stored.congr (h : Stored data st) (he : ∀ k : Nat, k < st.length → data' k = data k) :
    Stored data' st := by
  induction st with
  | nil => trivial
  | cons x st ih =>
      obtain ⟨htop, hrest⟩ := h
      refine ⟨(he st.length (Nat.lt_succ_self _)).trans htop, ih hrest fun k hk => ?_⟩
      exact he k (Nat.lt_succ_of_lt hk)

/-- A push stores behind the last element. -/
theorem Stored.push (h : Stored data st) (x : α) :
    Stored (Function.update data st.length x) (x :: st) := by
  refine ⟨Function.update_self .., h.congr fun k hk => ?_⟩
  have hne : (k : Int) ≠ st.length := by omega
  exact Function.update_of_ne hne ..

theorem Stored.tail (h : Stored data st) : Stored data st.tail := by
  cases st with
  | nil => trivial
  | cons x st => exact h.2

/-- The top is the last element. -/
theorem Stored.head (h : Stored data st) (hpos : 0 < st.length) :
    st.head? = some (data ((st.length : Int) - 1)) := by
  cases st with
  | nil => cases hpos
  | cons x st =>
      have hlast : ((x :: st).length : Int) - 1 = st.length := by
        rw [List.length_cons]
        omega
      rw [hlast, h.1, List.head?_cons]

end Array

end CPlayground.StackLog
