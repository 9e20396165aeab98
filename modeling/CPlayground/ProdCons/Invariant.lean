import CPlayground.ProdCons.Laws

set_option autoImplicit false

/-! # The invariant

`Inv` collects the conservation laws, what holds of the buffer, and what a thread knows at its
own point. The laws say that no step drifts (`Inv.regular`): a producer that has passed its
limit check finds room and a consumer that has passed its own finds a number, also after
threads have left and posted tokens that carry nothing. From this every step keeps `Inv`, and
the conservation of items follows (`conserves_items`).
-/

namespace CPlayground.ProdCons

open Semaphores StackLog

/-! ## Assertions -/

/-- What a producer knows at its point. -/
def ProducerPc.Ok (maxGenerate : Nat) (b : Buffer) : ProducerPc → Prop
  | .testRoom => b.numGen < maxGenerate
  | .generate | .store _ => b.numGen < maxGenerate ∧ b.items.length < b.capacity
  | .incSize number | .incPtr number | .incGen number =>
      b.numGen < maxGenerate ∧ b.items.length < b.capacity ∧ b.data b.items.length = number
  | .postMutex true | .postFull true | .exited => b.numGen = maxGenerate
  | _ => True

def ConsumerPc.Ok (maxGenerate : Nat) (b : Buffer) : ConsumerPc → Prop
  | .testItem => b.numCon < maxGenerate
  | .decSize | .decPtr | .incCon => b.numCon < maxGenerate ∧ 0 < b.items.length
  | .load => 0 < b.items.length
  | .postMutex true | .postEmpty true | .exited => b.numCon = maxGenerate
  | _ => True

def PointOk {P C : Nat} (maxGenerate : Nat) (b : Buffer) : (t : Thread P C) → Pc t → Prop
  | .main => fun _ => True
  | .producer _ => ProducerPc.Ok maxGenerate b
  | .consumer _ => ConsumerPc.Ok maxGenerate b

/-- The block holds the stack of the history, and the counters count it. -/
structure BufferOk (capacity maxGenerate : Nat) (b : Buffer) : Prop where
  lifo : Lifo b.history
  stored : (List.range b.items.length).map (fun k : Nat => b.data k) = b.items.reverse
  gen : b.numGen = (pushes b.history).card
  gen_le : b.numGen ≤ maxGenerate
  items_le : b.items.length ≤ capacity
  capacity : b.capacity = capacity

structure Inv {P C : Nat} (capacity maxGenerate : Nat) (s : ProgState P C) : Prop where
  mutex : mutexLaw.total s = 1
  tokens : tokenLaw.total s = capacity
  items : itemLaw.total s = 0
  size : sizeLaw.total s = 0
  ptr : ptrLaw.total s = 0
  con : conLaw.total s = 0
  buffer : BufferOk capacity maxGenerate s.data
  points : ∀ t, PointOk maxGenerate s.data t (s.pc t)

section Inv

variable {P C capacity maxGenerate : Nat} {s : ProgState P C} {t u : Thread P C}

/-! ## Inside and outside a critical section -/

/-- **Mutual exclusion.** -/
theorem Inv.exclusive (h : Inv capacity maxGenerate s) (ht : holds t (s.pc t) = true)
    (hu : holds u (s.pc u) = true) : t = u := by
  by_contra hne
  have hpc : ∀ v, 0 ≤ mutexLaw.pc v (s.pc v) := by
    intro v
    unfold mutexLaw
    dsimp only
    split_ifs <;> decide
  have hpair := mutexLaw.pair_le_total (fun x => by cases x <;> simp [mutexLaw]) hpc hne
  have ht1 : mutexLaw.pc t (s.pc t) = 1 := if_pos ht
  have hu1 : mutexLaw.pc u (s.pc u) = 1 := if_pos hu
  have hdata : (mutexLaw (P := P) (C := C)).data s.data = 0 := rfl
  -- the law has room for one of them only
  rw [h.mutex] at hpair
  omega

/-- A law about the critical sections alone: no semaphore and no point outside counts. -/
def Inside (w : Law P C) : Prop :=
  (∀ x, w.sem x = 0) ∧ ∀ u p, holds u p = false → w.pc u p = 0

/-- With a thread in its critical section such a law is about this thread. -/
theorem Inv.total_holder {w : Law P C} (hw : Inside w) (h : Inv capacity maxGenerate s)
    (ht : holds t (s.pc t) = true) : w.total s = w.data s.data + w.pc t (s.pc t) := by
  have hsum : ∑ v, w.pc v (s.pc v) = w.pc t (s.pc t) := by
    apply Finset.sum_eq_single t
    · intro u _ hne
      apply hw.2
      by_contra hu
      exact hne (h.exclusive (Bool.eq_true_of_not_eq_false hu) ht)
    · intro hout
      exact absurd (Finset.mem_univ t) hout
  simp only [Weights.total, hw.1, zero_mul, Finset.sum_const_zero, hsum, zero_add]

/-- With no thread in its critical section it is about the buffer. -/
theorem total_free {w : Law P C} (hw : Inside w) (hfree : ∀ u, holds u (s.pc u) = false) :
    w.total s = w.data s.data := by
  have hsum : ∑ v, w.pc v (s.pc v) = 0 := Finset.sum_eq_zero fun v _ => hw.2 v _ (hfree v)
  simp only [Weights.total, hw.1, zero_mul, Finset.sum_const_zero, hsum, zero_add, add_zero]

theorem sizeLaw_inside : Inside (sizeLaw (P := P) (C := C)) := by
  refine ⟨fun x => rfl, fun u p hout => ?_⟩
  cases u with
  | main => rfl
  | producer i => cases p <;> first | rfl | cases hout
  | consumer j => cases p <;> first | rfl | cases hout

theorem ptrLaw_inside : Inside (ptrLaw (P := P) (C := C)) := by
  refine ⟨fun x => rfl, fun u p hout => ?_⟩
  cases u with
  | main => rfl
  | producer i => cases p <;> first | rfl | cases hout
  | consumer j => cases p <;> first | rfl | cases hout

theorem conLaw_inside : Inside (conLaw (P := P) (C := C)) := by
  refine ⟨fun x => rfl, fun u p hout => ?_⟩
  cases u with
  | main => rfl
  | producer i => rfl
  | consumer j => cases p <;> first | rfl | cases hout

/-- `size` at a point of a critical section. -/
theorem Inv.size_at (h : Inv capacity maxGenerate s) (ht : holds t (s.pc t) = true) :
    (s.data.size : Int) = s.data.items.length - sizeLaw.pc t (s.pc t) := by
  have htotal := h.total_holder sizeLaw_inside ht
  rw [h.size, sizeLaw_data] at htotal
  omega

theorem Inv.ptr_at (h : Inv capacity maxGenerate s) (ht : holds t (s.pc t) = true) :
    s.data.dataptr = s.data.items.length - ptrLaw.pc t (s.pc t) := by
  have htotal := h.total_holder ptrLaw_inside ht
  rw [h.ptr, ptrLaw_data] at htotal
  omega

theorem Inv.con_at (h : Inv capacity maxGenerate s) (ht : holds t (s.pc t) = true) :
    (s.data.numCon : Int) = (pops s.data.history).card - conLaw.pc t (s.pc t) := by
  have htotal := h.total_holder conLaw_inside ht
  rw [h.con, conLaw_data] at htotal
  omega

/-- What has been generated has been consumed or is in the buffer. -/
theorem BufferOk.gen_eq {b : Buffer} (h : BufferOk capacity maxGenerate b) :
    b.numGen = (pops b.history).card + b.items.length := by
  rw [h.gen, card_pushes h.lifo]
  rfl

theorem conLag_cases {b : Buffer} {p : Pc t} (h : PointOk maxGenerate b t p) :
    conLaw.pc t p = 0 ∨ conLaw.pc t p = -1 ∧ 0 < b.items.length := by
  cases t with
  | main => exact Or.inl rfl
  | producer i => exact Or.inl rfl
  | consumer j =>
      cases p with
      | load => exact Or.inr ⟨rfl, h⟩
      | _ => exact Or.inl rfl

theorem Inv.con_le_gen (h : Inv capacity maxGenerate s) : s.data.numCon ≤ s.data.numGen := by
  have hgen := h.buffer.gen_eq
  by_cases hfree : ∀ u, holds u (s.pc u) = false
  · have htotal := total_free conLaw_inside hfree
    rw [h.con, conLaw_data] at htotal
    omega
  · simp only [not_forall, Bool.not_eq_false] at hfree
    obtain ⟨t, ht⟩ := hfree
    have hcon := h.con_at ht
    -- a consumer at its load has counted a number that is still in the buffer
    rcases conLag_cases (h.points t) with hlag | ⟨hlag, hpos⟩ <;> omega

/-! ## No step drifts -/

/-- Free places, numbers in the buffer, and tokens that stand for neither. -/
def roomLaw : Law P C := tokenLaw.sub itemLaw

theorem Inv.room (h : Inv capacity maxGenerate s) : roomLaw.total s = capacity := by
  unfold roomLaw
  rw [Weights.total_sub, h.tokens, h.items, sub_zero]

/-- **There is room.** A producer that has passed its limit check holds a place for its
number: no consumer has left yet, so no token of `empty` is one too many. -/
theorem Inv.room_at (h : Inv capacity maxGenerate s) {i : Fin P}
    (hp : s.pc (.producer i) = .testRoom) : s.data.items.length < capacity := by
  have hlt : s.data.numGen < maxGenerate := by
    have hok := h.points (.producer i)
    rw [hp] at hok
    exact hok
  have hcon := h.con_le_gen
  have hpart : ∀ u, 0 ≤ roomLaw.pc u (s.pc u) := by
    intro u
    cases u with
    | main => exact le_refl _
    | producer k => exact sub_nonneg.2 (ProducerPc.surplus_le_token _)
    | consumer j =>
        refine sub_nonneg.2 (ConsumerPc.surplus_le_token fun hexited => ?_)
        have hok := h.points (.consumer j)
        rw [hexited] at hok
        have hall : s.data.numCon = maxGenerate := hok
        omega
  have hown : roomLaw.pc (.producer i) (s.pc (.producer i)) = 1 := by
    rw [hp]
    rfl
  have hdata : (roomLaw (P := P) (C := C)).data s.data = s.data.items.length := by
    simp [roomLaw, Weights.sub, tokenLaw, itemLaw]
  have hle := roomLaw.le_total
    (fun x => by cases x <;> simp [roomLaw, Weights.sub, tokenLaw, itemLaw]) hpart (.producer i)
  rw [h.room] at hle
  omega

/-- **There is a number.** A consumer that has passed its limit check holds a token of `full`,
and finds a number for it: either some are still to be consumed, or no producer has left. -/
theorem Inv.item_at (h : Inv capacity maxGenerate s) {j : Fin C}
    (hp : s.pc (.consumer j) = .testItem) : 0 < s.data.items.length := by
  have hlt : s.data.numCon < maxGenerate := by
    have hok := h.points (.consumer j)
    rw [hp] at hok
    exact hok
  have hcon := h.con_at (t := .consumer j) (by rw [hp]; rfl)
  rw [hp] at hcon
  have hlag : conLaw.pc (.consumer j : Thread P C) .testItem = 0 := rfl
  have hgen := h.buffer.gen_eq
  by_cases hall : s.data.numGen = maxGenerate
  · omega
  have hpart : ∀ u, 0 ≤ itemLaw.pc u (s.pc u) := by
    intro u
    cases u with
    | main => exact le_refl _
    | producer i =>
        refine ProducerPc.surplus_nonneg fun hexited => ?_
        have hok := h.points (.producer i)
        rw [hexited] at hok
        exact hall hok
    | consumer k => exact ConsumerPc.surplus_nonneg _
  have hown : itemLaw.pc (.consumer j) (s.pc (.consumer j)) = 1 := by
    rw [hp]
    rfl
  have hdata : (itemLaw (P := P) (C := C)).data s.data = -(s.data.items.length : Int) := rfl
  have hle := itemLaw.le_total (fun x => by cases x <;> simp [itemLaw]) hpart (.consumer j)
  rw [h.items] at hle
  omega

/-- **No step finds the buffer full or empty.** -/
theorem Inv.regular (h : Inv capacity maxGenerate s) (t : Thread P C) :
    Regular s.data t (s.pc t) := by
  have hcap := h.buffer.capacity
  cases t with
  | main => trivial
  | producer i =>
      intro hp
      have hsize := h.size_at (t := .producer i) (by rw [hp]; rfl)
      have hlag : sizeLaw.pc (.producer i : Thread P C) .testRoom = 0 := rfl
      rw [hp, hlag] at hsize
      have hroom := h.room_at hp
      omega
  | consumer j =>
      have hok := h.points (.consumer j)
      refine ⟨?_, ?_⟩
      · rintro (hp | hp)
        · have hsize := h.size_at (t := .consumer j) (by rw [hp]; rfl)
          have hlag : sizeLaw.pc (.consumer j : Thread P C) .testItem = 0 := rfl
          rw [hp, hlag] at hsize
          have hitem := h.item_at hp
          omega
        · have hsize := h.size_at (t := .consumer j) (by rw [hp]; rfl)
          have hlag : sizeLaw.pc (.consumer j : Thread P C) .decSize = 0 := rfl
          rw [hp, hlag] at hsize
          rw [hp] at hok
          have hitem : 0 < s.data.items.length := hok.2
          omega
      · intro hp
        rw [hp] at hok
        exact hok

/-! ## One step -/

variable {b b' : Buffer} {op : Op Sem} {p p' : Pc t}

/-- What a thread outside its critical section leaves alone. -/
structure SameCore (b b' : Buffer) : Prop where
  numGen : b'.numGen = b.numGen
  numCon : b'.numCon = b.numCon
  capacity : b'.capacity = b.capacity
  data : b'.data = b.data
  history : b'.history = b.history

theorem SameCore.items (h : SameCore b b') : b'.items = b.items := by
  unfold Buffer.items
  rw [h.history]

/-- Only a critical section changes the core of the buffer. -/
theorem Edge.sameCore (he : Edge maxGenerate b t p op b' p') (hout : holds t p = false) :
    SameCore b b' := by
  cases t with
  | main => cases he <;> exact ⟨rfl, rfl, rfl, rfl, rfl⟩
  | producer i => cases he <;> first | exact ⟨rfl, rfl, rfl, rfl, rfl⟩ | cases hout
  | consumer j => cases he <;> first | exact ⟨rfl, rfl, rfl, rfl, rfl⟩ | cases hout

theorem PointOk.of_sameCore (hc : SameCore b b') (h : PointOk maxGenerate b t p) :
    PointOk maxGenerate b' t p := by
  have hitems := hc.items
  cases t with
  | main => trivial
  | producer i =>
      show ProducerPc.Ok maxGenerate b' p
      unfold ProducerPc.Ok
      rw [hitems, hc.numGen, hc.capacity, hc.data]
      exact h
  | consumer j =>
      show ConsumerPc.Ok maxGenerate b' p
      unfold ConsumerPc.Ok
      rw [hitems, hc.numCon]
      exact h

/-- A counter that has reached the limit stays there. -/
theorem Edge.limit_stays (he : Edge maxGenerate b t p op b' p') (h : PointOk maxGenerate b t p) :
    (b.numGen = maxGenerate → b'.numGen = maxGenerate) ∧
      (b.numCon = maxGenerate → b'.numCon = maxGenerate) := by
  cases t with
  | main => cases he <;> exact ⟨id, id⟩
  | producer i =>
      cases he with
      | incGen number =>
          have hlt : b.numGen < maxGenerate := h.1
          exact ⟨fun hall => absurd hall (Nat.ne_of_lt hlt), id⟩
      | _ => exact ⟨id, id⟩
  | consumer j =>
      cases he with
      | incCon =>
          have hlt : b.numCon < maxGenerate := h.1
          exact ⟨id, fun hall => absurd hall (Nat.ne_of_lt hlt)⟩
      | _ => exact ⟨id, id⟩

/-- Outside its critical section a thread knows at most that a limit has been reached. -/
theorem PointOk.of_limits (hout : holds t p = false)
    (hgen : b.numGen = maxGenerate → b'.numGen = maxGenerate)
    (hcon : b.numCon = maxGenerate → b'.numCon = maxGenerate)
    (h : PointOk maxGenerate b t p) : PointOk maxGenerate b' t p := by
  cases t with
  | main => trivial
  | producer i =>
      cases p with
      | postFull leaving =>
          cases leaving with
          | false => trivial
          | true => exact hgen h
      | exited => exact hgen h
      | start | waitEmpty | waitMutex => trivial
      | testLimit | testRoom | generate | store _ | incSize _ | incPtr _ | incGen _
      | postMutex _ => cases hout
  | consumer j =>
      cases p with
      | postEmpty leaving =>
          cases leaving with
          | false => trivial
          | true => exact hcon h
      | exited => exact hcon h
      | start | waitFull | waitMutex => trivial
      | testLimit | testItem | decSize | decPtr | incCon | load | postMutex _ => cases hout

/-- A store past the items leaves them where they are. -/
theorem stored_update {b : Buffer} (number : Int) :
    (List.range b.items.length).map
        (fun k : Nat => Function.update b.data (b.items.length : Int) number k)
      = (List.range b.items.length).map fun k : Nat => b.data k := by
  apply List.map_congr_left
  intro k hk
  have hlt := List.mem_range.1 hk
  rw [Function.update_of_ne (by omega)]

/-- The number a consumer loads is the last one in the block. -/
theorem BufferOk.top (h : BufferOk capacity maxGenerate b) (hpos : 0 < b.items.length) :
    b.items = b.data ((b.items.length : Int) - 1) :: b.items.tail ∧
      (List.range b.items.tail.length).map (fun k : Nat => b.data k) = b.items.tail.reverse := by
  obtain ⟨number, rest, hitems⟩ := List.exists_cons_of_length_pos hpos
  have hstored := h.stored
  rw [hitems, List.length_cons, List.range_succ, List.map_append, List.reverse_cons] at hstored
  obtain ⟨hrest, htop⟩ := List.append_inj' hstored rfl
  have htop' : b.data (rest.length : Int) = number := List.singleton_inj.1 htop
  have hlast : ((number :: rest).length : Int) - 1 = rest.length := by
    rw [List.length_cons]
    omega
  rw [hitems, hlast, htop']
  exact ⟨rfl, hrest⟩

/-- **The buffer after a step.** -/
theorem Inv.buffer_step (h : Inv capacity maxGenerate s)
    (he : Edge maxGenerate s.data t (s.pc t) op b' p') : BufferOk capacity maxGenerate b' := by
  have hb := h.buffer
  have hok := h.points t
  have hptr : holds t (s.pc t) = true →
      s.data.dataptr = s.data.items.length - ptrLaw.pc t (s.pc t) := h.ptr_at
  generalize s.pc t = p at he hok hptr
  cases t with
  | main => cases he <;> exact ⟨hb.lifo, hb.stored, hb.gen, hb.gen_le, hb.items_le, hb.capacity⟩
  | producer i =>
      cases he with
      | store number =>
          -- the store goes to the first offset past the items
          have hlast : s.data.dataptr = s.data.items.length := by
            rw [hptr rfl]
            exact sub_zero _
          refine ⟨hb.lifo, ?_, hb.gen, hb.gen_le, hb.items_le, hb.capacity⟩
          show (List.range s.data.items.length).map
            (fun k : Nat => Function.update s.data.data s.data.dataptr number k) = _
          rw [hlast, stored_update]
          exact hb.stored
      | incGen number =>
          obtain ⟨hlt, hroom, hnumber⟩ := hok
          rw [hb.capacity] at hroom
          refine ⟨hb.lifo, ?_, ?_, hlt, hroom, hb.capacity⟩
          · show (List.range (s.data.items.length + 1)).map (fun k : Nat => s.data.data k)
              = (number :: s.data.items).reverse
            calc (List.range (s.data.items.length + 1)).map (fun k : Nat => s.data.data k)
                = (List.range s.data.items.length).map (fun k : Nat => s.data.data k)
                    ++ [s.data.data s.data.items.length] := by
                  rw [List.range_succ, List.map_append]
                  rfl
              _ = s.data.items.reverse ++ [number] := by rw [hb.stored, hnumber]
              _ = (number :: s.data.items).reverse := List.reverse_cons.symm
          · show s.data.numGen + 1 = (number ::ₘ pushes s.data.history).card
            rw [Multiset.card_cons, hb.gen]
      | _ => exact ⟨hb.lifo, hb.stored, hb.gen, hb.gen_le, hb.items_le, hb.capacity⟩
  | consumer j =>
      cases he with
      | load =>
          have hlast : s.data.dataptr = (s.data.items.length : Int) - 1 := by
            rw [hptr rfl]
            rfl
          obtain ⟨htop, hrest⟩ := hb.top hok
          have hle : s.data.items.tail.length ≤ capacity := by
            have hfull := hb.items_le
            rw [List.length_tail]
            omega
          refine ⟨⟨?_, hb.lifo⟩, hrest, hb.gen, hb.gen_le, hle, hb.capacity⟩
          show s.data.items.head? = some (s.data.data s.data.dataptr)
          rw [hlast]
          exact congrArg List.head? htop
      | _ => exact ⟨hb.lifo, hb.stored, hb.gen, hb.gen_le, hb.items_le, hb.capacity⟩

/-- **What the thread that moves knows then.** -/
theorem Inv.point_step (h : Inv capacity maxGenerate s)
    (he : Edge maxGenerate s.data t (s.pc t) op b' p') : PointOk maxGenerate b' t p' := by
  have hok := h.points t
  have hreg := h.regular t
  have hgen := h.buffer.gen_le
  have hcongen := h.con_le_gen
  have hcap := h.buffer.capacity
  have hsize : holds t (s.pc t) = true →
      (s.data.size : Int) = s.data.items.length - sizeLaw.pc t (s.pc t) := h.size_at
  have hptr : holds t (s.pc t) = true →
      s.data.dataptr = s.data.items.length - ptrLaw.pc t (s.pc t) := h.ptr_at
  have hroom : ∀ i : Fin P, s.pc (.producer i) = .testRoom →
      s.data.items.length < s.data.capacity := fun i hp => hcap ▸ h.room_at hp
  have hitem : ∀ j : Fin C, s.pc (.consumer j) = .testItem →
      0 < s.data.items.length := fun j hp => h.item_at hp
  cases t with
  | main => trivial
  | producer i =>
      have hroom' := hroom i
      generalize s.pc (.producer i) = p at he hok hreg hsize hptr hroom'
      cases he with
      | atLimit hall => exact hall.symm
      | below hne =>
          show s.data.numGen < maxGenerate
          omega
      | room hlt => exact ⟨hok, hroom' rfl⟩
      | generate number => exact hok
      | store number =>
          have hlast : s.data.dataptr = s.data.items.length := by
            rw [hptr rfl]
            exact sub_zero _
          refine ⟨hok.1, hok.2, ?_⟩
          show Function.update s.data.data s.data.dataptr number (s.data.items.length : Int)
            = number
          rw [hlast, Function.update_self]
      | incSize number | incPtr number => exact hok
      | unlock leaving =>
          cases leaving with
          | false => trivial
          | true => exact hok
      | leave => exact hok
      | begin _ | takeEmpty | lock | isFull _ | incGen _ | again => trivial
  | consumer j =>
      have hitem' := hitem j
      generalize s.pc (.consumer j) = p at he hok hreg hsize hptr hitem'
      cases he with
      | atLimit hall => exact hall
      | below hne =>
          show s.data.numCon < maxGenerate
          omega
      | item hpos => exact ⟨hok, hitem' rfl⟩
      | decSize | decPtr => exact hok
      | incCon => exact hok.2
      | unlock leaving =>
          cases leaving with
          | false => trivial
          | true => exact hok
      | leave => exact hok
      | begin _ | takeFull | lock | isEmpty _ | load | again => trivial

/-- **One step keeps the invariant**, unless it destroys the buffer. -/
theorem Inv.step {s' : ProgState P C} {a : Thread P C × Choice} (h : Inv capacity maxGenerate s)
    (hstep : stepProg maxGenerate s a = some s') (hbuffer : s'.data.destroyed = false) :
    Inv capacity maxGenerate s' := by
  obtain ⟨t, choice⟩ := a
  obtain ⟨-, op, b', p', he, hop, rfl⟩ := stepProg_cases hstep
  have hreg := h.regular t
  refine
    { mutex := (mutexLaw.total_step hop (mutexLaw_balanced he)).trans h.mutex
      tokens := (tokenLaw.total_step hop (tokenLaw_balanced he)).trans h.tokens
      items := (itemLaw.total_step hop (itemLaw_balanced he hreg)).trans h.items
      size := (sizeLaw.total_step hop (sizeLaw_balanced he hreg)).trans h.size
      ptr := (ptrLaw.total_step hop (ptrLaw_balanced he hreg hbuffer)).trans h.ptr
      con := (conLaw.total_step hop (conLaw_balanced he)).trans h.con
      buffer := h.buffer_step he
      points := fun u => ?_ }
  show PointOk maxGenerate b' u (Function.update s.pc t p' u)
  by_cases hu : u = t
  · subst hu
    rw [Function.update_self]
    exact h.point_step he
  · rw [Function.update_of_ne hu]
    have hok := h.points u
    cases hin : holds u (s.pc u) with
    | false =>
        obtain ⟨hgen, hcon⟩ := he.limit_stays (h.points t)
        exact hok.of_limits hin hgen hcon
    | true =>
        -- the thread that moves is outside its critical section
        refine hok.of_sameCore (he.sameCore ?_)
        by_contra ht
        exact hu (h.exclusive hin (Bool.eq_true_of_not_eq_false ht))

/-! ## Every run -/

theorem sum_threads (f : Thread P C → Int) :
    ∑ t, f t = f .main + (∑ i, f (.producer i) + ∑ j, f (.consumer j)) := by
  rw [← (threadEquiv P C).sum_comp f, Fintype.sum_sum_type, Fintype.sum_sum_type]
  simp [threadEquiv]

theorem sum_sems (f : Sem → Int) : ∑ x, f x = f .mutex + f .empty + f .full := by
  show ∑ x ∈ {Sem.mutex, Sem.empty, Sem.full}, f x = _
  rw [Finset.sum_insert (by decide), Finset.sum_pair (by decide), add_assoc]

/-- At the start the points have no weight. -/
theorem total_start (w : Law P C) (junk : Int → Int) (hpc : ∀ t, w.pc t (startPc t) = 0) :
    w.total (startState P C capacity junk)
      = w.sem .mutex + w.sem .empty * capacity + w.data (bufferCreate capacity junk) := by
  have hsum : ∑ t, w.pc t (startPc t) = 0 := Finset.sum_eq_zero fun t _ => hpc t
  show ∑ x, w.sem x * (initialSem capacity x : Int) + w.data (bufferCreate capacity junk)
    + ∑ t, w.pc t (startPc t) = _
  rw [hsum, sum_sems]
  simp [initialSem]

theorem inv_start (P C capacity maxGenerate : Nat) (junk : Int → Int) :
    Inv capacity maxGenerate (startState P C capacity junk) where
  mutex := by
    rw [total_start _ _ fun t => by cases t <;> rfl]
    simp [mutexLaw]
  tokens := by
    rw [total_start _ _ fun t => by cases t <;> rfl]
    simp [tokenLaw]
  items := by
    rw [total_start _ _ fun t => by cases t <;> rfl]
    simp [itemLaw, bufferCreate, Buffer.items, stack]
  size := by
    rw [total_start _ _ fun t => by cases t <;> rfl]
    simp [sizeLaw, bufferCreate, Buffer.items, stack]
  ptr := by
    rw [total_start _ _ fun t => by cases t <;> rfl]
    simp [ptrLaw, bufferCreate, Buffer.items, stack]
  con := by
    rw [total_start _ _ fun t => by cases t <;> rfl]
    simp [conLaw, bufferCreate, pops]
  buffer := ⟨trivial, rfl, rfl, Nat.zero_le _, Nat.zero_le _, rfl⟩
  points t := by cases t <;> trivial

/-- The buffer is destroyed once. -/
theorem Edge.destroyed_stays (he : Edge maxGenerate b t p op b' p')
    (h : b.destroyed = true) : b'.destroyed = true := by
  cases t with
  | main => cases he <;> first | exact h | rfl
  | producer i => cases he <;> exact h
  | consumer j => cases he <;> exact h

/-- **Every run keeps the invariant** as long as the buffer is there. -/
theorem inv_reachable (h : ProgReachable P C capacity maxGenerate s)
    (hbuffer : s.data.destroyed = false) : Inv capacity maxGenerate s := by
  refine Reachable.invariant
    (fun s => s.data.destroyed = false → Inv capacity maxGenerate s) ?_ ?_ h hbuffer
  · rintro _ ⟨junk, rfl⟩ -
    exact inv_start P C capacity maxGenerate junk
  · rintro s s' - hinv ⟨⟨t, choice⟩, hstep⟩ hbuffer'
    refine (hinv ?_).step hstep hbuffer'
    obtain ⟨-, op, b', p', he, -, rfl⟩ := stepProg_cases hstep
    by_contra hd
    have hgone : b'.destroyed = true :=
      he.destroyed_stays (Bool.eq_true_of_not_eq_false hd)
    exact Bool.false_ne_true (hbuffer'.symm.trans hgone)

end Inv

/-! ## Conservation of items -/

/-- The thread is about to store or load through `dataptr`. -/
def AtAccess {P C : Nat} : (t : Thread P C) → Pc t → Prop
  | .main, _ => False
  | .producer _, p => ∃ number, p = .store number
  | .consumer _, p => p = .load

/-- **The bounded buffer conserves items.** In every state that can be reached before `main`
destroys the buffer: a store or load through `dataptr` is in the block; every number consumed
was the last one produced that had not been consumed; and outside the critical sections the
fields of the buffer agree, the counters are in their order, and what was produced is what was
consumed together with what is in the buffer. -/
theorem conserves_items {P C capacity maxGenerate : Nat} {s : ProgState P C}
    (h : ProgReachable P C capacity maxGenerate s) (hbuffer : s.data.destroyed = false) :
    (∀ t, AtAccess t (s.pc t) → 0 ≤ s.data.dataptr ∧ s.data.dataptr < capacity) ∧
    Lifo s.data.history ∧
    ((∀ t, holds t (s.pc t) = false) →
      s.data.dataptr = s.data.size ∧ s.data.size ≤ capacity ∧
      s.data.numCon ≤ s.data.numGen ∧ s.data.numGen ≤ maxGenerate ∧
      s.data.numGen = s.data.numCon + s.data.size ∧
      pushes s.data.history = pops s.data.history
        + (((List.range s.data.size).map fun k : Nat => s.data.data k : List Int)
          : Multiset Int)) := by
  have hinv := inv_reachable h hbuffer
  refine ⟨fun t hat => ?_, hinv.buffer.lifo, fun hfree => ?_⟩
  · have hok := hinv.points t
    have hcap := hinv.buffer.capacity
    cases t with
    | main => exact hat.elim
    | producer i =>
        obtain ⟨number, hp⟩ : ∃ number, s.pc (.producer i) = .store number := hat
        have hptr := hinv.ptr_at (t := .producer i) (by rw [hp]; rfl)
        have hlag : ptrLaw.pc (.producer i : Thread P C) (.store number) = 0 := rfl
        rw [hp, hlag] at hptr
        rw [hp] at hok
        have hroom : s.data.items.length < s.data.capacity := hok.2
        omega
    | consumer j =>
        have hp : s.pc (.consumer j) = .load := hat
        have hptr := hinv.ptr_at (t := .consumer j) (by rw [hp]; rfl)
        have hlag : ptrLaw.pc (.consumer j : Thread P C) .load = 1 := rfl
        rw [hp, hlag] at hptr
        rw [hp] at hok
        have hpos : 0 < s.data.items.length := hok
        have hle := hinv.buffer.items_le
        omega
  · have hsize := total_free sizeLaw_inside hfree
    rw [hinv.size, sizeLaw_data] at hsize
    have hptr := total_free ptrLaw_inside hfree
    rw [hinv.ptr, ptrLaw_data] at hptr
    have hcon := total_free conLaw_inside hfree
    rw [hinv.con, conLaw_data] at hcon
    have hgen := hinv.buffer.gen_eq
    have hle := hinv.buffer.items_le
    have hlen : s.data.items.length = s.data.size := by omega
    refine ⟨by omega, by omega, hinv.con_le_gen, hinv.buffer.gen_le, by omega, ?_⟩
    calc pushes s.data.history = pops s.data.history + (s.data.items : Multiset Int) :=
          pushes_eq hinv.buffer.lifo
      _ = pops s.data.history + (s.data.items.reverse : Multiset Int) := by
          rw [Multiset.coe_reverse]
      _ = pops s.data.history
          + (((List.range s.data.size).map fun k : Nat => s.data.data k : List Int)
            : Multiset Int) := by
          rw [← hlen, hinv.buffer.stored]

set_option maxRecDepth 20000 in
/-- One producer has produced the number 7 and given the mutex back. -/
theorem conserves_items_produced :
    ∃ s : ProgState 1 1, s.data.size = 1 ∧ s.data.dataptr = 1 ∧
      pushes s.data.history = pops s.data.history + (([7] : List Int) : Multiset Int) := by
  obtain ⟨s, hs, hp⟩ : ∃ s, ProgReachable 1 1 1 1 s ∧
      decide (s.data.destroyed = false ∧ (∀ t, holds t (s.pc t) = false) ∧ s.data.size = 1 ∧
        (List.range s.data.size).map (fun k : Nat => s.data.data k) = [7]) = true :=
    progReachable_of_run (times .main 4 0 ++ times (.producer 0) 11 7) _ (by decide)
  obtain ⟨hbuffer, hfree, hsize, hdata⟩ := of_decide_eq_true hp
  obtain ⟨hptr, -, -, -, -, hitems⟩ := (conserves_items hs hbuffer).2.2 hfree
  rw [hdata] at hitems
  exact ⟨s, hsize, by rw [hptr, hsize]; rfl, hitems⟩

/-! ## No branch is taken in vain -/

/-- Past the limit check, and `size` not yet increased. -/
@[simp] def ProducerPc.aboutToStore : ProducerPc → Bool
  | .testRoom | .generate | .store _ | .incSize _ => true
  | _ => false

@[simp] def ConsumerPc.aboutToTake : ConsumerPc → Bool
  | .testItem | .decSize => true
  | _ => false

/-- A thread that has passed its limit check has room, or a number. -/
def InBounds {P C : Nat} (b : Buffer) : (t : Thread P C) → Pc t → Prop
  | .main, _ => True
  | .producer _, p => ProducerPc.aboutToStore p = true → b.size < b.capacity
  | .consumer _, p => ConsumerPc.aboutToTake p = true → 0 < b.size

section Bounds

variable {P C capacity maxGenerate : Nat} {s : ProgState P C}

theorem Inv.inBounds (h : Inv capacity maxGenerate s) (t : Thread P C) :
    InBounds s.data t (s.pc t) := by
  have hreg := h.regular t
  have hok := h.points t
  have hsize : holds t (s.pc t) = true →
      (s.data.size : Int) = s.data.items.length - sizeLaw.pc t (s.pc t) := h.size_at
  cases t with
  | main => trivial
  | producer i =>
      show ProducerPc.aboutToStore (s.pc (.producer i)) = true → s.data.size < s.data.capacity
      generalize s.pc (.producer i) = p at hreg hok hsize
      intro hp
      cases p with
      | testRoom => exact hreg rfl
      -- past the test the number is not counted in `size` yet
      | generate | store number =>
          have hin := hsize rfl
          have hlag : (s.data.size : Int) = s.data.items.length := by
            simpa [sizeLaw, pcWeight, ProducerPc.sizeLag] using hin
          have hroom : s.data.items.length < s.data.capacity := hok.2
          omega
      | incSize number =>
          have hin := hsize rfl
          have hlag : (s.data.size : Int) = s.data.items.length := by
            simpa [sizeLaw, pcWeight, ProducerPc.sizeLag] using hin
          have hroom : s.data.items.length < s.data.capacity := hok.2.1
          omega
      | _ => exact absurd hp (by simp)
  | consumer j =>
      show ConsumerPc.aboutToTake (s.pc (.consumer j)) = true → 0 < s.data.size
      generalize s.pc (.consumer j) = p at hreg
      intro hp
      cases p with
      | testItem => exact hreg.1 (.inl rfl)
      | decSize => exact hreg.1 (.inr rfl)
      | _ => exact absurd hp (by simp)

/-- `main` changes neither `size` nor `capacity`, also when it destroys the buffer. -/
theorem MainEdge.sameSize {b b' : Buffer} {op : Op Sem} {p p' : MainPc}
    (he : MainEdge P C maxGenerate b p op b' p') :
    b'.size = b.size ∧ b'.capacity = b.capacity := by
  cases he <;> exact ⟨rfl, rfl⟩

/-- Only `main` destroys the buffer. -/
theorem Edge.destroyed_same {t : Thread P C} {b b' : Buffer} {op : Op Sem} {p p' : Pc t}
    (he : Edge maxGenerate b t p op b' p') (ht : t ≠ .main) : b'.destroyed = b.destroyed := by
  cases t with
  | main => exact absurd rfl ht
  | producer i => cases he <;> rfl
  | consumer j => cases he <;> rfl

/-- **Every run.** -/
theorem inBounds_reachable (h : ProgReachable P C capacity maxGenerate s) (t : Thread P C) :
    InBounds s.data t (s.pc t) := by
  by_cases hd : s.data.destroyed = false
  · exact (inv_reachable h hd).inBounds t
  -- once the buffer is destroyed only `main` goes on
  · refine Reachable.invariant
      (fun s => ∀ t, InBounds s.data t (s.pc t)) ?_ (fun s s' hr ih hs t => ?_) h t
    · rintro _ ⟨junk, rfl⟩ t
      exact (inv_start P C capacity maxGenerate junk).inBounds t
    · obtain ⟨⟨u, choice⟩, hstep⟩ := hs
      by_cases hd' : s'.data.destroyed = false
      · exact (inv_reachable (hr.next ⟨_, hstep⟩) hd').inBounds t
      · obtain ⟨hgone, op, b', p', he, -, rfl⟩ := stepProg_cases hstep
        by_cases hu : u = .main
        · subst hu
          obtain ⟨hsize, hcap⟩ := MainEdge.sameSize he
          have hold := ih t
          cases t with
          | main => trivial
          | producer i | consumer j =>
              simp only [InBounds, hsize, hcap] at hold ⊢
              exact hold
        · have hthere : s.data.destroyed = false :=
            Bool.eq_false_iff.2 fun hdestroyed => hu (hgone hdestroyed)
          exact absurd ((he.destroyed_same hu).trans hthere) hd'

/-- **Counting alone keeps the threads in bounds.** In every reachable state, also after
threads have left and posted tokens that carry nothing, a producer that has passed its limit
check has `size < capacity` until it increases `size`, and a consumer has `size > 0` until it
decreases it; so from the test neither goes to the branch that is only logged. -/
theorem bounds_by_counting (h : ProgReachable P C capacity maxGenerate s) :
    (∀ i, ProducerPc.aboutToStore (s.pc (.producer i)) = true →
      s.data.size < s.data.capacity) ∧
    (∀ j, ConsumerPc.aboutToTake (s.pc (.consumer j)) = true → 0 < s.data.size) ∧
    ∀ choice s',
      (∀ i, s.pc (.producer i) = .testRoom →
        stepProg maxGenerate s (.producer i, choice) = some s' →
          s'.pc (.producer i) = .generate) ∧
      ∀ j, s.pc (.consumer j) = .testItem →
        stepProg maxGenerate s (.consumer j, choice) = some s' →
          s'.pc (.consumer j) = .decSize := by
  have hbounds := inBounds_reachable h
  refine ⟨fun i => hbounds (.producer i), fun j => hbounds (.consumer j), fun choice s' =>
    ⟨fun i hp hstep => ?_, fun j hp hstep => ?_⟩⟩
  · have hin := hbounds (.producer i)
    obtain ⟨-, op, b', p', he, -, rfl⟩ := stepProg_cases hstep
    rw [hp] at he hin
    show Function.update s.pc (.producer i) p' (.producer i) = ProducerPc.generate
    rw [Function.update_self]
    cases he with
    | room _ => rfl
    | isFull hfull => exact absurd (hin rfl) hfull
  · have hin := hbounds (.consumer j)
    obtain ⟨-, op, b', p', he, -, rfl⟩ := stepProg_cases hstep
    rw [hp] at he hin
    show Function.update s.pc (.consumer j) p' (.consumer j) = ConsumerPc.decSize
    rw [Function.update_self]
    cases he with
    | item _ => rfl
    | isEmpty hempty => exact absurd (hin rfl) hempty

/-- The only producer has passed its limit check. -/
theorem bounds_by_counting_first : ∃ s : ProgState 1 1,
    s.pc (.producer 0) = ProducerPc.testRoom ∧ s.data.size < s.data.capacity := by
  obtain ⟨s, hs, hp⟩ : ∃ s, ProgReachable 1 1 1 1 s ∧
      decide (s.pc (.producer 0) = ProducerPc.testRoom) = true :=
    progReachable_of_run (times .main 4 0 ++ times (.producer 0) 4 7) _ (by decide)
  have hpc := of_decide_eq_true hp
  exact ⟨s, hpc, (bounds_by_counting hs).1 0 (by rw [hpc]; rfl)⟩

end Bounds

end CPlayground.ProdCons
