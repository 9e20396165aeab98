import Mathlib.Data.List.Basic
import Mathlib.Logic.Function.Basic

set_option autoImplicit false

/-! # Linked lists in a heap

`next p` is the link stored in the cell `p`: `none` when there is no such cell, `some none` for
a null link. `Seg next a ps b` says that from `a` the links lead through the cells `ps` to `b`.
-/

namespace CPlayground

universe u

variable {α : Type u} {next next' : α → Option (Option α)}

/-- From `a` the links lead through the cells `ps`, in order, to `b`. -/
inductive Seg (next : α → Option (Option α)) : Option α → List α → Option α → Prop
  | nil (a : Option α) : Seg next a [] a
  | cons {p : α} {ps : List α} {a b : Option α} (hp : next p = some a) (h : Seg next a ps b) :
      Seg next (some p) (p :: ps) b

/-- The first `n` cells on the way from `a`. -/
def walk (next : α → Option (Option α)) : Nat → Option α → List α
  | 0, _ | _ + 1, none => []
  | n + 1, some p => p :: walk next n (next p).join

namespace Seg

theorem nil_iff {a b : Option α} : Seg next a [] b ↔ a = b := by
  constructor
  · rintro ⟨⟩
    rfl
  · rintro rfl
    exact .nil a

theorem cons_iff {p : α} {ps : List α} {a b : Option α} :
    Seg next a (p :: ps) b ↔ a = some p ∧ ∃ c, next p = some c ∧ Seg next c ps b := by
  constructor
  · rintro (_ | ⟨hp, h⟩)
    exact ⟨rfl, _, hp, h⟩
  · rintro ⟨rfl, c, hp, h⟩
    exact .cons hp h

theorem snoc {p : α} {ps : List α} {a b : Option α} (h : Seg next a ps (some p))
    (hp : next p = some b) : Seg next a (ps ++ [p]) b := by
  generalize hc : some p = c at h
  induction h with
  | nil a =>
      subst hc
      exact .cons hp (.nil b)
  | cons hq _ ih => exact .cons hq (ih hc)

theorem of_snoc {p : α} {ps : List α} {a b : Option α} (h : Seg next a (ps ++ [p]) b) :
    Seg next a ps (some p) ∧ next p = some b := by
  induction ps generalizing a with
  | nil =>
      obtain ⟨rfl, c, hp, hnil⟩ := cons_iff.1 h
      cases hnil
      exact ⟨.nil _, hp⟩
  | cons q ps ih =>
      obtain ⟨rfl, c, hq, hrest⟩ := cons_iff.1 h
      obtain ⟨hseg, hp⟩ := ih hrest
      exact ⟨.cons hq hseg, hp⟩

/-- Only the links of its cells matter for a segment. -/
theorem congr {ps : List α} {a b : Option α} (h : Seg next a ps b)
    (he : ∀ p ∈ ps, next' p = next p) : Seg next' a ps b := by
  induction h with
  | nil a => exact .nil a
  | cons hp _ ih =>
      refine .cons ((he _ List.mem_cons_self).trans hp) (ih ?_)
      exact fun p hmem => he p (List.mem_cons_of_mem _ hmem)

theorem mem_cell {ps : List α} {a b : Option α} (h : Seg next a ps b) {p : α} (hp : p ∈ ps) :
    (next p).isSome := by
  induction h with
  | nil a => cases hp
  | cons hq _ ih =>
      rcases List.mem_cons.1 hp with rfl | hmem
      · rw [hq]
        rfl
      · exact ih hmem

theorem walk_eq {ps : List α} {a : Option α} (h : Seg next a ps none) :
    walk next ps.length a = ps := by
  generalize hb : (none : Option α) = b at h
  induction h with
  | nil a => rfl
  | cons hp _ ih => rw [List.length_cons, walk, hp, Option.join_some, ih hb]

end Seg

end CPlayground
