import CPlayground.Serial.History

set_option autoImplicit false

/-! # The bound check of `deserialize_data`

`deserialize_data` takes a length of type `size_t`, converts it to `int`, adds the cursor and
compares the sum with the capacity. The conversion and the sum both wrap around, so the check
sees the end of the read modulo `2^32` only (`passes_iff`): a length from `2^31 - next` on can
pass it and be copied from outside the block. `read_bound_iff` says for which lengths and
cursors the check is right, in every state that any client leads to.
-/

namespace CPlayground.Serial

/-! ## The check -/

section Check

variable {env : Allocs} {buf : SerBuff}

/-- The end of a read of `n` bytes, as the check sees it: modulo `2^32`. -/
def SerBuff.wrappedEnd (buf : SerBuff) (n : Nat) : Int := (buf.next + n) % 2 ^ 32

/-- The sum the check computes, a signed number. -/
theorem wrap32_end (n : Nat) :
    wrap32 (wrap32 n + buf.next) =
      if buf.wrappedEnd n < 2 ^ 31 then buf.wrappedEnd n else buf.wrappedEnd n - 2 ^ 32 := by
  have hsum : wrap32 (wrap32 n + buf.next) = wrap32 (buf.next + n) := by
    unfold wrap32
    rw [Int.bmod_add_bmod, add_comm]
  rw [hsum]
  unfold SerBuff.wrappedEnd wrap32
  rw [Int.bmod_def]
  split_ifs <;> omega

/-- **What is refused.** The end of the read has to be beyond `size` modulo `2^32`, and the sum
must not have become negative. -/
theorem passes_iff (h : buf.Shape) (n : Nat) :
    ¬ buf.size < wrap32 (wrap32 n + buf.next) ↔
      ¬ (buf.size < buf.wrappedEnd n ∧ buf.wrappedEnd n < 2 ^ 31) := by
  have hge := h.size_ge
  have hlt : buf.wrappedEnd n < 2 ^ 32 := Int.emod_lt_of_pos _ (by norm_num)
  rw [wrap32_end]
  split_ifs <;> omega

/-- The check is exact: `n` bytes are copied and the cursor moves over them if there are that
many before `size`; otherwise nothing changes. -/
def ReadExact (buf : SerBuff) (n : Nat) : Prop :=
  (1 ≤ n ∧ buf.next + n ≤ buf.size →
    deserializeData buf n = .ok (some ((buf.b.drop buf.next.toNat).take n), buf.advance n)) ∧
  (¬ (1 ≤ n ∧ buf.next + n ≤ buf.size) → deserializeData buf n = .ok (none, buf))

theorem deserializeData_passes {n : Nat} (hn : n ≠ 0)
    (hpass : ¬ buf.size < wrap32 (wrap32 n + buf.next)) :
    deserializeData buf n = do
      let data ← memcpyFrom buf.b buf.next n
      return (some data, serializedBufferSerPosIncr buf (wrap32 n)) := by
  rw [deserializeData, if_neg hn, if_neg hpass]

theorem readExact_zero (buf : SerBuff) : ReadExact buf 0 :=
  ⟨fun ⟨hn, _⟩ => absurd hn (by omega), fun _ => if_pos rfl⟩

/-- A refused read is right: an end within `size` is not beyond it modulo `2^32` either. -/
theorem readExact_of_refused (h : buf.Shape) {n : Nat} (hcheck : buf.size < buf.wrappedEnd n ∧
    buf.wrappedEnd n < 2 ^ 31) : ReadExact buf n := by
  have hmax := h.size_le
  have hnext := h.next_nonneg
  have hrefuse : buf.size < wrap32 (wrap32 n + buf.next) :=
    not_not.1 (fun hpass => (passes_iff h n).1 hpass hcheck)
  refine ⟨fun ⟨_, hroom⟩ => ?_, fun _ => ?_⟩
  · have hend : buf.wrappedEnd n = buf.next + n := Int.emod_eq_of_lt (by omega) (by omega)
    omega
  · unfold deserializeData
    rw [if_pos hrefuse, ite_self]

/-- A read that passes the check is right when the bytes are in the block. -/
theorem readExact_of_inside (h : buf.Shape) {n : Nat} (hn : n ≠ 0)
    (hin : buf.next + n ≤ buf.b.length) : ReadExact buf n := by
  have hmax := h.size_le
  have hnext := h.next_nonneg
  have hblock := h.block_le
  have hpass : ¬ buf.size < wrap32 (wrap32 n + buf.next) := by
    rw [passes_iff h]
    have hend : buf.wrappedEnd n = buf.next + n := Int.emod_eq_of_lt (by omega) (by omega)
    omega
  have hcopy : memcpyFrom buf.b buf.next n = .ok ((buf.b.drop buf.next.toNat).take n) :=
    if_pos ⟨hnext, hin⟩
  have hw : wrap32 (n : Int) = n := wrap32_eq (by omega) (by omega)
  have hw' : wrap32 (buf.next + n) = buf.next + n := wrap32_eq (by omega) (by omega)
  refine ⟨fun _ => ?_, fun hno => absurd ⟨by omega, by omega⟩ hno⟩
  rw [deserializeData_passes hn hpass, hcopy]
  simp only [bind, Except.bind, pure, Except.pure, serializedBufferSerPosIncr, hw, hw',
    SerBuff.advance]

/-- Any other read that passes the check leaves the block. -/
theorem deserializeData_outside (h : buf.Shape) {n : Nat} (hn : n ≠ 0)
    (hcheck : ¬ (buf.size < buf.wrappedEnd n ∧ buf.wrappedEnd n < 2 ^ 31))
    (hout : ¬ buf.next + n ≤ buf.b.length) : deserializeData buf n = .error .outOfBlock := by
  have hcopy : memcpyFrom buf.b buf.next n = .error .outOfBlock := if_neg fun hin => hout hin.2
  rw [deserializeData_passes hn ((passes_iff h n).2 hcheck), hcopy]
  simp only [bind, Except.bind]

/-- What a read does when its check is exact is no fault. -/
theorem ReadExact.ne_error {n : Nat} {fault : Fault} (h : ReadExact buf n) :
    deserializeData buf n ≠ .error fault := by
  by_cases hroom : 1 ≤ n ∧ buf.next + n ≤ buf.size
  · simp [h.1 hroom]
  · simp [h.2 hroom]

end Check

section Runs

variable {α : Type} {env : Allocs} {codec : Codec α} {client : Prog α} {cfg : Config α}

/-- **The bound check of `deserialize_data` is exact** in a reachable state exactly for a
length that is zero, or leads to a place inside the block, or leads to a place that is beyond
`size` and below `2^31` also modulo `2^32`. -/
theorem read_bound_iff (h : Reachable (· = startConfig client) (FreeStep env codec) cfg)
    (h0 : 0 ≤ cfg.buf.next) (hle : cfg.buf.next ≤ cfg.buf.size) (n : Nat) :
    ReadExact cfg.buf n ↔ n = 0 ∨ cfg.buf.next + n ≤ cfg.buf.b.length ∨
      cfg.buf.size < (cfg.buf.next + n) % 2 ^ 32 ∧ (cfg.buf.next + n) % 2 ^ 32 < 2 ^ 31 := by
  have hshape := (aged_reachable h).shape h0 hle
  constructor
  · intro hexact
    by_contra hcond
    simp only [not_or] at hcond
    obtain ⟨hn, hout, hcheck⟩ := hcond
    exact hexact.ne_error (deserializeData_outside hshape hn hcheck hout)
  · intro hcond
    by_cases hn : n = 0
    · subst hn
      exact readExact_zero cfg.buf
    · rcases hcond.resolve_left hn with hin | hcheck
      · exact readExact_of_inside hshape hn hin
      · exact readExact_of_refused hshape hcheck

/-- The last two bytes of a fresh buffer can be read and three cannot. -/
theorem read_bound_iff_fresh : ∃ cfg : Config Int32, cfg.buf.next = 510 ∧
    ReadExact cfg.buf 2 ∧ ReadExact cfg.buf 3 := by
  have hskip : stepProg grantAll intCodec (startConfig peekAtEnd)
      = .ok ⟨{ freshBuffer with next := 510 }, .deserializeNull fun _ => .ret none, []⟩ := rfl
  have hstart : Reachable (· = startConfig peekAtEnd) (FreeStep grantAll intCodec)
      (startConfig peekAtEnd) := Reachable.start rfl
  have hiff := read_bound_iff (hstart.next hskip) (by decide) (by decide)
  refine ⟨_, rfl, (hiff 2).2 (.inr (.inl ?_)), (hiff 3).2 (.inr (.inr ?_))⟩
  · show (510 : Int) + (2 : Nat) ≤ freshBuffer.b.length
    rw [← freshBuffer_sound.block]
    decide
  · decide

/-- The length `2^32` is `0` as an `int`: the read passes the check of a fresh buffer and
leaves its block. -/
theorem long_read_passes : ¬ ReadExact freshBuffer (2 ^ 32) ∧
    deserializeData freshBuffer (2 ^ 32) = .error .outOfBlock := by
  have hout : deserializeData freshBuffer (2 ^ 32) = .error .outOfBlock :=
    deserializeData_outside freshBuffer_sound.toShape (by norm_num) (by decide)
      (by rw [← freshBuffer_sound.block]; decide)
  exact ⟨fun hexact => hexact.ne_error hout, hout⟩

end Runs

end CPlayground.Serial
