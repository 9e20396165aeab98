import CPlayground.Serial.Buffer
import Mathlib.Logic.Function.Iterate

set_option autoImplicit false

/-! # The growth of the buffer

The size of a buffer is 512 times a power of two, and below `2^30` a doubling neither
overflows nor asks `realloc` for more than it may grant: `serialized_buffer_resize` is the
total function `double` there. A growth loop that looks for a room of `need ≤ 2^30` bytes is
an iterate of `double`, with the least number of doublings that suffices
(`growLoop_eq_iterate`). This holds for every behaviour of the allocator.
-/

namespace CPlayground.Serial

/-! ## The shape of a buffer -/

/-- What holds of `size` and `next` whether or not the allocator has failed before. -/
structure SerBuff.Shape (buf : SerBuff) : Prop where
  doubled : ∃ k ≤ 21, buf.size = 512 * 2 ^ k
  next_nonneg : 0 ≤ buf.next
  next_le : buf.next ≤ buf.size
  block_le : (buf.b.length : Int) ≤ buf.size

/-- The representation invariant: `size` is the length of the block `b` points to. -/
structure SerBuff.Sound (buf : SerBuff) : Prop extends buf.Shape where
  block : buf.size = buf.b.length

/-- The bytes before the cursor are in the block, even if the allocator has failed. -/
structure SerBuff.Intact (buf : SerBuff) : Prop extends buf.Shape where
  inBlock : buf.next ≤ buf.b.length

theorem SerBuff.Sound.toIntact {buf : SerBuff} (h : buf.Sound) : buf.Intact :=
  ⟨h.toShape, h.block ▸ h.next_le⟩

/-- A buffer whose `size` has overflowed to `-2^31`. -/
structure SerBuff.Overflowed (buf : SerBuff) : Prop where
  size : buf.size = -2 ^ 31
  block_le : buf.b.length ≤ 2 ^ 30

theorem pow_le_of_le (k : Nat) (h : k ≤ 21) : (512 : Int) * 2 ^ k ≤ 2 ^ 30 := by
  have : (2 : Int) ^ k ≤ 2 ^ 21 := pow_le_pow_right₀ (by norm_num) h
  omega

/-- A size below `2^30` can be doubled once more. -/
theorem exponent_lt (k : Nat) (h : (512 : Int) * 2 ^ k < 2 ^ 30) : k < 21 := by
  by_contra hk
  have : (2 : Int) ^ 21 ≤ 2 ^ k := pow_le_pow_right₀ (by norm_num) (by omega)
  omega

namespace SerBuff.Shape

variable {buf : SerBuff}

theorem size_le (h : buf.Shape) : buf.size ≤ 2 ^ 30 := by
  obtain ⟨k, hk, hs⟩ := h.doubled
  rw [hs]
  exact pow_le_of_le k hk

theorem size_ge (h : buf.Shape) : 512 ≤ buf.size := by
  obtain ⟨k, -, hs⟩ := h.doubled
  have : (1 : Int) ≤ 2 ^ k := one_le_pow₀ (by norm_num)
  omega

theorem available_eq (h : buf.Shape) : buf.available = buf.size - buf.next := by
  have h1 := h.size_le
  have h2 := h.next_nonneg
  have h3 := h.next_le
  exact wrap32_eq (by omega) (by omega)

/-- The test of the loop in `serialize_data`, in mathematical integers. -/
theorem room_data (h : buf.Shape) (n : Nat) :
    n ≤ toSizeT buf.available ↔ buf.next + n ≤ buf.size := by
  have h1 := h.size_le
  have h2 := h.next_nonneg
  have h3 := h.next_le
  rw [h.available_eq, toSizeT_eq (by omega) (by omega)]
  omega

/-- The test of the loop in `serialized_buffer_skip`, in mathematical integers. -/
theorem room_skip (h : buf.Shape) (n : Int) :
    n ≤ buf.available ↔ buf.next + n ≤ buf.size := by
  rw [h.available_eq]
  omega

end SerBuff.Shape

theorem freshBuffer_sound : freshBuffer.Sound where
  doubled := ⟨0, by omega, rfl⟩
  next_nonneg := le_refl _
  next_le := by decide
  block_le := by simp [freshBuffer]
  block := by simp [freshBuffer]

/-! ## One doubling -/

/-- `serialized_buffer_resize` by 2 without overflow. -/
def double (env : Allocs) (buf : SerBuff) : SerBuff where
  b := match env buf.reallocs with
    | none => buf.b
    | some fill => buf.b.take (2 * buf.size).toNat
        ++ (List.range ((2 * buf.size).toNat - buf.b.length)).map fill
  size := 2 * buf.size
  next := buf.next
  reallocs := buf.reallocs + 1

theorem resize_eq_double (env : Allocs) {buf : SerBuff} (h1 : 0 < buf.size)
    (h2 : 2 * buf.size ≤ 2 ^ 30) :
    serializedBufferResize env buf 2 = .ok (double env buf) := by
  have hw : wrap32 (buf.size * 2) = 2 * buf.size := by
    rw [wrap32_eq (by omega) (by omega), mul_comm]
  have hn : toSizeT (2 * buf.size) = (2 * buf.size).toNat := toSizeT_eq (by omega) (by omega)
  have h0 : (2 * buf.size).toNat ≠ 0 := by omega
  have hmax : ¬ PTRDIFF_MAX < (2 * buf.size).toNat := by unfold PTRDIFF_MAX; omega
  simp only [serializedBufferResize, realloc, hw, hn, if_neg h0, if_neg hmax]
  cases he : env buf.reallocs <;> simp [double, he, bind, Except.bind, pure, Except.pure]

/-- Bytes that are kept keep their beginning. -/
theorem take_of_kept {b b' : List Byte} {n : Nat} (hkeep : b'.take b.length = b)
    (hn : n ≤ b.length) : b'.take n = b.take n := by
  calc b'.take n = (b'.take b.length).take n := by rw [List.take_take, Nat.min_eq_left hn]
    _ = b.take n := by rw [hkeep]

section Double

variable (env : Allocs) {buf : SerBuff}

@[simp] theorem double_next : (double env buf).next = buf.next := rfl
@[simp] theorem double_size : (double env buf).size = 2 * buf.size := rfl
@[simp] theorem double_reallocs : (double env buf).reallocs = buf.reallocs + 1 := rfl

/-- A failed `realloc` leaves the block alone. -/
theorem double_b_of_none (he : env buf.reallocs = none) : (double env buf).b = buf.b := by
  simp [double, he]

/-- A granted `realloc` keeps the old bytes in front. -/
theorem double_b_of_some (h : buf.Shape) (he : env buf.reallocs ≠ none) :
    ((double env buf).b.length : Int) = 2 * buf.size ∧
      (double env buf).b.take buf.b.length = buf.b := by
  obtain ⟨fill, hf⟩ := Option.ne_none_iff_exists'.mp he
  have h1 := h.block_le
  have hle : buf.b.length ≤ (2 * buf.size).toNat := by omega
  have htake : buf.b.take (2 * buf.size).toNat = buf.b := List.take_of_length_le hle
  simp only [double, hf, htake]
  refine ⟨?_, ?_⟩
  · rw [List.length_append, List.length_map, List.length_range]
    omega
  · rw [List.take_append_of_le_length (le_refl _), List.take_length]

theorem double_keeps (h : buf.Shape) :
    (double env buf).b.take buf.b.length = buf.b := by
  by_cases he : env buf.reallocs = none
  · rw [double_b_of_none env he, List.take_length]
  · exact (double_b_of_some env h he).2

theorem double_shape (h : buf.Shape) (h2 : 2 * buf.size ≤ 2 ^ 30) :
    (double env buf).Shape := by
  obtain ⟨k, hk, hs⟩ := h.doubled
  have h3 := h.next_nonneg
  have h4 := h.next_le
  refine ⟨⟨k + 1, ?_, ?_⟩, h3, ?_, ?_⟩
  · have := exponent_lt k (by omega)
    omega
  · rw [double_size, hs]
    ring
  · rw [double_next, double_size]
    have := h.size_ge
    omega
  · by_cases he : env buf.reallocs = none
    · rw [double_b_of_none env he, double_size]
      have := h.block_le
      have := h.size_ge
      omega
    · rw [(double_b_of_some env h he).1, double_size]

end Double

/-! ## Several doublings -/

section Iterate

variable (env : Allocs) {buf : SerBuff}

theorem iterate_next (k : Nat) : ((double env)^[k] buf).next = buf.next := by
  induction k with
  | zero => rfl
  | succ k ih => rw [Function.iterate_succ_apply', double_next, ih]

theorem iterate_size (k : Nat) : ((double env)^[k] buf).size = buf.size * 2 ^ k := by
  induction k with
  | zero => simp
  | succ k ih =>
      rw [Function.iterate_succ_apply', double_size, ih]
      ring

theorem iterate_reallocs (k : Nat) : ((double env)^[k] buf).reallocs = buf.reallocs + k := by
  induction k with
  | zero => rfl
  | succ k ih => rw [Function.iterate_succ_apply', double_reallocs, ih, Nat.add_assoc]

theorem iterate_shape (h : buf.Shape) (k : Nat) (hk : buf.size * 2 ^ k ≤ 2 ^ 30) :
    ((double env)^[k] buf).Shape := by
  induction k with
  | zero => exact h
  | succ k ih =>
      have hsz : buf.size * 2 ^ (k + 1) = 2 * (buf.size * 2 ^ k) := by ring
      have hge := h.size_ge
      have hpos : (0 : Int) < buf.size * 2 ^ k := by positivity
      rw [Function.iterate_succ_apply']
      refine double_shape env (ih (by omega)) ?_
      rw [iterate_size]
      omega

/-- The old bytes survive every number of doublings. -/
theorem iterate_keeps (h : buf.Shape) {k : Nat} (hk : buf.size * 2 ^ k ≤ 2 ^ 30) :
    ((double env)^[k] buf).b.take buf.b.length = buf.b := by
  induction k with
  | zero => exact List.take_length
  | succ k ih =>
      have hsz : buf.size * 2 ^ (k + 1) = 2 * (buf.size * 2 ^ k) := by ring
      have hge := h.size_ge
      have hpos : (0 : Int) < buf.size * 2 ^ k := by positivity
      have hprev := ih (by omega)
      -- what the first doublings kept, the next one keeps
      have hle : buf.b.length ≤ ((double env)^[k] buf).b.length := by
        have := congrArg List.length hprev
        rw [List.length_take] at this
        omega
      have hstep := double_keeps env (iterate_shape env h k (by omega))
      rw [Function.iterate_succ_apply']
      calc (double env ((double env)^[k] buf)).b.take buf.b.length
          = ((double env)^[k] buf).b.take buf.b.length := take_of_kept hstep hle
        _ = buf.b := hprev

end Iterate

/-! ## The growth loop -/

/-- **The growth loop below `2^30`.** A loop whose test looks for `need` bytes makes the
least number of doublings that reaches `need`. -/
theorem growLoop_eq_iterate (env : Allocs) (room : SerBuff → Bool) (need : Int)
    (hneed : need ≤ 2 ^ 30) (fuel : Nat) (buf : SerBuff) (h : buf.Shape)
    (hroom : ∀ buf' : SerBuff, buf'.Shape → buf'.next = buf.next →
      (room buf' = true ↔ need ≤ buf'.size))
    (hfuel : ∃ k, buf.size = 512 * 2 ^ k ∧ 21 ≤ fuel + k) :
    ∃ k, growLoop env room fuel buf = .ok ((double env)^[k] buf) ∧
      need ≤ buf.size * 2 ^ k ∧ buf.size * 2 ^ k ≤ 2 ^ 30 ∧
      ∀ j < k, buf.size * 2 ^ j < need := by
  induction fuel generalizing buf with
  | zero =>
      obtain ⟨k, hk, hf⟩ := hfuel
      -- out of fuel the size is `2^30` already
      have hbig : (2 : Int) ^ 21 ≤ 2 ^ k := pow_le_pow_right₀ (by norm_num) (by omega)
      have hr : room buf = true := (hroom buf h rfl).2 (by omega)
      refine ⟨0, ?_, by omega, ?_, fun j hj => absurd hj (by omega)⟩
      · simp [growLoop, hr]
      · have := h.size_le
        omega
  | succ fuel ih =>
      by_cases hr : room buf = true
      · have hle := (hroom buf h rfl).1 hr
        refine ⟨0, ?_, by omega, ?_, fun j hj => absurd hj (by omega)⟩
        · simp [growLoop, hr]
        · have := h.size_le
          omega
      -- no room yet: one doubling, then as many as the rest of the loop makes
      · have hlt : buf.size < need := not_le.1 (fun hle => hr ((hroom buf h rfl).2 hle))
        obtain ⟨k, hk, hf⟩ := hfuel
        have hk21 : k < 21 := exponent_lt k (by omega)
        have hnext : (512 : Int) * 2 ^ (k + 1) = 2 * buf.size := by rw [hk]; ring
        have h2 : 2 * buf.size ≤ 2 ^ 30 := hnext ▸ pow_le_of_le _ (by omega)
        have hge := h.size_ge
        obtain ⟨m, he, hm1, hm2, hm3⟩ := ih (double env buf) (double_shape env h h2)
          (fun buf' hs hn => hroom buf' hs hn) ⟨k + 1, by rw [double_size, hnext], by omega⟩
        have hshift : ∀ i, (double env buf).size * 2 ^ i = buf.size * 2 ^ (i + 1) := by
          intro i
          calc (double env buf).size * 2 ^ i = 2 * buf.size * 2 ^ i := by rw [double_size]
            _ = buf.size * 2 ^ (i + 1) := by ring
        refine ⟨m + 1, ?_, hshift m ▸ hm1, hshift m ▸ hm2, ?_⟩
        · rw [growLoop, if_neg hr, resize_eq_double env (by omega) h2]
          exact he
        · intro j hj
          cases j with
          | zero => simpa using hlt
          | succ j => exact hshift j ▸ hm3 j (by omega)

/-! ## Beyond `2^30`

The doubling of `2^30` overflows to `-2^31`, for which `realloc` always fails; the next one
gives `0` and frees the block. So a loop that looks for more than `2^30` bytes ends in a fault
or with an overflowed `size`. -/

section Overflow

variable (env : Allocs) {buf grown : SerBuff} {room : SerBuff → Bool} {fuel : Nat}

theorem resize_top (h : buf.Shape) (hs : ¬ 2 * buf.size ≤ 2 ^ 30) :
    ∃ buf', serializedBufferResize env buf 2 = .ok buf' ∧ buf'.Overflowed ∧
      buf'.next = buf.next := by
  obtain ⟨k, hk, hsize⟩ := h.doubled
  -- the largest size there is, so the doubling overflows
  have hk21 : k = 21 := by
    by_contra hne
    have := pow_le_of_le (k + 1) (by omega)
    rw [pow_succ] at this
    omega
  have htop : buf.size = 2 ^ 30 := by rw [hsize, hk21]; norm_num
  have hw : wrap32 (buf.size * 2) = -2 ^ 31 := by rw [htop]; decide
  have hmax : PTRDIFF_MAX < toSizeT (-2 ^ 31) := by decide
  have h0 : toSizeT (-2 ^ 31) ≠ 0 := by decide
  have hb := h.block_le
  refine ⟨{ buf with size := -2 ^ 31, reallocs := buf.reallocs + 1 }, ?_, ⟨rfl, ?_⟩, rfl⟩
  · simp only [serializedBufferResize, realloc, hw, if_neg h0, if_pos hmax]
    rfl
  · show buf.b.length ≤ 2 ^ 30
    omega

theorem resize_overflowed (h : buf.Overflowed) :
    serializedBufferResize env buf 2 = .error .freed := by
  have hw : wrap32 (buf.size * 2) = 0 := by rw [h.size]; decide
  have h0 : toSizeT 0 = 0 := by decide
  simp only [serializedBufferResize, realloc, hw, h0, if_true]
  rfl

/-- From an overflowed `size` the loop ends at once or frees the block. -/
theorem growLoop_overflowed (h : buf.Overflowed) (hok : growLoop env room fuel buf = .ok grown) :
    grown = buf := by
  cases fuel with
  | zero =>
      by_cases hr : room buf = true <;> simp [growLoop, hr] at hok
      exact hok.symm
  | succ fuel =>
      by_cases hr : room buf = true
      · simp [growLoop, hr] at hok
        exact hok.symm
      -- one more doubling gives `0`, and `realloc` frees the block
      · rw [growLoop, if_neg hr, resize_overflowed env h] at hok
        simp [bind, Except.bind] at hok

/-- A loop that looks for more than `2^30` bytes can only end overflowed. -/
theorem growLoop_beyond (need : Int) (hneed : 2 ^ 30 < need) (h : buf.Shape)
    (hroom : ∀ buf' : SerBuff, buf'.Shape → buf'.next = buf.next →
      (room buf' = true ↔ need ≤ buf'.size))
    (hok : growLoop env room fuel buf = .ok grown) :
    grown.Overflowed ∧ grown.next = buf.next := by
  induction fuel generalizing buf with
  | zero =>
      have hr : ¬ room buf = true := by
        have := h.size_le
        rw [hroom buf h rfl]
        omega
      simp [growLoop, hr] at hok
  | succ fuel ih =>
      have hr : ¬ room buf = true := by
        have := h.size_le
        rw [hroom buf h rfl]
        omega
      have hge := h.size_ge
      rw [growLoop, if_neg hr] at hok
      by_cases h2 : 2 * buf.size ≤ 2 ^ 30
      · rw [resize_eq_double env (by omega) h2] at hok
        have hend := ih (double_shape env h h2) (fun buf' hs hn => hroom buf' hs hn) hok
        exact hend
      · obtain ⟨buf', hres, hover, hnext⟩ := resize_top env h h2
        rw [hres] at hok
        rw [growLoop_overflowed env hover hok]
        exact ⟨hover, hnext⟩

theorem growLoop_overflowed_ne_endless (h : buf.Overflowed) (hfuel : fuel ≠ 0) :
    growLoop env room fuel buf ≠ .error .endless := by
  obtain ⟨fuel, rfl⟩ := Nat.exists_eq_succ_of_ne_zero hfuel
  by_cases hr : room buf = true
  · simp [growLoop, hr]
  · rw [growLoop, if_neg hr, resize_overflowed env h]
    simp [bind, Except.bind]

/-- **The bound on the number of doublings is never reached.** -/
theorem growLoop_ne_endless (h : buf.Shape)
    (hfuel : ∃ k, buf.size = 512 * 2 ^ k ∧ 23 ≤ fuel + k) :
    growLoop env room fuel buf ≠ .error .endless := by
  induction fuel generalizing buf with
  | zero =>
      obtain ⟨k, hk, hf⟩ := hfuel
      have := h.size_le
      -- a size of 21 doublings or more is past `2^30`
      have := exponent_lt (k - 2) (by
        have : (2 : Int) ^ k = 2 ^ (k - 2) * 4 := by
          rw [show (4 : Int) = 2 ^ 2 by norm_num, ← pow_add, Nat.sub_add_cancel (by omega)]
        omega)
      omega
  | succ fuel ih =>
      by_cases hr : room buf = true
      · simp [growLoop, hr]
      · obtain ⟨k, hk, hf⟩ := hfuel
        have hge := h.size_ge
        rw [growLoop, if_neg hr]
        by_cases h2 : 2 * buf.size ≤ 2 ^ 30
        · rw [resize_eq_double env (by omega) h2]
          exact ih (double_shape env h h2) ⟨k + 1, by rw [double_size, hk]; ring, by omega⟩
        · obtain ⟨buf', hres, hover, -⟩ := resize_top env h h2
          rw [hres]
          refine growLoop_overflowed_ne_endless env hover ?_
          rintro rfl
          have := h.size_le
          have := exponent_lt (k - 1) (by
            have : (2 : Int) ^ k = 2 ^ (k - 1) * 2 := by
              rw [← pow_succ, Nat.sub_add_cancel (by omega)]
            omega)
          omega

end Overflow

end CPlayground.Serial
