import CPlayground.Serial.Program

set_option autoImplicit false

/-! # Buffers with any history

What is left of the representation invariant when nothing is asked of the clients and of the
allocator. `size` is 512 times a power of two or has overflowed (`Sized`), and the block is no
longer than `size`; it is shorter when a `realloc` has failed. `aged_reachable` is the invariant
of every run; a cursor inside the buffer gives the shape back (`SerBuff.Aged.shape`).
-/

namespace CPlayground.Serial

/-! ## The values of `size` -/

/-- The values `size` can take: 512 times a power of two, or the overflow of `2^31`. -/
def Sized (buf : SerBuff) : Prop :=
  (∃ k ≤ 21, buf.size = 512 * 2 ^ k) ∨ buf.size = -2 ^ 31

/-- Every `realloc` was granted: the block is as long as `size` says. -/
def Granted (buf : SerBuff) : Prop := buf.size = buf.b.length

section History

variable {env : Allocs} {buf buf' : SerBuff}

theorem Sized.of_size (h : Sized buf) (hs : buf'.size = buf.size) : Sized buf' := by
  unfold Sized
  rw [hs]
  exact h

/-- What `serialized_buffer_resize` has done when it comes back. The block has the new size, or
it is the old one and `realloc` has refused. -/
theorem resize_cases {ratio : Int} (hok : serializedBufferResize env buf ratio = .ok buf') :
    buf'.size = wrap32 (buf.size * ratio) ∧ buf'.next = buf.next ∧ toSizeT buf'.size ≠ 0 ∧
      (buf'.b.length = toSizeT buf'.size ∨ buf'.b = buf.b ∧
        (env buf.reallocs = none ∨ PTRDIFF_MAX < toSizeT buf'.size)) := by
  obtain ⟨b, hb, hok⟩ := bind_eq_ok.1 hok
  unfold realloc at hb
  split_ifs at hb with h0 hmax
  · cases hb
    cases hok
    exact ⟨rfl, rfl, h0, .inr ⟨rfl, .inr hmax⟩⟩
  · cases henv : env buf.reallocs with
    | none =>
        rw [henv] at hb
        cases hb
        cases hok
        exact ⟨rfl, rfl, h0, .inr ⟨rfl, .inl rfl⟩⟩
    | some fill =>
        rw [henv] at hb
        cases hb
        cases hok
        refine ⟨rfl, rfl, h0, .inl ?_⟩
        simp only [List.length_append, List.length_take, List.length_map, List.length_range]
        omega

/-- One doubling. From `2^30` it overflows, and a second overflow would free the block. -/
theorem resize_doubles (h : Sized buf) (hok : serializedBufferResize env buf 2 = .ok buf') :
    0 < buf.size ∧ 2 * buf.size ≤ 2 ^ 30 ∧ buf'.size = 2 * buf.size ∨
      buf.size = 2 ^ 30 ∧ buf'.size = -2 ^ 31 := by
  obtain ⟨hs, -, hne, -⟩ := resize_cases hok
  rcases h with ⟨k, hk, hsize⟩ | hsize
  · have hpos : (0 : Int) < 512 * 2 ^ k := by positivity
    rcases Nat.lt_or_ge k 21 with hlt | hge
    -- the doubled size is below `2^31` still
    · have hnext := pow_le_of_le (k + 1) hlt
      have hdouble : (512 : Int) * 2 ^ (k + 1) = 512 * 2 ^ k * 2 := by ring
      left
      rw [hs, wrap32_eq (by omega) (by omega)]
      omega
    · right
      -- the largest size: the doubling wraps to the smallest `int`
      have hk21 : k = 21 := by omega
      subst hk21
      rw [hs, hsize]
      decide
  -- twice the smallest `int` is `0`, which `resize` does not come back from
  · exfalso
    rw [hs, hsize] at hne
    exact hne (by decide)

theorem resize_sized (h : Sized buf) (hok : serializedBufferResize env buf 2 = .ok buf') :
    Sized buf' := by
  rcases resize_doubles h hok with ⟨hpos, hmax, hs⟩ | ⟨-, hs⟩
  · left
    rcases h with ⟨k, hk, hsize⟩ | hsize
    · have hdouble : (512 : Int) * 2 ^ (k + 1) = 2 * (512 * 2 ^ k) := by ring
      refine ⟨k + 1, ?_, by rw [hs, hsize, hdouble]⟩
      exact exponent_lt k (by omega)
    · omega
  · exact Or.inr hs

variable {α : Type} {codec : Codec α} {cfg cfg' : Config α}

/-- **One step of any client.** -/
theorem stepProg_sized (h : Sized cfg.buf) (hok : stepProg env codec cfg = .ok cfg') :
    Sized cfg'.buf := by
  refine (stepProg_turns hok).invariant Sized (fun buf buf' hs hturn => ?_) h
  cases hturn with
  | resize hgrow => exact resize_sized hs hgrow
  | touch hsize => exact hs.of_size hsize

end History

/-! ## After any history -/

/-- What holds of a buffer whatever its clients have asked for. A failed `realloc` leaves the
block shorter than `size`, and an overflowed `size` is negative. -/
structure SerBuff.Aged (env : Allocs) (buf : SerBuff) : Prop where
  sized : Sized buf
  next_int : FitsInt buf.next
  block_le : 0 < buf.size → (buf.b.length : Int) ≤ buf.size
  granted : AllocsSucceed env → 0 < buf.size → Granted buf

section Aged

variable {env : Allocs} {buf buf' : SerBuff}

theorem resize_aged (h : buf.Aged env) (hok : serializedBufferResize env buf 2 = .ok buf') :
    buf'.Aged env := by
  obtain ⟨-, hnext, -, hblock⟩ := resize_cases hok
  have hint : FitsInt buf'.next := hnext ▸ h.next_int
  have hsized := resize_sized h.sized hok
  rcases resize_doubles h.sized hok with ⟨hpos, hmax, hs⟩ | ⟨-, hs⟩
  · have hold := h.block_le hpos
    have hn : toSizeT buf'.size = (2 * buf.size).toNat := by
      rw [hs, toSizeT_eq (by omega) (by omega)]
    refine ⟨hsized, hint, fun _ => ?_, fun henv _ => ?_⟩
    · rcases hblock with hlen | ⟨hb, -⟩
      · omega
      · rw [hb]
        omega
    -- with every request granted the block has the new size
    · rcases hblock with hlen | ⟨-, hfail | hbig⟩
      · unfold Granted
        omega
      · exact absurd hfail (henv _)
      · unfold PTRDIFF_MAX at hbig
        omega
  · exact ⟨hsized, hint, fun hpos => by omega, fun _ hpos => by omega⟩

theorem Turn.aged (h : buf.Aged env) (hturn : Turn env buf buf') : buf'.Aged env := by
  cases hturn with
  | resize hok => exact resize_aged h hok
  | touch hsize hblock hnext =>
      refine ⟨h.sized.of_size hsize, hnext, fun hpos => ?_, fun henv hpos => ?_⟩
      · rw [hsize] at hpos ⊢
        rw [hblock]
        exact h.block_le hpos
      · rw [hsize] at hpos
        have hgranted : buf.size = buf.b.length := h.granted henv hpos
        show buf'.size = buf'.b.length
        rw [hsize, hblock, hgranted]

/-- A cursor inside the buffer, whatever came before. -/
theorem SerBuff.Aged.shape (h : buf.Aged env) (h0 : 0 ≤ buf.next) (hle : buf.next ≤ buf.size) :
    buf.Shape := by
  rcases h.sized with ⟨k, hk, hs⟩ | hs
  · have hpos : (0 : Int) < 512 * 2 ^ k := by positivity
    exact ⟨⟨k, hk, hs⟩, h0, hle, h.block_le (hs ▸ hpos)⟩
  · omega

theorem SerBuff.Aged.sound (h : buf.Aged env) (henv : AllocsSucceed env) (h0 : 0 ≤ buf.next)
    (hle : buf.next ≤ buf.size) : buf.Sound := by
  have hshape := h.shape h0 hle
  have hge := hshape.size_ge
  exact ⟨hshape, h.granted henv (by omega)⟩

variable {α : Type} {codec : Codec α} {client : Prog α} {cfg : Config α}

/-- A step of a client that may ask for anything. -/
def FreeStep (env : Allocs) (codec : Codec α) (cfg cfg' : Config α) : Prop :=
  stepProg env codec cfg = .ok cfg'

/-- **Every history.** -/
theorem aged_reachable (h : Reachable (· = startConfig client) (FreeStep env codec) cfg) :
    cfg.buf.Aged env := by
  refine Reachable.invariant (fun c => c.buf.Aged env) ?_ ?_ h
  · rintro _ rfl
    have hfresh := freshBuffer_sound
    exact ⟨.inl hfresh.doubled, fitsInt_wrap32 0, fun _ => hfresh.block_le, fun _ _ => hfresh.block⟩
  · exact fun c c' _ haged hstep =>
      (stepProg_turns hstep).invariant _ (fun _ _ => Turn.aged) haged

end Aged

end CPlayground.Serial
