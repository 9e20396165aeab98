import CPlayground.Serial.Program

set_option autoImplicit false

/-! # When `realloc` fails

`serialized_buffer_resize` doubles `size` before it knows the outcome of `realloc`, and its
callers cannot see that it failed. The states a client can reach under an arbitrary allocator
still have one of two shapes (`reachable_reached`); `stays_sound_iff` says exactly when one
more growing operation leaves the buffer sound: the last `realloc` it makes has to succeed.
-/

namespace CPlayground.Serial

/-! ## Operations under an arbitrary allocator -/

/-- What is left of the representation invariant when `realloc` may fail. -/
def SerBuff.Reached (buf : SerBuff) : Prop := buf.Shape ∨ buf.Overflowed

section Reached

variable {env : Allocs} {buf buf' : SerBuff}

theorem SerBuff.Overflowed.of_same (h : buf.Overflowed) (hs : buf'.size = buf.size)
    (hb : buf'.b.length = buf.b.length) : buf'.Overflowed :=
  ⟨hs.trans h.size, hb ▸ h.block_le⟩

theorem copyIn_same {data : List Byte} (hok : copyIn buf data = .ok buf') :
    buf'.size = buf.size ∧ buf'.b.length = buf.b.length := by
  obtain ⟨b', hcopy, hok⟩ := bind_eq_ok.1 hok
  have hin := memcpyTo_inside hcopy
  obtain ⟨b'', hcopy', hlen, -⟩ := memcpyTo_eq _ _ _ hin.1 hin.2
  rw [hcopy'] at hcopy
  cases hcopy
  cases hok
  exact ⟨rfl, hlen⟩

theorem serializeData_reached {data : List Byte} (h : buf.Reached)
    (hok : serializeData env buf data = .ok buf') : buf'.Reached := by
  rcases h with h | h
  · obtain ⟨k, -, happ⟩ := serializeData_ok env h hok
    exact .inl happ.intact.toShape
  · obtain ⟨grown, hloop, hok⟩ := bind_eq_ok.1 hok
    rw [growLoop_overflowed env h hloop] at hok
    obtain ⟨hs, hb⟩ := copyIn_same hok
    exact .inr (h.of_same hs hb)

/-- A skip ends beyond `2^30` only with an overflowed `size`. -/
theorem skip_reached {size : Int} (h : buf.Shape) (hpos : 0 ≤ buf.next + size)
    (hok : serializedBufferSkip env buf size = .ok buf') : buf'.Reached := by
  obtain ⟨grown, hloop, hok⟩ := bind_eq_ok.1 hok
  cases hok
  have hroom : ∀ buf' : SerBuff, buf'.Shape → buf'.next = buf.next →
      (decide (size ≤ buf'.available) = true ↔ buf.next + size ≤ buf'.size) :=
    fun buf' hs hn => by rw [decide_eq_true_eq, hs.room_skip, hn]
  by_cases hfit : buf.next + size ≤ 2 ^ 30
  · obtain ⟨k, hloop', hk, hmax, -⟩ := growLoop_eq_iterate env _ _ hfit growFuel buf h hroom
      (fuel_enough h)
    rw [hloop] at hloop'
    cases hloop'
    -- within `2^30` the new cursor is an `int`
    have hw : wrap32 (((double env)^[k] buf).next + size) = buf.next + size := by
      rw [iterate_next, wrap32_eq (by omega) (by omega)]
    have hs := iterate_shape env h k hmax
    refine .inl ⟨hs.doubled, ?_, ?_, hs.block_le⟩ <;> simp only [hw]
    · exact hpos
    · rw [iterate_size]
      exact hk
  · obtain ⟨hover, -⟩ := growLoop_beyond env (buf.next + size) (by omega) h hroom hloop
    exact .inr (hover.of_same rfl rfl)

theorem skip_overflowed {size : Int} (h : buf.Overflowed)
    (hok : serializedBufferSkip env buf size = .ok buf') : buf'.Overflowed := by
  obtain ⟨grown, hloop, hok⟩ := bind_eq_ok.1 hok
  rw [growLoop_overflowed env h hloop] at hok
  cases hok
  exact h.of_same rfl rfl

/-- A copy out of the block that comes back has moved the cursor inside the block. -/
theorem incr_shape {n : Nat} {data : List Byte} (h : buf.Shape)
    (hcopy : memcpyFrom buf.b buf.next n = .ok data) :
    (serializedBufferSerPosIncr buf (wrap32 n)).Shape := by
  have hin : 0 ≤ buf.next ∧ buf.next + n ≤ buf.b.length := by
    by_contra hc
    simp [memcpyFrom, if_neg hc] at hcopy
  have hmax := h.size_le
  have hb := h.block_le
  have hw : wrap32 (n : Int) = n := wrap32_eq (by omega) (by omega)
  have hw' : wrap32 (buf.next + n) = buf.next + n := wrap32_eq (by omega) (by omega)
  refine ⟨h.doubled, ?_, ?_, h.block_le⟩ <;>
    simp only [serializedBufferSerPosIncr, hw, hw'] <;> omega

theorem deserializeData_reached {size : Nat} {dest : Option (List Byte)} (h : buf.Reached)
    (hok : deserializeData buf size = .ok (dest, buf')) : buf'.Reached := by
  rcases deserializeData_cases hok with rfl | ⟨-, ⟨data, hcopy⟩, rfl⟩
  · exact h
  · exact h.imp (fun h => incr_shape h hcopy) (fun h => h.of_same rfl rfl)

theorem deserializeInt_reached {v : Int32} (h : buf.Reached)
    (hok : deserializeInt buf = .ok (v, buf')) : buf'.Reached := by
  have h4 : wrap32 (4 : Nat) = 4 := by decide
  unfold deserializeInt at hok
  split_ifs at hok with hroom
  · cases hok
    exact h
  · obtain ⟨data, hcopy, hok⟩ := bind_eq_ok.1 hok
    cases hok
    exact h.imp (fun h => h4 ▸ incr_shape h hcopy) (fun h => h.of_same rfl rfl)

theorem deserializeNull_reached {result : Int32} (h : buf.Reached)
    (hok : deserializeNull env buf = .ok (result, buf')) : buf'.Reached := by
  rcases h with h | h
  · have hn := h.next_nonneg
    have hle := h.next_le
    have hge := h.size_ge
    have hmax := h.size_le
    by_cases hend : buf.size < buf.next + 4
    · -- refused: the cursor is beyond 508, so the step back stays in the buffer
      rw [deserializeNull_refused env h hend] at hok
      cases hok
      refine .inl ⟨h.doubled, ?_, ?_, h.block_le⟩
      · show 0 ≤ buf.next - 4
        omega
      · show buf.next - 4 ≤ buf.size
        omega
    · obtain ⟨dest, buf₁, hread, hend'⟩ := deserializeNull_cases hok
      have h4 : wrap32 (4 : Nat) = 4 := by decide
      have hw : wrap32 (4 + buf.next) = 4 + buf.next := wrap32_eq (by omega) (by omega)
      have hw' : wrap32 (buf.next + 4) = buf.next + 4 := wrap32_eq (by omega) (by omega)
      rw [deserializeData, if_neg (by omega), h4, hw, if_neg (by omega)] at hread
      obtain ⟨data, hcopy, hread⟩ := bind_eq_ok.1 hread
      cases hread
      have h₁ := incr_shape h hcopy
      rw [h4] at h₁
      rcases hend' with rfl | hskip
      · exact .inl h₁
      · refine skip_reached h₁ ?_ hskip
        simp only [serializedBufferSerPosIncr, hw']
        omega
  -- an overflowed `size` stays what it is: reads and the skip back do not resize
  · obtain ⟨dest, buf₁, hread, hend⟩ := deserializeNull_cases hok
    have h₁ : buf₁.Overflowed := by
      rcases deserializeData_cases hread with rfl | ⟨-, -, rfl⟩
      · exact h
      · exact h.of_same rfl rfl
    rcases hend with rfl | hskip
    · exact .inr h₁
    · exact .inr (skip_overflowed h₁ hskip)

end Reached

/-! ## All reachable states -/

section Machine

variable {α : Type} {env : Allocs} {codec : Codec α} {cfg cfg' : Config α}

/-- A step of a client that skips forward only; nothing is asked of `realloc` or of the
lengths. -/
def AnyStep (env : Allocs) (codec : Codec α) (cfg cfg' : Config α) : Prop :=
  SkipsForward cfg ∧ stepProg env codec cfg = .ok cfg'

/-- **One step** under an arbitrary allocator. -/
theorem stepProg_reached (h : cfg.buf.Reached) (hstep : AnyStep env codec cfg cfg') :
    cfg'.buf.Reached := by
  obtain ⟨hskip, hok⟩ := hstep
  have hmove := stepProg_move hok
  obtain ⟨buf, prog, stack⟩ := cfg
  generalize cfg'.buf = buf' at hmove ⊢
  cases hmove with
  | ret | enter => exact h
  | serializeData hw | serializeInt hw | serializeNull hw | serializeNone hw =>
      exact serializeData_reached h hw
  | deserializeData hr => exact deserializeData_reached h hr
  | deserializeInt hr => exact deserializeInt_reached h hr
  | deserializeNull hr | deserialize hr => exact deserializeNull_reached h hr
  | @skip size k _ hw =>
      rcases h with h | h
      · have hn : 0 ≤ buf.next := h.next_nonneg
        have hsize : 0 ≤ size := hskip
        have hpos : 0 ≤ buf.next + size := by omega
        exact skip_reached h hpos hw
      · exact .inr (skip_overflowed h hw)
  | reset =>
      rcases h with h | h
      · have hge : 512 ≤ buf.size := h.size_ge
        have hpos : 0 ≤ buf.size := by omega
        exact .inl ⟨h.doubled, le_refl _, hpos, h.block_le⟩
      · exact .inr (h.of_same rfl rfl)

theorem reachable_reached (client : Prog α)
    (h : Reachable (· = startConfig client) (AnyStep env codec) cfg) : cfg.buf.Reached := by
  refine Reachable.invariant (fun c => c.buf.Reached) ?_ ?_ h
  · rintro _ rfl
    exact .inl freshBuffer_sound.toShape
  · exact fun _ _ _ hr hstep => stepProg_reached hr hstep

/-- A reachable buffer whose `size` is the length of its block is sound. -/
theorem sound_of_reached {buf : SerBuff} (h : buf.Reached) (hsize : buf.size = buf.b.length) :
    buf.Sound := by
  rcases h with h | h
  · exact ⟨h, hsize⟩
  · have := h.size
    omega

end Machine

/-! ## One growing operation -/

/-- The operations that may call `realloc`. -/
inductive GrowOp
  | resize
  | skip (size : Int)
  | serialize (data : List Byte)

def GrowOp.run (env : Allocs) (buf : SerBuff) : GrowOp → Except Fault SerBuff
  | .resize => serializedBufferResize env buf 2
  | .skip size => serializedBufferSkip env buf size
  | .serialize data => serializeData env buf data

/-- The number of bytes the cursor is to move over. -/
def GrowOp.request : GrowOp → Int
  | .resize => 0
  | .skip size => size
  | .serialize data => data.length

/-- The operation comes back, so no byte outside the block has been written; `size` is the
length of the block, the bytes before the old cursor are unchanged, and the cursor has moved
only if the whole request fits in the block. -/
def StaysSound (env : Allocs) (buf : SerBuff) (op : GrowOp) : Prop :=
  ∃ buf', op.run env buf = .ok buf' ∧ buf'.size = buf'.b.length ∧
    buf'.b.take buf.next.toNat = buf.b.take buf.next.toNat ∧
    (buf'.next ≠ buf.next → buf.next + op.request ≤ buf'.b.length)

/-- The number of doublings the operation needs: one for a bare resize, otherwise the least
number that makes room for the request. -/
def GrowOp.Doublings (buf : SerBuff) (op : GrowOp) (k : Nat) : Prop :=
  match op with
  | .resize => k = 1
  | op => buf.next + op.request ≤ buf.size * 2 ^ k ∧
      ∀ j < k, buf.size * 2 ^ j < buf.next + op.request

/-- The doublings the operation needs stay within `2^30` bytes, and the last of their calls of
`realloc`, if there is one, succeeds. -/
def LastGranted (env : Allocs) (buf : SerBuff) (op : GrowOp) : Prop :=
  ∃ k, op.Doublings buf k ∧ buf.size * 2 ^ k ≤ 2 ^ 30 ∧
    (k = 0 ∨ env (buf.reallocs + (k - 1)) ≠ none)

section Grow

variable {env : Allocs} {buf : SerBuff}

/-- After `k` doublings `size` is the length of the block exactly when the last `realloc`
succeeded. -/
theorem iterate_block_iff (env : Allocs) (h : buf.Sound) {k : Nat}
    (hk : buf.size * 2 ^ k ≤ 2 ^ 30) :
    ((double env)^[k] buf).size = ((double env)^[k] buf).b.length ↔
      k = 0 ∨ env (buf.reallocs + (k - 1)) ≠ none := by
  cases k with
  | zero => simpa using h.block
  | succ k =>
      have hsz : buf.size * 2 ^ (k + 1) = 2 * (buf.size * 2 ^ k) := by ring
      have hge := h.size_ge
      have hpos : (0 : Int) < buf.size * 2 ^ k := by positivity
      -- whether the block has grown is up to the last `realloc`
      have hs := iterate_shape env h.toShape k (by omega)
      have hr : ((double env)^[k] buf).reallocs = buf.reallocs + k := iterate_reallocs env k
      rw [Function.iterate_succ_apply', double_size, Nat.add_sub_cancel]
      by_cases he : env (buf.reallocs + k) = none
      · have hb := double_b_of_none env (hr ▸ he)
        have hble := hs.block_le
        have hsge := hs.size_ge
        rw [hb]
        simp only [he, Nat.add_eq_zero_iff, one_ne_zero, and_false, ne_eq, not_true_eq_false,
          or_self, iff_false]
        omega
      · have hb := (double_b_of_some env hs (hr ▸ he)).1
        simp only [hb, he, ne_eq, not_false_eq_true, or_true]

/-- The least number of doublings is unique. -/
theorem doublings_unique {size need : Int} {k m : Nat} (hk : need ≤ size * 2 ^ k)
    (hk' : ∀ j < k, size * 2 ^ j < need) (hm : need ≤ size * 2 ^ m)
    (hm' : ∀ j < m, size * 2 ^ j < need) : k = m := by
  rcases Nat.lt_trichotomy k m with h | h | h
  · have := hm' k h
    omega
  · exact h
  · have := hk' m h
    omega

theorem resize_staysSound_iff (h : buf.Sound) :
    StaysSound env buf .resize ↔ LastGranted env buf .resize := by
  have hge := h.size_ge
  by_cases h2 : 2 * buf.size ≤ 2 ^ 30
  · have hrun := resize_eq_double env (by omega) h2
    have h1 : buf.size * 2 ^ 1 ≤ 2 ^ 30 := by omega
    have hblock := iterate_block_iff env h h1
    have hpre := double_keeps env h.toShape
    have hin := h.toIntact.inBlock
    constructor
    · rintro ⟨buf', hok, hsize, -, -⟩
      rw [GrowOp.run, hrun] at hok
      cases hok
      exact ⟨1, rfl, h1, hblock.1 hsize⟩
    · rintro ⟨k, rfl, -, hlast⟩
      refine ⟨double env buf, hrun, hblock.2 hlast, ?_, fun hne => absurd rfl hne⟩
      exact take_of_kept hpre (by omega)
  · constructor
    · rintro ⟨buf', hok, hsize, -, -⟩
      -- from `2^30` the doubled size is negative, which is no length
      obtain ⟨buf'', hok', hover, -⟩ := resize_top env h.toShape h2
      rw [GrowOp.run, hok'] at hok
      cases hok
      have := hover.size
      omega
    · rintro ⟨k, rfl, hk, -⟩
      omega

/-- The bytes before the cursor survive the doublings of an operation. -/
theorem iterate_take (h : buf.Sound) {k : Nat} (hk : buf.size * 2 ^ k ≤ 2 ^ 30) :
    ((double env)^[k] buf).b.take buf.next.toNat = buf.b.take buf.next.toNat := by
  have hin := h.toIntact.inBlock
  exact take_of_kept (iterate_keeps env h.toShape hk) (by omega)

theorem skip_staysSound_iff (h : buf.Sound) (size : Int) :
    StaysSound env buf (.skip size) ↔ LastGranted env buf (.skip size) := by
  have hnext := h.next_nonneg
  have hroom : ∀ buf' : SerBuff, buf'.Shape → buf'.next = buf.next →
      (decide (size ≤ buf'.available) = true ↔ buf.next + size ≤ buf'.size) :=
    fun buf' hs hn => by rw [decide_eq_true_eq, hs.room_skip, hn]
  by_cases hfit : buf.next + size ≤ 2 ^ 30
  · obtain ⟨k, hloop, hk, hmax, hleast⟩ := growLoop_eq_iterate env _ _ hfit growFuel buf
      h.toShape hroom (fuel_enough h.toShape)
    have hblock := iterate_block_iff env h hmax
    constructor
    · rintro ⟨buf', hok, hsize, -, -⟩
      obtain ⟨grown, hloop', hok⟩ := bind_eq_ok.1 hok
      rw [hloop] at hloop'
      cases hloop'
      cases hok
      exact ⟨k, ⟨hk, hleast⟩, hmax, hblock.1 hsize⟩
    · rintro ⟨m, ⟨hm, hm'⟩, -, hlast⟩
      -- the loop makes as many doublings as the condition speaks of
      obtain rfl := doublings_unique hk hleast hm hm'
      refine ⟨_, bind_eq_ok.2 ⟨_, hloop, rfl⟩, hblock.2 hlast, iterate_take h hmax, fun _ => ?_⟩
      show buf.next + size ≤ ((double env)^[k] buf).b.length
      rw [← hblock.2 hlast, iterate_size]
      exact hk
  · constructor
    · rintro ⟨buf', hok, hsize, -, -⟩
      obtain ⟨grown, hloop, hok⟩ := bind_eq_ok.1 hok
      obtain ⟨hover, -⟩ := growLoop_beyond env _ (by omega) h.toShape hroom hloop
      cases hok
      have := hover.size
      have : grown.size = grown.b.length := hsize
      omega
    · rintro ⟨k, ⟨hk, -⟩, hmax, -⟩
      have : buf.next + size ≤ buf.size * 2 ^ k := hk
      omega

/-- A write leaves the bytes before the old cursor alone. -/
theorem Appends.kept {buf' : SerBuff} {bs : List Byte} (h : buf.Intact)
    (happ : Appends buf buf' bs) : buf'.b.take buf.next.toNat = buf.b.take buf.next.toNat := by
  have h0 := h.next_nonneg
  have hin := h.inBlock
  have hnext := happ.next
  have hlen : (buf.b.take buf.next.toNat).length = buf.next.toNat := by
    rw [List.length_take]
    omega
  calc buf'.b.take buf.next.toNat
      = (buf'.b.take buf'.next.toNat).take buf.next.toNat := by
        rw [List.take_take, Nat.min_eq_left (by omega)]
    _ = (buf.b.take buf.next.toNat ++ bs).take buf.next.toNat := by rw [happ.written]
    _ = buf.b.take buf.next.toNat := List.take_left' hlen

theorem serialize_staysSound_iff (h : buf.Sound) (data : List Byte) :
    StaysSound env buf (.serialize data) ↔ LastGranted env buf (.serialize data) := by
  have hnext := h.next_nonneg
  by_cases hfit : buf.next + data.length ≤ 2 ^ 30
  · obtain ⟨k, hloop, hk, hmax, hleast⟩ := growLoop_eq_iterate env _ _ hfit growFuel buf
      h.toShape (room_serializeData data) (fuel_enough h.toShape)
    have hblock := iterate_block_iff env h hmax
    have hshape := iterate_shape env h.toShape k hmax
    have hroom : ((double env)^[k] buf).next + data.length ≤ ((double env)^[k] buf).size := by
      rw [iterate_next, iterate_size]
      exact hk
    constructor
    · rintro ⟨buf', hok, hsize, -, -⟩
      obtain ⟨grown, hloop', hok⟩ := bind_eq_ok.1 hok
      rw [hloop] at hloop'
      cases hloop'
      obtain ⟨-, hlen, hsz⟩ := copyIn_appends hshape hroom hok
      exact ⟨k, ⟨hk, hleast⟩, hmax, hblock.1 (by rw [← hsz, ← hlen, hsize])⟩
    · rintro ⟨m, ⟨hm, hm'⟩, -, hlast⟩
      obtain rfl := doublings_unique hk hleast hm hm'
      have hb := hblock.2 hlast
      obtain ⟨b', hcopy, -, -⟩ := memcpyTo_eq _ ((double env)^[k] buf).next data
        hshape.next_nonneg (hb ▸ hroom)
      have hrun : copyIn ((double env)^[k] buf) data = .ok _ := bind_eq_ok.2 ⟨b', hcopy, rfl⟩
      obtain ⟨happ, hlen, hsz⟩ := copyIn_appends hshape hroom hrun
      -- written behind the old cursor, after doublings that keep what is before it
      have hwhole := happ.of_grown h.toIntact (iterate_next env k)
        (iterate_keeps env h.toShape hmax)
      refine ⟨_, bind_eq_ok.2 ⟨_, hloop, hrun⟩, by rw [hsz, hlen, hb],
        hwhole.kept h.toIntact, fun _ => ?_⟩
      rw [hlen, ← hb, iterate_size]
      exact hk
  · constructor
    · rintro ⟨buf', hok, hsize, -, -⟩
      obtain ⟨grown, hloop, hok⟩ := bind_eq_ok.1 hok
      obtain ⟨hover, -⟩ := growLoop_beyond env _ (by omega) h.toShape
        (room_serializeData data) hloop
      have := hover.size
      have := (copyIn_same hok).1
      omega
    · rintro ⟨k, ⟨hk, -⟩, hmax, -⟩
      have : buf.next + data.length ≤ buf.size * 2 ^ k := hk
      omega

end Grow

/-- **Exactly when an operation leaves the buffer sound.** Of a reachable buffer with `size`
the length of its block, under an arbitrary allocator: the doublings the operation needs stay
within `2^30` bytes and the last of their calls of `realloc` succeeds. -/
theorem stays_sound_iff {α : Type} {env : Allocs} {codec : Codec α} {cfg : Config α}
    (client : Prog α) (h : Reachable (· = startConfig client) (AnyStep env codec) cfg)
    (hsize : cfg.buf.size = cfg.buf.b.length) (op : GrowOp) :
    StaysSound env cfg.buf op ↔ LastGranted env cfg.buf op := by
  have hs := sound_of_reached (reachable_reached client h) hsize
  cases op with
  | resize => exact resize_staysSound_iff hs
  | skip size => exact skip_staysSound_iff hs size
  | serialize data => exact serialize_staysSound_iff hs data

/-- An allocator whose first call of `realloc` fails. -/
def failFirst : Allocs := fun k => if k = 0 then none else some fun _ => 0

/-- 1200 bytes need two doublings of a fresh buffer; only the first of them fails. -/
theorem stays_sound_iff_second_granted :
    StaysSound failFirst freshBuffer (.serialize (List.replicate 1200 7)) := by
  have hlen : (List.replicate 1200 (7 : Byte)).length = 1200 := List.length_replicate
  refine (@stays_sound_iff _ failFirst intCodec _ (.ret none) (Reachable.start rfl)
    freshBuffer_sound.block _).2 ⟨2, ⟨?_, fun j hj => ?_⟩, ?_, .inr (Option.some_ne_none _)⟩
  · show (0 : Int) + (List.replicate 1200 (7 : Byte)).length ≤ 512 * 2 ^ 2
    omega
  · show (512 : Int) * 2 ^ j < 0 + (List.replicate 1200 (7 : Byte)).length
    have hj' : (2 : Int) ^ j ≤ 2 ^ 1 := pow_le_pow_right₀ (by norm_num) (by omega)
    omega
  · show (512 : Int) * 2 ^ 2 ≤ 2 ^ 30
    decide

/-- **The defect.** On a fresh buffer whose first `realloc` fails, a resize announces 1024
bytes for a block of 512, and a write of 600 bytes leaves the block. -/
theorem failed_resize_unsound :
    (∃ buf, GrowOp.run failFirst freshBuffer .resize = .ok buf ∧ buf.size = 1024 ∧
        buf.b.length = 512) ∧
      GrowOp.run failFirst freshBuffer (.serialize (List.replicate 600 7))
        = .error .outOfBlock ∧
      ¬ ∀ (env : Allocs) (cfg : Config Int32) (client : Prog Int32),
        Reachable (· = startConfig client) (AnyStep env intCodec) cfg →
        cfg.buf.size = cfg.buf.b.length → ∀ op, StaysSound env cfg.buf op := by
  have hres : GrowOp.run failFirst freshBuffer .resize
      = .ok { freshBuffer with size := 1024, reallocs := 1 } := rfl
  have hlen : freshBuffer.b.length = 512 := List.length_replicate
  refine ⟨⟨_, hres, rfl, hlen⟩, ?_, fun hall => ?_⟩
  · generalize hdata : List.replicate 600 (7 : Byte) = data
    have hd : data.length = 600 := hdata ▸ List.length_replicate
    have hloop : growLoop failFirst (fun buf => decide (data.length ≤ toSizeT buf.available))
        growFuel freshBuffer = .ok { freshBuffer with size := 1024, reallocs := 1 } := by
      rw [hd]
      rfl
    have hout : memcpyTo freshBuffer.b 0 data = .error .outOfBlock := if_neg (by omega)
    simp only [GrowOp.run, serializeData, hloop, copyIn, bind, Except.bind]
    rw [show freshBuffer.next = 0 from rfl, hout]
  · obtain ⟨buf, hok, hsize, -, -⟩ := hall failFirst _ (.ret none) (Reachable.start rfl)
      freshBuffer_sound.block .resize
    cases hres.symm.trans hok
    rw [hlen] at hsize
    exact absurd hsize (by decide)

end CPlayground.Serial
