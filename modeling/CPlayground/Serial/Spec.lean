import CPlayground.Serial.Growth

set_option autoImplicit false

/-! # Specifications of the writers and readers

A writer appends to the bytes before the cursor (`Appends`), a reader consumes the bytes
ahead of it (`Ahead`, `SerBuff.advance`). A write that comes back has appended its bytes,
whatever the allocator does; when every request is granted and the bytes fit into `2^30` it
does come back. The callers cite these lemmas and never look into a loop.
-/

namespace CPlayground.Serial

/-! ## What a writer does -/

/-- `buf'` is `buf` after `bs` has been written at its cursor. -/
structure Appends (buf buf' : SerBuff) (bs : List Byte) : Prop where
  intact : buf'.Intact
  next : buf'.next = buf.next + bs.length
  written : buf'.b.take buf'.next.toNat = buf.b.take buf.next.toNat ++ bs

theorem Appends.refl {buf : SerBuff} (h : buf.Intact) : Appends buf buf [] :=
  ⟨h, by simp, by simp⟩

theorem Appends.trans {buf buf' buf'' : SerBuff} {bs cs : List Byte}
    (h : Appends buf buf' bs) (h' : Appends buf' buf'' cs) : Appends buf buf'' (bs ++ cs) where
  intact := h'.intact
  next := by
    rw [h'.next, h.next, List.length_append]
    omega
  written := by rw [h'.written, h.written, List.append_assoc]

section Writers

variable {env : Allocs} {buf : SerBuff}

theorem iterate_sound (henv : AllocsSucceed env) (h : buf.Sound) {k : Nat}
    (hk : buf.size * 2 ^ k ≤ 2 ^ 30) : ((double env)^[k] buf).Sound := by
  refine ⟨iterate_shape env h.toShape _ hk, ?_⟩
  cases k with
  | zero => exact h.block
  | succ k =>
      have hsz : buf.size * 2 ^ (k + 1) = 2 * (buf.size * 2 ^ k) := by ring
      have hge := h.size_ge
      have hpos : (0 : Int) < buf.size * 2 ^ k := by positivity
      have hs := iterate_shape env h.toShape k (by omega)
      rw [Function.iterate_succ_apply', (double_b_of_some env hs (henv _)).1, double_size]

/-- A copy into the block, and the bytes it leaves before its end. -/
theorem memcpyTo_eq (b : List Byte) (off : Int) (data : List Byte) (h1 : 0 ≤ off)
    (h2 : off + data.length ≤ b.length) :
    ∃ b', memcpyTo b off data = .ok b' ∧ b'.length = b.length ∧
      b'.take (off.toNat + data.length) = b.take off.toNat ++ data := by
  refine ⟨b.take off.toNat ++ data ++ b.drop (off.toNat + data.length), ?_, ?_, ?_⟩
  · rw [memcpyTo, if_pos ⟨h1, h2⟩]
  · simp only [List.length_append, List.length_take, List.length_drop]
    omega
  · rw [List.take_append_of_le_length, List.take_of_length_le]
    all_goals
      simp only [List.length_append, List.length_take]
      omega

/-- A copy that comes back was inside the block. -/
theorem memcpyTo_inside {b b' : List Byte} {off : Int} {data : List Byte}
    (h : memcpyTo b off data = .ok b') : 0 ≤ off ∧ off + data.length ≤ b.length := by
  by_contra hc
  simp [memcpyTo, if_neg hc] at h

/-- A growth loop with an allocator that grants every request: the bytes are kept, the cursor
stays, and there is room. -/
theorem growLoop_sound (henv : AllocsSucceed env) (h : buf.Sound) (room : SerBuff → Bool)
    (need : Int) (hneed : need ≤ 2 ^ 30)
    (hroom : ∀ buf' : SerBuff, buf'.Shape → buf'.next = buf.next →
      (room buf' = true ↔ need ≤ buf'.size)) :
    ∃ grown, growLoop env room growFuel buf = .ok grown ∧ grown.Sound ∧
      grown.next = buf.next ∧ need ≤ grown.size ∧ grown.b.take buf.b.length = buf.b := by
  obtain ⟨j, hj, hsize⟩ := h.doubled
  obtain ⟨k, hloop, hk, hmax, -⟩ := growLoop_eq_iterate env room need hneed growFuel buf
    h.toShape hroom ⟨j, hsize, by unfold growFuel; omega⟩
  exact ⟨_, hloop, iterate_sound henv h hmax, iterate_next env k, iterate_size env k ▸ hk,
    iterate_keeps env h.toShape hmax⟩

/-- The copy at the end of `serialize_data`, once there is room for it in `size`. -/
theorem copyIn_appends {grown buf' : SerBuff} {data : List Byte} (h : grown.Shape)
    (hroom : grown.next + data.length ≤ grown.size) (hok : copyIn grown data = .ok buf') :
    Appends grown buf' data ∧ buf'.b.length = grown.b.length ∧ buf'.size = grown.size := by
  obtain ⟨b', hcopy, hok⟩ := bind_eq_ok.1 hok
  have hin := memcpyTo_inside hcopy
  obtain ⟨b'', hcopy', hlen, htake⟩ := memcpyTo_eq _ _ _ hin.1 hin.2
  rw [hcopy'] at hcopy
  cases hcopy
  have hmax := h.size_le
  have hblock := h.block_le
  have hw : wrap32 (data.length : Int) = data.length := wrap32_eq (by omega) (by omega)
  have hw' : wrap32 (grown.next + data.length) = grown.next + data.length :=
    wrap32_eq (by omega) (by omega)
  simp only [serializedBufferSerPosIncr, hw, hw', pure, Except.pure, Except.ok.injEq] at hok
  subst hok
  -- neither the length nor the new cursor wraps around
  have hto : (grown.next + data.length).toNat = grown.next.toNat + data.length := by omega
  refine ⟨⟨⟨⟨h.doubled, ?_, hroom, ?_⟩, ?_⟩, rfl, ?_⟩, hlen, rfl⟩
  · show 0 ≤ grown.next + data.length
    omega
  · rw [hlen]
    exact hblock
  · show grown.next + data.length ≤ b'.length
    omega
  · show b'.take (grown.next + data.length).toNat = grown.b.take grown.next.toNat ++ data
    rw [hto, htake]

/-- Growing keeps the bytes before the cursor, so an append to the grown buffer is one to the
old buffer. -/
theorem Appends.of_grown {grown buf' : SerBuff} {data : List Byte} (h : buf.Intact)
    (hnext : grown.next = buf.next) (hpre : grown.b.take buf.b.length = buf.b)
    (happ : Appends grown buf' data) : Appends buf buf' data := by
  have hin := h.inBlock
  have hold : grown.b.take buf.next.toNat = buf.b.take buf.next.toNat :=
    take_of_kept hpre (by omega)
  exact ⟨happ.intact, by rw [happ.next, hnext], by rw [happ.written, hnext, hold]⟩

/-- The test of the loop of `serialize_data`, as a test for the `need`ed size. -/
theorem room_serializeData (data : List Byte) (buf' : SerBuff) (hs : buf'.Shape)
    (hn : buf'.next = buf.next) :
    decide (data.length ≤ toSizeT buf'.available) = true ↔
      buf.next + data.length ≤ buf'.size := by
  rw [decide_eq_true_eq, hs.room_data, hn]

/-- The exponent bound of `growLoop_eq_iterate`, for the fuel of the code's loops. -/
theorem fuel_enough (h : buf.Shape) : ∃ k, buf.size = 512 * 2 ^ k ∧ 21 ≤ growFuel + k := by
  obtain ⟨k, -, hs⟩ := h.doubled
  exact ⟨k, hs, by unfold growFuel; omega⟩

/-- What a `serialize_data` that comes back has done: it has doubled the buffer as often as
needed, below `2^30`, and appended its bytes to the result. -/
theorem serializeData_ok (env : Allocs) {buf' : SerBuff} {data : List Byte} (h : buf.Shape)
    (hok : serializeData env buf data = .ok buf') :
    ∃ k, buf.size * 2 ^ k ≤ 2 ^ 30 ∧ Appends ((double env)^[k] buf) buf' data := by
  obtain ⟨grown, hloop, hok⟩ := bind_eq_ok.1 hok
  by_cases hfit : buf.next + data.length ≤ 2 ^ 30
  · obtain ⟨k, hloop', hk, hmax, -⟩ := growLoop_eq_iterate env _ _ hfit growFuel buf h
      (room_serializeData data) (fuel_enough h)
    rw [hloop] at hloop'
    cases hloop'
    refine ⟨k, hmax, (copyIn_appends (iterate_shape env h k hmax) ?_ hok).1⟩
    rw [iterate_next, iterate_size]
    exact hk
  · -- past `2^30` the block is too short for the copy, whatever the overflowed loop says
    exfalso
    obtain ⟨hover, hnext⟩ := growLoop_beyond env (buf.next + data.length) (by omega) h
      (room_serializeData data) hloop
    have hb := hover.block_le
    have hc : ¬ (0 ≤ grown.next ∧ grown.next + data.length ≤ grown.b.length) := by omega
    simp [copyIn, memcpyTo, if_neg hc, bind, Except.bind] at hok

/-- **`serialize_data` appends its bytes** whenever it comes back, whatever `realloc` did. -/
theorem serializeData_appends (env : Allocs) {buf' : SerBuff} {data : List Byte}
    (h : buf.Intact) (hok : serializeData env buf data = .ok buf') : Appends buf buf' data := by
  obtain ⟨k, hmax, happ⟩ := serializeData_ok env h.toShape hok
  exact happ.of_grown h (iterate_next env k) (iterate_keeps env h.toShape hmax)

/-- **`serialize_data` comes back** when every request is granted. -/
theorem serializeData_spec (henv : AllocsSucceed env) (h : buf.Sound) (data : List Byte)
    (hfit : buf.next + data.length ≤ 2 ^ 30) :
    ∃ buf', serializeData env buf data = .ok buf' ∧ buf'.Sound ∧ Appends buf buf' data := by
  obtain ⟨grown, hloop, hsound, hnext, hroom, hpre⟩ := growLoop_sound henv h _ _ hfit
    (room_serializeData data)
  have h0 := h.next_nonneg
  have hblock := hsound.block
  obtain ⟨b', hcopy, -, -⟩ := memcpyTo_eq grown.b grown.next data (by omega) (by omega)
  have hrun : copyIn grown data
      = .ok (serializedBufferSerPosIncr { grown with b := b' } (wrap32 data.length)) :=
    bind_eq_ok.2 ⟨b', hcopy, rfl⟩
  obtain ⟨happ, hlen, hsize⟩ := copyIn_appends hsound.toShape (hnext ▸ hroom) hrun
  exact ⟨_, bind_eq_ok.2 ⟨grown, hloop, hrun⟩,
    ⟨happ.intact.toShape, by rw [hlen, hsize, hblock]⟩,
    happ.of_grown h.toIntact hnext hpre⟩

/-- A write that comes back has found room below `2^30`. -/
theorem serializeData_granted (henv : AllocsSucceed env) {buf' : SerBuff} {data : List Byte}
    (h : buf.Sound) (hok : serializeData env buf data = .ok buf') :
    buf'.Sound ∧ Appends buf buf' data := by
  have happ := serializeData_appends env h.toIntact hok
  have hfit : buf.next + data.length ≤ 2 ^ 30 :=
    calc buf.next + data.length = buf'.next := happ.next.symm
      _ ≤ buf'.size := happ.intact.next_le
      _ ≤ 2 ^ 30 := happ.intact.size_le
  -- below this bound the write comes to the same buffer, and no `realloc` fails
  obtain ⟨buf'', hok', hsound, -⟩ := serializeData_spec henv h data hfit
  rw [hok] at hok'
  cases hok'
  exact ⟨hsound, happ⟩

theorem sentinel_length : sentinel.length = 4 := rfl

theorem serializeNull_spec (henv : AllocsSucceed env) (h : buf.Sound)
    (hfit : buf.next + 4 ≤ 2 ^ 30) :
    ∃ buf', serializeNull env buf = .ok buf' ∧ buf'.Sound ∧ Appends buf buf' sentinel :=
  serializeData_spec henv h sentinel hfit

theorem serializeInt_spec (henv : AllocsSucceed env) (h : buf.Sound) (data : Int32)
    (hfit : buf.next + 4 ≤ 2 ^ 30) :
    ∃ buf', serializeInt env buf data = .ok buf' ∧ buf'.Sound ∧
      Appends buf buf' (intBytes data) :=
  serializeData_spec henv h (intBytes data) (by rw [intBytes_length]; exact hfit)

end Writers

/-! ## What a reader sees -/

/-- The bytes `bs` start at the cursor. -/
def Ahead (buf : SerBuff) (bs : List Byte) : Prop := bs <+: buf.b.drop buf.next.toNat

/-- The buffer with its cursor moved over `n` bytes. -/
def SerBuff.advance (buf : SerBuff) (n : Nat) : SerBuff := { buf with next := buf.next + n }

@[simp] theorem advance_zero (buf : SerBuff) : buf.advance 0 = buf := by
  simp [SerBuff.advance]

@[simp] theorem advance_advance (buf : SerBuff) (m n : Nat) :
    (buf.advance m).advance n = buf.advance (m + n) := by
  simp [SerBuff.advance, Int.add_assoc]

section Readers

variable {buf : SerBuff}

theorem Ahead.left {bs cs : List Byte} (ha : Ahead buf (bs ++ cs)) : Ahead buf bs :=
  (List.prefix_append bs cs).trans ha

/-- What is ahead of the cursor once the first part has been read. -/
theorem Ahead.right {bs cs : List Byte} (h : 0 ≤ buf.next) (ha : Ahead buf (bs ++ cs)) :
    Ahead (buf.advance bs.length) cs := by
  obtain ⟨rest, hr⟩ := ha
  have hto : (buf.next + bs.length).toNat = buf.next.toNat + bs.length := by omega
  refine ⟨rest, ?_⟩
  show cs ++ rest = buf.b.drop (buf.next + bs.length).toNat
  calc cs ++ rest = (bs ++ cs ++ rest).drop bs.length := by
        rw [List.append_assoc, List.drop_left]
    _ = (buf.b.drop buf.next.toNat).drop bs.length := by rw [hr]
    _ = buf.b.drop (buf.next + bs.length).toNat := by rw [List.drop_drop, hto]

theorem Ahead.length_le {bs : List Byte} (h : buf.Intact) (ha : Ahead buf bs) :
    buf.next + bs.length ≤ buf.b.length := by
  have hl := List.IsPrefix.length_le ha
  rw [List.length_drop] at hl
  have h1 := h.next_nonneg
  have h3 := h.inBlock
  omega

theorem Ahead.intact {bs : List Byte} (h : buf.Intact) (ha : Ahead buf bs) :
    (buf.advance bs.length).Intact := by
  have hl := ha.length_le h
  have h1 := h.next_nonneg
  have h2 := h.block_le
  exact ⟨⟨h.doubled, show 0 ≤ buf.next + bs.length by omega,
    show buf.next + bs.length ≤ buf.size by omega, h.block_le⟩, hl⟩

/-- A copy out of the block delivers the bytes ahead of the cursor. -/
theorem memcpyFrom_ahead {bs : List Byte} (h : buf.Intact) (ha : Ahead buf bs) :
    memcpyFrom buf.b buf.next bs.length = .ok bs := by
  have hl := ha.length_le h
  have h1 := h.next_nonneg
  rw [memcpyFrom, if_pos ⟨h1, by omega⟩, ← List.prefix_iff_eq_take.1 ha]

/-- **`deserialize_data` delivers the bytes ahead** when it is asked for some. -/
theorem deserializeData_spec {bs : List Byte} (h : buf.Intact) (ha : Ahead buf bs)
    (hne : bs ≠ []) :
    deserializeData buf bs.length = .ok (some bs, buf.advance bs.length) := by
  have hl := ha.length_le h
  have h1 := h.next_nonneg
  have hmax := h.size_le
  have hb := h.block_le
  have h0 : bs.length ≠ 0 := fun h => hne (List.length_eq_zero_iff.1 h)
  have hw : wrap32 (bs.length : Int) = bs.length := wrap32_eq (by omega) (by omega)
  have hw' : wrap32 ((bs.length : Int) + buf.next) = bs.length + buf.next :=
    wrap32_eq (by omega) (by omega)
  have hw'' : wrap32 (buf.next + bs.length) = buf.next + bs.length :=
    wrap32_eq (by omega) (by omega)
  rw [deserializeData, if_neg h0, hw, hw', if_neg (by omega), memcpyFrom_ahead h ha]
  simp only [bind, Except.bind, pure, Except.pure, serializedBufferSerPosIncr, hw'',
    SerBuff.advance]

/-- A step back of four bytes from a cursor that has just moved over them. -/
theorem skip_back (env : Allocs) (h : buf.Intact) :
    serializedBufferSkip env (buf.advance 4) (-4) = .ok buf := by
  have h1 := h.next_nonneg
  have h2 := h.next_le
  have h3 := h.size_le
  have hav : (buf.advance 4).available = buf.size - (buf.next + 4) := by
    show wrap32 (buf.size - (buf.next + 4)) = _
    exact wrap32_eq (by omega) (by omega)
  have hroom : decide (-4 ≤ (buf.advance 4).available) = true := by
    rw [decide_eq_true_eq, hav]
    omega
  have hw : wrap32 ((buf.advance 4).next + (-4)) = buf.next := by
    show wrap32 (buf.next + 4 + (-4)) = buf.next
    rw [wrap32_eq (by omega) (by omega)]
    omega
  simp only [serializedBufferSkip, growFuel, growLoop, hroom, if_true, bind, Except.bind, hw]
  rfl

theorem leWord_sentinel {bs : List Byte} (hlen : bs.length = 4) :
    leWord bs = 0xFFFFFFFF ↔ bs = sentinel := by
  have h := leWord_eq_iff bs 0xFFFFFFFF
  rw [hlen] at h
  exact h

/-- **`deserialize_null` on four bytes ahead** consumes a sentinel and leaves anything else. -/
theorem deserializeNull_spec (env : Allocs) {bs : List Byte} (h : buf.Intact)
    (ha : Ahead buf bs) (hlen : bs.length = 4) :
    deserializeNull env buf
      = if bs = sentinel then .ok (-1, buf.advance 4) else .ok (0, buf) := by
  have hne : bs ≠ [] := by
    rintro rfl
    simp at hlen
  have hread := deserializeData_spec h ha hne
  rw [hlen] at hread
  simp only [deserializeNull, hread, bind, Except.bind, Option.getD_some,
    leWord_sentinel hlen]
  split_ifs with hs
  · rfl
  · rw [skip_back env h]
    rfl

theorem deserializeInt_spec {v : Int32} (h : buf.Intact) (ha : Ahead buf (intBytes v)) :
    deserializeInt buf = .ok (v, buf.advance 4) := by
  have hl := ha.length_le h
  have h1 := h.next_nonneg
  have hmax := h.size_le
  have hb := h.block_le
  rw [intBytes_length] at hl
  have hcopy := memcpyFrom_ahead h ha
  rw [intBytes_length] at hcopy
  have hw : wrap32 (4 + buf.next) = 4 + buf.next := wrap32_eq (by omega) (by omega)
  have hw' : wrap32 (buf.next + 4) = buf.next + 4 := wrap32_eq (by omega) (by omega)
  rw [deserializeInt, hw, if_neg (by omega), hcopy]
  simp only [bind, Except.bind, pure, Except.pure, bytesInt_intBytes,
    serializedBufferSerPosIncr, hw']
  rfl

end Readers

/-! ## Between writing and reading -/

/-- What has been written from position `0` on is ahead after a reset. -/
theorem Appends.ahead_reset {buf buf' : SerBuff} {bs : List Byte} (happ : Appends buf buf' bs)
    (h0 : buf.next = 0) : Ahead (serializedBufferReset buf') bs := by
  have hw := happ.written
  have hto : buf.next.toNat = 0 := by rw [h0, Int.toNat_zero]
  rw [hto, List.take_zero, List.nil_append] at hw
  refine ⟨buf'.b.drop buf'.next.toNat, ?_⟩
  calc bs ++ buf'.b.drop buf'.next.toNat
      = buf'.b.take buf'.next.toNat ++ buf'.b.drop buf'.next.toNat := by rw [hw]
    _ = buf'.b := List.take_append_drop _ _

theorem intact_reset {buf : SerBuff} (h : buf.Intact) : (serializedBufferReset buf).Intact where
  doubled := h.doubled
  next_nonneg := le_refl _
  next_le := by
    have := h.size_ge
    show (0 : Int) ≤ buf.size
    omega
  block_le := h.block_le
  inBlock := Int.natCast_nonneg _

end CPlayground.Serial
