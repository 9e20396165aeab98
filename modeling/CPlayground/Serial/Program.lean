import CPlayground.Basic.Run
import CPlayground.Serial.Codec

set_option autoImplicit false

/-! # Programs over a buffer

A client of a buffer, and each function of its codec pair, is a program of the operations
`serialize_data` to `serialized_buffer_reset` that may depend on every value read so far. The
machine `stepProg` runs a client: a call of `serialize` or `deserialize` enters the program of
the codec, so the states inside a codec are states of the machine too, and a codec may call
`serialize` again. `buffer_invariant` is the representation invariant of all reachable states.
-/

namespace CPlayground.Serial

/-! ## Programs and their machine -/

/-- A program over a buffer whose codec handles objects of type `α`. It ends with the value
`deserialize` returns from a reader, and with any value from a writer. -/
inductive Prog (α : Type) : Type
  | ret (result : Option α)
  | serializeData (data : List Byte) (k : Prog α)
  | serializeInt (data : Int32) (k : Prog α)
  | serializeNull (k : Prog α)
  | serialize (data : Option α) (k : Prog α)
  | deserializeData (size : Nat) (k : Option (List Byte) → Prog α)
  | deserializeInt (k : Int32 → Prog α)
  | deserializeNull (k : Int32 → Prog α)
  | deserialize (k : Option α → Prog α)
  | skip (size : Int) (k : Prog α)
  | reset (k : Prog α)

/-- The two functions given to `serialized_buffer_create`, as programs. -/
structure Codec (α : Type) where
  serFunc : α → Prog α
  dserFunc : Prog α

/-- The buffer, the program that runs, and the programs that wait for its result. -/
structure Config (α : Type) where
  buf : SerBuff
  prog : Prog α
  stack : List (Option α → Prog α)

/-- A client on a fresh buffer. -/
def startConfig {α : Type} (client : Prog α) : Config α := ⟨freshBuffer, client, []⟩

/-- A client that `serialized_buffer_create` has given its buffer. -/
def Created {α : Type} (cfg : Config α) : Prop :=
  ∃ serBufOk blockOk buf client, serializedBufferCreate serBufOk blockOk = some buf ∧
    cfg = ⟨buf, client, []⟩

/-- **A client begins on a fresh buffer**, or it has no buffer at all. -/
theorem created_iff {α : Type} {cfg : Config α} :
    Created cfg ↔ ∃ client, cfg = startConfig client := by
  constructor
  · rintro ⟨serBufOk, blockOk, buf, client, hcreate, rfl⟩
    refine ⟨client, ?_⟩
    unfold serializedBufferCreate at hcreate
    split_ifs at hcreate
    cases hcreate
    rfl
  · rintro ⟨client, rfl⟩
    exact ⟨true, true, freshBuffer, client, rfl, rfl⟩

/-- One operation. A finished client stays where it is. -/
def stepProg {α : Type} (env : Allocs) (codec : Codec α) (cfg : Config α) :
    Except Fault (Config α) :=
  match cfg.prog with
  | .ret result =>
      match cfg.stack with
      | [] => .ok cfg
      | k :: stack => .ok ⟨cfg.buf, k result, stack⟩
  | .serializeData data k => do return ⟨← serializeData env cfg.buf data, k, cfg.stack⟩
  | .serializeInt data k => do return ⟨← serializeInt env cfg.buf data, k, cfg.stack⟩
  | .serializeNull k => do return ⟨← serializeNull env cfg.buf, k, cfg.stack⟩
  | .serialize none k => do return ⟨← serializeData env cfg.buf sentinel, k, cfg.stack⟩
  | .serialize (some data) k => .ok ⟨cfg.buf, codec.serFunc data, (fun _ => k) :: cfg.stack⟩
  | .deserializeData size k => do
      let (dest, buf) ← deserializeData cfg.buf size
      return ⟨buf, k dest, cfg.stack⟩
  | .deserializeInt k => do
      let (v, buf) ← deserializeInt cfg.buf
      return ⟨buf, k v, cfg.stack⟩
  | .deserializeNull k => do
      let (result, buf) ← deserializeNull env cfg.buf
      return ⟨buf, k result, cfg.stack⟩
  | .deserialize k => do
      let (isNull, buf) ← deserializeNull env cfg.buf
      if isNull ≠ 0 then return ⟨buf, k none, cfg.stack⟩
      else return ⟨buf, codec.dserFunc, k :: cfg.stack⟩
  | .skip size k => do return ⟨← serializedBufferSkip env cfg.buf size, k, cfg.stack⟩
  | .reset k => .ok ⟨serializedBufferReset cfg.buf, k, cfg.stack⟩

/-- `serialized_buffer_skip` is called with a non-negative size. -/
def SkipsForward {α : Type} (cfg : Config α) : Prop :=
  match cfg.prog with
  | .skip size _ => 0 ≤ size
  | _ => True

/-- The length the next operation asks for keeps `next + length` at most `2^30`. The reads of
four bytes need no such bound. -/
def Fits {α : Type} (cfg : Config α) : Prop :=
  match cfg.prog with
  | .serializeData data _ => cfg.buf.next + data.length ≤ 2 ^ 30
  | .serializeInt _ _ | .serializeNull _ | .serialize none _ => cfg.buf.next + 4 ≤ 2 ^ 30
  | .deserializeData size _ => cfg.buf.next + size ≤ 2 ^ 30
  | .skip size _ => 0 ≤ size ∧ cfg.buf.next + size ≤ 2 ^ 30
  | _ => True

/-! ## One operation on a sound buffer -/

section Sound

variable {env : Allocs} {buf : SerBuff}

theorem skip_sound (henv : AllocsSucceed env) (h : buf.Sound) {size : Int} (h0 : 0 ≤ size)
    (hfit : buf.next + size ≤ 2 ^ 30) :
    ∃ buf', serializedBufferSkip env buf size = .ok buf' ∧ buf'.Sound := by
  obtain ⟨grown, hloop, hsound, hnext, hroom, -⟩ := growLoop_sound henv h
    (fun buf => decide (size ≤ buf.available)) (buf.next + size) hfit
    (fun buf' hs hn => by rw [decide_eq_true_eq, hs.room_skip, hn])
  have hn := h.next_nonneg
  have hw : wrap32 (grown.next + size) = buf.next + size := by
    rw [hnext, wrap32_eq (by omega) (by omega)]
  refine ⟨{ grown with next := buf.next + size }, ?_, ?_⟩
  · rw [serializedBufferSkip, hloop]
    simp only [bind, Except.bind, hw, pure, Except.pure]
  · exact ⟨⟨hsound.doubled, show 0 ≤ buf.next + size by omega, hroom, hsound.block_le⟩,
      hsound.block⟩

/-- What `memcpy` may read: `n` bytes up to the end of the block. -/
theorem ahead_of_inside (h0 : 0 ≤ buf.next) {n : Nat} (hin : buf.next + n ≤ buf.b.length) :
    ∃ bs, bs.length = n ∧ Ahead buf bs := by
  refine ⟨(buf.b.drop buf.next.toNat).take n, ?_, List.take_prefix _ _⟩
  rw [List.length_take, List.length_drop]
  omega

theorem ahead_take (h : buf.Sound) {n : Nat} (hn : buf.next + n ≤ buf.size) :
    ∃ bs, bs.length = n ∧ Ahead buf bs :=
  ahead_of_inside h.next_nonneg (h.block ▸ hn)

/-- **A read past `size` is refused**, for a length that does not wrap around. -/
theorem deserializeData_refused (h : buf.Shape) {size : Nat} (hfit : buf.next + size < 2 ^ 31)
    (hend : buf.size < buf.next + size) : deserializeData buf size = .ok (none, buf) := by
  have hn := h.next_nonneg
  have hle := h.next_le
  have hsize : wrap32 (size : Int) = size := wrap32_eq (by omega) (by omega)
  have hw : wrap32 (wrap32 size + buf.next) = size + buf.next := by
    rw [hsize, wrap32_eq (by omega) (by omega)]
  rw [deserializeData, if_neg (by omega), hw, if_pos (by omega)]

theorem deserializeInt_refused (h : buf.Shape) (hend : buf.size < buf.next + 4) :
    deserializeInt buf = .ok (0, buf) := by
  have hn := h.next_nonneg
  have hle := h.next_le
  have hmax := h.size_le
  have hw : wrap32 (4 + buf.next) = 4 + buf.next := wrap32_eq (by omega) (by omega)
  rw [deserializeInt, hw, if_pos (by omega)]

/-- **The bound check of `deserialize_data`** for a length that does not wrap around. -/
theorem deserializeData_sound (h : buf.Sound) {size : Nat} (hfit : buf.next + size < 2 ^ 31) :
    ∃ dest buf', deserializeData buf size = .ok (dest, buf') ∧ buf'.Sound := by
  by_cases h0 : size = 0
  · exact ⟨none, buf, by rw [deserializeData, if_pos h0], h⟩
  by_cases hroom : buf.next + size ≤ buf.size
  · obtain ⟨bs, rfl, ha⟩ := ahead_take h hroom
    have hne : bs ≠ [] := fun he => h0 (by rw [he]; rfl)
    exact ⟨_, _, deserializeData_spec h.toIntact ha hne, (ha.intact h.toIntact).toShape, h.block⟩
  · exact ⟨none, buf, deserializeData_refused h.toShape hfit (by omega), h⟩

/-- Four bytes are read as an `int` when they are in the buffer. -/
theorem deserializeInt_ahead (h : buf.Sound) {bs : List Byte} (hlen : bs.length = 4)
    (ha : Ahead buf bs) : deserializeInt buf = .ok (bytesInt bs, buf.advance 4) := by
  have hn := h.next_nonneg
  have hmax := h.size_le
  have hblock := h.block
  have hl := ha.length_le h.toIntact
  have hcopy := memcpyFrom_ahead h.toIntact ha
  rw [hlen] at hcopy
  have hw : wrap32 (4 + buf.next) = 4 + buf.next := wrap32_eq (by omega) (by omega)
  have hw' : wrap32 (buf.next + 4) = buf.next + 4 := wrap32_eq (by omega) (by omega)
  rw [deserializeInt, hw, if_neg (by omega)]
  refine bind_eq_ok.2 ⟨bs, hcopy, ?_⟩
  simp only [pure, Except.pure, serializedBufferSerPosIncr, hw', SerBuff.advance]
  rfl

theorem deserializeInt_sound (h : buf.Sound) :
    ∃ v buf', deserializeInt buf = .ok (v, buf') ∧ buf'.Sound := by
  by_cases hroom : buf.next + (4 : Nat) ≤ buf.size
  · obtain ⟨bs, hlen, ha⟩ := ahead_take h hroom
    exact ⟨_, _, deserializeInt_ahead h hlen ha,
      (hlen ▸ ha.intact h.toIntact).toShape, h.block⟩
  · exact ⟨0, buf, deserializeInt_refused h.toShape (by omega), h⟩

/-- With fewer than four bytes left the peek is refused and the cursor still steps back by
four, from a place beyond `508`. -/
theorem deserializeNull_refused (env : Allocs) (h : buf.Shape) (hend : buf.size < buf.next + 4) :
    deserializeNull env buf = .ok (0, { buf with next := buf.next - 4 }) := by
  have hle := h.next_le
  have hmax := h.size_le
  have hge := h.size_ge
  have hread : deserializeData buf 4 = .ok (none, buf) :=
    deserializeData_refused h (by omega) (by omega)
  have hroom : decide (-4 ≤ buf.available) = true := by
    rw [decide_eq_true_eq, h.room_skip]
    omega
  have hw' : wrap32 (buf.next + (-4)) = buf.next - 4 := wrap32_eq (by omega) (by omega)
  refine bind_eq_ok.2 ⟨(none, buf), hread, ?_⟩
  simp only [serializedBufferSkip, growFuel, growLoop, hroom, if_true, bind, Except.bind, hw']
  rfl

theorem deserializeNull_sound (env : Allocs) (h : buf.Sound) :
    ∃ result buf', deserializeNull env buf = .ok (result, buf') ∧ buf'.Sound := by
  by_cases hroom : buf.next + (4 : Nat) ≤ buf.size
  · obtain ⟨bs, hlen, ha⟩ := ahead_take h hroom
    have hread := deserializeNull_spec env h.toIntact ha hlen
    by_cases hs : bs = sentinel
    · rw [if_pos hs] at hread
      exact ⟨_, _, hread, ⟨(hlen ▸ ha.intact h.toIntact).toShape, h.block⟩⟩
    · rw [if_neg hs] at hread
      exact ⟨_, _, hread, h⟩
  · have hend : buf.size < buf.next + 4 := by omega
    have hle := h.next_le
    have hge := h.size_ge
    refine ⟨_, _, deserializeNull_refused env h.toShape hend,
      ⟨⟨h.doubled, ?_, ?_, h.block_le⟩, h.block⟩⟩
    · show 0 ≤ buf.next - 4
      omega
    · show buf.next - 4 ≤ buf.size
      omega

end Sound

/-! ## What a step can do -/

section Moves

variable {env : Allocs} {buf buf' : SerBuff}

/-- What `deserialize_data` can do. -/
theorem deserializeData_cases {size : Nat} {dest : Option (List Byte)}
    (hok : deserializeData buf size = .ok (dest, buf')) :
    buf' = buf ∨ ¬ buf.size < wrap32 (wrap32 size + buf.next) ∧
      (∃ data, memcpyFrom buf.b buf.next size = .ok data) ∧
      buf' = serializedBufferSerPosIncr buf (wrap32 size) := by
  unfold deserializeData at hok
  split_ifs at hok with h0 hroom
  · cases hok
    exact .inl rfl
  · cases hok
    exact .inl rfl
  · obtain ⟨data, hcopy, hok⟩ := bind_eq_ok.1 hok
    cases hok
    exact .inr ⟨hroom, ⟨data, hcopy⟩, rfl⟩

/-- What `deserialize_null` can do: read four bytes, and step back or not. -/
theorem deserializeNull_cases {result : Int32}
    (hok : deserializeNull env buf = .ok (result, buf')) :
    ∃ dest buf₁, deserializeData buf 4 = .ok (dest, buf₁) ∧
      (buf' = buf₁ ∨ serializedBufferSkip env buf₁ (-4) = .ok buf') := by
  obtain ⟨⟨dest, buf₁⟩, hread, hok⟩ := bind_eq_ok.1 hok
  refine ⟨dest, buf₁, hread, ?_⟩
  by_cases hs : leWord (dest.getD [0, 0, 0, 0]) = 0xFFFFFFFF
  · have hend : Except.ok (-1, buf₁) = Except.ok (result, buf') := (if_pos hs).symm.trans hok
    cases hend
    exact .inl rfl
  · obtain ⟨buf₂, hskip, hend⟩ := bind_eq_ok.1 ((if_neg hs).symm.trans hok)
    cases hend
    exact .inr hskip

/-- What a step does to the buffer, by the next operation of the client. -/
inductive StepMove {α : Type} (env : Allocs) (buf : SerBuff) : Prog α → SerBuff → Prop
  | ret {result : Option α} : StepMove env buf (.ret result) buf
  | serializeData {data : List Byte} {k : Prog α} {buf' : SerBuff}
      (h : serializeData env buf data = .ok buf') : StepMove env buf (.serializeData data k) buf'
  | serializeInt {data : Int32} {k : Prog α} {buf' : SerBuff}
      (h : serializeInt env buf data = .ok buf') : StepMove env buf (.serializeInt data k) buf'
  | serializeNull {k : Prog α} {buf' : SerBuff} (h : serializeNull env buf = .ok buf') :
      StepMove env buf (.serializeNull k) buf'
  | serializeNone {k : Prog α} {buf' : SerBuff}
      (h : Serial.serializeData env buf sentinel = .ok buf') :
      StepMove env buf (.serialize none k) buf'
  | enter {data : α} {k : Prog α} : StepMove env buf (.serialize (some data) k) buf
  | deserializeData {size : Nat} {k : Option (List Byte) → Prog α} {dest : Option (List Byte)}
      {buf' : SerBuff} (h : deserializeData buf size = .ok (dest, buf')) :
      StepMove env buf (.deserializeData size k) buf'
  | deserializeInt {k : Int32 → Prog α} {v : Int32} {buf' : SerBuff}
      (h : deserializeInt buf = .ok (v, buf')) : StepMove env buf (.deserializeInt k) buf'
  | deserializeNull {k : Int32 → Prog α} {result : Int32} {buf' : SerBuff}
      (h : deserializeNull env buf = .ok (result, buf')) :
      StepMove env buf (.deserializeNull k) buf'
  | deserialize {k : Option α → Prog α} {result : Int32} {buf' : SerBuff}
      (h : Serial.deserializeNull env buf = .ok (result, buf')) :
      StepMove env buf (.deserialize k) buf'
  | skip {size : Int} {k : Prog α} {buf' : SerBuff}
      (h : serializedBufferSkip env buf size = .ok buf') : StepMove env buf (.skip size k) buf'
  | reset {k : Prog α} : StepMove env buf (.reset k) (serializedBufferReset buf)

/-- **Inversion of a step.** -/
theorem stepProg_move {α : Type} {codec : Codec α} {cfg cfg' : Config α}
    (hok : stepProg env codec cfg = .ok cfg') : StepMove env cfg.buf cfg.prog cfg'.buf := by
  obtain ⟨buf, prog, stack⟩ := cfg
  cases prog with
  | ret result =>
      cases stack with
      | nil =>
          cases hok
          exact .ret
      | cons k stack =>
          cases hok
          exact .ret
  | serializeData data k =>
      obtain ⟨buf', hwrite, hok⟩ := bind_eq_ok.1 hok
      cases hok
      exact .serializeData hwrite
  | serializeInt data k =>
      obtain ⟨buf', hwrite, hok⟩ := bind_eq_ok.1 hok
      cases hok
      exact .serializeInt hwrite
  | serializeNull k =>
      obtain ⟨buf', hwrite, hok⟩ := bind_eq_ok.1 hok
      cases hok
      exact .serializeNull hwrite
  | serialize data k =>
      cases data with
      | none =>
          obtain ⟨buf', hwrite, hok⟩ := bind_eq_ok.1 hok
          cases hok
          exact .serializeNone hwrite
      | some data =>
          cases hok
          exact .enter
  | deserializeData size k =>
      obtain ⟨⟨dest, buf'⟩, hread, hok⟩ := bind_eq_ok.1 hok
      cases hok
      exact .deserializeData hread
  | deserializeInt k =>
      obtain ⟨⟨v, buf'⟩, hread, hok⟩ := bind_eq_ok.1 hok
      cases hok
      exact .deserializeInt hread
  | deserializeNull k =>
      obtain ⟨⟨result, buf'⟩, hpeek, hok⟩ := bind_eq_ok.1 hok
      cases hok
      exact .deserializeNull hpeek
  | deserialize k =>
      obtain ⟨⟨result, buf'⟩, hpeek, hok⟩ := bind_eq_ok.1 hok
      -- a null or not, the buffer is the one the peek has left
      dsimp only at hok
      split_ifs at hok
      · cases hok
        exact .deserialize hpeek
      · cases hok
        exact .deserialize hpeek
  | skip size k =>
      obtain ⟨buf', hskip, hok⟩ := bind_eq_ok.1 hok
      cases hok
      exact .skip hskip
  | reset k =>
      cases hok
      exact .reset

end Moves

/-! ## What a run is made of -/

section Turns

variable {env : Allocs} {buf buf' : SerBuff}

/-- Every operation is made of doublings and of changes that leave `size` and the length of the
block alone: bytes are copied in, or the cursor is given a new value. -/
inductive Turn (env : Allocs) (buf : SerBuff) : SerBuff → Prop
  | resize {buf' : SerBuff} (h : serializedBufferResize env buf 2 = .ok buf') :
      Turn env buf buf'
  | touch {buf' : SerBuff} (hsize : buf'.size = buf.size)
      (hblock : buf'.b.length = buf.b.length) (hnext : FitsInt buf'.next) : Turn env buf buf'

/-- `buf'` has come from `buf` by such changes. -/
abbrev Turns (env : Allocs) : SerBuff → SerBuff → Prop := Relation.ReflTransGen (Turn env)

/-- **The invariant rule for buffers.** What each change keeps, they all keep. -/
theorem Turns.invariant (P : SerBuff → Prop)
    (hturn : ∀ buf buf', P buf → Turn env buf buf' → P buf') (h : Turns env buf buf')
    (hP : P buf) : P buf' := by
  induction h with
  | refl => exact hP
  | tail _ hlast ih => exact hturn _ _ ih hlast

theorem turns_incr (size : Int) : Turns env buf (serializedBufferSerPosIncr buf size) :=
  .single (.touch rfl rfl (fitsInt_wrap32 _))

theorem growLoop_turns (room : SerBuff → Bool) (fuel : Nat)
    (hok : growLoop env room fuel buf = .ok buf') : Turns env buf buf' := by
  induction fuel generalizing buf with
  | zero =>
      by_cases hr : room buf = true
      · rw [growLoop, if_pos hr, Except.ok.injEq] at hok
        rw [hok]
      · simp [growLoop, hr] at hok
  | succ fuel ih =>
      by_cases hr : room buf = true
      · rw [growLoop, if_pos hr, Except.ok.injEq] at hok
        rw [hok]
      · rw [growLoop, if_neg hr] at hok
        obtain ⟨grown, hgrow, hrest⟩ := bind_eq_ok.1 hok
        exact .head (.resize hgrow) (ih hrest)

theorem copyIn_turns {data : List Byte} (hok : copyIn buf data = .ok buf') :
    Turns env buf buf' := by
  obtain ⟨b, hcopy, hok⟩ := bind_eq_ok.1 hok
  have hin := memcpyTo_inside hcopy
  obtain ⟨b', hcopy', hlen, -⟩ := memcpyTo_eq _ _ _ hin.1 hin.2
  rw [hcopy] at hcopy'
  cases hcopy'
  cases hok
  exact .single (.touch rfl hlen (fitsInt_wrap32 _))

theorem serializeData_turns {data : List Byte} (hok : serializeData env buf data = .ok buf') :
    Turns env buf buf' := by
  obtain ⟨grown, hloop, hcopy⟩ := bind_eq_ok.1 hok
  exact (growLoop_turns _ _ hloop).trans (copyIn_turns hcopy)

theorem skip_turns {size : Int} (hok : serializedBufferSkip env buf size = .ok buf') :
    Turns env buf buf' := by
  obtain ⟨grown, hloop, hok⟩ := bind_eq_ok.1 hok
  cases hok
  exact (growLoop_turns _ _ hloop).tail (.touch rfl rfl (fitsInt_wrap32 _))

theorem deserializeData_turns {size : Nat} {dest : Option (List Byte)}
    (hok : deserializeData buf size = .ok (dest, buf')) : Turns env buf buf' := by
  rcases deserializeData_cases hok with rfl | ⟨-, -, rfl⟩
  · exact .refl
  · exact turns_incr _

theorem deserializeInt_turns {v : Int32} (hok : deserializeInt buf = .ok (v, buf')) :
    Turns env buf buf' := by
  unfold deserializeInt at hok
  split_ifs at hok
  · cases hok
    exact .refl
  · obtain ⟨temp, -, hok⟩ := bind_eq_ok.1 hok
    cases hok
    exact turns_incr _

theorem deserializeNull_turns {result : Int32}
    (hok : deserializeNull env buf = .ok (result, buf')) : Turns env buf buf' := by
  obtain ⟨dest, read, hread, rfl | hback⟩ := deserializeNull_cases hok
  · exact deserializeData_turns hread
  · exact (deserializeData_turns hread).trans (skip_turns hback)

/-- **One step of any client**, whatever it asks for and whatever the allocator does. -/
theorem stepProg_turns {α : Type} {codec : Codec α} {cfg cfg' : Config α}
    (hok : stepProg env codec cfg = .ok cfg') : Turns env cfg.buf cfg'.buf := by
  have hmove := stepProg_move hok
  generalize cfg.prog = prog, cfg'.buf = buf' at hmove ⊢
  cases hmove with
  | ret | enter => exact .refl
  | reset => exact .single (.touch rfl rfl (fitsInt_wrap32 0))
  | serializeData hw | serializeInt hw | serializeNull hw | serializeNone hw =>
      exact serializeData_turns hw
  | deserializeData hr => exact deserializeData_turns hr
  | deserializeInt hr => exact deserializeInt_turns hr
  | deserializeNull hr | deserialize hr => exact deserializeNull_turns hr
  | skip hw => exact skip_turns hw

end Turns

/-! ## All reachable states -/

section Machine

variable {α : Type} {env : Allocs} {codec : Codec α} {cfg : Config α}

/-- **One step.** An operation that fits comes back and leaves the buffer sound. -/
theorem stepProg_sound (henv : AllocsSucceed env) (h : cfg.buf.Sound) (hfit : Fits cfg) :
    ∃ cfg', stepProg env codec cfg = .ok cfg' ∧ cfg'.buf.Sound := by
  obtain ⟨buf, prog, stack⟩ := cfg
  cases prog with
  | ret result =>
      cases stack with
      | nil => exact ⟨_, rfl, h⟩
      | cons k stack => exact ⟨_, rfl, h⟩
  | serializeData data k =>
      obtain ⟨buf', hok, hs, -⟩ := serializeData_spec henv h data hfit
      exact ⟨_, bind_eq_ok.2 ⟨buf', hok, rfl⟩, hs⟩
  | serializeInt data k =>
      obtain ⟨buf', hok, hs, -⟩ := serializeInt_spec henv h data hfit
      exact ⟨_, bind_eq_ok.2 ⟨buf', hok, rfl⟩, hs⟩
  | serializeNull k =>
      obtain ⟨buf', hok, hs, -⟩ := serializeNull_spec henv h hfit
      exact ⟨_, bind_eq_ok.2 ⟨buf', hok, rfl⟩, hs⟩
  | serialize data k =>
      cases data with
      | none =>
          obtain ⟨buf', hok, hs, -⟩ := serializeNull_spec henv h hfit
          exact ⟨_, bind_eq_ok.2 ⟨buf', hok, rfl⟩, hs⟩
      | some data => exact ⟨_, rfl, h⟩
  | deserializeData size k =>
      obtain ⟨dest, buf', hok, hs⟩ := deserializeData_sound h (lt_of_le_of_lt hfit (by norm_num))
      exact ⟨_, bind_eq_ok.2 ⟨_, hok, rfl⟩, hs⟩
  | deserializeInt k =>
      obtain ⟨v, buf', hok, hs⟩ := deserializeInt_sound h
      exact ⟨_, bind_eq_ok.2 ⟨_, hok, rfl⟩, hs⟩
  | deserializeNull k =>
      obtain ⟨result, buf', hok, hs⟩ := deserializeNull_sound env h
      exact ⟨_, bind_eq_ok.2 ⟨_, hok, rfl⟩, hs⟩
  | deserialize k =>
      obtain ⟨result, buf', hok, hs⟩ := deserializeNull_sound env h
      by_cases hr : result ≠ 0
      · exact ⟨⟨buf', k none, stack⟩, bind_eq_ok.2 ⟨_, hok, if_pos hr⟩, hs⟩
      · exact ⟨⟨buf', codec.dserFunc, k :: stack⟩, bind_eq_ok.2 ⟨_, hok, if_neg hr⟩, hs⟩
  | skip size k =>
      obtain ⟨buf', hok, hs⟩ := skip_sound henv h hfit.1 hfit.2
      exact ⟨_, bind_eq_ok.2 ⟨buf', hok, rfl⟩, hs⟩
  | reset k =>
      exact ⟨_, rfl, ⟨(intact_reset h.toIntact).toShape, h.block⟩⟩

/-- A step of a client whose requests fit. -/
def FittingStep (env : Allocs) (codec : Codec α) (cfg cfg' : Config α) : Prop :=
  Fits cfg ∧ stepProg env codec cfg = .ok cfg'

/-- **Every run.** The buffer is sound in every reachable state. -/
theorem reachable_sound (henv : AllocsSucceed env)
    (h : Reachable Created (FittingStep env codec) cfg) : cfg.buf.Sound := by
  refine Reachable.invariant (fun c => c.buf.Sound) ?_ ?_ h
  · intro c hcreated
    obtain ⟨client, rfl⟩ := created_iff.1 hcreated
    exact freshBuffer_sound
  · rintro cfg cfg' - hs ⟨hfit, hstep⟩
    obtain ⟨cfg'', hstep', hs'⟩ := stepProg_sound henv hs hfit
    rw [hstep] at hstep'
    cases hstep'
    exact hs'

/-- **Buffer representation invariant.** In every state a client can reach, inside its codec
or outside, the cursor is in the buffer, `size` is 512 times a power of two and the length of
the block; and the next operation comes back, so none of its copies leaves the block. -/
theorem buffer_invariant (henv : AllocsSucceed env) (codec : Codec α) (client : Prog α)
    (h : Reachable (· = startConfig client) (FittingStep env codec) cfg) :
    0 ≤ cfg.buf.next ∧ cfg.buf.next ≤ cfg.buf.size ∧ (∃ k : Nat, cfg.buf.size = 512 * 2 ^ k) ∧
      cfg.buf.size = cfg.buf.b.length ∧
      (Fits cfg → ∃ cfg', stepProg env codec cfg = .ok cfg') := by
  have hs : cfg.buf.Sound := by
    obtain ⟨c, rfl, hrun⟩ := h
    exact reachable_sound henv ⟨_, created_iff.2 ⟨client, rfl⟩, hrun⟩
  obtain ⟨k, -, hk⟩ := hs.doubled
  refine ⟨hs.next_nonneg, hs.next_le, ⟨k, hk⟩, hs.block, fun hfit => ?_⟩
  obtain ⟨cfg', hstep, -⟩ := stepProg_sound henv hs hfit
  exact ⟨cfg', hstep⟩

end Machine

/-- The codec that writes one `int`, as programs. -/
def intCodec : Codec Int32 where
  serFunc v := .serializeInt v (.ret none)
  dserFunc := .deserializeInt fun v => .ret (some v)

/-- A client that peeks for a null marker with two bytes left. -/
def peekAtEnd : Prog Int32 := .skip 510 (.deserializeNull fun _ => .ret none)

/-- The refused peek of `peekAtEnd` has moved the cursor back to `506`. -/
theorem buffer_invariant_peekAtEnd :
    ∃ cfg : Config Int32, cfg.buf.next = 506 ∧ 0 ≤ cfg.buf.next ∧
      cfg.buf.next ≤ cfg.buf.size ∧ cfg.buf.size = cfg.buf.b.length := by
  have hskip : stepProg grantAll intCodec (startConfig peekAtEnd)
      = .ok ⟨{ freshBuffer with next := 510 }, .deserializeNull fun _ => .ret none, []⟩ := rfl
  have hpeek : stepProg grantAll intCodec
      ⟨{ freshBuffer with next := 510 }, .deserializeNull fun _ => .ret none, []⟩
      = .ok ⟨{ freshBuffer with next := 506 }, .ret none, []⟩ := rfl
  have hfit : Fits (startConfig peekAtEnd) := ⟨by decide, by decide⟩
  have hstart : Reachable (· = startConfig peekAtEnd) (FittingStep grantAll intCodec)
      (startConfig peekAtEnd) := Reachable.start rfl
  have h := buffer_invariant grantAll_succeeds intCodec peekAtEnd
    ((hstart.next ⟨hfit, hskip⟩).next ⟨trivial, hpeek⟩)
  exact ⟨_, rfl, h.1, h.2.1, h.2.2.2.1⟩

end CPlayground.Serial
