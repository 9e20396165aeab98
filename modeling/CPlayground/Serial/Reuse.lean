import CPlayground.Serial.Peek

set_option autoImplicit false

/-! # A buffer that is used again

After a reset a buffer carries a new message in front of whatever it held before. A reader
knows the capacity `size` and nothing else: no length of the message is recorded. Read past
the message, inside the capacity, and the bytes delivered are leftovers (`reads_past_message`).
What holds instead: a read is refused exactly at the capacity, and reads that stay inside the
message cannot tell a reused buffer from a fresh one (`reads_after_reuse`).
-/

namespace CPlayground.Serial

/-! ## Granted histories -/

section History

variable {α : Type} {env : Allocs} {codec : Codec α} {cfg : Config α}

/-- A step of a client that comes back with every allocation granted. -/
def GrantedStep (env : Allocs) (codec : Codec α) (cfg cfg' : Config α) : Prop :=
  stepProg env codec cfg = .ok cfg' ∧ Granted cfg'.buf

/-- **Every history.** Wherever a client has left the cursor, a reset makes the buffer sound. -/
theorem reset_sound {client : Prog α}
    (h : Reachable (· = startConfig client) (GrantedStep env codec) cfg) :
    (serializedBufferReset cfg.buf).Sound := by
  have hinv : Sized cfg.buf ∧ Granted cfg.buf := by
    refine Reachable.invariant (fun c => Sized c.buf ∧ Granted c.buf) ?_ ?_ h
    · rintro _ rfl
      exact ⟨Or.inl freshBuffer_sound.doubled, freshBuffer_sound.block⟩
    · rintro c c' - ⟨hs, -⟩ ⟨hok, hg⟩
      exact ⟨stepProg_sized hs hok, hg⟩
  obtain ⟨hsized, hgranted⟩ := hinv
  have hlen : cfg.buf.size = cfg.buf.b.length := hgranted
  rcases hsized with ⟨k, hk, hsize⟩ | hover
  · have hpos : (0 : Int) ≤ 512 * 2 ^ k := by positivity
    exact ⟨⟨⟨k, hk, hsize⟩, le_refl _, hsize ▸ hpos, le_of_eq hlen.symm⟩, hlen⟩
  · -- an overflowed size is no length of a block
    omega

end History

/-! ## A message -/

/-- A message is written by one `serialize_data` for each of its parts. -/
def writeParts (env : Allocs) : List (List Byte) → SerBuff → Except Fault SerBuff
  | [], buf => .ok buf
  | part :: parts, buf => do writeParts env parts (← serializeData env buf part)

theorem writeParts_spec {env : Allocs} (henv : AllocsSucceed env) (parts : List (List Byte))
    {buf buf' : SerBuff} (h : buf.Sound) (hok : writeParts env parts buf = .ok buf') :
    buf'.Sound ∧ Appends buf buf' parts.flatten := by
  induction parts generalizing buf with
  | nil =>
      cases hok
      exact ⟨h, Appends.refl h.toIntact⟩
  | cons part parts ih =>
      obtain ⟨mid, hmid, hrest⟩ := bind_eq_ok.1 hok
      obtain ⟨hsound, happ⟩ := serializeData_granted henv h hmid
      obtain ⟨hsound', happ'⟩ := ih hsound hrest
      refine ⟨hsound', ?_⟩
      rw [List.flatten_cons]
      exact happ.trans happ'

/-- Written from position `0` and reset: the message is ahead. -/
theorem message_ahead {env : Allocs} (henv : AllocsSucceed env) {parts : List (List Byte)}
    {start buf : SerBuff} (h : start.Sound) (h0 : start.next = 0)
    (hok : writeParts env parts start = .ok buf) :
    (serializedBufferReset buf).Sound ∧ Ahead (serializedBufferReset buf) parts.flatten := by
  obtain ⟨hsound, happ⟩ := writeParts_spec henv parts h hok
  exact ⟨⟨(intact_reset hsound.toIntact).toShape, hsound.block⟩, happ.ahead_reset h0⟩

/-! ## Readers -/

section Readers

variable {α : Type}

/-- The next operation is a read, and `next` plus its length is an `int`. -/
def Reads (cfg : Config α) : Prop :=
  match cfg.prog with
  | .deserializeData size _ => cfg.buf.next + size < 2 ^ 31
  | .ret _ | .deserializeInt _ | .deserializeNull _ | .deserialize _ | .reset _ => True
  | _ => False

/-- The next operation is a read that takes bytes from before position `W` only. -/
def ReadsWithin (W : Nat) (cfg : Config α) : Prop :=
  match cfg.prog with
  | .deserializeData size _ => cfg.buf.next + size ≤ W
  | .deserializeInt _ | .deserializeNull _ | .deserialize _ => cfg.buf.next + 4 ≤ W
  | .ret _ | .reset _ => True
  | _ => False

def ReadStep (env : Allocs) (codec : Codec α) (cfg cfg' : Config α) : Prop :=
  Reads cfg ∧ stepProg env codec cfg = .ok cfg'

def ReadStepWithin (W : Nat) (env : Allocs) (codec : Codec α) (cfg cfg' : Config α) : Prop :=
  ReadsWithin W cfg ∧ stepProg env codec cfg = .ok cfg'

/-- A reader at the cursor of `buf`. -/
def reading (buf : SerBuff) (reader : Prog α) : Config α := ⟨buf, reader, []⟩

/-- What `reader` can come to by reads of the first `W` bytes: the rest of its program, which
is a function of all values read so far, the calls that wait for a result, and the cursor. -/
def ComesTo (W : Nat) (env : Allocs) (codec : Codec α) (buf : SerBuff) (reader rest : Prog α)
    (waiting : List (Option α → Prog α)) (next : Int) : Prop :=
  ∃ cfg, Reachable (· = reading buf reader) (ReadStepWithin W env codec) cfg ∧
    cfg.prog = rest ∧ cfg.stack = waiting ∧ cfg.buf.next = next

end Readers

/-! ## What is refused -/

section Refusal

variable {buf buf' : SerBuff}

/-- A refused read leaves destination and cursor alone; any other moves the cursor. -/
theorem deserializeData_refused_iff (h : buf.Sound) {n : Nat} (h1 : 1 ≤ n)
    (hmax : buf.next + n < 2 ^ 31) :
    deserializeData buf n = .ok (none, buf) ↔ buf.size < buf.next + n := by
  constructor
  · intro hok
    by_contra hroom
    obtain ⟨bs, rfl, ha⟩ := ahead_take h (show buf.next + n ≤ buf.size by omega)
    rw [deserializeData_spec h.toIntact ha (List.ne_nil_of_length_pos h1)] at hok
    cases hok
  · exact deserializeData_refused h.toShape hmax

theorem deserializeInt_refused_iff (h : buf.Sound) :
    deserializeInt buf = .ok (0, buf) ↔ buf.size < buf.next + 4 := by
  constructor
  · intro hok
    by_contra hroom
    obtain ⟨bs, hlen, ha⟩ := ahead_take h (show buf.next + (4 : Nat) ≤ buf.size by omega)
    rw [deserializeInt_ahead h hlen ha] at hok
    have hmoved : buf.advance 4 = buf := congrArg Prod.snd (Except.ok.inj hok)
    have hnext : buf.next + 4 = buf.next := congrArg SerBuff.next hmoved
    omega
  · exact deserializeInt_refused h.toShape

theorem deserializeData_size {size : Nat} {dest : Option (List Byte)}
    (hok : deserializeData buf size = .ok (dest, buf')) : buf'.size = buf.size := by
  rcases deserializeData_cases hok with rfl | ⟨-, -, rfl⟩
  · rfl
  · rfl

theorem deserializeInt_size {v : Int32} (hok : deserializeInt buf = .ok (v, buf')) :
    buf'.size = buf.size := by
  unfold deserializeInt at hok
  split_ifs at hok
  · cases hok
    rfl
  · obtain ⟨temp, -, hok⟩ := bind_eq_ok.1 hok
    cases hok
    rfl

theorem deserializeNull_size {env : Allocs} {result : Int32} (h : buf.Sound)
    (hok : deserializeNull env buf = .ok (result, buf')) : buf'.size = buf.size := by
  by_cases hroom : buf.next + 4 ≤ buf.size
  · rcases deserializeNull_room env h.toShape (h.block ▸ hroom) with ⟨-, hread⟩ | hread
    · rw [hread] at hok
      cases hok
      rfl
    · rw [hread] at hok
      cases hok
      rfl
  · rw [deserializeNull_refused env h.toShape (by omega)] at hok
    cases hok
    rfl

variable {α : Type} {env : Allocs} {codec : Codec α} {cfg cfg' : Config α}

/-- **One read** keeps the buffer sound and its capacity as it is. -/
theorem readStep_sound (h : cfg.buf.Sound) (hstep : ReadStep env codec cfg cfg') :
    cfg'.buf.Sound ∧ cfg'.buf.size = cfg.buf.size := by
  obtain ⟨hread, hok⟩ := hstep
  have hmove := stepProg_move hok
  obtain ⟨buf, prog, stack⟩ := cfg
  generalize cfg'.buf = buf' at hmove ⊢
  cases hmove with
  | ret => exact ⟨h, rfl⟩
  | reset => exact ⟨⟨(intact_reset h.toIntact).toShape, h.block⟩, rfl⟩
  | deserializeData hdata =>
      obtain ⟨dest, buf₁, hdata₁, hs⟩ := deserializeData_sound h hread
      rw [hdata] at hdata₁
      cases hdata₁
      exact ⟨hs, deserializeData_size hdata⟩
  | deserializeInt hint =>
      obtain ⟨v, buf₁, hint₁, hs⟩ := deserializeInt_sound h
      rw [hint] at hint₁
      cases hint₁
      exact ⟨hs, deserializeInt_size hint⟩
  | deserializeNull hnull | deserialize hnull =>
      obtain ⟨result, buf₁, hnull₁, hs⟩ := deserializeNull_sound env h
      rw [hnull] at hnull₁
      cases hnull₁
      exact ⟨hs, deserializeNull_size h hnull⟩
  | serializeData _ | serializeInt _ | serializeNull _ | serializeNone _ | enter | skip _ =>
      exact hread.elim

/-- **Every run of reads.** -/
theorem reads_sound (h : cfg.buf.Sound)
    (hrun : Reachable (· = cfg) (ReadStep env codec) cfg') :
    cfg'.buf.Sound ∧ cfg'.buf.size = cfg.buf.size := by
  refine Reachable.invariant (fun c => c.buf.Sound ∧ c.buf.size = cfg.buf.size) ?_ ?_ hrun
  · rintro c rfl
    exact ⟨h, rfl⟩
  · rintro c c' - ⟨hs, hsize⟩ hstep
    obtain ⟨hs', hsize'⟩ := readStep_sound hs hstep
    exact ⟨hs', hsize'.trans hsize⟩

end Refusal

/-! ## Two runs over one message -/

/-- Two buffers at the same position of the same `W` bytes. -/
structure SameMessage (W : Nat) (left right : SerBuff) : Prop where
  soundLeft : left.Sound
  soundRight : right.Sound
  next : left.next = right.next
  bytes : left.b.take W = right.b.take W
  inside : W ≤ left.b.length

section TwoRuns

variable {W : Nat} {left right : SerBuff}

theorem SameMessage.symm (h : SameMessage W left right) : SameMessage W right left where
  soundLeft := h.soundRight
  soundRight := h.soundLeft
  next := h.next.symm
  bytes := h.bytes.symm
  inside := by
    have hlen := congrArg List.length h.bytes
    have hin := h.inside
    rw [List.length_take, List.length_take] at hlen
    omega

/-- The next `n` bytes inside the message are the same. -/
theorem SameMessage.ahead (h : SameMessage W left right) {n : Nat} (hn : left.next + n ≤ W) :
    ∃ bs, bs.length = n ∧ Ahead left bs ∧ Ahead right bs := by
  have h0 := h.soundLeft.next_nonneg
  have hin := h.inside
  have hblock := h.soundLeft.block
  obtain ⟨bs, hlen, ha⟩ := ahead_take h.soundLeft (show left.next + n ≤ left.size by omega)
  refine ⟨bs, hlen, ha, ?_⟩
  -- both blocks have these bytes in their first `W`
  have hcut : ∀ b : List Byte, (b.drop left.next.toNat).take n
      = ((b.take W).drop left.next.toNat).take n := by
    intro b
    rw [List.drop_take, List.take_take, Nat.min_eq_left (by omega)]
  have hbs : bs = (right.b.drop right.next.toNat).take n := by
    calc bs = (left.b.drop left.next.toNat).take n := hlen ▸ List.prefix_iff_eq_take.1 ha
      _ = ((left.b.take W).drop left.next.toNat).take n := hcut _
      _ = ((right.b.take W).drop left.next.toNat).take n := by rw [h.bytes]
      _ = (right.b.drop left.next.toNat).take n := (hcut _).symm
      _ = (right.b.drop right.next.toNat).take n := by rw [h.next]
  rw [hbs]
  exact List.take_prefix _ _

/-- Both cursors move over `n` bytes of the message. -/
theorem SameMessage.advance (h : SameMessage W left right) {n : Nat} (hn : left.next + n ≤ W) :
    SameMessage W (left.advance n) (right.advance n) := by
  obtain ⟨bs, rfl, hal, har⟩ := h.ahead hn
  exact
    { soundLeft := ⟨(hal.intact h.soundLeft.toIntact).toShape, h.soundLeft.block⟩
      soundRight := ⟨(har.intact h.soundRight.toIntact).toShape, h.soundRight.block⟩
      next := congrArg (· + (bs.length : Int)) h.next
      bytes := h.bytes
      inside := h.inside }

theorem SameMessage.reset (h : SameMessage W left right) :
    SameMessage W (serializedBufferReset left) (serializedBufferReset right) where
  soundLeft := ⟨(intact_reset h.soundLeft.toIntact).toShape, h.soundLeft.block⟩
  soundRight := ⟨(intact_reset h.soundRight.toIntact).toShape, h.soundRight.block⟩
  next := rfl
  bytes := h.bytes
  inside := h.inside

/-- A peek inside the message finds the same on both sides. -/
theorem SameMessage.peek (env env' : Allocs) (h : SameMessage W left right)
    (hin : left.next + (4 : Nat) ≤ W) :
    ∃ result left' right', deserializeNull env left = .ok (result, left') ∧
      deserializeNull env' right = .ok (result, right') ∧ SameMessage W left' right' := by
  obtain ⟨bs, hlen, hal, har⟩ := h.ahead hin
  have hl := deserializeNull_spec env h.soundLeft.toIntact hal hlen
  have hr := deserializeNull_spec env' h.soundRight.toIntact har hlen
  by_cases hs : bs = sentinel
  · -- both consume the sentinel
    rw [if_pos hs] at hl hr
    exact ⟨-1, left.advance 4, right.advance 4, hl, hr, h.advance hin⟩
  · rw [if_neg hs] at hl hr
    exact ⟨0, left, right, hl, hr, h⟩

variable {α : Type} {codec : Codec α}

/-- **One read inside the message** gives the same value on both sides. -/
theorem stepProg_same (codec : Codec α) (env env' : Allocs) {prog : Prog α}
    {stack : List (Option α → Prog α)} (h : SameMessage W left right)
    (hin : ReadsWithin W ⟨left, prog, stack⟩) :
    ∃ left' right' prog' stack',
      stepProg env codec ⟨left, prog, stack⟩ = .ok ⟨left', prog', stack'⟩ ∧
      stepProg env' codec ⟨right, prog, stack⟩ = .ok ⟨right', prog', stack'⟩ ∧
      SameMessage W left' right' := by
  cases prog with
  | ret result =>
      cases stack with
      | nil => exact ⟨_, _, _, _, rfl, rfl, h⟩
      | cons k stack => exact ⟨_, _, _, _, rfl, rfl, h⟩
  | reset k => exact ⟨_, _, _, _, rfl, rfl, h.reset⟩
  | deserializeData size k =>
      have hsize : left.next + size ≤ W := hin
      -- a read of no bytes takes nothing
      rcases Nat.eq_zero_or_pos size with rfl | hpos
      · exact ⟨_, _, _, _, rfl, rfl, h⟩
      · obtain ⟨bs, rfl, hal, har⟩ := h.ahead hsize
        have hne : bs ≠ [] := List.ne_nil_of_length_pos hpos
        exact ⟨_, _, _, _, bind_eq_ok.2 ⟨_, deserializeData_spec h.soundLeft.toIntact hal hne, rfl⟩,
          bind_eq_ok.2 ⟨_, deserializeData_spec h.soundRight.toIntact har hne, rfl⟩,
          h.advance hsize⟩
  | deserializeInt k =>
      have hsize : left.next + (4 : Nat) ≤ W := hin
      obtain ⟨bs, hlen, hal, har⟩ := h.ahead hsize
      exact ⟨_, _, _, _, bind_eq_ok.2 ⟨_, deserializeInt_ahead h.soundLeft hlen hal, rfl⟩,
        bind_eq_ok.2 ⟨_, deserializeInt_ahead h.soundRight hlen har, rfl⟩, h.advance hsize⟩
  | deserializeNull k =>
      obtain ⟨result, left', right', hl, hr, hsame⟩ := h.peek env env' hin
      exact ⟨_, _, _, _, bind_eq_ok.2 ⟨_, hl, rfl⟩, bind_eq_ok.2 ⟨_, hr, rfl⟩, hsame⟩
  | deserialize k =>
      obtain ⟨result, left', right', hl, hr, hsame⟩ := h.peek env env' hin
      by_cases hnull : result ≠ 0
      · -- a null: the caller goes on with it
        exact ⟨left', right', k none, stack, bind_eq_ok.2 ⟨_, hl, if_pos hnull⟩,
          bind_eq_ok.2 ⟨_, hr, if_pos hnull⟩, hsame⟩
      · exact ⟨left', right', codec.dserFunc, k :: stack, bind_eq_ok.2 ⟨_, hl, if_neg hnull⟩,
          bind_eq_ok.2 ⟨_, hr, if_neg hnull⟩, hsame⟩
  | serializeData data k | serializeInt data k | serializeNull k | serialize data k
  | skip size k => exact hin.elim

/-- Two readers at the same point of their program and of the message. -/
def SameReading (W : Nat) (cfg other : Config α) : Prop :=
  other.prog = cfg.prog ∧ other.stack = cfg.stack ∧ SameMessage W cfg.buf other.buf

theorem ReadsWithin.other {cfg other : Config α} (h : SameReading W cfg other)
    (hin : ReadsWithin W cfg) : ReadsWithin W other := by
  obtain ⟨hprog, -, hsame⟩ := h
  -- what is read depends on the program and the cursor alone
  unfold ReadsWithin at hin ⊢
  rw [hprog, ← hsame.next]
  exact hin

/-- **Every run of a reader** on one side has its like on the other. -/
theorem ComesTo.other {env env' : Allocs} (h : SameMessage W left right) {reader rest : Prog α}
    {waiting : List (Option α → Prog α)} {next : Int}
    (hc : ComesTo W env codec left reader rest waiting next) :
    ComesTo W env' codec right reader rest waiting next := by
  obtain ⟨cfg, hrun, rfl, rfl, rfl⟩ := hc
  have hrel : ∃ other,
      Reachable (· = reading right reader) (ReadStepWithin W env' codec) other ∧
        SameReading W cfg other := by
    refine Reachable.related (SameReading W) ?_ ?_ hrun
    · rintro c rfl
      exact ⟨reading right reader, rfl, rfl, rfl, h⟩
    · rintro ⟨left, prog, stack⟩ other c' hreading ⟨hin, hok⟩
      have hin' := hin.other hreading
      obtain ⟨right, _, _⟩ := other
      obtain ⟨rfl, rfl, hsame⟩ := hreading
      obtain ⟨left', right', prog', stack', hl, hr, hsame'⟩ :=
        stepProg_same codec env env' hsame hin
      rw [hok] at hl
      cases hl
      exact ⟨⟨right', prog', stack'⟩, ⟨hin', hr⟩, rfl, rfl, hsame'⟩
  obtain ⟨other, hrun', hprog, hstack, hsame⟩ := hrel
  exact ⟨other, hrun', hprog, hstack, hsame.next.symm⟩

end TwoRuns

/-! ## The law -/

/-- Two buffers that carry the same message agree on it. -/
theorem sameMessage_of_ahead {left right : SerBuff} {message : List Byte} (hl : left.Sound)
    (hr : right.Sound) (hl0 : left.next = 0) (hr0 : right.next = 0) (hal : Ahead left message)
    (har : Ahead right message) : SameMessage message.length left right := by
  have hprefix : ∀ buf : SerBuff, buf.next = 0 → Ahead buf message → message <+: buf.b := by
    intro buf h0 ha
    unfold Ahead at ha
    rwa [h0, Int.toNat_zero, List.drop_zero] at ha
  have hpl := hprefix left hl0 hal
  have hpr := hprefix right hr0 har
  refine ⟨hl, hr, hl0.trans hr0.symm, ?_, hpl.length_le⟩
  rw [← List.prefix_iff_eq_take.1 hpl, ← List.prefix_iff_eq_take.1 hpr]

/-- **Reads after reuse.** A client has used a buffer in any way, then a message is written
from position `0` and the buffer is reset. Whatever is read from then on, a read is refused,
with destination and cursor unchanged, exactly when it would take bytes at or past the
capacity. And reads that take bytes of the message only come to the same results and cursors
as on a fresh buffer with this message. -/
theorem reads_after_reuse {α : Type} {env env' : Allocs} (henv : AllocsSucceed env)
    (henv' : AllocsSucceed env') (codec : Codec α) (client : Prog α) {cfg : Config α}
    (hrun : Reachable (· = startConfig client) (GrantedStep env codec) cfg)
    (parts : List (List Byte)) {buf fresh : SerBuff}
    (hbuf : writeParts env parts (serializedBufferReset cfg.buf) = .ok buf)
    (hfresh : writeParts env' parts freshBuffer = .ok fresh) (reader : Prog α) :
    (∀ c, Reachable (· = reading (serializedBufferReset buf) reader) (ReadStep env codec) c →
      c.buf.size = buf.size ∧
      (∀ n : Nat, 1 ≤ n → c.buf.next + n < 2 ^ 31 →
        (deserializeData c.buf n = .ok (none, c.buf) ↔ c.buf.size < c.buf.next + n)) ∧
      (deserializeInt c.buf = .ok (0, c.buf) ↔ c.buf.size < c.buf.next + 4)) ∧
    ∀ rest waiting next,
      ComesTo parts.flatten.length env codec (serializedBufferReset buf) reader rest waiting next
        ↔ ComesTo parts.flatten.length env' codec (serializedBufferReset fresh) reader rest
            waiting next := by
  obtain ⟨hsound, hahead⟩ := message_ahead henv (reset_sound hrun) rfl hbuf
  obtain ⟨hsound', hahead'⟩ := message_ahead henv' freshBuffer_sound rfl hfresh
  constructor
  · intro c hc
    obtain ⟨hs, hsize⟩ := reads_sound hsound hc
    exact ⟨hsize, fun n h1 hmax => deserializeData_refused_iff hs h1 hmax,
      deserializeInt_refused_iff hs⟩
  · intro rest waiting next
    have hsame := sameMessage_of_ahead hsound hsound' rfl rfl hahead hahead'
    exact ⟨fun h => h.other hsame, fun h => h.other hsame.symm⟩

set_option maxRecDepth 8000 in
/-- A message of four bytes over an older one of eight: a read of 600 bytes is refused, and the
message reads back as on a fresh buffer. -/
theorem reads_after_reuse_overwritten :
    ∃ old buf fresh : SerBuff,
      serializeData grantAll freshBuffer (List.replicate 8 9) = .ok old ∧
      writeParts grantAll [[1, 0, 0, 0]] (serializedBufferReset old) = .ok buf ∧
      writeParts grantAll [[1, 0, 0, 0]] freshBuffer = .ok fresh ∧
      deserializeData (serializedBufferReset buf) 600 = .ok (none, serializedBufferReset buf) ∧
      ComesTo 4 grantAll intCodec (serializedBufferReset buf)
        (.deserializeInt fun v => .ret (some v)) (.ret (some 1)) [] 4 := by
  obtain ⟨old, hold⟩ : ∃ old, serializeData grantAll freshBuffer (List.replicate 8 9) = .ok old :=
    ⟨_, rfl⟩
  have hgranted : Granted old := by
    cases hold
    rfl
  have hstart : Reachable (· = startConfig (.serializeData (List.replicate 8 9) (.ret none)))
      (GrantedStep grantAll intCodec)
      (startConfig (.serializeData (List.replicate 8 9) (.ret none))) := Reachable.start rfl
  have hrun := hstart.next ⟨bind_eq_ok.2 ⟨old, hold, rfl⟩, hgranted⟩
  obtain ⟨buf, hbuf⟩ : ∃ buf,
      writeParts grantAll [[1, 0, 0, 0]] (serializedBufferReset old) = .ok buf := by
    cases hold
    exact ⟨_, rfl⟩
  obtain ⟨fresh, hfresh⟩ : ∃ fresh, writeParts grantAll [[1, 0, 0, 0]] freshBuffer = .ok fresh :=
    ⟨_, rfl⟩
  obtain ⟨hrefused, hsame⟩ := reads_after_reuse grantAll_succeeds grantAll_succeeds intCodec _
    hrun [[1, 0, 0, 0]] hbuf hfresh (.deserializeInt fun v => .ret (some v))
  refine ⟨old, buf, fresh, hold, hbuf, hfresh, ?_, (hsame _ _ _).2 ?_⟩
  -- the capacity is 512
  · have hlen : (0 : Int) + (600 : Nat) < 2 ^ 31 := by decide
    refine ((hrefused _ (Reachable.start rfl)).2.1 600 (by decide) hlen).2 ?_
    cases hold
    cases hbuf
    decide
  · obtain ⟨hsound, hahead⟩ := message_ahead grantAll_succeeds freshBuffer_sound rfl hfresh
    have hint := deserializeInt_ahead hsound rfl (show Ahead _ [1, 0, 0, 0] from hahead)
    have hread : Reachable
        (· = reading (serializedBufferReset fresh) (.deserializeInt fun v => .ret (some v)))
        (ReadStepWithin 4 grantAll intCodec)
        (reading (serializedBufferReset fresh) (.deserializeInt fun v => .ret (some v))) :=
      Reachable.start rfl
    have hwithin : (0 : Int) + 4 ≤ (4 : Nat) := by decide
    exact ⟨_, hread.next ⟨hwithin, bind_eq_ok.2 ⟨_, hint, rfl⟩⟩, rfl, rfl, rfl⟩

set_option maxRecDepth 8000 in
/-- Eight bytes are read after a message of four. A fresh buffer delivers four bytes that were
never written, a reused one what an older message has left there. -/
theorem reads_past_message :
    (∃ buf read, serializeData grantAll freshBuffer [1, 2, 3, 4] = .ok buf ∧
      deserializeData (serializedBufferReset buf) 8 = .ok (some [1, 2, 3, 4, 0, 0, 0, 0], read)) ∧
    ∃ old buf read, serializeData grantAll freshBuffer (List.replicate 8 9) = .ok old ∧
      serializeData grantAll (serializedBufferReset old) [1, 2, 3, 4] = .ok buf ∧
      deserializeData (serializedBufferReset buf) 8
        = .ok (some [1, 2, 3, 4, 9, 9, 9, 9], read) :=
  ⟨⟨_, _, rfl, rfl⟩, _, _, _, rfl, rfl, rfl⟩

end CPlayground.Serial
