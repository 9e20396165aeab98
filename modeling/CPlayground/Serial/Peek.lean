import CPlayground.Serial.ReadBound

set_option autoImplicit false

/-! # The null peek

`deserialize_null` reads four bytes and steps back over them unless they are the sentinel. The
read may be refused, the step back is not: with fewer than four bytes left before `size` the
peek moves the cursor back over bytes that an earlier call has consumed. After a failed
`realloc` the block can end before `size`, and then the read is not refused in time: it leaves
the block. With four bytes left in the block the peek is exact, and `deserialize` never goes
back (`peek_exact_iff`).
-/

namespace CPlayground.Serial

/-! ## What a peek and a read after it should do -/

/-- The peek finds the sentinel at the cursor, says so and consumes it, or it says no and
leaves the buffer alone. -/
def PeekExact (env : Allocs) (buf : SerBuff) : Prop :=
  ∃ result buf', deserializeNull env buf = .ok (result, buf') ∧
    ((result ≠ 0 ∧ Ahead buf sentinel ∧ buf' = buf.advance 4) ∨ (result = 0 ∧ buf' = buf))

/-- A `dser_func` that never moves the cursor backwards. -/
def NeverBack {α : Type} (dserFunc : SerBuff → Except Fault (Option α × SerBuff)) : Prop :=
  ∀ buf result buf', buf.Shape → dserFunc buf = .ok (result, buf') → buf.next ≤ buf'.next

/-- `deserialize` with any such `dser_func` does not move the cursor backwards, and the bytes
before the cursor stay consumed: it consumes a sentinel, or it does what `dser_func` does from
the cursor on or from a place after it. -/
def ReadsOnward (env : Allocs) (buf : SerBuff) : Prop :=
  ∀ (α : Type) (dserFunc : SerBuff → Except Fault (Option α × SerBuff)), NeverBack dserFunc →
    (∀ result buf', deserialize env dserFunc buf = .ok (result, buf') → buf.next ≤ buf'.next) ∧
      ((Ahead buf sentinel ∧ deserialize env dserFunc buf = .ok (none, buf.advance 4)) ∨
        ∃ entered, buf.next ≤ entered.next ∧ deserialize env dserFunc buf = dserFunc entered)

section Peek

variable {env : Allocs} {buf : SerBuff}

/-! ## With four bytes left in the block -/

/-- **A peek with four bytes left** consumes a sentinel and leaves anything else. -/
theorem deserializeNull_room (env : Allocs) (h : buf.Shape)
    (hroom : buf.next + 4 ≤ buf.b.length) :
    (Ahead buf sentinel ∧ deserializeNull env buf = .ok (-1, buf.advance 4)) ∨
      deserializeNull env buf = .ok (0, buf) := by
  obtain ⟨bs, hlen, ha⟩ := ahead_of_inside h.next_nonneg (n := 4) hroom
  have hintact : buf.Intact := ⟨h, by omega⟩
  have hread := deserializeNull_spec env hintact ha hlen
  by_cases hs : bs = sentinel
  · left
    rw [if_pos hs] at hread
    exact ⟨hs ▸ ha, hread⟩
  · right
    rw [if_neg hs] at hread
    exact hread

theorem peekExact_of_room (h : buf.Shape) (hroom : buf.next + 4 ≤ buf.b.length) :
    PeekExact env buf := by
  rcases deserializeNull_room env h hroom with ⟨ha, hread⟩ | hread
  · exact ⟨-1, buf.advance 4, hread, Or.inl ⟨by decide, ha, rfl⟩⟩
  · exact ⟨0, buf, hread, Or.inr ⟨rfl, rfl⟩⟩

/-- What `deserialize` does after a peek that returned `result`. -/
theorem deserialize_eq {α : Type} (dserFunc : SerBuff → Except Fault (Option α × SerBuff))
    {result : Int32} {peeked : SerBuff} (hread : deserializeNull env buf = .ok (result, peeked)) :
    deserialize env dserFunc buf
      = if result ≠ 0 then .ok (none, peeked) else dserFunc peeked := by
  unfold deserialize
  rw [hread]
  rfl

theorem readsOnward_of_room (h : buf.Shape) (hroom : buf.next + 4 ≤ buf.b.length) :
    ReadsOnward env buf := by
  intro α dserFunc hback
  rcases deserializeNull_room env h hroom with ⟨ha, hread⟩ | hread
  · -- the sentinel was there: `dser_func` is not called
    have hrun : deserialize env dserFunc buf = .ok (none, buf.advance 4) := by
      rw [deserialize_eq dserFunc hread, if_pos (by decide)]
    refine ⟨fun result buf' hok => ?_, Or.inl ⟨ha, hrun⟩⟩
    rw [hrun] at hok
    cases hok
    show buf.next ≤ buf.next + 4
    omega
  · have hrun : deserialize env dserFunc buf = dserFunc buf := by
      rw [deserialize_eq dserFunc hread, if_neg (by decide)]
    exact ⟨fun result buf' hok => hback _ _ _ h (hrun ▸ hok), Or.inr ⟨buf, le_refl _, hrun⟩⟩

/-! ## With fewer than four bytes left -/

/-- A `dser_func` that reads nothing is enough to see what the peek has done. -/
def readNothing (buf : SerBuff) : Except Fault (Option Unit × SerBuff) := .ok (none, buf)

theorem neverBack_readNothing : NeverBack readNothing := by
  rintro buf₁ result buf' - hok
  cases hok
  exact le_refl _

theorem not_peekExact_of_end (h : buf.Shape) (hend : buf.size < buf.next + 4) :
    ¬ PeekExact env buf := by
  rintro ⟨result, buf', hok, hcase⟩
  -- the read was refused, and the cursor has stepped back
  rw [deserializeNull_refused env h hend] at hok
  cases hok
  rcases hcase with ⟨hr, -, -⟩ | ⟨-, hsame⟩
  · exact hr rfl
  · have hnext : buf.next - 4 = buf.next := congrArg SerBuff.next hsame
    omega

theorem not_readsOnward_of_end (h : buf.Shape) (hend : buf.size < buf.next + 4) :
    ¬ ReadsOnward env buf := by
  intro hon
  have hrun := deserialize_eq readNothing (deserializeNull_refused env h hend)
  rw [if_neg (by decide)] at hrun
  have hle : buf.next ≤ buf.next - 4 := (hon Unit readNothing neverBack_readNothing).1 _ _ hrun
  omega

/-! ## With fewer than four bytes left in the block, and four before `size` -/

/-- The check lets the read pass, and `memcpy` leaves the block. -/
theorem deserializeNull_outside (env : Allocs) (h : buf.Shape) (hsize : buf.next + 4 ≤ buf.size)
    (hout : buf.b.length < buf.next + 4) : deserializeNull env buf = .error .outOfBlock := by
  have hn := h.next_nonneg
  have hmax := h.size_le
  have hend : buf.wrappedEnd 4 = buf.next + 4 := Int.emod_eq_of_lt (by omega) (by omega)
  have hread : deserializeData buf 4 = .error .outOfBlock :=
    deserializeData_outside h (by omega) (by omega) (by omega)
  rw [deserializeNull, hread]
  rfl

theorem not_peekExact_of_outside (h : buf.Shape) (hsize : buf.next + 4 ≤ buf.size)
    (hout : buf.b.length < buf.next + 4) : ¬ PeekExact env buf := by
  rintro ⟨result, buf', hok, -⟩
  rw [deserializeNull_outside env h hsize hout] at hok
  cases hok

theorem not_readsOnward_of_outside (h : buf.Shape) (hsize : buf.next + 4 ≤ buf.size)
    (hout : buf.b.length < buf.next + 4) : ¬ ReadsOnward env buf := by
  intro hon
  have hfault : deserialize env readNothing buf = .error .outOfBlock := by
    rw [deserialize, deserializeNull_outside env h hsize hout]
    rfl
  rcases (hon Unit readNothing neverBack_readNothing).2 with ⟨-, hok⟩ | ⟨entered, -, hok⟩
  · rw [hfault] at hok
    cases hok
  · rw [hfault] at hok
    cases hok

end Peek

/-! ## The law -/

section Runs

variable {α : Type} {env : Allocs} {codec : Codec α} {client : Prog α} {cfg : Config α}

/-- **The null peek is exact exactly with four bytes left in the block**, and exactly then
`deserialize` goes onward for every `dser_func` that does. The block ends at `size` unless a
`realloc` has failed. -/
theorem peek_exact_iff (h : Reachable (· = startConfig client) (FreeStep env codec) cfg)
    (h0 : 0 ≤ cfg.buf.next) (hle : cfg.buf.next ≤ cfg.buf.size) :
    (PeekExact env cfg.buf ↔ cfg.buf.next + 4 ≤ cfg.buf.b.length) ∧
      (ReadsOnward env cfg.buf ↔ cfg.buf.next + 4 ≤ cfg.buf.b.length) := by
  have hshape := (aged_reachable h).shape h0 hle
  by_cases hroom : cfg.buf.next + 4 ≤ cfg.buf.b.length
  · exact ⟨iff_of_true (peekExact_of_room hshape hroom) hroom,
      iff_of_true (readsOnward_of_room hshape hroom) hroom⟩
  · by_cases hend : cfg.buf.size < cfg.buf.next + 4
    · exact ⟨iff_of_false (not_peekExact_of_end hshape hend) hroom,
        iff_of_false (not_readsOnward_of_end hshape hend) hroom⟩
    · have hsize : cfg.buf.next + 4 ≤ cfg.buf.size := by omega
      have hout : (cfg.buf.b.length : Int) < cfg.buf.next + 4 := by omega
      exact ⟨iff_of_false (not_peekExact_of_outside hshape hsize hout) hroom,
        iff_of_false (not_readsOnward_of_outside hshape hsize hout) hroom⟩

end Runs

/-- A client that moves the cursor to `600`. -/
def skipAhead : Prog Int32 := .skip 600 (.deserializeNull fun _ => .ret none)

/-- An allocator that refuses every request. -/
def grantNone : Allocs := fun _ => none

/-- The state of `skipAhead` before its peek, when the block could not grow to 1024 bytes. -/
def pastBlock : SerBuff := { freshBuffer with size := 1024, next := 600, reallocs := 1 }

set_option maxRecDepth 4000 in
/-- A fresh buffer meets the condition; after a failed `realloc` the cursor can be past the
block, with 424 bytes left before `size`. -/
theorem peek_exact_iff_failed :
    (PeekExact grantNone freshBuffer ∧ ReadsOnward grantNone freshBuffer) ∧
      pastBlock.next + 4 ≤ pastBlock.size ∧
      ¬ PeekExact grantNone pastBlock ∧ ¬ ReadsOnward grantNone pastBlock := by
  have hstart : Reachable (· = startConfig skipAhead) (FreeStep grantNone intCodec)
      (startConfig skipAhead) := Reachable.start rfl
  have hskip : FreeStep grantNone intCodec (startConfig skipAhead)
      ⟨pastBlock, .deserializeNull fun _ => .ret none, []⟩ := rfl
  obtain ⟨hpeek, hread⟩ := peek_exact_iff hstart (by decide) (by decide)
  obtain ⟨hpeek', hread'⟩ := peek_exact_iff (hstart.next hskip) (by decide) (by decide)
  have hroom : freshBuffer.next + 4 ≤ freshBuffer.b.length := by
    rw [← freshBuffer_sound.block]
    decide
  have hlen : pastBlock.b.length = 512 := List.length_replicate
  have hout : ¬ pastBlock.next + 4 ≤ pastBlock.b.length := by
    rw [hlen]
    decide
  exact ⟨⟨hpeek.2 hroom, hread.2 hroom⟩, by decide, fun hx => hout (hpeek'.1 hx),
    fun hx => hout (hread'.1 hx)⟩

set_option maxRecDepth 4000 in
/-- `peekAtEnd` comes to its peek with two bytes left. The peek returns `0` and the cursor is
at `506`; and a `deserialize` of one byte would end at `507`, having read a byte of the 510
before the cursor. -/
theorem peek_moves_back :
    ∃ cfg : Config Int32,
      Reachable (· = startConfig peekAtEnd) (FittingStep grantAll intCodec) cfg ∧
      cfg.buf.next = 510 ∧ ¬ PeekExact grantAll cfg.buf ∧
      deserialize grantAll (fun buf => deserializeData buf 1) cfg.buf
        = .ok (some [0], { cfg.buf with next := 507 }) := by
  have hskip : stepProg grantAll intCodec (startConfig peekAtEnd)
      = .ok ⟨{ freshBuffer with next := 510 }, .deserializeNull fun _ => .ret none, []⟩ := rfl
  have hfit : Fits (startConfig peekAtEnd) := ⟨by decide, by decide⟩
  have hstart : Reachable (· = startConfig peekAtEnd) (FittingStep grantAll intCodec)
      (startConfig peekAtEnd) := Reachable.start rfl
  have hshape : SerBuff.Shape { freshBuffer with next := 510 } :=
    ⟨freshBuffer_sound.doubled, by decide, by decide, freshBuffer_sound.block_le⟩
  refine ⟨_, hstart.next ⟨hfit, hskip⟩, rfl, not_peekExact_of_end hshape ?_, rfl⟩
  decide

end CPlayground.Serial
