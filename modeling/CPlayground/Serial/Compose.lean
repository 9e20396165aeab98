import CPlayground.Serial.ObjectStream
import CPlayground.Serial.TwoLoops

set_option autoImplicit false

/-! # How writes compose

A `serialize_data` that comes back leaves the buffer that its bytes and the number of doublings
determine (`serializeData_iff`). Doubling a buffer and writing into it commute, so it makes no
difference how the bytes are divided into calls (`chunked_write_iff`): a writer made of many
calls does what one call with the whole encoding does (`AtOnce`). Nor does it make a difference
whether a header is written first, or reserved with `serialized_buffer_skip` and filled in when
the body is there (`patched_header_eq`).
-/

namespace CPlayground.Serial

variable {env : Allocs} {buf : SerBuff} {data rest : List Byte}

/-! ## Writing into a block that has room -/

/-- The buffer with `data` at its cursor, and the cursor behind it. -/
def written (buf : SerBuff) (data : List Byte) : SerBuff :=
  { buf.advance data.length with b := overwrite buf.b buf.next.toNat data }

@[simp] theorem written_size : (written buf data).size = buf.size := rfl

@[simp] theorem written_next : (written buf data).next = buf.next + data.length := rfl

theorem overwrite_length {b : List Byte} {off : Nat} (h : off + data.length ≤ b.length) :
    (overwrite b off data).length = b.length := by
  simp only [overwrite, List.length_append, List.length_take, List.length_drop]
  omega

/-- Two pieces that are written one behind the other. -/
theorem overwrite_overwrite {b : List Byte} {off : Nat} (h : off + data.length ≤ b.length) :
    overwrite (overwrite b off data) (off + data.length) rest = overwrite b off (data ++ rest) := by
  have hlen : (b.take off ++ data).length = off + data.length := by
    rw [List.length_append, List.length_take_of_le (by omega)]
  have htake : (overwrite b off data).take (off + data.length) = b.take off ++ data := by
    unfold overwrite
    rw [← hlen, List.take_left]
  have hdrop : (overwrite b off data).drop (off + data.length + rest.length)
      = b.drop (off + data.length + rest.length) := by
    rw [← List.drop_drop, overwrite_behind (by omega), List.drop_drop]
  calc overwrite (overwrite b off data) (off + data.length) rest
      = b.take off ++ data ++ rest ++ b.drop (off + data.length + rest.length) := by
        rw [overwrite, htake, hdrop]
    _ = overwrite b off (data ++ rest) := by
        rw [overwrite, List.length_append, ← List.append_assoc, Nat.add_assoc]

/-- New bytes behind the block do not matter for what is written into it. -/
theorem overwrite_append {b more : List Byte} {off : Nat} (h : off + data.length ≤ b.length) :
    overwrite (b ++ more) off data = overwrite b off data ++ more := by
  unfold overwrite
  rw [List.take_append_of_le_length (by omega), List.drop_append_of_le_length h,
    List.append_assoc, List.append_assoc, List.append_assoc]

theorem written_block (h : buf.Shape) (hroom : buf.next + data.length ≤ buf.b.length) :
    (written buf data).b.length = buf.b.length := by
  have hnext := h.next_nonneg
  exact overwrite_length (by omega)

theorem written_intact (h : buf.Shape) (hroom : buf.next + data.length ≤ buf.b.length) :
    (written buf data).Intact := by
  have hnext := h.next_nonneg
  have hle := h.block_le
  have hlen := written_block h hroom
  refine ⟨⟨h.doubled, ?_, ?_, ?_⟩, ?_⟩
  · show 0 ≤ buf.next + data.length
    omega
  · show buf.next + data.length ≤ buf.size
    omega
  · rw [hlen]
    exact hle
  · rw [hlen]
    exact hroom

theorem written_sound (h : buf.Sound) (hroom : buf.next + data.length ≤ buf.size) :
    (written buf data).Sound := by
  have hblock := h.block
  have hfits : buf.next + data.length ≤ buf.b.length := by omega
  refine ⟨(written_intact h.toShape hfits).toShape, ?_⟩
  rw [written_block h.toShape hfits]
  exact hblock

theorem written_nil (buf : SerBuff) : written buf [] = buf := by
  unfold written overwrite
  rw [List.length_nil, advance_zero, List.append_nil, Nat.add_zero, List.take_append_drop]

theorem written_written (h : buf.Shape) (hroom : buf.next + data.length ≤ buf.b.length) :
    written (written buf data) rest = written buf (data ++ rest) := by
  have hnext := h.next_nonneg
  have hto : (buf.next + data.length).toNat = buf.next.toNat + data.length := by omega
  have hb : overwrite (overwrite buf.b buf.next.toNat data) (buf.next.toNat + data.length) rest
      = overwrite buf.b buf.next.toNat (data ++ rest) := overwrite_overwrite (by omega)
  have hend : buf.next + data.length + rest.length = buf.next + (data ++ rest).length := by
    rw [List.length_append]
    omega
  unfold written
  simp only [SerBuff.advance, hto, hb, hend]

/-! ## Doubling and writing commute -/

/-- The block after a doubling that was granted. -/
theorem double_b_eq {fill : Nat → Byte} (he : env buf.reallocs = some fill) (h : buf.Shape) :
    (double env buf).b
      = buf.b ++ (List.range ((2 * buf.size).toNat - buf.b.length)).map fill := by
  have hle := h.block_le
  have hge := h.size_ge
  have htake : buf.b.take (2 * buf.size).toNat = buf.b := List.take_of_length_le (by omega)
  simp only [double, he, htake]

theorem double_written (h : buf.Shape) (hroom : buf.next + data.length ≤ buf.b.length) :
    double env (written buf data) = written (double env buf) data := by
  have hnext := h.next_nonneg
  have hfits : buf.next.toNat + data.length ≤ buf.b.length := by omega
  have hb : (double env (written buf data)).b =
      overwrite (double env buf).b buf.next.toNat data := by
    cases he : env buf.reallocs with
    | none =>
        have hleft := double_b_of_none env (show env (written buf data).reallocs = none from he)
        rw [hleft, double_b_of_none env he]
        rfl
    | some fill =>
        -- the new bytes are the same, for the write leaves the length of the block
        have hleft := double_b_eq (show env (written buf data).reallocs = some fill from he)
          (written_intact h hroom).toShape
        rw [hleft, double_b_eq he h, overwrite_append hfits, written_block h hroom]
        rfl
  calc double env (written buf data)
      = { written (double env buf) data with b := (double env (written buf data)).b } := rfl
    _ = written (double env buf) data := by rw [hb]; rfl

/-- No doubling makes the block shorter. -/
theorem iterate_block_le (env : Allocs) (h : buf.Shape) {k m : Nat} (hkm : k ≤ m)
    (hm : buf.size * 2 ^ m ≤ 2 ^ 30) :
    ((double env)^[k] buf).b.length ≤ ((double env)^[m] buf).b.length := by
  have hge := h.size_ge
  have hpow : (2 : Int) ^ m = 2 ^ k * 2 ^ (m - k) := by
    rw [← pow_add, Nat.add_sub_cancel' hkm]
  have hk : buf.size * 2 ^ k ≤ 2 ^ 30 := by
    have hone : (1 : Int) ≤ 2 ^ (m - k) := one_le_pow₀ (by norm_num)
    have hpos : (0 : Int) < buf.size * 2 ^ k := by positivity
    calc buf.size * 2 ^ k ≤ buf.size * 2 ^ k * 2 ^ (m - k) := le_mul_of_one_le_right hpos.le hone
      _ = buf.size * 2 ^ m := by rw [hpow, mul_assoc]
      _ ≤ 2 ^ 30 := hm
  have hkeep := iterate_keeps env (iterate_shape env h k hk) (k := m - k)
    (by rw [iterate_size, mul_assoc, ← hpow]; exact hm)
  rw [← Function.iterate_add_apply, Nat.sub_add_cancel hkm] at hkeep
  have hlen := congrArg List.length hkeep
  rw [List.length_take] at hlen
  omega

/-- **Doubling and writing commute**, also when a `realloc` fails. -/
theorem iterate_written (h : buf.Shape) (hroom : buf.next + data.length ≤ buf.b.length) {k : Nat}
    (hk : buf.size * 2 ^ k ≤ 2 ^ 30) :
    (double env)^[k] (written buf data) = written ((double env)^[k] buf) data := by
  induction k with
  | zero => rfl
  | succ k ih =>
      have hge := h.size_ge
      have hsz : buf.size * 2 ^ (k + 1) = 2 * (buf.size * 2 ^ k) := by ring
      have hpos : (0 : Int) < buf.size * 2 ^ k := by positivity
      have hgrown := iterate_block_le env h (Nat.zero_le k) (by omega)
      have hstill : ((double env)^[k] buf).next + data.length
          ≤ ((double env)^[k] buf).b.length := by
        rw [iterate_next]
        exact hroom.trans (by exact_mod_cast hgrown)
      calc (double env)^[k + 1] (written buf data)
          = double env ((double env)^[k] (written buf data)) := by
            rw [Function.iterate_succ_apply']
        _ = double env (written ((double env)^[k] buf) data) := by rw [ih (by omega)]
        _ = written (double env ((double env)^[k] buf)) data :=
            double_written (iterate_shape env h k (by omega)) hstill
        _ = written ((double env)^[k + 1] buf) data := by rw [Function.iterate_succ_apply']

/-! ## One write -/

/-- `k` doublings, the least number that makes room for `n` bytes at the cursor. -/
structure LeastRoom (buf : SerBuff) (n k : Nat) : Prop where
  room : buf.next + n ≤ buf.size * 2 ^ k
  max : buf.size * 2 ^ k ≤ 2 ^ 30
  least : ∀ j < k, buf.size * 2 ^ j < buf.next + n

theorem copyIn_iff (h : buf.Shape) (hroom : buf.next + data.length ≤ buf.size)
    (grown : SerBuff) : copyIn buf data = .ok grown ↔
      buf.next + data.length ≤ buf.b.length ∧ grown = written buf data := by
  have hmax := h.size_le
  have hnext := h.next_nonneg
  have hw : wrap32 (data.length : Int) = data.length := wrap32_eq (by omega) (by omega)
  have hw' : wrap32 (buf.next + data.length) = buf.next + data.length :=
    wrap32_eq (by omega) (by omega)
  by_cases hfits : buf.next + data.length ≤ buf.b.length
  · have hcopy : memcpyTo buf.b buf.next data = .ok (overwrite buf.b buf.next.toNat data) :=
      if_pos ⟨hnext, hfits⟩
    have hok : copyIn buf data = .ok (written buf data) := by
      rw [copyIn, hcopy]
      simp only [bind, Except.bind, pure, Except.pure, serializedBufferSerPosIncr, hw, hw',
        written, SerBuff.advance]
    rw [hok, Except.ok.injEq, and_iff_right hfits, eq_comm]
  · have hcopy : memcpyTo buf.b buf.next data = .error .outOfBlock :=
      if_neg fun hand => hfits hand.2
    rw [copyIn, hcopy]
    constructor
    · intro hok
      cases hok
    · rintro ⟨hfits', -⟩
      exact absurd hfits' hfits

/-- **A `serialize_data` that comes back** has made the least number of doublings, the block has
taken the bytes, and the buffer is the one this determines. -/
theorem serializeData_iff (h : buf.Shape) (grown : SerBuff) :
    serializeData env buf data = .ok grown ↔ ∃ k, LeastRoom buf data.length k ∧
      buf.next + data.length ≤ ((double env)^[k] buf).b.length ∧
      grown = written ((double env)^[k] buf) data := by
  have hrun : ∀ k, LeastRoom buf data.length k → (serializeData env buf data = .ok grown ↔
      buf.next + data.length ≤ ((double env)^[k] buf).b.length ∧
      grown = written ((double env)^[k] buf) data) := by
    intro k hk
    have hroom := hk.room
    have hmax := hk.max
    obtain ⟨m, hloop, hm, -, hleast⟩ := loops_agree env h
      (show buf.next + data.length ≤ 2 ^ 30 by omega)
    obtain rfl : m = k := doublings_unique hm hleast hroom hk.least
    have hcopy : copyIn ((double env)^[m] buf) data = .ok grown ↔ _ :=
      copyIn_iff (iterate_shape env h m hmax)
      (by rw [iterate_next, iterate_size]; exact hroom) grown
    rw [iterate_next] at hcopy
    rw [serializeData_loop, hloop]
    exact hcopy
  constructor
  · intro hok
    have happ : buf.next + data.length ≤ 2 ^ 30 := by
      obtain ⟨k, hk, happ⟩ := serializeData_ok env h hok
      have hend := happ.next
      have hsize := happ.intact.size_le
      have hle := happ.intact.next_le
      rw [iterate_next] at hend
      omega
    obtain ⟨k, -, hk, hmax, hleast⟩ := loops_agree env h happ
    exact ⟨k, ⟨hk, hmax, hleast⟩, (hrun k ⟨hk, hmax, hleast⟩).1 hok⟩
  · rintro ⟨k, hk, hwrite⟩
    exact (hrun k hk).2 hwrite

/-! ## Two writes -/

/-- The doublings of two writes, one after the other, are those of one write of both. -/
theorem LeastRoom.add {n m k l : Nat} (hk : LeastRoom buf n k)
    (hroom : buf.next + n + m ≤ buf.size * 2 ^ k * 2 ^ l)
    (hmax : buf.size * 2 ^ k * 2 ^ l ≤ 2 ^ 30)
    (hleast : ∀ j < l, buf.size * 2 ^ k * 2 ^ j < buf.next + n + m) :
    LeastRoom buf (n + m) (l + k) := by
  have hpow : ∀ j, buf.size * 2 ^ (k + j) = buf.size * 2 ^ k * 2 ^ j := by
    intro j
    rw [pow_add, mul_assoc]
  rw [Nat.add_comm l k]
  refine ⟨?_, ?_, fun j hj => ?_⟩
  · rw [hpow]
    push_cast
    omega
  · rw [hpow]
    exact hmax
  · push_cast
    by_cases hjk : j < k
    · have := hk.least j hjk
      omega
    · have := hleast (j - k) (by omega)
      rw [← hpow, Nat.add_sub_cancel' (by omega)] at this
      omega

/-- Two writes that come back do what one write of both does. -/
theorem serializeData_of_two (h : buf.Intact) {mid grown : SerBuff}
    (hfirst : serializeData env buf data = .ok mid)
    (hsecond : serializeData env mid rest = .ok grown) :
    serializeData env buf (data ++ rest) = .ok grown ∧ mid.Intact := by
  obtain ⟨k, hk, hblock, rfl⟩ := (serializeData_iff h.toShape mid).1 hfirst
  have hshape := iterate_shape env h.toShape k hk.max
  have hin : ((double env)^[k] buf).next + data.length ≤ ((double env)^[k] buf).b.length := by
    rw [iterate_next]
    exact hblock
  have hmid := written_intact hshape hin
  obtain ⟨l, hl, hblock', rfl⟩ := (serializeData_iff hmid.toShape grown).1 hsecond
  have hgrown : (double env)^[l] (written ((double env)^[k] buf) data) = _ :=
    iterate_written hshape hin hl.max
  have hlroom := hl.room
  have hlmax := hl.max
  have hlleast := hl.least
  simp only [written_size, written_next, iterate_size, iterate_next] at hlroom hlmax hlleast
  refine ⟨(serializeData_iff h.toShape _).2 ⟨l + k, ?_, ?_, ?_⟩, hmid⟩
  · rw [List.length_append]
    exact hk.add hlroom hlmax hlleast
  · have hlen : ((double env)^[l] (written ((double env)^[k] buf) data)).b.length
        = ((double env)^[l + k] buf).b.length := by
      rw [hgrown, Function.iterate_add_apply]
      refine written_block (iterate_shape env hshape l hl.max) ?_
      have hle := iterate_block_le env hshape (Nat.zero_le l) hl.max
      rw [iterate_next]
      exact hin.trans (by exact_mod_cast hle)
    rw [hlen, written_next, iterate_next] at hblock'
    rw [List.length_append]
    push_cast
    omega
  · rw [hgrown, Function.iterate_add_apply]
    refine written_written (iterate_shape env hshape l hl.max) ?_
    have hle := iterate_block_le env hshape (Nat.zero_le l) hl.max
    rw [iterate_next]
    exact hin.trans (by exact_mod_cast hle)

/-- With an allocator that grants every request, a write of two pieces can be cut in two. -/
theorem serializeData_cut (henv : AllocsSucceed env) (h : buf.Sound) {grown : SerBuff}
    (hok : serializeData env buf (data ++ rest) = .ok grown) :
    ∃ mid, serializeData env buf data = .ok mid ∧ mid.Sound ∧
      serializeData env mid rest = .ok grown := by
  have happ := serializeData_appends env h.toIntact hok
  have hend := happ.next
  have hle := happ.intact.next_le
  have hsize := happ.intact.size_le
  rw [List.length_append] at hend
  push_cast at hend
  obtain ⟨mid, hfirst, hmid, happ₁⟩ := serializeData_spec henv h data (by omega)
  have hnext := happ₁.next
  obtain ⟨grown', hsecond, -, -⟩ := serializeData_spec henv hmid rest (by omega)
  obtain ⟨hboth, -⟩ := serializeData_of_two h.toIntact hfirst hsecond
  rw [hok] at hboth
  cases hboth
  exact ⟨mid, hfirst, hmid, hsecond⟩

/-! ## Writers that do what one write does -/

/-- The writer does what one `serialize_data` of `bs` does. -/
def AtOnce (env : Allocs) (writer : SerBuff → Except Fault SerBuff) (bs : List Byte) : Prop :=
  ∀ buf, buf.Sound → ∀ grown, writer buf = .ok grown ↔ serializeData env buf bs = .ok grown

theorem atOnce_serializeData (env : Allocs) (data : List Byte) :
    AtOnce env (serializeData env · data) data := fun _ _ _ => Iff.rfl

theorem atOnce_nothing (env : Allocs) : AtOnce env (.ok ·) [] := by
  intro buf h grown
  have hnext := h.next_le
  have hmax := h.size_le
  have hblock := h.block
  constructor
  · intro hok
    cases hok
    refine (serializeData_iff h.toShape _).2 ⟨0, ⟨?_, ?_, ?_⟩, ?_, (written_nil buf).symm⟩
    · simpa using hnext
    · simpa using hmax
    · exact fun j hj => absurd hj (Nat.not_lt_zero j)
    · simpa using hblock ▸ hnext
  · intro hok
    obtain ⟨k, hk, -, rfl⟩ := (serializeData_iff h.toShape _).1 hok
    -- the cursor is in the block, so there is nothing to double
    cases k with
    | zero => rw [Function.iterate_zero, id, written_nil]
    | succ k =>
        have hlt := hk.least 0 (Nat.succ_pos k)
        simp only [List.length_nil, pow_zero, mul_one] at hlt
        omega

/-- **Writers compose**: one after the other they do what one write of both encodings does. -/
theorem AtOnce.bind (henv : AllocsSucceed env) {first second : SerBuff → Except Fault SerBuff}
    {bs cs : List Byte} (hf : AtOnce env first bs) (hs : AtOnce env second cs) :
    AtOnce env (fun buf => first buf >>= second) (bs ++ cs) := by
  intro buf h grown
  constructor
  · intro hok
    obtain ⟨mid, hmid, hrest⟩ := bind_eq_ok.1 hok
    have hwrite := (hf buf h mid).1 hmid
    have hsound := (serializeData_granted henv h hwrite).1
    exact (serializeData_of_two h.toIntact hwrite ((hs mid hsound grown).1 hrest)).1
  · intro hok
    obtain ⟨mid, hwrite, hsound, hrest⟩ := serializeData_cut henv h hok
    exact bind_eq_ok.2 ⟨mid, (hf buf h mid).2 hwrite, (hs mid hsound grown).2 hrest⟩

/-! ## Chunks -/

/-- `serialize_data` for each piece in turn. -/
def serializeChunks (env : Allocs) : List (List Byte) → SerBuff → Except Fault SerBuff
  | [], buf => .ok buf
  | data :: chunks, buf => serializeData env buf data >>= serializeChunks env chunks

theorem atOnce_chunks (henv : AllocsSucceed env) (chunks : List (List Byte)) :
    AtOnce env (serializeChunks env chunks) chunks.flatten := by
  induction chunks with
  | nil => exact atOnce_nothing env
  | cons data chunks ih => exact (atOnce_serializeData env data).bind henv ih

/-- Nothing is lost by one write instead of several, whatever the allocator does. -/
theorem serializeChunks_flatten (chunks : List (List Byte)) (h : buf.Intact)
    (hne : chunks ≠ []) {grown : SerBuff} (hok : serializeChunks env chunks buf = .ok grown) :
    serializeData env buf chunks.flatten = .ok grown := by
  induction chunks generalizing buf with
  | nil => exact absurd rfl hne
  | cons data chunks ih =>
      obtain ⟨mid, hfirst, hrest⟩ := bind_eq_ok.1 hok
      cases chunks with
      | nil =>
          cases hrest
          rw [List.flatten_cons, List.flatten_nil, List.append_nil]
          exact hfirst
      | cons data' chunks =>
          have hmid := (serializeData_appends env h hfirst).intact
          exact (serializeData_of_two h hfirst (ih hmid (List.cons_ne_nil _ _) hrest)).1

/-- **How the bytes are divided into calls makes no difference** to the buffer: to its block with
the bytes past the cursor, its size, its cursor and the number of calls of `realloc`. One call can
only do better, when a `realloc` fails that the first pieces need and the next one is granted. -/
theorem chunked_write_iff (h : buf.Sound) (chunks : List (List Byte)) (hne : chunks ≠ [])
    (grown : SerBuff) :
    (serializeChunks env chunks buf = .ok grown →
        serializeData env buf chunks.flatten = .ok grown) ∧
      (AllocsSucceed env → serializeData env buf chunks.flatten = .ok grown →
        serializeChunks env chunks buf = .ok grown) :=
  ⟨serializeChunks_flatten chunks h.toIntact hne,
    fun henv => (atOnce_chunks henv chunks buf h grown).2⟩

/-- A piece of 300 bytes and another. -/
theorem chunked_write_iff_halves : ∃ grown,
    serializeChunks grantAll [List.replicate 300 7, List.replicate 300 9] freshBuffer = .ok grown ∧
      grown.next = 600 := by
  have hlen : [List.replicate 300 (7 : Byte), List.replicate 300 9].flatten.length = 600 := by
    simp only [List.flatten_cons, List.flatten_nil, List.length_append, List.length_replicate,
      List.length_nil]
  obtain ⟨grown, hok, -, happ⟩ := serializeData_spec grantAll_succeeds freshBuffer_sound
    [List.replicate 300 7, List.replicate 300 9].flatten (by rw [hlen]; decide)
  refine ⟨grown, (chunked_write_iff freshBuffer_sound _ (List.cons_ne_nil _ _) grown).2
    grantAll_succeeds hok, ?_⟩
  rw [happ.next, hlen]
  rfl

/-! ## The codecs -/

section Codecs

variable (henv : AllocsSucceed env)
include henv

theorem atOnce_occupation (occ : Option Occupation) :
    AtOnce env (serializeOccupation env · occ) (encObject encOccupation occ) := by
  cases occ with
  | none => exact atOnce_serializeData env sentinel
  | some occ =>
      exact (atOnce_serializeData env occ.deptName.toList).bind henv
        (atOnce_serializeData env (intBytes occ.employeeCode))

theorem atOnce_person (person : Person) :
    AtOnce env (serializePerson env · (some person)) (encPerson person) :=
  (atOnce_serializeData env person.name.toList).bind henv
    ((atOnce_serializeData env (intBytes person.age)).bind henv
      ((atOnce_occupation henv person.occ).bind henv
        (atOnce_serializeData env (intBytes person.weight))))

/-- **A stream of objects is one write of its encodings**, when each object is. -/
theorem stream_at_once {α : Type} {serFunc : SerBuff → α → Except Fault SerBuff}
    {enc : α → List Byte} (hser : ∀ x, AtOnce env (serFunc · x) (enc x)) (xs : List (Option α)) :
    AtOnce env (serializeAll env serFunc xs) (xs.flatMap (encObject enc)) := by
  induction xs with
  | nil => exact atOnce_nothing env
  | cons x xs ih =>
      have hx : AtOnce env (serialize env serFunc · x) (encObject enc x) := by
        cases x with
        | none => exact atOnce_serializeData env sentinel
        | some y => exact hser y
      exact hx.bind henv ih

end Codecs

/-- **A stream of persons**, written object by object and field by field, leaves the buffer that
one `serialize_data` of the whole stream leaves. -/
theorem persons_at_once (henv : AllocsSucceed env) (h : buf.Sound) (xs : List (Option Person))
    (grown : SerBuff) :
    serializeAll env (fun buf person => serializePerson env buf (some person)) xs buf = .ok grown
      ↔ serializeData env buf (xs.flatMap (encObject encPerson)) = .ok grown :=
  stream_at_once henv (atOnce_person henv) xs buf h grown

/-- Two persons and a `NULL` between them. -/
theorem persons_at_once_three : ∃ grown,
    serializeAll grantAll (fun buf person => serializePerson grantAll buf (some person))
        [some jack, none, some peter] freshBuffer = .ok grown ∧
      Appends freshBuffer grown ([some jack, none, some peter].flatMap (encObject encPerson)) := by
  obtain ⟨grown, hok, -, happ⟩ := serializeData_spec grantAll_succeeds freshBuffer_sound
    ([some jack, none, some peter].flatMap (encObject encPerson)) (by decide)
  exact ⟨grown, (persons_at_once grantAll_succeeds freshBuffer_sound _ grown).2 hok, happ⟩

/-! ## A header that is filled in later -/

/-- `serialized_buffer_skip` behind a header of `header.length` bytes, the body, back to the
header, and forward again behind the body. -/
def serializePatched (env : Allocs) (header body : List Byte) (buf : SerBuff) :
    Except Fault SerBuff := do
  let buf ← serializedBufferSkip env buf header.length
  let buf ← serializeData env buf body
  let buf ← serializedBufferSkip env buf (-(header.length + body.length : Int))
  let buf ← serializeData env buf header
  serializedBufferSkip env buf body.length

/-- A skip forward that comes back. -/
theorem skip_eq (h : buf.Shape) {n : Nat} (hfit : buf.next + n ≤ 2 ^ 30) :
    ∃ k, LeastRoom buf n k ∧
      serializedBufferSkip env buf n = .ok (((double env)^[k] buf).advance n) := by
  obtain ⟨k, hloop, hk, hmax, hleast⟩ := loops_agree env h hfit
  have hnext := h.next_nonneg
  have hend : ((double env)^[k] buf).next = buf.next := iterate_next env k
  refine ⟨k, ⟨hk, hmax, hleast⟩, ?_⟩
  rw [skip_loop, hloop]
  show Except.ok { (double env)^[k] buf with next := wrap32 (((double env)^[k] buf).next + n) } = _
  rw [wrap32_eq (by omega) (by omega)]
  rfl

/-- The buffer with its cursor at `next`. -/
def SerBuff.moveTo (buf : SerBuff) (next : Int) : SerBuff := { buf with next := next }

theorem moveTo_sound (h : buf.Sound) {next : Int} (h0 : 0 ≤ next) (hle : next ≤ buf.size) :
    (buf.moveTo next).Sound :=
  ⟨⟨h.doubled, h0, hle, h.block_le⟩, h.block⟩

/-- A skip that stays in the buffer only moves the cursor. -/
theorem skip_within (env : Allocs) (h : buf.Shape) {size : Int} (h0 : 0 ≤ buf.next + size)
    (hle : buf.next + size ≤ buf.size) :
    serializedBufferSkip env buf size = .ok (buf.moveTo (buf.next + size)) := by
  have hmax := h.size_le
  have hroom : decide (size ≤ buf.available) = true := by
    rw [decide_eq_true_eq, h.room_skip]
    exact hle
  have hw : wrap32 (buf.next + size) = buf.next + size := wrap32_eq (by omega) (by omega)
  simp only [serializedBufferSkip, growFuel, growLoop, hroom, if_true, bind, Except.bind, hw]
  rfl

/-- Without a doubling a write is the copy alone. -/
theorem serializeData_within (env : Allocs) (h : buf.Sound)
    (hroom : buf.next + data.length ≤ buf.size) :
    serializeData env buf data = .ok (written buf data) := by
  have hmax := h.size_le
  have hblock := h.block
  refine (serializeData_iff h.toShape _).2 ⟨0, ⟨?_, ?_, ?_⟩, ?_, rfl⟩
  · simpa using hroom
  · simpa using hmax
  · exact fun j hj => absurd hj (Nat.not_lt_zero j)
  · simpa using hblock ▸ hroom

theorem iterate_advance (env : Allocs) (n k : Nat) :
    (double env)^[k] (buf.advance n) = ((double env)^[k] buf).advance n := by
  induction k with
  | zero => rfl
  | succ k ih =>
      rw [Function.iterate_succ_apply', Function.iterate_succ_apply', ih]
      rfl

/-- The header in front of a body that is there already. -/
theorem overwrite_patch {b header body : List Byte} {off : Nat}
    (h : off + header.length ≤ b.length) :
    overwrite (overwrite b (off + header.length) body) off header
      = overwrite b off (header ++ body) := by
  have hfront : (overwrite b (off + header.length) body).take off = b.take off := by
    calc (overwrite b (off + header.length) body).take off
        = ((overwrite b (off + header.length) body).take (off + header.length)).take off := by
          rw [List.take_take, Nat.min_eq_left (Nat.le_add_right _ _)]
      _ = (b.take (off + header.length)).take off := by rw [overwrite_before h]
      _ = b.take off := by rw [List.take_take, Nat.min_eq_left (Nat.le_add_right _ _)]
  rw [overwrite, hfront, overwrite_drop h]
  unfold overwrite
  rw [List.length_append, List.append_assoc, List.append_assoc, List.append_assoc, Nat.add_assoc]

/-- The two writes into a block that has room, with the steps of the cursor between them. -/
theorem patch_written (h : buf.Sound) {header body : List Byte}
    (hroom : buf.next + header.length + body.length ≤ buf.size) :
    (written ((written (buf.advance header.length) body).moveTo buf.next) header).moveTo
      (buf.next + header.length + body.length) = written buf (header ++ body) := by
  have hnext := h.next_nonneg
  have hblock := h.block
  have hto : (buf.next + header.length).toNat = buf.next.toNat + header.length := by omega
  have hb : overwrite (overwrite buf.b (buf.next.toNat + header.length) body) buf.next.toNat header
      = overwrite buf.b buf.next.toNat (header ++ body) := overwrite_patch (by omega)
  have hend : buf.next + header.length + body.length = buf.next + (header ++ body).length := by
    rw [List.length_append]
    omega
  unfold written SerBuff.moveTo
  simp only [SerBuff.advance, hto, hb, hend]

/-- The steps of the patch that come after the body, when nothing is left to double. -/
theorem patch_full (env : Allocs) (h : buf.Sound) {header body : List Byte}
    (hroom : buf.next + header.length + body.length ≤ buf.size) :
    (do
      let buf ← serializedBufferSkip env (written (buf.advance header.length) body)
        (-(header.length + body.length : Int))
      let buf ← serializeData env buf header
      serializedBufferSkip env buf body.length) = .ok (written buf (header ++ body)) := by
  have hnext := h.next_nonneg
  have hbody : (written (buf.advance header.length) body).Sound :=
    written_sound (moveTo_sound h (by omega) (by omega)) hroom
  have hback : serializedBufferSkip env (written (buf.advance header.length) body)
      (-(header.length + body.length : Int))
        = .ok ((written (buf.advance header.length) body).moveTo buf.next) := by
    have hto : (written (buf.advance header.length) body).next
        + -(header.length + body.length : Int) = buf.next := by
      show buf.next + header.length + body.length + -(header.length + body.length : Int) = buf.next
      omega
    rw [skip_within env hbody.toShape (by omega) (by rw [hto]; exact h.next_le), hto]
  generalize hmid : (written (buf.advance header.length) body).moveTo buf.next = mid at hback
  have hmidSound : mid.Sound := hmid ▸ moveTo_sound hbody hnext h.next_le
  have hmidNext : mid.next = buf.next := hmid ▸ rfl
  have hmidSize : mid.size = buf.size := hmid ▸ rfl
  have hheader : serializeData env mid header = .ok (written mid header) :=
    serializeData_within env hmidSound (by omega)
  have hforth : serializedBufferSkip env (written mid header) body.length
      = .ok ((written mid header).moveTo (buf.next + header.length + body.length)) := by
    rw [← hmidNext]
    refine skip_within env (written_sound hmidSound (by omega)).toShape ?_ ?_
    · rw [written_next]
      omega
    · rw [written_next, written_size]
      omega
  rw [hback]
  show (serializeData env mid header >>= fun buf => serializedBufferSkip env buf body.length) = _
  rw [hheader]
  show serializedBufferSkip env (written mid header) body.length = _
  rw [hforth, ← hmid, patch_written h hroom]

/-- **A header that is filled in later** leaves the buffer that writing it first leaves, whatever
the number of doublings before and behind it. -/
theorem patched_header_eq (henv : AllocsSucceed env) (h : buf.Sound) (header body : List Byte)
    (hfit : buf.next + header.length + body.length ≤ 2 ^ 30) :
    serializePatched env header body buf = serializeData env buf (header ++ body) := by
  have hnext := h.next_nonneg
  -- room for the header, then for the body behind it
  obtain ⟨k, hk, hreserve⟩ : ∃ k, LeastRoom buf header.length k ∧
      serializedBufferSkip env buf header.length
        = .ok (((double env)^[k] buf).advance header.length) := skip_eq h.toShape (by omega)
  have hgrown := iterate_sound henv h hk.max
  have hkroom := hk.room
  have hadvanced : (((double env)^[k] buf).advance header.length).Sound := by
    refine ⟨⟨hgrown.doubled, ?_, ?_, hgrown.block_le⟩, hgrown.block⟩
    · show 0 ≤ ((double env)^[k] buf).next + header.length
      rw [iterate_next]
      omega
    · show ((double env)^[k] buf).next + header.length ≤ ((double env)^[k] buf).size
      rw [iterate_next, iterate_size]
      exact hkroom
  obtain ⟨mid, hbody, -, -⟩ := serializeData_spec henv hadvanced body (by
    show ((double env)^[k] buf).next + header.length + body.length ≤ 2 ^ 30
    rw [iterate_next]
    exact hfit)
  obtain ⟨l, hl, -, hmid⟩ := (serializeData_iff hadvanced.toShape mid).1 hbody
  have hlroom := hl.room
  have hlmax := hl.max
  have hlleast := hl.least
  simp only [SerBuff.advance, iterate_size, iterate_next] at hlroom hlmax hlleast
  have hall : LeastRoom buf (header ++ body).length (l + k) := by
    rw [List.length_append]
    exact hk.add hlroom hlmax hlleast
  rw [iterate_advance, ← Function.iterate_add_apply] at hmid
  -- from here on nothing is doubled
  have hfull := iterate_sound henv h hall.max
  have hroom : ((double env)^[l + k] buf).next + header.length + body.length
      ≤ ((double env)^[l + k] buf).size := by
    rw [iterate_next, iterate_size, pow_add, mul_comm ((2 : Int) ^ l), ← mul_assoc]
    exact hlroom
  have hwhole : serializeData env buf (header ++ body)
      = .ok (written ((double env)^[l + k] buf) (header ++ body)) := by
    refine (serializeData_iff h.toShape _).2 ⟨l + k, hall, ?_, rfl⟩
    have hblock := hfull.block
    have hsame : ((double env)^[l + k] buf).next = buf.next := iterate_next env (l + k)
    rw [← hsame, List.length_append]
    push_cast
    omega
  rw [hwhole, serializePatched, hreserve]
  show (serializeData env _ body >>= _) = _
  rw [hbody, hmid]
  exact patch_full env hfull hroom

/-- A header of 4 bytes in front of 600. -/
theorem patched_header_eq_length :
    serializePatched grantAll [88, 2, 0, 0] (List.replicate 600 7) freshBuffer
      = serializeData grantAll freshBuffer ([88, 2, 0, 0] ++ List.replicate 600 7) :=
  patched_header_eq grantAll_succeeds freshBuffer_sound _ _
    (by rw [List.length_replicate]; decide)

end CPlayground.Serial
