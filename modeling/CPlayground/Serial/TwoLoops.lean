import CPlayground.Serial.AllocFailure
import CPlayground.Serial.ReadBound

set_option autoImplicit false

/-! # The two growth loops

`serialize_data` and `serialized_buffer_skip` each have a loop that doubles the buffer until
there is room, one with a test in `size_t` and one with a test in `int`. Up to `2^30` the two
tests say the same while the cursor is inside the buffer, no doubling overflows, and both loops
stop after the least number of doublings (`append_and_skip`). Beyond `2^30` each of them comes to
the doubling of `2^30`, which overflows. `safe_loop_iff` says for which requests the arithmetic
is safe, also from a cursor that a negative skip has moved out of the buffer.
-/

namespace CPlayground.Serial

/-! ## The loops -/

/-- The loops that make room for `n` bytes. -/
inductive Loop
  | serializeData
  | skip
  deriving DecidableEq, Repr

/-- The test that ends the loop: one is made in `size_t`, the other in `int`. -/
def Loop.room (n : Nat) : Loop → SerBuff → Bool
  | .serializeData, buf => decide (n ≤ toSizeT buf.available)
  | .skip, buf => decide ((n : Int) ≤ buf.available)

section Loops

variable {env : Allocs} {buf buf' : SerBuff} {n : Nat}

theorem serializeData_loop (data : List Byte) :
    serializeData env buf data =
      growLoop env (Loop.serializeData.room data.length) growFuel buf >>= (copyIn · data) := rfl

theorem skip_loop : serializedBufferSkip env buf n =
    growLoop env (Loop.skip.room n) growFuel buf >>= fun grown =>
      .ok { grown with next := wrap32 (grown.next + n) } := rfl

/-- A test is exact when the difference is an `int` and, as a `size_t`, not negative. -/
theorem Loop.room_exact (loop : Loop) (hfits : FitsInt (buf.size - buf.next))
    (hle : loop = .serializeData → buf.next ≤ buf.size) :
    loop.room n buf = true ↔ buf.next + n ≤ buf.size := by
  have hav : buf.available = buf.size - buf.next := wrap32_eq hfits.1 hfits.2
  have hlt := hfits.2
  cases loop with
  | serializeData =>
      have hnonneg := hle rfl
      rw [Loop.room, decide_eq_true_eq, hav, toSizeT_eq (by omega) (by omega)]
      omega
  | skip =>
      rw [Loop.room, decide_eq_true_eq, hav]
      omega

/-- **The two tests agree** while the cursor is inside the buffer. -/
theorem Loop.room_iff (loop : Loop) (h : buf.Shape) :
    loop.room n buf = true ↔ buf.next + n ≤ buf.size := by
  have hmax := h.size_le
  have hnext := h.next_nonneg
  have hle := h.next_le
  exact loop.room_exact ⟨by omega, by omega⟩ fun _ => hle

/-- The test as a test for the size that is needed, while the cursor stays. -/
theorem Loop.room_need (loop : Loop) (n : Nat) (buf' : SerBuff) (hs : buf'.Shape)
    (hn : buf'.next = buf.next) : loop.room n buf' = true ↔ buf.next + n ≤ buf'.size := by
  rw [loop.room_iff hs, hn]

/-- **The loops agree.** Up to `2^30` both stop after the least number of doublings that makes
room. -/
theorem loops_agree (env : Allocs) (h : buf.Shape) (hfit : buf.next + n ≤ 2 ^ 30) :
    ∃ k, (∀ loop : Loop, growLoop env (loop.room n) growFuel buf = .ok ((double env)^[k] buf)) ∧
      buf.next + n ≤ buf.size * 2 ^ k ∧ buf.size * 2 ^ k ≤ 2 ^ 30 ∧
      ∀ j < k, buf.size * 2 ^ j < buf.next + n := by
  have hfuel := fuel_enough h
  obtain ⟨k, hdata, hk, hmax, hleast⟩ := growLoop_eq_iterate env (Loop.serializeData.room n) _
    hfit growFuel buf h (Loop.serializeData.room_need n) hfuel
  obtain ⟨m, hskip, hm, -, hleast'⟩ := growLoop_eq_iterate env (Loop.skip.room n) _
    hfit growFuel buf h (Loop.skip.room_need n) hfuel
  -- the other loop stops after as many doublings
  obtain rfl : k = m := doublings_unique hk hleast hm hleast'
  refine ⟨k, fun loop => ?_, hk, hmax, hleast⟩
  cases loop with
  | serializeData => exact hdata
  | skip => exact hskip

/-! ## Rounds -/

/-- One round of a loop that ends at `room`. -/
def Round (env : Allocs) (room : SerBuff → Bool) (buf buf' : SerBuff) : Prop :=
  room buf = false ∧ serializedBufferResize env buf 2 = .ok buf'

/-- The loop comes from `buf` to `buf'`. -/
abbrev Rounds (env : Allocs) (room : SerBuff → Bool) : SerBuff → SerBuff → Prop :=
  Relation.ReflTransGen (Round env room)

theorem rounds_of_room {room : SerBuff → Bool} (hroom : room buf = true)
    (hrounds : Rounds env room buf buf') : buf' = buf := by
  rcases Relation.ReflTransGen.cases_head hrounds with rfl | ⟨mid, ⟨hno, -⟩, -⟩
  · rfl
  · rw [hroom] at hno
    exact absurd hno.symm Bool.false_ne_true

/-- Where the loop comes, the size is one that a buffer can have, and the cursor is the old one. -/
theorem rounds_sized {room : SerBuff → Bool} (h : Sized buf)
    (hrounds : Rounds env room buf buf') : Sized buf' ∧ buf'.next = buf.next := by
  induction hrounds with
  | refl => exact ⟨h, rfl⟩
  | tail _ hround ih =>
      obtain ⟨hmid, hnext⟩ := ih
      obtain ⟨-, hsame, -⟩ := resize_cases hround.2
      exact ⟨resize_sized hmid hround.2, hsame.trans hnext⟩

/-- The loop of the source runs through the rounds, to the first place with room. -/
theorem growLoop_rounds {room : SerBuff → Bool} {fuel : Nat} {grown : SerBuff}
    (hok : growLoop env room fuel buf = .ok grown) :
    Rounds env room buf grown ∧ room grown = true := by
  induction fuel generalizing buf with
  | zero =>
      by_cases hroom : room buf = true
      · rw [growLoop, if_pos hroom] at hok
        cases hok
        exact ⟨.refl, hroom⟩
      · rw [growLoop, if_neg hroom] at hok
        cases hok
  | succ fuel ih =>
      by_cases hroom : room buf = true
      · rw [growLoop, if_pos hroom] at hok
        cases hok
        exact ⟨.refl, hroom⟩
      · rw [growLoop, if_neg hroom] at hok
        obtain ⟨mid, hresize, hrest⟩ := bind_eq_ok.1 hok
        obtain ⟨hrounds, hend⟩ := ih hrest
        exact ⟨.head ⟨Bool.eq_false_iff.2 hroom, hresize⟩ hrounds, hend⟩

/-- A loop that doubles no size beyond `2^30` ends. -/
theorem growLoop_ends {room : SerBuff → Bool} {fuel k : Nat} (hsize : buf.size = 512 * 2 ^ k)
    (hfuel : 21 ≤ fuel + k)
    (hdouble : ∀ buf', Rounds env room buf buf' → room buf' = false → 2 * buf'.size ≤ 2 ^ 30) :
    ∃ grown, growLoop env room fuel buf = .ok grown := by
  have hpos : (0 : Int) < 2 ^ k := by positivity
  induction fuel generalizing buf k with
  | zero =>
      -- out of fuel the size is `2^30` already
      have hroom : room buf = true := by
        by_contra hno
        have hle := hdouble buf .refl (Bool.eq_false_iff.2 hno)
        have hbig : (2 : Int) ^ 21 ≤ 2 ^ k := pow_le_pow_right₀ (by norm_num) (by omega)
        omega
      exact ⟨buf, by rw [growLoop, if_pos hroom]⟩
  | succ fuel ih =>
      by_cases hroom : room buf = true
      · exact ⟨buf, by rw [growLoop, if_pos hroom]⟩
      · have hno := Bool.eq_false_iff.2 hroom
        have hresize := resize_eq_double env (by omega) (hdouble buf .refl hno)
        have hnext : (double env buf).size = 512 * 2 ^ (k + 1) := by
          rw [double_size, hsize]
          ring
        obtain ⟨grown, hgrown⟩ := ih hnext (by omega)
          (fun buf' hrounds => hdouble buf' (.head ⟨hno, hresize⟩ hrounds)) (by positivity)
        refine ⟨grown, ?_⟩
        rw [growLoop, if_neg hroom, hresize]
        exact hgrown

/-- A size whose double is an `int` can be doubled. -/
theorem Sized.double_le (h : Sized buf) (hmul : FitsInt (buf.size * 2)) :
    0 < buf.size ∧ 2 * buf.size ≤ 2 ^ 30 := by
  obtain ⟨hlow, hhigh⟩ := hmul
  rcases h with ⟨k, -, hs⟩ | hs
  · have hpos : (0 : Int) < 2 ^ k := by positivity
    have hk : k < 21 := exponent_lt k (by omega)
    have hnext := pow_le_of_le (k + 1) hk
    rw [pow_succ] at hnext
    omega
  · omega

theorem Sized.le (h : Sized buf) : buf.size ≤ 2 ^ 30 := by
  rcases h with ⟨k, hk, hs⟩ | hs
  · exact hs ▸ pow_le_of_le k hk
  · omega

/-! ## Which requests are safe -/

/-- The arithmetic of the loop is safe from `buf` on: wherever it comes, neither `size - next`
nor the doubling of `size` overflows, and it ends with room for `n` bytes. -/
structure SafeLoop (env : Allocs) (loop : Loop) (n : Nat) (buf : SerBuff) : Prop where
  subtraction : ∀ buf', Rounds env (loop.room n) buf buf' → FitsInt (buf'.size - buf'.next)
  multiplication : ∀ buf', Rounds env (loop.room n) buf buf' → loop.room n buf' = false →
    FitsInt (buf'.size * 2)
  ends : ∃ grown, growLoop env (loop.room n) growFuel buf = .ok grown ∧
    n ≤ grown.size - grown.next

/-- The loop can grow the buffer until there is room for `n` bytes: the request ends within `2^30`,
no size up to the first one with room is `2^31` beyond the cursor, and for `serialize_data` the
cursor is not beyond the buffer. -/
structure Loop.CanGrow (loop : Loop) (n : Nat) (buf : SerBuff) : Prop where
  pos : 0 < buf.size
  fit : buf.next + n ≤ 2 ^ 30
  inside : loop = .serializeData → buf.next ≤ buf.size
  tried : ∀ k, (∀ j < k, buf.size * 2 ^ j < buf.next + n) → buf.size * 2 ^ k - buf.next < 2 ^ 31

/-- With the cursor inside the buffer it is enough that the request ends within `2^30`. -/
theorem Loop.canGrow_of_inside (loop : Loop) (h : buf.Shape) (hfit : buf.next + n ≤ 2 ^ 30) :
    loop.CanGrow n buf := by
  have hmax := h.size_le
  have hge := h.size_ge
  have hnext := h.next_nonneg
  have hle := h.next_le
  refine ⟨by omega, hfit, fun _ => hle, fun k htried => ?_⟩
  cases k with
  | zero => omega
  | succ k =>
      have hlast := htried k (Nat.lt_succ_self k)
      have hdouble : buf.size * 2 ^ (k + 1) = 2 * (buf.size * 2 ^ k) := by ring
      omega

/-- Room at the start: nothing is doubled. -/
theorem safeLoop_of_room (loop : Loop) (hroom : buf.next + n ≤ buf.size)
    (hlt : buf.size - buf.next < 2 ^ 31) : SafeLoop env loop n buf := by
  have hfits : FitsInt (buf.size - buf.next) := ⟨by omega, hlt⟩
  have hstart : loop.room n buf = true := (loop.room_exact hfits fun _ => by omega).2 hroom
  constructor
  case subtraction =>
    intro buf' hrounds
    rw [rounds_of_room hstart hrounds]
    exact hfits
  case multiplication =>
    intro buf' hrounds hno
    rw [rounds_of_room hstart hrounds, hstart] at hno
    cases hno
  case ends => exact ⟨buf, by rw [growFuel, growLoop, if_pos hstart], by omega⟩

/-- `buf'` is `buf` with a size it has when it is doubled until there is room. -/
structure Doubled (n : Nat) (buf buf' : SerBuff) : Prop where
  next : buf'.next = buf.next
  size : ∃ k, buf'.size = buf.size * 2 ^ k ∧ ∀ j < k, buf.size * 2 ^ j < buf.next + n

theorem Doubled.le (h : Doubled n buf buf') (hpos : 0 < buf.size) : buf.size ≤ buf'.size := by
  obtain ⟨k, hsize, -⟩ := h.size
  rw [hsize]
  exact le_mul_of_one_le_right hpos.le (one_le_pow₀ (by norm_num))

/-- At such a size the subtraction does not overflow, so the test is exact. -/
theorem Loop.CanGrow.exact {loop : Loop} (h : loop.CanGrow n buf) (hint : FitsInt buf.next)
    (hd : Doubled n buf buf') : FitsInt (buf'.size - buf'.next) ∧
      (loop.room n buf' = true ↔ buf.next + n ≤ buf'.size) := by
  have hpos := h.pos
  have hge := hd.le hpos
  have hhigh := hint.2
  obtain ⟨k, hsize, hbelow⟩ := hd.size
  have hlt := h.tried k hbelow
  have hfits : FitsInt (buf'.size - buf'.next) := by
    rw [hd.next]
    exact ⟨by omega, by omega⟩
  refine ⟨hfits, ?_⟩
  rw [← hd.next]
  refine loop.room_exact hfits fun hloop => ?_
  rw [hd.next]
  exact (h.inside hloop).trans hge

theorem Loop.CanGrow.rounds {loop : Loop} (h : loop.CanGrow n buf) (hsized : Sized buf)
    (hint : FitsInt buf.next) (hrounds : Rounds env (loop.room n) buf buf') :
    Doubled n buf buf' := by
  induction hrounds with
  | refl => exact ⟨rfl, 0, by rw [pow_zero, mul_one], fun j hj => absurd hj (Nat.not_lt_zero j)⟩
  | @tail mid buf' hmid hround ih =>
      obtain ⟨hno, hresize⟩ := hround
      have hfit := h.fit
      have hnext := (rounds_sized hsized (hmid.tail ⟨hno, hresize⟩)).2
      have hlt : mid.size < buf.next + n := by
        rw [← not_le, ← (h.exact hint ih).2, hno]
        exact Bool.false_ne_true
      obtain ⟨k, hsize, hbelow⟩ := ih.size
      refine ⟨hnext, k + 1, ?_, fun j hj => ?_⟩
      · rcases resize_doubles (rounds_sized hsized hmid).1 hresize with ⟨-, -, hd⟩ | ⟨htop, -⟩
        · calc buf'.size = 2 * mid.size := hd
            _ = 2 * (buf.size * 2 ^ k) := by rw [hsize]
            _ = buf.size * 2 ^ (k + 1) := by ring
        · omega
      · rcases Nat.lt_succ_iff_lt_or_eq.1 hj with hj | rfl
        · exact hbelow j hj
        · exact hsize ▸ hlt

/-- Without room the size is below `2^30`, and can be doubled. -/
theorem Loop.CanGrow.multiplication {loop : Loop} (h : loop.CanGrow n buf) (hsized : Sized buf)
    (hint : FitsInt buf.next) (hrounds : Rounds env (loop.room n) buf buf')
    (hno : loop.room n buf' = false) : FitsInt (buf'.size * 2) := by
  have hd := h.rounds hsized hint hrounds
  have hpos := h.pos
  have hge := hd.le hpos
  have hfit := h.fit
  have hlt : buf'.size < buf.next + n := by
    rw [← not_le, ← (h.exact hint hd).2, hno]
    exact Bool.false_ne_true
  exact ⟨by omega, by omega⟩

theorem safeLoop_of_canGrow {loop : Loop} (h : loop.CanGrow n buf) (hsized : Sized buf)
    (hint : FitsInt buf.next) : SafeLoop env loop n buf := by
  have hmul : ∀ buf', Rounds env (loop.room n) buf buf' → loop.room n buf' = false →
      FitsInt (buf'.size * 2) := fun _ hrounds hno => h.multiplication hsized hint hrounds hno
  refine ⟨fun buf' hrounds => (h.exact hint (h.rounds hsized hint hrounds)).1, hmul, ?_⟩
  obtain ⟨k, hs⟩ : ∃ k, buf.size = 512 * 2 ^ k := by
    have hpos := h.pos
    rcases hsized with ⟨k, -, hs⟩ | hs
    · exact ⟨k, hs⟩
    · omega
  obtain ⟨grown, hgrown⟩ : ∃ grown, growLoop env (loop.room n) growFuel buf = .ok grown :=
    growLoop_ends hs (by unfold growFuel; omega) fun buf' hrounds hno =>
      ((rounds_sized hsized hrounds).1.double_le (hmul buf' hrounds hno)).2
  obtain ⟨hrounds, hroom⟩ := growLoop_rounds hgrown
  have hd := h.rounds hsized hint hrounds
  have henough := (h.exact hint hd).2.1 hroom
  refine ⟨grown, hgrown, ?_⟩
  rw [hd.next]
  omega

/-- A safe loop without room at the start does not stop there. -/
theorem SafeLoop.no_room {loop : Loop} (h : SafeLoop env loop n buf)
    (hno : ¬ buf.next + n ≤ buf.size) : loop.room n buf = false := by
  rw [Bool.eq_false_iff]
  intro hroom
  obtain ⟨grown, hgrown, henough⟩ := h.ends
  rw [growFuel, growLoop, if_pos hroom] at hgrown
  cases hgrown
  omega

theorem SafeLoop.fit {loop : Loop} (h : SafeLoop env loop n buf) (hsized : Sized buf) :
    buf.next + n ≤ 2 ^ 30 := by
  obtain ⟨grown, hgrown, henough⟩ := h.ends
  obtain ⟨hgrownSized, hnext⟩ := rounds_sized hsized (growLoop_rounds hgrown).1
  have hle := hgrownSized.le
  omega

/-- From a cursor beyond the buffer the difference is huge as a `size_t`. -/
theorem SafeLoop.inside (h : SafeLoop env .serializeData n buf) (hsized : Sized buf)
    (hpos : 0 < buf.size) (hno : ¬ buf.next + n ≤ buf.size) : buf.next ≤ buf.size := by
  by_contra hbeyond
  have hfit := h.fit hsized
  have hfits := h.subtraction buf .refl
  have hlow := hfits.1
  have hav : buf.available = buf.size - buf.next := wrap32_eq hfits.1 hfits.2
  have hroom : Loop.serializeData.room n buf = true := by
    rw [Loop.room, decide_eq_true_eq, hav]
    unfold toSizeT
    omega
  rw [h.no_room hno] at hroom
  cases hroom

/-- A safe loop comes to every size up to the first one with room. -/
theorem SafeLoop.visits {loop : Loop} (h : SafeLoop env loop n buf) (hsized : Sized buf)
    (hpos : 0 < buf.size) (hinside : loop = .serializeData → buf.next ≤ buf.size) (k : Nat)
    (hbelow : ∀ j < k, buf.size * 2 ^ j < buf.next + n) :
    ∃ buf', Rounds env (loop.room n) buf buf' ∧ buf'.size = buf.size * 2 ^ k := by
  induction k with
  | zero => exact ⟨buf, .refl, by rw [pow_zero, mul_one]⟩
  | succ k ih =>
      obtain ⟨mid, hmid, hsize⟩ := ih fun j hj => hbelow j (Nat.lt_succ_of_lt hj)
      obtain ⟨hmidSized, hnext⟩ := rounds_sized hsized hmid
      have hge : buf.size ≤ buf.size * 2 ^ k :=
        le_mul_of_one_le_right hpos.le (one_le_pow₀ (by norm_num))
      have hlt := hbelow k (Nat.lt_succ_self k)
      have hroom : loop.room n mid = false := by
        rw [Bool.eq_false_iff, ne_eq, loop.room_exact (h.subtraction mid hmid) fun hloop => by
          rw [hnext, hsize]
          exact (hinside hloop).trans hge]
        omega
      obtain ⟨hmidPos, hle⟩ := hmidSized.double_le (h.multiplication mid hmid hroom)
      refine ⟨double env mid, hmid.tail ⟨hroom, resize_eq_double env hmidPos hle⟩, ?_⟩
      calc (double env mid).size = 2 * mid.size := double_size env
        _ = 2 * (buf.size * 2 ^ k) := by rw [hsize]
        _ = buf.size * 2 ^ (k + 1) := by ring

theorem SafeLoop.canGrow {loop : Loop} (h : SafeLoop env loop n buf) (hsized : Sized buf)
    (hno : ¬ buf.next + n ≤ buf.size) : loop.CanGrow n buf := by
  have hpos := (hsized.double_le (h.multiplication buf .refl (h.no_room hno))).1
  have hinside : loop = .serializeData → buf.next ≤ buf.size := by
    rintro rfl
    exact h.inside hsized hpos hno
  refine ⟨hpos, h.fit hsized, hinside, fun k hbelow => ?_⟩
  obtain ⟨buf', hrounds, hsize⟩ := h.visits hsized hpos hinside k hbelow
  have hfits := (h.subtraction buf' hrounds).2
  rwa [hsize, (rounds_sized hsized hrounds).2] at hfits

/-- **Which requests are safe**, for any cursor. -/
theorem safeLoop_iff (loop : Loop) (hsized : Sized buf) (hint : FitsInt buf.next) :
    SafeLoop env loop n buf ↔
      buf.next + n ≤ buf.size ∧ buf.size - buf.next < 2 ^ 31 ∨ loop.CanGrow n buf := by
  constructor
  · intro h
    by_cases hroom : buf.next + n ≤ buf.size
    · exact .inl ⟨hroom, (h.subtraction buf .refl).2⟩
    · exact .inr (h.canGrow hsized hroom)
  · rintro (⟨hroom, hlt⟩ | hgrow)
    · exact safeLoop_of_room loop hroom hlt
    · exact safeLoop_of_canGrow hgrow hsized hint

end Loops

/-! ## What is appended -/

section Copy

/-- The block after `data` has been copied to offset `off`. -/
def overwrite (b : List Byte) (off : Nat) (data : List Byte) : List Byte :=
  b.take off ++ data ++ b.drop (off + data.length)

variable {b data : List Byte} {off : Nat}

theorem overwrite_before (h : off ≤ b.length) : (overwrite b off data).take off = b.take off := by
  have hlen : (b.take off).length = off := List.length_take_of_le h
  rw [overwrite, List.append_assoc, List.take_append_of_le_length (le_of_eq hlen.symm),
    List.take_take, Nat.min_self]

theorem overwrite_drop (h : off ≤ b.length) :
    (overwrite b off data).drop off = data ++ b.drop (off + data.length) := by
  have hlen : (b.take off).length = off := List.length_take_of_le h
  rw [overwrite, List.append_assoc, List.drop_append_of_le_length (le_of_eq hlen.symm),
    List.drop_of_length_le (le_of_eq hlen), List.nil_append]

theorem overwrite_data (h : off ≤ b.length) :
    ((overwrite b off data).drop off).take data.length = data := by
  rw [overwrite_drop h, List.take_left]

theorem overwrite_behind (h : off ≤ b.length) :
    (overwrite b off data).drop (off + data.length) = b.drop (off + data.length) := by
  rw [← List.drop_drop, overwrite_drop h, List.drop_left]

variable {buf : SerBuff}

/-- The copy at the end of `serialize_data`, when there is room. -/
theorem copyIn_eq (h : buf.Sound) (hroom : buf.next + data.length ≤ buf.size) :
    copyIn buf data = .ok { buf.advance data.length with
      b := overwrite buf.b buf.next.toNat data } := by
  have hmax := h.size_le
  have hnext := h.next_nonneg
  have hblock := h.block
  have hcopy : memcpyTo buf.b buf.next data = .ok (overwrite buf.b buf.next.toNat data) :=
    if_pos ⟨hnext, by omega⟩
  have hw : wrap32 (data.length : Int) = data.length := wrap32_eq (by omega) (by omega)
  have hw' : wrap32 (buf.next + data.length) = buf.next + data.length :=
    wrap32_eq (by omega) (by omega)
  rw [copyIn, hcopy]
  simp only [bind, Except.bind, pure, Except.pure, serializedBufferSerPosIncr, hw, hw',
    SerBuff.advance]

end Copy

/-! ## Every run -/

section Runs

variable {α : Type} {env : Allocs} {codec : Codec α} {client : Prog α} {cfg : Config α}

/-- **The arithmetic of the growth loops** is safe in a reachable state exactly for a request
that has room already, at a distance that is an `int`, or that the loop can grow the buffer for. -/
theorem safe_loop_iff (h : Reachable (· = startConfig client) (FreeStep env codec) cfg)
    (loop : Loop) (n : Nat) :
    SafeLoop env loop n cfg.buf ↔
      cfg.buf.next + n ≤ cfg.buf.size ∧ cfg.buf.size - cfg.buf.next < 2 ^ 31 ∨
        loop.CanGrow n cfg.buf := by
  have haged := aged_reachable h
  exact safeLoop_iff loop haged.sized haged.next_int

/-- A fresh buffer of 512 bytes makes room for 600. -/
theorem safe_loop_iff_fresh : SafeLoop grantAll .skip 600 freshBuffer := by
  have h : Reachable (· = startConfig (.ret none)) (FreeStep grantAll intCodec)
    (startConfig (.ret none)) := Reachable.start rfl
  exact (safe_loop_iff h .skip 600).2
    (.inr (Loop.skip.canGrow_of_inside freshBuffer_sound.toShape (by decide)))

/-- A fresh buffer does not get room for `2^30 + 1` bytes from either loop. -/
theorem doubling_overflows : freshBuffer.next + (2 ^ 30 + 1 : Nat) < 2 ^ 31 ∧
    ¬ SafeLoop grantAll .serializeData (2 ^ 30 + 1) freshBuffer ∧
    ¬ SafeLoop grantAll .skip (2 ^ 30 + 1) freshBuffer := by
  have hbig : ¬ freshBuffer.next + (2 ^ 30 + 1 : Nat) ≤ 2 ^ 30 := by decide
  have hsized : Sized freshBuffer := .inl freshBuffer_sound.doubled
  exact ⟨by decide, fun h => hbig (h.fit hsized), fun h => hbig (h.fit hsized)⟩

/-- **Both paths append and grow alike.** For a request that ends within `2^30` there is one
number of doublings, the least that makes room. `serialize_data` makes as many and puts its
bytes at the cursor; what was before them and behind them in the old block stays.
`serialized_buffer_skip` makes as many, moves the cursor to the same place and changes no byte
of the old block. -/
theorem append_and_skip (henv : AllocsSucceed env)
    (h : Reachable (· = startConfig client) (FreeStep env codec) cfg) (h0 : 0 ≤ cfg.buf.next)
    (hle : cfg.buf.next ≤ cfg.buf.size) (data : List Byte)
    (hfit : cfg.buf.next + data.length ≤ 2 ^ 30) :
    ∃ k : Nat,
      (data.length ≤ cfg.buf.size * 2 ^ k - cfg.buf.next ∧
        ∀ j < k, ¬ data.length ≤ cfg.buf.size * 2 ^ j - cfg.buf.next) ∧
      (∃ buf', serializeData env cfg.buf data = .ok buf' ∧
        buf'.next = cfg.buf.next + data.length ∧ buf'.size = cfg.buf.size * 2 ^ k ∧
        buf'.b.take cfg.buf.next.toNat = cfg.buf.b.take cfg.buf.next.toNat ∧
        (buf'.b.drop cfg.buf.next.toNat).take data.length = data ∧
        (buf'.b.take cfg.buf.b.length).drop (cfg.buf.next.toNat + data.length)
          = cfg.buf.b.drop (cfg.buf.next.toNat + data.length)) ∧
      (∃ buf', serializedBufferSkip env cfg.buf data.length = .ok buf' ∧
        buf'.next = cfg.buf.next + data.length ∧ buf'.size = cfg.buf.size * 2 ^ k ∧
        buf'.b.take cfg.buf.b.length = cfg.buf.b) := by
  have hs := (aged_reachable h).sound henv h0 hle
  obtain ⟨k, hloop, hk, hmax, hleast⟩ := loops_agree env hs.toShape hfit
  generalize hgrown : (double env)^[k] cfg.buf = grown at hloop
  have hsound : grown.Sound := hgrown ▸ iterate_sound henv hs hmax
  have hnext : grown.next = cfg.buf.next := hgrown ▸ iterate_next env k
  have hsize : grown.size = cfg.buf.size * 2 ^ k := hgrown ▸ iterate_size env k
  have hkeep : grown.b.take cfg.buf.b.length = cfg.buf.b :=
    hgrown ▸ iterate_keeps env hs.toShape hmax
  have hblock := hs.block
  have hblock' := hsound.block
  have hoff : grown.next.toNat ≤ grown.b.length := by
    have := hsound.next_le
    omega
  have hwrite : serializeData env cfg.buf data = .ok { grown.advance data.length with
      b := overwrite grown.b grown.next.toNat data } := by
    rw [serializeData_loop, hloop]
    exact copyIn_eq hsound (by omega)
  have hmove : serializedBufferSkip env cfg.buf data.length
      = .ok (grown.advance data.length) := by
    rw [skip_loop, hloop]
    show Except.ok { grown with next := wrap32 (grown.next + data.length) } = _
    rw [wrap32_eq (by omega) (by omega)]
    rfl
  have hend : (grown.advance data.length).next = cfg.buf.next + data.length := by
    rw [SerBuff.advance, hnext]
  refine ⟨k, ⟨by omega, fun j hj => ?_⟩, ⟨_, hwrite, hend, hsize, ?_, ?_, ?_⟩,
    ⟨_, hmove, hend, hsize, hkeep⟩⟩
  · have := hleast j hj
    omega
  · show (overwrite grown.b grown.next.toNat data).take cfg.buf.next.toNat = _
    rw [← hnext, overwrite_before hoff]
    exact take_of_kept hkeep (by omega)
  · show ((overwrite grown.b grown.next.toNat data).drop cfg.buf.next.toNat).take _ = data
    rw [← hnext, overwrite_data hoff]
  · show ((overwrite grown.b grown.next.toNat data).take cfg.buf.b.length).drop _ = _
    rw [← hnext, List.drop_take, overwrite_behind hoff, ← List.drop_take, hkeep]

/-- 600 bytes into a fresh buffer: one doubling on either path. -/
theorem append_and_skip_fresh : ∃ buf, serializeData grantAll freshBuffer
    (List.replicate 600 7) = .ok buf ∧ buf.next = 600 := by
  have h : Reachable (· = startConfig (.ret none)) (FreeStep grantAll intCodec)
    (startConfig (.ret none)) := Reachable.start rfl
  obtain ⟨k, -, ⟨buf, hok, hnext, -⟩, -⟩ := append_and_skip grantAll_succeeds h (by decide)
    (by decide) (List.replicate 600 7) (by rw [List.length_replicate]; decide)
  rw [List.length_replicate] at hnext
  exact ⟨buf, hok, hnext⟩

end Runs

end CPlayground.Serial
