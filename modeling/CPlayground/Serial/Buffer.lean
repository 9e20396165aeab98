import CPlayground.Basic.CInt

set_option autoImplicit false

/-! # The serialization buffer

`common/serialized_buffer.c`, `common/serialize.c` and `common/deserialize.c`: a heap block `b`
of `size` bytes with one cursor `next` that writers and readers share. The block is grown by
doubling. `size` and `next` are `int`s; whether a `realloc` succeeds is decided by the
environment, and a copy that leaves the block ends the run with a fault.

A `ser_buff_t` argument stands for the structure it points to, so the tests for a `NULL`
buffer have no counterpart here.
-/

namespace CPlayground.Serial

/-! ## Memory -/

/-- What the allocator does: `env k` is the outcome of the `k`-th call of `realloc`. It fails
(`none`) or succeeds, and then `fill` gives the indeterminate bytes past the old block. -/
abbrev Allocs := Nat → Option (Nat → Byte)

/-- Every call of `realloc` succeeds. -/
def AllocsSucceed (env : Allocs) : Prop := ∀ k, env k ≠ none

/-- An allocator that grants every request with zeroed memory. -/
def grantAll : Allocs := fun _ => some fun _ => 0

theorem grantAll_succeeds : AllocsSucceed grantAll := fun _ => Option.some_ne_none _

/-- How a run can go wrong: a copy outside the block, a `realloc` to size `0` (which frees the
block and leaves `b` dangling), or a loop that does not end. -/
inductive Fault
  | outOfBlock
  | freed
  | endless
  deriving DecidableEq, Repr

/-- A run of two parts comes back exactly when both do. -/
theorem bind_eq_ok {α β : Type} {x : Except Fault α} {f : α → Except Fault β} {r : β} :
    (x >>= f) = .ok r ↔ ∃ a, x = .ok a ∧ f a = .ok r := by
  cases x with
  | error e => simp [bind, Except.bind]
  | ok a => simp [bind, Except.bind]

/-- The largest object size; `realloc` fails for a larger request. -/
def PTRDIFF_MAX : Nat := 2 ^ 63 - 1

/-- The `k`-th call of `realloc`, of the block `b` to `n` bytes. `none` is the result `NULL`. -/
def realloc (env : Allocs) (k : Nat) (b : List Byte) (n : Nat) :
    Except Fault (Option (List Byte)) :=
  if n = 0 then .error .freed
  else if PTRDIFF_MAX < n then .ok none
  else .ok ((env k).map fun fill => b.take n ++ (List.range (n - b.length)).map fill)

/-- `memcpy` of `data` into the block `b` at offset `off`. -/
def memcpyTo (b : List Byte) (off : Int) (data : List Byte) : Except Fault (List Byte) :=
  if 0 ≤ off ∧ off + data.length ≤ b.length then
    .ok (b.take off.toNat ++ data ++ b.drop (off.toNat + data.length))
  else .error .outOfBlock

/-- `memcpy` of `n` bytes out of the block `b` from offset `off`. -/
def memcpyFrom (b : List Byte) (off : Int) (n : Nat) : Except Fault (List Byte) :=
  if 0 ≤ off ∧ off + n ≤ b.length then .ok ((b.drop off.toNat).take n)
  else .error .outOfBlock

/-! ## The buffer -/

/-- `_ser_buff_t` without its two codec pointers, which never change while the buffer is in
use and are arguments of the functions that call them. `reallocs` counts the calls of
`realloc` made so far. -/
structure SerBuff where
  b : List Byte
  size : Int
  next : Int
  reallocs : Nat
  deriving DecidableEq, Repr

def SERIALIZE_BUFFER_DEFAULT_SIZE : Nat := 512

/-- The buffer `serialized_buffer_create` returns when both allocations succeed. -/
def freshBuffer : SerBuff where
  b := List.replicate SERIALIZE_BUFFER_DEFAULT_SIZE 0
  size := SERIALIZE_BUFFER_DEFAULT_SIZE
  next := 0
  reallocs := 0

/-- `serialized_buffer_create`, by the outcomes of its two calls of `calloc`. -/
def serializedBufferCreate (serBufOk blockOk : Bool) : Option SerBuff :=
  if serBufOk then
    if blockOk then some freshBuffer else none
  else none

/-- `serialized_buffer_resize`: `size` is updated before the outcome of `realloc` is known. -/
def serializedBufferResize (env : Allocs) (buf : SerBuff) (ratio : Int) :
    Except Fault SerBuff := do
  let buf' := { buf with size := wrap32 (buf.size * ratio), reallocs := buf.reallocs + 1 }
  match ← realloc env buf.reallocs buf.b (toSizeT buf'.size) with
  -- `realloc` has failed: the function returns, and `size` stays multiplied
  | none => return buf'
  | some tmp => return { buf' with b := tmp }

/-- `available_size`, the `int` difference `size - next`. -/
def SerBuff.available (buf : SerBuff) : Int := wrap32 (buf.size - buf.next)

/-- `serialized_buffer_ser_pos_incr`. -/
def serializedBufferSerPosIncr (buf : SerBuff) (size : Int) : SerBuff :=
  { buf with next := wrap32 (buf.next + size) }

/-- `serialized_buffer_reset`. -/
def serializedBufferReset (buf : SerBuff) : SerBuff := { buf with next := 0 }

/-- The loop of the two growth paths: double the buffer until there is `room`. The bound on
the number of doublings is never reached (`growLoop_ne_endless`). -/
def growLoop (env : Allocs) (room : SerBuff → Bool) : Nat → SerBuff → Except Fault SerBuff
  | 0, buf => if room buf then .ok buf else .error .endless
  | fuel + 1, buf =>
      if room buf then .ok buf
      else do growLoop env room fuel (← serializedBufferResize env buf 2)

/-- An `int` doubled 32 times is `0`. -/
def growFuel : Nat := 32

/-- `serialized_buffer_skip`: the loop compares in `int`; the first test of the source is the
case in which the loop makes no step. -/
def serializedBufferSkip (env : Allocs) (buf : SerBuff) (size : Int) : Except Fault SerBuff := do
  let buf ← growLoop env (fun buf => decide (size ≤ buf.available)) growFuel buf
  return { buf with next := wrap32 (buf.next + size) }

/-! ## Writers -/

/-- The two statements that end `serialize_data` on both values of `is_resized`. -/
def copyIn (buf : SerBuff) (data : List Byte) : Except Fault SerBuff := do
  let b ← memcpyTo buf.b buf.next data
  return serializedBufferSerPosIncr { buf with b := b } (wrap32 data.length)

/-- `serialize_data`: the loop compares in `size_t`. -/
def serializeData (env : Allocs) (buf : SerBuff) (data : List Byte) : Except Fault SerBuff := do
  let buf ← growLoop env (fun buf => decide (data.length ≤ toSizeT buf.available)) growFuel buf
  copyIn buf data

/-- The bytes of the `unsigned int` constant `0xFFFFFFFF`. -/
def sentinel : List Byte := [0xFF, 0xFF, 0xFF, 0xFF]

/-- `serialize_null`. -/
def serializeNull (env : Allocs) (buf : SerBuff) : Except Fault SerBuff :=
  serializeData env buf sentinel

/-- `serialize_int`. -/
def serializeInt (env : Allocs) (buf : SerBuff) (data : Int32) : Except Fault SerBuff :=
  serializeData env buf (intBytes data)

/-- `serialize`, for a buffer created with `serFunc`; `none` is `NULL`. -/
def serialize {α : Type} (env : Allocs) (serFunc : SerBuff → α → Except Fault SerBuff)
    (buf : SerBuff) : Option α → Except Fault SerBuff
  | none => serializeData env buf sentinel
  | some data => serFunc buf data

/-! ## Readers -/

/-- `deserialize_data`. The first component is what is stored at `dest`; `none` when the
destination is left unchanged. -/
def deserializeData (buf : SerBuff) (size : Nat) :
    Except Fault (Option (List Byte) × SerBuff) :=
  if size = 0 then .ok (none, buf)
  -- refused: the sum is an `int` and is compared with the capacity
  else if buf.size < wrap32 (wrap32 size + buf.next) then .ok (none, buf)
  else do
    let data ← memcpyFrom buf.b buf.next size
    return (some data, serializedBufferSerPosIncr buf (wrap32 size))

/-- `deserialize_null`: read four bytes, and step back unless they are the sentinel. -/
def deserializeNull (env : Allocs) (buf : SerBuff) : Except Fault (Int32 × SerBuff) := do
  let (dest, buf) ← deserializeData buf 4
  if leWord (dest.getD [0, 0, 0, 0]) = 0xFFFFFFFF then
    return (-1, buf)
  else do
    -- also when the read was refused and the cursor has not moved
    let buf ← serializedBufferSkip env buf (-4)
    return (0, buf)

/-- `deserialize_int`. -/
def deserializeInt (buf : SerBuff) : Except Fault (Int32 × SerBuff) :=
  if buf.size < wrap32 (4 + buf.next) then .ok (0, buf)
  else do
    let temp ← memcpyFrom buf.b buf.next 4
    return (bytesInt temp, serializedBufferSerPosIncr buf 4)

/-- `deserialize`, for a buffer created with `dserFunc`; `none` is `NULL`. -/
def deserialize {α : Type} (env : Allocs)
    (dserFunc : SerBuff → Except Fault (Option α × SerBuff)) (buf : SerBuff) :
    Except Fault (Option α × SerBuff) := do
  let (isNull, buf) ← deserializeNull env buf
  if isNull ≠ 0 then return (none, buf) else dserFunc buf

end CPlayground.Serial
