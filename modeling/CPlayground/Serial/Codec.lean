import CPlayground.Serial.Spec

set_option autoImplicit false

/-! # Codec pairs and object streams

`serialize` and `deserialize` handle a `NULL` object themselves and pass any other object to
the pair of functions the buffer was created with. A codec pair is described by the byte
string `enc x` its writer appends for `x`; the laws are required on a class of buffers that
the operations do not leave (`BufferClass`): all sound buffers when the allocator grants every
request, all intact buffers in general.
-/

namespace CPlayground.Serial

/-! ## Classes of buffers -/

/-- A class of buffers closed under what a stream does between two calls of a codec. -/
structure BufferClass (env : Allocs) (B : SerBuff → Prop) : Prop where
  intact : ∀ {buf}, B buf → buf.Intact
  fresh : B freshBuffer
  reset : ∀ {buf}, B buf → B (serializedBufferReset buf)
  advance : ∀ {buf bs}, B buf → Ahead buf bs → B (buf.advance bs.length)
  write : ∀ {buf buf' data}, B buf → serializeData env buf data = .ok buf' → B buf'

theorem intactClass (env : Allocs) : BufferClass env SerBuff.Intact where
  intact := id
  fresh := freshBuffer_sound.toIntact
  reset := intact_reset
  advance := fun h ha => ha.intact h
  write := fun h hok => (serializeData_appends env h hok).intact

theorem soundClass {env : Allocs} (henv : AllocsSucceed env) :
    BufferClass env SerBuff.Sound where
  intact := SerBuff.Sound.toIntact
  fresh := freshBuffer_sound
  reset := fun h => ⟨(intact_reset h.toIntact).toShape, h.block⟩
  advance := fun h ha => ⟨(ha.intact h.toIntact).toShape, h.block⟩
  write := fun h hok => (serializeData_granted henv h hok).1

/-! ## Codec pairs -/

section Pairs

variable {α : Type}

/-- The pair undoes itself on the objects in `V`: what the writer appends for `x` is `enc x`,
at least four bytes long, and the reader turns it back into `x`. -/
structure CodecPair (B : SerBuff → Prop) (V : α → Prop)
    (serFunc : SerBuff → α → Except Fault SerBuff)
    (dserFunc : SerBuff → Except Fault (Option α × SerBuff)) (enc : α → List Byte) : Prop where
  appends : ∀ x, V x → ∀ buf buf', B buf → serFunc buf x = .ok buf' →
    B buf' ∧ Appends buf buf' (enc x)
  undoes : ∀ x, V x → ∀ buf, B buf → Ahead buf (enc x) →
    dserFunc buf = .ok (some x, buf.advance (enc x).length)
  length_ge : ∀ x, V x → 4 ≤ (enc x).length

/-- The writer comes back as long as the bytes fit into `2^30`. -/
def ComesBack (B : SerBuff → Prop) (V : α → Prop)
    (serFunc : SerBuff → α → Except Fault SerBuff) (enc : α → List Byte) : Prop :=
  ∀ x, V x → ∀ buf, B buf → buf.next + (enc x).length ≤ 2 ^ 30 →
    ∃ buf', serFunc buf x = .ok buf'

/-- The encoding does not begin with `FF FF FF FF`. -/
def Unmarked (enc : α → List Byte) (x : α) : Prop := ¬ sentinel <+: enc x

/-- What `serialize` writes for a nullable object. -/
def encObject (enc : α → List Byte) : Option α → List Byte
  | none => sentinel
  | some x => enc x

/-- Every object of the list is in `V`. -/
def AllIn (V : α → Prop) (xs : List (Option α)) : Prop := ∀ x, some x ∈ xs → V x

/-- `serialize` each object in order. -/
def serializeAll (env : Allocs) (serFunc : SerBuff → α → Except Fault SerBuff) :
    List (Option α) → SerBuff → Except Fault SerBuff
  | [], buf => .ok buf
  | x :: xs, buf => do
      let buf ← serialize env serFunc buf x
      serializeAll env serFunc xs buf

/-- `deserialize` `n` times. -/
def deserializeAll (env : Allocs) (dserFunc : SerBuff → Except Fault (Option α × SerBuff)) :
    Nat → SerBuff → Except Fault (List (Option α) × SerBuff)
  | 0, buf => .ok ([], buf)
  | n + 1, buf => do
      let (x, buf) ← deserialize env dserFunc buf
      let (xs, buf) ← deserializeAll env dserFunc n buf
      return (x :: xs, buf)

variable {env : Allocs} {B : SerBuff → Prop} {V : α → Prop}
  {serFunc : SerBuff → α → Except Fault SerBuff}
  {dserFunc : SerBuff → Except Fault (Option α × SerBuff)} {enc : α → List Byte}

/-! ### Writing -/

theorem serialize_appends (hB : BufferClass env B) (hc : CodecPair B V serFunc dserFunc enc)
    {x : Option α} (hx : ∀ y, x = some y → V y) {buf buf' : SerBuff} (h : B buf)
    (hok : serialize env serFunc buf x = .ok buf') :
    B buf' ∧ Appends buf buf' (encObject enc x) := by
  cases x with
  | none => exact ⟨hB.write h hok, serializeData_appends env (hB.intact h) hok⟩
  | some y => exact hc.appends y (hx y rfl) buf buf' h hok

theorem serializeAll_appends (hB : BufferClass env B)
    (hc : CodecPair B V serFunc dserFunc enc) (xs : List (Option α)) (hV : AllIn V xs)
    (buf buf' : SerBuff) (h : B buf) (hok : serializeAll env serFunc xs buf = .ok buf') :
    B buf' ∧ Appends buf buf' (xs.flatMap (encObject enc)) := by
  induction xs generalizing buf with
  | nil =>
      cases hok
      exact ⟨h, Appends.refl (hB.intact h)⟩
  | cons x xs ih =>
      cases hx : serialize env serFunc buf x with
      | error e => simp [serializeAll, hx, bind, Except.bind] at hok
      | ok buf₁ =>
          simp only [serializeAll, hx, bind, Except.bind] at hok
          obtain ⟨hB₁, happ⟩ := serialize_appends hB hc
            (fun y hy => hV y (by rw [← hy]; exact List.mem_cons_self)) h hx
          obtain ⟨hB₂, happ'⟩ := ih (fun y hy => hV y (List.mem_cons_of_mem _ hy)) buf₁ hB₁ hok
          exact ⟨hB₂, by rw [List.flatMap_cons]; exact happ.trans happ'⟩

/-- With room for all of it, the whole list is written. -/
theorem serializeAll_comesBack (henv : AllocsSucceed env)
    (hc : CodecPair SerBuff.Sound V serFunc dserFunc enc)
    (hback : ComesBack SerBuff.Sound V serFunc enc) (xs : List (Option α)) (hV : AllIn V xs)
    (buf : SerBuff) (h : buf.Sound)
    (hfit : buf.next + (xs.flatMap (encObject enc)).length ≤ 2 ^ 30) :
    ∃ buf', serializeAll env serFunc xs buf = .ok buf' := by
  induction xs generalizing buf with
  | nil => exact ⟨buf, rfl⟩
  | cons x xs ih =>
      rw [List.flatMap_cons, List.length_append] at hfit
      have hx : ∀ y, x = some y → V y :=
        fun y hy => hV y (by rw [← hy]; exact List.mem_cons_self)
      -- the first object comes back, as a sentinel or by the writer of the pair
      have hwrite : ∃ buf₁, serialize env serFunc buf x = .ok buf₁ := by
        cases x with
        | none =>
            obtain ⟨buf₁, hok, -, -⟩ := serializeData_spec henv h sentinel (by
              simp only [encObject] at hfit
              omega)
            exact ⟨buf₁, hok⟩
        | some y =>
            simp only [encObject] at hfit
            exact hback y (hx y rfl) buf h (by omega)
      obtain ⟨buf₁, hok⟩ := hwrite
      obtain ⟨hB₁, happ⟩ := serialize_appends (soundClass henv) hc hx h hok
      obtain ⟨buf₂, hrest⟩ := ih (fun y hy => hV y (List.mem_cons_of_mem _ hy)) buf₁ hB₁
        (by rw [happ.next]; omega)
      exact ⟨buf₂, by simp only [serializeAll, hok, bind, Except.bind]; exact hrest⟩

/-! ### Reading -/

/-- Four bytes ahead that are the sentinel are consumed as `NULL`. -/
theorem deserialize_marked {bs : List Byte} {buf : SerBuff} (h : buf.Intact)
    (ha : Ahead buf bs) (hm : sentinel <+: bs) :
    deserialize env dserFunc buf = .ok (none, buf.advance 4) := by
  have hs : Ahead buf sentinel := hm.trans ha
  have hnull : (-1 : Int32) ≠ 0 := by decide
  simp only [deserialize, deserializeNull_spec env h hs sentinel_length, if_true, bind,
    Except.bind]
  rw [if_pos hnull]
  rfl

/-- Four bytes ahead that are not the sentinel leave the object to the reader of the pair. -/
theorem deserialize_unmarked {bs : List Byte} {buf : SerBuff} (h : buf.Intact)
    (ha : Ahead buf bs) (hlen : 4 ≤ bs.length) (hm : ¬ sentinel <+: bs) :
    deserialize env dserFunc buf = dserFunc buf := by
  have h4 : (bs.take 4).length = 4 := by
    rw [List.length_take]
    omega
  have hne : bs.take 4 ≠ sentinel := fun he => hm (he ▸ List.take_prefix 4 bs)
  simp only [deserialize, deserializeNull_spec env h ((List.take_prefix 4 bs).trans ha) h4,
    if_neg hne, bind, Except.bind]
  rw [if_neg (by simp)]

/-- **Reading a stream of unmarked objects** gives the objects back. -/
theorem deserializeAll_spec (hB : BufferClass env B) (hc : CodecPair B V serFunc dserFunc enc)
    (xs : List (Option α)) (hV : AllIn V xs) (hm : AllIn (Unmarked enc) xs) (buf : SerBuff)
    (h : B buf) (ha : Ahead buf (xs.flatMap (encObject enc))) :
    deserializeAll env dserFunc xs.length buf
      = .ok (xs, buf.advance (xs.flatMap (encObject enc)).length) := by
  induction xs generalizing buf with
  | nil => simp [deserializeAll]
  | cons x xs ih =>
      rw [List.flatMap_cons] at ha
      -- what is ahead says which of the two readers is called
      have hread : deserialize env dserFunc buf
          = .ok (x, buf.advance (encObject enc x).length) := by
        cases x with
        | none => exact deserialize_marked (hB.intact h) ha.left (List.prefix_refl _)
        | some y =>
            have hy : V y := hV y List.mem_cons_self
            rw [deserialize_unmarked (hB.intact h) ha.left (hc.length_ge y hy)
              (hm y List.mem_cons_self)]
            exact hc.undoes y hy buf h ha.left
      have hrest := ih (fun y hy => hV y (List.mem_cons_of_mem _ hy))
        (fun y hy => hm y (List.mem_cons_of_mem _ hy)) _ (hB.advance h ha.left)
        (ha.right (hB.intact h).next_nonneg)
      simp only [List.length_cons, deserializeAll, hread, hrest, bind, Except.bind, pure,
        Except.pure, advance_advance, List.flatMap_cons, List.length_append]

end Pairs

end CPlayground.Serial
