import CPlayground.Serial.Spec

set_option autoImplicit false

/-! # Streams of primitive items

A sequence of raw blocks, `int`s and null markers is written to a fresh buffer and read back
with the matching readers, as the client stub of `Linux/RPC/simple_rpc.c` writes its two
arguments. `items_round_trip` is the law of the stream.
-/

namespace CPlayground.Serial

/-! ## Items -/

/-- What one call of `serialize_data`, `serialize_int` or `serialize_null` writes. -/
inductive Item
  | data (bytes : List Byte)
  | int (v : Int32)
  | null
  deriving DecidableEq

/-- What the matching reader gives back: the bytes stored at the destination, the `int`, or
the result of `deserialize_null`. -/
inductive Reading
  | data (stored : List Byte)
  | int (v : Int32)
  | null (result : Int32)
  deriving DecidableEq

/-- The bytes of an item in the buffer. -/
def Item.bytes : Item → List Byte
  | .data bytes => bytes
  | .int v => intBytes v
  | .null => sentinel

/-- The reading is the one the item was written for. -/
def Item.DeliveredBy : Item → Reading → Prop
  | .data bytes, .data stored => stored = bytes
  | .int v, .int w => w = v
  | .null, .null result => result ≠ 0
  | _, _ => False

def writeItem (env : Allocs) (buf : SerBuff) : Item → Except Fault SerBuff
  | .data bytes => serializeData env buf bytes
  | .int v => serializeInt env buf v
  | .null => serializeNull env buf

/-- The reader that matches an item. Only the kind of the item and the length of a raw block
are used. -/
def readItem (env : Allocs) (buf : SerBuff) : Item → Except Fault (Reading × SerBuff)
  | .data bytes => do
      let (dest, buf) ← deserializeData buf bytes.length
      return (.data (dest.getD []), buf)
  | .int _ => do
      let (v, buf) ← deserializeInt buf
      return (.int v, buf)
  | .null => do
      let (result, buf) ← deserializeNull env buf
      return (.null result, buf)

/-- Write the items in order. The first component lists the cursor after each write. -/
def writeItems (env : Allocs) : List Item → SerBuff → Except Fault (List Int × SerBuff)
  | [], buf => .ok ([], buf)
  | item :: items, buf => do
      let buf ← writeItem env buf item
      let (cursors, buf') ← writeItems env items buf
      return (buf.next :: cursors, buf')

/-- Read the items in order. The first component lists each reading with the cursor after it. -/
def readItems (env : Allocs) :
    List Item → SerBuff → Except Fault (List (Reading × Int) × SerBuff)
  | [], buf => .ok ([], buf)
  | item :: items, buf => do
      let (reading, buf) ← readItem env buf item
      let (readings, buf') ← readItems env items buf
      return ((reading, buf.next) :: readings, buf')

/-! ## One item -/

theorem writeItem_spec {env : Allocs} {buf : SerBuff} (henv : AllocsSucceed env)
    (h : buf.Sound) (item : Item) (hfit : buf.next + item.bytes.length ≤ 2 ^ 30) :
    ∃ buf', writeItem env buf item = .ok buf' ∧ buf'.Sound ∧ Appends buf buf' item.bytes := by
  cases item with
  | data bytes => exact serializeData_spec henv h bytes hfit
  | int v => exact serializeInt_spec henv h v (by simpa [Item.bytes] using hfit)
  | null => exact serializeNull_spec henv h hfit

theorem readItem_spec (env : Allocs) {buf : SerBuff} (h : buf.Intact) (item : Item)
    (ha : Ahead buf item.bytes) :
    ∃ reading, readItem env buf item = .ok (reading, buf.advance item.bytes.length) ∧
      item.DeliveredBy reading := by
  cases item with
  | data bytes =>
      by_cases hne : bytes = []
      -- `deserialize_data` of no bytes returns no block, which stands for the empty one
      · subst hne
        exact ⟨.data [], by simp [readItem, deserializeData, Item.bytes, bind, Except.bind,
          pure, Except.pure], rfl⟩
      · have ha' : Ahead buf bytes := ha
        refine ⟨.data bytes, ?_, rfl⟩
        simp only [readItem, Item.bytes, deserializeData_spec h ha' hne]
        rfl
  | int v =>
      refine ⟨.int v, ?_, rfl⟩
      simp only [readItem, Item.bytes, deserializeInt_spec h ha, intBytes_length]
      rfl
  | null =>
      have hminus : (-1 : Int32) ≠ 0 := by decide
      refine ⟨.null (-1), ?_, hminus⟩
      simp only [readItem, Item.bytes, deserializeNull_spec env h ha sentinel_length, if_true,
        sentinel_length]
      rfl

/-! ## All items -/

/-- The cursor after each item, from the position `start` on. -/
def cursorsFrom (start : Int) : List Item → List Int
  | [] => []
  | item :: items =>
      (start + item.bytes.length) :: cursorsFrom (start + item.bytes.length) items

theorem writeItems_spec {env : Allocs} (henv : AllocsSucceed env) (items : List Item)
    (buf : SerBuff) (h : buf.Sound)
    (hfit : buf.next + (items.flatMap Item.bytes).length ≤ 2 ^ 30) :
    ∃ buf', writeItems env items buf = .ok (cursorsFrom buf.next items, buf') ∧
      Appends buf buf' (items.flatMap Item.bytes) := by
  induction items generalizing buf with
  | nil => exact ⟨buf, rfl, Appends.refl h.toIntact⟩
  | cons item items ih =>
      rw [List.flatMap_cons, List.length_append] at hfit
      obtain ⟨buf₁, hwrite, hsound, happ⟩ := writeItem_spec henv h item (by omega)
      obtain ⟨buf₂, hrest, happ'⟩ := ih buf₁ hsound (by rw [happ.next]; omega)
      refine ⟨buf₂, ?_, ?_⟩
      · simp only [writeItems, hwrite, hrest, bind, Except.bind, pure, Except.pure, cursorsFrom,
          happ.next]
      · rw [List.flatMap_cons]
        exact happ.trans happ'

theorem readItems_spec (env : Allocs) (items : List Item) (buf : SerBuff) (h : buf.Intact)
    (ha : Ahead buf (items.flatMap Item.bytes)) :
    ∃ readings buf', readItems env items buf = .ok (readings, buf') ∧
      List.Forall₂ Item.DeliveredBy items (readings.map Prod.fst) ∧
      readings.map Prod.snd = cursorsFrom buf.next items := by
  induction items generalizing buf with
  | nil => exact ⟨[], buf, rfl, List.Forall₂.nil, rfl⟩
  | cons item items ih =>
      rw [List.flatMap_cons] at ha
      obtain ⟨reading, hread, hdel⟩ := readItem_spec env h item ha.left
      obtain ⟨readings, buf', hrest, hall, hcur⟩ :=
        ih (buf.advance item.bytes.length) (ha.left.intact h) (ha.right h.next_nonneg)
      refine ⟨(reading, (buf.advance item.bytes.length).next) :: readings, buf', ?_, ?_, ?_⟩
      · simp only [readItems, hread, hrest, bind, Except.bind, pure, Except.pure]
      · exact List.Forall₂.cons hdel hall
      · rw [List.map_cons, hcur]
        rfl

/-- **Primitive stream round trip.** Reading back a written stream delivers every block and
every `int`, a non-zero result at every null marker, and after each read the cursor is where
it was after the matching write. -/
theorem items_round_trip (env : Allocs) (henv : AllocsSucceed env) (items : List Item)
    (hfit : (items.flatMap Item.bytes).length ≤ 2 ^ 30) :
    ∃ cursors written readings final,
      writeItems env items freshBuffer = .ok (cursors, written) ∧
      readItems env items (serializedBufferReset written) = .ok (readings, final) ∧
      List.Forall₂ Item.DeliveredBy items (readings.map Prod.fst) ∧
      readings.map Prod.snd = cursors := by
  have hfit' : freshBuffer.next + (items.flatMap Item.bytes).length ≤ 2 ^ 30 := by
    show (0 : Int) + _ ≤ _
    omega
  obtain ⟨written, hwrite, happ⟩ := writeItems_spec henv items freshBuffer freshBuffer_sound
    hfit'
  obtain ⟨readings, final, hread, hall, hcur⟩ := readItems_spec env items
    (serializedBufferReset written) (intact_reset happ.intact) (happ.ahead_reset rfl)
  exact ⟨_, written, readings, final, hwrite, hread, hall, hcur⟩

/-- Two items around the first growth boundary. -/
theorem items_round_trip_straddling :
    ∃ cursors written readings final,
      writeItems grantAll [.data (List.replicate 510 7), .int (-1), .null] freshBuffer
        = .ok (cursors, written) ∧
      readItems grantAll [.data (List.replicate 510 7), .int (-1), .null]
        (serializedBufferReset written) = .ok (readings, final) ∧
      List.Forall₂ Item.DeliveredBy [.data (List.replicate 510 7), .int (-1), .null]
        (readings.map Prod.fst) ∧
      readings.map Prod.snd = cursors :=
  items_round_trip grantAll grantAll_succeeds _ (by
    simp only [List.flatMap_cons, List.flatMap_nil, Item.bytes, List.length_append,
      List.length_replicate, intBytes_length, sentinel_length, List.length_nil]
    norm_num)

end CPlayground.Serial
