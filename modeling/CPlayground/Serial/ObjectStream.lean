import CPlayground.Serial.Person

set_option autoImplicit false

/-! # Streams of nullable objects

A list of nullable objects is written with `serialize` and read back with `deserialize` after
a reset. The sentinel that stands for `NULL` is in band and is not escaped: the objects come
back exactly when no encoding begins with it (`nulls_kept_iff`), and then they come back
unchanged (`objects_round_trip`).
-/

namespace CPlayground.Serial

section Streams

variable {α : Type} {env : Allocs} {V : α → Prop}
  {serFunc : SerBuff → α → Except Fault SerBuff}
  {dserFunc : SerBuff → Except Fault (Option α × SerBuff)} {enc : α → List Byte}

/-! ## Round trip -/

/-- Written to a fresh buffer and read back, the list is unchanged, and the reader's cursor
ends where the writer's did. -/
def RoundTrips (env : Allocs) (serFunc : SerBuff → α → Except Fault SerBuff)
    (dserFunc : SerBuff → Except Fault (Option α × SerBuff)) (xs : List (Option α)) : Prop :=
  ∃ written final, serializeAll env serFunc xs freshBuffer = .ok written ∧
    deserializeAll env dserFunc xs.length (serializedBufferReset written) = .ok (xs, final) ∧
    final.next = written.next

theorem objects_round_trip (henv : AllocsSucceed env)
    (hc : CodecPair SerBuff.Sound V serFunc dserFunc enc)
    (hback : ComesBack SerBuff.Sound V serFunc enc) (hm : ∀ x, V x → Unmarked enc x)
    (xs : List (Option α)) (hV : AllIn V xs)
    (hfit : (xs.flatMap (encObject enc)).length ≤ 2 ^ 30) :
    RoundTrips env serFunc dserFunc xs := by
  have hfit' : freshBuffer.next + (xs.flatMap (encObject enc)).length ≤ 2 ^ 30 := by
    show (0 : Int) + _ ≤ _
    omega
  obtain ⟨written, hwrite⟩ := serializeAll_comesBack henv hc hback xs hV freshBuffer
    freshBuffer_sound hfit'
  obtain ⟨hsound, happ⟩ := serializeAll_appends (soundClass henv) hc xs hV freshBuffer written
    freshBuffer_sound hwrite
  have hread := deserializeAll_spec (soundClass henv) hc xs hV (fun x hx => hm x (hV x hx))
    (serializedBufferReset written) ((soundClass henv).reset hsound) (happ.ahead_reset rfl)
  exact ⟨written, _, hwrite, hread, happ.next.symm⟩

/-! ## `NULL` and the sentinel -/

/-- Every call of `deserialize` returns, and the `i`-th returns `NULL` exactly when the `i`-th
object is `NULL`. -/
def NullsKept (env : Allocs) (dserFunc : SerBuff → Except Fault (Option α × SerBuff))
    (xs : List (Option α)) (buf : SerBuff) : Prop :=
  ∃ ys final, deserializeAll env dserFunc xs.length buf = .ok (ys, final) ∧
    ys.map Option.isNone = xs.map Option.isNone

/-- **A marked object is read as `NULL`**, so the first one spoils the stream. -/
theorem unmarked_of_nullsKept {B : SerBuff → Prop} (hB : BufferClass env B)
    (hc : CodecPair B V serFunc dserFunc enc) (xs : List (Option α)) (hV : AllIn V xs)
    (buf : SerBuff) (h : B buf) (ha : Ahead buf (xs.flatMap (encObject enc)))
    (hk : NullsKept env dserFunc xs buf) : AllIn (Unmarked enc) xs := by
  induction xs generalizing buf with
  | nil => exact fun x hx => absurd hx List.not_mem_nil
  | cons x xs ih =>
      rw [List.flatMap_cons] at ha
      obtain ⟨ys, final, hrun, hsame⟩ := hk
      obtain ⟨⟨y, buf₁⟩, hread, hrun⟩ := bind_eq_ok.1 hrun
      obtain ⟨⟨zs, buf₂⟩, hrest, hrun⟩ := bind_eq_ok.1 hrun
      cases hrun
      rw [List.map_cons, List.map_cons, List.cons.injEq] at hsame
      have hhead : deserialize env dserFunc buf
          = .ok (x, buf.advance (encObject enc x).length) ∧ ∀ z, x = some z → Unmarked enc z := by
        cases x with
        | none =>
            exact ⟨deserialize_marked (hB.intact h) ha.left (List.prefix_refl _),
              fun z hz => by cases hz⟩
        | some z =>
            have hz : V z := hV z List.mem_cons_self
            -- a marked object would have been read as `NULL`, against the nulls that came out
            have hm : Unmarked enc z := by
              intro hpre
              rw [deserialize_marked (hB.intact h) ha.left hpre] at hread
              cases hread
              simp at hsame
            refine ⟨?_, fun w hw => by cases hw; exact hm⟩
            rw [deserialize_unmarked (hB.intact h) ha.left (hc.length_ge z hz) hm]
            exact hc.undoes z hz buf h ha.left
      rw [hhead.1] at hread
      cases hread
      -- the head is read as it was written, so the rest starts where its encoding does
      have htail := ih (fun z hz => hV z (List.mem_cons_of_mem _ hz)) _
        (hB.advance h ha.left) (ha.right (hB.intact h).next_nonneg) ⟨zs, _, hrest, hsame.2⟩
      intro z hz
      rcases List.mem_cons.1 hz with hz | hz
      · exact hhead.2 z hz.symm
      · exact htail z hz

/-- The nulls of a written stream are kept exactly when no object in it is marked. -/
theorem nulls_kept_iff (hc : CodecPair SerBuff.Intact V serFunc dserFunc enc)
    (xs : List (Option α)) (hV : AllIn V xs) (written : SerBuff)
    (hwrite : serializeAll env serFunc xs freshBuffer = .ok written) :
    NullsKept env dserFunc xs (serializedBufferReset written) ↔ AllIn (Unmarked enc) xs := by
  obtain ⟨hin, happ⟩ := serializeAll_appends (intactClass env) hc xs hV freshBuffer written
    freshBuffer_sound.toIntact hwrite
  refine ⟨unmarked_of_nullsKept (intactClass env) hc xs hV _ (intact_reset hin)
    (happ.ahead_reset rfl), fun hm => ?_⟩
  exact ⟨xs, _, deserializeAll_spec (intactClass env) hc xs hV hm _ (intact_reset hin)
    (happ.ahead_reset rfl), rfl⟩

end Streams

/-! ## Main results -/

/-- **Object-stream round trip.** Every list of nullable objects comes back unchanged, for any
codec pair whose encodings do not begin with `FF FF FF FF`; the codec of the test is such a
pair on the persons whose name and department name do not begin with these bytes. -/
theorem object_stream_round_trip (env : Allocs) (henv : AllocsSucceed env) :
    (∀ (α : Type) (V : α → Prop) (serFunc : SerBuff → α → Except Fault SerBuff)
        (dserFunc : SerBuff → Except Fault (Option α × SerBuff)) (enc : α → List Byte),
      CodecPair SerBuff.Sound V serFunc dserFunc enc → ComesBack SerBuff.Sound V serFunc enc →
      (∀ x, V x → Unmarked enc x) →
      ∀ xs : List (Option α), AllIn V xs → (xs.flatMap (encObject enc)).length ≤ 2 ^ 30 →
        RoundTrips env serFunc dserFunc xs) ∧
    CodecPair SerBuff.Sound NamesUnmarked
      (fun buf person => serializePerson env buf (some person)) (deserializePerson env)
      encPerson ∧
    ComesBack SerBuff.Sound NamesUnmarked
      (fun buf person => serializePerson env buf (some person)) encPerson ∧
    ∀ person, NamesUnmarked person → Unmarked encPerson person := by
  have hpair := person_codecPair (soundClass henv)
  refine ⟨fun α V serFunc dserFunc enc hc hback hm xs hV hfit =>
    objects_round_trip henv hc hback hm xs hV hfit, ?_, ?_, ?_⟩
  · exact ⟨fun x hx => hpair.appends x hx.2, fun x hx => hpair.undoes x hx.2,
      fun x hx => hpair.length_ge x hx.2⟩
  · exact fun x _ => serializePerson_comesBack henv x trivial
  · exact fun person hp => (unmarked_encPerson person).2 hp.1

/-- A record like `jack` of the test, with an occupation and a shorter `dept_name`. -/
def jack : Person where
  name := storeChars (some [0x6A, 0x61, 0x63, 0x6B])
  age := 25
  occ := some ⟨storeChars (some [0x73, 0x6F, 0x66, 0x74, 0x77, 0x61, 0x72, 0x65]), 2507⟩
  weight := 80

/-- The record `peter` of the test, without an occupation. -/
def peter : Person where
  name := storeChars (some [0x70, 0x65, 0x74, 0x65, 0x72])
  age := 26
  occ := none
  weight := 55

theorem test_records_round_trip :
    RoundTrips grantAll (fun buf person => serializePerson grantAll buf (some person))
      (deserializePerson grantAll) [some jack, none, some peter] := by
  obtain ⟨hround, hpair, hback, hm⟩ := object_stream_round_trip grantAll grantAll_succeeds
  refine hround Person NamesUnmarked _ _ encPerson hpair hback hm _ ?_ (by decide)
  intro person hp
  simp only [List.mem_cons, Option.some.injEq, reduceCtorEq, List.not_mem_nil, or_false,
    false_or] at hp
  rcases hp with rfl | rfl
  · exact ⟨by decide, fun occ hocc => by cases hocc; decide⟩
  · exact ⟨by decide, fun occ hocc => by cases hocc⟩

/-- **`NULL` is decided by the first four bytes.** Once a list of nullable objects has been
written, reading it back tells `NULL` from the other objects at every place exactly when no
encoding in it begins with `FF FF FF FF`. For the codec of the test these are the persons
whose name does not begin so, for the codec that writes an `int` all values but `-1`. -/
theorem nulls_kept_unless_marked (env : Allocs) :
    (∀ (α : Type) (V : α → Prop) (serFunc : SerBuff → α → Except Fault SerBuff)
        (dserFunc : SerBuff → Except Fault (Option α × SerBuff)) (enc : α → List Byte),
      CodecPair SerBuff.Intact V serFunc dserFunc enc →
      ∀ xs : List (Option α), AllIn V xs →
      ∀ written, serializeAll env serFunc xs freshBuffer = .ok written →
        (NullsKept env dserFunc xs (serializedBufferReset written) ↔
          AllIn (Unmarked enc) xs)) ∧
    CodecPair SerBuff.Intact DeptUnmarked
      (fun buf person => serializePerson env buf (some person)) (deserializePerson env)
      encPerson ∧
    (∀ person, Unmarked encPerson person ↔ ¬ sentinel <+: person.name.toList) ∧
    CodecPair SerBuff.Intact (fun _ => True) (serializeIntWrapper env) deserializeIntWrapper
      intBytes ∧
    ∀ v, Unmarked intBytes v ↔ v ≠ -1 :=
  ⟨fun _ _ _ _ _ hc xs hV written hwrite => nulls_kept_iff hc xs hV written hwrite,
    person_codecPair (intactClass env), unmarked_encPerson, int_codecPair (intactClass env),
    unmarked_intBytes⟩

/-- The list `[-1]`, written by the codec that writes an `int`, is read back as `[NULL]`. -/
theorem minus_one_read_as_null :
    CodecPair SerBuff.Intact (fun _ => True) (serializeIntWrapper grantAll)
      deserializeIntWrapper intBytes ∧
    ∃ written final,
      serializeAll grantAll (serializeIntWrapper grantAll) [some (-1)] freshBuffer
        = .ok written ∧
      deserializeAll grantAll deserializeIntWrapper 1 (serializedBufferReset written)
        = .ok ([none], final) := by
  refine ⟨int_codecPair (intactClass grantAll), ?_⟩
  obtain ⟨written, hwrite, -, happ⟩ := serializeInt_spec grantAll_succeeds freshBuffer_sound (-1)
    (by decide)
  have hpre : sentinel <+: intBytes (-1) := by decide
  have hread : deserialize grantAll deserializeIntWrapper (serializedBufferReset written)
      = .ok (none, (serializedBufferReset written).advance 4) :=
    deserialize_marked (intact_reset happ.intact) (happ.ahead_reset rfl) hpre
  exact ⟨written, _, bind_eq_ok.2 ⟨written, hwrite, rfl⟩, bind_eq_ok.2 ⟨_, hread, rfl⟩⟩

end CPlayground.Serial
