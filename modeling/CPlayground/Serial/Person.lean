import CPlayground.Serial.Codec

set_option autoImplicit false

/-! # The codecs of the tests

The `person_t` codec of `common/serialization_test.c`, with its nested nullable occupation,
and the codec that writes one `int` (`serialize_int_wrapper` in `Linux/RPC/simple_rpc.c`).
Objects come from `calloc`, so a destination that a refused read leaves alone is zero.
-/

namespace CPlayground.Serial

/-! ## Records -/

/-- `occupation_t`. -/
structure Occupation where
  deptName : Vector Byte 30
  employeeCode : Int32
  deriving DecidableEq

/-- `person_t`. -/
structure Person where
  name : Vector Byte 30
  age : Int32
  occ : Option Occupation
  weight : Int32
  deriving DecidableEq

/-- A zeroed `char[30]` after a read into it. -/
def storeChars (dest : Option (List Byte)) : Vector Byte 30 :=
  Vector.ofFn fun i => (dest.getD []).getD i 0

/-- A zeroed `int` after a read into it. -/
def storeInt (dest : Option (List Byte)) : Int32 := (dest.map bytesInt).getD 0

@[simp] theorem storeChars_toList (v : Vector Byte 30) : storeChars (some v.toList) = v := by
  ext i hi
  simp [storeChars]

@[simp] theorem storeInt_intBytes (v : Int32) : storeInt (some (intBytes v)) = v := by
  simp [storeInt]

/-! ## Writers -/

section Code

variable (env : Allocs)

/-- `serialize_occupation`. -/
def serializeOccupation (buf : SerBuff) : Option Occupation → Except Fault SerBuff
  | none => serializeNull env buf
  | some occ => do
      let buf ← serializeData env buf occ.deptName.toList
      serializeData env buf (intBytes occ.employeeCode)

/-- `serialize_person`. -/
def serializePerson (buf : SerBuff) : Option Person → Except Fault SerBuff
  | none => serializeNull env buf
  | some person => do
      let buf ← serializeData env buf person.name.toList
      let buf ← serializeData env buf (intBytes person.age)
      let buf ← serializeOccupation env buf person.occ
      serializeData env buf (intBytes person.weight)

/-! ## Readers -/

/-- `deserialize_occupation`. -/
def deserializeOccupation (buf : SerBuff) : Except Fault (Option Occupation × SerBuff) := do
  let (isNull, buf) ← deserializeNull env buf
  if isNull ≠ 0 then return (none, buf)
  else do
    let (deptName, buf) ← deserializeData buf 30
    let (employeeCode, buf) ← deserializeData buf 4
    return (some ⟨storeChars deptName, storeInt employeeCode⟩, buf)

/-- `deserialize_person`. -/
def deserializePerson (buf : SerBuff) : Except Fault (Option Person × SerBuff) := do
  let (name, buf) ← deserializeData buf 30
  let (age, buf) ← deserializeData buf 4
  let (occ, buf) ← deserializeOccupation env buf
  let (weight, buf) ← deserializeData buf 4
  return (some ⟨storeChars name, storeInt age, occ, storeInt weight⟩, buf)

/-- The writer of the codec that writes one `int`. -/
def serializeIntWrapper (buf : SerBuff) (data : Int32) : Except Fault SerBuff :=
  serializeInt env buf data

/-- The reader of the codec that writes one `int`. -/
def deserializeIntWrapper (buf : SerBuff) : Except Fault (Option Int32 × SerBuff) := do
  let (temp, buf) ← deserializeInt buf
  return (some temp, buf)

end Code

/-! ## What is on the wire -/

def encOccupation (occ : Occupation) : List Byte :=
  occ.deptName.toList ++ intBytes occ.employeeCode

def encPerson (person : Person) : List Byte :=
  person.name.toList ++ (intBytes person.age
    ++ (encObject encOccupation person.occ ++ intBytes person.weight))

/-- No department name begins with `FF FF FF FF`. -/
def DeptUnmarked (person : Person) : Prop :=
  ∀ occ, person.occ = some occ → ¬ sentinel <+: occ.deptName.toList

/-- Neither the name nor the department name begins with `FF FF FF FF`. -/
def NamesUnmarked (person : Person) : Prop :=
  ¬ sentinel <+: person.name.toList ∧ DeptUnmarked person

theorem chars_length (v : Vector Byte 30) : v.toList.length = 30 := by simp

/-- Only the first thirty bytes decide whether an encoding begins with the sentinel. -/
theorem unmarked_append (v : Vector Byte 30) (rest : List Byte) :
    sentinel <+: v.toList ++ rest ↔ sentinel <+: v.toList := by
  refine ⟨fun h => ?_, fun h => h.trans (List.prefix_append _ _)⟩
  refine List.prefix_of_prefix_length_le h (List.prefix_append _ _) ?_
  rw [chars_length, sentinel_length]
  omega

theorem unmarked_encPerson (person : Person) :
    Unmarked encPerson person ↔ ¬ sentinel <+: person.name.toList :=
  not_congr (unmarked_append _ _)

theorem encOccupation_length (occ : Occupation) : (encOccupation occ).length = 34 := by
  rw [encOccupation, List.length_append, chars_length, intBytes_length]

theorem encPerson_length_ge (person : Person) : 42 ≤ (encPerson person).length := by
  have hocc : 4 ≤ (encObject encOccupation person.occ).length := by
    cases person.occ with
    | none => exact le_refl _
    | some occ =>
        rw [encObject, encOccupation_length]
        omega
  simp only [encPerson, List.length_append, chars_length, intBytes_length]
  omega

/-- The `int` whose bytes are the sentinel is `-1`. -/
theorem unmarked_intBytes (v : Int32) : Unmarked intBytes v ↔ v ≠ -1 := by
  have hone : intBytes (-1) = sentinel := by decide
  refine not_congr ⟨fun h => ?_, fun h => ?_⟩
  · have he := h.eq_of_length (by rw [intBytes_length, sentinel_length])
    rw [← bytesInt_intBytes v, ← he, ← hone, bytesInt_intBytes]
  · have hpre : sentinel <+: intBytes (-1) := hone.symm ▸ List.prefix_refl sentinel
    exact h ▸ hpre

/-! ## The person codec writes its encoding -/

section Writing

variable {env : Allocs} {buf buf' : SerBuff}

/-- Whatever a class of buffers is closed under, it is closed under a write of the codec. -/
theorem serializeOccupation_appends {B : SerBuff → Prop} (hB : BufferClass env B) (h : B buf)
    (occ : Option Occupation) (hok : serializeOccupation env buf occ = .ok buf') :
    B buf' ∧ Appends buf buf' (encObject encOccupation occ) := by
  cases occ with
  | none => exact ⟨hB.write h hok, serializeData_appends env (hB.intact h) hok⟩
  | some occ =>
      obtain ⟨buf₁, h₁, hok⟩ := bind_eq_ok.1 hok
      have hB₁ := hB.write h h₁
      exact ⟨hB.write hB₁ hok, (serializeData_appends env (hB.intact h) h₁).trans
        (serializeData_appends env (hB.intact hB₁) hok)⟩

theorem serializePerson_appends {B : SerBuff → Prop} (hB : BufferClass env B) (h : B buf)
    (person : Person) (hok : serializePerson env buf (some person) = .ok buf') :
    B buf' ∧ Appends buf buf' (encPerson person) := by
  obtain ⟨buf₁, h₁, hok⟩ := bind_eq_ok.1 hok
  obtain ⟨buf₂, h₂, hok⟩ := bind_eq_ok.1 hok
  obtain ⟨buf₃, h₃, hok⟩ := bind_eq_ok.1 hok
  have hB₁ := hB.write h h₁
  have hB₂ := hB.write hB₁ h₂
  obtain ⟨hB₃, happ₃⟩ := serializeOccupation_appends hB hB₂ person.occ h₃
  refine ⟨hB.write hB₃ hok, ?_⟩
  exact (serializeData_appends env (hB.intact h) h₁).trans
    ((serializeData_appends env (hB.intact hB₁) h₂).trans
      (happ₃.trans (serializeData_appends env (hB.intact hB₃) hok)))

theorem serializeOccupation_comesBack (henv : AllocsSucceed env) (h : buf.Sound)
    (occ : Option Occupation)
    (hfit : buf.next + (encObject encOccupation occ).length ≤ 2 ^ 30) :
    ∃ buf', serializeOccupation env buf occ = .ok buf' := by
  cases occ with
  | none =>
      obtain ⟨buf₁, hok, -, -⟩ := serializeNull_spec henv h hfit
      exact ⟨buf₁, hok⟩
  | some occ =>
      rw [encObject, encOccupation_length] at hfit
      obtain ⟨buf₁, h₁, hs₁, happ₁⟩ := serializeData_spec henv h occ.deptName.toList
        (by rw [chars_length]; omega)
      have hn₁ := happ₁.next
      rw [chars_length] at hn₁
      obtain ⟨buf₂, h₂, -, -⟩ := serializeData_spec henv hs₁ (intBytes occ.employeeCode)
        (by rw [intBytes_length]; omega)
      exact ⟨buf₂, bind_eq_ok.2 ⟨buf₁, h₁, h₂⟩⟩

theorem serializePerson_comesBack (henv : AllocsSucceed env) :
    ComesBack SerBuff.Sound (fun _ => True)
      (fun buf person => serializePerson env buf (some person)) encPerson := by
  intro person _ buf h hfit
  simp only [encPerson, List.length_append, chars_length, intBytes_length] at hfit
  obtain ⟨buf₁, h₁, hs₁, happ₁⟩ := serializeData_spec henv h person.name.toList
    (by rw [chars_length]; omega)
  have hn₁ := happ₁.next
  rw [chars_length] at hn₁
  obtain ⟨buf₂, h₂, hs₂, happ₂⟩ := serializeData_spec henv hs₁ (intBytes person.age)
    (by rw [intBytes_length]; omega)
  have hn₂ := happ₂.next
  rw [intBytes_length] at hn₂
  obtain ⟨buf₃, h₃⟩ := serializeOccupation_comesBack henv hs₂ person.occ (by omega)
  obtain ⟨hs₃, happ₃⟩ := serializeOccupation_appends (soundClass henv) hs₂ person.occ h₃
  have hn₃ := happ₃.next
  obtain ⟨buf₄, h₄, -, -⟩ := serializeData_spec henv hs₃ (intBytes person.weight)
    (by rw [intBytes_length]; omega)
  exact ⟨buf₄, bind_eq_ok.2 ⟨buf₁, h₁, bind_eq_ok.2 ⟨buf₂, h₂, bind_eq_ok.2 ⟨buf₃, h₃, h₄⟩⟩⟩⟩

end Writing

/-! ## The person codec reads its encoding -/

section Reading

variable (env : Allocs) {buf : SerBuff}

theorem read_chars {v : Vector Byte 30} (h : buf.Intact) (ha : Ahead buf v.toList) :
    deserializeData buf 30 = .ok (some v.toList, buf.advance 30) := by
  have hne : v.toList ≠ [] := by
    intro he
    have := chars_length v
    rw [he] at this
    simp at this
  have hread := deserializeData_spec h ha hne
  rwa [chars_length] at hread

theorem read_int {v : Int32} (h : buf.Intact) (ha : Ahead buf (intBytes v)) :
    deserializeData buf 4 = .ok (some (intBytes v), buf.advance 4) := by
  have hne : intBytes v ≠ [] := by simp [intBytes, leBytes]
  have hread := deserializeData_spec h ha hne
  rwa [intBytes_length] at hread

theorem deserializeOccupation_spec {occ : Option Occupation} (h : buf.Intact)
    (hm : ∀ o, occ = some o → ¬ sentinel <+: o.deptName.toList)
    (ha : Ahead buf (encObject encOccupation occ)) :
    deserializeOccupation env buf
      = .ok (occ, buf.advance (encObject encOccupation occ).length) := by
  cases occ with
  | none =>
      have hread := deserializeNull_spec env h ha sentinel_length
      exact bind_eq_ok.2 ⟨(-1, buf.advance 4), hread, rfl⟩
  | some o =>
      have hname : Ahead buf o.deptName.toList := ha.left
      -- the peek sees the first four characters of the name
      have h4 : (o.deptName.toList.take 4).length = 4 := by
        rw [List.length_take, chars_length]
        omega
      have hne : o.deptName.toList.take 4 ≠ sentinel :=
        fun he => hm o rfl (he ▸ List.take_prefix 4 _)
      have hcode := ha.right h.next_nonneg
      rw [chars_length] at hcode
      have hin := hname.intact h
      rw [chars_length] at hin
      have hpeek := deserializeNull_spec env h ((List.take_prefix 4 _).trans hname) h4
      rw [if_neg hne] at hpeek
      refine bind_eq_ok.2 ⟨(0, buf), hpeek, bind_eq_ok.2 ⟨_, read_chars h hname,
        bind_eq_ok.2 ⟨_, read_int hin hcode, ?_⟩⟩⟩
      simp only [storeChars_toList, storeInt_intBytes, advance_advance, encObject,
        encOccupation_length]
      rfl

theorem deserializePerson_spec {person : Person} (h : buf.Intact) (hm : DeptUnmarked person)
    (ha : Ahead buf (encPerson person)) :
    deserializePerson env buf = .ok (some person, buf.advance (encPerson person).length) := by
  have hname := ha.left
  have hin := hname.intact h
  have ha₁ := ha.right h.next_nonneg
  rw [chars_length] at hin ha₁
  have hin₁ := ha₁.left.intact hin
  have ha₂ := ha₁.right hin.next_nonneg
  rw [intBytes_length] at hin₁ ha₂
  have hin₂ := ha₂.left.intact hin₁
  have ha₃ := ha₂.right hin₁.next_nonneg
  refine bind_eq_ok.2 ⟨_, read_chars h hname, bind_eq_ok.2 ⟨_, read_int hin ha₁.left,
    bind_eq_ok.2 ⟨_, deserializeOccupation_spec env hin₁ hm ha₂.left,
      bind_eq_ok.2 ⟨_, read_int hin₂ ha₃, ?_⟩⟩⟩⟩
  simp only [storeChars_toList, storeInt_intBytes, advance_advance, encPerson,
    List.length_append, chars_length, intBytes_length, Nat.add_assoc]
  rfl

end Reading

/-! ## The codecs are codec pairs -/

theorem person_codecPair {env : Allocs} {B : SerBuff → Prop} (hB : BufferClass env B) :
    CodecPair B DeptUnmarked (fun buf person => serializePerson env buf (some person))
      (deserializePerson env) encPerson where
  appends := fun person _ _ _ h hok => serializePerson_appends hB h person hok
  undoes := fun _ hm _ h ha => deserializePerson_spec env (hB.intact h) hm ha
  length_ge := fun person _ => by
    have := encPerson_length_ge person
    omega

theorem int_codecPair {env : Allocs} {B : SerBuff → Prop} (hB : BufferClass env B) :
    CodecPair B (fun _ => True) (serializeIntWrapper env) deserializeIntWrapper intBytes where
  appends := fun _ _ _ _ h hok => ⟨hB.write h hok, serializeData_appends env (hB.intact h) hok⟩
  undoes := fun v _ buf h ha => by
    simp only [deserializeIntWrapper, deserializeInt_spec (hB.intact h) ha, intBytes_length]
    rfl
  length_ge := fun v _ => by rw [intBytes_length]

end CPlayground.Serial
