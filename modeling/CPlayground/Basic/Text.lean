import CPlayground.Basic.CInt

set_option autoImplicit false

/-! # C strings and formatted text

A C string is its bytes before the terminating NUL. An array of `char`s carries a string when
it starts with the string and a NUL (`Carries`). `snprintf` cuts a text to the room it is
given: written behind a string, the text extends it up to the end of the array
(`snprintf_carries`).
-/

namespace CPlayground

/-! ## Strings -/

/-- A C string. -/
structure CString where
  chars : List Byte
  noNul : ∀ c ∈ chars, c ≠ 0

theorem noNul_of_all {chars : List Byte} (h : chars.all (· != 0) = true) :
    ∀ c ∈ chars, c ≠ 0 := by
  intro c hc
  have hne := List.all_eq_true.1 h c hc
  exact bne_iff_ne.1 hne

/-- The bytes of a string literal. -/
def literal (s : String) : List Byte := s.toList.map fun c => UInt8.ofNat c.toNat

/-- The conversion `%d`. -/
def decimal (n : Int) : List Byte :=
  (if n < 0 then literal "-" else []) ++
    (Nat.toDigits 10 n.natAbs).map fun c => UInt8.ofNat c.toNat

/-- The conversion `%-5s` and its like: a string, padded with blanks on the right. -/
def padRight (width : Nat) (s : List Byte) : List Byte :=
  s ++ List.replicate (width - s.length) 32

theorem decimal_noNul (n : Int) : ∀ c ∈ decimal n, c ≠ 0 := by
  intro c hc
  unfold decimal at hc
  rcases List.mem_append.1 hc with hsign | hdigit
  · split_ifs at hsign
    · have hminus : c = 45 := List.mem_singleton.1 hsign
      rw [hminus]
      decide
    · exact absurd hsign List.not_mem_nil
  · obtain ⟨d, hd, rfl⟩ := List.mem_map.1 hdigit
    have hd' : d.isDigit := Nat.isDigit_of_mem_toDigits (by decide) (by decide) hd
    simp only [Char.isDigit, Bool.and_eq_true, decide_eq_true_eq] at hd'
    intro h0
    have hval : d.toNat % 256 = 0 := by
      have := congrArg UInt8.toNat h0
      simpa using this
    have hlo : 48 ≤ d.toNat := by simpa using UInt32.le_iff_toNat_le.1 hd'.1
    have hhi : d.toNat ≤ 57 := by simpa using UInt32.le_iff_toNat_le.1 hd'.2
    omega

/-! ## Arrays of characters -/

/-- The last index of a store that leaves the array. -/
structure OutOfBounds where
  index : Int
  deriving DecidableEq, Repr

/-- Store `data` from index `off` on. -/
def store (msg : List Byte) (off : Int) (data : List Byte) : Except OutOfBounds (List Byte) :=
  if 0 ≤ off ∧ off + data.length ≤ msg.length then
    .ok (msg.take off.toNat ++ data ++ msg.drop (off.toNat + data.length))
  else .error ⟨off + data.length - 1⟩

/-- `snprintf(msg + off, n, ...)`, for the formatted `text`. When the call fails, it returns
the value given by `outcome` and is taken to store nothing; otherwise it returns the length of
the whole text. -/
def snprintf (outcome : Option Int) (msg : List Byte) (off : Int) (n : Nat) (text : List Byte) :
    Except OutOfBounds (Int × List Byte) :=
  match outcome with
  | some err => .ok (err, msg)
  | none =>
      if n = 0 then .ok (text.length, msg)
      else do
        let msg ← store msg off (text.take (n - 1) ++ [0])
        return (text.length, msg)

/-- What `%s` prints of an array: the bytes before the first NUL. -/
def printed (msg : List Byte) : List Byte := msg.takeWhile (· ≠ 0)

/-- The array starts with the string `s` and a NUL. -/
def Carries (msg s : List Byte) : Prop := s ++ [0] <+: msg

section Carries

variable {msg s : List Byte}

theorem Carries.length_lt (h : Carries msg s) : s.length < msg.length := by
  have hle := List.IsPrefix.length_le h
  rw [List.length_append, List.length_singleton] at hle
  omega

theorem printed_of_carries (h : Carries msg s) (hs : ∀ c ∈ s, c ≠ 0) : printed msg = s := by
  obtain ⟨rest, rfl⟩ := h
  unfold printed
  rw [List.append_assoc, List.takeWhile_append_of_pos (by simpa using hs)]
  simp

/-- A store behind a prefix extends the prefix. -/
theorem store_behind {data : List Byte} (h : s <+: msg)
    (hroom : s.length + data.length ≤ msg.length) :
    ∃ msg', store msg s.length data = .ok msg' ∧ msg'.length = msg.length ∧
      s ++ data <+: msg' := by
  refine ⟨msg.take s.length ++ data ++ msg.drop (s.length + data.length), ?_, ?_, ?_⟩
  · unfold store
    rw [if_pos ⟨by omega, by omega⟩, Int.toNat_natCast]
  · simp only [List.length_append, List.length_take, List.length_drop]
    omega
  · rw [← List.prefix_iff_eq_take.1 h]
    exact List.prefix_append _ _

/-- **`snprintf` behind a string** extends it by the text, cut to the end of the array. -/
theorem snprintf_carries (text : List Byte) (h : Carries msg s) :
    ∃ msg', snprintf none msg s.length (msg.length - s.length) text = .ok (text.length, msg') ∧
      msg'.length = msg.length ∧ Carries msg' ((s ++ text).take (msg.length - 1)) := by
  have hlt := h.length_lt
  have hcut : (text.take (msg.length - s.length - 1)).length ≤ msg.length - s.length - 1 :=
    List.length_take_le _ _
  have hroom : s.length + (text.take (msg.length - s.length - 1) ++ [0]).length
      ≤ msg.length := by
    rw [List.length_append, List.length_singleton]
    omega
  obtain ⟨msg', hstore, hlen, hpre⟩ := store_behind ((List.prefix_append s [0]).trans h) hroom
  refine ⟨msg', ?_, hlen, ?_⟩
  · unfold snprintf
    simp only [if_neg (show msg.length - s.length ≠ 0 by omega), hstore]
    rfl
  · have htake : (s ++ text).take (msg.length - 1)
        = s ++ text.take (msg.length - s.length - 1) := by
      calc (s ++ text).take (msg.length - 1)
          = s.take (msg.length - 1) ++ text.take (msg.length - 1 - s.length) := List.take_append
        _ = s ++ text.take (msg.length - s.length - 1) := by
            rw [List.take_of_length_le (by omega), Nat.sub_right_comm]
    unfold Carries
    rw [htake, List.append_assoc]
    exact hpre

end Carries

end CPlayground
