import Mathlib.Data.Int.Basic
import Mathlib.Data.List.Basic
import Mathlib.Tactic.Ring
import Mathlib.Tactic.Linarith

set_option autoImplicit false

/-! # C integers and their bytes

The machine arithmetic of a 64-bit C program: `int` is 32 bits wide and wraps around in
two's complement (`wrap32`), `size_t` is 64 bits wide (`toSizeT`). A word is kept in memory
as its bytes, least significant first (`leBytes`, `leWord`).
-/

namespace CPlayground

/-- One byte of memory. -/
abbrev Byte := UInt8

/-! ## `int` and `size_t` -/

/-- The value of an `int` expression whose mathematical value is `x`. -/
def wrap32 (x : Int) : Int := Int.bmod x (2 ^ 32)

/-- The conversion of an `int` to `size_t`. -/
def toSizeT (x : Int) : Nat := (x % 2 ^ 64).toNat

/-- `x` is the value of some `int`. -/
def FitsInt (x : Int) : Prop := -2 ^ 31 ≤ x ∧ x < 2 ^ 31

theorem fitsInt_wrap32 (x : Int) : FitsInt (wrap32 x) := by
  unfold FitsInt wrap32
  rw [Int.bmod_def]
  split_ifs <;> omega

theorem wrap32_eq {x : Int} (h1 : -2 ^ 31 ≤ x) (h2 : x < 2 ^ 31) : wrap32 x = x := by
  unfold wrap32
  rw [Int.bmod_def]
  split_ifs <;> omega

theorem toSizeT_eq {x : Int} (h : 0 ≤ x) (h2 : x < 2 ^ 64) : toSizeT x = x.toNat := by
  unfold toSizeT
  rw [Int.emod_eq_of_lt h h2]

/-! ## Little-endian words -/

/-- The `k` low bytes of `n`, least significant first. -/
def leBytes : Nat → Nat → List Byte
  | 0, _ => []
  | k + 1, n => UInt8.ofNat (n % 256) :: leBytes k (n / 256)

/-- The number a little-endian byte string denotes. -/
def leWord : List Byte → Nat
  | [] => 0
  | b :: bs => b.toNat + 256 * leWord bs

@[simp] theorem leBytes_length (k n : Nat) : (leBytes k n).length = k := by
  induction k generalizing n with
  | zero => rfl
  | succ k ih => simp [leBytes, ih]

theorem leWord_leBytes (k n : Nat) : leWord (leBytes k n) = n % 256 ^ k := by
  induction k generalizing n with
  | zero => simp [leBytes, leWord, Nat.mod_one]
  | succ k ih =>
      have hb : (UInt8.ofNat (n % 256)).toNat = n % 256 := by simp
      calc leWord (leBytes (k + 1) n) = n % 256 + 256 * (n / 256 % 256 ^ k) := by
            rw [leBytes, leWord, ih, hb]
        _ = n % (256 * 256 ^ k) := Nat.mod_mul.symm
        _ = n % 256 ^ (k + 1) := by rw [pow_succ, Nat.mul_comm]

theorem leBytes_leWord (bs : List Byte) : leBytes bs.length (leWord bs) = bs := by
  induction bs with
  | nil => rfl
  | cons b bs ih =>
      have hb : b.toNat < 256 := b.toNat_lt
      have hmod : (b.toNat + 256 * leWord bs) % 256 = b.toNat := by omega
      have hdiv : (b.toNat + 256 * leWord bs) / 256 = leWord bs := by omega
      simp only [List.length_cons, leBytes, leWord, hmod, hdiv, ih]
      simp

/-- A byte string is determined by its length and the word it denotes. -/
theorem leWord_eq_iff (bs : List Byte) (n : Nat) :
    leWord bs = n % 256 ^ bs.length ↔ bs = leBytes bs.length n := by
  constructor
  · intro h
    have hl := leBytes_leWord (leBytes bs.length n)
    rw [leBytes_length] at hl
    calc bs = leBytes bs.length (leWord bs) := (leBytes_leWord bs).symm
      _ = leBytes bs.length (leWord (leBytes bs.length n)) := by rw [h, leWord_leBytes]
      _ = leBytes bs.length n := hl
  · intro h
    rw [h, leBytes_length, leWord_leBytes]

/-! ## The bytes of an `int` -/

/-- The four bytes of an `int` object. -/
def intBytes (v : Int32) : List Byte := leBytes 4 v.toUInt32.toNat

/-- The `int` object with the given four bytes. -/
def bytesInt (bs : List Byte) : Int32 := (UInt32.ofNat (leWord bs)).toInt32

@[simp] theorem intBytes_length (v : Int32) : (intBytes v).length = 4 := leBytes_length _ _

@[simp] theorem bytesInt_intBytes (v : Int32) : bytesInt (intBytes v) = v := by
  have hv : v.toUInt32.toNat < 2 ^ 32 := v.toUInt32.toNat_lt
  have hw : leWord (intBytes v) = v.toUInt32.toNat := by
    rw [intBytes, leWord_leBytes]
    omega
  rw [bytesInt, hw]
  simp

end CPlayground
