import Mathlib.Data.List.Basic
import Mathlib.Data.Nat.Bitwise

/-!
# Little-endian numbers

Natural numbers as lists of bytes, least significant first, and the bit arithmetic of a flag that is
kept in the top bit of a 32-bit word.
-/

namespace Sunpack.Lib

/-- The `k` little-endian bytes of `n`. -/
def leBytes : Nat → Nat → List UInt8
  | 0, _ => []
  | k + 1, n => UInt8.ofNat n :: leBytes k (n / 256)

/-- The number with the given little-endian bytes. -/
def ofLeBytes : List UInt8 → Nat
  | [] => 0
  | b :: bs => b.toNat + 256 * ofLeBytes bs

@[simp] theorem leBytes_length (k n : Nat) : (leBytes k n).length = k := by
  induction k generalizing n with
  | zero => rfl
  | succ k ih => simp [leBytes, ih]

theorem ofLeBytes_leBytes (k n : Nat) : ofLeBytes (leBytes k n) = n % 256 ^ k := by
  induction k generalizing n with
  | zero => simp [leBytes, ofLeBytes, Nat.mod_one]
  | succ k ih =>
    have hsplit := Nat.mod_mul (a := 256) (b := 256 ^ k) (x := n)
    rw [leBytes, ofLeBytes, ih, UInt8.toNat_ofNat', pow_succ' 256, hsplit]

theorem ofLeBytes_leBytes_of_lt {k n : Nat} (h : n < 256 ^ k) :
    ofLeBytes (leBytes k n) = n := by
  rw [ofLeBytes_leBytes, Nat.mod_eq_of_lt h]

@[simp] theorem uint32_ofNat_ofLeBytes (x : UInt32) :
    UInt32.ofNat (ofLeBytes (leBytes 4 x.toNat)) = x := by
  rw [ofLeBytes_leBytes_of_lt x.toNat_lt, UInt32.ofNat_toNat]

@[simp] theorem uint64_ofNat_ofLeBytes (x : UInt64) :
    UInt64.ofNat (ofLeBytes (leBytes 8 x.toNat)) = x := by
  rw [ofLeBytes_leBytes_of_lt x.toNat_lt, UInt64.ofNat_toNat]

/-! ## A flag in the top bit -/

theorem topBit_toNat (flag : Bool) :
    (if flag then (1 : UInt32) <<< 31 else 0).toNat = 2 ^ 31 * flag.toNat := by
  cases flag <;> decide

theorem toUInt32_toNat {n : Nat} (h : n < 2 ^ 31) : n.toUInt32.toNat = n := by
  rw [Nat.toUInt32, UInt32.toNat_ofNat', Nat.mod_eq_of_lt (by omega)]

/-- Masking the top bit off a small word that may carry it gives the word back. -/
theorem topBit_mask {n : Nat} (h : n < 2 ^ 31) (flag : Bool) :
    ((n.toUInt32 ||| if flag then (1 : UInt32) <<< 31 else 0) &&& ~~~((1 : UInt32) <<< 31)).toNat
      = n := by
  have hmask : (~~~((1 : UInt32) <<< 31)).toNat = 2 ^ 31 - 1 := by decide
  rw [UInt32.toNat_and, UInt32.toNat_or, toUInt32_toNat h, hmask, topBit_toNat, Nat.or_comm,
    ← Nat.two_pow_add_eq_or_of_lt h, Nat.and_two_pow_sub_one_eq_mod, Nat.mul_add_mod,
    Nat.mod_eq_of_lt h]

/-- The top bit of such a word is the flag. -/
theorem topBit_eq_zero {n : Nat} (h : n < 2 ^ 31) (flag : Bool) :
    (n.toUInt32 ||| if flag then (1 : UInt32) <<< 31 else 0) &&& (1 : UInt32) <<< 31 = 0 ↔
      flag = false := by
  have htop : ((1 : UInt32) <<< 31).toNat = 2 ^ 31 := by decide
  rw [← UInt32.toNat_inj, UInt32.toNat_and, UInt32.toNat_or, toUInt32_toNat h, htop, topBit_toNat,
    Nat.or_comm, ← Nat.two_pow_add_eq_or_of_lt h, Nat.and_two_pow,
    Nat.testBit_two_pow_mul_add _ h]
  cases flag <;> simp

end Sunpack.Lib
