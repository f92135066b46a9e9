import Mathlib
import Sunpack.Lib.LittleEndian

/-!
# Big-endian counters

Numbers as bytes with the most significant first, and counting up byte by byte: with a carry that may
have several bytes, and by one with a stop at the first byte that does not wrap.
-/

namespace Sunpack.Lib

theorem leBytes_ofLeBytes (l : List UInt8) : leBytes l.length (ofLeBytes l) = l := by
  induction l with
  | nil => rfl
  | cons b l ih =>
    have hlt := b.toNat_lt
    have hdiv : (b.toNat + 256 * ofLeBytes l) / 256 = ofLeBytes l := by omega
    have hfirst : UInt8.ofNat (b.toNat + 256 * ofLeBytes l) = b := by
      rw [← UInt8.toNat_inj, UInt8.toNat_ofNat']
      omega
    rw [List.length_cons, leBytes, ofLeBytes, hdiv, ih, hfirst]

theorem ofLeBytes_lt (l : List UInt8) : ofLeBytes l < 256 ^ l.length := by
  induction l with
  | nil => exact Nat.one_pos
  | cons b l ih =>
    have hb := b.toNat_lt
    rw [ofLeBytes, List.length_cons, Nat.pow_succ]
    omega

/-- Only what fits into the bytes matters. -/
theorem leBytes_mod (k n : Nat) : leBytes k (n % 256 ^ k) = leBytes k n := by
  rw [← ofLeBytes_leBytes]
  have hlen := leBytes_length k n
  nth_rewrite 1 [← hlen]
  exact leBytes_ofLeBytes _

/-! ## Counting -/

/-- Adds a number to bytes, least significant first; the carry keeps its higher bytes. -/
def addCarry : List UInt8 → Nat → List UInt8
  | [], _ => []
  | b :: bs, carry =>
    let sum := b.toNat + (carry &&& 0xff)
    UInt8.ofNat sum :: addCarry bs ((carry >>> 8) + (sum >>> 8))

theorem addCarry_eq (bs : List UInt8) (carry : Nat) :
    addCarry bs carry = leBytes bs.length (ofLeBytes bs + carry) := by
  induction bs generalizing carry with
  | nil => rfl
  | cons b bs ih =>
    have hmask : carry &&& 0xff = carry % 256 := Nat.and_two_pow_sub_one_eq_mod carry 8
    rw [addCarry, ih, List.length_cons, leBytes, hmask, Nat.shiftRight_eq_div_pow,
      Nat.shiftRight_eq_div_pow, ofLeBytes]
    have hdiv : (b.toNat + 256 * ofLeBytes bs + carry) / 256 =
        ofLeBytes bs + (carry / 2 ^ 8 + (b.toNat + carry % 256) / 2 ^ 8) := by omega
    rw [hdiv]
    congr 1
    rw [← UInt8.toNat_inj, UInt8.toNat_ofNat', UInt8.toNat_ofNat']
    omega

/-- Adds one to bytes, least significant first. -/
def increment : List UInt8 → List UInt8
  | [] => []
  | b :: bs => if b + 1 ≠ 0 then (b + 1) :: bs else (b + 1) :: increment bs

theorem increment_eq (bs : List UInt8) :
    increment bs = leBytes bs.length (ofLeBytes bs + 1) := by
  induction bs with
  | nil => rfl
  | cons b bs ih =>
    have hlt := b.toNat_lt
    have hnext : (b + 1).toNat = (b.toNat + 1) % 256 := by rw [UInt8.toNat_add]; rfl
    have hfirst : UInt8.ofNat (b.toNat + 256 * ofLeBytes bs + 1) = b + 1 := by
      rw [← UInt8.toNat_inj, UInt8.toNat_ofNat', hnext]
      omega
    rw [increment, List.length_cons, leBytes, ofLeBytes, hfirst]
    have hzero : b + 1 = 0 ↔ b.toNat = 255 := by
      rw [← UInt8.toNat_inj, hnext]
      show (b.toNat + 1) % 256 = 0 ↔ _
      omega
    split_ifs with hwrap
    · have hne : b.toNat ≠ 255 := fun h => hwrap (hzero.2 h)
      have hdiv : (b.toNat + 256 * ofLeBytes bs + 1) / 256 = ofLeBytes bs := by omega
      rw [hdiv, leBytes_ofLeBytes]
    · have heq : b.toNat = 255 := hzero.1 (not_not.1 hwrap)
      have hdiv : (b.toNat + 256 * ofLeBytes bs + 1) / 256 = ofLeBytes bs + 1 := by omega
      rw [hdiv, ih]

/-! ## Most significant byte first -/

/-- The `k` big-endian bytes of `n`. -/
def beBytes (k n : Nat) : List UInt8 := (leBytes k n).reverse

def ofBeBytes (l : List UInt8) : Nat := ofLeBytes l.reverse

@[simp] theorem beBytes_length (k n : Nat) : (beBytes k n).length = k := by
  rw [beBytes, List.length_reverse, leBytes_length]

theorem ofBeBytes_beBytes (k n : Nat) : ofBeBytes (beBytes k n) = n % 256 ^ k := by
  rw [ofBeBytes, beBytes, List.reverse_reverse, ofLeBytes_leBytes]

theorem beBytes_ofBeBytes (l : List UInt8) : beBytes l.length (ofBeBytes l) = l := by
  rw [beBytes, ofBeBytes, ← List.length_reverse, leBytes_ofLeBytes, List.reverse_reverse]

theorem beBytes_mod (k n : Nat) : beBytes k (n % 256 ^ k) = beBytes k n := by
  rw [beBytes, leBytes_mod, beBytes]

theorem beBytes_add_mod (k m n : Nat) : beBytes k (m % 256 ^ k + n) = beBytes k (m + n) := by
  rw [← beBytes_mod k (m % 256 ^ k + n), Nat.mod_add_mod, beBytes_mod]

theorem increment_beBytes (k n : Nat) :
    (increment (beBytes k n).reverse).reverse = beBytes k (n + 1) := by
  rw [beBytes, List.reverse_reverse, increment_eq, leBytes_length, ofLeBytes_leBytes, ← beBytes,
    beBytes_add_mod]

theorem addCarry_reverse (l : List UInt8) (n : Nat) :
    (addCarry l.reverse n).reverse = beBytes l.length (ofBeBytes l + n) := by
  rw [addCarry_eq, List.length_reverse]
  rfl

end Sunpack.Lib
