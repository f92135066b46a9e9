import Mathlib

/-!
# Keystreams

A stream of bytes by position, and bytes combined with it from a position on.
-/

namespace Sunpack.Lib

/-- The bytes, from position `n` on, combined with the keystream. -/
def xorFrom (ks : Nat → UInt8) : Nat → List UInt8 → List UInt8
  | _, [] => []
  | n, b :: bs => (b ^^^ ks n) :: xorFrom ks (n + 1) bs

variable (ks : Nat → UInt8)

@[simp] theorem length_xorFrom (n : Nat) (bytes : List UInt8) :
    (xorFrom ks n bytes).length = bytes.length := by
  induction bytes generalizing n with
  | nil => rfl
  | cons b bytes ih => rw [xorFrom, List.length_cons, ih, List.length_cons]

theorem xorFrom_append (n : Nat) (front bytes : List UInt8) :
    xorFrom ks n (front ++ bytes) = xorFrom ks n front ++ xorFrom ks (n + front.length) bytes := by
  induction front generalizing n with
  | nil => rfl
  | cons b front ih =>
    rw [List.cons_append, xorFrom, ih, xorFrom, List.cons_append, List.length_cons]
    congr 3
    omega

/-- Bytes combined with a part of the keystream. -/
theorem zipWith_eq_xorFrom {n : Nat} {bytes pad : List UInt8} (hlen : pad.length = bytes.length)
    (hpad : ∀ i, i < bytes.length → pad[i]? = some (ks (n + i))) :
    List.zipWith (· ^^^ ·) bytes pad = xorFrom ks n bytes := by
  induction bytes generalizing n pad with
  | nil => simp [xorFrom]
  | cons b bytes ih =>
    cases pad with
    | nil => exact absurd hlen (by simp)
    | cons p pad =>
      have hfirst : p = ks n := by simpa using hpad 0 (by simp)
      rw [List.zipWith_cons_cons, xorFrom, hfirst, ih (n := n + 1)]
      · simpa using hlen
      · intro i hi
        have hnext := hpad (i + 1) (by simpa using hi)
        rw [List.getElem?_cons_succ] at hnext
        rw [hnext]
        congr 2
        omega

/-! ## Streams of blocks -/

/-- Byte `i` of blocks of one size in a row. -/
theorem getElem?_flatten_blocks {size : Nat} (hsize : 0 < size) {blocks : List (List UInt8)}
    (hblocks : ∀ block ∈ blocks, block.length = size) (i : Nat) :
    blocks.flatten[i]? = (blocks[i / size]?).bind fun block => block[i % size]? := by
  induction blocks generalizing i with
  | nil => simp
  | cons block blocks ih =>
    have hlen := hblocks block List.mem_cons_self
    rw [List.flatten_cons]
    by_cases hi : i < size
    · rw [List.getElem?_append_left (by omega), Nat.div_eq_of_lt hi, Nat.mod_eq_of_lt hi]
      simp
    · obtain ⟨j, rfl⟩ : ∃ j, i = j + size := ⟨i - size, by omega⟩
      rw [List.getElem?_append_right (by omega), hlen, Nat.add_sub_cancel,
        ih fun b hb => hblocks b (List.mem_cons_of_mem _ hb), Nat.add_div_right _ hsize,
        Nat.add_mod_right, List.getElem?_cons_succ]

theorem length_flatten_blocks {size : Nat} {blocks : List (List UInt8)}
    (hblocks : ∀ block ∈ blocks, block.length = size) :
    blocks.flatten.length = blocks.length * size := by
  induction blocks with
  | nil => simp
  | cons block blocks ih =>
    rw [List.flatten_cons, List.length_append, hblocks block List.mem_cons_self,
      ih fun b hb => hblocks b (List.mem_cons_of_mem _ hb), List.length_cons]
    ring

end Sunpack.Lib
