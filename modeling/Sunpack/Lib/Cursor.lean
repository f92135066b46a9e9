import Sunpack.Lib.Holes

/-!
# Lists with a position

Parts of a list, writes into the middle of one, and a list with the position of the next read or write.
-/

namespace Sunpack.Lib

variable {α : Type*}

/-! ## Slices -/

/-- `length` items from a position on, as far as there are any. -/
def slice (l : List α) (start length : Nat) : List α := (l.drop start).take length

theorem length_slice (l : List α) (start length : Nat) :
    (slice l start length).length = min length (l.length - start) := by
  unfold slice
  rw [List.length_take, List.length_drop]

theorem slice_zero (l : List α) (start : Nat) : slice l start 0 = [] :=
  List.take_zero

theorem slice_append_slice (l : List α) (start m n : Nat) :
    slice l start m ++ slice l (start + m) n = slice l start (m + n) := by
  unfold slice
  rw [List.take_add, List.drop_drop]

theorem take_slice {l : List α} {start m n : Nat} (h : m ≤ n) :
    (slice l start n).take m = slice l start m := by
  unfold slice
  rw [List.take_take, Nat.min_eq_left h]

theorem drop_slice (l : List α) (start m n : Nat) :
    (slice l start n).drop m = slice l (start + m) (n - m) := by
  unfold slice
  rw [List.drop_take, List.drop_drop]

/-- Nothing is behind the end. -/
theorem slice_min (l : List α) (start length : Nat) :
    slice l start (min length (l.length - start)) = slice l start length := by
  unfold slice
  rw [← List.length_drop, ← List.take_take, List.take_length]

theorem slice_length_slice (l : List α) (start length : Nat) :
    slice l start (slice l start length).length = slice l start length := by
  rw [length_slice, slice_min]

theorem StandsAt.slice {l part : List α} {n : Nat} (h : StandsAt l n part) :
    slice l n part.length = part :=
  h.take_drop

theorem StandsAt.right {l front back : List α} {n : Nat} (h : StandsAt l n (front ++ back)) :
    StandsAt l (n + front.length) back := by
  intro j hj
  have hat := h (front.length + j) (by rw [List.length_append]; omega)
  rw [List.getElem?_append_right (by omega), Nat.add_sub_cancel_left] at hat
  rw [Nat.add_assoc]
  exact hat

theorem StandsAt.left {l front back : List α} {n : Nat} (h : StandsAt l n (front ++ back)) :
    StandsAt l n front := by
  intro j hj
  have hat := h j (by rw [List.length_append]; omega)
  rwa [List.getElem?_append_left hj] at hat

/-- What stands at a position is in front of all that follows it. -/
theorem StandsAt.drop_eq {l part : List α} {n : Nat} (h : StandsAt l n part) :
    l.drop n = part ++ l.drop (n + part.length) := by
  have hfront := List.take_append_drop part.length (l.drop n)
  rw [h.take_drop, List.drop_drop] at hfront
  exact hfront.symm

/-! ## Writes -/

/-- A write at a position; a gap behind the end is filled. -/
def overwrite (filler : α) (l : List α) (n : Nat) (part : List α) : List α :=
  l.take n ++ List.replicate (n - l.length) filler ++ part ++ l.drop (n + part.length)

theorem overwrite_end (filler : α) (l part : List α) :
    overwrite filler l l.length part = l ++ part := by
  unfold overwrite
  rw [List.take_length, Nat.sub_self, List.replicate_zero, List.append_nil,
    List.drop_eq_nil_of_le (by omega), List.append_nil]

theorem length_overwrite (filler : α) (l : List α) (n : Nat) (part : List α) :
    (overwrite filler l n part).length = max l.length (n + part.length) := by
  unfold overwrite
  simp only [List.length_append, List.length_take, List.length_replicate, List.length_drop]
  omega

theorem standsAt_overwrite {l : List α} {n : Nat} (hn : n ≤ l.length) (filler : α)
    (part : List α) : StandsAt (overwrite filler l n part) n part := by
  intro j hj
  have hfront : (l.take n ++ List.replicate (n - l.length) filler).length = n := by
    simp only [List.length_append, List.length_take, List.length_replicate]
    omega
  unfold overwrite
  rw [List.getElem?_append_left (by rw [List.length_append, hfront]; omega),
    List.getElem?_append_right (by omega), hfront, Nat.add_sub_cancel_left]

theorem StandsAt.overwrite {l part : List α} {n : Nat} (h : StandsAt l n part) {start : Nat}
    (hstart : start ≤ l.length) (filler : α) {other : List α}
    (hout : n + part.length ≤ start ∨ start + other.length ≤ n) :
    StandsAt (overwrite filler l start other) n part := by
  intro j hj
  have hfront : (l.take start ++ List.replicate (start - l.length) filler).length = start := by
    simp only [List.length_append, List.length_take, List.length_replicate]
    omega
  rw [← h j hj]
  unfold Lib.overwrite
  rcases hout with hbefore | hafter
  · rw [List.append_assoc, List.getElem?_append_left (by omega),
      List.getElem?_append_left (by rw [List.length_take]; omega), List.getElem?_take,
      if_pos (by omega)]
  · have hlength : (l.take start ++ List.replicate (start - l.length) filler ++ other).length =
        start + other.length := by
      rw [List.length_append, hfront]
    rw [List.getElem?_append_right (by omega), hlength, List.getElem?_drop]
    congr 1
    omega

/-! ## Positions -/

/-- The items, and the position of the next read or write. -/
structure Cursor (α : Type*) where
  items : List α
  position : Nat

namespace Cursor

def empty : Cursor α := ⟨[], 0⟩

def write (filler : α) (c : Cursor α) (part : List α) : Cursor α :=
  ⟨overwrite filler c.items c.position part, c.position + part.length⟩

def read (c : Cursor α) (n : Nat) : List α × Cursor α :=
  (slice c.items c.position n, ⟨c.items, c.position + (slice c.items c.position n).length⟩)

def seek (c : Cursor α) (n : Nat) : Cursor α := ⟨c.items, n⟩

theorem write_end {c : Cursor α} (h : c.position = c.items.length) (filler : α) (part : List α) :
    c.write filler part = ⟨c.items ++ part, (c.items ++ part).length⟩ := by
  unfold write
  rw [h, overwrite_end, List.length_append]

end Cursor

end Sunpack.Lib
