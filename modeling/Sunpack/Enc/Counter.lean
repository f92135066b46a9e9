import Sunpack.Enc.Cipher

/-!
# Counter mode

What a pad holds: the keystream from the position of the state on. A refill keeps this for words and
for counters that are counted byte by byte alike, so a call combines its bytes with the keystream
wherever the calls before it stopped.
-/

namespace Sunpack.Enc

open Lib

/-- Byte `i` of the keystream of a block function from a nonce on. -/
def keystreamOf (encrypt : Bytes → Bytes) (size nonce i : Nat) : UInt8 :=
  (encrypt (beBytes size ((nonce + i / size) % 2 ^ (8 * size)))).getD (i % size) 0

theorem beBytes_mod_two_pow (size n : Nat) : beBytes size (n % 2 ^ (8 * size)) = beBytes size n := by
  have hpow : (2 : Nat) ^ (8 * size) = 256 ^ size := by rw [pow_mul]; norm_num
  rw [hpow, beBytes_mod]

/-! ## Counter blocks -/

/-- Counter blocks of a nonce in a row. -/
def blocksFrom (size m n : Nat) : List Bytes := (List.range n).map fun j => beBytes size (m + j)

theorem blocksFrom_succ (size m n : Nat) :
    blocksFrom size m (n + 1) = beBytes size m :: blocksFrom size (m + 1) n := by
  rw [blocksFrom, List.range_succ_eq_map, List.map_cons, List.map_map, blocksFrom]
  refine congrArg _ (List.map_congr_left fun j _ => ?_)
  show beBytes size (m + (j + 1)) = _
  rw [Nat.add_right_comm, Nat.add_assoc]

theorem blocksFrom_mod (size m n : Nat) :
    blocksFrom size (m % 256 ^ size) n = blocksFrom size m n :=
  List.map_congr_left fun j _ => beBytes_add_mod size m j

theorem wordBlocks_eq (size n m : Nat) : (wordBlocks size n m).1 = blocksFrom size m n ∧
    beBytes size (wordBlocks size n m).2 = beBytes size (m + n) := by
  induction n generalizing m with
  | zero => exact ⟨rfl, rfl⟩
  | succ n ih =>
    obtain ⟨hblocks, hnext⟩ := ih ((m + 1) % 256 ^ size)
    rw [blocksFrom_mod] at hblocks
    rw [beBytes_add_mod] at hnext
    refine ⟨?_, ?_⟩
    · rw [wordBlocks, blocksFrom_succ, hblocks]
    · rw [wordBlocks, hnext, Nat.add_right_comm, Nat.add_assoc]

theorem byteBlocks_eq (size n m : Nat) :
    byteBlocks n (beBytes size m) = (blocksFrom size m n, beBytes size (m + n)) := by
  induction n generalizing m with
  | zero => rfl
  | succ n ih =>
    rw [byteBlocks, increment_beBytes, ih, blocksFrom_succ, Nat.add_right_comm, Nat.add_assoc]

/-- The two ways of counting make the same blocks. -/
theorem counterBlocks_eq (size n m : Nat) :
    counterBlocks size n (beBytes size m) = (blocksFrom size m n, beBytes size (m + n)) := by
  rw [counterBlocks]
  split_ifs
  · obtain ⟨hblocks, hnext⟩ := wordBlocks_eq size n (m % 256 ^ size)
    rw [blocksFrom_mod] at hblocks
    rw [beBytes_add_mod] at hnext
    rw [ofBeBytes_beBytes]
    exact Prod.ext hblocks hnext
  · exact byteBlocks_eq size n m

/-! ## States -/

/-- Blocks of the size are mapped to such blocks, and at least one fits into a pad. -/
structure IsBlockFunction (encrypt : Bytes → Bytes) (size : Nat) : Prop where
  pos : 0 < size
  le : size ≤ 128
  length : ∀ block, block.length = size → (encrypt block).length = size

/-- The state is at a position of the keystream: the pad has the bytes from there on, and the counter
is that of the block after them. -/
structure CtrState.At (encrypt : Bytes → Bytes) (size nonce : Nat) (s : CtrState) (pos : Nat) :
    Prop where
  pad_length : s.pad.length = 2048
  used_le : s.used ≤ s.available
  available_le : s.available ≤ 2048
  counter : ∃ k, s.counter = beBytes size (nonce + k) ∧
    pos + (s.available - s.used) = k * size
  ready : ∀ i, i < s.available - s.used →
    s.pad[s.used + i]? = some (keystreamOf encrypt size nonce (pos + i))

variable {encrypt : Bytes → Bytes} {size nonce : Nat}

theorem IsBlockFunction.length_encrypted (h : IsBlockFunction encrypt size) {m n : Nat} :
    ∀ block ∈ (blocksFrom size m n).map encrypt, block.length = size := by
  intro block hblock
  obtain ⟨counter, hcounter, rfl⟩ := List.mem_map.1 hblock
  obtain ⟨j, _, rfl⟩ := List.mem_map.1 hcounter
  exact h.length _ (beBytes_length _ _)

/-- Encrypted counter blocks are the keystream from a block boundary on. -/
theorem getElem?_blocks (h : IsBlockFunction encrypt size) {k n i : Nat} (hi : i < n * size) :
    ((blocksFrom size (nonce + k) n).map encrypt).flatten[i]? =
      some (keystreamOf encrypt size nonce (k * size + i)) := by
  have hdiv : i / size < n := Nat.div_lt_of_lt_mul (by rwa [Nat.mul_comm] at hi)
  have hmod : i % size < size := Nat.mod_lt _ h.pos
  have hat : (k * size + i) / size = k + i / size := by
    rw [Nat.add_comm, Nat.add_mul_div_right _ _ h.pos, Nat.add_comm]
  have hrest : (k * size + i) % size = i % size := by
    rw [Nat.add_comm, Nat.add_mul_mod_self_right]
  rw [getElem?_flatten_blocks h.pos h.length_encrypted, List.getElem?_map, blocksFrom, List.getElem?_map,
    List.getElem?_range hdiv, Option.map_some, Option.map_some, Option.bind_some, keystreamOf,
    beBytes_mod_two_pow, hat, hrest, Nat.add_assoc]
  have hlen := h.length (beBytes size (nonce + (k + i / size))) (beBytes_length _ _)
  rw [List.getD_eq_getElem?_getD, List.getElem?_eq_getElem (by omega), Option.getD_some]

theorem CtrState.At.start (k : Nat) {s : CtrState} (hcounter : s.counter = beBytes size (nonce + k))
    (hpad : s.pad.length = 2048) (hused : s.used = 0) (havailable : s.available = 0) :
    s.At encrypt size nonce (k * size) where
  pad_length := hpad
  used_le := by rw [hused, havailable]
  available_le := by omega
  counter := ⟨k, hcounter, by rw [hused, havailable]; rfl⟩
  ready i hi := absurd hi (by rw [hused, havailable]; omega)

/-- A refill of an empty pad does not move the position. -/
theorem CtrState.At.refill (h : IsBlockFunction encrypt size) {s : CtrState} {pos wanted : Nat}
    (hs : s.At encrypt size nonce pos) (hempty : s.used = s.available) (hwanted : 0 < wanted) :
    (s.refill encrypt size wanted).At encrypt size nonce pos ∧
      0 < (s.refill encrypt size wanted).available - (s.refill encrypt size wanted).used := by
  obtain ⟨k, hcounter, hpos⟩ := hs.counter
  rw [hempty, Nat.sub_self, Nat.add_zero] at hpos
  subst hpos
  generalize hn : min (divCeil wanted size) (s.pad.length / size) = n
  have hceil : 0 < divCeil wanted size := Nat.div_pos (by omega) h.pos
  have hfits : 0 < s.pad.length / size := Nat.div_pos (by have := h.le; have := hs.pad_length; omega) h.pos
  have hnpos : 0 < n := by omega
  have hnle : n * size ≤ 2048 := by
    have hle : n ≤ s.pad.length / size := by omega
    rw [← hs.pad_length]
    exact Nat.le_trans (Nat.mul_le_mul_right size hle) (Nat.div_mul_le_self _ _)
  have hrefill : s.refill encrypt size wanted =
      { counter := beBytes size (nonce + k + n)
        pad := ((blocksFrom size (nonce + k) n).map encrypt).flatten ++ s.pad.drop (n * size)
        used := 0
        available := n * size } := by
    rw [CtrState.refill, hn, hcounter, counterBlocks_eq]
  have hlen : ((blocksFrom size (nonce + k) n).map encrypt).flatten.length = n * size := by
    rw [length_flatten_blocks h.length_encrypted, List.length_map, blocksFrom, List.length_map,
      List.length_range]
  rw [hrefill]
  refine ⟨⟨?_, Nat.zero_le _, hnle, ⟨k + n, ?_, ?_⟩, fun i hi => ?_⟩, ?_⟩
  · dsimp only
    rw [List.length_append, hlen, List.length_drop, hs.pad_length]
    omega
  · dsimp only
    rw [Nat.add_assoc]
  · dsimp only
    rw [Nat.sub_zero, Nat.add_mul]
  · dsimp only at hi ⊢
    rw [Nat.sub_zero] at hi
    rw [Nat.zero_add, List.getElem?_append_left (by omega), getElem?_blocks h hi]
  · dsimp only
    rw [Nat.sub_zero]
    exact Nat.mul_pos hnpos h.pos

theorem slice_eq {bytes : Bytes} {a b : Nat} (hab : a ≤ b) (hb : b ≤ bytes.length) :
    slice bytes a b = some ((bytes.drop a).take (b - a)) := if_pos ⟨hab, hb⟩

/-- What a turn of `apply` starts with: a pad that is not used up. -/
theorem CtrState.At.ensure (h : IsBlockFunction encrypt size) {s : CtrState} {pos wanted : Nat}
    (hs : s.At encrypt size nonce pos) (hwanted : 0 < wanted) :
    (if s.used = s.available then s.refill encrypt size wanted else s).At encrypt size nonce pos ∧
      0 < (if s.used = s.available then s.refill encrypt size wanted else s).available -
        (if s.used = s.available then s.refill encrypt size wanted else s).used := by
  split_ifs with hempty
  · exact hs.refill h hempty hwanted
  · have hle := hs.used_le
    exact ⟨hs, by omega⟩

/-- The part of the pad for the next bytes, and what it makes of them. -/
theorem CtrState.At.take {s : CtrState} {pos : Nat} (hs : s.At encrypt size nonce pos)
    (bytes : Bytes) :
    slice s.pad s.used (s.used + min bytes.length (s.available - s.used)) =
        some ((s.pad.drop s.used).take (min bytes.length (s.available - s.used))) ∧
      List.zipWith (· ^^^ ·) (bytes.take (min bytes.length (s.available - s.used)))
          ((s.pad.drop s.used).take (min bytes.length (s.available - s.used))) =
        xorFrom (keystreamOf encrypt size nonce) pos
          (bytes.take (min bytes.length (s.available - s.used))) := by
  generalize hn : min bytes.length (s.available - s.used) = n
  have hlen := hs.pad_length
  have hused := hs.used_le
  have havailable := hs.available_le
  refine ⟨?_, zipWith_eq_xorFrom _ ?_ fun i hi => ?_⟩
  · rw [slice_eq (Nat.le_add_right _ _) (by omega), Nat.add_sub_cancel_left]
  · rw [List.length_take, List.length_take, List.length_drop]
    omega
  · rw [List.length_take] at hi
    rw [List.getElem?_take_of_lt (by omega), List.getElem?_drop]
    exact hs.ready i (by omega)

/-- The position moves with the part that is used. -/
theorem CtrState.At.advance {s : CtrState} {pos n : Nat} (hs : s.At encrypt size nonce pos)
    (hn : n ≤ s.available - s.used) :
    ({ s with used := s.used + n } : CtrState).At encrypt size nonce (pos + n) where
  pad_length := hs.pad_length
  used_le := by
    have := hs.used_le
    dsimp only
    omega
  available_le := hs.available_le
  counter := by
    obtain ⟨k, hcounter, hpos⟩ := hs.counter
    refine ⟨k, hcounter, ?_⟩
    dsimp only
    omega
  ready i hi := by
    dsimp only at hi ⊢
    rw [Nat.add_assoc, hs.ready (n + i) (by omega), Nat.add_assoc]

/-- A call combines its bytes with the keystream from the position of the state on. -/
theorem CtrState.At.apply (h : IsBlockFunction encrypt size) {s : CtrState} {pos : Nat}
    (hs : s.At encrypt size nonce pos) (bytes : Bytes) :
    ∃ s', s.apply encrypt size bytes =
        some (s', xorFrom (keystreamOf encrypt size nonce) pos bytes) ∧
      s'.At encrypt size nonce (pos + bytes.length) := by
  have hloop : Gives (fun r : CtrState × Bytes =>
      r.2 = xorFrom (keystreamOf encrypt size nonce) pos bytes ∧
        r.1.At encrypt size nonce (pos + bytes.length)) (s.apply encrypt size bytes) := by
    refine Gives.loop (fun t : CtrState × Bytes × Bytes => ∃ front, front ++ t.2.1 = bytes ∧
      t.2.2 = xorFrom (keystreamOf encrypt size nonce) pos front ∧
        t.1.At encrypt size nonce (pos + front.length)) (fun t => t.2.1.length) ?_ _ _
      ⟨[], rfl, rfl, hs⟩ (Nat.lt_succ_self _)
    rintro ⟨s, rest, done⟩ ⟨front, hfront, hdone, hat⟩
    dsimp only at hfront hdone hat
    apply Gives.ite
    · intro hnil
      have hrest : rest = [] := hnil
      have hwhole : front = bytes := by rw [← hfront, hrest, List.append_nil]
      rw [hwhole] at hdone hat
      exact Gives.some ⟨hdone, hat⟩
    · intro hne
      have hrest : 0 < rest.length := List.length_pos_iff.2 hne
      obtain ⟨hready, hsome⟩ := hat.ensure h hrest
      generalize (if s.used = s.available then s.refill encrypt size rest.length else s) = s'
        at hready hsome ⊢
      obtain ⟨hpart, htaken⟩ := hready.take rest
      apply Gives.bind (Gives.of_eq hpart)
      rintro part rfl
      apply Gives.some
      refine ⟨⟨front ++ rest.take (min rest.length (s'.available - s'.used)), ?_, ?_, ?_⟩, ?_⟩
      · rw [List.append_assoc, List.take_append_drop, hfront]
      · rw [hdone, xorFrom_append, htaken]
      · rw [List.length_append, List.length_take, ← Nat.add_assoc, Nat.min_assoc,
          Nat.min_comm _ rest.length, ← Nat.min_assoc, Nat.min_self]
        exact hready.advance (Nat.min_le_right _ _)
      · dsimp only
        rw [List.length_drop]
        omega
  obtain ⟨r, hr, hbytes, hat⟩ := hloop
  exact ⟨r.1, by rw [hr, ← hbytes], hat⟩

end Sunpack.Enc
