import Sunpack.Enc.Counter

/-!
# Streams in parts

A stream combines its bytes with one keystream after the other. It does so for each way of giving them
in calls, from each offset on, and for each number of threads.
-/

namespace Sunpack.Enc

open Lib

/-- The bytes from position `n` on, combined with all keystreams. -/
def combine (keystreams : List (Nat → UInt8)) (n : Nat) (bytes : Bytes) : Bytes :=
  keystreams.foldl (fun bytes ks => xorFrom ks n bytes) bytes

@[simp] theorem length_combine (keystreams : List (Nat → UInt8)) (n : Nat) (bytes : Bytes) :
    (combine keystreams n bytes).length = bytes.length := by
  induction keystreams generalizing bytes with
  | nil => rfl
  | cons ks keystreams ih => exact (ih _).trans (length_xorFrom ks n bytes)

theorem combine_append (keystreams : List (Nat → UInt8)) (n : Nat) (front bytes : Bytes) :
    combine keystreams n (front ++ bytes) =
      combine keystreams n front ++ combine keystreams (n + front.length) bytes := by
  induction keystreams generalizing front bytes with
  | nil => rfl
  | cons ks keystreams ih =>
    rw [combine, List.foldl_cons, xorFrom_append, ← combine, ih, length_xorFrom]
    rfl

theorem combine_nil (keystreams : List (Nat → UInt8)) (n : Nat) : combine keystreams n [] = [] :=
  List.length_eq_zero_iff.1 (length_combine keystreams n [])

theorem combine_take_drop (keystreams : List (Nat → UInt8)) (n k : Nat) (bytes : Bytes) :
    combine keystreams n (bytes.take k) ++ combine keystreams (n + k) (bytes.drop k) =
      combine keystreams n bytes := by
  by_cases hk : k ≤ bytes.length
  · have hlen : (bytes.take k).length = k := by rw [List.length_take]; omega
    have happend := combine_append keystreams n (bytes.take k) (bytes.drop k)
    rw [List.take_append_drop, hlen] at happend
    exact happend.symm
  · rw [List.take_of_length_le (by omega), List.drop_eq_nil_of_le (by omega), combine_nil,
      List.append_nil]

/-! ## One stage -/

def Ctr.keystream (c : Ctr) : Nat → UInt8 := keystreamOf c.encrypt c.size (ofBeBytes c.initial)

structure Ctr.Valid (c : Ctr) : Prop where
  block : IsBlockFunction c.encrypt c.size
  initial : c.initial.length = c.size

structure Ctr.At (c : Ctr) (pos : Nat) : Prop extends c.Valid where
  state : c.state.At c.encrypt c.size (ofBeBytes c.initial) pos

theorem blockSize_bounds {code size : Nat} (h : blockSize code = some size) :
    0 < size ∧ size ≤ 128 := by
  unfold blockSize at h
  split at h <;> simp_all <;> omega

theorem Ctr.new_at {P : Primitives} {code : Nat} {key nonce : Bytes} {c : Ctr}
    (h : Ctr.new P code key nonce = some c) : c.At 0 := by
  rw [Ctr.new, Option.bind_eq_bind, Option.bind_eq_some_iff] at h
  obtain ⟨size, hsize, h⟩ := h
  split_ifs at h with hnonce
  obtain rfl := Option.some.inj h
  obtain ⟨hpos, hle⟩ := blockSize_bounds hsize
  have hcounter : nonce = beBytes size (ofBeBytes nonce + 0) := by
    rw [Nat.add_zero, ← hnonce, beBytes_ofBeBytes]
  have hstart : ({ counter := nonce } : CtrState).At (P.encrypt code key) size (ofBeBytes nonce)
      (0 * size) := CtrState.At.start 0 hcounter List.length_replicate rfl rfl
  rw [Nat.zero_mul] at hstart
  exact ⟨⟨⟨hpos, hle, fun block hblock => P.length code key block size hsize hblock⟩, hnonce⟩, hstart⟩

theorem Ctr.At.apply {c : Ctr} {pos : Nat} (h : c.At pos) (bytes : Bytes) :
    ∃ c', c.apply bytes = some (c', xorFrom c.keystream pos bytes) ∧
      c'.At (pos + bytes.length) ∧ c'.keystream = c.keystream := by
  obtain ⟨s', hs', hat⟩ := h.state.apply h.block bytes
  refine ⟨{ c with state := s' }, ?_, ⟨⟨h.block, h.initial⟩, hat⟩, rfl⟩
  rw [Ctr.apply, hs']
  rfl

/-- Seeking: the counter is set to the block of the offset, and the bytes before the offset in that
block are skipped. -/
theorem Ctr.Valid.applyAt {c : Ctr} (h : c.Valid) (offset : Nat) (bytes : Bytes) :
    c.applyAt offset bytes = some (xorFrom c.keystream offset bytes) := by
  have hcounter : (addCarry c.initial.reverse (offset / c.size)).reverse =
      beBytes c.size (ofBeBytes c.initial + offset / c.size) := by
    rw [addCarry_reverse, h.initial]
  have hstart : ({ counter := (addCarry c.initial.reverse (offset / c.size)).reverse } : CtrState).At
      c.encrypt c.size (ofBeBytes c.initial) (offset / c.size * c.size) :=
    CtrState.At.start (offset / c.size) hcounter (List.length_replicate) rfl rfl
  have hsplit : offset / c.size * c.size + offset % c.size = offset := Nat.div_add_mod' _ _
  rw [Ctr.applyAt]
  dsimp only
  generalize ({ counter := (addCarry c.initial.reverse (offset / c.size)).reverse } : CtrState) = s
    at hstart
  by_cases hskip : offset % c.size ≠ 0
  · have hlt : offset % c.size < c.size := Nat.mod_lt _ h.block.pos
    have hle := h.block.le
    have hzeros : slice (List.replicate 128 0) 0 (offset % c.size) =
        some (List.replicate (offset % c.size) 0) := by
      rw [slice_eq (Nat.zero_le _) (by rw [List.length_replicate]; omega), List.drop_zero,
        Nat.sub_zero, List.take_replicate, Nat.min_eq_left (by omega)]
    obtain ⟨s₁, hs₁, hat₁⟩ := hstart.apply h.block (List.replicate (offset % c.size) 0)
    rw [List.length_replicate, hsplit] at hat₁
    obtain ⟨s₂, hs₂, _⟩ := hat₁.apply h.block bytes
    rw [if_pos hskip, hzeros]
    simp only [Option.bind_eq_bind, Option.bind_some, hs₁, hs₂]
    rfl
  · rw [if_neg hskip]
    rw [not_not.1 hskip, Nat.add_zero] at hsplit
    rw [hsplit] at hstart
    obtain ⟨s₂, hs₂, _⟩ := hstart.apply h.block bytes
    simp only [Option.bind_eq_bind, Option.bind_some, hs₂]
    rfl

/-! ## All stages -/

namespace Stream

def keystreams (s : Stream) : List (Nat → UInt8) := s.stages.map Ctr.keystream

/-- All stages are at a position. -/
def At (s : Stream) (pos : Nat) : Prop := ∀ stage ∈ s.stages, stage.At pos

theorem cascadeStages_at {P : Primitives} {key nonce : Bytes} {specs : List (Nat × Nat × Nat)}
    {k n : Nat} {stages : List Ctr} (h : cascadeStages P key nonce specs k n = some stages) :
    ∀ stage ∈ stages, stage.At 0 := by
  induction specs generalizing k n stages with
  | nil =>
    obtain rfl := Option.some.inj h
    exact fun stage hstage => absurd hstage (by simp)
  | cons spec specs ih =>
    simp only [cascadeStages, Option.bind_eq_bind, Option.bind_eq_some_iff] at h
    obtain ⟨stageKey, _, stageNonce, _, stage, hstage, rest, hrest, h⟩ := h
    obtain rfl := Option.some.inj h
    intro c hc
    rcases List.mem_cons.1 hc with rfl | hc
    · exact Ctr.new_at hstage
    · exact ih hrest c hc

theorem new_at {P : Primitives} {code : Nat} {key nonce : Bytes} {s : Stream}
    (h : Stream.new P code key nonce = some s) : s.At 0 := by
  rw [Stream.new] at h
  split_ifs at h with hcode
  · simp only [Option.bind_eq_bind, Option.bind_eq_some_iff] at h
    obtain ⟨stage, hstage, stages, hstages, h⟩ := h
    obtain rfl := Option.some.inj hstages
    obtain rfl := Option.some.inj h
    intro c hc
    rw [List.mem_singleton.1 hc]
    exact Ctr.new_at hstage
  · simp only [Option.bind_eq_bind, Option.bind_eq_some_iff] at h
    obtain ⟨stages, hstages, h⟩ := h
    obtain rfl := Option.some.inj h
    exact cascadeStages_at hstages

theorem applyStages_at {stages : List Ctr} {pos : Nat} (h : ∀ stage ∈ stages, stage.At pos)
    (bytes : Bytes) : ∃ stages', applyStages stages bytes =
        some (stages', combine (stages.map Ctr.keystream) pos bytes) ∧
      (∀ stage ∈ stages', stage.At (pos + bytes.length)) ∧
      stages'.map Ctr.keystream = stages.map Ctr.keystream := by
  induction stages generalizing bytes with
  | nil => exact ⟨[], rfl, fun stage hstage => absurd hstage (by simp), rfl⟩
  | cons stage stages ih =>
    obtain ⟨c, hc, hat, hks⟩ := (h stage List.mem_cons_self).apply bytes
    obtain ⟨rest, hrest, hall, hkeys⟩ := ih (fun s hs => h s (List.mem_cons_of_mem _ hs))
      (xorFrom stage.keystream pos bytes)
    refine ⟨c :: rest, ?_, fun s hs => ?_, ?_⟩
    · rw [applyStages, hc]
      simp only [Option.bind_eq_bind, Option.bind_some, hrest]
      rfl
    · rcases List.mem_cons.1 hs with rfl | hs
      · exact hat
      · have hs' := hall s hs
        rw [length_xorFrom] at hs'
        exact hs'
    · rw [List.map_cons, List.map_cons, hks, hkeys]

theorem At.apply {s : Stream} {pos : Nat} (h : s.At pos) (bytes : Bytes) :
    ∃ s', s.apply bytes = some (s', combine s.keystreams pos bytes) ∧
      s'.At (pos + bytes.length) ∧ s'.keystreams = s.keystreams := by
  obtain ⟨stages, hstages, hat, hkeys⟩ := applyStages_at h bytes
  exact ⟨⟨stages⟩, by rw [Stream.apply, hstages]; rfl, hat, hkeys⟩

theorem foldlM_applyAt {stages : List Ctr} (h : ∀ stage ∈ stages, stage.Valid) (offset : Nat)
    (bytes : Bytes) : stages.foldlM (fun bytes stage => stage.applyAt offset bytes) bytes =
      some (combine (stages.map Ctr.keystream) offset bytes) := by
  induction stages generalizing bytes with
  | nil => rfl
  | cons stage stages ih =>
    rw [List.foldlM_cons, (h stage List.mem_cons_self).applyAt, Option.bind_eq_bind,
      Option.bind_some]
    exact ih (fun c hc => h c (List.mem_cons_of_mem _ hc)) _

theorem At.applyAt {s : Stream} {pos : Nat} (h : s.At pos) (offset : Nat) (bytes : Bytes) :
    s.applyAt offset bytes = some (combine s.keystreams offset bytes) :=
  foldlM_applyAt (fun stage hstage => (h stage hstage).toValid) offset bytes

/-! ## Threads -/

theorem At.applyParts {s : Stream} {pos : Nat} (h : s.At pos) {size : Nat} (hsize : 0 < size)
    (offset n index : Nat) {bytes : Bytes} (hn : bytes.length ≤ n)
    (hoffset : bytes ≠ [] → offset + index * size + bytes.length ≤ 2 ^ 64) :
    ∃ parts, s.applyParts offset size (chunks size n bytes) index = some parts ∧
      parts.flatten = combine s.keystreams (offset + index * size) bytes := by
  have hempty (n : Nat) : chunks size n [] = [] := by cases n <;> simp [chunks]
  induction n generalizing index bytes with
  | zero =>
    obtain rfl := List.length_eq_zero_iff.1 (Nat.le_zero.1 hn)
    exact ⟨[], rfl, (combine_nil _ _).symm⟩
  | succ n ih =>
    by_cases hbytes : bytes = []
    · subst hbytes
      exact ⟨[], by rw [hempty]; rfl, (combine_nil _ _).symm⟩
    · have hpos := List.length_pos_iff.2 hbytes
      have hbound := hoffset hbytes
      have hnext : offset + (index + 1) * size = offset + index * size + size := by ring
      have hrestlen : (bytes.drop size).length ≤ n := by
        rw [List.length_drop]
        omega
      have hrest : bytes.drop size ≠ [] →
          offset + (index + 1) * size + (bytes.drop size).length ≤ 2 ^ 64 := by
        intro hrest
        have hlong := List.length_pos_iff.2 hrest
        rw [List.length_drop] at hlong ⊢
        rw [hnext]
        omega
      obtain ⟨parts, hparts, hflatten⟩ := ih (index + 1) hrestlen hrest
      refine ⟨combine s.keystreams (offset + index * size) (bytes.take size) :: parts, ?_, ?_⟩
      · rw [chunks, if_neg hbytes, Stream.applyParts, if_pos (by omega), h.applyAt]
        simp only [Option.bind_eq_bind, Option.bind_some, hparts]
      · rw [List.flatten_cons, hflatten, hnext, combine_take_drop]

theorem At.applyWithThreads {s : Stream} {pos : Nat} (h : s.At pos) {offset : Nat} {bytes : Bytes}
    (hoffset : offset + bytes.length ≤ 2 ^ 64) (threads : Nat) :
    s.applyWithThreads offset bytes threads = some (combine s.keystreams offset bytes) := by
  rw [Stream.applyWithThreads]
  by_cases hbytes : bytes = []
  · rw [if_pos hbytes, hbytes, combine_nil]
  · rw [if_neg hbytes]
    dsimp only
    split_ifs with hone
    · exact h.applyAt offset bytes
    · have hlen := List.length_pos_iff.2 hbytes
      have hsize : 0 < divCeil bytes.length (max threads 1) := Nat.div_pos (by omega) (by omega)
      obtain ⟨parts, hparts, hflatten⟩ := h.applyParts hsize offset bytes.length 0 (Nat.le_refl _)
        (fun _ => by omega)
      rw [hparts, Option.bind_eq_bind, Option.bind_some, hflatten, Nat.zero_mul, Nat.add_zero]

/-! ## Calls in a row -/

/-- A message in parts, one call of `apply` for each. -/
def applyEach (s : Stream) : List Bytes → Option (Stream × List Bytes)
  | [] => some (s, [])
  | part :: parts => do
    let first ← s.apply part
    let rest ← first.1.applyEach parts
    some (rest.1, first.2 :: rest.2)

theorem At.applyEach {s : Stream} {pos : Nat} (h : s.At pos) (parts : List Bytes) :
    ∃ s' outs, s.applyEach parts = some (s', outs) ∧
      outs.flatten = combine s.keystreams pos parts.flatten ∧
      s'.At (pos + parts.flatten.length) ∧ s'.keystreams = s.keystreams := by
  induction parts generalizing s pos with
  | nil => exact ⟨s, [], rfl, (combine_nil _ _).symm, h, rfl⟩
  | cons part parts ih =>
    obtain ⟨s₁, hs₁, hat₁, hks₁⟩ := h.apply part
    obtain ⟨s', outs, hs', houts, hat, hks⟩ := ih hat₁
    refine ⟨s', combine s.keystreams pos part :: outs, ?_, ?_, ?_, hks.trans hks₁⟩
    · rw [Stream.applyEach, hs₁]
      simp only [Option.bind_eq_bind, Option.bind_some, hs']
    · rw [List.flatten_cons, List.flatten_cons, combine_append, houts, hks₁]
    · rw [List.flatten_cons, List.length_append, ← Nat.add_assoc]
      exact hat

end Stream

/-! ## From a key and a nonce -/

/-- Block `k` of the keystream of a cipher is the encrypted counter `nonce + k`. -/
def stageKeystream (P : Primitives) (code : Nat) (key nonce : Bytes) : Nat → UInt8 :=
  keystreamOf (P.encrypt code key) ((blockSize code).getD 1) (ofBeBytes nonce)

def cascadeKeystreams (P : Primitives) (key nonce : Bytes) :
    List (Nat × Nat × Nat) → Nat → Nat → List (Nat → UInt8)
  | [], _, _ => []
  | spec :: rest, k, n =>
    stageKeystream P spec.1 ((key.drop k).take spec.2.1) ((nonce.drop n).take spec.2.2) ::
      cascadeKeystreams P key nonce rest (k + spec.2.1) (n + spec.2.2)

def keystreams (P : Primitives) (code : Nat) (key nonce : Bytes) : List (Nat → UInt8) :=
  if code ≠ 9 then [stageKeystream P code key nonce]
  else cascadeKeystreams P key nonce cascade 0 0

theorem Ctr.new_keystream {P : Primitives} {code : Nat} {key nonce : Bytes} {c : Ctr}
    (h : Ctr.new P code key nonce = some c) : c.keystream = stageKeystream P code key nonce := by
  rw [Ctr.new, Option.bind_eq_bind, Option.bind_eq_some_iff] at h
  obtain ⟨size, hsize, h⟩ := h
  split_ifs at h with hnonce
  obtain rfl := Option.some.inj h
  rw [stageKeystream, hsize]
  rfl

theorem eq_of_slice {bytes part : Bytes} {a b : Nat} (h : slice bytes a (a + b) = some part) :
    part = (bytes.drop a).take b := by
  rw [slice] at h
  split_ifs at h
  rw [← Option.some.inj h, Nat.add_sub_cancel_left]

theorem cascadeStages_keystreams {P : Primitives} {key nonce : Bytes}
    {specs : List (Nat × Nat × Nat)} {k n : Nat} {stages : List Ctr}
    (h : cascadeStages P key nonce specs k n = some stages) :
    stages.map Ctr.keystream = cascadeKeystreams P key nonce specs k n := by
  induction specs generalizing k n stages with
  | nil =>
    obtain rfl := Option.some.inj h
    rfl
  | cons spec specs ih =>
    simp only [cascadeStages, Option.bind_eq_bind, Option.bind_eq_some_iff] at h
    obtain ⟨stageKey, hkey, stageNonce, hnonce, stage, hstage, rest, hrest, h⟩ := h
    obtain rfl := Option.some.inj h
    rw [List.map_cons, cascadeKeystreams, Ctr.new_keystream hstage, ih hrest, eq_of_slice hkey,
      eq_of_slice hnonce]

theorem Stream.new_keystreams {P : Primitives} {code : Nat} {key nonce : Bytes} {s : Stream}
    (h : Stream.new P code key nonce = some s) : s.keystreams = Enc.keystreams P code key nonce := by
  rw [Stream.new] at h
  rw [Enc.keystreams]
  split_ifs at h ⊢ with hcode
  · simp only [Option.bind_eq_bind, Option.bind_eq_some_iff] at h
    obtain ⟨stage, hstage, stages, hstages, h⟩ := h
    obtain rfl := Option.some.inj hstages
    obtain rfl := Option.some.inj h
    rw [← Ctr.new_keystream hstage]
    rfl
  · simp only [Option.bind_eq_bind, Option.bind_eq_some_iff] at h
    obtain ⟨stages, hstages, h⟩ := h
    obtain rfl := Option.some.inj h
    exact cascadeStages_keystreams hstages

/-- However a message is given to a stream in calls, the result is the message combined with the
keystreams; and from then on, any part of a message at any offset is transformed, with any number of
threads, as one call for the whole message transforms it. -/
theorem Stream.splits_agree {P : Primitives} {code : Nat} {key nonce : Bytes} {s : Stream}
    (hnew : Stream.new P code key nonce = some s) (parts : List Bytes) :
    ∃ s' outs, s.applyEach parts = some (s', outs) ∧
      outs.flatten = combine (Enc.keystreams P code key nonce) 0 parts.flatten ∧
      ∀ front bytes, ∃ t whole, s.apply (front ++ bytes) = some (t, whole) ∧
        s'.applyAt front.length bytes = some (whole.drop front.length) ∧
        ∀ threads, front.length + bytes.length ≤ 2 ^ 64 →
          s'.applyWithThreads front.length bytes threads = some (whole.drop front.length) := by
  have hat := Stream.new_at hnew
  have hks := Stream.new_keystreams hnew
  obtain ⟨s', outs, hs', houts, hat', hks'⟩ := hat.applyEach parts
  refine ⟨s', outs, hs', by rw [houts, hks], fun front bytes => ?_⟩
  obtain ⟨t, ht, _⟩ := hat.apply (front ++ bytes)
  have hpart : combine s'.keystreams front.length bytes =
      (combine s.keystreams 0 (front ++ bytes)).drop front.length := by
    rw [combine_append, Nat.zero_add, List.drop_left' (length_combine _ _ _), hks']
  refine ⟨t, combine s.keystreams 0 (front ++ bytes), ht, ?_, fun threads hoffset => ?_⟩
  · rw [hat'.applyAt, hpart]
  · rw [hat'.applyWithThreads hoffset, hpart]

/-- A cipher that leaves its blocks as they are. -/
def plainPrimitives : Primitives where
  encrypt _ _ block := block
  length _ _ _ _ _ hlen := hlen

theorem Stream.splits_agree_counter : ∃ s s' outs,
    Stream.new plainPrimitives 3 [] (List.replicate 8 255) = some s ∧
      s.applyEach [[1, 2], [3]] = some (s', outs) ∧
      outs.flatten = combine (Enc.keystreams plainPrimitives 3 [] (List.replicate 8 255)) 0 [1, 2, 3] := by
  obtain ⟨s, hs⟩ : ∃ s, Stream.new plainPrimitives 3 [] (List.replicate 8 255) = some s := ⟨_, rfl⟩
  obtain ⟨s', outs, hs', houts, _⟩ := Stream.splits_agree hs [[1, 2], [3]]
  exact ⟨s, s', outs, hs, hs', houts⟩

end Sunpack.Enc
