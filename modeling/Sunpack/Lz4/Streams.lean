import Sunpack.Lz4.WalkSpec

/-!
# Runs of the walk

The turns at items and at the tail as runs, forth by induction over the items and back by induction over
the turns, and from both that the walk is complete exactly on streams.
-/

namespace Sunpack.Lz4

open Lib

variable {xxh32 : Xxh32} {data rest : List UInt8} {input : StructureReader} {index : Index}
  {cursor : Nat}

/-! ## The tail -/

theorem turn_limit (xxh32 : Xxh32) (index : Index) (hlimit : cursor = input.limit) :
    turn xxh32 ⟨input, index, cursor⟩ =
      (.ok false, ⟨input, { index with end_ := cursor }, cursor⟩) := by
  unfold turn
  rw [Step.bind_ok (show current ⟨input, index, cursor⟩ = _ from rfl), if_pos hlimit]
  rfl

theorem turn_short (xxh32 : Xxh32) (index : Index) (hreads : Reads data input)
    (hat : At data cursor rest) (hne : rest ≠ []) (hshort : rest.length < 4) :
    ∃ input', Reads data input' ∧ turn xxh32 ⟨input, index, cursor⟩ =
      (if truncatedMagic rest then fail .streamTruncated else noFrame index)
        ⟨input', index, cursor⟩ := by
  have hlength := hat.length_eq
  have hlimit := hreads.limit
  have hpos := List.length_pos_iff.2 hne
  obtain ⟨input', hreads', hfield⟩ := hreads.fieldAt index (show rest.length ≤ 19 by omega)
    (show cursor + rest.length ≤ data.length by omega)
  rw [hat.2, List.take_length] at hfield
  have hrest : input.limit - cursor = rest.length := by omega
  refine ⟨input', hreads', ?_⟩
  unfold turn
  rw [Step.bind_ok (show current ⟨input, index, cursor⟩ = _ from rfl)]
  rw [if_neg (show ¬ cursor = input.limit by omega), if_pos (show input.limit - cursor < 4 by omega)]
  show tail (input.limit - cursor) index _ = _
  rw [hrest, tail, Step.bind_ok hfield]

theorem noFrame_of_pos (hframes : 0 < index.frames) (s : Walk) : noFrame index s = (.ok false, s) := by
  rw [noFrame, if_pos hframes]
  rfl

/-- A turn at a tail ends the walk. -/
theorem turn_tail (xxh32 : Xxh32) (hreads : Reads data input) (hat : At data cursor rest)
    (htail : IsTail rest) (hframes : 0 < index.frames) (hend : index.end_ = cursor) :
    ∃ input', turn xxh32 ⟨input, index, cursor⟩ = (.ok false, ⟨input', index, cursor⟩) := by
  have hlength := hat.length_eq
  by_cases hne : rest = []
  · rw [hne, List.length_nil] at hlength
    refine ⟨input, ?_⟩
    rw [turn_limit xxh32 index (by rw [hreads.limit]; exact hlength), ← hend]
  by_cases hshort : rest.length < 4
  · obtain ⟨input', -, hturn⟩ := turn_short xxh32 index hreads hat hne hshort
    rw [(isTail_short hne hshort).1 htail] at hturn
    exact ⟨input', hturn.trans (noFrame_of_pos hframes _)⟩
  · obtain ⟨v, more, hv, rfl⟩ := exists_word (not_lt.1 hshort)
    obtain ⟨hmagic, hskip⟩ := not_or.1 ((isTail_word hv more).1 htail)
    obtain ⟨input', -, hturn⟩ := turn_word xxh32 index hreads hv hat
    rw [if_neg hskip, if_neg hmagic] at hturn
    exact ⟨input', hturn.trans (noFrame_of_pos hframes _)⟩

/-! ## Back from a turn -/

theorem of_noFrame {s s' : Walk} {next : Bool} (h : noFrame index s = (.ok next, s')) :
    next = false ∧ s' = s := by
  unfold noFrame at h
  split_ifs at h
  · obtain ⟨hnext, rfl⟩ := Prod.mk.inj h
    exact ⟨(Except.ok.inj hnext).symm, rfl⟩
  · cases h

/-- A turn ends the walk at a tail and goes on at an item. -/
theorem of_turn {next : Bool} {s' : Walk} (hreads : Reads data input) (hat : At data cursor rest)
    (hturn : turn xxh32 ⟨input, index, cursor⟩ = (.ok next, s')) :
    (next = false ∧ IsTail rest ∧ s'.index.frames = index.frames) ∨
      (next = true ∧ ∃ (item : Item) (rest' : List UInt8), rest = item.encode xxh32 ++ rest') := by
  have hlength := hat.length_eq
  by_cases hne : rest = []
  · rw [hne, List.length_nil] at hlength
    rw [turn_limit xxh32 index (by rw [hreads.limit]; exact hlength)] at hturn
    obtain ⟨hnext, rfl⟩ := Prod.mk.inj hturn
    exact .inl ⟨(Except.ok.inj hnext).symm, .inl hne, rfl⟩
  by_cases hshort : rest.length < 4
  · obtain ⟨input', -, hturn'⟩ := turn_short xxh32 index hreads hat hne hshort
    rw [hturn'] at hturn
    split_ifs at hturn with hcut
    · cases hturn
    · obtain ⟨hnext, rfl⟩ := of_noFrame hturn
      exact .inl ⟨hnext, (isTail_short hne hshort).2 (Bool.not_eq_true _ ▸ hcut), rfl⟩
  obtain ⟨v, more, hv, rfl⟩ := exists_word (not_lt.1 hshort)
  obtain ⟨input', hreads', hturn'⟩ := turn_word xxh32 index hreads hv hat
  by_cases hskip : skippable v = true
  · obtain ⟨kind, rfl⟩ := (skippable_iff hv).1 hskip
    rw [hturn', if_pos hskip] at hturn
    obtain ⟨f, rest', hrest⟩ := hreads'.of_skippableFrame hat hturn
    refine .inr ⟨?_, .skippable f, rest', hrest⟩
    obtain ⟨_, -, hforth⟩ := hreads'.skippableFrame index f (hrest ▸ hat)
    exact (Except.ok.inj (Prod.mk.inj (hforth.symm.trans hturn)).1).symm
  by_cases hmagic : v = 0x184d2204
  · rw [hturn', if_neg hskip, if_pos hmagic] at hturn
    obtain ⟨f, rest', hrest⟩ := hreads'.of_frame hat hturn
    refine .inr ⟨?_, .frame f, rest', hrest⟩
    obtain ⟨_, -, hforth⟩ := hreads'.frame index f (hrest ▸ hat)
    exact (countFrame_le (hforth.symm.trans hturn)).1
  · rw [hturn', if_neg hskip, if_neg hmagic] at hturn
    obtain ⟨hnext, rfl⟩ := of_noFrame hturn
    exact .inl ⟨hnext, (isTail_word hv more).2 (not_or.2 ⟨hmagic, hskip⟩), rfl⟩

/-! ## Runs -/

/-- The walk steps over items whose sizes add up. -/
theorem walkInner_items (items : List Item) {size : Option Nat} (hreads : Reads data input)
    (hend : index.end_ = cursor)
    (hat : At data cursor (items.flatMap (Item.encode xxh32) ++ rest))
    (hsize : addSizes index.decodedSize items = .ok size) : ∃ input', Reads data input' ∧
      walkInner xxh32 ⟨input, index, cursor⟩ = walkInner xxh32 ⟨input', index.behind xxh32 items size,
        cursor + (items.flatMap (Item.encode xxh32)).length⟩ := by
  induction items generalizing input index cursor with
  | nil =>
    obtain rfl := Except.ok.inj hsize
    exact ⟨input, hreads, rfl⟩
  | cons item items ih =>
    rw [List.flatMap_cons, List.append_assoc] at hat
    obtain ⟨input₁, hreads₁, hturn, -⟩ := turn_item hreads item hend hat
    unfold addSizes at hsize
    cases hitem : item.sizes index.decodedSize with
    | error e =>
      rw [hitem] at hsize
      cases hsize
    | ok acc =>
      rw [hitem] at hsize
      have hend' : (index.behind xxh32 [item] acc).end_ = cursor + (item.encode xxh32).length := by
        simp [Index.behind, hend]
      obtain ⟨input', hreads', hrun⟩ := ih hreads₁ hend' hat.add hsize
      refine ⟨input', hreads', ?_⟩
      rw [walkInner_next (hturn acc hitem), hrun, Index.behind_cons, List.flatMap_cons,
        List.length_append, Nat.add_assoc]

/-- Sizes that do not add up end it with an error. -/
theorem walkInner_overflow (items : List Item) {e : WalkError} (hreads : Reads data input)
    (hend : index.end_ = cursor)
    (hat : At data cursor (items.flatMap (Item.encode xxh32) ++ rest))
    (hsize : addSizes index.decodedSize items = .error e) :
    (walkInner xxh32 ⟨input, index, cursor⟩).1 = .error e := by
  induction items generalizing input index cursor with
  | nil => cases hsize
  | cons item items ih =>
    rw [List.flatMap_cons, List.append_assoc] at hat
    obtain ⟨input₁, hreads₁, hturn, herror⟩ := turn_item hreads item hend hat
    unfold addSizes at hsize
    cases hitem : item.sizes index.decodedSize with
    | error e' =>
      rw [hitem] at hsize
      obtain rfl := Except.error.inj hsize
      obtain ⟨s', hturn⟩ := herror e' hitem
      rw [walkInner_error hturn]
    | ok acc =>
      rw [hitem] at hsize
      have hend' : (index.behind xxh32 [item] acc).end_ = cursor + (item.encode xxh32).length := by
        simp [Index.behind, hend]
      rw [walkInner_next (hturn acc hitem)]
      exact ih hreads₁ hend' hat.add hsize

/-- Where the walk ends well there were items and a tail. -/
theorem of_walkInner {s s' : Walk} (hs : s = ⟨input, index, cursor⟩) (hreads : Reads data input)
    (hend : index.end_ = cursor) (hat : At data cursor rest)
    (hwalk : walkInner xxh32 s = (.ok (), s')) : ∃ (items : List Item) (tail : List UInt8),
      rest = items.flatMap (Item.encode xxh32) ++ tail ∧ IsTail tail ∧
        s'.index.frames = index.frames + (framesOf items).length := by
  fun_induction walkInner xxh32 s generalizing input index cursor rest with
  | case1 s e s₁ hturn => cases hwalk
  | case2 s s₁ hturn =>
    subst hs
    obtain ⟨-, rfl⟩ := Prod.mk.inj hwalk
    rcases of_turn hreads hat hturn with ⟨-, htail, hframes⟩ | ⟨hnext, -⟩
    · exact ⟨[], rest, rfl, htail, hframes⟩
    · cases hnext
  | case3 s s₁ hturn ih =>
    subst hs
    rcases of_turn hreads hat hturn with ⟨hnext, -⟩ | ⟨-, item, rest', rfl⟩
    · cases hnext
    obtain ⟨input', hreads', hforth, herror⟩ := turn_item hreads item hend hat
    cases hitem : item.sizes index.decodedSize with
    | error e =>
      obtain ⟨s', hturn'⟩ := herror e hitem
      rw [hturn'] at hturn
      cases hturn
    | ok acc =>
      obtain ⟨-, rfl⟩ := Prod.mk.inj ((hforth acc hitem).symm.trans hturn)
      have hend' : (index.behind xxh32 [item] acc).end_ = cursor + (item.encode xxh32).length := by
        simp [Index.behind, hend]
      obtain ⟨items, tail, rfl, htail, hframes⟩ := ih rfl hreads' hend' hat.add hwalk
      refine ⟨item :: items, tail, ?_, htail, ?_⟩
      · rw [List.flatMap_cons, List.append_assoc]
      · rw [hframes]
        cases item <;> simp [Index.behind, Nat.add_assoc, Nat.add_comm 1]

/-! ## Sizes -/

theorem addSizes_none (items : List Item) : addSizes none items = .ok none := by
  induction items with
  | nil => rfl
  | cons item items ih =>
    cases item with
    | skippable f => exact ih
    | frame f => exact ih

theorem addSizes_ok {item : Item} {acc acc' : Option Nat} (h : item.sizes acc = .ok acc')
    (items : List Item) : addSizes acc (item :: items) = addSizes acc' items := by
  rw [addSizes, h]

theorem addSizes_error {item : Item} {acc : Option Nat} {e : WalkError}
    (h : item.sizes acc = .error e) (items : List Item) : addSizes acc (item :: items) = .error e := by
  rw [addSizes, h]

theorem summedSize_cons_some {f : Frame} {size : UInt64} (h : f.descriptor.contentSize = some size)
    (frames : List Frame) : summedSize (f :: frames) = size.toNat + summedSize frames := by
  unfold summedSize
  rw [List.takeWhile_cons_of_pos (by rw [h]; rfl), List.map_cons, List.sum_cons, h]
  rfl

theorem summedSize_cons_none {f : Frame} (h : f.descriptor.contentSize = none)
    (frames : List Frame) : summedSize (f :: frames) = 0 := by
  unfold summedSize
  rw [List.takeWhile_cons_of_neg (by rw [h]; simp)]
  rfl

theorem declaredSize_cons_some {f : Frame} {size : UInt64}
    (h : f.descriptor.contentSize = some size) (frames : List Frame) :
    declaredSize (f :: frames) = (declaredSize frames).map (size.toNat + ·) := by
  unfold declaredSize
  rw [List.all_cons, h, Option.isSome_some, Bool.true_and, List.map_cons, List.sum_cons, h]
  split_ifs <;> rfl

theorem declaredSize_cons_none {f : Frame} (h : f.descriptor.contentSize = none)
    (frames : List Frame) : declaredSize (f :: frames) = none := by
  unfold declaredSize
  rw [List.all_cons, h, Option.isSome_none, Bool.false_and, if_neg Bool.false_ne_true]

theorem addSizes_some (items : List Item) {a : Nat} (ha : a < 2 ^ 64) :
    addSizes (some a) items =
      if a + summedSize (framesOf items) < 2 ^ 64 then
        .ok ((declaredSize (framesOf items)).map (a + ·))
      else .error .sizeOverflow := by
  induction items generalizing a with
  | nil =>
    rw [if_pos (show a + summedSize (framesOf []) < 2 ^ 64 from ha)]
    rfl
  | cons item items ih =>
    cases item with
    | skippable f => exact ih ha
    | frame f =>
      have hitem : (Item.frame f).sizes (some a) =
          decodedSizes (some a) (f.descriptor.contentSize.map UInt64.toNat) := rfl
      rw [framesOf_frame]
      cases hsize : f.descriptor.contentSize with
      | none =>
        have hnone : (Item.frame f).sizes (some a) = .ok none := by
          rw [hitem, hsize]
          rfl
        rw [summedSize_cons_none hsize, declaredSize_cons_none hsize, if_pos (by omega),
          addSizes_ok hnone]
        exact addSizes_none items
      | some size =>
        rw [hsize, Option.map_some, decodedSizes] at hitem
        rw [summedSize_cons_some hsize, declaredSize_cons_some hsize]
        by_cases hlarge : 2 ^ 64 ≤ a + size.toNat
        · rw [if_pos hlarge] at hitem
          rw [addSizes_error hitem, if_neg (by omega)]
        · rw [if_neg hlarge] at hitem
          rw [addSizes_ok hitem, ih (not_le.1 hlarge), ← Nat.add_assoc, Option.map_map]
          congr 3
          funext n
          exact Nat.add_assoc _ _ _

/-! ## The walk -/

/-- What the walk reports of a stream that begins at the offset. -/
def Stream.report (xxh32 : Xxh32) (offset : Nat) (s : Stream) : Index where
  start := offset
  end_ := offset + (s.items.flatMap (Item.encode xxh32)).length
  frames := s.frames.length
  skips := skipsOf s.items
  contentChecksums := s.frames.countP fun f => f.descriptor.contentChecksum
  blockChecksums := s.frames.countP fun f => f.descriptor.blockChecksum
  blocks := (s.frames.map fun f => f.blocks.length).sum
  decodedSize := declaredSize s.frames
  complete := true
  error := ""

theorem Stream.frames_pos (s : Stream) : 0 < s.frames.length := by
  rw [frames, items, List.filterMap_append, List.length_append]
  show 0 < _ + (framesOf (.frame s.first :: s.more)).length
  rw [framesOf_frame, List.length_cons]
  omega

section Walk

variable {reader : ManagedReader} {windowBytes offset limit : Nat}

/-- The walk of a stream. -/
theorem walkWindows_stream (hwindow : 19 ≤ windowBytes) (hoffset : offset ≤ min limit reader.bytes.length)
    (s : Stream) (hs : (reader.bytes.take limit).drop offset = s.encode xxh32) :
    (summedSize s.frames < 2 ^ 64 →
      walkWindows windowBytes xxh32 reader offset limit = s.report xxh32 offset) ∧
    (¬ summedSize s.frames < 2 ^ 64 →
      (walkWindows windowBytes xxh32 reader offset limit).complete = false) := by
  have hreads := Reads.initial (min_le_right limit reader.bytes.length) hwindow
  have htake : reader.bytes.take (min limit reader.bytes.length) = reader.bytes.take limit := by
    rw [← List.take_take, List.take_length]
  have hat : At (reader.bytes.take (min limit reader.bytes.length)) offset (s.encode xxh32) := by
    refine ⟨?_, by rw [htake, hs]⟩
    rw [List.length_take_of_le (min_le_right _ _)]
    exact hoffset
  have hsizes : addSizes (some 0) s.items =
      if summedSize s.frames < 2 ^ 64 then .ok (declaredSize s.frames)
      else .error .sizeOverflow := by
    have hsome := addSizes_some s.items (Nat.two_pow_pos 64)
    simp only [Nat.zero_add, Option.map_id'] at hsome
    exact hsome
  constructor
  · intro hfits
    rw [if_pos hfits] at hsizes
    obtain ⟨input', hreads', hrun⟩ := walkInner_items s.items hreads
      (show (Index.at offset).end_ = offset from rfl) hat hsizes
    have hframes : 0 < ((Index.at offset).behind xxh32 s.items (declaredSize s.frames)).frames :=
      Nat.lt_of_lt_of_eq s.frames_pos (Nat.zero_add _).symm
    obtain ⟨input'', hturn⟩ := turn_tail xxh32 hreads' hat.add s.isTail hframes rfl
    unfold walkWindows
    rw [hrun, walkInner_end hturn, finish_ok hframes]
    simp only [Index.behind, Index.at, Stream.report, Nat.zero_add]
    rfl
  · intro hlarge
    rw [if_neg hlarge] at hsizes
    have herror := walkInner_overflow s.items hreads
      (show (Index.at offset).end_ = offset from rfl) hat hsizes
    exact finish_error herror

/-- A walk that is complete has walked a stream. -/
theorem exists_stream (hwindow : 19 ≤ windowBytes) (hoffset : offset ≤ min limit reader.bytes.length)
    (h : (walkWindows windowBytes xxh32 reader offset limit).complete = true) :
    ∃ s : Stream, (reader.bytes.take limit).drop offset = s.encode xxh32 := by
  have hreads := Reads.initial (min_le_right limit reader.bytes.length) hwindow
  have htake : reader.bytes.take (min limit reader.bytes.length) = reader.bytes.take limit := by
    rw [← List.take_take, List.take_length]
  have hat : At (reader.bytes.take (min limit reader.bytes.length)) offset
      ((reader.bytes.take limit).drop offset) := by
    refine ⟨?_, by rw [htake]⟩
    rw [List.length_take_of_le (min_le_right _ _)]
    exact hoffset
  obtain ⟨hresult, hframes⟩ := finish_complete h
  obtain ⟨items, tail, hrest, htail, hcount⟩ := of_walkInner rfl hreads
    (show (Index.at offset).end_ = offset from rfl) hat (Prod.ext hresult rfl)
  have hsome : items.filterMap Item.frame? ≠ [] := by
    intro hnone
    have hzero : (framesOf items).length = 0 := congrArg List.length hnone
    rw [hcount, hzero] at hframes
    cases hframes
  obtain ⟨lead, first, more, rfl⟩ := exists_first hsome
  exact ⟨⟨lead, first, more, tail, htail⟩, hrest⟩

/-- The walk is complete exactly on the streams whose content sizes add up, and reports what they
are. -/
theorem walk_spec (xxh32 : Xxh32) (hwindow : 19 ≤ windowBytes)
    (hoffset : offset ≤ min limit reader.bytes.length) :
    ((walkWindows windowBytes xxh32 reader offset limit).complete = true ↔
      ∃ s : Stream, (reader.bytes.take limit).drop offset = s.encode xxh32 ∧
        summedSize s.frames < 2 ^ 64) ∧
    ∀ s : Stream, (reader.bytes.take limit).drop offset = s.encode xxh32 →
      summedSize s.frames < 2 ^ 64 →
        walkWindows windowBytes xxh32 reader offset limit = s.report xxh32 offset := by
  refine ⟨⟨fun h => ?_, fun ⟨s, hs, hfits⟩ => ?_⟩, fun s hs =>
    (walkWindows_stream hwindow hoffset s hs).1⟩
  · obtain ⟨s, hs⟩ := exists_stream hwindow hoffset h
    refine ⟨s, hs, ?_⟩
    by_contra hlarge
    rw [(walkWindows_stream hwindow hoffset s hs).2 hlarge] at h
    cases h
  · rw [(walkWindows_stream hwindow hoffset s hs).1 hfits]
    rfl

end Walk

/-! ## Two frames with half of the largest size each -/

def halfFrame : Frame where
  descriptor := {
    independent := true
    blockChecksum := false
    contentSize := some 0x8000000000000000
    contentChecksum := false
    dictionary := none
    blockMaxId := 0 }
  blocks := []
  checksum := []
  checksum_length := rfl

def halfStream : Stream where
  lead := []
  first := halfFrame
  more := []
  tail := []
  isTail := .inl rfl

def wholeStream : Stream := { halfStream with more := [.frame halfFrame] }

/-- The value of the library for the descriptor of the frame. -/
def halfXxh32 : Xxh32 := fun _ => 0xf54c3b2f

def halfReader : ManagedReader := ⟨halfStream.encode halfXxh32, by decide⟩

def wholeReader : ManagedReader := ⟨wholeStream.encode halfXxh32, by decide⟩

/-- The sum of the sizes is too large for the walk, and a window may be too small for a header. -/
theorem walk_intent :
    (¬ ∀ (xxh32 : Xxh32) (reader : ManagedReader),
      (walk xxh32 reader 0 reader.bytes.length).complete = true ↔
        ∃ s : Stream, reader.bytes = s.encode xxh32) ∧
    ¬ ∀ (windowBytes : Nat) (xxh32 : Xxh32) (reader : ManagedReader),
      (∃ s : Stream, reader.bytes = s.encode xxh32 ∧ summedSize s.frames < 2 ^ 64) →
        (walkWindows windowBytes xxh32 reader 0 reader.bytes.length).complete = true := by
  constructor
  · intro h
    have hcomplete := (h halfXxh32 wholeReader).2 ⟨wholeStream, rfl⟩
    have hlarge := (walkWindows_stream (by decide : 19 ≤ 16 * 1024)
      (Nat.zero_le (min wholeReader.bytes.length wholeReader.bytes.length)) wholeStream
      (List.take_length.trans rfl)).2 (by decide)
    exact Bool.false_ne_true (hlarge.symm.trans hcomplete)
  · intro h
    have hcomplete := h 18 halfXxh32 halfReader ⟨halfStream, rfl, by decide⟩
    have hturn : (walkInner halfXxh32 ⟨⟨halfReader, min halfReader.bytes.length
        halfReader.bytes.length, 18, 0, []⟩, .at 0, 0⟩).1 = .error .streamTruncated := by
      rw [walkInner_error rfl]
    exact Bool.false_ne_true ((finish_error hturn).symm.trans hcomplete)

theorem walk_spec_half : walk halfXxh32 halfReader 0 23 = halfStream.report halfXxh32 0 :=
  (walk_spec halfXxh32 (by decide : 19 ≤ 16 * 1024)
    (Nat.zero_le (min 23 halfReader.bytes.length))).2 halfStream rfl (by decide)

end Sunpack.Lz4
