import Sunpack.Lz4.Walk

/-!
# The walk recognises the streams

Each step is described twice on the flat input: where the bytes of a block, a frame or an item stand, it
steps over them and counts them; and where it steps ahead, such bytes stood there. The runs follow from
both, over the blocks of a frame and over the items of a stream.
-/

namespace Sunpack.Lz4

open Lib

/-! ## Places of the input -/

/-- The rest of the input at the cursor. -/
def At (data : List UInt8) (cursor : Nat) (rest : List UInt8) : Prop :=
  cursor ≤ data.length ∧ data.drop cursor = rest

section At

variable {data a b rest : List UInt8} {cursor n : Nat}

theorem At.length_eq (h : At data cursor rest) : cursor + rest.length = data.length := by
  rw [← h.2, List.length_drop]
  have := h.1
  omega

theorem At.room (h : At data cursor (a ++ b)) : cursor + a.length ≤ data.length := by
  have hlength := h.length_eq
  rw [List.length_append] at hlength
  omega

theorem At.add (h : At data cursor (a ++ b)) : At data (cursor + a.length) b := by
  refine ⟨h.room, ?_⟩
  rw [← List.drop_drop, h.2, List.drop_left' rfl]

theorem At.taken (h : At data cursor (a ++ b)) : (data.drop cursor).take a.length = a := by
  rw [h.2, List.take_left' rfl]

theorem At.split (h : At data cursor rest) (hroom : cursor + n ≤ data.length) :
    ∃ a b, rest = a ++ b ∧ a.length = n := by
  have hlength := h.length_eq
  exact ⟨rest.take n, rest.drop n, (List.take_append_drop n rest).symm,
    List.length_take_of_le (by omega)⟩

end At

/-! ## Magic numbers -/

theorem and_nibble {v : Nat} (h : v < 2 ^ 32) : v &&& 0xfffffff0 = v / 16 * 16 := by
  have hmask : (0xfffffff0 : Nat) = (2 ^ 28 - 1) <<< 4 := by decide
  have hback : v / 16 * 16 = ((v >>> 4) &&& (2 ^ 28 - 1)) <<< 4 := by
    rw [Nat.and_two_pow_sub_one_eq_mod, Nat.shiftRight_eq_div_pow, Nat.shiftLeft_eq,
      Nat.mod_eq_of_lt (by omega)]
  rw [hback, hmask]
  apply Nat.eq_of_testBit_eq
  intro i
  rw [Nat.testBit_and, Nat.testBit_shiftLeft, Nat.testBit_shiftLeft, Nat.testBit_and,
    Nat.testBit_shiftRight]
  by_cases hi : 4 ≤ i <;> simp [hi]

theorem skippable_iff {v : Nat} (h : v < 2 ^ 32) :
    skippable v = true ↔ ∃ kind : Fin 16, v = 0x184d2a50 + kind := by
  rw [skippable, and_nibble h, beq_iff_eq]
  constructor
  · intro heq
    exact ⟨⟨v % 16, Nat.mod_lt _ (by decide)⟩, by show v = _ + v % 16; omega⟩
  · rintro ⟨kind, rfl⟩
    have := kind.isLt
    omega

theorem mem_frameMagics {m : List UInt8} :
    m ∈ frameMagics ↔ m = MAGIC ∨ ∃ kind, m = skippableMagic kind := by
  rw [frameMagics, List.mem_cons, List.mem_map]
  exact or_congr_right ⟨fun ⟨kind, _, h⟩ => ⟨kind, h.symm⟩,
    fun ⟨kind, h⟩ => ⟨kind, List.mem_finRange kind, h.symm⟩⟩

theorem length_of_mem {m : List UInt8} (h : m ∈ frameMagics) : m.length = 4 := by
  rcases mem_frameMagics.1 h with rfl | ⟨kind, rfl⟩
  · rfl
  · exact leBytes_length _ _

theorem leBytes_mem {v : Nat} (hv : v < 2 ^ 32) :
    leBytes 4 v ∈ frameMagics ↔ v = 0x184d2204 ∨ skippable v = true := by
  have hinj : ∀ w, w < 2 ^ 32 → (leBytes 4 v = leBytes 4 w ↔ v = w) := by
    intro w hw
    refine ⟨fun heq => ?_, fun heq => heq ▸ rfl⟩
    have hback := congrArg ofLeBytes heq
    rwa [ofLeBytes_leBytes_of_lt (Nat.lt_of_lt_of_eq hv (by norm_num)),
      ofLeBytes_leBytes_of_lt (Nat.lt_of_lt_of_eq hw (by norm_num))] at hback
  have hmagic : MAGIC = leBytes 4 0x184d2204 := by decide
  rw [mem_frameMagics, skippable_iff hv, hmagic, hinj _ (by norm_num)]
  refine or_congr_right (exists_congr fun kind => hinj _ ?_)
  have := kind.isLt
  omega

theorem exists_word {rest : List UInt8} (h : 4 ≤ rest.length) :
    ∃ v more, v < 2 ^ 32 ∧ rest = leBytes 4 v ++ more := by
  have hlength : (rest.take 4).length = 4 := List.length_take_of_le h
  have hlt := ofLeBytes_lt (rest.take 4)
  have hback := leBytes_ofLeBytes (rest.take 4)
  rw [hlength] at hlt hback
  refine ⟨ofLeBytes (rest.take 4), rest.drop 4, Nat.lt_of_lt_of_eq hlt (by norm_num), ?_⟩
  rw [hback, List.take_append_drop]

/-- Four bytes or more are a tail if their word is no magic number. -/
theorem isTail_word {v : Nat} (hv : v < 2 ^ 32) (rest : List UInt8) :
    IsTail (leBytes 4 v ++ rest) ↔ ¬ (v = 0x184d2204 ∨ skippable v = true) := by
  rw [← leBytes_mem hv]
  have hwhole : ∀ m ∈ frameMagics, m <+: leBytes 4 v ++ rest → m = leBytes 4 v := by
    intro m hm hstands
    have hpair := List.prefix_of_prefix_length_le hstands (List.prefix_append (leBytes 4 v) rest)
      (by rw [length_of_mem hm, leBytes_length])
    exact hpair.eq_of_length (by rw [length_of_mem hm, leBytes_length])
  constructor
  · rintro (hempty | htail) hmem
    · cases hempty
    · exact (htail _ hmem).1 (List.prefix_append _ _)
  · intro hnone
    refine .inr fun m hm => ⟨fun hstands => ?_, fun hstands => ?_⟩
    · obtain rfl := hwhole m hm hstands
      exact hnone hm
    · have heq := ((List.prefix_append _ _).trans hstands).eq_of_length
        (by rw [length_of_mem hm, leBytes_length])
      exact hnone (heq ▸ hm)

theorem mem_kinds (b : UInt8) : (∃ kind : Fin 16, b = 0x50 + UInt8.ofNat kind) ↔ 0x50 ≤ b ∧ b ≤ 0x5f := by
  have hall : ∀ n : Fin 256, (∃ kind : Fin 16, UInt8.ofNat n = 0x50 + UInt8.ofNat kind) ↔
      0x50 ≤ UInt8.ofNat n ∧ UInt8.ofNat n ≤ 0x5f := by
    decide +kernel
  have hback : UInt8.ofNat b.toNat = b := UInt8.ofNat_toNat
  rw [← hback]
  exact hall ⟨b.toNat, b.toNat_lt⟩

/-- Fewer bytes are a tail unless a magic number begins with them. -/
theorem isTail_short {tail : List UInt8} (hne : tail ≠ []) (hlength : tail.length < 4) :
    IsTail tail ↔ truncatedMagic tail = false := by
  obtain ⟨b, more, rfl⟩ := List.exists_cons_of_ne_nil hne
  have hcut : truncatedMagic (b :: more) = true ↔ ∃ m ∈ frameMagics, b :: more <+: m := by
    rw [truncatedMagic, Bool.or_eq_true, List.isPrefixOf_iff_prefix, Bool.and_eq_true,
      List.isPrefixOf_iff_prefix]
    show _ ∨ (0x50 ≤ b && b ≤ 0x5f) = true ∧ more <+: _ ↔ _
    rw [Bool.and_eq_true, decide_eq_true_iff, decide_eq_true_iff, ← mem_kinds]
    constructor
    · rintro (hmagic | ⟨⟨kind, rfl⟩, hmore⟩)
      · exact ⟨MAGIC, mem_frameMagics.2 (.inl rfl), hmagic⟩
      · refine ⟨skippableMagic kind, mem_frameMagics.2 (.inr ⟨kind, rfl⟩), ?_⟩
        rw [skippableMagic_eq]
        exact List.cons_prefix_cons.2 ⟨rfl, hmore⟩
    · rintro ⟨m, hm, hstands⟩
      rcases mem_frameMagics.1 hm with rfl | ⟨kind, rfl⟩
      · exact .inl hstands
      · rw [skippableMagic_eq] at hstands
        obtain ⟨hb, hmore⟩ := List.cons_prefix_cons.1 hstands
        exact .inr ⟨⟨kind, hb⟩, hmore⟩
  rw [Bool.eq_false_iff, ne_eq, hcut, IsTail]
  constructor
  · rintro (hempty | htail) ⟨m, hm, hstands⟩
    · exact hne hempty
    · exact (htail m hm).2 hstands
  · intro hnone
    refine .inr fun m hm => ⟨fun hstands => ?_, fun hstands => hnone ⟨m, hm, hstands⟩⟩
    have hle := hstands.length_le
    rw [length_of_mem hm] at hle
    omega

/-! ## Words and moves -/

theorem Reads.length_lt {data : List UInt8} {input : StructureReader} (h : Reads data input) :
    data.length < 2 ^ 64 :=
  h.taken.length_le.trans_lt input.reader.length_lt

section Steps

variable {data rest : List UInt8} {input : StructureReader} {index : Index} {cursor : Nat}

theorem Reads.wordAt (h : Reads data input) {ahead v : Nat} (hv : v < 2 ^ 32)
    (hat : At data (cursor + ahead) (leBytes 4 v ++ rest)) : ∃ input', Reads data input' ∧
      wordAt ahead ⟨input, index, cursor⟩ = (.ok v, ⟨input', index, cursor⟩) := by
  have hroom := hat.room
  have htaken := hat.taken
  rw [leBytes_length] at hroom htaken
  obtain ⟨input', hreads, hfield⟩ := h.field_eq (by omega : 4 ≤ 19) hroom
  refine ⟨input', hreads, ?_⟩
  unfold Lz4.wordAt
  rw [hfield, htaken]
  show (Except.ok (ofLeBytes (leBytes 4 v)), _) = _
  rw [ofLeBytes_leBytes_of_lt (Nat.lt_of_lt_of_eq hv (by norm_num))]

theorem Reads.of_wordAt (h : Reads data input) {ahead v : Nat} {s' : Walk}
    (hat : At data (cursor + ahead) rest)
    (hword : Lz4.wordAt ahead ⟨input, index, cursor⟩ = (.ok v, s')) :
    v < 2 ^ 32 ∧ ∃ rest' input', rest = leBytes 4 v ++ rest' ∧ Reads data input' ∧
      s' = ⟨input', index, cursor⟩ := by
  unfold Lz4.wordAt at hword
  obtain ⟨hvalue, rfl⟩ := Prod.mk.inj hword
  cases hfield : input.field (cursor + ahead) 4 with
  | mk result input' =>
    rw [hfield] at hvalue
    cases result with
    | error e => cases hvalue
    | ok bytes =>
      obtain rfl := Except.ok.inj hvalue
      obtain ⟨hroom, rfl, hreads⟩ := h.of_field (by omega) hfield
      obtain ⟨a, b, rfl, ha⟩ := hat.split hroom
      have htaken := hat.taken
      rw [ha] at htaken
      have hlt := ofLeBytes_lt a
      have hback := leBytes_ofLeBytes a
      rw [ha] at hlt hback
      rw [htaken]
      refine ⟨Nat.lt_of_lt_of_eq hlt (by norm_num), b, input', by rw [hback], hreads, rfl⟩

theorem Reads.advance (h : Reads data input) {n : Nat} (hroom : cursor + n ≤ data.length) :
    advance n ⟨input, index, cursor⟩ = (.ok (), ⟨input, index, cursor + n⟩) := by
  have hlength := h.length_lt
  have hlimit := h.limit
  unfold Lz4.advance
  rw [if_neg (by show ¬ _ ≤ cursor + n; omega), if_neg (by show ¬ input.limit < cursor + n; omega)]

theorem Reads.of_advance (h : Reads data input) {n : Nat} {u : Unit} {s' : Walk}
    (hadvance : Lz4.advance n ⟨input, index, cursor⟩ = (.ok u, s')) :
    cursor + n ≤ data.length ∧ s' = ⟨input, index, cursor + n⟩ := by
  obtain ⟨rfl, hroom⟩ := advance_ok hadvance
  have hlimit := h.limit
  exact ⟨by rw [← hlimit]; exact hroom, rfl⟩

/-! ## Blocks -/

variable {d : Descriptor}

theorem Block.length_and (b : Block d) : b.length &&& 0x7fffffff = b.payload.length := by
  have hpayload := b.payload_length
  have hmax := d.blockMax_lt
  have hmask : b.length &&& 0x7fffffff = b.length % 2 ^ 31 := Nat.and_two_pow_sub_one_eq_mod _ 31
  rw [hmask]
  unfold Block.length
  rw [Nat.add_mul_mod_self_left, Nat.mod_eq_of_lt (by omega)]

theorem Block.length_encode (b : Block d) :
    b.encode.length = 4 + (b.payload.length + if d.blockChecksum then 4 else 0) := by
  rw [encode, List.length_append, leBytes_length, List.length_append, b.checksum_length]

theorem Reads.block (h : Reads data input) (b : Block d) (hat : At data cursor (b.encode ++ rest)) :
    ∃ input', Reads data input' ∧ block d.header ⟨input, index, cursor⟩ =
      (.ok true, ⟨input', { index with blocks := index.blocks + 1 }, cursor + b.encode.length⟩) := by
  have hroom := hat.room
  have hlength := b.length_encode
  rw [hlength] at hroom
  rw [Block.encode, List.append_assoc] at hat
  obtain ⟨input', hreads, hword⟩ := h.wordAt b.length_lt (show At data (cursor + 0) _ from hat)
  refine ⟨input', hreads, ?_⟩
  have hsize : ¬ (d.header.blockMax < b.payload.length ∨
      (b.payload.length = 0 ∧ b.length &&& 0x80000000 = 0)) := by
    rintro (hlarge | ⟨hempty, hflag⟩)
    · exact absurd b.payload_length (not_le.2 hlarge)
    · rw [Block.length, b.stored_of_empty (List.eq_nil_of_length_eq_zero hempty), hempty] at hflag
      exact absurd hflag (by decide)
  unfold Lz4.block
  rw [Step.bind_ok hword, Step.bind_ok (hreads.advance (by omega)), if_neg b.length_ne_zero,
    b.length_and, if_neg hsize, Step.bind_ok (hreads.advance (by
      rw [Nat.add_assoc]
      exact hroom))]
  show (Except.ok true, Walk.mk input' _ (cursor + 4 + _)) = _
  rw [hlength, Nat.add_assoc]
  rfl

theorem Reads.endMark (h : Reads data input) (header : Header)
    (hat : At data cursor (endMark ++ rest)) : ∃ input', Reads data input' ∧
      Lz4.block header ⟨input, index, cursor⟩ = (.ok false, ⟨input', index, cursor + 4⟩) := by
  have hroom := hat.room
  rw [length_endMark] at hroom
  obtain ⟨input', hreads, hword⟩ := h.wordAt (by norm_num) (show At data (cursor + 0) _ from hat)
  refine ⟨input', hreads, ?_⟩
  unfold Lz4.block
  rw [Step.bind_ok hword, Step.bind_ok (hreads.advance hroom), if_pos rfl]
  rfl

/-- The words and lengths that pass the checks are those of blocks. -/
theorem exists_block {value : Nat} {bytes : List UInt8} (hvalue : value < 2 ^ 32) (hne : value ≠ 0)
    (hmax : value % 2 ^ 31 ≤ d.blockMax)
    (hlength : bytes.length = value % 2 ^ 31 + if d.blockChecksum then 4 else 0) :
    ∃ b : Block d, b.encode = leBytes 4 value ++ bytes := by
  have hpayload : (bytes.take (value % 2 ^ 31)).length = value % 2 ^ 31 :=
    List.length_take_of_le (by omega)
  let b : Block d := {
    stored := 2 ^ 31 ≤ value
    payload := bytes.take (value % 2 ^ 31)
    checksum := bytes.drop (value % 2 ^ 31)
    payload_length := hpayload.trans_le hmax
    stored_of_empty := by
      intro hempty
      rw [hempty] at hpayload
      exact decide_eq_true (by simp at hpayload; omega)
    checksum_length := by
      rw [List.length_drop]
      omega }
  refine ⟨b, ?_⟩
  have hback : b.length = value := by
    show (bytes.take (value % 2 ^ 31)).length + 2 ^ 31 * (decide (2 ^ 31 ≤ value)).toNat = value
    rw [hpayload]
    by_cases hstored : 2 ^ 31 ≤ value
    · rw [decide_eq_true hstored, Bool.toNat_true]
      omega
    · rw [decide_eq_false hstored, Bool.toNat_false]
      omega
  rw [Block.encode, hback]
  show _ ++ (bytes.take (value % 2 ^ 31) ++ bytes.drop (value % 2 ^ 31)) = _
  rw [List.take_append_drop]

theorem Reads.of_block (h : Reads data input) (hat : At data cursor rest) {next : Bool} {s' : Walk}
    (hblock : Lz4.block d.header ⟨input, index, cursor⟩ = (.ok next, s')) :
    ∃ rest' input', Reads data input' ∧
      ((next = false ∧ rest = Lz4.endMark ++ rest' ∧ s' = ⟨input', index, cursor + 4⟩) ∨
        (next = true ∧ ∃ b : Block d, rest = b.encode ++ rest' ∧
          s' = ⟨input', { index with blocks := index.blocks + 1 }, cursor + b.encode.length⟩)) := by
  obtain ⟨value, s₁, hword, hblock⟩ := Step.of_bind hblock
  obtain ⟨_, s₂, hadvance, hblock⟩ := Step.of_bind hblock
  obtain ⟨hvalue, behind, input', rfl, hreads, rfl⟩ :=
    h.of_wordAt (show At data (cursor + 0) rest from hat) hword
  obtain ⟨-, rfl⟩ := hreads.of_advance hadvance
  have hbehind := hat.add
  rw [leBytes_length] at hbehind
  by_cases hne : value = 0
  · rw [if_pos hne] at hblock
    obtain ⟨hnext, rfl⟩ := Prod.mk.inj hblock
    refine ⟨behind, input', hreads, .inl ⟨(Except.ok.inj hnext).symm, ?_, rfl⟩⟩
    rw [hne]
    rfl
  rw [if_neg hne] at hblock
  have hmask : value &&& 0x7fffffff = value % 2 ^ 31 := Nat.and_two_pow_sub_one_eq_mod _ 31
  simp only [hmask] at hblock
  by_cases hsize : d.header.blockMax < value % 2 ^ 31 ∨
      (value % 2 ^ 31 = 0 ∧ value &&& 0x80000000 = 0)
  · rw [if_pos hsize] at hblock
    cases hblock
  rw [if_neg hsize] at hblock
  obtain ⟨_, s₃, hpayload, hblock⟩ := Step.of_bind hblock
  obtain ⟨_, s₄, hcount, hblock⟩ := Step.of_bind hblock
  obtain ⟨hroom, rfl⟩ := hreads.of_advance hpayload
  obtain ⟨-, rfl⟩ := Prod.mk.inj hcount
  obtain ⟨hnext, rfl⟩ := Prod.mk.inj hblock
  obtain ⟨bytes, rest, rfl, hbytes⟩ := hbehind.split hroom
  obtain ⟨b, hb⟩ := exists_block hvalue hne (not_lt.1 (not_or.1 hsize).1) hbytes
  have hplace : cursor + b.encode.length =
      cursor + 4 + (value % 2 ^ 31 + if d.header.blockChecksum then 4 else 0) := by
    rw [hb, List.length_append, leBytes_length, hbytes, Nat.add_assoc]
  refine ⟨rest, input', hreads, .inr ⟨(Except.ok.inj hnext).symm, b, ?_, ?_⟩⟩
  · rw [hb, List.append_assoc]
  · rw [hplace]

/-! ## The blocks of a frame -/

def Index.addBlocks (index : Index) (n : Nat) : Index := { index with blocks := index.blocks + n }

theorem Reads.blocks (h : Reads data input) (index : Index) (bs : List (Block d))
    (hat : At data cursor (bs.flatMap Block.encode ++ (Lz4.endMark ++ rest))) :
    ∃ input', Reads data input' ∧ Lz4.blocks d.header ⟨input, index, cursor⟩ =
      (.ok (), ⟨input', index.addBlocks bs.length,
        cursor + (bs.flatMap Block.encode).length + 4⟩) := by
  induction bs generalizing input index cursor with
  | nil =>
    obtain ⟨input', hreads, hblock⟩ := h.endMark d.header hat
    exact ⟨input', hreads, blocks_end hblock⟩
  | cons b bs ih =>
    rw [List.flatMap_cons, List.append_assoc] at hat
    obtain ⟨input₁, hreads, hblock⟩ := h.block b hat
    obtain ⟨input', hreads', hblocks⟩ := ih hreads _ hat.add
    refine ⟨input', hreads', ?_⟩
    rw [blocks_next hblock, hblocks, List.flatMap_cons, List.length_append, List.length_cons]
    simp only [Index.addBlocks, Nat.add_assoc, Nat.add_comm 1]

theorem Reads.of_blocks (h : Reads data input) (hat : At data cursor rest) {s s' : Walk}
    (hs : s = ⟨input, index, cursor⟩) (hblocks : Lz4.blocks d.header s = (.ok (), s')) :
    ∃ (bs : List (Block d)) (rest' : List UInt8) (input' : StructureReader), Reads data input' ∧
      rest = bs.flatMap Block.encode ++ (Lz4.endMark ++ rest') ∧
      s' = ⟨input', index.addBlocks bs.length, cursor + (bs.flatMap Block.encode).length + 4⟩ := by
  generalize hheader : d.header = header at hblocks
  fun_induction Lz4.blocks header s generalizing input index cursor rest with
  | case1 s e s₁ hblock => cases hblocks
  | case2 s s₁ hblock =>
    subst hs hheader
    obtain ⟨-, rfl⟩ := Prod.mk.inj hblocks
    obtain ⟨rest', input', hreads, ⟨-, rfl, rfl⟩ | ⟨hnext, -⟩⟩ := h.of_block hat hblock
    · exact ⟨[], rest', input', hreads, rfl, rfl⟩
    · cases hnext
  | case3 s s₁ hblock ih =>
    subst hs hheader
    obtain ⟨rest', input', hreads, ⟨hnext, -⟩ | ⟨-, b, rfl, rfl⟩⟩ := h.of_block hat hblock
    · cases hnext
    · obtain ⟨bs, rest'', input'', hreads', rfl, rfl⟩ := ih hreads hat.add rfl hblocks
      refine ⟨b :: bs, rest'', input'', hreads', ?_, ?_⟩
      · rw [List.flatMap_cons, List.append_assoc]
      · rw [List.flatMap_cons, List.length_append, List.length_cons]
        simp only [Index.addBlocks, Nat.add_assoc, Nat.add_comm 1]

/-! ## Frames -/

theorem Reads.fieldAt (h : Reads data input) (index : Index) {n : Nat} (hn : n ≤ 19)
    (hroom : cursor + n ≤ data.length) : ∃ input', Reads data input' ∧
      Lz4.fieldAt n ⟨input, index, cursor⟩ =
        (.ok ((data.drop cursor).take n), ⟨input', index, cursor⟩) := by
  obtain ⟨input', hreads, hfield⟩ := h.field_eq hn hroom
  refine ⟨input', hreads, ?_⟩
  unfold Lz4.fieldAt
  rw [hfield]

theorem Reads.contentChecksum (h : Reads data input) {header : Header} {checksum : List UInt8}
    (hlength : checksum.length = if header.contentChecksum then 4 else 0)
    (hat : At data cursor (checksum ++ rest)) :
    Lz4.contentChecksum header ⟨input, index, cursor⟩ =
      (.ok (), ⟨input, { index with
        contentChecksums := index.contentChecksums + header.contentChecksum.toNat },
        cursor + checksum.length⟩) := by
  have hroom := hat.room
  unfold Lz4.contentChecksum
  cases hflag : header.contentChecksum with
  | false =>
    rw [hflag] at hlength
    rw [hlength]
    rfl
  | true =>
    rw [hflag, if_pos rfl] at hlength
    rw [hlength] at hroom ⊢
    rw [if_pos rfl, Step.bind_ok (h.advance hroom)]
    rfl

theorem Reads.of_contentChecksum (h : Reads data input) {header : Header} {u : Unit} {s' : Walk}
    (hat : At data cursor rest)
    (hcontent : Lz4.contentChecksum header ⟨input, index, cursor⟩ = (.ok u, s')) :
    ∃ checksum rest', rest = checksum ++ rest' ∧
      checksum.length = if header.contentChecksum then 4 else 0 := by
  unfold Lz4.contentChecksum at hcontent
  cases hflag : header.contentChecksum with
  | false => exact ⟨[], rest, rfl, rfl⟩
  | true =>
    rw [hflag, if_pos rfl] at hcontent
    obtain ⟨_, s₁, hadvance, -⟩ := Step.of_bind hcontent
    exact hat.split (h.of_advance hadvance).1

theorem blockChecksum_eq (header : Header) : blockChecksum header ⟨input, index, cursor⟩ =
    (.ok (), ⟨input, { index with
      blockChecksums := index.blockChecksums + header.blockChecksum.toNat }, cursor⟩) := by
  unfold blockChecksum
  cases header.blockChecksum <;> rfl

/-- The index with the checksums and blocks of a frame, before the frame itself is counted. -/
def Index.addParts (index : Index) (f : Frame) : Index :=
  { index.addBlocks f.blocks.length with
    contentChecksums := index.contentChecksums + f.descriptor.contentChecksum.toNat
    blockChecksums := index.blockChecksums + f.descriptor.blockChecksum.toNat }

variable {xxh32 : Xxh32}

theorem Frame.length_encode (xxh32 : Xxh32) (f : Frame) : (f.encode xxh32).length =
    f.descriptor.header.len + (f.blocks.flatMap Block.encode).length + 4 + f.checksum.length := by
  rw [encode, List.length_append, List.length_append, List.length_append, length_endMark,
    f.descriptor.length_encode, ← Nat.add_assoc, ← Nat.add_assoc]
  rfl

/-- The header is inside of the 19 bytes that are looked at. -/
theorem take_header (xxh32 : Xxh32) (d : Descriptor) (rest : List UInt8) : ∃ rest',
    (d.encode xxh32 ++ rest).take (min (d.encode xxh32 ++ rest).length 19) =
      d.encode xxh32 ++ rest' := by
  have hlength := d.length_encode xxh32
  have hsize := d.contentSize.isSome.toNat_le
  have hdict := d.dictionary.isSome.toNat_le
  refine ⟨rest.take (min (d.encode xxh32 ++ rest).length 19 - (d.encode xxh32).length), ?_⟩
  rw [List.take_append, List.take_of_length_le]
  rw [List.length_append]
  omega

theorem Reads.frame (h : Reads data input) (index : Index) (f : Frame)
    (hat : At data cursor (f.encode xxh32 ++ rest)) : ∃ input', Reads data input' ∧
      Lz4.frame xxh32 (data.length - cursor) ⟨input, index, cursor⟩ =
        countFrame f.descriptor.header
          ⟨input', index.addParts f, cursor + (f.encode xxh32).length⟩ := by
  have hlength := hat.length_eq
  have hroom := hat.room
  have hrest : data.length - cursor = (f.encode xxh32 ++ rest).length := by omega
  have hfull := f.length_encode xxh32
  have hheader : (f.descriptor.encode xxh32).length = f.descriptor.header.len :=
    f.descriptor.length_encode xxh32
  -- the header
  obtain ⟨input₁, hreads₁, hfield⟩ := h.fieldAt index (min_le_right (data.length - cursor) 19)
    (show cursor + min (data.length - cursor) 19 ≤ data.length by omega)
  rw [hat.2, hrest, Frame.encode, List.append_assoc] at hfield
  obtain ⟨more, hmore⟩ := take_header xxh32 f.descriptor
    ((f.blocks.flatMap Block.encode ++ (Lz4.endMark ++ f.checksum)) ++ rest)
  rw [hmore] at hfield
  rw [Frame.encode, List.append_assoc, List.append_assoc, List.append_assoc] at hat
  have hblocksAt := hat.add
  rw [hheader] at hblocksAt
  -- the blocks and the checksum of the content
  obtain ⟨input₂, hreads₂, hblocks⟩ := hreads₁.blocks index f.blocks hblocksAt
  have hchecksumAt := hblocksAt.add.add
  rw [length_endMark] at hchecksumAt
  have hplace : cursor + (f.encode xxh32).length = cursor + f.descriptor.header.len +
      (f.blocks.flatMap Block.encode).length + 4 + f.checksum.length := by omega
  refine ⟨input₂, hreads₂, ?_⟩
  unfold Lz4.frame
  rw [hplace, hrest, Frame.encode, List.append_assoc, Step.bind_ok hfield,
    Step.bind_ok (show lift (parseHeader xxh32 _) _ = _ by rw [lift, parseHeader_encode]),
    Step.bind_ok (hreads₁.advance (by omega)), Step.bind_ok hblocks,
    Step.bind_ok (hreads₂.contentChecksum f.checksum_length hchecksumAt),
    Step.bind_ok (blockChecksum_eq _)]
  rfl

/-- Where a frame is stepped over, a frame stands. -/
theorem Reads.of_frame (h : Reads data input) (hat : At data cursor rest) {next : Bool} {s' : Walk}
    (hframe : Lz4.frame xxh32 (data.length - cursor) ⟨input, index, cursor⟩ = (.ok next, s')) :
    ∃ (f : Frame) (rest' : List UInt8), rest = f.encode xxh32 ++ rest' := by
  have hlength := hat.length_eq
  obtain ⟨bytes, s₁, hfield, hframe⟩ := Step.of_bind hframe
  obtain ⟨header, s₂, hheader, hframe⟩ := Step.of_bind hframe
  obtain ⟨_, s₃, hadvance, hframe⟩ := Step.of_bind hframe
  obtain ⟨_, s₄, hblocks, hframe⟩ := Step.of_bind hframe
  obtain ⟨_, s₅, hcontent, -⟩ := Step.of_bind hframe
  obtain ⟨input₁, hreads₁, hfield'⟩ := h.fieldAt index (min_le_right (data.length - cursor) 19)
    (show cursor + min (data.length - cursor) 19 ≤ data.length by omega)
  obtain ⟨hbytes, rfl⟩ := Prod.mk.inj (hfield'.symm.trans hfield)
  obtain ⟨hparsed, rfl⟩ := Prod.mk.inj hheader
  obtain ⟨d, more, hd, rfl⟩ := exists_descriptor hparsed
  obtain rfl := Except.ok.inj hbytes
  have hstands : d.encode xxh32 <+: rest := by
    rw [hat.2] at hd
    exact (List.prefix_append _ _).trans (hd ▸ List.take_prefix _ _)
  obtain ⟨behind, rfl⟩ := hstands
  obtain ⟨-, rfl⟩ := hreads₁.of_advance hadvance
  have hheader' : (d.encode xxh32).length = d.header.len := d.length_encode xxh32
  have hbehind := hat.add
  rw [hheader'] at hbehind
  obtain ⟨bs, behind', input₂, hreads₂, rfl, rfl⟩ := hreads₁.of_blocks hbehind rfl hblocks
  have hchecksumAt := hbehind.add.add
  rw [length_endMark] at hchecksumAt
  obtain ⟨checksum, rest', rfl, hchecksum⟩ := hreads₂.of_contentChecksum hchecksumAt hcontent
  refine ⟨⟨d, bs, checksum, hchecksum⟩, rest', ?_⟩
  simp only [Frame.encode, List.append_assoc]

/-! ## Skippable frames -/

theorem Reads.skippableFrame (h : Reads data input) (index : Index) (f : SkippableFrame)
    (hat : At data cursor (f.encode ++ rest)) : ∃ input', Reads data input' ∧
      Lz4.skippableFrame ⟨input, index, cursor⟩ =
        (.ok true, ⟨input', { index with
          skips := index.skips + 1
          end_ := cursor + f.encode.length }, cursor + f.encode.length⟩) := by
  have hlength : f.encode.length = 8 + f.payload.length := by
    rw [SkippableFrame.encode, List.length_append, List.length_append, leBytes_length,
      skippableMagic, leBytes_length]
    omega
  have hroom := hat.room
  rw [SkippableFrame.encode, List.append_assoc, List.append_assoc] at hat
  have hsize := hat.add
  rw [skippableMagic, leBytes_length] at hsize
  obtain ⟨input', hreads, hword⟩ := h.wordAt f.payload_length hsize
  refine ⟨input', hreads, ?_⟩
  unfold Lz4.skippableFrame
  rw [Step.bind_ok hword, Step.bind_ok (hreads.advance (by omega)), hlength]
  rfl

theorem Reads.of_skippableFrame (h : Reads data input) {kind : Fin 16} {next : Bool} {s' : Walk}
    (hat : At data cursor (skippableMagic kind ++ rest))
    (hskip : Lz4.skippableFrame ⟨input, index, cursor⟩ = (.ok next, s')) :
    ∃ (f : SkippableFrame) (rest' : List UInt8), skippableMagic kind ++ rest = f.encode ++ rest' := by
  obtain ⟨size, s₁, hword, hskip⟩ := Step.of_bind hskip
  obtain ⟨_, s₂, hadvance, -⟩ := Step.of_bind hskip
  have hbehind := hat.add
  rw [skippableMagic, leBytes_length] at hbehind
  obtain ⟨hsize, behind, input', rfl, hreads, rfl⟩ := h.of_wordAt hbehind hword
  obtain ⟨hroom, -⟩ := hreads.of_advance hadvance
  have hpayload := hbehind.add
  rw [leBytes_length] at hpayload
  obtain ⟨payload, rest', rfl, hlength⟩ := hpayload.split (n := size) (by omega)
  refine ⟨⟨kind, payload, hlength.trans_lt hsize⟩, rest', ?_⟩
  simp only [SkippableFrame.encode, List.append_assoc, hlength]

/-! ## Turns -/

theorem turn_word (xxh32 : Xxh32) (index : Index) (hreads : Reads data input) {v : Nat} (hv : v < 2 ^ 32)
    (hat : At data cursor (leBytes 4 v ++ rest)) : ∃ input', Reads data input' ∧
      turn xxh32 ⟨input, index, cursor⟩ =
        (if skippable v then Lz4.skippableFrame
          else if v = 0x184d2204 then Lz4.frame xxh32 (data.length - cursor)
          else noFrame index) ⟨input', index, cursor⟩ := by
  have hroom := hat.room
  rw [leBytes_length] at hroom
  have hlimit := hreads.limit
  obtain ⟨input', hreads', hword⟩ := hreads.wordAt hv (show At data (cursor + 0) _ from hat)
  refine ⟨input', hreads', ?_⟩
  unfold turn
  rw [Step.bind_ok (show current ⟨input, index, cursor⟩ = _ from rfl)]
  rw [if_neg (show ¬ cursor = input.limit by omega),
    if_neg (show ¬ input.limit - cursor < 4 by omega), Step.bind_ok hword, hlimit]

theorem turn_skippable (xxh32 : Xxh32) (index : Index) (hreads : Reads data input) (f : SkippableFrame)
    (hat : At data cursor (f.encode ++ rest)) : ∃ input', Reads data input' ∧
      turn xxh32 ⟨input, index, cursor⟩ =
        (.ok true, ⟨input', { index with
          skips := index.skips + 1
          end_ := cursor + f.encode.length }, cursor + f.encode.length⟩) := by
  have hkind := f.kind.isLt
  have hv : 0x184d2a50 + (f.kind : Nat) < 2 ^ 32 := by omega
  have hsplit : f.encode ++ rest = leBytes 4 (0x184d2a50 + (f.kind : Nat)) ++
      (leBytes 4 f.payload.length ++ f.payload ++ rest) := by
    rw [← List.append_assoc]
    rfl
  obtain ⟨input₁, hreads₁, hturn⟩ := turn_word xxh32 index hreads hv (hsplit ▸ hat)
  obtain ⟨input', hreads', hskip⟩ := hreads₁.skippableFrame index f hat
  refine ⟨input', hreads', ?_⟩
  rw [hturn, if_pos ((skippable_iff hv).2 ⟨f.kind, rfl⟩), hskip]

theorem turn_frame (index : Index) (hreads : Reads data input) (f : Frame)
    (hat : At data cursor (f.encode xxh32 ++ rest)) : ∃ input', Reads data input' ∧
      turn xxh32 ⟨input, index, cursor⟩ = countFrame f.descriptor.header
        ⟨input', index.addParts f, cursor + (f.encode xxh32).length⟩ := by
  have hsplit : f.encode xxh32 ++ rest = leBytes 4 0x184d2204 ++ (f.encode xxh32 ++ rest).drop 4 := by
    rw [Frame.encode, Descriptor.encode, List.append_assoc, List.append_assoc]
    rfl
  obtain ⟨input₁, hreads₁, hturn⟩ := turn_word xxh32 index hreads (by norm_num) (hsplit ▸ hat)
  obtain ⟨input', hreads', hframe⟩ := hreads₁.frame index f hat
  refine ⟨input', hreads', ?_⟩
  rw [hturn, if_neg (by decide), if_pos rfl, hframe]

/-! ## Items -/

/-- `index.decoded_size` behind an item. -/
def Item.sizes (acc : Option Nat) : Item → Except WalkError (Option Nat)
  | .skippable _ => .ok acc
  | .frame f => decodedSizes acc (f.descriptor.contentSize.map UInt64.toNat)

def addSizes : Option Nat → List Item → Except WalkError (Option Nat)
  | acc, [] => .ok acc
  | acc, item :: items =>
    match item.sizes acc with
    | .ok acc' => addSizes acc' items
    | .error e => .error e

def framesOf (items : List Item) : List Frame := items.filterMap Item.frame?

def skipsOf (items : List Item) : Nat := items.countP fun item => item.frame?.isNone

@[simp] theorem framesOf_nil : framesOf [] = [] := rfl

@[simp] theorem framesOf_skippable (f : SkippableFrame) (items : List Item) :
    framesOf (.skippable f :: items) = framesOf items := rfl

@[simp] theorem framesOf_frame (f : Frame) (items : List Item) :
    framesOf (.frame f :: items) = f :: framesOf items := rfl

@[simp] theorem skipsOf_nil : skipsOf [] = 0 := rfl

@[simp] theorem skipsOf_skippable (f : SkippableFrame) (items : List Item) :
    skipsOf (.skippable f :: items) = skipsOf items + 1 := List.countP_cons_of_pos rfl

@[simp] theorem skipsOf_frame (f : Frame) (items : List Item) :
    skipsOf (.frame f :: items) = skipsOf items := List.countP_cons_of_neg (by simp [Item.frame?])

/-- The index behind items whose sizes add up to `size`. -/
def Index.behind (xxh32 : Xxh32) (index : Index) (items : List Item) (size : Option Nat) : Index :=
  { index with
    end_ := index.end_ + (items.flatMap (Item.encode xxh32)).length
    frames := index.frames + (framesOf items).length
    skips := index.skips + skipsOf items
    contentChecksums := index.contentChecksums +
      (framesOf items).countP fun f => f.descriptor.contentChecksum
    blockChecksums := index.blockChecksums +
      (framesOf items).countP fun f => f.descriptor.blockChecksum
    blocks := index.blocks + ((framesOf items).map fun f => f.blocks.length).sum
    decodedSize := size }

theorem Index.behind_cons (index : Index) (item : Item) (items : List Item) (acc size : Option Nat) :
    (index.behind xxh32 [item] acc).behind xxh32 items size =
      index.behind xxh32 (item :: items) size := by
  cases item with
  | skippable f => simp [behind, Nat.add_assoc, Nat.add_comm 1]
  | frame f =>
    simp [behind, List.countP_cons, Nat.add_assoc, Nat.add_comm]

theorem countFrame_ok {header : Header} {size : Option Nat}
    (h : decodedSizes index.decodedSize header.contentSize = .ok size) :
    countFrame header ⟨input, index, cursor⟩ =
      (.ok true, ⟨input, { index with
        decodedSize := size
        frames := index.frames + 1
        end_ := cursor }, cursor⟩) := by
  unfold countFrame
  rw [Step.bind_ok (show current ⟨input, index, cursor⟩ = _ from rfl)]
  rw [Step.bind_ok (show lift (decodedSizes index.decodedSize header.contentSize)
    ⟨input, index, cursor⟩ = (.ok size, _) by rw [lift, h])]
  rfl

theorem countFrame_error {header : Header} {e : WalkError}
    (h : decodedSizes index.decodedSize header.contentSize = .error e) :
    countFrame header ⟨input, index, cursor⟩ = (.error e, ⟨input, index, cursor⟩) := by
  unfold countFrame
  rw [Step.bind_ok (show current ⟨input, index, cursor⟩ = _ from rfl)]
  exact Step.bind_error (show lift (decodedSizes index.decodedSize header.contentSize)
    ⟨input, index, cursor⟩ = _ by rw [lift, h])

/-- A turn at an item steps over it, unless the sizes are too large. -/
theorem turn_item (hreads : Reads data input) (item : Item) (hend : index.end_ = cursor)
    (hat : At data cursor (item.encode xxh32 ++ rest)) : ∃ input', Reads data input' ∧
      (∀ size, item.sizes index.decodedSize = .ok size → turn xxh32 ⟨input, index, cursor⟩ =
        (.ok true, ⟨input', index.behind xxh32 [item] size,
          cursor + (item.encode xxh32).length⟩)) ∧
      ∀ e, item.sizes index.decodedSize = .error e →
        ∃ s', turn xxh32 ⟨input, index, cursor⟩ = (.error e, s') := by
  subst hend
  cases item with
  | skippable f =>
    obtain ⟨input', hreads', hturn⟩ := turn_skippable xxh32 index hreads f hat
    refine ⟨input', hreads', fun size hsize => ?_, fun e hsize => absurd hsize (by simp [Item.sizes])⟩
    obtain rfl := Except.ok.inj hsize
    rw [hturn]
    simp [Index.behind, Item.encode]
  | frame f =>
    obtain ⟨input', hreads', hturn⟩ := turn_frame index hreads f hat
    refine ⟨input', hreads', fun size hsize => ?_, fun e hsize => ?_⟩
    · have hsizes : decodedSizes (index.addParts f).decodedSize f.descriptor.header.contentSize =
        .ok size := hsize
      rw [hturn, countFrame_ok hsizes]
      simp [Index.behind, Index.addParts, Index.addBlocks, Item.encode, List.countP_cons,
        Bool.toNat, Bool.cond_eq_ite]
    · have hsizes : decodedSizes (index.addParts f).decodedSize f.descriptor.header.contentSize =
        .error e := hsize
      rw [hturn]
      exact ⟨_, countFrame_error hsizes⟩

end Steps

end Sunpack.Lz4
