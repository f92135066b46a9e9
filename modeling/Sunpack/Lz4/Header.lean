import Sunpack.Lz4.Format
import Sunpack.Lz4.StructureReader

/-!
# The frame header

`parse_header` reads exactly the headers of descriptors: from the bytes of one it gets its header, and
where it gets a header the bytes begin with a descriptor that has it.
-/

namespace Sunpack.Lz4

open Lib

structure Header where
  len : Nat
  blockMax : Nat
  contentSize : Option Nat
  blockChecksum : Bool
  contentChecksum : Bool

def blockMaxOf (bd : UInt8) : Except WalkError Nat :=
  match (bd >>> 4) &&& 7 with
  | 4 => .ok (64 * 1024)
  | 5 => .ok (256 * 1024)
  | 6 => .ok (1024 * 1024)
  | 7 => .ok (4 * 1024 * 1024)
  | _ => .error .blockSizeInvalid

def parseHeader (xxh32 : Xxh32) (bytes : List UInt8) : Except WalkError Header :=
  if bytes.length < 7 then .error .headerTruncated
  else if ¬ MAGIC <+: bytes then .error .magicNotFound
  else
    let flags := bytes.getD 4 0
    let bd := bytes.getD 5 0
    if flags >>> 6 ≠ 1 then .error .versionUnsupported
    else if flags &&& 2 ≠ 0 ∨ bd &&& 0x8f ≠ 0 then .error .reservedBitsSet
    else
      match blockMaxOf bd with
      | .error e => .error e
      | .ok blockMax =>
        let sizePresent := flags &&& 8 ≠ 0
        let dictPresent := flags &&& 1 ≠ 0
        let len := 7 + (if sizePresent then 8 else 0) + (if dictPresent then 4 else 0)
        if bytes.length < len then .error .headerTruncated
        else if (xxh32 ((bytes.drop 4).take (len - 1 - 4)) >>> 8).toUInt8 ≠ bytes.getD (len - 1) 0 then
          .error .headerChecksumBad
        else
          .ok {
            len, blockMax
            contentSize := if sizePresent then some (ofLeBytes ((bytes.drop 6).take 8)) else none
            blockChecksum := flags &&& 16 ≠ 0
            contentChecksum := flags &&& 4 ≠ 0 }

/-- What `parse_header` gets from the bytes of a descriptor. -/
def Descriptor.header (d : Descriptor) : Header where
  len := 7 + 8 * d.contentSize.isSome.toNat + 4 * d.dictionary.isSome.toNat
  blockMax := d.blockMax
  contentSize := d.contentSize.map UInt64.toNat
  blockChecksum := d.blockChecksum
  contentChecksum := d.contentChecksum

/-! ## The two descriptor bytes -/

def flagsOf (independent blockChecksum size contentChecksum dictionary : Bool) : UInt8 :=
  .ofNat (64 + 32 * independent.toNat + 16 * blockChecksum.toNat + 8 * size.toNat +
    4 * contentChecksum.toNat + dictionary.toNat)

theorem flagsOf_bits : ∀ i b s c k : Bool, flagsOf i b s c k >>> 6 = 1 ∧ flagsOf i b s c k &&& 2 = 0 ∧
    (flagsOf i b s c k &&& 16 ≠ 0 ↔ b = true) ∧ (flagsOf i b s c k &&& 8 ≠ 0 ↔ s = true) ∧
    (flagsOf i b s c k &&& 4 ≠ 0 ↔ c = true) ∧ (flagsOf i b s c k &&& 1 ≠ 0 ↔ k = true) := by
  decide

theorem eq_flagsOf {flags : UInt8} (hversion : flags >>> 6 = 1) (hreserved : flags &&& 2 = 0) :
    flags = flagsOf (flags &&& 32 ≠ 0) (flags &&& 16 ≠ 0) (flags &&& 8 ≠ 0) (flags &&& 4 ≠ 0)
      (flags &&& 1 ≠ 0) := by
  have hall : ∀ n : Fin 256, UInt8.ofNat n >>> 6 = 1 → UInt8.ofNat n &&& 2 = 0 →
      UInt8.ofNat n = flagsOf (UInt8.ofNat n &&& 32 ≠ 0) (UInt8.ofNat n &&& 16 ≠ 0)
        (UInt8.ofNat n &&& 8 ≠ 0) (UInt8.ofNat n &&& 4 ≠ 0) (UInt8.ofNat n &&& 1 ≠ 0) := by
    decide +kernel
  have hback : UInt8.ofNat flags.toNat = flags := UInt8.ofNat_toNat
  rw [← hback] at hversion hreserved ⊢
  exact hall ⟨flags.toNat, flags.toNat_lt⟩ hversion hreserved

theorem bd_bits (d : Descriptor) : d.bd &&& 0x8f = 0 ∧ blockMaxOf d.bd = .ok d.blockMax := by
  unfold Descriptor.bd Descriptor.blockMax
  generalize d.blockMaxId = i
  revert i
  decide

theorem exists_blockMaxId {bd : UInt8} {blockMax : Nat} (hreserved : bd &&& 0x8f = 0)
    (h : blockMaxOf bd = .ok blockMax) :
    ∃ i : Fin 4, bd = .ofNat (16 * (4 + i)) ∧ blockMax = 64 * 1024 * 4 ^ (i : Nat) := by
  have hall : ∀ n : Fin 256, UInt8.ofNat n &&& 0x8f = 0 →
      (blockMaxOf (UInt8.ofNat n)).toOption = none ∨
        ∃ i : Fin 4, UInt8.ofNat n = .ofNat (16 * (4 + i)) ∧
          (blockMaxOf (UInt8.ofNat n)).toOption = some (64 * 1024 * 4 ^ (i : Nat)) := by
    decide +kernel
  have hback : UInt8.ofNat bd.toNat = bd := UInt8.ofNat_toNat
  rw [← hback] at hreserved h ⊢
  rcases hall ⟨bd.toNat, bd.toNat_lt⟩ hreserved with hnone | ⟨i, hbd, hmax⟩
  · rw [h] at hnone
    exact absurd hnone (by simp [Except.toOption])
  · rw [h] at hmax
    exact ⟨i, hbd, Option.some.inj hmax⟩

/-! ## Round trip -/

variable {xxh32 : Xxh32}

theorem Descriptor.flags_eq (d : Descriptor) : d.flags = flagsOf d.independent d.blockChecksum
    d.contentSize.isSome d.contentChecksum d.dictionary.isSome := rfl

theorem Descriptor.length_body (d : Descriptor) :
    d.body.length = 2 + 8 * d.contentSize.isSome.toNat + 4 * d.dictionary.isSome.toNat := by
  simp only [body, List.length_cons, List.length_append, d.length_sizeField,
    d.length_dictionaryField]
  omega

theorem parseHeader_encode (d : Descriptor) (rest : List UInt8) :
    parseHeader xxh32 (d.encode xxh32 ++ rest) = .ok d.header := by
  obtain ⟨hversion, hreserved, hblock, hsize, hcontent, hdictionary⟩ := flagsOf_bits d.independent
    d.blockChecksum d.contentSize.isSome d.contentChecksum d.dictionary.isSome
  rw [← d.flags_eq] at hversion hreserved hblock hsize hcontent hdictionary
  obtain ⟨hbd, hmax⟩ := bd_bits d
  have hlength := d.length_encode xxh32
  have hmagic : MAGIC <+: d.encode xxh32 ++ rest := by
    rw [Descriptor.encode, List.append_assoc]
    exact List.prefix_append _ _
  have hdrop : (d.encode xxh32 ++ rest).drop 4 = d.body ++ ((xxh32 d.body >>> 8).toUInt8 :: rest) := by
    rw [Descriptor.encode, List.append_assoc]
    show d.body ++ [(xxh32 d.body >>> 8).toUInt8] ++ rest = _
    rw [List.append_assoc]
    rfl
  have hflags : (d.encode xxh32 ++ rest).getD 4 0 = d.flags := rfl
  have hbyte : (d.encode xxh32 ++ rest).getD 5 0 = d.bd := rfl
  have hlen : (7 + (if d.flags &&& 8 ≠ 0 then 8 else 0)) + (if d.flags &&& 1 ≠ 0 then 4 else 0) =
      7 + 8 * d.contentSize.isSome.toNat + 4 * d.dictionary.isSome.toNat := by
    simp only [hsize, hdictionary]
    cases d.contentSize.isSome <;> cases d.dictionary.isSome <;> rfl
  have hbody : ((d.encode xxh32 ++ rest).drop 4).take (7 + 8 * d.contentSize.isSome.toNat +
      4 * d.dictionary.isSome.toNat - 1 - 4) = d.body := by
    rw [hdrop, List.take_left' (by rw [d.length_body]; omega)]
  have hcheck : (d.encode xxh32 ++ rest).getD (7 + 8 * d.contentSize.isSome.toNat +
      4 * d.dictionary.isSome.toNat - 1) 0 = (xxh32 d.body >>> 8).toUInt8 := by
    have hat : 7 + 8 * d.contentSize.isSome.toNat + 4 * d.dictionary.isSome.toNat - 1 =
        4 + d.body.length := by
      rw [d.length_body]
      omega
    rw [hat, List.getD_eq_getElem?_getD, ← List.getElem?_drop, hdrop]
    simp
  have hcontentSize : (if d.flags &&& 8 ≠ 0 then
      some (ofLeBytes (((d.encode xxh32 ++ rest).drop 6).take 8)) else none) =
        d.contentSize.map UInt64.toNat := by
    cases hdeclared : d.contentSize with
    | none =>
      rw [if_neg (by rw [hsize, hdeclared]; simp)]
      rfl
    | some size =>
      have htake : ((d.encode xxh32 ++ rest).drop 6).take 8 = leBytes 8 size.toNat := by
        rw [show 6 = 4 + 2 from rfl, ← List.drop_drop, hdrop, Descriptor.body,
          Descriptor.sizeField, hdeclared]
        simp
      rw [if_pos (by rw [hsize, hdeclared]; rfl), htake,
        ofLeBytes_leBytes_of_lt (Nat.lt_of_lt_of_eq size.toNat_lt (by norm_num))]
      rfl
  unfold parseHeader
  rw [if_neg (by rw [List.length_append]; omega), if_neg (not_not.2 hmagic)]
  simp only [hflags, hbyte, hlen, hmax, hbody, hcheck, hcontentSize]
  rw [if_neg (not_not.2 hversion), if_neg (by simp [hreserved, hbd]),
    if_neg (by rw [List.length_append]; omega), if_neg (not_not.2 rfl)]
  simp only [Descriptor.header, hblock, hcontent]
  simp

/-- The bytes of a field that may be absent. -/
theorem exists_field {bytes : List UInt8} {present : Bool} {n : Nat}
    (h : n * present.toNat ≤ bytes.length) :
    ∃ (value : Option (List UInt8)) (rest : List UInt8), bytes = value.getD [] ++ rest ∧
      value.isSome = present ∧ ∀ v ∈ value, v.length = n := by
  cases present with
  | false => exact ⟨none, bytes, rfl, rfl, by simp⟩
  | true =>
    rw [Bool.toNat_true, Nat.mul_one] at h
    refine ⟨some (bytes.take n), bytes.drop n, (List.take_append_drop n bytes).symm, rfl, ?_⟩
    intro v hv
    obtain rfl := Option.some.inj hv
    exact List.length_take_of_le h

theorem leBytes_uint64 {bytes : List UInt8} (h : bytes.length = 8) :
    leBytes 8 (UInt64.ofNat (ofLeBytes bytes)).toNat = bytes := by
  have hlt := ofLeBytes_lt bytes
  rw [h] at hlt
  rw [UInt64.toNat_ofNat', Nat.mod_eq_of_lt (Nat.lt_of_lt_of_eq hlt (by norm_num)), ← h]
  exact leBytes_ofLeBytes bytes

theorem leBytes_uint32 {bytes : List UInt8} (h : bytes.length = 4) :
    leBytes 4 (UInt32.ofNat (ofLeBytes bytes)).toNat = bytes := by
  have hlt := ofLeBytes_lt bytes
  rw [h] at hlt
  rw [UInt32.toNat_ofNat', Nat.mod_eq_of_lt (Nat.lt_of_lt_of_eq hlt (by norm_num)), ← h]
  exact leBytes_ofLeBytes bytes

theorem length_getD {value : Option (List UInt8)} {present : Bool} {n : Nat}
    (hpresent : value.isSome = present) (h : ∀ v ∈ value, v.length = n) :
    (value.getD []).length = n * present.toNat := by
  subst present
  cases value with
  | none => rfl
  | some v =>
    rw [Option.isSome_some, Bool.toNat_true, Nat.mul_one]
    exact h v rfl

/-- The length that two flag bytes give a header. -/
def lenOf (flags : UInt8) : Nat :=
  7 + 8 * (decide (flags &&& 8 ≠ 0)).toNat + 4 * (decide (flags &&& 1 ≠ 0)).toNat

theorem lenOf_eq (flags : UInt8) : 7 + (if flags &&& 8 ≠ 0 then 8 else 0) +
    (if flags &&& 1 ≠ 0 then 4 else 0) = lenOf flags := by
  unfold lenOf
  by_cases hsize : flags &&& 8 ≠ 0 <;> by_cases hdict : flags &&& 1 ≠ 0 <;> simp [hsize, hdict]

/-- What has been checked where a header is read. -/
structure Checked (xxh32 : Xxh32) (flags bd : UInt8) (fields : List UInt8) : Prop where
  version : flags >>> 6 = 1
  reserved : flags &&& 2 = 0
  reserved_bd : bd &&& 0x8f = 0
  blockMax : ∃ blockMax, blockMaxOf bd = .ok blockMax
  room : lenOf flags ≤ 6 + fields.length
  checksum : (xxh32 ((flags :: bd :: fields).take (lenOf flags - 5)) >>> 8).toUInt8 =
    (flags :: bd :: fields).getD (lenOf flags - 5) 0

theorem Checked.of_parseHeader {bytes : List UInt8} {header : Header}
    (h : parseHeader xxh32 bytes = .ok header) : ∃ (flags bd : UInt8) (fields : List UInt8),
      bytes = MAGIC ++ flags :: bd :: fields ∧ Checked xxh32 flags bd fields := by
  unfold parseHeader at h
  by_cases hseven : bytes.length < 7
  · rw [if_pos hseven] at h
    cases h
  by_cases hmagic : MAGIC <+: bytes
  swap
  · rw [if_neg hseven, if_pos hmagic] at h
    cases h
  obtain ⟨behind, rfl⟩ := hmagic
  obtain ⟨flags, bd, fields, rfl⟩ : ∃ flags bd fields, behind = flags :: bd :: fields := by
    match behind, hseven with
    | flags :: bd :: fields, _ => exact ⟨flags, bd, fields, rfl⟩
    | [_], hseven => exact absurd (by decide : 5 < 7) hseven
    | [], hseven => exact absurd (by decide : 4 < 7) hseven
  have hflags : (MAGIC ++ flags :: bd :: fields).getD 4 0 = flags := rfl
  have hbyte : (MAGIC ++ flags :: bd :: fields).getD 5 0 = bd := rfl
  rw [if_neg hseven, if_neg (not_not.2 (List.prefix_append _ _))] at h
  simp only [hflags, hbyte, lenOf_eq] at h
  by_cases hversion : flags >>> 6 ≠ 1
  · rw [if_pos hversion] at h
    cases h
  by_cases hreserved : flags &&& 2 ≠ 0 ∨ bd &&& 0x8f ≠ 0
  · rw [if_neg hversion, if_pos hreserved] at h
    cases h
  rw [if_neg hversion, if_neg hreserved] at h
  obtain ⟨hreserved, hbd⟩ := not_or.1 hreserved
  cases hmax : blockMaxOf bd with
  | error e =>
    rw [hmax] at h
    cases h
  | ok blockMax =>
    simp only [hmax] at h
    by_cases hshort : (MAGIC ++ flags :: bd :: fields).length < lenOf flags
    · rw [if_pos hshort] at h
      cases h
    rw [if_neg hshort] at h
    by_cases hcheck : (xxh32 (((MAGIC ++ flags :: bd :: fields).drop 4).take
        (lenOf flags - 1 - 4)) >>> 8).toUInt8 ≠ (MAGIC ++ flags :: bd :: fields).getD (lenOf flags - 1) 0
    · rw [if_pos hcheck] at h
      cases h
    have hlen : 7 ≤ lenOf flags := by
      unfold lenOf
      omega
    have hlength : (MAGIC ++ flags :: bd :: fields).length = 6 + fields.length := by
      simp only [MAGIC, List.length_append, List.length_cons, List.length_nil]
      omega
    refine ⟨flags, bd, fields, rfl, ?_⟩
    exact {
      version := not_not.1 hversion
      reserved := not_not.1 hreserved
      reserved_bd := not_not.1 hbd
      blockMax := ⟨blockMax, hmax⟩
      room := by omega
      checksum := by
        have hat : lenOf flags - 1 = 4 + (lenOf flags - 5) := by omega
        rw [not_not] at hcheck
        rw [hat, List.getD_eq_getElem?_getD, ← List.getElem?_drop, Nat.add_sub_cancel_left] at hcheck
        exact hcheck }

/-- Fields of the right lengths make a descriptor. -/
theorem Checked.exists_descriptor {flags bd : UInt8} {fields : List UInt8}
    (h : Checked xxh32 flags bd fields) :
    ∃ (d : Descriptor) (rest : List UInt8),
      MAGIC ++ flags :: bd :: fields = d.encode xxh32 ++ rest := by
  obtain ⟨blockMax, hmax⟩ := h.blockMax
  obtain ⟨i, hbdId, -⟩ := exists_blockMaxId h.reserved_bd hmax
  have hroom := h.room
  have hchecksum := h.checksum
  have hlen : lenOf flags - 5 = 2 + 8 * (decide (flags &&& 8 ≠ 0)).toNat +
      4 * (decide (flags &&& 1 ≠ 0)).toNat := by
    unfold lenOf
    omega
  rw [hlen] at hchecksum
  unfold lenOf at hroom
  obtain ⟨size, fields, rfl, hpresent, hsize⟩ := exists_field
    (show 8 * (decide (flags &&& 8 ≠ 0)).toNat ≤ fields.length by omega)
  have hsizeLength := length_getD hpresent hsize
  rw [List.length_append, hsizeLength] at hroom
  obtain ⟨dictionary, fields, rfl, hgiven, hdict⟩ := exists_field
    (show 4 * (decide (flags &&& 1 ≠ 0)).toNat ≤ fields.length by omega)
  have hdictLength := length_getD hgiven hdict
  rw [List.length_append, hdictLength] at hroom
  obtain ⟨check, rest, rfl⟩ := List.exists_cons_of_length_pos (show 0 < fields.length by omega)
  let d : Descriptor := {
    independent := flags &&& 32 ≠ 0
    blockChecksum := flags &&& 16 ≠ 0
    contentSize := size.map fun bytes => .ofNat (ofLeBytes bytes)
    contentChecksum := flags &&& 4 ≠ 0
    dictionary := dictionary.map fun bytes => .ofNat (ofLeBytes bytes)
    blockMaxId := i }
  have hflags : d.flags = flags := by
    rw [d.flags_eq]
    refine Eq.trans ?_ (eq_flagsOf h.version h.reserved).symm
    simp only [d, Option.isSome_map, hpresent, hgiven]
  have hsizeField : d.sizeField = size.getD [] := by
    cases size with
    | none => rfl
    | some v => exact leBytes_uint64 (hsize v rfl)
  have hdictField : d.dictionaryField = dictionary.getD [] := by
    cases dictionary with
    | none => rfl
    | some v => exact leBytes_uint32 (hdict v rfl)
  have hbody : d.body = flags :: bd :: (size.getD [] ++ dictionary.getD []) := by
    rw [Descriptor.body, hflags, hsizeField, hdictField]
    exact congrArg (fun b => flags :: b :: _) hbdId.symm
  have hsplit : flags :: bd :: (size.getD [] ++ (dictionary.getD [] ++ check :: rest)) =
      d.body ++ check :: rest := by
    rw [hbody, List.cons_append, List.cons_append, List.append_assoc]
  have hlength : d.body.length = 2 + 8 * (decide (flags &&& 8 ≠ 0)).toNat +
      4 * (decide (flags &&& 1 ≠ 0)).toNat := by
    rw [hbody, List.length_cons, List.length_cons, List.length_append, hsizeLength, hdictLength]
    omega
  rw [hsplit, ← hlength, List.take_left' rfl] at hchecksum
  refine ⟨d, rest, ?_⟩
  rw [hsplit, Descriptor.encode, hchecksum, List.append_assoc, List.append_assoc]
  simp

/-- Where a header is read, the bytes begin with a descriptor that has it. -/
theorem exists_descriptor {bytes : List UInt8} {header : Header}
    (h : parseHeader xxh32 bytes = .ok header) :
    ∃ (d : Descriptor) (rest : List UInt8), bytes = d.encode xxh32 ++ rest ∧ header = d.header := by
  obtain ⟨flags, bd, fields, rfl, hchecked⟩ := Checked.of_parseHeader h
  obtain ⟨d, rest, hbytes⟩ := hchecked.exists_descriptor
  rw [hbytes, parseHeader_encode] at h
  exact ⟨d, rest, hbytes, (Except.ok.inj h).symm⟩

end Sunpack.Lz4
