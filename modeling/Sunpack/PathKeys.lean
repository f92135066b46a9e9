import Mathlib

/-!
# Path keys

`path_keys.rs`: the case mapping of Windows file names and the keys made with it. The table itself
(`RtlDowncaseUnicodeChar`) belongs to the operating system, so a `DowncaseTable` is any map of
UTF-16 units with the properties of the system's one. Paths are lists of characters.
-/

namespace Sunpack

/-- A path, a name, or a key. -/
abbrev Text := List Char

/-- Membership of texts is decided with this instance everywhere. -/
instance : LawfulBEq Text := inferInstance

def isAsciiChar (c : Char) : Bool := c.toNat < 128

def isSurrogate (u : UInt16) : Bool := 0xD800 ≤ u.toNat && u.toNat < 0xE000

/-- `RtlDowncaseUnicodeChar`: one UTF-16 unit stays one unit. It lowers ASCII letters, mapping twice
changes nothing more, halves of surrogate pairs are fixed, and no character becomes a separator or a
half of a pair. -/
structure DowncaseTable where
  unit : UInt16 → UInt16
  ascii : ∀ c : Char, c.toNat < 128 → unit c.toNat.toUInt16 = c.toLower.toNat.toUInt16
  idem : ∀ u, unit (unit u) = unit u
  surrogate : ∀ u, isSurrogate u = true → unit u = u
  scalar : ∀ u, isSurrogate u = false → isSurrogate (unit u) = false
  slash : ∀ u, unit u = '/'.toNat.toUInt16 → u = '/'.toNat.toUInt16
  backslash : ∀ u, unit u = '\\'.toNat.toUInt16 → u = '\\'.toNat.toUInt16

/-- Lowering an ASCII letter, as a unit and as a character. -/
theorem lower_ascii_unit : ∀ n < 128, (if 65 ≤ n.toUInt16.toNat ∧ n.toUInt16.toNat ≤ 90 then
    n.toUInt16 + 32 else n.toUInt16) = (Char.ofNat n).toLower.toNat.toUInt16 := by
  decide

/-- The table of a system without Unicode case mapping. -/
def DowncaseTable.asciiOnly : DowncaseTable where
  unit u := if 65 ≤ u.toNat ∧ u.toNat ≤ 90 then u + 32 else u
  ascii c h := by simpa using lower_ascii_unit c.toNat h
  idem u := by
    split_ifs with h h'
    · simp_all [← UInt16.toNat_inj]
      omega
    all_goals simp_all
  surrogate u h := by
    simp only [isSurrogate, Bool.and_eq_true, decide_eq_true_eq] at h
    rw [if_neg (by omega)]
  scalar u h := by
    split_ifs with h'
    · rw [isSurrogate, UInt16.toNat_add]
      simp
      omega
    · exact h
  slash u h := by
    split_ifs at h with h'
    · rw [← UInt16.toNat_inj, UInt16.toNat_add] at h
      simp at h
      omega
    · exact h
  backslash u h := by
    split_ifs at h with h'
    · rw [← UInt16.toNat_inj, UInt16.toNat_add] at h
      simp at h
      omega
    · exact h

/-- `char::from_u32`. -/
def fromU32 (n : Nat) : Option Char :=
  if h : n.isValidChar then some (Char.ofNatAux n h) else none

namespace DowncaseTable

variable (T : DowncaseTable)

/-- The key character of a character that is compared through the table. -/
def downcaseChar (ch : Char) : Char :=
  if ch.toNat ≤ 0xFFFF then (fromU32 (T.unit ch.toNat.toUInt16).toNat).getD ch else ch.toLower

def caseKey (value : Text) : Text :=
  if value.all isAsciiChar then value.map Char.toLower else value.map T.downcaseChar

def pathKey (value : Text) : Text :=
  let key := T.caseKey value
  if '/' ∈ key then key.map (fun c => if c = '/' then '\\' else c) else key

/-! ## Characters -/

theorem fromU32_eq_some {n : Nat} (h : n.isValidChar) :
    ∃ c, fromU32 n = some c ∧ c.toNat = n := by
  refine ⟨Char.ofNatAux n h, by rw [fromU32, dif_pos h], ?_⟩
  simp [Char.ofNatAux, Char.toNat]

theorem toUInt16_toNat {n : Nat} (h : n ≤ 0xFFFF) : n.toUInt16.toNat = n := by
  rw [Nat.toUInt16, UInt16.toNat_ofNat', Nat.mod_eq_of_lt (by omega)]

theorem toUInt16_of_toNat (u : UInt16) : u.toNat.toUInt16 = u := by
  rw [Nat.toUInt16, UInt16.ofNat_toNat]

theorem isSurrogate_char {c : Char} (h : c.toNat ≤ 0xFFFF) :
    isSurrogate c.toNat.toUInt16 = false := by
  have hvalid : c.toNat.isValidChar := c.valid
  rw [isSurrogate, toUInt16_toNat h, Bool.and_eq_false_iff, decide_eq_false_iff_not,
    decide_eq_false_iff_not]
  simp only [Nat.isValidChar] at hvalid
  omega

/-- On the basic plane the key character is the unit of the table. -/
theorem toNat_downcaseChar {c : Char} (h : c.toNat ≤ 0xFFFF) :
    (T.downcaseChar c).toNat = (T.unit c.toNat.toUInt16).toNat := by
  have hscalar := T.scalar _ (isSurrogate_char h)
  have hlt := (T.unit c.toNat.toUInt16).toNat_lt
  obtain ⟨d, hd, hdn⟩ : ∃ d, fromU32 (T.unit c.toNat.toUInt16).toNat = some d ∧
      d.toNat = (T.unit c.toNat.toUInt16).toNat := by
    apply fromU32_eq_some
    rw [isSurrogate, Bool.and_eq_false_iff, decide_eq_false_iff_not, decide_eq_false_iff_not]
      at hscalar
    simp only [Nat.isValidChar]
    omega
  rw [downcaseChar, if_pos h, hd]
  exact hdn

/-- Beyond the basic plane nothing is mapped. -/
theorem downcaseChar_astral {c : Char} (h : ¬ c.toNat ≤ 0xFFFF) : T.downcaseChar c = c := by
  rw [downcaseChar, if_neg h, Char.toLower, dif_neg]
  rintro ⟨_, hle⟩
  have : c.toNat ≤ 90 := hle
  omega

theorem toLower_ascii {c : Char} (h : c.toNat < 128) : c.toLower.toNat < 128 := by
  have hall : ∀ n < 128, (Char.ofNat n).toLower.toNat < 128 := by decide
  simpa using hall c.toNat h

theorem downcaseChar_ascii {c : Char} (h : c.toNat < 128) : T.downcaseChar c = c.toLower := by
  have hlow := toLower_ascii h
  rw [← Char.toNat_inj, T.toNat_downcaseChar (by omega), T.ascii c h, toUInt16_toNat (by omega)]

theorem downcaseChar_idem (c : Char) : T.downcaseChar (T.downcaseChar c) = T.downcaseChar c := by
  by_cases h : c.toNat ≤ 0xFFFF
  · have hd := T.toNat_downcaseChar h
    have hlt := (T.unit c.toNat.toUInt16).toNat_lt
    rw [← Char.toNat_inj, T.toNat_downcaseChar (by omega), hd, toUInt16_of_toNat, T.idem]
  · rw [T.downcaseChar_astral h, T.downcaseChar_astral h]

theorem downcaseChar_eq_ascii {c d : Char} (hd : d.toNat < 128)
    (htable : ∀ u, T.unit u = d.toNat.toUInt16 → u = d.toNat.toUInt16)
    (h : T.downcaseChar c = d) : c = d := by
  by_cases hc : c.toNat ≤ 0xFFFF
  · have hn := T.toNat_downcaseChar hc
    rw [h] at hn
    have hu := htable c.toNat.toUInt16
      (by rw [hn, toUInt16_of_toNat])
    rw [← Char.toNat_inj, ← toUInt16_toNat hc, hu, toUInt16_toNat (by omega)]
  · rwa [T.downcaseChar_astral hc] at h

theorem downcaseChar_slash {c : Char} (h : T.downcaseChar c = '/') : c = '/' :=
  T.downcaseChar_eq_ascii (by decide) T.slash h

/-! ## Keys -/

theorem caseKey_eq_map (value : Text) : T.caseKey value = value.map T.downcaseChar := by
  unfold caseKey
  split_ifs with h
  · refine List.map_congr_left fun c hc => (T.downcaseChar_ascii ?_).symm
    simpa [isAsciiChar] using List.all_eq_true.1 h c hc
  · rfl

@[simp] theorem caseKey_idem (value : Text) : T.caseKey (T.caseKey value) = T.caseKey value := by
  simp [caseKey_eq_map, downcaseChar_idem]

theorem slash_mem_caseKey {value : Text} : '/' ∈ T.caseKey value ↔ '/' ∈ value := by
  rw [caseKey_eq_map, List.mem_map]
  constructor
  · rintro ⟨c, hc, h⟩
    rwa [← T.downcaseChar_slash h]
  · intro h
    exact ⟨'/', h, T.downcaseChar_ascii (by decide)⟩

/-- The character map of `path_key`. -/
def keyChar (c : Char) : Char :=
  if T.downcaseChar c = '/' then '\\' else T.downcaseChar c

theorem pathKey_eq_map (value : Text) : T.pathKey value = value.map T.keyChar := by
  simp only [pathKey, caseKey_eq_map]
  split_ifs with h
  · rw [List.map_map]
    rfl
  · refine List.map_congr_left fun c hc => (if_neg fun hslash => h ?_).symm
    exact hslash ▸ List.mem_map_of_mem hc

theorem keyChar_ne_slash (c : Char) : T.keyChar c ≠ '/' := by
  unfold keyChar
  split_ifs with h
  · decide
  · exact h

theorem keyChar_idem (c : Char) : T.keyChar (T.keyChar c) = T.keyChar c := by
  unfold keyChar
  split_ifs with h h' h'
  · rfl
  · rw [T.downcaseChar_ascii (by decide)]
    rfl
  · exact absurd (T.downcaseChar_idem c ▸ h') h
  · exact T.downcaseChar_idem c

theorem slash_notMem_pathKey (value : Text) : '/' ∉ T.pathKey value := by
  rw [pathKey_eq_map, List.mem_map]
  rintro ⟨c, _, hc⟩
  exact T.keyChar_ne_slash c hc

/-- A key is a fixed point of the case mapping too. -/
@[simp] theorem caseKey_pathKey (value : Text) : T.caseKey (T.pathKey value) = T.pathKey value := by
  rw [caseKey_eq_map, pathKey_eq_map, List.map_map]
  refine List.map_congr_left fun c _ => ?_
  rw [Function.comp_apply, keyChar]
  split_ifs with h
  · exact T.downcaseChar_ascii (by decide)
  · exact T.downcaseChar_idem c

/-- Without a slash the key is only a case mapping. -/
theorem pathKey_of_slash_notMem {value : Text} (h : '/' ∉ value) :
    T.pathKey value = T.caseKey value := by
  rw [pathKey, if_neg (by rwa [slash_mem_caseKey])]

@[simp] theorem pathKey_idem (value : Text) : T.pathKey (T.pathKey value) = T.pathKey value := by
  simp [pathKey_eq_map, keyChar_idem]

end DowncaseTable

end Sunpack
