import Sunpack.Lib.Transcode
import Sunpack.PathKeys

/-!
# Names of archive items

How the name of an archive item becomes names below the output root, for the verifier
(`verification/paths.rs`, on UTF-8 strings) and for the worker (`sevenzip_callbacks.hpp`, on wide
strings). Tests on a single code unit are the same on both sides, so they are stated on its code.
-/

namespace Sunpack.OutputPaths

open Lib

/-! ## Encodings -/

/-- `std::wstring`, in UTF-16 units. -/
abbrev WString := List UInt16

/-- A wide character literal. -/
def wide (c : Char) : UInt16 := c.toNat.toUInt16

def utf16EncodeChar (c : Char) : WString :=
  if c.toNat < 0x10000 then [wide c]
  else [(0xD800 + (c.toNat - 0x10000) / 0x400).toUInt16,
    (0xDC00 + (c.toNat - 0x10000) % 0x400).toUInt16]

def utf16 (value : Text) : WString := encode utf16EncodeChar value

/-- `str::as_bytes`. -/
def asBytes (value : Text) : List UInt8 := encode String.utf8EncodeChar value

/-! ## Codes -/

def isSeparatorCode (n : Nat) : Bool := n == '/'.toNat || n == '\\'.toNat

def isTrailingCode (n : Nat) : Bool := n == '.'.toNat || n == ' '.toNat

def isInvalidNameCode (n : Nat) : Bool :=
  n < 0x20 || ['<', '>', ':', '"', '|', '?', '*'].any fun c => c.toNat == n

def isAsciiLetterCode (n : Nat) : Bool :=
  ('A'.toNat ≤ n && n ≤ 'Z'.toNat) || ('a'.toNat ≤ n && n ≤ 'z'.toNat)

def asciiLowerCode (n : Nat) : Nat := if 'A'.toNat ≤ n ∧ n ≤ 'Z'.toNat then n + 32 else n

/-- A letter and a colon. -/
def startsWithDrive : List Nat → Bool
  | a :: b :: _ => isAsciiLetterCode a && b == ':'.toNat
  | _ => false

/-- A device name, as codes. -/
def codesOf (name : String) : List Nat := name.toList.map Char.toNat

/-- CON, PRN, AUX, NUL, COM1 to COM9, LPT1 to LPT9. -/
def isDeviceStem : List Nat → Bool
  | [a, b, c] => ["con", "prn", "aux", "nul"].any fun name =>
      codesOf name == [asciiLowerCode a, asciiLowerCode b, asciiLowerCode c]
  | [a, b, c, d] => '1'.toNat ≤ d && d ≤ '9'.toNat && ["com", "lpt"].any fun name =>
      codesOf name == [asciiLowerCode a, asciiLowerCode b, asciiLowerCode c]
  | _ => false

/-- A device name is reserved with any extension, and with spaces before the extension. -/
def isReservedDeviceName (part : List Nat) : Bool :=
  isDeviceStem ((part.takeWhile fun n => !(n == '.'.toNat)).rdropWhile (· == ' '.toNat))

/-- What both sides make of one path part: invalid characters, trailing dots and trailing spaces
become underscores, and a reserved name gets one in front. -/
def safePathPart {α : Type} (invalid trailing : α → Bool) (underscore : α)
    (reserved : List α → Bool) (part : List α) : List α :=
  let mapped := part.map fun value => if invalid value then underscore else value
  let kept := mapped.rdropWhile trailing
  let mapped := kept ++ List.replicate (mapped.length - kept.length) underscore
  if reserved mapped then underscore :: mapped else mapped

/-! ## The worker -/

namespace Worker

def isWindowsInvalidNameChar (value : UInt16) : Bool := isInvalidNameCode value.toNat

def isWindowsReservedDeviceName (part : WString) : Bool :=
  isReservedDeviceName (part.map UInt16.toNat)

def makeWindowsSafePathPart (part : WString) : WString :=
  safePathPart isWindowsInvalidNameChar (fun value => isTrailingCode value.toNat) (wide '_')
    isWindowsReservedDeviceName part

/-- `is_absolute`, `has_root_name` or `has_root_directory` of `std::filesystem::path`: a separator or
a drive letter comes first. -/
def hasRoot (raw : WString) : Bool :=
  raw.head?.any (fun value => isSeparatorCode value.toNat) || startsWithDrive (raw.map UInt16.toNat)

/-- The elements of a relative path. A run of separators is one separator there; the empty elements
that this split has in addition are skipped with the others. -/
def pathElements (raw : WString) : List WString := raw.splitOnP fun value => isSeparatorCode value.toNat

def safeRelativeItemPath (raw : WString) : Option (List WString) :=
  if raw.isEmpty then none
  else if hasRoot raw then none
  else do
    let normalized ← (pathElements raw).foldlM (fun normalized text =>
      if text.isEmpty || text == [wide '.'] then some normalized
      else if text == [wide '.', wide '.'] then none
      else some (normalized ++ [makeWindowsSafePathPart text])) []
    if normalized.isEmpty then none else some normalized

/-- The names that `GetStream` takes for the output root. -/
def isRootName (name : WString) : Bool :=
  name == [wide '.'] || name == [wide '.', wide '/'] || name == [wide '.', wide '\\']

end Worker

/-! ## The verifier -/

namespace Verifier

def isSeparator (value : Char) : Bool := isSeparatorCode value.toNat

def unsafeArchivePath (raw : Text) : Bool :=
  raw.head?.any isSeparator ||
    startsWithDrive ((asBytes raw).map UInt8.toNat) ||
    (raw.splitOnP isSeparator).any (· == ['.', '.'])

def isWindowsInvalidNameChar (value : Char) : Bool := isInvalidNameCode value.toNat

def isWindowsReservedDeviceName (part : Text) : Bool :=
  isReservedDeviceName ((asBytes part).map UInt8.toNat)

def windowsOutputPartNeedsMapping (part : Text) : Bool :=
  part.any isWindowsInvalidNameChar || part.getLast?.any (fun value => isTrailingCode value.toNat) ||
    isWindowsReservedDeviceName part

/-- A dot and a space are one byte, so their number is a number of characters. -/
def windowsOutputPart (part : Text) : Text :=
  safePathPart isWindowsInvalidNameChar (fun value => isTrailingCode value.toNat) '_'
    isWindowsReservedDeviceName part

def join (parts : List Text) : Text := ['/'].intercalate parts

/-- A part that `clean_relative_archive_path` keeps. -/
def keepsPart (part : Text) : Bool := part != [] && part != ['.'] && part != ['.', '.']

def cleanRelativeArchivePath (value : Text) : Text :=
  if !value.contains '\\' && (value.splitOn '/').all keepsPart then value
  else
    let slashed := value.map fun c => if c = '\\' then '/' else c
    let trimmed := (slashed.dropWhile (· == '/')).rdropWhile (· == '/')
    join ((trimmed.splitOn '/').filter keepsPart)

def windowsOutputRelativePath (cleaned : Text) : Text :=
  if !(cleaned.splitOn '/').any windowsOutputPartNeedsMapping then cleaned
  else join ((cleaned.splitOn '/').map windowsOutputPart)

end Verifier

/-! ## The encodings are transparent for ASCII -/

theorem wide_toNat {c : Char} (h : c.toNat < 0x10000) : (wide c).toNat = c.toNat :=
  DowncaseTable.toUInt16_toNat (by omega)

theorem utf16_transparent : AsciiTransparent utf16EncodeChar UInt16.toNat where
  ascii c h := by
    refine ⟨wide c, ?_, wide_toNat (by omega)⟩
    rw [utf16EncodeChar, if_pos (by omega)]
  other c h := by
    rw [utf16EncodeChar]
    have hvalid : c.toNat.isValidChar := c.valid
    split_ifs with hlt
    · refine ⟨by simp, ?_⟩
      simp only [List.mem_singleton, forall_eq, wide_toNat hlt]
      exact h
    · simp only [Nat.isValidChar] at hvalid
      refine ⟨by simp, ?_⟩
      simp only [List.mem_cons, List.not_mem_nil, or_false, forall_eq_or_imp, forall_eq]
      rw [DowncaseTable.toUInt16_toNat (by omega), DowncaseTable.toUInt16_toNat (by omega)]
      omega

theorem utf8_transparent : AsciiTransparent String.utf8EncodeChar UInt8.toNat where
  ascii c h := by
    have hv : c.val.toNat = c.toNat := rfl
    refine ⟨UInt8.ofNat c.toNat, ?_, ?_⟩
    · simp only [String.utf8EncodeChar, hv]
      rw [if_pos (by omega)]
    · rw [UInt8.toNat_ofNat', Nat.mod_eq_of_lt (by omega)]
  other c h := by
    have hv : c.val.toNat = c.toNat := rfl
    simp only [String.utf8EncodeChar, hv]
    rw [if_neg (by omega)]
    split_ifs <;> simp [UInt8.toNat_ofNat'] <;> omega

/-- The units of one character tell it apart from every other character. -/
theorem utf16EncodeChar_append {c d : Char} {l l' : WString}
    (h : utf16EncodeChar c ++ l = utf16EncodeChar d ++ l') : c = d ∧ l = l' := by
  have hc : c.toNat.isValidChar := c.valid
  have hd : d.toNat.isValidChar := d.valid
  simp only [Nat.isValidChar] at hc hd
  rw [← Char.toNat_inj]
  unfold utf16EncodeChar at h
  split_ifs at h with hlt hlt' hlt'
  · rw [List.singleton_append, List.singleton_append, List.cons.injEq, ← UInt16.toNat_inj,
      wide_toNat hlt, wide_toNat hlt'] at h
    exact h
  -- a character of the basic plane is not a half of a surrogate pair
  · simp only [List.cons_append, List.cons.injEq, ← UInt16.toNat_inj] at h
    rw [wide_toNat hlt, DowncaseTable.toUInt16_toNat (by omega)] at h
    omega
  · simp only [List.cons_append, List.cons.injEq, ← UInt16.toNat_inj] at h
    rw [wide_toNat hlt', DowncaseTable.toUInt16_toNat (by omega)] at h
    omega
  · simp only [List.cons_append, List.nil_append, List.cons.injEq, ← UInt16.toNat_inj] at h
    rw [DowncaseTable.toUInt16_toNat (by omega), DowncaseTable.toUInt16_toNat (by omega),
      DowncaseTable.toUInt16_toNat (by omega), DowncaseTable.toUInt16_toNat (by omega)] at h
    exact ⟨by omega, h.2.2⟩

theorem utf16_injective : Function.Injective utf16 := by
  intro a b h
  induction a generalizing b with
  | nil => exact (utf16_transparent.encode_eq_nil.1 h.symm).symm
  | cons c a ih =>
    cases b with
    | nil => exact utf16_transparent.encode_eq_nil.1 h
    | cons d b =>
      obtain ⟨rfl, htail⟩ := utf16EncodeChar_append h
      rw [ih htail]

theorem utf16_beq (a b : Text) : (utf16 a == utf16 b) = (a == b) := by
  rw [Bool.eq_iff_iff, beq_iff_eq, beq_iff_eq]
  exact utf16_injective.eq_iff

theorem utf16_of_basic {value : Text} (h : ∀ c ∈ value, c.toNat < 0x10000) :
    utf16 value = value.map wide := by
  induction value with
  | nil => rfl
  | cons c value ih =>
    rw [utf16, encode_cons, utf16EncodeChar, if_pos (h c List.mem_cons_self), List.map_cons,
      List.singleton_append, ← ih fun d hd => h d (List.mem_cons_of_mem _ hd), utf16]

/-- Looking for an ASCII character. -/
theorem compat_utf16 {c : Char} (hc : c.toNat < 128) :
    Compat utf16EncodeChar (· == c) (· == wide c) := by
  have h := utf16_transparent.compat (P := (· == c.toNat)) fun n hn => by
    rwa [eq_of_beq hn]
  have hchar : (fun d : Char => d.toNat == c.toNat) = (· == c) := by
    funext d
    rw [Bool.eq_iff_iff, beq_iff_eq, beq_iff_eq, Char.toNat_inj]
  have hunit : (fun u : UInt16 => u.toNat == c.toNat) = (· == wide c) := by
    funext u
    rw [Bool.eq_iff_iff, beq_iff_eq, beq_iff_eq, ← UInt16.toNat_inj, wide_toNat (by omega)]
  rwa [hchar, hunit] at h

/-! ## Tests on codes -/

theorem beq_code_lt {c : Char} (hc : c.toNat < 128) (n : Nat) (h : (n == c.toNat) = true) :
    n < 128 := by
  rwa [eq_of_beq h]

theorem isSeparatorCode_lt (n : Nat) (h : isSeparatorCode n = true) : n < 128 := by
  rcases Bool.or_eq_true_iff.1 h with h | h
  · exact beq_code_lt (by decide) n h
  · exact beq_code_lt (by decide) n h

theorem isTrailingCode_lt (n : Nat) (h : isTrailingCode n = true) : n < 128 := by
  rcases Bool.or_eq_true_iff.1 h with h | h
  · exact beq_code_lt (by decide) n h
  · exact beq_code_lt (by decide) n h

theorem isInvalidNameCode_lt (n : Nat) (h : isInvalidNameCode n = true) : n < 128 := by
  rcases Bool.or_eq_true_iff.1 h with h | h
  · have hlt : n < 0x20 := of_decide_eq_true h
    omega
  · obtain ⟨c, hc, heq⟩ := List.any_eq_true.1 h
    rw [← eq_of_beq heq]
    simp only [List.mem_cons, List.not_mem_nil, or_false] at hc
    rcases hc with rfl | rfl | rfl | rfl | rfl | rfl | rfl <;> decide

/-! ## Parts -/

theorem isDeviceStem_ascii (stem : List Nat) (h : isDeviceStem stem = true) :
    ∀ n ∈ stem, n < 128 := by
  have hlower {n m : Nat} (h : asciiLowerCode n = m) (hm : m < 128) : n < 128 := by
    unfold asciiLowerCode at h
    split_ifs at h <;> omega
  have hnames {names : List String} (hall : ∀ name ∈ names, ∀ n ∈ codesOf name, n < 128)
      {a b c : Nat} (hany : (names.any fun name =>
        codesOf name == [asciiLowerCode a, asciiLowerCode b, asciiLowerCode c]) = true) :
      a < 128 ∧ b < 128 ∧ c < 128 := by
    obtain ⟨name, hname, heq⟩ := List.any_eq_true.1 hany
    have hcodes := hall name hname
    rw [eq_of_beq heq] at hcodes
    exact ⟨hlower rfl (hcodes _ (by simp)), hlower rfl (hcodes _ (by simp)),
      hlower rfl (hcodes _ (by simp))⟩
  unfold isDeviceStem at h
  split at h
  · obtain ⟨ha, hb, hc⟩ := hnames (by decide) h
    simp [ha, hb, hc]
  · rw [Bool.and_eq_true, Bool.and_eq_true, decide_eq_true_eq] at h
    obtain ⟨ha, hb, hc⟩ := hnames (by decide) h.2
    have hd : _ ≤ '9'.toNat := of_decide_eq_true h.1.2
    have hnine : '9'.toNat = 57 := rfl
    simp [ha, hb, hc]
    omega
  · exact absurd h (by simp)

/-- The same names are reserved in both encodings. -/
theorem isReservedDeviceName_codes {β : Type} {enc : Char → List β} {code : β → Nat}
    (h : AsciiTransparent enc code) (part : Text) :
    isReservedDeviceName ((encode enc part).map code) =
      isReservedDeviceName (part.map Char.toNat) := by
  have hstem {enc : Char → List Nat} (h : AsciiTransparent enc id) :
      isReservedDeviceName (encode enc part) =
        isDeviceStem (((part.takeWhile fun c => !(c.toNat == '.'.toNat)).rdropWhile
          fun c => c.toNat == ' '.toNat).map Char.toNat) := by
    have hdot : Compat enc (fun c => c.toNat == '.'.toNat) (· == '.'.toNat) :=
      h.compat (beq_code_lt (by decide))
    have hspace : Compat enc (fun c => c.toNat == ' '.toNat) (· == ' '.toNat) :=
      h.compat (beq_code_lt (by decide))
    rw [isReservedDeviceName, hdot.takeWhile_not, hspace.rdropWhile]
    simpa using h.test_codes isDeviceStem_ascii _
  rw [encode_codes, hstem h.codes, ← hstem AsciiTransparent.toNat, encode_toNat]

/-- The mapping of a part commutes with the encoding. -/
theorem safePathPart_encode {α β : Type} {enc : α → List β} {invalid trailing : α → Bool}
    {invalid' trailing' : β → Bool} {underscore : α} {underscore' : β}
    {reserved : List α → Bool} {reserved' : List β → Bool} (hinvalid : Compat enc invalid invalid')
    (htrailing : Compat enc trailing trailing') (hunderscore : enc underscore = [underscore'])
    (hreserved : ∀ l, reserved' (encode enc l) = reserved l) (part : List α) :
    safePathPart invalid' trailing' underscore' reserved' (encode enc part) =
      encode enc (safePathPart invalid trailing underscore reserved part) := by
  have hmap : (encode enc part).map (fun value => if invalid' value then underscore' else value) =
      encode enc (part.map fun value => if invalid value then underscore else value) := by
    refine encode_map enc (fun a => ?_) part
    cases ha : invalid a with
    | true =>
      obtain ⟨b, hb, hq⟩ := hinvalid.single a ha
      simp [hb, hq, hunderscore]
    | false =>
      rw [if_neg (by simp), List.map_congr_left (g := id), List.map_id]
      exact fun b hb => if_neg (by simp [(hinvalid.other a ha).2 b hb])
  have hreplicate (n : Nat) : encode enc (List.replicate n underscore) =
      List.replicate n underscore' := by
    induction n with
    | zero => rfl
    | succ n ih => rw [List.replicate_succ, List.replicate_succ, encode_cons, hunderscore, ih,
        List.singleton_append]
  simp only [safePathPart]
  rw [hmap, htrailing.rdropWhile, htrailing.length_sub_rdropWhile, ← hreplicate, ← encode_append,
    hreserved]
  split_ifs
  · rw [encode_cons, hunderscore, List.singleton_append]
  · rfl

/-- Both sides map a part to the same name. -/
theorem utf16_windowsOutputPart (part : Text) :
    utf16 (Verifier.windowsOutputPart part) = Worker.makeWindowsSafePathPart (utf16 part) := by
  refine (safePathPart_encode (utf16_transparent.compat isInvalidNameCode_lt)
    (utf16_transparent.compat isTrailingCode_lt) rfl (fun l => ?_) part).symm
  rw [Worker.isWindowsReservedDeviceName, Verifier.isWindowsReservedDeviceName, asBytes,
    isReservedDeviceName_codes utf16_transparent, isReservedDeviceName_codes utf8_transparent]

end Sunpack.OutputPaths
