import Sunpack.OutputPaths.Allocator
import Sunpack.OutputPaths.Names

/-!
# File names

The names that items can get: `FileName` carries what makes a name usable in both representations of
a path. Numbered variants and case keys of the worker's wide names are those of the file names,
written in UTF-16.
-/

namespace Sunpack.OutputPaths

open Lib

/-! ## Numbered names -/

/-- A name at its last dot, unless the dot is the first character. -/
def splitExtension {α : Type} [BEq α] (dot : α) (name : List α) : List α × List α :=
  match splitLast (· == dot) name with
  | some (stem, extension) => if stem.isEmpty then (name, []) else (stem, dot :: extension)
  | none => (name, [])

namespace Worker

/-- `path::stem` and `path::extension` of a file name. -/
def stemAndExtension (name : WString) : WString × WString :=
  if name == [wide '.', wide '.'] then (name, []) else splitExtension (wide '.') name

/-- `std::to_wstring`, in parentheses. -/
def number (n : Nat) : WString :=
  wide '(' :: (Nat.toDigits 10 n).map wide ++ [wide ')']

def numberedName (isDirectory : Bool) (name : WString) (n : Nat) : WString :=
  let (stem, extension) := if isDirectory then (name, []) else stemAndExtension name
  stem ++ number n ++ extension

def lowerText (T : DowncaseTable) (value : WString) : WString :=
  value.map fun ch =>
    if ch.toNat < 128 then (if 'A'.toNat ≤ ch.toNat ∧ ch.toNat ≤ 'Z'.toNat then ch + 32 else ch)
    else T.unit ch

end Worker

namespace Verifier

/-- The number that `format!` puts in. -/
def number (n : Nat) : Text := '(' :: Nat.toDigits 10 n ++ [')']

end Verifier

/-! ## File names -/

/-- A name that the worker can give to a file or a directory. -/
structure FileName where
  text : Text
  ne_nil : text ≠ []
  slash : '/' ∉ text
  dots : text ≠ ['.', '.']

/-- The case key of a file name. -/
structure FileKey where
  text : Text
  ne_nil : text ≠ []
  slash : '/' ∉ text
deriving DecidableEq

theorem FileKey.text_injective : Function.Injective FileKey.text := by
  rintro ⟨a, _, _⟩ ⟨b, _, _⟩ rfl
  rfl

theorem number_injective : Function.Injective Verifier.number := by
  intro m n h
  have hdigits : Nat.toDigits 10 m = Nat.toDigits 10 n := by simpa [Verifier.number] using h
  rw [← @Nat.ofDigitChars_ten_toDigits m, hdigits, Nat.ofDigitChars_ten_toDigits]

/-- A number holds digits and parentheses. -/
theorem mem_number {n : Nat} {c : Char} (h : c ∈ Verifier.number n) :
    c = '(' ∨ c = ')' ∨ c.isDigit := by
  simp only [Verifier.number, List.cons_append, List.mem_cons, List.mem_append, List.not_mem_nil,
    or_false] at h
  rcases h with h | h | h
  · exact .inl h
  · exact .inr (.inr (Nat.isDigit_of_mem_toDigits (by decide) (by decide) h))
  · exact .inr (.inl h)

theorem number_ascii {n : Nat} {c : Char} (h : c ∈ Verifier.number n) : c.toNat < 128 := by
  rcases mem_number h with rfl | rfl | hc
  · decide
  · decide
  · simp only [Char.isDigit, Bool.and_eq_true, decide_eq_true_eq, UInt32.le_iff_toNat_le] at hc
    have hle : c.toNat ≤ 57 := hc.2
    omega

theorem toLower_number {n : Nat} {c : Char} (h : c ∈ Verifier.number n) : c.toLower = c := by
  rcases mem_number h with rfl | rfl | hc
  · decide
  · decide
  · simp only [Char.isDigit, Bool.and_eq_true, decide_eq_true_eq, UInt32.le_iff_toNat_le] at hc
    have hge : 48 ≤ c.toNat := hc.1
    have hle : c.toNat ≤ 57 := hc.2
    have hall : ∀ n < 58, 48 ≤ n → (Char.ofNat n).toLower = Char.ofNat n := by decide
    simpa using hall c.toNat (by omega) hge

/-- `name(n)`, before the extension of a file. -/
def numberedText (isDirectory : Bool) (name : Text) (n : Nat) : Text :=
  let (stem, extension) := if isDirectory then (name, []) else splitExtension '.' name
  stem ++ Verifier.number n ++ extension

theorem splitExtension_append (name : Text) :
    (splitExtension '.' name).1 ++ (splitExtension '.' name).2 = name := by
  rw [splitExtension]
  split
  · rename_i stem extension h
    obtain ⟨dot, hdot, rfl, _⟩ := splitLast_some h
    obtain rfl := eq_of_beq hdot
    split_ifs
    · simp
    · rfl
  · simp

/-- The parts around the number. -/
theorem exists_numberedText (isDirectory : Bool) (name : Text) : ∃ stem extension,
    stem ++ extension = name ∧
      ∀ n, numberedText isDirectory name n = stem ++ Verifier.number n ++ extension := by
  cases isDirectory with
  | true => exact ⟨name, [], by simp, fun n => rfl⟩
  | false => exact ⟨_, _, splitExtension_append name, fun n => rfl⟩

namespace FileName

def numbered (isDirectory : Bool) (name : FileName) (n : Nat) : FileName where
  text := numberedText isDirectory name.text n
  ne_nil := by
    obtain ⟨stem, extension, _, h⟩ := exists_numberedText isDirectory name.text
    simp [h, Verifier.number]
  slash := by
    obtain ⟨stem, extension, hname, h⟩ := exists_numberedText isDirectory name.text
    have hslash := name.slash
    rw [← hname, List.mem_append, not_or] at hslash
    rw [h, List.mem_append, List.mem_append]
    rintro ((hs | hn) | he)
    · exact hslash.1 hs
    · rcases mem_number hn with hc | hc | hc
      · exact absurd hc (by decide)
      · exact absurd hc (by decide)
      · exact absurd hc (by decide)
    · exact hslash.2 he
  dots := by
    obtain ⟨stem, extension, _, h⟩ := exists_numberedText isDirectory name.text
    intro heq
    have hparen : '(' ∈ numberedText isDirectory name.text n := by simp [h, Verifier.number]
    rw [heq] at hparen
    exact absurd hparen (by decide)

variable (T : DowncaseTable)

def key (name : FileName) : FileKey where
  text := T.caseKey name.text
  ne_nil := by simpa [DowncaseTable.caseKey_eq_map] using name.ne_nil
  slash := by rw [DowncaseTable.slash_mem_caseKey]; exact name.slash

/-- A number is its own key. -/
theorem caseKey_number (n : Nat) : T.caseKey (Verifier.number n) = Verifier.number n := by
  rw [DowncaseTable.caseKey_eq_map]
  refine (List.map_congr_left (g := id) fun c hc => ?_).trans (List.map_id _)
  rw [T.downcaseChar_ascii (number_ascii hc), toLower_number hc, id]

def naming : Naming FileName FileKey where
  key := key T
  numbered := numbered
  numbered_inj isDirectory name m n h := by
    obtain ⟨stem, extension, _, heq⟩ := exists_numberedText isDirectory name.text
    have htext : T.caseKey (numberedText isDirectory name.text m) =
        T.caseKey (numberedText isDirectory name.text n) := congrArg FileKey.text h
    rw [heq, heq] at htext
    simp only [DowncaseTable.caseKey_eq_map, List.map_append] at htext
    have hnumber := List.append_cancel_left (List.append_cancel_right htext)
    simp only [← DowncaseTable.caseKey_eq_map, caseKey_number] at hnumber
    exact number_injective hnumber

end FileName

/-! ## The worker's allocator is an image -/

section Worker

variable (T : DowncaseTable)

theorem Worker.lowerText_eq (value : WString) : Worker.lowerText T value = value.map T.unit := by
  refine List.map_congr_left fun ch _ => ?_
  by_cases hascii : ch.toNat < 128
  · have hunit := T.ascii (Char.ofNat ch.toNat)
    have hlower := lower_ascii_unit ch.toNat hascii
    have hchar : (Char.ofNat ch.toNat).toNat = ch.toNat :=
      (Char.toNat_ofNat _).trans (if_pos (.inl (by omega)))
    rw [hchar, ← hlower, DowncaseTable.toUInt16_of_toNat] at hunit
    rw [if_pos hascii, hunit hascii]
    rfl
  · rw [if_neg hascii]

/-- The key of a wide name is the case key of the name. -/
theorem lowerText_utf16 (name : Text) :
    Worker.lowerText T (utf16 name) = utf16 (T.caseKey name) := by
  rw [Worker.lowerText_eq, DowncaseTable.caseKey_eq_map]
  refine encode_map utf16EncodeChar (fun c => ?_) name
  by_cases hc : c.toNat < 0x10000
  · have hkey := T.toNat_downcaseChar (c := c) (by omega)
    have hlt := (T.unit c.toNat.toUInt16).toNat_lt
    rw [utf16EncodeChar, if_pos hc, utf16EncodeChar, if_pos (by omega), List.map_singleton, wide,
      wide, hkey, DowncaseTable.toUInt16_of_toNat]
  · have hvalid : c.toNat.isValidChar := c.valid
    simp only [Nat.isValidChar] at hvalid
    have hfixed (n : Nat) (h : 0xD800 ≤ n) (h' : n < 0xE000) :
        T.unit n.toUInt16 = n.toUInt16 := by
      refine T.surrogate _ ?_
      rw [isSurrogate, DowncaseTable.toUInt16_toNat (by omega)]
      simp [h, h']
    rw [T.downcaseChar_astral (by omega), utf16EncodeChar, if_neg hc, List.map_cons,
      List.map_singleton, hfixed _ (by omega) (by omega), hfixed _ (by omega) (by omega)]

theorem Worker.number_eq (n : Nat) : Worker.number n = utf16 (Verifier.number n) := by
  rw [utf16_of_basic fun c hc => ?_]
  · simp [Worker.number, Verifier.number]
  · have := number_ascii hc
    omega

theorem splitExtension_utf16 (name : Text) : splitExtension (wide '.') (utf16 name) =
    (utf16 (splitExtension '.' name).1, utf16 (splitExtension '.' name).2) := by
  have hdot : utf16EncodeChar '.' = [wide '.'] := rfl
  rw [splitExtension, splitExtension, utf16, (compat_utf16 (c := '.') (by decide)).splitLast]
  cases splitLast (· == '.') name with
  | none => rfl
  | some r =>
    obtain ⟨stem, extension⟩ := r
    have hempty : (encode utf16EncodeChar stem).isEmpty = stem.isEmpty := by
      rw [Bool.eq_iff_iff, List.isEmpty_iff, List.isEmpty_iff]
      exact utf16_transparent.encode_eq_nil
    simp only [Option.map_some, hempty]
    split_ifs
    · rfl
    · simp [utf16, hdot]

theorem numberedName_utf16 (isDirectory : Bool) {name : Text} (h : name ≠ ['.', '.'])
    (n : Nat) : Worker.numberedName isDirectory (utf16 name) n =
      utf16 (numberedText isDirectory name n) := by
  have hdots : (utf16 name == [wide '.', wide '.']) = false := by
    rw [show [wide '.', wide '.'] = utf16 ['.', '.'] from rfl, utf16_beq]
    exact beq_false_of_ne h
  cases isDirectory with
  | true =>
    simp only [Worker.numberedName, numberedText, if_true, Worker.number_eq]
    simp [utf16]
  | false =>
    simp only [Worker.numberedName, numberedText, Bool.false_eq_true, if_false,
      Worker.stemAndExtension, hdots, splitExtension_utf16, Worker.number_eq]
    simp [utf16]

/-- The names of the worker. -/
def wideNaming : Naming WString WString where
  key := Worker.lowerText T
  numbered := Worker.numberedName
  numbered_inj isDirectory name m n h := by
    have hkey : Worker.lowerText T (Worker.number m) = Worker.lowerText T (Worker.number n) := by
      simp only [Worker.lowerText, Worker.numberedName, List.map_append] at h
      exact List.append_cancel_left (List.append_cancel_right h)
    rw [Worker.number_eq, Worker.number_eq, lowerText_utf16, lowerText_utf16,
      FileName.caseKey_number, FileName.caseKey_number] at hkey
    exact number_injective (utf16_injective hkey)

def wideRenaming : OutputPathAllocator.Renaming (FileName.naming T) (wideNaming T) where
  name x := utf16 x.text
  key k := utf16 k.text
  key_injective := utf16_injective.comp FileKey.text_injective
  key_name x := lowerText_utf16 T x.text
  numbered_name isDirectory x n := numberedName_utf16 isDirectory x.dots n

end Worker

end Sunpack.OutputPaths
