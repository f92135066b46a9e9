import Sunpack.OutputPaths.Agreement

/-!
# Names that Windows keeps

`OutputName` says what a name below the output root is like. Mapping a part makes such a name, a
number keeps it one, and so does the case mapping: names that are equal up to case are usable
together.
-/

namespace Sunpack.OutputPaths

open Lib

/-! ## Device names -/

/-- The codes of the characters in device names. -/
def isDeviceCode (n : Nat) : Bool :=
  (codesOf "conprnauxnulcomlpt123456789").contains (asciiLowerCode n)

theorem isDeviceStem_codes (stem : List Nat) (h : isDeviceStem stem = true) :
    ∀ n ∈ stem, isDeviceCode n = true := by
  have hnames {names : List String} (hall : ∀ name ∈ names, ∀ n ∈ codesOf name,
      (codesOf "conprnauxnulcomlpt123456789").contains n = true) {a b c : Nat}
      (hany : (names.any fun name =>
        codesOf name == [asciiLowerCode a, asciiLowerCode b, asciiLowerCode c]) = true) :
      isDeviceCode a = true ∧ isDeviceCode b = true ∧ isDeviceCode c = true := by
    obtain ⟨name, hname, heq⟩ := List.any_eq_true.1 hany
    have hcodes := hall name hname
    rw [eq_of_beq heq] at hcodes
    exact ⟨hcodes _ (by simp), hcodes _ (by simp), hcodes _ (by simp)⟩
  unfold isDeviceStem at h
  split at h
  · obtain ⟨ha, hb, hc⟩ := hnames (by decide) h
    simp [ha, hb, hc]
  · rw [Bool.and_eq_true, Bool.and_eq_true, decide_eq_true_eq, decide_eq_true_eq] at h
    obtain ⟨ha, hb, hc⟩ := hnames (by decide) h.2
    have hdigit : ∀ d < 58, 49 ≤ d → isDeviceCode d = true := by decide
    have hd := hdigit _ (Nat.lt_succ_of_le h.1.2) h.1.1
    simp [ha, hb, hc, hd]
  · exact absurd h (by simp)

theorem isDeviceStem_of_mem {stem : List Nat} {n : Nat} (hmem : n ∈ stem)
    (hn : isDeviceCode n = false) : isDeviceStem stem = false := by
  rw [Bool.eq_false_iff]
  intro h
  exact absurd (isDeviceStem_codes stem h n hmem) (by simp [hn])

theorem isWindowsReservedDeviceName_eq (part : Text) :
    Verifier.isWindowsReservedDeviceName part = isReservedDeviceName (part.map Char.toNat) :=
  isReservedDeviceName_codes utf8_transparent part

/-- A dot is looked for in what comes first. -/
theorem isReservedDeviceName_append {before : List Nat} (h : '.'.toNat ∈ before)
    (after after' : List Nat) :
    isReservedDeviceName (before ++ after) = isReservedDeviceName (before ++ after') := by
  have hstem (l : List Nat) : (before ++ l).takeWhile (fun n => !(n == '.'.toNat)) =
      before.takeWhile fun n => !(n == '.'.toNat) := by
    rw [List.takeWhile_append, if_neg]
    intro hlength
    have hall := List.takeWhile_eq_self_iff.1
      ((List.takeWhile_prefix fun n => !(n == '.'.toNat)).eq_of_length hlength)
    exact absurd (hall _ h) (by simp)
  rw [isReservedDeviceName, isReservedDeviceName, hstem, hstem]

/-! ## Names below the output root -/

/-- A name of a file or directory on Windows. -/
structure OutputName (name : Text) : Prop where
  ne_nil : name ≠ []
  ne_dot : name ≠ ['.']
  ne_dots : name ≠ ['.', '.']
  slash : '/' ∉ name
  valid : ∀ c ∈ name, Verifier.isWindowsInvalidNameChar c = false
  last : ∀ c, name.getLast? = some c → isTrailingCode c.toNat = false
  device : Verifier.isWindowsReservedDeviceName name = false

/-- A name that does not end in a dot is not made of dots. -/
theorem OutputName.of_last {name : Text} (ne_nil : name ≠ []) (slash : '/' ∉ name)
    (valid : ∀ c ∈ name, Verifier.isWindowsInvalidNameChar c = false)
    (last : ∀ c, name.getLast? = some c → isTrailingCode c.toNat = false)
    (device : Verifier.isWindowsReservedDeviceName name = false) : OutputName name := by
  refine ⟨ne_nil, ?_, ?_, slash, valid, last, device⟩
  · intro heq
    exact absurd (last '.' (by rw [heq]; rfl)) (by decide)
  · intro heq
    exact absurd (last '.' (by rw [heq]; rfl)) (by decide)

theorem valid_safePathPart {α : Type} {invalid trailing : α → Bool} {underscore : α}
    {reserved : List α → Bool} {part : List α} (hunderscore : invalid underscore = false) {c : α}
    (h : c ∈ safePathPart invalid trailing underscore reserved part) : invalid c = false := by
  have hmapped {c : α} (h : c ∈ part.map fun value => if invalid value then underscore else value) :
      invalid c = false := by
    obtain ⟨d, _, rfl⟩ := List.mem_map.1 h
    split_ifs with hd
    · exact hunderscore
    · exact Bool.eq_false_iff.2 hd
  have hkept {n : Nat} (h : c ∈ (part.map fun value => if invalid value then underscore else
      value).rdropWhile trailing ++ List.replicate n underscore) : invalid c = false := by
    rcases List.mem_append.1 h with h | h
    · exact hmapped ((List.rdropWhile_prefix trailing _).subset h)
    · rw [List.eq_of_mem_replicate h]
      exact hunderscore
  simp only [safePathPart] at h
  split_ifs at h
  · rcases List.mem_cons.1 h with rfl | h
    · exact hunderscore
    · exact hkept h
  · exact hkept h

/-- The part that the mapping makes is not reserved: an underscore in front is enough. -/
theorem not_reserved_safePathPart (part : Text) :
    Verifier.isWindowsReservedDeviceName (Verifier.windowsOutputPart part) = false := by
  have hfront (name : Text) : Verifier.isWindowsReservedDeviceName ('_' :: name) = false := by
    rw [isWindowsReservedDeviceName_eq, isReservedDeviceName, List.map_cons,
      List.takeWhile_cons_of_pos (by decide)]
    refine isDeviceStem_of_mem (n := '_'.toNat) ?_ (by decide)
    -- trailing spaces are taken from what follows the underscore
    have hkeep (l : List Nat) : '_'.toNat ∈ ('_'.toNat :: l).rdropWhile (· == ' '.toNat) := by
      induction l using List.reverseRecOn with
      | nil => decide
      | append_singleton l n ih =>
        rw [← List.cons_append]
        by_cases hn : (n == ' '.toNat) = true
        · rwa [List.rdropWhile_concat_pos (· == ' '.toNat) _ _ hn]
        · rw [List.rdropWhile_concat_neg (· == ' '.toNat) _ _ hn]
          exact List.mem_append_left _ List.mem_cons_self
    exact hkeep _
  rw [Verifier.windowsOutputPart, safePathPart]
  split_ifs with h
  · exact hfront _
  · exact Bool.eq_false_iff.2 h

/-- The mapping makes a name of every part. -/
theorem OutputName.of_part {part : Text} (h : part ≠ []) (hslash : '/' ∉ part) :
    OutputName (Verifier.windowsOutputPart part) := by
  refine .of_last (safePathPart_ne_nil h) (fun hmem => ?_)
    (fun c hc => valid_safePathPart (by decide) hc) (fun c hc => ?_)
    (not_reserved_safePathPart part)
  · rcases mem_safePathPart hmem with heq | hmem
    · exact absurd heq (by decide)
    · exact hslash hmem
  · obtain ⟨before, hbefore⟩ := List.getLast?_eq_some_iff.1 hc
    rw [Verifier.windowsOutputPart] at hbefore
    have hlast := safePathPart_last (by decide) hbefore
    exact hlast

theorem OutputName.not_needsMapping {name : Text} (h : OutputName name) :
    Verifier.windowsOutputPartNeedsMapping name = false := by
  simp only [Verifier.windowsOutputPartNeedsMapping, Bool.or_eq_false_iff, h.device, and_true]
  refine ⟨List.any_eq_false.2 fun c hc => by simp [h.valid c hc], ?_⟩
  rw [Bool.eq_false_iff, ne_eq, Option.any_eq_true_iff_get]
  rintro ⟨hsome, hlast⟩
  rw [h.last _ (Option.some_get hsome).symm] at hlast
  exact absurd hlast (by simp)

/-! ## Numbers -/

theorem isDeviceCode_number {n : Nat} : '('.toNat ∈ (Verifier.number n).map Char.toNat :=
  List.mem_map_of_mem List.mem_cons_self

/-- A number before the extension does not make a device name. -/
theorem not_reserved_number {before after : Text} (n : Nat)
    (h : Verifier.isWindowsReservedDeviceName (before ++ after) = false)
    (hafter : after = [] ∨ ∃ extension, after = '.' :: extension) :
    Verifier.isWindowsReservedDeviceName (before ++ Verifier.number n ++ after) = false := by
  rw [isWindowsReservedDeviceName_eq, List.map_append] at h
  rw [isWindowsReservedDeviceName_eq, List.map_append, List.map_append]
  by_cases hdot : '.'.toNat ∈ before.map Char.toNat
  · rw [List.append_assoc, isReservedDeviceName_append hdot _ (after.map Char.toNat)]
    exact h
  · -- the stem ends with the number
    have hdots : ∀ c ∈ before.map Char.toNat ++ (Verifier.number n).map Char.toNat,
        (!(c == '.'.toNat)) = true := by
      intro c hc
      rw [Bool.not_eq_true', beq_eq_false_iff_ne]
      rintro rfl
      rcases List.mem_append.1 hc with hc | hc
      · exact hdot hc
      · obtain ⟨d, hd, heq⟩ := List.mem_map.1 hc
        rw [Char.toNat_inj] at heq
        subst heq
        rcases mem_number hd with hd | hd | hd
        · exact absurd hd (by decide)
        · exact absurd hd (by decide)
        · exact absurd hd (by decide)
    have hstem : (before.map Char.toNat ++ (Verifier.number n).map Char.toNat ++
        after.map Char.toNat).takeWhile (fun c => !(c == '.'.toNat)) =
          before.map Char.toNat ++ (Verifier.number n).map Char.toNat := by
      rw [List.takeWhile_append_of_pos hdots]
      rcases hafter with rfl | ⟨extension, rfl⟩
      · rw [List.map_nil, List.takeWhile_nil, List.append_nil]
      · rw [List.map_cons, List.takeWhile_cons_of_neg (by decide), List.append_nil]
    have hlast : before.map Char.toNat ++ (Verifier.number n).map Char.toNat =
        before.map Char.toNat ++ ('(' :: Nat.toDigits 10 n).map Char.toNat ++ [')'.toNat] := by
      simp [Verifier.number]
    rw [isReservedDeviceName, hstem, hlast,
      List.rdropWhile_concat_neg (· == ' '.toNat) _ _ (by decide), ← hlast]
    exact isDeviceStem_of_mem (List.mem_append_right _ isDeviceCode_number) (by decide)

theorem splitExtension_cases (name : Text) :
    (splitExtension '.' name).2 = [] ∨ ∃ extension, (splitExtension '.' name).2 = '.' :: extension := by
  rw [splitExtension]
  split
  · split_ifs
    · exact .inl rfl
    · exact .inr ⟨_, rfl⟩
  · exact .inl rfl

theorem number_plain {n : Nat} {c : Char} (hc : c ∈ Verifier.number n) :
    c ≠ '/' ∧ Verifier.isWindowsInvalidNameChar c = false := by
  have hdigit : ∀ m < 58, 48 ≤ m → m ≠ '/'.toNat ∧ isInvalidNameCode m = false := by decide
  rcases mem_number hc with rfl | rfl | hc
  · decide
  · decide
  · simp only [Char.isDigit, Bool.and_eq_true, decide_eq_true_eq, UInt32.le_iff_toNat_le] at hc
    have hge : 48 ≤ c.toNat := hc.1
    have hle : c.toNat ≤ 57 := hc.2
    obtain ⟨hslash, hvalid⟩ := hdigit c.toNat (by omega) hge
    exact ⟨fun heq => hslash (congrArg Char.toNat heq), hvalid⟩

theorem getLast?_number (n : Nat) : (Verifier.number n).getLast? = some ')' :=
  List.getLast?_concat

/-- A number alone is a name. -/
theorem OutputName.number (n : Nat) : OutputName (Verifier.number n) := by
  refine .of_last (List.cons_ne_nil _ _) (fun hmem => (number_plain hmem).1 rfl)
    (fun c hc => (number_plain hc).2) (fun c hc => ?_) ?_
  · rw [getLast?_number] at hc
    rw [← Option.some.inj hc]
    decide
  · have h := @not_reserved_number [] [] n (by decide) (.inl rfl)
    rwa [List.nil_append, List.append_nil] at h

/-- Numbering keeps a name a name. -/
theorem OutputName.numbered {name : Text} (h : OutputName name) (isDirectory : Bool) (n : Nat) :
    OutputName (numberedText isDirectory name n) := by
  obtain ⟨before, after, hname, heq, hafter⟩ : ∃ before after, before ++ after = name ∧
      numberedText isDirectory name n = before ++ Verifier.number n ++ after ∧
        (after = [] ∨ ∃ extension, after = '.' :: extension) := by
    cases isDirectory with
    | true => exact ⟨name, [], List.append_nil _, rfl, .inl rfl⟩
    | false => exact ⟨_, _, splitExtension_append name, rfl, splitExtension_cases name⟩
  subst hname
  rw [heq]
  have hnumber := @number_plain n
  refine .of_last (by simp [Verifier.number]) (fun hmem => ?_) (fun c hc => ?_) (fun c hc => ?_)
    (not_reserved_number n h.device hafter)
  · rcases List.mem_append.1 hmem with hmem | hmem
    · rcases List.mem_append.1 hmem with hmem | hmem
      · exact h.slash (List.mem_append_left _ hmem)
      · exact (hnumber hmem).1 rfl
    · exact h.slash (List.mem_append_right _ hmem)
  · rcases List.mem_append.1 hc with hc | hc
    · rcases List.mem_append.1 hc with hc | hc
      · exact h.valid c (List.mem_append_left _ hc)
      · exact (hnumber hc).2
    · exact h.valid c (List.mem_append_right _ hc)
  · rcases hafter with rfl | ⟨extension, rfl⟩
    · rw [List.append_nil, List.getLast?_append, getLast?_number, Option.some_or] at hc
      rw [← Option.some.inj hc]
      decide
    · -- the extension is the end of both
      refine h.last c ?_
      rw [List.getLast?_append_of_ne_nil _ (List.cons_ne_nil _ _)] at hc ⊢
      exact hc

/-! ## Case -/

/-- Nothing beyond ASCII becomes an ASCII character but the dotted capital I and the Kelvin sign,
whose lower case letters are i and k. -/
def KeepsAscii (T : DowncaseTable) : Prop :=
  ∀ u, 128 ≤ u.toNat → (T.unit u).toNat < 128 →
    (T.unit u).toNat = 'i'.toNat ∨ (T.unit u).toNat = 'k'.toNat

variable {T : DowncaseTable}

theorem toNat_downcase_of_beyond (hT : KeepsAscii T) {c : Char} (h : 128 ≤ c.toNat) :
    128 ≤ (T.downcaseChar c).toNat ∨ (T.downcaseChar c).toNat = 'i'.toNat ∨
      (T.downcaseChar c).toNat = 'k'.toNat := by
  by_cases hc : c.toNat ≤ 0xFFFF
  · have hunit := T.toNat_downcaseChar hc
    have hbeyond : 128 ≤ c.toNat.toUInt16.toNat := by rwa [DowncaseTable.toUInt16_toNat hc]
    rw [hunit]
    rcases Nat.lt_or_ge (T.unit c.toNat.toUInt16).toNat 128 with hlt | hge
    · exact .inr (hT _ hbeyond hlt)
    · exact .inl hge
  · rw [T.downcaseChar_astral hc]
    exact .inl h

/-- A test for ASCII characters that are not letters. -/
theorem test_downcase (hT : KeepsAscii T) {P : Nat → Bool}
    (hP : ∀ n, P n = true → n < 128 ∧ isAsciiLetterCode n = false) (c : Char) :
    P (T.downcaseChar c).toNat = P c.toNat := by
  rcases Nat.lt_or_ge c.toNat 128 with hc | hc
  · rw [T.downcaseChar_ascii hc]
    have hlower : ∀ n < 128, (Char.ofNat n).toLower.toNat = n ∨
        (isAsciiLetterCode n = true ∧ isAsciiLetterCode (Char.ofNat n).toLower.toNat = true) := by
      decide
    have hcases := hlower c.toNat hc
    rw [Char.ofNat_toNat] at hcases
    rcases hcases with heq | ⟨hletter, hletter'⟩
    · rw [heq]
    · rw [Bool.eq_iff_iff]
      constructor
      · intro h
        exact absurd hletter' (by simp [(hP _ h).2])
      · intro h
        exact absurd hletter (by simp [(hP _ h).2])
  · have hno : P c.toNat = false := by
      rw [Bool.eq_false_iff]
      intro h
      have := (hP _ h).1
      omega
    rw [hno, Bool.eq_false_iff]
    intro h
    obtain ⟨hlt, hletter⟩ := hP _ h
    rcases toNat_downcase_of_beyond hT hc with hge | heq | heq
    · omega
    · exact absurd (heq ▸ hletter) (by decide)
    · exact absurd (heq ▸ hletter) (by decide)

theorem compat_downcase (hT : KeepsAscii T) {P : Nat → Bool}
    (hP : ∀ n, P n = true → n < 128 ∧ isAsciiLetterCode n = false) :
    Compat (fun c => [T.downcaseChar c]) (fun c => P c.toNat) fun c => P c.toNat where
  single c hc := ⟨_, rfl, (test_downcase hT hP c).trans hc⟩
  other c hc := by
    refine ⟨List.cons_ne_nil _ _, fun b hb => ?_⟩
    rw [List.mem_singleton.1 hb]
    exact (test_downcase hT hP c).trans hc

theorem caseKey_eq_encode (value : Text) :
    T.caseKey value = encode (fun c => [T.downcaseChar c]) value := by
  rw [T.caseKey_eq_map, encode]
  induction value with
  | nil => rfl
  | cons c value ih => rw [List.map_cons, ih, List.flatMap_cons, List.singleton_append]

theorem isTrailingCode_fixed (n : Nat) (h : isTrailingCode n = true) :
    n < 128 ∧ isAsciiLetterCode n = false := by
  rcases Bool.or_eq_true_iff.1 h with h | h
  · rw [eq_of_beq h]
    decide
  · rw [eq_of_beq h]
    decide

theorem isInvalidNameCode_fixed (n : Nat) (h : isInvalidNameCode n = true) :
    n < 128 ∧ isAsciiLetterCode n = false := by
  have hlt := isInvalidNameCode_lt n h
  have hall : ∀ n < 128, isInvalidNameCode n = true → isAsciiLetterCode n = false := by decide
  exact ⟨hlt, hall n hlt h⟩

theorem isSeparatorCode_fixed (n : Nat) (h : isSeparatorCode n = true) :
    n < 128 ∧ isAsciiLetterCode n = false := by
  rcases Bool.or_eq_true_iff.1 h with h | h
  · rw [eq_of_beq h]
    decide
  · rw [eq_of_beq h]
    decide

theorem beq_code_fixed {c : Char} (hc : c.toNat < 128 ∧ isAsciiLetterCode c.toNat = false) (n : Nat)
    (h : (n == c.toNat) = true) : n < 128 ∧ isAsciiLetterCode n = false := by
  rwa [eq_of_beq h]

/-- A stem of lower-cased codes is a device's or not as before. -/
theorem isDeviceStem_lower (stem : List Nat) :
    isDeviceStem (stem.map asciiLowerCode) = isDeviceStem stem := by
  have hidem (n : Nat) : asciiLowerCode (asciiLowerCode n) = asciiLowerCode n := by
    have hZ : 'Z'.toNat = 90 := rfl
    have hA : 'A'.toNat = 65 := rfl
    unfold asciiLowerCode
    split_ifs <;> omega
  have hdigit (n : Nat) : ('1'.toNat ≤ asciiLowerCode n ∧ asciiLowerCode n ≤ '9'.toNat) ↔
      ('1'.toNat ≤ n ∧ n ≤ '9'.toNat) := by
    have hZ : 'Z'.toNat = 90 := rfl
    have hA : 'A'.toNat = 65 := rfl
    have h1 : '1'.toNat = 49 := rfl
    have h9 : '9'.toNat = 57 := rfl
    unfold asciiLowerCode
    split_ifs <;> omega
  unfold isDeviceStem
  match stem with
  | [] => rfl
  | [_] => rfl
  | [_, _] => rfl
  | [a, b, c] => simp only [List.map_cons, List.map_nil, hidem]
  | [a, b, c, d] =>
    simp only [List.map_cons, List.map_nil, hidem]
    rw [Bool.eq_iff_iff, Bool.and_eq_true, Bool.and_eq_true, Bool.and_eq_true, Bool.and_eq_true,
      decide_eq_true_eq, decide_eq_true_eq, decide_eq_true_eq, decide_eq_true_eq, hdigit]
  | _ :: _ :: _ :: _ :: _ :: _ => rfl

theorem isDeviceStem_downcase (hT : KeepsAscii T) (stem : Text) :
    isDeviceStem ((stem.map T.downcaseChar).map Char.toNat) = isDeviceStem (stem.map Char.toNat) := by
  by_cases hascii : ∀ c ∈ stem, c.toNat < 128
  · have hlower : ∀ n < 128, (Char.ofNat n).toLower.toNat = asciiLowerCode n := by decide
    rw [← isDeviceStem_lower (stem.map Char.toNat), List.map_map, List.map_map]
    congr 1
    refine List.map_congr_left fun c hc => ?_
    have h := hlower c.toNat (hascii c hc)
    rw [Char.ofNat_toNat] at h
    rw [Function.comp_apply, Function.comp_apply, T.downcaseChar_ascii (hascii c hc), h]
  · -- no device has a character beyond ASCII, or an i or a k
    obtain ⟨c, hc, hbeyond⟩ : ∃ c ∈ stem, 128 ≤ c.toNat := by
      by_contra hno
      exact hascii fun c hc => Nat.lt_of_not_le fun hge => hno ⟨c, hc, hge⟩
    have hcode : isDeviceCode (T.downcaseChar c).toNat = false := by
      rcases toNat_downcase_of_beyond hT hbeyond with hge | heq | heq
      · have hlower : asciiLowerCode (T.downcaseChar c).toNat = (T.downcaseChar c).toNat := by
          have hZ : 'Z'.toNat = 90 := rfl
          unfold asciiLowerCode
          split_ifs <;> omega
        rw [isDeviceCode, hlower, Bool.eq_false_iff, ne_eq, List.contains_iff_mem]
        intro hmem
        have hall : ∀ n ∈ codesOf "conprnauxnulcomlpt123456789", n < 128 := by decide
        have hlt := hall _ hmem
        omega
      · rw [heq]
        decide
      · rw [heq]
        decide
    have hno : isDeviceStem (stem.map Char.toNat) = false := by
      rw [Bool.eq_false_iff]
      intro h
      have hlt := isDeviceStem_ascii _ h _ (List.mem_map_of_mem hc)
      omega
    rw [hno]
    exact isDeviceStem_of_mem (List.mem_map_of_mem (List.mem_map_of_mem hc)) hcode

theorem isWindowsReservedDeviceName_caseKey (hT : KeepsAscii T) (name : Text) :
    Verifier.isWindowsReservedDeviceName (T.caseKey name) =
      Verifier.isWindowsReservedDeviceName name := by
  have hstem (name : Text) : isReservedDeviceName (name.map Char.toNat) =
      isDeviceStem (((name.takeWhile fun c => !(c.toNat == '.'.toNat)).rdropWhile
        fun c => c.toNat == ' '.toNat).map Char.toNat) := by
    have hdot : Compat (fun c : Char => [c.toNat]) (fun c => c.toNat == '.'.toNat)
        (· == '.'.toNat) := AsciiTransparent.toNat.compat (beq_code_lt (by decide))
    have hspace : Compat (fun c : Char => [c.toNat]) (fun c => c.toNat == ' '.toNat)
        (· == ' '.toNat) := AsciiTransparent.toNat.compat (beq_code_lt (by decide))
    rw [isReservedDeviceName, ← encode_toNat, hdot.takeWhile_not, hspace.rdropWhile, encode_toNat]
  have hdot : Compat (fun c => [T.downcaseChar c]) (fun c => c.toNat == '.'.toNat)
      fun c => c.toNat == '.'.toNat := compat_downcase hT (beq_code_fixed (by decide))
  have hspace : Compat (fun c => [T.downcaseChar c]) (fun c => c.toNat == ' '.toNat)
      fun c => c.toNat == ' '.toNat := compat_downcase hT (beq_code_fixed (by decide))
  rw [isWindowsReservedDeviceName_eq, isWindowsReservedDeviceName_eq, hstem, hstem,
    caseKey_eq_encode, hdot.takeWhile_not, hspace.rdropWhile, ← caseKey_eq_encode,
    T.caseKey_eq_map, isDeviceStem_downcase hT]

/-- The mapping of a part commutes with the case mapping. -/
theorem caseKey_windowsOutputPart (hT : KeepsAscii T) (part : Text) :
    T.caseKey (Verifier.windowsOutputPart part) = Verifier.windowsOutputPart (T.caseKey part) := by
  rw [caseKey_eq_encode, caseKey_eq_encode]
  refine (safePathPart_encode (compat_downcase hT isInvalidNameCode_fixed)
    (compat_downcase hT isTrailingCode_fixed) ?_ (fun l => ?_) part).symm
  · rw [T.downcaseChar_ascii (by decide)]
    rfl
  · rw [← caseKey_eq_encode]
    exact isWindowsReservedDeviceName_caseKey hT l

theorem last_caseKey (name : Text) :
    (T.caseKey name).getLast? = name.getLast?.map T.downcaseChar := by
  rw [T.caseKey_eq_map, List.getLast?_map]

/-- Case does not matter for what a name may be. -/
theorem outputName_caseKey (hT : KeepsAscii T) {name : Text} :
    OutputName (T.caseKey name) ↔ OutputName name := by
  have hvalid (c : Char) : Verifier.isWindowsInvalidNameChar (T.downcaseChar c) =
      Verifier.isWindowsInvalidNameChar c := test_downcase hT isInvalidNameCode_fixed c
  have hlast (c : Char) : isTrailingCode (T.downcaseChar c).toNat = isTrailingCode c.toNat :=
    test_downcase hT isTrailingCode_fixed c
  have hnil : T.caseKey name ≠ [] ↔ name ≠ [] := by rw [T.caseKey_eq_map, ne_eq, List.map_eq_nil_iff]
  constructor
  · intro h
    refine .of_last (hnil.1 h.ne_nil) (fun hmem => h.slash (T.slash_mem_caseKey.2 hmem))
      (fun c hc => ?_) (fun c hc => ?_) ((isWindowsReservedDeviceName_caseKey hT name).symm.trans
        h.device)
    · rw [← hvalid]
      apply h.valid
      rw [T.caseKey_eq_map]
      exact List.mem_map_of_mem hc
    · rw [← hlast]
      apply h.last
      rw [last_caseKey, hc, Option.map_some]
  · intro h
    refine .of_last (hnil.2 h.ne_nil) (fun hmem => h.slash (T.slash_mem_caseKey.1 hmem))
      (fun c hc => ?_) (fun c hc => ?_) ((isWindowsReservedDeviceName_caseKey hT name).trans
        h.device)
    · rw [T.caseKey_eq_map] at hc
      obtain ⟨d, hd, rfl⟩ := List.mem_map.1 hc
      rw [hvalid]
      exact h.valid d hd
    · rw [last_caseKey] at hc
      obtain ⟨d, hd, rfl⟩ := Option.map_eq_some_iff.1 hc
      rw [hlast]
      exact h.last d hd

end Sunpack.OutputPaths
