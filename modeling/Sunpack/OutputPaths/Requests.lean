import Sunpack.OutputPaths.Names

/-!
# Requested paths

Both sides read the same parts from the name of an item, and both refuse the same names: the worker
by not giving a path, the verifier by calling the name unsafe.
-/

namespace Sunpack.OutputPaths

open Lib

/-- The parts of a name that are neither empty nor dots. -/
def archiveParts (name : Text) : List Text :=
  (name.splitOnP Verifier.isSeparator).filter Verifier.keepsPart

/-- A part goes above its directory. -/
def traverses (name : Text) : Bool :=
  (name.splitOnP Verifier.isSeparator).any (· == ['.', '.'])

/-! ## Rooted and drive-qualified names -/

theorem isAsciiLetterCode_lt (n : Nat) (h : isAsciiLetterCode n = true) : n < 128 := by
  have hZ : 'Z'.toNat = 90 := rfl
  have hz : 'z'.toNat = 122 := rfl
  simp only [isAsciiLetterCode, Bool.or_eq_true, Bool.and_eq_true, decide_eq_true_eq] at h
  omega

theorem startsWithDrive_codes {enc : Char → List Nat} (h : AsciiTransparent enc id) (name : Text) :
    startsWithDrive (encode enc name) = startsWithDrive (name.map Char.toNat) := by
  have hbig {n : Nat} (hn : 128 ≤ n) (l : List Nat) : startsWithDrive (n :: l) = false := by
    have hletter : isAsciiLetterCode n = false := by
      rw [Bool.eq_false_iff]
      exact fun hl => absurd (isAsciiLetterCode_lt n hl) (Nat.not_lt.2 hn)
    cases l <;> simp [startsWithDrive, hletter]
  have hcolon {n : Nat} (hn : 128 ≤ n) : (n == ':'.toNat) = false := by
    rw [Bool.eq_false_iff]
    exact fun hc => absurd (beq_code_lt (c := ':') (by decide) n hc) (Nat.not_lt.2 hn)
  -- a character beyond ASCII is neither the letter nor the colon, on either side
  cases name with
  | nil => rfl
  | cons c name =>
    rcases Nat.lt_or_ge c.toNat 128 with hc | hc
    · obtain ⟨b, hb, hcode⟩ := h.ascii c hc
      rw [encode_cons, hb, List.singleton_append, List.map_cons, ← hcode, id]
      cases name with
      | nil => rfl
      | cons d name =>
        rcases Nat.lt_or_ge d.toNat 128 with hd | hd
        · obtain ⟨b', hb', hcode'⟩ := h.ascii d hd
          rw [encode_cons, hb', List.singleton_append, List.map_cons, ← hcode']
          rfl
        · obtain ⟨hne, hall⟩ := h.other d hd
          obtain ⟨b', bs, hb'⟩ := List.exists_cons_of_ne_nil hne
          have hge : 128 ≤ b' := hall b' (by simp [hb'])
          rw [encode_cons, hb', List.cons_append, List.map_cons]
          rw [startsWithDrive, startsWithDrive, hcolon hge, hcolon hd]
    · obtain ⟨hne, hall⟩ := h.other c hc
      obtain ⟨b, bs, hb⟩ := List.exists_cons_of_ne_nil hne
      have hge : 128 ≤ b := hall b (by simp [hb])
      rw [encode_cons, hb, List.cons_append, hbig hge, List.map_cons, hbig hc]

/-- Both sides refuse the same names. -/
theorem unsafeArchivePath_eq (name : Text) :
    Verifier.unsafeArchivePath name = (Worker.hasRoot (utf16 name) || traverses name) := by
  have hsep := utf16_transparent.compat isSeparatorCode_lt
  have hhead : (utf16 name).head?.any (fun value => isSeparatorCode value.toNat) =
      name.head?.any Verifier.isSeparator := by
    cases name with
    | nil => rfl
    | cons c name =>
      rw [utf16, encode_cons, List.head?_cons, Option.any_some, Verifier.isSeparator]
      cases hc : isSeparatorCode c.toNat with
      | true =>
        obtain ⟨b, hb, hq⟩ := hsep.single c hc
        rw [hb]
        exact hq
      | false =>
        obtain ⟨hne, hall⟩ := hsep.other c hc
        obtain ⟨b, bs, hb⟩ := List.exists_cons_of_ne_nil hne
        rw [hb]
        exact hall b (by simp [hb])
  have hdrive : startsWithDrive ((utf16 name).map UInt16.toNat) =
      startsWithDrive ((asBytes name).map UInt8.toNat) := by
    rw [utf16, asBytes, encode_codes, encode_codes, startsWithDrive_codes utf16_transparent.codes,
      startsWithDrive_codes utf8_transparent.codes]
  rw [Worker.hasRoot, hhead, hdrive]
  rfl

/-! ## The worker -/

theorem pathElements_utf16 (name : Text) :
    Worker.pathElements (utf16 name) = (name.splitOnP Verifier.isSeparator).map utf16 :=
  (utf16_transparent.compat isSeparatorCode_lt).splitOnP name

/-- One round of the loop over the elements. -/
theorem safeRelativeItemPath_round (part : Text) (normalized : List WString) :
    (if (utf16 part).isEmpty || utf16 part == [wide '.'] then some normalized
      else if utf16 part == [wide '.', wide '.'] then none
      else some (normalized ++ [Worker.makeWindowsSafePathPart (utf16 part)])) =
    if part = ['.', '.'] then none
    else some (normalized ++ (if Verifier.keepsPart part then [part] else []).map
      fun part => utf16 (Verifier.windowsOutputPart part)) := by
  have hdot : (utf16 part == [wide '.']) = (part == ['.']) := utf16_beq part ['.']
  have hdots : (utf16 part == [wide '.', wide '.']) = (part == ['.', '.']) :=
    utf16_beq part ['.', '.']
  have hempty : (utf16 part).isEmpty = part.isEmpty := by
    rw [Bool.eq_iff_iff, List.isEmpty_iff, List.isEmpty_iff]
    exact utf16_transparent.encode_eq_nil
  rw [hdot, hdots, hempty]
  by_cases htwo : part = ['.', '.']
  · subst htwo
    rfl
  by_cases hkeep : Verifier.keepsPart part = true
  · have hkeep' := hkeep
    simp only [Verifier.keepsPart, Bool.and_eq_true, bne_iff_ne] at hkeep'
    rw [if_neg htwo, if_pos hkeep, if_neg (by simp [hkeep'.1]), if_neg (by simp [htwo]),
      List.map_singleton, utf16_windowsOutputPart]
  · have hskip : (part.isEmpty || part == ['.']) = true := by
      simp only [Verifier.keepsPart, Bool.and_eq_true, bne_iff_ne] at hkeep
      rw [Bool.or_eq_true, List.isEmpty_iff, beq_iff_eq]
      by_contra hno
      rw [not_or] at hno
      exact hkeep ⟨hno, htwo⟩
    rw [if_neg htwo, if_neg hkeep, if_pos hskip, List.map_nil, List.append_nil]

theorem safeRelativeItemPath_loop (parts : List Text) (normalized : List WString) :
    (parts.map utf16).foldlM (fun normalized text =>
      if text.isEmpty || text == [wide '.'] then some normalized
      else if text == [wide '.', wide '.'] then none
      else some (normalized ++ [Worker.makeWindowsSafePathPart text])) normalized =
    if parts.any (· == ['.', '.']) then none
    else some (normalized ++ (parts.filter Verifier.keepsPart).map
      fun part => utf16 (Verifier.windowsOutputPart part)) := by
  induction parts generalizing normalized with
  | nil => simp
  | cons part parts ih =>
    rw [List.map_cons, List.foldlM_cons, safeRelativeItemPath_round, List.any_cons]
    by_cases htwo : part = ['.', '.']
    · rw [if_pos htwo, if_pos (by simp [htwo])]
      rfl
    · rw [if_neg htwo, Option.bind_eq_bind, Option.bind_some, ih, beq_false_of_ne htwo,
        Bool.false_or]
      split_ifs <;> simp_all

/-- The path that the worker requests for a name, if it accepts it. -/
theorem safeRelativeItemPath_utf16 (name : Text) : Worker.safeRelativeItemPath (utf16 name) =
    if Verifier.unsafeArchivePath name || (archiveParts name).isEmpty then none
    else some ((archiveParts name).map fun part => utf16 (Verifier.windowsOutputPart part)) := by
  rw [Worker.safeRelativeItemPath, unsafeArchivePath_eq, pathElements_utf16,
    safeRelativeItemPath_loop]
  by_cases hname : name = []
  · subst hname
    simp [utf16, archiveParts, Verifier.keepsPart]
  have hne : ¬ (utf16 name).isEmpty = true := by
    rw [List.isEmpty_iff]
    exact fun h => hname (utf16_transparent.encode_eq_nil.1 h)
  rw [if_neg hne]
  cases hroot : Worker.hasRoot (utf16 name) with
  | true => simp
  | false =>
    rw [if_neg Bool.false_ne_true, Bool.false_or]
    cases htrav : traverses name with
    | true =>
      rw [traverses] at htrav
      simp [htrav]
    | false =>
      rw [traverses] at htrav
      simp only [htrav, Bool.false_or, archiveParts]
      simp

/-! ## The verifier -/

theorem windowsOutputPart_of_not_needsMapping {part : Text}
    (h : Verifier.windowsOutputPartNeedsMapping part = false) :
    Verifier.windowsOutputPart part = part := by
  simp only [Verifier.windowsOutputPartNeedsMapping, Bool.or_eq_false_iff] at h
  obtain ⟨⟨hinvalid, htrailing⟩, hreserved⟩ := h
  have hmap : (part.map fun value => if Verifier.isWindowsInvalidNameChar value then '_' else value)
      = part := by
    rw [List.map_congr_left (g := id), List.map_id]
    intro c hc
    exact if_neg (by simpa using List.any_eq_false.1 hinvalid c hc)
  have hkept : part.rdropWhile (fun value => isTrailingCode value.toNat) = part := by
    rw [List.rdropWhile_eq_self_iff]
    intro hne
    rw [List.getLast?_eq_some_getLast hne, Option.any_some] at htrailing
    simp [htrailing]
  rw [Verifier.windowsOutputPart, safePathPart]
  simp only [hmap, hkept, Nat.sub_self, List.replicate_zero, List.append_nil, hreserved,
    Bool.false_eq_true, if_false]

theorem isSeparator_iff {c : Char} : Verifier.isSeparator c = true ↔ c = '/' ∨ c = '\\' := by
  rw [Verifier.isSeparator, isSeparatorCode, Bool.or_eq_true, beq_iff_eq, beq_iff_eq,
    Char.toNat_inj, Char.toNat_inj]

/-- With slashes for backslashes, the parts are between slashes. -/
theorem splitOn_slashed (name : Text) :
    (name.map fun c => if c = '\\' then '/' else c).splitOn '/' =
      name.splitOnP Verifier.isSeparator := by
  induction name with
  | nil => rfl
  | cons c name ih =>
    rw [List.map_cons, List.splitOn_cons_eq_if_modifyHead, ih,
      List.splitOnP_cons_eq_if_modifyHead]
    cases hc : Verifier.isSeparator c with
    | true =>
      rcases isSeparator_iff.1 hc with rfl | rfl
      · rfl
      · rfl
    | false =>
      have hno : c ≠ '/' ∧ c ≠ '\\' := by
        rw [Bool.eq_false_iff, ne_eq, isSeparator_iff, not_or] at hc
        exact hc
      rw [if_neg hno.2, if_neg (by simpa using hno.1), if_neg (by simp)]

/-- Slashes at the ends only make empty parts. -/
theorem filter_splitOn_trim (l : Text) :
    (((l.dropWhile (· == '/')).rdropWhile (· == '/')).splitOn '/').filter Verifier.keepsPart =
      (l.splitOn '/').filter Verifier.keepsPart := by
  have hempty : Verifier.keepsPart [] = false := rfl
  have hend (l : Text) : ((l.rdropWhile (· == '/')).splitOn '/').filter Verifier.keepsPart =
      (l.splitOn '/').filter Verifier.keepsPart := by
    induction l using List.reverseRecOn with
    | nil => rfl
    | append_singleton l c ih =>
      by_cases hc : c = '/'
      · subst hc
        rw [List.rdropWhile_concat_pos _ _ _ (by simp), ih, List.splitOn_append_cons_self,
          List.filter_append, List.splitOn_nil, List.filter_singleton, hempty, cond_false,
          List.append_nil]
      · rw [List.rdropWhile_concat_neg _ _ _ (by simpa using hc)]
  rw [hend]
  induction l with
  | nil => rfl
  | cons c l ih =>
    by_cases hc : c = '/'
    · subst hc
      rw [List.dropWhile_cons_of_pos (by simp), ih, List.splitOn_cons_eq_if_modifyHead,
        if_pos (by simp), List.filter_cons_of_neg (by simp [hempty])]
    · rw [List.dropWhile_cons_of_neg (by simpa using hc)]

theorem cleanRelativeArchivePath_eq (name : Text) :
    Verifier.cleanRelativeArchivePath name = Verifier.join (archiveParts name) := by
  rw [Verifier.cleanRelativeArchivePath]
  split_ifs with hclean
  · rw [Bool.and_eq_true, Bool.not_eq_true', List.contains_eq_mem, decide_eq_false_iff_not]
      at hclean
    have hslashed : (name.map fun c => if c = '\\' then '/' else c) = name := by
      rw [List.map_congr_left (g := id), List.map_id]
      intro c hc
      refine if_neg ?_
      rintro rfl
      exact hclean.1 hc
    have hparts := splitOn_slashed name
    rw [hslashed] at hparts
    rw [archiveParts, ← hparts, List.filter_eq_self.2 (List.all_eq_true.1 hclean.2),
      Verifier.join, List.intercalate_splitOn]
  · simp only [filter_splitOn_trim, splitOn_slashed, archiveParts]

theorem slash_notMem_archiveParts {name part : Text} (h : part ∈ archiveParts name) :
    '/' ∉ part := by
  intro hslash
  have hsep := forall_of_mem_splitOnP (List.mem_filter.1 h).1 '/' hslash
  exact absurd hsep (by decide)

/-- The path that the verifier requests for a name. -/
theorem windowsOutputRelativePath_eq (name : Text) :
    Verifier.windowsOutputRelativePath (Verifier.cleanRelativeArchivePath name) =
      Verifier.join ((archiveParts name).map Verifier.windowsOutputPart) := by
  rw [cleanRelativeArchivePath_eq, Verifier.windowsOutputRelativePath]
  cases hparts : archiveParts name with
  | nil => rfl
  | cons part parts =>
    have hsplit : (Verifier.join (part :: parts)).splitOn '/' = part :: parts := by
      refine List.splitOn_intercalate '/' (fun p hp => ?_) (by simp)
      exact slash_notMem_archiveParts (hparts ▸ hp)
    rw [hsplit]
    split_ifs with hneeds
    · rw [List.map_congr_left (g := id), List.map_id]
      intro p hp
      have hany : (part :: parts).any Verifier.windowsOutputPartNeedsMapping = false := by
        simpa using hneeds
      refine windowsOutputPart_of_not_needsMapping ?_
      simpa using List.any_eq_false.1 hany p hp
    · rfl

end Sunpack.OutputPaths
