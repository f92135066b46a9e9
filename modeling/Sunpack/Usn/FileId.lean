import Sunpack.Usn.Record

/-!
# File identities as text

`parse_file_id` and `format_file_id` of `protocol.rs`. The parser slices the bytes of the text in pairs
from its end and leaves each pair to the parser of integers, which takes a sign; a slice inside of a
character is a panic, here no result.
-/

namespace Sunpack.Usn

/-! ## Slices -/

/-- The two parts of a text at a byte, if it is not inside of a character. -/
def splitAtByte : Name → Nat → Option (Name × Name)
  | t, 0 => some ([], t)
  | [], _ + 1 => none
  | c :: t, n + 1 =>
    if c.utf8Size ≤ n + 1 then
      (splitAtByte t (n + 1 - c.utf8Size)).map fun parts => (c :: parts.1, parts.2)
    else none

/-- `&text[from..to]` -/
def sliceBytes (t : Name) (start stop : Nat) : Option Name :=
  (splitAtByte t stop).bind fun parts => (splitAtByte parts.1 start).map Prod.snd

theorem nameLen_cons (c : Char) (t : Name) : nameLen (c :: t) = c.utf8Size + nameLen t := rfl

theorem nameLen_append (a b : Name) : nameLen (a ++ b) = nameLen a + nameLen b := by
  simp [nameLen]

theorem nameLen_eq_zero {t : Name} : nameLen t = 0 ↔ t = [] := by
  cases t with
  | nil => simp [nameLen]
  | cons c t =>
    have := c.utf8Size_pos
    rw [nameLen_cons]
    simp
    omega

theorem splitAtByte_append (a b : Name) : splitAtByte (a ++ b) (nameLen a) = some (a, b) := by
  induction a with
  | nil => cases b <;> rfl
  | cons c a ih =>
    have hpos := c.utf8Size_pos
    obtain ⟨n, hn⟩ : ∃ n, nameLen (c :: a) = n + 1 := ⟨nameLen (c :: a) - 1, by
      rw [nameLen_cons]
      omega⟩
    rw [nameLen_cons] at hn
    have hrest : n + 1 - c.utf8Size = nameLen a := by omega
    rw [nameLen_cons, hn, List.cons_append, splitAtByte, if_pos (by omega), hrest, ih]
    rfl

theorem splitAtByte_eq_some {t : Name} {n : Nat} {parts : Name × Name}
    (h : splitAtByte t n = some parts) : t = parts.1 ++ parts.2 ∧ nameLen parts.1 = n := by
  fun_induction splitAtByte t n generalizing parts with
  | case1 t =>
    obtain rfl := Option.some.inj h
    exact ⟨rfl, rfl⟩
  | case2 => cases h
  | case3 c t n hle ih =>
    obtain ⟨rest, hrest, rfl⟩ := Option.map_eq_some_iff.1 h
    obtain ⟨rfl, hlen⟩ := ih hrest
    refine ⟨rfl, ?_⟩
    rw [nameLen_cons, hlen]
    omega
  | case4 => cases h

/-- A slice that ends in front of `back`. -/
theorem sliceBytes_append (front back : Name) (start : Nat) :
    sliceBytes (front ++ back) start (nameLen front) = (splitAtByte front start).map Prod.snd := by
  rw [sliceBytes, splitAtByte_append, Option.bind_some]

/-! ## Digits -/

/-- `char::to_digit(16)` -/
def toDigit (c : Char) : Option Nat :=
  if '0' ≤ c ∧ c ≤ '9' then some (c.toNat - 48)
  else if 'a' ≤ c ∧ c ≤ 'f' then some (c.toNat - 87)
  else if 'A' ≤ c ∧ c ≤ 'F' then some (c.toNat - 55)
  else none

/-- The digits of a number that has to fit into a byte. -/
def addDigits : Nat → Name → Option Nat
  | n, [] => some n
  | n, c :: digits =>
    match toDigit c with
    | none => none
    | some d => if n * 16 + d < 256 then addDigits (n * 16 + d) digits else none

/-- `u8::from_str_radix(text, 16)`: a plus sign may stand in front. -/
def fromStrRadix16 : Name → Option Nat
  | [] => none
  | ['+'] => none
  | ['-'] => none
  | '+' :: digits => addDigits 0 digits
  | digits => addDigits 0 digits

def IsHexDigit (c : Char) : Prop := toDigit c ≠ none

instance (c : Char) : Decidable (IsHexDigit c) := inferInstanceAs (Decidable (_ ≠ _))

theorem toDigit_lt {c : Char} {d : Nat} (h : toDigit c = some d) : d < 16 ∧ c.toNat < 128 := by
  unfold toDigit at h
  split_ifs at h with h1 h2 h3
  · obtain rfl := Option.some.inj h
    obtain ⟨hlow, hhigh⟩ := h1
    have hlow' : 48 ≤ c.toNat := hlow
    have hhigh' : c.toNat ≤ 57 := hhigh
    omega
  · obtain rfl := Option.some.inj h
    obtain ⟨hlow, hhigh⟩ := h2
    have hlow' : 97 ≤ c.toNat := hlow
    have hhigh' : c.toNat ≤ 102 := hhigh
    omega
  · obtain rfl := Option.some.inj h
    obtain ⟨hlow, hhigh⟩ := h3
    have hlow' : 65 ≤ c.toNat := hlow
    have hhigh' : c.toNat ≤ 70 := hhigh
    omega

/-- `{:x}` of a half of a byte. -/
def hexDigit (d : Nat) : Char := if d < 10 then Char.ofNat (48 + d) else Char.ofNat (87 + d)

theorem hexDigit_toDigit {c : Char} {d : Nat} (h : toDigit c = some d) : hexDigit d = c.toLower := by
  have hall : ∀ n < 128, ∀ d < 16, toDigit (Char.ofNat n) = some d →
      hexDigit d = (Char.ofNat n).toLower := by
    decide
  have hback := Char.ofNat_toNat c
  obtain ⟨hd, hc⟩ := toDigit_lt h
  rw [← hback] at h ⊢
  exact hall c.toNat hc d hd h

theorem toDigit_hexDigit {d : Nat} (h : d < 16) : toDigit (hexDigit d) = some d := by
  have hall : ∀ d < 16, toDigit (hexDigit d) = some d := by decide
  exact hall d h

/-! ## The parser -/

/-- `char::is_whitespace` -/
def isWhitespace (c : Char) : Bool :=
  let n := c.toNat
  (0x9 ≤ n && n ≤ 0xD) || n == 0x20 || n == 0x85 || n == 0xA0 || n == 0x1680 ||
    (0x2000 ≤ n && n ≤ 0x200A) || n == 0x2028 || n == 0x2029 || n == 0x202F || n == 0x205F ||
    n == 0x3000

def trim (value : Name) : Name := (value.dropWhile isWhitespace).rdropWhile isWhitespace

/-- The loop over the pairs: `n` are left, and `index` have been read. -/
def parsePairs (normalized : Name) : Nat → Nat → Bytes → Option (Except String Bytes)
  | 0, _, bytes => some (.ok bytes)
  | n + 1, index, bytes =>
    let source := nameLen normalized - (index + 1) * 2
    match sliceBytes normalized source (source + 2) with
    | none => none
    | some pair =>
      match fromStrRadix16 pair with
      | none => some (.error "file ID is not hexadecimal")
      | some byte => parsePairs normalized n (index + 1) (bytes ++ [.ofNat byte])

/-- No result is a panic. -/
def parseFileId (value : Name) : Option (Except String (Bytes × Nat)) :=
  let normalized := trim value
  if nameLen normalized ≠ 16 ∧ nameLen normalized ≠ 32 then
    some (.error "file ID must contain 8 or 16 bytes")
  else
    let width := nameLen normalized / 2
    (parsePairs normalized width 0 []).map fun result => result.map fun bytes =>
      (bytes ++ List.replicate (fileIdBytes - width) 0, width)

/-- `{byte:02x}` -/
def hexByte (byte : UInt8) : Name := [hexDigit (byte.toNat / 16), hexDigit (byte.toNat % 16)]

def formatFileId (bytes : Bytes) : Name := bytes.reverse.flatMap hexByte

/-! ## Accepted pairs -/

/-- Pairs of two digits, or of a plus sign and a digit. -/
inductive Accepted : Name → Prop
  | nil : Accepted []
  | snoc {t : Name} {x y : Char} : Accepted t → (IsHexDigit x ∨ x = '+') → IsHexDigit y →
      Accepted (t ++ [x, y])

def pairValue (x y : Char) : Nat := (toDigit x).getD 0 * 16 + (toDigit y).getD 0

/-- The values of the pairs of a reversed text. -/
def pairValues : Name → Bytes
  | y :: x :: t => .ofNat (pairValue x y) :: pairValues t
  | _ => []

theorem addDigits_pair {x y : Char} (hx : IsHexDigit x) (hy : IsHexDigit y) :
    addDigits 0 [x, y] = some (pairValue x y) := by
  obtain ⟨d, hd⟩ := Option.ne_none_iff_exists'.1 hx
  obtain ⟨e, he⟩ := Option.ne_none_iff_exists'.1 hy
  have hd' := (toDigit_lt hd).1
  have he' := (toDigit_lt he).1
  simp only [addDigits, pairValue, hd, he, Option.getD_some]
  rw [if_pos (by omega), Nat.zero_mul, Nat.zero_add]
  show (if d * 16 + e < 256 then _ else _) = _
  rw [if_pos (by omega)]

theorem toDigit_plus : toDigit '+' = none := by decide

theorem toDigit_minus : toDigit '-' = none := by decide

/-- A pair that is read. -/
theorem fromStrRadix16_pair {x y : Char} (hx : IsHexDigit x ∨ x = '+') (hy : IsHexDigit y) :
    fromStrRadix16 [x, y] = some (pairValue x y) := by
  rcases hx with hx | rfl
  · have hplus : x ≠ '+' := by
      rintro rfl
      exact hx toDigit_plus
    rw [← addDigits_pair hx hy]
    unfold fromStrRadix16
    split <;> simp_all
  · obtain ⟨e, he⟩ := Option.ne_none_iff_exists'.1 hy
    have he' := (toDigit_lt he).1
    show addDigits 0 [y] = _
    simp only [addDigits, pairValue, he, toDigit_plus, Option.getD_none, Option.getD_some]
    rw [if_pos (by omega)]

theorem isHexDigit_of_addDigits {t : Name} {n m : Nat} (h : addDigits n t = some m) :
    ∀ c ∈ t, IsHexDigit c := by
  induction t generalizing n with
  | nil => exact fun c hc => absurd hc List.not_mem_nil
  | cons c t ih =>
    unfold addDigits at h
    cases hd : toDigit c with
    | none =>
      rw [hd] at h
      cases h
    | some d =>
      simp only [hd] at h
      split_ifs at h
      intro b hb
      rcases List.mem_cons.1 hb with rfl | hb
      · exact Option.ne_none_iff_exists'.2 ⟨d, hd⟩
      · exact ih h b hb

theorem utf8Size_of_lt {c : Char} (h : c.toNat < 128) : c.utf8Size = 1 := by
  have hle : c.val ≤ 0x7F := by
    rw [UInt32.le_iff_toNat_le]
    show c.toNat ≤ 127
    omega
  unfold Char.utf8Size
  exact if_pos hle

theorem IsHexDigit.utf8Size {c : Char} (h : IsHexDigit c) : c.utf8Size = 1 := by
  obtain ⟨d, hd⟩ := Option.ne_none_iff_exists'.1 h
  exact utf8Size_of_lt (toDigit_lt hd).2

/-- A slice of two bytes that is read is an accepted pair. -/
theorem of_fromStrRadix16 {pair : Name} {byte : Nat} (hlen : nameLen pair = 2)
    (h : fromStrRadix16 pair = some byte) :
    ∃ x y, pair = [x, y] ∧ (IsHexDigit x ∨ x = '+') ∧ IsHexDigit y := by
  match pair, hlen, h with
  | [], hlen, _ => cases hlen
  | [c], hlen, h =>
    have hsize : c.utf8Size = 2 := hlen
    have hdigits : addDigits 0 [c] = some byte := by
      unfold fromStrRadix16 at h
      split at h <;> simp_all
    have hone := (isHexDigit_of_addDigits hdigits c (List.mem_singleton_self c)).utf8Size
    omega
  | [x, y], _, h =>
    refine ⟨x, y, rfl, ?_⟩
    by_cases hplus : x = '+'
    · subst hplus
      exact ⟨.inr rfl, isHexDigit_of_addDigits (show addDigits 0 [y] = _ from h) y
        (List.mem_singleton_self y)⟩
    · have hdigits : addDigits 0 [x, y] = some byte := by
        unfold fromStrRadix16 at h
        split at h <;> simp_all
      have hall := isHexDigit_of_addDigits hdigits
      exact ⟨.inl (hall x List.mem_cons_self), hall y (List.mem_cons_of_mem _ List.mem_cons_self)⟩
  | x :: y :: z :: more, hlen, _ =>
    have hx := x.utf8Size_pos
    have hy := y.utf8Size_pos
    have hz := z.utf8Size_pos
    rw [nameLen_cons, nameLen_cons, nameLen_cons] at hlen
    omega

/-! ## The loop -/

theorem Accepted.nameLen_pair {x y : Char} (hx : IsHexDigit x ∨ x = '+') (hy : IsHexDigit y) :
    nameLen [x, y] = 2 := by
  have hx' : x.utf8Size = 1 := by
    rcases hx with hx | rfl
    · exact hx.utf8Size
    · decide
  show x.utf8Size + (y.utf8Size + 0) = 2
  rw [hx', hy.utf8Size]

/-- Reading on from the end one meets the middle of a character. -/
def Cut (t : Name) : Prop :=
  ∃ front back, t = front ++ back ∧ Accepted back ∧ front ≠ [] ∧
    splitAtByte front (nameLen front - 2) = none

theorem Accepted.eq_snoc {t : Name} (h : Accepted t) (hne : t ≠ []) : ∃ s x y, t = s ++ [x, y] ∧
    Accepted s ∧ (IsHexDigit x ∨ x = '+') ∧ IsHexDigit y := by
  cases h with
  | nil => exact absurd rfl hne
  | snoc hs hx hy => exact ⟨_, _, _, rfl, hs, hx, hy⟩

theorem splitAtByte_snoc (s : Name) {x y : Char} (hx : IsHexDigit x ∨ x = '+') (hy : IsHexDigit y) :
    splitAtByte (s ++ [x, y]) (nameLen (s ++ [x, y]) - 2) = some (s, [x, y]) := by
  rw [nameLen_append, Accepted.nameLen_pair hx hy, Nat.add_sub_cancel, splitAtByte_append]

theorem cut_snoc (s : Name) {x y : Char} (hx : IsHexDigit x ∨ x = '+') (hy : IsHexDigit y) :
    Cut (s ++ [x, y]) ↔ Cut s := by
  constructor
  · rintro ⟨front, back, heq, hback, hne, hcut⟩
    by_cases hempty : back = []
    · rw [hempty, List.append_nil] at heq
      rw [← heq, splitAtByte_snoc s hx hy] at hcut
      cases hcut
    · obtain ⟨b, x', y', rfl, hb, -, -⟩ := hback.eq_snoc hempty
      rw [← List.append_assoc] at heq
      obtain ⟨rfl, -⟩ := List.append_inj' heq rfl
      exact ⟨front, b, rfl, hb, hne, hcut⟩
  · rintro ⟨front, back, rfl, hback, hne, hcut⟩
    exact ⟨front, back ++ [x, y], List.append_assoc _ _ _, hback.snoc hx hy, hne, hcut⟩

theorem accepted_snoc {s : Name} {x y : Char} :
    Accepted (s ++ [x, y]) ↔ Accepted s ∧ (IsHexDigit x ∨ x = '+') ∧ IsHexDigit y := by
  constructor
  · intro h
    obtain ⟨s', x', y', heq, hs, hx, hy⟩ := h.eq_snoc (by simp)
    obtain ⟨hfront, hpair⟩ := List.append_inj' heq rfl
    obtain ⟨hxx, hpair⟩ := List.cons.inj hpair
    obtain ⟨hyy, -⟩ := List.cons.inj hpair
    subst hfront hxx hyy
    exact ⟨hs, hx, hy⟩
  · rintro ⟨hs, hx, hy⟩
    exact hs.snoc hx hy

/-- In front of a pair that is no accepted one nothing else is read. -/
theorem not_accepted_of_split {t s pair : Name} (hne : t ≠ [])
    (hsplit : splitAtByte t (nameLen t - 2) = some (s, pair)) (hpair : fromStrRadix16 pair = none) :
    ¬ Accepted t ∧ ¬ Cut t := by
  have hnot : ∀ s' x y, t = s' ++ [x, y] → (IsHexDigit x ∨ x = '+') → ¬ IsHexDigit y := by
    rintro s' x y rfl hx hy
    rw [splitAtByte_snoc s' hx hy] at hsplit
    obtain ⟨-, rfl⟩ := Prod.mk.inj (Option.some.inj hsplit)
    rw [fromStrRadix16_pair hx hy] at hpair
    cases hpair
  constructor
  · intro h
    obtain ⟨s', x, y, heq, -, hx, hy⟩ := h.eq_snoc hne
    exact hnot s' x y heq hx hy
  · rintro ⟨front, back, heq, hback, -, hcut⟩
    by_cases hempty : back = []
    · rw [hempty, List.append_nil] at heq
      rw [← heq, hsplit] at hcut
      cases hcut
    · obtain ⟨b, x, y, rfl, -, hx, hy⟩ := hback.eq_snoc hempty
      exact hnot (front ++ b) x y (heq.trans (List.append_assoc _ _ _).symm) hx hy

theorem not_accepted_of_cut {t : Name} (hne : t ≠ [])
    (hsplit : splitAtByte t (nameLen t - 2) = none) : ¬ Accepted t := by
  intro h
  obtain ⟨s, x, y, rfl, -, hx, hy⟩ := h.eq_snoc hne
  rw [splitAtByte_snoc s hx hy] at hsplit
  cases hsplit

/-- What the loop gives in front of pairs that have been read. -/
theorem parsePairs_spec (n : Nat) {front back : Name} {index : Nat} {bytes : Bytes}
    (hfront : nameLen front = 2 * n) (hback : nameLen back = 2 * index) :
    (parsePairs (front ++ back) n index bytes = none ↔ Cut front) ∧
    ∀ l, parsePairs (front ++ back) n index bytes = some (.ok l) ↔
      Accepted front ∧ l = bytes ++ pairValues front.reverse := by
  induction n generalizing front back index bytes with
  | zero =>
    obtain rfl := nameLen_eq_zero.1 hfront
    refine ⟨⟨fun h => (by cases h), ?_⟩, fun l => ?_⟩
    · rintro ⟨front, back, heq, -, hne, -⟩
      exact absurd (List.append_eq_nil_iff.1 heq.symm).1 hne
    · show some (Except.ok bytes) = some (.ok l) ↔ _
      rw [Option.some.injEq, Except.ok.injEq]
      show _ ↔ Accepted [] ∧ l = bytes ++ []
      rw [List.append_nil]
      exact ⟨fun h => ⟨.nil, h.symm⟩, fun h => h.2.symm⟩
  | succ n ih =>
    have hne : front ≠ [] := by
      rintro rfl
      cases hfront
    have hwhole : nameLen (front ++ back) = nameLen front + 2 * index := by
      rw [nameLen_append, hback]
    have hsource : nameLen (front ++ back) - (index + 1) * 2 = nameLen front - 2 := by omega
    have hstop : nameLen front - 2 + 2 = nameLen front := by omega
    unfold parsePairs
    rw [hsource]
    simp only [hstop, sliceBytes_append]
    cases hsplit : splitAtByte front (nameLen front - 2) with
    | none =>
      have hnot := not_accepted_of_cut hne hsplit
      refine ⟨⟨fun _ => ⟨front, [], (List.append_nil _).symm, .nil, hne, hsplit⟩, fun _ => rfl⟩,
        fun l => ⟨fun h => (by cases h), fun h => absurd h.1 hnot⟩⟩
    | some parts =>
      obtain ⟨s, pair⟩ := parts
      have heq : front = s ++ pair := (splitAtByte_eq_some hsplit).1
      have hs : nameLen s = nameLen front - 2 := (splitAtByte_eq_some hsplit).2
      rw [Option.map_some]
      cases hread : fromStrRadix16 pair with
      | none =>
        obtain ⟨haccepted, hcut⟩ := not_accepted_of_split hne hsplit hread
        simp only [hread]
        exact ⟨⟨fun h => (by cases h), fun h => absurd h hcut⟩,
          fun l => ⟨fun h => (by cases h), fun h => absurd h.1 haccepted⟩⟩
      | some byte =>
        have hlen : nameLen front = nameLen s + nameLen pair := by
          rw [heq, nameLen_append]
        have htwo : nameLen pair = 2 := by omega
        obtain ⟨x, y, rfl, hx, hy⟩ := of_fromStrRadix16 htwo hread
        have hnext : nameLen ([x, y] ++ back) = 2 * (index + 1) := by
          rw [nameLen_append, htwo, hback]
          omega
        obtain ⟨hcut, hok⟩ := @ih s ([x, y] ++ back) (index + 1) (bytes ++ [.ofNat byte])
          (by omega) hnext
        rw [← List.append_assoc, ← heq] at hcut
        rw [← List.append_assoc, ← heq] at hok
        simp only [hread]
        rw [fromStrRadix16_pair hx hy] at hread
        refine ⟨hcut.trans (heq ▸ (cut_snoc s hx hy).symm), fun l => (hok l).trans ?_⟩
        rw [heq, accepted_snoc, List.reverse_append, List.append_assoc, ← Option.some.inj hread]
        exact ⟨fun h => ⟨⟨h.1, hx, hy⟩, h.2⟩, fun h => ⟨h.1.1, h.2⟩⟩

/-- The text of an identity of eight or sixteen bytes. -/
def Sized (t : Name) : Prop := nameLen t = 16 ∨ nameLen t = 32

theorem parseFileId_spec (s : Name) :
    (parseFileId s = none ↔ Sized (trim s) ∧ Cut (trim s)) ∧
    ∀ bytes width, parseFileId s = some (.ok (bytes, width)) ↔
      Sized (trim s) ∧ Accepted (trim s) ∧ width = nameLen (trim s) / 2 ∧
        bytes = pairValues (trim s).reverse ++ List.replicate (fileIdBytes - width) 0 := by
  unfold parseFileId Sized
  generalize trim s = t
  by_cases hsize : nameLen t ≠ 16 ∧ nameLen t ≠ 32
  · have hnot : ¬ (nameLen t = 16 ∨ nameLen t = 32) := by omega
    simp only [if_pos hsize]
    exact ⟨⟨fun h => (by cases h), fun h => absurd h.1 hnot⟩,
      fun _ _ => ⟨fun h => (by cases h), fun h => absurd h.1 hnot⟩⟩
  · have hsized : nameLen t = 16 ∨ nameLen t = 32 := by omega
    obtain ⟨hcut, hok⟩ := @parsePairs_spec (nameLen t / 2) t [] 0 [] (by omega) rfl
    rw [List.append_nil] at hcut
    simp only [List.append_nil, List.nil_append] at hok
    simp only [if_neg hsize, Option.map_eq_none_iff, Option.map_eq_some_iff]
    refine ⟨hcut.trans ⟨fun h => ⟨hsized, h⟩, fun h => h.2⟩, fun bytes width => ⟨?_, ?_⟩⟩
    · rintro ⟨result, hresult, hmap⟩
      cases result with
      | error message => cases hmap
      | ok l =>
        obtain ⟨haccepted, rfl⟩ := (hok l).1 hresult
        obtain ⟨rfl, rfl⟩ := Prod.mk.inj (Except.ok.inj hmap)
        exact ⟨hsized, haccepted, rfl, rfl⟩
    · rintro ⟨-, haccepted, rfl, rfl⟩
      exact ⟨_, (hok _).2 ⟨haccepted, rfl⟩, rfl⟩

/-! ## Digits only -/

/-- Sixteen or 32 hexadecimal digits. -/
def IsHex (t : Name) : Prop := (t.length = 16 ∨ t.length = 32) ∧ ∀ c ∈ t, IsHexDigit c

def lower (t : Name) : Name := t.map Char.toLower

theorem nameLen_of_hex {t : Name} (h : ∀ c ∈ t, IsHexDigit c) : nameLen t = t.length := by
  induction t with
  | nil => rfl
  | cons c t ih =>
    rw [nameLen_cons, List.length_cons, (h c List.mem_cons_self).utf8Size,
      ih fun b hb => h b (List.mem_cons_of_mem c hb), Nat.add_comm]

theorem accepted_of_hex {n : Nat} {t : Name} (hlen : t.length = 2 * n)
    (h : ∀ c ∈ t, IsHexDigit c) : Accepted t := by
  induction n generalizing t with
  | zero =>
    obtain rfl := List.length_eq_zero_iff.1 hlen
    exact .nil
  | succ n ih =>
    have htwo : (t.drop (2 * n)).length = 2 := by
      rw [List.length_drop]
      omega
    obtain ⟨x, y, hpair⟩ := List.length_eq_two.1 htwo
    have heq := List.take_append_drop (2 * n) t
    rw [hpair] at heq
    have hx : x ∈ t := by
      rw [← heq]
      simp
    have hy : y ∈ t := by
      rw [← heq]
      simp
    rw [← heq]
    refine (ih ?_ fun c hc => h c (List.mem_of_mem_take hc)).snoc (.inl (h x hx)) (h y hy)
    rw [List.length_take]
    omega

theorem Accepted.hex {t : Name} (h : Accepted t) (hplus : '+' ∉ t) : ∀ c ∈ t, IsHexDigit c := by
  induction h with
  | nil => exact fun c hc => absurd hc List.not_mem_nil
  | snoc hs hx hy ih =>
    intro c hc
    rcases List.mem_append.1 hc with hc | hc
    · exact ih (fun h => hplus (List.mem_append_left _ h)) c hc
    · rcases List.mem_cons.1 hc with rfl | hc
      · refine hx.resolve_right ?_
        rintro rfl
        exact hplus (by simp)
      · rwa [List.mem_singleton.1 hc]

theorem pairValues_snoc (s : Name) (x y : Char) :
    pairValues (s ++ [x, y]).reverse = .ofNat (pairValue x y) :: pairValues s.reverse := by
  rw [List.reverse_append]
  rfl

theorem Accepted.length_pairValues {t : Name} (h : Accepted t) :
    2 * (pairValues t.reverse).length = t.length := by
  induction h with
  | nil => rfl
  | snoc hs hx hy ih =>
    rw [pairValues_snoc, List.length_cons, List.length_append, List.length_cons, List.length_cons,
      List.length_nil]
    omega

theorem hexByte_pairValue {x y : Char} (hx : IsHexDigit x) (hy : IsHexDigit y) :
    hexByte (.ofNat (pairValue x y)) = [x.toLower, y.toLower] := by
  obtain ⟨d, hd⟩ := Option.ne_none_iff_exists'.1 hx
  obtain ⟨e, he⟩ := Option.ne_none_iff_exists'.1 hy
  have hd' := (toDigit_lt hd).1
  have he' := (toDigit_lt he).1
  have hvalue : (UInt8.ofNat (pairValue x y)).toNat = d * 16 + e := by
    rw [UInt8.toNat_ofNat', pairValue, hd, he]
    show (d * 16 + e) % 2 ^ 8 = d * 16 + e
    omega
  have hhigh : (d * 16 + e) / 16 = d := by omega
  have hlow : (d * 16 + e) % 16 = e := by omega
  rw [hexByte, hvalue, hhigh, hlow, hexDigit_toDigit hd, hexDigit_toDigit he]

theorem formatFileId_cons (byte : UInt8) (b : Bytes) :
    formatFileId (byte :: b) = formatFileId b ++ hexByte byte := by
  unfold formatFileId
  rw [List.reverse_cons, List.flatMap_append, List.flatMap_singleton]

theorem formatFileId_pairValues {t : Name} (h : Accepted t) (hplus : '+' ∉ t) :
    formatFileId (pairValues t.reverse) = lower t := by
  induction h with
  | nil => rfl
  | @snoc s x y hs hx hy ih =>
    have hx' : IsHexDigit x := (hs.snoc hx hy).hex hplus x (by simp)
    rw [pairValues_snoc, formatFileId_cons, ih fun h => hplus (List.mem_append_left _ h),
      hexByte_pairValue hx' hy]
    unfold lower
    rw [List.map_append]
    rfl

/-! ## The round trip -/

theorem toNat_hexByte (byte : UInt8) :
    .ofNat (pairValue (hexDigit (byte.toNat / 16)) (hexDigit (byte.toNat % 16))) = byte := by
  have hbyte := byte.toNat_lt
  rw [pairValue, toDigit_hexDigit (by omega), toDigit_hexDigit (by omega)]
  show UInt8.ofNat (byte.toNat / 16 * 16 + byte.toNat % 16) = byte
  rw [Nat.div_add_mod']
  exact UInt8.ofNat_toNat

theorem isHexDigit_hexDigit {d : Nat} (h : d < 16) : IsHexDigit (hexDigit d) :=
  Option.ne_none_iff_exists'.2 ⟨d, toDigit_hexDigit h⟩

theorem formatFileId_hex (b : Bytes) :
    (formatFileId b).length = 2 * b.length ∧ ∀ c ∈ formatFileId b, IsHexDigit c := by
  induction b with
  | nil => exact ⟨rfl, fun c hc => absurd hc List.not_mem_nil⟩
  | cons byte b ih =>
    have hbyte := byte.toNat_lt
    rw [formatFileId_cons]
    constructor
    · rw [List.length_append, ih.1, List.length_cons]
      show 2 * b.length + 2 = _
      omega
    · intro c hc
      rcases List.mem_append.1 hc with hc | hc
      · exact ih.2 c hc
      · rcases List.mem_cons.1 hc with rfl | hc
        · exact isHexDigit_hexDigit (by omega)
        · rw [List.mem_singleton.1 hc]
          exact isHexDigit_hexDigit (by omega)

theorem pairValues_formatFileId (b : Bytes) : pairValues (formatFileId b).reverse = b := by
  induction b with
  | nil => rfl
  | cons byte b ih =>
    rw [formatFileId_cons]
    show pairValues (formatFileId b ++ [_, _]).reverse = _
    rw [pairValues_snoc, ih, toNat_hexByte]

theorem isWhitespace_of_hex {c : Char} (h : IsHexDigit c) : isWhitespace c = false := by
  have hall : ∀ n < 128, toDigit (Char.ofNat n) ≠ none → isWhitespace (Char.ofNat n) = false := by
    decide
  obtain ⟨d, hd⟩ := Option.ne_none_iff_exists'.1 h
  have hback := Char.ofNat_toNat c
  rw [← hback]
  exact hall c.toNat (toDigit_lt hd).2 (by rwa [hback])

theorem trim_of_hex {t : Name} (h : ∀ c ∈ t, IsHexDigit c) : trim t = t := by
  unfold trim
  have hfront : t.dropWhile isWhitespace = t := by
    rw [List.dropWhile_eq_self_iff]
    intro hpos
    rw [isWhitespace_of_hex (h _ (List.getElem_mem hpos))]
    exact Bool.false_ne_true
  rw [hfront, List.rdropWhile_eq_self_iff]
  intro hne
  rw [isWhitespace_of_hex (h _ (List.getLast_mem hne))]
  exact Bool.false_ne_true

theorem parseFileId_formatFileId {b : Bytes} (h : b.length = 8 ∨ b.length = 16) :
    parseFileId (formatFileId b) =
      some (.ok (b ++ List.replicate (fileIdBytes - b.length) 0, b.length)) := by
  obtain ⟨hlen, hhex⟩ := formatFileId_hex b
  have hsize : nameLen (formatFileId b) = 2 * b.length := (nameLen_of_hex hhex).trans hlen
  rw [(parseFileId_spec _).2, trim_of_hex hhex, pairValues_formatFileId, hsize]
  refine ⟨?_, accepted_of_hex hlen hhex, ?_, rfl⟩
  · rw [Sized, hsize]
    omega
  · omega

/-! ## What is read -/

/-- What an identity in text is to be read as: its digits, and nothing else. -/
def Meets (s : Name) : Prop :=
  parseFileId s ≠ none ∧ ((∃ id, parseFileId s = some (.ok id)) ↔ IsHex (trim s)) ∧
    ∀ bytes width, parseFileId s = some (.ok (bytes, width)) →
      formatFileId (bytes.take width) = lower (trim s)

/-- A text of the right length with the sign of a number in it, or with a character where a pair is
cut. -/
def Misread (t : Name) : Prop := Sized t ∧ (Accepted t ∧ '+' ∈ t ∨ Cut t)

theorem IsHex.sized {t : Name} (h : IsHex t) : Sized t := by
  rw [Sized, nameLen_of_hex h.2]
  exact h.1

theorem IsHex.accepted {t : Name} (h : IsHex t) : Accepted t := by
  have hlen := h.1
  exact @accepted_of_hex (t.length / 2) t (by omega) h.2

theorem not_isHexDigit_plus : ¬ IsHexDigit '+' := fun h => h toDigit_plus

theorem not_misread_of_meets {s : Name} (h : Meets s) : ¬ Misread (trim s) := by
  obtain ⟨hpanic, hhex, -⟩ := h
  obtain ⟨hnone, hok⟩ := parseFileId_spec s
  rintro ⟨hsized, ⟨haccepted, hplus⟩ | hcut⟩
  · have hread := (hok _ _).2 ⟨hsized, haccepted, rfl, rfl⟩
    exact not_isHexDigit_plus ((hhex.1 ⟨_, hread⟩).2 '+' hplus)
  · exact hpanic (hnone.2 ⟨hsized, hcut⟩)

theorem meets_of_not_misread {s : Name} (h : ¬ Misread (trim s)) : Meets s := by
  obtain ⟨hnone, hok⟩ := parseFileId_spec s
  have hplus : Sized (trim s) → Accepted (trim s) → '+' ∉ trim s :=
    fun hsized haccepted hplus => h ⟨hsized, .inl ⟨haccepted, hplus⟩⟩
  refine ⟨fun hpanic => ?_, ⟨?_, fun hhex => ?_⟩, fun bytes width hread => ?_⟩
  · obtain ⟨hsized, hcut⟩ := hnone.1 hpanic
    exact h ⟨hsized, .inr hcut⟩
  · rintro ⟨⟨bytes, width⟩, hread⟩
    obtain ⟨hsized, haccepted, -, -⟩ := (hok _ _).1 hread
    have hhex := haccepted.hex (hplus hsized haccepted)
    rw [Sized, nameLen_of_hex hhex] at hsized
    exact ⟨hsized, hhex⟩
  · exact ⟨_, (hok _ _).2 ⟨hhex.sized, hhex.accepted, rfl, rfl⟩⟩
  · obtain ⟨hsized, haccepted, rfl, rfl⟩ := (hok _ _).1 hread
    have hhex := haccepted.hex (hplus hsized haccepted)
    have hlen := haccepted.length_pairValues
    rw [nameLen_of_hex hhex, ← hlen, Nat.mul_div_cancel_left _ (by omega), List.take_left']
    · exact formatFileId_pairValues haccepted (hplus hsized haccepted)
    · rfl

/-- An identity in text is misread exactly with a sign in it, or with a character where a pair is cut;
and what is formatted is read back. -/
theorem fileId_spec (s : Name) (b : Bytes) :
    (Meets s ↔ ¬ Misread (trim s)) ∧
    (b.length = 8 ∨ b.length = 16 → parseFileId (formatFileId b) =
      some (.ok (b ++ List.replicate (fileIdBytes - b.length) 0, b.length))) :=
  ⟨⟨not_misread_of_meets, meets_of_not_misread⟩, parseFileId_formatFileId⟩

/-- Eight pairs `+1`. -/
def signedText : Name := (List.replicate 8 ['+', '1']).flatten

/-- Sixteen bytes, with a pair that begins inside of a character. -/
def cutText : Name := 'a' :: 'é' :: List.replicate 13 'a'

/-- A sign is read, and inside of a character the parser panics. -/
theorem fileId_intent : ¬ Meets signedText ∧ ¬ Meets cutText := by
  constructor
  · intro h
    have hread : parseFileId signedText =
        some (.ok (List.replicate 8 1 ++ List.replicate 8 0, 8)) := by
      decide +kernel
    have hhex := (h.2.1.1 ⟨_, hread⟩).2 '+' (by decide)
    exact hhex (by decide)
  · intro h
    exact h.1 (by decide +kernel)

end Sunpack.Usn
