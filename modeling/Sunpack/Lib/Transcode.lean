import Mathlib.Data.List.Basic
import Mathlib.Data.List.DropRight
import Mathlib.Data.List.Infix
import Mathlib.Tactic.Common

/-!
# Texts in two encodings

An encoding writes each symbol as one or more units. A predicate on symbols and one on units are
`Compat` if they agree on symbols that are one unit, and never hold inside another symbol's units:
the situation of ASCII delimiters in UTF-8 and UTF-16. Searching, splitting and trimming at such
symbols then commutes with encoding, so a program on one encoding can be compared with a program on
another one.
-/

namespace Sunpack.Lib

variable {α β : Type*}

/-- What is before and after the last element with `p`. -/
def splitLast (p : α → Bool) : List α → Option (List α × List α)
  | [] => none
  | a :: l =>
    match splitLast p l with
    | some (before, after) => some (a :: before, after)
    | none => if p a then some ([], l) else none

theorem splitLast_eq_none {p : α → Bool} {l : List α} :
    splitLast p l = none ↔ ∀ a ∈ l, p a = false := by
  induction l with
  | nil => simp [splitLast]
  | cons a l ih =>
    rw [splitLast]
    split
    · rename_i b c h
      have hne : ¬ ∀ a ∈ l, p a = false := fun hall => by simp [ih.2 hall] at h
      refine iff_of_false (by simp) fun hall => hne fun b hb => hall b (List.mem_cons_of_mem _ hb)
    · rename_i h
      have hl := ih.1 h
      cases hp : p a with
      | true => simp [hp]
      | false => simp only [Bool.false_eq_true, if_false, true_iff, List.mem_cons, forall_eq_or_imp]
                 exact ⟨hp, hl⟩

/-- The last separator is where it is found. -/
theorem splitLast_append {p : α → Bool} {before after : List α} {a : α} (ha : p a = true)
    (h : ∀ b ∈ after, p b = false) : splitLast p (before ++ a :: after) = some (before, after) := by
  induction before with
  | nil => rw [List.nil_append, splitLast, splitLast_eq_none.2 h, if_pos ha]
  | cons b before ih => rw [List.cons_append, splitLast, ih]

theorem splitLast_some {p : α → Bool} {l before after : List α}
    (h : splitLast p l = some (before, after)) :
    ∃ a, p a = true ∧ l = before ++ a :: after ∧ ∀ b ∈ after, p b = false := by
  induction l generalizing before with
  | nil => simp [splitLast] at h
  | cons a l ih =>
    rw [splitLast] at h
    split at h
    · rename_i b c hl
      obtain ⟨rfl, rfl⟩ := Prod.mk.inj (Option.some.inj h)
      obtain ⟨x, hx, rfl, hc⟩ := ih hl
      exact ⟨x, hx, rfl, hc⟩
    · rename_i hl
      split_ifs at h with ha
      obtain ⟨rfl, rfl⟩ := Prod.mk.inj (Option.some.inj h)
      exact ⟨a, ha, rfl, splitLast_eq_none.1 hl⟩

/-- No part holds a separator. -/
theorem forall_of_mem_splitOnP {p : α → Bool} {l part : List α} (h : part ∈ l.splitOnP p) :
    ∀ a ∈ part, p a = false := by
  induction l generalizing part with
  | nil =>
    rw [List.splitOnP_nil, List.mem_singleton] at h
    simp [h]
  | cons a l ih =>
    rw [List.splitOnP_cons_eq_if_modifyHead] at h
    split_ifs at h with ha
    · rcases List.mem_cons.1 h with rfl | h
      · simp
      · exact ih h
    · obtain ⟨first, rest, heq⟩ := List.exists_cons_of_ne_nil (List.splitOnP_ne_nil p l)
      rw [heq, List.modifyHead_cons] at h
      rcases List.mem_cons.1 h with rfl | h
      · rw [List.forall_mem_cons]
        exact ⟨by simpa using ha, ih (heq ▸ List.mem_cons_self)⟩
      · exact ih (heq ▸ List.mem_cons_of_mem _ h)

/-! ## Compatible predicates -/

variable (enc : α → List β)

/-- A text, unit by unit. -/
def encode (l : List α) : List β := l.flatMap enc

@[simp] theorem encode_nil : encode enc [] = [] := rfl

@[simp] theorem encode_cons (a : α) (l : List α) : encode enc (a :: l) = enc a ++ encode enc l := rfl

@[simp] theorem encode_append (l l' : List α) :
    encode enc (l ++ l') = encode enc l ++ encode enc l' :=
  List.flatMap_append

theorem encode_intercalate (separator : List α) (parts : List (List α)) :
    encode enc (separator.intercalate parts) =
      (encode enc separator).intercalate (parts.map (encode enc)) := by
  induction parts with
  | nil => rfl
  | cons part parts ih =>
    cases parts with
    | nil => simp
    | cons next parts =>
      rw [List.map_cons, List.map_cons, List.intercalate_cons_cons, List.intercalate_cons_cons,
        encode_append, encode_append, ih, List.map_cons]

/-- Symbols with `p` are one unit with `q`; the units of other symbols are not with `q`. -/
structure Compat (p : α → Bool) (q : β → Bool) : Prop where
  single : ∀ a, p a = true → ∃ b, enc a = [b] ∧ q b = true
  other : ∀ a, p a = false → enc a ≠ [] ∧ ∀ b ∈ enc a, q b = false

namespace Compat

variable {enc} {p : α → Bool} {q : β → Bool} (h : Compat enc p q)
include h

theorem or {p' : α → Bool} {q' : β → Bool} (h' : Compat enc p' q') :
    Compat enc (fun a => p a || p' a) fun b => q b || q' b where
  single a ha := by
    rcases Bool.or_eq_true_iff.1 ha with ha | ha
    · obtain ⟨b, hb, hq⟩ := h.single a ha
      exact ⟨b, hb, by simp [hq]⟩
    · obtain ⟨b, hb, hq⟩ := h'.single a ha
      exact ⟨b, hb, by simp [hq]⟩
  other a ha := by
    obtain ⟨h₁, h₂⟩ := Bool.or_eq_false_iff.1 ha
    exact ⟨(h.other a h₁).1, fun b hb => by simp [(h.other a h₁).2 b hb, (h'.other a h₂).2 b hb]⟩

theorem enc_ne_nil (a : α) : enc a ≠ [] := by
  cases hp : p a with
  | true =>
    obtain ⟨b, hb, _⟩ := h.single a hp
    simp [hb]
  | false => exact (h.other a hp).1

theorem encode_eq_nil {l : List α} : encode enc l = [] ↔ l = [] := by
  cases l with
  | nil => simp
  | cons a l => simp [h.enc_ne_nil a]

theorem any (l : List α) : (encode enc l).any q = l.any p := by
  induction l with
  | nil => rfl
  | cons a l ih =>
    rw [encode_cons, List.any_append, ih, List.any_cons]
    congr 1
    cases hp : p a with
    | true =>
      obtain ⟨b, hb, hq⟩ := h.single a hp
      simp [hb, hq]
    | false => simpa using (h.other a hp).2

theorem takeWhile_not (l : List α) :
    (encode enc l).takeWhile (fun b => !q b) = encode enc (l.takeWhile fun a => !p a) := by
  induction l with
  | nil => rfl
  | cons a l ih =>
    cases hp : p a with
    | true =>
      obtain ⟨b, hb, hq⟩ := h.single a hp
      simp [hb, hq, hp]
    | false =>
      have hall : ∀ b ∈ enc a, (!q b) = true := fun b hb => by simp [(h.other a hp).2 b hb]
      rw [encode_cons, List.takeWhile_append_of_pos hall, ih, List.takeWhile_cons_of_pos (by simp [hp]),
        encode_cons]

theorem rdropWhile (l : List α) : (encode enc l).rdropWhile q = encode enc (l.rdropWhile p) := by
  induction l using List.reverseRecOn with
  | nil => rfl
  | append_singleton l a ih =>
    have happ : encode enc (l ++ [a]) = encode enc l ++ enc a := by simp
    rw [happ]
    cases hp : p a with
    | true =>
      obtain ⟨b, hb, hq⟩ := h.single a hp
      rw [hb, List.rdropWhile_concat_pos q _ b hq, List.rdropWhile_concat_pos p _ a hp, ih]
    | false =>
      obtain ⟨l', b, hb⟩ := List.eq_nil_or_concat (enc a) |>.resolve_left (h.other a hp).1
      have hq : q b = false := (h.other a hp).2 b (by simp [hb])
      rw [List.rdropWhile_concat_neg p _ a (by simp [hp]), happ, hb, List.concat_eq_append,
        ← List.append_assoc, List.rdropWhile_concat_neg q _ b (by simp [hq])]

/-- As many units are trimmed as symbols. -/
theorem length_sub_rdropWhile (l : List α) :
    (encode enc l).length - (encode enc (l.rdropWhile p)).length =
      l.length - (l.rdropWhile p).length := by
  have hsingle (tail : List α) (htail : ∀ a ∈ tail, p a = true) :
      (encode enc tail).length = tail.length := by
    induction tail with
    | nil => rfl
    | cons a tail ih =>
      obtain ⟨b, hb, _⟩ := h.single a (htail a (List.mem_cons_self))
      rw [encode_cons, hb, List.length_append, ih fun c hc => htail c (List.mem_cons_of_mem _ hc),
        List.length_singleton, List.length_cons, Nat.add_comm]
  have htail := hsingle (l.rtakeWhile p) fun a ha => List.mem_rtakeWhile_imp ha
  have hl : l.rdropWhile p ++ l.rtakeWhile p = l := List.rdropWhile_append_rtakeWhile
  have hlen : (encode enc l).length =
      (encode enc (l.rdropWhile p)).length + (l.rtakeWhile p).length := by
    rw [← htail, ← List.length_append, ← encode_append, hl]
  have hlen' : l.length = (l.rdropWhile p).length + (l.rtakeWhile p).length := by
    rw [← List.length_append, hl]
  omega

theorem splitOnP (l : List α) :
    (encode enc l).splitOnP q = (l.splitOnP p).map (encode enc) := by
  induction l with
  | nil => simp
  | cons a l ih =>
    cases hp : p a with
    | true =>
      obtain ⟨b, hb, hq⟩ := h.single a hp
      simp [hb, List.splitOnP_cons_eq_if_modifyHead, hq, hp, ih]
    | false =>
      have hstep (units : List β) (hunits : ∀ b ∈ units, q b = false) (rest : List β) :
          (units ++ rest).splitOnP q = (rest.splitOnP q).modifyHead (units ++ ·) := by
        induction units with
        | nil =>
          rw [List.nil_append]
          cases rest.splitOnP q <;> simp
        | cons b units ihu =>
          rw [List.cons_append, List.splitOnP_cons_eq_if_modifyHead, if_neg (by simp [hunits b]),
            ihu fun c hc => hunits c (List.mem_cons_of_mem _ hc)]
          cases rest.splitOnP q <;> simp
      rw [encode_cons, hstep _ (h.other a hp).2, ih, List.splitOnP_cons_eq_if_modifyHead,
        if_neg (by simp [hp])]
      cases l.splitOnP p <;> simp

theorem splitLast (l : List α) : splitLast q (encode enc l) =
    (splitLast p l).map fun r => (encode enc r.1, encode enc r.2) := by
  cases hl : Lib.splitLast p l with
  | none =>
    rw [Option.map_none, splitLast_eq_none]
    rw [splitLast_eq_none] at hl
    have hany : (encode enc l).any q = false := by
      rw [h.any, List.any_eq_false]
      simpa using hl
    simpa [List.any_eq_false] using hany
  | some r =>
    obtain ⟨before, after⟩ := r
    obtain ⟨a, ha, rfl, hafter⟩ := splitLast_some hl
    obtain ⟨b, hb, hq⟩ := h.single a ha
    have hany : (encode enc after).any q = false := by
      rw [h.any, List.any_eq_false]
      simpa using hafter
    rw [encode_append, encode_cons, hb, List.singleton_append, splitLast_append hq]
    · rfl
    · simpa [List.any_eq_false] using hany

end Compat

/-! ## Character encodings -/

/-- An encoding in which ASCII characters are themselves and no other character has ASCII units;
`code` reads a unit as a number. -/
structure AsciiTransparent (enc : Char → List β) (code : β → Nat) : Prop where
  ascii : ∀ c : Char, c.toNat < 128 → ∃ b, enc c = [b] ∧ code b = c.toNat
  other : ∀ c : Char, 128 ≤ c.toNat → enc c ≠ [] ∧ ∀ b ∈ enc c, 128 ≤ code b

namespace AsciiTransparent

variable {enc : Char → List β} {code : β → Nat} (h : AsciiTransparent enc code)
include h

/-- A test for some ASCII characters. -/
theorem compat {P : Nat → Bool} (hP : ∀ n, P n = true → n < 128) :
    Compat enc (fun c => P c.toNat) fun b => P (code b) where
  single c hc := by
    obtain ⟨b, hb, hcode⟩ := h.ascii c (hP _ hc)
    exact ⟨b, hb, by rw [hcode, hc]⟩
  other c hc := by
    rcases Nat.lt_or_ge c.toNat 128 with hlt | hge
    · obtain ⟨b, hb, hcode⟩ := h.ascii c hlt
      simp [hb, hcode, hc]
    · refine ⟨(h.other c hge).1, fun b hb => ?_⟩
      rw [Bool.eq_false_iff]
      exact fun hp => absurd (hP _ hp) (Nat.not_lt.2 ((h.other c hge).2 b hb))

theorem encode_eq_nil {l : List Char} : encode enc l = [] ↔ l = [] :=
  (h.compat (P := fun _ => false) (by simp)).encode_eq_nil

/-- The codes are such an encoding too. -/
theorem codes : AsciiTransparent (fun c => (enc c).map code) id where
  ascii c hc := by
    obtain ⟨b, hb, hcode⟩ := h.ascii c hc
    exact ⟨c.toNat, by simp [hb, hcode], rfl⟩
  other c hc := by
    obtain ⟨hne, hall⟩ := h.other c hc
    refine ⟨by simpa using hne, fun n hn => ?_⟩
    obtain ⟨b, hb, rfl⟩ := List.mem_map.1 hn
    exact hall b hb

/-- The codes of an ASCII text. -/
theorem map_code_of_ascii {l : List Char} (hl : ∀ c ∈ l, c.toNat < 128) :
    (encode enc l).map code = l.map Char.toNat := by
  induction l with
  | nil => rfl
  | cons c l ih =>
    obtain ⟨b, hb, hcode⟩ := h.ascii c (hl c (List.mem_cons_self))
    rw [encode_cons, hb, List.singleton_append, List.map_cons, List.map_cons, hcode,
      ih fun d hd => hl d (List.mem_cons_of_mem _ hd)]

/-- Only an ASCII text has ASCII codes. -/
theorem ascii_of_codes {l : List Char} (hl : ∀ n ∈ (encode enc l).map code, n < 128) :
    ∀ c ∈ l, c.toNat < 128 := by
  intro c hc
  by_contra hge
  obtain ⟨hne, hcodes⟩ := h.other c (Nat.not_lt.1 hge)
  obtain ⟨b, hb⟩ := List.exists_mem_of_ne_nil _ hne
  have hmem : b ∈ encode enc l := List.mem_flatMap.2 ⟨c, hc, hb⟩
  exact absurd (hl _ (List.mem_map_of_mem hmem)) (Nat.not_lt.2 (hcodes b hb))

/-- A test that only ASCII lists pass gives the same answer on codes as on characters. -/
theorem test_codes {test : List Nat → Bool} (htest : ∀ l, test l = true → ∀ n ∈ l, n < 128)
    (l : List Char) : test ((encode enc l).map code) = test (l.map Char.toNat) := by
  rw [Bool.eq_iff_iff]
  constructor
  · intro hl
    rwa [← h.map_code_of_ascii (h.ascii_of_codes (htest _ hl))]
  · intro hl
    rwa [h.map_code_of_ascii fun c hc => htest _ hl _ (List.mem_map_of_mem hc)]

end AsciiTransparent

theorem encode_toNat (l : List Char) : encode (fun c => [c.toNat]) l = l.map Char.toNat := by
  induction l with
  | nil => rfl
  | cons c l ih => rw [encode_cons, ih, List.singleton_append, List.map_cons]

/-- A character as its own code. -/
theorem AsciiTransparent.toNat : AsciiTransparent (fun c => [c.toNat]) id where
  ascii c _ := ⟨c.toNat, rfl, rfl⟩
  other c hc := by simpa using hc

theorem encode_codes (enc : Char → List β) (code : β → Nat) (l : List Char) :
    (encode enc l).map code = encode (fun c => (enc c).map code) l :=
  List.map_flatMap

/-- A map of symbols that the encoding turns into a map of units. -/
theorem encode_map {f : α → α} {g : β → β} (h : ∀ a, (enc a).map g = enc (f a)) (l : List α) :
    (encode enc l).map g = encode enc (l.map f) := by
  induction l with
  | nil => rfl
  | cons a l ih => simp [h, ih]

end Sunpack.Lib
