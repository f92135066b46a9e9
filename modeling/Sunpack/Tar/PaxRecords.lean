import Sunpack.Tar.Pax

/-!
# What PAX records give

A payload that is a list of records reads back as the last values of its keys, up to the budget. Whatever
the payload is, the walk over it ends, and what it accepts is text and within the budget.
-/

namespace Sunpack.Tar

open Lib

/-! ## Records -/

/-- A record as it is written. The length in front counts the whole record. -/
structure Record where
  digits : Bytes
  key : Bytes
  value : Bytes
  all_digits : digits.all isDigit = true
  digits_length : digits.length ≤ 20
  decimal_digits : decimal digits = digits.length + key.length + value.length + 3
  decimal_lt : decimal digits < 2 ^ 64
  key_length : key.length ≤ 200
  no_equals : equals ∉ key
  text_value : relevant key = true → isText value = true

namespace Record

variable (r : Record)

def bytes : Bytes := r.digits ++ space :: (r.key ++ equals :: (r.value ++ [newline]))

theorem length_bytes : r.bytes.length = decimal r.digits := by
  rw [r.decimal_digits]
  simp only [bytes, List.length_append, List.length_cons, List.length_nil]
  omega

theorem digits_ne_nil : r.digits ≠ [] := by
  intro h
  have hdecimal := r.decimal_digits
  rw [h] at hdecimal
  simp [decimal] at hdecimal

theorem parseLength_digits : parseLength r.digits = some (decimal r.digits) :=
  if_pos ⟨r.digits_ne_nil, r.all_digits, r.decimal_lt⟩

theorem not_space {b : UInt8} (h : b ∈ r.digits) : decide (b = space) = false := by
  have hdigit := List.all_eq_true.1 r.all_digits b h
  simp only [isDigit, decide_eq_true_eq] at hdigit
  rw [decide_eq_false_iff_not]
  intro heq
  rw [heq] at hdigit
  exact absurd hdigit.1 (by decide)

theorem not_equals {b : UInt8} (h : b ∈ r.key) : decide (b = equals) = false := by
  rw [decide_eq_false_iff_not]
  intro heq
  exact r.no_equals (heq ▸ h)

end Record

def payload (records : List Record) : Bytes := records.flatMap Record.bytes

/-! ## What is kept -/

/-- The lengths of the values that are kept. -/
def total (records : Dict Bytes Bytes) : Nat := (relevantKeys.map (oldLength records)).sum

theorem oldLength_set (records : Dict Bytes Bytes) (key value key' : Bytes) :
    oldLength (records.set key value) key' =
      if key' = key then value.length else oldLength records key' := by
  unfold oldLength
  rw [Dict.get?_set]
  split_ifs <;> rfl

theorem relevantKeys_nodup : relevantKeys.Nodup := by decide

theorem sum_set {keys : List Bytes} (hnodup : keys.Nodup) {key : Bytes} (hkey : key ∈ keys)
    (records : Dict Bytes Bytes) (value : Bytes) :
    (keys.map (oldLength (records.set key value))).sum + oldLength records key =
      (keys.map (oldLength records)).sum + value.length := by
  induction keys with
  | nil => simp at hkey
  | cons k keys ih =>
    rw [List.nodup_cons] at hnodup
    simp only [List.map_cons, List.sum_cons, oldLength_set]
    by_cases hk : k = key
    · subst hk
      have hrest : keys.map (oldLength (records.set k value)) = keys.map (oldLength records) := by
        apply List.map_congr_left
        intro k' hk'
        rw [oldLength_set, if_neg]
        intro heq
        exact hnodup.1 (heq ▸ hk')
      rw [if_pos rfl, hrest]
      omega
    · have hmem : key ∈ keys := (List.mem_cons.1 hkey).resolve_left (Ne.symm hk)
      have hsum := ih hnodup.2 hmem
      rw [if_neg hk]
      omega

theorem total_set {key : Bytes} (hkey : relevant key = true) (records : Dict Bytes Bytes)
    (value : Bytes) :
    total (records.set key value) + oldLength records key = total records + value.length :=
  sum_set relevantKeys_nodup (by simpa [relevant] using hkey) records value

theorem oldLength_le_total {key : Bytes} (hkey : relevant key = true) (records : Dict Bytes Bytes) :
    oldLength records key ≤ total records := by
  have hmem : key ∈ relevantKeys := by simpa [relevant] using hkey
  exact List.single_le_sum (fun _ _ => Nat.zero_le _) _ (List.mem_map_of_mem hmem)

def keep (records : Dict Bytes Bytes) (r : Record) : Dict Bytes Bytes :=
  if relevant r.key then records.set r.key r.value else records

def kept (records : List Record) : Dict Bytes Bytes := records.foldl keep ∅

/-- The value of the last record with the key. -/
def lastValue (records : List Record) (key : Bytes) : Option Bytes :=
  (records.reverse.find? fun r => r.key = key).map Record.value

theorem get?_kept (records : List Record) (key : Bytes) :
    (kept records).get? key = if relevant key then lastValue records key else none := by
  induction records using List.reverseRecOn with
  | nil => simp [kept, lastValue]
  | append_singleton records r ih =>
    have hkept : kept (records ++ [r]) = keep (kept records) r := by
      rw [kept, List.foldl_append]
      rfl
    have hlast : lastValue (records ++ [r]) key =
        if r.key = key then some r.value else lastValue records key := by
      unfold lastValue
      rw [List.reverse_append, List.reverse_singleton, List.singleton_append, List.find?_cons]
      by_cases hkey : r.key = key
      · simp [hkey]
      · simp [hkey]
    rw [hkept, hlast, keep]
    by_cases hkey : r.key = key
    · subst hkey
      by_cases hrelevant : relevant r.key = true
      · rw [if_pos hrelevant, if_pos hrelevant, if_pos rfl, Dict.get?_set_self]
      · rw [if_neg hrelevant, if_neg hrelevant, ih, if_neg hrelevant]
    · have hset : (if relevant r.key = true then (kept records).set r.key r.value else kept records).get?
          key = (kept records).get? key := by
        split_ifs
        · exact Dict.get?_set_of_ne _ (Ne.symm hkey) _
        · rfl
      rw [hset, ih, if_neg hkey]

/-- A record fits into the budget, behind what is kept. -/
def Record.Fits (records : Dict Bytes Bytes) (r : Record) : Prop :=
  relevant r.key = true →
    r.key.length + r.value.length ≤ MAX_METADATA ∧ total (records.set r.key r.value) ≤ MAX_METADATA

def FitFrom (records : Dict Bytes Bytes) : List Record → Prop
  | [] => True
  | r :: rest => r.Fits records ∧ FitFrom (keep records r) rest

def Fit (records : List Record) : Prop := FitFrom ∅ records

/-! ## Reading -/

/-- Inside of the input the reader returns what is there. -/
def Reads (read : ReadAt) (input : Bytes) : Prop :=
  ∀ start size, start + size ≤ input.length → read start size = .ok ((input.drop start).take size)

def readList (input : Bytes) : ReadAt := fun start size => .ok ((input.drop start).take size)

theorem reads_readList (input : Bytes) : Reads (readList input) input := fun _ _ _ => rfl

section

variable {read : ReadAt} {input front part back : Bytes}

theorem readExact_part (hread : Reads read input) (hinput : input = front ++ (part ++ back))
    {offset size : Nat} (hle : offset + size ≤ part.length) :
    readExact read (front.length + offset) size = .ok ((part.drop offset).take size) := by
  have hlen : front.length + offset + size ≤ input.length := by
    rw [hinput, List.length_append, List.length_append]
    omega
  have hslice : (input.drop (front.length + offset)).take size = (part.drop offset).take size := by
    rw [hinput, ← List.drop_drop, List.drop_left, List.drop_append_of_le_length (by omega),
      List.take_append_of_le_length]
    rw [List.length_drop]
    omega
  rw [readExact, hread _ _ hlen, hslice]
  have hsize : ((part.drop offset).take size).length = size := by
    rw [List.length_take, List.length_drop]
    omega
  exact if_pos hsize

/-- A part of a part. -/
theorem readExact_inner (hread : Reads read input) {before inner after : Bytes}
    (hinput : input = front ++ (part ++ back)) (hpart : part = before ++ (inner ++ after)) :
    readExact read (front.length + before.length) inner.length = .ok inner := by
  rw [readExact_part hread hinput (by rw [hpart]; simp), hpart, List.drop_left,
    List.take_left]

/-! ## One record -/

theorem findIdx?_split {α : Type} {p : α → Bool} {before after : List α} {a : α}
    (hbefore : ∀ b ∈ before, p b = false) (ha : p a = true) :
    (before ++ a :: after).findIdx? p = some before.length := by
  induction before with
  | nil => simp [List.findIdx?_cons, ha]
  | cons b before ih =>
    rw [List.cons_append, List.findIdx?_cons, hbefore b List.mem_cons_self,
      ih fun c hc => hbefore c (List.mem_cons_of_mem b hc)]
    rfl

/-- What is read at the start of a record. -/
theorem Record.take_bytes (r : Record) (rest : Bytes) :
    (r.bytes ++ rest).take 256 =
      r.digits ++ space :: (r.key ++ equals :: (r.value ++ newline :: rest)).take (255 - r.digits.length) := by
  have hdigits := r.digits_length
  have hsplit : r.bytes ++ rest =
      r.digits ++ space :: (r.key ++ equals :: (r.value ++ newline :: rest)) := by
    simp [Record.bytes]
  have hcount : 256 - r.digits.length = 255 - r.digits.length + 1 := by omega
  rw [hsplit, List.take_append, List.take_of_length_le (by omega), hcount, List.take_succ_cons]

theorem Record.recordLength_bytes (r : Record) (rest : Bytes) {limit : Nat}
    (hlimit : decimal r.digits ≤ limit) :
    recordLength ((r.bytes ++ rest).take 256) limit = some (r.digits.length, decimal r.digits) := by
  have hdecimal := r.decimal_digits
  have hfind : ((r.bytes ++ rest).take 256).findIdx? (fun b => b = space) = some r.digits.length := by
    rw [r.take_bytes]
    exact findIdx?_split (fun b hb => r.not_space hb) (by simp)
  have htake : ((r.bytes ++ rest).take 256).take r.digits.length = r.digits := by
    rw [r.take_bytes, List.take_left]
  rw [recordLength, hfind, Option.bind_some, htake, r.parseLength_digits, Option.filter_some, if_pos]
  · rfl
  · simp only [decide_eq_true_eq]
    omega

/-- The key of the record is found within what is read. -/
theorem Record.body (r : Record) (rest : Bytes) :
    ∃ after,
      ((((r.bytes ++ rest).take 256).drop (r.digits.length + 1)).take
        (min ((r.bytes ++ rest).take 256).length (decimal r.digits - 1) - (r.digits.length + 1))) =
          r.key ++ equals :: after := by
  have hdecimal := r.decimal_digits
  have hdigits := r.digits_length
  have hkey := r.key_length
  have hlength := r.length_bytes
  have hdrop : ((r.bytes ++ rest).take 256).drop (r.digits.length + 1) =
      (r.key ++ equals :: (r.value ++ newline :: rest)).take (255 - r.digits.length) := by
    rw [r.take_bytes, ← List.drop_drop, List.drop_left]
    rfl
  rw [hdrop, List.take_take, List.length_take, List.length_append, hlength]
  obtain ⟨n, hn⟩ : ∃ n, min (min (min 256 (decimal r.digits + rest.length)) (decimal r.digits - 1) -
      (r.digits.length + 1)) (255 - r.digits.length) = r.key.length + (n + 1) :=
    ⟨_, (Nat.add_sub_cancel' (n := _) (m := r.key.length + 1) (by omega)).symm.trans (by
      rw [Nat.add_assoc, Nat.add_comm 1])⟩
  rw [hn, List.take_append, List.take_of_length_le (by omega), Nat.add_sub_cancel_left,
    List.take_succ_cons]
  exact ⟨_, rfl⟩

theorem relevant_text {key : Bytes} (h : relevant key = true) : isText key = true := by
  have hmem : key ∈ relevantKeys := by simpa [relevant] using h
  simp only [relevantKeys, List.mem_cons, List.not_mem_nil, or_false] at hmem
  rcases hmem with rfl | rfl | rfl
  · simp [isText, pathKey]
  · simp [isText, linkpathKey]
  · simp [isText, sizeKey]

section

variable {before rest : Bytes} {r : Record} {records : Dict Bytes Bytes}

theorem paxRecord_eq (hread : Reads read input)
    (hinput : input = front ++ (before ++ (r.bytes ++ rest) ++ back)) :
    paxRecord read front.length (before ++ (r.bytes ++ rest)).length
        ⟨before.length, records, total records⟩ =
      paxBody read front.length ⟨before.length, records, total records⟩ ((r.bytes ++ rest).take 256)
        r.digits.length (decimal r.digits) := by
  have hdecimal := r.decimal_digits
  have hlength := r.length_bytes
  have hsize : (before ++ (r.bytes ++ rest)).length - before.length = (r.bytes ++ rest).length := by
    rw [List.length_append, Nat.add_sub_cancel_left]
  have hfront : readExact read (front.length + before.length) (min (r.bytes ++ rest).length 256) =
      .ok ((r.bytes ++ rest).take 256) := by
    have hle : before.length + min (r.bytes ++ rest).length 256 ≤
        (before ++ (r.bytes ++ rest)).length := by
      simp only [List.length_append]
      omega
    rw [readExact_part hread hinput hle, List.drop_left, ← List.take_take, List.take_of_length_le]
    rw [List.length_take]
    omega
  have hlast : readExact read (front.length + (before.length + decimal r.digits) - 1) 1 =
      .ok [newline] := by
    have hpart : before ++ (r.bytes ++ rest) =
        (before ++ (r.digits ++ space :: (r.key ++ equals :: r.value))) ++ ([newline] ++ rest) := by
      simp [Record.bytes]
    have hinner := readExact_inner hread hinput hpart
    have hplace : front.length + (before ++ (r.digits ++ space :: (r.key ++ equals :: r.value))).length =
        front.length + (before.length + decimal r.digits) - 1 := by
      simp only [List.length_append, List.length_cons]
      omega
    rw [hplace] at hinner
    exact hinner
  have hlimit : decimal r.digits ≤ (r.bytes ++ rest).length := by
    rw [List.length_append]
    omega
  simp only [paxRecord, hsize, hfront, Except.bind, r.recordLength_bytes rest hlimit, hlast, if_true]

theorem paxBody_eq :
    paxBody read front.length ⟨before.length, records, total records⟩ ((r.bytes ++ rest).take 256)
        r.digits.length (decimal r.digits) =
      if relevant r.key = true then
        paxValue read front.length ⟨before.length, records, total records⟩ r.key
          (before.length + r.digits.length + r.key.length + 2) (before.length + decimal r.digits)
      else .ok ⟨before.length + decimal r.digits, records, total records⟩ := by
  obtain ⟨after, hbody⟩ := r.body rest
  have hfind : (r.key ++ equals :: after).findIdx? (fun b => b = equals) = some r.key.length :=
    findIdx?_split (fun b hb => r.not_equals hb) (by simp)
  simp only [paxBody, hbody, hfind, List.take_left]
  by_cases hrelevant : relevant r.key = true
  · rw [if_pos ⟨relevant_text hrelevant, hrelevant⟩, if_pos hrelevant]
  · rw [if_neg fun h => hrelevant h.2, if_neg hrelevant]

theorem paxValue_eq (hread : Reads read input)
    (hinput : input = front ++ (before ++ (r.bytes ++ rest) ++ back)) (hrelevant : relevant r.key = true) :
    (r.Fits records →
      paxValue read front.length ⟨before.length, records, total records⟩ r.key
          (before.length + r.digits.length + r.key.length + 2) (before.length + decimal r.digits) =
        .ok ⟨before.length + decimal r.digits, records.set r.key r.value,
          total (records.set r.key r.value)⟩) ∧
      (¬r.Fits records →
        paxValue read front.length ⟨before.length, records, total records⟩ r.key
            (before.length + r.digits.length + r.key.length + 2) (before.length + decimal r.digits) =
          .error overBudget) := by
  have hdecimal := r.decimal_digits
  have hlen : before.length + decimal r.digits - 1 -
      (before.length + r.digits.length + r.key.length + 2) = r.value.length := by omega
  have hsum := total_set hrelevant records r.value
  have hold := oldLength_le_total hrelevant records
  have hafter : total records - oldLength records r.key + r.value.length =
      total (records.set r.key r.value) := by omega
  simp only [paxValue, hlen, hafter]
  constructor
  · intro hfits
    obtain ⟨hvalue, htotal⟩ := hfits hrelevant
    have hpart : before ++ (r.bytes ++ rest) =
        (before ++ (r.digits ++ space :: (r.key ++ [equals]))) ++ (r.value ++ (newline :: rest)) := by
      simp [Record.bytes]
    have hinner := readExact_inner hread hinput hpart
    have hplace : front.length + (before ++ (r.digits ++ space :: (r.key ++ [equals]))).length =
        front.length + (before.length + r.digits.length + r.key.length + 2) := by
      simp only [List.length_append, List.length_cons, List.length_nil]
      omega
    rw [hplace] at hinner
    rw [if_neg (by omega), hinner]
    simp only [Except.bind, r.text_value hrelevant, if_true, hafter]
  · intro hfits
    rw [if_pos]
    by_contra hnot
    apply hfits
    intro _
    omega

theorem paxRecord_of_fits (hread : Reads read input)
    (hinput : input = front ++ (before ++ (r.bytes ++ rest) ++ back)) (hfits : r.Fits records) :
    paxRecord read front.length (before ++ (r.bytes ++ rest)).length
        ⟨before.length, records, total records⟩ =
      .ok ⟨(before ++ r.bytes).length, keep records r, total (keep records r)⟩ := by
  rw [paxRecord_eq hread hinput, paxBody_eq, List.length_append, r.length_bytes, keep]
  by_cases hrelevant : relevant r.key = true
  · rw [if_pos hrelevant, if_pos hrelevant]
    exact (paxValue_eq hread hinput hrelevant).1 hfits
  · rw [if_neg hrelevant, if_neg hrelevant]

theorem paxRecord_of_not_fits (hread : Reads read input)
    (hinput : input = front ++ (before ++ (r.bytes ++ rest) ++ back)) (hfits : ¬r.Fits records) :
    paxRecord read front.length (before ++ (r.bytes ++ rest)).length
        ⟨before.length, records, total records⟩ = .error overBudget := by
  have hrelevant : relevant r.key = true := by
    by_contra hnot
    exact hfits fun h => absurd h hnot
  rw [paxRecord_eq hread hinput, paxBody_eq, if_pos hrelevant]
  exact (paxValue_eq hread hinput hrelevant).2 hfits

end

/-! ## All records -/

theorem payload_cons (r : Record) (records : List Record) (before : Bytes) :
    before ++ payload (r :: records) = before ++ r.bytes ++ payload records := by
  rw [payload, List.flatMap_cons, ← List.append_assoc]
  rfl

/-- The record at the cursor, apart from those behind it. -/
theorem input_cons {r : Record} {records : List Record} {before : Bytes}
    (hinput : input = front ++ (before ++ payload (r :: records) ++ back)) :
    input = front ++ (before ++ (r.bytes ++ payload records) ++ back) := by
  rw [← List.append_assoc before, ← payload_cons]
  exact hinput

theorem cursor_lt (r : Record) (before rest : Bytes) :
    before.length < (before ++ r.bytes ++ rest).length := by
  have hdecimal := r.decimal_digits
  rw [List.length_append, List.length_append, r.length_bytes]
  omega

theorem ends_of_fit (hread : Reads read input) (records : List Record) :
    ∀ (d : Dict Bytes Bytes) (before : Bytes), input = front ++ (before ++ payload records ++ back) →
      FitFrom d records →
      Ends (paxTurn read front.length (before ++ payload records).length)
        ⟨before.length, d, total d⟩ (.ok (records.foldl keep d)) := by
  induction records with
  | nil =>
    intro d before _ _
    apply Ends.done
    simp [paxTurn, payload]
  | cons r records ih =>
    intro d before hinput hfit
    obtain ⟨hfits, hrest⟩ := hfit
    have hinput' := input_cons hinput
    have hrecord := paxRecord_of_fits hread hinput' hfits
    rw [← List.append_assoc before] at hrecord
    rw [payload_cons] at hinput ⊢
    have hlt := cursor_lt r before (payload records)
    refine .next ?_ (ih (keep d r) (before ++ r.bytes) hinput hrest)
    rw [paxTurn, if_pos hlt, hrecord]

theorem ends_of_not_fit (hread : Reads read input) (records : List Record) :
    ∀ (d : Dict Bytes Bytes) (before : Bytes), input = front ++ (before ++ payload records ++ back) →
      ¬FitFrom d records →
      Ends (paxTurn read front.length (before ++ payload records).length)
        ⟨before.length, d, total d⟩ (.error overBudget) := by
  induction records with
  | nil =>
    intro d before _ hfit
    exact absurd trivial hfit
  | cons r records ih =>
    intro d before hinput hfit
    have hinput' := input_cons hinput
    have hlt := cursor_lt r before (payload records)
    rw [payload_cons] at hinput ⊢
    by_cases hfits : r.Fits d
    · have hrecord := paxRecord_of_fits hread hinput' hfits
      rw [← List.append_assoc before] at hrecord
      refine .next ?_ (ih (keep d r) (before ++ r.bytes) hinput fun hrest => hfit ⟨hfits, hrest⟩)
      rw [paxTurn, if_pos hlt, hrecord]
    · have hrecord := paxRecord_of_not_fits hread hinput' hfits
      rw [← List.append_assoc before] at hrecord
      apply Ends.done
      rw [paxTurn, if_pos hlt, hrecord]

end

/-! ## Any payload -/

theorem bind_ok {α β : Type} {x : Except IoError α} {f : α → Except IoError β} {b : β}
    (h : x.bind f = .ok b) : ∃ a, x = .ok a ∧ f a = .ok b := by
  cases x with
  | error e => simp [Except.bind] at h
  | ok a => exact ⟨a, rfl, h⟩

/-- What is kept is text under the keys that matter, within the budget. -/
structure Bounded (records : Dict Bytes Bytes) : Prop where
  text : ∀ key value, records.get? key = some value → relevant key = true ∧ isText value = true
  total_le : total records ≤ MAX_METADATA

/-- A record that is accepted moves the cursor on, and keeps one value at most. -/
structure Advances (s s' : PaxState) : Prop where
  cursor : s.cursor < s'.cursor
  records : s'.records = s.records ∧ s'.retained = s.retained ∨
    ∃ key value, relevant key = true ∧ isText value = true ∧ s'.records = s.records.set key value ∧
      s'.retained = s.retained - oldLength s.records key + value.length ∧ s'.retained ≤ MAX_METADATA

section

variable {read : ReadAt} {start size : Nat} {s s' : PaxState}

theorem readExact_length {data : Bytes} (h : readExact read start size = .ok data) :
    data.length = size := by
  obtain ⟨data', -, h⟩ := bind_ok h
  split_ifs at h with hlen
  rw [Except.ok.injEq] at h
  rw [← h]
  exact hlen

theorem recordLength_spec {front : Bytes} {limit at' n : Nat}
    (h : recordLength front limit = some (at', n)) : at' + 2 < n ∧ n ≤ limit := by
  obtain ⟨at'', -, h⟩ := Option.bind_eq_some_iff.1 h
  obtain ⟨n', hn, heq⟩ := Option.map_eq_some_iff.1 h
  rw [Option.filter_eq_some_iff] at hn
  simp only [Prod.mk.injEq] at heq
  obtain ⟨rfl, rfl⟩ := heq
  simpa using hn.2

theorem paxValue_advances {key : Bytes} {valueStart stop : Nat} (hstop : s.cursor < stop)
    (hkey : relevant key = true) (h : paxValue read start s key valueStart stop = .ok s') :
    Advances s s' := by
  unfold paxValue at h
  dsimp only at h
  split_ifs at h with hbudget
  obtain ⟨value, hvalue, h⟩ := bind_ok h
  have hlen := readExact_length hvalue
  split_ifs at h with htext
  rw [Except.ok.injEq] at h
  subst h
  refine ⟨hstop, .inr ⟨key, value, hkey, htext, rfl, rfl, ?_⟩⟩
  dsimp only
  omega

theorem paxBody_advances {front : Bytes} {at' length : Nat} (hpos : 0 < length)
    (h : paxBody read start s front at' length = .ok s') : Advances s s' := by
  unfold paxBody at h
  dsimp only at h
  have hskip : Advances s { s with cursor := s.cursor + length } :=
    ⟨Nat.lt_add_of_pos_right hpos, .inl ⟨rfl, rfl⟩⟩
  split at h
  · split_ifs at h with hkey
    · exact paxValue_advances (Nat.lt_add_of_pos_right hpos) hkey.2 h
    · rw [Except.ok.injEq] at h
      exact h ▸ hskip
  · split_ifs at h
    rw [Except.ok.injEq] at h
    exact h ▸ hskip

theorem paxRecord_advances (h : paxRecord read start size s = .ok s') : Advances s s' := by
  obtain ⟨front, -, h⟩ := bind_ok h
  split at h
  · simp at h
  · next at' length hlength =>
    obtain ⟨last, -, h⟩ := bind_ok h
    have hspec := recordLength_spec hlength
    split_ifs at h
    exact paxBody_advances (by omega) h

theorem Advances.bounded (h : Advances s s') (hs : Bounded s.records) (hretained : s.retained = total s.records) :
    Bounded s'.records ∧ s'.retained = total s'.records := by
  rcases h.records with ⟨hrecords, hsame⟩ | ⟨key, value, hkey, htext, hrecords, hafter, hle⟩
  · rw [hrecords, hsame]
    exact ⟨hs, hretained⟩
  · have hsum := total_set hkey s.records value
    have hold := oldLength_le_total hkey s.records
    have htotal : s'.retained = total s'.records := by
      rw [hrecords]
      omega
    refine ⟨⟨fun key' value' hget => ?_, by omega⟩, htotal⟩
    rw [hrecords, Dict.get?_set] at hget
    split_ifs at hget with heq
    · rw [Option.some.injEq] at hget
      rw [heq, ← hget]
      exact ⟨hkey, htext⟩
    · exact hs.text key' value' hget

theorem bounded_empty : Bounded ∅ := by
  constructor
  · intro key value h
    simp at h
  · exact Nat.zero_le _

theorem pax_gives (read : ReadAt) (start size : Nat) :
    Gives (fun result => ∀ records, result = .ok records → Bounded records) (pax read start size) := by
  apply Gives.loop (fun s => Bounded s.records ∧ s.retained = total s.records)
    fun s => size - s.cursor
  · intro s hs
    refine .some ?_
    split_ifs with hlt
    · split
      · next s' hrecord =>
        have hadvances := paxRecord_advances hrecord
        have hcursor := hadvances.cursor
        exact ⟨hadvances.bounded hs.1 hs.2, by omega⟩
      · intro records h
        simp at h
    · intro records h
      rw [Except.ok.injEq] at h
      exact h ▸ hs.1
  · exact ⟨bounded_empty, rfl⟩
  · exact Nat.lt_succ_of_le (Nat.sub_le _ _)

/-- For any reader and any payload the walk ends, and what it accepts has only the keys that matter, with
values that are text and that together stay within the budget. -/
theorem pax_bounded (read : ReadAt) (start size : Nat) :
    ∃ result, pax read start size = some result ∧ ∀ records, result = .ok records →
      (∀ key value, records.get? key = some value → relevant key = true ∧ isText value = true) ∧
        total records ≤ MAX_METADATA := by
  obtain ⟨result, hresult, hbounded⟩ := pax_gives read start size
  exact ⟨result, hresult, fun records h => ⟨(hbounded records h).text, (hbounded records h).total_le⟩⟩

end

def firstPath : Record where
  digits := [57]
  key := pathKey
  value := toUtf8 ['a']
  all_digits := by decide
  digits_length := by decide
  decimal_digits := by decide
  decimal_lt := by decide
  key_length := by decide
  no_equals := by decide
  text_value := fun _ => by simp [isText]

def secondPath : Record :=
  { firstPath with value := toUtf8 ['b'], decimal_digits := by decide, text_value := fun _ => by simp [isText] }

def twoPaths : List Record := [firstPath, secondPath]

theorem twoPaths_fit : Fit twoPaths :=
  ⟨fun _ => ⟨by decide, by decide⟩, fun _ => ⟨by decide, by decide⟩, trivial⟩

end Sunpack.Tar
