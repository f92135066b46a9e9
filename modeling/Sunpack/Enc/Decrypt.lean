import Sunpack.Enc.Container

/-!
# Decryption within a budget

`decrypt_with_budget`: a file is authenticated and decrypted buffer by buffer, and each buffer borrows
CPU credits for as long as it is decrypted. Whatever is lent, the bytes written are those of the range
behind the check bytes, and all credits go back.
-/

namespace Sunpack.Enc

open Lib

def bufferSize : Nat := 256 * 1024

def minParallelChunk : Nat := 4 * 1024

/-- What the caller sees of a run. -/
inductive Call
  | acquire (wanted extra : Nat)
  | release (extra : Nat)
  | progress (position : Nat)
  | write (bytes : Bytes)

/-- The caller: what it answers may depend on all calls before. -/
structure Caller where
  threads : Nat
  acquire : List Call → Nat → Nat
  progress : List Call → Nat → Except Error Unit
  write : List Call → Bytes → Except Error Unit

structure Run where
  rest : Bytes
  position : Nat
  hashed : Bytes
  calls : List Call

namespace Decoder

/-- The extra credits for a part. -/
def borrow (caller : Caller) (calls : List Call) (n : Nat) : Nat × List Call :=
  let wanted := n / minParallelChunk - 1
  if wanted = 0 then (0, calls)
  else
    let extra := caller.acquire calls (min wanted (caller.threads - 1))
    (extra, calls ++ [.acquire (min wanted (caller.threads - 1)) extra])

/-- The end of a `CpuLease`. -/
def giveBack (extra : Nat) (calls : List Call) : List Call :=
  if extra ≠ 0 then calls ++ [.release extra] else calls

def decryptPart (d : Decoder) (cipher : Stream) (caller : Caller) (s : Run) (bytes : Bytes) :
    Option (Run × Except Error Unit) :=
  let n := min (d.encryptedEnd - s.position) bytes.length
  if n = 0 then some (s, .ok ())
  else do
    let lease := borrow caller s.calls n
    let plain ← cipher.applyWithThreads (s.position - prefixSize) (bytes.take n) (1 + lease.1)
    let calls := giveBack lease.1 lease.2
    let out ← slice plain (min (prefixSize + checkSize - s.position) n) n
    some ({ s with calls := calls ++ [.write out] }, caller.write calls out)

def next (n : Nat) (s : Run) : Except Error Unit → Run ⊕ (Run × Except Error Unit)
  | .error e => .inr (s, .error e)
  | .ok _ => .inl { s with position := s.position + n }

def decryptRead (d : Decoder) (cipher : Stream) (caller : Caller) (s : Run) (bytes : Bytes) :
    Except Error Unit → Option (Run ⊕ (Run × Except Error Unit))
  | .error e => some (.inr (s, .error e))
  | .ok _ => do
    let result ← d.decryptPart cipher caller s bytes
    some (next bytes.length result.1 result.2)

def decryptBody (d : Decoder) (cipher : Stream) (caller : Caller) (capacity : Nat) (s : Run) :
    Option (Run ⊕ (Run × Except Error Unit)) :=
  if d.packed - macSize ≤ s.position then some (.inr (s, .ok ()))
  else
    let n := min (d.packed - macSize - s.position) capacity
    if s.rest.length < n then some (.inr (s, .error .truncated))
    else
      d.decryptRead cipher caller
        { rest := s.rest.drop n
          position := s.position
          hashed := s.hashed ++ s.rest.take n
          calls := s.calls ++ [.progress s.position] }
        (s.rest.take n) (caller.progress s.calls s.position)

/-- The stored tag against the one that was computed. -/
def finish (c : Crypto) (d : Decoder) (caller : Caller) (s : Run) :
    Except Error Unit → Run × Except Error Unit
  | .error e => (s, .error e)
  | .ok _ =>
    if s.rest.length < macSize then (s, .error .truncated)
    else
      let s' := { s with rest := s.rest.drop macSize }
      if c.blake3 d.keys.auth s.hashed ≠ s.rest.take macSize then (s', .error .authentication)
      else ({ s' with calls := s.calls ++ [.progress d.packed] }, caller.progress s.calls d.packed)

def decryptWithBudget (c : Crypto) (d : Decoder) (input : File) (caller : Caller) :
    Option (Run × Except Error Unit) :=
  let start : Run :=
    { rest := input.bytes.drop prefixSize
      position := prefixSize
      hashed := d.keys.nonce ++ d.header.bytes
      calls := [] }
  match d.framingError with
  | some e => some (start, .error e)
  | none => do
    let cipher ← Stream.new c.primitives d.header.code d.keys.key d.keys.nonce
    let capacity := min (d.packed - macSize - prefixSize) bufferSize
    let result ← loop (d.decryptBody cipher caller capacity) (d.packed + 1) start
    some (finish c d caller result.1 result.2)

end Decoder

/-! ## Credits -/

def Call.granted : Call → Option Nat
  | .acquire _ extra => some extra
  | _ => none

def Call.released : Call → Option Nat
  | .release extra => some extra
  | _ => none

def Call.written : Call → Bytes
  | .write bytes => bytes
  | _ => []

/-- What was granted is released, each grant once and in the order of the grants. -/
def Settled (calls : List Call) : Prop :=
  calls.filterMap Call.released = (calls.filterMap Call.granted).filter (· ≠ 0)

/-- The bytes of all writes. -/
def writtenBy (calls : List Call) : Bytes := calls.flatMap Call.written

theorem writtenBy_append (calls calls' : List Call) :
    writtenBy (calls ++ calls') = writtenBy calls ++ writtenBy calls' := List.flatMap_append

theorem Settled.progress {calls : List Call} (h : Settled calls) (position : Nat) :
    Settled (calls ++ [.progress position]) := by
  rw [Settled, List.filterMap_append, List.filterMap_append, List.filter_append, h]
  rfl

theorem Settled.write {calls : List Call} (h : Settled calls) (bytes : Bytes) :
    Settled (calls ++ [.write bytes]) := by
  rw [Settled, List.filterMap_append, List.filterMap_append, List.filter_append, h]
  rfl

/-- What a part borrows is given back when it is decrypted. -/
theorem Settled.lease {calls : List Call} (h : Settled calls) (caller : Caller) (n : Nat) :
    Settled (Decoder.giveBack (Decoder.borrow caller calls n).1 (Decoder.borrow caller calls n).2) ∧
      writtenBy (Decoder.giveBack (Decoder.borrow caller calls n).1
        (Decoder.borrow caller calls n).2) = writtenBy calls := by
  unfold Decoder.borrow
  dsimp only
  by_cases hwanted : n / minParallelChunk - 1 = 0
  · rw [if_pos hwanted]
    exact ⟨h, rfl⟩
  · rw [if_neg hwanted]
    generalize min (n / minParallelChunk - 1) (caller.threads - 1) = asked
    generalize caller.acquire calls asked = extra
    unfold Decoder.giveBack
    dsimp only
    by_cases hextra : extra ≠ 0
    · rw [if_pos hextra, writtenBy_append, writtenBy_append]
      refine ⟨?_, by simp [writtenBy, Call.written]⟩
      rw [Settled, List.filterMap_append, List.filterMap_append, List.filterMap_append,
        List.filterMap_append, List.filter_append, List.filter_append, ← h]
      simp [List.filterMap_cons, Call.released, Call.granted, hextra]
    · rw [if_neg hextra, writtenBy_append]
      refine ⟨?_, by simp [writtenBy, Call.written]⟩
      rw [Settled, List.filterMap_append, List.filterMap_append, List.filter_append, ← h]
      simp [List.filterMap_cons, Call.released, Call.granted, not_not.1 hextra]

/-! ## Parts of a file -/

theorem length_part {bytes : Bytes} {a b : Nat} (hb : b ≤ bytes.length) :
    (part bytes a b).length = b - a := by
  rw [part, List.length_take, List.length_drop]
  omega

theorem part_append (bytes : Bytes) {a b stop : Nat} (hab : a ≤ b) (hstop : b ≤ stop) :
    part bytes a b ++ part bytes b stop = part bytes a stop := by
  have hsplit : stop - a = (b - a) + (stop - b) := by omega
  have hdrop : a + (b - a) = b := by omega
  rw [part, part, part, hsplit, List.take_add, List.drop_drop, hdrop]

theorem take_part (bytes : Bytes) {a b n : Nat} (hn : n ≤ b - a) :
    (part bytes a b).take n = part bytes a (a + n) := by
  rw [part, part, List.take_take, Nat.min_eq_left hn, Nat.add_sub_cancel_left]

/-! ## One turn -/

/-- The decoder fits to the file. -/
structure Decoder.Fits (d : Decoder) (input : File) : Prop where
  packed : d.packed = input.bytes.length
  low : prefixSize + checkSize ≤ d.encryptedEnd
  high : d.encryptedEnd ≤ d.packed - macSize
  tag : macSize ≤ d.packed

/-- What is written when the file is read up to a position. -/
def Decoder.plain (d : Decoder) (cipher : Stream) (input : File) (position : Nat) : Bytes :=
  (combine cipher.keystreams 0
    (part input.bytes prefixSize (min position d.encryptedEnd))).drop checkSize

/-- The state of a run between two turns. -/
structure Decoder.Reads (d : Decoder) (cipher : Stream) (input : File) (s : Run) : Prop where
  low : prefixSize ≤ s.position
  high : s.position ≤ d.packed - macSize
  rest : s.rest = input.bytes.drop s.position
  hashed : s.hashed = d.keys.nonce ++ d.header.bytes ++ part input.bytes prefixSize s.position
  written : writtenBy s.calls = d.plain cipher input s.position
  settled : Settled s.calls

/-- Neither writing nor the report of progress fails. -/
structure Caller.Succeeds (caller : Caller) : Prop where
  progress : ∀ calls position, caller.progress calls position = .ok ()
  write : ∀ calls bytes, caller.write calls bytes = .ok ()

namespace Decoder

variable {d : Decoder} {cipher : Stream} {input : File} {caller : Caller}

theorem plain_of_le {position n : Nat} (h : d.encryptedEnd ≤ position) :
    d.plain cipher input (position + n) = d.plain cipher input position := by
  rw [plain, plain, Nat.min_eq_right h, Nat.min_eq_right (by omega)]

/-- What a part adds: its decrypted bytes, less those before the payload. -/
theorem plain_add (hfits : d.Fits input) {position n : Nat} (hlow : prefixSize ≤ position)
    (hn : position + n ≤ d.encryptedEnd) :
    d.plain cipher input (position + n) = d.plain cipher input position ++
      (combine cipher.keystreams (position - prefixSize)
        (part input.bytes position (position + n))).drop (prefixSize + checkSize - position) := by
  have hlen := hfits.packed
  have hhigh := hfits.high
  have hfront : (part input.bytes prefixSize position).length = position - prefixSize :=
    length_part (by omega)
  have hskip : checkSize - (position - prefixSize) = prefixSize + checkSize - position := by omega
  rw [plain, plain, Nat.min_eq_left hn, Nat.min_eq_left (by omega),
    ← part_append input.bytes hlow (Nat.le_add_right position n), combine_append, Nat.zero_add,
    List.drop_append, length_combine, hfront, hskip]

/-- A part is decrypted and written, and what it borrowed is given back. -/
theorem decryptPart_spec (caller : Caller) (hfits : d.Fits input) {pos : Nat}
    (hcipher : cipher.At pos) {s : Run} {n : Nat}
    (hlow : prefixSize ≤ s.position) (hn : 0 < n) (hhigh : s.position + n ≤ d.packed - macSize)
    (hwritten : writtenBy s.calls = d.plain cipher input s.position) (hsettled : Settled s.calls) :
    ∃ calls result, d.decryptPart cipher caller s (part input.bytes s.position (s.position + n)) =
        some ({ s with calls := calls }, result) ∧
      Settled calls ∧ writtenBy calls = d.plain cipher input (s.position + n) ∧
      (caller.Succeeds → result = .ok ()) := by
  have hlength : (part input.bytes s.position (s.position + n)).length = n := by
    have hpacked := hfits.packed
    rw [length_part (by omega)]
    omega
  unfold decryptPart
  dsimp only
  rw [hlength]
  by_cases hnone : min (d.encryptedEnd - s.position) n = 0
  · rw [if_pos hnone]
    refine ⟨s.calls, .ok (), rfl, hsettled, ?_, fun _ => rfl⟩
    rw [plain_of_le (by omega), hwritten]
  · rw [if_neg hnone]
    generalize hm : min (d.encryptedEnd - s.position) n = m at hnone ⊢
    obtain ⟨hgiven, hsame⟩ := hsettled.lease caller m
    have hlt := input.length_lt
    have hpacked := hfits.packed
    have hplain : cipher.applyWithThreads (s.position - prefixSize)
        ((part input.bytes s.position (s.position + n)).take m) (1 + (borrow caller s.calls m).1) =
          some (combine cipher.keystreams (s.position - prefixSize)
            (part input.bytes s.position (s.position + m))) := by
      rw [take_part _ (by omega)]
      apply hcipher.applyWithThreads
      rw [length_part (by omega)]
      omega
    generalize hout : combine cipher.keystreams (s.position - prefixSize)
      (part input.bytes s.position (s.position + m)) = out at hplain
    have houtlen : out.length = m := by
      rw [← hout, length_combine, length_part (by omega)]
      omega
    have hslice : slice out (min (prefixSize + checkSize - s.position) m) m =
        some (out.drop (prefixSize + checkSize - s.position)) := by
      rw [slice_eq (Nat.min_le_right _ _) (by omega)]
      congr 1
      rw [List.take_of_length_le (by rw [List.length_drop]; omega)]
      by_cases hskip : prefixSize + checkSize - s.position ≤ m
      · rw [Nat.min_eq_left hskip]
      · rw [Nat.min_eq_right (by omega), List.drop_eq_nil_of_le (by omega),
          List.drop_eq_nil_of_le (by omega)]
    rw [hplain]
    simp only [Option.bind_eq_bind, Option.bind_some, hslice]
    generalize giveBack (borrow caller s.calls m).1 (borrow caller s.calls m).2 = calls
      at hgiven hsame ⊢
    generalize hshown : out.drop (prefixSize + checkSize - s.position) = shown
    refine ⟨calls ++ [.write shown], caller.write calls shown, rfl, hgiven.write shown, ?_, ?_⟩
    · rw [writtenBy_append, hsame, hwritten]
      by_cases hend : s.position + n ≤ d.encryptedEnd
      · obtain rfl : m = n := by omega
        rw [plain_add hfits hlow hend, hout, hshown]
        simp [writtenBy, Call.written]
      · have hstop : s.position + m = d.encryptedEnd := by omega
        have hrest : s.position + n = s.position + m + (n - m) := by omega
        rw [hrest, plain_of_le (by omega), plain_add hfits hlow (by omega), hout, hshown]
        simp [writtenBy, Call.written]
    · intro hcaller
      exact hcaller.write _ _

/-- A turn reads a part of the file, feeds it to the hash as it is read, and decrypts it. -/
theorem decryptBody_spec (caller : Caller) (hfits : d.Fits input) {pos : Nat} (hcipher : cipher.At pos)
    {capacity : Nat} (hcapacity : 0 < capacity) {s : Run} (hs : d.Reads cipher input s) :
    Gives (Sum.elim
      (fun s' => d.Reads cipher input s' ∧
        d.packed - s'.position < d.packed - s.position)
      (fun r => Settled r.1.calls ∧
        (caller.Succeeds → r.2 = .ok ()) ∧
        (r.2 = .ok () → d.Reads cipher input r.1 ∧ r.1.position = d.packed - macSize)))
      (d.decryptBody cipher caller capacity s) := by
  have hpacked := hfits.packed
  have htag := hfits.tag
  unfold decryptBody
  by_cases hdone : d.packed - macSize ≤ s.position
  · rw [if_pos hdone]
    have hhigh := hs.high
    exact Gives.some ⟨hs.settled, fun _ => rfl, fun _ => ⟨hs, by dsimp only; omega⟩⟩
  · rw [if_neg hdone]
    dsimp only
    generalize hn : min (d.packed - macSize - s.position) capacity = n
    have hlen : ¬s.rest.length < n := by
      rw [hs.rest, List.length_drop]
      omega
    have htake : s.rest.take n = part input.bytes s.position (s.position + n) := by
      rw [hs.rest, part, Nat.add_sub_cancel_left]
    rw [if_neg hlen, htake]
    cases hprogress : caller.progress s.calls s.position with
    | error e =>
      refine Gives.some ⟨hs.settled.progress _, fun hcaller => ?_, fun h => ?_⟩
      · rw [hcaller.progress] at hprogress
        cases hprogress
      · cases h
    | ok u =>
      obtain ⟨calls, result, hpart, hsettled, hwritten, hresult⟩ :=
        decryptPart_spec caller (s :=
          { rest := s.rest.drop n
            position := s.position
            hashed := s.hashed ++ part input.bytes s.position (s.position + n)
            calls := s.calls ++ [.progress s.position] })
          (n := n) hfits hcipher hs.low (by omega) (by dsimp only; omega) (by
            rw [writtenBy_append, hs.written]
            simp [writtenBy, Call.written]) (hs.settled.progress _)
      rw [decryptRead, hpart]
      cases result with
      | error e =>
        refine Gives.some ⟨hsettled, fun hcaller => ?_, fun h => ?_⟩
        · cases hresult hcaller
        · cases h
      | ok u =>
        have hlow := hs.low
        have hpartlen : (part input.bytes s.position (s.position + n)).length = n := by
          rw [length_part (by omega)]
          omega
        refine Gives.some ⟨⟨?_, ?_, ?_, ?_, ?_, hsettled⟩, ?_⟩
        · dsimp only
          omega
        · dsimp only
          omega
        · dsimp only
          rw [hs.rest, List.drop_drop, hpartlen]
        · dsimp only
          rw [hs.hashed, hpartlen, List.append_assoc, part_append _ hlow (Nat.le_add_right _ _)]
        · dsimp only
          rw [hpartlen]
          exact hwritten
        · dsimp only
          omega

/-! ## Whole runs -/

theorem finishOpen_fits {c : Crypto} {header : Header} {keys : Keys header.code}
    (h : finishOpen c input input.bytes.length header keys = .ok d)
    (hframing : d.framingError = none) : d.Fits input := by
  unfold finishOpen at h
  cases hstop : payloadEnd c input input.bytes.length with
  | error e =>
    rw [hstop] at h
    cases e <;> cases h <;> cases hframing
  | ok stop =>
    rw [hstop] at h
    cases h
    obtain ⟨hlow, hhigh, htag⟩ := payloadEnd_bounds hstop
    exact ⟨rfl, hlow, hhigh, htag⟩

theorem openInput_fits {c : Crypto} {password : List UInt16}
    (h : openInput c input input.bytes.length password = some (.ok d))
    (hframing : d.framingError = none) : d.Fits input := by
  unfold openInput at h
  cases hread : input.readAt 0 (prefixSize + checkSize) with
  | error e =>
    rw [hread] at h
    cases h
  | ok bytes =>
    rw [hread] at h
    dsimp only at h
    cases hheader : Header.parse bytes input.bytes.length with
    | error e =>
      rw [hheader] at h
      cases h
    | ok header =>
      rw [hheader] at h
      dsimp only at h
      cases hkeys : c.derive header password with
      | error e =>
        rw [hkeys] at h
        cases h
      | ok keys =>
        rw [hkeys] at h
        dsimp only at h
        rw [Option.bind_eq_bind, Option.bind_eq_some_iff] at h
        obtain ⟨proven, _, h⟩ := h
        replace h := Option.some.inj h
        split_ifs at h
        exact finishOpen_fits h hframing

theorem finish_settled (c : Crypto) (d : Decoder) (caller : Caller) {s : Run} (h : Settled s.calls)
    (result : Except Error Unit) :
    Settled (finish c d caller s result).1.calls := by
  cases result with
  | error e => exact h
  | ok u =>
    unfold finish
    dsimp only
    split_ifs
    · exact h
    · exact h
    · exact h.progress _

theorem decryptWithBudget_spec {c : Crypto} (hfits : d.Fits input) (hframing : d.framingError = none)
    (hcipher : Stream.new c.primitives d.header.code d.keys.key d.keys.nonce = some cipher)
    (caller : Caller) :
    ∃ run result, d.decryptWithBudget c input caller = some (run, result) ∧ Settled run.calls ∧
      (caller.Succeeds →
        writtenBy run.calls = d.plain cipher input d.encryptedEnd ∧
        run.hashed = d.keys.nonce ++ d.header.bytes ++
          part input.bytes prefixSize (input.bytes.length - macSize) ∧
        result = if c.blake3 d.keys.auth run.hashed = input.bytes.drop (input.bytes.length - macSize)
          then .ok () else .error .authentication) := by
  have hat := Stream.new_at hcipher
  have hpacked := hfits.packed
  have hlow := hfits.low
  have hhigh := hfits.high
  have hcapacity : 0 < min (d.packed - macSize - prefixSize) bufferSize := by
    have hbuffer : 0 < bufferSize := by decide
    have hcheck : 0 < checkSize := by decide
    omega
  have hstart : d.Reads cipher input
      { rest := input.bytes.drop prefixSize
        position := prefixSize
        hashed := d.keys.nonce ++ d.header.bytes
        calls := [] } := by
    refine ⟨Nat.le_refl _, by dsimp only; omega, rfl, ?_, ?_, rfl⟩
    · dsimp only
      rw [part, Nat.sub_self, List.take_zero, List.append_nil]
    · dsimp only
      rw [plain, Nat.min_eq_left (by omega), part, Nat.sub_self, List.take_zero, combine_nil]
      rfl
  obtain ⟨⟨s, result⟩, hloop, hsettled, hsucceeds, hreads⟩ :=
    Gives.loop (d.Reads cipher input) (fun s => d.packed - s.position)
      (fun s hs => decryptBody_spec caller hfits hat hcapacity hs) (d.packed + 1) _ hstart
      (by dsimp only; omega)
  have hrun : d.decryptWithBudget c input caller = some (finish c d caller s result) := by
    unfold decryptWithBudget
    rw [hframing]
    dsimp only
    rw [hcipher]
    simp only [Option.bind_eq_bind, Option.bind_some, hloop]
  have hfinish := finish_settled c d caller hsettled result
  generalize hend : finish c d caller s result = stopped at hrun hfinish
  obtain ⟨run, answer⟩ := stopped
  refine ⟨run, answer, hrun, hfinish, fun hcaller => ?_⟩
  obtain rfl := hsucceeds hcaller
  obtain ⟨hat', hposition⟩ := hreads rfl
  dsimp only at hat' hposition
  have hrest : s.rest = input.bytes.drop (input.bytes.length - macSize) := by
    rw [hat'.rest, hposition, hpacked]
  have hlength : s.rest.length = macSize := by
    have htag := hfits.tag
    rw [hrest, List.length_drop]
    omega
  have hhashed : s.hashed = d.keys.nonce ++ d.header.bytes ++
      part input.bytes prefixSize (input.bytes.length - macSize) := by
    rw [hat'.hashed, hposition, hpacked]
  have hwritten : writtenBy s.calls = d.plain cipher input d.encryptedEnd := by
    rw [hat'.written, plain, plain, Nat.min_self, Nat.min_eq_right (by omega)]
  unfold finish at hend
  dsimp only at hend
  rw [if_neg (by omega), List.take_of_length_le (by omega), hrest] at hend
  by_cases htag : c.blake3 d.keys.auth s.hashed = input.bytes.drop (input.bytes.length - macSize)
  · rw [if_neg (not_not.2 htag), hcaller.progress] at hend
    obtain ⟨rfl, rfl⟩ := Prod.mk.inj hend
    refine ⟨?_, hhashed, (if_pos htag).symm⟩
    rw [writtenBy_append, hwritten]
    simp [writtenBy, Call.written]
  · rw [if_pos htag] at hend
    obtain ⟨rfl, rfl⟩ := Prod.mk.inj hend
    exact ⟨hwritten, hhashed, (if_neg htag).symm⟩

/-- What the whole payload decrypts to: the keystream behind the check bytes on it. -/
theorem plain_encryptedEnd (hfits : d.Fits input) :
    d.plain cipher input d.encryptedEnd = combine cipher.keystreams checkSize
      (part input.bytes (prefixSize + checkSize) d.encryptedEnd) := by
  have hcheck : (part input.bytes prefixSize (prefixSize + checkSize)).length = checkSize := by
    have hpacked := hfits.packed
    have hlow := hfits.low
    have hhigh := hfits.high
    rw [length_part (by omega)]
    omega
  rw [plain, Nat.min_self, ← part_append input.bytes (Nat.le_add_right _ _) hfits.low, combine_append,
    List.drop_left' (by rw [length_combine, hcheck]), hcheck, Nat.zero_add]

/-- For each way in which credits are lent: the run writes the decrypted payload, feeds every byte from
the check bytes to the tag to the hash as it is in the file, compares the tag, and gives all credits
back, also when it fails. -/
theorem decrypt_exact {c : Crypto} {password : List UInt16}
    (hopen : openInput c input input.bytes.length password = some (.ok d))
    (hframing : d.framingError = none) (caller : Caller) :
    ∃ run result, d.decryptWithBudget c input caller = some (run, result) ∧ Settled run.calls ∧
      (caller.Succeeds →
        writtenBy run.calls =
          combine (Enc.keystreams c.primitives d.header.code d.keys.key d.keys.nonce) checkSize
            (part input.bytes (prefixSize + checkSize) d.encryptedEnd) ∧
        (writtenBy run.calls).length = d.outputSize ∧
        run.hashed = d.keys.nonce ++ d.header.bytes ++
          part input.bytes prefixSize (input.bytes.length - macSize) ∧
        result = if c.blake3 d.keys.auth run.hashed = input.bytes.drop (input.bytes.length - macSize)
          then .ok () else .error .authentication) := by
  have hfits := openInput_fits hopen hframing
  obtain ⟨cipher, hcipher⟩ := d.keys.exists_stream c.primitives d.header.code_le
  obtain ⟨run, result, hrun, hsettled, hafter⟩ := decryptWithBudget_spec hfits hframing hcipher caller
  refine ⟨run, result, hrun, hsettled, fun hcaller => ?_⟩
  obtain ⟨hwritten, hhashed, hresult⟩ := hafter hcaller
  rw [plain_encryptedEnd hfits, Stream.new_keystreams hcipher] at hwritten
  refine ⟨hwritten, ?_, hhashed, hresult⟩
  have hpacked := hfits.packed
  have hhigh := hfits.high
  have hsome : ¬d.framingError.isSome := by simp [hframing]
  rw [hwritten, length_combine, length_part (by omega), outputSize, if_neg hsome]
  omega

/-- A file with four encrypted bytes behind the check bytes, for a cipher of code 3. -/
def smallFile : File where
  bytes := headerMagic ++ [3] ++ List.replicate 33 0 ++ List.replicate 32 104 ++ [1, 2, 3, 4] ++
    List.replicate 32 0
  length_lt := by decide

/-- Blocks are left as they are, keys are zero, and all hashes are zero. -/
def plainCrypto : Crypto where
  primitives := plainPrimitives
  derive header _ := .ok
    { key := List.replicate (dimensions header.code).1 0
      nonce := List.replicate (dimensions header.code).2 0
      auth := []
      key_length := List.length_replicate
      nonce_length := List.length_replicate }
  blake3 _ _ := List.replicate 32 0
  crc32 _ := 0

/-- The result is a decoder of a file with accepted framing. -/
def acceptedSize : Except Error Decoder → Option Nat
  | .ok d => if d.framingError.isNone then some d.outputSize else none
  | .error _ => none

theorem decrypt_exact_small : ∃ d, openInput plainCrypto smallFile smallFile.bytes.length [] = some (.ok d) ∧
    ∀ caller : Caller, caller.Succeeds → ∃ run, d.decryptWithBudget plainCrypto smallFile caller =
      some (run, .ok ()) ∧ Settled run.calls ∧ (writtenBy run.calls).length = 4 := by
  obtain ⟨d, hopen, hframing, hsize⟩ : ∃ d,
      openInput plainCrypto smallFile smallFile.bytes.length [] = some (.ok d) ∧
        d.framingError = none ∧ d.outputSize = 4 := by
    have hsize : (openInput plainCrypto smallFile smallFile.bytes.length []).bind acceptedSize =
        some 4 := by decide +kernel
    obtain ⟨opened, hopened, hsize⟩ := Option.bind_eq_some_iff.1 hsize
    cases opened with
    | error e => cases hsize
    | ok d =>
      rw [acceptedSize] at hsize
      split_ifs at hsize with hframing
      exact ⟨d, hopened, Option.isNone_iff_eq_none.1 hframing, Option.some.inj hsize⟩
  refine ⟨d, hopen, fun caller hcaller => ?_⟩
  obtain ⟨run, result, hrun, hsettled, hafter⟩ := decrypt_exact hopen hframing caller
  obtain ⟨_, hlength, _, hresult⟩ := hafter hcaller
  refine ⟨run, ?_, hsettled, hlength.trans hsize⟩
  have htag : plainCrypto.blake3 d.keys.auth run.hashed =
      smallFile.bytes.drop (smallFile.bytes.length - macSize) := rfl
  rw [hrun, hresult, if_pos htag]

end Decoder

end Sunpack.Enc
