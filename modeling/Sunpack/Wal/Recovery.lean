import Sunpack.Wal.Reader

/-!
# Recovery of cut WAL files

A reader on the first `cut` bytes of a WAL file returns the transactions that the cut leaves whole,
classifies every other cut as a torn tail, and never fails; a file that was truncated at `valid_end`
and reopened reads back as the survivors followed by what was appended since.
-/

namespace Sunpack.Wal

open Lib

variable (crc : List UInt8 → UInt32)

/-! ## One fragment -/

/-- The 16 header bytes of a fragment. -/
def frameHeader (seq : UInt64) (body : List UInt8) (more : Bool) : List UInt8 :=
  frameStart seq body more ++ leBytes 4 (crc (frameStart seq body more ++ body)).toNat

theorem frame_eq (seq : UInt64) (body : List UInt8) (more : Bool) :
    frame crc seq body more = frameHeader crc seq body more ++ body :=
  rfl

@[simp] theorem frameStart_length (seq : UInt64) (body : List UInt8) (more : Bool) :
    (frameStart seq body more).length = 12 := by
  simp [frameStart]

@[simp] theorem frameHeader_length (seq : UInt64) (body : List UInt8) (more : Bool) :
    (frameHeader crc seq body more).length = FRAME_HEADER_BYTES := by
  simp [frameHeader, FRAME_HEADER_BYTES]

@[simp] theorem frame_length (seq : UInt64) (body : List UInt8) (more : Bool) :
    (frame crc seq body more).length = FRAME_HEADER_BYTES + body.length := by
  simp [frame_eq]

/-- A body that a fragment can carry. -/
def Fits (body : List UInt8) : Prop := 0 < body.length ∧ body.length ≤ WRITE_FRAME_BYTES

/-- What a fragment header decides, whatever follows it. -/
theorem readFragment_header {seq : UInt64} {body : List UInt8} (hfits : Fits body) (more : Bool)
    {sequence : Option UInt64} (hseq : sequence.all (· = seq)) (rest : List UInt8)
    {available : Nat} (hav : FRAME_HEADER_BYTES ≤ available) :
    readFragment crc available (frameHeader crc seq body more ++ rest) sequence =
      if available - FRAME_HEADER_BYTES < body.length then .torn rest
      else match readExact rest body.length with
        | .error e => .failed e []
        | .ok (body', rest) =>
          if crc (frameStart seq body more ++ body') ≠ crc (frameStart seq body more ++ body) then
            .failed (invalid "WAL checksum mismatch") rest
          else .fragment seq more body' rest := by
  obtain ⟨hpos, hle⟩ := hfits
  have hsmall : body.length < 2 ^ 31 := by
    simp only [WRITE_FRAME_BYTES] at hle
    omega
  set header := frameHeader crc seq body more with hheader
  have hread : readExact (header ++ rest) FRAME_HEADER_BYTES = .ok (header, rest) := by
    rw [← frameHeader_length crc seq body more, readExact_append]
  have hstart : header.take 12 = frameStart seq body more :=
    List.take_left' (frameStart_length seq body more)
  have hcrc : header.drop 12 = leBytes 4 (crc (frameStart seq body more ++ body)).toNat :=
    List.drop_left' (frameStart_length seq body more)
  have hlen : header.take 4 = leBytes 4 (body.length.toUInt32 ||| if more then MORE else 0).toNat := by
    rw [hheader, frameHeader, frameStart, List.append_assoc]
    exact List.take_left' (leBytes_length 4 _)
  have hseqBytes : (header.drop 4).take 8 = leBytes 8 seq.toNat := by
    rw [hheader, frameHeader, frameStart, List.append_assoc,
      List.drop_left' (leBytes_length 4 _)]
    exact List.take_left' (leBytes_length 8 _)
  have hmask := topBit_mask hsmall more
  have hmore : decide ((body.length.toUInt32 ||| if more then MORE else 0) &&& MORE ≠ 0) = more := by
    rw [Bool.eq_iff_iff, decide_eq_true_iff, MORE, ne_eq, topBit_eq_zero hsmall more]
    simp
  have hvalid : (decide (body.length = 0) || decide (body.length > MAX_FRAME_BYTES) ||
      sequence.any (· ≠ seq)) = false := by
    have hmax : WRITE_FRAME_BYTES ≤ MAX_FRAME_BYTES := by decide
    have hany : sequence.any (· ≠ seq) = false := by
      cases sequence with
      | none => rfl
      | some s => simpa using hseq
    rw [hany, Bool.or_false, Bool.or_eq_false_iff, decide_eq_false_iff_not, decide_eq_false_iff_not]
    omega
  rw [readFragment, if_neg (Nat.not_lt.2 hav), hread]
  simp only [hlen, hseqBytes, hstart, hcrc, uint32_ofNat_ofLeBytes, uint64_ofNat_ofLeBytes, hmore]
  rw [MORE, hmask, hvalid]
  rfl

/-- A whole fragment is returned. -/
theorem readFragment_frame {seq : UInt64} {body : List UInt8} (hfits : Fits body) (more : Bool)
    {sequence : Option UInt64} (hseq : sequence.all (· = seq)) (rest : List UInt8)
    {available : Nat} (hav : available = (frame crc seq body more ++ rest).length) :
    readFragment crc available (frame crc seq body more ++ rest) sequence =
      .fragment seq more body rest := by
  have hlen : available = FRAME_HEADER_BYTES + body.length + rest.length := by simp [hav]
  rw [hlen, frame_eq, List.append_assoc,
    readFragment_header crc hfits more hseq _ (by omega), if_neg (by omega), readExact_append]
  simp

/-- A fragment that is cut anywhere is torn. -/
theorem readFragment_cut {seq : UInt64} {body : List UInt8} (hfits : Fits body) (more : Bool)
    {sequence : Option UInt64} (hseq : sequence.all (· = seq)) {n : Nat}
    (hn : n < (frame crc seq body more).length) :
    ∃ rest, readFragment crc n ((frame crc seq body more).take n) sequence = .torn rest := by
  rw [frame_length] at hn
  by_cases hhead : n < FRAME_HEADER_BYTES
  · exact ⟨_, if_pos hhead⟩
  · have hlen := frameHeader_length crc seq body more
    refine ⟨body.take (n - FRAME_HEADER_BYTES), ?_⟩
    rw [frame_eq, List.take_append, List.take_of_length_le (by omega), hlen,
      readFragment_header crc hfits more hseq _ (by omega), if_pos (by omega)]

/-! ## One transaction -/

/-- `sequence` is nothing yet, or the sequence number of the transaction. -/
theorem nextLoop_frames (r : Reader) {seq : UInt64} {bs : List (List UInt8)} (hne : bs ≠ [])
    (hfits : ∀ b ∈ bs, Fits b) {sequence : Option UInt64} (hseq : sequence.all (· = seq))
    {cursor : Nat} {payload rest : List UInt8} (hinput : r.input = frames crc seq bs ++ rest)
    (hend : r.fileEnd = cursor + r.input.length) :
    r.nextLoop crc cursor payload sequence = (.ok (some seq), { r with
      input := rest
      payload := payload ++ bs.flatten
      validEnd := cursor + (frames crc seq bs).length }) := by
  induction bs generalizing r cursor payload sequence with
  | nil => exact absurd rfl hne
  | cons b bs ih =>
    have hb := hfits b (by simp)
    have havail : r.fileEnd - cursor = r.input.length := by omega
    by_cases hbs : bs = []
    · subst hbs
      have hread : readFragment crc (r.fileEnd - cursor) r.input sequence =
          .fragment seq false b rest := by
        rw [hinput]
        exact readFragment_frame crc hb false hseq rest (by rw [havail, hinput]; rfl)
      rw [Reader.nextLoop]
      split
      all_goals rename_i heq; rw [hread] at heq
      · exact absurd heq (by simp)
      · exact absurd heq (by simp)
      · obtain ⟨rfl, rfl, rfl, rfl⟩ := FragmentRead.fragment.inj heq
        simp [frames]
    · have hframes : frames crc seq (b :: bs) = frame crc seq b true ++ frames crc seq bs := by
        rw [frames]
        exact hbs
      have hread : readFragment crc (r.fileEnd - cursor) r.input sequence =
          .fragment seq true b (frames crc seq bs ++ rest) := by
        rw [hinput, hframes, List.append_assoc]
        exact readFragment_frame crc hb true hseq _
          (by rw [havail, hinput, hframes, List.append_assoc])
      rw [Reader.nextLoop]
      split
      all_goals rename_i heq; rw [hread] at heq
      · exact absurd heq (by simp)
      · exact absurd heq (by simp)
      · obtain ⟨rfl, rfl, rfl, rfl⟩ := FragmentRead.fragment.inj heq
        dsimp only
        rw [if_pos rfl, ih { r with input := _ } hbs (fun c hc => hfits c (by simp [hc])) (by simp)
          rfl]
        · simp [hframes, Nat.add_assoc]
        · simp only [hend, hinput, hframes, List.length_append, frame_length]
          omega

theorem nextLoop_cut (r : Reader) {seq : UInt64} {bs : List (List UInt8)}
    (hfits : ∀ b ∈ bs, Fits b) {sequence : Option UInt64} (hseq : sequence.all (· = seq))
    {cursor n : Nat} {payload : List UInt8} (hinput : r.input = (frames crc seq bs).take n)
    (hn : n < (frames crc seq bs).length) (hend : r.fileEnd = cursor + n) :
    ∃ rest, r.nextLoop crc cursor payload sequence =
      (.ok none, { r with input := rest, torn := true }) := by
  induction bs generalizing r cursor payload sequence n with
  | nil => exact absurd hn (by simp [frames])
  | cons b bs ih =>
    have hb := hfits b (by simp)
    have havail : r.fileEnd - cursor = n := by omega
    -- the flag of the first fragment, and what comes after it
    obtain ⟨more, tail, hframes, htail⟩ : ∃ more tail,
        frames crc seq (b :: bs) = frame crc seq b more ++ tail ∧
          (more = true ∧ tail = frames crc seq bs ∨ more = false ∧ tail = []) := by
      by_cases hbs : bs = []
      · exact ⟨false, [], by simp [frames, hbs], .inr ⟨rfl, rfl⟩⟩
      · refine ⟨true, frames crc seq bs, ?_, .inl ⟨rfl, rfl⟩⟩
        rw [frames]
        exact hbs
    by_cases hcut : n < (frame crc seq b more).length
    · obtain ⟨rest, hread⟩ := readFragment_cut crc hb more hseq hcut
      refine ⟨rest, ?_⟩
      have hread' : readFragment crc (r.fileEnd - cursor) r.input sequence = .torn rest := by
        rw [havail, hinput, hframes, List.take_append_of_le_length (by omega), hread]
      rw [Reader.nextLoop]
      split
      all_goals rename_i heq; rw [hread'] at heq
      · rw [FragmentRead.torn.inj heq]
      · exact absurd heq (by simp)
      · exact absurd heq (by simp)
    · rcases htail with ⟨rfl, rfl⟩ | ⟨rfl, rfl⟩
      · have htake : (frames crc seq (b :: bs)).take n =
            frame crc seq b true ++ (frames crc seq bs).take (n - (frame crc seq b true).length) := by
          rw [hframes, List.take_append, List.take_of_length_le (by omega)]
        have hread : readFragment crc (r.fileEnd - cursor) r.input sequence =
            .fragment seq true b
              ((frames crc seq bs).take (n - (frame crc seq b true).length)) := by
          rw [hinput, htake]
          refine readFragment_frame crc hb true hseq _ ?_
          rw [← htake, List.length_take, havail]
          omega
        rw [Reader.nextLoop]
        split
        all_goals rename_i heq; rw [hread] at heq
        · exact absurd heq (by simp)
        · exact absurd heq (by simp)
        · obtain ⟨rfl, rfl, rfl, rfl⟩ := FragmentRead.fragment.inj heq
          dsimp only
          rw [if_pos rfl]
          refine ih { r with input := _ } (fun c hc => hfits c (by simp [hc])) (by simp) rfl ?_ ?_
          · rw [hframes, List.length_append] at hn
            omega
          · rw [frame_length] at hcut ⊢
            simp only [hend]
            omega
      · rw [hframes, List.append_nil] at hn
        omega

theorem bodies_fit (t : Transaction) : ∀ b ∈ bodies t.payload, Fits b :=
  fun _ hb => mem_bodies t.nonempty hb

theorem transaction_bytes_pos (t : Transaction) : 0 < (t.bytes crc).length := by
  obtain ⟨b, bs, hbs⟩ := List.exists_cons_of_ne_nil (bodies_ne_nil t.payload)
  rw [Transaction.bytes, hbs]
  cases bs with
  | nil =>
    simp only [frames, frame_length, FRAME_HEADER_BYTES]
    omega
  | cons c bs =>
    simp only [frames, List.length_append, frame_length, FRAME_HEADER_BYTES]
    omega

/-- A reader between two transactions: it has read the file up to `validEnd`. -/
structure Reader.AtBoundary (r : Reader) : Prop where
  untorn : r.torn = false
  inStep : r.fileEnd = r.validEnd + r.input.length

theorem Reader.next_complete {r : Reader} (hr : r.AtBoundary) {t : Transaction}
    {rest : List UInt8} (hinput : r.input = t.bytes crc ++ rest) :
    r.next crc = (.ok (some t.seq), { r with
      input := rest
      payload := t.payload
      validEnd := r.validEnd + (t.bytes crc).length }) := by
  have hpos := transaction_bytes_pos crc t
  have hmore : r.validEnd ≠ r.fileEnd := by
    have := congrArg List.length hinput
    rw [List.length_append] at this
    have := hr.inStep
    omega
  rw [next, if_neg (by simp [hr.untorn, hmore])]
  rw [nextLoop_frames crc { r with payload := [] } (bodies_ne_nil t.payload) (bodies_fit t) (by simp)
    hinput hr.inStep, List.nil_append, bodies_flatten]
  rfl

theorem Reader.next_cut {r : Reader} (hr : r.AtBoundary) {t : Transaction} {n : Nat} (hpos : 0 < n)
    (hn : n < (t.bytes crc).length) (hinput : r.input = (t.bytes crc).take n) :
    ∃ rest, r.next crc = (.ok none, { r with payload := [], input := rest, torn := true }) := by
  have hlen : r.input.length = n := by
    rw [hinput, List.length_take]
    omega
  have hmore : r.validEnd ≠ r.fileEnd := by
    have := hr.inStep
    omega
  rw [next, if_neg (by simp [hr.untorn, hmore])]
  exact nextLoop_cut crc { r with payload := [] } (bodies_fit t) (by simp) hinput hn
    (by simp only [hr.inStep, hlen])

theorem Reader.next_end {r : Reader} (h : r.validEnd = r.fileEnd) :
    r.next crc = (.ok none, { r with payload := [] }) := by
  rw [next, if_pos (by simp [h])]

/-! ## A whole file -/

section ForEach

variable {σ ε : Type*} (diagnose : IoError → ε) (body : σ → UInt64 → List UInt8 → Except ε σ)

theorem Reader.forEach_none {r r' : Reader} (h : r.next crc = (.ok none, r')) (s : σ) :
    r.forEach crc diagnose body s = .ok (s, r') := by
  rw [forEach]
  split
  all_goals rename_i heq; rw [h] at heq
  · simp at heq
  · rw [(Prod.mk.inj heq).2]
  · simp at heq

theorem Reader.forEach_some {r r' : Reader} {seq : UInt64}
    (h : r.next crc = (.ok (some seq), r')) (s : σ) :
    r.forEach crc diagnose body s =
      (body s seq r'.payload).bind fun s' => r'.forEach crc diagnose body s' := by
  rw [forEach]
  split
  all_goals rename_i heq; rw [h] at heq
  · simp at heq
  · simp at heq
  · simp only [Prod.mk.injEq, Except.ok.injEq, Option.some.injEq] at heq
    obtain ⟨rfl, rfl⟩ := heq
    cases body s seq r'.payload <;> rfl

/-- The loop over a cut file is the loop over the transactions that survived. -/
theorem Reader.forEach_cut (ts : List Transaction) {r : Reader} (hr : r.AtBoundary) {n : Nat}
    (hn : n ≤ (CutLog.bytes (Transaction.bytes crc) ts).length)
    (hinput : r.input = (CutLog.bytes (Transaction.bytes crc) ts).take n) :
    ∃ r' : Reader,
      r'.validEnd = r.validEnd + (CutLog.bytes (Transaction.bytes crc)
        (CutLog.survivors (Transaction.bytes crc) ts n)).length ∧
      r'.torn = decide (n ≠ (CutLog.bytes (Transaction.bytes crc)
        (CutLog.survivors (Transaction.bytes crc) ts n)).length) ∧
      ∀ s, r.forEach crc diagnose body s =
        ((CutLog.survivors (Transaction.bytes crc) ts n).foldlM
          (fun s t => body s t.seq t.payload) s).map (·, r') := by
  induction ts generalizing r n with
  | nil =>
    obtain rfl : n = 0 := by simpa using hn
    refine ⟨{ r with payload := [] }, by simp [CutLog.survivors],
      by simp [CutLog.survivors, hr.untorn], fun s => ?_⟩
    have hend : r.validEnd = r.fileEnd := by simp [hr.inStep, hinput]
    rw [Reader.forEach_none crc diagnose body (Reader.next_end crc hend)]
    rfl
  | cons t ts ih =>
    rw [CutLog.bytes_cons] at hinput
    by_cases hwhole : (t.bytes crc).length ≤ n
    · rw [CutLog.survivors_cons_of_le _ hwhole]
      rw [CutLog.bytes_cons, List.length_append] at hn
      rw [List.take_append, List.take_of_length_le hwhole] at hinput
      have hnext := Reader.next_complete crc hr hinput
      set r₁ : Reader := { r with
        input := (CutLog.bytes (Transaction.bytes crc) ts).take (n - (t.bytes crc).length)
        payload := t.payload
        validEnd := r.validEnd + (t.bytes crc).length } with hr₁
      have hbound : r₁.AtBoundary := by
        refine ⟨hr.untorn, ?_⟩
        have := hr.inStep
        rw [hinput, List.length_append] at this
        simp only [hr₁]
        omega
      obtain ⟨r', hvalid, htorn, hrun⟩ := ih hbound (n := n - (t.bytes crc).length) (by omega) rfl
      refine ⟨r', ?_, ?_, ?_⟩
      · rw [hvalid, CutLog.bytes_cons, List.length_append]
        simp only [hr₁]
        omega
      · rw [htorn, CutLog.bytes_cons, List.length_append, decide_eq_decide]
        omega
      · intro s
        rw [Reader.forEach_some crc diagnose body hnext, List.foldlM_cons]
        change (body s t.seq t.payload).bind _ = ((body s t.seq t.payload).bind _).map _
        cases body s t.seq t.payload with
        | error e => rfl
        | ok s' => exact hrun s'
    · have hlt : n < (t.bytes crc).length := by omega
      rw [CutLog.survivors_cons_of_lt _ hlt]
      rw [List.take_append_of_le_length (by omega)] at hinput
      rcases Nat.eq_zero_or_pos n with rfl | hpos
      · refine ⟨{ r with payload := [] }, by simp, by simp [hr.untorn], fun s => ?_⟩
        have hend : r.validEnd = r.fileEnd := by simp [hr.inStep, hinput]
        rw [Reader.forEach_none crc diagnose body (Reader.next_end crc hend)]
        rfl
      · obtain ⟨rest, hnext⟩ := Reader.next_cut crc hr hpos hlt hinput
        refine ⟨{ r with payload := [], input := rest, torn := true }, by simp,
          by simp [Nat.pos_iff_ne_zero.1 hpos], fun s => ?_⟩
        rw [Reader.forEach_none crc diagnose body hnext]
        rfl

end ForEach

/-! ## The file with its header -/

@[simp] theorem logBytes_length (kind : Kind) (ts : List Transaction) :
    (logBytes crc kind ts).length = 16 + (CutLog.bytes (Transaction.bytes crc) ts).length := by
  simp [logBytes]

/-- Opening a file that is cut inside its header. -/
theorem Reader.new_cut {kind : Kind} {file : List UInt8} {cut : Nat} (hcut : cut < 16)
    (hfile : file.take 16 = fileHeader kind) :
    ∃ r, Reader.new (file.take cut) kind = .ok r ∧ r.validEnd = 0 ∧ r.torn = true := by
  have hlen : (file.take cut).length = cut := by
    have := congrArg List.length hfile
    rw [List.length_take, fileHeader_length] at this
    rw [List.length_take]
    omega
  have hav : min cut FILE_HEADER_BYTES = cut := by
    simp only [FILE_HEADER_BYTES]
    omega
  have htake : (file.take cut).take cut = (fileHeader kind).take cut := by
    rw [← hfile, List.take_take, List.take_take, Nat.min_self, Nat.min_eq_left (by omega)]
  refine ⟨{ input := [], fileEnd := cut, validEnd := 0, torn := true }, ?_, rfl, rfl⟩
  simp only [Reader.new, hlen, hav, readExact, Nat.lt_irrefl, if_false, bind, Except.bind, htake]
  simp [show cut ≠ 16 by omega]

/-- Opening a file whose header is whole. -/
theorem Reader.new_whole (kind : Kind) (rest : List UInt8) :
    Reader.new (fileHeader kind ++ rest) kind = .ok {
      input := rest
      fileEnd := 16 + rest.length
      validEnd := 16
      torn := false } := by
  have hav : min (fileHeader kind ++ rest).length FILE_HEADER_BYTES = (fileHeader kind).length := by
    simp [FILE_HEADER_BYTES]
  simp only [Reader.new, hav, readExact_append, bind, Except.bind, List.take_length]
  simp

theorem foldlM_collect (ts : List Transaction) (read : List (UInt64 × List UInt8)) :
    ts.foldlM (fun read t => (.ok (read ++ [(t.seq, t.payload)]) : Except IoError _)) read =
      .ok (read ++ ts.map fun t => (t.seq, t.payload)) := by
  induction ts generalizing read with
  | nil => simp [pure, Except.pure]
  | cons t ts ih =>
    rw [List.foldlM_cons]
    exact (ih _).trans (by simp)

/-- Reading a file whose header is whole and that is cut after it. -/
theorem readAll_cut (kind : Kind) (ts : List Transaction) {n : Nat}
    (hn : n ≤ (CutLog.bytes (Transaction.bytes crc) ts).length) :
    ∃ r r', Reader.new ((logBytes crc kind ts).take (16 + n)) kind = .ok r ∧
      r.readAll crc = .ok ((CutLog.survivors (Transaction.bytes crc) ts n).map
        (fun t => (t.seq, t.payload)), r') ∧
      r'.validEnd =
        (logBytes crc kind (CutLog.survivors (Transaction.bytes crc) ts n)).length ∧
      r'.torn = decide (n ≠ (CutLog.bytes (Transaction.bytes crc)
        (CutLog.survivors (Transaction.bytes crc) ts n)).length) := by
  have hfile : (logBytes crc kind ts).take (16 + n) =
      fileHeader kind ++ (CutLog.bytes (Transaction.bytes crc) ts).take n := by
    rw [logBytes, List.take_append, List.take_of_length_le (by simp), fileHeader_length,
      Nat.add_sub_cancel_left]
  rw [hfile, Reader.new_whole]
  set r : Reader := { input := _, fileEnd := _, validEnd := 16, torn := false } with hr
  have hbound : r.AtBoundary := ⟨rfl, rfl⟩
  obtain ⟨r', hvalid, htorn, hrun⟩ := Reader.forEach_cut crc id
    (fun read seq payload => .ok (read ++ [(seq, payload)])) ts hbound hn rfl
  refine ⟨r, r', rfl, ?_, by rw [hvalid, logBytes_length], htorn⟩
  rw [Reader.readAll, hrun [], foldlM_collect]
  rfl

/-- Reading a whole file. -/
theorem readAll_whole (kind : Kind) (ts : List Transaction) :
    ∃ r r', Reader.new (logBytes crc kind ts) kind = .ok r ∧
      r.readAll crc = .ok (ts.map (fun t => (t.seq, t.payload)), r') ∧
      r'.validEnd = (logBytes crc kind ts).length ∧ r'.torn = false := by
  obtain ⟨r, r', hnew, hread, hvalid, htorn⟩ := readAll_cut crc kind ts (Nat.le_refl _)
  rw [CutLog.survivors_of_le _ (Nat.le_refl _)] at hread hvalid htorn
  rw [← logBytes_length, List.take_length] at hnew
  exact ⟨r, r', hnew, hread, hvalid, by simpa using htorn⟩

/-- The file ends exactly after some of its transactions. -/
def AtEnd (kind : Kind) (ts : List Transaction) (cut : Nat) : Prop :=
  ∃ i ≤ ts.length, cut = (logBytes crc kind (ts.take i)).length

theorem torn_iff (kind : Kind) (ts : List Transaction) (n : Nat) :
    n ≠ (CutLog.bytes (Transaction.bytes crc)
        (CutLog.survivors (Transaction.bytes crc) ts n)).length ↔
      ¬ AtEnd crc kind ts (16 + n) := by
  rw [ne_eq, not_iff_not]
  constructor
  · intro h
    refine ⟨_, (CutLog.survivors_initial (Transaction.bytes crc) ts n).length_le, ?_⟩
    rw [← CutLog.survivors_eq_take, logBytes_length]
    omega
  · rintro ⟨i, hi, hcut⟩
    rw [logBytes_length] at hcut
    have hle := (CutLog.le_survivors_iff (Transaction.bytes crc) (n := n) hi).2 (by omega)
    have hpre : ts.take i <+: CutLog.survivors (Transaction.bytes crc) ts n := by
      rw [CutLog.survivors_eq_take]
      exact List.take_prefix_take_left hle
    obtain ⟨more, hmore⟩ := hpre
    have hbound := CutLog.bytes_survivors_le (Transaction.bytes crc) ts n
    rw [← hmore, CutLog.bytes_append, List.length_append] at hbound ⊢
    omega

/-! ## Recovery -/

/-- What reading the first `cut` bytes of a file with transactions `ts` must give: the first `k`
transactions, `k` counting those whose last byte lies inside the cut. -/
structure Recovers (kind : Kind) (ts : List Transaction) (cut k : Nat) (r' : Reader) : Prop where
  le : k ≤ ts.length
  inside : ∀ i, 0 < i → i ≤ ts.length → (i ≤ k ↔ (logBytes crc kind (ts.take i)).length ≤ cut)
  read : ∃ r, Reader.new ((logBytes crc kind ts).take cut) kind = .ok r ∧
    r.readAll crc = .ok ((ts.take k).map (fun t => (t.seq, t.payload)), r')
  validEnd : r'.validEnd = if cut < 16 then 0 else (logBytes crc kind (ts.take k)).length
  torn : r'.torn = true ↔ ¬ AtEnd crc kind ts cut

theorem recovers (kind : Kind) (ts : List Transaction) {cut : Nat}
    (hcut : cut ≤ (logBytes crc kind ts).length) : ∃ k r', Recovers crc kind ts cut k r' := by
  by_cases hhead : cut < 16
  · have hfile : (logBytes crc kind ts).take 16 = fileHeader kind :=
      List.take_left' (fileHeader_length kind)
    obtain ⟨r, hnew, hvalid, htorn⟩ := Reader.new_cut hhead hfile
    have hnext : r.next crc = (.ok none, { r with payload := [] }) := by
      rw [Reader.next, if_pos (by simp [htorn])]
    refine ⟨0, { r with payload := [] }, by simp, fun i hi _ => ?_, ⟨r, hnew, ?_⟩, ?_, ?_⟩
    · rw [logBytes_length]
      omega
    · rw [Reader.readAll, Reader.forEach_none crc id _ hnext]
      rfl
    · simp [hvalid, hhead]
    · simp only [htorn, true_iff]
      rintro ⟨i, _, rfl⟩
      rw [logBytes_length] at hhead
      omega
  · obtain ⟨n, rfl⟩ : ∃ n, cut = 16 + n := ⟨cut - 16, by omega⟩
    rw [logBytes_length] at hcut
    obtain ⟨r, r', hnew, hread, hvalid, htorn⟩ := readAll_cut crc kind ts (n := n) (by omega)
    have htake := CutLog.survivors_eq_take (Transaction.bytes crc) ts n
    refine ⟨(CutLog.survivors (Transaction.bytes crc) ts n).length, r',
      (CutLog.survivors_initial _ ts n).length_le, fun i _ hi => ?_, ⟨r, hnew, ?_⟩, ?_, ?_⟩
    · rw [CutLog.le_survivors_iff _ hi, logBytes_length]
      omega
    · rw [← htake]
      exact hread
    · rw [if_neg hhead, ← htake]
      exact hvalid
    · rw [htorn, decide_eq_true_iff, torn_iff crc kind]

/-- Truncating a cut file at `valid_end` and reopening it leaves the survivors. -/
theorem reopen_cut {kind : Kind} {ts : List Transaction} {cut k : Nat} {r' : Reader}
    (h : Recovers crc kind ts cut k r') :
    openSegment (((logBytes crc kind ts).take cut).take r'.validEnd) kind =
      .ok (logBytes crc kind (ts.take k)) := by
  rw [h.validEnd]
  split_ifs with hhead
  · have hk : k = 0 := by
      rcases Nat.eq_zero_or_pos k with hk | hk
      · exact hk
      · have := (h.inside k hk h.le).1 (Nat.le_refl k)
        rw [logBytes_length] at this
        omega
    simp [hk, openSegment, logBytes]
  · have hle : (logBytes crc kind (ts.take k)).length ≤ cut := by
      rcases Nat.eq_zero_or_pos k with rfl | hk
      · simp
        omega
      · exact (h.inside k hk h.le).1 (Nat.le_refl k)
    have hpre : logBytes crc kind ts =
        logBytes crc kind (ts.take k) ++ CutLog.bytes (Transaction.bytes crc) (ts.drop k) := by
      rw [logBytes, logBytes, List.append_assoc, ← CutLog.bytes_append, List.take_append_drop]
    rw [List.take_take, Nat.min_eq_left hle, hpre, List.take_left, openSegment,
      if_neg (by simp), if_neg (by simp), if_pos]
    exact List.take_left' (fileHeader_length kind)

/-- Writing, cutting, reading, truncating, appending and reading again. -/
theorem cut_log_recovers (kind : Kind) (ts : List Transaction) (cut : Nat)
    (hcut : cut ≤ (logBytes crc kind ts).length) :
    appendAll crc (fileHeader kind) ts = .ok (logBytes crc kind ts) ∧
      ∃ k r', Recovers crc kind ts cut k r' ∧
        ∀ us : List Transaction, ∃ file file' r₂ r₃,
          openSegment (((logBytes crc kind ts).take cut).take r'.validEnd) kind = .ok file ∧
          appendAll crc file us = .ok file' ∧ Reader.new file' kind = .ok r₂ ∧
          r₂.readAll crc = .ok ((ts.take k ++ us).map (fun t => (t.seq, t.payload)), r₃) ∧
          r₃.validEnd = file'.length ∧ r₃.torn = false := by
  refine ⟨appendAll_eq crc _ ts, ?_⟩
  obtain ⟨k, r', h⟩ := recovers crc kind ts hcut
  refine ⟨k, r', h, fun us => ?_⟩
  obtain ⟨r₂, r₃, hnew, hread, hvalid, htorn⟩ := readAll_whole crc kind (ts.take k ++ us)
  refine ⟨_, _, r₂, r₃, reopen_cut crc h, appendAll_eq crc _ us, ?_, hread, ?_, htorn⟩
  · rw [← hnew, logBytes, logBytes, CutLog.bytes_append, List.append_assoc]
  · rw [hvalid, logBytes, logBytes, CutLog.bytes_append, List.append_assoc]

/-- One transaction of two writes, cut inside its header. -/
theorem cut_log_recovers_torn : ∃ k r', Recovers (fun _ => 0) .taskWal
    [⟨7, [[1, 2], [3]], by decide⟩] 20 k r' := by
  obtain ⟨_, k, r', h, _⟩ := cut_log_recovers (fun _ => 0) .taskWal
    [⟨7, [[1, 2], [3]], by decide⟩] 20
    (by simp [bodies, frames, Transaction.bytes, Transaction.payload, WRITE_FRAME_BYTES,
      FRAME_HEADER_BYTES])
  exact ⟨k, r', h⟩

end Sunpack.Wal
