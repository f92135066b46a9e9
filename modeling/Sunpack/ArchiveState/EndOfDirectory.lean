import Sunpack.ArchiveState.DirectoryWindow
import Sunpack.ArchiveState.Zip64

/-!
# The end of the central directory

`find_eocd`: windows backwards from the end, with an overlap for signatures that cross their ends,
and the record at the last place where its comment fits. Whatever the windows, it is the place that
a scan of the flat input from its end finds.
-/

namespace Sunpack.ArchiveState

open Lib

def eocdSignature : List UInt8 := [0x50, 0x4b, 5, 6]

def cdSignature : List UInt8 := [0x50, 0x4b, 1, 2]

/-- The end record with the place of the directory, or the error of the ZIP64 record. -/
structure FoundEocd extends EocdRecord where
  cdSize : Nat
  cdOffset : Nat
  error : String

inductive EocdError
  | read (error : ReadError)
  | overflow

def EocdError.message : EocdError → String
  | .read error => error.message
  | .overflow => "ZIP central directory offset overflow"

/-- What the end record says of the directory, or the ZIP64 record in its place. -/
structure Directory where
  cdSize : Nat
  cdOffset : Nat
  cdDisk : Nat
  stop : Nat

def directoryOf (pos : Nat) (record : List UInt8) : Option Zip64.LocatedEndRecord → Directory
  | some found => ⟨found.record.cdSize, found.record.cdOffset, found.record.cdDisk, found.offset⟩
  | none => ⟨numberAt record 12 4, numberAt record 16 4, numberAt record 6 2, pos⟩

def isMultiDisk (record : List UInt8) : Bool :=
  numberAt record 4 2 ≠ 0 ∨ numberAt record 6 2 ≠ 0

/-- Where the directory starts: on its disk, or as far in front of its end as it is long. -/
def placeDirectory (r : SegmentReader) (multiDisk : Bool) (d : Directory) :
    Except EocdError (Option FoundEocd) :=
  if multiDisk then
    match r.starts[d.cdDisk]? with
    | none => .ok none
    | some start =>
      match checked64 start d.cdOffset with
      | none => .error .overflow
      | some cdOffset =>
        .ok (some
          { archiveOffset := 0, multiDisk := true, cdSize := d.cdSize, cdOffset := cdOffset,
            error := "" })
  else
    let inferred := d.stop - d.cdSize
    let declared : FoundEocd :=
      { archiveOffset := 0, multiDisk := false, cdSize := d.cdSize, cdOffset := d.cdOffset,
        error := "" }
    if inferred ≠ d.cdOffset ∧ sat64 inferred 4 ≤ r.total then
      match r.readExactAt inferred 4 with
      | .error e => .error (.read e)
      | .ok signature =>
        if signature = cdSignature ∨ d.cdSize = 0 then
          .ok (some { declared with archiveOffset := inferred - d.cdOffset, cdOffset := inferred })
        else .ok (some declared)
    else .ok (some declared)

def zip64Of (r : SegmentReader) (pos : Nat) (record : List UInt8) :
    Except Zip64.LocateError (Option Zip64.LocatedEndRecord) :=
  Zip64.locateEndRecord pos (if isMultiDisk record then some r.starts else none) r.readExactAt

/-- The result of the search once its record is read. -/
def eocdAt (r : SegmentReader) (pos : Nat) (record : List UInt8) :
    Except EocdError (Option FoundEocd) :=
  match zip64Of r pos record with
  | .error (.read e) => .error (.read e)
  | .error e =>
    .ok (some
      { archiveOffset := 0, multiDisk := false, cdSize := 0, cdOffset := 0, error := e.code })
  | .ok found => placeDirectory r (isMultiDisk record) (directoryOf pos record found)

/-- One window from its last index down: the result of the search, or none to go on. -/
def scanWindow (r : SegmentReader) (start : Nat) (buffer : List UInt8) :
    Nat → Except EocdError (Option (Option FoundEocd))
  | 0 => .ok none
  | index + 1 =>
    if buffer.length < index + 4 ∨ slice buffer index 4 ≠ eocdSignature then
      scanWindow r start buffer index
    else
      let pos := start + index
      if r.total < add64 pos 22 then scanWindow r start buffer index
      else
        match r.readExactAt pos 22 with
        | .error e => .error (.read e)
        | .ok record =>
          if add64 (add64 pos 22) (numberAt record 20 2) ≤ r.total then
            match eocdAt r pos record with
            | .error e => .error e
            | .ok found => .ok (some found)
          else scanWindow r start buffer index

/-- Where the window that ends at a place starts; windows have at least one byte. -/
def windowStart (window : {n : Nat // 0 < n}) (windowEnd : Nat) : Nat := windowEnd - window.1

theorem windowStart_lt {window : {n : Nat // 0 < n}} {windowEnd : Nat}
    (h : windowStart window windowEnd ≠ 0) : windowStart window windowEnd < windowEnd := by
  have hwindow := window.2
  rw [windowStart] at h ⊢
  omega

def findEocdFrom (r : SegmentReader) (window : {n : Nat // 0 < n}) (windowEnd : Nat) :
    Except EocdError (Option FoundEocd) :=
  let start := windowStart window windowEnd
  match r.readExactAt start (min (sat64 windowEnd 3) r.total - start) with
  | .error e => .error (.read e)
  | .ok buffer =>
    match scanWindow r start buffer (windowEnd - start) with
    | .error e => .error e
    | .ok (some found) => .ok found
    | .ok none => if _h : start = 0 then .ok none else findEocdFrom r window start
termination_by windowEnd
decreasing_by exact windowStart_lt _h

/-- `WINDOW`. -/
def eocdWindow : {n : Nat // 0 < n} := ⟨1024 * 1024, by omega⟩

def findEocd (r : SegmentReader) : Except EocdError (Option FoundEocd) :=
  if r.total < 4 then .ok none else findEocdFrom r eocdWindow r.total

/-! ## The last place -/

/-- The signature, 22 bytes, and the comment are inside the input. -/
def IsEocd (input : List UInt8) (pos : Nat) : Prop :=
  slice input pos 4 = eocdSignature ∧ pos + 22 ≤ input.length ∧
    pos + 22 + numberAt (slice input pos 22) 20 2 ≤ input.length

instance (input : List UInt8) (pos : Nat) : Decidable (IsEocd input pos) :=
  inferInstanceAs (Decidable (_ ∧ _ ∧ _))

/-- The last place below a bound. -/
def lastEocd (input : List UInt8) : Nat → Option Nat
  | 0 => none
  | pos + 1 => if IsEocd input pos then some pos else lastEocd input pos

theorem lastEocd_eq_some {input : List UInt8} {bound pos : Nat}
    (h : lastEocd input bound = some pos) :
    IsGreatest {q | q < bound ∧ IsEocd input q} pos := by
  induction bound with
  | zero => cases h
  | succ bound ih =>
    rw [lastEocd] at h
    split_ifs at h with hhere
    · obtain rfl := Option.some.inj h
      exact ⟨⟨Nat.lt_succ_self _, hhere⟩, fun q hq => Nat.le_of_lt_succ hq.1⟩
    · obtain ⟨⟨hlt, hpos⟩, hgreatest⟩ := ih h
      refine ⟨⟨Nat.lt_succ_of_lt hlt, hpos⟩, fun q hq => hgreatest ⟨?_, hq.2⟩⟩
      apply lt_of_le_of_ne (Nat.le_of_lt_succ hq.1)
      rintro rfl
      exact hhere hq.2

theorem lastEocd_eq_none {input : List UInt8} {bound : Nat} (h : lastEocd input bound = none) :
    ∀ pos < bound, ¬ IsEocd input pos := by
  induction bound with
  | zero => exact fun pos hpos => absurd hpos (Nat.not_lt_zero pos)
  | succ bound ih =>
    rw [lastEocd] at h
    split_ifs at h with hhere
    intro pos hpos
    rcases Nat.lt_succ_iff_lt_or_eq.1 hpos with hlt | rfl
    · exact ih h pos hlt
    · exact hhere

/-- The number of two bytes. -/
theorem numberAt_two_lt (bytes : List UInt8) (offset : Nat) : numberAt bytes offset 2 < 2 ^ 16 := by
  have hlength : (slice bytes offset 2).length ≤ 2 := List.length_take_le _ _
  rw [numberAt]
  match slice bytes offset 2, hlength with
  | [], _ => exact Nat.two_pow_pos 16
  | [a], _ =>
    have ha := a.toNat_lt
    simp only [ofLeBytes]
    omega
  | [a, b], _ =>
    have ha := a.toNat_lt
    have hb := b.toNat_lt
    simp only [ofLeBytes]
    omega

/-! ## The windows find it -/

variable {r : SegmentReader} {size : String → Nat}

/-- What the search returns for a last place. -/
def found (r : SegmentReader) : Option Nat → Except EocdError (Option FoundEocd)
  | none => .ok none
  | some pos => eocdAt r pos (slice r.input pos 22)

/-- What the search returns after a window. -/
def continueWith (rest : Except EocdError (Option FoundEocd)) :
    Except EocdError (Option (Option FoundEocd)) → Except EocdError (Option FoundEocd)
  | .error e => .error e
  | .ok (some found) => .ok found
  | .ok none => rest

/-- Below each index the window finds the last place, or leaves it to the windows in front. -/
theorem scanWindow_found (hcover : r.Covered size) (hlength : r.input.length + 65535 < 2 ^ 64)
    {start stop : Nat} (hstop : stop ≤ r.input.length) (rest : Except EocdError (Option FoundEocd))
    (hrest : rest = found r (lastEocd r.input start)) (index : Nat) (hindex : start + index ≤ stop) :
    continueWith rest (scanWindow r start
      (slice r.input start (min (stop + 3) r.input.length - start)) index) =
        found r (lastEocd r.input (start + index)) := by
  have htotal : r.total = r.input.length := by
    rw [r.total_eq]
    omega
  induction index with
  | zero => exact hrest
  | succ index ih =>
    have hback := ih (by omega)
    have hbuffer : (slice r.input start (min (stop + 3) r.input.length - start)).length =
        min (stop + 3) r.input.length - start := length_slice (by omega)
    rw [scanWindow, ← Nat.add_assoc, lastEocd, hbuffer]
    by_cases hout : min (stop + 3) r.input.length - start < index + 4
    · have hnot : ¬ IsEocd r.input (start + index) := fun h => by
        have hinside := h.2.1
        omega
      rw [if_pos (.inl hout), if_neg hnot]
      exact hback
    · have hsignature := slice_slice r.input start
        (show index + 4 ≤ min (stop + 3) r.input.length - start by omega)
      rw [hsignature]
      have hsum : add64 (start + index) 22 = start + index + 22 := add64_eq (by omega)
      by_cases hfirst : slice r.input (start + index) 4 = eocdSignature
      · rw [if_neg (by simp [hout, hfirst])]
        simp only [hsum, htotal]
        by_cases hinside : r.input.length < start + index + 22
        · have hnot : ¬ IsEocd r.input (start + index) := fun h => by
            have hinside := h.2.1
            omega
          simp only [if_pos hinside, if_neg hnot]
          exact hback
        · have hnumber := numberAt_two_lt (slice r.input (start + index) 22) 20
          have hcomment : add64 (start + index + 22)
              (numberAt (slice r.input (start + index) 22) 20 2) =
              start + index + 22 + numberAt (slice r.input (start + index) 22) 20 2 :=
            add64_eq (by omega)
          simp only [if_neg hinside]
          rw [DirectoryWindow.readExactAt_inside hcover (by omega)]
          simp only [hcomment]
          by_cases hfits : start + index + 22 +
              numberAt (slice r.input (start + index) 22) 20 2 ≤ r.input.length
          · rw [if_pos hfits, if_pos ⟨hfirst, not_lt.1 hinside, hfits⟩, found]
            cases eocdAt r (start + index) (slice r.input (start + index) 22) with
            | error e => rfl
            | ok found => rfl
          · rw [if_neg hfits, if_neg fun h => hfits h.2.2]
            exact hback
      · rw [if_pos (.inr hfirst), if_neg fun h => hfirst h.1]
        exact hback

theorem findEocdFrom_found (hcover : r.Covered size) (hlength : r.input.length + 65535 < 2 ^ 64)
    (window : {n : Nat // 0 < n}) {windowEnd : Nat} (hend : windowEnd ≤ r.input.length) :
    findEocdFrom r window windowEnd = found r (lastEocd r.input windowEnd) := by
  have htotal : r.total = r.input.length := by
    rw [r.total_eq]
    omega
  induction windowEnd using Nat.strong_induction_on with
  | _ windowEnd ih =>
    have hstart : windowStart window windowEnd ≤ windowEnd := Nat.sub_le _ _
    obtain ⟨start, hname⟩ : ∃ n, n = windowStart window windowEnd := ⟨_, rfl⟩
    rw [← hname] at hstart
    have hread : min (sat64 windowEnd 3) r.total = min (windowEnd + 3) r.input.length := by
      rw [sat64_of_lt (by omega), htotal]
    have hrest : (if start = 0 then .ok none else findEocdFrom r window start) =
        found r (lastEocd r.input start) := by
      split_ifs with hzero
      · rw [hzero]
        rfl
      · have hlt := windowStart_lt (hname ▸ hzero)
        rw [← hname] at hlt
        exact ih start hlt (by omega)
    have hscan := scanWindow_found hcover hlength hend _ hrest (windowEnd - start) (by omega)
    rw [Nat.add_sub_cancel' hstart] at hscan
    rw [findEocdFrom, ← hname, hread, ← hscan]
    rw [DirectoryWindow.readExactAt_inside hcover (by omega)]
    simp only
    cases scanWindow r start _ (windowEnd - start) with
    | error e => rfl
    | ok result =>
      cases result with
      | none => rfl
      | some found => rfl

/-- The search uses the last place where an end record fits, and the record is then all that
decides. -/
theorem findEocd_found (hcover : r.Covered size) (hlength : r.input.length + 65535 < 2 ^ 64) :
    findEocd r = found r (lastEocd r.input r.input.length) := by
  have htotal : r.total = r.input.length := by
    rw [r.total_eq]
    omega
  unfold findEocd
  split_ifs with hshort
  · have hnone : lastEocd r.input r.input.length = none := by
      cases hlast : lastEocd r.input r.input.length with
      | none => rfl
      | some pos =>
        have hinside := (lastEocd_eq_some hlast).1.2.2.1
        omega
    rw [hnone]
    rfl
  · rw [htotal]
    exact findEocdFrom_found hcover hlength eocdWindow le_rfl

/-- Without a result the record names a disk that is not there. -/
theorem eocdAt_eq_none {pos : Nat} {record : List UInt8} (h : eocdAt r pos record = .ok none) :
    ∃ located, zip64Of r pos record = .ok located ∧ isMultiDisk record = true ∧
      r.starts[(directoryOf pos record located).cdDisk]? = none := by
  unfold eocdAt at h
  cases hlocated : zip64Of r pos record with
  | error e =>
    rw [hlocated] at h
    cases e with
    | read e => cases h
    | invalid code => cases h
  | ok located =>
    rw [hlocated] at h
    simp only at h
    refine ⟨located, rfl, ?_⟩
    cases hmulti : isMultiDisk record with
    | false =>
      rw [hmulti] at h
      unfold placeDirectory at h
      simp only [Bool.false_eq_true, if_false] at h
      split_ifs at h
      · split at h
        · cases h
        · split_ifs at h <;> cases h
      · cases h
    | true =>
      refine ⟨rfl, ?_⟩
      rw [hmulti] at h
      unfold placeDirectory at h
      rw [if_pos rfl] at h
      cases hstart : r.starts[(directoryOf pos record located).cdDisk]? with
      | none => rfl
      | some start =>
        rw [hstart] at h
        simp only at h
        split at h <;> cases h

/-- What the reader, the window and the search make of the flat input: slices, as long as the end of
a range has 64 bits; the same through any window; and the record at the last place where an end
record fits, if the length of a comment can be added to every place without a wrap. -/
theorem input_spec (hcover : r.Covered size) :
    (∀ offset length, r.readExactAt offset length =
        if 2 ^ 64 ≤ offset + length then .error .overflow
        else if r.input.length < offset + length then .error .exceeds
        else .ok (slice r.input offset length)) ∧
      (∀ reads : List (Nat × Nat × Nat), (∀ read ∈ reads, read.2.2 ≤ r.total) →
        DirectoryWindow.readAll {} r reads = reads.map fun read =>
          if read.1 + read.2.1 ≤ read.2.2 then (r.readExactAt read.1 read.2.1).mapError .read
          else .error .boundary) ∧
      (r.input.length + 65535 < 2 ^ 64 →
        (∀ pos, IsGreatest {q | IsEocd r.input q} pos →
          findEocd r = eocdAt r pos (slice r.input pos 22)) ∧
        ((∀ pos, ¬ IsEocd r.input pos) → findEocd r = .ok none) ∧
        (findEocd r = .ok none → (∀ pos, ¬ IsEocd r.input pos) ∨
          ∃ pos located, IsGreatest {q | IsEocd r.input q} pos ∧
            zip64Of r pos (slice r.input pos 22) = .ok located ∧
            isMultiDisk (slice r.input pos 22) = true ∧
            r.starts[(directoryOf pos (slice r.input pos 22) located).cdDisk]? = none)) := by
  refine ⟨hcover.readExactAt, fun reads hreads => ?_, fun hlength => ?_⟩
  · exact (DirectoryWindow.holds_empty r).readAll hcover hreads
  have hinside (q : Nat) (hq : IsEocd r.input q) : q < r.input.length := by
    have hend := hq.2.1
    omega
  have hset : {q | q < r.input.length ∧ IsEocd r.input q} = {q | IsEocd r.input q} :=
    Set.ext fun q => and_iff_right_of_imp (hinside q)
  have hfound := findEocd_found hcover hlength
  cases hlast : lastEocd r.input r.input.length with
  | none =>
    have hnone (pos : Nat) : ¬ IsEocd r.input pos := fun h =>
      lastEocd_eq_none hlast pos (hinside pos h) h
    rw [hlast] at hfound
    exact ⟨fun pos hpos => absurd hpos.1 (hnone pos), fun _ => hfound, fun _ => .inl hnone⟩
  | some last =>
    have hgreatest := lastEocd_eq_some hlast
    rw [hset] at hgreatest
    rw [hlast] at hfound
    refine ⟨fun pos hpos => ?_, fun hnone => absurd hgreatest.1 (hnone last), fun hresult => .inr ?_⟩
    · rw [hpos.unique hgreatest]
      exact hfound
    · obtain ⟨located, hlocated, hmulti, hdisk⟩ := eocdAt_eq_none (hfound.symm.trans hresult)
      exact ⟨last, located, hgreatest, hlocated, hmulti, hdisk⟩

/-- An end record that straddles two volumes. -/
def straddling : SegmentReader where
  segments := [⟨"a.z01", 0, 8, by norm_num⟩, ⟨"a.zip", 4, 17, by norm_num⟩]
  files path i := if path = "a.z01" then [0, 0, 0, 0x50, 0x4b, 5, 6, 0].getD i 0 else 0

theorem straddling_spec :
    straddling.readExactAt 2 8 = .ok (slice straddling.input 2 8) ∧
      findEocd straddling = eocdAt straddling 3 (slice straddling.input 3 22) := by
  have hcover : straddling.Covered fun _ => 100 := by
    unfold straddling SegmentReader.Covered
    simp
  have hspec := input_spec hcover
  have hpos : IsGreatest {q | IsEocd straddling.input q} 3 := by
    refine ⟨by decide +kernel, fun q hq => ?_⟩
    have hlength : straddling.input.length = 25 := by decide +kernel
    have hend := hq.2.1
    omega
  exact ⟨(hspec.1 2 8).trans (by decide +kernel), (hspec.2.2 (by decide +kernel)).1 3 hpos⟩

/-! ## Addresses that wrap -/

theorem scanWindow_short {start index : Nat} {buffer : List UInt8}
    (h : buffer.length < index + 4) :
    scanWindow r start buffer (index + 1) = scanWindow r start buffer index := by
  rw [scanWindow, if_pos (.inl h)]

/-- A signature at the end of an input of 2^64 - 1 bytes: the sum of its place and 22 wraps, so that
the record is read beyond the end. -/
theorem findEocd_wraps (hcover : r.Covered size) (htotal : r.total = 2 ^ 64 - 1)
    (hsignature : slice r.input (2 ^ 64 - 5) 4 = eocdSignature) :
    findEocd r = .error (.read .overflow) := by
  have hinput := r.total_eq
  have hwindow : eocdWindow.1 = 1024 * 1024 := rfl
  obtain ⟨n, hn⟩ : ∃ n, eocdWindow.1 = n + 4 := ⟨1024 * 1024 - 4, by omega⟩
  have hstart : windowStart eocdWindow r.total = r.total - (n + 4) := by rw [windowStart, hn]
  have hread : min (sat64 r.total 3) r.total = r.total := by
    rw [sat64]
    omega
  have hlength : (slice r.input (r.total - (n + 4)) (n + 4)).length = n + 4 :=
    length_slice (by omega)
  have hlast : slice (slice r.input (r.total - (n + 4)) (n + 4)) n 4 = eocdSignature := by
    rw [slice_slice _ _ le_rfl, show r.total - (n + 4) + n = 2 ^ 64 - 5 by omega, hsignature]
  unfold findEocd
  rw [if_neg (by omega), findEocdFrom, hstart, hread, Nat.sub_sub_self (by omega),
    DirectoryWindow.readExactAt_inside hcover (by omega)]
  simp only
  rw [scanWindow_short (by omega), scanWindow_short (by omega), scanWindow_short (by omega),
    scanWindow, if_neg (by simp [hlength, hlast])]
  have hsum : add64 (r.total - (n + 4) + n) 22 = 17 := by
    rw [add64]
    omega
  simp only [hsum]
  rw [if_neg (by omega), SegmentReader.readExactAt_overflow (by omega)]

/-- Three ranges of one file, 2^64 bytes together. -/
def hugeInput : SegmentReader where
  segments := [⟨"a", 0, 2 ^ 63 - 1, by norm_num⟩, ⟨"a", 0, 2 ^ 63 - 1, by norm_num⟩,
    ⟨"a", 0, 2, by norm_num⟩]
  files _ i :=
    if i = 2 ^ 63 - 4 then 0x50 else if i = 2 ^ 63 - 3 then 0x4b else if i = 2 ^ 63 - 2 then 5
    else if i = 0 then 6 else 0

/-- Its last byte cannot be read, and its end record is not found. -/
theorem hugeInput_spec :
    (hugeInput.Covered fun _ => 2 ^ 63 - 1) ∧ hugeInput.input.length = 2 ^ 64 ∧
      hugeInput.readExactAt (2 ^ 64 - 1) 1 = .error .overflow ∧
      IsEocd hugeInput.input (2 ^ 63 - 4) ∧ findEocd hugeInput = .error (.read .overflow) := by
  have hcover : hugeInput.Covered fun _ => 2 ^ 63 - 1 := by
    unfold hugeInput SegmentReader.Covered
    simp
  have hlength : hugeInput.input.length = 2 ^ 64 := by
    rw [SegmentReader.input, length_flatten]
    rfl
  have htotal : hugeInput.total = 2 ^ 64 - 1 := by
    rw [hugeInput.total_eq, hlength]
    rfl
  have hslice {offset length : Nat} {bytes : List UInt8} (hend : offset + length ≤ 2 ^ 64 - 1)
      (h : hugeInput.readExactAt offset length = .ok bytes) :
      slice hugeInput.input offset length = bytes := by
    rw [DirectoryWindow.readExactAt_inside hcover (by omega)] at h
    exact Except.ok.inj h
  have hrecord : slice hugeInput.input (2 ^ 63 - 4) 22 =
      eocdSignature ++ List.replicate 18 0 := hslice (by norm_num) (by decide +kernel)
  refine ⟨hcover, hlength, SegmentReader.readExactAt_overflow (by norm_num), ⟨?_, ?_, ?_⟩, ?_⟩
  · exact hslice (by norm_num) (by decide +kernel)
  · rw [hlength]
    norm_num
  · rw [hlength, hrecord]
    decide +kernel
  · exact findEocd_wraps hcover htotal (hslice (by norm_num) (by decide +kernel))

end Sunpack.ArchiveState
