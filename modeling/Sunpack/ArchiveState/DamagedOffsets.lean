import Sunpack.ArchiveState.ZipPayload

/-!
# Damaged offsets

What the verifier answers when the local header, the encryption header or the payload does not lie
inside the logical input, and when the sums of addresses wrap on the way.
-/

namespace Sunpack.ArchiveState

open Lib

variable {σ : Type} {codecs : Codecs σ} {r : SegmentReader} {m : Member}

/-! ## The manifest around the verifier -/

/-- The fields of the end record that place the members. -/
structure EocdRecord where
  archiveOffset : Nat
  multiDisk : Bool

/-- What a central entry says, the fields of ZIP64 included. -/
structure CentralValues where
  uncompressed : UInt64
  compressed : UInt64
  localOffset : UInt64
  disk : Nat

/-- Where the local header of an entry starts, if its disk is there and the sum has 64 bits. -/
def memberOffset (r : SegmentReader) (eocd : EocdRecord) (location : CentralValues) : Option Nat :=
  if eocd.multiDisk then
    r.starts[location.disk]?.bind fun start => checked64 start location.localOffset.toNat
  else checked64 eocd.archiveOffset location.localOffset.toNat

structure Manifest where
  damaged : Bool
  checksumError : Bool
  wrongPassword : Bool
  message : String
deriving DecidableEq, Repr

/-- What a check adds to the manifest. -/
def Manifest.note (manifest : Manifest) (name : String) : PayloadCheck → Manifest
  | .valid => manifest
  | .corrupt =>
    { manifest with
      damaged := true
      checksumError := true
      message := "Archive state ZIP payload CRC failed at: " ++ name }
  | .wrongPassword =>
    { manifest with
      wrongPassword := true
      message :=
        if !manifest.wrongPassword && !manifest.damaged then
          "Archive state ZIP password does not match: " ++ name
        else manifest.message }

/-- One entry of the walk through the central directory: the manifest and whether the walk goes on,
or the error that fails the call. -/
def manifestMember (codecs : Codecs σ) (r : SegmentReader) (eocd : EocdRecord)
    (location : CentralValues) (name : String) (method flags : Nat) (crc32 : UInt32)
    (password : Option (List UInt8)) (rounds : Nat) (manifest : Manifest) :
    Option (Except ReadError (Manifest × Bool)) :=
  match memberOffset r eocd location with
  | none =>
    some (.ok ({ manifest with
      damaged := true
      message := "Archive state ZIP member disk is unavailable" }, false))
  | some localOffset =>
    let entryPassword := if flags &&& 1 ≠ 0 then password else none
    if (method = 0 ∨ method = 8) ∧ (flags &&& 1 = 0 ∨ entryPassword.isSome) then
      (verify codecs r ⟨.ofNat localOffset, method, crc32, location.compressed,
        location.uncompressed, entryPassword⟩ rounds).answer.map
          (·.map fun check => (manifest.note name check, true))
    else some (.ok (manifest, true))

/-! ## The claim and its condition -/

/-- Where the payload of a member starts, by its local header. -/
def Member.dataStart (m : Member) (header : List UInt8) : Nat :=
  m.localOffset.toNat + 30 + u16le header 26 + u16le header 28

/-- The local header, the encryption header or the payload does not lie inside the input. -/
def LiesOutside (r : SegmentReader) (m : Member) : Prop :=
  r.total < m.localOffset.toNat + 30 ∨
    ∃ header, r.readExactAt m.localOffset.toNat 30 = .ok header ∧
      (m.password.isSome = true ∧ m.compressedSize.toNat < 12 ∨
        r.total < m.dataStart header + m.compressedSize.toNat)

/-- No sum of addresses wraps, and what lies outside is corrupt. -/
structure Meets (r : SegmentReader) (m : Member) (v : Verdict PayloadCheck) : Prop where
  exact : ∀ p ∈ v.sums, p.1 + p.2 < 2 ^ 64
  corrupt : LiesOutside r m → v.answer = some (.ok .corrupt)

/-- The ends of the fixed header, of the local header and of the payload have 64 bits; that of the
payload may have more while the input is shorter than the largest number. -/
def Representable (r : SegmentReader) (m : Member) : Prop :=
  m.localOffset.toNat + 30 < 2 ^ 64 ∧
    ∀ header, r.readExactAt m.localOffset.toNat 30 = .ok header → header.take 4 = LFH_SIG →
      m.dataStart header < 2 ^ 64 ∧
        (m.dataStart header + m.compressedSize.toNat < 2 ^ 64 ∨ r.total < 2 ^ 64 - 1)

/-! ## Inside the payload nothing wraps -/

theorem storedLoop_sums (start length fed : Nat) (decryptor : Option ZipCryptoState) :
    ∀ p ∈ (storedLoop r start length fed decryptor).sums, p.1 + p.2 < start + length := by
  induction fed, decryptor using storedLoop.induct r start length with
  | case1 fed decryptor hlt take e hread =>
    rw [storedLoop, dif_pos hlt]
    simp only [show min (length - fed) COPY_CHUNK_SIZE = take from rfl, hread]
    intro p hp
    rw [List.mem_singleton.1 hp]
    simp only
    omega
  | case2 fed decryptor hlt take chunk hread ih =>
    rw [storedLoop, dif_pos hlt]
    simp only [show min (length - fed) COPY_CHUNK_SIZE = take from rfl, hread]
    intro p hp
    rcases List.mem_cons.1 hp with rfl | hp
    · simp only
      omega
    · exact ih p hp
  | case3 fed decryptor hge =>
    rw [storedLoop, dif_neg hge]
    intro p hp
    cases hp

theorem refill_sums (start length : Nat) (d : Deflate σ) :
    ∀ p ∈ (refill r start length d).sums, p.1 + p.2 < start + length := by
  rw [refill]
  split_ifs with hempty
  · intro p hp
    rw [List.mem_singleton.1 hp]
    simp only
    omega
  · intro p hp
    cases hp

theorem deflateLoop_sums (start length rounds : Nat) (d : Deflate σ) :
    ∀ p ∈ (deflateLoop codecs r start length m rounds d).sums, p.1 + p.2 < start + length := by
  induction rounds generalizing d with
  | zero =>
    intro p hp
    cases hp
  | succ rounds ih =>
    have hfilled := refill_sums (r := r) start length d
    rw [deflateLoop]
    simp only
    split
    · exact hfilled
    · exact hfilled
    · split
      · exact hfilled
      · split_ifs
        · exact hfilled
        · exact hfilled
        · intro p hp
          rcases List.mem_append.1 hp with hp | hp
          · exact hfilled p hp
          · exact ih _ p hp

theorem verifyMethod_sums (rounds start length : Nat) (decryptor : Option ZipCryptoState) :
    ∀ p ∈ (verifyMethod codecs r m rounds start length decryptor).sums,
      p.1 + p.2 < start + length := by
  rw [verifyMethod]
  split_ifs
  · intro p hp
    cases hp
  · exact storedLoop_sums start length 0 decryptor
  · exact deflateLoop_sums start length rounds _
  · intro p hp
    cases hp

/-- The sums behind the local header stay at or below the end of the payload. -/
theorem verifyPayload_sums {rounds start length : Nat} {header : List UInt8}
    (hfits : start + length < 2 ^ 64) :
    ∀ p ∈ (verifyPayload codecs r m rounds header start length).sums, p.1 + p.2 < 2 ^ 64 := by
  rw [verifyPayload]
  split
  · intro p hp
    exact lt_trans (verifyMethod_sums rounds start length none p hp) hfits
  · split_ifs with hshort
    · intro p hp
      cases hp
    · split
      · intro p hp
        cases hp
      · split
        · intro p hp
          cases hp
        · rename_i state _
          intro p hp
          rcases List.mem_cons.1 hp with rfl | hp
          · simp only
            omega
          · have hlt := verifyMethod_sums rounds (add64 start 12) (length - 12) (some state) p hp
            rw [add64_eq (by omega)] at hlt
            omega

/-! ## The way through the local header -/

/-- The sums that place the payload. -/
def headerSums (m : Member) (header : List UInt8) : List (Nat × Nat) :=
  let lo := m.localOffset.toNat
  [(lo, 30), (lo, 30), (add64 lo 30, u16le header 26),
    (add64 (add64 lo 30) (u16le header 26), u16le header 28)]

theorem verify_beyond (rounds : Nat) (h : r.total < add64 m.localOffset.toNat 30) :
    verify codecs r m rounds = ⟨[(m.localOffset.toNat, 30)], some (.ok .corrupt)⟩ := by
  rw [verify]
  exact if_pos h

theorem verify_unread (rounds : Nat) {e : ReadError} (h : add64 m.localOffset.toNat 30 ≤ r.total)
    (hread : r.readExactAt m.localOffset.toNat 30 = .error e) :
    verify codecs r m rounds = ⟨[(m.localOffset.toNat, 30)], some (.error e)⟩ := by
  rw [verify]
  simp only [hread]
  exact if_neg (not_lt.2 h)

theorem verify_unsigned (rounds : Nat) {header : List UInt8}
    (h : add64 m.localOffset.toNat 30 ≤ r.total)
    (hread : r.readExactAt m.localOffset.toNat 30 = .ok header) (hsig : header.take 4 ≠ LFH_SIG) :
    verify codecs r m rounds = ⟨[(m.localOffset.toNat, 30)], some (.ok .corrupt)⟩ := by
  rw [verify]
  simp only [hread]
  exact (if_neg (not_lt.2 h)).trans (if_pos hsig)

/-- The wrapped start of the payload. -/
def wrappedStart (m : Member) (header : List UInt8) : Nat :=
  add64 (add64 (add64 m.localOffset.toNat 30) (u16le header 26)) (u16le header 28)

theorem verify_signed (rounds : Nat) {header : List UInt8}
    (h : add64 m.localOffset.toNat 30 ≤ r.total)
    (hread : r.readExactAt m.localOffset.toNat 30 = .ok header) (hsig : header.take 4 = LFH_SIG) :
    verify codecs r m rounds =
      if r.total < sat64 (wrappedStart m header) m.compressedSize.toNat then
        ⟨headerSums m header, some (.ok .corrupt)⟩
      else
        let rest := verifyPayload codecs r m rounds header (wrappedStart m header)
          m.compressedSize.toNat
        ⟨headerSums m header ++ rest.sums, rest.answer⟩ := by
  rw [verify]
  simp only [hread]
  exact (if_neg (not_lt.2 h)).trans (if_neg (not_not.2 hsig))

theorem wrappedStart_eq {header : List UInt8} (h : m.dataStart header < 2 ^ 64) :
    wrappedStart m header = m.dataStart header := by
  rw [Member.dataStart] at h ⊢
  have hbound : m.localOffset.toNat + 30 < 2 ^ 64 := by omega
  have hname : m.localOffset.toNat + 30 + u16le header 26 < 2 ^ 64 := by omega
  rw [wrappedStart, add64_eq hbound, add64_eq hname, add64_eq h]

/-- The sums of the header are exact if and only if the payload starts at a number of 64 bits. -/
theorem headerSums_exact (m : Member) (header : List UInt8) :
    (∀ p ∈ headerSums m header, p.1 + p.2 < 2 ^ 64) ↔ m.dataStart header < 2 ^ 64 := by
  rw [headerSums, Member.dataStart]
  simp only [List.forall_mem_cons, List.not_mem_nil, false_imp_iff, implies_true, and_true]
  constructor
  · rintro ⟨hbound, -, hname, hextra⟩
    rw [add64_eq hbound] at hname hextra
    rwa [add64_eq hname] at hextra
  · intro h
    have hbound : m.localOffset.toNat + 30 < 2 ^ 64 := by omega
    have hname : m.localOffset.toNat + 30 + u16le header 26 < 2 ^ 64 := by omega
    rw [add64_eq hbound, add64_eq hname]
    exact ⟨hbound, hbound, hname, h⟩

/-! ## The condition is enough -/

theorem verify_meets (rounds : Nat) (h : Representable r m) :
    Meets r m (verify codecs r m rounds) := by
  obtain ⟨hlo, hheader⟩ := h
  have hadd := add64_eq hlo
  have htotal := r.total_lt
  have hsingle : ∀ p ∈ [(m.localOffset.toNat, 30)], p.1 + p.2 < 2 ^ 64 := by
    intro p hp
    rw [List.mem_singleton.1 hp]
    exact hlo
  rcases Nat.lt_or_ge r.total (add64 m.localOffset.toNat 30) with hout | hin
  · rw [verify_beyond rounds hout]
    exact ⟨hsingle, fun _ => rfl⟩
  · obtain ⟨header, hread, _⟩ := SegmentReader.readExactAt_ok (by rwa [hadd] at hin)
    by_cases hsig : header.take 4 = LFH_SIG
    · obtain ⟨hstart, hend⟩ := hheader header hread hsig
      have hwrapped := wrappedStart_eq hstart
      have hexact := (headerSums_exact m header).2 hstart
      rw [verify_signed rounds hin hread hsig, hwrapped]
      split_ifs with hcut
      · exact ⟨hexact, fun _ => rfl⟩
      · have hsum : sat64 (m.dataStart header) m.compressedSize.toNat =
            m.dataStart header + m.compressedSize.toNat := by
          rcases hend with hend | hend
          · exact sat64_of_lt hend
          · exact sat64_eq (by omega)
        rw [hsum] at hcut
        refine ⟨fun p hp => ?_, ?_⟩
        · rcases List.mem_append.1 hp with hp | hp
          · exact hexact p hp
          · exact verifyPayload_sums (by omega) p hp
        · -- only the encryption header can be missing now
          rintro (hlt | ⟨header', hread', hout⟩)
          · omega
          · obtain rfl := Except.ok.inj (hread.symm.trans hread')
            rcases hout with ⟨hpassword, hshort⟩ | hlt
            · obtain ⟨password, hp⟩ := Option.isSome_iff_exists.1 hpassword
              simp only [verifyPayload, hp, if_pos hshort]
            · omega
    · rw [verify_unsigned rounds hin hread hsig]
      exact ⟨hsingle, fun _ => rfl⟩

/-! ## And it is exact -/

theorem not_meets_of_lo (rounds : Nat) (h : 2 ^ 64 ≤ m.localOffset.toNat + 30) :
    ¬ Meets r m (verify codecs r m rounds) := by
  intro hmeets
  have hwraps : (m.localOffset.toNat, 30) ∉ (verify codecs r m rounds).sums :=
    fun hp => absurd (hmeets.exact _ hp) (not_lt.2 h)
  apply hwraps
  rcases Nat.lt_or_ge r.total (add64 m.localOffset.toNat 30) with hout | hin
  · rw [verify_beyond rounds hout]
    exact List.mem_singleton.2 rfl
  · rw [verify_unread rounds hin (SegmentReader.readExactAt_overflow h)]
    exact List.mem_singleton.2 rfl

theorem not_meets_of_start (rounds : Nat) {header : List UInt8}
    (hread : r.readExactAt m.localOffset.toNat 30 = .ok header) (hsig : header.take 4 = LFH_SIG)
    (h : 2 ^ 64 ≤ m.dataStart header) : ¬ Meets r m (verify codecs r m rounds) := by
  intro hmeets
  have hle := SegmentReader.le_total_of_readExactAt hread
  have htotal := r.total_lt
  have hin : add64 m.localOffset.toNat 30 ≤ r.total := by rwa [add64_eq (by omega)]
  have hsub : ∀ p ∈ headerSums m header, p ∈ (verify codecs r m rounds).sums := by
    intro p hp
    rw [verify_signed rounds hin hread hsig]
    split_ifs
    · exact hp
    · exact List.mem_append_left _ hp
  exact absurd ((headerSums_exact m header).1 fun p hp => hmeets.exact p (hsub p hp)) (not_lt.2 h)

/-- The verifier does what it should if the ends of the header and of the payload have 64 bits; and
where the input is shorter than the largest number, only then. -/
theorem verify_iff (codecs : Codecs σ) (r : SegmentReader) (m : Member) :
    (Representable r m → ∀ rounds, Meets r m (verify codecs r m rounds)) ∧
      (r.total < 2 ^ 64 - 1 →
        ((∀ rounds, Meets r m (verify codecs r m rounds)) ↔ Representable r m)) := by
  refine ⟨fun h rounds => verify_meets rounds h, fun htotal => ⟨fun h => ?_,
    fun h rounds => verify_meets rounds h⟩⟩
  refine ⟨?_, fun header hread hsig => ⟨?_, Or.inr htotal⟩⟩
  · by_contra hlo
    exact not_meets_of_lo 0 (not_lt.1 hlo) (h 0)
  · by_contra hstart
    exact not_meets_of_start 0 hread hsig (not_lt.1 hstart) (h 0)

/-! ## A wrapped offset -/

/-- An input of 64 bytes. -/
def shortInput : SegmentReader := ⟨[⟨"a.zip", 0, 64, by decide⟩], fun _ _ => 0⟩

/-- An entry whose local header would start 16 bytes before the largest number. -/
def farEntry : CentralValues := ⟨0, 0, 0xfffffffffffffff0, 0⟩

def farMember : Member := ⟨0xfffffffffffffff0, 0, 0, 0, 0, none⟩

def noCodecs : Codecs Unit := ⟨fun _ => 0, (), fun _ _ => none⟩

/-- The offset wraps to 14, which the check accepts; the read then fails, and with it the call. -/
theorem farMember_fails :
    LiesOutside shortInput farMember ∧
      memberOffset shortInput ⟨0, false⟩ farEntry = some farMember.localOffset.toNat ∧
      verify noCodecs shortInput farMember 0 =
        ⟨[(0xfffffffffffffff0, 30)], some (.error .overflow)⟩ ∧
      manifestMember noCodecs shortInput ⟨0, false⟩ farEntry "a" 0 0 0 none 0
        ⟨false, false, false, ""⟩ = some (.error .overflow) ∧
      ¬ Meets shortInput farMember (verify noCodecs shortInput farMember 0) := by
  have hverify : verify noCodecs shortInput farMember 0 =
      ⟨[(0xfffffffffffffff0, 30)], some (.error .overflow)⟩ :=
    verify_unread 0 (by decide) (SegmentReader.readExactAt_overflow (by decide))
  have hoffset : memberOffset shortInput ⟨0, false⟩ farEntry = some farMember.localOffset.toNat := by
    decide
  refine ⟨Or.inl (by decide), hoffset, hverify, ?_, ?_⟩
  · have hmember : (⟨.ofNat farMember.localOffset.toNat, 0, 0, farEntry.compressed,
        farEntry.uncompressed, none⟩ : Member) = farMember := by
      rw [UInt64.ofNat_toNat]
      rfl
    rw [manifestMember, hoffset]
    show (verify noCodecs shortInput ⟨.ofNat farMember.localOffset.toNat, 0, 0,
      farEntry.compressed, farEntry.uncompressed, none⟩ 0).answer.map _ = _
    rw [hmember, hverify]
    rfl
  · exact not_meets_of_lo 0 (by decide)

end Sunpack.ArchiveState
