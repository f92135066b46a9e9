import Sunpack.CatalogCache.Deltas

/-!
# The files of the cache

What the snapshot and the WAL hold of a history of transactions, and that opening reads exactly that. A
WAL that is cut holds an initial part of the history, or is torn; then the cache is discarded.
-/

namespace Sunpack.CatalogCache

open Lib Scan Wal

variable {Anchor Observation : Type} {T : DowncaseTable} {crc : Bytes → UInt32} {codec : Codec}

/-! ## Transactions -/

structure Carries (codec : Codec) (ds : List Delta) (t : Transaction) : Prop where
  nonempty : ds ≠ []
  decodes : codec.decodeDeltas t.payload = .ok ds

/-- Transactions with the numbers after `n`. -/
inductive Numbered (codec : Codec) : Nat → List (List Delta) → List Transaction → Prop
  | nil (n : Nat) : Numbered codec n [] []
  | cons {n : Nat} {ds : List Delta} {t : Transaction} {history : List (List Delta)}
      {ts : List Transaction} (seq : t.seq.toNat = n + 1) (carries : Carries codec ds t)
      (rest : Numbered codec (n + 1) history ts) : Numbered codec n (ds :: history) (t :: ts)

theorem Numbered.append {n : Nat} {history : List (List Delta)} {ts : List Transaction}
    (h : Numbered codec n history ts) {ds : List Delta} {t : Transaction}
    (hseq : t.seq.toNat = n + history.length + 1) (hcarries : Carries codec ds t) :
    Numbered codec n (history ++ [ds]) (ts ++ [t]) := by
  induction h with
  | nil n => exact .cons hseq hcarries (.nil _)
  | cons seq carries _ ih =>
    refine .cons seq carries (ih ?_)
    rw [hseq, List.length_cons]
    omega

theorem Numbered.take {n : Nat} {history : List (List Delta)} {ts : List Transaction}
    (h : Numbered codec n history ts) (k : Nat) :
    Numbered codec n (history.take k) (ts.take k) := by
  induction h generalizing k with
  | nil n =>
    rw [List.take_nil, List.take_nil]
    exact .nil n
  | cons seq carries _ ih =>
    cases k with
    | zero => exact .nil _
    | succ k => exact .cons seq carries (ih k)

theorem Numbered.mem {n : Nat} {history : List (List Delta)} {ts : List Transaction}
    (h : Numbered codec n history ts) {t : Transaction} (ht : t ∈ ts) :
    t.seq.toNat ≤ n + history.length ∧ ∃ ds, Carries codec ds t := by
  induction h with
  | nil n => exact absurd ht List.not_mem_nil
  | @cons n ds t' history ts seq carries _ ih =>
    rw [List.length_cons]
    rcases List.mem_cons.1 ht with rfl | ht
    · exact ⟨by omega, ds, carries⟩
    · obtain ⟨hle, hcarries⟩ := ih ht
      exact ⟨by omega, hcarries⟩

/-! ## Replay -/

theorem Loaded.transaction_old {l : Loaded Anchor Observation} {t : Transaction}
    (hseq : t.seq.toNat ≤ l.seq.toNat) {ds : List Delta} (h : Carries codec ds t) :
    l.transaction T codec t.seq t.payload = .ok l := by
  unfold Loaded.transaction
  rw [h.decodes]
  show (if ds = [] then _ else _) = _
  rw [if_neg h.nonempty, if_pos (UInt64.le_iff_toNat_le.2 hseq)]

theorem Loaded.transaction_next {l : Loaded Anchor Observation} {t : Transaction}
    (hseq : t.seq.toNat = l.seq.toNat + 1) {ds : List Delta} (h : Carries codec ds t) :
    l.transaction T codec t.seq t.payload =
      .ok { ds.foldl (Loaded.delta T) l with seq := t.seq } := by
  have hlater : ¬ t.seq ≤ l.seq := by
    rw [UInt64.le_iff_toNat_le]
    omega
  unfold Loaded.transaction
  rw [h.decodes]
  show (if ds = [] then _ else _) = _
  rw [if_neg h.nonempty, if_neg hlater, if_neg (by omega)]

theorem replay_old {ts : List Transaction} {l : Loaded Anchor Observation}
    (h : ∀ t ∈ ts, t.seq.toNat ≤ l.seq.toNat ∧ ∃ ds, Carries codec ds t) :
    ts.foldlM (fun l t => l.transaction T codec t.seq t.payload) l = .ok l := by
  induction ts with
  | nil => rfl
  | cons t ts ih =>
    obtain ⟨hseq, ds, hcarries⟩ := h t List.mem_cons_self
    rw [List.foldlM_cons, Loaded.transaction_old hseq hcarries]
    exact ih fun t ht => h t (List.mem_cons_of_mem _ ht)

/-- What is loaded is the cache after a history. -/
structure Loaded.After (T : DowncaseTable) (l : Loaded Anchor Observation)
    (history : List (List Delta)) : Prop where
  seq : l.seq.toNat = history.length
  sound : AllSound T l.catalogs
  cache : (cacheOf l.catalogs l.stamps).Agrees (Cache.after T history)

theorem Delta.edits_pos (d : Delta) : 0 < d.edits := Nat.succ_pos _

section Replay

variable (hdot : ∀ u, T.unit u = '.'.toNat.toUInt16 → u = '.'.toNat.toUInt16)

include hdot

/-- Replayed transactions count as edits. -/
theorem replay_new {ts : List Transaction} {l : Loaded Anchor Observation}
    {before history : List (List Delta)} (hl : l.After T before)
    (h : Numbered codec before.length history ts) :
    ∃ l', ts.foldlM (fun l t => l.transaction T codec t.seq t.payload) l = .ok l' ∧
      l'.After T (before ++ history) ∧ (l'.edits = 0 → l.edits = 0 ∧ history = []) := by
  generalize hn : before.length = n at h
  induction h generalizing l before with
  | nil n => exact ⟨l, rfl, by rwa [List.append_nil], fun hedits => ⟨hedits, rfl⟩⟩
  | @cons n ds t history ts seq carries _ ih =>
    obtain ⟨hsound, hcache, hedits⟩ := foldl_delta hdot hl.sound ds
    have hnext := Loaded.transaction_next (T := T) (l := l) (by rw [hl.seq, hn, seq]) carries
    have hafter : ({ ds.foldl (Loaded.delta T) l with seq := t.seq } :
        Loaded Anchor Observation).After T (before ++ [ds]) := by
      refine ⟨?_, hsound, ?_⟩
      · rw [List.length_append, List.length_singleton, hn]
        exact seq
      · rw [Cache.after_append]
        exact hcache ▸ hl.cache.applyAll ds
    obtain ⟨l', hrun, hafter', hzero⟩ := ih hafter (by simp [hn])
    refine ⟨l', ?_, ?_, fun h0 => ?_⟩
    · rw [List.foldlM_cons, hnext]
      exact hrun
    · rwa [List.append_assoc] at hafter'
    · have hsum : (ds.foldl (Loaded.delta T) l).edits = 0 := (hzero h0).1
      obtain ⟨d, rest, rfl⟩ := List.exists_cons_of_ne_nil carries.nonempty
      rw [hedits, List.map_cons, List.sum_cons] at hsum
      have := d.edits_pos
      omega

end Replay

/-! ## The snapshot -/

/-- The snapshot holds the cache after the first transactions. -/
def SnapshotHolds (Anchor Observation : Type) (T : DowncaseTable) (crc : Bytes → UInt32)
    (codec : Codec) (history : List (List Delta)) (published : Nat) (snapshot : Option Bytes) :
    Prop :=
  (snapshot = none → published = 0) ∧
  ∀ file, snapshot = some file → ∃ (payload : Bytes) (stamps : Dict Text Stamp)
    (rows : List (Text × List DirectoryEntryRecord)),
    file = writeSnapshot crc .catalogSnapshot (UInt64.ofNat published) payload ∧
    payload.length < 2 ^ 64 ∧ codec.decodeSnapshot payload = .ok ⟨stamps, rows⟩ ∧
    AllSound T (rows.foldl (fun catalogs e => catalogs.set e.1
      (e.2.foldl (ScopeCatalog.insert T) {})) (∅ : Catalogs Anchor Observation)) ∧
    (cacheOf (rows.foldl (fun catalogs e => catalogs.set e.1
      (e.2.foldl (ScopeCatalog.insert T) {})) (∅ : Catalogs Anchor Observation)) stamps).Agrees
        (Cache.after T (history.take published))

theorem SnapshotHolds.load {history : List (List Delta)} {published : Nat} {disk : Disk}
    (h : SnapshotHolds Anchor Observation T crc codec history published disk.snapshot)
    (hle : published ≤ history.length) (hbound : history.length < 2 ^ 64) :
    ∃ l : Loaded Anchor Observation, loadSnapshot T crc codec disk = .ok l ∧ l.edits = 0 ∧
      l.After T (history.take published) := by
  have hlen : (history.take published).length = published := by
    rw [List.length_take, Nat.min_eq_left hle]
  unfold loadSnapshot
  cases hsnapshot : disk.snapshot with
  | none =>
    have hzero := h.1 hsnapshot
    subst hzero
    exact ⟨{}, rfl, rfl, rfl, allSound_empty, .refl _⟩
  | some file =>
    obtain ⟨payload, stamps, rows, rfl, hfits, hdecode, hsound, hagrees⟩ := h.2 file hsnapshot
    dsimp only
    rw [readSnapshot_writeSnapshot crc hfits hdecode]
    refine ⟨_, rfl, rfl, ?_, hsound, hagrees⟩
    rw [hlen]
    exact UInt64.toNat_ofNat_of_lt' (Nat.lt_of_le_of_lt hle hbound)

theorem SnapshotHolds.congr {history history' : List (List Delta)} {published : Nat}
    {snapshot : Option Bytes}
    (h : SnapshotHolds Anchor Observation T crc codec history published snapshot)
    (heq : history'.take published = history.take published) :
    SnapshotHolds Anchor Observation T crc codec history' published snapshot := by
  unfold SnapshotHolds
  rw [heq]
  exact h

/-! ## The WAL -/

/-- Transactions that the snapshot covers, and then the others of the history. -/
def WalHolds (crc : Bytes → UInt32) (codec : Codec) (history : List (List Delta))
    (published : Nat) (wal : Option Bytes) : Prop :=
  (wal = none → history.length = published) ∧
  ∀ file, wal = some file → ∃ old new : List Transaction,
    file = logBytes crc .catalogWal (old ++ new) ∧
    (∀ t ∈ old, t.seq.toNat ≤ published ∧ ∃ ds, Carries codec ds t) ∧
    Numbered codec published (history.drop published) new

/-- A WAL whose last transaction is not whole. -/
def TornWal (crc : Bytes → UInt32) (wal : Option Bytes) : Prop :=
  ∃ (file : Bytes) (r r' : Reader) (read : List (UInt64 × Bytes)), wal = some file ∧
    Reader.new file .catalogWal = .ok r ∧ r.readAll crc = .ok (read, r') ∧ r'.torn = true

/-- The files hold the cache after a history. -/
structure Holds (Anchor Observation : Type) (T : DowncaseTable) (crc : Bytes → UInt32)
    (codec : Codec) (disk : Disk) (history : List (List Delta)) (published : Nat) : Prop where
  le : published ≤ history.length
  bound : history.length < 2 ^ 64
  snapshot : SnapshotHolds Anchor Observation T crc codec history published disk.snapshot
  wal : WalHolds crc codec history published disk.wal

theorem forEach_log {σ ε : Type} (crc : Bytes → UInt32) (diagnose : IoError → ε)
    (body : σ → UInt64 → Bytes → Except ε σ) (ts : List Transaction) {n : Nat}
    (hn : n ≤ (CutLog.bytes (Transaction.bytes crc) ts).length) :
    ∃ r r' : Reader,
      Reader.new ((logBytes crc .catalogWal ts).take (16 + n)) .catalogWal = .ok r ∧
      r'.torn = decide (n ≠ (CutLog.bytes (Transaction.bytes crc)
        (CutLog.survivors (Transaction.bytes crc) ts n)).length) ∧
      ∀ s, r.forEach crc diagnose body s =
        ((CutLog.survivors (Transaction.bytes crc) ts n).foldlM
          (fun s t => body s t.seq t.payload) s).map (·, r') := by
  have hfile : (logBytes crc .catalogWal ts).take (16 + n) =
      fileHeader .catalogWal ++ (CutLog.bytes (Transaction.bytes crc) ts).take n := by
    rw [logBytes, List.take_append, List.take_of_length_le (by simp), fileHeader_length,
      Nat.add_sub_cancel_left]
  rw [hfile, Reader.new_whole]
  set r : Reader := { input := _, fileEnd := _, validEnd := 16, torn := false } with hr
  have hbound : r.AtBoundary := ⟨rfl, rfl⟩
  obtain ⟨r', -, htorn, hrun⟩ := Reader.forEach_cut crc diagnose body ts hbound hn rfl
  exact ⟨r, r', rfl, htorn, hrun⟩

theorem loadWal_log (disk : Disk) {ts : List Transaction}
    (hwal : disk.wal = some (logBytes crc .catalogWal ts)) (l : Loaded Anchor Observation) :
    loadWal T crc codec disk l =
      ts.foldlM (fun l t => l.transaction T codec t.seq t.payload) l := by
  obtain ⟨r, r', hnew, htorn, hrun⟩ := forEach_log crc id (Loaded.transaction T codec) ts
    (Nat.le_refl (CutLog.bytes (Transaction.bytes crc) ts).length) (σ := Loaded Anchor Observation)
  rw [CutLog.survivors_of_le _ (Nat.le_refl _)] at htorn hrun
  rw [← logBytes_length crc .catalogWal, List.take_length] at hnew
  simp only [ne_eq, not_true_eq_false, decide_false] at htorn
  unfold loadWal
  rw [hwal]
  dsimp only
  rw [hnew]
  show (r.forEach crc id (Loaded.transaction T codec) l).bind _ = _
  rw [hrun]
  cases ts.foldlM (fun l t => l.transaction T codec t.seq t.payload) l with
  | error e => rfl
  | ok l' =>
    show (if r'.torn = true then _ else _) = _
    rw [if_neg (by rw [htorn]; simp)]

end Sunpack.CatalogCache
