import Mathlib.Logic.Relation
import Sunpack.CatalogCache.Recovery

/-!
# Runs of the catalog cache

A store with its live catalogs, and the disk, over any sequence of appends, commits, checkpoints,
crashes and openings. A crash keeps any number of the bytes of the WAL, and the old snapshot or the new
one; it also stands for an error, after which the caller drops the store.
-/

namespace Sunpack.CatalogCache

open Lib Scan Wal

/-- An open store; `appended` are the deltas it has not committed. -/
structure Running (Anchor Observation : Type) where
  store : CatalogStore
  catalogs : Catalogs Anchor Observation
  appended : List Delta

/-- `history` are the transactions since the cache was empty, `published` the number of those that
the snapshot covers. -/
structure World (Anchor Observation : Type) where
  disk : Disk := {}
  running : Option (Running Anchor Observation) := none
  history : List (List Delta) := []
  published : Nat := 0

variable {Anchor Observation : Type} {T : DowncaseTable} {crc : Bytes → UInt32} {codec : Codec}

/-- Calls on catalogs, each in a scope. -/
def callCatalogs (T : DowncaseTable) (catalogs : Catalogs Anchor Observation)
    (calls : List (Text × Call Anchor Observation)) : Catalogs Anchor Observation :=
  calls.foldl (fun catalogs call =>
    catalogs.set call.1 (((catalogs.get? call.1).getD {}).call T call.2)) catalogs

theorem AllSound.calls (hdot : ∀ u, T.unit u = '.'.toNat.toUInt16 → u = '.'.toNat.toUInt16)
    {catalogs : Catalogs Anchor Observation} (h : AllSound T catalogs)
    (calls : List (Text × Call Anchor Observation)) :
    AllSound T (callCatalogs T catalogs calls) := by
  induction calls generalizing catalogs with
  | nil => exact h
  | cons call calls ih => exact ih (h.set call.1 ((h.getD call.1).call hdot call.2))

/-- The removals and the rows of a delta as calls: the effect that `Step.append` asks for. -/
def Delta.calls (d : Delta) : List (Text × Call Anchor Observation) :=
  (d.scope, .removeMany d.removed) :: d.rows.map fun record => (d.scope, .insert record)

theorem callCatalogs_delta (catalogs : Catalogs Anchor Observation) (d : Delta) :
    callCatalogs T catalogs d.calls = applyDelta T catalogs d := by
  have hinserts : ∀ (records : List DirectoryEntryRecord) (c : ScopeCatalog Anchor Observation),
      callCatalogs T (catalogs.set d.scope c) (records.map fun record => (d.scope, .insert record)) =
        catalogs.set d.scope (records.foldl (ScopeCatalog.insert T) c) := by
    intro records
    induction records with
    | nil => exact fun c => rfl
    | cons record records ih =>
      intro c
      refine Eq.trans ?_ (ih (c.insert T record))
      show callCatalogs T ((catalogs.set d.scope c).set d.scope _) _ = _
      rw [Dict.set_set, Dict.get?_set_self]
      rfl
  exact hinserts d.rows _

theorem received_calls (hdot : ∀ u, T.unit u = '.'.toNat.toUInt16 → u = '.'.toNat.toUInt16)
    {catalogs : Catalogs Anchor Observation} (h : AllSound T catalogs) (stamps : Dict Text Stamp)
    (d : Delta) : (cacheOf (callCatalogs T catalogs d.calls) stamps).rows =
      ((cacheOf catalogs stamps).apply T d).rows := by
  rw [callCatalogs_delta, ← (h.applyDelta hdot stamps d).2]
  rfl

/-- The history after a commit of what was appended. -/
def grown (history : List (List Delta)) (appended : List Delta) : List (List Delta) :=
  if appended = [] then history else history ++ [appended]

inductive Step (T : DowncaseTable) (crc : Bytes → UInt32) (codec : Codec)
    (w : World Anchor Observation) : World Anchor Observation → Prop
  /-- Calls on the catalogs that leave the persistent rows as they are. -/
  | observe {r : Running Anchor Observation} (running : w.running = some r)
      (calls : List (Text × Call Anchor Observation))
      (same : (cacheOf (callCatalogs T r.catalogs calls) r.store.stamps).rows =
        (cacheOf r.catalogs r.store.stamps).rows) :
      Step T crc codec w { w with
        running := some { r with catalogs := callCatalogs T r.catalogs calls } }
  /-- Calls with the effect of a delta, and the delta; it may be committed at once. -/
  | append {r : Running Anchor Observation} (running : w.running = some r) (d : Delta)
      (calls : List (Text × Call Anchor Observation))
      (received : (cacheOf (callCatalogs T r.catalogs calls) r.store.stamps).rows =
        ((cacheOf r.catalogs r.store.stamps).apply T d).rows)
      {store : CatalogStore} {disk : Disk}
      (ok : r.store.append crc codec w.disk d = .ok (store, disk)) :
      Step T crc codec w { w with
        disk := disk
        running := some ⟨store, callCatalogs T r.catalogs calls,
          if store.pendingDeltas = 0 then [] else r.appended ++ [d]⟩
        history := if store.pendingDeltas = 0 then w.history ++ [r.appended ++ [d]]
          else w.history }
  | commit {r : Running Anchor Observation} (running : w.running = some r) {store : CatalogStore}
      {disk : Disk} (ok : r.store.commit crc w.disk = .ok (store, disk)) :
      Step T crc codec w { w with
        disk := disk
        running := some ⟨store, r.catalogs, []⟩
        history := grown w.history r.appended }
  | checkpoint {r : Running Anchor Observation} (running : w.running = some r)
      {store : CatalogStore} {disk : Disk}
      (ok : r.store.checkpoint crc codec w.disk r.catalogs = .ok (store, disk)) :
      Step T crc codec w {
        disk := disk
        running := some ⟨store, r.catalogs, []⟩
        history := grown w.history r.appended
        published := if r.store.edits = 0 then w.published
          else (grown w.history r.appended).length }
  /-- The store is gone, and the WAL keeps `n` bytes. -/
  | crash {r : Running Anchor Observation} (running : w.running = some r) (n : Nat) :
      Step T crc codec w { w with disk := w.disk.cut n, running := none }
  /-- The same in a checkpoint, between the new snapshot and the removal of the old WAL. -/
  | crashPublished {r : Running Anchor Observation} (running : w.running = some r)
      {store : CatalogStore} {committed published : Disk}
      (ok : r.store.commit crc w.disk = .ok (store, committed))
      (ok' : store.publish crc codec committed r.catalogs = .ok published) (n : Nat) :
      Step T crc codec w {
        disk := published.cut n
        running := none
        history := grown w.history r.appended
        published := (grown w.history r.appended).length }
  | reopen (running : w.running = none) (removed : Bool)
      {opened : Opened Anchor Observation}
      (ok : openStore T crc codec w.disk removed = opened) :
      Step T crc codec w {
        disk := opened.disk
        running := some ⟨opened.store, opened.catalogs, []⟩
        history := w.history.take opened.store.seq.toNat
        published := if opened.disk.snapshot.isSome then w.published else 0 }

/-- From an empty folder. -/
def Reachable (T : DowncaseTable) (crc : Bytes → UInt32) (codec : Codec)
    (w : World Anchor Observation) : Prop :=
  Relation.ReflTransGen (Step T crc codec) {} w

/-! ## The invariant -/

structure Live (T : DowncaseTable) (crc : Bytes → UInt32) (codec : Codec)
    (w : World Anchor Observation) (r : Running Anchor Observation) : Prop where
  seq : r.store.seq.toNat = w.history.length
  written : r.store.written = r.store.seq
  pending : Pending codec r.store r.appended
  few : r.appended.length < BATCH_DELTAS
  sound : AllSound T r.catalogs
  cache : (cacheOf r.catalogs r.store.stamps).Agrees
    ((Cache.after T w.history).applyAll T r.appended)
  edits : r.store.edits = 0 → r.appended = []
  holds : Holds Anchor Observation T crc codec w.disk w.history w.published

/-- The disk holds a part of the history that covers the snapshot, or does not load. -/
def Closed (T : DowncaseTable) (crc : Bytes → UInt32) (codec : Codec)
    (w : World Anchor Observation) : Prop :=
  (∃ k, w.published ≤ k ∧ k ≤ w.history.length ∧
    Holds Anchor Observation T crc codec w.disk (w.history.take k) w.published) ∨
  (TornWal crc w.disk.wal ∧
    ∃ e, load T crc codec w.disk = (.error e : Except _ (Loaded Anchor Observation)))

structure Inv (T : DowncaseTable) (crc : Bytes → UInt32) (codec : Codec)
    (w : World Anchor Observation) : Prop where
  live : ∀ r, w.running = some r → Live T crc codec w r
  closed : w.running = none → Closed T crc codec w

theorem holds_empty : Holds Anchor Observation T crc codec {} [] 0 where
  le := Nat.le_refl 0
  bound := by decide
  snapshot := ⟨fun _ => rfl, fun file h => by cases h⟩
  wal := ⟨fun _ => rfl, fun file h => by cases h⟩

theorem inv_init : Inv T crc codec ({} : World Anchor Observation) where
  live r h := by cases h
  closed _ := .inl ⟨0, Nat.le_refl 0, Nat.le_refl 0, holds_empty⟩

theorem Inv.of_live {w : World Anchor Observation} {r : Running Anchor Observation}
    (hrun : w.running = some r) (h : Live T crc codec w r) : Inv T crc codec w where
  live r' hrun' := by
    rw [hrun] at hrun'
    exact Option.some.inj hrun' ▸ h
  closed hnone := by
    rw [hrun] at hnone
    cases hnone

theorem Inv.of_closed {w : World Anchor Observation} (hrun : w.running = none)
    (h : Closed T crc codec w) : Inv T crc codec w where
  live r hrun' := by
    rw [hrun] at hrun'
    cases hrun'
  closed _ := h

/-! ## Commits -/

theorem pending_nil {store : CatalogStore} (hcount : store.pendingDeltas = 0)
    (hbytes : store.pending = []) : Pending codec store [] :=
  ⟨hcount, fun _ => hbytes, fun h => absurd rfl h⟩

theorem few_nil : ([] : List Delta).length < BATCH_DELTAS := by decide

/-- What a commit does to the store and to the disk. -/
structure Committed (T : DowncaseTable) (crc : Bytes → UInt32) (codec : Codec)
    (w : World Anchor Observation) (r : Running Anchor Observation) (store : CatalogStore)
    (disk : Disk) : Prop where
  seq : store.seq.toNat = (grown w.history r.appended).length
  written : store.written = store.seq
  pending : Pending codec store []
  stamps : store.stamps = r.store.stamps
  holds : Holds Anchor Observation T crc codec disk (grown w.history r.appended) w.published
  cache : (cacheOf r.catalogs store.stamps).Agrees
    (Cache.after T (grown w.history r.appended))

theorem after_grown (history : List (List Delta)) (appended : List Delta) :
    Cache.after T (grown history appended) = (Cache.after T history).applyAll T appended := by
  unfold grown
  split_ifs with hnil
  · rw [hnil]
    rfl
  · exact Cache.after_append history appended

theorem Live.commit {w : World Anchor Observation} {r : Running Anchor Observation}
    (hcodec : codec.RoundTrips) (h : Live T crc codec w r) {store : CatalogStore} {disk : Disk}
    (hcommit : r.store.commit crc w.disk = .ok (store, disk)) :
    Committed T crc codec w r store disk := by
  have hcache : (cacheOf r.catalogs r.store.stamps).Agrees
      (Cache.after T (grown w.history r.appended)) := by
    rw [after_grown]
    exact h.cache
  by_cases hnil : r.appended = []
  · have hcount : r.store.pendingDeltas = 0 := by rw [h.pending.count, hnil, List.length_nil]
    unfold CatalogStore.commit at hcommit
    rw [if_pos hcount] at hcommit
    obtain ⟨rfl, rfl⟩ := Prod.mk.inj (Except.ok.inj hcommit)
    have hgrown : grown w.history r.appended = w.history := if_pos hnil
    refine ⟨?_, h.written, pending_nil hcount (h.pending.none hnil), rfl, ?_, hcache⟩
    · rw [hgrown, h.seq]
    · rw [hgrown]
      exact h.holds
  · have hgrown : grown w.history r.appended = w.history ++ [r.appended] := if_neg hnil
    have hfew : r.appended.length < 2 ^ 32 := Nat.lt_trans h.few (by decide)
    obtain ⟨hholds, hstore, hseq⟩ := commit_holds hcodec h.pending hnil hfew h.holds h.seq h.written
      hcommit
    rw [hstore] at hseq ⊢
    refine ⟨?_, rfl, pending_nil rfl rfl, rfl, ?_, hcache⟩
    · rw [hgrown, hseq]
    · rw [hgrown]
      exact hholds

/-! ## Steps -/

theorem Live.observe {w : World Anchor Observation} {r : Running Anchor Observation}
    (hdot : ∀ u, T.unit u = '.'.toNat.toUInt16 → u = '.'.toNat.toUInt16)
    (h : Live T crc codec w r) (calls : List (Text × Call Anchor Observation))
    (hsame : (cacheOf (callCatalogs T r.catalogs calls) r.store.stamps).rows =
      (cacheOf r.catalogs r.store.stamps).rows) :
    Live T crc codec { w with
        running := some { r with catalogs := callCatalogs T r.catalogs calls } }
      { r with catalogs := callCatalogs T r.catalogs calls } where
  seq := h.seq
  written := h.written
  pending := h.pending
  few := h.few
  sound := h.sound.calls hdot calls
  cache := by
    refine ⟨fun scope hscope => ?_, h.cache.stamps⟩
    rw [show (cacheOf (callCatalogs T r.catalogs calls) r.store.stamps).rows scope =
      (cacheOf r.catalogs r.store.stamps).rows scope from congrFun hsame scope]
    exact h.cache.rows scope hscope
  edits := h.edits
  holds := h.holds

/-- The live catalogs and the stamps after a delta. -/
theorem cacheOf_received {catalogs catalogs' : Catalogs Anchor Observation}
    {stamps : Dict Text Stamp} {d : Delta}
    (h : (cacheOf catalogs' stamps).rows = ((cacheOf catalogs stamps).apply T d).rows) :
    cacheOf catalogs' (applyStamp stamps d) = (cacheOf catalogs stamps).apply T d := by
  have hstamps : (applyStamp stamps d).get? = ((cacheOf catalogs stamps).apply T d).stamps := by
    unfold applyStamp Cache.apply cacheOf
    cases d.stamp with
    | none => rfl
    | some stamp => exact Dict.get?_set_eq_update stamps d.scope stamp
  calc cacheOf catalogs' (applyStamp stamps d)
      = ⟨(cacheOf catalogs' stamps).rows, (applyStamp stamps d).get?⟩ := rfl
    _ = (cacheOf catalogs stamps).apply T d := by rw [h, hstamps]

/-- The store with a delta more in its memory, before it is perhaps committed. -/
theorem Live.push {w : World Anchor Observation} {r : Running Anchor Observation}
    (hdot : ∀ u, T.unit u = '.'.toNat.toUInt16 → u = '.'.toNat.toUInt16)
    (h : Live T crc codec w r) {d : Delta} {bytes : Bytes}
    (hencode : codec.encodeDelta d = .ok bytes) (calls : List (Text × Call Anchor Observation))
    (hreceived : (cacheOf (callCatalogs T r.catalogs calls) r.store.stamps).rows =
      ((cacheOf r.catalogs r.store.stamps).apply T d).rows) :
    Pending codec (r.store.push d bytes) (r.appended ++ [d]) ∧
      AllSound T (callCatalogs T r.catalogs calls) ∧
      (cacheOf (callCatalogs T r.catalogs calls) (r.store.push d bytes).stamps).Agrees
        ((Cache.after T w.history).applyAll T (r.appended ++ [d])) := by
  refine ⟨h.pending.push hencode, h.sound.calls hdot calls, ?_⟩
  rw [Cache.applyAll_append, show (r.store.push d bytes).stamps = applyStamp r.store.stamps d from rfl,
    cacheOf_received hreceived]
  exact h.cache.apply d

theorem Live.append {w : World Anchor Observation} {r : Running Anchor Observation}
    (hdot : ∀ u, T.unit u = '.'.toNat.toUInt16 → u = '.'.toNat.toUInt16)
    (hcodec : codec.RoundTrips) (h : Live T crc codec w r) {d : Delta}
    (calls : List (Text × Call Anchor Observation))
    (hreceived : (cacheOf (callCatalogs T r.catalogs calls) r.store.stamps).rows =
      ((cacheOf r.catalogs r.store.stamps).apply T d).rows)
    {store : CatalogStore} {disk : Disk}
    (happend : r.store.append crc codec w.disk d = .ok (store, disk)) :
    Live T crc codec { w with
        disk := disk
        running := some ⟨store, callCatalogs T r.catalogs calls,
          if store.pendingDeltas = 0 then [] else r.appended ++ [d]⟩
        history := if store.pendingDeltas = 0 then w.history ++ [r.appended ++ [d]]
          else w.history }
      ⟨store, callCatalogs T r.catalogs calls,
        if store.pendingDeltas = 0 then [] else r.appended ++ [d]⟩ := by
  unfold CatalogStore.append at happend
  cases hencode : codec.encodeDelta d with
  | error e =>
    rw [hencode] at happend
    cases happend
  | ok bytes =>
    rw [hencode] at happend
    obtain ⟨hpending, hsound, hcache⟩ := h.push hdot hencode calls hreceived
    have hcount : (r.store.push d bytes).pendingDeltas = r.appended.length + 1 := by
      rw [hpending.count, List.length_append, List.length_singleton]
    have hfew := h.few
    have hedits : (r.store.push d bytes).edits ≠ 0 := by
      have := d.edits_pos
      show r.store.edits + d.edits ≠ 0
      omega
    change (if _ then (r.store.push d bytes).commit crc w.disk
      else .ok (r.store.push d bytes, w.disk)) = _ at happend
    split_ifs at happend with hfull
    · -- committed at once
      have hlen : (r.appended ++ [d]).length < 2 ^ 32 := by
        rw [List.length_append, List.length_singleton]
        simp only [BATCH_DELTAS] at hfew
        omega
      obtain ⟨hholds, hstore, hseq⟩ := commit_holds hcodec hpending (by simp) hlen h.holds h.seq
        h.written happend
      have hzero : store.pendingDeltas = 0 := by rw [hstore]
      simp only [if_pos hzero]
      rw [hstore] at hseq ⊢
      refine ⟨hseq, rfl, pending_nil rfl rfl, few_nil, hsound, ?_, fun _ => rfl, hholds⟩
      rw [Cache.after_append]
      exact hcache
    · obtain ⟨rfl, rfl⟩ := Prod.mk.inj (Except.ok.inj happend)
      have hpos : ¬ (r.store.push d bytes).pendingDeltas = 0 := by omega
      simp only [if_neg hpos]
      refine ⟨h.seq, h.written, hpending, ?_, hsound, hcache, fun hzero => absurd hzero hedits,
        h.holds⟩
      simp only [Bool.or_eq_true, decide_eq_true_eq, not_or, Nat.not_le] at hfull
      rw [← hpending.count]
      exact hfull.1.2

theorem Live.checkpoint {w : World Anchor Observation} {r : Running Anchor Observation}
    (hdot : ∀ u, T.unit u = '.'.toNat.toUInt16 → u = '.'.toNat.toUInt16)
    (hcodec : codec.RoundTrips) (h : Live T crc codec w r) {store : CatalogStore} {disk : Disk}
    (hcheckpoint : r.store.checkpoint crc codec w.disk r.catalogs = .ok (store, disk)) :
    Live T crc codec {
        disk := disk
        running := some ⟨store, r.catalogs, []⟩
        history := grown w.history r.appended
        published := if r.store.edits = 0 then w.published
          else (grown w.history r.appended).length }
      ⟨store, r.catalogs, []⟩ := by
  unfold CatalogStore.checkpoint at hcheckpoint
  by_cases hedits : r.store.edits = 0
  · have hnil := h.edits hedits
    have hgrown : grown w.history r.appended = w.history := if_pos hnil
    rw [if_pos hedits] at hcheckpoint
    obtain ⟨rfl, rfl⟩ := Prod.mk.inj (Except.ok.inj hcheckpoint)
    have hpending := h.pending
    have hcache := h.cache
    rw [hnil] at hpending hcache
    simp only [if_pos hedits, hgrown]
    exact ⟨h.seq, h.written, hpending, few_nil, h.sound, hcache, fun _ => rfl, h.holds⟩
  · rw [if_neg hedits] at hcheckpoint
    simp only [if_neg hedits]
    cases hcommit : r.store.commit crc w.disk with
    | error e =>
      rw [hcommit] at hcheckpoint
      cases hcheckpoint
    | ok committed =>
      have hcommitted := h.commit hcodec hcommit
      rw [hcommit] at hcheckpoint
      change (committed.1.publish crc codec committed.2 r.catalogs).bind _ = _ at hcheckpoint
      cases hpublish : committed.1.publish crc codec committed.2 r.catalogs with
      | error e =>
        rw [hpublish] at hcheckpoint
        cases hcheckpoint
      | ok published =>
        rw [hpublish] at hcheckpoint
        obtain ⟨rfl, rfl⟩ := Prod.mk.inj (Except.ok.inj hcheckpoint)
        have hpublished := hcommitted.holds.publish hdot hcodec hcommitted.seq h.sound
          hcommitted.cache hpublish
        refine ⟨hcommitted.seq, rfl, ?_, few_nil, h.sound, hcommitted.cache, fun _ => rfl,
          hpublished.retire⟩
        exact pending_nil hcommitted.pending.count (hcommitted.pending.none rfl)

/-- A crash between the new snapshot and the removal of the WAL. -/
theorem Live.crashPublished {w : World Anchor Observation} {r : Running Anchor Observation}
    (hdot : ∀ u, T.unit u = '.'.toNat.toUInt16 → u = '.'.toNat.toUInt16)
    (hcodec : codec.RoundTrips) (h : Live T crc codec w r) {store : CatalogStore}
    {committed published : Disk} (hcommit : r.store.commit crc w.disk = .ok (store, committed))
    (hpublish : store.publish crc codec committed r.catalogs = .ok published) (n : Nat) :
    Closed T crc codec {
      disk := published.cut n
      running := (none : Option (Running Anchor Observation))
      history := grown w.history r.appended
      published := (grown w.history r.appended).length } := by
  have hcommitted := h.commit hcodec hcommit
  have hpublished := hcommitted.holds.publish hdot hcodec hcommitted.seq h.sound hcommitted.cache
    hpublish
  exact hpublished.cut n

/-! ## Opening -/

theorem openStore_error {disk : Disk} {e : IoError}
    (h : load T crc codec disk = (.error e : Except _ (Loaded Anchor Observation)))
    (removed : Bool) :
    openStore T crc codec disk removed = (⟨{}, ∅, {}⟩ : Opened Anchor Observation) := by
  unfold openStore
  rw [h]

/-- A disk that holds a history opens as the cache after it, and still holds it. -/
theorem Holds.openStore {disk : Disk} {history : List (List Delta)} {published : Nat}
    (hdot : ∀ u, T.unit u = '.'.toNat.toUInt16 → u = '.'.toNat.toUInt16)
    (h : Holds Anchor Observation T crc codec disk history published) (removed : Bool)
    {opened : Opened Anchor Observation}
    (hopen : CatalogCache.openStore T crc codec disk removed = opened) :
    opened.store.seq.toNat = history.length ∧ opened.store.written = opened.store.seq ∧
      Pending codec opened.store [] ∧ AllSound T opened.catalogs ∧
      (cacheOf opened.catalogs opened.store.stamps).Agrees (Cache.after T history) ∧
      Holds Anchor Observation T crc codec opened.disk history published ∧
      opened.disk.snapshot = disk.snapshot := by
  obtain ⟨l, hload, hafter, hzero⟩ := h.load hdot
  unfold CatalogCache.openStore at hopen
  rw [hload] at hopen
  subst hopen
  refine ⟨hafter.seq, rfl, pending_nil rfl rfl, hafter.sound, hafter.cache, ?_, ?_⟩
  · show Holds Anchor Observation T crc codec (if _ then _ else _) history published
    split_ifs with hcovered
    · simp only [Bool.and_eq_true, decide_eq_true_eq] at hcovered
      obtain rfl := hzero hcovered.1.2
      exact h.retire
    · exact h
  · show (if _ then _ else _ : Disk).snapshot = _
    split_ifs <;> rfl

theorem Closed.reopen {w : World Anchor Observation}
    (hdot : ∀ u, T.unit u = '.'.toNat.toUInt16 → u = '.'.toNat.toUInt16)
    (h : Closed T crc codec w) (removed : Bool) {opened : Opened Anchor Observation}
    (hopen : openStore T crc codec w.disk removed = opened) :
    Live T crc codec {
        disk := opened.disk
        running := some ⟨opened.store, opened.catalogs, []⟩
        history := w.history.take opened.store.seq.toNat
        published := if opened.disk.snapshot.isSome then w.published else 0 }
      ⟨opened.store, opened.catalogs, []⟩ := by
  rcases h with ⟨k, hpublished, hk, hholds⟩ | ⟨-, e, herror⟩
  · obtain ⟨hseq, hwritten, hpending, hsound, hcache, hdisk, -⟩ := hholds.openStore hdot removed hopen
    have hlen : (w.history.take k).length = k := by
      rw [List.length_take, Nat.min_eq_left hk]
    have hcovers : (if opened.disk.snapshot.isSome then w.published else 0) = w.published := by
      split_ifs with hsome
      · rfl
      · exact (hdisk.snapshot.1 (Option.not_isSome_iff_eq_none.1 hsome)).symm
    rw [hcovers, hseq, hlen]
    exact ⟨hseq, hwritten, hpending, few_nil, hsound, hcache, fun _ => rfl, hdisk⟩
  · rw [openStore_error herror] at hopen
    subst hopen
    refine ⟨rfl, rfl, pending_nil rfl rfl, few_nil, allSound_empty, .refl _, fun _ => rfl, ?_⟩
    exact holds_empty

theorem Inv.step (hdot : ∀ u, T.unit u = '.'.toNat.toUInt16 → u = '.'.toNat.toUInt16)
    (hcodec : codec.RoundTrips) {w w' : World Anchor Observation} (h : Inv T crc codec w)
    (hstep : Step T crc codec w w') : Inv T crc codec w' := by
  cases hstep with
  | observe running calls same => exact .of_live rfl ((h.live _ running).observe hdot calls same)
  | append running d calls received ok =>
    exact .of_live rfl ((h.live _ running).append hdot hcodec calls received ok)
  | @commit r running store disk ok =>
    have hlive := h.live _ running
    have hcommitted := hlive.commit hcodec ok
    refine .of_live rfl ⟨hcommitted.seq, hcommitted.written, hcommitted.pending, few_nil,
      hlive.sound, hcommitted.cache, fun _ => rfl, hcommitted.holds⟩
  | checkpoint running ok => exact .of_live rfl ((h.live _ running).checkpoint hdot hcodec ok)
  | crash running n => exact .of_closed rfl ((h.live _ running).holds.cut n)
  | crashPublished running ok ok' n =>
    exact .of_closed rfl ((h.live _ running).crashPublished hdot hcodec ok ok' n)
  | reopen running removed ok => exact .of_live rfl ((h.closed running).reopen hdot removed ok)

theorem inv_of_reachable (hdot : ∀ u, T.unit u = '.'.toNat.toUInt16 → u = '.'.toNat.toUInt16)
    (hcodec : codec.RoundTrips) {w : World Anchor Observation} (h : Reachable T crc codec w) :
    Inv T crc codec w := by
  induction h with
  | refl => exact inv_init
  | tail _ hstep ih => exact ih.step hdot hcodec hstep

/-! ## Recovery -/

/-- A delta without rows, and its encoding: an array of the scope, two empty arrays and nil. -/
def plainDelta : Delta := ⟨['s'], [], [], none⟩

def plainBytes : Bytes := [0x94, 0xa1, 0x73, 0x90, 0x90, 0xc0]

/-- The encodings of plain deltas, and of no snapshot. -/
def plainCodec : Codec where
  encodeDelta d :=
    if d.scope = ['s'] ∧ d.removed = [] ∧ d.rows.length = 0 ∧ d.stamp = none then .ok plainBytes
    else .error (invalid "not plain")
  decodeDeltas bytes :=
    let n := ofLeBytes ((bytes.drop 1).take 4).reverse
    if bytes = array32 n ++ (List.replicate n plainBytes).flatten then
      .ok (List.replicate n plainDelta)
    else .error (invalid "not plain")
  encodeSnapshot _ _ := .error (invalid "not plain")
  decodeSnapshot _ := .error (invalid "not plain")

theorem plainCodec_roundTrips : plainCodec.RoundTrips where
  deltas ds encoded hlen h := by
    have hplain : ∀ (ds : List Delta) (encoded : List Bytes),
        List.Forall₂ (fun d bytes => plainCodec.encodeDelta d = .ok bytes) ds encoded →
        ds = List.replicate ds.length plainDelta ∧
          encoded = List.replicate ds.length plainBytes := by
      intro ds encoded h
      induction h with
      | nil => exact ⟨rfl, rfl⟩
      | @cons d bytes ds encoded hd _ ih =>
        unfold plainCodec at hd
        dsimp only at hd
        split_ifs at hd with hcond
        obtain ⟨scope, removed, rows, stamp⟩ := d
        obtain ⟨rfl, rfl, hrows, rfl⟩ := hcond
        obtain rfl := List.length_eq_zero_iff.1 hrows
        obtain rfl := Except.ok.inj hd
        rw [List.length_cons, List.replicate_succ, List.replicate_succ, ← ih.1, ← ih.2]
        exact ⟨rfl, rfl⟩
    obtain ⟨hds, hencoded⟩ := hplain ds encoded h
    have hcount : ofLeBytes (((array32 ds.length ++ encoded.flatten).drop 1).take 4).reverse =
        ds.length := by
      have htake : ((array32 ds.length ++ encoded.flatten).drop 1).take 4 =
          (leBytes 4 ds.length).reverse := by
        show ((leBytes 4 ds.length).reverse ++ encoded.flatten).take 4 = _
        exact List.take_left' (by simp)
      rw [htake, List.reverse_reverse, ofLeBytes_leBytes_of_lt (by omega)]
    show (if _ then _ else _) = _
    simp only [hcount]
    rw [if_pos (by rw [← hencoded]), ← hds]
  snapshot _ _ _ h := by cases h

/-- The folder after it was opened, a plain delta was appended, and the process was gone. -/
def plainOpened : Opened Unit Unit :=
  openStore DowncaseTable.asciiOnly (fun _ => 0) plainCodec {} true

end Sunpack.CatalogCache
