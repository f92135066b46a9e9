import Sunpack.CatalogCache.Disk

/-!
# Opening and writing the cache

A disk that holds a history loads as the cache after it; cut anywhere, it holds an initial part of the
history or its WAL is torn, and then it does not load. Commits and publications keep what the disk holds.
-/

namespace Sunpack.CatalogCache

open Lib Scan Wal

variable {Anchor Observation : Type} {T : DowncaseTable} {crc : Bytes → UInt32} {codec : Codec}
  {disk : Disk} {history : List (List Delta)} {published : Nat}

/-! ## Loading -/

theorem Holds.load (hdot : ∀ u, T.unit u = '.'.toNat.toUInt16 → u = '.'.toNat.toUInt16)
    (h : Holds Anchor Observation T crc codec disk history published) :
    ∃ l : Loaded Anchor Observation, CatalogCache.load T crc codec disk = .ok l ∧
      l.After T history ∧ (l.edits = 0 → published = history.length) := by
  obtain ⟨l₀, hl₀, hedits, hafter⟩ := h.snapshot.load h.le h.bound
  unfold CatalogCache.load
  rw [hl₀]
  show ∃ l, loadWal T crc codec disk l₀ = .ok l ∧ _
  have hle := h.le
  cases hwal : disk.wal with
  | none =>
    have hlen := h.wal.1 hwal
    rw [List.take_of_length_le (by omega)] at hafter
    refine ⟨l₀, ?_, hafter, fun _ => hlen.symm⟩
    unfold loadWal
    rw [hwal]
  | some file =>
    obtain ⟨old, new, rfl, hold, hnew⟩ := h.wal.2 file hwal
    have hseq : l₀.seq.toNat = published := by
      rw [hafter.seq, List.length_take, Nat.min_eq_left hle]
    have hrunOld : old.foldlM (fun l t => l.transaction T codec t.seq t.payload) l₀ = .ok l₀ :=
      replay_old fun t ht => by
        rw [hseq]
        exact hold t ht
    have hnumbered : Numbered codec (history.take published).length (history.drop published) new := by
      rwa [List.length_take, Nat.min_eq_left hle]
    obtain ⟨l, hrunNew, hl, hzero⟩ := replay_new hdot hafter hnumbered
    rw [List.take_append_drop] at hl
    refine ⟨l, ?_, hl, fun h0 => ?_⟩
    · rw [loadWal_log disk hwal, List.foldlM_append, hrunOld]
      exact hrunNew
    · have := List.drop_eq_nil_iff.1 (hzero h0).2
      omega

/-! ## Cuts -/

/-- What a crash leaves: the first bytes of the WAL. -/
def Disk.cut (disk : Disk) (n : Nat) : Disk := { disk with wal := disk.wal.map (·.take n) }

theorem load_torn {file : Bytes} (hwal : disk.wal = some file) {r r' : Reader}
    (hnew : Reader.new file .catalogWal = .ok r) (htorn : r'.torn = true)
    (hrun : ∀ l : Loaded Anchor Observation, ∃ read : Except IoError (Loaded Anchor Observation),
      r.forEach crc id (Loaded.transaction T codec) l = read.map (·, r')) :
    ∃ e, CatalogCache.load T crc codec disk = (.error e : Except _ (Loaded Anchor Observation)) := by
  unfold CatalogCache.load
  cases loadSnapshot T crc codec disk with
  | error e => exact ⟨e, rfl⟩
  | ok l =>
    show ∃ e, loadWal T crc codec disk l = .error e
    unfold loadWal
    rw [hwal]
    dsimp only
    rw [hnew]
    show ∃ e, (r.forEach crc id (Loaded.transaction T codec) l).bind _ = .error e
    obtain ⟨read, hread⟩ := hrun l
    rw [hread]
    cases read with
    | error e => exact ⟨e, rfl⟩
    | ok l' =>
      refine ⟨invalid "torn catalog WAL", ?_⟩
      show (if r'.torn = true then _ else _) = _
      rw [if_pos htorn]

/-- A WAL that is cut holds its first transactions, or is torn. -/
theorem cut_log (disk : Disk) {ts : List Transaction}
    (hwal : disk.wal = some (logBytes crc .catalogWal ts)) {n : Nat}
    (hn : n ≤ (logBytes crc .catalogWal ts).length) :
    (∃ k, (disk.cut n).wal = some (logBytes crc .catalogWal (ts.take k))) ∨
    (TornWal crc (disk.cut n).wal ∧ ∃ e, CatalogCache.load T crc codec (disk.cut n) =
      (.error e : Except _ (Loaded Anchor Observation))) := by
  have hcut : (disk.cut n).wal = some ((logBytes crc .catalogWal ts).take n) := by
    rw [Disk.cut, hwal]
    rfl
  by_cases hhead : n < 16
  · right
    have hfile : (logBytes crc .catalogWal ts).take 16 = fileHeader .catalogWal :=
      List.take_left' (fileHeader_length _)
    obtain ⟨r, hnew, -, htorn⟩ := Reader.new_cut hhead hfile
    have hnext : r.next crc = (.ok none, { r with payload := [] }) := by
      rw [Reader.next, if_pos (by simp [htorn])]
    refine ⟨⟨_, r, { r with payload := [] }, [], hcut, hnew, ?_, htorn⟩,
      load_torn hcut hnew (show ({ r with payload := [] } : Reader).torn = true from htorn)
        fun l => ⟨.ok l, ?_⟩⟩
    · exact Reader.forEach_none crc _ _ hnext _
    · exact Reader.forEach_none crc _ _ hnext _
  · obtain ⟨m, rfl⟩ : ∃ m, n = 16 + m := ⟨n - 16, by omega⟩
    rw [logBytes_length] at hn
    have hm : m ≤ (CutLog.bytes (Transaction.bytes crc) ts).length := by omega
    obtain ⟨r, r', hnew, htorn, hrun⟩ := forEach_log crc id (Loaded.transaction T codec) ts hm
      (σ := Loaded Anchor Observation)
    by_cases hwhole : m = (CutLog.bytes (Transaction.bytes crc)
        (CutLog.survivors (Transaction.bytes crc) ts m)).length
    · left
      have htake := CutLog.survivors_eq_take (Transaction.bytes crc) ts m
      refine ⟨(CutLog.survivors (Transaction.bytes crc) ts m).length, ?_⟩
      rw [hcut, ← htake]
      congr 1
      obtain ⟨rest, hrest⟩ := CutLog.survivors_initial (Transaction.bytes crc) ts m
      nth_rewrite 1 [← hrest]
      rw [logBytes, logBytes, CutLog.bytes_append, ← List.append_assoc]
      exact List.take_left' (by rw [List.length_append, fileHeader_length]; omega)
    · right
      have htorn' : r'.torn = true := by rw [htorn, decide_eq_true hwhole]
      obtain ⟨r₀, r₀', hnew₀, htorn₀, hrun₀⟩ := forEach_log crc id
        (fun read seq payload => (.ok (read ++ [(seq, payload)]) : Except IoError _)) ts hm
      obtain rfl : r = r₀ := Except.ok.inj (hnew.symm.trans hnew₀)
      have hread : r.readAll crc = .ok ((CutLog.survivors (Transaction.bytes crc) ts m).map
          (fun t => (t.seq, t.payload)), r₀') := by
        rw [Reader.readAll, hrun₀ [], foldlM_collect]
        rfl
      exact ⟨⟨_, r, r₀', _, hcut, hnew, hread, by rw [htorn₀, decide_eq_true hwhole]⟩,
        load_torn hcut hnew htorn' fun l => ⟨_, hrun l⟩⟩

theorem Holds.cut (h : Holds Anchor Observation T crc codec disk history published) (n : Nat) :
    (∃ k, published ≤ k ∧ k ≤ history.length ∧
      Holds Anchor Observation T crc codec (disk.cut n) (history.take k) published) ∨
    (TornWal crc (disk.cut n).wal ∧ ∃ e, CatalogCache.load T crc codec (disk.cut n) =
      (.error e : Except _ (Loaded Anchor Observation))) := by
  have hle := h.le
  have hwhole : disk.cut n = disk → ∃ k, published ≤ k ∧ k ≤ history.length ∧
      Holds Anchor Observation T crc codec (disk.cut n) (history.take k) published := by
    intro heq
    refine ⟨history.length, hle, Nat.le_refl _, ?_⟩
    rw [heq, List.take_length]
    exact h
  cases hwal : disk.wal with
  | none => exact .inl (hwhole (by rw [Disk.cut, hwal, Option.map_none, ← hwal]))
  | some file =>
    obtain ⟨old, new, rfl, hold, hnew⟩ := h.wal.2 file hwal
    by_cases hn : (logBytes crc .catalogWal (old ++ new)).length ≤ n
    · refine .inl (hwhole ?_)
      rw [Disk.cut, hwal, Option.map_some, List.take_of_length_le hn, ← hwal]
    have hcut : (∃ k, (disk.cut n).wal = some (logBytes crc .catalogWal ((old ++ new).take k))) ∨
        (TornWal crc (disk.cut n).wal ∧ ∃ e, CatalogCache.load T crc codec (disk.cut n) =
          (.error e : Except _ (Loaded Anchor Observation))) :=
      cut_log disk hwal (Nat.le_of_not_le hn)
    rcases hcut with ⟨k, hk⟩ | htorn
    · left
      -- the transactions that are left beyond the snapshot
      have hbound := h.bound
      refine ⟨min (published + (k - old.length)) history.length, by omega, by omega, ?_, ?_, ?_, ?_⟩
      · rw [List.length_take]
        omega
      · rw [List.length_take]
        omega
      · refine h.snapshot.congr ?_
        rw [List.take_take]
        congr 1
        omega
      · refine ⟨fun hnone => ?_, fun file hfile => ?_⟩
        · rw [hk] at hnone
          cases hnone
        · rw [hk] at hfile
          refine ⟨old.take k, new.take (k - old.length), ?_,
            fun t ht => hold t (List.mem_of_mem_take ht), ?_⟩
          · rw [← Option.some.inj hfile, List.take_append]
          · have htake := hnew.take (k - old.length)
            rwa [← List.take_eq_take_min, List.drop_take, Nat.add_sub_cancel_left]
    · exact .inr htorn

/-! ## Pending deltas -/

/-- The pending bytes are the appended deltas behind a header without their number. -/
structure Pending (codec : Codec) (store : CatalogStore) (appended : List Delta) : Prop where
  count : store.pendingDeltas = appended.length
  none : appended = [] → store.pending = []
  bytes : appended ≠ [] → ∃ encoded : List Bytes,
    List.Forall₂ (fun d bytes => codec.encodeDelta d = .ok bytes) appended encoded ∧
    store.pending = array32 0 ++ encoded.flatten

theorem Pending.push {store : CatalogStore} {appended : List Delta}
    (h : Pending codec store appended) {d : Delta} {bytes : Bytes}
    (hencode : codec.encodeDelta d = .ok bytes) :
    Pending codec (store.push d bytes) (appended ++ [d]) := by
  refine ⟨?_, fun hnil => absurd hnil (by simp), fun _ => ?_⟩
  · rw [List.length_append, List.length_singleton, ← h.count]
    rfl
  · unfold CatalogStore.push
    dsimp only
    rw [h.count]
    by_cases hnil : appended = []
    · subst hnil
      refine ⟨[bytes], .cons hencode .nil, ?_⟩
      rw [if_pos List.length_nil, h.none rfl, List.nil_append, List.flatten_singleton]
    · obtain ⟨encoded, hencoded, hpending⟩ := h.bytes hnil
      refine ⟨encoded ++ [bytes], List.rel_append hencoded (.cons hencode .nil), ?_⟩
      rw [if_neg (by simpa using hnil), hpending, List.flatten_append, List.flatten_singleton,
        List.append_assoc]

/-- The transaction of a commit. -/
theorem Pending.payload {store : CatalogStore} {appended : List Delta}
    (hcodec : codec.RoundTrips) (h : Pending codec store appended) (hne : appended ≠ [])
    (hfew : appended.length < 2 ^ 32) (seq : UInt64) :
    ∃ t : Transaction, t.seq = seq ∧ t.writes = [store.pending.take 1 ++
      (leBytes 4 store.pendingDeltas).reverse ++ store.pending.drop 5] ∧
      Carries codec appended t := by
  obtain ⟨encoded, hencoded, hpending⟩ := h.bytes hne
  have hbytes : store.pending.take 1 ++ (leBytes 4 store.pendingDeltas).reverse ++
      store.pending.drop 5 = array32 appended.length ++ encoded.flatten := by
    have hdrop : (array32 0 ++ encoded.flatten).drop 5 = encoded.flatten :=
      List.drop_left' (array32_length 0)
    rw [hpending, hdrop, h.count]
    rfl
  rw [hbytes]
  refine ⟨⟨seq, [array32 appended.length ++ encoded.flatten], by simp [array32]⟩, rfl, rfl, hne, ?_⟩
  rw [Transaction.payload, List.flatten_singleton]
  exact hcodec.deltas appended encoded hfew hencoded

/-! ## Commits -/

theorem openSegment_log (ts : List Transaction) :
    Wal.openSegment (logBytes crc .catalogWal ts) .catalogWal = .ok (logBytes crc .catalogWal ts) := by
  rw [Wal.openSegment, if_neg (by simp), if_neg (by simp), if_pos]
  exact List.take_left' (fileHeader_length .catalogWal)

/-- The WAL as the journal opens it. -/
theorem WalHolds.segment {wal : Option Bytes} (h : WalHolds crc codec history published wal) :
    ∃ old new : List Transaction,
      Wal.openSegment (wal.getD []) .catalogWal = .ok (logBytes crc .catalogWal (old ++ new)) ∧
      (∀ t ∈ old, t.seq.toNat ≤ published ∧ ∃ ds, Carries codec ds t) ∧
      Numbered codec published (history.drop published) new := by
  cases wal with
  | none =>
    refine ⟨[], [], ?_, fun t ht => absurd ht List.not_mem_nil, ?_⟩
    · rw [Option.getD_none, Wal.openSegment, if_pos List.length_nil, logBytes]
      simp
    · rw [List.drop_eq_nil_of_le (h.1 rfl).le]
      exact .nil published
  | some file =>
    obtain ⟨old, new, rfl, hold, hnew⟩ := h.2 file rfl
    exact ⟨old, new, openSegment_log _, hold, hnew⟩

theorem appendCache_ok {written seq : UInt64} {wal : Option Bytes} {payload file : Bytes}
    (h : appendCache crc written wal seq payload = .ok file) : written.toNat + 1 = seq.toNat ∧
      ∃ segment, Wal.openSegment (wal.getD []) .catalogWal = .ok segment ∧
        appendFrame crc segment seq [payload] = .ok file := by
  unfold appendCache at h
  split_ifs at h with hseq
  refine ⟨not_not.1 hseq, ?_⟩
  cases hopen : Wal.openSegment (wal.getD []) .catalogWal with
  | error e =>
    rw [hopen] at h
    cases h
  | ok segment =>
    rw [hopen] at h
    exact ⟨segment, rfl, h⟩

/-- A commit of pending deltas appends a transaction to the history. -/
theorem commit_holds {store store' : CatalogStore} {disk' : Disk} {appended : List Delta}
    (hcodec : codec.RoundTrips) (hpending : Pending codec store appended) (hne : appended ≠ [])
    (hfew : appended.length < 2 ^ 32)
    (h : Holds Anchor Observation T crc codec disk history published)
    (hseq : store.seq.toNat = history.length) (hwritten : store.written = store.seq)
    (hcommit : store.commit crc disk = .ok (store', disk')) :
    Holds Anchor Observation T crc codec disk' (history ++ [appended]) published ∧
      store' = { store with
        pending := []
        seq := store.seq + 1
        written := store.seq + 1
        pendingDeltas := 0 } ∧
      store'.seq.toNat = (history ++ [appended]).length := by
  have hle := h.le
  have hcount : store.pendingDeltas ≠ 0 := by
    rw [hpending.count]
    simpa using hne
  unfold CatalogStore.commit at hcommit
  rw [if_neg hcount] at hcommit
  dsimp only at hcommit
  obtain ⟨t, ht, hwrites, hcarries⟩ := hpending.payload hcodec hne hfew (store.seq + 1)
  cases hcache : appendCache crc store.written disk.wal (store.seq + 1) (store.pending.take 1 ++
      (leBytes 4 store.pendingDeltas).reverse ++ store.pending.drop 5) with
  | error e =>
    rw [hcache] at hcommit
    cases hcommit
  | ok file =>
    rw [hcache] at hcommit
    obtain ⟨rfl, rfl⟩ := Prod.mk.inj (Except.ok.inj hcommit)
    obtain ⟨hnext, segment, hsegment, happend⟩ := appendCache_ok hcache
    rw [hwritten, hseq] at hnext
    obtain ⟨old, new, hopen, hold, hnew⟩ := h.wal.segment
    obtain rfl := Except.ok.inj (hopen.symm.trans hsegment)
    rw [← ht, ← hwrites, appendFrame_eq] at happend
    have hfile : file = logBytes crc .catalogWal (old ++ (new ++ [t])) := by
      rw [← Except.ok.inj happend, logBytes, logBytes]
      simp
    have hlen : (history ++ [appended]).length = history.length + 1 := by simp
    have hsome : some file = none → (history ++ [appended]).length = published := fun h => by cases h
    refine ⟨⟨?_, ?_, h.snapshot.congr ?_, ⟨hsome, fun file' hfile' => ?_⟩⟩, rfl, ?_⟩
    · rw [hlen]
      omega
    · rw [hlen, hnext]
      exact (store.seq + 1).toNat_lt
    · rw [List.take_append_of_le_length hle]
    · refine ⟨old, new ++ [t], (Option.some.inj hfile').symm.trans hfile, hold, ?_⟩
      rw [List.drop_append_of_le_length hle]
      refine hnew.append ?_ hcarries
      rw [List.length_drop, ht, ← hnext]
      omega
    · rw [hlen, ← hnext]

/-! ## Checkpoints -/

/-- A published snapshot covers the whole history. -/
theorem Holds.publish {store : CatalogStore} {disk' : Disk} {catalogs : Catalogs Anchor Observation}
    (hdot : ∀ u, T.unit u = '.'.toNat.toUInt16 → u = '.'.toNat.toUInt16)
    (hcodec : codec.RoundTrips)
    (h : Holds Anchor Observation T crc codec disk history published)
    (hseq : store.seq.toNat = history.length) (hsound : AllSound T catalogs)
    (hcache : (cacheOf catalogs store.stamps).Agrees (Cache.after T history))
    (hpublish : store.publish crc codec disk catalogs = .ok disk') :
    Holds Anchor Observation T crc codec disk' history history.length := by
  unfold CatalogStore.publish at hpublish
  obtain ⟨rows, hrows, hsound', hcache'⟩ := hsound.exists_rows hdot store.stamps
  cases hencode : codec.encodeSnapshot store.stamps (catalogRows catalogs) with
  | error e =>
    rw [hencode] at hpublish
    cases hpublish
  | ok payload =>
    rw [hencode] at hpublish
    obtain rfl := Except.ok.inj hpublish
    rw [hrows] at hencode
    obtain ⟨hfits, hdecode⟩ := hcodec.snapshot store.stamps rows payload hencode
    have hle := h.le
    have hsome : ∀ file : Bytes, some file = none → history.length = 0 := fun file h => by cases h
    refine ⟨Nat.le_refl _, h.bound, ⟨hsome _, fun file hfile => ?_⟩, ⟨fun _ => rfl,
      fun file hfile => ?_⟩⟩
    · refine ⟨payload, store.stamps, rows, ?_, hfits, hdecode, hsound', ?_⟩
      · rw [← hseq, UInt64.ofNat_toNat]
        exact (Option.some.inj hfile).symm
      · rw [List.take_length]
        exact hcache'.trans hcache
    · obtain ⟨old, new, hlog, hold, hnew⟩ := h.wal.2 file hfile
      refine ⟨old ++ new, [], by rw [List.append_nil, hlog], fun t ht => ?_, ?_⟩
      · rcases List.mem_append.1 ht with ht | ht
        · obtain ⟨hseq', hcarries⟩ := hold t ht
          exact ⟨by omega, hcarries⟩
        · obtain ⟨hseq', hcarries⟩ := hnew.mem ht
          rw [List.length_drop] at hseq'
          exact ⟨by omega, hcarries⟩
      · rw [List.drop_length]
        exact .nil _

/-- A WAL that the snapshot covers can go. -/
theorem Holds.retire (h : Holds Anchor Observation T crc codec disk history history.length) :
    Holds Anchor Observation T crc codec { disk with wal := none } history history.length :=
  ⟨h.le, h.bound, h.snapshot, ⟨fun _ => rfl, fun file hfile => by cases hfile⟩⟩

end Sunpack.CatalogCache
