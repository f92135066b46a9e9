import Sunpack.Usn.Scan

/-!
# Recovery is complete

The changes of a journal between two positions, and a device that gives its records in whole replies.
However it splits them, the pages together have exactly these changes, each page fits into its frame,
and the pages come to an end.
-/

namespace Sunpack.Usn

open Lib

/-- Valid records in the order of their USNs, with their changes. -/
structure Journal (directories : List Bytes) where
  records : List Bytes
  changes : Bytes → List Change
  valid : ∀ record ∈ records, ValidRecord directories record (changes record)
  ordered : records.Pairwise fun a b => usnOf a < usnOf b

namespace Journal

variable {directories : List Bytes} (journal : Journal directories)

/-- The changes of all records in a range. -/
def changesIn (startUsn endUsn : Int) : Set Change :=
  {change | ∃ record ∈ journal.records,
    startUsn ≤ usnOf record ∧ usnOf record < endUsn ∧ change ∈ journal.changes record}

/-- A reply has whole records from the cursor on, and returns a cursor that is after them and not
beyond the next record. -/
structure Reply (cursor : Int) (reply : Bytes) where
  front : List Bytes
  part : List Bytes
  rest : List Bytes
  next : Int
  split : journal.records = front ++ part ++ rest
  before : ∀ record ∈ front, usnOf record < cursor
  from_cursor : ∀ record ∈ part, cursor ≤ usnOf record
  after : ∀ record ∈ part, usnOf record < next
  beyond : ∀ record ∈ rest, next ≤ usnOf record
  progress : cursor < next
  header : usnAt reply 0 = next
  bytes : reply.drop 8 = part.flatten
  length_ge : 8 ≤ reply.length
  length_le : reply.length ≤ journalBufferBytes

/-- All reads of a range are answered with such replies. -/
def ServedBy (startUsn endUsn : Int) (read : Device) : Prop :=
  ∀ reads cursor, startUsn ≤ cursor → cursor < endUsn →
    ∃ reply, read reads cursor = .ok reply ∧ Nonempty (journal.Reply cursor reply)

/-- The pages are finitely many, each fits, they move on from the start to the end, and together they
have the changes of the range. -/
def Recovered (startUsn endUsn : Int) (read : Device) : Prop :=
  ∃ pages, readPages read directories startUsn endUsn = some (.ok pages) ∧
    (∀ page ∈ pages, ∑ change ∈ page.changes, changeSize change ≤ recoveryPageBytes) ∧
    (startUsn :: pages.map DirectoryChangesPage.nextUsn).Pairwise (· < ·) ∧
    (pages.map DirectoryChangesPage.nextUsn).getLast? = some endUsn ∧
    {change | ∃ page ∈ pages, change ∈ page.changes} = journal.changesIn startUsn endUsn

/-! ## Ranges -/

variable {journal} {startUsn endUsn : Int}

theorem usnOf_injective {a b : Bytes} (ha : a ∈ journal.records) (hb : b ∈ journal.records)
    (h : usnOf a = usnOf b) : a = b := by
  have hnodup : (journal.records.map usnOf).Nodup :=
    List.pairwise_map.2 (journal.ordered.imp fun hlt => ne_of_lt hlt)
  exact List.inj_on_of_nodup_map hnodup ha hb h

/-- Positions with no record between them are the same position. -/
theorem changesIn_congr {x y : Int}
    (h : ∀ record ∈ journal.records, usnOf record < x ↔ usnOf record < y) :
    journal.changesIn startUsn (min x endUsn) = journal.changesIn startUsn (min y endUsn) := by
  ext change
  constructor
  · rintro ⟨record, hrecord, hstart, hend, hchange⟩
    have hxy := h record hrecord
    exact ⟨record, hrecord, hstart, by omega, hchange⟩
  · rintro ⟨record, hrecord, hstart, hend, hchange⟩
    have hxy := h record hrecord
    exact ⟨record, hrecord, hstart, by omega, hchange⟩

/-- A position behind a record adds the changes of the record, if it is in the range. -/
theorem changesIn_step {record : Bytes} (hrecord : record ∈ journal.records) {y : Int}
    (h : ∀ r ∈ journal.records, usnOf r < y ↔ usnOf r ≤ usnOf record) :
    journal.changesIn startUsn (min y endUsn) =
      journal.changesIn startUsn (min (usnOf record) endUsn) ∪
        {change | startUsn ≤ usnOf record ∧ usnOf record < endUsn ∧
          change ∈ journal.changes record} := by
  ext change
  constructor
  · rintro ⟨r, hr, hstart, hend, hchange⟩
    have hle := (h r hr).1 (by omega)
    by_cases hsame : usnOf r = usnOf record
    · obtain rfl := usnOf_injective hr hrecord hsame
      exact Or.inr ⟨hstart, by omega, hchange⟩
    · exact Or.inl ⟨r, hr, hstart, by omega, hchange⟩
  · rintro (⟨r, hr, hstart, hend, hchange⟩ | ⟨hstart, hend, hchange⟩)
    · have hle := (h r hr).2 (by omega)
      exact ⟨r, hr, hstart, by omega, hchange⟩
    · have hle := (h record hrecord).2 (le_refl _)
      exact ⟨record, hrecord, hstart, by omega, hchange⟩

theorem changesIn_union {a b c : Int} (hab : a ≤ b) (hbc : b ≤ c) :
    journal.changesIn a b ∪ journal.changesIn b c = journal.changesIn a c := by
  ext change
  constructor
  · rintro (⟨r, hr, hstart, hend, hchange⟩ | ⟨r, hr, hstart, hend, hchange⟩)
    · exact ⟨r, hr, hstart, by omega, hchange⟩
    · exact ⟨r, hr, by omega, hend, hchange⟩
  · rintro ⟨r, hr, hstart, hend, hchange⟩
    by_cases hb : usnOf r < b
    · exact Or.inl ⟨r, hr, hstart, hb, hchange⟩
    · exact Or.inr ⟨r, hr, by omega, hend, hchange⟩

theorem changesIn_eq_empty {a b : Int} (h : b ≤ a) : journal.changesIn a b = ∅ := by
  apply Set.eq_empty_of_forall_notMem
  rintro change ⟨r, _, hstart, hend, _⟩
  omega

/-! ## Records -/

/-- Everything before a position is collected. -/
structure Taken (journal : Journal directories) (startUsn endUsn x : Int) (collected : Collected) :
    Prop where
  changed : (collected.changed : Set Change) = journal.changesIn startUsn (min x endUsn)
  payload : collected.payloadBytes = ∑ change ∈ collected.changed, changeSize change
  fits : collected.payloadBytes ≤ recoveryPageBytes

theorem Taken.congr {x y : Int} {collected : Collected} (h : journal.Taken startUsn endUsn x collected)
    (hxy : ∀ record ∈ journal.records, usnOf record < x ↔ usnOf record < y) :
    journal.Taken startUsn endUsn y collected :=
  ⟨h.changed.trans (changesIn_congr hxy), h.payload, h.fits⟩

/-- The changes of a record, as the page that reads it from a cursor on sees them. -/
def seen (journal : Journal directories) (cursor endUsn : Int) (record : Bytes) : List Change :=
  if usnOf record < cursor ∨ endUsn ≤ usnOf record then [] else journal.changes record

theorem seen_nodup {record : Bytes} (hrecord : record ∈ journal.records) (cursor endUsn : Int) :
    (journal.seen cursor endUsn record).Nodup := by
  unfold seen
  split_ifs
  · exact List.nodup_nil
  · obtain ⟨layout, _, _, hchanges⟩ := (journal.valid record hrecord).decodes
    exact changesOf_nodup hchanges

/-- What new changes add to a page. -/
theorem sum_union_toFinset {changed : Finset Change} {changes : List Change} (h : changes.Nodup) :
    ∑ change ∈ changed ∪ changes.toFinset, changeSize change =
      ∑ change ∈ changed, changeSize change + addedBytes changed changes := by
  have hnew : changed ∪ changes.toFinset =
      changed ∪ (changes.filter fun change => change ∉ changed).toFinset := by
    ext change
    by_cases hchange : change ∈ changed <;> simp [hchange]
  have hdisjoint : Disjoint changed (changes.filter fun change => change ∉ changed).toFinset := by
    apply Finset.disjoint_right.2
    intro change hchange
    have hmem := List.mem_toFinset.1 hchange
    simpa using (List.mem_filter.1 hmem).2
  rw [hnew, Finset.sum_union hdisjoint, List.sum_toFinset _ (h.filter _), addedBytes]

theorem seen_eq {cursor : Int} {record : Bytes} (hrecord : record ∈ journal.records) :
    recordDirectoryChanges record directories cursor endUsn =
      .ok (journal.seen cursor endUsn record) :=
  (journal.valid record hrecord).changes cursor endUsn

/-- A record that fits is collected. -/
theorem Taken.step {cursor : Int} {record : Bytes} {collected : Collected}
    (h : journal.Taken startUsn endUsn (usnOf record) collected) (hrecord : record ∈ journal.records)
    (hcursor : startUsn ≤ cursor) (hfrom : cursor ≤ usnOf record)
    (hroom : collected.payloadBytes +
      addedBytes collected.changed (journal.seen cursor endUsn record) ≤ recoveryPageBytes) {y : Int}
    (hy : ∀ r ∈ journal.records, usnOf r < y ↔ usnOf r ≤ usnOf record) :
    journal.Taken startUsn endUsn y
      ⟨collected.payloadBytes + addedBytes collected.changed (journal.seen cursor endUsn record),
        collected.changed ∪ (journal.seen cursor endUsn record).toFinset⟩ where
  changed := by
    rw [changesIn_step hrecord hy, ← h.changed, Finset.coe_union]
    congr 1
    ext change
    rw [seen]
    by_cases hrange : usnOf record < cursor ∨ endUsn ≤ usnOf record
    · rw [if_pos hrange]
      constructor
      · intro hchange
        exact absurd hchange (by simp)
      · rintro ⟨_, hend, _⟩
        omega
    · rw [if_neg hrange, List.coe_toFinset]
      constructor
      · intro hchange
        exact ⟨by omega, by omega, hchange⟩
      · rintro ⟨_, _, hchange⟩
        exact hchange
  payload := by
    dsimp only
    rw [sum_union_toFinset (seen_nodup hrecord cursor endUsn), ← h.payload]
  fits := hroom

/-- A page that is full stops at a record that is behind its start and before the end. -/
theorem Taken.full {cursor : Int} {record : Bytes} {collected : Collected}
    (h : journal.Taken startUsn endUsn (usnOf record) collected)
    (hsmall : addedBytes collected.changed (journal.seen cursor endUsn record) ≤ recoveryPageBytes)
    (hfull : recoveryPageBytes < collected.payloadBytes +
      addedBytes collected.changed (journal.seen cursor endUsn record)) :
    startUsn < usnOf record ∧ usnOf record < endUsn := by
  have hin : usnOf record < endUsn := by
    by_contra hout
    have hnone : journal.seen cursor endUsn record = [] := if_pos (Or.inr (by omega))
    rw [hnone] at hfull
    have hfits := h.fits
    have hzero : addedBytes collected.changed [] = 0 := rfl
    omega
  refine ⟨?_, hin⟩
  by_contra hstart
  have hempty : collected.changed = ∅ := by
    have hchanged := h.changed
    rw [changesIn_eq_empty (by omega)] at hchanged
    exact Finset.coe_eq_empty.1 hchanged
  have hpayload := h.payload
  rw [hempty, Finset.sum_empty] at hpayload
  omega

theorem addedBytes_le (changed : Finset Change) (changes : List Change) :
    addedBytes changed changes ≤ (changes.map changeSize).sum :=
  (List.filter_sublist.map changeSize).sum_le_sum (by simp)

/-! ## Replies -/

/-- What a reply ends with. -/
def ReplyGood (journal : Journal directories) (startUsn endUsn next : Int) : ReplyEnd → Prop
  | .all collected => journal.Taken startUsn endUsn next collected
  | .page page => startUsn < page.nextUsn ∧ page.nextUsn < endUsn ∧
    (page.changes : Set Change) = journal.changesIn startUsn page.nextUsn ∧
    ∑ change ∈ page.changes, changeSize change ≤ recoveryPageBytes

/-- The records before a record are those before it in the list. -/
theorem lt_iff_mem {done rest : List Bytes} {record : Bytes}
    (hsplit : journal.records = done ++ record :: rest) {r : Bytes} (hr : r ∈ journal.records) :
    (usnOf r < usnOf record ↔ r ∈ done) ∧ (usnOf r < usnOf record + 1 ↔ r ∈ done ++ [record]) := by
  have hordered := journal.ordered
  rw [hsplit] at hordered hr
  obtain ⟨_, hrest, hdone⟩ := List.pairwise_append.1 hordered
  have hafter := (List.pairwise_cons.1 hrest).1
  rcases List.mem_append.1 hr with hmem | hmem
  · have hlt := hdone r hmem record List.mem_cons_self
    exact ⟨iff_of_true hlt hmem, iff_of_true (by omega) (List.mem_append_left _ hmem)⟩
  · have hnot : r ∉ done := by
      intro hin
      have hlt := hdone r hin r hmem
      omega
    rcases List.mem_cons.1 hmem with rfl | hlater
    · exact ⟨iff_of_false (by omega) hnot,
        iff_of_true (by omega) (List.mem_append_right _ (List.mem_singleton.2 rfl))⟩
    · have hlt := hafter r hlater
      refine ⟨iff_of_false (by omega) hnot, iff_of_false (by omega) ?_⟩
      intro hin
      rcases List.mem_append.1 hin with hin | hin
      · exact hnot hin
      · rw [List.mem_singleton.1 hin] at hlt
        omega

/-- The changes of each record fit into a page. -/
def Fits (journal : Journal directories) : Prop :=
  ∀ record ∈ journal.records, ((journal.changes record).map changeSize).sum ≤ recoveryPageBytes

theorem Fits.addedBytes_le (hfits : journal.Fits) {record : Bytes} (hrecord : record ∈ journal.records)
    (cursor endUsn : Int) (changed : Finset Change) :
    addedBytes changed (journal.seen cursor endUsn record) ≤ recoveryPageBytes := by
  apply le_trans (Journal.addedBytes_le changed _)
  unfold seen
  split_ifs
  · exact Nat.zero_le _
  · exact hfits record hrecord

/-- A turn takes the first record that is left. -/
theorem recordBody_cons {record : Bytes} (hrecord : record ∈ journal.records)
    (startUsn cursor endUsn : Int) (rest : Bytes) (collected : Collected) :
    recordBody directories startUsn cursor endUsn (record ++ rest, collected) =
      some (takeRecord startUsn record rest collected (journal.seen cursor endUsn record)) := by
  have hvalid := journal.valid record hrecord
  have hlong := hvalid.long
  have hlength : field (record ++ rest) 0 4 = record.length := by
    rw [← hvalid.own_length, field, field, List.drop_zero, List.drop_zero,
      List.take_append_of_le_length (by omega)]
  have hne : record ++ rest ≠ [] := by
    intro hnil
    have hzero : (record ++ rest).length = 0 := by rw [hnil, List.length_nil]
    rw [List.length_append] at hzero
    omega
  unfold recordBody
  dsimp only
  rw [if_neg hne, hlength, List.length_append, if_neg (by omega), if_neg (by omega),
    List.take_left' rfl, List.drop_left' rfl, seen_eq hrecord, readRecord]

theorem scanRecords_good (hfits : journal.Fits) (endUsn : Int) {cursor next : Int}
    (hcursor : startUsn ≤ cursor) :
    ∀ (part done rest : List Bytes) (n : Nat) (x : Int) (collected : Collected),
      journal.records = done ++ part ++ rest → (∀ r ∈ part, cursor ≤ usnOf r) →
      (∀ r ∈ done ++ part, usnOf r < next) → (∀ r ∈ rest, next ≤ usnOf r) →
      (∀ r ∈ journal.records, usnOf r < x ↔ r ∈ done) →
      journal.Taken startUsn endUsn x collected → part.flatten.length < n →
      Gives (fun result => ∃ ending, result = .ok ending ∧
        journal.ReplyGood startUsn endUsn next ending)
        (loop (recordBody directories startUsn cursor endUsn) n (part.flatten, collected)) := by
  intro part
  induction part with
  | nil =>
    intro done rest n x collected hsplit _ hbefore hafter hx htaken hn
    obtain ⟨n, rfl⟩ := Nat.exists_eq_succ_of_ne_zero (Nat.ne_of_gt (Nat.zero_lt_of_lt hn))
    refine ⟨.ok (.all collected), loop_done rfl n, .all collected, rfl, ?_⟩
    apply htaken.congr
    intro r hr
    rw [hx r hr]
    rw [List.append_nil] at hsplit hbefore
    rw [hsplit] at hr
    rcases List.mem_append.1 hr with hmem | hmem
    · exact iff_of_true hmem (hbefore r hmem)
    · have hle := hafter r hmem
      refine iff_of_false (fun hin => ?_) (by omega)
      have hlt := hbefore r hin
      omega
  | cons record part ih =>
    intro done rest n x collected hsplit hfrom hbefore hafter hx htaken hn
    obtain ⟨n, rfl⟩ := Nat.exists_eq_succ_of_ne_zero (Nat.ne_of_gt (Nat.zero_lt_of_lt hn))
    have hhead : journal.records = done ++ record :: (part ++ rest) := by
      rw [hsplit, List.append_assoc, List.cons_append]
    have hrecord : record ∈ journal.records := by
      rw [hhead]
      exact List.mem_append_right _ List.mem_cons_self
    have hat : journal.Taken startUsn endUsn (usnOf record) collected := by
      apply htaken.congr
      intro r hr
      rw [hx r hr, (lt_iff_mem hhead hr).1]
    have hsmall := hfits.addedBytes_le hrecord cursor endUsn collected.changed
    have hbody := recordBody_cons hrecord startUsn cursor endUsn part.flatten collected
    rw [List.flatten_cons]
    unfold takeRecord at hbody
    dsimp only at hbody
    rw [if_neg (by omega)] at hbody
    by_cases hfull : recoveryPageBytes < collected.payloadBytes +
        addedBytes collected.changed (journal.seen cursor endUsn record)
    · obtain ⟨hstart, hend⟩ := hat.full hsmall hfull
      rw [if_pos hfull, if_neg (by omega)] at hbody
      refine ⟨_, loop_done hbody n, _, rfl, hstart, hend, ?_, ?_⟩
      · dsimp only
        rw [hat.changed, min_eq_left (by omega)]
      · dsimp only
        rw [← hat.payload]
        exact hat.fits
    · rw [if_neg hfull] at hbody
      rw [loop_next hbody]
      apply ih (done ++ [record]) rest n (usnOf record + 1)
      · rw [hsplit, List.append_assoc, List.append_assoc, List.append_assoc]
        rfl
      · intro r hr
        exact hfrom r (List.mem_cons_of_mem _ hr)
      · intro r hr
        apply hbefore
        rw [List.append_assoc] at hr
        exact hr
      · exact hafter
      · intro r hr
        exact (lt_iff_mem hhead hr).2
      · apply hat.step hrecord hcursor (hfrom record List.mem_cons_self) (by omega)
        intro r _
        omega
      · have hlong := (journal.valid record hrecord).long
        rw [List.flatten_cons, List.length_append] at hn
        omega

/-- From a cursor on, a reply brings the page to the cursor that it returns, or fills it. -/
theorem scanReply_good (hfits : journal.Fits) {cursor : Int} (hcursor : startUsn ≤ cursor)
    {bytes : Bytes} (reply : journal.Reply cursor bytes) {collected : Collected}
    (htaken : journal.Taken startUsn endUsn cursor collected) :
    ∃ ending, scanReply directories startUsn cursor endUsn (bytes.drop 8) collected =
        some (.ok ending) ∧ journal.ReplyGood startUsn endUsn reply.next ending := by
  have hprogress := reply.progress
  have hscan := scanRecords_good hfits endUsn hcursor reply.part reply.front reply.rest
    (reply.part.flatten.length + 1) cursor collected reply.split reply.from_cursor
    (by
      intro r hr
      rcases List.mem_append.1 hr with hr | hr
      · have hlt := reply.before r hr
        omega
      · exact reply.after r hr) reply.beyond
    (by
      intro r hr
      rw [reply.split] at hr
      rcases List.mem_append.1 hr with hr | hr
      · rcases List.mem_append.1 hr with hr | hr
        · exact iff_of_true (reply.before r hr) hr
        · have hfrom := reply.from_cursor r hr
          exact iff_of_false (by omega) fun hin => absurd (reply.before r hin) (by omega)
      · have hfrom := reply.beyond r hr
        exact iff_of_false (by omega) fun hin => absurd (reply.before r hin) (by omega))
    htaken (Nat.lt_succ_self _)
  obtain ⟨result, hresult, ending, hending, hgood⟩ := hscan
  subst hending
  refine ⟨ending, ?_, hgood⟩
  rw [scanReply, reply.bytes, hresult]

/-! ## Pages -/

/-- A page moves on, not beyond the end, and has the changes of the range it covers. -/
def PageGood (journal : Journal directories) (startUsn endUsn : Int) (page : DirectoryChangesPage) :
    Prop :=
  startUsn < page.nextUsn ∧ page.nextUsn ≤ endUsn ∧
    (page.changes : Set Change) = journal.changesIn startUsn page.nextUsn ∧
    ∑ change ∈ page.changes, changeSize change ≤ recoveryPageBytes

theorem pageBody_good (hfits : journal.Fits) {read : Device}
    (hserved : journal.ServedBy startUsn endUsn read) (hrange : startUsn < endUsn) (s : PageState)
    (hs : startUsn ≤ s.cursor ∧ journal.Taken startUsn endUsn s.cursor s.collected) :
    Gives (Sum.elim
      (fun s' => (startUsn ≤ s'.cursor ∧ journal.Taken startUsn endUsn s'.cursor s'.collected) ∧
        (endUsn - s'.cursor).toNat < (endUsn - s.cursor).toNat)
      (fun result => ∃ page, result.1 = .ok page ∧ journal.PageGood startUsn endUsn page))
      (pageBody read directories startUsn endUsn s) := by
  obtain ⟨hstart, htaken⟩ := hs
  unfold pageBody
  by_cases hdone : endUsn ≤ s.cursor
  · rw [if_pos hdone]
    apply Gives.some
    refine ⟨_, rfl, hrange, le_refl _, ?_, ?_⟩
    · dsimp only
      rw [htaken.changed, min_eq_right hdone]
    · dsimp only
      rw [← htaken.payload]
      exact htaken.fits
  · rw [if_neg hdone]
    obtain ⟨bytes, hread, ⟨reply⟩⟩ := hserved s.reads s.cursor hstart (by omega)
    obtain ⟨ending, hscan, hgood⟩ := scanReply_good hfits hstart reply htaken
    have hge := reply.length_ge
    have hle := reply.length_le
    have hprogress := reply.progress
    rw [hread, takeReply, if_neg (by omega), hscan, reply.header, Option.bind_eq_bind,
      Option.bind_some]
    apply Gives.some
    cases ending with
    | all collected =>
      rw [advance, if_neg (by omega)]
      refine ⟨⟨?_, hgood⟩, ?_⟩
      · dsimp only
        omega
      · dsimp only
        omega
    | page page =>
      obtain ⟨hnext, hend, hchanges, hsize⟩ := hgood
      exact ⟨page, rfl, hnext, by omega, hchanges, hsize⟩

theorem scanDirectoriesPage_good (hfits : journal.Fits) {read : Device}
    (hserved : journal.ServedBy startUsn endUsn read) (hrange : startUsn < endUsn) (reads : Nat) :
    ∃ page reads', scanDirectoriesPage read directories startUsn endUsn reads =
      some (.ok page, reads') ∧ journal.PageGood startUsn endUsn page := by
  have hstart : journal.Taken startUsn endUsn startUsn ⟨0, ∅⟩ := by
    refine ⟨?_, rfl, Nat.zero_le _⟩
    rw [changesIn_eq_empty (min_le_left _ _), Finset.coe_empty]
  obtain ⟨result, hloop, page, hpage, hgood⟩ := Gives.loop
    (fun s : PageState => startUsn ≤ s.cursor ∧
      journal.Taken startUsn endUsn s.cursor s.collected)
    (fun s => (endUsn - s.cursor).toNat) (pageBody_good hfits hserved hrange)
    ((endUsn - startUsn).toNat + 1) ⟨startUsn, reads, ⟨0, ∅⟩⟩ ⟨le_refl _, hstart⟩
    (Nat.lt_succ_self _)
  refine ⟨page, result.2, ?_, hgood⟩
  rw [scanDirectoriesPage, hloop, ← hpage]

/-! ## Readers -/

/-- The pages so far reach from the start to the cursor. -/
structure Follows (journal : Journal directories) (startUsn endUsn : Int) (s : ReaderState) : Prop where
  start_le : startUsn ≤ s.cursor
  le_end : s.cursor ≤ endUsn
  ascending : (startUsn :: s.pages.map DirectoryChangesPage.nextUsn).Pairwise (· < ·)
  last : (startUsn :: s.pages.map DirectoryChangesPage.nextUsn).getLast? = some s.cursor
  sizes : ∀ page ∈ s.pages, ∑ change ∈ page.changes, changeSize change ≤ recoveryPageBytes
  union : {change | ∃ page ∈ s.pages, change ∈ page.changes} = journal.changesIn startUsn s.cursor

/-- In ascending positions the last is the highest. -/
theorem le_of_getLast? {l : List Int} {last x : Int} (h : l.Pairwise (· < ·))
    (hlast : l.getLast? = some last) (hx : x ∈ l) : x ≤ last := by
  obtain ⟨front, rfl⟩ := List.getLast?_eq_some_iff.1 hlast
  rcases List.mem_append.1 hx with hx | hx
  · have hlt := (List.pairwise_append.1 h).2.2 x hx last (List.mem_singleton.2 rfl)
    omega
  · rw [List.mem_singleton.1 hx]

theorem Follows.next {s : ReaderState} (h : journal.Follows startUsn endUsn s)
    {page : DirectoryChangesPage} (hpage : journal.PageGood s.cursor endUsn page) (reads : Nat) :
    journal.Follows startUsn endUsn ⟨page.nextUsn, reads, s.pages ++ [page]⟩ := by
  obtain ⟨hnext, hend, hchanges, hsize⟩ := hpage
  have hstart := h.start_le
  refine ⟨by dsimp only; omega, hend, ?_, ?_, ?_, ?_⟩
  · dsimp only
    rw [List.map_append, ← List.cons_append]
    refine List.pairwise_append.2 ⟨h.ascending, List.pairwise_singleton _ _, ?_⟩
    intro x hx y hy
    rw [List.mem_singleton.1 hy]
    have hle := le_of_getLast? h.ascending h.last hx
    omega
  · dsimp only
    rw [List.map_append, ← List.cons_append, List.map_singleton, List.getLast?_concat]
  · intro p hp
    rcases List.mem_append.1 hp with hp | hp
    · exact h.sizes p hp
    · rw [List.mem_singleton.1 hp]
      exact hsize
  · dsimp only
    rw [← changesIn_union hstart (by omega : s.cursor ≤ page.nextUsn), ← h.union, ← hchanges]
    ext change
    constructor
    · rintro ⟨p, hp, hchange⟩
      rcases List.mem_append.1 hp with hp | hp
      · exact Or.inl ⟨p, hp, hchange⟩
      · rw [List.mem_singleton.1 hp] at hchange
        exact Or.inr hchange
    · rintro (⟨p, hp, hchange⟩ | hchange)
      · exact ⟨p, List.mem_append_left _ hp, hchange⟩
      · exact ⟨page, List.mem_append_right _ (List.mem_singleton.2 rfl), hchange⟩

theorem readerBody_good (hfits : journal.Fits) {read : Device}
    (hserved : journal.ServedBy startUsn endUsn read) (s : ReaderState)
    (hs : journal.Follows startUsn endUsn s) :
    Gives (Sum.elim
      (fun s' => journal.Follows startUsn endUsn s' ∧
        (endUsn - s'.cursor).toNat < (endUsn - s.cursor).toNat)
      (fun result => ∃ s' : ReaderState, result = .ok s'.pages ∧
        journal.Follows startUsn endUsn s' ∧ endUsn ≤ s'.cursor))
      (readerBody read directories endUsn s) := by
  unfold readerBody
  by_cases hdone : endUsn ≤ s.cursor
  · rw [if_pos hdone]
    exact Gives.some ⟨s, rfl, hs, hdone⟩
  · have hlow := hs.start_le
    have hlater : journal.ServedBy s.cursor endUsn read := by
      intro reads cursor hcursor hend
      exact hserved reads cursor (by omega) hend
    obtain ⟨page, reads, hscan, hpage⟩ :=
      scanDirectoriesPage_good hfits hlater (by omega) s.reads
    have hnext := hpage.1
    rw [if_neg hdone, hscan]
    apply Gives.some
    refine ⟨hs.next hpage reads, ?_⟩
    show (endUsn - page.nextUsn).toNat < (endUsn - s.cursor).toNat
    omega

/-- However the device splits the records into replies, the pages from the start on end, fit, move on,
and have exactly the changes of the range. -/
theorem pages_complete {directories : List Bytes} (journal : Journal directories)
    (hfits : journal.Fits) {startUsn endUsn : Int} (hrange : startUsn < endUsn) {read : Device}
    (hserved : journal.ServedBy startUsn endUsn read) : journal.Recovered startUsn endUsn read := by
  have hstart : journal.Follows startUsn endUsn ⟨startUsn, 0, []⟩ := by
    refine ⟨le_refl _, by dsimp only; omega, List.pairwise_singleton _ _, rfl, ?_, ?_⟩
    · intro page hpage
      cases hpage
    · rw [changesIn_eq_empty (le_refl _)]
      simp
  obtain ⟨result, hloop, s, hresult, hs, hdone⟩ := Gives.loop (journal.Follows startUsn endUsn)
    (fun s => (endUsn - s.cursor).toNat) (readerBody_good hfits hserved)
    ((endUsn - startUsn).toNat + 1) ⟨startUsn, 0, []⟩ hstart (Nat.lt_succ_self _)
  have hcursor : s.cursor = endUsn := by
    have hle := hs.le_end
    omega
  refine ⟨s.pages, ?_, hs.sizes, hs.ascending, ?_, ?_⟩
  · rw [readPages, hloop, hresult]
  · have hlast := hs.last
    cases hpages : s.pages with
    | nil =>
      rw [hpages, List.map_nil, List.getLast?_singleton] at hlast
      have hsame := Option.some.inj hlast
      omega
    | cons page pages =>
      rw [hpages, List.map_cons, List.getLast?_cons_cons, hcursor] at hlast
      exact hlast
  · rw [hs.union, hcursor]

end Journal

/-! ## A journal with one entry -/

/-- The identity of the watched directory. -/
def watchedId : Bytes := leBytes 8 1 ++ List.replicate 8 0

/-- One file of the watched directory has changed. -/
def oneEntry (name : List Nat) (chars : Name) (hlong : 0 < name.length)
    (hshort : 2 * name.length < 2 ^ 16) (hunits : ∀ u ∈ name, u < 2 ^ 16)
    (hname : fromUtf16 name = some chars) (hsafe : ¬unsafeName chars) : Journal [watchedId] where
  records := [entry 1 2 1 name]
  changes _ := [(0, chars)]
  valid record hrecord := by
    rw [List.mem_singleton.1 hrecord]
    exact entry_valid 1 2 1 name [watchedId] hlong hshort hunits hname hsafe
  ordered := List.pairwise_singleton _ _

/-- The whole journal as one reply. -/
def wholeReply (name : List Nat) : Device := fun _ _ => .ok (leBytes 8 2 ++ entry 1 2 1 name)

theorem wholeReply_serves {name : List Nat} {chars : Name} (hlong : 0 < name.length)
    (hshort : 2 * name.length < 2 ^ 16) (hunits : ∀ u ∈ name, u < 2 ^ 16)
    (hname : fromUtf16 name = some chars) (hsafe : ¬unsafeName chars)
    (hreply : 68 + 2 * name.length ≤ journalBufferBytes) :
    (oneEntry name chars hlong hshort hunits hname hsafe).ServedBy 1 2 (wholeReply name) := by
  intro reads cursor hstart hend
  have husn : usnOf (entry 1 2 1 name) = 1 := usnOf_entry 1 2 1 name (by norm_num)
  have hlength := length_entry 1 2 1 name
  have hheader : usnAt (leBytes 8 2 ++ entry 1 2 1 name) 0 = 2 := by
    rw [usnAt, field, List.drop_zero, take_leBytes, ofLeBytes_leBytes]
    rfl
  refine ⟨leBytes 8 2 ++ entry 1 2 1 name, rfl, ⟨{
    front := []
    part := [entry 1 2 1 name]
    rest := []
    next := 2
    split := rfl
    before := fun r hr => by cases hr
    from_cursor := fun r hr => by
      rw [List.mem_singleton.1 hr, husn]
      omega
    after := fun r hr => by
      rw [List.mem_singleton.1 hr, husn]
      norm_num
    beyond := fun r hr => by cases hr
    progress := hend
    header := hheader
    bytes := by
      rw [List.drop_left' (leBytes_length 8 2), List.flatten_singleton]
    length_ge := by
      rw [List.length_append, leBytes_length]
      omega
    length_le := by
      rw [List.length_append, leBytes_length, hlength]
      omega }⟩⟩

theorem pages_complete_one :
    (oneEntry [97] ['a'] (by decide) (by decide) (by decide) (by decide) (by decide)).Recovered 1 2
      (wholeReply [97]) := by
  apply Journal.pages_complete
  · intro record _
    show (List.map changeSize [(0, ['a'])]).sum ≤ recoveryPageBytes
    decide
  · norm_num
  · apply wholeReply_serves
    decide

/-! ## Names that do not fit -/

theorem fromUtf16_replicate {u : Nat} (h : u < 0xD800) (n : Nat) :
    fromUtf16 (List.replicate n u) = some (List.replicate n (Char.ofNat u)) := by
  induction n with
  | zero => rfl
  | succ n ih =>
    rw [List.replicate_succ]
    unfold fromUtf16
    rw [if_pos (Or.inl h), ih]
    rfl

theorem nameLen_replicate (n : Nat) (c : Char) : nameLen (List.replicate n c) = n * c.utf8Size := by
  rw [nameLen, List.map_replicate, List.sum_replicate, smul_eq_mul]

theorem safe_replicate {c : Char} (h : c ≠ '/' ∧ c ≠ '\\' ∧ c ≠ '\x00') {n : Nat} (hn : 2 < n) :
    ¬unsafeName (List.replicate n c) := by
  have hlength : (List.replicate n c).length = n := List.length_replicate
  rintro (hin | hin | heq | heq | hin)
  · exact h.1 (List.eq_of_mem_replicate hin).symm
  · exact h.2.1 (List.eq_of_mem_replicate hin).symm
  · rw [heq] at hlength
    simp at hlength
    omega
  · rw [heq] at hlength
    simp at hlength
    omega
  · exact h.2.2 (List.eq_of_mem_replicate hin).symm

/-- A record whose changes do not fit into a page ends the pages with an error. -/
theorem readPages_oversized {journal : Journal [watchedId]} {record : Bytes}
    (hrecord : record ∈ journal.records) (husn : usnOf record = 1) {read : Device}
    (hread : read 0 1 = .ok (leBytes 8 2 ++ record))
    (hreply : 8 + record.length ≤ journalBufferBytes)
    (hsize : recoveryPageBytes < ((journal.changes record).map changeSize).sum) :
    readPages read [watchedId] 1 2 = some (.error (invalid "USN name exceeds response frame")) := by
  have hseen : journal.seen 1 2 record = journal.changes record := by
    rw [Journal.seen, husn, if_neg (by norm_num)]
  have hadded : addedBytes ∅ (journal.changes record) =
      ((journal.changes record).map changeSize).sum := by
    rw [addedBytes, List.filter_eq_self.2 (by simp)]
  have hbody := Journal.recordBody_cons hrecord 1 1 2 [] ⟨0, ∅⟩
  rw [hseen, takeRecord, hadded, if_pos hsize, List.append_nil] at hbody
  have hscan : scanReply [watchedId] 1 1 2 record ⟨0, ∅⟩ =
      some (.error (invalid "USN name exceeds response frame")) := loop_done hbody _
  have hlength : (leBytes 8 2 ++ record).length = 8 + record.length := by
    rw [List.length_append, leBytes_length]
  have hpage : pageBody read [watchedId] 1 2 ⟨1, 0, ⟨0, ∅⟩⟩ =
      some (.inr (.error (invalid "USN name exceeds response frame"), 1)) := by
    rw [pageBody, if_neg (by norm_num), hread, takeReply, hlength, if_neg (by omega),
      List.drop_left' (leBytes_length 8 2), hscan]
    rfl
  have hscanned : scanDirectoriesPage read [watchedId] 1 2 0 =
      some (.error (invalid "USN name exceeds response frame"), 1) := loop_done hpage _
  have hreader : readerBody read [watchedId] 2 ⟨1, 0, []⟩ =
      some (.inr (.error (invalid "USN name exceeds response frame"))) := by
    rw [readerBody, if_neg (by norm_num), hscanned]
    rfl
  exact loop_done hreader _

/-- A journal that the device gives in one reply, with a name of more than 64 KiB in UTF-8. -/
theorem long_name_not_recovered : ∃ journal : Journal [watchedId], ∃ read,
    journal.ServedBy 1 2 read ∧ ¬journal.Recovered 1 2 read := by
  obtain ⟨name, hunit⟩ : ∃ name, name = List.replicate 21843 0x3042 := ⟨_, rfl⟩
  obtain ⟨chars, hchar⟩ : ∃ chars, chars = List.replicate 21843 (Char.ofNat 0x3042) := ⟨_, rfl⟩
  have hlength : name.length = 21843 := by rw [hunit, List.length_replicate]
  have hunits : ∀ u ∈ name, u < 2 ^ 16 := by
    intro u hu
    rw [hunit] at hu
    rw [List.eq_of_mem_replicate hu]
    norm_num
  have hname : fromUtf16 name = some chars := by
    rw [hunit, hchar]
    exact fromUtf16_replicate (by norm_num) 21843
  have hsafe : ¬unsafeName chars := by
    rw [hchar]
    exact safe_replicate (by decide) (by norm_num)
  have hsize : recoveryPageBytes < 8 + nameLen chars := by
    rw [hchar, nameLen_replicate]
    decide
  refine ⟨oneEntry name chars (by omega) (by omega) hunits hname hsafe, wholeReply name, ?_, ?_⟩
  · apply wholeReply_serves
    rw [hlength]
    decide
  · rintro ⟨pages, hpages, _⟩
    have hrecord : entry 1 2 1 name ∈
        (oneEntry name chars (by omega) (by omega) hunits hname hsafe).records :=
      List.mem_singleton.2 rfl
    have hreply : 8 + (entry 1 2 1 name).length ≤ journalBufferBytes := by
      rw [length_entry, hlength]
      decide
    have hfailed := readPages_oversized hrecord (usnOf_entry 1 2 1 name (by norm_num))
      (show wholeReply name 0 1 = .ok (leBytes 8 2 ++ entry 1 2 1 name) from rfl) hreply hsize
    rw [hfailed] at hpages
    cases hpages

end Sunpack.Usn
