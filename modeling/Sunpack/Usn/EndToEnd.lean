import Sunpack.Usn.DirectoryChanges

/-!
# The client observes what the journal has

A batch of directories sees of a record what all directories see of it. A page of the broker arrives
with the changes it has, the pages of a batch have the changes of the range, and the batches together
have the changes of all directories.
-/

namespace Sunpack.Usn

open Lib

/-! ## What a record says -/

/-- A record says something about a directory: that itself has changed, or its child of a name. -/
def Tells (record : Bytes) (layout : Layout) (id : Bytes) (name : Name) : Prop :=
  name = [] ∧ idAt record 8 layout.width = id ∨
    idAt record (8 + layout.width) layout.width = id ∧ namedChild record layout.nameOffsets = .ok name

theorem getElem_of_parentOf {directories : List Bytes} {id : Bytes} {index : Nat}
    (h : parentOf directories id = some index) : directories[index]? = some id := by
  unfold parentOf at h
  rw [Option.map_eq_some_iff] at h
  obtain ⟨⟨found, i⟩, hlast, rfl⟩ := h
  have hmem := List.mem_of_getLast? hlast
  obtain ⟨hzip, hfound⟩ := List.mem_filter.1 hmem
  have hget := List.mem_zipIdx_iff_getElem?.1 hzip
  rwa [of_decide_eq_true hfound] at hget

theorem exists_parentOf {directories : List Bytes} {id : Bytes} (h : id ∈ directories) :
    ∃ index, parentOf directories id = some index := by
  obtain ⟨i, hi, hget⟩ := List.getElem_of_mem h
  have hmem : (id, i) ∈ directories.zipIdx.filter fun entry => entry.1 = id := by
    refine List.mem_filter.2 ⟨List.mem_zipIdx_iff_getElem?.2 ?_, decide_eq_true rfl⟩
    rw [List.getElem?_eq_getElem hi, hget]
  unfold parentOf
  cases hlast : (directories.zipIdx.filter fun entry => entry.1 = id).getLast? with
  | none =>
    rw [List.getLast?_eq_none_iff] at hlast
    rw [hlast] at hmem
    cases hmem
  | some entry => exact ⟨entry.2, rfl⟩

theorem parentOf_eq_none {directories : List Bytes} {id : Bytes} :
    parentOf directories id = none ↔ id ∉ directories := by
  constructor
  · intro h hmem
    obtain ⟨index, hindex⟩ := exists_parentOf hmem
    rw [h] at hindex
    cases hindex
  · intro h
    cases hparent : parentOf directories id with
    | none => rfl
    | some index =>
      exact absurd (List.mem_of_getElem? (getElem_of_parentOf hparent)) h

theorem mem_ownChange {directories : List Bytes} {record : Bytes} {layout : Layout} {change : Change} :
    change ∈ ownChange directories record layout ↔
      change.2 = [] ∧ parentOf directories (idAt record 8 layout.width) = some change.1 := by
  unfold ownChange
  cases parentOf directories (idAt record 8 layout.width) with
  | none =>
    constructor
    · intro h
      cases h
    · rintro ⟨_, h⟩
      cases h
  | some index =>
    dsimp only
    rw [List.mem_singleton, Prod.ext_iff, Option.some.injEq, and_comm]
    constructor
    · rintro ⟨hname, hindex⟩
      exact ⟨hname, hindex.symm⟩
    · rintro ⟨hname, hindex⟩
      exact ⟨hname, hindex.symm⟩

section Changes

variable {directories batch : List Bytes} {record : Bytes} {layout : Layout} {changes : List Change}

/-- The parent is not watched, or the child has a name. -/
theorem changesOf_cases (h : changesOf directories record layout = .ok changes) :
    parentOf directories (idAt record (8 + layout.width) layout.width) = none ∧
        changes = ownChange directories record layout ∨
      ∃ index name, parentOf directories (idAt record (8 + layout.width) layout.width) = some index ∧
        namedChild record layout.nameOffsets = .ok name ∧
        changes = ownChange directories record layout ++ [(index, name)] := by
  unfold changesOf at h
  split at h
  · rename_i hparent
    exact Or.inl ⟨hparent, (Except.ok.inj h).symm⟩
  · rename_i index hparent
    split at h
    · cases h
    · rename_i name hname
      exact Or.inr ⟨index, name, hparent, hname, (Except.ok.inj h).symm⟩

theorem tells_of_mem (h : changesOf directories record layout = .ok changes) {index : Nat} {name : Name}
    (hmem : (index, name) ∈ changes) :
    ∃ id, directories[index]? = some id ∧ Tells record layout id name := by
  have hown : (index, name) ∈ ownChange directories record layout →
      ∃ id, directories[index]? = some id ∧ Tells record layout id name := by
    intro hmem
    obtain ⟨hname, hparent⟩ := mem_ownChange.1 hmem
    exact ⟨_, getElem_of_parentOf hparent, Or.inl ⟨hname, rfl⟩⟩
  rcases changesOf_cases h with ⟨_, rfl⟩ | ⟨index', name', hparent, hchild, rfl⟩
  · exact hown hmem
  · rcases List.mem_append.1 hmem with hmem | hmem
    · exact hown hmem
    · cases List.mem_singleton.1 hmem
      exact ⟨_, getElem_of_parentOf hparent, Or.inr ⟨rfl, hchild⟩⟩

theorem mem_of_tells (h : changesOf directories record layout = .ok changes) {id : Bytes} {name : Name}
    (hid : id ∈ directories) (htells : Tells record layout id name) :
    ∃ index, directories[index]? = some id ∧ (index, name) ∈ changes := by
  obtain ⟨index, hparent⟩ := exists_parentOf hid
  refine ⟨index, getElem_of_parentOf hparent, ?_⟩
  rcases htells with ⟨rfl, rfl⟩ | ⟨rfl, hchild⟩
  · have hown : (index, []) ∈ ownChange directories record layout := mem_ownChange.2 ⟨rfl, hparent⟩
    rcases changesOf_cases h with ⟨_, rfl⟩ | ⟨_, _, _, _, rfl⟩
    · exact hown
    · exact List.mem_append_left _ hown
  · rcases changesOf_cases h with ⟨hnone, _⟩ | ⟨index', name', hparent', hchild', rfl⟩
    · rw [hnone] at hparent
      cases hparent
    · rw [hparent] at hparent'
      rw [hchild] at hchild'
      cases hparent'
      cases hchild'
      exact List.mem_append_right _ (List.mem_singleton_self _)

/-- Fewer directories have fewer changes. -/
theorem changesOf_part (hpart : batch ⊆ directories)
    (h : changesOf directories record layout = .ok changes) :
    ∃ fewer, changesOf batch record layout = .ok fewer ∧
      (fewer.map changeSize).sum ≤ (changes.map changeSize).sum := by
  have hown : ((ownChange batch record layout).map changeSize).sum ≤
      ((ownChange directories record layout).map changeSize).sum := by
    unfold ownChange
    cases hparent : parentOf batch (idAt record 8 layout.width) with
    | none => exact Nat.zero_le _
    | some index =>
      have hid := hpart (List.mem_of_getElem? (getElem_of_parentOf hparent))
      obtain ⟨index', hindex'⟩ := exists_parentOf hid
      rw [hindex']
      exact le_refl _
  cases hparent : parentOf batch (idAt record (8 + layout.width) layout.width) with
  | none =>
    refine ⟨ownChange batch record layout, ?_, ?_⟩
    · rw [changesOf, hparent]
    · rcases changesOf_cases h with ⟨_, rfl⟩ | ⟨_, _, _, _, rfl⟩
      · exact hown
      · rw [List.map_append, List.sum_append]
        exact hown.trans (Nat.le_add_right _ _)
  | some index =>
    have hid := hpart (List.mem_of_getElem? (getElem_of_parentOf hparent))
    rcases changesOf_cases h with ⟨hnone, _⟩ | ⟨index', name, _, hchild, rfl⟩
    · exact absurd hid (parentOf_eq_none.1 hnone)
    · refine ⟨ownChange batch record layout ++ [(index, name)], ?_, ?_⟩
      · rw [changesOf, hparent]
        dsimp only
        rw [hchild]
      · rw [List.map_append, List.sum_append, List.map_append, List.sum_append]
        exact Nat.add_le_add_right hown _

end Changes

/-! ## The journal for a part of the directories -/

/-- What a record says about directories, if it can be read. -/
def changesAbout (directories : List Bytes) (record : Bytes) : List Change :=
  match layoutOf (field record 4 2) with
  | none => []
  | some layout => (changesOf directories record layout).toOption.getD []

namespace Journal

variable {directories batch : List Bytes} (journal : Journal directories)

/-- What the records of a range say about a directory, whoever watches. -/
def Reports (startUsn endUsn : Int) (id : Bytes) (name : Name) : Prop :=
  ∃ record ∈ journal.records, startUsn ≤ usnOf record ∧ usnOf record < endUsn ∧
    ∃ layout, layoutOf (field record 4 2) = some layout ∧ Tells record layout id name

variable {journal}

theorem changes_part (hpart : batch ⊆ directories) {record : Bytes}
    (hrecord : record ∈ journal.records) :
    ValidRecord batch record (changesAbout batch record) ∧
      ((changesAbout batch record).map changeSize).sum ≤
        ((journal.changes record).map changeSize).sum := by
  obtain ⟨hown, hlong, layout, hlayout, husn, hchanges⟩ := journal.valid record hrecord
  obtain ⟨fewer, hfewer, hsize⟩ := changesOf_part hpart hchanges
  have habout : changesAbout batch record = fewer := by
    rw [changesAbout, hlayout]
    dsimp only
    rw [hfewer]
    rfl
  rw [habout]
  exact ⟨⟨hown, hlong, layout, hlayout, husn, hfewer⟩, hsize⟩

variable (journal) in
def part (hpart : batch ⊆ directories) : Journal batch where
  records := journal.records
  changes := changesAbout batch
  valid _ hrecord := (changes_part hpart hrecord).1
  ordered := journal.ordered

theorem Fits.part (hfits : journal.Fits) (hpart : batch ⊆ directories) :
    (journal.part hpart).Fits := by
  intro record hrecord
  exact (changes_part hpart hrecord).2.trans (hfits record hrecord)

theorem ServedBy.part {startUsn endUsn : Int} {read : Device}
    (hserved : journal.ServedBy startUsn endUsn read) (hpart : batch ⊆ directories) :
    (journal.part hpart).ServedBy startUsn endUsn read := by
  intro reads cursor hstart hend
  obtain ⟨reply, hread, ⟨r⟩⟩ := hserved reads cursor hstart hend
  exact ⟨reply, hread, ⟨⟨r.front, r.part, r.rest, r.next, r.split, r.before, r.from_cursor, r.after,
    r.beyond, r.progress, r.header, r.bytes, r.length_ge, r.length_le⟩⟩⟩

theorem mem_changesIn_iff {startUsn endUsn : Int} {id : Bytes} {name : Name} :
    (∃ index, directories[index]? = some id ∧ (index, name) ∈ journal.changesIn startUsn endUsn) ↔
      id ∈ directories ∧ journal.Reports startUsn endUsn id name := by
  constructor
  · rintro ⟨index, hindex, record, hrecord, hstart, hend, hmem⟩
    obtain ⟨_, _, layout, hlayout, _, hchanges⟩ := journal.valid record hrecord
    obtain ⟨id', hid', htells⟩ := tells_of_mem hchanges hmem
    cases hindex.symm.trans hid'
    exact ⟨List.mem_of_getElem? hindex, record, hrecord, hstart, hend, layout, hlayout, htells⟩
  · rintro ⟨hid, record, hrecord, hstart, hend, layout, hlayout, htells⟩
    obtain ⟨_, _, layout', hlayout', _, hchanges⟩ := journal.valid record hrecord
    cases hlayout.symm.trans hlayout'
    obtain ⟨index, hindex, hmem⟩ := mem_of_tells hchanges hid htells
    exact ⟨index, hindex, record, hrecord, hstart, hend, hmem⟩

theorem reports_part (hpart : batch ⊆ directories) {startUsn endUsn : Int} {id : Bytes} {name : Name} :
    (journal.part hpart).Reports startUsn endUsn id name ↔ journal.Reports startUsn endUsn id name :=
  Iff.rfl

theorem index_lt {startUsn endUsn : Int} {change : Change}
    (h : change ∈ journal.changesIn startUsn endUsn) : change.1 < directories.length := by
  obtain ⟨record, hrecord, _, _, hmem⟩ := h
  obtain ⟨_, _, layout, _, _, hchanges⟩ := journal.valid record hrecord
  obtain ⟨id, hid, _⟩ := tells_of_mem hchanges (show (change.1, change.2) ∈ _ from hmem)
  exact (List.getElem?_eq_some_iff.1 hid).1

end Journal

/-! ## A payload is read back -/

theorem encodeChange_length (change : UInt32 × Name) :
    (encodeChange change).length = 8 + (toUtf8 change.2).length := by
  rw [encodeChange, List.length_append, List.length_append, length_u32Bytes, leBytes_length]

/-- Names that the client is given for the changes of a payload. -/
def observedAll (base : Nat) (changes : List (UInt32 × Name)) : List Change :=
  changes.map fun change => (base + change.1.toNat, change.2)

theorem observedAll_cons (base : Nat) (change : UInt32 × Name) (changes : List (UInt32 × Name)) :
    observedAll base (change :: changes) =
      (base + change.1.toNat, change.2) :: observedAll base changes := rfl

theorem payloadBody_encodeChange {base ids : Nat} {change : UInt32 × Name} {rest : Bytes}
    (hindex : change.1.toNat < ids) (hname : (toUtf8 change.2).length < 2 ^ 32) (count : Nat)
    (observed : Finset Change) :
    payloadBody collectChange base ids ⟨encodeChange change ++ rest, count, observed⟩ =
      some (.inl ⟨rest, count + 1, insert (base + change.1.toNat, change.2) observed⟩) := by
  have hparts : encodeChange change ++ rest =
      [u32Bytes change.1, leBytes 4 (toUtf8 change.2).length, toUtf8 change.2, rest].flatten := by
    simp [encodeChange]
  have hlength : (encodeChange change ++ rest).length =
      8 + (toUtf8 change.2).length + rest.length := by
    rw [List.length_append, encodeChange_length]
  have hfield : field (encodeChange change ++ rest) 0 4 = change.1.toNat := by
    rw [hparts]
    exact field_eq change.1.toNat_lt (slice_flatten 0 rfl rfl (length_u32Bytes _))
  have hsize : field (encodeChange change ++ rest) 4 4 = (toUtf8 change.2).length := by
    rw [hparts]
    exact field_eq hname (slice_flatten 1 rfl (by simp) (leBytes_length 4 _))
  have hinput : (encodeChange change ++ rest).drop 8 = toUtf8 change.2 ++ rest := by
    rw [hparts, drop_flatten 2 (by simp)]
    simp
  have hne : encodeChange change ++ rest ≠ [] := by
    intro hnil
    rw [hnil] at hlength
    simp at hlength
    omega
  unfold payloadBody
  dsimp only
  rw [if_neg hne, if_neg (by omega), hfield, hsize, hinput,
    if_neg (by rw [List.length_append]; omega), List.take_left' rfl, fromUtf8_toUtf8]
  unfold observeName collectChange
  dsimp only
  rw [List.drop_left' rfl]

theorem readPayload_encodeChanges {base ids : Nat} {changes : List (UInt32 × Name)}
    (hindex : ∀ change ∈ changes, change.1.toNat < ids)
    (hname : ∀ change ∈ changes, (toUtf8 change.2).length < 2 ^ 32) (observed : Finset Change) :
    readPayload collectChange base ids (encodeChanges changes) observed =
      some (.ok ⟨[], changes.length, observed ∪ (observedAll base changes).toFinset⟩) := by
  have hrun : ∀ (changes : List (UInt32 × Name)) (n count : Nat) (observed : Finset Change),
      (∀ change ∈ changes, change.1.toNat < ids) →
      (∀ change ∈ changes, (toUtf8 change.2).length < 2 ^ 32) →
      (encodeChanges changes).length < n →
      loop (payloadBody collectChange base ids) n ⟨encodeChanges changes, count, observed⟩ =
        some (.ok ⟨[], count + changes.length, observed ∪ (observedAll base changes).toFinset⟩) := by
    intro changes
    induction changes with
    | nil =>
      intro n count observed _ _ hn
      obtain ⟨n, rfl⟩ : ∃ m, n = m + 1 := ⟨n - 1, by omega⟩
      rw [loop_done (r := .ok ⟨[], count, observed⟩) rfl]
      simp [observedAll]
    | cons change changes ih =>
      intro n count observed hindex hname hn
      have hsplit : encodeChanges (change :: changes) = encodeChange change ++ encodeChanges changes :=
        List.flatMap_cons
      rw [hsplit, List.length_append, encodeChange_length] at hn
      obtain ⟨n, rfl⟩ : ∃ m, n = m + 1 := ⟨n - 1, by omega⟩
      rw [hsplit, loop_next (payloadBody_encodeChange (hindex _ List.mem_cons_self)
        (hname _ List.mem_cons_self) count observed),
        ih _ _ _ (fun c hc => hindex c (List.mem_cons_of_mem _ hc))
          (fun c hc => hname c (List.mem_cons_of_mem _ hc)) (by omega)]
      have hcount : count + 1 + changes.length = count + (changes.length + 1) := by omega
      rw [List.length_cons, observedAll_cons, List.toFinset_cons, Finset.union_insert,
        Finset.insert_union, hcount]
  have h := hrun changes _ 0 observed hindex hname (Nat.lt_succ_self _)
  rwa [Nat.zero_add] at h

/-! ## A query is read back -/

theorem length_flatMap_ids (ids : List FileId) : (ids.flatMap Subtype.val).length = 16 * ids.length := by
  induction ids with
  | nil => rfl
  | cons id ids ih =>
    have hid : id.1.length = 16 := id.2
    rw [List.flatMap_cons, List.length_append, ih, hid, List.length_cons]
    omega

theorem fileIds_flatMap (ids : List FileId) {n : Nat} (h : ids.length ≤ n) :
    fileIds n (ids.flatMap Subtype.val) = ids := by
  induction ids generalizing n with
  | nil =>
    cases n with
    | zero => rfl
    | succ n => rfl
  | cons id ids ih =>
    rw [List.length_cons] at h
    obtain ⟨n, rfl⟩ : ∃ m, n = m + 1 := ⟨n - 1, by omega⟩
    have hid : id.1.length = 16 := id.2
    rw [List.flatMap_cons, fileIds, dif_pos (by rw [List.length_append]; omega)]
    congr 1
    · exact Subtype.ext (List.take_left' hid)
    · rw [List.drop_left' hid]
      exact ih (by omega)

theorem length_directoryQuery (journal : UInt64) (ids : List FileId) :
    (directoryQuery journal ids).length = 8 + 16 * ids.length := by
  rw [directoryQuery, List.length_append, length_u64Bytes, length_flatMap_ids]

theorem queryLengthIsValid_directoryQuery (journal : UInt64) {ids : List FileId} (hne : ids ≠ [])
    (hmax : ids.length ≤ batchIds) : queryLengthIsValid (directoryQuery journal ids).length := by
  have hpos := List.length_pos_of_ne_nil hne
  have hids : batchIds = 65535 := rfl
  have hbytes : maxDirectoryQueryBytes = 1048576 := rfl
  rw [length_directoryQuery]
  refine ⟨by omega, by omega, by omega⟩

theorem requestShapeIsValid_directoryRequest {volume : Name} (hvolume : volume ≠ [])
    {cursor endUsn : Int64} (hstart : 0 < cursor) (hrange : cursor < endUsn) (requestId : UInt64) :
    requestShapeIsValid (directoryRequest volume endUsn requestId cursor) = true :=
  decide_eq_true ⟨hvolume, rfl, hstart, hrange⟩

/-! ## A page arrives -/

theorem mem_inOrder {changes : Finset Change} {change : Change} :
    change ∈ inOrder changes ↔ change ∈ changes := by
  unfold inOrder
  rw [List.mem_map]
  constructor
  · rintro ⟨x, hx, rfl⟩
    rw [Finset.mem_sort, Finset.mem_map] at hx
    obtain ⟨y, hy, rfl⟩ := hx
    exact hy
  · intro h
    refine ⟨toLex change, ?_, rfl⟩
    rw [Finset.mem_sort, Finset.mem_map]
    exact ⟨change, h, rfl⟩

theorem sum_inOrder (changes : Finset Change) :
    ((inOrder changes).map changeSize).sum = ∑ change ∈ changes, changeSize change := by
  have hnodup : (inOrder changes).Nodup :=
    List.Nodup.map ofLex.injective (Finset.sort_nodup _ _)
  have hset : (inOrder changes).toFinset = changes := by
    ext change
    rw [List.mem_toFinset, mem_inOrder]
  rw [← List.sum_toFinset _ hnodup, hset]

theorem length_encodeChanges (journalId : UInt64) (page : DirectoryChangesPage) :
    (encodeChanges (recoveryPage journalId page).changes).length =
      ∑ change ∈ page.changes, changeSize change := by
  rw [← sum_inOrder, encodeChanges, List.length_flatMap, recoveryPage]
  dsimp only
  rw [List.map_map]
  congr 1
  apply List.map_congr_left
  intro change _
  rw [Function.comp_apply, encodeChange_length, length_toUtf8, changeSize, nameLen]

theorem toFinset_observedAll {journalId : UInt64} {page : DirectoryChangesPage} (base : Nat)
    (hindex : ∀ change ∈ page.changes, change.1 < 2 ^ 32) :
    (observedAll base (recoveryPage journalId page).changes).toFinset =
      page.changes.image fun change => (base + change.1, change.2) := by
  ext change
  rw [List.mem_toFinset, observedAll, recoveryPage, List.mem_map, Finset.mem_image]
  constructor
  · rintro ⟨sent, hsent, rfl⟩
    obtain ⟨original, horiginal, rfl⟩ := List.mem_map.1 hsent
    have hmem := mem_inOrder.1 horiginal
    refine ⟨original, hmem, ?_⟩
    rw [UInt32.toNat_ofNat', Nat.mod_eq_of_lt (hindex _ hmem)]
  · rintro ⟨original, hmem, rfl⟩
    refine ⟨_, List.mem_map.2 ⟨original, mem_inOrder.2 hmem, rfl⟩, ?_⟩
    rw [UInt32.toNat_ofNat', Nat.mod_eq_of_lt (hindex _ hmem)]

/-! ## One request -/

theorem toInt_ofInt_of_between {a b : Int64} {n : Int} (ha : a.toInt ≤ n) (hb : n ≤ b.toInt) :
    (Int64.ofInt n).toInt = n := by
  have hlow := a.le_toInt
  have hhigh := b.toInt_lt
  exact Int64.toInt_ofInt_of_le (by omega) (by omega)

theorem Journal.ServedBy.from_cursor {directories : List Bytes} {journal : Journal directories}
    {startUsn cursor endUsn : Int} {read : Device} (h : journal.ServedBy startUsn endUsn read)
    (hcursor : startUsn ≤ cursor) : journal.ServedBy cursor endUsn read := by
  intro reads position hstart hend
  exact h reads position (hcursor.trans hstart) hend

/-- A volume that has the journal, for the whole range. -/
structure Volume.Serves {directories : List Bytes} (volume : Volume) (journal : Journal directories)
    (journalId : UInt64) (startUsn endUsn : Int64) : Prop where
  bounds : ∃ firstUsn nextUsn, volume.bounds = .ok (journalId, firstUsn, nextUsn) ∧
    firstUsn ≤ startUsn ∧ endUsn ≤ nextUsn
  served : journal.ServedBy startUsn.toInt endUsn.toInt volume.read

/-- The response to a page, with its payload. -/
def pageResponse (journalId requestId : UInt64) (page : DirectoryChangesPage) : Response × Bytes :=
  let payload := encodeChanges (recoveryPage journalId page).changes
  (⟨.ok, requestId, 0, journalId, UInt32.ofNat payload.length,
    UInt32.ofNat (recoveryPage journalId page).changes.length, Int64.ofInt page.nextUsn⟩, payload)

section Request

variable {volumeGuid : Name} {ids : List FileId} {journal : Journal (ids.map Subtype.val)}
  {journalId : UInt64} {startUsn endUsn cursor : Int64}
  {openVolume : Name → Except BrokerError Volume}

theorem readDirectoriesChanges_page (hguid : volumeGuidIsValid (toUtf8 volumeGuid)) (hids : ids ≠ [])
    (hfits : journal.Fits) {volume : Volume} (hopen : openVolume volumeGuid = .ok volume)
    (hserves : volume.Serves journal journalId startUsn endUsn) (hstart : 0 < startUsn)
    (hfrom : startUsn ≤ cursor) (hrange : cursor < endUsn) :
    ∃ page, journal.PageGood cursor.toInt endUsn.toInt page ∧
      readDirectoriesChanges openVolume volumeGuid (some journalId) ids cursor endUsn =
        .ok (recoveryPage journalId page) := by
  obtain ⟨⟨firstUsn, nextUsn, hbounds, hfirst, hnext⟩, hserved⟩ := hserves
  rw [Int64.lt_iff_toInt_lt] at hstart hrange
  rw [Int64.le_iff_toInt_le] at hfrom hfirst hnext
  obtain ⟨page, reads, hscan, hgood⟩ := Journal.scanDirectoriesPage_good hfits
    (hserved.from_cursor hfrom) hrange 0
  refine ⟨page, hgood, ?_⟩
  have hvolume : readDirectoriesChangesFromVolume volume journalId ids cursor endUsn =
      .ok (recoveryPage journalId page) := by
    unfold readDirectoriesChangesFromVolume
    simp only [hscan, Option.get_some]
    rfl
  have hvalid : ¬(cursor ≤ 0 ∨ endUsn ≤ cursor ∨ ids = []) := by
    rintro (hle | hle | hnil)
    · rw [Int64.le_iff_toInt_le] at hle
      omega
    · rw [Int64.le_iff_toInt_le] at hle
      omega
    · exact hids hnil
  have hsame : ¬((∃ expected ∈ some journalId, expected ≠ journalId) ∨ cursor < firstUsn) := by
    rintro (⟨expected, hmem, hne⟩ | hlt)
    · exact hne (Option.mem_some_iff.1 hmem).symm
    · rw [Int64.lt_iff_toInt_lt] at hlt
      omega
  have hhead : ¬nextUsn < endUsn := by
    intro hlt
    rw [Int64.lt_iff_toInt_lt] at hlt
    omega
  unfold readDirectoriesChanges validateVolumeGuid
  rw [if_neg hvalid, if_pos hguid]
  simp only [Except.bind, hopen, hbounds]
  unfold checkedRange
  dsimp only
  rw [if_neg hsame, if_neg hhead, hvolume]

theorem exchange_page (hguid : volumeGuidIsValid (toUtf8 volumeGuid)) (hids : ids ≠ [])
    (hfits : journal.Fits) {volume : Volume} (hopen : openVolume volumeGuid = .ok volume)
    (hserves : volume.Serves journal journalId startUsn endUsn) (hstart : 0 < startUsn)
    (hfrom : startUsn ≤ cursor) (hrange : cursor < endUsn) {journals : JournalCalls}
    (hcalls : journals.readDirectoriesChanges = readDirectoriesChanges openVolume)
    (requestId : UInt64) :
    ∃ page, journal.PageGood cursor.toInt endUsn.toInt page ∧
      Connection.exchange journals (directoryRequest volumeGuid endUsn requestId cursor)
        (directoryQuery journalId ids) = pageResponse journalId requestId page := by
  obtain ⟨page, hgood, hpage⟩ := readDirectoriesChanges_page hguid hids hfits hopen hserves hstart
    hfrom hrange
  refine ⟨page, hgood, ?_⟩
  have hname : volumeGuid ≠ [] := by
    rintro rfl
    exact absurd hguid.1 (by decide)
  have hpositive : 0 < cursor := by
    rw [Int64.lt_iff_toInt_lt] at hstart ⊢
    rw [Int64.le_iff_toInt_le] at hfrom
    omega
  have hlength := length_directoryQuery journalId ids
  have hpos := List.length_pos_of_ne_nil hids
  have hjournal : u64At (directoryQuery journalId ids) 0 = journalId :=
    u64At_eq (List.take_left' (length_u64Bytes journalId))
  have hquery : (directoryQuery journalId ids).drop 8 = ids.flatMap Subtype.val :=
    List.drop_left' (length_u64Bytes journalId)
  have hsize : (encodeChanges (recoveryPage journalId page).changes).length ≤ maxPayloadBytes := by
    rw [length_encodeChanges]
    exact hgood.2.2.2
  unfold Connection.exchange
  rw [if_pos (requestShapeIsValid_directoryRequest hname hpositive hrange requestId)]
  unfold handleRequest
  have houtcome : outcomeOf journals (directoryRequest volumeGuid endUsn requestId cursor)
      (directoryQuery journalId ids) = directoriesOutcome (recoveryPage journalId page) := by
    show readDirectories _ _ _ = _
    unfold readDirectories
    rw [if_neg (by omega), hjournal, hquery, fileIds_flatMap ids (by omega), hcalls]
    show (readDirectoriesChanges openVolume volumeGuid (some journalId) ids cursor endUsn).bind _ = _
    rw [hpage]
    rfl
  rw [houtcome]
  unfold directoriesOutcome
  dsimp only
  rw [if_neg (by omega)]
  rfl

end Request

/-! ## One batch -/

/-- The changes of a batch, with the indices of all directories. -/
def shifted (base : Nat) (changes : Set Change) : Set Change :=
  {change | ∃ original ∈ changes, change = (base + original.1, original.2)}

theorem shifted_union (base : Nat) (a b : Set Change) :
    shifted base (a ∪ b) = shifted base a ∪ shifted base b := by
  ext change
  constructor
  · rintro ⟨original, hmem | hmem, heq⟩
    · exact Or.inl ⟨original, hmem, heq⟩
    · exact Or.inr ⟨original, hmem, heq⟩
  · rintro (⟨original, hmem, heq⟩ | ⟨original, hmem, heq⟩)
    · exact ⟨original, Or.inl hmem, heq⟩
    · exact ⟨original, Or.inr hmem, heq⟩

theorem coe_image_shift (base : Nat) (changes : Finset Change) :
    ((changes.image fun change => (base + change.1, change.2) : Finset Change) : Set Change) =
      shifted base changes := by
  ext change
  rw [Finset.mem_coe, Finset.mem_image]
  constructor
  · rintro ⟨original, hmem, rfl⟩
    exact ⟨original, hmem, rfl⟩
  · rintro ⟨original, hmem, rfl⟩
    exact ⟨original, hmem, rfl⟩

theorem length_le_encodeChanges (changes : List (UInt32 × Name)) :
    changes.length ≤ (encodeChanges changes).length := by
  induction changes with
  | nil => exact Nat.zero_le _
  | cons change changes ih =>
    have hsplit : encodeChanges (change :: changes) = encodeChange change ++ encodeChanges changes :=
      List.flatMap_cons
    rw [hsplit, List.length_append, encodeChange_length, List.length_cons]
    omega

/-- The client takes a page as it is. -/
theorem takePage_pageResponse {ids : List FileId} {journal : Journal (ids.map Subtype.val)}
    {journalId requestId : UInt64} {endUsn : Int64} {page : DirectoryChangesPage} {base : Nat}
    {s : BatchState (Finset Change)} (hids : ids.length ≤ batchIds)
    (hgood : journal.PageGood s.cursor.toInt endUsn.toInt page) :
    ∃ s', takePage collectChange journalId endUsn base ids.length s
        (.ok (pageResponse journalId requestId page)) = some (.inl s') ∧
      s'.cursor.toInt = page.nextUsn ∧
      (s'.observed : Set Change) = ↑s.observed ∪ shifted base page.changes := by
  obtain ⟨hnext, hend, hchanges, hsize⟩ := hgood
  have hcursor : (Int64.ofInt page.nextUsn).toInt = page.nextUsn :=
    toInt_ofInt_of_between (Int.le_of_lt hnext) hend
  have hbatch : batchIds = 65535 := rfl
  have hbytes : recoveryPageBytes = 65536 := rfl
  have hindex : ∀ change ∈ page.changes, change.1 < ids.length := by
    intro change hmem
    have hin : change ∈ journal.changesIn s.cursor.toInt page.nextUsn := by
      rw [← hchanges]
      exact hmem
    simpa using Journal.index_lt hin
  have hone : ∀ change ∈ page.changes, changeSize change ≤ recoveryPageBytes := by
    intro change hmem
    exact (Finset.single_le_sum (fun _ _ => Nat.zero_le _) hmem).trans hsize
  have hsent : ∀ change ∈ (recoveryPage journalId page).changes,
      ∃ original ∈ page.changes, change = (UInt32.ofNat original.1, original.2) := by
    intro change hmem
    obtain ⟨original, horiginal, rfl⟩ := List.mem_map.1 hmem
    exact ⟨original, mem_inOrder.1 horiginal, rfl⟩
  have hpayload := @readPayload_encodeChanges base ids.length
    (recoveryPage journalId page).changes (by
      intro change hmem
      obtain ⟨original, horiginal, rfl⟩ := hsent change hmem
      have hlt := hindex original horiginal
      rw [UInt32.toNat_ofNat', Nat.mod_eq_of_lt (by omega)]
      exact hlt) (by
      intro change hmem
      obtain ⟨original, horiginal, rfl⟩ := hsent change hmem
      have hle := hone original horiginal
      rw [changeSize, nameLen, ← length_toUtf8] at hle
      dsimp only
      omega) s.observed
  have hcount : (UInt32.ofNat (recoveryPage journalId page).changes.length).toNat =
      (recoveryPage journalId page).changes.length := by
    have hle := length_le_encodeChanges (recoveryPage journalId page).changes
    rw [length_encodeChanges] at hle
    rw [UInt32.toNat_ofNat', Nat.mod_eq_of_lt (by omega)]
  have hvalid : ¬(journalId ≠ journalId ∨ Int64.ofInt page.nextUsn ≤ s.cursor ∨
      endUsn < Int64.ofInt page.nextUsn) := by
    rintro (hne | hle | hlt)
    · exact hne rfl
    · rw [Int64.le_iff_toInt_le, hcursor] at hle
      omega
    · rw [Int64.lt_iff_toInt_lt, hcursor] at hlt
      omega
  refine ⟨⟨Int64.ofInt page.nextUsn, s.requests + 1,
    s.observed ∪ (observedAll base (recoveryPage journalId page).changes).toFinset⟩, ?_, hcursor, ?_⟩
  · unfold takePage pageResponse ensureOk
    dsimp only
    rw [if_pos rfl]
    dsimp only
    rw [if_neg hvalid, hpayload, Option.map_some, nextPage]
    dsimp only
    rw [if_neg (not_not.2 hcount.symm)]
  · dsimp only
    rw [Finset.coe_union, toFinset_observedAll base (fun change hmem => by
      have hlt := hindex change hmem
      omega), coe_image_shift]

section Batch

variable {volumeGuid : Name} {ids : List FileId} {journal : Journal (ids.map Subtype.val)}
  {journalId : UInt64} {startUsn endUsn : Int64} {journals : Nat → JournalCalls}
  {openVolume : Nat → Name → Except BrokerError Volume}

/-- The connection, with a broker that answers every request. -/
def answered (journals : Nat → JournalCalls) : Transact := fun k request query =>
  .ok (Connection.exchange (journals k) request query)

/-- The volume is there at every request. -/
def Available {directories : List Bytes} (journals : Nat → JournalCalls)
    (openVolume : Nat → Name → Except BrokerError Volume) (volumeGuid : Name)
    (journal : Journal directories) (journalId : UInt64) (startUsn endUsn : Int64) : Prop :=
  ∀ k, (journals k).readDirectoriesChanges = readDirectoriesChanges (openVolume k) ∧
    ∃ volume, openVolume k volumeGuid = .ok volume ∧
      volume.Serves journal journalId startUsn endUsn

/-- The pages so far. -/
structure BatchInv (journal : Journal (ids.map Subtype.val)) (startUsn endUsn : Int64) (base : Nat)
    (before : Finset Change) (s : BatchState (Finset Change)) : Prop where
  start_le : startUsn.toInt ≤ s.cursor.toInt
  le_end : s.cursor.toInt ≤ endUsn.toInt
  observed : (s.observed : Set Change) =
    ↑before ∪ shifted base (journal.changesIn startUsn.toInt s.cursor.toInt)

theorem batchBody_good (hguid : volumeGuidIsValid (toUtf8 volumeGuid)) (hids : ids ≠ [])
    (hmax : ids.length ≤ batchIds) (hfits : journal.Fits) (hstart : 0 < startUsn)
    (havailable : Available journals openVolume volumeGuid journal journalId startUsn endUsn)
    (requestId : Nat → UInt64) (base : Nat) (before : Finset Change) (s : BatchState (Finset Change))
    (hs : BatchInv journal startUsn endUsn base before s) :
    Gives (Sum.elim
      (fun s' => BatchInv journal startUsn endUsn base before s' ∧
        (endUsn.toInt - s'.cursor.toInt).toNat < (endUsn.toInt - s.cursor.toInt).toNat)
      (fun result => ∃ s', result = .ok s' ∧ BatchInv journal startUsn endUsn base before s' ∧
        s'.cursor = endUsn))
      (batchBody (answered journals) requestId collectChange volumeGuid journalId endUsn base ids
        s) := by
  unfold batchBody
  by_cases hdone : ¬s.cursor < endUsn
  · rw [if_pos hdone]
    refine Gives.some ⟨s, rfl, hs, ?_⟩
    rw [Int64.lt_iff_toInt_lt] at hdone
    have hle := hs.le_end
    exact Int64.toInt_inj.1 (by omega)
  · rw [if_neg hdone]
    have hrange := not_not.1 hdone
    obtain ⟨hcalls, volume, hopen, hserves⟩ := havailable s.requests
    obtain ⟨page, hgood, hexchange⟩ := exchange_page hguid hids hfits hopen hserves hstart
      (Int64.le_iff_toInt_le.2 hs.start_le) hrange hcalls (requestId s.requests)
    obtain ⟨s', htake, hcursor, hobserved⟩ := @takePage_pageResponse ids journal journalId
      (requestId s.requests) endUsn page base s hmax hgood
    obtain ⟨hnext, hend, hchanges, _⟩ := hgood
    rw [answered, hexchange, htake]
    have hfrom := hs.start_le
    refine Gives.some ⟨⟨by omega, by omega, ?_⟩, by omega⟩
    rw [hobserved, hs.observed, hchanges, hcursor, Set.union_assoc, ← shifted_union,
      Journal.changesIn_union hfrom (by omega)]

theorem batch_good (hguid : volumeGuidIsValid (toUtf8 volumeGuid)) (hids : ids ≠ [])
    (hmax : ids.length ≤ batchIds) (hfits : journal.Fits) (hstart : 0 < startUsn)
    (hrange : startUsn < endUsn)
    (havailable : Available journals openVolume volumeGuid journal journalId startUsn endUsn)
    (requestId : Nat → UInt64) (base requests : Nat) (before : Finset Change) :
    ∃ s, loop (batchBody (answered journals) requestId collectChange volumeGuid journalId endUsn base
          ids) ((endUsn.toInt - startUsn.toInt).toNat + 1) ⟨startUsn, requests, before⟩ =
        some (.ok s) ∧
      (s.observed : Set Change) =
        ↑before ∪ shifted base (journal.changesIn startUsn.toInt endUsn.toInt) := by
  have hrange' := Int64.lt_iff_toInt_lt.1 hrange
  have hinit : BatchInv journal startUsn endUsn base before ⟨startUsn, requests, before⟩ := by
    refine ⟨le_refl _, by dsimp only; omega, ?_⟩
    dsimp only
    rw [Journal.changesIn_eq_empty (le_refl _)]
    have hnone : shifted base ∅ = ∅ := by
      apply Set.eq_empty_of_forall_notMem
      rintro change ⟨_, hmem, _⟩
      exact hmem
    rw [hnone, Set.union_empty]
  obtain ⟨result, hloop, s, rfl, hs, hcursor⟩ := Gives.loop
    (BatchInv journal startUsn endUsn base before)
    (fun s => (endUsn.toInt - s.cursor.toInt).toNat)
    (batchBody_good hguid hids hmax hfits hstart havailable requestId base before)
    ((endUsn.toInt - startUsn.toInt).toNat + 1) ⟨startUsn, requests, before⟩ hinit
    (Nat.lt_succ_self _)
  refine ⟨s, hloop, ?_⟩
  rw [hs.observed, hcursor]

end Batch

/-! ## All batches -/

theorem piece_subset (directories : List FileId) (start length : Nat) :
    ((directories.drop start).take length).map Subtype.val ⊆ directories.map Subtype.val :=
  List.map_subset _ fun _ hmem => List.mem_of_mem_drop (List.mem_of_mem_take hmem)

theorem getElem_piece {directories : List FileId} {start length i : Nat} (h : i < length) :
    (((directories.drop start).take length).map Subtype.val)[i]? =
      (directories.map Subtype.val)[start + i]? := by
  rw [List.getElem?_map, List.getElem?_map, List.getElem?_take_of_lt h, List.getElem?_drop]

theorem batches_good {volumeGuid : Name} {directories : List FileId}
    {journal : Journal (directories.map Subtype.val)} {journalId : UInt64} {startUsn endUsn : Int64}
    {journals : Nat → JournalCalls} {openVolume : Nat → Name → Except BrokerError Volume}
    (hguid : volumeGuidIsValid (toUtf8 volumeGuid)) (hfits : journal.Fits) (hstart : 0 < startUsn)
    (hrange : startUsn < endUsn)
    (havailable : Available journals openVolume volumeGuid journal journalId startUsn endUsn)
    (requestId : Nat → UInt64) (batches : List (List FileId × Nat))
    (hbatches : ∀ batch ∈ batches, batch.1 ≠ [] ∧
      batch.1 = (directories.drop (batch.2 * batchIds)).take batchIds)
    (requests : Nat) (before : Finset Change) :
    ∃ after, readBatches (answered journals) requestId collectChange volumeGuid journalId startUsn endUsn
        batches requests before = some (.ok after) ∧
      (after : Set Change) = ↑before ∪ {change | ∃ batch ∈ batches,
        ∃ hpart : batch.1.map Subtype.val ⊆ directories.map Subtype.val,
          change ∈ shifted (batch.2 * batchIds)
            ((journal.part hpart).changesIn startUsn.toInt endUsn.toInt)} := by
  induction batches generalizing requests before with
  | nil =>
    refine ⟨before, rfl, ?_⟩
    simp
  | cons batch batches ih =>
    obtain ⟨ids, index⟩ := batch
    obtain ⟨hids, hpiece⟩ := hbatches (ids, index) List.mem_cons_self
    have hpart : ids.map Subtype.val ⊆ directories.map Subtype.val := by
      dsimp only at hpiece
      rw [hpiece]
      exact piece_subset _ _ _
    have hmax : ids.length ≤ batchIds := by
      dsimp only at hpiece
      rw [hpiece]
      exact List.length_take_le _ _
    have havailable' : Available journals openVolume volumeGuid (journal.part hpart) journalId startUsn
        endUsn := by
      intro k
      obtain ⟨hcalls, volume, hopen, hserves⟩ := havailable k
      exact ⟨hcalls, volume, hopen, hserves.bounds, hserves.served.part hpart⟩
    obtain ⟨s, hloop, hobserved⟩ := batch_good hguid hids hmax (hfits.part hpart) hstart hrange
      havailable' requestId (index * batchIds) requests before
    obtain ⟨after, hafter, hset⟩ := ih
      (fun batch hmem => hbatches batch (List.mem_cons_of_mem _ hmem)) s.requests s.observed
    refine ⟨after, ?_, ?_⟩
    · unfold readBatches
      rw [hloop]
      exact hafter
    · rw [hset, hobserved, Set.union_assoc]
      congr 1
      ext change
      constructor
      · rintro (hfirst | ⟨batch, hmem, hrest⟩)
        · exact ⟨(ids, index), List.mem_cons_self, hpart, hfirst⟩
        · exact ⟨batch, List.mem_cons_of_mem _ hmem, hrest⟩
      · rintro ⟨batch, hmem, hrest⟩
        rcases List.mem_cons.1 hmem with rfl | hmem
        · obtain ⟨_, hin⟩ := hrest
          exact Or.inl hin
        · exact Or.inr ⟨batch, hmem, hrest⟩

def watchedDirectory : FileId := ⟨watchedId, rfl⟩

def volumeName : Name := "\\\\?\\Volume\x7b01234567-89ab-cdef-0123-456789abcdef\x7d".toList

def oneFile : Journal ([watchedDirectory].map Subtype.val) :=
  oneEntry [97] ['a'] (by decide) (by decide) (by decide) (by decide) (by decide)

/-- A volume with the one file, in its journal 7. -/
def openOne (_ : Name) : Except BrokerError Volume := .ok ⟨.ok (7, 1, 2), wholeReply [97]⟩

def oneFileCalls : JournalCalls :=
  { (default : JournalCalls) with readDirectoriesChanges := readDirectoriesChanges openOne }

end Sunpack.Usn
