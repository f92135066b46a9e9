import Sunpack.Scan.Catalog

/-!
# What is kept beside the rows

One invariant for the number of persistent rows, the buckets and the parents, and what each operation
does to it. While a batch is removed some stems are dirty: their buckets may still have keys whose rows
are gone.
-/

namespace Sunpack.Scan

open Lib

/-! ## Paths with one key -/

section Stems

variable (T : DowncaseTable)

theorem isSeparator_keyChar (c : Char) : isSeparator (T.keyChar c) = isSeparator c := by
  have hback : T.downcaseChar c = '\\' ↔ c = '\\' := by
    constructor
    · exact T.downcaseChar_eq_ascii (by decide) T.backslash
    · rintro rfl
      exact T.downcaseChar_ascii (by decide)
  have hslash : T.downcaseChar c = '/' ↔ c = '/' := by
    constructor
    · exact T.downcaseChar_slash
    · rintro rfl
      exact T.downcaseChar_ascii (by decide)
  unfold isSeparator DowncaseTable.keyChar
  by_cases h : c = '/'
  · rw [if_pos (hslash.2 h)]
    simp [h]
  · rw [if_neg fun h' => h (hslash.1 h')]
    simp only [hback, hslash]

/-- The last component of a key. -/
theorem nameOf_pathKey (path : Text) : nameOf (T.pathKey path) = (nameOf path).map T.keyChar := by
  have hsame : (fun c => !isSeparator c) ∘ T.keyChar = fun c => !isSeparator c := by
    funext c
    rw [Function.comp_apply, isSeparator_keyChar]
  unfold nameOf List.rtakeWhile
  rw [T.pathKey_eq_map, ← List.map_reverse, List.takeWhile_map, List.map_reverse, hsame]

theorem notMem_nameOf {path : Text} {c : Char} (hc : isSeparator c = true) : c ∉ nameOf path := by
  intro hmem
  have := List.mem_rtakeWhile_imp hmem
  rw [hc] at this
  cases this

theorem keyChar_name {c : Char} (hc : isSeparator c = false) : T.keyChar c = T.downcaseChar c := by
  unfold DowncaseTable.keyChar
  rw [if_neg]
  intro h
  rw [T.downcaseChar_slash h] at hc
  cases hc

/-- Paths with one key have one stem, if no other character is mapped to a dot. -/
theorem catalogStem_eq (hdot : ∀ u, T.unit u = '.'.toNat.toUInt16 → u = '.'.toNat.toUInt16)
    {path path' : Text} (h : T.pathKey path = T.pathKey path') :
    catalogStem T path = catalogStem T path' := by
  have hstem : ∀ p : Text, catalogStem T p = firstDotStem (nameOf (T.pathKey p)) := by
    intro p
    have hname : (nameOf p).map T.keyChar = (nameOf p).map T.downcaseChar := by
      apply List.map_congr_left
      intro c hc
      apply keyChar_name
      cases hsep : isSeparator c with
      | false => rfl
      | true => exact absurd hc (notMem_nameOf hsep)
    have hsame : (fun c => decide (c ≠ '.')) ∘ T.downcaseChar = fun c => decide (c ≠ '.') := by
      funext c
      have hiff : T.downcaseChar c = '.' ↔ c = '.' := by
        constructor
        · exact T.downcaseChar_eq_ascii (by decide) hdot
        · rintro rfl
          exact T.downcaseChar_ascii (by decide)
      simp only [Function.comp_apply, ne_eq, hiff]
    rw [nameOf_pathKey, hname, catalogStem, T.caseKey_eq_map, firstDotStem, firstDotStem,
      List.takeWhile_map, hsame]
  rw [hstem, hstem, h]

end Stems

/-! ## Buckets -/

theorem CatalogBucket.iter_push (bucket : CatalogBucket) (key : Text) :
    (bucket.push key).iter = bucket.iter ++ [key] := by
  cases bucket <;> rfl

theorem CatalogBucket.retain_spec (bucket : CatalogBucket) (keep : Text → Bool) :
    ((bucket.retain keep).1 = true ↔ bucket.iter.filter keep = []) ∧
      ((bucket.retain keep).1 = false → (bucket.retain keep).2.iter = bucket.iter.filter keep) := by
  cases bucket with
  | one first =>
    unfold retain iter
    cases h : keep first <;> simp [h]
  | many keys =>
    unfold retain
    rcases h : keys.filter keep with _ | ⟨first, _ | ⟨second, rest⟩⟩ <;> simp [iter, h]

namespace ScopeCatalog

variable {Anchor Observation : Type} {T : DowncaseTable} {c c' : ScopeCatalog Anchor Observation}

/-- The keys that the buckets have for a stem. -/
def keysOf (c : ScopeCatalog Anchor Observation) (stem : Text) : List Text :=
  ((c.buckets.get? stem).map (·.iter)).getD []

def NoEmptyBucket (c : ScopeCatalog Anchor Observation) : Prop :=
  ∀ stem bucket, c.buckets.get? stem = some bucket → bucket.iter ≠ []

/-- Nothing but the buckets changes. -/
def SameRest (c c' : ScopeCatalog Anchor Observation) : Prop :=
  c'.rows = c.rows ∧ c'.parents = c.parents ∧ c'.persistentLen = c.persistentLen

theorem retainBucket_spec (c : ScopeCatalog Anchor Observation) (stem : Text) (keep : Text → Bool)
    (hne : c.NoEmptyBucket) :
    (∀ stem', (c.retainBucket stem keep).keysOf stem' =
      if stem' = stem then (c.keysOf stem).filter keep else c.keysOf stem') ∧
    (c.retainBucket stem keep).NoEmptyBucket ∧ c.SameRest (c.retainBucket stem keep) := by
  unfold retainBucket
  cases hget : c.buckets.get? stem with
  | none =>
    refine ⟨fun stem' => ?_, hne, rfl, rfl, rfl⟩
    split_ifs with heq
    · subst heq
      rw [keysOf, hget]
      rfl
    · rfl
  | some bucket =>
    obtain ⟨hempty, hkept⟩ := bucket.retain_spec keep
    have hkeys : c.keysOf stem = bucket.iter := by rw [keysOf, hget]; rfl
    dsimp only
    cases hresult : (bucket.retain keep).1 with
    | true =>
      rw [if_pos rfl]
      refine ⟨fun stem' => ?_, fun stem' b h => ?_, rfl, rfl, rfl⟩
      · rw [hkeys, hempty.1 hresult]
        unfold keysOf
        dsimp only
        rw [Dict.get?_erase]
        split_ifs <;> rfl
      · replace h : (c.buckets.erase stem).get? stem' = some b := h
        rw [Dict.get?_erase] at h
        split_ifs at h
        exact hne stem' b h
    | false =>
      rw [if_neg Bool.false_ne_true]
      refine ⟨fun stem' => ?_, fun stem' b h => ?_, rfl, rfl, rfl⟩
      · rw [hkeys, ← hkept hresult]
        unfold keysOf
        dsimp only
        rw [Dict.get?_set]
        split_ifs <;> rfl
      · replace h : (c.buckets.set stem (bucket.retain keep).2).get? stem' = some b := h
        rw [Dict.get?_set] at h
        split_ifs at h
        · obtain rfl := Option.some.inj h
          rw [hkept hresult]
          intro hnil
          rw [hempty.2 hnil] at hresult
          cases hresult
        · exact hne stem' b h

theorem pushBucket_spec (c : ScopeCatalog Anchor Observation) (stem key : Text)
    (hne : c.NoEmptyBucket) :
    (∀ stem', (c.pushBucket stem key).keysOf stem' =
      if stem' = stem then c.keysOf stem ++ [key] else c.keysOf stem') ∧
    (c.pushBucket stem key).NoEmptyBucket ∧ c.SameRest (c.pushBucket stem key) := by
  have hpushed : ∃ bucket : CatalogBucket, bucket.iter = c.keysOf stem ++ [key] ∧
      c.pushBucket stem key = { c with buckets := c.buckets.set stem bucket } := by
    unfold pushBucket keysOf
    cases c.buckets.get? stem with
    | none => exact ⟨.one key, rfl, rfl⟩
    | some bucket => exact ⟨bucket.push key, bucket.iter_push key, rfl⟩
  obtain ⟨bucket, hiter, hpush⟩ := hpushed
  rw [hpush]
  refine ⟨fun stem' => ?_, fun stem' b h => ?_, rfl, rfl, rfl⟩
  · rw [← hiter]
    unfold keysOf
    dsimp only
    rw [Dict.get?_set]
    split_ifs <;> rfl
  · replace h : (c.buckets.set stem bucket).get? stem' = some b := h
    rw [Dict.get?_set] at h
    split_ifs at h
    · obtain rfl := Option.some.inj h
      rw [hiter]
      exact List.append_ne_nil_of_right_ne_nil _ (List.cons_ne_nil _ _)
    · exact hne stem' b h

/-! ## The invariant -/

/-- Rows are split where their paths are. -/
structure RowOk (row : CatalogRow Anchor Observation) : Prop where
  parent : parentOf row.path = row.parent
  name : nameOf row.path = row.name

/-- The row is a persistent file with the stem. -/
def Indexed (c : ScopeCatalog Anchor Observation) (T : DowncaseTable) (stem key : Text) : Prop :=
  ∃ row, c.rows.get? key = some row ∧ row.persistent = true ∧ row.isDir = false ∧
    catalogStem T row.path = stem

/-- The references of rows to a parent. -/
def references (c : ScopeCatalog Anchor Observation) (parent : Text) : Nat :=
  c.rows.count fun _ row => row.parent = parent

/-- The strong count of an interned parent with so many references besides that of the set. -/
def strongCount : Nat → Option Nat
  | 0 => none
  | n + 1 => some (n + 2)

/-- `dirty` are the stems to clean, `building` the parents of a row that is not in yet. -/
structure Inv (T : DowncaseTable) (dirty building : List Text)
    (c : ScopeCatalog Anchor Observation) : Prop where
  rows : ∀ key row, c.rows.get? key = some row → T.pathKey row.path = key ∧ RowOk row
  persistent : c.persistentLen = c.rows.count fun _ row => row.persistent
  complete : ∀ stem key, c.Indexed T stem key → key ∈ c.keysOf stem
  sound : ∀ stem key, key ∈ c.keysOf stem →
    c.Indexed T stem key ∨ stem ∈ dirty ∧ c.rows.get? key = none
  nodup : ∀ stem, (c.keysOf stem).Nodup
  nonempty : c.NoEmptyBucket
  parents : ∀ parent, c.parents.get? parent =
    strongCount (c.references parent + building.count parent)

theorem inv_empty : Inv T [] [] ({} : ScopeCatalog Anchor Observation) where
  rows key row h := by cases h
  persistent := rfl
  complete stem key h := by
    obtain ⟨row, h, -⟩ := h
    cases h
  sound stem key h := absurd h List.not_mem_nil
  nodup stem := List.nodup_nil
  nonempty stem bucket h := by cases h
  parents parent := rfl

/-! ## Parents -/

theorem internParent_parents {f : Text → Nat} (hparents : ∀ q, c.parents.get? q = strongCount (f q))
    (parent q : Text) : (c.internParent parent).parents.get? q =
      strongCount (f q + if q = parent then 1 else 0) := by
  unfold internParent
  dsimp only
  rw [Dict.get?_set]
  by_cases hq : q = parent
  · subst hq
    rw [if_pos rfl, if_pos rfl, hparents]
    cases f q <;> rfl
  · rw [if_neg hq, if_neg hq, hparents]
    rfl

theorem releaseParent_parents {f : Text → Nat} {row : CatalogRow Anchor Observation}
    (hparents : ∀ q, c.parents.get? q = strongCount (f q)) (hpos : 0 < f row.parent) (q : Text) :
    (c.releaseParent row).parents.get? q =
      strongCount (f q - if q = row.parent then 1 else 0) := by
  obtain ⟨n, hn⟩ : ∃ n, f row.parent = n + 1 := ⟨f row.parent - 1, by omega⟩
  unfold releaseParent
  rw [hparents row.parent, hn]
  show (if n + 2 = 2 then c.parents.erase row.parent
    else c.parents.set row.parent (n + 2 - 1)).get? q = _
  by_cases hq : q = row.parent
  · subst hq
    rw [if_pos rfl, hn]
    cases n with
    | zero => rw [if_pos rfl, Dict.get?_erase_self]; rfl
    | succ n => rw [if_neg (by omega), Dict.get?_set_self]; rfl
  · rw [if_neg hq, Nat.sub_zero, ← hparents]
    split_ifs
    · exact Dict.get?_erase_of_ne _ hq
    · exact Dict.get?_set_of_ne _ hq _

theorem releaseParent_rest (c : ScopeCatalog Anchor Observation)
    (row : CatalogRow Anchor Observation) : (c.releaseParent row).rows = c.rows ∧
      (c.releaseParent row).buckets = c.buckets ∧
      (c.releaseParent row).persistentLen = c.persistentLen := by
  unfold releaseParent
  split <;> exact ⟨rfl, rfl, rfl⟩

theorem Inv.intern {dirty building : List Text} (h : Inv T dirty building c) (parent : Text) :
    Inv T dirty (parent :: building) (c.internParent parent) where
  rows := h.rows
  persistent := h.persistent
  complete := h.complete
  sound := h.sound
  nodup := h.nodup
  nonempty := h.nonempty
  parents q := by
    rw [internParent_parents h.parents, List.count_cons, Nat.add_assoc]
    show _ = strongCount (c.references q + _)
    by_cases hq : q = parent
    · simp [hq]
    · simp [hq, Ne.symm hq]

/-! ## A row goes -/

theorem holds_eq {p : CatalogRow Anchor Observation → Bool} {key : Text}
    {row : CatalogRow Anchor Observation} (hget : c.rows.get? key = some row) :
    c.rows.holds (fun _ row => p row) key = p row := by
  rw [Dict.holds, hget]
  rfl

theorem references_erase {key : Text} {row : CatalogRow Anchor Observation}
    (hget : c.rows.get? key = some row) (hrows : c'.rows = c.rows.erase key) (q : Text) :
    c'.references q + (if q = row.parent then 1 else 0) = c.references q := by
  have hcount := Dict.count_erase c.rows (fun _ row => row.parent = q) key
  rw [holds_eq (p := fun row => row.parent = q) hget] at hcount
  unfold references
  rw [hrows, ← hcount]
  congr 1
  by_cases hq : q = row.parent
  · simp [hq]
  · simp [hq, Ne.symm hq]

/-- What is enough for the invariant when a row is gone: its key may stay only in dirty buckets. -/
theorem Inv.erase {dirty dirty' building : List Text} (h : Inv T dirty building c) {key : Text}
    {row : CatalogRow Anchor Observation} (hget : c.rows.get? key = some row)
    (hrows : c'.rows = c.rows.erase key)
    (hlen : c'.persistentLen = c.persistentLen - if row.persistent then 1 else 0)
    (hparents : c'.parents = (c.releaseParent row).parents)
    (hkeys : ∀ stem, c'.keysOf stem = c.keysOf stem ∨
      c'.keysOf stem = (c.keysOf stem).filter (· ≠ key))
    (hgone : ∀ stem, stem ∉ dirty' → key ∉ c'.keysOf stem) (hdirty : dirty ⊆ dirty')
    (hne : c'.NoEmptyBucket) : Inv T dirty' building c' where
  rows key' row' hget' := by
    rw [hrows, Dict.get?_erase] at hget'
    split_ifs at hget'
    exact h.rows key' row' hget'
  persistent := by
    have hcount := Dict.count_erase c.rows (fun _ row => row.persistent) key
    rw [holds_eq hget] at hcount
    rw [hlen, hrows, h.persistent, ← hcount]
    cases row.persistent <;> simp
  complete stem key' hindexed := by
    obtain ⟨row', hget', hindexed⟩ := hindexed
    rw [hrows, Dict.get?_erase] at hget'
    split_ifs at hget' with hkey
    have hmem := h.complete stem key' ⟨row', hget', hindexed⟩
    rcases hkeys stem with hsame | hfilter
    · rwa [hsame]
    · rw [hfilter]
      exact List.mem_filter.2 ⟨hmem, decide_eq_true hkey⟩
  sound stem key' hmem := by
    have hold : key' ∈ c.keysOf stem := by
      rcases hkeys stem with hsame | hfilter
      · rwa [hsame] at hmem
      · rw [hfilter] at hmem
        exact (List.mem_filter.1 hmem).1
    by_cases hkey : key' = key
    · subst hkey
      right
      rw [hrows, Dict.get?_erase_self]
      exact ⟨by_contra fun hclean => hgone stem hclean hmem, rfl⟩
    · rw [hrows, Dict.get?_erase_of_ne _ hkey]
      rcases h.sound stem key' hold with ⟨row', hget', hindexed⟩ | ⟨hstem, hnone⟩
      · exact .inl ⟨row', by rw [hrows, Dict.get?_erase_of_ne _ hkey, hget'], hindexed⟩
      · exact .inr ⟨hdirty hstem, hnone⟩
  nodup stem := by
    rcases hkeys stem with hsame | hfilter
    · rw [hsame]
      exact h.nodup stem
    · rw [hfilter]
      exact (h.nodup stem).filter _
  nonempty := hne
  parents q := by
    have hrefs := references_erase hget hrows
    have hpos : 0 < c.references row.parent + building.count row.parent := by
      have := hrefs row.parent
      rw [if_pos rfl] at this
      omega
    rw [hparents, releaseParent_parents h.parents hpos]
    congr 1
    have := hrefs q
    omega

theorem releaseParent_congr (hparents : c'.parents = c.parents)
    (row : CatalogRow Anchor Observation) :
    (c'.releaseParent row).parents = (c.releaseParent row).parents := by
  unfold releaseParent
  rw [hparents]
  cases c.parents.get? row.parent with
  | none => exact hparents
  | some count =>
    dsimp only

theorem Inv.eraseRelease {dirty dirty' building : List Text} (h : Inv T dirty building c)
    {key : Text} {row : CatalogRow Anchor Observation} {m : ScopeCatalog Anchor Observation}
    (hget : c.rows.get? key = some row)
    (hrows : m.rows = c.rows.erase key)
    (hlen : m.persistentLen = c.persistentLen - if row.persistent then 1 else 0)
    (hparents : m.parents = c.parents)
    (hkeys : ∀ stem, m.keysOf stem = c.keysOf stem ∨
      m.keysOf stem = (c.keysOf stem).filter (· ≠ key))
    (hgone : ∀ stem, stem ∉ dirty' → key ∉ m.keysOf stem) (hdirty : dirty ⊆ dirty')
    (hne : m.NoEmptyBucket) :
    Inv T dirty' building (m.releaseParent row) ∧
      (m.releaseParent row).rows = c.rows.erase key := by
  obtain ⟨hrows', hbuckets, hlen'⟩ := releaseParent_rest m row
  have hsame : ∀ stem, (m.releaseParent row).keysOf stem = m.keysOf stem := by
    intro stem
    unfold keysOf
    rw [hbuckets]
  refine ⟨h.erase hget (hrows'.trans hrows) (hlen'.trans hlen) (releaseParent_congr hparents row)
    (fun stem => ?_) (fun stem => ?_) hdirty ?_, hrows'.trans hrows⟩
  · rw [hsame]
    exact hkeys stem
  · rw [hsame]
    exact hgone stem
  · unfold NoEmptyBucket
    rw [hbuckets]
    exact hne

/-- A row that is out of the rows leaves the indexes, or its stem is dirty. -/
theorem Inv.removeIndexes {dirty building : List Text} (h : Inv T dirty building c) {key : Text}
    {row : CatalogRow Anchor Observation} (hget : c.rows.get? key = some row)
    (d : Option (List Text)) (hd : d.getD [] = dirty) :
    Inv T (removeIndexes T { c with rows := c.rows.erase key } key row d).1 building
        (removeIndexes T { c with rows := c.rows.erase key } key row d).2 ∧
      (removeIndexes T { c with rows := c.rows.erase key } key row d).2.rows = c.rows.erase key ∧
      (d = none → (removeIndexes T { c with rows := c.rows.erase key } key row d).1 = []) := by
  have hstem : catalogStem T row.name = catalogStem T row.path := by
    have hname : nameOf row.name = row.name := by
      have hok := (h.rows key row hget).2.name
      rw [← hok]
      exact List.rtakeWhile_idempotent _ _
    rw [catalogStem, catalogStem, hname, (h.rows key row hget).2.name]
  have hplace : ∀ stem, stem ∉ dirty → key ∈ c.keysOf stem →
      row.persistent = true ∧ row.isDir = false ∧ stem = catalogStem T row.name := by
    intro stem hclean hmem
    rcases h.sound stem key hmem with ⟨row', hget', hpersistent, hdir, hrow⟩ | ⟨hstem', -⟩
    · obtain rfl := Option.some.inj (hget.symm.trans hget')
      exact ⟨hpersistent, hdir, by rw [hstem, hrow]⟩
    · exact absurd hstem' hclean
  unfold ScopeCatalog.removeIndexes
  dsimp only
  rw [hd]
  have hnone : d = none → dirty = [] := by
    rintro rfl
    exact hd.symm
  by_cases hpersistent : row.persistent = true
  · rw [if_pos hpersistent]
    have hlen : c.persistentLen - 1 = c.persistentLen - if row.persistent then 1 else 0 := by
      rw [if_pos hpersistent]
    by_cases hdir : row.isDir = true
    · rw [if_pos hdir]
      have hgone : ∀ stem, stem ∉ dirty → key ∉ c.keysOf stem := by
        intro stem hclean hmem
        have := (hplace stem hclean hmem).2.1
        rw [hdir] at this
        cases this
      obtain ⟨hinv, hrows⟩ := h.eraseRelease (m := { c with
          rows := c.rows.erase key, persistentLen := c.persistentLen - 1 }) hget rfl hlen rfl
        (fun stem => .inl rfl) hgone (List.Subset.refl _) h.nonempty
      exact ⟨hinv, hrows, hnone⟩
    · rw [if_neg hdir]
      by_cases hmany : (d.isSome && (c.buckets.get? (catalogStem T row.name)).any (·.isMany)) = true
      · have hadded : ∀ stem, stem ∈ (if catalogStem T row.name ∈ dirty then dirty
            else dirty ++ [catalogStem T row.name]) ↔
              stem ∈ dirty ∨ stem = catalogStem T row.name := by
          intro stem
          split_ifs with hmem
          · exact ⟨.inl, fun hor => hor.elim (fun hin => hin) fun heq => heq ▸ hmem⟩
          · rw [List.mem_append, List.mem_singleton]
        have hgone : ∀ stem, stem ∉ (if catalogStem T row.name ∈ dirty then dirty
            else dirty ++ [catalogStem T row.name]) → key ∉ c.keysOf stem := by
          intro stem hclean hmem
          rw [hadded, not_or] at hclean
          exact hclean.2 (hplace stem hclean.1 hmem).2.2
        obtain ⟨hinv, hrows⟩ := h.eraseRelease (m := { c with
            rows := c.rows.erase key, persistentLen := c.persistentLen - 1 }) hget rfl hlen rfl
          (fun stem => .inl rfl) hgone (fun stem hin => (hadded stem).2 (.inl hin)) h.nonempty
        rw [if_pos hmany]
        refine ⟨hinv, hrows, ?_⟩
        rintro rfl
        rw [Option.isSome_none, Bool.false_and] at hmany
        cases hmany
      · rw [if_neg hmany]
        obtain ⟨hkeys, hne, hrows, hparents, hlen'⟩ := retainBucket_spec { c with
          rows := c.rows.erase key, persistentLen := c.persistentLen - 1 } (catalogStem T row.name)
          (· ≠ key) h.nonempty
        have hgone : ∀ stem, stem ∉ dirty → key ∉ (retainBucket { c with
            rows := c.rows.erase key, persistentLen := c.persistentLen - 1 }
              (catalogStem T row.name) (· ≠ key)).keysOf stem := by
          intro stem hclean hmem
          rw [hkeys] at hmem
          split_ifs at hmem with heq
          · exact absurd rfl (of_decide_eq_true (List.mem_filter.1 hmem).2)
          · exact heq (hplace stem hclean hmem).2.2
        have hold : ∀ stem, (retainBucket { c with
            rows := c.rows.erase key, persistentLen := c.persistentLen - 1 }
              (catalogStem T row.name) (· ≠ key)).keysOf stem = c.keysOf stem ∨
            (retainBucket { c with
              rows := c.rows.erase key, persistentLen := c.persistentLen - 1 }
                (catalogStem T row.name) (· ≠ key)).keysOf stem =
              (c.keysOf stem).filter (· ≠ key) := by
          intro stem
          rw [hkeys]
          split_ifs with heq
          · exact .inr (by rw [heq]; rfl)
          · exact .inl rfl
        obtain ⟨hinv, hrows'⟩ := h.eraseRelease hget hrows (hlen'.trans hlen) hparents hold hgone
          (List.Subset.refl _) hne
        exact ⟨hinv, hrows', hnone⟩
  · rw [if_neg hpersistent]
    have hlen : c.persistentLen = c.persistentLen - if row.persistent then 1 else 0 := by
      rw [if_neg hpersistent, Nat.sub_zero]
    have hgone : ∀ stem, stem ∉ dirty → key ∉ c.keysOf stem := fun stem hclean hmem =>
      hpersistent (hplace stem hclean hmem).1
    obtain ⟨hinv, hrows⟩ := h.eraseRelease (m := { c with rows := c.rows.erase key }) hget rfl hlen
      rfl (fun stem => .inl rfl) hgone (List.Subset.refl _) h.nonempty
    exact ⟨hinv, hrows, hnone⟩

end ScopeCatalog

end Sunpack.Scan
