import Sunpack.PathKeys

/-!
# Relation rows and the scope of a selection

The rows of a directory scan (`RelationSource`), the rows that a selection brings into scope
(`RelationScopeIndex`) and the buckets of one scope (`BucketIndex`). Of a volume anchor only the
fields are kept that decide about scope, buckets, confirmation and extent. Hash sets are lists whose order
nothing depends on.
-/

namespace Sunpack.Relations

inductive PeState
  | none
  | candidate
  | confirmed
deriving DecidableEq, Repr

structure VolumeAnchor where
  format : String := ""
  confidence : String := ""
  standalone : Bool := false
  multivolume : Bool := false
  needsPassword : Bool := false
  anchorRoles : List String := []
  structureOffset : Option Nat := none
  continuationFromPrevious : Bool := false
  continuationToNext : Bool := false
  sfx : Bool := false
  peState : PeState := .none
  evidence : List String := []
  size : Nat := 0
  payloadEnd : Option Nat := none
  carrierLimit : Option Nat := none
deriving DecidableEq, Repr

structure RelationInput where
  path : Text
  pathKey : Text
  name : Text
  size : Option Nat := none
  relationMemberEligible : Bool := true
  anchor : Option VolumeAnchor := none
deriving DecidableEq, Repr

/-- Owned by the candidate table: facts by path key. -/
structure RelationCache where
  anchors : List (Text × VolumeAnchor)
deriving DecidableEq, Repr

/-- One row of a directory table. -/
structure TableRow where
  path : Text
  isDir : Bool := false
  size : Option Nat := none
  relationMemberEligible : Bool := true
  relationAnchor : Option VolumeAnchor := none
deriving DecidableEq, Repr

/-- A directory snapshot selects rows of its table. -/
structure NativeDirectorySnapshot where
  table : List TableRow
  rows : List (Fin table.length)

def isSeparator (c : Char) : Bool := c = '/' || c = '\\'

/-- `Path::file_name`: the last component, unless it is `..`. -/
def fileName (path : Text) : Text :=
  let last := ((path.reverse.dropWhile isSeparator).takeWhile (!isSeparator ·)).reverse
  if last = "..".toList then [] else last

inductive RelationSource
  | snapshot (snapshot : NativeDirectorySnapshot) (cached : Option RelationCache)
  | physical (rows : List RelationInput)

def firstDotStem (name : Text) : Text := name.takeWhile (· ≠ '.')

def cheapSeedStrength (anchor : VolumeAnchor) : Option String :=
  if anchor.standalone then none
  else if anchor.format = "" && anchor.peState ≠ .none then some "weak"
  else if ¬ anchor.format ∈ ["rar", "7z", "zip"] then none
  else if anchor.format = "rar" && "rar5:encryption_header" ∈ anchor.evidence then some "weak"
  else if anchor.format = "zip" && anchor.confidence = "weak" then some "weak"
  else if anchor.confidence = "strong" &&
      (anchor.multivolume || anchor.sfx || anchor.continuationFromPrevious ||
        anchor.continuationToNext || "terminal" ∈ anchor.anchorRoles) then some "strong"
  else none

/-- `BucketIndex::has_seed`. -/
def hasSeed (anchor : VolumeAnchor) : Bool :=
  (cheapSeedStrength anchor).isSome ||
    (!anchor.standalone && (anchor.multivolume || anchor.needsPassword))

variable (T : DowncaseTable)

/-! ## Sources -/

namespace RelationSource

/-- The rows of a source, in order; directories are skipped. -/
def materializeAll : RelationSource → List RelationInput
  | .snapshot s cached =>
    (s.rows.filter fun row => !(s.table.get row).isDir).map fun row =>
      let r := s.table.get row
      { path := r.path
        pathKey := T.pathKey r.path
        name := fileName r.path
        size := r.size
        relationMemberEligible := r.relationMemberEligible
        anchor := (cached.bind fun c => c.anchors.lookup (T.pathKey r.path)) <|> r.relationAnchor }
  | .physical rows => rows.map fun r => { r with pathKey := T.pathKey r.path }

/-- A materialized row carries the key of its path. -/
theorem materializeAll_pathKey (source : RelationSource) {row : RelationInput}
    (h : row ∈ source.materializeAll T) : row.pathKey = T.pathKey row.path := by
  cases source with
  | snapshot s cached =>
    obtain ⟨r, _, rfl⟩ := List.mem_map.1 h
    rfl
  | physical rows =>
    obtain ⟨r, _, rfl⟩ := List.mem_map.1 h
    rfl

end RelationSource

/-! ## Scope -/

/-- The text a `CaseKey` holds; two of them are equal if they differ in ASCII case only. -/
def CaseKey.new (value : Text) : Text :=
  if '/' ∈ value then T.pathKey value
  else if value.all isAsciiChar then value
  else T.caseKey value

def CaseKey.eq (a b : Text) : Bool := a.map Char.toLower = b.map Char.toLower

def CaseKey.contains (keys : List Text) (key : Text) : Bool := keys.any (CaseKey.eq · key)

/-- `RelationScopeIndex::build`: the selected rows, and the rows whose stem is that of a selected row
and of a seed. -/
def RelationScopeIndex.build (rows : List RelationInput) (filteredKeys : List Text) :
    List RelationInput :=
  let selected := filteredKeys.map (CaseKey.new T)
  let stems := (rows.filter fun r => CaseKey.contains selected (CaseKey.new T r.path)).map fun r =>
    CaseKey.new T (firstDotStem r.name)
  let active := ((rows.filter fun r => r.anchor.any hasSeed).map fun r =>
    CaseKey.new T (firstDotStem r.name)).filter (CaseKey.contains stems)
  rows.filter fun r =>
    CaseKey.contains selected (CaseKey.new T r.path) ||
      CaseKey.contains active (CaseKey.new T (firstDotStem r.name))

theorem CaseKey.eq_refl (a : Text) : CaseKey.eq a a = true := by simp [CaseKey.eq]

/-- A key and the path it was made from are the same scope key. -/
theorem CaseKey.eq_new_pathKey (path : Text) :
    CaseKey.eq (CaseKey.new T (T.pathKey path)) (CaseKey.new T path) = true := by
  have hkey : CaseKey.new T (T.pathKey path) = T.pathKey path := by
    rw [CaseKey.new, if_neg (T.slash_notMem_pathKey path), T.caseKey_pathKey, ite_self]
  rw [hkey, CaseKey.new]
  split_ifs with hslash hascii
  · exact CaseKey.eq_refl _
  · rw [T.pathKey_of_slash_notMem hslash, DowncaseTable.caseKey, if_pos hascii]
    simp [CaseKey.eq]
  · rw [T.pathKey_of_slash_notMem hslash]
    exact CaseKey.eq_refl _

theorem RelationScopeIndex.mem_build {rows : List RelationInput} {filteredKeys : List Text}
    {row : RelationInput} (hrow : row ∈ rows) (hkey : T.pathKey row.path ∈ filteredKeys) :
    row ∈ RelationScopeIndex.build T rows filteredKeys := by
  refine List.mem_filter.2 ⟨hrow, ?_⟩
  rw [Bool.or_eq_true]
  refine .inl (List.any_eq_true.2 ⟨_, List.mem_map_of_mem hkey, ?_⟩)
  exact CaseKey.eq_new_pathKey T row.path

theorem RelationScopeIndex.build_sublist (rows : List RelationInput) (filteredKeys : List Text) :
    (RelationScopeIndex.build T rows filteredKeys).Sublist rows :=
  List.filter_sublist

/-! ## Buckets -/

/-- The physical scope only: rows by path key, and by stem. -/
structure BucketIndex where
  entriesByPath : List (Text × Nat)
  rowsByStem : List (Text × List Nat)

def BucketIndex.build (rows : List RelationInput) (filteredKeys : List Text) : BucketIndex :=
  let selected := (rows.filter fun r => r.pathKey ∈ filteredKeys).map fun r =>
    T.caseKey (firstDotStem r.name)
  let stems := ((rows.filter fun r => r.anchor.any hasSeed).map fun r =>
    T.caseKey (firstDotStem r.name)).filter (· ∈ selected)
  let entries := rows.zipIdx.filter fun (r, _) => T.caseKey (firstDotStem r.name) ∈ stems
  { entriesByPath := entries.map fun (r, i) => (r.pathKey, i)
    rowsByStem := stems.dedup.map fun stem =>
      (stem, (entries.filter fun (r, _) => T.caseKey (firstDotStem r.name) = stem).map (·.2)) }

end Sunpack.Relations
