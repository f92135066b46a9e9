import Mathlib
import Sunpack.Lib.LittleEndian
import Sunpack.Lib.Loop

/-!
# Change records

`record_directory_changes` of `journal.rs`: what a raw record of the change journal says about the
watched directories. A record may name a watched directory itself and a child of another one.
-/

namespace Sunpack.Usn

open Lib

abbrev Bytes := List UInt8

/-- A file name, by its characters. -/
abbrev Name := List Char

/-- The index of a watched directory and the name of a child, or no name for the directory itself. -/
abbrev Change := Nat × Name

inductive ErrorKind
  | invalidData
  | other
  deriving DecidableEq

structure IoError where
  kind : ErrorKind
  text : String
  deriving DecidableEq

def invalid (text : String) : IoError := ⟨.invalidData, text⟩

def other (text : String) : IoError := ⟨.other, text⟩

/-! ## Fields -/

def field (bytes : Bytes) (offset n : Nat) : Nat := ofLeBytes ((bytes.drop offset).take n)

/-- A word of 64 bits with a sign. -/
def signed (n : Nat) : Int := if n < 2 ^ 63 then n else n - 2 ^ 64

def usnAt (bytes : Bytes) (offset : Nat) : Int := signed (field bytes offset 8)

def fileIdBytes : Nat := 16

/-- An identity of `width` bytes, filled up with zeros. -/
def idAt (bytes : Bytes) (offset width : Nat) : Bytes :=
  (bytes.drop offset).take width ++ List.replicate (fileIdBytes - width) 0

/-- The map of directories: of equal ones the last counts. -/
def parentOf (directories : List Bytes) (id : Bytes) : Option Nat :=
  ((directories.zipIdx.filter fun entry => entry.1 = id).getLast?).map Prod.snd

/-! ## Names -/

/-- `chunks_exact(2)`. -/
def units : Bytes → List Nat
  | a :: b :: rest => ofLeBytes [a, b] :: units rest
  | _ => []

/-- `String::from_utf16`. -/
def fromUtf16 : List Nat → Option Name
  | [] => some []
  | u :: rest =>
    if u < 0xD800 ∨ 0xE000 ≤ u then (fromUtf16 rest).map (Char.ofNat u :: ·)
    else if 0xDC00 ≤ u then none
    else
      match rest with
      | [] => none
      | v :: rest =>
        if 0xDC00 ≤ v ∧ v < 0xE000 then
          (fromUtf16 rest).map (Char.ofNat (0x10000 + (u - 0xD800) * 0x400 + (v - 0xDC00)) :: ·)
        else none

/-- The bytes of a name in UTF-8. -/
def nameLen (name : Name) : Nat := (name.map Char.utf8Size).sum

def changeSize (change : Change) : Nat := 8 + nameLen change.2

def unsafeName (name : Name) : Prop :=
  '/' ∈ name ∨ '\\' ∈ name ∨ name = ['.'] ∨ name = ['.', '.'] ∨ '\x00' ∈ name

instance (name : Name) : Decidable (unsafeName name) := by
  unfold unsafeName
  infer_instance

def badRange (record : Bytes) (length offset lowest : Nat) : Prop :=
  length = 0 ∨ length % 2 ≠ 0 ∨ offset < lowest ∨ record.length < offset + length

instance (record : Bytes) (length offset lowest : Nat) :
    Decidable (badRange record length offset lowest) := by
  unfold badRange
  infer_instance

def checkName : Option Name → Except IoError Name
  | none => .error (invalid "invalid USN UTF-16")
  | some name =>
    if unsafeName name then .error (invalid "invalid USN child name") else .ok name

def childName (record : Bytes) (lengthOffset offsetOffset : Nat) : Except IoError Name :=
  if record.length < offsetOffset + 2 then
    .error (invalid "truncated USN file name metadata")
  else
    let length := field record lengthOffset 2
    let offset := field record offsetOffset 2
    if badRange record length offset (offsetOffset + 2) then
      .error (invalid "invalid USN file name range")
    else checkName (fromUtf16 (units ((record.drop offset).take length)))

/-! ## Records -/

structure Layout where
  width : Nat
  usnOffset : Nat
  nameOffsets : Option (Nat × Nat)
  deriving DecidableEq

def layoutOf : Nat → Option Layout
  | 2 => some ⟨8, 24, some (56, 58)⟩
  | 3 => some ⟨16, 40, some (72, 74)⟩
  | 4 => some ⟨16, 40, none⟩
  | _ => none

def ownChange (directories : List Bytes) (record : Bytes) (layout : Layout) : List Change :=
  match parentOf directories (idAt record 8 layout.width) with
  | some index => [(index, [])]
  | none => []

def namedChild (record : Bytes) : Option (Nat × Nat) → Except IoError Name
  | none => .error (other "USN V4 record requires fallback scan")
  | some offsets => childName record offsets.1 offsets.2

/-- The changes of a record, wherever it is in the journal. -/
def changesOf (directories : List Bytes) (record : Bytes) (layout : Layout) :
    Except IoError (List Change) :=
  match parentOf directories (idAt record (8 + layout.width) layout.width) with
  | none => .ok (ownChange directories record layout)
  | some index =>
    match namedChild record layout.nameOffsets with
    | .error e => .error e
    | .ok name => .ok (ownChange directories record layout ++ [(index, name)])

/-- The buffer for the changes is cleared first, so what it held before does not matter. -/
def recordDirectoryChanges (record : Bytes) (directories : List Bytes) (startUsn endUsn : Int) :
    Except IoError (List Change) :=
  if record.length < 8 then .error (invalid "truncated USN record")
  else
    match layoutOf (field record 4 2) with
    | none => .error (other "unknown USN record; fallback scan required")
    | some layout =>
      if record.length < layout.usnOffset + 8 then
        .error (invalid "truncated USN directory record")
      else if usnAt record layout.usnOffset < startUsn ∨ endUsn ≤ usnAt record layout.usnOffset then
        .ok []
      else changesOf directories record layout

/-! ## Valid records -/

/-- The place of the USN as a page reads it. -/
def usnOf (record : Bytes) : Int := usnAt record (if field record 4 2 = 2 then 24 else 40)

/-- A record with a valid layout: it has its own length, the fields of its version, and, where a child
of a watched directory changed, the name of the child. -/
structure ValidRecord (directories : List Bytes) (record : Bytes) (changes : List Change) : Prop where
  own_length : field record 0 4 = record.length
  long : 8 ≤ record.length
  decodes : ∃ layout, layoutOf (field record 4 2) = some layout ∧
    layout.usnOffset + 8 ≤ record.length ∧ changesOf directories record layout = .ok changes

theorem layoutOf_usnOffset {major : Nat} {layout : Layout} (h : layoutOf major = some layout) :
    layout.usnOffset = if major = 2 then 24 else 40 := by
  unfold layoutOf at h
  split at h
  · obtain rfl := Option.some.inj h
    rfl
  · obtain rfl := Option.some.inj h
    rfl
  · obtain rfl := Option.some.inj h
    rfl
  · cases h

/-- The record is read as it is, if it is in the range, and as nothing otherwise. -/
theorem ValidRecord.changes {directories : List Bytes} {record : Bytes} {changes : List Change}
    (h : ValidRecord directories record changes) (startUsn endUsn : Int) :
    recordDirectoryChanges record directories startUsn endUsn =
      .ok (if usnOf record < startUsn ∨ endUsn ≤ usnOf record then [] else changes) := by
  obtain ⟨layout, hlayout, hlong, hchanges⟩ := h.decodes
  have husn : usnAt record layout.usnOffset = usnOf record := by
    rw [usnOf, layoutOf_usnOffset hlayout]
  have hlength := h.long
  rw [recordDirectoryChanges, if_neg (by omega), hlayout]
  dsimp only
  rw [if_neg (by omega), husn, hchanges]
  by_cases hrange : usnOf record < startUsn ∨ endUsn ≤ usnOf record
  · rw [if_pos hrange, if_pos hrange]
  · rw [if_neg hrange, if_neg hrange]

/-! ## Names are not empty -/

theorem units_ne_nil {bytes : Bytes} (h : 2 ≤ bytes.length) : units bytes ≠ [] := by
  match bytes, h with
  | _ :: _ :: _, _ => simp [units]

theorem fromUtf16_ne_nil {l : List Nat} {name : Name} (hl : l ≠ []) (h : fromUtf16 l = some name) :
    name ≠ [] := by
  cases l with
  | nil => exact absurd rfl hl
  | cons u rest =>
    unfold fromUtf16 at h
    split_ifs at h
    · obtain ⟨_, _, rfl⟩ := Option.map_eq_some_iff.1 h
      exact List.cons_ne_nil _ _
    · cases rest with
      | nil => cases h
      | cons v rest =>
        dsimp only at h
        split_ifs at h
        obtain ⟨_, _, rfl⟩ := Option.map_eq_some_iff.1 h
        exact List.cons_ne_nil _ _

theorem childName_ne_nil {record : Bytes} {lengthOffset offsetOffset : Nat} {name : Name}
    (h : childName record lengthOffset offsetOffset = .ok name) : name ≠ [] := by
  unfold childName at h
  by_cases hshort : record.length < offsetOffset + 2
  · rw [if_pos hshort] at h
    cases h
  rw [if_neg hshort] at h
  dsimp only at h
  generalize field record lengthOffset 2 = length at h
  generalize field record offsetOffset 2 = offset at h
  by_cases hrange : badRange record length offset (offsetOffset + 2)
  · rw [if_pos hrange] at h
    cases h
  rw [if_neg hrange] at h
  cases hunits : fromUtf16 (units ((record.drop offset).take length)) with
  | none =>
    rw [hunits] at h
    cases h
  | some found =>
    rw [hunits, checkName] at h
    split_ifs at h
    obtain rfl := Except.ok.inj h
    refine fromUtf16_ne_nil (units_ne_nil ?_) hunits
    simp only [badRange, not_or, not_not, not_lt] at hrange
    rw [List.length_take, List.length_drop]
    omega

/-- The two changes of a record are different. -/
theorem changesOf_nodup {directories : List Bytes} {record : Bytes} {layout : Layout}
    {changes : List Change} (h : changesOf directories record layout = .ok changes) :
    changes.Nodup := by
  have hown : (ownChange directories record layout).Nodup := by
    unfold ownChange
    split <;> simp
  unfold changesOf at h
  split at h
  · obtain rfl := Except.ok.inj h
    exact hown
  · cases hname : namedChild record layout.nameOffsets with
    | error e =>
      rw [hname] at h
      cases h
    | ok name =>
      rw [hname] at h
      obtain rfl := Except.ok.inj h
      have hne : name ≠ [] := by
        cases hoffsets : layout.nameOffsets with
        | none =>
          rw [hoffsets] at hname
          cases hname
        | some offsets =>
          rw [hoffsets] at hname
          exact childName_ne_nil hname
      refine List.nodup_append.2 ⟨hown, List.nodup_singleton _, ?_⟩
      intro a ha b hb heq
      subst heq
      obtain rfl := List.mem_singleton.1 hb
      unfold ownChange at ha
      split at ha
      · exact hne (congrArg Prod.snd (List.mem_singleton.1 ha))
      · cases ha

/-! ## Entries -/

/-- A record of version 2: a change of a file with a name. -/
def entry (usn file parent : Nat) (name : List Nat) : Bytes :=
  leBytes 4 (60 + 2 * name.length) ++ (leBytes 2 2 ++ (leBytes 2 0 ++ (leBytes 8 file ++
    (leBytes 8 parent ++ (leBytes 8 usn ++ (leBytes 8 0 ++ (leBytes 8 0 ++ (leBytes 8 0 ++
      (leBytes 2 (2 * name.length) ++ (leBytes 2 60 ++ name.flatMap (leBytes 2)))))))))))

variable (usn file parent : Nat) (name : List Nat)

theorem length_flatMap_leBytes : (name.flatMap (leBytes 2)).length = 2 * name.length := by
  induction name with
  | nil => rfl
  | cons u name ih =>
    rw [List.flatMap_cons, List.length_append, ih, leBytes_length, List.length_cons]
    omega

theorem length_entry : (entry usn file parent name).length = 60 + 2 * name.length := by
  simp only [entry, List.length_append, leBytes_length, length_flatMap_leBytes]
  omega

theorem drop_leBytes (k n o : Nat) (rest : Bytes) :
    (leBytes k n ++ rest).drop (k + o) = rest.drop o := by
  rw [← List.drop_drop, List.drop_left' (leBytes_length k n)]

theorem take_leBytes (k n : Nat) (rest : Bytes) : (leBytes k n ++ rest).take k = leBytes k n :=
  List.take_left' (leBytes_length k n)

theorem field_entry_length : field (entry usn file parent name) 0 4 = (60 + 2 * name.length) % 256 ^ 4 := by
  rw [field, entry, List.drop_zero, take_leBytes, ofLeBytes_leBytes]

theorem field_entry_major : field (entry usn file parent name) 4 2 = 2 := by
  show field (entry usn file parent name) (4 + 0) 2 = 2
  rw [field, entry, drop_leBytes, List.drop_zero, take_leBytes, ofLeBytes_leBytes]
  rfl

theorem idAt_entry_file : idAt (entry usn file parent name) 8 8 = leBytes 8 file ++ List.replicate 8 0 := by
  show idAt (entry usn file parent name) (4 + (2 + (2 + 0))) 8 = _
  rw [idAt, entry, drop_leBytes, drop_leBytes, drop_leBytes, List.drop_zero, take_leBytes]
  rfl

theorem idAt_entry_parent :
    idAt (entry usn file parent name) 16 8 = leBytes 8 parent ++ List.replicate 8 0 := by
  show idAt (entry usn file parent name) (4 + (2 + (2 + (8 + 0)))) 8 = _
  rw [idAt, entry, drop_leBytes, drop_leBytes, drop_leBytes, drop_leBytes, List.drop_zero, take_leBytes]
  rfl

theorem usnOf_entry (h : usn < 2 ^ 63) : usnOf (entry usn file parent name) = usn := by
  have hat : usnAt (entry usn file parent name) 24 = usn := by
    show usnAt (entry usn file parent name) (4 + (2 + (2 + (8 + (8 + 0))))) = usn
    rw [usnAt, field, entry]
    simp only [drop_leBytes, List.drop_zero, take_leBytes]
    rw [ofLeBytes_leBytes_of_lt (by omega), signed, if_pos h]
  rw [usnOf, field_entry_major, if_pos rfl, hat]

theorem field_entry_nameLength :
    field (entry usn file parent name) 56 2 = (2 * name.length) % 256 ^ 2 := by
  show field (entry usn file parent name)
    (4 + (2 + (2 + (8 + (8 + (8 + (8 + (8 + (8 + 0))))))))) 2 = _
  rw [field, entry]
  simp only [drop_leBytes, List.drop_zero, take_leBytes, ofLeBytes_leBytes]

theorem field_entry_nameOffset : field (entry usn file parent name) 58 2 = 60 := by
  show field (entry usn file parent name)
    (4 + (2 + (2 + (8 + (8 + (8 + (8 + (8 + (8 + (2 + 0)))))))))) 2 = _
  rw [field, entry]
  simp only [drop_leBytes, List.drop_zero, take_leBytes, ofLeBytes_leBytes]
  rfl

theorem drop_entry_name : (entry usn file parent name).drop 60 = name.flatMap (leBytes 2) := by
  show (entry usn file parent name).drop
    (4 + (2 + (2 + (8 + (8 + (8 + (8 + (8 + (8 + (2 + (2 + 0))))))))))) = _
  rw [entry]
  simp only [drop_leBytes, List.drop_zero]

theorem units_flatMap (h : ∀ u ∈ name, u < 2 ^ 16) : units (name.flatMap (leBytes 2)) = name := by
  induction name with
  | nil => rfl
  | cons u name ih =>
    have hu : ofLeBytes (leBytes 2 u) = u := ofLeBytes_leBytes_of_lt (h u List.mem_cons_self)
    have hrest := ih fun v hv => h v (List.mem_cons_of_mem _ hv)
    show ofLeBytes (leBytes 2 u) :: units (name.flatMap (leBytes 2)) = u :: name
    rw [hu, hrest]

/-- A change of a directory, if it is watched. -/
def changeAt (directories : List Bytes) (id : Bytes) (name : Name) : List Change :=
  match parentOf directories id with
  | some index => [(index, name)]
  | none => []

/-- An entry is valid and says what its fields say. -/
theorem entry_valid (directories : List Bytes) {chars : Name} (hlong : 0 < name.length)
    (hshort : 2 * name.length < 2 ^ 16) (hunits : ∀ u ∈ name, u < 2 ^ 16)
    (hname : fromUtf16 name = some chars) (hsafe : ¬unsafeName chars) :
    ValidRecord directories (entry usn file parent name)
      (changeAt directories (leBytes 8 file ++ List.replicate 8 0) [] ++
        changeAt directories (leBytes 8 parent ++ List.replicate 8 0) chars) := by
  have hlength := length_entry usn file parent name
  refine ⟨?_, by omega, ⟨8, 24, some (56, 58)⟩, ?_, ?_, ?_⟩
  · rw [field_entry_length, hlength]
    omega
  · rw [field_entry_major]
    rfl
  · dsimp only
    omega
  · have hrange : ¬badRange (entry usn file parent name) (2 * name.length) 60 (58 + 2) := by
      unfold badRange
      omega
    have hchild : childName (entry usn file parent name) 56 58 = .ok chars := by
      rw [childName, if_neg (by omega), field_entry_nameLength, field_entry_nameOffset]
      dsimp only
      rw [Nat.mod_eq_of_lt (by omega), if_neg hrange, drop_entry_name,
        List.take_of_length_le (by rw [length_flatMap_leBytes]), units_flatMap name hunits, hname,
        checkName, if_neg hsafe]
    have hown : ownChange directories (entry usn file parent name) ⟨8, 24, some (56, 58)⟩ =
        changeAt directories (leBytes 8 file ++ List.replicate 8 0) [] := by
      rw [ownChange, idAt_entry_file, changeAt]
    unfold changesOf
    dsimp only
    rw [idAt_entry_parent, hown]
    generalize changeAt directories (leBytes 8 file ++ List.replicate 8 0) [] = own
    rw [changeAt]
    cases parentOf directories (leBytes 8 parent ++ List.replicate 8 0) with
    | none => exact congrArg Except.ok (List.append_nil _).symm
    | some index =>
      dsimp only
      rw [namedChild, hchild]

end Sunpack.Usn
