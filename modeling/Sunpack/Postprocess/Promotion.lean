import Sunpack.Postprocess.Entries
import Sunpack.Lib.FirstFree

/-!
# Promotion of blocked inputs

`plan_promotion_moves` and `promote_input_files_with_move`: input files are moved into the destination
under free names, all or none, and what is left of a failed rollback is reported.

What the system answers about spellings of paths is in a `System`; which moves fail, and what others
put into the directories before a move, is in the turns of a run. A single move is one step here.
-/

namespace Sunpack.Postprocess

open Lib

/-! ## Paths -/

/-- A path of a file, with what `parent` and `file_name` say of it. -/
structure FilePath where
  text : Text
  parent : Text
  name : Text
  separators : ∀ c ∈ name, c ≠ '\\' ∧ c ≠ '/'

inductive PathBuf
  | file (path : FilePath)
  | unnamed (text : Text)

/-- The separator that `join` puts behind a directory. -/
def gap (directory : Text) : Text :=
  match directory.getLast? with
  | none => []
  | some c =>
    if c = '\\' ∨ c = '/' ∨ directory.length = 2 ∧ c = ':' then [] else ['\\']

def join (directory name : Text) (separators : ∀ c ∈ name, c ≠ '\\' ∧ c ≠ '/') : FilePath where
  text := directory ++ gap directory ++ name
  parent := directory
  name := name
  separators := separators

def uncPrefix : Text := ['\\', '\\', '?', '\\', 'U', 'N', 'C', '\\']

def verbatimPrefix : Text := ['\\', '\\', '?', '\\']

/-- `normalize_windows_extended_prefix`. -/
def plain (path : Text) : Text :=
  if uncPrefix <+: path then ['\\', '\\'] ++ path.drop uncPrefix.length
  else if verbatimPrefix <+: path then path.drop verbatimPrefix.length
  else path

/-- What the system makes of spellings. `canonical` is the spelling of what stands somewhere; different
places have spellings with different keys. -/
structure System where
  table : DowncaseTable
  directory : Text → Nat
  entryOf : Text → Option Location
  canonical : Location → Text
  canonicalDirectory : Text → Text
  queryError : Location → Option IoError
  canonical_key : ∀ d d' name name',
    table.pathKey (canonical (d, table.pathKey name)) =
      table.pathKey (canonical (d', table.pathKey name')) →
    (d, table.pathKey name) = (d', table.pathKey name')

namespace System

variable (S : System)

def locate (path : FilePath) : Location := (S.directory path.parent, S.table.pathKey path.name)

/-- `normalize_path` of a file. -/
def normalizePath (s : Entries) (path : FilePath) : Text :=
  if (s.get? (S.locate path)).isSome ∧ S.queryError (S.locate path) = none then
    S.canonical (S.locate path)
  else plain path.text

/-- `normalize_path` of a directory; the root of a drive stands nowhere. -/
def normalizeDirectory (s : Entries) (path : Text) : Text :=
  if ∀ l ∈ S.entryOf path, (s.get? l).isSome then S.canonicalDirectory path else plain path

end System

/-! ## The plan -/

/-- The letters of an alias, the lowest four bits first. -/
def aliasLetters (value : Nat) : Text :=
  if value / 16 = 0 then [Char.ofNat (97 + value % 16)]
  else Char.ofNat (97 + value % 16) :: aliasLetters (value / 16)
termination_by value
decreasing_by omega

def aliasSuffix : Text := ['.', '_', '_', 's', 'u', 'n', 'p', 'a', 'c', 'k', '_']

/-- The names that are tried in turn: the own one, and then an alias for each value of the counter. -/
def candidate (name : Text) (next : Nat) : Nat → Text
  | 0 => name
  | k + 1 => name ++ aliasSuffix ++ aliasLetters (next + k)

abbrev Move := FilePath × FilePath

/-- `destinations` has the keys of names, as all targets are in one directory (`key_join_iff`). -/
structure Plan where
  sources : List Text := []
  destinations : List Text := []
  next : Nat := 0
  moves : List Move := []

theorem aliasLetters_mem {value : Nat} {c : Char} (h : c ∈ aliasLetters value) :
    ∃ digit < 16, c = Char.ofNat (97 + digit) := by
  fun_induction aliasLetters value with
  | case1 value hlast =>
    exact ⟨value % 16, Nat.mod_lt _ (by omega), List.mem_singleton.1 h⟩
  | case2 value hmore ih =>
    rcases List.mem_cons.1 h with rfl | h
    · exact ⟨value % 16, Nat.mod_lt _ (by omega), rfl⟩
    · exact ih h

theorem letter_toNat {digit : Nat} (h : digit < 16) : (Char.ofNat (97 + digit)).toNat = 97 + digit := by
  have hvalid : (97 + digit).isValidChar := Or.inl (by omega)
  rw [Char.ofNat, dif_pos hvalid]
  simp [Char.ofNatAux, Char.toNat]
  omega

theorem candidate_separators {name : Text} (h : ∀ c ∈ name, c ≠ '\\' ∧ c ≠ '/') (next k : Nat) :
    ∀ c ∈ candidate name next k, c ≠ '\\' ∧ c ≠ '/' := by
  cases k with
  | zero => exact h
  | succ k =>
    have hsuffix : ∀ c ∈ aliasSuffix, c ≠ '\\' ∧ c ≠ '/' := by simp [aliasSuffix]
    have hletter : ∀ digit < 16, ∀ c : Char, c.toNat < 97 → Char.ofNat (97 + digit) ≠ c := by
      rintro digit hdigit c hc rfl
      rw [letter_toNat hdigit] at hc
      omega
    intro c hc
    rcases List.mem_append.1 hc with hc | hc
    · rcases List.mem_append.1 hc with hc | hc
      · exact h c hc
      · exact hsuffix c hc
    · obtain ⟨digit, hdigit, rfl⟩ := aliasLetters_mem hc
      exact ⟨hletter digit hdigit _ (by decide), hletter digit hdigit _ (by decide)⟩

variable (S : System)

/-- The keys that are not free in the destination, without those the system does not answer for. -/
def takenKeys (s : Entries) (destination : Text) (plan : Plan) : List Text :=
  ((s.entries.filter fun entry => entry.1.1 = S.directory destination).map (·.1.2) ++
    plan.destinations).filter fun key => (S.queryError (S.directory destination, key)).isNone

/-- The loop over the aliases of a name. -/
def planTarget (s : Entries) (destination : Text) (plan : Plan) (source : FilePath) :
    Except IoError (FilePath × Nat) :=
  let tries := firstFree (takenKeys S s destination plan)
    (fun k => S.table.pathKey (candidate source.name plan.next k)) 0
  let target := join destination (candidate source.name plan.next tries)
    (candidate_separators source.separators _ _)
  match S.queryError (S.locate target) with
  | some error => .error error
  | none => .ok (target, plan.next + tries)

def planOne (s : Entries) (destination : Text) (plan : Plan) : PathBuf → Except IoError Plan
  | .unnamed _ => .error { text := "input has no basename".toList, said := by decide }
  | .file source =>
    let key := S.table.pathKey (S.normalizePath s source)
    if key ∈ plan.sources then .ok plan
    else
      match S.queryError (S.locate source) with
      | some error => .error error
      | none =>
        match s.get? (S.locate source) with
        | none => .error .notFound
        | some (.directory _) =>
          .error { text := "not an input file: ".toList ++ source.text, said := by simp }
        | some (.file _) =>
          match planTarget S s destination plan source with
          | .error error => .error error
          | .ok (target, next) =>
            .ok { sources := plan.sources ++ [key]
                  destinations := plan.destinations ++ [S.table.pathKey target.name]
                  next := next
                  moves := plan.moves ++ [(source, target)] }

/-- `plan_promotion_moves`; the counter of the aliases is shared by all plans. -/
def planPromotionMoves (s : Entries) (destination : Text) (next : Nat) (paths : List PathBuf) :
    Except IoError Plan := paths.foldlM (planOne S s destination) { next := next }

/-! ## The moves -/

/-- What happens at one move: what others put somewhere before it, and whether the system fails. -/
structure Turn where
  arrivals : List (Location × Entry) := []
  error : Option IoError := none

/-- `residual`, `removed`, `touched`, the error and whether it is a collision. -/
structure PromotionResult where
  residual : List (Text × Text)
  removed : List Text
  touched : List Text
  error : Text
  collision : Bool

def moveFile (s : Entries) (turn : Turn) (source target : FilePath) : Option IoError × Entries :=
  let s := Entries.arrive s turn.arrivals
  match turn.error with
  | some error => (some error, s)
  | none =>
    match Entries.rename s (S.locate source) (S.locate target) with
    | .error error => (some error, s)
    | .ok s => (none, s)

/-- The error and the collision of an occupied target. -/
def recheck (s : Entries) : List Move → Option (Text × Bool)
  | [] => none
  | (_, target) :: moves =>
    match S.queryError (S.locate target) with
    | some error => some (error.text, false)
    | none =>
      if (s.get? (S.locate target)).isSome then
        some ("promotion destination exists".toList, true)
      else recheck s moves

/-- The moves are taken back; what stays moved, and what the message says of it. -/
def rollback (turns : List Turn) (s : Entries) : List Move → List (Text × Text) × Text × Entries
  | [] => ([], [], s)
  | (old, new) :: moves =>
    let moved := moveFile S s (turns.headD {}) new old
    let rest := rollback turns.tail moved.2 moves
    match moved.1 with
    | none => rest
    | some error =>
      ((S.normalizePath moved.2 old, S.normalizePath moved.2 new) :: rest.1,
        "; rollback ".toList ++ new.text ++ ": ".toList ++ error.text ++ rest.2.1, rest.2.2)

/-- The moves that are done come last first. -/
def moveAll (turns : List Turn) (s : Entries) (done : List Move) :
    List Move → Option PromotionResult × Entries
  | [] => (none, s)
  | (source, target) :: moves =>
    let moved := moveFile S s (turns.headD {}) source target
    match moved.1 with
    | none => moveAll turns.tail moved.2 ((source, target) :: done) moves
    | some error =>
      let back := rollback S turns.tail moved.2 done
      (some { residual := back.1
              removed := []
              touched := []
              error := error.text ++ back.2.1
              collision := error.isNameCollision && back.1.isEmpty }, back.2.2)

/-- The directories that `remove_dir` removes, where the system does not fail. -/
def removeParents (fails : List Bool) (s : Entries) : List Text → List Text × Entries
  | [] => ([], s)
  | parent :: parents =>
    let removed : Option Entries := (S.entryOf parent).bind fun l =>
      if fails.headD false then none else (Entries.removeDir s l).toOption
    match removed with
    | none => removeParents fails.tail s parents
    | some s =>
      let rest := removeParents fails.tail s parents
      (plain parent :: rest.1, rest.2)

/-- `promote_input_files_with_move`. -/
def promote (s : Entries) (destination : Text) (beforeMove : Option IoError) (turns : List Turn)
    (fails : List Bool) (moves : List Move) : PromotionResult × Entries :=
  match recheck S s moves with
  | some (error, collision) => (⟨[], [], [], error, collision⟩, s)
  | none =>
    match beforeMove with
    | some error => (⟨[], [], [], error.text, false⟩, s)
    | none =>
      match moveAll S turns s [] moves with
      | (some failed, s) => (failed, s)
      | (none, s) =>
        let parents := (moves.map (·.1.parent)).eraseDups
        let cleaned := removeParents S fails s parents
        (⟨[], cleaned.1,
          parents.map (S.normalizeDirectory cleaned.2) ++ [S.normalizeDirectory cleaned.2 destination],
          [], false⟩, cleaned.2)

end Sunpack.Postprocess
