import Sunpack.DisplayStore.History
import Sunpack.DisplayStore.Live

/-!
# The display store

The manifest names the runs of the history and the live run. What it no longer names is obsolete, and
its files go once the manifest without it is published.
-/

namespace Sunpack.DisplayStore

open Sunpack.Lib

/-! ## Names -/

/-- A process, and its clock whenever it draws a serial number for a run. -/
structure World where
  pid : Nat
  nonce : Nat → Nat

/-- `{:x}` -/
def hexText (n : Nat) : RunName := Nat.toDigits 16 n

/-- `{:032x}` -/
def wideHexText (n : Nat) : RunName :=
  List.replicate (32 - (hexText n).length) '0' ++ hexText n

def runName (w : World) (start : RunName) (serial : Nat) : RunName :=
  start ++ '-' :: wideHexText (w.nonce serial) ++ '-' :: hexText w.pid ++ '-' :: hexText serial

theorem digitChar_spec : ∀ d < 16, Nat.digitChar d ≠ '-' ∧
    ∀ e < 16, Nat.digitChar d = Nat.digitChar e → d = e := by
  decide

theorem dash_notMem_hexText (n : Nat) : '-' ∉ hexText n := by
  induction n using Nat.strongRecOn with
  | ind n ih =>
    unfold hexText at ih ⊢
    rw [Nat.toDigits_eq_if (by decide)]
    split_ifs with hlt
    · rw [List.mem_singleton]
      exact Ne.symm (digitChar_spec n hlt).1
    · rw [List.mem_append, List.mem_singleton, not_or]
      exact ⟨ih (n / 16) (by omega), Ne.symm (digitChar_spec (n % 16) (by omega)).1⟩

theorem hexText_injective {m n : Nat} (h : hexText m = hexText n) : m = n := by
  induction m using Nat.strongRecOn generalizing n with
  | ind m ih =>
    unfold hexText at ih h
    rw [@Nat.toDigits_eq_if 16 m (by decide), @Nat.toDigits_eq_if 16 n (by decide)] at h
    split_ifs at h with hm hn hn
    · exact (digitChar_spec m hm).2 n hn (List.cons.inj h).1
    · have hnil := (List.append_inj' (show [] ++ [Nat.digitChar m] = _ from h) rfl).1
      exact absurd hnil.symm Nat.toDigits_ne_nil
    · have hnil := (List.append_inj' (show _ = [] ++ [Nat.digitChar n] from h) rfl).1
      exact absurd hnil Nat.toDigits_ne_nil
    · obtain ⟨hfront, hback⟩ := List.append_inj' h rfl
      have hdiv := ih (m / 16) (by omega) hfront
      have hmod := (digitChar_spec (m % 16) (by omega)).2 (n % 16) (by omega) (List.cons.inj hback).1
      omega

/-- What stands behind the last dash. -/
theorem eq_of_append_dash {front front' back back' : RunName} (hback : '-' ∉ back)
    (hback' : '-' ∉ back') (h : front ++ '-' :: back = front' ++ '-' :: back') : back = back' := by
  rcases List.append_eq_append_iff.1 h with ⟨extra, -, hextra⟩ | ⟨extra, -, hextra⟩
  · cases extra with
    | nil => exact (List.cons.inj hextra).2
    | cons x extra =>
      refine absurd ?_ hback
      rw [(List.cons.inj hextra).2]
      exact List.mem_append_right _ List.mem_cons_self
  · cases extra with
    | nil => exact (List.cons.inj hextra).2.symm
    | cons x extra =>
      refine absurd ?_ hback'
      rw [(List.cons.inj hextra).2]
      exact List.mem_append_right _ List.mem_cons_self

/-- No name is given twice. -/
theorem runName_serial {w : World} {start start' : RunName} {m n : Nat}
    (h : runName w start m = runName w start' n) : m = n :=
  hexText_injective (eq_of_append_dash (dash_notMem_hexText m) (dash_notMem_hexText n) h)

def historyStart : RunName := ['h', 'i', 's', 't', 'o', 'r', 'y']

def liveStart : RunName := ['l', 'i', 'v', 'e']

/-! ## The store -/

structure Manifest where
  revision : Nat
  taskRevision : Nat
  runs : List Run
  live : Option Run

/-- The store, with the files of its history and the manifest that is on disk. -/
structure Store where
  files : RunName → RunFiles
  published : Manifest
  manifest : Manifest
  current : Option RunName
  obsolete : List RunName
  live : Option Live
  expiredLive : List String
  nextRun : Nat

/-- `Store::rebuild`: nothing is on disk. -/
def rebuilt (nextRun : Nat) : Store where
  files _ := .empty
  published := ⟨0, 0, [], none⟩
  manifest := ⟨0, 0, [], none⟩
  current := none
  obsolete := []
  live := none
  expiredLive := []
  nextRun := nextRun

namespace Store

variable {V : Type} (c : Codec V) (w : World)

/-! ## The history -/

def needsRun (runs : List Run) (ts : Int) : Bool :=
  runs.getLast?.all fun r => ts < r.last || ts / dayUs != r.last / dayUs

def startRun (s : Store) : Store :=
  let run : Run := ⟨runName w historyStart s.nextRun, 0, 0, 0, 0, false⟩
  { s with
    current := some run.name
    manifest := { s.manifest with runs := s.manifest.runs ++ [run] }
    nextRun := s.nextRun + 1 }

/-- The record goes into the current files, and the last run of the manifest counts it. -/
def writeCurrent (s : Store) (value : V) (ts : Int) : Option Store :=
  match s.current, s.manifest.runs.getLast? with
  | some name, some run =>
    let out := writeRecord c (s.files name) run value ts
    some { s with
      files := Function.update s.files name out.1
      manifest := { s.manifest with runs := s.manifest.runs.dropLast ++ [out.2.1] } }
  | _, _ => none

def append (s : Store) (value : V) (ts : Int) : Option Store :=
  let s : Store :=
    if kind c value ≠ 0 then
      { s with manifest := { s.manifest with taskRevision := s.manifest.taskRevision + 1 } }
    else s
  let s := if needsRun s.manifest.runs ts then s.startRun w else s
  s.writeCurrent c value ts

/-! ## The live run -/

/-- `repack_live` -/
def repackLive (s : Store) (live : Live) : Option Store :=
  (live.repack (runName w liveStart s.nextRun)).map fun new =>
    { s with
      nextRun := s.nextRun + 1
      obsolete := s.obsolete ++ [live.run.name]
      live := some new }

def finishLive (s : Store) : Option Store :=
  match s.live with
  | none => some s
  | some live =>
    if live.rows.entries.isEmpty then
      some { s with
        live := none
        obsolete := s.obsolete ++ [live.run.name]
        manifest := { s.manifest with live := none } }
    else do
      let first ← live.time.entries.head?
      let last ← live.time.entries.getLast?
      let live := live.timed (ofLex first.1).1 (ofLex last.1).1
      let s : Store := { s with live := some live }
      let s ← if live.wasteful then s.repackLive w live else some s
      some { s with manifest := { s.manifest with live := s.live.map Live.run } }

def resetLive (s : Store) : Store :=
  { s with
    live := none
    obsolete := s.obsolete ++ (s.manifest.live.map Run.name).toList
    manifest := { s.manifest with live := none } }

/-- The live run that a row goes to. -/
def openLive (s : Store) : Live × Nat :=
  match s.live with
  | some live => (live, s.nextRun)
  | none => (newLive (runName w liveStart s.nextRun), s.nextRun + 1)

def removeRow (s : Store) (id : String) : Option Store :=
  match s.live with
  | none => some s
  | some live => (live.remove id).map fun live => { s with live := some live }

/-- One turn of the loop of `update_live`. -/
def updateRow (cutoff : Int) (s : Store) (row : String × Option (Int × V)) : Option Store := do
  let reported : List String := if row.2.any (·.1 ≤ cutoff) then [row.1] else []
  let s ← removeRow { s with expiredLive := s.expiredLive ++ reported } row.1
  match row.2.filter (cutoff < ·.1) with
  | none => some s
  | some r => ((s.openLive w).1.put c row.1 r.2 r.1).map fun live =>
      { s with live := some live, nextRun := (s.openLive w).2 }

/-- `update_live` up to its end. -/
def updateRows (s : Store) (rows : List (String × Option (Int × V))) (reset : Bool) (cutoff : Int) :
    Option Store :=
  let s := if reset then s.resetLive else s
  let s : Store := { s with live := s.live.map (·.setRevision 0) }
  (rows.foldlM (updateRow c w cutoff) s).map fun s =>
    { s with manifest := { s.manifest with taskRevision := s.manifest.taskRevision + 1 } }

def updateLive (s : Store) (rows : List (String × Option (Int × V))) (reset : Bool) (cutoff : Int) :
    Option Store :=
  if rows.isEmpty && !reset then some s
  else (s.updateRows c w rows reset cutoff).bind (finishLive w)

/-! ## Expiry -/

/-- The loop of `expire` over the live rows; every turn removes one. -/
def expireRows (cutoff : Int) : Nat → Live → List String → Option (Live × List String)
  | 0, _, _ => none
  | n + 1, live, expired =>
    match live.time.entries.head? with
    | none => some (live, expired)
    | some item =>
      if cutoff < (ofLex item.1).1 then some (live, expired)
      else
        let live := if expired.isEmpty then live.setRevision 0 else live
        (live.remove item.2).bind fun live => expireRows cutoff n live (expired ++ [item.2])

def expireLive (s : Store) (cutoff : Int) : Option Store :=
  match s.live with
  | none => some s
  | some live =>
    (expireRows cutoff (live.time.entries.length + 1) live []).map fun out =>
      { s with
        live := some out.1
        expiredLive := s.expiredLive ++ out.2
        manifest :=
          if out.2.isEmpty then s.manifest
          else { s.manifest with taskRevision := s.manifest.taskRevision + 1 } }

def sweep (s : Store) (cutoff : Int) : Option Sweep :=
  s.manifest.runs.foldlM (expireRun cutoff)
    ⟨none, [], s.manifest.taskRevision, s.current, s.obsolete, s.files⟩

/-- The runs that the loop retained; without current files the last one of them is opened. -/
def swept (s : Store) (out : Sweep) : Store :=
  { s with
    files := out.files
    obsolete := out.obsolete
    manifest := { s.manifest with runs := out.retained, taskRevision := out.taskRevision }
    current := out.current.or (out.retained.getLast?.map Run.name) }

/-- `expire` up to `finish_live`, with the smallest time of the history. -/
def expireAll (s : Store) (cutoff : Int) : Option (Option Int × Store) := do
  let out ← s.sweep cutoff
  let s ← (s.swept out).expireLive cutoff
  some (out.next, s)

def expire (s : Store) (cutoff : Int) : Option (Option Int × Store) := do
  let out ← s.expireAll cutoff
  let s ← out.2.finishLive w
  match s.live with
  | none => some (out.1, s)
  | some live => some (minNext out.1 live.run.first, s)

/-! ## Publishing and opening -/

def publish (s : Store) : Store :=
  let manifest := { s.manifest with revision := (s.manifest.revision + 1) % 2 ^ 64 }
  { s with
    manifest := manifest
    live := s.live.map (·.setRevision manifest.taskRevision)
    published := manifest
    files := fun name => if name ∈ s.obsolete then .empty else s.files name
    obsolete := [] }

/-- `set_len` -/
def setLen {α : Type} (zero : α) (n : Nat) (l : List α) : List α :=
  l.take n ++ List.replicate (n - l.length) zero

/-- What `open` does to the files of the last run. -/
def cutFiles (f : RunFiles) (run : Run) : Option RunFiles :=
  if 0 < run.count then do
    let last ← f.index[run.count - 1]?
    let length ← recordSize f.data last
    some ⟨setLen 0 (last.offset + length) f.data, setLen Entry.zero run.count f.index⟩
  else some ⟨f.data, setLen Entry.zero run.count f.index⟩

/-- `Store::open` on what the last publication left: files that the manifest does not name go. -/
def reopen (s : Store) : Option Store :=
  let named := s.published.runs.map Run.name ++ (s.published.live.map Run.name).toList
  let s : Store :=
    { s with
      files := fun name => if name ∈ named then s.files name else .empty
      manifest := s.published
      current := none
      obsolete := []
      live := none
      expiredLive := [] }
  match s.manifest.runs.getLast? with
  | none => some s
  | some run => (cutFiles (s.files run.name) run).map fun f =>
      { s with files := Function.update s.files run.name f, current := some run.name }

end Store

/-! ## What is shown -/

/-- What the store is for: the records of the runs of the history, and a row for each identity. -/
structure Shown (V : Type) where
  history : List (List (Int × V))
  live : Rows V

namespace Shown

variable {V : Type}

def nothing : Shown V := ⟨[], fun _ => none⟩

/-- A run ends when the clock goes back and at the end of a day. -/
def endsRun (records : List (Int × V)) (ts : Int) : Bool :=
  records.getLast?.all fun r => ts < r.1 || ts / dayUs != r.1 / dayUs

def append (a : Shown V) (value : V) (ts : Int) : Shown V :=
  { a with
    history :=
      match a.history.getLast? with
      | none => [[(ts, value)]]
      | some records =>
        if endsRun records ts then a.history ++ [[(ts, value)]]
        else a.history.dropLast ++ [records ++ [(ts, value)]] }

def updateRow (cutoff : Int) (rows : Rows V) (row : String × Option (Int × V)) : Rows V :=
  Function.update rows row.1 (row.2.filter (cutoff < ·.1))

def update (a : Shown V) (rows : List (String × Option (Int × V))) (reset : Bool) (cutoff : Int) :
    Shown V :=
  { a with live := rows.foldl (updateRow cutoff) (if reset then fun _ => none else a.live) }

/-- Everything that is not newer goes. -/
def expire (a : Shown V) (cutoff : Int) : Shown V where
  history := newerRecords cutoff a.history
  live id := (a.live id).filter (cutoff < ·.1)

/-- The times of all records and rows. -/
def times (a : Shown V) : Set Int :=
  { t | (∃ records ∈ a.history, ∃ r ∈ records, r.1 = t) ∨ ∃ id r, a.live id = some r ∧ r.1 = t }

end Shown

/-! ## Calls -/

inductive Call (V : Type)
  | append (value : V) (ts : Int)
  | updateLive (rows : List (String × Option (Int × V))) (reset : Bool) (cutoff : Int)
  | expire (cutoff : Int)
  | publish

variable {V : Type} (c : Codec V) (w : World)

def Store.call (s : Store) : Call V → Option Store
  | .append value ts => s.append c w value ts
  | .updateLive rows reset cutoff => s.updateLive c w rows reset cutoff
  | .expire cutoff => (s.expire w cutoff).map Prod.snd
  | .publish => some s.publish

/-- The calls on one store, which is published and opened again at the end. -/
def Store.session (s : Store) (calls : List (Call V)) : Option Store :=
  (calls.foldlM (Store.call c w) s).bind fun s => s.publish.reopen

/-- Sessions from the rebuilt store on, and the calls of one that has not ended. -/
def Store.run (nextRun : Nat) (sessions : List (List (Call V))) (calls : List (Call V)) :
    Option Store :=
  (sessions.foldlM (Store.session c w) (rebuilt nextRun)).bind fun s =>
    calls.foldlM (Store.call c w) s

namespace Shown

def call (a : Shown V) : Call V → Shown V
  | .append value ts => a.append value ts
  | .updateLive rows reset cutoff => a.update rows reset cutoff
  | .expire cutoff => a.expire cutoff
  | .publish => a

/-- The rows live in the open store only. -/
def session (a : Shown V) (calls : List (Call V)) : Shown V :=
  { calls.foldl call a with live := fun _ => none }

def run (sessions : List (List (Call V))) (calls : List (Call V)) : Shown V :=
  calls.foldl call (sessions.foldl session nothing)

end Shown

end Sunpack.DisplayStore
