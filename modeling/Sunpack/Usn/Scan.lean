import Sunpack.Usn.Record

/-!
# Pages of changes

`scan_directories_page` of `journal.rs`: one call collects the changes of as many whole records as fit
into a page. The device is a function that may answer each read differently. A reader follows the pages
from their first to their last position.
-/

namespace Sunpack.Usn

open Lib

def journalBufferBytes : Nat := 64 * 1024

def recoveryPageBytes : Nat := 64 * 1024

/-- The set of the source is ordered; which order that is does not matter here. -/
structure DirectoryChangesPage where
  changes : Finset Change
  nextUsn : Int

/-- What a page has collected. -/
structure Collected where
  payloadBytes : Nat
  changed : Finset Change

/-! ## One reply -/

/-- A reply is left at its end, with all records taken, or early with a full page. -/
inductive ReplyEnd
  | all (collected : Collected)
  | page (page : DirectoryChangesPage)

def addedBytes (changed : Finset Change) (changes : List Change) : Nat :=
  ((changes.filter fun change => change ∉ changed).map changeSize).sum

def takeRecord (startUsn : Int) (record rest : Bytes) (collected : Collected)
    (changes : List Change) : (Bytes × Collected) ⊕ Except IoError ReplyEnd :=
  let added := addedBytes collected.changed changes
  if recoveryPageBytes < added then .inr (.error (invalid "USN name exceeds response frame"))
  else if recoveryPageBytes < collected.payloadBytes + added then
    if usnOf record ≤ startUsn then .inr (.error (invalid "non-progressing USN page"))
    else .inr (.ok (.page ⟨collected.changed, usnOf record⟩))
  else .inl (rest, ⟨collected.payloadBytes + added, collected.changed ∪ changes.toFinset⟩)

def readRecord (startUsn : Int) (record rest : Bytes) (collected : Collected) :
    Except IoError (List Change) → (Bytes × Collected) ⊕ Except IoError ReplyEnd
  | .error e => .inr (.error e)
  | .ok changes => takeRecord startUsn record rest collected changes

/-- One record of a reply; the state has the bytes of the reply that are left. -/
def recordBody (directories : List Bytes) (startUsn cursor endUsn : Int) (t : Bytes × Collected) :
    Option ((Bytes × Collected) ⊕ Except IoError ReplyEnd) :=
  if t.1 = [] then some (.inr (.ok (.all t.2)))
  else if t.1.length < 8 then some (.inr (.error (invalid "truncated USN journal record")))
  else
    let length := field t.1 0 4
    if length < 8 ∨ t.1.length < length then
      some (.inr (.error (invalid "invalid USN journal record")))
    else
      some (readRecord startUsn (t.1.take length) (t.1.drop length) t.2
        (recordDirectoryChanges (t.1.take length) directories cursor endUsn))

def scanReply (directories : List Bytes) (startUsn cursor endUsn : Int) (reply : Bytes)
    (collected : Collected) : Option (Except IoError ReplyEnd) :=
  loop (recordBody directories startUsn cursor endUsn) (reply.length + 1) (reply, collected)

/-! ## One page -/

/-- The device answers a read by its number, over all pages. -/
abbrev Device := Nat → Int → Except IoError Bytes

structure PageState where
  cursor : Int
  reads : Nat
  collected : Collected

/-- The result of a page, and the number of reads so far. -/
abbrev PageResult := Except IoError DirectoryChangesPage × Nat

def advance (s : PageState) (returnedNext : Int) :
    Except IoError ReplyEnd → PageState ⊕ PageResult
  | .error e => .inr (.error e, s.reads + 1)
  | .ok (.page page) => .inr (.ok page, s.reads + 1)
  | .ok (.all collected) =>
    if returnedNext ≤ s.cursor then
      .inr (.error (other "USN recovery made no progress; fallback scan required"), s.reads + 1)
    else .inl ⟨returnedNext, s.reads + 1, collected⟩

def takeReply (directories : List Bytes) (startUsn endUsn : Int) (s : PageState) :
    Except IoError Bytes → Option (PageState ⊕ PageResult)
  | .error e => some (.inr (.error e, s.reads + 1))
  | .ok reply =>
    if reply.length < 8 ∨ journalBufferBytes < reply.length then
      some (.inr (.error (invalid "truncated USN journal reply"), s.reads + 1))
    else do
      let result ← scanReply directories startUsn s.cursor endUsn (reply.drop 8) s.collected
      some (advance s (usnAt reply 0) result)

def pageBody (read : Device) (directories : List Bytes) (startUsn endUsn : Int) (s : PageState) :
    Option (PageState ⊕ PageResult) :=
  if endUsn ≤ s.cursor then some (.inr (.ok ⟨s.collected.changed, endUsn⟩, s.reads))
  else takeReply directories startUsn endUsn s (read s.reads s.cursor)

def scanDirectoriesPage (read : Device) (directories : List Bytes) (startUsn endUsn : Int)
    (reads : Nat) : Option PageResult :=
  loop (pageBody read directories startUsn endUsn) ((endUsn - startUsn).toNat + 1)
    ⟨startUsn, reads, ⟨0, ∅⟩⟩

/-! ## All pages -/

structure ReaderState where
  cursor : Int
  reads : Nat
  pages : List DirectoryChangesPage

def follow (s : ReaderState) (reads : Nat) : Except IoError DirectoryChangesPage →
    ReaderState ⊕ Except IoError (List DirectoryChangesPage)
  | .error e => .inr (.error e)
  | .ok page => .inl ⟨page.nextUsn, reads, s.pages ++ [page]⟩

def readerBody (read : Device) (directories : List Bytes) (endUsn : Int) (s : ReaderState) :
    Option (ReaderState ⊕ Except IoError (List DirectoryChangesPage)) :=
  if endUsn ≤ s.cursor then some (.inr (.ok s.pages))
  else do
    let result ← scanDirectoriesPage read directories s.cursor endUsn s.reads
    some (follow s result.2 result.1)

/-- Pages from a position on, each from where the page before it ended. -/
def readPages (read : Device) (directories : List Bytes) (startUsn endUsn : Int) :
    Option (Except IoError (List DirectoryChangesPage)) :=
  loop (readerBody read directories endUsn) ((endUsn - startUsn).toNat + 1) ⟨startUsn, 0, []⟩

end Sunpack.Usn
