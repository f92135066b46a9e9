import Sunpack.Lz4.Header

/-!
# The walk of `formats/lz4.rs`

`walk_inner` as steps on its variables, in the order of the source. Both loops are total: a turn that
goes on has moved the cursor ahead inside of the limit.
-/

namespace Sunpack.Lz4

open Lib

structure Index where
  start : Nat
  end_ : Nat
  frames : Nat
  skips : Nat
  contentChecksums : Nat
  blockChecksums : Nat
  blocks : Nat
  decodedSize : Option Nat
  complete : Bool
  error : String
  deriving DecidableEq

/-- `Index::default()` but for the places and the decoded size. -/
def Index.at (offset : Nat) : Index where
  start := offset
  end_ := offset
  frames := 0
  skips := 0
  contentChecksums := 0
  blockChecksums := 0
  blocks := 0
  decodedSize := some 0
  complete := false
  error := ""

/-! ## Steps -/

/-- The variables of `walk_inner`. -/
structure Walk where
  input : StructureReader
  index : Index
  cursor : Nat

def Step (α : Type) := Walk → Except WalkError α × Walk

instance : Monad Step where
  pure a := fun s => (.ok a, s)
  bind x f := fun s =>
    match x s with
    | (.ok a, s') => f a s'
    | (.error e, s') => (.error e, s')

namespace Step

variable {α β : Type} {x : Step α} {f : α → Step β} {s s' : Walk}

theorem bind_ok {a : α} (h : x s = (.ok a, s')) : (x >>= f) s = f a s' := by
  show (match x s with
    | (.ok a, s') => f a s'
    | (.error e, s') => (.error e, s')) = _
  rw [h]

theorem bind_error {e : WalkError} (h : x s = (.error e, s')) : (x >>= f) s = (.error e, s') := by
  show (match x s with
    | (.ok a, s') => f a s'
    | (.error e, s') => (.error e, s')) = _
  rw [h]

theorem of_bind {b : β} (h : (x >>= f) s = (.ok b, s')) :
    ∃ a s₁, x s = (.ok a, s₁) ∧ f a s₁ = (.ok b, s') := by
  replace h : (match x s with
    | (.ok a, s') => f a s'
    | (.error e, s') => (.error e, s')) = (.ok b, s') := h
  cases hx : x s with
  | mk result s₁ =>
    rw [hx] at h
    cases result with
    | error e => cases h
    | ok a => exact ⟨a, s₁, rfl, h⟩

end Step

def fail {α : Type} (e : WalkError) : Step α := fun s => (.error e, s)

def current : Step Walk := fun s => (.ok s, s)

def updateIndex (f : Index → Index) : Step Unit := fun s => (.ok (), { s with index := f s.index })

def lift {α : Type} (result : Except WalkError α) : Step α := fun s => (result, s)

/-- The field at the cursor. -/
def fieldAt (n : Nat) : Step (List UInt8) := fun s =>
  ((s.input.field s.cursor n).1, { s with input := (s.input.field s.cursor n).2 })

/-- The word so many bytes behind the cursor. -/
def wordAt (ahead : Nat) : Step Nat := fun s =>
  ((s.input.field (s.cursor + ahead) 4).1.map ofLeBytes,
    { s with input := (s.input.field (s.cursor + ahead) 4).2 })

def advance (n : Nat) : Step Unit := fun s =>
  if 2 ^ 64 ≤ s.cursor + n then (.error .sizeOverflow, s)
  else if s.input.limit < s.cursor + n then
    (.error .streamTruncated, { s with cursor := s.cursor + n })
  else (.ok (), { s with cursor := s.cursor + n })

/-! ## The turns -/

/-- One block; the end mark ends the loop. -/
def block (header : Header) : Step Bool := do
  let value ← wordAt 0
  advance 4
  if value = 0 then pure false
  else
    let size := value &&& 0x7fffffff
    if header.blockMax < size ∨ (size = 0 ∧ value &&& 0x80000000 = 0) then fail .blockSizeInvalid
    else do
      advance (size + if header.blockChecksum then 4 else 0)
      updateIndex fun index => { index with blocks := index.blocks + 1 }
      pure true

/-- The limit stays and the cursor does not go back. -/
def Walk.Le (s s' : Walk) : Prop := s'.input.limit = s.input.limit ∧ s.cursor ≤ s'.cursor

theorem Walk.Le.trans {s s' s'' : Walk} (h : s.Le s') (h' : s'.Le s'') : s.Le s'' :=
  ⟨h'.1.trans h.1, h.2.trans h'.2⟩

theorem Walk.Le.of_wordAt {s s' : Walk} {ahead value : Nat} (h : wordAt ahead s = (.ok value, s')) :
    s.Le s' := by
  obtain ⟨-, rfl⟩ := Prod.mk.inj h
  exact ⟨s.input.field_limit _ _, le_rfl⟩

theorem Walk.Le.of_fieldAt {s s' : Walk} {n : Nat} {bytes : List UInt8}
    (h : fieldAt n s = (.ok bytes, s')) : s.Le s' := by
  obtain ⟨-, rfl⟩ := Prod.mk.inj h
  exact ⟨s.input.field_limit _ _, le_rfl⟩

theorem advance_ok {s s' : Walk} {n : Nat} {u : Unit} (h : advance n s = (.ok u, s')) :
    s' = { s with cursor := s.cursor + n } ∧ s.cursor + n ≤ s.input.limit := by
  unfold advance at h
  by_cases hoverflow : 2 ^ 64 ≤ s.cursor + n
  · rw [if_pos hoverflow] at h
    cases h
  by_cases hlimit : s.input.limit < s.cursor + n
  · rw [if_neg hoverflow, if_pos hlimit] at h
    cases h
  rw [if_neg hoverflow, if_neg hlimit] at h
  obtain ⟨-, rfl⟩ := Prod.mk.inj h
  exact ⟨rfl, not_lt.1 hlimit⟩

theorem Walk.Le.of_advance {s s' : Walk} {n : Nat} {u : Unit} (h : advance n s = (.ok u, s')) :
    s.Le s' := by
  obtain ⟨rfl, -⟩ := advance_ok h
  exact ⟨rfl, Nat.le_add_right _ _⟩

/-- A turn that reads a word and steps over it has left less to read. -/
theorem Walk.Le.lt {s s' : Walk} (h : s.Le s') (hcursor : s.cursor < s'.cursor)
    (hlimit : s.cursor < s.input.limit) : s'.input.limit - s'.cursor < s.input.limit - s.cursor := by
  obtain ⟨hsame, -⟩ := h
  omega

theorem block_le {header : Header} {s s' : Walk} {next : Bool} (h : block header s = (.ok next, s')) :
    s.Le s' ∧ s.cursor < s'.cursor ∧ s.cursor < s.input.limit := by
  obtain ⟨value, s₁, hword, h⟩ := Step.of_bind h
  obtain ⟨_, s₂, hadvance, h⟩ := Step.of_bind h
  have hread := Walk.Le.of_wordAt hword
  obtain ⟨rfl, hroom⟩ := advance_ok hadvance
  obtain ⟨hlimit, hcursor⟩ := hread
  have hstep : s.Le { s₁ with cursor := s₁.cursor + 4 } := ⟨hlimit, by show _ ≤ s₁.cursor + 4; omega⟩
  have hmoved : s.cursor < s₁.cursor + 4 := by omega
  by_cases hend : value = 0
  · rw [if_pos hend] at h
    obtain ⟨-, rfl⟩ := Prod.mk.inj h
    exact ⟨hstep, hmoved, by omega⟩
  · rw [if_neg hend] at h
    split_ifs at h with hsize
    · cases h
    all_goals
      obtain ⟨_, s₃, hpayload, h⟩ := Step.of_bind h
      obtain ⟨_, s₄, hcount, h⟩ := Step.of_bind h
      obtain ⟨-, rfl⟩ := Prod.mk.inj hcount
      obtain ⟨-, rfl⟩ := Prod.mk.inj h
      have hbehind := Walk.Le.of_advance hpayload
      exact ⟨hstep.trans hbehind, hmoved.trans_le hbehind.2, by omega⟩

/-- The blocks up to the end mark. -/
def blocks (header : Header) (s : Walk) : Except WalkError Unit × Walk :=
  match _h : block header s with
  | (.error e, s') => (.error e, s')
  | (.ok false, s') => (.ok (), s')
  | (.ok true, s') => blocks header s'
termination_by s.input.limit - s.cursor
decreasing_by
  obtain ⟨hle, hcursor, hlimit⟩ := block_le ‹block header s = _›
  exact hle.lt hcursor hlimit

theorem blocks_next {header : Header} {s s' : Walk} (h : block header s = (.ok true, s')) :
    blocks header s = blocks header s' := by
  rw [blocks.eq_def header s]
  split <;> simp_all

theorem blocks_end {header : Header} {s s' : Walk} (h : block header s = (.ok false, s')) :
    blocks header s = (.ok (), s') := by
  rw [blocks.eq_def header s]
  split <;> simp_all

theorem blocks_le {header : Header} {s s' : Walk} (h : blocks header s = (.ok (), s')) : s.Le s' := by
  fun_induction blocks header s with
  | case1 s e s₁ hblock => cases h
  | case2 s s₁ hblock =>
    obtain ⟨-, rfl⟩ := Prod.mk.inj h
    exact (block_le hblock).1
  | case3 s s₁ hblock ih => exact (block_le hblock).1.trans (ih h)

/-- A cut-off magic number. -/
def truncatedMagic (tail : List UInt8) : Bool :=
  tail.isPrefixOf MAGIC ||
    (tail.head?.any fun b => 0x50 ≤ b && b ≤ 0x5f) && tail.tail.isPrefixOf [0x2a, 0x4d, 0x18]

def skippable (magic : Nat) : Bool := magic &&& 0xfffffff0 == 0x184d2a50

/-- Behind the last frame other bytes may follow, in front of the first none. -/
def noFrame (index : Index) : Step Bool :=
  if 0 < index.frames then pure false else fail .magicNotFound

def tail (rest : Nat) (index : Index) : Step Bool := do
  let bytes ← fieldAt rest
  if truncatedMagic bytes then fail .streamTruncated else noFrame index

def skippableFrame : Step Bool := do
  let size ← wordAt 4
  advance (8 + size)
  let s ← current
  updateIndex fun index => { index with skips := index.skips + 1, end_ := s.cursor }
  pure true

/-- `index.decoded_size` behind a frame. -/
def decodedSizes : Option Nat → Option Nat → Except WalkError (Option Nat)
  | some a, some b => if 2 ^ 64 ≤ a + b then .error .sizeOverflow else .ok (some (a + b))
  | _, _ => .ok none

def contentChecksum (header : Header) : Step Unit :=
  if header.contentChecksum then do
    advance 4
    updateIndex fun index => { index with contentChecksums := index.contentChecksums + 1 }
  else pure ()

def blockChecksum (header : Header) : Step Unit :=
  if header.blockChecksum then
    updateIndex fun index => { index with blockChecksums := index.blockChecksums + 1 }
  else pure ()

def countFrame (header : Header) : Step Bool := do
  let s ← current
  let decodedSize ← lift (decodedSizes s.index.decodedSize header.contentSize)
  updateIndex fun index =>
    { index with
      decodedSize
      frames := index.frames + 1
      end_ := s.cursor }
  pure true

def frame (xxh32 : Xxh32) (rest : Nat) : Step Bool := do
  let bytes ← fieldAt (min rest 19)
  let header ← lift (parseHeader xxh32 bytes)
  advance header.len
  blocks header
  contentChecksum header
  blockChecksum header
  countFrame header

/-- One turn of the loop of `walk_inner`; `false` is its `return Ok(())`. -/
def turn (xxh32 : Xxh32) : Step Bool := do
  let s ← current
  if s.cursor = s.input.limit then do
    updateIndex fun index => { index with end_ := s.cursor }
    pure false
  else if s.input.limit - s.cursor < 4 then tail (s.input.limit - s.cursor) s.index
  else do
    let magic ← wordAt 0
    if skippable magic then skippableFrame
    else if magic = 0x184d2204 then frame xxh32 (s.input.limit - s.cursor)
    else noFrame s.index

theorem contentChecksum_le {header : Header} {s s' : Walk} {u : Unit}
    (h : contentChecksum header s = (.ok u, s')) : s.Le s' := by
  unfold contentChecksum at h
  split_ifs at h
  · obtain ⟨_, s₁, hadvance, h⟩ := Step.of_bind h
    obtain ⟨-, rfl⟩ := Prod.mk.inj h
    obtain ⟨hlimit, hcursor⟩ := Walk.Le.of_advance hadvance
    exact ⟨hlimit, hcursor⟩
  · obtain ⟨-, rfl⟩ := Prod.mk.inj h
    exact ⟨rfl, le_rfl⟩

theorem blockChecksum_le {header : Header} {s s' : Walk} {u : Unit}
    (h : blockChecksum header s = (.ok u, s')) : s.Le s' := by
  unfold blockChecksum at h
  split_ifs at h <;>
  · obtain ⟨-, rfl⟩ := Prod.mk.inj h
    exact ⟨rfl, le_rfl⟩

theorem skippableFrame_le {s s' : Walk} {next : Bool} (h : skippableFrame s = (.ok next, s')) :
    s.Le s' ∧ s.cursor < s'.cursor := by
  obtain ⟨size, s₁, hword, h⟩ := Step.of_bind h
  obtain ⟨_, s₂, hadvance, h⟩ := Step.of_bind h
  obtain ⟨_, s₃, hcurrent, h⟩ := Step.of_bind h
  obtain ⟨_, s₄, hcount, h⟩ := Step.of_bind h
  have hread := Walk.Le.of_wordAt hword
  obtain ⟨rfl, -⟩ := advance_ok hadvance
  obtain ⟨-, rfl⟩ := Prod.mk.inj hcurrent
  obtain ⟨-, rfl⟩ := Prod.mk.inj hcount
  obtain ⟨-, rfl⟩ := Prod.mk.inj h
  obtain ⟨hlimit, hcursor⟩ := hread
  refine ⟨⟨hlimit, ?_⟩, ?_⟩
  · show _ ≤ s₁.cursor + (8 + size)
    omega
  · show _ < s₁.cursor + (8 + size)
    omega

theorem countFrame_le {header : Header} {s s' : Walk} {next : Bool}
    (h : countFrame header s = (.ok next, s')) : next = true ∧ s.Le s' := by
  obtain ⟨_, s₁, hcurrent, h⟩ := Step.of_bind h
  obtain ⟨size, s₂, hsize, h⟩ := Step.of_bind h
  obtain ⟨_, s₃, hcount, h⟩ := Step.of_bind h
  obtain ⟨-, rfl⟩ := Prod.mk.inj hcurrent
  obtain ⟨-, rfl⟩ := Prod.mk.inj hsize
  obtain ⟨-, rfl⟩ := Prod.mk.inj hcount
  obtain ⟨hnext, rfl⟩ := Prod.mk.inj h
  exact ⟨(Except.ok.inj hnext).symm, rfl, le_rfl⟩

theorem frame_le {xxh32 : Xxh32} {rest : Nat} {s s' : Walk} {next : Bool}
    (h : frame xxh32 rest s = (.ok next, s')) : s.Le s' ∧ s.cursor < s'.cursor := by
  obtain ⟨bytes, s₁, hfield, h⟩ := Step.of_bind h
  obtain ⟨header, s₂, hheader, h⟩ := Step.of_bind h
  obtain ⟨_, s₃, hadvance, h⟩ := Step.of_bind h
  obtain ⟨_, s₄, hblocks, h⟩ := Step.of_bind h
  obtain ⟨_, s₅, hcontent, h⟩ := Step.of_bind h
  obtain ⟨_, s₆, hblock, hcounted⟩ := Step.of_bind h
  have hread := Walk.Le.of_fieldAt hfield
  obtain ⟨hparsed, rfl⟩ := Prod.mk.inj hheader
  obtain ⟨d, -, -, rfl⟩ := exists_descriptor hparsed
  have hadvanced := Walk.Le.of_advance hadvance
  obtain ⟨rfl, -⟩ := advance_ok hadvance
  have hbehind := (blocks_le hblocks).trans ((contentChecksum_le hcontent).trans
    ((blockChecksum_le hblock).trans (countFrame_le hcounted).2))
  refine ⟨hread.trans (hadvanced.trans hbehind), hread.2.trans_lt (Nat.lt_of_lt_of_le ?_ hbehind.2)⟩
  show s₁.cursor < s₁.cursor + (7 + _ + _)
  omega

theorem noFrame_next {index : Index} {s s' : Walk} : noFrame index s ≠ (.ok true, s') := by
  unfold noFrame
  intro h
  split_ifs at h <;> cases h

theorem tail_next {rest : Nat} {index : Index} {s s' : Walk} :
    tail rest index s ≠ (.ok true, s') := by
  intro h
  obtain ⟨bytes, s₁, -, h⟩ := Step.of_bind h
  split_ifs at h
  · cases h
  · exact noFrame_next h

/-- A turn that goes on has moved the cursor. -/
theorem turn_le {xxh32 : Xxh32} {s s' : Walk} (h : turn xxh32 s = (.ok true, s')) :
    s.Le s' ∧ s.cursor < s'.cursor ∧ s.cursor < s.input.limit := by
  obtain ⟨s₀, _, hcurrent, h⟩ := Step.of_bind h
  obtain ⟨hsame, rfl⟩ := Prod.mk.inj hcurrent
  obtain rfl := Except.ok.inj hsame
  by_cases hlimit : s.cursor = s.input.limit
  · rw [if_pos hlimit] at h
    cases h
  rw [if_neg hlimit] at h
  by_cases hfour : s.input.limit - s.cursor < 4
  · rw [if_pos hfour] at h
    exact absurd h tail_next
  rw [if_neg hfour] at h
  obtain ⟨magic, s₁, hword, h⟩ := Step.of_bind h
  have hread := Walk.Le.of_wordAt hword
  suffices hmoved : s₁.Le s' ∧ s₁.cursor < s'.cursor from
    ⟨hread.trans hmoved.1, hread.2.trans_lt hmoved.2, by omega⟩
  split_ifs at h
  · exact skippableFrame_le h
  · exact frame_le h
  · exact absurd h noFrame_next

def walkInner (xxh32 : Xxh32) (s : Walk) : Except WalkError Unit × Walk :=
  match _h : turn xxh32 s with
  | (.error e, s') => (.error e, s')
  | (.ok false, s') => (.ok (), s')
  | (.ok true, s') => walkInner xxh32 s'
termination_by s.input.limit - s.cursor
decreasing_by
  obtain ⟨hle, hcursor, hlimit⟩ := turn_le ‹turn xxh32 s = _›
  exact hle.lt hcursor hlimit

theorem walkInner_next {xxh32 : Xxh32} {s s' : Walk} (h : turn xxh32 s = (.ok true, s')) :
    walkInner xxh32 s = walkInner xxh32 s' := by
  rw [walkInner.eq_def xxh32 s]
  split <;> simp_all

theorem walkInner_end {xxh32 : Xxh32} {s s' : Walk} (h : turn xxh32 s = (.ok false, s')) :
    walkInner xxh32 s = (.ok (), s') := by
  rw [walkInner.eq_def xxh32 s]
  split <;> simp_all

theorem walkInner_error {xxh32 : Xxh32} {s s' : Walk} {e : WalkError}
    (h : turn xxh32 s = (.error e, s')) : walkInner xxh32 s = (.error e, s') := by
  rw [walkInner.eq_def xxh32 s]
  split <;> simp_all

/-- `index.error` and `index.complete`. -/
def finish (s : Except WalkError Unit × Walk) : Index :=
  let error := match s.1 with
    | .ok () => ""
    | .error e => e.text
  { s.2.index with
    error
    complete := error.isEmpty && 0 < s.2.index.frames }

/-- The walk with windows of at most `windowBytes`. -/
def walkWindows (windowBytes : Nat) (xxh32 : Xxh32) (reader : ManagedReader) (offset limit : Nat) :
    Index :=
  finish (walkInner xxh32 {
    input := ⟨reader, min limit reader.bytes.length, windowBytes, 0, []⟩
    index := .at offset
    cursor := offset })

def walk : Xxh32 → ManagedReader → Nat → Nat → Index := walkWindows (16 * 1024)

theorem finish_ok {s : Walk} (h : 0 < s.index.frames) :
    finish (.ok (), s) = { s.index with error := "", complete := true } := by
  have hcomplete : ("".isEmpty && decide (0 < s.index.frames)) = true := by
    rw [decide_eq_true h]
    rfl
  show { s.index with error := "", complete := "".isEmpty && decide (0 < s.index.frames) } = _
  rw [hcomplete]

theorem finish_error {s : Except WalkError Unit × Walk} {e : WalkError} (h : s.1 = .error e) :
    (finish s).complete = false := by
  unfold finish
  rw [h]
  show (e.text.isEmpty && _) = false
  rw [e.text_isEmpty, Bool.false_and]

theorem finish_complete {s : Except WalkError Unit × Walk} (h : (finish s).complete = true) :
    s.1 = .ok () ∧ 0 < s.2.index.frames := by
  refine ⟨?_, of_decide_eq_true (Bool.and_eq_true_iff.1 h).2⟩
  cases hresult : s.1 with
  | error e =>
    rw [finish_error hresult] at h
    cases h
  | ok u => rfl

end Sunpack.Lz4
