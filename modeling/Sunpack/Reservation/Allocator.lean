import Sunpack.Reservation.PathMap

/-!
# Numbered output paths

`OutputPathAllocator` of `output_paths.py`. Numbered searches are cached in `_NumberedPaths` objects,
which the allocator finds by family and, for the names it looked at, by key; the objects live in
`objects`. A search may have no end on a disk where every name is taken, so it is given `fuel`.

A path is its root and its components. What the operating system answers is a `FileSystem`, one for
each call; `Naming` is the case table and the digits of Unicode.
-/

namespace Sunpack.Reservation

open Lib

structure Path where
  /-- The drive or share, or nothing for a relative path. -/
  root : Text
  parts : List Text
deriving DecidableEq, Repr

namespace Path

def dirname (p : Path) : Path := { p with parts := p.parts.dropLast }

def basename (p : Path) : Text := p.parts.getLast?.getD []

def join (p : Path) (parts : List Text) : Path := { p with parts := p.parts ++ parts }

/-- One component of `normpath`. -/
def normPart (rooted : Bool) (parts : List Text) (part : Text) : List Text :=
  if part = [] || part = ['.'] then parts
  else if part = ['.', '.'] then
    match parts.getLast? with
    | none => if rooted then parts else parts ++ [part]
    | some last => if last = ['.', '.'] then parts ++ [part] else parts.dropLast
  else parts ++ [part]

def normpath (p : Path) : Path :=
  let rooted := p.root ≠ []
  let parts := p.parts.foldl (normPart rooted) []
  { p with parts := if parts = [] && !rooted then [['.']] else parts }

end Path

structure FileSystem where
  /-- `os.path.exists`. -/
  exists? : Path → Bool
  /-- `resolved_path_key`, of the current directory for an empty path. -/
  resolve : Path → Key
  /-- A resolved path has at least its drive. -/
  resolve_ne : ∀ p, resolve p ≠ []

structure Naming where
  caseKey : Text → Text
  /-- The value of a decimal digit. -/
  digit : Char → Option Nat
  splitext : Text → Text × Text

/-- Joining one component to a key, normalised as the maps do it. -/
def joinKey (parent : Key) (component : Text) : Key :=
  if component = [] || component = ['.'] then parent
  else if component = ['.', '.'] then
    if parent.length ≤ 1 then parent else parent.dropLast
  else parent ++ [component]

/-- `(.*)\((\d+)\)`. -/
def Naming.parseNumbered (naming : Naming) (stem : Text) : Option (Text × Nat) :=
  match stem.reverse with
  | ')' :: rest =>
    let digits := (rest.takeWhile fun c => (naming.digit c).isSome).reverse
    match rest.dropWhile fun c => (naming.digit c).isSome with
    | '(' :: base =>
      if digits = [] then none
      else some (base.reverse, digits.foldl (fun n c => 10 * n + (naming.digit c).getD 0) 0)
    | _ => none
  | _ => none

/-- A name without its number: what stands before and after it, and the first number to try. -/
structure NumberedName where
  baseStem : Text
  extension : Text
  start : Nat
deriving DecidableEq, Repr

def Naming.numberedName (naming : Naming) (name : Text) (isDirectory : Bool) : NumberedName :=
  let (stem, extension) := if isDirectory then (name, []) else naming.splitext name
  let (baseStem, start) := ((naming.parseNumbered stem).map fun p => (p.1, p.2 + 1)).getD (stem, 1)
  ⟨baseStem, extension, start⟩

/-- The alternative with a number. -/
def NumberedName.text (n : NumberedName) (index : Nat) : Text :=
  n.baseStem ++ ['('] ++ Nat.toDigits 10 index ++ [')'] ++ n.extension

/-- The parent, the name without its number in key form, and the first number. -/
abbrev Family := (Key × Text) × Nat

inductive Fault
  | keyError
  /-- The search was given too little fuel. -/
  | unfinished
deriving DecidableEq, Repr

def RELEASED_HISTORY_LIMIT : Nat := 256
def FAMILY_HISTORY_LIMIT : Nat := 256

/-! ## One family -/

structure NumberedPaths where
  nextIndex : Nat
  /-- A heap; its smallest element is the first. -/
  available : List Nat := []
  observedSlots : List Key := []

namespace NumberedPaths

def take (n : NumberedPaths) : Nat × NumberedPaths :=
  match n.available with
  | first :: rest =>
    if first < n.nextIndex then (first, { n with available := rest })
    else (n.nextIndex, { n with
      nextIndex := n.nextIndex + 1
      available := if first = n.nextIndex then rest else n.available })
  | [] => (n.nextIndex, { n with nextIndex := n.nextIndex + 1 })

def release (n : NumberedPaths) (index : Nat) : NumberedPaths :=
  if RELEASED_HISTORY_LIMIT ≤ n.available.length then
    { n with
      -- rewind the bounded search hint rather than losing reusable names
      nextIndex := min n.nextIndex (min (n.available.headD index) index)
      available := [] }
  else { n with available := n.available.orderedInsert (· ≤ ·) index }

def observe (n : NumberedPaths) (key : Key) : NumberedPaths :=
  { n with observedSlots := if key ∈ n.observedSlots then n.observedSlots
      else n.observedSlots ++ [key] }

def discard (n : NumberedPaths) (key : Key) : NumberedPaths :=
  { n with observedSlots := n.observedSlots.filter (· ≠ key) }

end NumberedPaths

/-! ## The allocator -/

structure OutputPathAllocator where
  objects : Nat → NumberedPaths := fun _ => { nextIndex := 0 }
  nextObject : Nat := 0
  /-- The least recently used family first. -/
  numbers : Dict Family Nat := ∅
  slots : Dict Key (Dict Nat Nat) := ∅

namespace OutputPathAllocator

def modify (a : OutputPathAllocator) (id : Nat) (f : NumberedPaths → NumberedPaths) :
    OutputPathAllocator :=
  { a with objects := Function.update a.objects id (f (a.objects id)) }

/-- `_slots.setdefault(key, {})[numbers] = index`. -/
def setSlot (a : OutputPathAllocator) (key : Key) (id index : Nat) : OutputPathAllocator :=
  { a with slots := a.slots.set key (((a.slots.get? key).getD ∅).set id index) }

/-- Forget what an evicted family has seen, for one key. -/
def forget (id : Nat) (a : OutputPathAllocator) (key : Key) : Except Fault OutputPathAllocator :=
  match a.slots.get? key with
  | none => .error .keyError
  | some slots =>
    match slots.get? id with
    | none => .error .keyError
    | some _ =>
      let slots := slots.erase id
      .ok { a with slots := if slots.keys.isEmpty then a.slots.erase key else a.slots.set key slots }

def evict (a : OutputPathAllocator) (id : Nat) : Except Fault OutputPathAllocator :=
  ((a.objects id).observedSlots.foldlM (forget id) a).map
    (·.modify id fun n => { n with observedSlots := [] })

/-- The numbers of a family, which becomes the most recently used one. -/
def numbersOf (a : OutputPathAllocator) (family : Family) :
    Except Fault (OutputPathAllocator × Nat) :=
  match a.numbers.get? family with
  | some id => .ok ({ a with numbers := (a.numbers.erase family).set family id }, id)
  | none =>
    let id := a.nextObject
    let a := { a.modify id fun _ => { nextIndex := family.2 } with
      nextObject := id + 1
      numbers := a.numbers.set family id }
    match a.numbers.entries with
    | oldest :: _ =>
      if FAMILY_HISTORY_LIMIT < a.numbers.entries.length then
        ({ a with numbers := a.numbers.erase oldest.1 }.evict oldest.2).map fun a => (a, id)
      else .ok (a, id)
    | [] => .ok (a, id)

/-- Whether a key is reserved, and whether it is excluded by the caller. -/
structure Exclusions where
  reserved : Key → Bool
  localReserved : Key → Bool

/-- The loop of `next_available`, over the numbered candidates. -/
def search (fs : FileSystem) (ex : Exclusions) (candidate : Nat → Path) (key : Nat → Key)
    (id : Nat) : Nat → OutputPathAllocator → List Nat →
      Except Fault (OutputPathAllocator × Path)
  | 0, _, _ => .error .unfinished
  | fuel + 1, a, localSlots =>
    let (index, n) := (a.objects id).take
    let a := a.modify id fun _ => n
    let k := key index
    -- local exclusions stay available to other requests
    if !ex.reserved k && ex.localReserved k then
      search fs ex candidate key id fuel a (localSlots ++ [index])
    else if ex.reserved k then
      search fs ex candidate key id fuel ((a.setSlot k id index).modify id (·.observe k)) localSlots
    else if !fs.exists? (candidate index) then
      .ok (localSlots.foldl (fun a index => a.modify id (·.release index)) (a.setSlot k id index),
        candidate index)
    else search fs ex candidate key id fuel a localSlots

def nextAvailable (a : OutputPathAllocator) (naming : Naming) (fs : FileSystem) (ex : Exclusions)
    (fuel : Nat) (path : Path) (isDirectory : Bool) (physicalParent : Option Key) :
    Except Fault (OutputPathAllocator × Path) :=
  let candidate := path.normpath
  let parent := candidate.dirname
  let name := candidate.basename
  let physicalParent := physicalParent.getD (fs.resolve parent)
  let key := joinKey physicalParent (naming.caseKey name)
  if !ex.reserved key && !ex.localReserved key && !fs.exists? candidate then .ok (a, candidate)
  else do
    let split := naming.numberedName name isDirectory
    let family := ((physicalParent, naming.caseKey (split.baseStem ++ split.extension)), split.start)
    let numbered (index : Nat) : Path := parent.join [split.text index]
    let (a, id) ← a.numbersOf family
    a.search fs ex numbered
      (fun index => joinKey physicalParent (naming.caseKey (numbered index).basename)) id fuel []

def release (a : OutputPathAllocator) (key : Key) : OutputPathAllocator :=
  let slots := (a.slots.get? key).getD ∅
  slots.entries.foldl (fun a slot => a.modify slot.1 fun n => (n.discard key).release slot.2)
    { a with slots := a.slots.erase key }

/-- The number with which a family holds a key. -/
def slot (a : OutputPathAllocator) (key : Key) (id : Nat) : Option Nat :=
  (a.slots.get? key).bind (·.get? id)

/-! ## Observed slots -/

/-- What a family has observed is in the slots, so forgetting it cannot fail. -/
structure Observed (a : OutputPathAllocator) : Prop where
  nodup : ∀ id, (a.objects id).observedSlots.Nodup
  slot : ∀ id, ∀ key ∈ (a.objects id).observedSlots,
    ∃ slots, a.slots.get? key = some slots ∧ slots.get? id ≠ none

variable {a a' : OutputPathAllocator}

theorem observed_empty : Observed {} where
  nodup _ := List.nodup_nil
  slot _ _ h := absurd h List.not_mem_nil

theorem objects_modify (a : OutputPathAllocator) (id id' : Nat)
    (f : NumberedPaths → NumberedPaths) :
    (a.modify id f).objects id' = if id' = id then f (a.objects id) else a.objects id' := by
  simp only [modify, Function.update_apply]

/-- Fewer observed slots, and slots for them. -/
theorem Observed.mono (h : a.Observed)
    (hsub : ∀ id, (a'.objects id).observedSlots.Sublist (a.objects id).observedSlots)
    (hslot : ∀ id, ∀ key ∈ (a'.objects id).observedSlots, ∀ slots, a.slots.get? key = some slots →
      slots.get? id ≠ none → ∃ slots', a'.slots.get? key = some slots' ∧ slots'.get? id ≠ none) :
    a'.Observed where
  nodup id := (h.nodup id).sublist (hsub id)
  slot id key hkey := by
    obtain ⟨slots, hget, hid⟩ := h.slot id key ((hsub id).subset hkey)
    exact hslot id key hkey slots hget hid

theorem Observed.modify (h : a.Observed) (id : Nat) {f : NumberedPaths → NumberedPaths}
    (hf : ∀ n, (f n).observedSlots.Sublist n.observedSlots) : (a.modify id f).Observed := by
  refine h.mono (fun id' => ?_) fun id' key _ slots hget hid => ⟨slots, hget, hid⟩
  rw [objects_modify]
  split_ifs with heq
  · rw [heq]
    exact hf _
  · exact List.Sublist.refl _

theorem take_observed (n : NumberedPaths) : n.take.2.observedSlots = n.observedSlots := by
  unfold NumberedPaths.take
  split
  · split_ifs <;> rfl
  · rfl

theorem release_observed (n : NumberedPaths) (index : Nat) :
    (n.release index).observedSlots = n.observedSlots := by
  unfold NumberedPaths.release
  split_ifs <;> rfl

theorem setSlot_slots (a : OutputPathAllocator) (key key' : Key) (id index : Nat) :
    (a.setSlot key id index).slots.get? key' =
      if key' = key then some (((a.slots.get? key).getD ∅).set id index)
      else a.slots.get? key' :=
  Dict.get?_set _ _ _ _

theorem Observed.setSlot (h : a.Observed) (key : Key) (id index : Nat) :
    (a.setSlot key id index).Observed := by
  refine h.mono (fun _ => List.Sublist.refl _) fun id' key' _ slots hget hid => ?_
  rw [setSlot_slots]
  by_cases heq : key' = key
  · subst heq
    rw [if_pos rfl, hget, Option.getD_some]
    refine ⟨_, rfl, ?_⟩
    rw [Dict.get?_set]
    split_ifs
    · exact Option.some_ne_none _
    · exact hid
  · rw [if_neg heq]
    exact ⟨slots, hget, hid⟩

theorem Observed.observe (h : a.Observed) (key : Key) (id index : Nat) :
    ((a.setSlot key id index).modify id (·.observe key)).Observed := by
  have hset := h.setSlot key id index
  have hobserve (n : NumberedPaths) (k : Key) :
      k ∈ (n.observe key).observedSlots ↔ k ∈ n.observedSlots ∨ k = key := by
    simp only [NumberedPaths.observe]
    split_ifs with hmem
    · refine ⟨.inl, ?_⟩
      rintro (hk | rfl)
      · exact hk
      · exact hmem
    · rw [List.mem_append, List.mem_singleton]
  refine ⟨fun id' => ?_, fun id' k hk => ?_⟩
  · rw [objects_modify]
    split_ifs with heq
    · simp only [NumberedPaths.observe]
      split_ifs with hmem
      · exact hset.nodup id
      · refine List.Nodup.append (hset.nodup id) (List.nodup_singleton _) ?_
        intro x hx hx'
        exact hmem (List.mem_singleton.1 hx' ▸ hx)
    · exact hset.nodup id'
  · show ∃ slots, (a.setSlot key id index).slots.get? k = some slots ∧ slots.get? id' ≠ none
    rw [objects_modify] at hk
    split_ifs at hk with heq
    · rcases (hobserve _ _).1 hk with hk | rfl
      · exact heq ▸ hset.slot id k hk
      · rw [setSlot_slots, if_pos rfl]
        exact ⟨_, rfl, by rw [heq, Dict.get?_set_self]; exact Option.some_ne_none _⟩
    · exact hset.slot id' k hk

theorem slot_ne_none {key : Key} {id : Nat} : a.slot key id ≠ none ↔
    ∃ slots, a.slots.get? key = some slots ∧ slots.get? id ≠ none := by
  unfold slot
  cases a.slots.get? key with
  | none => simp
  | some slots => simp

/-- Forgetting one key takes one slot away. -/
theorem forget_spec {id : Nat} {key : Key} (hslot : a.slot key id ≠ none) :
    ∃ a', forget id a key = .ok a' ∧ a'.objects = a.objects ∧ a'.nextObject = a.nextObject ∧
      a'.numbers = a.numbers ∧
      ∀ key' id', a'.slot key' id' = if key' = key ∧ id' = id then none else a.slot key' id' := by
  obtain ⟨slots, hget, hid⟩ := slot_ne_none.1 hslot
  obtain ⟨index, hindex⟩ := Option.ne_none_iff_exists'.1 hid
  refine ⟨{ a with slots := if (slots.erase id).keys.isEmpty then a.slots.erase key
      else a.slots.set key (slots.erase id) }, ?_, rfl, rfl, rfl, fun key' id' => ?_⟩
  · rw [forget, hget]
    simp only [hindex]
  · by_cases heq : key' = key
    · have hkey : ((if (slots.erase id).keys.isEmpty then a.slots.erase key
          else a.slots.set key (slots.erase id)).get? key).bind (·.get? id') =
            (slots.erase id).get? id' := by
        split_ifs with hempty
        · rw [Dict.get?_erase_self, Option.bind_none, eq_comm, Dict.get?_eq_none,
            List.isEmpty_iff.1 hempty]
          exact List.not_mem_nil
        · rw [Dict.get?_set_self, Option.bind_some]
      subst heq
      simp only [slot, hkey, Dict.get?_erase, hget, Option.bind_some, true_and]
    · have hkept : (if (slots.erase id).keys.isEmpty then a.slots.erase key
          else a.slots.set key (slots.erase id)).get? key' = a.slots.get? key' := by
        split_ifs
        · exact Dict.get?_erase_of_ne _ heq
        · exact Dict.get?_set_of_ne _ heq _
      have hother : ¬ (key' = key ∧ id' = id) := fun h => heq h.1
      simp only [slot, hkept, if_neg hother]

/-- Forgetting observed keys one after the other does not fail. -/
theorem forget_all {id : Nat} {keys : List Key} (hnodup : keys.Nodup)
    (hslot : ∀ key ∈ keys, a.slot key id ≠ none) :
    ∃ a', keys.foldlM (forget id) a = .ok a' ∧ a'.objects = a.objects ∧
      a'.nextObject = a.nextObject ∧ a'.numbers = a.numbers ∧
      ∀ key id', (a'.slot key id' = a.slot key id' ∨ a'.slot key id' = none) ∧
        (id' ≠ id → a'.slot key id' = a.slot key id') := by
  induction keys generalizing a with
  | nil => exact ⟨a, rfl, rfl, rfl, rfl, fun key id' => ⟨.inl rfl, fun _ => rfl⟩⟩
  | cons key keys ih =>
    obtain ⟨hkey, hnodup⟩ := List.nodup_cons.1 hnodup
    obtain ⟨b, hforget, hobjects, hnext, hnumbers, hslots⟩ :=
      forget_spec (hslot key List.mem_cons_self)
    have hrest : ∀ k ∈ keys, b.slot k id ≠ none := by
      intro k hk
      rw [hslots, if_neg]
      · exact hslot k (List.mem_cons_of_mem _ hk)
      · intro h
        exact hkey (h.1 ▸ hk)
    obtain ⟨a', hall, hobjects', hnext', hnumbers', hslots'⟩ := ih hnodup hrest
    refine ⟨a', ?_, hobjects'.trans hobjects, hnext'.trans hnext, hnumbers'.trans hnumbers,
      fun k id' => ⟨?_, fun hne => ?_⟩⟩
    · rw [List.foldlM_cons, hforget]
      exact hall
    · rcases (hslots' k id').1 with h | h
      · rw [h, hslots]
        split_ifs
        · exact .inr rfl
        · exact .inl rfl
      · exact .inr h
    · rw [(hslots' k id').2 hne, hslots, if_neg fun h => hne h.2]

/-- What eviction changes: slots of the evicted family, and what it has observed. -/
structure Evicted (id : Nat) (a a' : OutputPathAllocator) : Prop where
  observed : a'.Observed
  nextObject : a'.nextObject = a.nextObject
  numbers : a'.numbers = a.numbers
  objects : ∀ id', id' ≠ id → a'.objects id' = a.objects id'
  slot : ∀ key id', (a'.slot key id' = a.slot key id' ∨ a'.slot key id' = none) ∧
    (id' ≠ id → a'.slot key id' = a.slot key id')

theorem Observed.evict (h : a.Observed) (id : Nat) :
    ∃ a', a.evict id = .ok a' ∧ a.Evicted id a' := by
  obtain ⟨b, hall, hobjects, hnext, hnumbers, hslots⟩ := forget_all (h.nodup id)
    fun key hkey => slot_ne_none.2 (h.slot id key hkey)
  refine ⟨b.modify id fun n => { n with observedSlots := [] }, ?_, ?_, hnext, hnumbers, ?_, hslots⟩
  · rw [OutputPathAllocator.evict, hall]
    rfl
  · refine h.mono (fun id' => ?_) fun id' key hkey slots hget hid => ?_
    · rw [objects_modify, hobjects]
      split_ifs
      · exact List.nil_sublist _
      · exact List.Sublist.refl _
    · rw [objects_modify] at hkey
      split_ifs at hkey with heq
      · exact absurd hkey List.not_mem_nil
      · apply slot_ne_none.1
        show b.slot key id' ≠ none
        rw [(hslots key id').2 heq]
        exact slot_ne_none.2 ⟨slots, hget, hid⟩
  · intro id' hne
    rw [objects_modify, if_neg hne, hobjects]

theorem Observed.numbersOf (h : a.Observed) (family : Family) :
    ∃ a' id, a.numbersOf family = .ok (a', id) ∧ a'.Observed := by
  unfold OutputPathAllocator.numbersOf
  split
  · exact ⟨_, _, rfl, ⟨h.nodup, h.slot⟩⟩
  · have hnew := h.modify a.nextObject (f := fun _ => { nextIndex := family.2 })
      fun n => List.nil_sublist _
    dsimp only
    split
    · split_ifs
      · obtain ⟨a', hevict, hevicted⟩ := Observed.evict (a := { a.modify a.nextObject
            fun _ => { nextIndex := family.2 } with
              nextObject := a.nextObject + 1
              numbers := (a.numbers.set family a.nextObject).erase _ })
          ⟨hnew.nodup, hnew.slot⟩ _
        exact ⟨a', _, by rw [hevict]; rfl, hevicted.observed⟩
      · exact ⟨_, _, rfl, ⟨hnew.nodup, hnew.slot⟩⟩
    · exact ⟨_, _, rfl, ⟨hnew.nodup, hnew.slot⟩⟩

theorem Observed.release_slots (h : a.Observed) (id : Nat) (slots : List Nat) :
    (slots.foldl (fun a index => a.modify id (·.release index)) a).Observed := by
  induction slots generalizing a with
  | nil => exact h
  | cons index slots ih =>
    refine ih (h.modify id fun n => ?_)
    rw [release_observed]

/-! ## What is returned -/

/-- A path that is free: under a key that nobody holds, and not on the disk. -/
structure Free (fs : FileSystem) (ex : Exclusions) (key : Key) (p : Path) : Prop where
  reserved : ex.reserved key = false
  localReserved : ex.localReserved key = false
  absent : fs.exists? p = false

theorem Observed.search {fs : FileSystem} {ex : Exclusions} {candidate : Nat → Path}
    {key : Nat → Key} {id : Nat} (fuel : Nat) (h : a.Observed) (localSlots : List Nat) :
    match a.search fs ex candidate key id fuel localSlots with
    | .error e => e = .unfinished
    | .ok (a', p) => a'.Observed ∧ ∃ index, p = candidate index ∧ Free fs ex (key index) p := by
  induction fuel generalizing a localSlots with
  | zero => rfl
  | succ fuel ih =>
    have htake : (a.modify id fun _ => (a.objects id).take.2).Observed := by
      refine h.mono (fun id' => ?_) fun id' key' _ slots hget hid => ⟨slots, hget, hid⟩
      rw [objects_modify]
      split_ifs with heq
      · rw [take_observed, heq]
      · exact List.Sublist.refl _
    rw [OutputPathAllocator.search]
    dsimp only
    generalize (a.objects id).take.1 = index at *
    split_ifs with hlocal hreserved hexists
    · exact ih htake _
    · exact ih (htake.observe _ _ _) _
    · refine ⟨(htake.setSlot _ _ _).release_slots _ _, index, rfl, ?_, ?_, ?_⟩
      · exact Bool.eq_false_iff.2 hreserved
      · simpa [hreserved] using hlocal
      · simpa using hexists
    · exact ih htake _

section

variable {fs : FileSystem} {ex : Exclusions} {candidate : Nat → Path} {key : Nat → Key}
  {id fuel : Nat} {localSlots : List Nat}

theorem Observed.search_error (h : a.Observed) {e : Fault}
    (heq : a.search fs ex candidate key id fuel localSlots = .error e) : e = .unfinished := by
  have hsearch := @Observed.search a fs ex candidate key id fuel h localSlots
  rw [heq] at hsearch
  exact hsearch

theorem Observed.search_ok (h : a.Observed) {p : Path}
    (heq : a.search fs ex candidate key id fuel localSlots = .ok (a', p)) :
    a'.Observed ∧ ∃ index, p = candidate index ∧ Free fs ex (key index) p := by
  have hsearch := @Observed.search a fs ex candidate key id fuel h localSlots
  rw [heq] at hsearch
  exact hsearch

end

/-- A path of the asked parent that is free there. -/
theorem Observed.nextAvailable (h : a.Observed) (naming : Naming) (fs : FileSystem)
    (ex : Exclusions) (fuel : Nat) (path : Path) (isDirectory : Bool)
    (physicalParent : Option Key) :
    match a.nextAvailable naming fs ex fuel path isDirectory physicalParent with
    | .error e => e = .unfinished
    | .ok (a', p) => a'.Observed ∧ p.dirname = path.normpath.dirname ∧
        Free fs ex (joinKey (physicalParent.getD (fs.resolve path.normpath.dirname))
          (naming.caseKey p.basename)) p := by
  unfold OutputPathAllocator.nextAvailable
  dsimp only
  split_ifs with hfree
  · simp only [Bool.and_eq_true, Bool.not_eq_true'] at hfree
    exact ⟨h, rfl, hfree.1.1, hfree.1.2, hfree.2⟩
  all_goals
    obtain ⟨b, id, hnumbers, hobserved⟩ := h.numbersOf _
    rw [hnumbers]
    dsimp only [bind, Except.bind]
    split
    · rename_i e herror
      exact hobserved.search_error herror
    · rename_i a' p hok
      obtain ⟨hb, index, rfl, hfree⟩ := hobserved.search_ok hok
      refine ⟨hb, ?_, hfree⟩
      simp only [Path.dirname, Path.join, List.dropLast_concat]

/-- Releasing the slots of one key: the families that have one do not observe the key any more. -/
theorem objects_release (key : Key) (slots : List (Nat × Nat)) (a : OutputPathAllocator) :
    let b := slots.foldl (fun a slot => a.modify slot.1 fun n => (n.discard key).release slot.2) a
    b.slots = a.slots ∧ ∀ id,
      (b.objects id).observedSlots.Sublist (a.objects id).observedSlots ∧
        (id ∈ slots.map Prod.fst → key ∉ (b.objects id).observedSlots) := by
  induction slots generalizing a with
  | nil => exact ⟨rfl, fun id => ⟨List.Sublist.refl _, fun h => absurd h List.not_mem_nil⟩⟩
  | cons slot slots ih =>
    obtain ⟨hslots, hobjects⟩ := ih (a.modify slot.1 fun n => (n.discard key).release slot.2)
    refine ⟨hslots, fun id => ?_⟩
    obtain ⟨hsub, hkey⟩ := hobjects id
    rw [objects_modify] at hsub
    have hdiscard (n : NumberedPaths) : ((n.discard key).release slot.2).observedSlots =
        n.observedSlots.filter (· ≠ key) := by
      rw [release_observed]
      rfl
    by_cases heq : id = slot.1
    · rw [if_pos heq, hdiscard] at hsub
      refine ⟨heq ▸ hsub.trans List.filter_sublist, fun _ hmem => ?_⟩
      have := List.of_mem_filter (hsub.subset hmem)
      simp at this
    · rw [if_neg heq] at hsub
      refine ⟨hsub, fun hmem => hkey ?_⟩
      rw [List.map_cons] at hmem
      exact (List.mem_cons.1 hmem).resolve_left heq

theorem Observed.release (h : a.Observed) (key : Key) : (a.release key).Observed := by
  unfold OutputPathAllocator.release
  dsimp only
  obtain ⟨hslots, hobjects⟩ := objects_release key ((a.slots.get? key).getD ∅).entries
    { a with slots := a.slots.erase key }
  refine h.mono (fun id => (hobjects id).1) fun id key' hkey slots hget hid => ?_
  rw [hslots]
  have hne : key' ≠ key := by
    rintro rfl
    refine (hobjects id).2 ?_ hkey
    rw [hget]
    exact Dict.mem_keys.2 hid
  exact ⟨slots, (Dict.get?_erase_of_ne _ hne).trans hget, hid⟩

end OutputPathAllocator

end Sunpack.Reservation
