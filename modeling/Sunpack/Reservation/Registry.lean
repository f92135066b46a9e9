import Sunpack.Reservation.Allocator

/-!
# The output reservation registry

`OutputReservationRegistry` of `output_reservation.py`. Every call holds the lock, so a call is one
function of the registry. `register_watch_output`, `contains` and the idle cache reserve nothing.
-/

namespace Sunpack.Reservation

open Lib

abbrev Owner := Text

structure Registry where
  reserved : PathMap Owner := {}
  ownerPaths : Dict Owner (List Key) := ∅
  allocator : OutputPathAllocator := {}

/-- The arguments of `reserve`. -/
structure Request where
  defaultPath : Path
  owner : Owner
  localReserved : List Key
  reuseExisting : Bool := false
  inputPath : Option Path := none

/-- The text of a path. -/
def Path.text (p : Path) : Text :=
  p.root ++ (if p.root = [] then [] else ['\\']) ++ ['\\'].intercalate p.parts

inductive FileExistsError
  | overlaps (path : Path)
  | alreadyReserved (path : Path)
deriving DecidableEq

def FileExistsError.message : FileExistsError → Text
  | overlaps path => "output directory overlaps a reserved output: ".toList ++ path.text
  | alreadyReserved path => "output directory is already reserved: ".toList ++ path.text

/-- The path returned, its key, and the caller's exclusions with the key in them. -/
structure Reserved where
  path : Path
  key : Key
  localReserved : List Key

/-- The directory of a key; that of a drive is the drive. -/
def dirKey (key : Key) : Key := if key.length ≤ 1 then key else key.dropLast

/-- `set.add` -/
def addKey (keys : List Key) (key : Key) : List Key := if key ∈ keys then keys else keys ++ [key]

/-- Only recursive work on this owner's generated input may enter a reservation. -/
def permitted (inputKey : Option Key) (owner : Owner) (ancestor : Key × Owner) : Bool :=
  inputKey.any fun input => ancestor.2 = owner && ancestor.1.isPrefixOf input

/-- `_ancestor_spelling`, with the number of components of the tail. -/
def ancestorSpelling (path : Path) : Nat → Path
  | 0 => path
  | n + 1 => ancestorSpelling path.dirname n

/-- `relpath` of a path and one above it. -/
def relativeTo (path base : Path) : List Text :=
  let rest := path.parts.drop base.parts.length
  if rest = [] then [['.']] else rest

namespace Request

variable (naming : Naming) (fs : FileSystem) (q : Request)

def inputKey : Option Key := q.inputPath.map fs.resolve

def path : Path := q.defaultPath.normpath

def physicalParent : Key :=
  if q.reuseExisting then dirKey (fs.resolve q.path) else fs.resolve q.path.dirname

def key : Key :=
  if q.reuseExisting then fs.resolve q.path
  else joinKey (q.physicalParent fs) (naming.caseKey q.path.basename)

/-- The spelled component that is renumbered when the work may not enter `ancestor`. -/
def rebase (ancestor : Key) : Path :=
  ancestorSpelling q.path (max 1 ((q.key naming fs).length - ancestor.length))

/-- What is below that component. -/
def suffix (ancestor : Key) : List Text := relativeTo q.path (q.rebase naming fs ancestor)

end Request

namespace Registry

variable (naming : Naming) (fs : FileSystem) (fuel : Nat)

def exclusions (r : Registry) (q : Request) : OutputPathAllocator.Exclusions where
  reserved key := r.reserved.hasUnder key
  localReserved key := key ∈ q.localReserved

/-- The first reservation above the requested path that the work may not enter. -/
def conflict (r : Registry) (q : Request) : Option (Key × Owner) :=
  (r.reserved.ancestors (q.physicalParent fs)).find? fun ancestor =>
    !permitted (q.inputKey fs) q.owner ancestor

def store (r : Registry) (q : Request) (path : Path) (key : Key) : Registry × Reserved :=
  ({ r with
    reserved := r.reserved.set key q.owner
    ownerPaths := r.ownerPaths.set q.owner (addKey ((r.ownerPaths.get? q.owner).getD []) key) },
    { path := path, key := key, localReserved := addKey q.localReserved key })

/-- The last part of `reserve` for a new output. -/
def choose (r : Registry) (q : Request) (path : Path) (physicalParent : Key) :
    Except Fault (Registry × Reserved) := do
  let (allocator, path) ← r.allocator.nextAvailable naming fs (r.exclusions q) fuel path true
    (some physicalParent)
  return { r with allocator := allocator }.store q path
    (joinKey physicalParent (naming.caseKey path.basename))

def reserve (r : Registry) (q : Request) :
    Except Fault (Registry × Except FileExistsError Reserved) :=
  match r.conflict fs q with
  | some (ancestor, _) =>
    if q.reuseExisting then .ok (r, .error (.overlaps q.path))
    else do
      let (allocator, base) ← r.allocator.nextAvailable naming fs (r.exclusions q) fuel
        (q.rebase naming fs ancestor) true none
      let path := base.join (q.suffix naming fs ancestor)
      let (r, reserved) ← { r with allocator := allocator }.choose naming fs fuel q path
        (fs.resolve path.dirname)
      return (r, .ok reserved)
  | none =>
    if q.reuseExisting then
      let key := q.key naming fs
      if r.reserved.hasUnder key || q.localReserved.contains key then
        .ok (r, .error (.alreadyReserved q.path))
      else
        let (r, reserved) := r.store q q.path key
        .ok (r, .ok reserved)
    else do
      let (r, reserved) ← r.choose naming fs fuel q q.path (q.physicalParent fs)
      return (r, .ok reserved)

/-- A key and what is above it, up to the drive. -/
def upwards (key : Key) : List Key := key.inits.reverse.filter (· ≠ [])

def releaseKey (r : Registry) (key : Key) : Except Fault Registry :=
  match r.reserved.delete key with
  | .error _ => .error .keyError
  | .ok reserved =>
    .ok { r with
      reserved := reserved
      -- a rebase may have searched a numbered ancestor
      allocator := (upwards key).foldl (·.release ·) r.allocator }

def keysOf (r : Registry) (owner : Owner) : List Key := (r.ownerPaths.get? owner).getD []

/-- `release`; the keys of an owner are a set, so they come in any order. -/
def release (r : Registry) (owner : Owner) (order : List Key) : Except Fault Registry :=
  order.foldlM releaseKey { r with ownerPaths := r.ownerPaths.erase owner }

/-! ## What a reservation is -/

/-- Nothing is reserved at or above a key that the work may not enter. -/
def Clear (r : Registry) (q : Request) (key : Key) : Prop :=
  ∀ ancestor ∈ r.reserved.ancestors key, permitted (q.inputKey fs) q.owner ancestor = true

/-- Where a rebase goes, nothing is reserved that the work may not enter: nothing above the component
that is renumbered, and a free name there leads nowhere else, or to no such place either. -/
def ClearRebase (r : Registry) (q : Request) : Prop :=
  ∀ ancestor owner, r.conflict fs q = some (ancestor, owner) → q.reuseExisting = false →
    let parent := (q.rebase naming fs ancestor).normpath.dirname
    let suffix := q.suffix naming fs ancestor
    r.Clear fs q (fs.resolve parent) ∧
      ∀ p : Path, p.dirname = parent → fs.exists? p = false →
        fs.resolve (p.join suffix).dirname =
            joinKey (fs.resolve parent) (naming.caseKey p.basename) ++
              suffix.dropLast.map naming.caseKey ∨
          r.Clear fs q (fs.resolve (p.join suffix).dirname)

/-- What a request reserves: `r'` and `x` come from `r` and `q`. -/
structure Reserves (r : Registry) (q : Request) (r' : Registry) (x : Reserved) : Prop where
  reserved : r'.reserved = r.reserved.set x.key q.owner
  ownerPaths : r'.ownerPaths = r.ownerPaths.set q.owner (addKey (r.keysOf q.owner) x.key)
  observed : r'.allocator.Observed
  nonempty : x.key ≠ []
  apart : r.reserved.hasUnder x.key = false
  unlisted : x.key ∉ q.localReserved
  fresh : q.reuseExisting = false → fs.exists? x.path = false

/-- What `reserve` answers: it fails for want of fuel only; it changes nothing when it raises; and
what it reserves is apart from the rest, and under nothing that the work may not enter. -/
def Answers (r : Registry) (q : Request) :
    Except Fault (Registry × Except FileExistsError Reserved) → Prop
  | .error e => e = .unfinished
  | .ok (r', .error _) => r' = r
  | .ok (r', .ok x) => r.Reserves fs q r' x ∧
      (r.ClearRebase naming fs q → ∀ ancestor ∈ r.reserved.ancestors x.key, ancestor.1 ≠ x.key →
        permitted (q.inputKey fs) q.owner ancestor = true)

variable {naming fs fuel} {r r' : Registry} {q : Request}

theorem joinKey_ne {parent : Key} (h : parent ≠ []) (component : Text) :
    joinKey parent component ≠ [] := by
  unfold joinKey
  by_cases hself : component = [] ∨ component = ['.']
  · rwa [if_pos (by simpa using hself)]
  · rw [if_neg (by simpa using hself)]
    split_ifs with hup hshort
    · exact h
    · intro hempty
      have hlen := congrArg List.length hempty
      rw [List.length_dropLast, List.length_nil] at hlen
      omega
    · simp

/-- What is above a joined key is above its parent. -/
theorem prefix_joinKey {key parent : Key} {component : Text}
    (h : key <+: joinKey parent component) : key = joinKey parent component ∨ key <+: parent := by
  unfold joinKey at *
  by_cases hself : component = [] ∨ component = ['.']
  · rw [if_pos (by simpa using hself)] at h
    exact .inr h
  · rw [if_neg (by simpa using hself)] at h ⊢
    split_ifs at h ⊢ with hup hshort
    · exact .inr h
    · exact .inr (h.trans (List.dropLast_prefix parent))
    · exact List.prefix_concat_iff.1 h

theorem prefix_dirKey {key stored : Key} (h : stored <+: key) (hne : stored ≠ key) :
    stored <+: dirKey key := by
  unfold dirKey
  split_ifs
  · exact h
  · rcases List.eq_nil_or_concat key with rfl | ⟨init, last, rfl⟩
    · exact h
    · rw [List.concat_eq_append] at *
      rw [List.dropLast_concat]
      exact (List.prefix_concat_iff.1 h).resolve_left hne

theorem choose_spec (hobserved : r.allocator.Observed) {physicalParent : Key}
    (hne : physicalParent ≠ []) (path : Path) :
    match r.choose naming fs fuel q path physicalParent with
    | .error e => e = .unfinished
    | .ok (r', x) => r.Reserves fs q r' x ∧
        ∃ component, x.key = joinKey physicalParent component := by
  have havailable := hobserved.nextAvailable naming fs (r.exclusions q) fuel path true
    (some physicalParent)
  unfold choose
  revert havailable
  rcases r.allocator.nextAvailable naming fs (r.exclusions q) fuel path true
    (some physicalParent) with e | ⟨a, p⟩
  · intro he
    exact he
  · rintro ⟨ha, _, hreserved, hlocal, habsent⟩
    refine ⟨⟨rfl, rfl, ha, joinKey_ne hne _, hreserved, ?_, fun _ => habsent⟩, _, rfl⟩
    exact of_decide_eq_false hlocal

/-- A key joined to a clear one is below no reservation that the work may not enter. -/
theorem clear_joinKey (hagrees : r.reserved.Agrees) {parent : Key} {component : Text}
    (hclear : r.Clear fs q parent) {ancestor : Key × Owner}
    (hmem : ancestor ∈ r.reserved.ancestors (joinKey parent component))
    (hne : ancestor.1 ≠ joinKey parent component) :
    permitted (q.inputKey fs) q.owner ancestor = true := by
  obtain ⟨hpre, hget⟩ := hagrees.mem_ancestors.1 hmem
  have habove : ancestor.1 <+: parent := (prefix_joinKey hpre).resolve_left hne
  exact hclear ancestor (hagrees.mem_ancestors.2 ⟨habove, hget⟩)

/-- A free name in a clear directory, and what is below it, are clear. -/
theorem clear_append (hagrees : r.reserved.Agrees) {parent : Key} {component : Text}
    (hclear : r.Clear fs q parent) (hfree : r.reserved.hasUnder (joinKey parent component) = false)
    (rest : Key) : r.Clear fs q (joinKey parent component ++ rest) := by
  intro ancestor hmem
  obtain ⟨hpre, hget⟩ := hagrees.mem_ancestors.1 hmem
  have hnot : ¬ joinKey parent component <+: ancestor.1 := by
    intro hunder
    have htrue := hagrees.hasUnder_iff.2 ⟨ancestor.1, hunder, by rw [hget]; simp⟩
    rw [hfree] at htrue
    exact Bool.false_ne_true htrue
  have habove : ancestor.1 <+: joinKey parent component :=
    (List.prefix_or_prefix_of_prefix hpre (List.prefix_append _ rest)).resolve_right hnot
  refine clear_joinKey hagrees hclear (hagrees.mem_ancestors.2 ⟨habove, hget⟩) ?_
  intro heq
  exact hnot (heq ▸ List.prefix_rfl)

theorem clear_of_conflict_none (h : r.conflict fs q = none) :
    r.Clear fs q (q.physicalParent fs) := by
  intro ancestor hmem
  have hall := List.find?_eq_none.1 h ancestor hmem
  simpa using hall

theorem reserve_rebased (hagrees : r.reserved.Agrees) (hobserved : r.allocator.Observed)
    {ancestor : Key} {owner : Owner} (hconflict : r.conflict fs q = some (ancestor, owner))
    (hreuse : q.reuseExisting = false) :
    r.Answers naming fs q (r.reserve naming fs fuel q) := by
  have hbase := hobserved.nextAvailable naming fs (r.exclusions q) fuel
    (q.rebase naming fs ancestor) true none
  unfold reserve
  rw [hconflict]
  simp only [hreuse, Bool.false_eq_true, if_false]
  revert hbase
  rcases r.allocator.nextAvailable naming fs (r.exclusions q) fuel
    (q.rebase naming fs ancestor) true none with e | ⟨a, base⟩
  · intro he
    exact he
  rintro ⟨ha, hdirname, hfree⟩
  have hchoose := @choose_spec naming fs fuel { r with allocator := a } q ha
    (fs.resolve (base.join (q.suffix naming fs ancestor)).dirname) (fs.resolve_ne _)
    (base.join (q.suffix naming fs ancestor))
  dsimp only [bind, Except.bind]
  revert hchoose
  rcases choose naming fs fuel { r with allocator := a } q _ _ with e | ⟨r', x⟩
  · intro he
    exact he
  rintro ⟨hreserves, component, hkey⟩
  refine ⟨⟨hreserves.reserved, hreserves.ownerPaths, hreserves.observed, hreserves.nonempty,
    hreserves.apart, hreserves.unlisted, hreserves.fresh⟩, ?_⟩
  intro hrebase ancestor' hmem hne
  obtain ⟨hparent, hnames⟩ := hrebase ancestor owner hconflict hreuse
  have hclear : r.Clear fs q (fs.resolve (base.join (q.suffix naming fs ancestor)).dirname) := by
    rcases hnames base hdirname hfree.absent with hplain | hclear
    · rw [hplain]
      exact clear_append hagrees hparent hfree.reserved _
    · exact hclear
  rw [hkey] at hmem hne
  exact clear_joinKey hagrees hclear hmem hne

theorem reserve_continued (hagrees : r.reserved.Agrees) (hobserved : r.allocator.Observed)
    (hconflict : r.conflict fs q = none) (hreuse : q.reuseExisting = true) :
    r.Answers naming fs q (r.reserve naming fs fuel q) := by
  have hkey : q.key naming fs = fs.resolve q.path := if_pos hreuse
  have hclear := clear_of_conflict_none hconflict
  unfold reserve
  rw [hconflict]
  simp only [hreuse, if_true]
  split_ifs with htaken
  · rfl
  rw [Bool.or_eq_true, not_or] at htaken
  refine ⟨⟨rfl, rfl, hobserved, ?_, Bool.eq_false_iff.2 htaken.1, ?_, ?_⟩, ?_⟩
  · show q.key naming fs ≠ []
    rw [hkey]
    exact fs.resolve_ne _
  · intro hmem
    exact htaken.2 (List.contains_iff_mem.2 hmem)
  · intro hnew
    rw [hreuse] at hnew
    exact absurd hnew (by simp)
  · intro _ ancestor hmem hne
    obtain ⟨hpre, hget⟩ := hagrees.mem_ancestors.1 hmem
    refine hclear ancestor (hagrees.mem_ancestors.2 ⟨?_, hget⟩)
    rw [Request.physicalParent, if_pos hreuse, ← hkey]
    exact prefix_dirKey hpre hne

theorem reserve_direct (hagrees : r.reserved.Agrees) (hobserved : r.allocator.Observed)
    (hconflict : r.conflict fs q = none) (hreuse : q.reuseExisting = false) :
    r.Answers naming fs q (r.reserve naming fs fuel q) := by
  have hclear := clear_of_conflict_none hconflict
  have hne : q.physicalParent fs ≠ [] := by
    rw [Request.physicalParent, hreuse]
    exact fs.resolve_ne _
  have hchoose := @choose_spec naming fs fuel r q hobserved _ hne q.path
  unfold reserve
  rw [hconflict]
  simp only [hreuse, Bool.false_eq_true, if_false]
  revert hchoose
  dsimp only [bind, Except.bind]
  rcases choose naming fs fuel r q _ _ with e | ⟨r', x⟩
  · intro he
    exact he
  rintro ⟨hreserves, component, hkey⟩
  refine ⟨hreserves, ?_⟩
  intro _ ancestor hmem hancestor
  rw [hkey] at hmem hancestor
  exact clear_joinKey hagrees hclear hmem hancestor

theorem reserve_spec (hagrees : r.reserved.Agrees) (hobserved : r.allocator.Observed) :
    r.Answers naming fs q (r.reserve naming fs fuel q) := by
  cases hconflict : r.conflict fs q with
  | some conflict =>
    cases hreuse : q.reuseExisting with
    | true =>
      unfold reserve
      rw [hconflict]
      simp only [hreuse, if_true]
      rfl
    | false => exact reserve_rebased hagrees hobserved hconflict hreuse
  | none =>
    cases hreuse : q.reuseExisting with
    | true => exact reserve_continued hagrees hobserved hconflict hreuse
    | false => exact reserve_direct hagrees hobserved hconflict hreuse

/-! ## Releasing -/

theorem observed_upwards {a : OutputPathAllocator} (h : a.Observed) (keys : List Key) :
    (keys.foldl (·.release ·) a).Observed := by
  induction keys generalizing a with
  | nil => exact h
  | cons key keys ih => exact ih (h.release key)

theorem releaseKey_spec (hagrees : r.reserved.Agrees) (hobserved : r.allocator.Observed)
    {key : Key} (hget : r.reserved.get? key ≠ none) :
    ∃ r', r.releaseKey key = .ok r' ∧ r'.reserved.Agrees ∧ r'.allocator.Observed ∧
      r'.ownerPaths = r.ownerPaths ∧
      ∀ key', r'.reserved.get? key' = if key' = key then none else r.reserved.get? key' := by
  obtain ⟨owner, howner⟩ := Option.ne_none_iff_exists'.1 hget
  obtain ⟨m, hdelete, hm, hgets⟩ := hagrees.delete howner
  refine ⟨{ r with reserved := m, allocator := (upwards key).foldl (·.release ·) r.allocator },
    ?_, hm, observed_upwards hobserved _, rfl, hgets⟩
  rw [releaseKey, hdelete]

/-- Releasing stored keys one after the other does not fail, and frees them and no other. -/
theorem releaseKeys_spec (hagrees : r.reserved.Agrees) (hobserved : r.allocator.Observed)
    {keys : List Key} (hnodup : keys.Nodup) (hget : ∀ key ∈ keys, r.reserved.get? key ≠ none) :
    ∃ r', keys.foldlM releaseKey r = .ok r' ∧ r'.reserved.Agrees ∧ r'.allocator.Observed ∧
      r'.ownerPaths = r.ownerPaths ∧
      ∀ key', r'.reserved.get? key' = if key' ∈ keys then none else r.reserved.get? key' := by
  induction keys generalizing r with
  | nil => exact ⟨r, rfl, hagrees, hobserved, rfl, fun key' => by simp⟩
  | cons key keys ih =>
    obtain ⟨hkey, hnodup⟩ := List.nodup_cons.1 hnodup
    obtain ⟨b, hb, hagrees', hobserved', howners, hgets⟩ :=
      releaseKey_spec hagrees hobserved (hget key List.mem_cons_self)
    obtain ⟨r', hr', hagrees'', hobserved'', howners', hgets'⟩ := ih hagrees' hobserved' hnodup
      fun k hk => by
        rw [hgets, if_neg fun heq : k = key => hkey (heq ▸ hk)]
        exact hget k (List.mem_cons_of_mem _ hk)
    refine ⟨r', ?_, hagrees'', hobserved'', howners'.trans howners, fun key' => ?_⟩
    · rw [List.foldlM_cons, hb]
      exact hr'
    · rw [hgets', hgets]
      by_cases hmem : key' ∈ keys
      · rw [if_pos hmem, if_pos (List.mem_cons_of_mem _ hmem)]
      · rw [if_neg hmem]
        simp only [List.mem_cons, hmem, or_false]

end Registry

end Sunpack.Reservation
