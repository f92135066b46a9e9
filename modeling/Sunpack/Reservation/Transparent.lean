import Sunpack.Lib.FirstFree
import Sunpack.Lib.Machine
import Sunpack.Reservation.Hints

/-!
# Search hints are transparent

Histories of one allocator: requests for names, whose answers are reserved, reservations made and
released by others, and files that appear. A released key goes through `release`. Files are found by
their keys, which is how the system compares names.

A family is found by the name without its number, and two names may be split around their number in
different places and still be of one family: the directory `a.b` has the alternatives `a.b(1)`, the
file `a.b` has `a(1).b`. The hints of one then hide free names of the other. `splits` is the history's
record of the split that each family was made for; where the splits agree (`SameSplit`), the answer is
that of a new allocator.
-/

namespace Sunpack.Reservation.Hints

open Lib OutputPathAllocator

/-- The names of Windows. -/
def windows (T : DowncaseTable) (digit : Char → Option Nat) (splitext : Text → Text × Text) :
    Naming where
  caseKey := T.pathKey
  digit := digit
  splitext := splitext

structure Call where
  path : Path
  isDirectory : Bool
  localReserved : List Key
  /-- Where directories are at the time of the call. -/
  resolve : Path → Key
  resolve_ne : ∀ p, resolve p ≠ []
  /-- The caller has resolved the parent, and passes it. -/
  parentResolved : Bool

namespace Call

variable (naming : Naming) (c : Call)

def candidate : Path := c.path.normpath

def parentKey : Key := c.resolve c.candidate.dirname

def key : Key := joinKey c.parentKey (naming.caseKey c.candidate.basename)

def name : NumberedName := naming.numberedName c.candidate.basename c.isDirectory

def family : Family :=
  ((c.parentKey, naming.caseKey ((c.name naming).baseStem ++ (c.name naming).extension)),
    (c.name naming).start)

/-- What stands before and after the number, as keys have it. -/
def split : Text × Text :=
  (naming.caseKey (c.name naming).baseStem, naming.caseKey (c.name naming).extension)

def numbered (index : Nat) : Path := c.candidate.dirname.join [(c.name naming).text index]

def numberedKey (index : Nat) : Key :=
  joinKey c.parentKey (naming.caseKey (c.numbered naming index).basename)

def fileSystem (disk : List Key) : FileSystem where
  exists? p := joinKey (c.resolve p.dirname) (naming.caseKey p.basename) ∈ disk
  resolve := c.resolve
  resolve_ne := c.resolve_ne

def physicalParent : Option Key := if c.parentResolved then some c.parentKey else none

end Call

structure State where
  allocator : OutputPathAllocator := {}
  reserved : List Key := []
  disk : List Key := []
  splits : Nat → Text × Text := fun _ => ([], [])

inductive Action
  | reserve (keys : List Key)
  | write (keys : List Key)
  | next (fuel : Nat) (c : Call)
  /-- The keys that are reserved no more, and all that are passed to `release`. -/
  | release (gone keys : List Key)

variable (naming : Naming)

def State.next (s : State) (fuel : Nat) (c : Call) : Except Fault (OutputPathAllocator × Path) :=
  s.allocator.nextAvailable naming (c.fileSystem naming s.disk)
    (exclusions s.reserved c.localReserved) fuel c.path c.isDirectory c.physicalParent

/-- The state after an answer: the path is reserved. -/
def State.answered (s : State) (c : Call) (a : OutputPathAllocator) (p : Path) : State where
  allocator := a
  reserved := joinKey c.parentKey (naming.caseKey p.basename) :: s.reserved
  disk := s.disk
  splits :=
    if a.nextObject = s.allocator.nextObject then s.splits
    else Function.update s.splits s.allocator.nextObject (c.split naming)

def step (s : State) : Action → Option State
  | .reserve keys => some { s with reserved := keys ++ s.reserved }
  | .write keys => some { s with disk := keys ++ s.disk }
  | .next fuel c =>
    match s.next naming fuel c with
    | .error _ => none
    | .ok (a, p) => some (s.answered naming c a p)
  | .release gone keys =>
    if gone ⊆ keys then
      some { s with
        allocator := keys.foldl OutputPathAllocator.release s.allocator
        reserved := s.reserved.filter (· ∉ gone) }
    else none

def machine : Machine State Action where
  init := {}
  step := step naming

/-- The name itself if it is free, or else the free alternative with the least number. -/
def Call.Picks (c : Call) (s : State) (p : Path) : Prop :=
  (Vacant s.reserved c.localReserved s.disk (c.key naming) → p = c.candidate) ∧
  (¬ Vacant s.reserved c.localReserved s.disk (c.key naming) →
    ∃ index, p = c.numbered naming index ∧ (c.name naming).start ≤ index ∧
      Vacant s.reserved c.localReserved s.disk (c.numberedKey naming index) ∧
      ∀ other, (c.name naming).start ≤ other → other < index →
        ¬ Vacant s.reserved c.localReserved s.disk (c.numberedKey naming other))

/-- A call that needs a number finds no family, or one that was made for a name split as its own. -/
def SameSplit (s : State) (c : Call) : Prop :=
  ¬ Vacant s.reserved c.localReserved s.disk (c.key naming) →
    ∀ id, s.allocator.numbers.get? (c.family naming) = some id → s.splits id = c.split naming

def Unmixed (s : State) : Action → Prop
  | .next _ c => SameSplit naming s c
  | _ => True

/-! ## Numbered keys -/

/-- The alternatives of a name that is split this way. -/
def keyOf (parent : Key) (split : Text × Text) (index : Nat) : Key :=
  parent ++ [split.1 ++ ['('] ++ Nat.toDigits 10 index ++ [')'] ++ split.2]

theorem keyOf_injective (parent : Key) (split : Text × Text) :
    Function.Injective (keyOf parent split) := by
  intro m n h
  have hdigits : Nat.toDigits 10 m = Nat.toDigits 10 n := by simpa [keyOf] using h
  rw [← @Nat.ofDigitChars_ten_toDigits m, hdigits, Nat.ofDigitChars_ten_toDigits]

theorem joinKey_of_mem {parent : Key} {component : Text} (h : '(' ∈ component) :
    joinKey parent component = parent ++ [component] := by
  unfold joinKey
  split_ifs with hempty hdots
  · simp only [Bool.or_eq_true, decide_eq_true_eq] at hempty
    rcases hempty with rfl | rfl <;> exact absurd h (by decide)
  · subst hdots
    exact absurd h (by decide)
  · subst hdots
    exact absurd h (by decide)
  · rfl

section

variable {T : DowncaseTable} {digit : Char → Option Nat} {splitext : Text → Text × Text}

/-- Digits have no case. -/
theorem keyChar_digit {c : Char} (h : c.isDigit = true) : T.keyChar c = c := by
  have hrange : 48 ≤ c.toNat ∧ c.toNat ≤ 57 := by
    simpa [Char.isDigit, UInt32.le_iff_toNat_le] using h
  have hlower : c.toLower = c := by
    rw [Char.toLower, dif_neg]
    rintro ⟨hle, -⟩
    have : 65 ≤ c.toNat := hle
    omega
  rw [DowncaseTable.keyChar, T.downcaseChar_ascii (by omega), hlower, if_neg]
  rintro rfl
  exact absurd hrange (by decide)

theorem numberedKey_eq (T : DowncaseTable) (digit : Char → Option Nat)
    (splitext : Text → Text × Text) (c : Call) : c.numberedKey (windows T digit splitext) =
      keyOf c.parentKey (c.split (windows T digit splitext)) := by
  funext index
  have hdigits : (Nat.toDigits 10 index).map T.keyChar = Nat.toDigits 10 index := by
    refine (List.map_congr_left fun d hd => ?_).trans (List.map_id _)
    exact keyChar_digit (Nat.isDigit_of_mem_toDigits (by decide) (by decide) hd)
  have hopen : T.keyChar '(' = '(' := by
    rw [DowncaseTable.keyChar, T.downcaseChar_ascii (by decide)]
    rfl
  have hclose : T.keyChar ')' = ')' := by
    rw [DowncaseTable.keyChar, T.downcaseChar_ascii (by decide)]
    rfl
  have hbasename : (c.numbered (windows T digit splitext) index).basename =
      (c.name (windows T digit splitext)).text index := by
    simp [Call.numbered, Path.join, Path.basename]
  have hmem : '(' ∈ T.pathKey ((c.name (windows T digit splitext)).text index) := by
    rw [T.pathKey_eq_map, NumberedName.text]
    simp [hopen]
  rw [Call.numberedKey, hbasename, keyOf, Call.split]
  refine (joinKey_of_mem hmem).trans ?_
  simp [windows, T.pathKey_eq_map, NumberedName.text, hdigits, hopen, hclose]

end

/-! ## Hints of a history -/

structure Sound (s : State) : Prop where
  numbered : s.allocator.Numbered
  hinted : ∀ family id, s.allocator.numbers.get? family = some id →
    Hinted s.reserved s.disk s.allocator id family.2 (keyOf family.1.1 (s.splits id)) []

theorem sound_empty (reserved disk : List Key) (splits : Nat → Text × Text) :
    Sound { reserved := reserved, disk := disk, splits := splits } where
  numbered := numbered_empty
  hinted family id h := by simp [Dict.get?_empty] at h

variable {naming} {s s' : State} {c : Call} {fuel : Nat} {a : OutputPathAllocator} {p : Path}

/-- A call answers the name, or searches with the object of its family. -/
theorem next_eq (naming : Naming) (s : State) (fuel : Nat) (c : Call) :
    (Vacant s.reserved c.localReserved s.disk (c.key naming) ∧
      s.next naming fuel c = .ok (s.allocator, c.candidate)) ∨
    ¬ Vacant s.reserved c.localReserved s.disk (c.key naming) ∧
      s.next naming fuel c = (s.allocator.numbersOf (c.family naming)).bind fun found =>
        found.1.search (c.fileSystem naming s.disk) (exclusions s.reserved c.localReserved)
          (c.numbered naming) (c.numberedKey naming) found.2 fuel [] := by
  have hparent : c.physicalParent.getD (c.resolve c.path.normpath.dirname) = c.parentKey := by
    unfold Call.physicalParent
    split_ifs <;> rfl
  unfold State.next OutputPathAllocator.nextAvailable
  dsimp only [Call.fileSystem]
  rw [hparent]
  simp only [exclusions, Bool.and_eq_true, Bool.not_eq_true', decide_eq_false_iff_not]
  split_ifs with hfree
  · exact .inl ⟨⟨hfree.1.1, hfree.1.2, hfree.2⟩, rfl⟩
  · refine .inr ⟨fun hvacant => ?_, rfl⟩
    exact hfree ⟨⟨hvacant.1, hvacant.2.1⟩, hvacant.2.2⟩

theorem exists_numbered (c : Call) (disk : List Key) (index : Nat) :
    (c.fileSystem naming disk).exists? (c.numbered naming index) =
      decide (c.numberedKey naming index ∈ disk) := by
  have hdirname : (c.numbered naming index).dirname = c.candidate.dirname := by
    simp only [Call.numbered, Path.join, Path.dirname, List.dropLast_concat]
  refine decide_eq_decide.2 ?_
  rw [hdirname]
  exact Iff.rfl

section

variable {T : DowncaseTable} {digit : Char → Option Nat} {splitext : Text → Text × Text}

/-- A search with hints that are right for the call answers the least number, and all hints are right
when its path is reserved. -/
theorem Sound.search {b : OutputPathAllocator} {id : Nat} {splits : Nat → Text × Text}
    (h : Sound { s with allocator := b, splits := splits })
    (hget : b.numbers.get? (c.family (windows T digit splitext)) = some id)
    (hsplit : splits id = c.split (windows T digit splitext))
    (hok : b.search (c.fileSystem (windows T digit splitext) s.disk)
      (exclusions s.reserved c.localReserved) (c.numbered (windows T digit splitext))
      (c.numberedKey (windows T digit splitext)) id fuel [] = .ok (a, p)) :
    (∃ index, p = c.numbered (windows T digit splitext) index ∧
      (c.name (windows T digit splitext)).start ≤ index ∧
      Vacant s.reserved c.localReserved s.disk (c.numberedKey (windows T digit splitext) index) ∧
      ∀ other, (c.name (windows T digit splitext)).start ≤ other → other < index →
        ¬ Vacant s.reserved c.localReserved s.disk
          (c.numberedKey (windows T digit splitext) other)) ∧
      a.nextObject = b.nextObject ∧
      Sound { allocator := a, disk := s.disk, splits := splits
              reserved := joinKey c.parentKey
                ((windows T digit splitext).caseKey p.basename) :: s.reserved } := by
  have hkeys := numberedKey_eq T digit splitext c
  have hinj : Function.Injective (c.numberedKey (windows T digit splitext)) := by
    rw [hkeys]
    exact keyOf_injective _ _
  have hown := h.hinted _ id hget
  dsimp only [Call.family] at hown
  rw [hsplit, ← hkeys] at hown
  have hkeeps := keeps_search hok
  obtain ⟨index, rfl, hstart, hvacant, hleast, hhinted⟩ := hown.search hinj
    (exists_numbered c s.disk) (fun i hi => absurd hi List.not_mem_nil) hok
  refine ⟨⟨index, rfl, hstart, hvacant, hleast⟩, hkeeps.nextObject, ?_, fun f i hf => ?_⟩
  · exact h.numbered.of_keeps hkeeps (h.numbered.lt _ id hget)
      (h.numbered.observed.search_ok hok).1
  · replace hf : b.numbers.get? f = some i := hkeeps.numbers ▸ hf
    by_cases heq : i = id
    · obtain rfl := h.numbered.unique f _ i hf (heq ▸ hget)
      subst heq
      dsimp only [Call.family]
      rw [hsplit, ← hkeys]
      exact hhinted
    · exact (h.hinted f i hf).mono (List.subset_cons_self _ _) (List.Subset.refl _)
        (hkeeps.objects i heq) (hkeeps.slot i heq)

/-- An answer is the path a search without history would pick. -/
theorem Sound.next (h : Sound s) (hsame : SameSplit (windows T digit splitext) s c)
    (hok : s.next (windows T digit splitext) fuel c = .ok (a, p)) :
    c.Picks (windows T digit splitext) s p ∧ Sound (s.answered (windows T digit splitext) c a p) := by
  rcases next_eq (windows T digit splitext) s fuel c with ⟨hfree, heq⟩ | ⟨hnot, heq⟩
  · rw [heq] at hok
    obtain ⟨rfl, rfl⟩ := Prod.mk.inj (Except.ok.inj hok)
    refine ⟨⟨fun _ => rfl, fun hnot => absurd hfree hnot⟩, h.numbered, fun f i hf => ?_⟩
    dsimp only [State.answered] at hf ⊢
    rw [if_pos rfl]
    exact (h.hinted f i hf).mono (List.subset_cons_self _ _) (List.Subset.refl _) rfl fun _ => rfl
  · rw [heq] at hok
    rcases h.numbered.numbersOf (c.family (windows T digit splitext)) with
      ⟨id, hget, hnumbers⟩ | ⟨hnone, b, hnumbers, hopens⟩
    · -- the family is known
      rw [hnumbers] at hok
      have htouched : Sound { s with
          allocator := { s.allocator with
            numbers := (s.allocator.numbers.erase (c.family (windows T digit splitext))).set
              (c.family (windows T digit splitext)) id } } := by
        refine ⟨h.numbered.touch hget, fun f i hf => ?_⟩
        exact (h.hinted f i ((get?_touch hget f).symm.trans hf)).mono (List.Subset.refl _)
          (List.Subset.refl _) rfl fun _ => rfl
      obtain ⟨hpicks, hnext, hsound⟩ := htouched.search ((get?_touch hget _).trans hget)
        (hsame hnot id hget) hok
      refine ⟨⟨fun hfree => absurd hfree hnot, fun _ => hpicks⟩, ?_⟩
      unfold State.answered
      rw [if_pos hnext]
      exact hsound
    · -- the family is new
      rw [hnumbers] at hok
      have hopened : Sound { s with
          allocator := b
          splits := Function.update s.splits s.allocator.nextObject
            (c.split (windows T digit splitext)) } := by
        refine ⟨hopens.numbered, fun f i hf => ?_⟩
        dsimp only at hf ⊢
        by_cases hself : f = c.family (windows T digit splitext)
        · obtain rfl : s.allocator.nextObject = i :=
            Option.some.inj (hopens.self.symm.trans (hself ▸ hf))
          refine ⟨?_, fun k index hs => ?_, fun index hmem => absurd hmem List.not_mem_nil,
            fun index hindex hc _ => ?_⟩
          · rw [hopens.object, hself]
            exact ⟨List.Pairwise.nil, le_rfl, fun index hmem => absurd hmem List.not_mem_nil⟩
          · rw [hopens.slot_none] at hs
            cases hs
          · refine absurd (.inl ?_) hc
            rw [hopens.object, ← hself]
            exact hindex
        · obtain ⟨hold, hobject, hslot⟩ := hopens.others f i hf hself
          rw [Function.update_of_ne (Nat.ne_of_lt (h.numbered.lt f i hold))]
          exact (h.hinted f i hold).mono (List.Subset.refl _) (List.Subset.refl _) hobject hslot
      obtain ⟨hpicks, hnext, hsound⟩ := hopened.search hopens.self (Function.update_self _ _ _) hok
      refine ⟨⟨fun hfree => absurd hfree hnot, fun _ => hpicks⟩, ?_⟩
      unfold State.answered
      rw [if_neg]
      · exact hsound
      · rw [hnext, hopens.nextObject]
        exact Nat.succ_ne_self _

theorem Sound.step (h : Sound s) {act : Action} (hsame : Unmixed (windows T digit splitext) s act)
    (hstep : step (windows T digit splitext) s act = some s') : Sound s' := by
  cases act with
  | reserve keys =>
    obtain rfl := Option.some.inj hstep
    exact ⟨h.numbered, fun f i hf => (h.hinted f i hf).mono (List.subset_append_right _ _)
      (List.Subset.refl _) rfl fun _ => rfl⟩
  | write keys =>
    obtain rfl := Option.some.inj hstep
    exact ⟨h.numbered, fun f i hf => (h.hinted f i hf).mono (List.Subset.refl _)
      (List.subset_append_right _ _) rfl fun _ => rfl⟩
  | next fuel c =>
    rw [Hints.step] at hstep
    split at hstep
    · cases hstep
    · rename_i a p hok
      exact Option.some.inj hstep ▸ (h.next hsame hok).2
  | release gone keys =>
    rw [Hints.step] at hstep
    split_ifs at hstep with hsub
    obtain rfl := Option.some.inj hstep
    have hkept : s.reserved.filter (· ∉ keys) ⊆ s.reserved.filter (· ∉ gone) := by
      intro k hmem
      simp only [List.mem_filter, decide_eq_true_eq] at hmem ⊢
      exact ⟨hmem.1, fun hgone => hmem.2 (hsub hgone)⟩
    refine ⟨h.numbered.releaseAll keys, fun f i hf => ?_⟩
    exact ((h.hinted f i ((numbers_releaseAll _ keys) ▸ hf)).releaseAll keys).mono hkept
      (List.Subset.refl _) rfl fun _ => rfl

end

/-! ## Every history -/

theorem numbered_next (h : s.allocator.Numbered) (hok : s.next naming fuel c = .ok (a, p)) :
    a.Numbered := by
  rcases next_eq naming s fuel c with ⟨-, heq⟩ | ⟨-, heq⟩
  · rw [heq] at hok
    exact (Prod.mk.inj (Except.ok.inj hok)).1 ▸ h
  · rw [heq] at hok
    rcases h.numbersOf (c.family naming) with ⟨id, hget, hnumbers⟩ | ⟨-, b, hnumbers, hopens⟩
    · rw [hnumbers] at hok
      have htouch := h.touch hget
      exact htouch.of_keeps (keeps_search hok) (h.lt _ id hget) (htouch.observed.search_ok hok).1
    · rw [hnumbers] at hok
      exact hopens.numbered.of_keeps (keeps_search hok)
        (by rw [hopens.nextObject]; exact Nat.lt_succ_self _)
        (hopens.numbered.observed.search_ok hok).1

theorem numbered_step {act : Action} (h : s.allocator.Numbered)
    (hstep : step naming s act = some s') : s'.allocator.Numbered := by
  cases act with
  | reserve keys => exact Option.some.inj hstep ▸ h
  | write keys => exact Option.some.inj hstep ▸ h
  | next fuel c =>
    rw [Hints.step] at hstep
    split at hstep
    · cases hstep
    · rename_i a p hok
      exact Option.some.inj hstep ▸ numbered_next h hok
  | release gone keys =>
    rw [Hints.step] at hstep
    split_ifs at hstep
    exact Option.some.inj hstep ▸ h.releaseAll keys

theorem next_no_keyError (h : s.allocator.Numbered) (fuel : Nat) (c : Call) :
    s.next naming fuel c ≠ .error .keyError := by
  intro heq
  have hspec := h.observed.nextAvailable naming (c.fileSystem naming s.disk)
    (exclusions s.reserved c.localReserved) fuel c.path c.isDirectory c.physicalParent
  unfold State.next at heq
  rw [heq] at hspec
  cases hspec

/-- What is reserved or on the disk is finite, so some number is vacant. -/
theorem next_ends (h : s.allocator.Numbered) (c : Call)
    (hinj : Function.Injective (c.numberedKey naming)) :
    ∃ enough, ∀ fuel, enough ≤ fuel → ∃ a p, s.next naming fuel c = .ok (a, p) := by
  have hsearch (b : OutputPathAllocator) (id : Nat) : ∃ enough, ∀ fuel, enough ≤ fuel →
      ∃ a p, b.search (c.fileSystem naming s.disk) (exclusions s.reserved c.localReserved)
        (c.numbered naming) (c.numberedKey naming) id fuel [] = .ok (a, p) := by
    have hvacant : c.numberedKey naming (firstFree (s.reserved ++ c.localReserved ++ s.disk)
        (c.numberedKey naming) (b.objects id).nextIndex) ∉
          s.reserved ++ c.localReserved ++ s.disk := firstFree_free hinj _
    have hle := firstFree_le (s.reserved ++ c.localReserved ++ s.disk) (c.numberedKey naming)
      (b.objects id).nextIndex
    generalize firstFree (s.reserved ++ c.localReserved ++ s.disk) (c.numberedKey naming)
      (b.objects id).nextIndex = target at hvacant hle
    simp only [List.mem_append, not_or] at hvacant
    refine ⟨(b.objects id).effort target, fun fuel hfuel => search_ends hle ?_ ?_ ?_ hfuel⟩
    · exact decide_eq_false hvacant.1.1
    · exact decide_eq_false hvacant.1.2
    · rw [exists_numbered]
      exact decide_eq_false hvacant.2
  rcases h.numbersOf (c.family naming) with ⟨id, -, hnumbers⟩ | ⟨-, b, hnumbers, -⟩
  all_goals
    obtain ⟨enough, henough⟩ := hsearch _ _
    refine ⟨enough, fun fuel hfuel => ?_⟩
    rcases next_eq naming s fuel c with ⟨-, heq⟩ | ⟨-, heq⟩
    · exact ⟨_, _, heq⟩
    · rw [heq, hnumbers]
      exact henough fuel hfuel

theorem Call.Picks.unique {p' : Path} (h : c.Picks naming s p) (h' : c.Picks naming s p') :
    p = p' := by
  by_cases hfree : Vacant s.reserved c.localReserved s.disk (c.key naming)
  · rw [h.1 hfree, h'.1 hfree]
  · obtain ⟨i, rfl, hi, hvacant, hleast⟩ := h.2 hfree
    obtain ⟨j, rfl, hj, hvacant', hleast'⟩ := h'.2 hfree
    rcases Nat.lt_trichotomy i j with hlt | rfl | hlt
    · exact absurd hvacant (hleast' i hi hlt)
    · rfl
    · exact absurd hvacant' (hleast j hj hlt)

/-- Searches end and the tables are never short of a key. While the families that are met agree with
the calls on where names are split, the allocator answers what a new one would: the name, or the free
alternative with the least number. -/
theorem hints_transparent (T : DowncaseTable) (digit : Char → Option Nat)
    (splitext : Text → Text × Text) :
    (∀ s, (machine (windows T digit splitext)).Reachable s → ∀ c,
      (∃ enough, ∀ fuel, enough ≤ fuel → ∃ a p,
        s.next (windows T digit splitext) fuel c = .ok (a, p)) ∧
      ∀ fuel, s.next (windows T digit splitext) fuel c ≠ .error .keyError) ∧
    ∀ s, ((machine (windows T digit splitext)).restrict
        (Unmixed (windows T digit splitext))).Reachable s →
      ∀ c, SameSplit (windows T digit splitext) s c →
        ∃ enough p, c.Picks (windows T digit splitext) s p ∧ ∀ fuel, enough ≤ fuel →
          (∃ a, s.next (windows T digit splitext) fuel c = .ok (a, p)) ∧
          ∃ a, { s with allocator := {} }.next (windows T digit splitext) fuel c = .ok (a, p) := by
  have hinj (c : Call) : Function.Injective (c.numberedKey (windows T digit splitext)) := by
    rw [numberedKey_eq]
    exact keyOf_injective _ _
  refine ⟨fun s hs c => ?_, fun s hs c hsame => ?_⟩
  · have hnumbered : s.allocator.Numbered := hs.invariant (P := fun s => s.allocator.Numbered)
      numbered_empty fun s act t h hstep => numbered_step h hstep
    exact ⟨next_ends hnumbered c (hinj c), fun fuel => next_no_keyError hnumbered fuel c⟩
  · have hsound : Sound s := by
      refine hs.invariant (P := Sound) (sound_empty [] [] _) fun s act t h hstep => ?_
      obtain ⟨hguard, hstep⟩ := Machine.restrict_step.1 hstep
      exact h.step hguard hstep
    have hnew := sound_empty s.reserved s.disk s.splits
    have hnewSame : SameSplit (windows T digit splitext) { s with allocator := {} } c := by
      intro _ id hget
      simp [Dict.get?_empty] at hget
    obtain ⟨enough, hends⟩ := next_ends hsound.numbered c (hinj c)
    obtain ⟨enough', hends'⟩ := next_ends (s := { s with allocator := {} }) hnew.numbered c (hinj c)
    obtain ⟨a, p, hok⟩ := hends enough le_rfl
    have hpicks := (hsound.next hsame hok).1
    refine ⟨max enough enough', p, hpicks, fun fuel hfuel => ⟨?_, ?_⟩⟩
    · obtain ⟨a', p', hok'⟩ := hends fuel ((Nat.le_max_left _ _).trans hfuel)
      exact ⟨a', by rw [hok', hpicks.unique (hsound.next hsame hok').1]⟩
    · obtain ⟨a', p', hok'⟩ := hends' fuel ((Nat.le_max_right _ _).trans hfuel)
      exact ⟨a', by rw [hok', hpicks.unique (hnew.next hnewSame hok').1]⟩

/-! ## Directories only -/

def Directories (_ : State) : Action → Prop
  | .next _ c => c.isDirectory = true
  | _ => True

/-- Families of directories are split at the end. -/
def AtEnd (naming : Naming) (s : State) : Prop :=
  s.allocator.Numbered ∧ ∀ f id, s.allocator.numbers.get? f = some id →
    s.splits id = (f.1.2, naming.caseKey [])

theorem Call.name_directory (hdirectory : c.isDirectory = true) :
    (c.name naming).extension = [] := by
  unfold Call.name Naming.numberedName
  rw [hdirectory]
  rfl

theorem Call.split_directory (hdirectory : c.isDirectory = true) :
    c.split naming = ((c.family naming).1.2, naming.caseKey []) := by
  unfold Call.split Call.family
  rw [name_directory hdirectory, List.append_nil]

theorem AtEnd.answered (h : AtEnd naming s) (hdirectory : c.isDirectory = true)
    (hok : s.next naming fuel c = .ok (a, p)) : AtEnd naming (s.answered naming c a p) := by
  refine ⟨numbered_next h.1 hok, ?_⟩
  unfold State.answered
  rcases next_eq naming s fuel c with ⟨-, heq⟩ | ⟨-, heq⟩
  · rw [heq] at hok
    obtain ⟨rfl, -⟩ := Prod.mk.inj (Except.ok.inj hok)
    rw [if_pos rfl]
    exact h.2
  · rw [heq] at hok
    rcases h.1.numbersOf (c.family naming) with ⟨id, hget, hnumbers⟩ | ⟨-, b, hnumbers, hopens⟩
    · rw [hnumbers] at hok
      have hkeeps := keeps_search hok
      rw [if_pos hkeeps.nextObject]
      intro f i hf
      replace hf : a.numbers.get? f = some i := hf
      rw [hkeeps.numbers] at hf
      exact h.2 f i ((get?_touch hget f).symm.trans hf)
    · rw [hnumbers] at hok
      have hkeeps := keeps_search hok
      rw [if_neg]
      · intro f i hf
        replace hf : b.numbers.get? f = some i := hkeeps.numbers ▸ hf
        by_cases hself : f = c.family naming
        · obtain rfl : s.allocator.nextObject = i :=
            Option.some.inj (hopens.self.symm.trans (hself ▸ hf))
          rw [hself]
          exact (Function.update_self _ _ _).trans (Call.split_directory hdirectory)
        · obtain ⟨hold, -⟩ := hopens.others f i hf hself
          exact (Function.update_of_ne (Nat.ne_of_lt (h.1.lt f i hold)) _ _).trans (h.2 f i hold)
      · rw [hkeeps.nextObject, hopens.nextObject]
        exact Nat.succ_ne_self _

/-- An allocator that is asked for directories only never mixes splits. -/
theorem directories_unmixed (hs : ((machine naming).restrict Directories).Reachable s) :
    ((machine naming).restrict (Unmixed naming)).Reachable s ∧
      ∀ c, c.isDirectory = true → SameSplit naming s c := by
  have hsame (s : State) (h : AtEnd naming s) (c : Call) (hdirectory : c.isDirectory = true) :
      SameSplit naming s c := by
    intro _ id hget
    rw [h.2 _ id hget, Call.split_directory hdirectory]
  let P (s : State) : Prop :=
    ((machine naming).restrict (Unmixed naming)).Reachable s ∧ AtEnd naming s
  have hinit : P {} := ⟨Machine.Steps.refl, numbered_empty, fun f id h => by
    simp [Dict.get?_empty] at h⟩
  have hkept (s : State) (act : Action) (t : State) (h : P s)
      (hstep : ((machine naming).restrict Directories).step s act = some t) : P t := by
    obtain ⟨hreach, hend⟩ := h
    obtain ⟨hguard, hstep⟩ := Machine.restrict_step.1 hstep
    have hunmixed : Unmixed naming s act := by
      cases act with
      | next fuel c => exact hsame s hend c hguard
      | _ => trivial
    refine ⟨hreach.step act (Machine.restrict_step.2 ⟨hunmixed, hstep⟩), ?_⟩
    replace hstep : step naming s act = some t := hstep
    have hnumbered := numbered_step hend.1 hstep
    cases act with
    | reserve keys => exact Option.some.inj hstep ▸ hend
    | write keys => exact Option.some.inj hstep ▸ hend
    | next fuel c =>
      rw [Hints.step] at hstep
      split at hstep
      · cases hstep
      · rename_i a p hok
        exact Option.some.inj hstep ▸ hend.answered hguard hok
    | release gone keys =>
      refine ⟨hnumbered, ?_⟩
      rw [Hints.step] at hstep
      split_ifs at hstep
      obtain rfl := Option.some.inj hstep
      intro f id hf
      exact hend.2 f id (numbers_releaseAll s.allocator keys ▸ hf)
  have hboth : P s := Machine.Reachable.invariant hinit hkept hs
  exact ⟨hboth.1, hsame s hboth.2⟩

/-! ## A directory and a file -/

/-- `os.path.splitext` of a name. -/
def splitext (name : Text) : Text × Text :=
  match name.reverse.dropWhile (· ≠ '.') with
  | [] => (name, [])
  | _ :: before =>
    if before.any (· ≠ '.') then (before.reverse, name.drop before.length) else (name, [])

def asciiNames : Naming :=
  windows .asciiOnly (fun c => if c.isDigit then some (c.toNat - '0'.toNat) else none) splitext

def atDrive (name : String) : Path := ⟨"C:".toList, [name.toList]⟩

def callFor (name : String) (isDirectory : Bool) : Call where
  path := atDrive name
  isDirectory := isDirectory
  localReserved := []
  resolve p := (p.root :: p.parts).map (·.map Char.toLower)
  resolve_ne _ := List.cons_ne_nil _ _
  parentResolved := false

/-- `a.b` exists, and is asked for as a directory. -/
def directoryRun : List Action :=
  [.write [["c:".toList, "a.b".toList]], .next 1 (callFor "a.b" true)]

/-- The directory is asked for once more. -/
theorem hints_transparent_directory :
    ∃ s, (machine asciiNames).exec {} directoryRun = some s ∧
      ∃ enough p, (callFor "a.b" true).Picks asciiNames s p ∧ ∀ fuel, enough ≤ fuel →
        (∃ a, s.next asciiNames fuel (callFor "a.b" true) = .ok (a, p)) ∧
        ∃ a, State.next asciiNames { s with allocator := {} } fuel (callFor "a.b" true) =
          .ok (a, p) := by
  obtain ⟨s, hexec⟩ : ∃ s, (machine asciiNames).exec {} directoryRun = some s :=
    Option.isSome_iff_exists.1 (by decide)
  have hs : ((machine asciiNames).restrict Directories).Reachable s := by
    simp only [directoryRun, Machine.exec, Option.bind_eq_some_iff] at hexec
    obtain ⟨s₁, hwrite, s₂, hnext, hlast⟩ := hexec
    obtain rfl := Option.some.inj hlast
    have hfirst : ((machine asciiNames).restrict Directories).Reachable s₁ :=
      .tail (.write [["c:".toList, "a.b".toList]]) .refl
        (Machine.restrict_step.2 ⟨trivial, hwrite⟩)
    exact hfirst.step (.next 1 (callFor "a.b" true)) (Machine.restrict_step.2 ⟨rfl, hnext⟩)
  obtain ⟨hunmixed, hsame⟩ := directories_unmixed hs
  exact ⟨s, hexec, (hints_transparent .asciiOnly _ splitext).2 s hunmixed _ (hsame _ rfl)⟩

theorem directoryRun_answers :
    ((machine asciiNames).exec {} directoryRun).map (fun s =>
      ((s.next asciiNames 1 (callFor "a.b" false)).toOption.map (·.2),
        (State.next asciiNames { s with allocator := {} } 1 (callFor "a.b" false)).toOption.map
          (·.2))) = some (some (atDrive "a(2).b"), some (atDrive "a(1).b")) := by
  decide

/-- The file is not given the free name `a(1).b`. -/
theorem file_after_directory :
    ¬ ∀ s, (machine asciiNames).Reachable s → ∀ c fuel a p a' p',
      s.next asciiNames fuel c = .ok (a, p) →
      State.next asciiNames { s with allocator := {} } fuel c = .ok (a', p') → p = p' := by
  intro hall
  obtain ⟨s, hexec, hanswers⟩ := Option.map_eq_some_iff.1 directoryRun_answers
  obtain ⟨hown, hnew⟩ := Prod.mk.inj hanswers
  obtain ⟨⟨a, p⟩, hok, hp⟩ := Option.map_eq_some_iff.1 hown
  obtain ⟨⟨a', p'⟩, hok', hp'⟩ := Option.map_eq_some_iff.1 hnew
  have hanswer (e : Except Fault (OutputPathAllocator × Path)) (y) (h : e.toOption = some y) :
      e = .ok y := by
    cases e with
    | error e => cases h
    | ok z => exact congrArg _ (Option.some.inj h)
  have hpath : p = p' := hall s (Machine.Reachable.of_exec hexec) (callFor "a.b" false) 1 a p a' p'
    (hanswer _ _ hok) (hanswer _ _ hok')
  dsimp only at hp hp'
  rw [← hpath, hp] at hp'
  revert hp'
  decide

end Sunpack.Reservation.Hints
