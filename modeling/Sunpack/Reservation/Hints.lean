import Sunpack.Reservation.Allocator

/-!
# What a search may leave out

A family remembers which numbers it need not try again. `Hinted` says when that is right: a number from
`start` on that is no `Candidate` any more is on the disk, or it is reserved and its slot will give it
back. `take` finds the least candidate, so a search that starts from such hints ends at the least free
number.
-/

namespace Sunpack.Reservation

open Lib

namespace NumberedPaths

variable {n : NumberedPaths} {start : Nat}

/-- A number that `take` may still return. -/
def Candidate (n : NumberedPaths) (index : Nat) : Prop :=
  n.nextIndex ≤ index ∨ index ∈ n.available

structure Bounded (n : NumberedPaths) (start : Nat) : Prop where
  sorted : n.available.Pairwise (· ≤ ·)
  start_le : start ≤ n.nextIndex
  available_le : ∀ index ∈ n.available, start ≤ index

/-- A number that was given back is taken, or the next one. -/
theorem take_cases (n : NumberedPaths) :
    (∃ first rest, n.available = first :: rest ∧ first < n.nextIndex ∧
      n.take = (first, { n with available := rest })) ∨
    ∃ rest, (n.available = rest ∨ n.available = n.nextIndex :: rest) ∧
      (∀ first ∈ n.available.head?, n.nextIndex ≤ first) ∧
      n.take = (n.nextIndex, { n with nextIndex := n.nextIndex + 1, available := rest }) := by
  unfold take
  rcases havailable : n.available with _ | ⟨first, rest⟩
  · exact .inr ⟨[], .inl rfl, fun _ h => by simp at h, rfl⟩
  · dsimp only
    split_ifs with hlt heq
    · exact .inl ⟨first, rest, rfl, hlt, rfl⟩
    all_goals
      right
      refine ⟨_, ?_, fun other hother => ?_, rfl⟩
    · exact .inr (by rw [heq])
    · rw [List.head?_cons, Option.mem_some_iff] at hother
      omega
    · exact .inl rfl
    · rw [List.head?_cons, Option.mem_some_iff] at hother
      omega

/-- The least candidate is taken, and no other. -/
theorem Bounded.take (h : n.Bounded start) :
    start ≤ n.take.1 ∧ (∀ index, n.Candidate index → n.take.1 ≤ index) ∧ n.take.2.Bounded start ∧
      ∀ index, n.Candidate index → index ≠ n.take.1 → n.take.2.Candidate index := by
  obtain ⟨hsorted, hstart, hle⟩ := h
  rcases take_cases n with ⟨first, rest, havailable, hlt, heq⟩ | ⟨rest, hrest, hhead, heq⟩
  · rw [heq]
    rw [havailable] at hsorted hle
    obtain ⟨hfirst, hrest⟩ := List.pairwise_cons.1 hsorted
    refine ⟨hle first List.mem_cons_self, fun index hc => ?_,
      ⟨hrest, hstart, fun index hmem => hle index (List.mem_cons_of_mem _ hmem)⟩,
      fun index hc hne => hc.imp id fun hmem => ?_⟩
    · rcases hc with hc | hc
      · dsimp only
        omega
      · rw [havailable] at hc
        rcases List.mem_cons.1 hc with rfl | hc
        · exact le_rfl
        · exact hfirst index hc
    · rw [havailable] at hmem
      exact (List.mem_cons.1 hmem).resolve_left hne
  · rw [heq]
    have hsub : rest.Sublist n.available := by
      rcases hrest with h | h
      · exact h ▸ List.Sublist.refl _
      · exact h ▸ List.sublist_cons_self _ _
    have hleast : ∀ index ∈ n.available, n.nextIndex ≤ index := by
      rcases havailable : n.available with _ | ⟨first, rest'⟩
      · exact fun index hmem => absurd hmem List.not_mem_nil
      · have hnext := hhead first (by rw [havailable, List.head?_cons]; rfl)
        rw [havailable] at hsorted
        intro index hmem
        rcases List.mem_cons.1 hmem with rfl | hmem
        · exact hnext
        · exact hnext.trans ((List.pairwise_cons.1 hsorted).1 index hmem)
    refine ⟨hstart, fun index hc => hc.elim id (hleast index),
      ⟨hsorted.sublist hsub, by dsimp only; omega, fun index hmem => hle index (hsub.subset hmem)⟩,
      fun index hc hne => ?_⟩
    rcases hc with hc | hc
    · left
      dsimp only at hne ⊢
      omega
    · right
      rcases hrest with h | h
      · exact h ▸ hc
      · rw [h] at hc
        exact (List.mem_cons.1 hc).resolve_left hne

/-- Releasing a number makes it a candidate and takes none away, also when the history is rewound. -/
theorem Bounded.release (h : n.Bounded start) {index : Nat} (hindex : start ≤ index) :
    (n.release index).Bounded start ∧ (n.release index).Candidate index ∧
      ∀ other, n.Candidate other → (n.release index).Candidate other := by
  obtain ⟨hsorted, hstart, hle⟩ := h
  unfold NumberedPaths.release
  split_ifs with hfull
  · refine ⟨⟨List.Pairwise.nil, ?_, fun other hmem => absurd hmem List.not_mem_nil⟩, .inl ?_,
      fun other hc => .inl ?_⟩
    · rcases havailable : n.available with _ | ⟨first, rest⟩
      · simp only [List.headD_nil]
        omega
      · have := hle first (havailable ▸ List.mem_cons_self)
        simp only [List.headD_cons]
        omega
    · dsimp only
      omega
    · rcases hc with hc | hc
      · dsimp only
        omega
      · rcases havailable : n.available with _ | ⟨first, rest⟩
        · rw [havailable] at hc
          exact absurd hc List.not_mem_nil
        · rw [havailable] at hc hsorted
          have : first ≤ other := by
            rcases List.mem_cons.1 hc with rfl | hc
            · exact le_rfl
            · exact (List.pairwise_cons.1 hsorted).1 other hc
          simp only [List.headD_cons]
          omega
  · refine ⟨⟨hsorted.orderedInsert _ _, hstart, fun other hmem => ?_⟩, .inr ?_,
      fun other hc => hc.imp id fun hmem => ?_⟩
    · rcases (List.mem_orderedInsert _).1 hmem with rfl | hmem
      · exact hindex
      · exact hle other hmem
    · exact (List.mem_orderedInsert _).2 (.inl rfl)
    · exact (List.mem_orderedInsert _).2 (.inr hmem)

/-- An upper bound for the numbers that are taken before `target`. -/
def effort (n : NumberedPaths) (target : Nat) : Nat :=
  n.available.length + (target + 1 - n.nextIndex)

theorem take_effort {target : Nat} (h : n.nextIndex ≤ target) (hne : n.take.1 ≠ target) :
    n.take.2.nextIndex ≤ target ∧ n.take.2.effort target < n.effort target := by
  rcases take_cases n with ⟨first, rest, havailable, hlt, heq⟩ | ⟨rest, hrest, hhead, heq⟩
  · rw [heq, effort, effort, havailable, List.length_cons]
    dsimp only
    omega
  · rw [heq] at hne
    have hlength : rest.length ≤ n.available.length := by
      rcases hrest with h | h
      · exact h ▸ le_rfl
      · rw [h, List.length_cons]
        omega
    rw [heq, effort, effort]
    dsimp only at hne ⊢
    omega

end NumberedPaths

namespace OutputPathAllocator

variable {a a' : OutputPathAllocator}

/-! ## Slots -/

theorem slot_setSlot (a : OutputPathAllocator) (key key' : Key) (id id' index : Nat) :
    (a.setSlot key id index).slot key' id' =
      if key' = key ∧ id' = id then some index else a.slot key' id' := by
  unfold slot
  rw [setSlot_slots]
  by_cases heq : key' = key
  · subst heq
    rw [if_pos rfl, Option.bind_some, Dict.get?_set]
    simp only [true_and]
    split_ifs
    · rfl
    · cases a.slots.get? key' with
      | none => rfl
      | some slots => rfl
  · rw [if_neg heq, if_neg fun h => heq h.1]

theorem slot_release (a : OutputPathAllocator) (key key' : Key) (id : Nat) :
    (a.release key).slot key' id = if key' = key then none else a.slot key' id := by
  unfold release slot
  dsimp only
  rw [(objects_release key ((a.slots.get? key).getD ∅).entries
    { a with slots := a.slots.erase key }).1, Dict.get?_erase]
  split_ifs <;> rfl

/-- What an operation on the object of one family leaves alone. -/
structure Keeps (id : Nat) (a a' : OutputPathAllocator) : Prop where
  numbers : a'.numbers = a.numbers
  nextObject : a'.nextObject = a.nextObject
  objects : ∀ id', id' ≠ id → a'.objects id' = a.objects id'
  slot : ∀ id', id' ≠ id → ∀ key, a'.slot key id' = a.slot key id'

theorem Keeps.refl (id : Nat) (a : OutputPathAllocator) : Keeps id a a :=
  ⟨rfl, rfl, fun _ _ => rfl, fun _ _ _ => rfl⟩

theorem Keeps.trans {id : Nat} {b : OutputPathAllocator} (h : Keeps id a b) (h' : Keeps id b a') :
    Keeps id a a' where
  numbers := h'.numbers.trans h.numbers
  nextObject := h'.nextObject.trans h.nextObject
  objects id' hne := (h'.objects id' hne).trans (h.objects id' hne)
  slot id' hne key := (h'.slot id' hne key).trans (h.slot id' hne key)

theorem keeps_modify (id : Nat) (a : OutputPathAllocator) (f : NumberedPaths → NumberedPaths) :
    Keeps id a (a.modify id f) where
  numbers := rfl
  nextObject := rfl
  objects id' hne := by rw [objects_modify, if_neg hne]
  slot _ _ _ := rfl

theorem keeps_setSlot (key : Key) (id index : Nat) (a : OutputPathAllocator) :
    Keeps id a (a.setSlot key id index) where
  numbers := rfl
  nextObject := rfl
  objects _ _ := rfl
  slot id' hne key' := by rw [slot_setSlot, if_neg fun h => hne h.2]

theorem keeps_releases (id : Nat) (indexes : List Nat) (a : OutputPathAllocator) :
    Keeps id a (indexes.foldl (fun a index => a.modify id (·.release index)) a) := by
  induction indexes generalizing a with
  | nil => exact Keeps.refl id a
  | cons index indexes ih => exact (keeps_modify id a _).trans (ih _)

/-- A search touches the object it searches with. -/
theorem keeps_search {fs : FileSystem} {ex : Exclusions} {candidate : Nat → Path} {key : Nat → Key}
    {id fuel : Nat} {aside : List Nat} {p : Path}
    (h : a.search fs ex candidate key id fuel aside = .ok (a', p)) : Keeps id a a' := by
  induction fuel generalizing a aside with
  | zero => cases h
  | succ fuel ih =>
    have htake := keeps_modify id a fun _ => (a.objects id).take.2
    rw [OutputPathAllocator.search] at h
    dsimp only at h
    split_ifs at h
    · exact htake.trans (ih h)
    · exact htake.trans ((keeps_setSlot _ _ _ _).trans ((keeps_modify id _ _).trans (ih h)))
    · obtain ⟨rfl, -⟩ := Prod.mk.inj (Except.ok.inj h)
      exact htake.trans ((keeps_setSlot _ _ _ _).trans (keeps_releases id _ _))
    · exact htake.trans (ih h)

/-! ## Hints -/

/-- The family `id` need not try again the numbers it leaves out, but for those put `aside`. -/
structure Hinted (reserved disk : List Key) (a : OutputPathAllocator) (id start : Nat)
    (key : Nat → Key) (aside : List Nat) : Prop where
  bounded : (a.objects id).Bounded start
  slot_le : ∀ k index, a.slot k id = some index → start ≤ index
  aside_le : ∀ index ∈ aside, start ≤ index
  out : ∀ index, start ≤ index → ¬ (a.objects id).Candidate index → index ∉ aside →
    key index ∈ disk ∨ key index ∈ reserved ∧ a.slot (key index) id = some index

variable {reserved reserved' disk disk' : List Key} {id start : Nat} {key : Nat → Key}
  {aside : List Nat}

/-- More reservations and more files do no harm, nor does what other families do. -/
theorem Hinted.mono (h : Hinted reserved disk a id start key aside) (hreserved : reserved ⊆ reserved')
    (hdisk : disk ⊆ disk') (hobjects : a'.objects id = a.objects id)
    (hslot : ∀ k, a'.slot k id = a.slot k id) : Hinted reserved' disk' a' id start key aside where
  bounded := hobjects ▸ h.bounded
  slot_le k index hs := h.slot_le k index ((hslot k).symm.trans hs)
  aside_le := h.aside_le
  out index hle hc hnot := by
    rw [hobjects] at hc
    rw [hslot]
    exact (h.out index hle hc hnot).imp (fun hmem => hdisk hmem) fun hheld =>
      ⟨hreserved hheld.1, hheld.2⟩

/-- Numbers put aside are given back. -/
theorem Hinted.releases (h : Hinted reserved disk a id start key aside) :
    Hinted reserved disk (aside.foldl (fun a index => a.modify id (·.release index)) a) id start key
      [] := by
  induction aside generalizing a with
  | nil => exact h
  | cons index aside ih =>
    obtain ⟨hbounded, hcandidate, hmono⟩ := h.bounded.release (h.aside_le index List.mem_cons_self)
    refine ih ⟨?_, h.slot_le, fun i hi => h.aside_le i (List.mem_cons_of_mem _ hi),
      fun i hle hc hnot => ?_⟩
    · rw [objects_modify, if_pos rfl]
      exact hbounded
    · rw [objects_modify, if_pos rfl] at hc
      refine h.out i hle (fun hold => hc (hmono i hold)) fun hmem => ?_
      rcases List.mem_cons.1 hmem with rfl | hmem
      · exact hc hcandidate
      · exact hnot hmem

/-! ## The search -/

def exclusions (reserved localReserved : List Key) : Exclusions where
  reserved k := k ∈ reserved
  localReserved k := k ∈ localReserved

/-- Nobody holds the key, and there is no such file. -/
def Vacant (reserved localReserved disk : List Key) (k : Key) : Prop :=
  k ∉ reserved ∧ k ∉ localReserved ∧ k ∉ disk

section

variable {localReserved : List Key} {fs : FileSystem} {candidate : Nat → Path} {fuel : Nat}
  {p : Path}

/-- A number is taken that turns out to be in use. -/
theorem Hinted.skip (h : Hinted reserved disk a id start key aside) {aside' : List Nat}
    (hle : ∀ index ∈ aside', start ≤ index) (hsub : aside ⊆ aside')
    (hskip : (a.objects id).take.1 ∈ aside' ∨ key (a.objects id).take.1 ∈ disk) :
    Hinted reserved disk (a.modify id fun _ => (a.objects id).take.2) id start key aside' := by
  obtain ⟨-, -, hbounded, hother⟩ := h.bounded.take
  refine ⟨?_, h.slot_le, hle, fun index hindex hc hnot => ?_⟩
  · rw [objects_modify, if_pos rfl]
    exact hbounded
  · rw [objects_modify, if_pos rfl] at hc
    by_cases heq : index = (a.objects id).take.1
    · rw [heq] at hnot ⊢
      exact .inl (hskip.resolve_left hnot)
    · exact h.out index hindex (fun hold => hc (hother index hold heq)) fun hmem => hnot (hsub hmem)

/-- A number is taken whose key is reserved, or is being reserved. -/
theorem Hinted.hold (hinj : Function.Injective key)
    (h : Hinted reserved disk a id start key aside) {b : OutputPathAllocator}
    (hreserved : key (a.objects id).take.1 ∈ reserved') (hsub : reserved ⊆ reserved')
    (hnext : (b.objects id).nextIndex = (a.objects id).take.2.nextIndex)
    (havailable : (b.objects id).available = (a.objects id).take.2.available)
    (hslot : ∀ k, b.slot k id = if k = key (a.objects id).take.1 then some (a.objects id).take.1
      else a.slot k id) :
    Hinted reserved' disk b id start key aside := by
  obtain ⟨hstart, -, hbounded, hother⟩ := h.bounded.take
  generalize (a.objects id).take = taken at *
  have hcandidate (index : Nat) : (b.objects id).Candidate index ↔ taken.2.Candidate index := by
    rw [NumberedPaths.Candidate, NumberedPaths.Candidate, hnext, havailable]
  refine ⟨⟨havailable ▸ hbounded.sorted, hnext ▸ hbounded.start_le,
    havailable ▸ hbounded.available_le⟩, fun k index hs => ?_, h.aside_le,
    fun index hindex hc hnot => ?_⟩
  · rw [hslot] at hs
    split_ifs at hs
    · exact Option.some.inj hs ▸ hstart
    · exact h.slot_le k index hs
  · rw [hcandidate] at hc
    by_cases heq : index = taken.1
    · right
      rw [hslot, heq, if_pos rfl]
      exact ⟨hreserved, rfl⟩
    · refine (h.out index hindex (fun hold => hc (hother index hold heq)) hnot).imp_right ?_
      rintro ⟨hmem, hs⟩
      rw [hslot, if_neg fun hkey => heq (hinj hkey)]
      exact ⟨hsub hmem, hs⟩

/-- The object and the slots after a taken number is written down. -/
theorem setSlot_taken (a : OutputPathAllocator) (taken : Nat × NumberedPaths) (k k' : Key) :
    ((a.modify id fun _ => taken.2).setSlot k id taken.1).objects id = taken.2 ∧
      ((a.modify id fun _ => taken.2).setSlot k id taken.1).slot k' id =
        if k' = k then some taken.1 else a.slot k' id := by
  constructor
  · show (a.modify id fun _ => taken.2).objects id = taken.2
    rw [objects_modify, if_pos rfl]
  · rw [slot_setSlot]
    simp only [and_true]
    rfl

/-- From right hints the least vacant number is found, and the hints are right again when it is
reserved. -/
theorem Hinted.search (hinj : Function.Injective key)
    (hexists : ∀ index, fs.exists? (candidate index) = decide (key index ∈ disk))
    (h : Hinted reserved disk a id start key aside)
    (haside : ∀ index ∈ aside, key index ∈ localReserved)
    (hok : a.search fs (exclusions reserved localReserved) candidate key id fuel aside =
      .ok (a', p)) :
    ∃ index, p = candidate index ∧ start ≤ index ∧
      Vacant reserved localReserved disk (key index) ∧
      (∀ other, start ≤ other → other < index →
        ¬ Vacant reserved localReserved disk (key other)) ∧
      Hinted (key index :: reserved) disk a' id start key [] := by
  induction fuel generalizing a aside with
  | zero => cases hok
  | succ fuel ih =>
    obtain ⟨hstart, hleast, -, -⟩ := h.bounded.take
    rw [OutputPathAllocator.search] at hok
    simp only [exclusions, Bool.and_eq_true, Bool.not_eq_true', decide_eq_true_eq,
      decide_eq_false_iff_not, hexists] at hok
    split_ifs at hok with hlocal hreserved hdisk
    · -- put aside
      refine ih (h.skip (fun index hmem => ?_) (List.subset_append_left _ _)
        (.inl (List.mem_append_right _ (List.mem_singleton_self _)))) (fun index hmem => ?_) hok
      all_goals rcases List.mem_append.1 hmem with hmem | hmem
      · exact h.aside_le index hmem
      · rw [List.mem_singleton.1 hmem]
        exact hstart
      · exact haside index hmem
      · rw [List.mem_singleton.1 hmem]
        exact hlocal.2
    · -- reserved by somebody
      refine ih (h.hold hinj hreserved (List.Subset.refl _) ?_ ?_ fun k => ?_) haside hok
      · rw [objects_modify, if_pos rfl]
        simp only [NumberedPaths.observe]
        rw [(setSlot_taken a (a.objects id).take _ []).1]
      · rw [objects_modify, if_pos rfl]
        simp only [NumberedPaths.observe]
        rw [(setSlot_taken a (a.objects id).take _ []).1]
      · exact (setSlot_taken a _ _ k).2
    · -- on the disk
      exact ih (h.skip h.aside_le (List.Subset.refl _) (.inr hdisk)) haside hok
    · -- returned
      obtain ⟨rfl, rfl⟩ := Prod.mk.inj (Except.ok.inj hok)
      refine ⟨_, rfl, hstart, ⟨hreserved, fun hmem => hlocal ⟨hreserved, hmem⟩, hdisk⟩, ?_, ?_⟩
      · rintro other hother hlt ⟨hr, hl, hd⟩
        have hout : ¬ (a.objects id).Candidate other := fun hc => by
          have := hleast other hc
          omega
        rcases h.out other hother hout fun hmem => hl (haside other hmem) with hmem | ⟨hmem, -⟩
        · exact hd hmem
        · exact hr hmem
      · exact Hinted.releases (h.hold hinj List.mem_cons_self (List.subset_cons_self _ _)
          (congrArg NumberedPaths.nextIndex (setSlot_taken a _ _ []).1)
          (congrArg NumberedPaths.available (setSlot_taken a _ _ []).1)
          fun k => (setSlot_taken a _ _ k).2)

/-- A search ends: some number that was never given out is vacant. -/
theorem search_ends {ex : Exclusions} {target : Nat} (hnext : (a.objects id).nextIndex ≤ target)
    (hreserved : ex.reserved (key target) = false) (hlocal : ex.localReserved (key target) = false)
    (habsent : fs.exists? (candidate target) = false)
    (hfuel : (a.objects id).effort target ≤ fuel) :
    ∃ a' p, a.search fs ex candidate key id fuel aside = .ok (a', p) := by
  induction fuel generalizing a aside with
  | zero =>
    unfold NumberedPaths.effort at hfuel
    omega
  | succ fuel ih =>
    have hnextCall (b : OutputPathAllocator) (hne : (a.objects id).take.1 ≠ target)
        (hindex : (b.objects id).nextIndex = (a.objects id).take.2.nextIndex)
        (havailable : (b.objects id).available = (a.objects id).take.2.available)
        (aside' : List Nat) : ∃ a' p, b.search fs ex candidate key id fuel aside' = .ok (a', p) := by
      obtain ⟨hle, hlt⟩ := NumberedPaths.take_effort hnext hne
      unfold NumberedPaths.effort at *
      refine ih ?_ ?_
      · rw [hindex]
        exact hle
      · rw [hindex, havailable]
        omega
    rw [OutputPathAllocator.search]
    dsimp only
    by_cases heq : (a.objects id).take.1 = target
    · rw [heq, hreserved, hlocal, habsent]
      exact ⟨_, _, rfl⟩
    · split_ifs
      · refine hnextCall _ heq ?_ ?_ _
        all_goals rw [objects_modify, if_pos rfl]
      · refine hnextCall _ heq ?_ ?_ _
        all_goals
          rw [objects_modify, if_pos rfl]
          simp only [NumberedPaths.observe, setSlot, objects_modify, if_pos]
      · exact ⟨_, _, rfl⟩
      · refine hnextCall _ heq ?_ ?_ _
        all_goals rw [objects_modify, if_pos rfl]

end

/-! ## Release -/

/-- The slots of one key are given back to their families. -/
theorem releaseSlots_candidates (k : Key) {slots : List (Nat × Nat)}
    (hle : ∀ index, (id, index) ∈ slots → start ≤ index) (hbounded : (a.objects id).Bounded start) :
    let b := slots.foldl (fun a slot => a.modify slot.1 fun n => (n.discard k).release slot.2) a
    (b.objects id).Bounded start ∧
      (∀ index, (a.objects id).Candidate index → (b.objects id).Candidate index) ∧
      ∀ index, (id, index) ∈ slots → (b.objects id).Candidate index := by
  induction slots generalizing a with
  | nil => exact ⟨hbounded, fun _ hc => hc, fun _ hmem => absurd hmem List.not_mem_nil⟩
  | cons slot slots ih =>
    have hobject := objects_modify a slot.1 id fun n => (n.discard k).release slot.2
    have hrest : ∀ index, (id, index) ∈ slots → start ≤ index := fun index hmem =>
      hle index (List.mem_cons_of_mem _ hmem)
    rw [List.foldl_cons]
    generalize (a.modify slot.1 fun n => (n.discard k).release slot.2) = b at *
    by_cases heq : id = slot.1
    · rw [if_pos heq, ← heq] at hobject
      have hdiscard : ((a.objects id).discard k).Bounded start :=
        ⟨hbounded.sorted, hbounded.start_le, hbounded.available_le⟩
      obtain ⟨hb, hcandidate, hmono⟩ := hdiscard.release (hle slot.2 (heq ▸ List.mem_cons_self))
      rw [← hobject] at hb hcandidate hmono
      obtain ⟨hb', hmono', hcandidate'⟩ := ih hrest hb
      refine ⟨hb', fun index hc => hmono' index (hmono index hc), fun index hmem => ?_⟩
      rcases List.mem_cons.1 hmem with h | hmem
      · rw [show index = slot.2 from congrArg Prod.snd h]
        exact hmono' _ hcandidate
      · exact hcandidate' index hmem
    · rw [if_neg heq] at hobject
      obtain ⟨hb', hmono', hcandidate'⟩ := ih hrest (hobject.symm ▸ hbounded)
      rw [hobject] at hmono'
      refine ⟨hb', hmono', fun index hmem => ?_⟩
      rcases List.mem_cons.1 hmem with h | hmem
      · exact absurd (congrArg Prod.fst h) heq
      · exact hcandidate' index hmem

theorem release_numbers (a : OutputPathAllocator) (k : Key) :
    (a.release k).numbers = a.numbers ∧ (a.release k).nextObject = a.nextObject := by
  unfold release
  dsimp only
  generalize ((a.slots.get? k).getD ∅).entries = slots
  suffices h : ∀ b : OutputPathAllocator,
      (slots.foldl (fun a slot => a.modify slot.1 fun n => (n.discard k).release slot.2) b).numbers =
        b.numbers ∧
      (slots.foldl (fun a slot => a.modify slot.1 fun n => (n.discard k).release slot.2)
        b).nextObject = b.nextObject from h _
  induction slots with
  | nil => exact fun b => ⟨rfl, rfl⟩
  | cons slot slots ih => exact fun b => ih _

/-- After a release the key may be free: no family leaves its number out any more. -/
theorem Hinted.release (h : Hinted reserved disk a id start key []) (k : Key) :
    Hinted (reserved.filter (· ≠ k)) disk (a.release k) id start key [] := by
  have hentry (index : Nat) : (id, index) ∈ ((a.slots.get? k).getD ∅).entries ↔
      a.slot k id = some index := by
    rw [Dict.mem_entries]
    unfold slot
    cases a.slots.get? k with
    | none => exact Iff.rfl
    | some slots => exact Iff.rfl
  have hle : ∀ index, (id, index) ∈ ((a.slots.get? k).getD ∅).entries → start ≤ index :=
    fun index hmem => h.slot_le k index ((hentry index).1 hmem)
  obtain ⟨hbounded, hmono, hcandidate⟩ := releaseSlots_candidates (a := { a with
    slots := a.slots.erase k }) k hle h.bounded
  refine ⟨hbounded, fun k' index hs => ?_, h.aside_le, fun index hle hc hnot => ?_⟩
  · rw [slot_release] at hs
    split_ifs at hs
    exact h.slot_le k' index hs
  · refine (h.out index hle (fun hold => hc (hmono index hold)) hnot).imp_right ?_
    rintro ⟨hmem, hs⟩
    have hne : key index ≠ k := by
      intro heq
      exact hc (hcandidate index ((hentry index).2 (heq ▸ hs)))
    rw [slot_release, if_neg hne]
    exact ⟨List.mem_filter.2 ⟨hmem, decide_eq_true hne⟩, hs⟩

/-! ## Families -/

/-- Every family has an object of its own, and slots belong to objects that were made. -/
structure Numbered (a : OutputPathAllocator) : Prop where
  observed : a.Observed
  lt : ∀ family id, a.numbers.get? family = some id → id < a.nextObject
  unique : ∀ family family' id, a.numbers.get? family = some id →
    a.numbers.get? family' = some id → family = family'
  slot_lt : ∀ k id, a.slot k id ≠ none → id < a.nextObject

theorem numbered_empty : Numbered {} where
  observed := observed_empty
  lt family id h := by simp [Dict.get?_empty] at h
  unique family family' id h := by simp [Dict.get?_empty] at h
  slot_lt k id h := by simp [slot, Dict.get?_empty] at h

/-- What opening a new family does; an old one may be evicted. -/
structure Opens (family : Family) (a a' : OutputPathAllocator) : Prop where
  numbered : a'.Numbered
  nextObject : a'.nextObject = a.nextObject + 1
  self : a'.numbers.get? family = some a.nextObject
  object : a'.objects a.nextObject = { nextIndex := family.2 }
  others : ∀ f id, a'.numbers.get? f = some id → f ≠ family →
    a.numbers.get? f = some id ∧ a'.objects id = a.objects id ∧ ∀ k, a'.slot k id = a.slot k id
  slot_none : ∀ k, a'.slot k a.nextObject = none

/-- Evicting an old family keeps the new one. -/
theorem Opens.evict {family oldest : Family} (h : Opens family a a')
    (holdest : a'.numbers.get? oldest = some id) (hne : oldest ≠ family) :
    ∃ b, { a' with numbers := a'.numbers.erase oldest }.evict id = .ok b ∧ Opens family a b := by
  have hobserved : Observed { a' with numbers := a'.numbers.erase oldest } :=
    ⟨h.numbered.observed.nodup, h.numbered.observed.slot⟩
  obtain ⟨b, hevict, hb⟩ := hobserved.evict id
  have hnumbers (f : Family) : b.numbers.get? f =
      if f = oldest then none else a'.numbers.get? f := by
    rw [hb.numbers]
    exact Dict.get?_erase _ _ _
  have hget (f : Family) (i : Nat) (hf : b.numbers.get? f = some i) :
      f ≠ oldest ∧ a'.numbers.get? f = some i := by
    rw [hnumbers] at hf
    split_ifs at hf with heq
    exact ⟨heq, hf⟩
  -- the evicted object belongs to no family that stays
  have hother (f : Family) (i : Nat) (hf : b.numbers.get? f = some i) : i ≠ id := by
    rintro rfl
    exact (hget f i hf).1 (h.numbered.unique f oldest i (hget f i hf).2 holdest)
  have hself : b.numbers.get? family = some a.nextObject := by
    rw [hnumbers, if_neg hne.symm]
    exact h.self
  refine ⟨b, hevict, ⟨hb.observed, ?_, ?_, ?_⟩, hb.nextObject.trans h.nextObject, hself, ?_, ?_, ?_⟩
  · intro f i hf
    rw [hb.nextObject]
    exact h.numbered.lt f i (hget f i hf).2
  · intro f f' i hf hf'
    exact h.numbered.unique f f' i (hget f i hf).2 (hget f' i hf').2
  · intro k i hs
    rw [hb.nextObject]
    refine h.numbered.slot_lt k i fun hnone => hs ?_
    exact (hb.slot k i).1.elim (fun heq => heq.trans hnone) fun heq => heq
  · rw [hb.objects _ (hother family _ hself)]
    exact h.object
  · intro f i hf hnot
    obtain ⟨ha, hobject, hslot⟩ := h.others f i (hget f i hf).2 hnot
    refine ⟨ha, (hb.objects i (hother f i hf)).trans hobject, fun k => ?_⟩
    exact ((hb.slot k i).2 (hother f i hf)).trans (hslot k)
  · intro k
    exact (hb.slot k _).1.elim (fun heq => heq.trans (h.slot_none k)) fun heq => heq

/-- A family is opened, with a new object. -/
theorem Numbered.opens (h : a.Numbered) (family : Family) :
    Opens family a { a.modify a.nextObject fun _ => { nextIndex := family.2 } with
      nextObject := a.nextObject + 1
      numbers := a.numbers.set family a.nextObject } := by
  have hget (f : Family) (i : Nat) (hf : (a.numbers.set family a.nextObject).get? f = some i) :
      f = family ∧ i = a.nextObject ∨ f ≠ family ∧ a.numbers.get? f = some i := by
    rw [Dict.get?_set] at hf
    split_ifs at hf with heq
    · exact .inl ⟨heq, (Option.some.inj hf).symm⟩
    · exact .inr ⟨heq, hf⟩
  refine ⟨⟨?_, ?_, ?_, ?_⟩, rfl, Dict.get?_set_self _ _ _, ?_, ?_, ?_⟩
  · have hnew := h.observed.modify a.nextObject (f := fun _ => { nextIndex := family.2 })
      fun n => List.nil_sublist _
    exact ⟨hnew.nodup, hnew.slot⟩
  · intro f i hf
    show i < a.nextObject + 1
    rcases hget f i hf with ⟨-, rfl⟩ | ⟨-, hf⟩
    · exact Nat.lt_succ_self _
    · exact Nat.lt_succ_of_lt (h.lt f i hf)
  · intro f f' i hf hf'
    rcases hget f i hf with ⟨hfamily, rfl⟩ | ⟨-, hf⟩
    · rcases hget f' _ hf' with ⟨hfamily', -⟩ | ⟨-, hf'⟩
      · exact hfamily.trans hfamily'.symm
      · exact absurd (h.lt f' _ hf') (Nat.lt_irrefl _)
    · rcases hget f' i hf' with ⟨-, rfl⟩ | ⟨-, hf'⟩
      · exact absurd (h.lt f _ hf) (Nat.lt_irrefl _)
      · exact h.unique f f' i hf hf'
  · intro k i hs
    exact Nat.lt_succ_of_lt (h.slot_lt k i hs)
  · show (a.modify a.nextObject fun _ => { nextIndex := family.2 }).objects a.nextObject = _
    rw [objects_modify, if_pos rfl]
  · intro f i hf hne
    obtain ⟨-, hold⟩ := (hget f i hf).resolve_left fun hnew => hne hnew.1
    refine ⟨hold, ?_, fun k => rfl⟩
    show (a.modify a.nextObject fun _ => { nextIndex := family.2 }).objects i = _
    rw [objects_modify, if_neg]
    rintro rfl
    exact Nat.lt_irrefl _ (h.lt f _ hold)
  · intro k
    by_contra hs
    exact Nat.lt_irrefl _ (h.slot_lt k _ hs)

theorem Numbered.numbersOf (h : a.Numbered) (family : Family) :
    (∃ id, a.numbers.get? family = some id ∧ a.numbersOf family =
      .ok ({ a with numbers := (a.numbers.erase family).set family id }, id)) ∨
    a.numbers.get? family = none ∧
      ∃ a', a.numbersOf family = .ok (a', a.nextObject) ∧ Opens family a a' := by
  unfold OutputPathAllocator.numbersOf
  rcases hget : a.numbers.get? family with _ | id
  · right
    have hopens := h.opens family
    refine ⟨rfl, ?_⟩
    dsimp only
    have hentries := Dict.entries_set_new hget a.nextObject
    rcases hold : a.numbers.entries with _ | ⟨oldest, rest⟩
    · rw [hold, List.nil_append] at hentries
      simp only [hentries]
      exact ⟨_, rfl, hopens⟩
    · rw [hold, List.cons_append] at hentries
      simp only [hentries]
      split_ifs with hfull
      · have hoverdue : a.numbers.get? oldest.1 = some oldest.2 :=
          Dict.mem_entries.1 (hold ▸ List.mem_cons_self)
        have hne : oldest.1 ≠ family := by
          intro heq
          rw [heq, hget] at hoverdue
          cases hoverdue
        obtain ⟨b, hevict, hb⟩ := hopens.evict
          ((Dict.get?_set_of_ne _ hne _).trans hoverdue) hne
        exact ⟨b, by rw [hevict]; rfl, hb⟩
      · exact ⟨_, rfl, hopens⟩
  · exact .inl ⟨id, rfl, rfl⟩

/-- Using a family makes it the last to be evicted. -/
theorem get?_touch {family : Family} (hget : a.numbers.get? family = some id) (f : Family) :
    ((a.numbers.erase family).set family id).get? f = a.numbers.get? f := by
  rw [Dict.get?_set]
  split_ifs with heq
  · rw [heq, hget]
  · exact Dict.get?_erase_of_ne _ heq

theorem Numbered.touch (h : a.Numbered) {family : Family}
    (hget : a.numbers.get? family = some id) :
    Numbered { a with numbers := (a.numbers.erase family).set family id } where
  observed := ⟨h.observed.nodup, h.observed.slot⟩
  lt f i hf := h.lt f i ((get?_touch hget f).symm.trans hf)
  unique f f' i hf hf' :=
    h.unique f f' i ((get?_touch hget f).symm.trans hf) ((get?_touch hget f').symm.trans hf')
  slot_lt := h.slot_lt

theorem Numbered.of_keeps (h : a.Numbered) (hkeeps : Keeps id a a') (hid : id < a.nextObject)
    (hobserved : a'.Observed) : a'.Numbered where
  observed := hobserved
  lt family i hf := by
    rw [hkeeps.nextObject]
    exact h.lt family i (hkeeps.numbers ▸ hf)
  unique family family' i hf hf' :=
    h.unique family family' i (hkeeps.numbers ▸ hf) (hkeeps.numbers ▸ hf')
  slot_lt k i hs := by
    rw [hkeeps.nextObject]
    by_cases heq : i = id
    · exact heq ▸ hid
    · rw [hkeeps.slot i heq] at hs
      exact h.slot_lt k i hs

theorem Numbered.release (h : a.Numbered) (k : Key) : (a.release k).Numbered where
  observed := h.observed.release k
  lt family i hf := by
    rw [(release_numbers a k).2]
    exact h.lt family i ((release_numbers a k).1 ▸ hf)
  unique family family' i hf hf' :=
    h.unique family family' i ((release_numbers a k).1 ▸ hf) ((release_numbers a k).1 ▸ hf')
  slot_lt k' i hs := by
    rw [(release_numbers a k).2]
    rw [slot_release] at hs
    split_ifs at hs
    · exact absurd rfl hs
    · exact h.slot_lt k' i hs

theorem numbers_releaseAll (a : OutputPathAllocator) (keys : List Key) :
    (keys.foldl OutputPathAllocator.release a).numbers = a.numbers := by
  induction keys generalizing a with
  | nil => rfl
  | cons k keys ih => exact (ih _).trans (release_numbers a k).1

theorem Numbered.releaseAll (h : a.Numbered) (keys : List Key) :
    (keys.foldl OutputPathAllocator.release a).Numbered := by
  induction keys generalizing a with
  | nil => exact h
  | cons k keys ih => exact ih (h.release k)

theorem Hinted.releaseAll (h : Hinted reserved disk a id start key []) (keys : List Key) :
    Hinted (reserved.filter (· ∉ keys)) disk (keys.foldl OutputPathAllocator.release a) id start key
      [] := by
  induction keys generalizing a reserved with
  | nil => exact h.mono (by simp) (List.Subset.refl _) rfl fun _ => rfl
  | cons k keys ih =>
    refine (ih (h.release k)).mono (fun k' hmem => ?_) (List.Subset.refl _) rfl fun _ => rfl
    simpa [and_comm, and_left_comm, and_assoc] using hmem

end OutputPathAllocator

end Sunpack.Reservation
