import Sunpack.PathKeys
import Sunpack.Lib.Dict

/-!
# The order of the ready requests

`_RequestOrder` of `async_work.py`: a foreground and a watch FIFO, and a heap of the requests that
were promoted from the second to the first with their old place. The heap is the sorted list of its
entries. `listing` says where a request stands.
-/

namespace Sunpack.AsyncWork

open Lib

inductive Origin
  | foreground
  | watch
deriving DecidableEq

structure RequestOrder where
  foreground : Dict Text Nat := ∅
  watch : Dict Text Nat := ∅
  /-- A heap; its smallest entry is the first. -/
  promoted : List (Nat × Text) := []
  sequence : Nat := 0

namespace RequestOrder

/-- `__bool__` -/
def nonempty (o : RequestOrder) : Bool :=
  !o.foreground.entries.isEmpty || !o.watch.entries.isEmpty || !o.promoted.isEmpty

def append (o : RequestOrder) (requestId : Text) : Origin → RequestOrder
  | .watch =>
    { o with sequence := o.sequence + 1, watch := o.watch.set requestId (o.sequence + 1) }
  | .foreground =>
    { o with sequence := o.sequence + 1, foreground := o.foreground.set requestId (o.sequence + 1) }

/-- Nothing where the source raises `KeyError`. -/
def promote (o : RequestOrder) (requestId : Text) : Option RequestOrder :=
  (o.watch.get? requestId).map fun position =>
    { o with
      watch := o.watch.erase requestId
      promoted := o.promoted.orderedInsert (fun a b => a.1 ≤ b.1) (position, requestId) }

def popForeground (o : RequestOrder) : Option (Text × RequestOrder) :=
  o.foreground.entries.head?.map fun e => (e.1, { o with foreground := o.foreground.erase e.1 })

def popWatch (o : RequestOrder) : Option (Text × RequestOrder) :=
  o.watch.entries.head?.map fun e => (e.1, { o with watch := o.watch.erase e.1 })

def popleft (o : RequestOrder) : Option (Text × RequestOrder) :=
  match o.promoted with
  | entry :: rest =>
    if o.foreground.entries.head?.all fun e => entry.1 < e.2 then
      some (entry.2, { o with promoted := rest })
    else o.popForeground
  | [] => if o.foreground.entries.isEmpty then o.popWatch else o.popForeground

def discard (o : RequestOrder) (requestId : Text) : RequestOrder :=
  if (o.foreground.get? requestId).isSome then
    { o with foreground := o.foreground.erase requestId }
  else if (o.watch.get? requestId).isSome then { o with watch := o.watch.erase requestId }
  else { o with promoted := o.promoted.filter fun entry => entry.2 ≠ requestId }

/-! ## Where a request stands -/

@[ext] structure Listing where
  foreground : Bool
  watch : Bool
  promoted : Nat
deriving DecidableEq

def listing (o : RequestOrder) (requestId : Text) : Listing where
  foreground := (o.foreground.get? requestId).isSome
  watch := (o.watch.get? requestId).isSome
  promoted := o.promoted.countP fun entry => entry.2 = requestId

/-- How often a request stands in the order. -/
def count (o : RequestOrder) (requestId : Text) : Nat :=
  (o.listing requestId).foreground.toNat + (o.listing requestId).watch.toNat +
    (o.listing requestId).promoted

def unlisted : Listing := ⟨false, false, 0⟩

/-- The places of a request of an origin. -/
def Listed (l : Listing) : Origin → Prop
  | .watch => l = ⟨false, true, 0⟩
  | .foreground => l = ⟨true, false, 0⟩ ∨ l = ⟨false, false, 1⟩

variable {o : RequestOrder} {requestId : Text}

theorem Listed.count_eq {origin : Origin} (h : Listed (o.listing requestId) origin) :
    o.count requestId = 1 := by
  unfold count
  cases origin with
  | watch => rw [show o.listing requestId = _ from h]; rfl
  | foreground => rcases h with h | h <;> rw [h] <;> rfl

theorem count_of_unlisted (h : o.listing requestId = unlisted) : o.count requestId = 0 := by
  unfold count
  rw [h]
  rfl

theorem listing_append (requestId' : Text) (origin : Origin) :
    (o.append requestId origin).listing requestId' =
      if requestId' = requestId then
        match origin with
        | .watch => { o.listing requestId with watch := true }
        | .foreground => { o.listing requestId with foreground := true }
      else o.listing requestId' := by
  cases origin
  all_goals
    simp only [append, listing, Dict.get?_set]
    split_ifs with heq
    · rw [heq]
      rfl
    · rfl

theorem listed_append (h : o.listing requestId = unlisted) (origin : Origin) :
    Listed ((o.append requestId origin).listing requestId) origin := by
  rw [listing_append, if_pos rfl, h]
  cases origin with
  | watch => rfl
  | foreground => exact .inl rfl

theorem promote_spec (h : Listed (o.listing requestId) .watch) :
    ∃ o', o.promote requestId = some o' ∧ Listed (o'.listing requestId) .foreground ∧
      ∀ r ≠ requestId, o'.listing r = o.listing r := by
  have hwatch : (o.watch.get? requestId).isSome = true := congrArg Listing.watch h
  have hforeground : (o.foreground.get? requestId).isSome = false := congrArg Listing.foreground h
  have hpromoted : (o.promoted.countP fun entry => entry.2 = requestId) = 0 :=
    congrArg Listing.promoted h
  obtain ⟨position, hposition⟩ := Option.isSome_iff_exists.1 hwatch
  refine ⟨_, by rw [promote, hposition]; rfl, .inr ?_, fun r hr => ?_⟩
  · simp only [listing, hforeground, Dict.get?_erase_self, Option.isSome_none, Listing.mk.injEq,
      true_and]
    rw [(List.perm_orderedInsert _ _ _).countP_eq, List.countP_cons, hpromoted]
    simp
  · simp only [listing, Dict.get?_erase_of_ne _ hr, Listing.mk.injEq, true_and]
    rw [(List.perm_orderedInsert _ _ _).countP_eq, List.countP_cons]
    simp [Ne.symm hr]

/-- A request stands nowhere, or in one of the three places. -/
def Proper (l : Listing) : Prop := l = unlisted ∨ ∃ origin, Listed l origin

theorem Proper.cases {l : Listing} (h : Proper l) :
    l = ⟨false, false, 0⟩ ∨ l = ⟨true, false, 0⟩ ∨ l = ⟨false, true, 0⟩ ∨ l = ⟨false, false, 1⟩ := by
  rcases h with h | ⟨origin, h⟩
  · exact .inl h
  · cases origin with
    | watch => exact .inr (.inr (.inl h))
    | foreground =>
      rcases h with h | h
      · exact .inr (.inl h)
      · exact .inr (.inr (.inr h))

theorem Proper.of_foreground {l : Listing} (h : Proper l) (hl : l.foreground = true) :
    l = ⟨true, false, 0⟩ := by
  rcases h.cases with rfl | rfl | rfl | rfl <;> simp_all

theorem Proper.of_watch {l : Listing} (h : Proper l) (hl : l.watch = true) :
    l = ⟨false, true, 0⟩ := by
  rcases h.cases with rfl | rfl | rfl | rfl <;> simp_all

theorem Proper.of_promoted {l : Listing} (h : Proper l) (hl : 0 < l.promoted) :
    l = ⟨false, false, 1⟩ := by
  rcases h.cases with rfl | rfl | rfl | rfl <;> simp_all

/-- What taking a request from the order does. -/
structure Takes (o : RequestOrder) (requestId : Text) (o' : RequestOrder) : Prop where
  stood : o.listing requestId ≠ unlisted
  gone : o'.listing requestId = unlisted
  other : ∀ r ≠ requestId, o'.listing r = o.listing r

theorem takes_foreground (hproper : Proper (o.listing requestId))
    (h : (o.foreground.get? requestId).isSome = true) :
    o.Takes requestId { o with foreground := o.foreground.erase requestId } := by
  have hl := hproper.of_foreground h
  have hwatch : (o.watch.get? requestId).isSome = false := congrArg Listing.watch hl
  have hpromoted : (o.promoted.countP fun entry => entry.2 = requestId) = 0 :=
    congrArg Listing.promoted hl
  refine ⟨?_, ?_, fun r hr => ?_⟩
  · rw [hl]
    decide
  · simp only [listing, Dict.get?_erase_self, hwatch, hpromoted]
    rfl
  · simp only [listing, Dict.get?_erase_of_ne _ hr]

theorem takes_watch (hproper : Proper (o.listing requestId))
    (h : (o.watch.get? requestId).isSome = true) :
    o.Takes requestId { o with watch := o.watch.erase requestId } := by
  have hl := hproper.of_watch h
  have hforeground : (o.foreground.get? requestId).isSome = false := congrArg Listing.foreground hl
  have hpromoted : (o.promoted.countP fun entry => entry.2 = requestId) = 0 :=
    congrArg Listing.promoted hl
  refine ⟨?_, ?_, fun r hr => ?_⟩
  · rw [hl]
    decide
  · simp only [listing, Dict.get?_erase_self, hforeground, hpromoted]
    rfl
  · simp only [listing, Dict.get?_erase_of_ne _ hr]

theorem takes_promoted {position : Nat} {rest : List (Nat × Text)}
    (hproper : Proper (o.listing requestId)) (h : o.promoted = (position, requestId) :: rest) :
    o.Takes requestId { o with promoted := rest } := by
  have hcount (r : Text) : (o.listing r).promoted =
      rest.countP (fun entry => entry.2 = r) + if requestId = r then 1 else 0 := by
    simp only [listing, h, List.countP_cons, decide_eq_true_eq]
  have hself := hcount requestId
  rw [if_pos rfl] at hself
  have hl := hproper.of_promoted (by omega)
  have hforeground : (o.foreground.get? requestId).isSome = false := congrArg Listing.foreground hl
  have hwatch : (o.watch.get? requestId).isSome = false := congrArg Listing.watch hl
  have hone : (o.listing requestId).promoted = 1 := congrArg Listing.promoted hl
  refine ⟨?_, ?_, fun r hr => ?_⟩
  · rw [hl]
    decide
  · have hrest : (rest.countP fun entry => entry.2 = requestId) = 0 := by omega
    simp only [listing, hforeground, hwatch, hrest]
    rfl
  · ext
    · rfl
    · rfl
    · rw [hcount r, if_neg (Ne.symm hr)]
      rfl

theorem popForeground_spec (hproper : ∀ r, Proper (o.listing r))
    (h : o.foreground.entries ≠ []) :
    ∃ requestId o', o.popForeground = some (requestId, o') ∧ o.Takes requestId o' := by
  obtain ⟨e, rest, hentries⟩ := List.exists_cons_of_ne_nil h
  have hget : o.foreground.get? e.1 = some e.2 := Dict.mem_entries.1 (by rw [hentries]; simp)
  refine ⟨e.1, _, ?_, takes_foreground (hproper e.1) (by rw [hget]; rfl)⟩
  rw [popForeground, hentries]
  rfl

theorem popWatch_spec (hproper : ∀ r, Proper (o.listing r)) (h : o.watch.entries ≠ []) :
    ∃ requestId o', o.popWatch = some (requestId, o') ∧ o.Takes requestId o' := by
  obtain ⟨e, rest, hentries⟩ := List.exists_cons_of_ne_nil h
  have hget : o.watch.get? e.1 = some e.2 := Dict.mem_entries.1 (by rw [hentries]; simp)
  refine ⟨e.1, _, ?_, takes_watch (hproper e.1) (by rw [hget]; rfl)⟩
  rw [popWatch, hentries]
  rfl

theorem popleft_spec (h : o.nonempty = true) (hproper : ∀ r, Proper (o.listing r)) :
    ∃ requestId o', o.popleft = some (requestId, o') ∧ o.Takes requestId o' := by
  unfold popleft
  cases hpromoted : o.promoted with
  | cons entry rest =>
    dsimp only
    split_ifs with hfirst
    · exact ⟨entry.2, _, rfl, takes_promoted (hproper entry.2) hpromoted⟩
    · refine popForeground_spec hproper fun hnil => hfirst ?_
      rw [hnil]
      rfl
  | nil =>
    dsimp only
    split_ifs with hempty
    · refine popWatch_spec hproper fun hnil => ?_
      simp [nonempty, hempty, hnil, hpromoted] at h
    · exact popForeground_spec hproper fun hnil => hempty (by rw [hnil]; rfl)

theorem listing_discard (hproper : Proper (o.listing requestId)) :
    (o.discard requestId).listing requestId = unlisted ∧
      ∀ r ≠ requestId, (o.discard requestId).listing r = o.listing r := by
  unfold discard
  split_ifs with hforeground hwatch
  · have htakes := takes_foreground hproper hforeground
    exact ⟨htakes.gone, htakes.other⟩
  · have htakes := takes_watch hproper hwatch
    exact ⟨htakes.gone, htakes.other⟩
  · refine ⟨?_, fun r hr => ?_⟩
    · ext
      · exact Bool.eq_false_iff.2 hforeground
      · exact Bool.eq_false_iff.2 hwatch
      · show (List.filter _ o.promoted).countP _ = 0
        rw [List.countP_eq_zero]
        intro entry hentry
        simpa using (List.mem_filter.1 hentry).2
    · ext
      · rfl
      · rfl
      · show (List.filter _ o.promoted).countP _ = o.promoted.countP _
        rw [List.countP_filter]
        refine List.countP_congr fun entry _ => ?_
        by_cases hentry : entry.2 = r
        · simp [hentry, hr]
        · simp [hentry]

end RequestOrder

end Sunpack.AsyncWork
