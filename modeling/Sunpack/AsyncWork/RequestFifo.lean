import Mathlib.Data.List.MinMax
import Sunpack.AsyncWork.RequestOrder
import Sunpack.AsyncWork.StageOrder

/-!
# The order of the ready requests is one list

Every run of a `_RequestOrder` answers as a list of the ready requests does, in which a request keeps
the place that it got when it came, and a promotion only makes it a foreground request.
-/

namespace Sunpack.AsyncWork

open Lib

namespace RequestOrder

/-! ## Runs -/

inductive Call
  | append (requestId : Text) (origin : Origin)
  | promote (requestId : Text)
  | discard (requestId : Text)
  | popleft

inductive Answer
  | done
  | popped (requestId : Text)
  | keyError
deriving DecidableEq

/-- Where the source raises, the order is left as it was. -/
def step (o : RequestOrder) : Call → Answer × RequestOrder
  | .append requestId origin => (.done, o.append requestId origin)
  | .promote requestId =>
    match o.promote requestId with
    | some o' => (.done, o')
    | none => (.keyError, o)
  | .discard requestId => (.done, o.discard requestId)
  | .popleft =>
    match o.popleft with
    | some popped => (.popped popped.1, popped.2)
    | none => (.keyError, o)

/-- The answers of a run, each with the truth value of the order after it. -/
def answers (o : RequestOrder) : List Call → List (Answer × Bool)
  | [] => []
  | c :: cs => ((o.step c).1, (o.step c).2.nonempty) :: answers (o.step c).2 cs

end RequestOrder

/-! ## The list -/

/-- A ready request with its place. -/
structure Ready where
  requestId : Text
  position : Nat
  foreground : Bool
deriving DecidableEq

namespace ReadyList

open RequestOrder (Answer)

/-- The foreground request with the smallest place, or else the watch request with it. -/
def next (ready : List Ready) : Option Ready :=
  ((ready.filter (·.foreground)).argmin (·.position)).or (ready.argmin (·.position))

def promoted (requestId : Text) (r : Ready) : Ready :=
  if r.requestId = requestId then { r with foreground := true } else r

/-- The list and the number of requests that came. -/
def step (s : List Ready × Nat) : RequestOrder.Call → Answer × List Ready × Nat
  | .append requestId origin =>
    (.done, s.1 ++ [⟨requestId, s.2 + 1, decide (origin = .foreground)⟩], s.2 + 1)
  | .promote requestId =>
    if s.1.any fun r => r.requestId = requestId ∧ r.foreground = false then
      (.done, s.1.map (promoted requestId), s.2)
    else (.keyError, s)
  | .discard requestId => (.done, s.1.filter (·.requestId ≠ requestId), s.2)
  | .popleft =>
    match next s.1 with
    | some r => (.popped r.requestId, s.1.erase r, s.2)
    | none => (.keyError, s)

def answers (s : List Ready × Nat) : List RequestOrder.Call → List (Answer × Bool)
  | [] => []
  | c :: cs => ((step s c).1, !(step s c).2.1.isEmpty) :: answers (step s c).2 cs

/-- The broker makes a request ready that is not ready yet. -/
def Admits (s : List Ready × Nat) : RequestOrder.Call → Prop
  | .append requestId _ => ∀ r ∈ s.1, r.requestId ≠ requestId
  | _ => True

def Admitted (s : List Ready × Nat) : List RequestOrder.Call → Prop
  | [] => True
  | c :: cs => Admits s c ∧ Admitted (step s c).2 cs

end ReadyList

namespace RequestOrder

variable {o : RequestOrder} {ready : List Ready} {requestId : Text}

/-- The requests of an order. -/
def listed (o : RequestOrder) : List Ready :=
  (o.foreground.entries.map fun e => ⟨e.1, e.2, true⟩) ++
    (o.promoted.map fun e => ⟨e.2, e.1, true⟩) ++ o.watch.entries.map fun e => ⟨e.1, e.2, false⟩

structure Holds (o : RequestOrder) (ready : List Ready) : Prop where
  listed : o.listed.Perm ready
  ids : (ready.map (·.requestId)).Nodup
  growing : ready.Pairwise fun a b => a.position < b.position
  bounded : ∀ r ∈ ready, r.position ≤ o.sequence
  foreground : (o.foreground.entries.map (·.2)).Pairwise (· < ·)
  watch : (o.watch.entries.map (·.2)).Pairwise (· < ·)
  promoted : o.promoted.Pairwise fun a b => a.1 ≤ b.1

theorem Holds.eq_of_id (h : o.Holds ready) {a b : Ready} (ha : a ∈ ready) (hb : b ∈ ready)
    (heq : a.requestId = b.requestId) : a = b :=
  List.inj_on_of_nodup_map h.ids ha hb heq

theorem Holds.eq_of_position (h : o.Holds ready) {a b : Ready} (ha : a ∈ ready) (hb : b ∈ ready)
    (heq : a.position = b.position) : a = b := by
  have hnodup : (ready.map (·.position)).Nodup := by
    rw [List.Nodup, List.pairwise_map]
    exact h.growing.imp Nat.ne_of_lt
  exact List.inj_on_of_nodup_map hnodup ha hb heq

theorem mem_listed {r : Ready} : r ∈ o.listed ↔
    (r.foreground = true ∧ ((r.requestId, r.position) ∈ o.foreground.entries ∨
      (r.position, r.requestId) ∈ o.promoted)) ∨
    (r.foreground = false ∧ (r.requestId, r.position) ∈ o.watch.entries) := by
  obtain ⟨requestId, position, foreground⟩ := r
  unfold listed
  rw [List.mem_append, List.mem_append]
  cases foreground <;> simp

theorem Holds.nonempty (h : o.Holds ready) : o.nonempty = !ready.isEmpty := by
  have hempty : ready.isEmpty = o.listed.isEmpty := by
    rw [Bool.eq_iff_iff, List.isEmpty_iff, List.isEmpty_iff]
    constructor
    · rintro rfl
      exact List.perm_nil.1 h.listed
    · intro hnil
      exact List.nil_perm.1 (hnil ▸ h.listed)
  rw [hempty, RequestOrder.nonempty, RequestOrder.listed]
  cases o.foreground.entries <;> cases o.promoted <;> cases o.watch.entries <;> rfl

/-- The entry with the smallest place is found. -/
theorem Holds.argmin (h : o.Holds ready) {l : List Ready} (hl : ∀ r ∈ l, r ∈ ready) {r : Ready}
    (hr : r ∈ l) (hle : ∀ x ∈ l, r.position ≤ x.position) :
    l.argmin (·.position) = some r := by
  rw [← Option.mem_def, List.mem_argmin_iff]
  refine ⟨hr, hle, fun x hx hxr => ?_⟩
  rw [h.eq_of_position (hl x hx) (hl r hr) (le_antisymm hxr (hle x hx))]

theorem Holds.next_foreground (h : o.Holds ready) {r : Ready} (hr : r ∈ ready)
    (hforeground : r.foreground = true)
    (hle : ∀ x ∈ ready, x.foreground = true → r.position ≤ x.position) :
    ReadyList.next ready = some r := by
  rw [ReadyList.next, h.argmin (fun x hx => List.mem_of_mem_filter hx)
    (List.mem_filter.2 ⟨hr, hforeground⟩) fun x hx => hle x (List.mem_of_mem_filter hx)
      (List.mem_filter.1 hx).2, Option.some_or]

theorem Holds.next_watch (h : o.Holds ready) {r : Ready} (hr : r ∈ ready)
    (hnone : ∀ x ∈ ready, x.foreground = false) (hle : ∀ x ∈ ready, r.position ≤ x.position) :
    ReadyList.next ready = some r := by
  have hfilter : ready.filter (·.foreground) = [] := by
    rw [List.filter_eq_nil_iff]
    intro x hx
    simp [hnone x hx]
  rw [ReadyList.next, hfilter, h.argmin (fun x hx => hx) hr hle]
  rfl

/-- Taking a request out on both sides. -/
theorem Holds.erase (h : o.Holds ready) {o' : RequestOrder} {r : Ready}
    (hlisted : o.listed.Perm (r :: o'.listed)) (hsequence : o'.sequence = o.sequence)
    (hforeground : (o'.foreground.entries.map (·.2)).Pairwise (· < ·))
    (hwatch : (o'.watch.entries.map (·.2)).Pairwise (· < ·))
    (hpromoted : o'.promoted.Pairwise fun a b => a.1 ≤ b.1) : o'.Holds (ready.erase r) where
  listed := by
    have := (hlisted.symm.trans h.listed).erase r
    rwa [List.erase_cons_head] at this
  ids := h.ids.sublist (List.erase_sublist.map _)
  growing := h.growing.sublist List.erase_sublist
  bounded x hx := hsequence ▸ h.bounded x (List.mem_of_mem_erase hx)
  foreground := hforeground
  watch := hwatch
  promoted := hpromoted

/-! ## The operations -/

theorem holds_empty : Holds {} [] where
  listed := List.Perm.refl _
  ids := List.nodup_nil
  growing := List.Pairwise.nil
  bounded _ h := absurd h List.not_mem_nil
  foreground := List.Pairwise.nil
  watch := List.Pairwise.nil
  promoted := List.Pairwise.nil

theorem mem_ready (h : o.Holds ready) {r : Ready} : r ∈ ready ↔ r ∈ o.listed :=
  h.listed.mem_iff.symm

theorem Holds.get?_foreground (h : o.Holds ready) {position : Nat}
    (hget : o.foreground.get? requestId = some position) : ⟨requestId, position, true⟩ ∈ ready :=
  (mem_ready h).2 (mem_listed.2 (.inl ⟨rfl, .inl (Dict.mem_entries.2 hget)⟩))

theorem Holds.get?_watch (h : o.Holds ready) {position : Nat}
    (hget : o.watch.get? requestId = some position) : ⟨requestId, position, false⟩ ∈ ready :=
  (mem_ready h).2 (mem_listed.2 (.inr ⟨rfl, Dict.mem_entries.2 hget⟩))

/-- A request that is not ready has no entry. -/
theorem Holds.get?_none (h : o.Holds ready) (hnew : ∀ r ∈ ready, r.requestId ≠ requestId) :
    o.foreground.get? requestId = none ∧ o.watch.get? requestId = none := by
  constructor
  · cases hget : o.foreground.get? requestId with
    | none => rfl
    | some position => exact absurd rfl (hnew _ (h.get?_foreground hget))
  · cases hget : o.watch.get? requestId with
    | none => rfl
    | some position => exact absurd rfl (hnew _ (h.get?_watch hget))

theorem Holds.append (h : o.Holds ready) (hnew : ∀ r ∈ ready, r.requestId ≠ requestId)
    (origin : Origin) : (o.append requestId origin).Holds
      (ready ++ [⟨requestId, o.sequence + 1, decide (origin = .foreground)⟩]) := by
  obtain ⟨hforeground, hwatch⟩ := h.get?_none hnew
  have hlast {entries : List (Text × Nat)} (hsorted : (entries.map (·.2)).Pairwise (· < ·))
      (hbounded : ∀ e ∈ entries, e.2 ≤ o.sequence) :
      ((entries ++ [(requestId, o.sequence + 1)]).map (·.2)).Pairwise (· < ·) := by
    rw [List.map_append, List.pairwise_append]
    refine ⟨hsorted, List.pairwise_singleton _ _, fun a ha b hb => ?_⟩
    obtain ⟨e, he, rfl⟩ := List.mem_map.1 ha
    rw [List.mem_singleton.1 hb]
    exact Nat.lt_succ_of_le (hbounded e he)
  refine ⟨?_, ?_, ?_, ?_, ?_, ?_, ?_⟩
  · refine List.Perm.trans ?_ (h.listed.append_right _)
    cases origin with
    | foreground =>
      unfold RequestOrder.listed
      simp only [RequestOrder.append, Dict.entries_set_new hforeground, List.map_append, List.map_cons,
        List.map_nil, List.append_assoc, decide_true]
      refine List.Perm.append_left _ ?_
      rw [List.singleton_append, ← List.append_assoc]
      exact (List.perm_append_singleton _ _).symm
    | watch =>
      unfold RequestOrder.listed
      simp only [RequestOrder.append, Dict.entries_set_new hwatch, List.map_append, List.map_cons,
        List.map_nil, List.append_assoc]
      exact List.Perm.refl _
  · rw [List.map_append, List.nodup_append]
    refine ⟨h.ids, List.nodup_singleton _, fun a ha b hb => ?_⟩
    obtain ⟨r, hr, rfl⟩ := List.mem_map.1 ha
    rw [List.mem_singleton.1 hb]
    exact hnew r hr
  · rw [List.pairwise_append]
    refine ⟨h.growing, List.pairwise_singleton _ _, fun a ha b hb => ?_⟩
    rw [List.mem_singleton.1 hb]
    exact Nat.lt_succ_of_le (h.bounded a ha)
  · intro r hr
    have hsequence : (o.append requestId origin).sequence = o.sequence + 1 := by
      cases origin with
      | foreground => rfl
      | watch => rfl
    rw [hsequence]
    rcases List.mem_append.1 hr with hr | hr
    · exact Nat.le_succ_of_le (h.bounded r hr)
    · rw [List.mem_singleton.1 hr]
  · cases origin with
    | foreground =>
      show (((o.foreground.set requestId (o.sequence + 1)).entries).map (·.2)).Pairwise _
      rw [Dict.entries_set_new hforeground]
      exact hlast h.foreground fun e he =>
        h.bounded _ (h.get?_foreground (Dict.mem_entries.1 (show (e.1, e.2) ∈ _ from he)))
    | watch => exact h.foreground
  · cases origin with
    | foreground => exact h.watch
    | watch =>
      show (((o.watch.set requestId (o.sequence + 1)).entries).map (·.2)).Pairwise _
      rw [Dict.entries_set_new hwatch]
      exact hlast h.watch fun e he =>
        h.bounded _ (h.get?_watch (Dict.mem_entries.1 (show (e.1, e.2) ∈ _ from he)))
  · cases origin with
    | foreground => exact h.promoted
    | watch => exact h.promoted

/-- A promotion is refused for a request that does not wait as a watch request. -/
theorem Holds.any_watch (h : o.Holds ready) :
    (ready.any fun r => r.requestId = requestId ∧ r.foreground = false) =
      (o.watch.get? requestId).isSome := by
  rw [Bool.eq_iff_iff, List.any_eq_true, Option.isSome_iff_exists]
  constructor
  · rintro ⟨⟨id, position, foreground⟩, hr, heq⟩
    obtain ⟨rfl, rfl⟩ := of_decide_eq_true heq
    have hlisted := mem_listed.1 ((mem_ready h).1 hr)
    simp only [Bool.false_eq_true, false_and, false_or, true_and] at hlisted
    exact ⟨position, Dict.mem_entries.1 hlisted⟩
  · rintro ⟨position, hget⟩
    exact ⟨_, h.get?_watch hget, decide_eq_true ⟨rfl, rfl⟩⟩

theorem Holds.promote (h : o.Holds ready) {position : Nat}
    (hget : o.watch.get? requestId = some position) :
    ∃ o', o.promote requestId = some o' ∧ o'.sequence = o.sequence ∧
      o'.Holds (ready.map (ReadyList.promoted requestId)) := by
  have heq : o.promote requestId = some { o with
      watch := o.watch.erase requestId
      promoted := o.promoted.orderedInsert (fun a b => a.1 ≤ b.1) (position, requestId) } := by
    rw [RequestOrder.promote, hget]
    rfl
  refine ⟨_, heq, rfl, ?_⟩
  have hwas := h.get?_watch hget
  have hwatch : o.watch.entries.Perm ((requestId, position) :: (o.watch.erase requestId).entries) :=
    Dict.entries_perm hget
  have hids : (ready.map (ReadyList.promoted requestId)).map (·.requestId) =
      ready.map (·.requestId) := by
    rw [List.map_map]
    refine List.map_congr_left fun r _ => ?_
    show (ReadyList.promoted requestId r).requestId = r.requestId
    unfold ReadyList.promoted
    split_ifs <;> rfl
  have hpositions (r : Ready) : (ReadyList.promoted requestId r).position = r.position := by
    unfold ReadyList.promoted
    split_ifs <;> rfl
  have hforeground (entries : List (Text × Nat)) : (entries.map fun e =>
      (⟨e.1, e.2, true⟩ : Ready)).map (ReadyList.promoted requestId) =
        entries.map fun e => ⟨e.1, e.2, true⟩ := by
    rw [List.map_map]
    refine List.map_congr_left fun e _ => ?_
    show ReadyList.promoted requestId ⟨e.1, e.2, true⟩ = _
    unfold ReadyList.promoted
    split_ifs <;> rfl
  have hpromoted (entries : List (Nat × Text)) : (entries.map fun e =>
      (⟨e.2, e.1, true⟩ : Ready)).map (ReadyList.promoted requestId) =
        entries.map fun e => ⟨e.2, e.1, true⟩ := by
    rw [List.map_map]
    refine List.map_congr_left fun e _ => ?_
    show ReadyList.promoted requestId ⟨e.2, e.1, true⟩ = _
    unfold ReadyList.promoted
    split_ifs <;> rfl
  have hrest : ((o.watch.erase requestId).entries.map fun e => (⟨e.1, e.2, false⟩ : Ready)).map
      (ReadyList.promoted requestId) =
        (o.watch.erase requestId).entries.map fun e => ⟨e.1, e.2, false⟩ := by
    rw [List.map_map]
    refine List.map_congr_left fun e he => ?_
    have hne : e.1 ≠ requestId := by
      intro heq
      have hmem := Dict.mem_entries.1 (show (e.1, e.2) ∈ (o.watch.erase requestId).entries from he)
      rw [heq, Dict.get?_erase_self] at hmem
      exact absurd hmem (by simp)
    show ReadyList.promoted requestId ⟨e.1, e.2, false⟩ = _
    unfold ReadyList.promoted
    rw [if_neg hne]
  refine ⟨?_, by rw [hids]; exact h.ids, ?_, ?_, h.foreground, ?_, ?_⟩
  · refine List.Perm.trans ?_ (h.listed.map (ReadyList.promoted requestId))
    unfold RequestOrder.listed
    have hold := (hwatch.map fun e => (⟨e.1, e.2, false⟩ : Ready)).map (ReadyList.promoted requestId)
    have hself : ReadyList.promoted requestId ⟨requestId, position, false⟩ =
        ⟨requestId, position, true⟩ := if_pos rfl
    rw [List.map_cons, List.map_cons, hrest, hself] at hold
    rw [List.map_append, List.map_append, hforeground, hpromoted]
    refine List.Perm.trans ?_ (hold.symm.append_left _)
    rw [List.append_assoc, List.append_assoc]
    refine List.Perm.append_left _ ?_
    refine (((List.perm_orderedInsert _ _ _).map _).append_right _).trans ?_
    exact List.perm_middle.symm
  · rw [List.pairwise_map]
    exact h.growing.imp fun hlt => by rwa [hpositions, hpositions]
  · intro r hr
    obtain ⟨r', hr', rfl⟩ := List.mem_map.1 hr
    rw [hpositions]
    exact h.bounded r' hr'
  · exact h.watch.sublist ((Dict.drop_sublist _ _).map _)
  · exact h.promoted.orderedInsert _ _

theorem keys_foreground (h : o.Holds ready) {e : Text × Nat} {rest : List (Text × Nat)}
    (he : o.foreground.entries = e :: rest) (o' : RequestOrder)
    (ho' : o' = { o with foreground := o.foreground.erase e.1 }) :
    o.listed.Perm (⟨e.1, e.2, true⟩ :: o'.listed) ∧
      (o'.foreground.entries.map (·.2)).Pairwise (· < ·) := by
  have hget : o.foreground.get? e.1 = some e.2 := Dict.mem_entries.1 (by rw [he]; exact List.mem_cons_self)
  subst ho'
  refine ⟨?_, h.foreground.sublist ((Dict.drop_sublist e.1 o.foreground.entries).map _)⟩
  unfold RequestOrder.listed
  rw [← List.cons_append, ← List.cons_append]
  exact (((Dict.entries_perm hget).map fun e => (⟨e.1, e.2, true⟩ : Ready)).append_right _).append_right _

/-- The head of the foreground requests has the smallest place there. -/
theorem Holds.head_foreground (h : o.Holds ready) {e : Text × Nat} {rest : List (Text × Nat)}
    (he : o.foreground.entries = e :: rest) {e' : Text × Nat} (he' : e' ∈ o.foreground.entries) :
    e.2 ≤ e'.2 := by
  have hsorted := h.foreground
  rw [he, List.map_cons, List.pairwise_cons] at hsorted
  rw [he] at he'
  rcases List.mem_cons.1 he' with rfl | he'
  · exact le_rfl
  · exact (hsorted.1 e'.2 (List.mem_map_of_mem he')).le

theorem Holds.head_watch (h : o.Holds ready) {e : Text × Nat} {rest : List (Text × Nat)}
    (he : o.watch.entries = e :: rest) {e' : Text × Nat} (he' : e' ∈ o.watch.entries) :
    e.2 ≤ e'.2 := by
  have hsorted := h.watch
  rw [he, List.map_cons, List.pairwise_cons] at hsorted
  rw [he] at he'
  rcases List.mem_cons.1 he' with rfl | he'
  · exact le_rfl
  · exact (hsorted.1 e'.2 (List.mem_map_of_mem he')).le

theorem Holds.head_promoted (h : o.Holds ready) {e : Nat × Text} {rest : List (Nat × Text)}
    (he : o.promoted = e :: rest) {e' : Nat × Text} (he' : e' ∈ o.promoted) : e.1 ≤ e'.1 := by
  have hsorted := h.promoted
  rw [he, List.pairwise_cons] at hsorted
  rw [he] at he'
  rcases List.mem_cons.1 he' with rfl | he'
  · exact le_rfl
  · exact hsorted.1 e' he'

/-- What both sides take next. -/
def Pops (o : RequestOrder) (ready : List Ready) : Prop :=
  ∃ r o', o.popleft = some (r.requestId, o') ∧ ReadyList.next ready = some r ∧
    o'.sequence = o.sequence ∧ o'.Holds (ready.erase r)

theorem Holds.popForeground (h : o.Holds ready) {e : Text × Nat} {rest : List (Text × Nat)}
    (he : o.foreground.entries = e :: rest) (hpop : o.popleft = o.popForeground)
    (hpromoted : ∀ e' ∈ o.promoted, e.2 ≤ e'.1) : o.Pops ready := by
  obtain ⟨hlisted, hsorted⟩ := keys_foreground h he _ rfl
  have hr : (⟨e.1, e.2, true⟩ : Ready) ∈ ready :=
    (mem_ready h).2 (hlisted.mem_iff.2 List.mem_cons_self)
  have hpop' : o.popleft = some (e.1, { o with foreground := o.foreground.erase e.1 }) := by
    rw [hpop, RequestOrder.popForeground, he]
    rfl
  refine ⟨⟨e.1, e.2, true⟩, _, hpop', ?_, ?_, h.erase hlisted rfl hsorted h.watch h.promoted⟩
  · refine h.next_foreground hr rfl fun x hx hforeground => ?_
    have hlisted := mem_listed.1 ((mem_ready h).1 hx)
    simp only [hforeground, true_and, Bool.true_eq_false, false_and, or_false] at hlisted
    rcases hlisted with hx | hx
    · exact h.head_foreground he hx
    · exact hpromoted _ hx
  · rfl

theorem Holds.popPromoted (h : o.Holds ready) {e : Nat × Text} {rest : List (Nat × Text)}
    (he : o.promoted = e :: rest) (hpop : o.popleft = some (e.2, { o with promoted := rest }))
    (hfirst : ∀ e' ∈ o.foreground.entries, e.1 ≤ e'.2) : o.Pops ready := by
  have hlisted : o.listed.Perm (⟨e.2, e.1, true⟩ :: RequestOrder.listed { o with promoted := rest }) := by
    unfold RequestOrder.listed
    rw [he, List.map_cons, ← List.cons_append]
    exact List.perm_middle.append_right _
  have hr : (⟨e.2, e.1, true⟩ : Ready) ∈ ready :=
    (mem_ready h).2 (hlisted.mem_iff.2 List.mem_cons_self)
  have hrest := h.promoted
  rw [he] at hrest
  refine ⟨⟨e.2, e.1, true⟩, _, hpop, ?_, ?_, h.erase hlisted rfl h.foreground h.watch hrest.of_cons⟩
  · refine h.next_foreground hr rfl fun x hx hforeground => ?_
    have hlisted := mem_listed.1 ((mem_ready h).1 hx)
    simp only [hforeground, true_and, Bool.true_eq_false, false_and, or_false] at hlisted
    rcases hlisted with hx | hx
    · exact hfirst _ hx
    · exact h.head_promoted he hx
  · rfl

theorem Holds.popWatch (h : o.Holds ready) {e : Text × Nat} {rest : List (Text × Nat)}
    (he : o.watch.entries = e :: rest) (hpop : o.popleft = o.popWatch)
    (hforeground : o.foreground.entries = []) (hpromoted : o.promoted = []) : o.Pops ready := by
  have hget : o.watch.get? e.1 = some e.2 := Dict.mem_entries.1 (by rw [he]; exact List.mem_cons_self)
  have hlisted : o.listed.Perm
      (⟨e.1, e.2, false⟩ :: RequestOrder.listed { o with watch := o.watch.erase e.1 }) := by
    unfold RequestOrder.listed
    rw [hforeground, hpromoted]
    exact (Dict.entries_perm hget).map fun e => (⟨e.1, e.2, false⟩ : Ready)
  have hall (x : Ready) (hx : x ∈ ready) :
      x.foreground = false ∧ (x.requestId, x.position) ∈ o.watch.entries := by
    have hlisted := mem_listed.1 ((mem_ready h).1 hx)
    rw [hforeground, hpromoted] at hlisted
    simpa using hlisted
  have hr : (⟨e.1, e.2, false⟩ : Ready) ∈ ready :=
    (mem_ready h).2 (hlisted.mem_iff.2 List.mem_cons_self)
  have hpop' : o.popleft = some (e.1, { o with watch := o.watch.erase e.1 }) := by
    rw [hpop, RequestOrder.popWatch, he]
    rfl
  refine ⟨⟨e.1, e.2, false⟩, _, hpop', ?_, ?_, h.erase hlisted rfl h.foreground
    (h.watch.sublist ((Dict.drop_sublist e.1 o.watch.entries).map _)) h.promoted⟩
  · exact h.next_watch hr (fun x hx => (hall x hx).1) fun x hx => h.head_watch he (hall x hx).2
  · rfl

theorem Holds.popleft (h : o.Holds ready) : o.Pops ready ∨
    (o.popleft = none ∧ ReadyList.next ready = none) := by
  cases hpromoted : o.promoted with
  | cons e rest =>
    have hpop : o.popleft = if o.foreground.entries.head?.all fun e' => e.1 < e'.2 then
        some (e.2, { o with promoted := rest }) else o.popForeground := by
      rw [RequestOrder.popleft, hpromoted]
    cases hforeground : o.foreground.entries with
    | nil =>
      rw [hforeground] at hpop
      refine .inl (h.popPromoted hpromoted hpop fun e' he' => ?_)
      rw [hforeground] at he'
      exact absurd he' List.not_mem_nil
    | cons f rest' =>
      rw [hforeground, List.head?_cons, Option.all_some] at hpop
      split_ifs at hpop with hless
      · refine .inl (h.popPromoted hpromoted hpop fun e' he' => ?_)
        exact (of_decide_eq_true hless).le.trans (h.head_foreground hforeground he')
      · refine .inl (h.popForeground hforeground hpop fun e' he' => ?_)
        rw [decide_eq_true_eq, not_lt] at hless
        exact hless.trans (h.head_promoted hpromoted he')
  | nil =>
    have hpop : o.popleft = if o.foreground.entries.isEmpty then o.popWatch else o.popForeground := by
      rw [RequestOrder.popleft, hpromoted]
    cases hforeground : o.foreground.entries with
    | cons f rest' =>
      rw [hforeground] at hpop
      refine .inl (h.popForeground hforeground hpop fun e' he' => ?_)
      rw [hpromoted] at he'
      exact absurd he' List.not_mem_nil
    | nil =>
      rw [hforeground] at hpop
      cases hwatch : o.watch.entries with
      | cons w rest' => exact .inl (h.popWatch hwatch hpop hforeground hpromoted)
      | nil =>
        refine .inr ⟨?_, ?_⟩
        · rw [hpop]
          show o.popWatch = none
          rw [RequestOrder.popWatch, hwatch]
          rfl
        · have hnil : ready = [] := by
            refine List.nil_perm.1 (List.Perm.trans (.of_eq ?_) h.listed)
            rw [RequestOrder.listed, hforeground, hpromoted, hwatch]
            rfl
          rw [hnil]
          rfl

/-- Without a request that stands once, the others are left. -/
theorem Holds.filter_perm (h : o.Holds ready) {r : Ready} {rest : List Ready}
    (hlisted : o.listed.Perm (r :: rest)) :
    rest.Perm (ready.filter (·.requestId ≠ r.requestId)) := by
  have hperm : ready.Perm (r :: rest) := h.listed.symm.trans hlisted
  have hids := (hperm.map (·.requestId)).nodup_iff.1 h.ids
  rw [List.map_cons, List.nodup_cons] at hids
  refine List.Perm.trans (.of_eq ?_) (hperm.filter (·.requestId ≠ r.requestId)).symm
  rw [List.filter_cons_of_neg (by simp)]
  refine (List.filter_eq_self.2 fun x hx => ?_).symm
  rw [decide_eq_true_eq]
  exact fun heq => hids.1 (heq ▸ List.mem_map_of_mem hx)

theorem filter_entries {d : Dict Text Nat} (h : d.get? requestId = none) (foreground : Bool) :
    (d.entries.map fun e => (⟨e.1, e.2, foreground⟩ : Ready)).filter (·.requestId ≠ requestId) =
      d.entries.map fun e => ⟨e.1, e.2, foreground⟩ := by
  rw [List.filter_eq_self]
  intro x hx
  obtain ⟨e, he, rfl⟩ := List.mem_map.1 hx
  rw [decide_eq_true_eq]
  rintro rfl
  exact absurd (h.symm.trans (Dict.mem_entries.1 (show (e.1, e.2) ∈ d.entries from he))) (by simp)

theorem Holds.discard (h : o.Holds ready) (requestId : Text) :
    (o.discard requestId).Holds (ready.filter (·.requestId ≠ requestId)) := by
  have hids : (ready.filter (·.requestId ≠ requestId)).Sublist ready := List.filter_sublist
  have hrest {o' : RequestOrder} (hsequence : o'.sequence = o.sequence)
      (hlisted : o'.listed.Perm (ready.filter (·.requestId ≠ requestId)))
      (hforeground : (o'.foreground.entries.map (·.2)).Pairwise (· < ·))
      (hwatch : (o'.watch.entries.map (·.2)).Pairwise (· < ·))
      (hpromoted : o'.promoted.Pairwise fun a b => a.1 ≤ b.1) :
      o'.Holds (ready.filter (·.requestId ≠ requestId)) :=
    ⟨hlisted, h.ids.sublist (hids.map _), h.growing.sublist hids,
      fun r hr => hsequence ▸ h.bounded r (hids.subset hr), hforeground, hwatch, hpromoted⟩
  unfold RequestOrder.discard
  cases hforeground : o.foreground.get? requestId with
  | some position =>
    rw [Option.isSome_some, if_pos rfl]
    have hlisted : o.listed.Perm (⟨requestId, position, true⟩ ::
        RequestOrder.listed { o with foreground := o.foreground.erase requestId }) := by
      unfold RequestOrder.listed
      rw [← List.cons_append, ← List.cons_append]
      exact (((Dict.entries_perm hforeground).map fun e =>
        (⟨e.1, e.2, true⟩ : Ready)).append_right _).append_right _
    exact hrest rfl (h.filter_perm hlisted)
      (h.foreground.sublist ((Dict.drop_sublist requestId o.foreground.entries).map _)) h.watch
      h.promoted
  | none =>
    rw [Option.isSome_none, if_neg (by simp)]
    cases hwatch : o.watch.get? requestId with
    | some position =>
      rw [Option.isSome_some, if_pos rfl]
      have hlisted : o.listed.Perm (⟨requestId, position, false⟩ ::
          RequestOrder.listed { o with watch := o.watch.erase requestId }) := by
        unfold RequestOrder.listed
        refine (((Dict.entries_perm hwatch).map fun e =>
          (⟨e.1, e.2, false⟩ : Ready)).append_left _).trans ?_
        exact List.perm_middle
      exact hrest rfl (h.filter_perm hlisted) h.foreground
        (h.watch.sublist ((Dict.drop_sublist requestId o.watch.entries).map _)) h.promoted
    | none =>
      rw [Option.isSome_none, if_neg (by simp)]
      refine hrest rfl (List.Perm.trans (.of_eq ?_) (h.listed.filter _)) h.foreground h.watch
        (h.promoted.sublist List.filter_sublist)
      unfold RequestOrder.listed
      rw [List.filter_append, List.filter_append, filter_entries hforeground, filter_entries hwatch,
        List.filter_map]
      rfl

/-! ## All runs -/

/-- One call: the same answer, and the order holds the requests that are ready. -/
theorem Holds.step (h : o.Holds ready) (c : Call) (hc : ReadyList.Admits (ready, o.sequence) c) :
    (o.step c).1 = (ReadyList.step (ready, o.sequence) c).1 ∧
      (o.step c).2.sequence = (ReadyList.step (ready, o.sequence) c).2.2 ∧
      (o.step c).2.Holds (ReadyList.step (ready, o.sequence) c).2.1 := by
  cases c with
  | append requestId origin =>
    refine ⟨rfl, ?_, h.append hc origin⟩
    cases origin with
    | foreground => rfl
    | watch => rfl
  | promote requestId =>
    unfold RequestOrder.step ReadyList.step
    dsimp only
    rw [h.any_watch]
    cases hget : o.watch.get? requestId with
    | none =>
      have hnone : o.promote requestId = none := by
        rw [RequestOrder.promote, hget]
        rfl
      rw [hnone, Option.isSome_none, if_neg (by simp)]
      exact ⟨rfl, rfl, h⟩
    | some position =>
      obtain ⟨o', heq, hsequence, hholds⟩ := h.promote hget
      rw [heq, Option.isSome_some, if_pos rfl]
      exact ⟨rfl, hsequence, hholds⟩
  | discard requestId =>
    refine ⟨rfl, ?_, h.discard requestId⟩
    show (o.discard requestId).sequence = o.sequence
    unfold RequestOrder.discard
    split_ifs <;> rfl
  | popleft =>
    unfold RequestOrder.step ReadyList.step
    dsimp only
    rcases h.popleft with ⟨r, o', hpop, hnext, hsequence, hholds⟩ | ⟨hpop, hnext⟩
    · rw [hpop, hnext]
      exact ⟨rfl, hsequence, hholds⟩
    · rw [hpop, hnext]
      exact ⟨rfl, rfl, h⟩

theorem Holds.answers {calls : List Call} (h : o.Holds ready)
    (hcalls : ReadyList.Admitted (ready, o.sequence) calls) :
    o.answers calls = ReadyList.answers (ready, o.sequence) calls := by
  induction calls generalizing o ready with
  | nil => rfl
  | cons c calls ih =>
    obtain ⟨hanswer, hsequence, hholds⟩ := h.step c hcalls.1
    have hstate : (ReadyList.step (ready, o.sequence) c).2 =
        ((ReadyList.step (ready, o.sequence) c).2.1, (o.step c).2.sequence) := by
      rw [hsequence]
    have hrest := ih hholds (hstate ▸ hcalls.2)
    rw [← hstate] at hrest
    show _ :: _ = _ :: _
    rw [hanswer, hrest, hholds.nonempty]

end RequestOrder

/-- The queue of one request takes the best of its jobs, and the order of the requests takes the
request with the smallest place, foreground requests first. -/
theorem queues_are_lists :
    (∀ lower calls, StageWorkQueue.Numbered calls →
      StageWorkQueue.answers lower {} calls = StageList.answers lower [] calls) ∧
    ∀ calls, ReadyList.Admitted ([], 0) calls →
      RequestOrder.answers {} calls = ReadyList.answers ([], 0) calls :=
  ⟨fun lower _ h => StageWorkQueue.answers_eq lower h, fun _ h => RequestOrder.holds_empty.answers h⟩

/-- A background job that has waited for 320 numbers and a job of another stage. -/
def agedCalls : List StageWorkQueue.Call :=
  [.append ⟨⟨[], [], "background".toList⟩, 0, 1⟩, .append ⟨⟨[], [], "scan".toList⟩, 0, 2⟩,
    .takePrioritized 321, .remove ⟨⟨[], [], "scan".toList⟩, 0, 2⟩]

def promotedCalls : List RequestOrder.Call :=
  [.append ['a'] .watch, .append ['b'] .foreground, .promote ['a'], .popleft, .popleft]

theorem queues_are_lists_promoted :
    StageWorkQueue.answers id {} agedCalls = StageList.answers id [] agedCalls ∧
      RequestOrder.answers {} promotedCalls = ReadyList.answers ([], 0) promotedCalls := by
  refine ⟨queues_are_lists.1 id agedCalls ⟨?_, fun item h => ?_⟩, queues_are_lists.2 promotedCalls ?_⟩
  · simp [agedCalls, StageWorkQueue.appended]
  · simp only [agedCalls, List.mem_cons, reduceCtorEq, StageWorkQueue.Call.remove.injEq, false_or,
      List.not_mem_nil, or_false] at h
    simp [h, agedCalls, StageWorkQueue.appended]
  · simp [ReadyList.Admitted, ReadyList.Admits, ReadyList.step, promotedCalls]

end Sunpack.AsyncWork
