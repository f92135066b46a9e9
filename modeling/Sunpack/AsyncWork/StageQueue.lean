import Sunpack.PathKeys
import Sunpack.Lib.Dict

/-!
# Queues of one request

`_StageWorkQueue` of `async_work.py`: FIFO buckets for the stage priorities, with the only job of a
queue kept aside. What a queue holds is the list `items`; every operation adds or takes one of them.
-/

namespace Sunpack.AsyncWork

open Lib

structure WorkContext where
  requestId : Text
  fileId : Text
  stage : Text
deriving DecidableEq

abbrev Token := Nat

/-- A `_WorkItem` without its operation. -/
structure WorkItem where
  context : WorkContext
  token : Token
  sequence : Nat
deriving DecidableEq

/-- `in`, for texts. -/
def contains (word : String) (text : Text) : Bool := decide (word.toList <:+: text)

/-- `_stage_priority`, of a stage in lower case. -/
def stagePriority (value : Text) : Nat :=
  if contains "background" value then 0
  else if contains "cancel" value || contains "close" value || contains "cleanup" value then 50
  else if contains "commit" value || contains "postprocess" value || contains "promotion" value then
    40
  else if contains "verify" value || contains "continuation" value then 30
  else if contains "preflight" value || contains "admission" value || contains "plan" value then 20
  else 10

structure StageWorkQueue where
  stages : Dict Nat (Dict Nat WorkItem) := ∅
  size : Nat := 0
  /-- The only job, before a second one comes. -/
  first : Option WorkItem := none

namespace StageWorkQueue

-- `str.lower`
variable (lower : Text → Text)

def priority (item : WorkItem) : Nat := stagePriority (lower item.context.stage)

/-- A bucket is there as long as it has jobs. -/
def setBucket (stages : Dict Nat (Dict Nat WorkItem)) (p : Nat) (jobs : Dict Nat WorkItem) :
    Dict Nat (Dict Nat WorkItem) :=
  if jobs.entries.isEmpty then stages.erase p else stages.set p jobs

def append (q : StageWorkQueue) (item : WorkItem) : StageWorkQueue :=
  if q.size = 0 then { q with first := some item, size := 1 }
  else
    let stages := match q.first with
      | some first => q.stages.set (priority lower first) ((∅ : Dict Nat WorkItem).set first.sequence first)
      | none => q.stages
    let p := priority lower item
    let jobs := (stages.get? p).getD ∅
    { stages := stages.set p (jobs.set item.sequence item), size := q.size + 1, first := none }

def remove (q : StageWorkQueue) (item : WorkItem) : Bool × StageWorkQueue :=
  if q.first = some item then (true, { q with first := none, size := 0 })
  else
    let p := priority lower item
    match q.stages.get? p with
    | none => (false, q)
    | some jobs =>
      match jobs.get? item.sequence with
      | none => (false, q)
      | some _ =>
        (true, { q with
          size := q.size - 1
          stages := setBucket q.stages p (jobs.erase item.sequence) })

/-- `_pop`, or nothing where the source raises. -/
def pop (q : StageWorkQueue) (p : Nat) : Option (WorkItem × StageWorkQueue) :=
  (q.stages.get? p).bind fun jobs =>
    jobs.entries.head?.map fun e =>
      (e.2, { q with size := q.size - 1, stages := setBucket q.stages p (jobs.erase e.1) })

/-- The buckets, each with the sequence of its oldest job. -/
def heads (q : StageWorkQueue) : List (Nat × Nat) :=
  q.stages.entries.filterMap fun e => e.2.keys.head?.map fun sequence => (e.1, sequence)

/-- The first of the best elements, as `min` and `max` with a key find it. -/
def best {α : Type} (better : α → α → Bool) : List α → Option α
  | [] => none
  | a :: as => some (as.foldl (fun best a => if better a best then a else best) a)

def popleft (q : StageWorkQueue) : Option (WorkItem × StageWorkQueue) :=
  match q.first with
  | some item => some (item, { q with first := none, size := 0 })
  | none => (best (fun head other => head.2 < other.2) q.heads).bind fun head => q.pop head.1

/-- The priority of a bucket with the age of its oldest job. -/
def aged (currentSequence : Nat) (head : Nat × Nat) : Nat :=
  head.1 + (currentSequence - head.2) / 32

def outranks (currentSequence : Nat) (head other : Nat × Nat) : Bool :=
  aged currentSequence other < aged currentSequence head ||
    aged currentSequence head = aged currentSequence other && head.2 < other.2

def takePrioritized (q : StageWorkQueue) (currentSequence : Nat) :
    Option (WorkItem × StageWorkQueue) :=
  match q.first with
  | some item => some (item, { q with first := none, size := 0 })
  | none =>
    match q.stages.keys with
    | [p] => q.pop p
    | _ => (best (outranks currentSequence) q.heads).bind fun head => q.pop head.1

/-! ## What a queue holds -/

def bucketItems (stages : Dict Nat (Dict Nat WorkItem)) : List WorkItem :=
  stages.entries.flatMap fun e => e.2.values

def items (q : StageWorkQueue) : List WorkItem := q.first.toList ++ bucketItems q.stages

structure Valid (q : StageWorkQueue) : Prop where
  first : ∀ item, q.first = some item → q.stages.entries = [] ∧ q.size = 1
  size : q.size = q.items.length
  bucket : ∀ p jobs, q.stages.get? p = some jobs → jobs.entries ≠ [] ∧
    ∀ sequence item, jobs.get? sequence = some item →
      item.sequence = sequence ∧ priority lower item = p

variable {lower} {q : StageWorkQueue} {item : WorkItem}

theorem valid_empty : Valid lower {} where
  first _ h := absurd h (by simp)
  size := rfl
  bucket _ _ h := absurd h (by simp)

theorem bucketItems_set (stages : Dict Nat (Dict Nat WorkItem)) (p : Nat)
    (jobs : Dict Nat WorkItem) :
    (bucketItems (stages.set p jobs)).Perm (jobs.values ++ bucketItems (stages.erase p)) :=
  (Dict.entries_set_perm stages p jobs).flatMap_right _

theorem bucketItems_get {stages : Dict Nat (Dict Nat WorkItem)} {p : Nat}
    {jobs : Dict Nat WorkItem} (h : stages.get? p = some jobs) :
    (bucketItems stages).Perm (jobs.values ++ bucketItems (stages.erase p)) :=
  (Dict.entries_perm h).flatMap_right _

theorem bucketItems_setBucket (stages : Dict Nat (Dict Nat WorkItem)) (p : Nat)
    (jobs : Dict Nat WorkItem) :
    (bucketItems (setBucket stages p jobs)).Perm
      (jobs.values ++ bucketItems (stages.erase p)) := by
  unfold setBucket
  split_ifs with hempty
  · have hvalues : jobs.values = [] := by
      rw [Dict.values, List.isEmpty_iff.1 hempty, List.map_nil]
    rw [hvalues, List.nil_append]
  · exact bucketItems_set stages p jobs

theorem mem_bucketItems {stages : Dict Nat (Dict Nat WorkItem)} :
    item ∈ bucketItems stages ↔
      ∃ p jobs sequence, stages.get? p = some jobs ∧ jobs.get? sequence = some item := by
  simp only [bucketItems, List.mem_flatMap, Prod.exists, Dict.mem_entries, Dict.values,
    List.mem_map]
  constructor
  · rintro ⟨p, jobs, hp, sequence, x, hx, rfl⟩
    exact ⟨p, jobs, sequence, hp, hx⟩
  · rintro ⟨p, jobs, sequence, hp, hx⟩
    exact ⟨p, jobs, hp, sequence, item, hx, rfl⟩

theorem best_mem {α : Type} (better : α → α → Bool) {as : List α} (h : as ≠ []) :
    ∃ a ∈ as, best better as = some a := by
  have hfold (as : List α) (b : α) :
      as.foldl (fun best a => if better a best then a else best) b ∈ b :: as := by
    induction as generalizing b with
    | nil => exact List.mem_singleton_self b
    | cons a as ih =>
      rw [List.foldl_cons]
      split_ifs
      · exact List.mem_cons_of_mem b (ih a)
      · rcases List.mem_cons.1 (ih b) with heq | hmem
        · rw [heq]
          exact List.mem_cons_self
        · exact List.mem_cons_of_mem b (List.mem_cons_of_mem a hmem)
  cases as with
  | nil => exact absurd rfl h
  | cons a as => exact ⟨_, hfold as a, rfl⟩

/-! ## The operations -/

theorem Valid.setBucket_bucket (h : q.Valid lower) {p : Nat} {jobs : Dict Nat WorkItem}
    (hjobs : ∀ sequence item, jobs.get? sequence = some item →
      item.sequence = sequence ∧ priority lower item = p) :
    ∀ p' jobs', (setBucket q.stages p jobs).get? p' = some jobs' → jobs'.entries ≠ [] ∧
      ∀ sequence item, jobs'.get? sequence = some item →
        item.sequence = sequence ∧ priority lower item = p' := by
  intro p' jobs' hget
  unfold setBucket at hget
  split_ifs at hget with hempty
  · rw [Dict.get?_erase] at hget
    split_ifs at hget with heq
    exact h.bucket p' jobs' hget
  · rw [Dict.get?_set] at hget
    split_ifs at hget with heq
    · obtain rfl := Option.some.inj hget
      refine ⟨fun hnil => hempty (by rw [hnil]; rfl), heq ▸ hjobs⟩
    · exact h.bucket p' jobs' hget

/-- The bucketed part of `append`. -/
def insert (lower : Text → Text) (q : StageWorkQueue) (item : WorkItem) : StageWorkQueue where
  stages := q.stages.set (priority lower item)
    (((q.stages.get? (priority lower item)).getD ∅).set item.sequence item)
  size := q.size + 1
  first := none

theorem Valid.insert (h : q.Valid lower) (hfirst : q.first = none)
    (hnew : ∀ x ∈ q.items, x.sequence ≠ item.sequence) :
    (q.insert lower item).Valid lower ∧ (q.insert lower item).items.Perm (item :: q.items) := by
  obtain ⟨jobs, hjobs⟩ : ∃ jobs, (q.stages.get? (priority lower item)).getD ∅ = jobs := ⟨_, rfl⟩
  have hmem (sequence : Nat) (x : WorkItem) (hx : jobs.get? sequence = some x) :
      q.stages.get? (priority lower item) = some jobs := by
    cases hget : q.stages.get? (priority lower item) with
    | none =>
      rw [hget, Option.getD_none] at hjobs
      rw [← hjobs] at hx
      exact absurd hx (by simp)
    | some jobs' => rw [← hjobs, hget, Option.getD_some]
  have habsent : jobs.get? item.sequence = none := by
    rw [Option.eq_none_iff_forall_ne_some]
    intro x hx
    have hp := hmem _ _ hx
    refine hnew x ?_ ((h.bucket _ jobs hp).2 _ x hx).1
    rw [items, hfirst]
    exact mem_bucketItems.2 ⟨_, jobs, _, hp, hx⟩
  have hold : (bucketItems q.stages).Perm
      (jobs.values ++ bucketItems (q.stages.erase (priority lower item))) := by
    cases hget : q.stages.get? (priority lower item) with
    | none =>
      have hempty : jobs = ∅ := by rw [← hjobs, hget, Option.getD_none]
      rw [hempty, bucketItems, bucketItems, Dict.erase_of_get?_none hget]
      exact List.Perm.refl _
    | some jobs' =>
      have hsame : jobs = jobs' := by rw [← hjobs, hget, Option.getD_some]
      exact hsame ▸ bucketItems_get hget
  have hperm : (q.insert lower item).items.Perm (item :: q.items) := by
    rw [items, items, hfirst, StageWorkQueue.insert, hjobs]
    refine (bucketItems_set _ _ _).trans ?_
    rw [Dict.values_set_new habsent, List.append_assoc]
    exact List.perm_middle.trans (hold.symm.cons item)
  refine ⟨⟨?_, ?_, ?_⟩, hperm⟩
  · intro x hx
    exact absurd hx (by simp [StageWorkQueue.insert])
  · rw [hperm.length_eq, List.length_cons, ← h.size]
    rfl
  · intro p' jobs' hget
    rw [StageWorkQueue.insert, hjobs, Dict.get?_set] at hget
    split_ifs at hget with heq
    · obtain rfl := Option.some.inj hget
      refine ⟨?_, fun sequence x hx => ?_⟩
      · rw [Dict.entries_set_new habsent]
        simp
      · rw [Dict.get?_set] at hx
        split_ifs at hx with hseq
        · obtain rfl := Option.some.inj hx
          exact ⟨hseq.symm, heq.symm⟩
        · exact heq ▸ (h.bucket _ jobs (hmem _ _ hx)).2 sequence x hx
    · exact h.bucket p' jobs' hget

theorem Valid.no_buckets (h : q.Valid lower) (hitems : q.items = []) : q.stages.entries = [] := by
  rw [List.eq_nil_iff_forall_not_mem]
  rintro ⟨p, jobs⟩ hmem
  have hp := Dict.mem_entries.1 hmem
  obtain ⟨⟨sequence, x⟩, hx⟩ := List.exists_mem_of_ne_nil _ (h.bucket p jobs hp).1
  have hin : x ∈ q.items := List.mem_append_right _
    (mem_bucketItems.2 ⟨p, jobs, sequence, hp, Dict.mem_entries.1 hx⟩)
  rw [hitems] at hin
  exact List.not_mem_nil hin

theorem Valid.append (h : q.Valid lower) (hnew : ∀ x ∈ q.items, x.sequence ≠ item.sequence) :
    (q.append lower item).Valid lower ∧ (q.append lower item).items.Perm (item :: q.items) := by
  by_cases hsize : q.size = 0
  · have hitems : q.items = [] := List.eq_nil_of_length_eq_zero (h.size.symm.trans hsize)
    have hbuckets := h.no_buckets hitems
    have happend : q.append lower item = { q with first := some item, size := 1 } := if_pos hsize
    have hitems' : (q.append lower item).items = [item] := by
      rw [happend, items, bucketItems, hbuckets]
      rfl
    refine ⟨⟨fun _ _ => ?_, ?_, ?_⟩, ?_⟩
    · rw [happend]
      exact ⟨hbuckets, rfl⟩
    · rw [hitems', happend]
      rfl
    · rw [happend]
      exact h.bucket
    · rw [hitems', hitems]
  · cases hfirst : q.first with
    | none =>
      have happend : q.append lower item = q.insert lower item := by
        rw [StageWorkQueue.append, if_neg hsize, hfirst]
        rfl
      rw [happend]
      exact h.insert hfirst hnew
    | some first =>
      obtain ⟨hbuckets, hone⟩ := h.first first hfirst
      have hnone (p : Nat) : q.stages.get? p = none := by
        rw [Dict.get?_eq_none, Dict.keys, hbuckets]
        exact List.not_mem_nil
      obtain ⟨hmoved, hmovedItems⟩ := @Valid.insert lower { q with first := none, size := 0 } first
        ⟨fun _ hx => absurd hx (by simp), by simp [items, bucketItems, hbuckets], h.bucket⟩ rfl
        (by simp [items, bucketItems, hbuckets])
      have happend : q.append lower item =
          ({ q with first := none, size := 0 }.insert lower first).insert lower item := by
        rw [StageWorkQueue.append, if_neg hsize, hfirst, hone]
        simp only [StageWorkQueue.insert, hnone, Option.getD_none, Nat.zero_add]
      have hitems : ({ q with first := none, size := 0 }.insert lower first).items.Perm q.items := by
        refine hmovedItems.trans ?_
        simp [items, bucketItems, hbuckets, hfirst]
      obtain ⟨hvalid, hperm⟩ := @Valid.insert lower _ item hmoved rfl fun x hx =>
        hnew x (hitems.mem_iff.1 hx)
      rw [happend]
      exact ⟨hvalid, hperm.trans (hitems.cons item)⟩

/-- One job is taken out of its bucket. -/
theorem Valid.take (h : q.Valid lower) (hfirst : q.first = none) {p sequence : Nat}
    {jobs : Dict Nat WorkItem} (hp : q.stages.get? p = some jobs)
    (hitem : jobs.get? sequence = some item) :
    let q' := { q with
      size := q.size - 1, stages := setBucket q.stages p (jobs.erase sequence) }
    q'.Valid lower ∧ q.items.Perm (item :: q'.items) := by
  intro q'
  have hjobs : jobs.values.Perm (item :: (jobs.erase sequence).values) :=
    (Dict.entries_perm hitem).map Prod.snd
  have hperm : q.items.Perm (item :: q'.items) := by
    show (q.first.toList ++ bucketItems q.stages).Perm
      (item :: (q.first.toList ++ bucketItems (setBucket q.stages p (jobs.erase sequence))))
    rw [hfirst, Option.toList_none, List.nil_append, List.nil_append]
    refine (bucketItems_get hp).trans ?_
    refine (hjobs.append_right _).trans ?_
    exact (bucketItems_setBucket q.stages p (jobs.erase sequence)).symm.cons item
  refine ⟨⟨?_, ?_, ?_⟩, hperm⟩
  · intro x hx
    rw [show q'.first = none from hfirst] at hx
    exact absurd hx (by simp)
  · show q.size - 1 = q'.items.length
    rw [h.size, hperm.length_eq, List.length_cons, Nat.add_sub_cancel]
  · refine h.setBucket_bucket fun sequence' item' hget => ?_
    rw [Dict.get?_erase] at hget
    split_ifs at hget
    exact (h.bucket p jobs hp).2 sequence' item' hget

theorem Valid.take_first (h : q.Valid lower) (hfirst : q.first = some item) :
    Valid lower { q with first := none, size := 0 } ∧
      q.items = item :: items { q with first := none, size := 0 } := by
  obtain ⟨hbuckets, _⟩ := h.first item hfirst
  refine ⟨⟨fun _ hx => absurd hx (by simp), ?_, h.bucket⟩, ?_⟩
  · simp [items, bucketItems, hbuckets]
  · simp [items, bucketItems, hbuckets, hfirst]

/-- A job is removed exactly when it is there. -/
theorem Valid.remove (h : q.Valid lower)
    (hunique : ∀ x ∈ q.items, x.sequence = item.sequence → x = item) :
    (item ∈ q.items ∧ ∃ q', q.remove lower item = (true, q') ∧ q'.Valid lower ∧
      q.items.Perm (item :: q'.items)) ∨ (item ∉ q.items ∧ q.remove lower item = (false, q)) := by
  unfold StageWorkQueue.remove
  by_cases hfirst : q.first = some item
  · rw [if_pos hfirst]
    obtain ⟨hvalid, hitems⟩ := h.take_first hfirst
    refine .inl ⟨by rw [hitems]; exact List.mem_cons_self, _, rfl, hvalid, by rw [hitems]⟩
  rw [if_neg hfirst]
  have hother (x : WorkItem) (hx : q.first = some x) : x ≠ item := by
    rintro rfl
    exact hfirst hx
  have hmem : item ∈ q.items ↔ ∃ jobs, q.stages.get? (priority lower item) = some jobs ∧
      jobs.get? item.sequence = some item := by
    rw [items, List.mem_append, Option.mem_toList, mem_bucketItems]
    constructor
    · rintro (hx | ⟨p, jobs, sequence, hp, hitem⟩)
      · exact absurd rfl (hother item hx)
      · obtain ⟨rfl, rfl⟩ := (h.bucket p jobs hp).2 sequence item hitem
        exact ⟨jobs, hp, hitem⟩
    · rintro ⟨jobs, hp, hitem⟩
      exact .inr ⟨_, jobs, _, hp, hitem⟩
  cases hp : q.stages.get? (priority lower item) with
  | none =>
    refine .inr ⟨fun hin => ?_, by simp only [hp]⟩
    obtain ⟨jobs, hjobs, _⟩ := hmem.1 hin
    rw [hp] at hjobs
    exact absurd hjobs (by simp)
  | some jobs =>
    cases hget : jobs.get? item.sequence with
    | none =>
      refine .inr ⟨fun hin => ?_, by simp only [hp, hget]⟩
      obtain ⟨jobs', hjobs, hitem⟩ := hmem.1 hin
      obtain rfl := Option.some.inj (hp.symm.trans hjobs)
      rw [hget] at hitem
      exact absurd hitem (by simp)
    | some x =>
      have hin : x ∈ q.items := List.mem_append_right _ (mem_bucketItems.2 ⟨_, jobs, _, hp, hget⟩)
      obtain rfl := hunique x hin ((h.bucket _ jobs hp).2 _ x hget).1
      have hnone : q.first = none := by
        cases hq : q.first with
        | none => rfl
        | some first =>
          have hempty := (h.first first hq).1
          rw [Dict.get?, hempty] at hp
          exact absurd hp (by simp [Dict.find])
      refine .inl ⟨hin, _, by simp only [hp, hget], h.take hnone hp hget⟩

theorem Valid.pop (h : q.Valid lower) (hfirst : q.first = none) {p : Nat}
    (hp : q.stages.get? p ≠ none) :
    ∃ item q', q.pop p = some (item, q') ∧ q'.Valid lower ∧ q.items.Perm (item :: q'.items) := by
  obtain ⟨jobs, hjobs⟩ := Option.ne_none_iff_exists'.1 hp
  obtain ⟨e, rest, hentries⟩ := List.exists_cons_of_ne_nil (h.bucket p jobs hjobs).1
  have hget : jobs.get? e.1 = some e.2 := Dict.mem_entries.1 (by rw [hentries]; simp)
  refine ⟨e.2, _, ?_, h.take hfirst hjobs hget⟩
  rw [StageWorkQueue.pop, hjobs]
  simp only [Option.bind_some, hentries, List.head?_cons, Option.map_some]

/-- A queue with jobs and no first one has buckets, and each of them has a head. -/
theorem Valid.heads (h : q.Valid lower) (hfirst : q.first = none) (hsize : q.size ≠ 0) :
    q.heads ≠ [] ∧ ∀ head ∈ q.heads, q.stages.get? head.1 ≠ none := by
  constructor
  · rw [h.size] at hsize
    obtain ⟨x, hx⟩ := List.exists_mem_of_length_pos (Nat.pos_of_ne_zero hsize)
    rw [items, hfirst, Option.toList_none, List.nil_append] at hx
    obtain ⟨p, jobs, _, hp, _⟩ := mem_bucketItems.1 hx
    obtain ⟨e, rest, hentries⟩ := List.exists_cons_of_ne_nil (h.bucket p jobs hp).1
    have hhead : (p, e.1) ∈ q.heads := by
      refine List.mem_filterMap.2 ⟨(p, jobs), Dict.mem_entries.2 hp, ?_⟩
      simp only [Dict.keys, hentries, List.map_cons, List.head?_cons, Option.map_some]
    exact List.ne_nil_of_mem hhead
  · intro head hhead
    obtain ⟨e, he, heq⟩ := List.mem_filterMap.1 hhead
    obtain ⟨_, _, rfl⟩ := Option.map_eq_some_iff.1 heq
    rw [Dict.mem_entries.1 (show (e.1, e.2) ∈ q.stages.entries from he)]
    exact Option.some_ne_none _

theorem Valid.popleft (h : q.Valid lower) (hsize : q.size ≠ 0) :
    ∃ item q', q.popleft = some (item, q') ∧ q'.Valid lower ∧ q.items.Perm (item :: q'.items) := by
  unfold StageWorkQueue.popleft
  cases hfirst : q.first with
  | some item =>
    obtain ⟨hvalid, hitems⟩ := h.take_first hfirst
    exact ⟨item, _, rfl, hvalid, by rw [hitems]⟩
  | none =>
    obtain ⟨hne, hheads⟩ := h.heads hfirst hsize
    obtain ⟨head, hmem, hbest⟩ := best_mem (fun head other => head.2 < other.2) hne
    simp only [hbest, Option.bind_some]
    exact h.pop hfirst (hheads head hmem)

theorem Valid.takePrioritized (h : q.Valid lower) (hsize : q.size ≠ 0) (currentSequence : Nat) :
    ∃ item q', q.takePrioritized currentSequence = some (item, q') ∧ q'.Valid lower ∧
      q.items.Perm (item :: q'.items) := by
  unfold StageWorkQueue.takePrioritized
  cases hfirst : q.first with
  | some item =>
    obtain ⟨hvalid, hitems⟩ := h.take_first hfirst
    exact ⟨item, _, rfl, hvalid, by rw [hitems]⟩
  | none =>
    obtain ⟨hne, hheads⟩ := h.heads hfirst hsize
    dsimp only
    split
    · rename_i p hkeys
      refine h.pop hfirst (Dict.mem_keys.1 ?_)
      rw [hkeys]
      exact List.mem_singleton_self p
    · obtain ⟨head, hmem, hbest⟩ := best_mem (outranks currentSequence) hne
      simp only [hbest, Option.bind_some]
      exact h.pop hfirst (hheads head hmem)

end StageWorkQueue

end Sunpack.AsyncWork
